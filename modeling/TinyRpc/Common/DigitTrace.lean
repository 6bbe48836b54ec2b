/-
What DigitGen reads from its table and which digits it converts (`DigitGen` in common/string.hpp).

The loops of Grisu.lean are run once more with a log: an entry for every digit that becomes a character and one for every
read of `kPow10`. `grisu2Traced_fst` says that the log changes nothing.

The table has ten entries and the loops read it once, when they stop. Before the point the index is the number of digits
that are left there, nine at most. Behind the point it is the number of digits generated there, and nothing but the width
of the interval bounds that.

- `table_reads_iff`: for every positive finite double, all reads are in the table and all digits are digits exactly when
  the interval that DigitGen is given contains a number with at most nine digits behind the point.
- `grisu2_length`: there are 30 digits at most, whatever the double is.
-/
import Mathlib.Tactic
import TinyRpc.Common.Grisu

namespace TinyRpc.Common

open TinyRpc.Core

/-! ## Model -/

/-- what DigitGen does that has a bound -/
inductive Access where
  /-- `'0' + d` -/
  | digit (d : ℕ)
  /-- `kPow10[i]` -/
  | kPow10 (i : ℕ)
deriving DecidableEq, Repr

/-- ten digits, and ten entries in the table -/
def Access.Ok : Access → Prop
  | digit d => d ≤ 9
  | kPow10 i => i < 10

instance : DecidablePred Access.Ok
  | .digit d => inferInstanceAs (Decidable (d ≤ 9))
  | .kPow10 i => inferInstanceAs (Decidable (i < 10))

/-- the conversion in `pushDigit`, if there is one -/
def digitAccess (buffer : List Byte) (d : ℕ) : List Access := if d ≠ 0 ∨ buffer.length ≠ 0 then [.digit d] else []

section DigitGen

variable (fuel : ℕ) (oob : ℕ → ℕ) (s wp_w : ℕ) (K : ℤ)

/-- `fractionLoop` with its log -/
def fractionLoopTraced : ℕ → ℕ → ℕ → ℕ → List Byte → Bool → Option Digits × List Access
  | 0, _, _, _, _, _ => (none, [])
  | n + 1, j, p2, delta, buffer, exact =>
    let exact := exact && decide (p2 * 10 < 2 ^ 64 ∧ delta * 10 < 2 ^ 64)
    let p2 := u64 (p2 * 10)
    let delta := u64 (delta * 10)
    let d := (p2 >>> s) % 2 ^ 8
    let log := digitAccess buffer d
    let buffer := pushDigit buffer d
    let p2 := p2 &&& (2 ^ s - 1)
    if p2 < delta then
      ((grisuRound fuel buffer delta p2 (2 ^ s) (u64 (wp_w * kPow10 oob (j + 1)))).map fun buffer =>
        ⟨buffer, K + -(j + 1 : ℕ), exact⟩, log ++ [.kPow10 (j + 1)])
    else
      let rest := fractionLoopTraced n (j + 1) p2 delta buffer exact
      (rest.1, log ++ rest.2)

/-- `integerLoop` with its log -/
def integerLoopTraced (p2 delta : ℕ) (exact : Bool) : ℕ → ℕ → List Byte → Option Digits × List Access
  | 0, _, buffer => fractionLoopTraced fuel oob s wp_w K fuel 0 p2 delta buffer exact
  | kappa + 1, p1, buffer =>
    let (d, p1) := splitDigit (kappa + 1) p1
    let log := digitAccess buffer d
    let buffer := pushDigit buffer d
    let tmp := u64 (u64 (p1 <<< s) + p2)
    if tmp ≤ delta then
      ((grisuRound fuel buffer delta tmp (u64 (kPow10 oob kappa <<< s)) wp_w).map fun buffer => ⟨buffer, K + kappa, exact⟩,
        log ++ [.kPow10 kappa])
    else
      let rest := integerLoopTraced p2 delta exact kappa p1 buffer
      (rest.1, log ++ rest.2)

end DigitGen

/-- `digitGen` with its log; an assertion that fails comes before all of it -/
def digitGenTraced (fuel : ℕ) (oob : ℕ → ℕ) (W Mp : DiyFp) (delta : ℕ) (K : ℤ) : Option Digits × List Access :=
  let s := (-Mp.e).toNat
  match Mp.sub W with
  | none => (none, [])
  | some wp_w =>
    let p1 := (Mp.f >>> s) % 2 ^ 32
    let p2 := Mp.f &&& (2 ^ s - 1)
    integerLoopTraced fuel oob s wp_w.f K p2 delta (decide (Mp.f >>> s < 2 ^ 32)) (countDecimalDigit32 p1) p1 []

/-- `grisu2` with its log -/
def grisu2Traced (fuel : ℕ) (oob : ℕ → ℕ) (value : BitVec 64) : Option Digits × List Access :=
  match digitGenArgs fuel value with
  | none => (none, [])
  | some a => digitGenTraced fuel oob a.W a.Mp a.delta a.K

/-! ## The log changes nothing -/

section

variable (fuel : ℕ) (oob : ℕ → ℕ) (s wp_w : ℕ) (K : ℤ)

theorem fractionLoopTraced_fst (n j p2 delta : ℕ) (buffer : List Byte) (exact : Bool) :
    (fractionLoopTraced fuel oob s wp_w K n j p2 delta buffer exact).1 =
      fractionLoop fuel oob s wp_w K n j p2 delta buffer exact := by
  induction n generalizing j p2 delta buffer exact with
  | zero => rfl
  | succ n ih =>
    simp only [fractionLoopTraced, fractionLoop]
    split_ifs with hstop
    · rfl
    · exact ih _ _ _ _ _

theorem integerLoopTraced_fst (p2 delta : ℕ) (exact : Bool) (kappa p1 : ℕ) (buffer : List Byte) :
    (integerLoopTraced fuel oob s wp_w K p2 delta exact kappa p1 buffer).1 =
      integerLoop fuel oob s wp_w K p2 delta exact kappa p1 buffer := by
  induction kappa generalizing p1 buffer with
  | zero => exact fractionLoopTraced_fst fuel oob s wp_w K fuel 0 p2 delta buffer exact
  | succ kappa ih =>
    simp only [integerLoopTraced, integerLoop]
    split_ifs with hstop
    · rfl
    · exact ih _ _

end

theorem grisu2Traced_fst (fuel : ℕ) (oob : ℕ → ℕ) (value : BitVec 64) :
    (grisu2Traced fuel oob value).1 = grisu2 fuel oob value := by
  rw [grisu2_eq, grisu2Traced]
  cases digitGenArgs fuel value with
  | none => rfl
  | some a =>
    simp only [digitGenTraced, digitGen, Option.bind_some, Option.bind_eq_bind]
    cases a.Mp.sub a.W with
    | none => rfl
    | some wp_w => exact integerLoopTraced_fst _ _ _ _ _ _ _ _ _ _ _

/-! ## When the loops stop -/

/-- the remainder after `i` digits behind the point is smaller than `delta` there -/
def Stops (s Mp delta i : ℕ) : Prop := Mp * 10 ^ i % 2 ^ s < delta * 10 ^ i

/-- a remainder that is small enough stays so: the digit that is taken off only makes it smaller -/
theorem Stops.succ {s Mp delta i : ℕ} (h : Stops s Mp delta i) : Stops s Mp delta (i + 1) := by
  calc Mp * 10 ^ (i + 1) % 2 ^ s = Mp * 10 ^ i % 2 ^ s * 10 % 2 ^ s := by rw [Nat.mod_mul_mod, pow_succ, mul_assoc]
    _ ≤ Mp * 10 ^ i % 2 ^ s * 10 := Nat.mod_le _ _
    _ < delta * 10 ^ i * 10 := Nat.mul_lt_mul_of_pos_right h (by decide)
    _ = delta * 10 ^ (i + 1) := by ring

theorem Stops.mono {s Mp delta i j : ℕ} (h : Stops s Mp delta i) (hle : i ≤ j) : Stops s Mp delta j := by
  induction j, hle using Nat.le_induction with
  | base => exact h
  | succ j _ ih => exact ih.succ

/-- digits, `n` at most, and then one read of the table, at index `i` -/
def Logs (log : List Access) (n i : ℕ) : Prop :=
  ∃ ds : List ℕ, log = ds.map .digit ++ [.kPow10 i] ∧ (∀ d ∈ ds, d ≤ 9) ∧ ds.length ≤ n

theorem logs_read (i : ℕ) : Logs [.kPow10 i] 0 i := ⟨[], rfl, by simp, Nat.le_refl 0⟩

theorem Logs.push {log : List Access} {n i d : ℕ} (h : Logs log n i) (buffer : List Byte) (hd : d ≤ 9) :
    Logs (digitAccess buffer d ++ log) (n + 1) i := by
  obtain ⟨ds, rfl, hds, hlen⟩ := h
  unfold digitAccess
  split_ifs
  · exact ⟨d :: ds, rfl, List.forall_mem_cons.2 ⟨hd, hds⟩, Nat.succ_le_succ hlen⟩
  · exact ⟨ds, rfl, hds, hlen.trans (Nat.le_succ n)⟩

theorem Logs.mono {log : List Access} {m n i : ℕ} (h : Logs log m i) (hle : m ≤ n) : Logs log n i := by
  obtain ⟨ds, hlog, hds, hlen⟩ := h
  exact ⟨ds, hlog, hds, hlen.trans hle⟩

theorem Logs.length_le {log : List Access} {n i : ℕ} (h : Logs log n i) : log.length ≤ n + 1 := by
  obtain ⟨ds, rfl, -, hlen⟩ := h
  simpa using hlen

theorem Logs.ok_iff {log : List Access} {n i : ℕ} (h : Logs log n i) : (∀ a ∈ log, a.Ok) ↔ i < 10 := by
  obtain ⟨ds, rfl, hds, -⟩ := h
  rw [List.forall_mem_append, List.forall_mem_singleton]
  refine and_iff_right ?_
  intro a ha
  obtain ⟨d, hd, rfl⟩ := List.mem_map.1 ha
  exact hds d hd

section

variable (fuel : ℕ) {s Mp delta : ℕ} (oob : ℕ → ℕ) (wp_w : ℕ) (K : ℤ)

/-- Behind the point, the table is read at the first number of digits that stops. -/
theorem fractionLoopTraced_logs (hs : s ≤ 60) (hdelta : 0 < delta) {n j p2 : ℕ} (buffer : List Byte) (exact : Bool)
    (hn : 20 ≤ n + j) (hp2 : Mp * 10 ^ j % 2 ^ s = p2) (hle : delta * 10 ^ j ≤ p2) :
    ∃ i, j < i ∧ i ≤ 20 ∧ Stops s Mp delta i ∧ ¬ Stops s Mp delta (i - 1) ∧
      Logs (fractionLoopTraced fuel oob s wp_w K n j p2 (delta * 10 ^ j) buffer exact).2 (i - j) i := by
  have hlt : p2 < 2 ^ s := hp2 ▸ Nat.mod_lt _ (Nat.two_pow_pos s)
  have hj := places_lt hs hdelta hlt hle
  induction n generalizing j p2 buffer exact with
  | zero => omega
  | succ n ih =>
    obtain ⟨hp2fit, hdeltafit, hd, hshift⟩ := fraction_digit hs hlt hle
    have hten : delta * 10 ^ j * 10 = delta * 10 ^ (j + 1) := by ring
    have hrem : p2 * 10 % 2 ^ s = Mp * 10 ^ (j + 1) % 2 ^ s := by
      rw [← hp2, Nat.mod_mul_mod, pow_succ, mul_assoc]
    simp only [fractionLoopTraced]
    rw [u64_of_lt hp2fit, u64_of_lt hdeltafit, hten, hshift, Nat.and_two_pow_sub_one_eq_mod, hrem]
    split_ifs with hstop
    · refine ⟨j + 1, Nat.lt_succ_self j, hj, hstop, ?_, ?_⟩
      · rw [Nat.add_sub_cancel, Stops, hp2, not_lt]
        exact hle
      · rw [Nat.add_sub_cancel_left]
        exact (logs_read (j + 1)).push buffer hd
    · obtain ⟨i, hi, hi20, hstops, hleast, hlogs⟩ := ih (pushDigit buffer (p2 * 10 / 2 ^ s))
        (exact && decide (p2 * 10 < 2 ^ 64 ∧ delta * 10 ^ (j + 1) < 2 ^ 64)) (by omega) rfl (not_lt.1 hstop)
        (Nat.mod_lt _ (Nat.two_pow_pos s)) (places_lt hs hdelta (Nat.mod_lt _ (Nat.two_pow_pos s)) (not_lt.1 hstop))
      refine ⟨i, by omega, hi20, hstops, hleast, ?_⟩
      have hcount : i - j = i - (j + 1) + 1 := by omega
      rw [hcount]
      exact hlogs.push buffer hd

/-- Before the point the index is in the table. The first loop is left without a read exactly when the remainder behind the
point alone is more than `delta`. -/
theorem integerLoopTraced_logs (hs : s ≤ 60) (hdelta : 0 < delta) (hfuel : 20 ≤ fuel) {kappa p1 : ℕ} (buffer : List Byte)
    (exact : Bool) (hk : kappa ≤ 10) (hp1 : p1 < 10 ^ kappa) (hfit : p1 * 2 ^ s + Mp % 2 ^ s < 2 ^ 64)
    (hlt : delta < p1 * 2 ^ s + Mp % 2 ^ s) :
    ∃ i, (i < 10 ↔ Mp % 2 ^ s ≤ delta ∨ Stops s Mp delta 9) ∧
      Logs (integerLoopTraced fuel oob s wp_w K (Mp % 2 ^ s) delta exact kappa p1 buffer).2 (kappa + 20) i := by
  induction kappa generalizing p1 buffer with
  | zero =>
    have hp1 : p1 = 0 := by omega
    subst hp1
    obtain ⟨i, -, hi20, hstops, hleast, hlogs⟩ := fractionLoopTraced_logs fuel oob wp_w K hs hdelta buffer exact
      (show 20 ≤ fuel + 0 by omega) (by rw [pow_zero, mul_one]) (show delta * 10 ^ 0 ≤ Mp % 2 ^ s by omega)
    rw [pow_zero, mul_one] at hlogs
    refine ⟨i, ?_, hlogs.mono (by omega)⟩
    rw [or_iff_right (by omega)]
    refine ⟨fun hi => hstops.mono (by omega), fun h9 => ?_⟩
    by_contra hi
    exact hleast (h9.mono (by omega))
  | succ kappa ih =>
    obtain ⟨hdigit, hd⟩ := splitDigit_eq (Nat.lt_of_succ_le hk) hp1
    have hrem : p1 % 10 ^ kappa < 10 ^ kappa := Nat.mod_lt _ (by positivity)
    have hle : p1 % 10 ^ kappa * 2 ^ s ≤ p1 * 2 ^ s := Nat.mul_le_mul_right _ (Nat.mod_le _ _)
    simp only [integerLoopTraced, hdigit]
    rw [Nat.shiftLeft_eq, u64_of_lt (n := p1 % 10 ^ kappa * 2 ^ s) (by omega),
      u64_of_lt (n := p1 % 10 ^ kappa * 2 ^ s + Mp % 2 ^ s) (by omega)]
    split_ifs with hstop
    · refine ⟨kappa, ?_, ((logs_read kappa).push buffer hd).mono (by omega)⟩
      exact iff_of_true (by omega) (Or.inl (by omega))
    · obtain ⟨i, hi, hlogs⟩ := ih (pushDigit buffer (p1 / 10 ^ kappa)) (by omega) hrem (by omega) (not_le.1 hstop)
      exact ⟨i, hi, (hlogs.push buffer hd).mono (by omega)⟩

end

/-- the call that Grisu2 makes -/
theorem digitGenTraced_logs {fuel : ℕ} (hfuel : 20 ≤ fuel) (oob : ℕ → ℕ) {a : DigitGenArgs} (h : a.Ready) :
    ∃ i, (i < 10 ↔ a.Mp.f % 2 ^ (-a.Mp.e).toNat ≤ a.delta ∨ Stops (-a.Mp.e).toNat a.Mp.f a.delta 9) ∧
      Logs (digitGenTraced fuel oob a.W a.Mp a.delta a.K).2 30 i := by
  obtain ⟨he, hW, he60, he34, hlow, hMp, hdelta, hlt⟩ := h
  set s := (-a.Mp.e).toNat with hs
  obtain ⟨hp1pos, hp1⟩ := integerPart_bounds (show 34 ≤ s by omega) (by omega) hlow hMp
  have hwhole : a.Mp.f / 2 ^ s * 2 ^ s + a.Mp.f % 2 ^ s = a.Mp.f := Nat.div_add_mod' _ _
  obtain ⟨-, hk, -, hkhigh⟩ := countDecimalDigit32_spec hp1pos (by omega)
  obtain ⟨i, hi, hlogs⟩ := integerLoopTraced_logs fuel oob (sub64 a.Mp.f a.W.f) a.K (show s ≤ 60 by omega) hdelta hfuel []
    (decide (a.Mp.f / 2 ^ s < 2 ^ 32)) hk hkhigh (show a.Mp.f / 2 ^ s * 2 ^ s + a.Mp.f % 2 ^ s < 2 ^ 64 by omega) (by omega)
  refine ⟨i, hi, ?_⟩
  simp only [digitGenTraced, DiyFp.sub, if_pos (And.intro he hW)]
  rw [← hs, Nat.shiftRight_eq_div_pow, Nat.mod_eq_of_lt (a := a.Mp.f / 2 ^ s) (by omega), Nat.and_two_pow_sub_one_eq_mod]
  exact hlogs.mono (by omega)

/-! ## The table -/

/-- The interval of length `delta` below `Mp` contains an integer, or a number with nine digits behind the point; an integer
may be its lower end. `one` is the unit. -/
def DigitGenArgs.Short (a : DigitGenArgs) : Prop :=
  let one := 2 ^ (-a.Mp.e).toNat
  (∃ N, N * one ≤ a.Mp.f ∧ a.Mp.f ≤ N * one + a.delta) ∨
    ∃ N, N * one ≤ a.Mp.f * 10 ^ 9 ∧ a.Mp.f * 10 ^ 9 < N * one + a.delta * 10 ^ 9

/-- a multiple of `m` is less than `y` below `x` exactly when the remainder is less than `y` -/
theorem exists_multiple_iff {m x y : ℕ} : (∃ N, N * m ≤ x ∧ x < N * m + y) ↔ x % m < y := by
  constructor
  · rintro ⟨N, hle, hlt⟩
    rw [mul_comm] at hle hlt
    calc x % m = (x - m * N) % m := (Nat.sub_mul_mod hle).symm
      _ ≤ x - m * N := Nat.mod_le _ _
      _ < y := by omega
  · intro h
    have hdiv := Nat.div_add_mod' x m
    exact ⟨x / m, by omega, by omega⟩

theorem DigitGenArgs.short_iff (a : DigitGenArgs) :
    a.Short ↔ a.Mp.f % 2 ^ (-a.Mp.e).toNat ≤ a.delta ∨ Stops (-a.Mp.e).toNat a.Mp.f a.delta 9 := by
  rw [Stops, ← exists_multiple_iff, ← Nat.lt_succ_iff, ← exists_multiple_iff]
  simp only [Short, Nat.add_succ, Nat.lt_succ_iff]

/-- what Grisu2 hands on for a finite number that is not 0 -/
theorem digitGenArgs_ready {fuel : ℕ} (hfuel : 64 ≤ fuel) {value : BitVec 64} (hfinite : Binary64.Finite value)
    (hpos : 0 < Binary64.significand value) : ∃ a, digitGenArgs fuel value = some a ∧ a.Ready := by
  obtain ⟨a, -, hargs, hready, -⟩ := digitGenArgs_spec (show 53 ≤ fuel by omega) (DiyFp.ofDouble_eq value) hpos
    (Binary64.fits value).lt (Binary64.fits value).emin_le (Binary64.exponent_le hfinite)
  exact ⟨a, hargs, hready⟩

/-- **The table.** For every positive finite double Grisu2 returns, and every index into `kPow10` is below ten and every
digit that becomes a character is at most 9, exactly when the interval that DigitGen is given contains a number with at most
nine digits behind the point. -/
theorem table_reads_iff {fuel : ℕ} (hfuel : 64 ≤ fuel) (oob : ℕ → ℕ) {value : BitVec 64} (hfinite : Binary64.Finite value)
    (hpos : 0 < Binary64.toRat value) :
    ∃ a out, digitGenArgs fuel value = some a ∧ (grisu2Traced fuel oob value).1 = some out ∧
      ((∀ x ∈ (grisu2Traced fuel oob value).2, x.Ok) ↔ a.Short) := by
  have hsig := Binary64.significand_pos hpos.ne'
  obtain ⟨a, hargs, hready⟩ := digitGenArgs_ready hfuel hfinite hsig
  obtain ⟨out, hout, -⟩ := grisu2_between hfuel oob hfinite hsig
  obtain ⟨i, hi, hlogs⟩ := digitGenTraced_logs (show 20 ≤ fuel by omega) oob hready
  refine ⟨a, out, hargs, (grisu2Traced_fst fuel oob value).trans hout, ?_⟩
  rw [grisu2Traced, hargs, DigitGenArgs.short_iff, ← hi]
  exact hlogs.ok_iff

/-- a tenth: scaled by 10^4 it is the integer 1000 -/
theorem table_reads_tenth : (∃ a, digitGenArgs 64 0x3FB999999999999A = some a ∧ a.Short) ∧
    ∀ x ∈ (grisu2Traced 64 (fun _ => 0) 0x3FB999999999999A).2, x.Ok := by
  have hargs : digitGenArgs 64 0x3FB999999999999A =
      some ⟨⟨9007199254740992500, -53⟩, ⟨9007199254740993124, -53⟩, 1248, -4⟩ := by decide +kernel
  obtain ⟨a, out, ha, -, hiff⟩ := table_reads_iff (Nat.le_refl 64) (fun _ => 0)
    (show Binary64.Finite 0x3FB999999999999A by decide) (Binary64.toRat_pos (by decide) (by decide))
  obtain rfl : _ = a := Option.some.inj (hargs.symm.trans ha)
  have hshort : DigitGenArgs.Short ⟨⟨9007199254740992500, -53⟩, ⟨9007199254740993124, -53⟩, 1248, -4⟩ :=
    Or.inl ⟨1000, by decide, by decide⟩
  exact ⟨⟨_, hargs, hshort⟩, hiff.2 hshort⟩

/-- 0.1 + 0.2 has seventeen digits, thirteen of them behind the point of the scaled number -/
theorem table_overread : Binary64.Finite 0x3FD3333333333334 ∧ 0 < Binary64.toRat 0x3FD3333333333334 ∧
    Access.kPow10 13 ∈ (grisu2Traced 64 (fun _ => 0) 0x3FD3333333333334).2 ∧ ¬ (Access.kPow10 13).Ok :=
  ⟨by decide, Binary64.toRat_pos (by decide) (by decide), by decide +kernel, by decide⟩

/-! ## How many digits there are -/

theorem length_decLast (buffer : List Byte) : (decLast buffer).length = buffer.length := List.length_modify _ _ _

/-- the rounding changes digits and adds none -/
theorem length_grisuRound {fuel delta rest ten_kappa wp_w : ℕ} {buffer out : List Byte}
    (h : grisuRound fuel buffer delta rest ten_kappa wp_w = some out) : out.length = buffer.length := by
  induction fuel generalizing buffer rest with
  | zero => cases h
  | succ fuel ih =>
    rw [grisuRound] at h
    split_ifs at h
    · rw [ih h, length_decLast]
    · rw [Option.some.inj h]

theorem length_pushDigit (buffer : List Byte) (d : ℕ) :
    (pushDigit buffer d).length = buffer.length + (digitAccess buffer d).length := by
  unfold pushDigit digitAccess
  split_ifs
  · exact List.length_append
  · rfl

section

variable {fuel : ℕ} {oob : ℕ → ℕ} {s wp_w : ℕ} {K : ℤ} {buffer : List Byte} {out : Digits}

/-- the last turn: the digit has an entry in the log, and the read that ends the loop has one more -/
theorem length_last {d delta rest ten_kappa z : ℕ} {K' : ℤ} {exact : Bool} {i : ℕ}
    (h : (grisuRound fuel (pushDigit buffer d) delta rest ten_kappa z).map (fun buffer => (⟨buffer, K', exact⟩ : Digits)) =
      some out) : out.buffer.length < buffer.length + (digitAccess buffer d ++ [Access.kPow10 i]).length := by
  obtain ⟨rounded, hround, rfl⟩ := Option.map_eq_some_iff.1 h
  rw [length_grisuRound hround, length_pushDigit, List.length_append, List.length_singleton, ← Nat.add_assoc]
  exact Nat.lt_succ_self _

/-- every other turn has an entry for its digit -/
theorem length_next {d : ℕ} {log : List Access} (h : out.buffer.length < (pushDigit buffer d).length + log.length) :
    out.buffer.length < buffer.length + (digitAccess buffer d ++ log).length := by
  rwa [List.length_append, ← Nat.add_assoc, ← length_pushDigit]

theorem fractionLoopTraced_length {n j p2 delta : ℕ} {exact : Bool}
    (h : (fractionLoopTraced fuel oob s wp_w K n j p2 delta buffer exact).1 = some out) :
    out.buffer.length < buffer.length + (fractionLoopTraced fuel oob s wp_w K n j p2 delta buffer exact).2.length := by
  induction n generalizing j p2 delta buffer exact with
  | zero => cases h
  | succ n ih =>
    simp only [fractionLoopTraced] at h ⊢
    split_ifs at h ⊢
    · exact length_last h
    · exact length_next (ih h)

theorem integerLoopTraced_length {p2 delta kappa p1 : ℕ} {exact : Bool}
    (h : (integerLoopTraced fuel oob s wp_w K p2 delta exact kappa p1 buffer).1 = some out) :
    out.buffer.length < buffer.length + (integerLoopTraced fuel oob s wp_w K p2 delta exact kappa p1 buffer).2.length := by
  induction kappa generalizing p1 buffer with
  | zero => exact fractionLoopTraced_length h
  | succ kappa ih =>
    simp only [integerLoopTraced] at h ⊢
    split_ifs at h ⊢
    · exact length_last h
    · exact length_next (ih h)

end

theorem digitGenTraced_length {fuel delta : ℕ} {oob : ℕ → ℕ} {W Mp : DiyFp} {K : ℤ} {out : Digits}
    (h : (digitGenTraced fuel oob W Mp delta K).1 = some out) :
    out.buffer.length < (digitGenTraced fuel oob W Mp delta K).2.length := by
  unfold digitGenTraced at h ⊢
  cases hsub : Mp.sub W with
  | none => simp [hsub] at h
  | some wp_w =>
    simp only [hsub] at h ⊢
    simpa using integerLoopTraced_length h

/-- ten digits before the point and twenty behind it -/
theorem grisu2_length {fuel : ℕ} (hfuel : 64 ≤ fuel) {oob : ℕ → ℕ} {value : BitVec 64} (hfinite : Binary64.Finite value)
    (hpos : 0 < Binary64.significand value) {out : Digits} (h : grisu2 fuel oob value = some out) :
    out.buffer.length ≤ 30 := by
  obtain ⟨a, hargs, hready⟩ := digitGenArgs_ready hfuel hfinite hpos
  obtain ⟨i, -, hlogs⟩ := digitGenTraced_logs (show 20 ≤ fuel by omega) oob hready
  rw [← grisu2Traced_fst, grisu2Traced, hargs] at h
  have hlength := digitGenTraced_length h
  have hle := hlogs.length_le
  omega

end TinyRpc.Common
