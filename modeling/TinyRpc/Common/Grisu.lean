/-
The shortest digits of a double (`Grisu2` in common/string.hpp).

The boundaries of the double and the double itself are multiplied by a power of ten, to an exponent from -60 to -34. The
digits of the upper one are then generated, first those of its integer part and then those behind the point, until what is
left is at most the distance `delta` to the lower one; a last digit that is too large is brought closer to the double.

The loops carry a `fuel`, and `none` is a loop that has not ended or a failed assertion. `oob` is what a read behind the
ten entries of `kPow10` yields, which happens: it goes into the distance that the last digit is rounded by, and nothing
that is proved here depends on it.

Main result `grisu2_identifies`: for every positive finite double, the digits are a decimal text without a leading zero,
nothing overflows, and the number is strictly between the midpoints to the double's neighbours, so that it is closer to
the double than to any other.
-/
import Mathlib.Tactic
import TinyRpc.Core.Decimal
import TinyRpc.Core.BinaryFloat
import TinyRpc.Common.DiyFp

namespace TinyRpc.Common

open TinyRpc.Core

/-! ## Model -/

/-- `buffer[len - 1]--` -/
def decLast (buffer : List Byte) : List Byte := buffer.modify (buffer.length - 1) fun c => c - 1

def grisuRound : ℕ → List Byte → ℕ → ℕ → ℕ → ℕ → Option (List Byte)
  | 0, _, _, _, _, _ => none
  | fuel + 1, buffer, delta, rest, ten_kappa, wp_w =>
    if rest < wp_w ∧ sub64 delta rest ≥ ten_kappa ∧
        (u64 (rest + ten_kappa) < wp_w ∨ sub64 wp_w rest > sub64 (u64 (rest + ten_kappa)) wp_w) then
      grisuRound fuel (decLast buffer) delta (u64 (rest + ten_kappa)) ten_kappa wp_w
    else some buffer

def countDecimalDigit32 (n : ℕ) : ℕ :=
  if n < 10 then 1
  else if n < 100 then 2
  else if n < 1000 then 3
  else if n < 10000 then 4
  else if n < 100000 then 5
  else if n < 1000000 then 6
  else if n < 10000000 then 7
  else if n < 100000000 then 8
  else if n < 1000000000 then 9
  else 10

/-- `kPow10[i]`; behind its ten entries stands anything -/
def kPow10 (oob : ℕ → ℕ) (i : ℕ) : ℕ :=
  [1, 10, 100, 1000, 10000, 100000, 1000000, 10000000, 100000000, 1000000000].getD i (oob i)

/-- the switch of DigitGen: the digit, and what is left of `p1` -/
def splitDigit (kappa p1 : ℕ) : ℕ × ℕ :=
  match kappa with
  | 10 => (p1 / 1000000000, p1 % 1000000000)
  | 9 => (p1 / 100000000, p1 % 100000000)
  | 8 => (p1 / 10000000, p1 % 10000000)
  | 7 => (p1 / 1000000, p1 % 1000000)
  | 6 => (p1 / 100000, p1 % 100000)
  | 5 => (p1 / 10000, p1 % 10000)
  | 4 => (p1 / 1000, p1 % 1000)
  | 3 => (p1 / 100, p1 % 100)
  | 2 => (p1 / 10, p1 % 10)
  | 1 => (p1, 0)
  | _ => (0, p1)

/-- `if (d || *len) buffer[(*len)++] = '0' + d` -/
def pushDigit (buffer : List Byte) (d : ℕ) : List Byte := if d ≠ 0 ∨ buffer.length ≠ 0 then buffer ++ [digitByte d] else buffer

/-- what DigitGen leaves: the first `*len` characters of the buffer and `*K` -/
structure Digits where
  buffer : List Byte
  K : ℤ
  /-- `p1` was not cut off and no product by ten wrapped -/
  exact : Bool
deriving DecidableEq, Repr

section DigitGen

variable (fuel : ℕ) (oob : ℕ → ℕ) (s wp_w : ℕ) (K : ℤ)

/-- the digits behind the point; `kappa` is `-j`, and `one` is 2^s -/
def fractionLoop : ℕ → ℕ → ℕ → ℕ → List Byte → Bool → Option Digits
  | 0, _, _, _, _, _ => none
  | n + 1, j, p2, delta, buffer, exact =>
    let exact := exact && decide (p2 * 10 < 2 ^ 64 ∧ delta * 10 < 2 ^ 64)
    let p2 := u64 (p2 * 10)
    let delta := u64 (delta * 10)
    let buffer := pushDigit buffer ((p2 >>> s) % 2 ^ 8)
    let p2 := p2 &&& (2 ^ s - 1)
    if p2 < delta then
      (grisuRound fuel buffer delta p2 (2 ^ s) (u64 (wp_w * kPow10 oob (j + 1)))).map fun buffer =>
        ⟨buffer, K + -(j + 1 : ℕ), exact⟩
    else fractionLoop n (j + 1) p2 delta buffer exact

/-- the digits before the point, then the others -/
def integerLoop (p2 delta : ℕ) (exact : Bool) : ℕ → ℕ → List Byte → Option Digits
  | 0, _, buffer => fractionLoop fuel oob s wp_w K fuel 0 p2 delta buffer exact
  | kappa + 1, p1, buffer =>
    let (d, p1) := splitDigit (kappa + 1) p1
    let buffer := pushDigit buffer d
    let tmp := u64 (u64 (p1 <<< s) + p2)
    if tmp ≤ delta then
      (grisuRound fuel buffer delta tmp (u64 (kPow10 oob kappa <<< s)) wp_w).map fun buffer => ⟨buffer, K + kappa, exact⟩
    else integerLoop p2 delta exact kappa p1 buffer

end DigitGen

def digitGen (fuel : ℕ) (oob : ℕ → ℕ) (W Mp : DiyFp) (delta : ℕ) (K : ℤ) : Option Digits := do
  -- `one` is 1 << -Mp.e
  let s := (-Mp.e).toNat
  let wp_w ← Mp.sub W
  let p1 := (Mp.f >>> s) % 2 ^ 32
  let p2 := Mp.f &&& (2 ^ s - 1)
  integerLoop fuel oob s wp_w.f K p2 delta (decide (Mp.f >>> s < 2 ^ 32)) (countDecimalDigit32 p1) p1 []

/-- Grisu2, on the bits of a double -/
def grisu2 (fuel : ℕ) (oob : ℕ → ℕ) (value : BitVec 64) : Option Digits := do
  let v := DiyFp.ofDouble value
  let (w_m, w_p) ← v.normalizedBoundaries fuel
  let (c_mk, K) ← getCachedPower w_p.e
  let W := v.normalize.mul c_mk
  let Wp := w_p.mul c_mk
  let Wm := w_m.mul c_mk
  let Wm : DiyFp := ⟨u64 (Wm.f + 1), Wm.e⟩
  let Wp : DiyFp := ⟨sub64 Wp.f 1, Wp.e⟩
  digitGen fuel oob W Wp (sub64 Wp.f Wm.f) K

/-! ## The last digit -/

theorem decLast_concat (buffer : List Byte) (c : Byte) : decLast (buffer ++ [c]) = buffer ++ [c - 1] := by
  rw [decLast, List.length_append, List.length_singleton, Nat.add_sub_cancel, List.modify_eq_take_drop]
  simp

/-- The rounding takes at most `d` from a last digit `d` and stays within `delta`, whatever it rounds towards. -/
theorem grisuRound_spec (buffer : List Byte) {d delta ten_kappa fuel : ℕ} (hd : d ≤ 9) (hdelta : delta < 2 ^ 64) (wp_w : ℕ)
    (hfuel : d < fuel) {rest : ℕ} (hrest : rest ≤ delta) (hbound : delta < rest + (d + 1) * ten_kappa) :
    ∃ c ≤ d, grisuRound fuel (buffer ++ [digitByte d]) delta rest ten_kappa wp_w = some (buffer ++ [digitByte (d - c)]) ∧
      rest + c * ten_kappa ≤ delta := by
  induction d generalizing fuel rest with
  | zero =>
    obtain ⟨fuel, rfl⟩ := Nat.exists_eq_add_one.2 hfuel
    have hstop : ¬ (sub64 delta rest ≥ ten_kappa) := by
      rw [sub64_of_le hdelta hrest]
      omega
    refine ⟨0, Nat.le_refl 0, ?_, by omega⟩
    rw [grisuRound, if_neg fun h => hstop h.2.1]
  | succ d ih =>
    obtain ⟨fuel, rfl⟩ := Nat.exists_eq_add_one.2 (Nat.zero_lt_of_lt hfuel)
    rw [grisuRound]
    split_ifs with hgo
    · have hnext : rest + ten_kappa ≤ delta := by
        have := hgo.2.1
        rw [sub64_of_le hdelta hrest] at this
        omega
      have hbound' : delta < rest + ten_kappa + (d + 1) * ten_kappa := by
        calc delta < rest + (d + 1 + 1) * ten_kappa := hbound
          _ = rest + ten_kappa + (d + 1) * ten_kappa := by ring
      rw [u64_of_lt (by omega), decLast_concat, digitByte_sub_one (by omega)]
      obtain ⟨c, hc, hrun, hle⟩ := ih (by omega) (Nat.lt_of_succ_lt_succ hfuel) hnext hbound'
      refine ⟨c + 1, by omega, ?_, ?_⟩
      · rw [hrun, Nat.add_sub_add_right]
      · calc rest + (c + 1) * ten_kappa = rest + ten_kappa + c * ten_kappa := by ring
          _ ≤ delta := hle
    · exact ⟨0, Nat.zero_le _, rfl, by omega⟩

/-- so the number that the digits say stays at most `delta` below `total` -/
theorem grisuRound_value {buffer : List Byte} {d delta ten_kappa fuel rest total : ℕ} (hd : d ≤ 9) (hdelta : delta < 2 ^ 64)
    (wp_w : ℕ) (hfuel : d < fuel) (htotal : total = (10 * decimalValue buffer + d) * ten_kappa + rest) (hrest : rest ≤ delta)
    (hbound : delta < rest + (d + 1) * ten_kappa) :
    ∃ d' ≤ 9, grisuRound fuel (buffer ++ [digitByte d]) delta rest ten_kappa wp_w = some (buffer ++ [digitByte d']) ∧
      decimalValue (buffer ++ [digitByte d']) * ten_kappa ≤ total ∧
      total ≤ decimalValue (buffer ++ [digitByte d']) * ten_kappa + delta := by
  obtain ⟨c, hc, hround, hle⟩ := grisuRound_spec buffer hd hdelta wp_w hfuel hrest hbound
  have hvalue : total = decimalValue (buffer ++ [digitByte (d - c)]) * ten_kappa + c * ten_kappa + rest := by
    rw [decimalValue_concat _ (by omega), htotal, ← Nat.add_mul]
    congr 2
    omega
  exact ⟨d - c, by omega, hround, by omega, by omega⟩

/-! ## One digit -/

/-- the digits so far: none, or a text without a leading zero -/
def SoFar (buffer : List Byte) : Prop := buffer = [] ∨ DigitText buffer

theorem pushDigit_eq {buffer : List Byte} (hbuf : SoFar buffer) {d : ℕ} (hd : d ≤ 9) (hfirst : buffer = [] → 0 < d) :
    pushDigit buffer d = buffer ++ [digitByte d] := by
  rcases hbuf with rfl | hbuf
  · rw [pushDigit, if_pos (Or.inl (by have := hfirst rfl; omega))]
  · rw [pushDigit, if_pos (Or.inr (by simpa using hbuf.nonempty))]

/-- a text with its last digit brought down is still one, if it says more than 0 -/
theorem SoFar.concat {buffer : List Byte} (hbuf : SoFar buffer) {d : ℕ} (hd : d ≤ 9)
    (hpos : 0 < decimalValue (buffer ++ [digitByte d])) : DigitText (buffer ++ [digitByte d]) := by
  rcases hbuf with rfl | hbuf
  · rw [decimalValue_concat _ hd] at hpos
    have hzero : decimalValue [] = 0 := rfl
    exact digitText_singleton (by omega) hd
  · exact hbuf.concat hd

theorem splitDigit_eq {kappa p1 : ℕ} (hk : kappa < 10) (hp : p1 < 10 ^ (kappa + 1)) :
    splitDigit (kappa + 1) p1 = (p1 / 10 ^ kappa, p1 % 10 ^ kappa) ∧ p1 / 10 ^ kappa ≤ 9 := by
  refine ⟨?_, ?_⟩
  · interval_cases kappa <;> norm_num [splitDigit]
    omega
  · rw [pow_succ] at hp
    exact Nat.le_of_lt_succ (Nat.div_lt_of_lt_mul hp)

theorem kPow10_eq (oob : ℕ → ℕ) {i : ℕ} (h : i < 10) : kPow10 oob i = 10 ^ i := by
  interval_cases i <;> norm_num [kPow10]

/-- `c` decimal digits, ten at most -/
structure DigitCount (n c : ℕ) : Prop where
  pos : 0 < c
  le_ten : c ≤ 10
  low : 10 ^ (c - 1) ≤ n
  high : n < 10 ^ c

/-- one comparison of CountDecimalDigit32 -/
theorem digitCount_ite {n k c d : ℕ} (hk : k < 10) (hd : d = 10 ^ (k + 1)) (hlow : 10 ^ k ≤ n)
    (hnext : 10 ^ (k + 1) ≤ n → DigitCount n c) : DigitCount n (if n < d then k + 1 else c) := by
  subst hd
  split_ifs with hlt
  · exact ⟨Nat.succ_pos k, hk, hlow, hlt⟩
  · exact hnext (not_lt.1 hlt)

theorem countDecimalDigit32_spec {n : ℕ} (hpos : 0 < n) (hn : n < 10 ^ 10) : DigitCount n (countDecimalDigit32 n) := by
  refine digitCount_ite (k := 0) (by decide) (by norm_num) hpos fun h => ?_
  refine digitCount_ite (k := 1) (by decide) (by norm_num) h fun h => ?_
  refine digitCount_ite (k := 2) (by decide) (by norm_num) h fun h => ?_
  refine digitCount_ite (k := 3) (by decide) (by norm_num) h fun h => ?_
  refine digitCount_ite (k := 4) (by decide) (by norm_num) h fun h => ?_
  refine digitCount_ite (k := 5) (by decide) (by norm_num) h fun h => ?_
  refine digitCount_ite (k := 6) (by decide) (by norm_num) h fun h => ?_
  refine digitCount_ite (k := 7) (by decide) (by norm_num) h fun h => ?_
  refine digitCount_ite (k := 8) (by decide) (by norm_num) h fun h => ?_
  exact ⟨by decide, by decide, h, hn⟩

/-! ## The two loops -/

/-- what the loops leave for an upper bound `Mp` in units of 2^-s: a text, nothing cut off, at most `delta` below `Mp` -/
structure Within (s Mp delta : ℕ) (K : ℤ) (out : Digits) : Prop where
  text : DigitText out.buffer
  exact : out.exact = true
  low : (Mp : ℚ) - delta ≤ decimalValue out.buffer * 10 ^ (out.K - K) * 2 ^ s
  high : (decimalValue out.buffer : ℚ) * 10 ^ (out.K - K) * 2 ^ s ≤ Mp

/-- a text that ends before the point -/
theorem within_before {s Mp delta kappa : ℕ} {K : ℤ} {buffer : List Byte} (htext : DigitText buffer)
    (hlow : Mp ≤ decimalValue buffer * (10 ^ kappa * 2 ^ s) + delta) (hhigh : decimalValue buffer * (10 ^ kappa * 2 ^ s) ≤ Mp) :
    Within s Mp delta K ⟨buffer, K + kappa, true⟩ := by
  have hexp : K + kappa - K = kappa := by ring
  have hlow' : (Mp : ℚ) ≤ decimalValue buffer * (10 ^ kappa * 2 ^ s) + delta := by exact_mod_cast hlow
  have hhigh' : (decimalValue buffer : ℚ) * (10 ^ kappa * 2 ^ s) ≤ Mp := by exact_mod_cast hhigh
  refine ⟨htext, rfl, ?_, ?_⟩ <;> rw [hexp, zpow_natCast, mul_assoc]
  · exact sub_le_iff_le_add.2 hlow'
  · exact hhigh'

/-- a text with `j` digits behind the point -/
theorem within_behind {s Mp delta j : ℕ} {K : ℤ} {buffer : List Byte} (htext : DigitText buffer)
    (hlow : Mp * 10 ^ j ≤ decimalValue buffer * 2 ^ s + delta * 10 ^ j) (hhigh : decimalValue buffer * 2 ^ s ≤ Mp * 10 ^ j) :
    Within s Mp delta K ⟨buffer, K + -(j : ℕ), true⟩ := by
  have hexp : K + -(j : ℕ) - K = -(j : ℤ) := by ring
  have hlow' : (Mp : ℚ) * 10 ^ j ≤ decimalValue buffer * 2 ^ s + delta * 10 ^ j := by exact_mod_cast hlow
  have hhigh' : (decimalValue buffer : ℚ) * 2 ^ s ≤ Mp * 10 ^ j := by exact_mod_cast hhigh
  have hpow : (0 : ℚ) < 10 ^ j := by positivity
  have hform : (decimalValue buffer : ℚ) * 10 ^ (K + -(j : ℕ) - K) * 2 ^ s = decimalValue buffer * 2 ^ s / 10 ^ j := by
    rw [hexp, zpow_neg, zpow_natCast]
    field_simp
  refine ⟨htext, rfl, ?_, ?_⟩ <;> rw [hform]
  · rw [le_div_iff₀ hpow]
    linarith
  · rwa [div_le_iff₀ hpow]

section DigitGen

variable {fuel s Mp delta : ℕ} (oob : ℕ → ℕ) (wp_w : ℕ) (K : ℤ)

/-- A digit behind the point is one digit, and what the loop multiplies by ten does not overflow. -/
theorem fraction_digit (hs : s ≤ 60) {p2 : ℕ} (hp2 : p2 < 2 ^ s) (hle : delta ≤ p2) :
    p2 * 10 < 2 ^ 64 ∧ delta * 10 < 2 ^ 64 ∧ p2 * 10 / 2 ^ s ≤ 9 ∧ (p2 * 10) >>> s % 2 ^ 8 = p2 * 10 / 2 ^ s := by
  have h60 : 2 ^ s ≤ 2 ^ 60 := Nat.pow_le_pow_right (by decide) hs
  have hd : p2 * 10 / 2 ^ s < 10 := Nat.div_lt_of_lt_mul (by omega)
  refine ⟨by omega, by omega, by omega, ?_⟩
  rw [Nat.shiftRight_eq_div_pow, Nat.mod_eq_of_lt (by omega)]

/-- after twenty digits `delta` would be 10^20, and it is not more than the remainder -/
theorem places_lt (hs : s ≤ 60) (hdelta : 0 < delta) {j p2 : ℕ} (hp2 : p2 < 2 ^ s) (hle : delta * 10 ^ j ≤ p2) : j < 20 := by
  have h60 : 2 ^ s ≤ 2 ^ 60 := Nat.pow_le_pow_right (by decide) hs
  by_contra hj
  have hpow : 10 ^ 20 ≤ delta * 10 ^ j :=
    calc 10 ^ 20 ≤ 10 ^ j := Nat.pow_le_pow_right (by decide) (by omega)
      _ ≤ delta * 10 ^ j := Nat.le_mul_of_pos_left _ hdelta
  omega

/-- The remainder grows with `delta` until it is smaller. It is below 2^60, so that happens within twenty digits. -/
theorem fractionLoop_spec (hs : s ≤ 60) (hdelta : 0 < delta) (hfuel : 10 ≤ fuel) {n j p2 : ℕ} {buffer : List Byte}
    (hn : 20 ≤ n + j) (htext : DigitText buffer) (hsplit : Mp * 10 ^ j = decimalValue buffer * 2 ^ s + p2) (hp2 : p2 < 2 ^ s)
    (hle : delta * 10 ^ j ≤ p2) :
    ∃ out, fractionLoop fuel oob s wp_w K n j p2 (delta * 10 ^ j) buffer true = some out ∧ Within s Mp delta K out := by
  induction n generalizing j p2 buffer with
  | zero => exact absurd (places_lt hs hdelta hp2 hle) (by omega)
  | succ n ih =>
    have hten : delta * 10 ^ j * 10 = delta * 10 ^ (j + 1) := by ring
    obtain ⟨hp2fit, hdeltafit, hd, hshift⟩ := fraction_digit hs hp2 hle
    have hexact : (true && decide (p2 * 10 < 2 ^ 64 ∧ delta * 10 ^ j * 10 < 2 ^ 64)) = true := by
      rw [Bool.true_and, decide_eq_true_iff]
      exact ⟨hp2fit, hdeltafit⟩
    have hdiv : p2 * 10 = 2 ^ s * (p2 * 10 / 2 ^ s) + p2 * 10 % 2 ^ s := (Nat.div_add_mod _ _).symm
    have hrem : p2 * 10 % 2 ^ s < 2 ^ s := Nat.mod_lt _ (Nat.two_pow_pos s)
    simp only [fractionLoop]
    rw [hexact, u64_of_lt hp2fit, u64_of_lt hdeltafit, hten, hshift, Nat.and_two_pow_sub_one_eq_mod,
      pushDigit_eq (Or.inr htext) hd fun h => absurd h htext.nonempty]
    generalize p2 * 10 / 2 ^ s = d at *
    generalize p2 * 10 % 2 ^ s = rest at *
    have hsplit' : Mp * 10 ^ (j + 1) = (10 * decimalValue buffer + d) * 2 ^ s + rest := by
      calc Mp * 10 ^ (j + 1) = Mp * 10 ^ j * 10 := by ring
        _ = 10 * decimalValue buffer * 2 ^ s + p2 * 10 := by rw [hsplit]; ring
        _ = (10 * decimalValue buffer + d) * 2 ^ s + rest := by rw [hdiv]; ring
    split_ifs with hstop
    · have hbound : delta * 10 ^ (j + 1) < rest + (d + 1) * 2 ^ s := by
        calc delta * 10 ^ (j + 1) ≤ p2 * 10 := by omega
          _ = rest + d * 2 ^ s := by rw [hdiv]; ring
          _ < rest + (d + 1) * 2 ^ s := by rw [Nat.succ_mul]; omega
      obtain ⟨d', hd', hround, hhigh, hlow⟩ := grisuRound_value hd (by omega)
        (u64 (wp_w * kPow10 oob (j + 1))) (show d < fuel by omega) hsplit' hstop.le hbound
      rw [hround]
      exact ⟨_, rfl, within_behind (htext.concat hd') hlow hhigh⟩
    · exact ih (by omega) (htext.concat hd) (by rw [decimalValue_concat _ hd, hsplit']) hrem (by omega)

/-- The first digit is not 0, so the units of every later one fit into 64 bits. -/
theorem integerLoop_spec (hs : s ≤ 60) (hMp : Mp < 2 ^ 64) (hdelta : 0 < delta) (hfuel : 20 ≤ fuel) {kappa p1 p2 : ℕ}
    {buffer : List Byte} (hk : kappa ≤ 10) (hbuf : SoFar buffer) (hp1 : p1 < 10 ^ kappa)
    (hsplit : Mp = decimalValue buffer * (10 ^ kappa * 2 ^ s) + (p1 * 2 ^ s + p2)) (hp2 : p2 < 2 ^ s)
    (hlt : delta < p1 * 2 ^ s + p2) (hfirst : buffer = [] → 0 < kappa ∧ 10 ^ (kappa - 1) ≤ p1) :
    ∃ out, integerLoop fuel oob s wp_w K p2 delta true kappa p1 buffer = some out ∧ Within s Mp delta K out := by
  induction kappa generalizing p1 buffer with
  | zero =>
    -- nothing is left before the point
    have hp1 : p1 = 0 := by omega
    subst hp1
    have htext : DigitText buffer := hbuf.resolve_left fun h => absurd (hfirst h).1 (Nat.lt_irrefl 0)
    have hwhole : Mp * 10 ^ 0 = decimalValue buffer * 2 ^ s + p2 := by
      rw [hsplit]
      ring
    have hstart := fractionLoop_spec oob wp_w K hs hdelta (show 10 ≤ fuel by omega) (show 20 ≤ fuel + 0 by omega) htext hwhole
      hp2 (by omega)
    rwa [pow_zero, mul_one] at hstart
  | succ kappa ih =>
    obtain ⟨hdigit, hd⟩ := splitDigit_eq (Nat.lt_of_succ_le hk) hp1
    have hdiv : p1 = 10 ^ kappa * (p1 / 10 ^ kappa) + p1 % 10 ^ kappa := (Nat.div_add_mod _ _).symm
    have hrem : p1 % 10 ^ kappa < 10 ^ kappa := Nat.mod_lt _ (by positivity)
    have hnonzero : buffer = [] → 0 < p1 / 10 ^ kappa := fun h => Nat.div_pos (hfirst h).2 (by positivity)
    simp only [integerLoop, hdigit]
    rw [pushDigit_eq hbuf hd hnonzero]
    generalize p1 / 10 ^ kappa = d at *
    generalize p1 % 10 ^ kappa = rest at *
    have hp1s : p1 * 2 ^ s = d * (10 ^ kappa * 2 ^ s) + rest * 2 ^ s := by
      rw [hdiv]
      ring
    have hsplit' : Mp = (10 * decimalValue buffer + d) * (10 ^ kappa * 2 ^ s) + (rest * 2 ^ s + p2) := by
      rw [hsplit, hp1s]
      ring
    rw [Nat.shiftLeft_eq, u64_of_lt (n := rest * 2 ^ s) (by omega), u64_of_lt (n := rest * 2 ^ s + p2) (by omega)]
    have hone : 0 < 10 * decimalValue buffer + d := by
      rcases hbuf with rfl | htext
      · exact Nat.add_pos_right _ (hnonzero rfl)
      · have := htext.decimalValue_pos
        omega
    split_ifs with hstop
    · -- the digits so far say 1 or more, so `ten_kappa` is not more than `Mp`
      have hunits : 10 ^ kappa * 2 ^ s ≤ Mp := by
        have := Nat.le_mul_of_pos_left (10 ^ kappa * 2 ^ s) hone
        omega
      have hbound : delta < rest * 2 ^ s + p2 + (d + 1) * (10 ^ kappa * 2 ^ s) := by
        rw [Nat.succ_mul]
        omega
      rw [kPow10_eq oob (Nat.lt_of_succ_le hk), Nat.shiftLeft_eq, u64_of_lt (by omega)]
      obtain ⟨d', hd', hround, hhigh, hlow⟩ :=
        grisuRound_value hd (by omega) wp_w (show d < fuel by omega) hsplit' hstop hbound
      have hpos : 0 < decimalValue (buffer ++ [digitByte d']) := by
        by_contra hzero
        rw [Nat.eq_zero_of_not_pos hzero] at hlow
        omega
      rw [hround]
      exact ⟨_, rfl, within_before (hbuf.concat hd' hpos) hlow hhigh⟩
    · have hpos : 0 < decimalValue (buffer ++ [digitByte d]) := by rwa [decimalValue_concat _ hd]
      exact ih (by omega) (Or.inr (hbuf.concat hd hpos)) hrem (by rw [decimalValue_concat _ hd, hsplit']) (by omega)
        fun h => absurd h (by simp)

/-- the upper bound has at most 30 bits before the point and at least one -/
theorem integerPart_bounds (h34 : 34 ≤ s) (h60 : s ≤ 60) (hlow : 2 ^ 60 ≤ Mp) (hMp : Mp < 2 ^ 64) :
    0 < Mp / 2 ^ s ∧ Mp / 2 ^ s < 2 ^ 30 := by
  constructor
  · have : 2 ^ s ≤ 2 ^ 60 := Nat.pow_le_pow_right (by decide) h60
    exact Nat.div_pos (by omega) (Nat.two_pow_pos s)
  · refine Nat.div_lt_of_lt_mul ?_
    calc Mp < 2 ^ 34 * 2 ^ 30 := by omega
      _ ≤ 2 ^ s * 2 ^ 30 := Nat.mul_le_mul_right _ (Nat.pow_le_pow_right (by decide) h34)

theorem digitGen_spec (W Mp : DiyFp) (he : Mp.e = W.e) (hW : W.f ≤ Mp.f) (h60 : -60 ≤ Mp.e) (h34 : Mp.e ≤ -34)
    (hlow : 2 ^ 60 ≤ Mp.f) (hMp : Mp.f < 2 ^ 64) (hdelta : 0 < delta) (hlt : delta < Mp.f) (hfuel : 20 ≤ fuel) :
    ∃ out, digitGen fuel oob W Mp delta K = some out ∧ Within (-Mp.e).toNat Mp.f delta K out := by
  set s := (-Mp.e).toNat with hs
  have hp1 := integerPart_bounds (show 34 ≤ s by omega) (by omega) hlow hMp
  have hp1mod : Mp.f / 2 ^ s % 2 ^ 32 = Mp.f / 2 ^ s := Nat.mod_eq_of_lt (by omega)
  have hexact : decide (Mp.f / 2 ^ s < 2 ^ 32) = true := decide_eq_true (by omega)
  have hwhole : Mp.f / 2 ^ s * 2 ^ s + Mp.f % 2 ^ s = Mp.f := Nat.div_add_mod' _ _
  obtain ⟨hkpos, hk, hklow, hkhigh⟩ := countDecimalDigit32_spec hp1.1 (by omega)
  have hrun := integerLoop_spec oob (sub64 Mp.f W.f) K (by omega) hMp hdelta hfuel hk (Or.inl rfl) hkhigh
    (by rw [decimalValue, List.foldl_nil, zero_mul, zero_add, hwhole]) (Nat.mod_lt _ (Nat.two_pow_pos s)) (by omega)
    fun _ => ⟨hkpos, hklow⟩
  simp only [digitGen, DiyFp.sub, if_pos (And.intro he hW), Option.bind_eq_bind, Option.bind_some]
  rw [← hs, Nat.shiftRight_eq_div_pow, hp1mod, hexact, Nat.and_two_pow_sub_one_eq_mod]
  exact hrun

end DigitGen

/-! ## The whole of it -/

/-- bounds on the scaled double are bounds on the double: the factors of the scaling cancel -/
theorem lt_of_scaled {x y s : ℕ} {E c K k : ℤ} (hs : (s : ℤ) = -(E + c + 64)) :
    ((x : ℚ) * 10 ^ (k - K) * 2 ^ s < y * (10 ^ (-K) * 2 ^ (-c)) / 2 ^ 64 ↔ (x : ℚ) * 10 ^ k < fpValue y E) ∧
    ((y : ℚ) * (10 ^ (-K) * 2 ^ (-c)) / 2 ^ 64 < x * 10 ^ (k - K) * 2 ^ s ↔ fpValue y E < x * 10 ^ k) := by
  have hscale : (0 : ℚ) < 10 ^ (-K) * 2 ^ s := by positivity
  have hten : (10 : ℚ) ^ (k - K) = 10 ^ k * 10 ^ (-K) := by rw [← zpow_add₀ (by norm_num), ← sub_eq_add_neg]
  have htwo : (2 : ℚ) ^ (-c) / 2 ^ 64 = 2 ^ E * 2 ^ s := by
    rw [← zpow_natCast (2 : ℚ) s, ← zpow_natCast (2 : ℚ) 64, ← zpow_add₀ (by norm_num), ← zpow_sub₀ (by norm_num)]
    congr 1
    omega
  have hx : (x : ℚ) * 10 ^ (k - K) * 2 ^ s = x * 10 ^ k * (10 ^ (-K) * 2 ^ s) := by
    rw [hten]
    ring
  have hy : (y : ℚ) * (10 ^ (-K) * 2 ^ (-c)) / 2 ^ 64 = fpValue y E * (10 ^ (-K) * 2 ^ s) := by
    calc (y : ℚ) * (10 ^ (-K) * 2 ^ (-c)) / 2 ^ 64 = y * 10 ^ (-K) * (2 ^ (-c) / 2 ^ 64) := by ring
      _ = fpValue y E * (10 ^ (-K) * 2 ^ s) := by rw [htwo, fpValue]; ring
  rw [hx, hy]
  exact ⟨mul_lt_mul_iff_left₀ hscale, mul_lt_mul_iff_left₀ hscale⟩

/-- the products keep the boundaries apart -/
theorem scaled_gaps {f : ℕ} (hpos : 0 < f) (hf : f < 2 ^ 53) {c : DiyFp} (hc63 : 2 ^ 63 ≤ c.f) (hc64 : c.f < 2 ^ 64) (E : ℤ) :
    (DiyFp.mul ⟨f * 2 ^ DiyFp.clzll f, E⟩ c).f + 3 ≤ (DiyFp.mul ⟨DiyFp.plusF f, E⟩ c).f ∧
    (DiyFp.mul ⟨DiyFp.minusF f, E⟩ c).f + 3 ≤ (DiyFp.mul ⟨DiyFp.plusF f, E⟩ c).f ∧
    2 ^ 62 ≤ (DiyFp.mul ⟨DiyFp.plusF f, E⟩ c).f := by
  obtain ⟨-, -, hlow, -⟩ := DiyFp.clzll_spec hpos hf
  obtain ⟨hgap, hplus⟩ := DiyFp.plusF_spec hpos hf
  have hminus := DiyFp.minusF_le hpos hf
  refine ⟨?_, ?_, ?_⟩
  · exact DiyFp.mul_gap (by dsimp only; omega) hplus hc64 hc63 hgap
  · exact DiyFp.mul_gap (by dsimp only; omega) hplus hc64 hc63 (by dsimp only; omega)
  · exact DiyFp.mul_large hplus hc64 (by dsimp only; omega) hc63

/-- what Grisu2 hands on to DigitGen -/
structure DigitGenArgs where
  W : DiyFp
  Mp : DiyFp
  delta : ℕ
  K : ℤ
deriving DecidableEq, Repr

/-- Grisu2 up to the call of DigitGen -/
def digitGenArgs (fuel : ℕ) (value : BitVec 64) : Option DigitGenArgs := do
  let v := DiyFp.ofDouble value
  let w ← v.normalizedBoundaries fuel
  let c ← getCachedPower w.2.e
  let Wp := w.2.mul c.1
  let Wm := w.1.mul c.1
  some ⟨v.normalize.mul c.1, ⟨sub64 Wp.f 1, Wp.e⟩, sub64 (sub64 Wp.f 1) (u64 (Wm.f + 1)), c.2⟩

theorem grisu2_eq (fuel : ℕ) (oob : ℕ → ℕ) (value : BitVec 64) :
    grisu2 fuel oob value = (digitGenArgs fuel value).bind fun a => digitGen fuel oob a.W a.Mp a.delta a.K := by
  simp only [grisu2, digitGenArgs, Option.bind_eq_bind, Option.bind_assoc, Option.bind_some]

/-- what DigitGen relies on -/
structure DigitGenArgs.Ready (a : DigitGenArgs) : Prop where
  e_eq : a.Mp.e = a.W.e
  W_le : a.W.f ≤ a.Mp.f
  e_low : -60 ≤ a.Mp.e
  e_high : a.Mp.e ≤ -34
  f_low : 2 ^ 60 ≤ a.Mp.f
  f_lt : a.Mp.f < 2 ^ 64
  delta_pos : 0 < a.delta
  delta_lt : a.delta < a.Mp.f

/-- The bounds are the boundaries of the double times a power of ten, a unit further in, which is more than the error. -/
theorem digitGenArgs_spec {fuel : ℕ} (hfuel : 53 ≤ fuel) {value : BitVec 64} {f : ℕ} {e : ℤ}
    (hv : DiyFp.ofDouble value = ⟨f, e⟩) (hpos : 0 < f) (hf : f < 2 ^ 53) (helow : -1074 ≤ e) (hehigh : e ≤ 971) :
    ∃ a c, digitGenArgs fuel value = some a ∧ a.Ready ∧ a.Mp.e = e - DiyFp.clzll f + c + 64 ∧
      (DiyFp.minusF f : ℚ) * (10 ^ (-a.K) * 2 ^ (-c)) / 2 ^ 64 < a.Mp.f - a.delta ∧
      (a.Mp.f : ℚ) < DiyFp.plusF f * (10 ^ (-a.K) * 2 ^ (-c)) / 2 ^ 64 := by
  obtain ⟨h11, h63, -, -⟩ := DiyFp.clzll_spec hpos hf
  obtain ⟨hgap, hplus⟩ := DiyFp.plusF_spec hpos hf
  have hminus := DiyFp.minusF_le hpos hf
  obtain ⟨c, K, hcached, hc63, hc64, hc60, hc34, herr⟩ :=
    getCachedPower_spec (show -1137 ≤ e - DiyFp.clzll f by omega) (by omega)
  have hrun : digitGenArgs fuel value = some ⟨DiyFp.mul ⟨f * 2 ^ DiyFp.clzll f, e - DiyFp.clzll f⟩ c,
      ⟨sub64 (DiyFp.mul ⟨DiyFp.plusF f, e - DiyFp.clzll f⟩ c).f 1, (DiyFp.mul ⟨DiyFp.plusF f, e - DiyFp.clzll f⟩ c).e⟩,
      sub64 (sub64 (DiyFp.mul ⟨DiyFp.plusF f, e - DiyFp.clzll f⟩ c).f 1)
        (u64 ((DiyFp.mul ⟨DiyFp.minusF f, e - DiyFp.clzll f⟩ c).f + 1)), K⟩ := by
    simp only [digitGenArgs, hv, DiyFp.normalizedBoundaries_eq hpos hf hfuel, DiyFp.normalize_eq hpos hf,
      Option.bind_eq_bind, Option.bind_some, hcached]
  generalize e - (DiyFp.clzll f : ℤ) = E at *
  obtain ⟨hgapW, hgapM, hlarge⟩ := scaled_gaps hpos hf hc63 hc64 E
  have hupper := DiyFp.mul_error_of_factor (x := ⟨DiyFp.plusF f, E⟩) hplus hc64 herr
  have hlower := DiyFp.mul_error_of_factor (x := ⟨DiyFp.minusF f, E⟩) (by dsimp only; omega) hc64 herr
  have hlt := DiyFp.mul_lt ⟨DiyFp.plusF f, E⟩ c
  have hWe : (DiyFp.mul ⟨f * 2 ^ DiyFp.clzll f, E⟩ c).e = E + c.e + 64 := rfl
  have hWpe : (DiyFp.mul ⟨DiyFp.plusF f, E⟩ c).e = E + c.e + 64 := rfl
  dsimp only at hrun hupper hlower
  generalize DiyFp.mul ⟨f * 2 ^ DiyFp.clzll f, E⟩ c = W at *
  generalize DiyFp.mul ⟨DiyFp.plusF f, E⟩ c = Wp at *
  generalize DiyFp.mul ⟨DiyFp.minusF f, E⟩ c = Wm at *
  rw [u64_of_lt (by omega), sub64_of_le hlt (by omega), sub64_of_le (by omega) (by omega)] at hrun
  have hMp : ((Wp.f - 1 : ℕ) : ℚ) = Wp.f - 1 := by rw [Nat.cast_sub (by omega), Nat.cast_one]
  have hdelta : ((Wp.f - 1 - (Wm.f + 1) : ℕ) : ℚ) = Wp.f - 1 - (Wm.f + 1) := by
    rw [Nat.cast_sub (by omega), hMp, Nat.cast_add, Nat.cast_one]
  refine ⟨_, c.e, hrun, ⟨hWpe.trans hWe.symm, ?_, ?_, ?_, ?_, ?_, ?_, ?_⟩, hWpe, ?_, ?_⟩ <;> dsimp only
  any_goals omega
  · have := (abs_lt.1 hlower).1
    rw [hMp, hdelta]
    linarith
  · have := (abs_lt.1 hupper).2
    rw [hMp]
    linarith

/-- Grisu2 on a finite number that is not 0: the digits say a number strictly between the boundaries. -/
theorem grisu2_between {fuel : ℕ} (hfuel : 64 ≤ fuel) (oob : ℕ → ℕ) {value : BitVec 64} (hfinite : Binary64.Finite value)
    (hpos : 0 < Binary64.significand value) :
    ∃ out, grisu2 fuel oob value = some out ∧ out.exact = true ∧ DigitText out.buffer ∧
      Binary64.format.lowerMid (Binary64.significand value) (Binary64.exponent value) <
        decimalValue out.buffer * 10 ^ out.K ∧
      (decimalValue out.buffer : ℚ) * 10 ^ out.K <
        Format.upperMid (Binary64.significand value) (Binary64.exponent value) := by
  have hf : Binary64.significand value < 2 ^ 53 := (Binary64.fits value).lt
  obtain ⟨a, c, hargs, h, he, hlow, hhigh⟩ := digitGenArgs_spec (show 53 ≤ fuel by omega) (DiyFp.ofDouble_eq value) hpos hf
    (Binary64.fits value).emin_le (Binary64.exponent_le hfinite)
  rw [← DiyFp.minusF_value hpos hf, ← DiyFp.plusF_value hpos hf]
  obtain ⟨out, hout, hwithin⟩ := digitGen_spec oob a.K a.W a.Mp h.e_eq h.W_le h.e_low h.e_high h.f_low h.f_lt h.delta_pos
    h.delta_lt (show 20 ≤ fuel by omega)
  have hs : (((-a.Mp.e).toNat : ℕ) : ℤ) =
      -(Binary64.exponent value - DiyFp.clzll (Binary64.significand value) + c + 64) := by
    have := h.e_high
    omega
  refine ⟨out, by rw [grisu2_eq, hargs, Option.bind_some, hout], hwithin.exact, hwithin.text, ?_, ?_⟩
  · exact (lt_of_scaled hs).2.1 (lt_of_lt_of_le hlow hwithin.low)
  · exact (lt_of_scaled hs).1.1 (lt_of_le_of_lt hwithin.high hhigh)

/-- For every positive finite double, the digits identify it. -/
theorem grisu2_identifies {fuel : ℕ} (hfuel : 64 ≤ fuel) (oob : ℕ → ℕ) {value : BitVec 64} (hfinite : Binary64.Finite value)
    (hpos : 0 < Binary64.toRat value) :
    ∃ out, grisu2 fuel oob value = some out ∧ out.exact = true ∧ DigitText out.buffer ∧
      Binary64.format.lowerMid (Binary64.significand value) (Binary64.exponent value) <
        decimalValue out.buffer * 10 ^ out.K ∧
      (decimalValue out.buffer : ℚ) * 10 ^ out.K <
        Format.upperMid (Binary64.significand value) (Binary64.exponent value) ∧
      Binary64.RoundsTo (decimalValue out.buffer * 10 ^ out.K) value := by
  obtain ⟨out, hrun, hexact, htext, hlow, hhigh⟩ :=
    grisu2_between hfuel oob hfinite (Binary64.significand_pos hpos.ne')
  exact ⟨out, hrun, hexact, htext, hlow, hhigh, Binary64.roundsTo_of_between hpos hlow hhigh⟩

/-- the double closest to a tenth -/
theorem grisu2_identifies_tenth : ∃ out, grisu2 64 (fun _ => 0) 0x3FB999999999999A = some out ∧
    Binary64.RoundsTo (decimalValue out.buffer * 10 ^ out.K) 0x3FB999999999999A := by
  have hpos : 0 < Binary64.toRat 0x3FB999999999999A := Binary64.toRat_pos (by decide) (by decide)
  obtain ⟨out, hrun, -, -, -, -, hround⟩ := grisu2_identifies (Nat.le_refl 64) (fun _ => 0) (by decide) hpos
  exact ⟨out, hrun, hround⟩

end TinyRpc.Common
