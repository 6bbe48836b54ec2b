/-
Numbers written into a buffer from the last digit on.

`digitLoop_eq` is about a loop that takes one digit off a number and writes it, as long as the number is not 0 and there is
room for one more character and a NUL, where the room is computed in unsigned arithmetic. The text is then ended with a
NUL and reversed; `Backwards` is what a formatter of that kind leaves, with a rule for every part of it.
-/
import Mathlib.Tactic
import TinyRpc.Core.Buffer

namespace TinyRpc.Core

variable {α : Type}

/-- `maxlen - i` does not wrap while there is room -/
theorem room_toNat {maxlen : BitVec 64} {i : ℕ} (h : i ≤ maxlen.toNat) :
    (maxlen - BitVec.ofNat 64 i).toNat = maxlen.toNat - i := by
  have hlt := maxlen.isLt
  have hi : (BitVec.ofNat 64 i).toNat = i := by
    rw [BitVec.toNat_ofNat]
    exact Nat.mod_eq_of_lt (by omega)
  rw [BitVec.toNat_sub_of_le (by rw [BitVec.le_def, hi]; exact h), hi]

theorem lt_room_iff {maxlen : BitVec 64} {i k : ℕ} (hk : k < 2 ^ 64) (h : i ≤ maxlen.toNat) :
    BitVec.ofNat 64 k < maxlen - BitVec.ofNat 64 i ↔ i + k < maxlen.toNat := by
  rw [BitVec.lt_def, room_toNat h, BitVec.toNat_ofNat, Nat.mod_eq_of_lt hk]
  exact Nat.lt_sub_iff_add_lt'

/-- The digits are written from the last one on, as long as there is room for one more and the NUL. -/
theorem digitLoop_eq {n base : ℕ} (hbase : 1 < base) (char : ℕ → α) (maxlen : BitVec 64) {next : BitVec n → BitVec n}
    (hnext : ∀ v, (next v).toNat = v.toNat / base) {loop : BitVec n → ℕ → Buf α → Buf α × ℕ}
    (hloop : ∀ v i buf, loop v i buf = if v ≠ 0 ∧ 1#64 < maxlen - BitVec.ofNat 64 i then
      loop (next v) (i + 1) (buf.poke i (char (v.toNat % base))) else (buf, i))
    (v : BitVec n) (i : ℕ) (buf : Buf α) (h : i < maxlen.toNat) :
    loop v i buf = (buf.pokes i (((Nat.digits base v.toNat).map char).take (maxlen.toNat - 1 - i)),
      i + (((Nat.digits base v.toNat).map char).take (maxlen.toNat - 1 - i)).length) := by
  induction hn : v.toNat using Nat.strong_induction_on generalizing v i buf with
  | _ n ih =>
    subst hn
    rw [hloop]
    have hguard : 1#64 < maxlen - BitVec.ofNat 64 i ↔ i + 1 < maxlen.toNat := lt_room_iff (by decide) h.le
    have hzero : v ≠ 0 ↔ 0 < v.toNat := by
      rw [Nat.pos_iff_ne_zero, ne_eq, ne_eq, ← BitVec.toNat_inj]
      rfl
    split_ifs with hgo
    · have hpos := hzero.1 hgo.1
      have hroom := hguard.1 hgo.2
      have htake : maxlen.toNat - 1 - i = (maxlen.toNat - 1 - (i + 1)) + 1 := by omega
      rw [ih (v.toNat / base) (Nat.div_lt_self hpos hbase) _ (i + 1) _ hroom (hnext v), Nat.digits_def' hbase hpos,
        List.map_cons, htake, List.take_succ_cons, Buf.pokes_cons, List.length_cons]
      congr 1
      omega
    · have hnone : ((Nat.digits base v.toNat).map char).take (maxlen.toNat - 1 - i) = [] := by
        by_cases h0 : 0 < v.toNat
        · have hfull : maxlen.toNat - 1 - i = 0 := by
            by_contra hne
            exact hgo ⟨hzero.2 h0, hguard.2 (by omega)⟩
          rw [hfull, List.take_zero]
        · rw [Nat.eq_zero_of_not_pos h0, Nat.digits_zero, List.map_nil, List.take_nil]
      rw [hnone]
      rfl

/-- the characters `t` and a `nul` were written, and the characters reversed; their number is returned -/
def Backwards (nul : α) (buf : Buf α) (t : List α) (result : Buf α × ℕ) : Prop :=
  result = ((buf.pokes 0 (t ++ [nul])).reverse t.length, t.length)

namespace Backwards

variable {nul : α} {buf : Buf α} {t : List α} {result : Buf α × ℕ}

theorem returned (h : Backwards nul buf t result) : result.2 = t.length := by rw [h]

theorem read (h : Backwards nul buf t result) : result.1.read 0 t.length = t.reverse := by
  rw [h, Buf.read_reverse, Buf.pokes_append, Buf.read_pokes_below (by omega), Buf.read_pokes]

/-- as many elements as were returned -/
theorem text (h : Backwards nul buf t result) : result.1.read 0 result.2 = t.reverse := by rw [h.returned, h.read]

theorem terminated (h : Backwards nul buf t result) : result.1.mem t.length = nul := by
  rw [h, Buf.mem_reverse_above (Nat.le_refl _), Buf.pokes_append, Nat.zero_add, ← Buf.poke_eq_pokes, Buf.mem_poke_self]

theorem hi_le (h : Backwards nul buf t result) {m : ℕ} (hbuf : buf.hi ≤ m) (ht : t.length < m) : result.1.hi ≤ m := by
  rw [h]
  refine Buf.hi_reverse_le (Buf.hi_pokes_le hbuf ?_) ht.le
  rw [List.length_append, List.length_singleton, Nat.zero_add]
  exact ht

end Backwards

end TinyRpc.Core
