/-
Pointers as hexadecimal text (`ptrtoa` in common/string.hpp).

The digits come from the last one on, four bits at a time, a NUL goes behind them and the text is reversed in place. There
is no sign and no prefix. The only guard is `1 < maxlen - i`, so what does not fit is left out: the digits that come last
in the loop, which are the first ones of the text.

`ptrtoa_prints_iff`: with room for one character or more, the whole text is printed exactly when it fits with its NUL.
-/
import Mathlib.Tactic
import TinyRpc.Core.Buffer
import TinyRpc.Core.Decimal
import TinyRpc.Core.DigitWriter
import TinyRpc.Common.Itoa

namespace TinyRpc.Common

open TinyRpc.Core

/-! ## Model -/

def digitsHex : List Byte := "0123456789abcdef".toList.map ascii

/-- the digit loop: the digits go from offset `i` on -/
def ptrtoaLoop (maxlen v : BitVec 64) (i : ℕ) (buf : Buf Byte) : Buf Byte × ℕ :=
  if v ≠ 0 ∧ 1#64 < maxlen - BitVec.ofNat 64 i then
    let q := v >>> 4
    ptrtoaLoop maxlen q (i + 1) (buf.poke i (digitsHex.getD ((v - q <<< 4).setWidth 32).toInt.toNat 0))
  else (buf, i)
termination_by v.toNat
decreasing_by
  rename_i h
  have hpos : v.toNat ≠ 0 := fun h0 => h.1 (BitVec.eq_of_toNat_eq h0)
  rw [BitVec.toNat_ushiftRight, Nat.shiftRight_eq_div_pow]
  omega

/-- the text is left in the buffer; the second component is what is returned -/
def ptrtoa (buf : Buf Byte) (maxlen value : BitVec 64) : Buf Byte × ℕ :=
  let (buf, i) := ptrtoaLoop maxlen value 0 buf
  let buf := buf.poke i 0
  (buf.reverse i, i)

/-! ## What is written -/

/-- the hexadecimal digits of a number, the last one first; 0 has none -/
def hexDigits (n : ℕ) : List Byte := (Nat.digits 16 n).map fun d => ascii (Nat.digitChar d)

theorem length_hexDigits_le (v : BitVec 64) : (hexDigits v.toNat).length ≤ 16 := by
  rw [hexDigits, List.length_map, Nat.digits_length_le_iff (by decide)]
  exact v.isLt

/-- four bits are shifted out, and they are the last digit -/
theorem digitsHex_lookup (v : BitVec 64) :
    digitsHex.getD ((v - (v >>> 4) <<< 4).setWidth 32).toInt.toNat 0 = ascii (Nat.digitChar (v.toNat % 16)) := by
  have hrem : (v - (v >>> 4) <<< 4).toNat = v.toNat % 16 := by
    have hlow : ((v >>> 4) <<< 4).toNat = v.toNat / 16 * 16 := by
      rw [BitVec.toNat_shiftLeft, BitVec.toNat_ushiftRight, Nat.shiftRight_eq_div_pow, Nat.shiftLeft_eq]
      omega
    rw [BitVec.toNat_sub_of_le (by rw [BitVec.le_def, hlow]; omega), hlow]
    omega
  have hlt : v.toNat % 16 < 16 := Nat.mod_lt _ (by decide)
  rw [BitVec.toInt_eq_toNat_of_lt (by rw [BitVec.toNat_setWidth, hrem]; omega), BitVec.toNat_setWidth, hrem,
    Nat.mod_eq_of_lt (by omega), Int.toNat_natCast]
  generalize v.toNat % 16 = d at hlt
  interval_cases d <;> decide

theorem ptrtoaLoop_eq (maxlen v : BitVec 64) (i : ℕ) (buf : Buf Byte) (h : i < maxlen.toNat) :
    ptrtoaLoop maxlen v i buf =
      (buf.pokes i ((hexDigits v.toNat).take (maxlen.toNat - 1 - i)),
        i + ((hexDigits v.toNat).take (maxlen.toNat - 1 - i)).length) := by
  have hnext : ∀ v : BitVec 64, (v >>> 4).toNat = v.toNat / 16 := by
    intro v
    rw [BitVec.toNat_ushiftRight, Nat.shiftRight_eq_div_pow]
  refine digitLoop_eq (by decide) (fun d => ascii (Nat.digitChar d)) maxlen hnext (fun v i buf => ?_) v i buf h
  rw [ptrtoaLoop]
  dsimp only
  rw [digitsHex_lookup]

theorem ptrtoa_backwards (buf : Buf Byte) (maxlen value : BitVec 64) (h : 0 < maxlen.toNat) :
    Backwards 0 buf ((hexDigits value.toNat).take (maxlen.toNat - 1)) (ptrtoa buf maxlen value) := by
  have hloop := ptrtoaLoop_eq maxlen value 0 buf h
  rw [Nat.sub_zero, Nat.zero_add] at hloop
  rw [Backwards, Buf.pokes_append, Nat.zero_add]
  simp only [ptrtoa, hloop]
  rfl

theorem ptrtoa_hi_le (mem : ℕ → Byte) (maxlen value : BitVec 64) (h : 0 < maxlen.toNat) :
    (ptrtoa ⟨mem, 0⟩ maxlen value).1.hi ≤ maxlen.toNat := by
  refine (ptrtoa_backwards _ maxlen value h).hi_le (Nat.zero_le _) ?_
  rw [List.length_take]
  omega

/-- **The pointer is printed.** For every pointer and every buffer with room for one character or more: all its digits and a
NUL are left in the buffer and their number is returned exactly when they fit. -/
theorem ptrtoa_prints_iff (buf : Buf Byte) (maxlen value : BitVec 64) (h : 0 < maxlen.toNat) :
    Prints (ptrtoa buf maxlen value) (hexDigits value.toNat).reverse ↔ (hexDigits value.toNat).length < maxlen.toNat := by
  have hback := ptrtoa_backwards buf maxlen value h
  constructor
  · intro hprints
    have hreturned := hprints.2.2
    rw [hback.returned, List.length_take, List.length_reverse] at hreturned
    omega
  · intro hfits
    rw [List.take_of_length_le (by omega)] at hback
    rw [Prints, List.length_reverse]
    exact ⟨hback.read, hback.terminated, hback.returned⟩

end TinyRpc.Common
