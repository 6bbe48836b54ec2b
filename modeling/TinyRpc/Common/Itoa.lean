/-
Integers as decimal text (`itoa` in common/string.hpp).

The digits come from the last one on: the quotient by ten is a multiplication by a rounded reciprocal and a shift, in a
type of twice the width. A sign goes behind the digits, a NUL behind the sign, and the text is reversed in place. Two
guards look at the room that is left, `1 < maxlen - i` for a digit and `maxlen - i > 2` for the sign, in unsigned
arithmetic.

- `Width.quotient_toNat`, `reciprocal_exact`: the reciprocal divides by ten, for every width and every value.
- `itoa_prints_iff`: with room for 22 characters and more, the text is that of `printf` exactly when the value is not 0.
  The digit loop does not run for 0, and the text is empty.
- `itoa_respects_iff`: for the other values and any room, the writes stay in the buffer, the text ends with a NUL at the
  returned length, and a text that fits is complete, except that a negative number loses its sign where it fits exactly.
-/
import Mathlib.Tactic
import TinyRpc.Core.Buffer
import TinyRpc.Core.Decimal
import TinyRpc.Core.DigitWriter

namespace TinyRpc.Common

open TinyRpc.Core

/-! ## Model -/

/-- the widths of the integer types -/
inductive Width where
  | w8
  | w16
  | w32
  | w64
deriving DecidableEq, Repr

namespace Width

def bits : Width → ℕ
  | w8 => 8
  | w16 => 16
  | w32 => 32
  | w64 => 64

/-- the width of `make_umi_t` -/
def umi : Width → ℕ
  | w8 | w16 | w32 => 64
  | w64 => 128

def shift_offset (w : Width) : ℕ := w.bits / 8 * 8 + 3

def base (w : Width) : BitVec w.bits := BitVec.ofNat w.bits (if w.bits / 8 ≤ 4 then 0xcccccccd else 0xcccccccccccccccd)

/-- `(umiT)((umiT)v * base) >> shift_offset` -/
def quotient (w : Width) (v : BitVec w.bits) : BitVec w.umi := (v.setWidth w.umi * w.base.setWidth w.umi) >>> w.shift_offset

/-- `static_cast<int>(v - q * 10)` -/
def remainder (w : Width) (v : BitVec w.bits) : ℤ := ((v.setWidth w.umi - w.quotient v * 10).setWidth 32).toInt

end Width

/-- the characters of `digits[]`; `zero` points to the tenth -/
def digits : List Byte := "9876543210123456789".toList.map ascii

/-- `zero[k]` -/
def zero (k : ℤ) : Byte := digits.getD (9 + k).toNat 0

/-! ## The reciprocal -/

namespace Width

theorem ten_base (w : Width) : 10 * w.base.toNat = 2 ^ w.shift_offset + 2 := by
  cases w <;> decide

theorem bits_le_umi (w : Width) : w.bits ≤ w.umi := by
  cases w <;> decide

/-- the product does not overflow its type -/
theorem product_lt (w : Width) (v : BitVec w.bits) : v.toNat * w.base.toNat < 2 ^ w.umi := by
  have hdouble : 2 * w.bits ≤ w.umi := by cases w <;> decide
  calc v.toNat * w.base.toNat < 2 ^ w.bits * 2 ^ w.bits := Nat.mul_lt_mul'' v.isLt w.base.isLt
    _ = 2 ^ (2 * w.bits) := by rw [← Nat.pow_add, Nat.two_mul]
    _ ≤ 2 ^ w.umi := Nat.pow_le_pow_right (by decide) hdouble

theorem quotient_toNat (w : Width) (v : BitVec w.bits) : (w.quotient v).toNat = v.toNat / 10 := by
  have hroom : 2 * v.toNat + 18 < 2 ^ w.shift_offset := by
    have hv := v.isLt
    have hshift : 2 * 2 ^ w.bits + 18 ≤ 2 ^ w.shift_offset := by cases w <;> decide
    omega
  rw [quotient, BitVec.toNat_ushiftRight, BitVec.toNat_mul, BitVec.toNat_setWidth_of_le w.bits_le_umi,
    BitVec.toNat_setWidth_of_le w.bits_le_umi, Nat.mod_eq_of_lt (w.product_lt v), Nat.shiftRight_eq_div_pow]
  exact div_ten_of_reciprocal w.ten_base hroom

end Width

/-! ## The function -/

/-- the digit loop: the digits go from offset `i` on -/
def itoaLoop (w : Width) (maxlen : BitVec 64) (v : BitVec w.bits) (i : ℕ) (buf : Buf Byte) : Buf Byte × ℕ :=
  if v ≠ 0 ∧ 1#64 < maxlen - BitVec.ofNat 64 i then
    let q := w.quotient v
    itoaLoop w maxlen (q.setWidth w.bits) (i + 1) (buf.poke i (zero ((v.setWidth w.umi - q * 10).setWidth 32).toInt))
  else (buf, i)
termination_by v.toNat
decreasing_by
  rename_i h
  have hpos : v.toNat ≠ 0 := fun h0 => h.1 (BitVec.eq_of_toNat_eq h0)
  rw [BitVec.toNat_setWidth, w.quotient_toNat]
  exact (Nat.mod_le _ _).trans_lt (by omega)

/-- the value of an integer of a signed or an unsigned type -/
def valueOf (signed : Bool) {n : ℕ} (value : BitVec n) : ℤ := if signed then value.toInt else value.toNat

/-- the text is left in the buffer; the second component is what is returned -/
def itoa (w : Width) (signed : Bool) (buf : Buf Byte) (maxlen : BitVec 64) (value : BitVec w.bits) : Buf Byte × ℕ :=
  let v := if valueOf signed value > 0 then value else -value
  let (buf, i) := itoaLoop w maxlen v 0 buf
  let (buf, ptr) :=
    if valueOf signed value < 0 ∧ maxlen - BitVec.ofNat 64 i > 2#64 then (buf.poke i (ascii '-'), i + 1) else (buf, i)
  let buf := buf.poke ptr 0
  (buf.reverse ptr, ptr)

/-! ## What is written -/

theorem remainder_eq (w : Width) (v : BitVec w.bits) : w.remainder v = ((v.toNat % 10 : ℕ) : ℤ) := by
  have hv : v.toNat < 2 ^ w.umi := v.isLt.trans_le (Nat.pow_le_pow_right (by decide) w.bits_le_umi)
  have hrem : (v.setWidth w.umi - w.quotient v * 10).toNat = v.toNat % 10 := by
    have hten : ((10 : BitVec w.umi)).toNat = 10 := by cases w <;> rfl
    have hprod : (w.quotient v * 10).toNat = v.toNat / 10 * 10 := by
      rw [BitVec.toNat_mul, w.quotient_toNat, hten, Nat.mod_eq_of_lt]
      omega
    have hle : w.quotient v * 10 ≤ v.setWidth w.umi := by
      rw [BitVec.le_def, hprod, BitVec.toNat_setWidth_of_le w.bits_le_umi]
      omega
    rw [BitVec.toNat_sub_of_le hle, hprod, BitVec.toNat_setWidth_of_le w.bits_le_umi]
    omega
  have hlt : v.toNat % 10 < 10 := Nat.mod_lt _ (by decide)
  rw [Width.remainder, BitVec.toInt_eq_toNat_of_lt, BitVec.toNat_setWidth, hrem, Nat.mod_eq_of_lt (by omega)]
  rw [BitVec.toNat_setWidth, hrem]
  omega

/-- the character the loop looks up is the last digit -/
theorem zero_lookup (w : Width) (v : BitVec w.bits) :
    zero ((v.setWidth w.umi - w.quotient v * 10).setWidth 32).toInt = ascii (Nat.digitChar (v.toNat % 10)) := by
  have hlt : v.toNat % 10 < 10 := Nat.mod_lt _ (by decide)
  rw [← Width.remainder, remainder_eq]
  generalize v.toNat % 10 = d at hlt
  interval_cases d <;> decide

/-- the quotient goes back into the type of `v` -/
theorem next_toNat (w : Width) (v : BitVec w.bits) : ((w.quotient v).setWidth w.bits).toNat = v.toNat / 10 := by
  rw [BitVec.toNat_setWidth, w.quotient_toNat]
  exact Nat.mod_eq_of_lt ((Nat.div_le_self _ _).trans_lt v.isLt)

/-- **The reciprocal.** For every width and every value: the product does not overflow its type, the quotient is that by
ten, what is left is a digit whose character is in the table, and the loop goes down to 0. -/
theorem reciprocal_exact (w : Width) (v : BitVec w.bits) :
    v.toNat * w.base.toNat < 2 ^ w.umi ∧
    (v.toNat * w.base.toNat) >>> (w.bits + 3) = v.toNat / 10 ∧
    (w.quotient v).toNat = v.toNat / 10 ∧
    w.remainder v = v.toNat - 10 * (w.quotient v).toNat ∧ 0 ≤ w.remainder v ∧ w.remainder v ≤ 9 ∧
    (9 + w.remainder v).toNat < digits.length ∧
    (v = 0 ∨ ((w.quotient v).setWidth w.bits).toNat < v.toNat) ∧
    ∃ n, (fun v : BitVec w.bits => (w.quotient v).setWidth w.bits)^[n] v = 0 := by
  have hshift : w.shift_offset = w.bits + 3 := by cases w <;> rfl
  have hquot := w.quotient_toNat v
  have hlength : digits.length = 19 := by decide
  have hrem := remainder_eq w v
  refine ⟨w.product_lt v, ?_, hquot, by omega, by omega, by omega, by omega, ?_, ?_⟩
  · rw [← hquot, Width.quotient, BitVec.toNat_ushiftRight, BitVec.toNat_mul, BitVec.toNat_setWidth_of_le w.bits_le_umi,
      BitVec.toNat_setWidth_of_le w.bits_le_umi, Nat.mod_eq_of_lt (w.product_lt v), hshift]
  · rw [next_toNat, or_iff_not_imp_left]
    intro hne
    have hpos : v.toNat ≠ 0 := fun h0 => hne (BitVec.eq_of_toNat_eq h0)
    omega
  · -- every turn divides by ten
    induction hn : v.toNat using Nat.strong_induction_on generalizing v with
    | _ n ih =>
      subst hn
      rcases Nat.eq_zero_or_pos v.toNat with hzero | hpos
      · exact ⟨0, BitVec.eq_of_toNat_eq hzero⟩
      · obtain ⟨n, hend⟩ := ih (v.toNat / 10) (by omega) _ (w.quotient_toNat _) (remainder_eq w _) (next_toNat w v)
        exact ⟨n + 1, hend⟩

/-- The digit loop writes the digits from the last one on, as long as there is room for one more and the NUL. -/
theorem itoaLoop_eq (w : Width) (maxlen : BitVec 64) (v : BitVec w.bits) (i : ℕ) (buf : Buf Byte) (h : i < maxlen.toNat) :
    itoaLoop w maxlen v i buf =
      (buf.pokes i ((lowDigits v.toNat).take (maxlen.toNat - 1 - i)),
        i + ((lowDigits v.toNat).take (maxlen.toNat - 1 - i)).length) := by
  refine digitLoop_eq (by decide) (fun d => ascii (Nat.digitChar d)) maxlen (next_toNat w) (fun v i buf => ?_) v i buf h
  rw [itoaLoop]
  dsimp only
  rw [zero_lookup]

/-- the negation wraps, so the smallest value has its magnitude too -/
theorem magnitude (signed : Bool) {n : ℕ} (value : BitVec n) :
    (if valueOf signed value > 0 then value else -value).toNat = (valueOf signed value).natAbs := by
  have hlt := value.isLt
  cases signed with
  | false =>
    simp only [valueOf, Bool.false_eq_true, if_false]
    split_ifs with hpos
    · rfl
    · rw [BitVec.toNat_neg]
      have hzero : value.toNat = 0 := by omega
      simp [hzero]
  | true =>
    simp only [valueOf, if_true]
    split_ifs with hpos
    · rw [BitVec.toInt_eq_toNat_cond] at hpos ⊢
      split_ifs at hpos ⊢ with hsmall
      · rfl
      · omega
    · rw [BitVec.toNat_neg]
      rw [BitVec.toInt_eq_toNat_cond] at hpos ⊢
      split_ifs at hpos ⊢ with hsmall
      · have hzero : value.toNat = 0 := by omega
        simp [hzero]
      · rw [Nat.mod_eq_of_lt (by omega)]
        omega

/-- the characters before the NUL, in the order they are written: digits, and a sign if there is room for it -/
def written (x : ℤ) (maxlen : ℕ) : List Byte :=
  let ds := (lowDigits x.natAbs).take (maxlen - 1)
  if x < 0 ∧ ds.length + 2 < maxlen then ds ++ [ascii '-'] else ds

theorem itoa_backwards (w : Width) (signed : Bool) (buf : Buf Byte) (maxlen : BitVec 64) (value : BitVec w.bits)
    (h : 0 < maxlen.toNat) :
    Backwards 0 buf (written (valueOf signed value) maxlen.toNat) (itoa w signed buf maxlen value) := by
  set ds := (lowDigits (valueOf signed value).natAbs).take (maxlen.toNat - 1) with hds
  have hlen : ds.length ≤ maxlen.toNat - 1 := List.length_take_le _ _
  have hroom : maxlen - BitVec.ofNat 64 ds.length > 2#64 ↔ ds.length + 2 < maxlen.toNat :=
    lt_room_iff (by decide) (by omega)
  have hloop := itoaLoop_eq w maxlen (if valueOf signed value > 0 then value else -value) 0 buf h
  rw [magnitude, Nat.sub_zero, Nat.zero_add, ← hds] at hloop
  simp only [Backwards, itoa, hloop, hroom, written, ← hds]
  split_ifs with hsign
  · rw [Buf.pokes_append, Buf.pokes_append, List.length_append, Nat.zero_add, Nat.zero_add]
    rfl
  · rw [Buf.pokes_append, Nat.zero_add]
    rfl

/-- what stands in the buffer afterwards -/
theorem itoa_read (w : Width) (signed : Bool) (buf : Buf Byte) (maxlen : BitVec 64) (value : BitVec w.bits)
    (h : 0 < maxlen.toNat) :
    (itoa w signed buf maxlen value).2 = (written (valueOf signed value) maxlen.toNat).length ∧
      (itoa w signed buf maxlen value).1.read 0 (written (valueOf signed value) maxlen.toNat).length =
        (written (valueOf signed value) maxlen.toNat).reverse ∧
      (itoa w signed buf maxlen value).1.mem (written (valueOf signed value) maxlen.toNat).length = 0 := by
  have hback := itoa_backwards w signed buf maxlen value h
  exact ⟨hback.returned, hback.read, hback.terminated⟩

theorem length_written_lt {x : ℤ} {maxlen : ℕ} (h : 0 < maxlen) : (written x maxlen).length < maxlen := by
  unfold written
  have hlen : ((lowDigits x.natAbs).take (maxlen - 1)).length ≤ maxlen - 1 := List.length_take_le _ _
  dsimp only
  split_ifs with hsign
  · rw [List.length_append, List.length_singleton]
    omega
  · omega

theorem ne_zero_of_mem_written {x : ℤ} {maxlen : ℕ} {c : Byte} (hc : c ∈ written x maxlen) : c ≠ 0 := by
  unfold written at hc
  dsimp only at hc
  split_ifs at hc
  · rcases List.mem_append.1 hc with hc | hc
    · exact ne_zero_of_mem_lowDigits (List.mem_of_mem_take hc)
    · rw [List.mem_singleton.1 hc]
      decide
  · exact ne_zero_of_mem_lowDigits (List.mem_of_mem_take hc)

theorem written_of_pos {x : ℤ} {maxlen : ℕ} (hx : 0 < x) (h : (decimalText x).length < maxlen) :
    (written x maxlen).reverse = decimalText x := by
  rw [decimalText_of_pos hx] at h ⊢
  rw [List.length_reverse] at h
  rw [written, if_neg (by omega), List.take_of_length_le (by omega)]

theorem written_of_neg {x : ℤ} {maxlen : ℕ} (hx : x < 0) (h : (decimalText x).length < maxlen) :
    (written x maxlen).reverse =
      if (decimalText x).length + 1 < maxlen then decimalText x else (lowDigits x.natAbs).reverse := by
  rw [decimalText_of_neg hx, List.length_cons, List.length_reverse] at *
  have htake : (lowDigits x.natAbs).take (maxlen - 1) = lowDigits x.natAbs := List.take_of_length_le (by omega)
  rw [written, htake]
  split_ifs with hroom hfit hfit
  · rw [List.reverse_append]
    rfl
  · omega
  · exact absurd ⟨hx, hfit⟩ hroom
  · rfl

theorem valueOf_eq_zero {signed : Bool} {n : ℕ} {value : BitVec n} : valueOf signed value = 0 ↔ value = 0 := by
  have hmag := magnitude signed value
  constructor
  · intro h
    rw [h, if_neg (lt_irrefl 0), Int.natAbs_zero] at hmag
    have hneg : -value = 0 := BitVec.eq_of_toNat_eq hmag
    simpa using hneg
  · rintro rfl
    cases signed <;> simp [valueOf]

/-! ## With room for every number -/

/-- the text and its NUL are in the buffer, and its length is returned -/
def Prints (result : Buf Byte × ℕ) (text : List Byte) : Prop :=
  result.1.read 0 text.length = text ∧ result.1.mem text.length = 0 ∧ result.2 = text.length

theorem length_decimalText_le (w : Width) (signed : Bool) (value : BitVec w.bits) :
    (decimalText (valueOf signed value)).length ≤ 20 := by
  have hbits : w.bits ≤ 64 := by cases w <;> decide
  have hpow : 2 ^ w.bits ≤ 2 ^ 64 := Nat.pow_le_pow_right (by decide) hbits
  have hlt := value.isLt
  rcases lt_trichotomy (valueOf signed value) 0 with hneg | hzero | hpos
  · have hdigits : (lowDigits (valueOf signed value).natAbs).length ≤ 19 := by
      apply length_lowDigits_le
      have hlow : -(2 ^ 63 : ℤ) ≤ valueOf signed value := by
        unfold valueOf
        split_ifs
        · rw [BitVec.toInt_eq_toNat_cond]
          split_ifs <;> omega
        · omega
      omega
    rw [decimalText_of_neg hneg, List.length_cons, List.length_reverse]
    omega
  · rw [hzero, decimalText_zero]
    decide
  · have hdigits : (lowDigits (valueOf signed value).natAbs).length ≤ 20 := by
      apply length_lowDigits_le
      rw [← magnitude, if_pos hpos]
      omega
    rw [decimalText_of_pos hpos, List.length_reverse]
    exact hdigits

/-- with room for 22 characters the text does not depend on the room -/
theorem written_of_room (w : Width) (signed : Bool) (value : BitVec w.bits) {maxlen : ℕ} (h : 22 ≤ maxlen) :
    (written (valueOf signed value) maxlen).reverse = if value = 0 then [] else decimalText (valueOf signed value) := by
  have hlen := length_decimalText_le w signed value
  rcases lt_trichotomy (valueOf signed value) 0 with hneg | hzero | hpos
  · rw [written_of_neg hneg (by omega), if_pos (by omega), if_neg (mt valueOf_eq_zero.2 hneg.ne)]
  · rw [hzero, if_pos (valueOf_eq_zero.1 hzero)]
    simp [written]
  · rw [written_of_pos hpos (by omega), if_neg (mt valueOf_eq_zero.2 hpos.ne')]

/-- **The number is printed.** For every integer type, every value and every buffer with room for 22 characters or more:
the decimal text of the value and a NUL are left in the buffer and the length of the text is returned, exactly when the
value is not 0. -/
theorem itoa_prints_iff (w : Width) (signed : Bool) (buf : Buf Byte) (maxlen : BitVec 64) (value : BitVec w.bits)
    (h : 22 ≤ maxlen.toNat) :
    Prints (itoa w signed buf maxlen value) (decimalText (valueOf signed value)) ↔ value ≠ 0 := by
  have hback := itoa_backwards w signed buf maxlen value (by omega)
  have htext := written_of_room w signed value h
  constructor
  · rintro hprints rfl
    have hzero : valueOf signed (0 : BitVec w.bits) = 0 := valueOf_eq_zero.2 rfl
    have hnone : (written 0 maxlen.toNat).length = 0 := by simp [written]
    have hlength := hprints.2.2
    rw [hback.returned, hzero, hnone, decimalText_zero] at hlength
    cases hlength
  · intro hne
    rw [if_neg hne] at htext
    rw [← htext, Prints, List.length_reverse]
    exact ⟨hback.read, hback.terminated, hback.returned⟩

/-- the smallest 8-bit value, with the least room -/
theorem itoa_prints_min :
    Prints (itoa .w8 true ⟨fun _ => 0xff, 0⟩ 22 (-128)) (decimalText (valueOf true (-128 : BitVec 8))) :=
  (itoa_prints_iff .w8 true ⟨fun _ => 0xff, 0⟩ 22 (-128) (by decide)).2 (by decide)

/-- 0 is printed as the empty text -/
theorem zero_printed_empty :
    (itoa .w32 true ⟨fun _ => 0xff, 0⟩ 22 0).2 = 0 ∧
      ¬ Prints (itoa .w32 true ⟨fun _ => 0xff, 0⟩ 22 0) (decimalText (valueOf true (0 : BitVec 32))) := by
  have hret : (itoa .w32 true ⟨fun _ => 0xff, 0⟩ 22 0).2 = 0 := by
    rw [(itoa_read .w32 true ⟨fun _ => 0xff, 0⟩ 22 0 (by decide)).1]
    rfl
  refine ⟨hret, ?_⟩
  intro hprints
  have hlength := hprints.2.2
  rw [hret] at hlength
  cases hlength

/-! ## In any buffer -/

/-- the writes are inside the buffer, the text ends at the returned length, and it is complete if it fits with its NUL -/
structure Respects (result : Buf Byte × ℕ) (maxlen : ℕ) (text : List Byte) : Prop where
  inside : result.1.hi ≤ maxlen
  terminated : result.1.mem result.2 = 0 ∧ ∀ j < result.2, result.1.mem j ≠ 0
  complete : text.length + 1 ≤ maxlen → result.1.read 0 result.2 = text

theorem itoa_hi_le (w : Width) (signed : Bool) (mem : ℕ → Byte) (maxlen : BitVec 64) (value : BitVec w.bits)
    (h : 0 < maxlen.toNat) : (itoa w signed ⟨mem, 0⟩ maxlen value).1.hi ≤ maxlen.toNat :=
  (itoa_backwards w signed _ maxlen value h).hi_le (Nat.zero_le _) (length_written_lt h)

theorem mem_ne_zero_of_read {b : Buf Byte} {text : List Byte} (h : b.read 0 text.length = text) (ht : ∀ c ∈ text, c ≠ 0)
    {j : ℕ} (hj : j < text.length) : b.mem j ≠ 0 := by
  refine ht _ ?_
  rw [← h]
  exact List.mem_map_of_mem (List.mem_range'_1.2 ⟨Nat.zero_le j, by omega⟩)

/-- **The buffer is respected.** For every integer type, every value but 0 and every buffer of at least one character:
itoa writes inside the buffer, ends its text with a NUL at the length it returns, and the text is complete when it fits
with its sign and its NUL, exactly when it is not the case that the number is negative and fits exactly. -/
theorem itoa_respects_iff (w : Width) (signed : Bool) (mem : ℕ → Byte) (maxlen : BitVec 64) (value : BitVec w.bits)
    (hvalue : value ≠ 0) (h : 1 ≤ maxlen.toNat) :
    Respects (itoa w signed ⟨mem, 0⟩ maxlen value) maxlen.toNat (decimalText (valueOf signed value)) ↔
      ¬ (valueOf signed value < 0 ∧ maxlen.toNat = (decimalText (valueOf signed value)).length + 1) := by
  obtain ⟨hret, hread, hnul⟩ := itoa_read w signed ⟨mem, 0⟩ maxlen value h
  have hterminated : (itoa w signed ⟨mem, 0⟩ maxlen value).1.mem (itoa w signed ⟨mem, 0⟩ maxlen value).2 = 0 ∧
      ∀ j < (itoa w signed ⟨mem, 0⟩ maxlen value).2, (itoa w signed ⟨mem, 0⟩ maxlen value).1.mem j ≠ 0 := by
    rw [hret]
    refine ⟨hnul, ?_⟩
    intro j hj
    rw [← List.length_reverse] at hread hj
    exact mem_ne_zero_of_read hread (fun c hc => ne_zero_of_mem_written (List.mem_reverse.1 hc)) hj
  constructor
  · rintro hrespects ⟨hneg, hexact⟩
    -- the digits alone are written, one character less than the text
    have hcomplete := hrespects.complete (by omega)
    rw [hret, hread, written_of_neg hneg (by omega), if_neg (by omega), decimalText_of_neg hneg] at hcomplete
    have hlength := congrArg List.length hcomplete
    rw [List.length_cons] at hlength
    omega
  · intro hfine
    refine ⟨itoa_hi_le w signed mem maxlen value h, hterminated, ?_⟩
    intro hfits
    rw [hret, hread]
    rcases lt_trichotomy (valueOf signed value) 0 with hneg | hzero | hpos
    · have hroom : maxlen.toNat ≠ (decimalText (valueOf signed value)).length + 1 := fun he => hfine ⟨hneg, he⟩
      rw [written_of_neg hneg (by omega), if_pos (by omega)]
    · exact absurd (valueOf_eq_zero.1 hzero) hvalue
    · exact written_of_pos hpos (by omega)

/-- -5 has one character of room to spare -/
theorem itoa_respects_five :
    Respects (itoa .w32 true ⟨fun _ => 0xff, 0⟩ 4 (-5)) 4 (decimalText (valueOf true (-5 : BitVec 32))) := by
  refine (itoa_respects_iff .w32 true (fun _ => 0xff) 4 (-5) (by decide) (by decide)).2 ?_
  decide

/-- -5 fits in three characters exactly, and is printed as 5 -/
theorem sign_dropped :
    (itoa .w32 true ⟨fun _ => 0xff, 0⟩ 3 (-5)).2 = 1 ∧
      (itoa .w32 true ⟨fun _ => 0xff, 0⟩ 3 (-5)).1.read 0 1 = [ascii '5'] ∧
      ¬ Respects (itoa .w32 true ⟨fun _ => 0xff, 0⟩ 3 (-5)) 3 (decimalText (valueOf true (-5 : BitVec 32))) := by
  have hwritten : written (valueOf true (-5 : BitVec Width.w32.bits)) (3 : BitVec 64).toNat = [ascii '5'] := by decide
  obtain ⟨hret, hread, -⟩ := itoa_read .w32 true ⟨fun _ => 0xff, 0⟩ 3 (-5) (by decide)
  rw [hwritten] at hret hread
  refine ⟨hret, hread, ?_⟩
  intro hrespects
  have hcomplete := hrespects.complete (by decide)
  rw [hret] at hcomplete
  exact absurd (hread.symm.trans hcomplete) (by decide)

end TinyRpc.Common
