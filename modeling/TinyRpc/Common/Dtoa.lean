/-
Doubles as decimal text (`Prettify` and `dtoa_grisu2` in common/string.hpp).

Grisu2 leaves the digits in the buffer and gives their exponent. Prettify then sets the point, in place, in one of five
layouts: an integer padded with zeros and `.0`, a point between the digits, zeros in front of them, or an exponent behind
one digit or behind several. `pretty` says what the text is for each layout, apart from the buffer.

- `prettify_text`: for any number of digits and an exponent of up to three, the buffer holds that text and a NUL. The moves
  overlap.
- `prettify_value`: that text is a decimal literal, and it says exactly the digits times the power of ten.
- `dtoaGrisu2_text`: for every finite double, dtoa_grisu2 returns and leaves a NUL-terminated text.
- `dtoaGrisu2_never_length`: what it returns is never the length of that text. It is the number of digits and the sign, so
  the point, the zeros and the exponent are not counted, and for 0 it is one too many.
- `dtoaGrisu2_bounds`: for every finite double, 39 bytes are enough.
-/
import Mathlib.Tactic
import TinyRpc.Core.Buffer
import TinyRpc.Core.Decimal
import TinyRpc.Core.Literal
import TinyRpc.Core.BinaryFloat
import TinyRpc.Common.Grisu
import TinyRpc.Common.DigitTrace

namespace TinyRpc.Common

open TinyRpc.Core
open Buf (holds_append holds_poke)

/-! ## Model -/

def getDigitsLut : List Byte :=
  ['0', '0', '0', '1', '0', '2', '0', '3', '0', '4', '0', '5', '0', '6', '0', '7', '0', '8', '0', '9',
    '1', '0', '1', '1', '1', '2', '1', '3', '1', '4', '1', '5', '1', '6', '1', '7', '1', '8', '1', '9',
    '2', '0', '2', '1', '2', '2', '2', '3', '2', '4', '2', '5', '2', '6', '2', '7', '2', '8', '2', '9',
    '3', '0', '3', '1', '3', '2', '3', '3', '3', '4', '3', '5', '3', '6', '3', '7', '3', '8', '3', '9',
    '4', '0', '4', '1', '4', '2', '4', '3', '4', '4', '4', '5', '4', '6', '4', '7', '4', '8', '4', '9',
    '5', '0', '5', '1', '5', '2', '5', '3', '5', '4', '5', '5', '5', '6', '5', '7', '5', '8', '5', '9',
    '6', '0', '6', '1', '6', '2', '6', '3', '6', '4', '6', '5', '6', '6', '6', '7', '6', '8', '6', '9',
    '7', '0', '7', '1', '7', '2', '7', '3', '7', '4', '7', '5', '7', '6', '7', '7', '7', '8', '7', '9',
    '8', '0', '8', '1', '8', '2', '8', '3', '8', '4', '8', '5', '8', '6', '8', '7', '8', '8', '8', '9',
    '9', '0', '9', '1', '9', '2', '9', '3', '9', '4', '9', '5', '9', '6', '9', '7', '9', '8', '9', '9'].map ascii

/-- WriteExponent behind the sign; `p` is the offset that `buffer` points to -/
def writeMagnitude (K : ℕ) (buffer : Buf Byte) (p : ℕ) : Buf Byte :=
  let d := fun K i => getDigitsLut.getD (K * 2 + i) 0
  if K ≥ 100 then
    let buffer := buffer.poke p (digitByte (K / 100))
    let K := K % 100
    ((buffer.poke (p + 1) (d K 0)).poke (p + 2) (d K 1)).poke (p + 3) 0
  else if K ≥ 10 then ((buffer.poke p (d K 0)).poke (p + 1) (d K 1)).poke (p + 2) 0
  else (buffer.poke p (digitByte K)).poke (p + 1) 0

def writeExponent (K : ℤ) (buffer : Buf Byte) (p : ℕ) : Buf Byte :=
  if K < 0 then writeMagnitude (-K).toNat (buffer.poke p (ascii '-')) (p + 1) else writeMagnitude K.toNat buffer p

/-- Prettify; the padding loops write a run of zeros -/
def prettify (buffer : Buf Byte) (p length : ℕ) (k : ℤ) : Buf Byte :=
  let kk := length + k
  let zeros := fun n => List.replicate n (ascii '0')
  if length ≤ kk ∧ kk ≤ 21 then
    let kk := kk.toNat
    let buffer := buffer.pokes (p + length) (zeros (kk - length))
    ((buffer.poke (p + kk) (ascii '.')).poke (p + kk + 1) (ascii '0')).poke (p + kk + 2) 0
  else if 0 < kk ∧ kk ≤ 21 then
    let kk := kk.toNat
    let buffer := buffer.memmove (p + kk + 1) (p + kk) (length - kk)
    (buffer.poke (p + kk) (ascii '.')).poke (p + length + 1) 0
  else if -6 < kk ∧ kk ≤ 0 then
    let offset := (2 - kk).toNat
    let buffer := buffer.memmove (p + offset) p length
    let buffer := (buffer.poke p (ascii '0')).poke (p + 1) (ascii '.')
    (buffer.pokes (p + 2) (zeros (offset - 2))).poke (p + length + offset) 0
  else if length = 1 then writeExponent (kk - 1) (buffer.poke (p + 1) (ascii 'e')) (p + 2)
  else
    let buffer := buffer.memmove (p + 2) (p + 1) (length - 1)
    let buffer := (buffer.poke (p + 1) (ascii '.')).poke (p + length + 1) (ascii 'e')
    writeExponent (kk - 1) buffer (p + length + 2)

/-- dtoa_grisu2 behind the sign, where `buffer` points `strlen` characters further -/
def dtoaDigits (fuel : ℕ) (oob : ℕ → ℕ) (buffer : Buf Byte) (value : BitVec 64) (strlen : ℕ) : Option (Buf Byte × ℕ) :=
  (grisu2 fuel oob value).map fun out =>
    let length := out.buffer.length
    (prettify (buffer.pokes strlen out.buffer) strlen length out.K, strlen + length)

/-- dtoa_grisu2: the buffer and what is returned; `none` is a failed assertion or a loop that has not ended -/
def dtoaGrisu2 (fuel : ℕ) (oob : ℕ → ℕ) (buffer : Buf Byte) (_maxlen : BitVec 64) (value : BitVec 64) :
    Option (Buf Byte × ℕ) :=
  if Binary64.isnan value || Binary64.isinf value then none
  else if Binary64.isZero value then
    some ((((buffer.poke 0 (ascii '0')).poke 1 (ascii '.')).poke 2 (ascii '0')).poke 3 0, 4)
  -- neither 0 nor a NaN, so `value < 0` is its sign
  else if Binary64.negative value then dtoaDigits fuel oob (buffer.poke 0 (ascii '-')) (Binary64.neg value) 1
  else dtoaDigits fuel oob buffer value 0

/-! ## The text -/

/-- the text of the digits `ds` with exponent `k` -/
def pretty (ds : List Byte) (k : ℤ) : List Byte :=
  let kk := ds.length + k
  if ds.length ≤ kk ∧ kk ≤ 21 then ds ++ (List.replicate (kk.toNat - ds.length) (ascii '0') ++ [ascii '.', ascii '0'])
  else if 0 < kk ∧ kk ≤ 21 then ds.take kk.toNat ++ (ascii '.' :: ds.drop kk.toNat)
  else if -6 < kk ∧ kk ≤ 0 then [ascii '0', ascii '.'] ++ (List.replicate (-kk).toNat (ascii '0') ++ ds)
  else if ds.length = 1 then ds ++ (ascii 'e' :: decimalText (kk - 1))
  else ds.take 1 ++ ([ascii '.'] ++ (ds.drop 1 ++ (ascii 'e' :: decimalText (kk - 1))))

theorem getDigitsLut_eq {n : ℕ} (h : n < 100) :
    getDigitsLut.getD (n * 2 + 0) 0 = digitByte (n / 10) ∧ getDigitsLut.getD (n * 2 + 1) 0 = digitByte (n % 10) := by
  have hall : ∀ n < 100, getDigitsLut.getD (n * 2 + 0) 0 = digitByte (n / 10) ∧
      getDigitsLut.getD (n * 2 + 1) 0 = digitByte (n % 10) := by decide +kernel
  exact hall n h

theorem writeMagnitude_eq {K : ℕ} (h : K ≤ 999) (buffer : Buf Byte) (p : ℕ) :
    writeMagnitude K buffer p = buffer.pokes p (decimalText K ++ [0]) := by
  rw [decimalText_of_lt (by omega), shortDigits]
  unfold writeMagnitude
  dsimp only
  split_ifs with h100 h10
  · rw [(getDigitsLut_eq (Nat.mod_lt K (by decide))).1, (getDigitsLut_eq (Nat.mod_lt K (by decide))).2]
    rfl
  · rw [(getDigitsLut_eq (by omega)).1, (getDigitsLut_eq (by omega)).2]
    rfl
  · rfl

/-- the exponent is written as `printf` would -/
theorem writeExponent_eq {K : ℤ} (h : |K| ≤ 999) (buffer : Buf Byte) (p : ℕ) :
    writeExponent K buffer p = buffer.pokes p (decimalText K ++ [0]) := by
  obtain ⟨hlow, hhigh⟩ := abs_le.1 h
  unfold writeExponent
  split_ifs with hneg
  · have hK : K = -((-K).toNat : ℕ) := by omega
    conv_rhs => rw [hK, decimalText_neg (by omega)]
    rw [writeMagnitude_eq (by omega)]
    rfl
  · have hK : K = (K.toNat : ℕ) := by omega
    conv_rhs => rw [hK]
    exact writeMagnitude_eq (by omega) buffer p

section Prettify

variable {b : Buf Byte} {p : ℕ} {ds l r : List Byte} {k : ℤ}

theorem padded_text (hb : b.Holds p ds) {n : ℕ} (hn : ds.length ≤ n) :
    ((((b.pokes (p + ds.length) (List.replicate (n - ds.length) (ascii '0'))).poke (p + n) (ascii '.')).poke (p + n + 1)
      (ascii '0')).poke (p + n + 2) 0).Holds p
      (ds ++ (List.replicate (n - ds.length) (ascii '0') ++ [ascii '.', ascii '0']) ++ [0]) := by
  have hzeros := hb.extend (List.replicate (n - ds.length) (ascii '0')) rfl
  have hlen : (ds ++ List.replicate (n - ds.length) (ascii '0')).length = n := by
    rw [List.length_append, List.length_replicate]
    omega
  have hpoint := hzeros.extend [ascii '.', ascii '0', 0] (show p + n = _ by rw [hlen])
  simp only [List.append_assoc, List.cons_append, List.nil_append] at hpoint ⊢
  exact hpoint

/-- the point goes between `l` and `r`; what is behind it moves up by one -/
theorem point_text (hl : b.Holds p l) (hr : b.Holds (p + l.length) r) :
    ((b.memmove (p + l.length + 1) (p + l.length) r.length).poke (p + l.length) (ascii '.')).Holds p
      (l ++ ([ascii '.'] ++ r)) := by
  refine holds_append.2 ⟨?_, holds_append.2 ⟨holds_poke _ _ _, ?_⟩⟩
  · exact (hl.memmove_of_ne (Or.inl (Nat.le_succ _))).poke (Or.inl (Nat.le_refl _))
  · exact (hr.memmove _).poke (Or.inr (Nat.lt_succ_self _))

theorem leading_text (hb : b.Holds p ds) (n : ℕ) :
    (((((b.memmove (p + (n + 2)) p ds.length).poke p (ascii '0')).poke (p + 1) (ascii '.')).pokes (p + 2)
      (List.replicate n (ascii '0'))).poke (p + ds.length + (n + 2)) 0).Holds p
      ([ascii '0', ascii '.'] ++ (List.replicate n (ascii '0') ++ ds) ++ [0]) := by
  have hmoved := ((hb.memmove (p + (n + 2))).poke (i := p) (x := ascii '0') (Or.inr (by omega))).poke (i := p + 1)
    (x := ascii '.') (Or.inr (by omega))
  have hfront := (holds_poke (b.memmove (p + (n + 2)) p ds.length) p (ascii '0')).concat (ascii '.') (j := p + 1) rfl
  have hzeros := hfront.extend (List.replicate n (ascii '0')) (j := p + 2) rfl
  have hlen : ([ascii '0'] ++ [ascii '.'] ++ List.replicate n (ascii '0')).length = n + 2 := by simp
  have hall := holds_append.2 ⟨hzeros, (?_ : Buf.Holds _ _ ds)⟩
  · have hend := hall.concat 0 (j := p + ds.length + (n + 2)) (by rw [List.length_append, hlen]; omega)
    simpa only [List.append_assoc, List.cons_append, List.nil_append] using hend
  · rw [hlen]
    exact hmoved.pokes (Or.inr (by rw [List.length_replicate]; omega))

/-- Prettify leaves the text of its layout and a NUL, whatever the digits are. -/
theorem prettify_text (hb : b.Holds p ds) (hds : ds ≠ []) (hk : |ds.length + k - 1| ≤ 999) :
    (prettify b p ds.length k).Holds p (pretty ds k ++ [0]) := by
  have hpos : 0 < ds.length := List.length_pos_iff.2 hds
  unfold prettify pretty
  generalize hkk : (ds.length : ℤ) + k = kk at *
  dsimp only
  split_ifs with hint hpoint hzeros hone
  · -- 1234e7 -> 12340000000.0
    exact padded_text hb (by omega)
  · -- 1234e-2 -> 12.34
    obtain ⟨l, r, rfl, hl⟩ : ∃ l r, ds = l ++ r ∧ l.length = kk.toNat :=
      ⟨_, _, (List.take_append_drop kk.toNat ds).symm, List.length_take_of_le (by omega)⟩
    obtain ⟨hbl, hbr⟩ := holds_append.1 hb
    have hend := (point_text hbl hbr).concat 0 (j := p + (l ++ r).length + 1) (by simp; omega)
    have hr : (l ++ r).length - kk.toNat = r.length := by
      rw [List.length_append]
      omega
    rw [hr, ← hl, List.take_left, List.drop_left]
    exact hend
  · -- 1234e-6 -> 0.001234
    have hn : (2 - kk).toNat = (-kk).toNat + 2 := by omega
    rw [hn, Nat.add_sub_cancel]
    exact leading_text hb _
  · -- 1e30
    rw [writeExponent_eq hk]
    have he := hb.concat (ascii 'e') (j := p + 1) (by rw [hone])
    have hexp := he.extend (decimalText (kk - 1) ++ [0]) (j := p + 2) (by rw [List.length_append, hone]; rfl)
    simpa only [List.append_assoc, List.cons_append, List.nil_append] using hexp
  · -- 1234e30 -> 1.234e33
    obtain ⟨c, r, rfl⟩ := List.exists_cons_of_ne_nil hds
    obtain ⟨hbc, hbr⟩ := holds_append.1 (show b.Holds p ([c] ++ r) from hb)
    rw [writeExponent_eq hk]
    have he := (point_text hbc hbr).concat (ascii 'e') (j := p + (c :: r).length + 1) (by simp; omega)
    have hexp := he.extend (decimalText (kk - 1) ++ [0]) (j := p + (c :: r).length + 2) (by simp; omega)
    simp only [List.append_assoc, List.cons_append, List.nil_append] at hexp ⊢
    exact hexp

theorem writeExponent_below {j : ℕ} (h : j < p) (K : ℤ) : (writeExponent K b p).mem j = b.mem j := by
  have hdigits : ∀ (b : Buf Byte) (p K : ℕ), j < p → (writeMagnitude K b p).mem j = b.mem j := by
    intro b p K h
    unfold writeMagnitude
    dsimp only
    split_ifs <;> simp (disch := omega) only [Buf.mem_poke_of_ne]
  unfold writeExponent
  split_ifs
  · rw [hdigits _ _ _ (by omega), Buf.mem_poke_of_ne (by omega)]
  · exact hdigits _ _ _ h

/-- nothing is written in front of the digits -/
theorem prettify_below {j : ℕ} (h : j < p) (length : ℕ) (k : ℤ) : (prettify b p length k).mem j = b.mem j := by
  unfold prettify
  dsimp only
  split_ifs <;>
    simp (disch := omega) only [Buf.mem_poke_of_ne, Buf.mem_pokes_below, Buf.mem_memmove_below, writeExponent_below]

/-- every layout adds something to the digits -/
theorem length_lt_pretty (hds : ds ≠ []) (k : ℤ) : ds.length < (pretty ds k).length := by
  have hpos : 0 < ds.length := List.length_pos_iff.2 hds
  unfold pretty
  dsimp only
  split_ifs <;> simp only [List.length_append, List.length_cons, List.length_take, List.length_drop, List.length_nil] <;> omega

theorem pretty_noNul (hds : ∀ c ∈ ds, c ≠ 0) (k : ℤ) : ∀ c ∈ pretty ds k, c ≠ 0 := by
  have hzeros : ∀ n, ∀ c ∈ List.replicate n (ascii '0'), c ≠ 0 := by
    intro n c hc
    rw [List.eq_of_mem_replicate hc]
    decide
  have hexp : ∀ z : ℤ, ∀ c ∈ ascii 'e' :: decimalText z, c ≠ 0 := by
    intro z
    rw [List.forall_mem_cons]
    exact ⟨by decide, fun c hc => ne_zero_of_mem_decimalText hc⟩
  have htake : ∀ n, ∀ c ∈ ds.take n, c ≠ 0 := fun n c hc => hds c (List.mem_of_mem_take hc)
  have hdrop : ∀ n, ∀ c ∈ ds.drop n, c ≠ 0 := fun n c hc => hds c (List.mem_of_mem_drop hc)
  unfold pretty
  dsimp only
  split_ifs
  · exact List.forall_mem_append.2 ⟨hds, List.forall_mem_append.2 ⟨hzeros _, by decide⟩⟩
  · exact List.forall_mem_append.2 ⟨htake _, List.forall_mem_cons.2 ⟨by decide, hdrop _⟩⟩
  · exact List.forall_mem_append.2 ⟨by decide, List.forall_mem_append.2 ⟨hzeros _, hds⟩⟩
  · exact List.forall_mem_append.2 ⟨hds, hexp _⟩
  · exact List.forall_mem_append.2 ⟨htake _, List.forall_mem_append.2 ⟨by decide,
      List.forall_mem_append.2 ⟨hdrop _, hexp _⟩⟩⟩

theorem mul_pow_zpow (D : ℕ) {n : ℕ} {z k : ℤ} (h : n + z = k) : ((D * 10 ^ n : ℕ) : ℚ) * 10 ^ z = D * 10 ^ k := by
  rw [Nat.cast_mul, Nat.cast_pow, Nat.cast_ofNat, mul_assoc, ← zpow_natCast, ← zpow_add₀ (by norm_num), h]

/-- every layout is a literal, and it says the digits with their exponent -/
theorem readLiteral_pretty (hds : DigitText ds) (k : ℤ) : readLiteral (pretty ds k) = some ((decimalValue ds : ℚ) * 10 ^ k) := by
  have hdigits : AllDigits ds := hds.digits
  have hpos : 0 < ds.length := List.length_pos_iff.2 hds.nonempty
  have htake : ∀ n, AllDigits (ds.take n) := fun n c hc => hdigits c (List.mem_of_mem_take hc)
  have hdrop : ∀ n, AllDigits (ds.drop n) := fun n c hc => hdigits c (List.mem_of_mem_drop hc)
  have hzero : AllDigits [ascii '0'] := allDigits_zeros 1
  have hlead0 : decimalValue [ascii '0'] = 0 := by decide
  unfold pretty
  generalize hkk : (ds.length : ℤ) + k = kk
  dsimp only
  split_ifs with hint hpoint hlead hone
  · have hread := readLiteral_point (hdigits.append (allDigits_zeros (kk.toNat - ds.length))) hzero (by simp [hds.nonempty])
      (by simp)
    have hvalue : decimalValue (ds ++ List.replicate (kk.toNat - ds.length) (ascii '0') ++ [ascii '0']) =
        decimalValue ds * 10 ^ (kk.toNat - ds.length + 1) := by
      rw [decimalValue_append, decimalValue_append, decimalValue_zeros, hlead0, List.length_replicate, List.length_singleton,
        pow_succ]
      ring
    rw [hvalue, List.append_assoc] at hread
    rw [hread, mul_pow_zpow _ (show _ = k by rw [List.length_singleton]; omega)]
  · have hread := readLiteral_point (htake kk.toNat) (hdrop kk.toNat) (by simp [hds.nonempty]; omega) (by simp; omega)
    rw [List.take_append_drop, List.length_drop] at hread
    rw [hread]
    congr 3
    omega
  · have hread := readLiteral_point hzero ((allDigits_zeros (-kk).toNat).append hdigits) (by simp) (by simp [hds.nonempty])
    have hvalue : decimalValue ([ascii '0'] ++ (List.replicate (-kk).toNat (ascii '0') ++ ds)) = decimalValue ds := by
      rw [decimalValue_append, decimalValue_append, decimalValue_zeros, hlead0]
      ring
    rw [hvalue, List.length_append, List.length_replicate] at hread
    refine hread.trans ?_
    congr 3
    omega
  · rw [readLiteral_digits_exp hdigits hds.nonempty]
    congr 3
    omega
  · have hrest : ds.drop 1 ≠ [] := List.ne_nil_of_length_pos (by rw [List.length_drop]; omega)
    have hread := readLiteral_point_exp (htake 1) (hdrop 1) (by simp [hds.nonempty]) hrest (kk - 1)
    rw [List.take_append_drop, List.length_drop, mul_assoc, ← zpow_add₀ (by norm_num), List.append_assoc] at hread
    refine hread.trans ?_
    congr 3
    omega

/-- **Prettify preserves the value.** For digits of any number without a leading zero and every exponent: the text that is
left is NUL-terminated, it is a decimal literal and says exactly the digits times the power of ten. -/
theorem prettify_value (hb : b.Holds p ds) (hds : DigitText ds) (hk : |ds.length + k - 1| ≤ 999) :
    ∃ text, (prettify b p ds.length k).CString 0 p text ∧ readLiteral text = some ((decimalValue ds : ℚ) * 10 ^ k) :=
  ⟨pretty ds k, ⟨prettify_text hb hds.nonempty hk, pretty_noNul (fun _ hc => hds.ne_zero hc) k⟩, readLiteral_pretty hds k⟩

/-- 12e-3 -/
theorem prettify_value_small : ∃ text,
    (prettify (Buf.pokes ⟨fun _ => 0xff, 0⟩ 0 [ascii '1', ascii '2']) 0 2 (-3)).CString 0 0 text ∧
      readLiteral text = some ((decimalValue [ascii '1', ascii '2'] : ℚ) * 10 ^ (-3 : ℤ)) :=
  prettify_value (Buf.holds_pokes ⟨fun _ => 0xff, 0⟩ 0 [ascii '1', ascii '2'])
    ((digitText_singleton (d := 1) (by decide) (by decide)).concat (d := 2) (by decide)) (by decide)

/-- the exponent of a double has three digits at most -/
theorem exponent_bounded {value : BitVec 64} (hds : DigitText ds) (hfinite : Binary64.Finite value)
    (hpos : 0 < Binary64.significand value)
    (hlow : Binary64.format.lowerMid (Binary64.significand value) (Binary64.exponent value) < decimalValue ds * 10 ^ k)
    (hhigh : (decimalValue ds : ℚ) * 10 ^ k < Format.upperMid (Binary64.significand value) (Binary64.exponent value)) :
    |ds.length + k - 1| ≤ 999 := by
  obtain ⟨hfirst, hnext⟩ := hds.zpow_bounds k
  have hten : ∀ n : ℕ, (2 : ℚ) ^ ((3 * n : ℕ) : ℤ) ≤ 10 ^ (n : ℤ) := by
    intro n
    rw [zpow_natCast, zpow_natCast, pow_mul]
    gcongr
    norm_num
  have hmax : (2 : ℚ) ^ (1024 : ℤ) ≤ 10 ^ (1000 : ℤ) := by
    calc (2 : ℚ) ^ (1024 : ℤ) ≤ 2 ^ ((3 * 1000 : ℕ) : ℤ) := zpow_le_zpow_right₀ (by norm_num) (by norm_num)
      _ ≤ 10 ^ (1000 : ℤ) := hten 1000
  have hmin : (10 : ℚ) ^ (-999 : ℤ) ≤ 2 ^ (-1076 : ℤ) := by
    calc (10 : ℚ) ^ (-999 : ℤ) ≤ 2 ^ (-((3 * 999 : ℕ) : ℤ)) := by
          rw [zpow_neg, zpow_neg]
          exact inv_anti₀ (two_zpow_pos _) (hten 999)
      _ ≤ 2 ^ (-1076 : ℤ) := zpow_le_zpow_right₀ (by norm_num) (by norm_num)
  have hupper : (ds.length : ℤ) + k - 1 < 1000 := by
    refine (zpow_lt_zpow_iff_right₀ (show (1 : ℚ) < 10 by norm_num)).1 ?_
    exact lt_of_le_of_lt hfirst (lt_of_lt_of_le hhigh ((Binary64.upperMid_le hfinite).trans hmax))
  have hlower : -999 < (ds.length : ℤ) + k := by
    refine (zpow_lt_zpow_iff_right₀ (show (1 : ℚ) < 10 by norm_num)).1 ?_
    exact lt_trans (lt_of_le_of_lt (hmin.trans (Binary64.lowerMid_ge hpos)) hlow) hnext
  rw [abs_le]
  constructor <;> omega

end Prettify

/-! ## What is returned -/

section

variable {fuel : ℕ} (oob : ℕ → ℕ) (buffer : Buf Byte) (maxlen : BitVec 64) {value : BitVec 64}

/-- the text behind the sign -/
theorem dtoaDigits_text (hfuel : 64 ≤ fuel) (hfinite : Binary64.Finite value) (hzero : Binary64.isZero value = false)
    (strlen : ℕ) : ∃ b n text, dtoaDigits fuel oob buffer value strlen = some (b, strlen + n) ∧ b.CString 0 strlen text ∧
      n < text.length ∧ ∀ j < strlen, b.mem j = buffer.mem j := by
  have hpos := Binary64.significand_pos_of_nonzero hzero
  obtain ⟨out, hrun, -, htext, hlow, hhigh⟩ := grisu2_between hfuel oob hfinite hpos
  refine ⟨_, _, pretty out.buffer out.K, by rw [dtoaDigits, hrun]; rfl, ⟨?_, ?_⟩, length_lt_pretty htext.nonempty out.K, ?_⟩
  · exact prettify_text (Buf.holds_pokes buffer strlen out.buffer) htext.nonempty
      (exponent_bounded htext hfinite hpos hlow hhigh)
  · exact pretty_noNul (fun c hc => htext.ne_zero hc) out.K
  · intro j hj
    rw [prettify_below hj, Buf.mem_pokes_below hj]

/-- For every finite double but the zeros, a text is left that is longer than what is returned. -/
theorem dtoaGrisu2_text (hfuel : 64 ≤ fuel) (hfinite : Binary64.Finite value) (hzero : Binary64.isZero value = false) :
    ∃ b n text, dtoaGrisu2 fuel oob buffer maxlen value = some (b, n) ∧ b.CString 0 0 text ∧ n < text.length := by
  obtain ⟨hnan, hinf⟩ := Binary64.finite_iff.1 hfinite
  rw [dtoaGrisu2, hnan, hinf, hzero, if_neg (by decide), if_neg (by decide)]
  split_ifs with hsign
  · obtain ⟨b, n, text, hrun, hstring, hlt, hkeep⟩ := dtoaDigits_text oob (buffer.poke 0 (ascii '-')) hfuel
      (Binary64.finite_neg hfinite) ((Binary64.isZero_neg value).trans hzero) 1
    have hfirst : b.mem 0 = ascii '-' := (hkeep 0 Nat.one_pos).trans (Buf.mem_poke_self _ _ _)
    refine ⟨b, 1 + n, ascii '-' :: text, hrun, hstring.cons hfirst (by decide), ?_⟩
    rw [List.length_cons]
    omega
  · obtain ⟨b, n, text, hrun, hstring, hlt, -⟩ := dtoaDigits_text oob buffer hfuel hfinite hzero 0
    exact ⟨b, 0 + n, text, hrun, hstring, by omega⟩

/-- the two zeros are `0.0`, with a NUL that is counted -/
theorem dtoaGrisu2_zero (hzero : Binary64.isZero value = true) :
    ∃ b, dtoaGrisu2 fuel oob buffer maxlen value = some (b, 4) ∧ b.CString 0 0 [ascii '0', ascii '.', ascii '0'] := by
  have hfinite : Binary64.Finite value := by
    simp only [Binary64.isZero, decide_eq_true_eq] at hzero
    rw [Binary64.Finite, hzero.1]
    decide
  obtain ⟨hnan, hinf⟩ := Binary64.finite_iff.1 hfinite
  rw [dtoaGrisu2, hnan, hinf, hzero]
  refine ⟨_, rfl, ?_, by decide⟩
  exact Buf.holds_pokes buffer 0 [ascii '0', ascii '.', ascii '0', 0]

/-- **The returned number is never the length.** For every finite double and every buffer, dtoa_grisu2 returns and leaves a
NUL-terminated text, and the number of characters before the NUL is not what it returns. -/
theorem dtoaGrisu2_never_length (hfuel : 64 ≤ fuel) (hfinite : Binary64.Finite value) :
    ∃ b n, dtoaGrisu2 fuel oob buffer maxlen value = some (b, n) ∧ (∃ text, b.CString 0 0 text) ∧
      ∀ text, b.CString 0 0 text → n ≠ text.length := by
  cases hzero : Binary64.isZero value with
  | true =>
    obtain ⟨b, hrun, hstring⟩ : ∃ b, dtoaGrisu2 fuel oob buffer maxlen value = some (b, 4) ∧ _ :=
      dtoaGrisu2_zero oob buffer maxlen hzero
    refine ⟨b, 4, hrun, ⟨_, hstring⟩, fun text htext => ?_⟩
    rw [htext.unique hstring]
    decide
  | false =>
    obtain ⟨b, n, text, hrun, hstring, hlt⟩ := dtoaGrisu2_text oob buffer maxlen hfuel hfinite hzero
    refine ⟨b, n, hrun, ⟨text, hstring⟩, fun text' htext => ?_⟩
    rw [htext.unique hstring]
    exact hlt.ne

end

/-- the least denormal -/
theorem dtoaGrisu2_never_length_denormal : ∃ b n, dtoaGrisu2 64 (fun _ => 0) ⟨fun _ => 0, 0⟩ 49 1 = some (b, n) ∧
    (∃ text, b.CString 0 0 text) ∧ ∀ text, b.CString 0 0 text → n ≠ text.length :=
  dtoaGrisu2_never_length (fun _ => 0) ⟨fun _ => 0, 0⟩ 49 (Nat.le_refl 64) (by decide)

/-- 1.0 is printed as `1.0`, and 1 is returned -/
theorem one_returns_one : ∃ b, dtoaGrisu2 64 (fun _ => 0) ⟨fun _ => 0, 0⟩ 49 0x3FF0000000000000 = some (b, 1) ∧
    b.CString 0 0 [ascii '1', ascii '.', ascii '0'] ∧ 1 ≠ [ascii '1', ascii '.', ascii '0'].length := by
  have hdigits : grisu2 64 (fun _ => 0) 0x3FF0000000000000 = some ⟨[ascii '1'], 0, true⟩ := by decide +kernel
  have hsign : Binary64.negative 0x3FF0000000000000 = false := by decide
  refine ⟨prettify (Buf.pokes ⟨fun _ => 0, 0⟩ 0 [ascii '1']) 0 1 0, ?_, ⟨?_, by decide⟩, by decide⟩
  · rw [dtoaGrisu2, if_neg (by decide), if_neg (by decide), hsign, if_neg (by decide), dtoaDigits, hdigits]
    rfl
  · exact prettify_text (Buf.holds_pokes ⟨fun _ => 0, 0⟩ 0 [ascii '1']) (by decide) (by decide)

/-! ## How far it writes -/

section

variable {b : Buf Byte} {p m : ℕ}

theorem writeExponent_hi (K : ℤ) (hb : b.hi ≤ m) (hp : p + 5 ≤ m) : (writeExponent K b p).hi ≤ m := by
  have hdigits : ∀ (b : Buf Byte) (p K : ℕ), b.hi ≤ m → p + 4 ≤ m → (writeMagnitude K b p).hi ≤ m := by
    intro b p K hb hp
    unfold writeMagnitude
    dsimp only
    split_ifs <;> simp only [Buf.hi_poke] <;> omega
  unfold writeExponent
  split_ifs
  · refine hdigits _ _ _ ?_ (by omega)
    rw [Buf.hi_poke]
    omega
  · exact hdigits _ _ _ hb (by omega)

/-- the longest layouts: twenty-one digits and `.0`, zeros in front, and an exponent -/
theorem prettify_hi {length : ℕ} (k : ℤ) (hb : b.hi ≤ m) (hpadded : p + 24 ≤ m) (hlength : p + length + 8 ≤ m) :
    (prettify b p length k).hi ≤ m := by
  have hzeros : ∀ (b : Buf Byte) (i n : ℕ), b.hi ≤ m → i + n ≤ m → (b.pokes i (List.replicate n (ascii '0'))).hi ≤ m := by
    intro b i n hb h
    exact Buf.hi_pokes_le hb (by rwa [List.length_replicate])
  unfold prettify
  generalize hkk : (length : ℤ) + k = kk
  dsimp only
  split_ifs with hint hpoint hlead hone
  · have := hzeros b (p + length) (kk.toNat - length) hb (by omega)
    simp only [Buf.hi_poke]
    omega
  · have : (b.memmove (p + kk.toNat + 1) (p + kk.toNat) (length - kk.toNat)).hi ≤ m := Buf.hi_memmove_le hb (by omega)
    simp only [Buf.hi_poke]
    omega
  · have hmoved : (b.memmove (p + (2 - kk).toNat) p length).hi ≤ m := Buf.hi_memmove_le hb (by omega)
    have := hzeros (((b.memmove (p + (2 - kk).toNat) p length).poke p (ascii '0')).poke (p + 1) (ascii '.')) (p + 2)
      ((2 - kk).toNat - 2) (by simp only [Buf.hi_poke]; omega) (by omega)
    rw [Buf.hi_poke]
    omega
  · refine writeExponent_hi _ ?_ (by omega)
    rw [Buf.hi_poke]
    omega
  · have : (b.memmove (p + 2) (p + 1) (length - 1)).hi ≤ m := Buf.hi_memmove_le hb (by omega)
    refine writeExponent_hi _ ?_ (by omega)
    simp only [Buf.hi_poke]
    omega

variable {fuel : ℕ} (oob : ℕ → ℕ) {value : BitVec 64}

theorem dtoaDigits_bounds (hfuel : 64 ≤ fuel) (hfinite : Binary64.Finite value) (hzero : Binary64.isZero value = false)
    {strlen : ℕ} (hb : b.hi ≤ 39) (hstrlen : strlen ≤ 1) :
    ∃ b' n, dtoaDigits fuel oob b value strlen = some (b', n) ∧ b'.hi ≤ 39 ∧ n ≤ 31 := by
  have hpos := Binary64.significand_pos_of_nonzero hzero
  obtain ⟨out, hrun, -⟩ := grisu2_between hfuel oob hfinite hpos
  have hlength := grisu2_length hfuel hfinite hpos hrun
  refine ⟨_, _, by rw [dtoaDigits, hrun]; rfl, ?_, by omega⟩
  exact prettify_hi out.K (Buf.hi_pokes_le hb (by omega)) (by omega) (by omega)

/-- For every finite double, the text takes 39 bytes at most with its NUL, and what is returned is smaller. -/
theorem dtoaGrisu2_bounds (hfuel : 64 ≤ fuel) (mem : ℕ → Byte) (maxlen : BitVec 64) (hfinite : Binary64.Finite value) :
    ∃ b n, dtoaGrisu2 fuel oob ⟨mem, 0⟩ maxlen value = some (b, n) ∧ b.hi ≤ 39 ∧ n ≤ 31 := by
  obtain ⟨hnan, hinf⟩ := Binary64.finite_iff.1 hfinite
  rw [dtoaGrisu2, hnan, hinf, if_neg (by decide)]
  split_ifs with hzero hsign
  · exact ⟨_, _, rfl, by simp only [Buf.hi_poke]; omega, by decide⟩
  · refine dtoaDigits_bounds oob hfuel (Binary64.finite_neg hfinite) ((Binary64.isZero_neg value).trans ?_) ?_ le_rfl
    · exact Bool.eq_false_of_not_eq_true hzero
    · exact max_le (Nat.zero_le _) (by decide)
  · exact dtoaDigits_bounds oob hfuel hfinite (Bool.eq_false_of_not_eq_true hzero) (Nat.zero_le _) (Nat.zero_le _)

end

end TinyRpc.Common
