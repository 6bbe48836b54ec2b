/-
Binary floating-point formats, with exact rational values.

A format has `p` bits of significand and a least exponent `emin`. A number of it is `f * 2^e` where `f` has `p` bits, or
fewer at the least exponent (`Fits`). Its neighbours are `2^e` away, but below a power of two the next number is only half
as far. `lowerMid` and `upperMid` are the midpoints to the neighbours, and `nearest`: what lies strictly between them is
closer to the number than to any other number of the format, so it is read back as that number.

`Binary64` are the doubles: their bits decoded, and `roundsTo_of_between` for the numbers between their midpoints.
`eq_of_toRat_eq`: only the two zeros are one number.
`Binary32` are the floats, with the conversion to a double; `toRat_toBinary64` says that it is exact.
-/
import Mathlib.Tactic

namespace TinyRpc.Core

/-- the number with significand `f` and exponent `e` -/
def fpValue (f : ℕ) (e : ℤ) : ℚ := f * 2 ^ e

theorem two_zpow_pos (e : ℤ) : (0 : ℚ) < 2 ^ e := zpow_pos (by norm_num) e

theorem two_zpow_succ (e : ℤ) : (2 : ℚ) ^ e = 2 * 2 ^ (e - 1) := by
  rw [zpow_sub_one₀ (by norm_num)]
  ring

theorem two_zpow_pred (e : ℤ) : (2 : ℚ) ^ (e - 1) = 2 * 2 ^ (e - 2) := by
  rw [two_zpow_succ, sub_sub]
  rfl

/-- the same number with a smaller exponent -/
theorem fpValue_shift (f n : ℕ) (e : ℤ) : fpValue (f * 2 ^ n) (e - n) = fpValue f e := by
  rw [fpValue, fpValue, zpow_sub₀ (by norm_num), zpow_natCast]
  push_cast
  field_simp

structure Format where
  p : ℕ
  emin : ℤ
  hp : 1 ≤ p

namespace Format

variable (fmt : Format)

/-- the significands and exponents of the format: all bits are used, except at the least exponent -/
structure Fits (f : ℕ) (e : ℤ) : Prop where
  lt : f < 2 ^ fmt.p
  emin_le : fmt.emin ≤ e
  normal : 2 ^ (fmt.p - 1) ≤ f ∨ e = fmt.emin

/-- the midpoint to the next smaller number -/
def lowerMid (f : ℕ) (e : ℤ) : ℚ := if f = 2 ^ (fmt.p - 1) then (4 * f - 1) * 2 ^ (e - 2) else (2 * f - 1) * 2 ^ (e - 1)

/-- the midpoint to the next larger number -/
def upperMid (f : ℕ) (e : ℤ) : ℚ := (2 * f + 1) * 2 ^ (e - 1)

variable {fmt} {f g : ℕ} {e d : ℤ}

theorem upperMid_eq : upperMid f e = fpValue f e + 2 ^ (e - 1) := by
  rw [upperMid, fpValue, two_zpow_succ e]
  ring

theorem lowerMid_eq : fmt.lowerMid f e =
    fpValue f e - if f = 2 ^ (fmt.p - 1) then (2 : ℚ) ^ (e - 2) else 2 ^ (e - 1) := by
  unfold lowerMid fpValue
  split_ifs
  · rw [two_zpow_succ e, two_zpow_pred e]
    ring
  · rw [two_zpow_succ e]
    ring

/-- a number with a larger exponent is a whole number of steps -/
theorem fpValue_of_le (h : e ≤ d) : fpValue g d = (g * 2 ^ (d - e).toNat : ℕ) * 2 ^ e := by
  have hd : d = e + ((d - e).toNat : ℤ) := by omega
  conv_lhs => rw [fpValue, hd, zpow_add₀ (by norm_num), zpow_natCast]
  push_cast
  ring

/-- a number with a smaller exponent is below every normal number -/
theorem fpValue_lt_of_lt (fmt : Format) (hg : g < 2 ^ fmt.p) (h : d < e) :
    fpValue g d + 2 ^ (e - 1) ≤ 2 ^ (fmt.p - 1) * 2 ^ e := by
  have hstep : (2 : ℚ) ^ d ≤ 2 ^ (e - 1) := zpow_le_zpow_right₀ (by norm_num) (by omega)
  have hg1 : (g : ℚ) + 1 ≤ 2 ^ fmt.p := by exact_mod_cast hg
  have hpow : (2 : ℚ) ^ fmt.p = 2 * 2 ^ (fmt.p - 1) := by
    rw [← pow_succ', Nat.sub_add_cancel fmt.hp]
  calc fpValue g d + 2 ^ (e - 1) ≤ g * 2 ^ (e - 1) + 2 ^ (e - 1) := by
        unfold fpValue
        gcongr
    _ = (g + 1) * 2 ^ (e - 1) := by ring
    _ ≤ 2 ^ fmt.p * 2 ^ (e - 1) := by gcongr
    _ = 2 ^ (fmt.p - 1) * 2 ^ e := by rw [hpow, two_zpow_succ e]; ring

/-- the next larger number is a step away -/
theorem Fits.le_of_lt (hf : fmt.Fits f e) (hg : fmt.Fits g d) (h : fpValue f e < fpValue g d) :
    fpValue f e + 2 ^ e ≤ fpValue g d := by
  have hpos := two_zpow_pos e
  rcases le_or_gt e d with hle | hlt
  · rw [fpValue_of_le hle, fpValue] at *
    have hcount : f < g * 2 ^ (d - e).toNat := by exact_mod_cast lt_of_mul_lt_mul_right h hpos.le
    have hsucc : (f : ℚ) + 1 ≤ (g * 2 ^ (d - e).toNat : ℕ) := by exact_mod_cast hcount
    calc (f : ℚ) * 2 ^ e + 2 ^ e = (f + 1) * 2 ^ e := by ring
      _ ≤ (g * 2 ^ (d - e).toNat : ℕ) * 2 ^ e := by gcongr
  · exfalso
    have hnormal : 2 ^ (fmt.p - 1) ≤ f := hf.normal.resolve_right (by have := hg.emin_le; omega)
    have hbelow := fpValue_lt_of_lt fmt hg.lt hlt
    have hfpos : (2 : ℚ) ^ (fmt.p - 1) * 2 ^ e ≤ fpValue f e := by
      unfold fpValue
      gcongr
      exact_mod_cast hnormal
    have hhalf := two_zpow_pos (e - 1)
    linarith

/-- the next smaller number is a step away, or half a step below a power of two -/
theorem Fits.le_of_gt (hf : fmt.Fits f e) (hg : fmt.Fits g d) (h : fpValue g d < fpValue f e) :
    fpValue g d + 2 * (if f = 2 ^ (fmt.p - 1) then (2 : ℚ) ^ (e - 2) else 2 ^ (e - 1)) ≤ fpValue f e := by
  have hpos := two_zpow_pos e
  have hhalf := two_zpow_pos (e - 1)
  have hone := two_zpow_succ e
  have htwo := two_zpow_pred e
  rcases le_or_gt e d with hle | hlt
  · have hstep : fpValue g d + 2 ^ e ≤ fpValue f e := by
      rw [fpValue_of_le hle, fpValue] at *
      have hcount : g * 2 ^ (d - e).toNat < f := by exact_mod_cast lt_of_mul_lt_mul_right h hpos.le
      have hsucc : ((g * 2 ^ (d - e).toNat : ℕ) : ℚ) + 1 ≤ f := by exact_mod_cast hcount
      calc ((g * 2 ^ (d - e).toNat : ℕ) : ℚ) * 2 ^ e + 2 ^ e = ((g * 2 ^ (d - e).toNat : ℕ) + 1) * 2 ^ e := by ring
        _ ≤ f * 2 ^ e := by gcongr
    split_ifs <;> linarith
  · have hnormal : 2 ^ (fmt.p - 1) ≤ f := hf.normal.resolve_right (by have := hg.emin_le; omega)
    have hbelow := fpValue_lt_of_lt fmt hg.lt hlt
    split_ifs with hpow
    · have hv : fpValue f e = 2 ^ (fmt.p - 1) * 2 ^ e := by
        rw [fpValue, hpow]
        push_cast
        ring
      linarith
    · have hmore : (2 : ℚ) ^ (fmt.p - 1) + 1 ≤ f := by exact_mod_cast Nat.lt_of_le_of_ne hnormal (Ne.symm hpow)
      have hv : (2 : ℚ) ^ (fmt.p - 1) * 2 ^ e + 2 ^ e ≤ fpValue f e := by
        calc (2 : ℚ) ^ (fmt.p - 1) * 2 ^ e + 2 ^ e = (2 ^ (fmt.p - 1) + 1) * 2 ^ e := by ring
          _ ≤ f * 2 ^ e := by gcongr
      linarith

/-- What lies between the midpoints is closest to the number. -/
theorem Fits.nearest (hf : fmt.Fits f e) (hg : fmt.Fits g d) (hne : fpValue g d ≠ fpValue f e) {x : ℚ}
    (hlow : fmt.lowerMid f e < x) (hhigh : x < upperMid f e) : |x - fpValue f e| < |x - fpValue g d| := by
  rw [lowerMid_eq] at hlow
  rw [upperMid_eq] at hhigh
  have hone := two_zpow_succ e
  rcases lt_or_gt_of_ne hne with hlt | hgt
  · have hstep := hf.le_of_gt hg hlt
    rw [abs_lt]
    have habs := le_abs_self (x - fpValue g d)
    constructor <;> split_ifs at hlow hstep <;> linarith [two_zpow_pos (e - 1), two_zpow_pred e]
  · have hstep := hf.le_of_lt hg hgt
    rw [abs_lt]
    have habs := neg_abs_le (x - fpValue g d)
    constructor <;> split_ifs at hlow <;> linarith [two_zpow_pos (e - 1), two_zpow_pred e]

/-- a number of the format has one significand and one exponent -/
theorem Fits.unique (hf : fmt.Fits f e) (hg : fmt.Fits g d) (h : fpValue f e = fpValue g d) : f = g ∧ e = d := by
  have hle : ∀ {f g : ℕ} {e d : ℤ}, fmt.Fits f e → fmt.Fits g d → fpValue f e = fpValue g d → e ≤ d := by
    intro f g e d hf hg h
    by_contra! hlt
    have hnormal : 2 ^ (fmt.p - 1) ≤ f := hf.normal.resolve_right (by have := hg.emin_le; omega)
    have hbelow := fpValue_lt_of_lt fmt hg.lt hlt
    have hfloor : (2 : ℚ) ^ (fmt.p - 1) * 2 ^ e ≤ fpValue f e := by
      unfold fpValue
      gcongr
      exact_mod_cast hnormal
    linarith [two_zpow_pos (e - 1)]
  obtain rfl := le_antisymm (hle hf hg h) (hle hg hf h.symm)
  have hcast : (f : ℚ) = g := mul_right_cancel₀ (two_zpow_pos e).ne' h
  exact ⟨by exact_mod_cast hcast, rfl⟩

end Format

/-! ## Doubles -/

namespace Binary64

/-- 53 bits with the hidden one; the least exponent is that of the denormals -/
def format : Format := ⟨53, -1074, by decide⟩

def negative (d : BitVec 64) : Bool := d.msb

/-- the exponent field -/
def biased (d : BitVec 64) : ℕ := d.toNat / 2 ^ 52 % 2 ^ 11

/-- the 52 bits of the fraction -/
def fraction (d : BitVec 64) : ℕ := d.toNat % 2 ^ 52

def isnan (d : BitVec 64) : Bool := biased d = 2047 ∧ fraction d ≠ 0

def isinf (d : BitVec 64) : Bool := biased d = 2047 ∧ fraction d = 0

/-- one of the two zeros -/
def isZero (d : BitVec 64) : Bool := biased d = 0 ∧ fraction d = 0

/-- the other sign -/
def neg (d : BitVec 64) : BitVec 64 := d ^^^ BitVec.ofNat 64 (2 ^ 63)

/-- neither infinite nor not a number -/
def Finite (d : BitVec 64) : Prop := biased d < 2047

instance (d : BitVec 64) : Decidable (Finite d) := inferInstanceAs (Decidable (_ < _))

def significand (d : BitVec 64) : ℕ := if biased d = 0 then fraction d else fraction d + 2 ^ 52

def exponent (d : BitVec 64) : ℤ := if biased d = 0 then -1074 else biased d - 1075

def toRat (d : BitVec 64) : ℚ := (if negative d then -1 else 1) * fpValue (significand d) (exponent d)

/-- closer to `d` than to any other finite double -/
def RoundsTo (x : ℚ) (d : BitVec 64) : Prop := ∀ d', Finite d' → toRat d' ≠ toRat d → |x - toRat d| < |x - toRat d'|

theorem fits (d : BitVec 64) : format.Fits (significand d) (exponent d) := by
  have hfrac : fraction d < 2 ^ 52 := Nat.mod_lt _ (by decide)
  unfold significand exponent
  split_ifs with hzero
  · exact ⟨lt_trans hfrac (by decide), le_refl _, Or.inr rfl⟩
  · refine ⟨?_, ?_, Or.inl ?_⟩
    · show fraction d + 2 ^ 52 < 2 ^ 53
      omega
    · show -1074 ≤ (biased d : ℤ) - 1075
      omega
    · show 2 ^ 52 ≤ fraction d + 2 ^ 52
      omega

theorem exponent_le {d : BitVec 64} (h : Finite d) : exponent d ≤ 971 := by
  unfold Finite at h
  unfold exponent
  split_ifs <;> omega

theorem finite_iff {d : BitVec 64} : Finite d ↔ isnan d = false ∧ isinf d = false := by
  have hlt : biased d < 2 ^ 11 := Nat.mod_lt _ (by decide)
  simp only [Finite, isnan, isinf, decide_eq_false_iff_not]
  omega

theorem significand_pos_of_nonzero {d : BitVec 64} (h : isZero d = false) : 0 < significand d := by
  simp only [isZero, decide_eq_false_iff_not] at h
  unfold significand
  split_ifs <;> omega

theorem biased_neg (d : BitVec 64) : biased (neg d) = biased d := by
  rw [biased, neg, BitVec.toNat_xor, BitVec.toNat_ofNat, Nat.xor_div_two_pow, Nat.xor_mod_two_pow]
  exact Nat.xor_zero _

theorem fraction_neg (d : BitVec 64) : fraction (neg d) = fraction d := by
  rw [fraction, neg, BitVec.toNat_xor, BitVec.toNat_ofNat, Nat.xor_mod_two_pow]
  exact Nat.xor_zero _

theorem finite_neg {d : BitVec 64} (h : Finite d) : Finite (neg d) := by rwa [Finite, biased_neg]

theorem isZero_neg (d : BitVec 64) : isZero (neg d) = isZero d := by rw [isZero, isZero, biased_neg, fraction_neg]

theorem negative_neg (d : BitVec 64) : negative (neg d) = !negative d := by
  rw [negative, neg, BitVec.msb_xor]
  exact Bool.xor_true _

theorem toRat_neg (d : BitVec 64) : toRat (neg d) = -toRat d := by
  have hsig : significand (neg d) = significand d := by rw [significand, biased_neg, fraction_neg, significand]
  have hexp : exponent (neg d) = exponent d := by rw [exponent, biased_neg, exponent]
  rw [toRat, negative_neg, hsig, hexp, toRat]
  cases negative d <;> simp

/-- rounding does not depend on the sign -/
theorem RoundsTo.neg {x : ℚ} {d : BitVec 64} (h : RoundsTo x (neg d)) : RoundsTo (-x) d := by
  have hflip : ∀ a b : ℚ, |(-a) - b| = |a - -b| := by
    intro a b
    rw [← abs_neg]
    congr 1
    ring
  intro d' hd' hne
  rw [hflip, hflip, ← toRat_neg, ← toRat_neg]
  refine h _ (finite_neg hd') ?_
  rw [toRat_neg, toRat_neg]
  exact fun heq => hne (neg_injective heq)

theorem toRat_eq_zero_iff {d : BitVec 64} : toRat d = 0 ↔ isZero d = true := by
  constructor
  · intro h
    by_contra hnot
    have hpos : (0 : ℚ) < significand d := by exact_mod_cast significand_pos_of_nonzero (Bool.eq_false_of_not_eq_true hnot)
    have hsign : (if negative d then -1 else 1 : ℚ) ≠ 0 := by split_ifs <;> norm_num
    exact mul_ne_zero hsign (mul_pos hpos (two_zpow_pos _)).ne' h
  · intro h
    simp only [isZero, decide_eq_true_eq] at h
    rw [toRat, significand, if_pos h.1, h.2, fpValue, Nat.cast_zero, zero_mul, mul_zero]

theorem roundsTo_zero {d : BitVec 64} (h : toRat d = 0) : RoundsTo 0 d := by
  intro d' _ hne
  rw [h] at hne ⊢
  rw [sub_zero, abs_zero]
  exact abs_pos.2 (by rwa [zero_sub, neg_ne_zero])

/-- the fields are the bits -/
theorem eq_of_fields {d d' : BitVec 64} (hsign : negative d = negative d') (hsig : significand d = significand d')
    (hexp : exponent d = exponent d') : d = d' := by
  have hfields : biased d = biased d' ∧ fraction d = fraction d' := by
    have hfrac : fraction d < 2 ^ 52 := Nat.mod_lt _ (by decide)
    have hfrac' : fraction d' < 2 ^ 52 := Nat.mod_lt _ (by decide)
    unfold significand at hsig
    unfold exponent at hexp
    split_ifs at hsig hexp <;> omega
  obtain ⟨hbiased, hfraction⟩ := hfields
  rw [negative, negative, BitVec.msb_eq_decide, BitVec.msb_eq_decide, decide_eq_decide] at hsign
  unfold biased at hbiased
  unfold fraction at hfraction
  have hd := d.isLt
  have hd' := d'.isLt
  refine BitVec.eq_of_toNat_eq ?_
  omega

/-- a number that is not zero is that of one double only -/
theorem eq_of_toRat_eq {d d' : BitVec 64} (h : toRat d = toRat d') (hne : toRat d ≠ 0) : d = d' := by
  have hnonneg : ∀ d, 0 ≤ fpValue (significand d) (exponent d) := by
    intro d
    unfold fpValue
    positivity
  have hpos : 0 < fpValue (significand d) (exponent d) := by
    refine lt_of_le_of_ne (hnonneg d) fun hzero => hne ?_
    rw [toRat, ← hzero, mul_zero]
  have hd' := hnonneg d'
  have hboth : negative d = negative d' ∧ fpValue (significand d) (exponent d) = fpValue (significand d') (exponent d') := by
    unfold toRat at h
    cases hs : negative d <;> cases hs' : negative d' <;> simp only [hs, hs', if_true, if_false, Bool.false_eq_true] at h
    · exact ⟨rfl, by linarith⟩
    · linarith
    · linarith
    · exact ⟨rfl, by linarith⟩
  obtain ⟨hsig, hexp⟩ := (fits d).unique (fits d') hboth.2
  exact eq_of_fields hboth.1 hsig hexp

theorem significand_pos {d : BitVec 64} (h : toRat d ≠ 0) : 0 < significand d := by
  rw [Nat.pos_iff_ne_zero]
  intro hzero
  exact h (by rw [toRat, hzero, fpValue, Nat.cast_zero, zero_mul, mul_zero])

theorem toRat_of_pos {d : BitVec 64} (h : 0 < toRat d) : toRat d = fpValue (significand d) (exponent d) := by
  have hnonneg : 0 ≤ fpValue (significand d) (exponent d) := by
    unfold fpValue
    positivity
  unfold toRat at h ⊢
  split_ifs at h ⊢ <;> linarith

theorem toRat_pos {d : BitVec 64} (hsign : negative d = false) (h : 0 < significand d) : 0 < toRat d := by
  rw [toRat, hsign, if_neg Bool.false_ne_true, one_mul, fpValue]
  positivity

theorem lowerMid_ge {d : BitVec 64} (h : 0 < significand d) :
    (2 : ℚ) ^ (-1076 : ℤ) ≤ format.lowerMid (significand d) (exponent d) := by
  have hone : (1 : ℚ) ≤ significand d := by exact_mod_cast h
  have hexp : -1074 ≤ exponent d := (fits d).emin_le
  unfold Format.lowerMid
  split_ifs
  · calc (2 : ℚ) ^ (-1076 : ℤ) ≤ 2 ^ (exponent d - 2) := zpow_le_zpow_right₀ (by norm_num) (by omega)
      _ ≤ (4 * significand d - 1) * 2 ^ (exponent d - 2) := le_mul_of_one_le_left (by positivity) (by linarith)
  · calc (2 : ℚ) ^ (-1076 : ℤ) ≤ 2 ^ (exponent d - 1) := zpow_le_zpow_right₀ (by norm_num) (by omega)
      _ ≤ (2 * significand d - 1) * 2 ^ (exponent d - 1) := le_mul_of_one_le_left (by positivity) (by linarith)

theorem upperMid_le {d : BitVec 64} (h : Finite d) : Format.upperMid (significand d) (exponent d) ≤ 2 ^ (1024 : ℤ) := by
  have hsig : (2 * significand d + 1 : ℚ) ≤ 2 ^ (54 : ℤ) := by
    have hlt : significand d < 2 ^ 53 := (fits d).lt
    have hnat : 2 * significand d + 1 ≤ 2 ^ 54 := by omega
    exact_mod_cast hnat
  have hexp : (2 : ℚ) ^ (exponent d - 1) ≤ 2 ^ (970 : ℤ) :=
    zpow_le_zpow_right₀ (by norm_num) (by have := exponent_le h; omega)
  calc Format.upperMid (significand d) (exponent d) ≤ 2 ^ (54 : ℤ) * 2 ^ (970 : ℤ) := by
        unfold Format.upperMid
        gcongr
    _ = 2 ^ (1024 : ℤ) := by rw [← zpow_add₀ (by norm_num)]; rfl

/-- the midpoint above the largest double, where rounding gives an infinity -/
theorem upperMid_le_overflow {d : BitVec 64} (h : Finite d) :
    Format.upperMid (significand d) (exponent d) ≤ 2 ^ (1024 : ℤ) - 2 ^ (970 : ℤ) := by
  have hsig : (2 * significand d + 1 : ℚ) ≤ 2 ^ (54 : ℤ) - 1 := by
    have hlt : significand d < 2 ^ 53 := (fits d).lt
    have hnat : 2 * significand d + 1 + 1 ≤ 2 ^ 54 := by omega
    rw [le_sub_iff_add_le]
    exact_mod_cast hnat
  have hexp : (2 : ℚ) ^ (exponent d - 1) ≤ 2 ^ (970 : ℤ) :=
    zpow_le_zpow_right₀ (by norm_num) (by have := exponent_le h; omega)
  calc Format.upperMid (significand d) (exponent d) ≤ (2 ^ (54 : ℤ) - 1) * 2 ^ (970 : ℤ) := by
        refine mul_le_mul hsig hexp (two_zpow_pos _).le ?_
        linarith [show (1 : ℚ) ≤ 2 ^ (54 : ℤ) by norm_num]
    _ = 2 ^ (1024 : ℤ) - 2 ^ (970 : ℤ) := by
        rw [sub_mul, one_mul, ← zpow_add₀ (by norm_num), show (54 : ℤ) + 970 = 1024 from rfl]

/-- What lies between the midpoints of a positive double rounds to it. -/
theorem roundsTo_of_between {d : BitVec 64} (hpos : 0 < toRat d) {x : ℚ}
    (hlow : format.lowerMid (significand d) (exponent d) < x) (hhigh : x < Format.upperMid (significand d) (exponent d)) :
    RoundsTo x d := by
  have hnearest : ∀ g e, format.Fits g e → fpValue g e ≠ toRat d → |x - toRat d| < |x - fpValue g e| := by
    intro g e hg hne
    rw [toRat_of_pos hpos] at hne ⊢
    exact (fits d).nearest hg hne hlow hhigh
  intro d' _ hne
  cases hsign : negative d' with
  | false =>
    have hval : toRat d' = fpValue (significand d') (exponent d') := by simp [toRat, hsign]
    rw [hval] at hne ⊢
    exact hnearest _ _ (fits d') hne
  | true =>
    -- zero is between `x` and a negative double
    have hval : toRat d' = -fpValue (significand d') (exponent d') := by simp [toRat, hsign]
    have hnonneg : 0 ≤ fpValue (significand d') (exponent d') := by
      unfold fpValue
      positivity
    have hzero := hnearest 0 (-1074) ⟨by decide, le_refl _, Or.inr rfl⟩ (by rw [fpValue]; simp [hpos.ne])
    have hx : 0 < x := by
      rw [fpValue, Nat.cast_zero, zero_mul, sub_zero] at hzero
      by_contra hneg
      rw [abs_of_nonpos (not_lt.1 hneg), abs_of_nonpos (by linarith)] at hzero
      linarith
    calc |x - toRat d| < |x - fpValue 0 (-1074)| := hzero
      _ = x := by rw [fpValue, Nat.cast_zero, zero_mul, sub_zero, abs_of_pos hx]
      _ ≤ x - toRat d' := by rw [hval]; linarith
      _ ≤ |x - toRat d'| := le_abs_self _

/-- the double with these fields -/
def pack (negative : Bool) (biased fraction : ℕ) : BitVec 64 :=
  BitVec.ofNat 64 (negative.toNat * 2 ^ 63 + biased * 2 ^ 52 + fraction)

section

variable (sign : Bool) {b f : ℕ} (hb : b < 2 ^ 11) (hf : f < 2 ^ 52)
include hb hf

theorem toNat_pack : (pack sign b f).toNat = sign.toNat * 2 ^ 63 + b * 2 ^ 52 + f := by
  have hsign := sign.toNat_le
  rw [pack, BitVec.toNat_ofNat]
  exact Nat.mod_eq_of_lt (by omega)

theorem negative_pack : negative (pack sign b f) = sign := by
  rw [negative, BitVec.msb_eq_decide, toNat_pack sign hb hf]
  cases sign <;> simp only [Bool.toNat_false, Bool.toNat_true, decide_eq_true_eq, decide_eq_false_iff_not] <;> omega

theorem biased_pack : biased (pack sign b f) = b := by
  rw [biased, toNat_pack sign hb hf]
  omega

theorem fraction_pack : fraction (pack sign b f) = f := by
  rw [fraction, toNat_pack sign hb hf]
  omega

end

end Binary64

/-! ## Floats -/

namespace Binary32

def negative (v : BitVec 32) : Bool := v.msb

/-- the exponent field -/
def biased (v : BitVec 32) : ℕ := v.toNat / 2 ^ 23 % 2 ^ 8

/-- the 23 bits of the fraction -/
def fraction (v : BitVec 32) : ℕ := v.toNat % 2 ^ 23

/-- neither infinite nor not a number -/
def Finite (v : BitVec 32) : Prop := biased v < 255

instance (v : BitVec 32) : Decidable (Finite v) := inferInstanceAs (Decidable (_ < _))

def significand (v : BitVec 32) : ℕ := if biased v = 0 then fraction v else fraction v + 2 ^ 23

def exponent (v : BitVec 32) : ℤ := if biased v = 0 then -149 else biased v - 150

def toRat (v : BitVec 32) : ℚ := (if negative v then -1 else 1) * fpValue (significand v) (exponent v)

/-- the conversion to a double; what was denormal is normal there -/
def toBinary64 (v : BitVec 32) : BitVec 64 :=
  if biased v = 255 then Binary64.pack (negative v) 2047 (fraction v * 2 ^ 29)
  else if biased v ≠ 0 then Binary64.pack (negative v) (biased v + 896) (fraction v * 2 ^ 29)
  else if fraction v = 0 then Binary64.pack (negative v) 0 0
  else
    let l := Nat.log2 (fraction v)
    Binary64.pack (negative v) (l + 874) (fraction v * 2 ^ (52 - l) - 2 ^ 52)

theorem fraction_lt (v : BitVec 32) : fraction v < 2 ^ 23 := Nat.mod_lt _ (by decide)

/-- the leading bit of a fraction comes to stand above the 52 bits -/
theorem leading_bit {f : ℕ} (hpos : f ≠ 0) (hf : f < 2 ^ 23) :
    Nat.log2 f < 23 ∧ 2 ^ 52 ≤ f * 2 ^ (52 - Nat.log2 f) ∧ f * 2 ^ (52 - Nat.log2 f) < 2 ^ 53 := by
  have hlog : Nat.log2 f < 23 := (Nat.log2_lt hpos).2 hf
  refine ⟨hlog, ?_, ?_⟩
  · calc 2 ^ 52 = 2 ^ Nat.log2 f * 2 ^ (52 - Nat.log2 f) := by rw [← pow_add, Nat.add_sub_of_le (by omega)]
      _ ≤ f * 2 ^ (52 - Nat.log2 f) := Nat.mul_le_mul_right _ (Nat.log2_self_le hpos)
  · calc f * 2 ^ (52 - Nat.log2 f) < 2 ^ (Nat.log2 f + 1) * 2 ^ (52 - Nat.log2 f) :=
          Nat.mul_lt_mul_of_pos_right Nat.lt_log2_self (Nat.two_pow_pos _)
      _ = 2 ^ 53 := by
          rw [← pow_add]
          congr 1
          omega

/-- The fields of the double: a finite one with the same sign, and its significand has more bits and an exponent that is
smaller by their number. -/
theorem toBinary64_spec {v : BitVec 32} (h : Finite v) :
    ∃ b f, b < 2047 ∧ f < 2 ^ 52 ∧ toBinary64 v = Binary64.pack (negative v) b f ∧
      fpValue (if b = 0 then f else f + 2 ^ 52) (if b = 0 then -1074 else b - 1075) = fpValue (significand v) (exponent v) := by
  have hfrac := fraction_lt v
  have hfinite : biased v < 255 := h
  unfold toBinary64 significand exponent
  rw [if_neg hfinite.ne]
  by_cases hbiased : biased v = 0
  · rw [if_neg (not_not.2 hbiased), if_pos hbiased, if_pos hbiased]
    by_cases hzero : fraction v = 0
    · refine ⟨0, 0, by decide, by decide, if_pos hzero, ?_⟩
      simp [fpValue, hzero]
    · -- the leading bit is moved to its place
      obtain ⟨hlog, hlow, hhigh⟩ := leading_bit hzero hfrac
      refine ⟨Nat.log2 (fraction v) + 874, fraction v * 2 ^ (52 - Nat.log2 (fraction v)) - 2 ^ 52, by omega, by omega,
        if_neg hzero, ?_⟩
      have hexp : ((Nat.log2 (fraction v) + 874 : ℕ) : ℤ) - 1075 = -149 - (52 - Nat.log2 (fraction v) : ℕ) := by omega
      rw [if_neg (Nat.succ_ne_zero _), if_neg (Nat.succ_ne_zero _), Nat.sub_add_cancel hlow, hexp, fpValue_shift]
  · refine ⟨biased v + 896, fraction v * 2 ^ 29, by omega, by omega, if_pos hbiased, ?_⟩
    have hsig : fraction v * 2 ^ 29 + 2 ^ 52 = (fraction v + 2 ^ 23) * 2 ^ 29 := by ring
    have hexp : ((biased v + 896 : ℕ) : ℤ) - 1075 = biased v - 150 - (29 : ℕ) := by omega
    rw [if_neg (Nat.succ_ne_zero _), if_neg (Nat.succ_ne_zero _), if_neg hbiased, if_neg hbiased, hsig, hexp, fpValue_shift]

theorem finite_toBinary64 {v : BitVec 32} (h : Finite v) : Binary64.Finite (toBinary64 v) := by
  obtain ⟨b, f, hb, hf, hpack, -⟩ := toBinary64_spec h
  rw [Binary64.Finite, hpack, Binary64.biased_pack _ (by omega) hf]
  exact hb

/-- the conversion keeps the number -/
theorem toRat_toBinary64 {v : BitVec 32} (h : Finite v) : Binary64.toRat (toBinary64 v) = toRat v := by
  obtain ⟨b, f, hb, hf, hpack, hvalue⟩ := toBinary64_spec h
  have hb' : b < 2 ^ 11 := by omega
  rw [hpack, Binary64.toRat, Binary64.significand, Binary64.exponent, Binary64.negative_pack _ hb' hf,
    Binary64.biased_pack _ hb' hf, Binary64.fraction_pack _ hb' hf, hvalue]
  rfl

end Binary32

end TinyRpc.Core
