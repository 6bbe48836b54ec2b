/-
Floating-point numbers of 64 bits and the boundaries of a double (`DiyFp` and `GetCachedPower` in common/string.hpp).

A `DiyFp` is `f * 2^e` with a 64-bit `f`, no sign and no hidden bit. The boundaries of a double are the midpoints to its
neighbours, brought to the exponent of the upper one. The product of two keeps the upper 64 bits, rounded. The powers of
ten come from a table of every eighth one.

- `normalizedBoundaries_eq`, `minusF_value`, `plusF_value`: the boundaries are exactly the midpoints, for every significand a
  double can have.
- `mul_f`, `mul_error`: the product is the rounded one, so it is off by half a unit at most.
- `cached_error`: every entry of the table is the power of ten up to half a unit in its last place.
- `cached_range`: for every exponent a double's upper boundary can have, the power that is chosen brings it to an exponent
  from -60 to -34.
-/
import Mathlib.Tactic
import Mathlib.Data.Nat.Bitwise
import TinyRpc.Core.BinaryFloat

namespace TinyRpc.Common

open TinyRpc.Core

/-! ## Model -/

/-- the value of a `uint64_t` -/
def u64 (n : ℕ) : ℕ := n % 2 ^ 64

/-- subtraction of `uint64_t` -/
def sub64 (a b : ℕ) : ℕ := u64 (a + 2 ^ 64 - b)

structure DiyFp where
  f : ℕ
  e : ℤ
deriving DecidableEq, Repr

def kDiySignificandSize : ℕ := 64
def kDpSignificandSize : ℕ := 52
def kDpExponentBias : ℤ := 0x3FF + kDpSignificandSize
def kDpMinExponent : ℤ := -kDpExponentBias
def kDpExponentMask : BitVec 64 := 0x7FF0000000000000
def kDpSignificandMask : BitVec 64 := 0x000FFFFFFFFFFFFF
def kDpHiddenBit : ℕ := 0x0010000000000000

namespace DiyFp

/-- DiyFp(double d), from the bits of `d` -/
def ofDouble (d : BitVec 64) : DiyFp :=
  let biased_e := ((d &&& kDpExponentMask) >>> kDpSignificandSize).toNat
  let significand := (d &&& kDpSignificandMask).toNat
  if biased_e ≠ 0 then ⟨significand + kDpHiddenBit, biased_e - kDpExponentBias⟩ else ⟨significand, kDpMinExponent + 1⟩

/-- operator-; `none` is a failed assertion -/
def sub (x rhs : DiyFp) : Option DiyFp := if x.e = rhs.e ∧ x.f ≥ rhs.f then some ⟨sub64 x.f rhs.f, x.e⟩ else none

/-- operator* -/
def mul (x rhs : DiyFp) : DiyFp :=
  let M32 := 0xFFFFFFFF
  let a := x.f >>> 32
  let b := x.f &&& M32
  let c := rhs.f >>> 32
  let d := rhs.f &&& M32
  let ac := u64 (a * c)
  let bc := u64 (b * c)
  let ad := u64 (a * d)
  let bd := u64 (b * d)
  let tmp := u64 (u64 ((bd >>> 32) + (ad &&& M32) + (bc &&& M32)) + 2 ^ 31)
  ⟨u64 (ac + (ad >>> 32) + (bc >>> 32) + (tmp >>> 32)), x.e + rhs.e + 64⟩

/-- `__builtin_clzll`, of a number that is not 0 -/
def clzll (f : ℕ) : ℕ := 63 - f.log2

def normalize (x : DiyFp) : DiyFp :=
  let s := clzll x.f
  ⟨u64 (x.f <<< s), x.e - s⟩

/-- the loop of NormalizeBoundary; `none` when it has not ended after `fuel` turns -/
def shiftToHiddenBit : ℕ → DiyFp → Option DiyFp
  | 0, _ => none
  | fuel + 1, res =>
    if res.f &&& (kDpHiddenBit <<< 1) ≠ 0 then some res else shiftToHiddenBit fuel ⟨u64 (res.f <<< 1), res.e - 1⟩

def normalizeBoundary (fuel : ℕ) (x : DiyFp) : Option DiyFp := do
  let res ← shiftToHiddenBit fuel x
  some ⟨u64 (res.f <<< (kDiySignificandSize - kDpSignificandSize - 2)),
    res.e - (kDiySignificandSize - kDpSignificandSize - 2 : ℕ)⟩

/-- the boundaries: minus, then plus -/
def normalizedBoundaries (fuel : ℕ) (x : DiyFp) : Option (DiyFp × DiyFp) := do
  let pl ← normalizeBoundary fuel ⟨u64 (u64 (x.f <<< 1) + 1), x.e - 1⟩
  let mi : DiyFp :=
    if x.f = kDpHiddenBit then ⟨sub64 (u64 (x.f <<< 2)) 1, x.e - 2⟩ else ⟨sub64 (u64 (x.f <<< 1)) 1, x.e - 1⟩
  some (⟨u64 (mi.f <<< (mi.e - pl.e).toNat), pl.e⟩, pl)

end DiyFp

/-- 10^-348, 10^-340, ..., 10^340 -/
def kCachedPowers_F : List ℕ :=
  [0xfa8fd5a0081c0288, 0xbaaee17fa23ebf76, 0x8b16fb203055ac76, 0xcf42894a5dce35ea, 0x9a6bb0aa55653b2d,
    0xe61acf033d1a45df, 0xab70fe17c79ac6ca, 0xff77b1fcbebcdc4f, 0xbe5691ef416bd60c, 0x8dd01fad907ffc3c,
    0xd3515c2831559a83, 0x9d71ac8fada6c9b5, 0xea9c227723ee8bcb, 0xaecc49914078536d, 0x823c12795db6ce57,
    0xc21094364dfb5637, 0x9096ea6f3848984f, 0xd77485cb25823ac7, 0xa086cfcd97bf97f4, 0xef340a98172aace5,
    0xb23867fb2a35b28e, 0x84c8d4dfd2c63f3b, 0xc5dd44271ad3cdba, 0x936b9fcebb25c996, 0xdbac6c247d62a584,
    0xa3ab66580d5fdaf6, 0xf3e2f893dec3f126, 0xb5b5ada8aaff80b8, 0x87625f056c7c4a8b, 0xc9bcff6034c13053,
    0x964e858c91ba2655, 0xdff9772470297ebd, 0xa6dfbd9fb8e5b88f, 0xf8a95fcf88747d94, 0xb94470938fa89bcf,
    0x8a08f0f8bf0f156b, 0xcdb02555653131b6, 0x993fe2c6d07b7fac, 0xe45c10c42a2b3b06, 0xaa242499697392d3,
    0xfd87b5f28300ca0e, 0xbce5086492111aeb, 0x8cbccc096f5088cc, 0xd1b71758e219652c, 0x9c40000000000000,
    0xe8d4a51000000000, 0xad78ebc5ac620000, 0x813f3978f8940984, 0xc097ce7bc90715b3, 0x8f7e32ce7bea5c70,
    0xd5d238a4abe98068, 0x9f4f2726179a2245, 0xed63a231d4c4fb27, 0xb0de65388cc8ada8, 0x83c7088e1aab65db,
    0xc45d1df942711d9a, 0x924d692ca61be758, 0xda01ee641a708dea, 0xa26da3999aef774a, 0xf209787bb47d6b85,
    0xb454e4a179dd1877, 0x865b86925b9bc5c2, 0xc83553c5c8965d3d, 0x952ab45cfa97a0b3, 0xde469fbd99a05fe3,
    0xa59bc234db398c25, 0xf6c69a72a3989f5c, 0xb7dcbf5354e9bece, 0x88fcf317f22241e2, 0xcc20ce9bd35c78a5,
    0x98165af37b2153df, 0xe2a0b5dc971f303a, 0xa8d9d1535ce3b396, 0xfb9b7cd9a4a7443c, 0xbb764c4ca7a44410,
    0x8bab8eefb6409c1a, 0xd01fef10a657842c, 0x9b10a4e5e9913129, 0xe7109bfba19c0c9d, 0xac2820d9623bf429,
    0x80444b5e7aa7cf85, 0xbf21e44003acdd2d, 0x8e679c2f5e44ff8f, 0xd433179d9c8cb841, 0x9e19db92b4e31ba9,
    0xeb96bf6ebadf77d9, 0xaf87023b9bf0ee6b]

def kCachedPowers_E : List ℤ :=
  [-1220, -1193, -1166, -1140, -1113, -1087, -1060, -1034, -1007, -980, -954, -927, -901, -874,
    -847, -821, -794, -768, -741, -715, -688, -661, -635, -608, -582, -555, -529, -502,
    -475, -449, -422, -396, -369, -343, -316, -289, -263, -236, -210, -183, -157, -130,
    -103, -77, -50, -24, 3, 30, 56, 83, 109, 136, 162, 189, 216, 242,
    269, 295, 322, 348, 375, 402, 428, 455, 481, 508, 534, 561, 588, 614,
    641, 667, 694, 720, 747, 774, 800, 827, 853, 880, 907, 933, 960, 986,
    1013, 1039, 1066]

/-- `(-61 - e) * 0.30102999566398114 + 347`, rounded up -/
def ceilLog (e : ℤ) : ℤ := -((-61 - e) * -30102999566398114 / 10 ^ 17) + 347

/-- the cached power and the decimal exponent `K`; `none` is a failed assertion -/
def getCachedPower (e : ℤ) : Option (DiyFp × ℤ) :=
  let k := ceilLog e
  let index : ℕ := ((k / 8 + 1) % 2 ^ 32).toNat
  let K : ℤ := -(-348 + (index : ℤ) * 8)
  if index < kCachedPowers_F.length then some (⟨kCachedPowers_F.getD index 0, kCachedPowers_E.getD index 0⟩, K) else none

/-! ## Words of 64 bits -/

theorem u64_of_lt {n : ℕ} (h : n < 2 ^ 64) : u64 n = n := Nat.mod_eq_of_lt h

theorem sub64_of_le {a b : ℕ} (ha : a < 2 ^ 64) (h : b ≤ a) : sub64 a b = a - b := by
  have hab : a + 2 ^ 64 - b = (a - b) + 2 ^ 64 := by omega
  rw [sub64, u64, hab, Nat.add_mod_right]
  exact Nat.mod_eq_of_lt (by omega)

namespace DiyFp

/-! ## The product -/

variable {x y : DiyFp}

/-- the four partial products make the rounded upper half of the product -/
theorem mul_f (hx : x.f < 2 ^ 64) (hy : y.f < 2 ^ 64) : (mul x y).f = (x.f * y.f + 2 ^ 63) / 2 ^ 64 := by
  have hmask : ∀ n : ℕ, n &&& 0xFFFFFFFF = n % 2 ^ 32 := fun n => Nat.and_two_pow_sub_one_eq_mod n 32
  have hshift : ∀ n : ℕ, n >>> 32 = n / 2 ^ 32 := fun n => Nat.shiftRight_eq_div_pow n 32
  simp only [mul, hmask, hshift]
  set a := x.f / 2 ^ 32 with ha
  set b := x.f % 2 ^ 32 with hb
  set c := y.f / 2 ^ 32 with hc
  set d := y.f % 2 ^ 32 with hd
  have hxf : x.f = a * 2 ^ 32 + b := (Nat.div_add_mod' x.f (2 ^ 32)).symm
  have hyf : y.f = c * 2 ^ 32 + d := (Nat.div_add_mod' y.f (2 ^ 32)).symm
  have hpart : ∀ m n : ℕ, m < 2 ^ 32 → n < 2 ^ 32 → m * n ≤ (2 ^ 32 - 1) * (2 ^ 32 - 1) := by
    intro m n hm hn
    exact Nat.mul_le_mul (by omega) (by omega)
  have hac := hpart a c (by omega) (by omega)
  have hbc := hpart b c (by omega) (by omega)
  have had := hpart a d (by omega) (by omega)
  have hbd := hpart b d (by omega) (by omega)
  have hprod : x.f * y.f = a * c * 2 ^ 64 + (a * d + b * c) * 2 ^ 32 + b * d := by
    rw [hxf, hyf]
    ring
  rw [hprod]
  generalize a * c = ac at *
  generalize a * d = ad at *
  generalize b * c = bc at *
  generalize b * d = bd at *
  simp only [u64]
  omega

theorem mul_error (hx : x.f < 2 ^ 64) (hy : y.f < 2 ^ 64) :
    |((mul x y).f : ℚ) - x.f * y.f / 2 ^ 64| ≤ 1 / 2 := by
  rw [mul_f hx hy]
  set q := (x.f * y.f + 2 ^ 63) / 2 ^ 64 with hq
  have h1 : 2 ^ 64 * q ≤ x.f * y.f + 2 ^ 63 := Nat.mul_div_le _ _
  have h2 : x.f * y.f + 2 ^ 63 < 2 ^ 64 * q + 2 ^ 64 := by omega
  have h1q : (2 : ℚ) ^ 64 * q ≤ x.f * y.f + 2 ^ 63 := by exact_mod_cast h1
  have h2q : (x.f : ℚ) * y.f + 2 ^ 63 < 2 ^ 64 * q + 2 ^ 64 := by exact_mod_cast h2
  rw [abs_le]
  constructor
  · rw [neg_le_sub_iff_le_add, div_le_iff₀ (by norm_num)]
    linarith
  · rw [sub_le_iff_le_add, ← sub_le_iff_le_add', le_div_iff₀ (by norm_num)]
    linarith

theorem mul_lt (x y : DiyFp) : (mul x y).f < 2 ^ 64 := Nat.mod_lt _ (by decide)

/-- a factor that is off by half a unit makes the product off by less than a unit -/
theorem mul_error_of_factor (hx : x.f < 2 ^ 64) (hy : y.f < 2 ^ 64) {P : ℚ} (hP : |(y.f : ℚ) - P| ≤ 1 / 2) :
    |((mul x y).f : ℚ) - x.f * P / 2 ^ 64| < 1 := by
  have hfrac : (x.f : ℚ) / 2 ^ 64 < 1 := by
    rw [div_lt_one (by norm_num)]
    exact_mod_cast hx
  have hfactor : |(x.f : ℚ) * y.f / 2 ^ 64 - x.f * P / 2 ^ 64| < 1 / 2 := by
    have hform : (x.f : ℚ) * y.f / 2 ^ 64 - x.f * P / 2 ^ 64 = x.f / 2 ^ 64 * (y.f - P) := by ring
    rw [hform, abs_mul, abs_of_nonneg (by positivity)]
    calc (x.f : ℚ) / 2 ^ 64 * |(y.f : ℚ) - P| ≤ x.f / 2 ^ 64 * (1 / 2) := by gcongr
      _ < 1 * (1 / 2) := by gcongr
      _ = 1 / 2 := one_mul _
  calc |((mul x y).f : ℚ) - x.f * P / 2 ^ 64|
      ≤ |((mul x y).f : ℚ) - x.f * y.f / 2 ^ 64| + |(x.f : ℚ) * y.f / 2 ^ 64 - x.f * P / 2 ^ 64| := abs_sub_le _ _ _
    _ < 1 / 2 + 1 / 2 := add_lt_add_of_le_of_lt (mul_error hx hy) hfactor
    _ = 1 := by norm_num

/-- a large factor keeps a distance -/
theorem mul_gap {z : DiyFp} (hx : x.f < 2 ^ 64) (hz : z.f < 2 ^ 64) (hy : y.f < 2 ^ 64) (hlarge : 2 ^ 63 ≤ y.f)
    (hgap : x.f + 2 ^ 10 ≤ z.f) : (mul x y).f + 3 ≤ (mul z y).f := by
  have hprod : x.f * y.f + 2 ^ 10 * 2 ^ 63 ≤ z.f * y.f :=
    calc x.f * y.f + 2 ^ 10 * 2 ^ 63 ≤ x.f * y.f + 2 ^ 10 * y.f := by gcongr
      _ = (x.f + 2 ^ 10) * y.f := by ring
      _ ≤ z.f * y.f := by gcongr
  rw [mul_f hx hy, mul_f hz hy]
  omega

theorem mul_large (hx : x.f < 2 ^ 64) (hy : y.f < 2 ^ 64) (hx63 : 2 ^ 63 ≤ x.f) (hy63 : 2 ^ 63 ≤ y.f) :
    2 ^ 62 ≤ (mul x y).f := by
  have hprod : 2 ^ 63 * 2 ^ 63 ≤ x.f * y.f := Nat.mul_le_mul hx63 hy63
  rw [mul_f hx hy]
  omega

/-! ## The boundaries -/

theorem shiftToHiddenBit_eq {f k fuel : ℕ} (hlow : 2 ^ 53 ≤ f * 2 ^ k) (hhigh : f * 2 ^ k < 2 ^ 54) (hk : k < fuel) (e : ℤ) :
    shiftToHiddenBit fuel ⟨f, e⟩ = some ⟨f * 2 ^ k, e - k⟩ := by
  have hbit : ∀ n : ℕ, n < 2 ^ 54 → (n &&& (kDpHiddenBit <<< 1) ≠ 0 ↔ 2 ^ 53 ≤ n) := by
    intro n hn
    have hconst : kDpHiddenBit <<< 1 = 2 ^ 53 := by decide
    rw [hconst, Nat.and_two_pow, Nat.testBit_eq_decide_div_mod_eq]
    simp
    omega
  induction k generalizing f fuel e with
  | zero =>
    obtain ⟨fuel, rfl⟩ := Nat.exists_eq_add_one.2 hk
    rw [pow_zero, mul_one] at *
    rw [shiftToHiddenBit, if_pos ((hbit f hhigh).2 hlow), Nat.cast_zero, sub_zero]
  | succ k ih =>
    obtain ⟨fuel, rfl⟩ := Nat.exists_eq_add_one.2 (Nat.zero_lt_of_lt hk)
    have hpow : f * 2 ^ (k + 1) = f * 2 * 2 ^ k := by ring
    rw [hpow] at hlow hhigh ⊢
    have hsmall : f * 2 < 2 ^ 54 := lt_of_le_of_lt (Nat.le_mul_of_pos_right _ (Nat.two_pow_pos k)) hhigh
    have hnot : ¬ (f &&& (kDpHiddenBit <<< 1) ≠ 0) := by
      rw [hbit f (by omega)]
      omega
    have hdouble : u64 (f <<< 1) = f * 2 := by
      rw [Nat.shiftLeft_eq, pow_one]
      exact u64_of_lt (by omega)
    rw [shiftToHiddenBit, if_neg hnot, hdouble, ih hlow hhigh (by omega)]
    congr 2
    push_cast
    ring

/-- the shift that brings the highest bit of a significand to bit 63 -/
theorem clzll_spec {f : ℕ} (hpos : 0 < f) (hf : f < 2 ^ 53) :
    11 ≤ clzll f ∧ clzll f ≤ 63 ∧ 2 ^ 63 ≤ f * 2 ^ clzll f ∧ f * 2 ^ clzll f + 2 ^ clzll f ≤ 2 ^ 64 := by
  have hlog : f.log2 < 53 := (Nat.log2_lt (by omega)).2 hf
  have hlow : 2 ^ f.log2 ≤ f := Nat.log2_self_le (by omega)
  have hhigh : f + 1 ≤ 2 ^ (f.log2 + 1) := Nat.lt_log2_self
  have hsum : f.log2 + clzll f = 63 := by unfold clzll; omega
  refine ⟨by unfold clzll; omega, by unfold clzll; omega, ?_, ?_⟩
  · calc 2 ^ 63 = 2 ^ f.log2 * 2 ^ clzll f := by rw [← pow_add, hsum]
      _ ≤ f * 2 ^ clzll f := Nat.mul_le_mul_right _ hlow
  · calc f * 2 ^ clzll f + 2 ^ clzll f = (f + 1) * 2 ^ clzll f := by ring
      _ ≤ 2 ^ (f.log2 + 1) * 2 ^ clzll f := Nat.mul_le_mul_right _ hhigh
      _ = 2 ^ 64 := by rw [← pow_add]; congr 1; omega

theorem normalize_eq {f : ℕ} (hpos : 0 < f) (hf : f < 2 ^ 53) (e : ℤ) :
    normalize ⟨f, e⟩ = ⟨f * 2 ^ clzll f, e - clzll f⟩ := by
  obtain ⟨-, -, -, hhigh⟩ := clzll_spec hpos hf
  have := Nat.two_pow_pos (clzll f)
  simp only [normalize, Nat.shiftLeft_eq]
  rw [u64_of_lt (by omega)]

theorem normalizeBoundary_eq {f fuel : ℕ} (hpos : 0 < f) (hf : f < 2 ^ 53) (hfuel : 53 ≤ fuel) (e : ℤ) :
    normalizeBoundary fuel ⟨2 * f + 1, e - 1⟩ = some ⟨(2 * f + 1) * 2 ^ (clzll f - 1), e - clzll f⟩ := by
  obtain ⟨h11, h63, hlow, hhigh⟩ := clzll_spec hpos hf
  generalize clzll f = s at *
  obtain ⟨k, rfl⟩ : ∃ k, s = k + 11 := ⟨s - 11, by omega⟩
  have hbits : (2 * f + 1) * 2 ^ k * 2 ^ 10 * 2 = f * 2 ^ (k + 11) * 2 + 2 ^ (k + 11) := by ring
  have hkpos := Nat.two_pow_pos (k + 11)
  have hshift : shiftToHiddenBit fuel ⟨2 * f + 1, e - 1⟩ = some ⟨(2 * f + 1) * 2 ^ k, e - 1 - k⟩ :=
    shiftToHiddenBit_eq (by omega) (by omega) (by omega) (e - 1)
  have hten : kDiySignificandSize - kDpSignificandSize - 2 = 10 := rfl
  have hpow : (2 * f + 1) * 2 ^ k * 2 ^ 10 = (2 * f + 1) * 2 ^ (k + 11 - 1) := by
    rw [show k + 11 - 1 = k + 10 by omega]
    ring
  simp only [normalizeBoundary, hshift, Option.bind_eq_bind, Option.bind_some, hten, Nat.shiftLeft_eq]
  rw [u64_of_lt (by omega), hpow]
  congr 2
  push_cast
  ring

/-- the bits are decoded as the format has them -/
theorem ofDouble_eq (d : BitVec 64) : ofDouble d = ⟨Binary64.significand d, Binary64.exponent d⟩ := by
  have hbiased : ((d &&& kDpExponentMask) >>> kDpSignificandSize).toNat = Binary64.biased d := by
    have hmask : kDpExponentMask.toNat >>> 52 = 2 ^ 11 - 1 := by decide
    rw [BitVec.toNat_ushiftRight, BitVec.toNat_and, kDpSignificandSize, Nat.shiftRight_and_distrib, hmask,
      Nat.and_two_pow_sub_one_eq_mod, Nat.shiftRight_eq_div_pow, Binary64.biased]
  have hfrac : (d &&& kDpSignificandMask).toNat = Binary64.fraction d := by
    have hmask : kDpSignificandMask.toNat = 2 ^ 52 - 1 := by decide
    rw [BitVec.toNat_and, hmask, Nat.and_two_pow_sub_one_eq_mod, Binary64.fraction]
  simp only [ofDouble, hbiased, hfrac, Binary64.significand, Binary64.exponent, ite_not]
  split_ifs <;> rfl

/-- one less, `j` bits further down, is still not more -/
theorem pred_shift_le {f j s : ℕ} (hj : j ≤ s) : (2 ^ j * f - 1) * 2 ^ (s - j) ≤ f * 2 ^ s := by
  calc (2 ^ j * f - 1) * 2 ^ (s - j) ≤ 2 ^ j * f * 2 ^ (s - j) := Nat.mul_le_mul_right _ (Nat.sub_le _ 1)
    _ = f * 2 ^ (j + (s - j)) := by ring
    _ = f * 2 ^ s := by rw [Nat.add_sub_cancel' hj]

/-- the lower boundary in units of the upper one's exponent -/
def minusF (f : ℕ) : ℕ := if f = kDpHiddenBit then (4 * f - 1) * 2 ^ (clzll f - 2) else (2 * f - 1) * 2 ^ (clzll f - 1)

/-- the upper boundary, in the same units -/
def plusF (f : ℕ) : ℕ := (2 * f + 1) * 2 ^ (clzll f - 1)

theorem normalizedBoundaries_eq {f fuel : ℕ} (hpos : 0 < f) (hf : f < 2 ^ 53) (hfuel : 53 ≤ fuel) (e : ℤ) :
    normalizedBoundaries fuel ⟨f, e⟩ =
      some (⟨minusF f, e - clzll f⟩, ⟨plusF f, e - clzll f⟩) := by
  obtain ⟨h11, h63, hlow, hhigh⟩ := clzll_spec hpos hf
  have hfit : f * 2 ^ clzll f < 2 ^ 64 := by
    have := Nat.two_pow_pos (clzll f)
    omega
  have hdouble : u64 (f <<< 1) = 2 * f := by
    rw [Nat.shiftLeft_eq, pow_one, Nat.mul_comm]
    exact u64_of_lt (by omega)
  have hplus : u64 (u64 (f <<< 1) + 1) = 2 * f + 1 := by
    rw [hdouble]
    exact u64_of_lt (by omega)
  rw [normalizedBoundaries]
  simp only [hplus, normalizeBoundary_eq hpos hf hfuel, Option.bind_eq_bind, Option.bind_some]
  unfold minusF plusF
  split_ifs with hpow
  · have hminus : sub64 (u64 (f <<< 2)) 1 = 4 * f - 1 := by
      rw [Nat.shiftLeft_eq, u64_of_lt (n := f * 2 ^ 2) (by omega), sub64_of_le (by omega) (by omega)]
      omega
    have hcount : (e - 2 - (e - (clzll f : ℤ))).toNat = clzll f - 2 := by omega
    have hlt : (4 * f - 1) * 2 ^ (clzll f - 2) < 2 ^ 64 := lt_of_le_of_lt (pred_shift_le (j := 2) (by omega)) hfit
    rw [hminus, hcount, Nat.shiftLeft_eq, u64_of_lt hlt]
  · have hminus : sub64 (u64 (f <<< 1)) 1 = 2 * f - 1 := by
      rw [hdouble, sub64_of_le (by omega) (by omega)]
    have hcount : (e - 1 - (e - (clzll f : ℤ))).toNat = clzll f - 1 := by omega
    have hlt : (2 * f - 1) * 2 ^ (clzll f - 1) < 2 ^ 64 := lt_of_le_of_lt (pred_shift_le (j := 1) (by omega)) hfit
    rw [hminus, hcount, Nat.shiftLeft_eq, u64_of_lt hlt]

/-- the double is 2^10 units or more below its upper boundary -/
theorem plusF_spec {f : ℕ} (hpos : 0 < f) (hf : f < 2 ^ 53) :
    f * 2 ^ clzll f + 2 ^ 10 ≤ plusF f ∧ plusF f < 2 ^ 64 := by
  obtain ⟨h11, -, -, hhigh⟩ := clzll_spec hpos hf
  have hhalf : 2 ^ clzll f = 2 * 2 ^ (clzll f - 1) := by
    rw [← pow_succ', Nat.sub_add_cancel (by omega)]
  have hten : 2 ^ 10 ≤ 2 ^ (clzll f - 1) := Nat.pow_le_pow_right (by decide) (by omega)
  have hplus : plusF f = f * 2 ^ clzll f + 2 ^ (clzll f - 1) := by
    rw [plusF, hhalf]
    ring
  omega

theorem minusF_le {f : ℕ} (hpos : 0 < f) (hf : f < 2 ^ 53) : minusF f ≤ f * 2 ^ clzll f := by
  obtain ⟨h11, -, -, -⟩ := clzll_spec hpos hf
  unfold minusF
  split_ifs
  · exact pred_shift_le (j := 2) (by omega)
  · exact pred_shift_le (j := 1) (by omega)

/-- the boundaries are the midpoints to the neighbours -/
theorem plusF_value {f : ℕ} (hpos : 0 < f) (hf : f < 2 ^ 53) (e : ℤ) :
    fpValue (plusF f) (e - clzll f) = Format.upperMid f e := by
  obtain ⟨h11, -, -, -⟩ := clzll_spec hpos hf
  have hexp : e - clzll f = e - 1 - (clzll f - 1 : ℕ) := by omega
  rw [plusF, hexp, fpValue_shift, fpValue, Format.upperMid]
  push_cast
  rfl

theorem minusF_value {f : ℕ} (hpos : 0 < f) (hf : f < 2 ^ 53) (e : ℤ) :
    fpValue (minusF f) (e - clzll f) = Binary64.format.lowerMid f e := by
  obtain ⟨h11, -, -, -⟩ := clzll_spec hpos hf
  unfold minusF Format.lowerMid
  have hcond : f = kDpHiddenBit ↔ f = 2 ^ (Binary64.format.p - 1) := Iff.rfl
  simp only [hcond]
  split_ifs
  · have hexp : e - clzll f = e - 2 - (clzll f - 2 : ℕ) := by omega
    rw [hexp, fpValue_shift, fpValue, Nat.cast_sub (by omega)]
    push_cast
    rfl
  · have hexp : e - clzll f = e - 1 - (clzll f - 1 : ℕ) := by omega
    rw [hexp, fpValue_shift, fpValue, Nat.cast_sub (by omega)]
    push_cast
    rfl

end DiyFp

/-! ## The powers of ten -/

theorem ceilLog_eq (e : ℤ) : ceilLog e = ⌈((-61 - e : ℤ) : ℚ) * (30102999566398114 / 10 ^ 17) + 347⌉ := by
  have hquot : ((-61 - e : ℤ) : ℚ) * (30102999566398114 / 10 ^ 17) + 347 =
      (((-61 - e) * 30102999566398114 : ℤ) : ℚ) / ((10 ^ 17 : ℕ) : ℚ) + ((347 : ℤ) : ℚ) := by
    push_cast
    ring
  rw [hquot, Int.ceil_add_intCast, Rat.ceil_intCast_div_natCast, ceilLog, ← mul_neg]
  rfl

/-- the index of the power that is chosen for an exponent -/
def cachedIndex (e : ℤ) : ℕ := ((ceilLog e / 8 + 1) % 2 ^ 32).toNat

/-- entry `n` is 10^(8n - 348) up to half a unit in its last place; all factors are brought to one side or the other -/
def EntryOk (n : ℕ) : Prop :=
  let f : ℤ := kCachedPowers_F.getD n 0
  let e := kCachedPowers_E.getD n 0
  2 ^ 63 ≤ f ∧ f < 2 ^ 64 ∧
    |2 * f * 2 ^ e.toNat * 10 ^ (348 - 8 * n) - 2 * 10 ^ (8 * n - 348) * 2 ^ (-e).toNat| ≤ 2 ^ e.toNat * 10 ^ (348 - 8 * n)

instance (n : ℕ) : Decidable (EntryOk n) := inferInstanceAs (Decidable (_ ∧ _))

theorem entries_ok : ∀ n < 87, EntryOk n := by decide +kernel

/-- the exponents for which entry `n` is chosen end up between -60 and -34; `8 n - 8` is the least `k` of the entry -/
def RangeOk (n : ℕ) : Prop :=
  let e := kCachedPowers_E.getD n 0
  (-60 - 64 - e - 1) * 30102999566398114 < -61 * 30102999566398114 - (8 * n - 1 - 347) * 10 ^ 17 ∧
    -61 * 30102999566398114 - (8 * n - 8 - 348) * 10 ^ 17 ≤ (-34 - 64 - e + 1) * 30102999566398114

instance (n : ℕ) : Decidable (RangeOk n) := inferInstanceAs (Decidable (_ ∧ _))

theorem ranges_ok : ∀ n < 87, RangeOk n := by decide +kernel

theorem cached_range {e : ℤ} (hlow : -1137 ≤ e) (hhigh : e ≤ 960) :
    cachedIndex e < 87 ∧ -60 ≤ e + kCachedPowers_E.getD (cachedIndex e) 0 + 64 ∧
      e + kCachedPowers_E.getD (cachedIndex e) 0 + 64 ≤ -34 := by
  have hk : 40 ≤ ceilLog e ∧ ceilLog e ≤ 671 := by
    unfold ceilLog
    omega
  have hn : ((cachedIndex e : ℕ) : ℤ) = ceilLog e / 8 + 1 := by
    unfold cachedIndex
    omega
  have hindex : cachedIndex e < 87 := by omega
  obtain ⟨h60, h34⟩ := ranges_ok _ hindex
  unfold ceilLog at hn
  generalize kCachedPowers_E.getD (cachedIndex e) 0 = E at *
  generalize cachedIndex e = n at *
  refine ⟨hindex, ?_, ?_⟩ <;> omega

theorem zpow_split {b : ℚ} (hb : b ≠ 0) (z : ℤ) : b ^ z * b ^ (-z).toNat = b ^ z.toNat := by
  rw [← zpow_natCast, ← zpow_natCast, ← zpow_add₀ hb]
  congr 1
  omega

/-- Every entry of the table is the power of ten it stands for, up to half a unit in its last place. -/
theorem cached_error {n : ℕ} (hn : n < 87) :
    |(kCachedPowers_F.getD n 0 : ℚ) - 10 ^ (8 * n - 348 : ℤ) * 2 ^ (-kCachedPowers_E.getD n 0)| ≤ 1 / 2 := by
  obtain ⟨-, -, herr⟩ := entries_ok n hn
  set f := kCachedPowers_F.getD n 0
  set e := kCachedPowers_E.getD n 0
  have hten : (10 : ℚ) ^ (8 * n - 348 : ℤ) * 10 ^ (348 - 8 * n) = 10 ^ (8 * n - 348) := by
    have h := zpow_split (b := 10) (by norm_num) (8 * n - 348)
    rwa [show (-(8 * (n : ℤ) - 348)).toNat = 348 - 8 * n by omega,
      show (8 * (n : ℤ) - 348).toNat = 8 * n - 348 by omega] at h
  have htwo : (2 : ℚ) ^ (-e) * 2 ^ e.toNat = 2 ^ (-e).toNat := by
    have h := zpow_split (b := 2) (by norm_num) (-e)
    rwa [neg_neg] at h
  set scale : ℚ := 2 ^ e.toNat * 10 ^ (348 - 8 * n) with hscale
  have hpos : 0 < scale := by positivity
  have hq : |2 * (f : ℚ) * 2 ^ e.toNat * 10 ^ (348 - 8 * n) - 2 * 10 ^ (8 * n - 348) * 2 ^ (-e).toNat| ≤
      2 ^ e.toNat * 10 ^ (348 - 8 * n) := by exact_mod_cast herr
  have hfactor : 2 * (f : ℚ) * 2 ^ e.toNat * 10 ^ (348 - 8 * n) - 2 * 10 ^ (8 * n - 348) * 2 ^ (-e).toNat =
      (f - 10 ^ (8 * n - 348 : ℤ) * 2 ^ (-e)) * (2 * scale) := by
    rw [← hten, ← htwo, hscale]
    ring
  rw [hfactor, abs_mul, abs_of_pos (show 0 < 2 * scale by positivity), ← hscale] at hq
  rw [le_div_iff₀ (by norm_num)]
  exact le_of_mul_le_mul_right (by linarith) hpos

/-- what is chosen for the exponent of a double's upper boundary -/
theorem getCachedPower_spec {e : ℤ} (hlow : -1137 ≤ e) (hhigh : e ≤ 960) :
    ∃ c K, getCachedPower e = some (c, K) ∧ 2 ^ 63 ≤ c.f ∧ c.f < 2 ^ 64 ∧ -60 ≤ e + c.e + 64 ∧ e + c.e + 64 ≤ -34 ∧
      |(c.f : ℚ) - 10 ^ (-K) * 2 ^ (-c.e)| ≤ 1 / 2 := by
  obtain ⟨hindex, h60, h34⟩ := cached_range hlow hhigh
  obtain ⟨h63, h64, -⟩ := entries_ok _ hindex
  have herr := cached_error hindex
  set n := cachedIndex e with hn
  refine ⟨⟨kCachedPowers_F.getD n 0, kCachedPowers_E.getD n 0⟩, -(-348 + (n : ℤ) * 8), ?_, by exact_mod_cast h63,
    by exact_mod_cast h64, h60, h34, ?_⟩
  · have hlength : kCachedPowers_F.length = 87 := rfl
    simp only [getCachedPower, cachedIndex, hlength] at hn ⊢
    rw [← hn, if_pos hindex]
  · rw [neg_neg, show (-348 + (n : ℤ) * 8) = 8 * n - 348 by ring]
    exact herr

end TinyRpc.Common
