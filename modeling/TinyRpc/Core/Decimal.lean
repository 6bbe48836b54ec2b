/-
The decimal text of an integer, in ASCII.

`div_ten_of_reciprocal` is division by ten as a multiplication and a shift. `decimalText` is what `printf` writes for
`%lld` and `%llu`. `lowDigits` are the digits of a positive number from the last one on, the order in which repeated
division by ten finds them. The two meet in `decimalText_of_pos` and `decimalText_of_neg`. `decimalValue` reads a text of
digits, and `DigitText` is such a text without a leading zero.
-/
import Mathlib.Tactic
import TinyRpc.Core.Bytes

namespace TinyRpc.Core

/-- a reciprocal of ten in `s` bits, rounded up, divides by ten as long as the error stays below a tenth -/
theorem div_ten_of_reciprocal {base s n : ℕ} (hbase : 10 * base = 2 ^ s + 2) (hn : 2 * n + 18 < 2 ^ s) :
    n * base / 2 ^ s = n / 10 := by
  have hsplit : n * base = 2 ^ s * (n / 10) + (2 * (n / 10) + n % 10 * base) := by
    have hdiv : n * base = (10 * base) * (n / 10) + n % 10 * base := by
      conv_lhs => rw [← Nat.div_add_mod n 10]
      ring
    rw [hdiv, hbase]
    ring
  have hrem : 2 * (n / 10) + n % 10 * base < 2 ^ s := by
    have hdigit : n % 10 ≤ 9 := by omega
    have hmul : n % 10 * base ≤ 9 * base := Nat.mul_le_mul_right base hdigit
    omega
  rw [hsplit, Nat.mul_add_div (Nat.two_pow_pos s), Nat.div_eq_of_lt hrem, Nat.add_zero]

def ascii (c : Char) : Byte := BitVec.ofNat 8 c.toNat

/-- the text of an integer, as `printf` writes it -/
def decimalText (z : ℤ) : List Byte := (toString z).toList.map ascii

/-- the digits of a number, the last one first; 0 has none -/
def lowDigits (n : ℕ) : List Byte := (Nat.digits 10 n).map fun d => ascii (Nat.digitChar d)

@[simp] theorem lowDigits_zero : lowDigits 0 = [] := by simp [lowDigits]

theorem lowDigits_of_pos {n : ℕ} (h : 0 < n) : lowDigits n = ascii (Nat.digitChar (n % 10)) :: lowDigits (n / 10) := by
  rw [lowDigits, Nat.digits_def' (by decide) h, List.map_cons, lowDigits]

theorem toDigits_eq_lowDigits {n : ℕ} (h : 0 < n) : (Nat.toDigits 10 n).map ascii = (lowDigits n).reverse := by
  induction n using Nat.strong_induction_on with
  | _ n ih =>
    rw [Nat.toDigits_eq_if (by decide), lowDigits_of_pos h, List.reverse_cons]
    split_ifs with hlt
    · have hdiv : n / 10 = 0 := Nat.div_eq_of_lt hlt
      rw [hdiv, Nat.mod_eq_of_lt hlt]
      rfl
    · rw [List.map_append, ih (n / 10) (by omega) (by omega)]
      rfl

theorem decimalText_zero : decimalText 0 = [ascii '0'] := rfl

theorem decimalText_of_pos {z : ℤ} (h : 0 < z) : decimalText z = (lowDigits z.natAbs).reverse := by
  obtain ⟨n, rfl⟩ := Int.eq_ofNat_of_zero_le h.le
  rw [Int.natAbs_natCast, ← toDigits_eq_lowDigits (by omega), decimalText]
  have htext : toString (n : ℤ) = Nat.repr n := rfl
  rw [htext, Nat.repr_eq_ofList_toDigits, String.toList_ofList]

theorem decimalText_of_neg {z : ℤ} (h : z < 0) : decimalText z = ascii '-' :: (lowDigits z.natAbs).reverse := by
  obtain ⟨n, rfl⟩ := Int.eq_negSucc_of_lt_zero h
  rw [Int.natAbs_negSucc, ← toDigits_eq_lowDigits (Nat.succ_pos n), decimalText]
  have htext : toString (Int.negSucc n) = "-" ++ Nat.repr (n + 1) := rfl
  rw [htext, String.toList_append, Nat.repr_eq_ofList_toDigits, String.toList_ofList, String.toList_ofList]
  rfl

theorem length_lowDigits_le {n k : ℕ} (h : n < 10 ^ k) : (lowDigits n).length ≤ k := by
  rw [lowDigits, List.length_map]
  exact (Nat.digits_length_le_iff (by decide) n).2 h

/-- no digit is a NUL -/
theorem digit_ne_zero {d : ℕ} (h : d < 10) : ascii (Nat.digitChar d) ≠ 0 := by
  interval_cases d <;> decide

theorem ne_zero_of_mem_lowDigits {n : ℕ} {x : Byte} (h : x ∈ lowDigits n) : x ≠ 0 := by
  obtain ⟨d, hd, rfl⟩ := List.mem_map.1 h
  exact digit_ne_zero (Nat.digits_lt_base (by decide) hd)

/-! ## Reading a text -/

/-- `'0' + d` -/
def digitByte (d : ℕ) : Byte := ascii '0' + BitVec.ofNat 8 d

/-- the number that a text of digits says -/
def decimalValue (text : List Byte) : ℕ := text.foldl (fun n c => 10 * n + (c.toNat - 48)) 0

/-- digits, at least one, and the first is not '0' -/
structure DigitText (text : List Byte) : Prop where
  digits : ∀ c ∈ text, ∃ d ≤ 9, c = digitByte d
  nonempty : text ≠ []
  leading : text.head? ≠ some (ascii '0')

theorem toNat_digitByte {d : ℕ} (h : d ≤ 9) : (digitByte d).toNat = 48 + d := by
  interval_cases d <;> decide

theorem digitByte_sub_one {d : ℕ} (h : d ≤ 8) : digitByte (d + 1) - 1 = digitByte d := by
  interval_cases d <;> decide

theorem digitByte_eq_zero_iff {d : ℕ} (h : d ≤ 9) : digitByte d = ascii '0' ↔ d = 0 := by
  interval_cases d <;> decide

theorem decimalValue_concat (text : List Byte) {d : ℕ} (h : d ≤ 9) :
    decimalValue (text ++ [digitByte d]) = 10 * decimalValue text + d := by
  rw [decimalValue, List.foldl_concat, ← decimalValue, toNat_digitByte h]
  omega

theorem DigitText.concat {text : List Byte} (h : DigitText text) {d : ℕ} (hd : d ≤ 9) : DigitText (text ++ [digitByte d]) := by
  obtain ⟨c, text, rfl⟩ := List.exists_cons_of_ne_nil h.nonempty
  refine ⟨?_, by simp, h.leading⟩
  intro x hx
  rcases List.mem_append.1 hx with hx | hx
  · exact h.digits x hx
  · exact ⟨d, hd, List.mem_singleton.1 hx⟩

theorem digitText_singleton {d : ℕ} (hpos : 0 < d) (hd : d ≤ 9) : DigitText [digitByte d] := by
  refine ⟨?_, by simp, ?_⟩
  · intro x hx
    exact ⟨d, hd, List.mem_singleton.1 hx⟩
  · intro hhead
    have hzero := (digitByte_eq_zero_iff hd).1 (Option.some.inj hhead)
    omega

theorem decimalValue_lt {text : List Byte} (h : ∀ c ∈ text, ∃ d ≤ 9, c = digitByte d) :
    decimalValue text < 10 ^ text.length := by
  induction text using List.reverseRecOn with
  | nil => decide
  | append_singleton text c ih =>
    obtain ⟨d, hd, rfl⟩ := h c (by simp)
    have hrest := ih fun x hx => h x (List.mem_append_left _ hx)
    rw [decimalValue_concat _ hd, List.length_append, List.length_singleton, pow_succ]
    omega

theorem DigitText.of_concat {text : List Byte} {c : Byte} (h : DigitText (text ++ [c])) (hne : text ≠ []) :
    DigitText text := by
  refine ⟨fun x hx => h.digits x (List.mem_append_left _ hx), hne, ?_⟩
  intro hhead
  refine h.leading ?_
  rw [List.head?_append, hhead]
  rfl

/-- the first digit counts -/
theorem DigitText.le_decimalValue {text : List Byte} (h : DigitText text) :
    10 ^ (text.length - 1) ≤ decimalValue text := by
  induction text using List.reverseRecOn with
  | nil => exact absurd rfl h.nonempty
  | append_singleton text c ih =>
    obtain ⟨d, hd, rfl⟩ := h.digits c (by simp)
    rw [decimalValue_concat _ hd, List.length_append, List.length_singleton, Nat.add_sub_cancel]
    rcases eq_or_ne text [] with rfl | hne
    · have hd0 : d ≠ 0 := fun h0 => h.leading (by rw [h0]; rfl)
      rw [List.length_nil, pow_zero]
      omega
    · have hrest := ih (h.of_concat hne)
      have hlen : 0 < text.length := List.length_pos_iff.2 hne
      calc 10 ^ text.length = 10 * 10 ^ (text.length - 1) := by rw [← pow_succ', Nat.sub_add_cancel hlen]
        _ ≤ 10 * decimalValue text := Nat.mul_le_mul_left 10 hrest
        _ ≤ 10 * decimalValue text + d := Nat.le_add_right _ _

/-- a text without a leading zero says more than 0 -/
theorem DigitText.decimalValue_pos {text : List Byte} (h : DigitText text) : 0 < decimalValue text :=
  lt_of_lt_of_le (by positivity) h.le_decimalValue

/-- the power of ten of the first digit, for a text with an exponent -/
theorem DigitText.zpow_bounds {text : List Byte} (h : DigitText text) (k : ℤ) :
    (10 : ℚ) ^ (text.length + k - 1) ≤ decimalValue text * 10 ^ k ∧ decimalValue text * 10 ^ k < (10 : ℚ) ^ (text.length + k) := by
  have hlen : 0 < text.length := List.length_pos_iff.2 h.nonempty
  have hpow : (0 : ℚ) < 10 ^ k := by positivity
  have hlow : (10 : ℚ) ^ (text.length - 1) ≤ decimalValue text := by exact_mod_cast h.le_decimalValue
  have hhigh : (decimalValue text : ℚ) < 10 ^ text.length := by exact_mod_cast decimalValue_lt h.digits
  constructor
  · calc (10 : ℚ) ^ (text.length + k - 1) = 10 ^ (text.length - 1) * 10 ^ k := by
          rw [← zpow_natCast, ← zpow_add₀ (by norm_num)]
          congr 1
          omega
      _ ≤ decimalValue text * 10 ^ k := by gcongr
  · calc (decimalValue text : ℚ) * 10 ^ k < 10 ^ text.length * 10 ^ k := by gcongr
      _ = 10 ^ (text.length + k) := by rw [zpow_add₀ (by norm_num), zpow_natCast]

/-! ## Small numbers -/

theorem ascii_digitChar {d : ℕ} (h : d ≤ 9) : ascii (Nat.digitChar d) = digitByte d := by
  interval_cases d <;> decide

theorem digitByte_ne_zero {d : ℕ} (h : d ≤ 9) : digitByte d ≠ 0 := by
  interval_cases d <;> decide

theorem DigitText.ne_zero {text : List Byte} (h : DigitText text) {c : Byte} (hc : c ∈ text) : c ≠ 0 := by
  obtain ⟨d, hd, rfl⟩ := h.digits c hc
  exact digitByte_ne_zero hd

theorem ne_zero_of_mem_decimalText {z : ℤ} {c : Byte} (hc : c ∈ decimalText z) : c ≠ 0 := by
  rcases lt_trichotomy z 0 with hz | rfl | hz
  · rw [decimalText_of_neg hz] at hc
    rcases List.mem_cons.1 hc with rfl | hc
    · decide
    · exact ne_zero_of_mem_lowDigits (List.mem_reverse.1 hc)
  · rw [decimalText_zero] at hc
    rw [List.mem_singleton.1 hc]
    decide
  · rw [decimalText_of_pos hz] at hc
    exact ne_zero_of_mem_lowDigits (List.mem_reverse.1 hc)

/-- the digits of a number of up to three of them -/
def shortDigits (n : ℕ) : List Byte :=
  if 100 ≤ n then [digitByte (n / 100), digitByte (n % 100 / 10), digitByte (n % 100 % 10)]
  else if 10 ≤ n then [digitByte (n / 10), digitByte (n % 10)]
  else [digitByte n]

theorem decimalText_of_lt {n : ℕ} (h : n < 1000) : decimalText n = shortDigits n := by
  rcases Nat.eq_zero_or_pos n with rfl | hpos
  · rfl
  rw [decimalText_of_pos (by omega), Int.natAbs_natCast]
  have hone : ∀ m, 0 < m → m < 10 → lowDigits m = [digitByte m] := by
    intro m hm hlt
    rw [lowDigits_of_pos hm, ascii_digitChar (by omega), Nat.mod_eq_of_lt hlt, Nat.div_eq_of_lt hlt, lowDigits_zero]
  have hmore : ∀ m, 0 < m → lowDigits m = digitByte (m % 10) :: lowDigits (m / 10) := by
    intro m hm
    rw [lowDigits_of_pos hm, ascii_digitChar (by omega)]
  unfold shortDigits
  split_ifs with h100 h10
  · rw [hmore n hpos, hmore (n / 10) (by omega), hone (n / 10 / 10) (by omega) (by omega)]
    have h1 : n / 10 / 10 = n / 100 := by omega
    have h2 : n / 10 % 10 = n % 100 / 10 := by omega
    have h3 : n % 10 = n % 100 % 10 := by omega
    rw [h1, h2, h3]
    rfl
  · rw [hmore n hpos, hone (n / 10) (by omega) (by omega)]
    rfl
  · rw [hone n hpos (by omega)]
    rfl

theorem decimalText_neg {n : ℕ} (hpos : 0 < n) : decimalText (-n) = ascii '-' :: decimalText n := by
  rw [decimalText_of_neg (by omega), decimalText_of_pos (by omega), Int.natAbs_neg]

end TinyRpc.Core
