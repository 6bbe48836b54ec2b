/-
Decimal literals: texts of digits with a point or an exponent, and the number they say.

A literal is digits, a point and digits, with at least one digit on each side; or such a mantissa, or digits alone,
followed by `e` and an exponent, which may be negative and has no leading zeros. `readLiteral` takes a text apart in that
way and gives its exact value, and `none` for anything else. The rules `readLiteral_point`, `readLiteral_digits_exp` and
`readLiteral_point_exp` say what the three forms are read as.
-/
import Mathlib.Tactic
import TinyRpc.Core.Decimal

namespace TinyRpc.Core

/-! ## Reading -/

def isDigit (c : Byte) : Bool := 48 ≤ c.toNat ∧ c.toNat ≤ 57

/-- what is in front of the first `c` and what is behind it -/
def cut (c : Byte) : List Byte → Option (List Byte × List Byte)
  | [] => none
  | x :: t => if x = c then some ([], t) else (cut c t).map fun r => (x :: r.1, r.2)

/-- one digit or more -/
def readDigits (t : List Byte) : Option ℕ := if t ≠ [] ∧ t.all isDigit then some (decimalValue t) else none

/-- digits, a point, digits -/
def readPoint (t : List Byte) : Option ℚ := do
  let r ← cut (ascii '.') t
  let _ ← readDigits r.1
  let _ ← readDigits r.2
  some (decimalValue (r.1 ++ r.2) * 10 ^ (-(r.2.length : ℤ)))

/-- digits with a point or without one -/
def readMantissa (t : List Byte) : Option ℚ :=
  if ascii '.' ∈ t then readPoint t else (readDigits t).map fun n : ℕ => (n : ℚ)

/-- digits without a leading zero, or a zero alone -/
def readMagnitude (t : List Byte) : Option ℕ := if t = [ascii '0'] ∨ t.head? ≠ some (ascii '0') then readDigits t else none

def readExponent (t : List Byte) : Option ℤ :=
  if t.head? = some (ascii '-') then (readMagnitude t.tail).map fun n : ℕ => -(n : ℤ)
  else (readMagnitude t).map fun n : ℕ => (n : ℤ)

/-- the value of a literal -/
def readLiteral (t : List Byte) : Option ℚ :=
  match cut (ascii 'e') t with
  | none => readPoint t
  | some r => do
    let m ← readMantissa r.1
    let e ← readExponent r.2
    some (m * 10 ^ e)

/-- a literal with a minus sign or without one -/
def readNumber (t : List Byte) : Option ℚ :=
  if t.head? = some (ascii '-') then (readLiteral t.tail).map fun x => -x else readLiteral t

/-! ## Cutting -/

theorem cut_append {c : Byte} {a : List Byte} (ha : c ∉ a) (b : List Byte) : cut c (a ++ c :: b) = some (a, b) := by
  induction a with
  | nil => rw [List.nil_append, cut, if_pos rfl]
  | cons x a ih =>
    obtain ⟨hx, ha⟩ := not_or.1 (mt List.mem_cons.2 ha)
    rw [List.cons_append, cut, if_neg (Ne.symm hx), ih ha]
    rfl

theorem cut_eq_none {c : Byte} {t : List Byte} (h : c ∉ t) : cut c t = none := by
  induction t with
  | nil => rfl
  | cons x t ih =>
    obtain ⟨hx, ht⟩ := not_or.1 (mt List.mem_cons.2 h)
    rw [cut, if_neg (Ne.symm hx), ih ht]
    rfl

/-! ## Digits -/

/-- digits only -/
def AllDigits (t : List Byte) : Prop := ∀ c ∈ t, ∃ d ≤ 9, c = digitByte d

theorem isDigit_digitByte {d : ℕ} (h : d ≤ 9) : isDigit (digitByte d) = true := by
  interval_cases d <;> decide

theorem AllDigits.append {a b : List Byte} (ha : AllDigits a) (hb : AllDigits b) : AllDigits (a ++ b) :=
  List.forall_mem_append.2 ⟨ha, hb⟩

theorem allDigits_zeros (n : ℕ) : AllDigits (List.replicate n (ascii '0')) := by
  intro c hc
  rw [List.eq_of_mem_replicate hc]
  exact ⟨0, by decide, rfl⟩

/-- no digit is a character of another kind -/
theorem AllDigits.notMem {t : List Byte} (h : AllDigits t) {c : Byte} (hc : isDigit c = false) : c ∉ t := by
  intro hmem
  obtain ⟨d, hd, rfl⟩ := h c hmem
  rw [isDigit_digitByte hd] at hc
  cases hc

theorem readDigits_eq {t : List Byte} (h : AllDigits t) (hne : t ≠ []) : readDigits t = some (decimalValue t) := by
  rw [readDigits, if_pos]
  refine ⟨hne, List.all_eq_true.2 ?_⟩
  intro c hc
  obtain ⟨d, hd, rfl⟩ := h c hc
  exact isDigit_digitByte hd

theorem decimalValue_append (a b : List Byte) :
    decimalValue (a ++ b) = decimalValue a * 10 ^ b.length + decimalValue b := by
  induction b using List.reverseRecOn with
  | nil => simp [decimalValue]
  | append_singleton b c ih =>
    have hlast : ∀ t : List Byte, decimalValue (t ++ [c]) = 10 * decimalValue t + (c.toNat - 48) := by
      intro t
      rw [decimalValue, List.foldl_concat, ← decimalValue]
    rw [← List.append_assoc, hlast, hlast, ih, List.length_append, List.length_singleton]
    ring

theorem decimalValue_zeros (n : ℕ) : decimalValue (List.replicate n (ascii '0')) = 0 := by
  induction n with
  | zero => rfl
  | succ n ih =>
    rw [List.replicate_succ', decimalValue_append, ih]
    rfl

/-! ## Exponents -/

theorem digitText_lowDigits {n : ℕ} (h : 0 < n) :
    DigitText (lowDigits n).reverse ∧ decimalValue (lowDigits n).reverse = n := by
  induction n using Nat.strong_induction_on with
  | _ n ih =>
    have hdigit : n % 10 ≤ 9 := by omega
    rw [lowDigits_of_pos h, List.reverse_cons, ascii_digitChar hdigit, decimalValue_concat _ hdigit]
    rcases Nat.eq_zero_or_pos (n / 10) with hzero | hpos
    · rw [hzero, lowDigits_zero]
      exact ⟨digitText_singleton (by omega) hdigit, by show 10 * 0 + n % 10 = n; omega⟩
    · obtain ⟨htext, hvalue⟩ := ih (n / 10) (by omega) hpos
      exact ⟨htext.concat hdigit, by omega⟩

theorem readMagnitude_lowDigits {n : ℕ} (h : 0 < n) : readMagnitude (lowDigits n).reverse = some n := by
  obtain ⟨htext, hvalue⟩ := digitText_lowDigits h
  rw [readMagnitude, if_pos (Or.inr htext.leading), readDigits_eq htext.digits htext.nonempty, hvalue]

/-- an exponent is read as it was printed -/
theorem readExponent_decimalText (z : ℤ) : readExponent (decimalText z) = some z := by
  rcases lt_trichotomy z 0 with hz | rfl | hz
  · rw [decimalText_of_neg hz, readExponent, if_pos (by rfl), List.tail_cons, readMagnitude_lowDigits (by omega)]
    exact congrArg some (show -(z.natAbs : ℤ) = z by omega)
  · decide
  · obtain ⟨htext, -⟩ := digitText_lowDigits (show 0 < z.natAbs by omega)
    have hsign : (lowDigits z.natAbs).reverse.head? ≠ some (ascii '-') := by
      intro hhead
      exact AllDigits.notMem htext.digits (by decide) (List.mem_of_head? hhead)
    rw [decimalText_of_pos hz, readExponent, if_neg hsign, readMagnitude_lowDigits (by omega)]
    exact congrArg some (show (z.natAbs : ℤ) = z by omega)

/-! ## Literals -/

theorem exp_notMem {a b : List Byte} (ha : AllDigits a) (hb : AllDigits b) : ascii 'e' ∉ a ++ ascii '.' :: b := by
  rw [List.mem_append, List.mem_cons, not_or, not_or]
  exact ⟨ha.notMem (by decide), by decide, hb.notMem (by decide)⟩

section

variable {a b : List Byte} (ha : AllDigits a) (hb : AllDigits b) (hane : a ≠ []) (hbne : b ≠ [])

include ha hb hane hbne

theorem readPoint_eq : readPoint (a ++ ascii '.' :: b) = some ((decimalValue (a ++ b) : ℚ) * 10 ^ (-(b.length : ℤ))) := by
  have hpoint : ascii '.' ∉ a := ha.notMem (by decide)
  simp only [readPoint, cut_append hpoint, readDigits_eq ha hane, readDigits_eq hb hbne,
    Option.bind_eq_bind, Option.bind_some]

/-- `12.34` -/
theorem readLiteral_point :
    readLiteral (a ++ ascii '.' :: b) = some ((decimalValue (a ++ b) : ℚ) * 10 ^ (-(b.length : ℤ))) := by
  rw [readLiteral, cut_eq_none (exp_notMem ha hb)]
  exact readPoint_eq ha hb hane hbne

/-- `1.234e33` -/
theorem readLiteral_point_exp (z : ℤ) : readLiteral (a ++ ascii '.' :: b ++ ascii 'e' :: decimalText z) =
    some ((decimalValue (a ++ b) : ℚ) * 10 ^ (-(b.length : ℤ)) * 10 ^ z) := by
  have hpoint : ascii '.' ∈ a ++ ascii '.' :: b := by simp
  simp only [readLiteral, cut_append (exp_notMem ha hb), readMantissa, if_pos hpoint, readPoint_eq ha hb hane hbne,
    readExponent_decimalText, Option.bind_eq_bind, Option.bind_some]

end

/-- `1e30` -/
theorem readLiteral_digits_exp {a : List Byte} (ha : AllDigits a) (hane : a ≠ []) (z : ℤ) :
    readLiteral (a ++ ascii 'e' :: decimalText z) = some ((decimalValue a : ℚ) * 10 ^ z) := by
  have hpoint : ascii '.' ∉ a := ha.notMem (by decide)
  simp only [readLiteral, cut_append (ha.notMem (show isDigit (ascii 'e') = false by decide)), readMantissa, if_neg hpoint,
    readDigits_eq ha hane, readExponent_decimalText, Option.map_some, Option.bind_eq_bind, Option.bind_some]

end TinyRpc.Core
