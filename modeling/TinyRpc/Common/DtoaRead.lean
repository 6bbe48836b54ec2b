/-
The text of a double read back (`dtoa_grisu2` in common/string.hpp).

The digits of Grisu2, the layout of Prettify, the sign and the special case of the zeros come together here. `dtoaText` is
the text that dtoa_grisu2 leaves, apart from the buffer that it is written in.

- `dtoaGrisu2_reads_back`: for every finite double, the text reads as a number that is closer to the double than to any
  other and is not so large that it rounds to an infinity.
- `dtoaGrisu2_same_text_iff`: two finite doubles have the same text if and only if they are the same number.
-/
import Mathlib.Tactic
import TinyRpc.Core.Buffer
import TinyRpc.Core.Decimal
import TinyRpc.Core.Literal
import TinyRpc.Core.BinaryFloat
import TinyRpc.Common.Grisu
import TinyRpc.Common.Dtoa

namespace TinyRpc.Common

open TinyRpc.Core

/-! ## The text -/

/-- the digits in their layout, behind the sign -/
def digitsText (fuel : ℕ) (oob : ℕ → ℕ) (value : BitVec 64) : List Byte :=
  match grisu2 fuel oob value with
  | some out => pretty out.buffer out.K
  | none => []

/-- what dtoa_grisu2 leaves in front of the NUL -/
def dtoaText (fuel : ℕ) (oob : ℕ → ℕ) (value : BitVec 64) : List Byte :=
  if Binary64.isZero value then [ascii '0', ascii '.', ascii '0']
  else if Binary64.negative value then ascii '-' :: digitsText fuel oob (Binary64.neg value)
  else digitsText fuel oob value

/-- every layout begins with a digit -/
theorem pretty_head {ds : List Byte} (hds : DigitText ds) (k : ℤ) : ∃ d ≤ 9, (pretty ds k).head? = some (digitByte d) := by
  obtain ⟨c, r, rfl⟩ := List.exists_cons_of_ne_nil hds.nonempty
  obtain ⟨d, hd, rfl⟩ := hds.digits c List.mem_cons_self
  unfold pretty
  dsimp only
  split_ifs with hint hpoint hlead hone
  · exact ⟨d, hd, rfl⟩
  · obtain ⟨n, hn⟩ : ∃ n, ((digitByte d :: r).length + k).toNat = n + 1 := Nat.exists_eq_succ_of_ne_zero (by omega)
    rw [hn]
    exact ⟨d, hd, rfl⟩
  · exact ⟨0, by decide, rfl⟩
  · exact ⟨d, hd, rfl⟩
  · exact ⟨d, hd, rfl⟩

theorem readNumber_minus (t : List Byte) : readNumber (ascii '-' :: t) = (readLiteral t).map fun x => -x :=
  if_pos rfl

theorem readNumber_pretty {ds : List Byte} (hds : DigitText ds) (k : ℤ) : readNumber (pretty ds k) = readLiteral (pretty ds k) := by
  obtain ⟨d, hd, hhead⟩ := pretty_head hds k
  rw [readNumber, if_neg]
  rw [hhead, Option.some_inj]
  intro hminus
  have hdigit := isDigit_digitByte hd
  rw [hminus] at hdigit
  exact absurd hdigit (by decide)

section

variable {fuel : ℕ} (oob : ℕ → ℕ) (buffer : Buf Byte) (maxlen : BitVec 64) {value : BitVec 64}

theorem dtoaDigits_cstring (hfuel : 64 ≤ fuel) (hfinite : Binary64.Finite value) (hzero : Binary64.isZero value = false)
    (strlen : ℕ) : ∃ b n, dtoaDigits fuel oob buffer value strlen = some (b, n) ∧
      b.CString 0 strlen (digitsText fuel oob value) ∧ ∀ j < strlen, b.mem j = buffer.mem j := by
  have hpos := Binary64.significand_pos_of_nonzero hzero
  obtain ⟨out, hrun, -, htext, hlow, hhigh⟩ := grisu2_between hfuel oob hfinite hpos
  rw [digitsText, hrun]
  refine ⟨_, _, by rw [dtoaDigits, hrun]; rfl, ⟨?_, ?_⟩, ?_⟩
  · exact prettify_text (Buf.holds_pokes buffer strlen out.buffer) htext.nonempty
      (exponent_bounded htext hfinite hpos hlow hhigh)
  · exact pretty_noNul (fun c hc => htext.ne_zero hc) out.K
  · intro j hj
    rw [prettify_below hj, Buf.mem_pokes_below hj]

theorem dtoaGrisu2_cstring (hfuel : 64 ≤ fuel) (hfinite : Binary64.Finite value) :
    ∃ b n, dtoaGrisu2 fuel oob buffer maxlen value = some (b, n) ∧ b.CString 0 0 (dtoaText fuel oob value) := by
  cases hzero : Binary64.isZero value with
  | true =>
    rw [dtoaText, hzero, if_pos rfl]
    obtain ⟨b, hrun, hstring⟩ : ∃ b, dtoaGrisu2 fuel oob buffer maxlen value = some (b, 4) ∧ _ :=
      dtoaGrisu2_zero oob buffer maxlen hzero
    exact ⟨b, 4, hrun, hstring⟩
  | false =>
    obtain ⟨hnan, hinf⟩ := Binary64.finite_iff.1 hfinite
    cases hsign : Binary64.negative value with
    | true =>
      obtain ⟨b, n, hrun, hstring, hkeep⟩ := dtoaDigits_cstring oob (buffer.poke 0 (ascii '-')) hfuel
        (Binary64.finite_neg hfinite) ((Binary64.isZero_neg value).trans hzero) 1
      have hfirst : b.mem 0 = ascii '-' := (hkeep 0 Nat.one_pos).trans (Buf.mem_poke_self _ _ _)
      rw [dtoaText, dtoaGrisu2, hnan, hinf, hzero, hsign]
      exact ⟨b, n, hrun, hstring.cons hfirst (by decide)⟩
    | false =>
      obtain ⟨b, n, hrun, hstring, -⟩ := dtoaDigits_cstring oob buffer hfuel hfinite hzero 0
      rw [dtoaText, dtoaGrisu2, hnan, hinf, hzero, hsign]
      exact ⟨b, n, hrun, hstring⟩

/-- what is returned does not depend on the buffer -/
theorem dtoaGrisu2_returned (buffer' : Buf Byte) (maxlen' : BitVec 64) :
    (dtoaGrisu2 fuel oob buffer maxlen value).map Prod.snd = (dtoaGrisu2 fuel oob buffer' maxlen' value).map Prod.snd := by
  unfold dtoaGrisu2
  split_ifs
  · rfl
  · rfl
  · rw [dtoaDigits, dtoaDigits, Option.map_map, Option.map_map]
    rfl
  · rw [dtoaDigits, dtoaDigits, Option.map_map, Option.map_map]
    rfl

/-- What is counted is the front of the text, or the text and its NUL: no byte that was in the buffer before. -/
theorem dtoaGrisu2_counted (hfuel : 64 ≤ fuel) (hfinite : Binary64.Finite value) :
    ∃ b n, dtoaGrisu2 fuel oob buffer maxlen value = some (b, n) ∧ b.read 0 n = (dtoaText fuel oob value ++ [0]).take n := by
  obtain ⟨b, n, hrun, hstring⟩ := dtoaGrisu2_cstring oob buffer maxlen hfuel hfinite
  have hle : n ≤ (dtoaText fuel oob value ++ [0]).length := by
    cases hzero : Binary64.isZero value with
    | true =>
      obtain ⟨b', hrun', hstring'⟩ := @dtoaGrisu2_zero fuel oob buffer maxlen value hzero
      obtain ⟨rfl, rfl⟩ := Prod.mk.inj (Option.some.inj (hrun.symm.trans hrun'))
      rw [hstring.unique hstring']
      decide
    | false =>
      obtain ⟨b', n', text, hrun', hstring', hlt⟩ := dtoaGrisu2_text oob buffer maxlen hfuel hfinite hzero
      obtain ⟨rfl, rfl⟩ := Prod.mk.inj (Option.some.inj (hrun.symm.trans hrun'))
      rw [hstring.unique hstring', List.length_append]
      omega
  refine ⟨b, n, hrun, ?_⟩
  have hheld := hstring.held
  obtain ⟨k, hk⟩ := Nat.exists_eq_add_of_le hle
  rw [Buf.Holds, hk, Buf.read_append] at hheld
  rw [← hheld, List.take_left' (Buf.length_read ..)]

/-! ## Reading it back -/

theorem digitsText_reads_back (hfuel : 64 ≤ fuel) (hfinite : Binary64.Finite value) (hpos : 0 < Binary64.toRat value) :
    ∃ x, readNumber (digitsText fuel oob value) = some x ∧ readLiteral (digitsText fuel oob value) = some x ∧
      Binary64.RoundsTo x value ∧ |x| < 2 ^ (1024 : ℤ) - 2 ^ (970 : ℤ) := by
  obtain ⟨out, hrun, -, htext, hlow, hhigh⟩ := grisu2_between hfuel oob hfinite (Binary64.significand_pos hpos.ne')
  have hread := readLiteral_pretty htext out.K
  rw [digitsText, hrun]
  refine ⟨_, (readNumber_pretty htext out.K).trans hread, hread, Binary64.roundsTo_of_between hpos hlow hhigh, ?_⟩
  have hnonneg : (0 : ℚ) ≤ decimalValue out.buffer * 10 ^ out.K := by positivity
  rw [abs_of_nonneg hnonneg]
  exact lt_of_lt_of_le hhigh (Binary64.upperMid_le_overflow hfinite)

theorem dtoaText_reads_back (hfuel : 64 ≤ fuel) (hfinite : Binary64.Finite value) :
    ∃ x, readNumber (dtoaText fuel oob value) = some x ∧ Binary64.RoundsTo x value ∧
      |x| < 2 ^ (1024 : ℤ) - 2 ^ (970 : ℤ) := by
  unfold dtoaText
  split_ifs with hzero hsign
  · refine ⟨0, by decide +kernel, Binary64.roundsTo_zero (Binary64.toRat_eq_zero_iff.2 hzero), ?_⟩
    rw [abs_zero, sub_pos]
    exact zpow_lt_zpow_right₀ (by norm_num) (by decide)
  · have hpos : 0 < Binary64.toRat (Binary64.neg value) := by
      refine Binary64.toRat_pos ?_ (Binary64.significand_pos_of_nonzero ?_)
      · rw [Binary64.negative_neg, hsign]
        rfl
      · rw [Binary64.isZero_neg]
        exact Bool.eq_false_of_not_eq_true hzero
    obtain ⟨x, -, hread, hround, hbound⟩ := digitsText_reads_back oob hfuel (Binary64.finite_neg hfinite) hpos
    refine ⟨-x, ?_, hround.neg, by rwa [abs_neg]⟩
    rw [readNumber_minus, hread]
    rfl
  · have hpos := Binary64.toRat_pos (Bool.eq_false_of_not_eq_true hsign)
      (Binary64.significand_pos_of_nonzero (Bool.eq_false_of_not_eq_true hzero))
    obtain ⟨x, hread, -, hround, hbound⟩ := digitsText_reads_back oob hfuel hfinite hpos
    exact ⟨x, hread, hround, hbound⟩

/-- **The text reads back as the double.** For every finite double and every buffer: dtoa_grisu2 returns and leaves a
NUL-terminated text, a literal with a minus sign or without one, and its value is closer to the double than to any other
finite one and below the midpoint from which on it would be read as an infinity. -/
theorem dtoaGrisu2_reads_back (hfuel : 64 ≤ fuel) (hfinite : Binary64.Finite value) :
    ∃ b n text x, dtoaGrisu2 fuel oob buffer maxlen value = some (b, n) ∧ b.CString 0 0 text ∧ readNumber text = some x ∧
      Binary64.RoundsTo x value ∧ |x| < 2 ^ (1024 : ℤ) - 2 ^ (970 : ℤ) := by
  obtain ⟨b, n, hrun, hstring⟩ := dtoaGrisu2_cstring oob buffer maxlen hfuel hfinite
  obtain ⟨x, hread, hround, hbound⟩ := dtoaText_reads_back oob hfuel hfinite
  exact ⟨b, n, _, x, hrun, hstring, hread, hround, hbound⟩

/-- minus a tenth -/
theorem dtoaGrisu2_reads_back_tenth : ∃ b n text x,
    dtoaGrisu2 64 (fun _ => 0) ⟨fun _ => 0xff, 0⟩ 48 0xBFB999999999999A = some (b, n) ∧ b.CString 0 0 text ∧
      readNumber text = some x ∧ Binary64.RoundsTo x 0xBFB999999999999A ∧ |x| < 2 ^ (1024 : ℤ) - 2 ^ (970 : ℤ) :=
  dtoaGrisu2_reads_back (fun _ => 0) ⟨fun _ => 0xff, 0⟩ 48 (Nat.le_refl 64) (by decide)

end

/-! ## One text for each number -/

section

variable {fuel : ℕ} (oob : ℕ → ℕ) (buffer buffer' : Buf Byte) (maxlen maxlen' : BitVec 64) {value value' : BitVec 64}

theorem dtoaText_inj (hfuel : 64 ≤ fuel) (hfinite : Binary64.Finite value) (hfinite' : Binary64.Finite value')
    (h : dtoaText fuel oob value = dtoaText fuel oob value') : Binary64.toRat value = Binary64.toRat value' := by
  obtain ⟨x, hread, hround, -⟩ := dtoaText_reads_back oob hfuel hfinite
  obtain ⟨y, hread', hround', -⟩ := dtoaText_reads_back oob hfuel hfinite'
  obtain rfl : x = y := Option.some_inj.1 (hread.symm.trans ((congrArg readNumber h).trans hread'))
  by_contra hne
  exact lt_asymm (hround value' hfinite' (Ne.symm hne)) (hround' value hfinite hne)

theorem dtoaText_congr (h : Binary64.toRat value = Binary64.toRat value') : dtoaText fuel oob value = dtoaText fuel oob value' := by
  by_cases hne : Binary64.toRat value = 0
  · -- the two zeros have one text
    have htext : ∀ {d}, Binary64.toRat d = 0 → dtoaText fuel oob d = [ascii '0', ascii '.', ascii '0'] :=
      fun hd => if_pos (Binary64.toRat_eq_zero_iff.1 hd)
    rw [htext hne, htext (h.symm.trans hne)]
  · rw [Binary64.eq_of_toRat_eq h hne]

/-- **Numbers and texts agree.** For all finite doubles and whatever buffers they are printed in, the two texts are the same
if and only if the doubles are the same number: no two numbers print alike, and the zeros are the only doubles that do. -/
theorem dtoaGrisu2_same_text_iff (hfuel : 64 ≤ fuel) (hfinite : Binary64.Finite value) (hfinite' : Binary64.Finite value') :
    ∃ b n text b' n' text', dtoaGrisu2 fuel oob buffer maxlen value = some (b, n) ∧ b.CString 0 0 text ∧
      dtoaGrisu2 fuel oob buffer' maxlen' value' = some (b', n') ∧ b'.CString 0 0 text' ∧
      (text = text' ↔ Binary64.toRat value = Binary64.toRat value') := by
  obtain ⟨b, n, hrun, hstring⟩ := dtoaGrisu2_cstring oob buffer maxlen hfuel hfinite
  obtain ⟨b', n', hrun', hstring'⟩ := dtoaGrisu2_cstring oob buffer' maxlen' hfuel hfinite'
  exact ⟨b, n, _, b', n', _, hrun, hstring, hrun', hstring', dtoaText_inj oob hfuel hfinite hfinite', dtoaText_congr oob⟩

/-- the two zeros -/
theorem dtoaGrisu2_same_text_iff_zeros : ∃ b n text b' n' text',
    dtoaGrisu2 64 (fun _ => 0) ⟨fun _ => 0, 0⟩ 48 0 = some (b, n) ∧ b.CString 0 0 text ∧
      dtoaGrisu2 64 (fun _ => 0) ⟨fun _ => 0xff, 0⟩ 48 0x8000000000000000 = some (b', n') ∧ b'.CString 0 0 text' ∧
      (text = text' ↔ Binary64.toRat 0 = Binary64.toRat 0x8000000000000000) :=
  dtoaGrisu2_same_text_iff (fun _ => 0) ⟨fun _ => 0, 0⟩ ⟨fun _ => 0xff, 0⟩ 48 48 (Nat.le_refl 64) (by decide) (by decide)

end

end TinyRpc.Common
