/-
Ranges of a vector: the `n` elements from an index on (`window`) and the copy of a list over a range (`blit`).

`window_blit` reads back what was copied, `window_blit_before` is the frame rule, and `window_add` cuts a range in two, so
that a program with two indices into a vector is followed on the list of elements between them.
-/
import Mathlib.Tactic

namespace TinyRpc.Core

variable {α : Type}

/-- the `n` elements of `l` from index `i` on -/
def window (l : List α) (i n : ℕ) : List α := (l.drop i).take n

/-- `l` with the elements from index `i` on overwritten by `src` -/
def blit (l : List α) (i : ℕ) (src : List α) : List α := l.take i ++ src ++ l.drop (i + src.length)

theorem length_window {l : List α} {i n : ℕ} (h : i + n ≤ l.length) : (window l i n).length = n := by
  simp only [window, List.length_take, List.length_drop]
  omega

theorem length_blit {l src : List α} {i : ℕ} (h : i + src.length ≤ l.length) : (blit l i src).length = l.length := by
  simp only [blit, List.length_append, List.length_take, List.length_drop]
  omega

theorem window_zero (l : List α) (i : ℕ) : window l i 0 = [] := by simp [window]

/-- A range is its first `m` elements followed by the others. -/
theorem window_add (l : List α) (i m n : ℕ) : window l i (m + n) = window l i m ++ window l (i + m) n := by
  simp only [window, List.take_add, List.drop_drop]

/-- The copied range holds the source. -/
theorem window_blit {l src : List α} {i : ℕ} (h : i ≤ l.length) : window (blit l i src) i src.length = src := by
  have hi : (l.take i).length = i := by simpa using h
  rw [window, blit, List.append_assoc, List.drop_left' hi, List.take_left]

/-- A copy leaves the range before it alone. -/
theorem window_blit_before {l src : List α} {i j n : ℕ} (h : i + n ≤ j) (hj : j ≤ l.length) :
    window (blit l j src) i n = window l i n := by
  rw [window, blit, List.append_assoc, List.drop_append_of_le_length (by simp; omega),
    List.take_append_of_le_length (by simp; omega), window, List.drop_take, List.take_take, min_eq_left (by omega)]

end TinyRpc.Core
