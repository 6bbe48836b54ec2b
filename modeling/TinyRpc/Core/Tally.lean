/-
Weighted counts over a list of parties.

`tally f l` adds up what each party of `l` weighs. A counter that several parties raise and lower is kept equal to a
tally of their program counters: when one party moves (`tally_set`) or a new one appears (`tally_concat`), the tally
changes by what that party weighs, and nothing has to be known about the others. With weights that are never negative,
the counter is never negative either, and it is zero only when nobody weighs anything (`tally_eq_zero`).
-/
import Mathlib.Tactic
import Mathlib.Algebra.BigOperators.Group.List.Basic

namespace TinyRpc.Core

open List

variable {α : Type} {f : α → ℤ} {l : List α}

def tally (f : α → ℤ) (l : List α) : ℤ := (l.map f).sum

theorem tally_cons (x : α) (l : List α) : tally f (x :: l) = f x + tally f l := by
  rw [tally, map_cons, sum_cons, tally]

theorem tally_append (l l' : List α) : tally f (l ++ l') = tally f l + tally f l' := by
  rw [tally, map_append, sum_append, tally, tally]

theorem tally_concat (l : List α) (x : α) : tally f (l ++ [x]) = tally f l + f x := by
  rw [tally_append, tally_cons]
  exact congrArg _ (add_zero _)

theorem tally_replicate (n : ℕ) (x : α) : tally f (List.replicate n x) = n * f x := by
  rw [tally, map_replicate, sum_replicate, nsmul_eq_mul]

/-- one party moves -/
theorem tally_set {k : ℕ} {x : α} (h : l[k]? = some x) (y : α) : tally f (l.set k y) = tally f l - f x + f y := by
  obtain ⟨hk, rfl⟩ := List.getElem?_eq_some_iff.1 h
  rw [tally, map_set, sum_set', dif_pos (by simpa using hk), getElem_map, tally]
  ring

/-- a party of a list with one more at its end -/
theorem concat_cases {a b : α} {k : ℕ} (h : (l ++ [a])[k]? = some b) : l[k]? = some b ∨ k = l.length ∧ b = a := by
  rw [getElem?_append] at h
  split_ifs at h with hk
  · exact Or.inl h
  · obtain ⟨hlen, rfl⟩ := List.getElem?_eq_some_iff.1 h
    simp only [length_singleton, Nat.lt_one_iff] at hlen
    refine Or.inr ⟨by omega, ?_⟩
    simp only [hlen, getElem_cons_zero]

theorem tally_nonneg (hf : ∀ x, 0 ≤ f x) (l : List α) : 0 ≤ tally f l := by
  induction l with
  | nil => exact le_rfl
  | cons x l ih =>
    rw [tally_cons]
    exact add_nonneg (hf x) ih

theorem le_tally (hf : ∀ x, 0 ≤ f x) {x : α} (hx : x ∈ l) : f x ≤ tally f l := by
  obtain ⟨l₁, l₂, rfl⟩ := append_of_mem hx
  have h1 := tally_nonneg hf l₁
  have h2 := tally_nonneg hf l₂
  rw [tally_append, tally_cons]
  omega

/-- nobody weighs anything when the tally is zero -/
theorem tally_eq_zero (hf : ∀ x, 0 ≤ f x) (h : tally f l = 0) {x : α} (hx : x ∈ l) : f x = 0 := by
  have := le_tally hf hx
  have := hf x
  omega

theorem tally_of_zero (h : ∀ x ∈ l, f x = 0) : tally f l = 0 := by
  rw [tally, map_congr_left h]
  simp

end TinyRpc.Core
