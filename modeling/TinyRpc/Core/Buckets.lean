/-
A queue of buckets that turns: elements enter the newest bucket, and a turn drops the oldest bucket and appends an empty
one.

An element can be held by several buckets, and several times by one. Its `age` is how far the newest bucket that holds
it stands behind the newest bucket of all: pushing makes it 0 (`age_push`), a turn adds 1 (`age_turn`), and the elements
of which a turn drops the last copy are those of the greatest age (`count_leaving`).
-/
import Mathlib.Tactic

namespace TinyRpc.Core.Buckets

open List

variable {σ : Type}

/-- oldest bucket first -/
def push (q : List (List σ)) (x : σ) : List (List σ) := q.dropLast ++ [q.getLastD [] ++ [x]]

def turn (q : List (List σ)) : List (List σ) := q.tail ++ [[]]

theorem length_push {q : List (List σ)} (hq : q ≠ []) (x : σ) : (push q x).length = q.length := by
  have := length_pos_iff.2 hq
  simp only [push, length_append, length_dropLast, length_singleton]
  omega

theorem length_turn {q : List (List σ)} (hq : q ≠ []) : (turn q).length = q.length := by
  have := length_pos_iff.2 hq
  simp only [turn, length_append, length_tail, length_singleton]
  omega

variable [DecidableEq σ]

/-- the elements of which a turn drops the last copy, in the order in which the oldest bucket loses them -/
def leaving (q : List (List σ)) : List σ :=
  ((q.headD []).filter fun x => decide (∀ bucket ∈ q.tail, x ∉ bucket)).dedup

/-- the distance of the newest bucket that holds `x` from the newest bucket -/
def age (q : List (List σ)) (x : σ) : Option ℕ := q.reverse.findIdx? fun bucket => decide (x ∈ bucket)

theorem age_push {q : List (List σ)} (hq : q ≠ []) (x y : σ) : age (push q x) y = if y = x then some 0 else age q y := by
  obtain ⟨l, bucket, rfl⟩ := (eq_nil_or_concat q).resolve_left hq
  have hpush : push (l.concat bucket) x = l ++ [bucket ++ [x]] := by simp [push]
  rw [hpush, age, age, concat_eq_append, reverse_append, reverse_append, reverse_singleton, reverse_singleton,
    singleton_append, singleton_append, findIdx?_cons, findIdx?_cons]
  by_cases hyx : y = x
  · simp [hyx]
  · simp [hyx]

theorem age_lt {q : List (List σ)} {x : σ} {k : ℕ} (h : age q x = some k) : k < q.length := by
  have := (findIdx?_eq_some_iff_getElem.1 h).1
  simpa using this

theorem age_cons (oldest : List σ) (q : List (List σ)) (x : σ) :
    age (oldest :: q) x = (age q x).or (if x ∈ oldest then some q.length else none) := by
  rw [age, reverse_cons, findIdx?_append, age]
  by_cases hx : x ∈ oldest
  · simp [hx]
  · simp [hx]

theorem age_turn (q : List (List σ)) (x : σ) :
    age (turn q) x = ((age q x).filter fun k => decide (k + 1 < q.length)).map (· + 1) := by
  cases q with
  | nil => rfl
  | cons oldest q =>
    have hturn : age (turn (oldest :: q)) x = (age q x).map (· + 1) := by
      simp [turn, age, findIdx?_cons]
    rw [hturn, age_cons]
    cases hq : age q x with
    | none =>
      by_cases hx : x ∈ oldest
      · simp [hx]
      · simp [hx]
    | some k =>
      have := age_lt hq
      simp [this]

theorem age_eq_none_iff {q : List (List σ)} {x : σ} : age q x = none ↔ ∀ bucket ∈ q, x ∉ bucket := by
  simp [age, findIdx?_eq_none_iff]

theorem count_leaving {q : List (List σ)} (hq : q ≠ []) (x : σ) :
    (leaving q).count x = if age q x = some (q.length - 1) then 1 else 0 := by
  obtain ⟨oldest, q, rfl⟩ := exists_cons_of_ne_nil hq
  rw [leaving, count_dedup, age_cons]
  refine if_congr ?_ rfl rfl
  have hmem : x ∈ ((oldest :: q).headD []).filter (fun y => decide (∀ bucket ∈ (oldest :: q).tail, y ∉ bucket)) ↔
      x ∈ oldest ∧ age q x = none := by
    rw [mem_filter, decide_eq_true_eq, age_eq_none_iff]
    rfl
  rw [hmem, length_cons, Nat.add_sub_cancel]
  cases hage : age q x with
  | none => simp
  | some k =>
    have hlt : k ≠ q.length := (age_lt hage).ne
    simp [hlt]

end TinyRpc.Core.Buckets
