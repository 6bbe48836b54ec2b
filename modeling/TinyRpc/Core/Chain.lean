/-
Singly linked lists in a heap.

`Chain next p l` says that from the pointer `p` (none is the null pointer) the `next` fields run through the nodes `l`
and end in null. Writing the next fields of nodes that are not on the chain keeps the chain (`Chain.congr`); a node put
in front of a chain makes a longer one (`Chain.push`); and the loop that turns a list round keeps two chains, the part
already turned and the rest (`Chain.turn`).
-/
import Mathlib.Tactic

namespace TinyRpc.Core

open Function

variable {α : Type}

def Chain (next : α → Option α) : Option α → List α → Prop
  | p, [] => p = none
  | p, a :: l => p = some a ∧ Chain next (next a) l

variable {next : α → Option α} {p q : Option α} {a : α} {l m : List α}

theorem chain_null : Chain next none l ↔ l = [] := by
  cases l with
  | nil => exact ⟨fun _ => rfl, fun _ => rfl⟩
  | cons a l => simp [Chain]

theorem chain_node : Chain next (some a) l ↔ ∃ l', l = a :: l' ∧ Chain next (next a) l' := by
  cases l with
  | nil => simp [Chain]
  | cons b l =>
    constructor
    · intro h
      rcases h with ⟨hab, hl⟩
      obtain rfl := Option.some.inj hab
      exact ⟨l, rfl, hl⟩
    · intro h
      rcases h with ⟨l', hl', hl⟩
      obtain ⟨rfl, rfl⟩ := List.cons.inj hl'
      exact ⟨rfl, hl⟩

/-- only the next fields of the nodes on the chain count -/
theorem Chain.congr {next' : α → Option α} (h : Chain next p l) (hn : ∀ a ∈ l, next' a = next a) : Chain next' p l := by
  induction l generalizing p with
  | nil => exact h
  | cons b l ih =>
    refine ⟨h.1, ?_⟩
    rw [hn b List.mem_cons_self]
    exact ih h.2 fun a ha => hn a (List.mem_cons_of_mem b ha)

variable [DecidableEq α]

theorem Chain.update (h : Chain next p l) (ha : a ∉ l) : Chain (update next a q) p l := by
  refine h.congr ?_
  intro b hb
  have hba : b ≠ a := by
    intro hba
    exact ha (hba ▸ hb)
  rw [update_of_ne hba]

/-- a new node in front -/
theorem Chain.push (h : Chain next p l) (ha : a ∉ l) : Chain (Function.update next a p) (some a) (a :: l) := by
  refine ⟨rfl, ?_⟩
  rw [update_self]
  exact h.update ha

/-- one round of the loop that reverses a list in place: the first node of the rest goes in front of the turned part -/
theorem Chain.turn (hl : Chain next p l) (hm : Chain next (some a) (a :: m)) (hal : a ∉ l) (ham : a ∉ m) :
    Chain (Function.update next a p) (some a) (a :: l) ∧ Chain (Function.update next a p) (next a) m :=
  ⟨hl.push hal, hm.2.update ham⟩

end TinyRpc.Core
