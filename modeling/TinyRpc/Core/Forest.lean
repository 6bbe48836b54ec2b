/-
Forests of nodes that are made, moved and cut: `E p c` says that `p` is the parent of `c`, and `R` marks the roots.

A node is `Rooted` when a path leads to it from a root. In a forest a rooted node is on no cycle (`Forest.acyclic`). A
change that takes away the subtree of a node, or cuts only the edge into it, keeps every other node rooted
(`Rooted.outside`); what hangs below a node that is rooted again is rooted again (`Rooted.below`).
-/
import Mathlib.Logic.Relation
import Mathlib.Tactic

namespace TinyRpc.Core

open Relation

variable {α : Type*} {E E' : α → α → Prop} {R R' : α → Prop} {f g p x : α}

/-- a node has one parent, or is a root, or neither -/
structure Forest (E : α → α → Prop) (R : α → Prop) : Prop where
  unique : ∀ a b c, E a c → E b c → a = b
  root : ∀ a c, R c → ¬ E a c

def Rooted (E : α → α → Prop) (R : α → Prop) (x : α) : Prop := ∃ r, R r ∧ ReflTransGen E r x

theorem Rooted.child (h : Rooted E R p) (he : E p x) : Rooted E R x := by
  obtain ⟨r, hr, hpath⟩ := h
  exact ⟨r, hr, hpath.tail he⟩

theorem Forest.acyclic (h : Forest E R) (hx : Rooted E R x) : ¬ TransGen E x x := by
  obtain ⟨r, hr, hpath⟩ := hx
  induction hpath with
  | refl =>
    intro hcycle
    obtain ⟨p, -, hp⟩ := TransGen.tail'_iff.1 hcycle
    exact h.root p r hr hp
  | tail _ hbc ih =>
    intro hcycle
    obtain ⟨p, hcp, hpc⟩ := TransGen.tail'_iff.1 hcycle
    obtain rfl := h.unique _ _ _ hpc hbc
    exact ih (TransGen.head' hbc hcp)

/-- the parent of a rooted node is not below it -/
theorem Forest.not_below (h : Forest E R) (hx : Rooted E R x) (hp : E p x) : ¬ ReflTransGen E x p :=
  fun hxp => h.acyclic hx (TransGen.tail' hxp hp)

theorem Rooted.outside (h : Rooted E R x) (hx : ¬ ReflTransGen E g x) (hR : ∀ r, R r → ¬ ReflTransGen E g r → R' r)
    (hE : ∀ a b, E a b → ¬ ReflTransGen E g b → E' a b) : Rooted E' R' x := by
  obtain ⟨r, hr, hpath⟩ := h
  induction hpath with
  | refl => exact ⟨r, hR r hr hx, .refl⟩
  | tail _ hbc ih => exact (ih fun hb => hx (hb.tail hbc)).child (hE _ _ hbc hx)

theorem Rooted.below (hg : Rooted E' R' g) (hx : ReflTransGen E g x) (hE : ∀ a b, E a b → b ≠ g → E' a b) :
    Rooted E' R' x := by
  induction hx with
  | refl => exact hg
  | @tail b c _ hbc ih =>
    by_cases hc : c = g
    · exact hc ▸ hg
    · exact ih.child (hE b c hbc hc)

end TinyRpc.Core
