/-
A registry: holders keep lists of (key, expectation), a key is held once in all, and the status of a held key meets the
expectation it is held with.

This is the shape of "every suspended party is registered in exactly one place": the holders are the queues, the keys the
parties. A key is taken out (`Registry.drop`), put somewhere (`Registry.add`), or moved with a change of its status
(`Registry.move`); a holder's whole list may change hands (`Registry.transfer`) or be permuted (`Registry.perm`).
-/
import Mathlib.Tactic

namespace TinyRpc.Core

open List Function

variable {κ α ε β : Type}

structure Registry (Meets : β → ε → Prop) (M : κ → List (α × ε)) (status : α → β) : Prop where
  nodup : ∀ k, ((M k).map Prod.fst).Nodup
  unique : ∀ k k' c, c ∈ (M k).map Prod.fst → c ∈ (M k').map Prod.fst → k = k'
  met : ∀ k, ∀ p ∈ M k, Meets (status p.1) p.2

/-- no holder has the key -/
def Unheld (M : κ → List (α × ε)) (c : α) : Prop := ∀ k, c ∉ (M k).map Prod.fst

namespace Registry

variable {Meets : β → ε → Prop} {M M' : κ → List (α × ε)} {status : α → β} {k i : κ} {c : α} {x x' : ε} {b : β}
  {l l' : List (α × ε)}

/-- a key whose status meets no expectation is held nowhere -/
theorem unheld (h : Registry Meets M status) (hc : ∀ x, ¬ Meets (status c) x) : Unheld M c := by
  intro k hk
  obtain ⟨p, hp, rfl⟩ := List.mem_map.1 hk
  exact hc p.2 (h.met k p hp)

theorem perm (h : Registry Meets M status) (hp : ∀ k, M' k ~ M k) : Registry Meets M' status where
  nodup k := ((hp k).map Prod.fst).nodup_iff.2 (h.nodup k)
  unique k k' c hc hc' := h.unique k k' c (((hp k).map Prod.fst).mem_iff.1 hc) (((hp k').map Prod.fst).mem_iff.1 hc')
  met k p hk := h.met k p ((hp k).mem_iff.1 hk)

section

variable [DecidableEq κ]

theorem drop (h : Registry Meets M status) (hk : M k = (c, x) :: l) :
    Registry Meets (update M k l) status ∧ Unheld (update M k l) c := by
  have hsub : ∀ i, (update M k l i) <+ M i := by
    intro i
    by_cases hi : i = k
    · subst hi
      rw [update_self, hk]
      exact List.sublist_cons_self _ _
    · rw [update_of_ne hi]
  have hck : c ∈ (M k).map Prod.fst := by simp [hk]
  refine ⟨⟨fun i => ((hsub i).map Prod.fst).nodup (h.nodup i), ?_, ?_⟩, ?_⟩
  · intro i j d hi hj
    exact h.unique i j d (((hsub i).map Prod.fst).subset hi) (((hsub j).map Prod.fst).subset hj)
  · intro i p hp
    exact h.met i p ((hsub i).subset hp)
  · intro i hi
    obtain rfl := h.unique i k c (((hsub i).map Prod.fst).subset hi) hck
    have hn := h.nodup i
    rw [hk, List.map_cons, List.nodup_cons] at hn
    rw [update_self] at hi
    exact hn.1 hi

/-- The whole list of one holder passes to another that has none. -/
theorem transfer {k' : κ} (h : Registry Meets M status) (hne : k ≠ k') (hk' : M k' = []) (hl : l ~ M k) :
    Registry Meets (update (update M k []) k' l) status := by
  have hfrom : ∀ i p, p ∈ update (update M k []) k' l i → (i = k' ∧ p ∈ M k) ∨ (i ≠ k ∧ i ≠ k' ∧ p ∈ M i) := by
    intro i p hp
    by_cases hi : i = k'
    · subst hi
      rw [update_self] at hp
      exact Or.inl ⟨rfl, hl.mem_iff.1 hp⟩
    · rw [update_of_ne hi] at hp
      by_cases hik : i = k
      · subst hik
        rw [update_self] at hp
        exact absurd hp List.not_mem_nil
      · rw [update_of_ne hik] at hp
        exact Or.inr ⟨hik, hi, hp⟩
  refine ⟨?_, ?_, ?_⟩
  · intro i
    by_cases hi : i = k'
    · subst hi
      rw [update_self]
      exact (hl.map Prod.fst).nodup_iff.2 (h.nodup k)
    · rw [update_of_ne hi]
      by_cases hik : i = k
      · subst hik
        simp
      · rw [update_of_ne hik]
        exact h.nodup i
  · intro i j d hi hj
    obtain ⟨p, hp, rfl⟩ := List.mem_map.1 hi
    obtain ⟨q, hq, hqp⟩ := List.mem_map.1 hj
    have hu : ∀ i j, p ∈ M i → q ∈ M j → i = j := fun i j hi hj =>
      h.unique i j p.1 (List.mem_map_of_mem hi) (hqp ▸ List.mem_map_of_mem hj)
    rcases hfrom i p hp with ⟨hik', hpk⟩ | ⟨hik, -, hpi⟩
    · rcases hfrom j q hq with ⟨hjk', -⟩ | ⟨hjk, -, hqj⟩
      · exact hik'.trans hjk'.symm
      · exact absurd (hu k j hpk hqj).symm hjk
    · rcases hfrom j q hq with ⟨-, hqk⟩ | ⟨-, -, hqj⟩
      · exact absurd (hu i k hpi hqk) hik
      · exact hu i j hpi hqj
  · intro i p hp
    rcases hfrom i p hp with ⟨-, hp⟩ | ⟨-, -, hp⟩
    · exact h.met k p hp
    · exact h.met i p hp

end

variable [DecidableEq α]

/-- the status of a key that nobody holds is free to change -/
theorem update_status (h : Registry Meets M status) (hc : Unheld M c) : Registry Meets M (update status c b) where
  nodup := h.nodup
  unique := h.unique
  met k p hp := by
    have hne : p.1 ≠ c := fun he => hc k (he ▸ List.mem_map_of_mem hp)
    rw [update_of_ne hne]
    exact h.met k p hp

variable [DecidableEq κ]

theorem add (h : Registry Meets M status) (hc : Unheld M c) (hb : Meets b x) :
    Registry Meets (update M k ((c, x) :: M k)) (update status c b) := by
  have h' := h.update_status (b := b) hc
  have hmem : ∀ i d, d ∈ (update M k ((c, x) :: M k) i).map Prod.fst → (d = c ∧ i = k) ∨ d ∈ (M i).map Prod.fst := by
    intro i d hd
    by_cases hi : i = k
    · subst hi
      rw [update_self, List.map_cons, List.mem_cons] at hd
      exact hd.imp (fun he => ⟨he, rfl⟩) id
    · rw [update_of_ne hi] at hd
      exact Or.inr hd
  refine ⟨?_, ?_, ?_⟩
  · intro i
    by_cases hi : i = k
    · subst hi
      rw [update_self, List.map_cons, List.nodup_cons]
      exact ⟨hc i, h.nodup i⟩
    · rw [update_of_ne hi]
      exact h.nodup i
  · intro i j d hi hj
    rcases hmem i d hi with ⟨rfl, rfl⟩ | hi
    · rcases hmem j d hj with ⟨-, rfl⟩ | hj
      · rfl
      · exact absurd hj (hc j)
    · rcases hmem j d hj with ⟨hdc, -⟩ | hj
      · exact absurd (hdc ▸ hi) (hc i)
      · exact h.unique i j d hi hj
  · intro i p hp
    by_cases hi : i = k
    · subst hi
      rw [update_self, List.mem_cons] at hp
      rcases hp with rfl | hp
      · rwa [update_self]
      · exact h'.met i p hp
    · rw [update_of_ne hi] at hp
      exact h'.met i p hp

/-- A key goes from one holder to another, or back to the same one, and takes a status that meets its new expectation. -/
theorem move (h : Registry Meets M status) (hk : M k = (c, x) :: l) (hb : Meets b x') :
    Registry Meets (update (update M k l) i ((c, x') :: update M k l i)) (update status c b) := by
  obtain ⟨h1, h2⟩ := h.drop hk
  exact h1.add h2 hb

/-- A key changes its status and stays where it is. -/
theorem set_status (h : Registry Meets M status) (hk : M k = (c, x) :: l) (hb : Meets b x) :
    Registry Meets M (update status c b) := by
  have hm := h.move (i := k) hk hb
  rwa [update_self, update_idem, ← hk, update_eq_self] at hm

end Registry

end TinyRpc.Core
