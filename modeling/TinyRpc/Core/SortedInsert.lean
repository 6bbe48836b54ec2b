/-
Ordered containers as lists, filled through a hint that points at their end.

An ordered container is a list in iteration order under a comparison `lt`. Insertion with an end hint first compares
with the last element and appends when that is in order; otherwise it searches from the front. Two flavours:
- unique (`insertUniqueEnd`): an element equivalent to one already present is dropped;
- equal (`insertEqualEnd`): equivalent elements are kept, the new one after the old ones.

Results, for a comparison that is asymmetric (nothing more is needed):
- `foldl_insertUniqueEnd_iff`: inserting the elements of an ordered container `v`, in order, into an ordered container
  `w` gives `v` exactly when every element of `w` is an element of `v`;
- `foldl_insertEqualEnd_iff`: the same into a container that keeps equivalent elements gives `v` exactly when `w` was
  empty.
`mem_insertUnique_iff`, `Strict.insertUnique`, `insertEqual_perm` and `Weak.insertEqual` specify one insertion by search.

`Adds` is what is left of an insertion without any order: at most one more element, and nothing but the new one.
-/
import Mathlib.Tactic
import Mathlib.Data.List.Sort

namespace TinyRpc.Core

open List

variable {α : Type} (lt : α → α → Bool)

/-! ## Insertion -/

/-- search from the front; an equivalent element stops the insertion -/
def insertUnique : List α → α → List α
  | [], x => [x]
  | y :: ys, x =>
    if lt x y then x :: y :: ys
    else if lt y x then y :: insertUnique ys x
    else y :: ys

/-- insertion of a unique element with a hint at the end -/
def insertUniqueEnd (l : List α) (x : α) : List α :=
  match l.getLast? with
  | none => [x]
  | some y => if lt y x then l ++ [x] else insertUnique lt l x

/-- search from the front for the first element greater than the new one -/
def insertEqual : List α → α → List α
  | [], x => [x]
  | y :: ys, x => if lt x y then x :: y :: ys else y :: insertEqual ys x

/-- insertion that keeps equivalent elements, with a hint at the end -/
def insertEqualEnd (l : List α) (x : α) : List α :=
  match l.getLast? with
  | none => [x]
  | some y => if lt x y then insertEqual lt l x else l ++ [x]

/-- the order of a container of unique elements -/
def Strict (l : List α) : Prop := l.Pairwise fun a b => lt a b = true

/-- the order of a container that keeps equivalent elements -/
def Weak (l : List α) : Prop := l.Pairwise fun a b => lt b a = false

instance (l : List α) : Decidable (Strict lt l) := inferInstanceAs (Decidable (l.Pairwise fun a b => lt a b = true))

instance (l : List α) : Decidable (Weak lt l) := inferInstanceAs (Decidable (l.Pairwise fun a b => lt b a = false))

/-- no two elements are each less than the other -/
def Asymm : Prop := ∀ a b, lt a b = true → lt b a = false

variable {lt}

theorem Asymm.irrefl (h : Asymm lt) (a : α) : lt a a = false := by
  cases ha : lt a a
  · rfl
  · exact absurd (h a a ha) (by rw [ha]; decide)

/-! ## Unique elements -/

theorem mem_insertUnique {l : List α} {x y : α} (h : y ∈ l) : y ∈ insertUnique lt l x := by
  induction l with
  | nil => simp at h
  | cons z l ih =>
    simp only [insertUnique]
    split_ifs
    · exact List.mem_cons_of_mem x h
    · rcases List.mem_cons.1 h with rfl | h
      · exact List.mem_cons_self
      · exact List.mem_cons_of_mem z (ih h)
    · exact h

/-- what insertion by search does to an ordered container: the element comes in unless an equivalent one is there -/
theorem mem_insertUnique_iff (htrans : ∀ a b c, lt a b = true → lt b c = true → lt a c = true) {l : List α}
    (h : Strict lt l) {x y : α} :
    y ∈ insertUnique lt l x ↔ y ∈ l ∨ (y = x ∧ ∀ z ∈ l, lt x z = true ∨ lt z x = true) := by
  induction l with
  | nil => simp [insertUnique]
  | cons z l ih =>
    obtain ⟨h1, h2⟩ := List.pairwise_cons.1 h
    simp only [insertUnique]
    split_ifs with hxz hzx
    · have hall : ∀ w ∈ z :: l, lt x w = true ∨ lt w x = true := by
        intro w hw
        rcases List.mem_cons.1 hw with rfl | hw
        · exact Or.inl hxz
        · exact Or.inl (htrans x z w hxz (h1 w hw))
      rw [List.mem_cons]
      exact ⟨fun hy => hy.elim (fun he => Or.inr ⟨he, hall⟩) Or.inl, fun hy => hy.elim Or.inr fun he => Or.inl he.1⟩
    · rw [List.mem_cons, ih h2, List.mem_cons, or_assoc, List.forall_mem_cons]
      simp [hzx]
    · simp [hxz, hzx]

theorem Strict.insertUnique (htrans : ∀ a b c, lt a b = true → lt b c = true → lt a c = true) {l : List α}
    (h : Strict lt l) (x : α) : Strict lt (insertUnique lt l x) := by
  induction l with
  | nil => exact List.pairwise_singleton _ _
  | cons z l ih =>
    obtain ⟨h1, h2⟩ := List.pairwise_cons.1 h
    simp only [Core.insertUnique]
    split_ifs with hxz hzx
    · refine List.pairwise_cons.2 ⟨?_, h⟩
      intro w hw
      rcases List.mem_cons.1 hw with rfl | hw
      · exact hxz
      · exact htrans x z w hxz (h1 w hw)
    · refine List.pairwise_cons.2 ⟨?_, ih h2⟩
      intro w hw
      rcases (mem_insertUnique_iff htrans h2).1 hw with hw | ⟨rfl, -⟩
      · exact h1 w hw
      · exact hzx
    · exact h

theorem mem_insertUniqueEnd {l : List α} {x y : α} (h : y ∈ l) : y ∈ insertUniqueEnd lt l x := by
  unfold insertUniqueEnd
  split
  · rename_i hl
    rw [List.getLast?_eq_none_iff] at hl
    subst hl; simp at h
  · split_ifs
    · exact List.mem_append_left _ h
    · exact mem_insertUnique h

/-- nothing that was in the container is lost -/
theorem mem_foldl_insertUniqueEnd {v w : List α} {y : α} (h : y ∈ w) : y ∈ v.foldl (insertUniqueEnd lt) w := by
  induction v generalizing w with
  | nil => exact h
  | cons x v ih => exact ih (mem_insertUniqueEnd h)

/-- the search passes over everything smaller -/
theorem insertUnique_append (hlt : Asymm lt) {l₁ l₂ : List α} {x : α} (h : ∀ y ∈ l₁, lt y x = true) :
    insertUnique lt (l₁ ++ l₂) x = l₁ ++ insertUnique lt l₂ x := by
  induction l₁ with
  | nil => rfl
  | cons y l₁ ih =>
    have hy := h y List.mem_cons_self
    simp only [List.cons_append, insertUnique, hlt y x hy, hy, Bool.false_eq_true, ite_false, ite_true]
    rw [ih fun z hz => h z (List.mem_cons_of_mem y hz)]

/-- an element whose equivalent is present is dropped -/
theorem insertUniqueEnd_present (hlt : Asymm lt) {l₁ l₂ : List α} {x : α} (h₁ : ∀ y ∈ l₁, lt y x = true)
    (h₂ : ∀ y ∈ l₂, lt x y = true) : insertUniqueEnd lt (l₁ ++ x :: l₂) x = l₁ ++ x :: l₂ := by
  have hlast : lt ((x :: l₂).getLast (List.cons_ne_nil x l₂)) x = false := by
    rcases List.mem_cons.1 (List.getLast_mem (List.cons_ne_nil x l₂)) with h | h
    · rw [h]; exact hlt.irrefl x
    · exact hlt _ _ (h₂ _ h)
  have hgl : (l₁ ++ x :: l₂).getLast? = some ((x :: l₂).getLast (List.cons_ne_nil x l₂)) := by
    rw [List.getLast?_append, List.getLast?_eq_some_getLast (List.cons_ne_nil x l₂)]; rfl
  simp only [insertUniqueEnd, hgl, hlast, Bool.false_eq_true, ite_false]
  rw [insertUnique_append hlt h₁]
  simp [insertUnique, hlt.irrefl x]

/-- an element between `l₁` and `l₂` goes between them -/
theorem insertUniqueEnd_between (hlt : Asymm lt) {l₁ l₂ : List α} {x : α} (h₁ : ∀ y ∈ l₁, lt y x = true)
    (h₂ : ∀ y ∈ l₂, lt x y = true) : insertUniqueEnd lt (l₁ ++ l₂) x = l₁ ++ x :: l₂ := by
  rcases l₂.eq_nil_or_concat with rfl | ⟨l₂', z, rfl⟩
  · -- nothing greater: the hint is right, or the container is empty
    rw [List.append_nil]
    unfold insertUniqueEnd
    split
    · rename_i hl
      rw [List.getLast?_eq_none_iff] at hl
      subst hl; rfl
    · rename_i y hy
      rw [if_pos (h₁ y (List.mem_of_getLast? hy))]
  · have hz : lt z x = false := hlt _ _ (h₂ z (by simp))
    have hgl : (l₁ ++ l₂'.concat z).getLast? = some z := by simp
    simp only [insertUniqueEnd, hgl, hz, Bool.false_eq_true, ite_false]
    rw [insertUnique_append hlt h₁]
    cases hl : l₂'.concat z with
    | nil => rfl
    | cons y l => simp [insertUnique, h₂ y (by rw [hl]; exact List.mem_cons_self)]

/-- the loop invariant of the fill: the part of `v` already inserted, then what `w` still adds -/
theorem foldl_insertUniqueEnd_sublist (hlt : Asymm lt) (v₁ : List α) {v₂ w : List α} (hv : Strict lt (v₁ ++ v₂))
    (hw : w <+ v₂) :
    v₂.foldl (insertUniqueEnd lt) (v₁ ++ w) = v₁ ++ v₂ := by
  induction v₂ generalizing v₁ w with
  | nil => rw [List.sublist_nil.1 hw]; rfl
  | cons x v₂ ih =>
    have hv' : Strict lt ((v₁ ++ [x]) ++ v₂) := by simpa using hv
    have h₁ : ∀ y ∈ v₁, lt y x = true := fun y hy => (List.pairwise_append.1 hv).2.2 y hy x List.mem_cons_self
    have h₂ : ∀ y ∈ v₂, lt x y = true := (List.pairwise_cons.1 (List.pairwise_append.1 hv).2.1).1
    rw [List.foldl_cons]
    cases hw with
    | cons _ hw =>
      rw [insertUniqueEnd_between hlt h₁ fun y hy => h₂ y (hw.subset hy)]
      simpa using ih (v₁ ++ [x]) hv' hw
    | cons_cons _ hw =>
      rw [insertUniqueEnd_present hlt h₁ fun y hy => h₂ y (hw.subset hy)]
      simpa using ih (v₁ ++ [x]) hv' hw

theorem Strict.sublist (hlt : Asymm lt) {v w : List α} (hv : Strict lt v) (hw : Strict lt w) (h : w ⊆ v) : w <+ v := by
  have : Std.Antisymm fun a b => lt a b = true :=
    ⟨fun a b hab hba => by rw [hlt a b hab] at hba; exact absurd hba (by decide)⟩
  have hnd : w.Nodup := hw.imp fun {a b} hab e => by
    subst e; rw [hlt.irrefl a] at hab; exact absurd hab (by decide)
  exact List.sublist_of_subperm_of_pairwise (List.subperm_of_subset hnd h) hw hv

/-- Filling a container of unique elements. Inserting `v` in order into `w` leaves `v` exactly when `w` holds nothing
but elements of `v`. -/
theorem foldl_insertUniqueEnd_iff (hlt : Asymm lt) {v w : List α} (hv : Strict lt v) (hw : Strict lt w) :
    v.foldl (insertUniqueEnd lt) w = v ↔ ∀ y ∈ w, y ∈ v := by
  constructor
  · intro h y hy
    rw [← h]; exact mem_foldl_insertUniqueEnd hy
  · intro h
    exact foldl_insertUniqueEnd_sublist hlt [] hv (hv.sublist hlt hw h)

/-! ## Equivalent elements kept -/

theorem insertEqual_perm (l : List α) (x : α) : insertEqual lt l x ~ x :: l := by
  induction l with
  | nil => exact Perm.refl _
  | cons y l ih =>
    simp only [insertEqual]
    split_ifs
    · exact Perm.refl _
    · exact (ih.cons y).trans (Perm.swap x y l)

/-- insertion keeps the order, when "not greater" is transitive -/
theorem Weak.insertEqual (hasymm : Asymm lt) (htrans : ∀ a b c, lt b a = false → lt c b = false → lt c a = false)
    {l : List α} (h : Weak lt l) (x : α) : Weak lt (insertEqual lt l x) := by
  induction l with
  | nil => exact List.pairwise_singleton _ _
  | cons y l ih =>
    obtain ⟨h1, h2⟩ := List.pairwise_cons.1 h
    simp only [Core.insertEqual]
    split_ifs with hxy
    · refine List.pairwise_cons.2 ⟨?_, h⟩
      intro z hz
      rcases List.mem_cons.1 hz with rfl | hz
      · exact hasymm _ _ hxy
      · exact htrans x y z (hasymm _ _ hxy) (h1 z hz)
    · refine List.pairwise_cons.2 ⟨?_, ih h2⟩
      intro z hz
      rcases List.mem_cons.1 ((insertEqual_perm l x).mem_iff.1 hz) with rfl | hz
      · simpa using hxy
      · exact h1 z hz

theorem length_insertEqual (l : List α) (x : α) : (insertEqual lt l x).length = l.length + 1 := by
  induction l with
  | nil => rfl
  | cons y l ih =>
    simp only [insertEqual]
    split_ifs
    · rfl
    · simp [ih]

theorem length_insertEqualEnd (l : List α) (x : α) : (insertEqualEnd lt l x).length = l.length + 1 := by
  unfold insertEqualEnd
  split
  · rename_i hl
    rw [List.getLast?_eq_none_iff] at hl
    subst hl; rfl
  · split_ifs
    · exact length_insertEqual l x
    · simp

theorem length_foldl_insertEqualEnd (lt : α → α → Bool) (v w : List α) :
    (v.foldl (insertEqualEnd lt) w).length = w.length + v.length := by
  induction v generalizing w with
  | nil => rfl
  | cons x v ih => rw [List.foldl_cons, ih, length_insertEqualEnd, List.length_cons]; omega

/-- the hint is right at every element of an ordered container -/
theorem foldl_insertEqualEnd_append (v₁ : List α) {v₂ : List α} (hv : Weak lt (v₁ ++ v₂)) :
    v₂.foldl (insertEqualEnd lt) v₁ = v₁ ++ v₂ := by
  induction v₂ generalizing v₁ with
  | nil => simp
  | cons x v₂ ih =>
    have hstep : insertEqualEnd lt v₁ x = v₁ ++ [x] := by
      unfold insertEqualEnd
      split
      · rename_i hl
        rw [List.getLast?_eq_none_iff] at hl
        subst hl; rfl
      · rename_i y hy
        have hxy := (List.pairwise_append.1 hv).2.2 y (List.mem_of_getLast? hy) x List.mem_cons_self
        simp [hxy]
    rw [List.foldl_cons, hstep]
    simpa using ih (v₁ ++ [x]) (by simpa using hv)

/-- Filling a container that keeps equivalent elements. Inserting `v` in order into `w` leaves `v` exactly when `w` was
empty. -/
theorem foldl_insertEqualEnd_iff {v w : List α} (hv : Weak lt v) : v.foldl (insertEqualEnd lt) w = v ↔ w = [] := by
  constructor
  · intro h
    have hl := length_foldl_insertEqualEnd lt v w
    rw [h] at hl
    exact List.eq_nil_of_length_eq_zero (by omega)
  · rintro rfl
    exact foldl_insertEqualEnd_append [] hv

/-! ## Insertion without an order -/

/-- at most one more element, and no element but the old ones and the new one -/
def Adds (add : List α → α → List α) : Prop := ∀ l x, (add l x).length ≤ l.length + 1 ∧ ∀ y ∈ add l x, y ∈ l ∨ y = x

theorem insertUnique_perm (l : List α) (x : α) : insertUnique lt l x = l ∨ insertUnique lt l x ~ x :: l := by
  induction l with
  | nil => exact Or.inr (Perm.refl _)
  | cons y l ih =>
    simp only [insertUnique]
    split_ifs
    · exact Or.inr (Perm.refl _)
    · rcases ih with ih | ih
      · exact Or.inl (by rw [ih])
      · exact Or.inr ((ih.cons y).trans (Perm.swap x y l))
    · exact Or.inl rfl

/-- an insertion that leaves the elements or adds the new one somewhere -/
theorem adds_of_perm {add : List α → α → List α} (h : ∀ l x, add l x = l ∨ add l x ~ x :: l) : Adds add := by
  intro l x
  rcases h l x with h | h
  · rw [h]
    exact ⟨Nat.le_succ _, fun y hy => Or.inl hy⟩
  · rw [h.length_eq]
    refine ⟨Nat.le_refl _, ?_⟩
    intro y hy
    rcases List.mem_cons.1 (h.mem_iff.1 hy) with rfl | hy
    · exact Or.inr rfl
    · exact Or.inl hy

theorem insertUniqueEnd_adds : Adds (insertUniqueEnd lt) := by
  refine adds_of_perm fun l x => ?_
  unfold insertUniqueEnd
  split
  · rename_i hl
    rw [List.getLast?_eq_none_iff] at hl
    subst hl
    exact Or.inr (Perm.refl _)
  · split_ifs
    · exact Or.inr (perm_append_singleton x l)
    · exact insertUnique_perm l x

theorem insertEqualEnd_adds : Adds (insertEqualEnd lt) := by
  refine adds_of_perm fun l x => Or.inr ?_
  unfold insertEqualEnd
  split
  · rename_i hl
    rw [List.getLast?_eq_none_iff] at hl
    subst hl
    exact Perm.refl _
  · split_ifs
    · exact insertEqual_perm l x
    · exact perm_append_singleton x l

theorem Adds.foldl {add : List α → α → List α} (h : Adds add) (as acc : List α) :
    (as.foldl add acc).length ≤ acc.length + as.length ∧ ∀ y ∈ as.foldl add acc, y ∈ acc ∨ y ∈ as := by
  induction as generalizing acc with
  | nil => exact ⟨Nat.le_refl _, fun y hy => Or.inl hy⟩
  | cons x as ih =>
    obtain ⟨hlen, hmem⟩ := ih (add acc x)
    refine ⟨?_, ?_⟩
    · have := (h acc x).1
      rw [List.foldl_cons, List.length_cons]
      omega
    · intro y hy
      rcases hmem y hy with hy | hy
      · rcases (h acc x).2 y hy with hy | rfl
        · exact Or.inl hy
        · exact Or.inr List.mem_cons_self
      · exact Or.inr (List.mem_cons_of_mem x hy)

end TinyRpc.Core
