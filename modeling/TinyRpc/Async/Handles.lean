/-
Coroutine frames and the objects that own them (`task` in async/task.hpp, `generator` in async/generator.hpp,
`sync_wait_task` in async/sync_wait.hpp, `when_all_task` in async/when_all.hpp).

Calling a coroutine makes a frame and an object with its handle. The objects are moved, never copied, and their
destructors destroy the frame. An object lives on the stack or is a local variable or parameter of a coroutine, and then
goes with that coroutine's frame: `make_when_all_task(awaitable a)` has the task it waits for in its own. So destroying
one frame destroys all that is owned inside it, the newest object first.

The four classes differ in the assignment. `task` destroys the frame it holds before it takes the other's handle, which
may then be gone. `generator` and `sync_wait_task` drop the handle they hold, and `generator` does not ask whether it is
assigned to itself. That of `when_all_task` is deleted. A coroutine being destroyed is one that is suspended; what the
frames do otherwise is in `Task`, `WhenAll` and `SyncWait`.

Below, what a destruction takes away (`Due.unwind`): the frame, all that is owned in it, and nothing else. `Ownership` has
the moves and the runs.
-/
import Mathlib.Tactic
import TinyRpc.Core.Forest
import TinyRpc.Core.Machine

namespace TinyRpc.Async.Handles

open TinyRpc.Core Function Relation

inductive Kind
  | task
  | generator
  | sync_wait_task
  | when_all_task
  deriving DecidableEq

/-- an object; `home` is the frame that it lives in, none for the stack -/
structure Owner where
  kind : Kind
  home : Option ℕ
  coroutine_ : Option ℕ
  deriving DecidableEq

structure St where
  objects : ℕ → Option Owner
  /-- how many objects have been made; they are named in this order -/
  made : ℕ
  live : ℕ → Bool
  /-- how many frames have been made -/
  next : ℕ
  /-- a frame was destroyed that is not there, or a dead object was used -/
  misused : Bool

def init : St := { objects := fun _ => none, made := 0, live := fun _ => false, next := 0, misused := false }

namespace St

def handle (s : St) (v : ℕ) : Option ℕ := (s.objects v).bind Owner.coroutine_

def setHandle (s : St) (v : ℕ) (f : Option ℕ) : St :=
  { s with objects := update s.objects v ((s.objects v).map fun o => { o with coroutine_ := f }) }

/-- a new object -/
def add (s : St) (o : Owner) : St := { s with objects := update s.objects s.made (some o), made := s.made + 1 }

/-- the frame of a coroutine that is called, before anybody owns it -/
def newFrame (s : St) : St := { s with live := update s.live s.next true, next := s.next + 1 }

def remove (s : St) (v : ℕ) : St := { s with objects := update s.objects v none }

/-- the frames owned by the objects in `f`, the newest object first -/
def handlesIn (s : St) (f : ℕ) : List ℕ :=
  (List.range s.made).reverse.filterMap fun v =>
    (s.objects v).bind fun o => if o.home = some f then o.coroutine_ else none

/-- a frame and the objects in it are gone -/
def dropFrame (s : St) (f : ℕ) : St :=
  { s with
    live := update s.live f false
    objects := fun v => (s.objects v).filter fun o => o.home ≠ some f }

/-- The frames to be destroyed, the next one first: the destructors of the objects in a frame run before its caller goes
on. Each round destroys a frame, so there are no more than frames were made. -/
def unwind : ℕ → List ℕ → St → St
  | 0, _, s => s
  | _ + 1, [], s => s
  | n + 1, f :: fs, s =>
    if s.live f then unwind n (s.handlesIn f ++ fs) (s.dropFrame f) else unwind n fs { s with misused := true }

/-- `coroutine_.destroy()` where there is one -/
def destroyHandle (s : St) (v : ℕ) : St :=
  match s.handle v with
  | some f => unwind s.next [f] s
  | none => s

/-- `coroutine_ = std::exchange(other.coroutine_, nullptr)` -/
def exchange (s : St) (v w : ℕ) : St :=
  match s.objects v, s.objects w with
  | some _, some o => (s.setHandle w none).setHandle v o.coroutine_
  | _, _ => { s with misused := true }

/-- task::destroy -/
def destroy (s : St) (v : ℕ) : St := (s.destroyHandle v).setHandle v none

/-- the destructors -/
def destruct (s : St) (v : ℕ) : St := (s.destroyHandle v).remove v

/-- the move constructors -/
def moveConstruct (s : St) (home : Option ℕ) (w : ℕ) : St :=
  match s.objects w with
  | some o => (s.setHandle w none).add ⟨o.kind, home, o.coroutine_⟩
  | none => { s with misused := true }

/-- the move assignments -/
def moveAssign (s : St) (v w : ℕ) : Kind → St
  | .task => if w ≠ v then (s.destroyHandle v).exchange v w else s
  | .generator => (s.setHandle v (s.handle w)).setHandle w none
  | .sync_wait_task => if w ≠ v then s.exchange v w else s
  | .when_all_task => s

end St

inductive Op
  /-- the default constructor -/
  | construct (kind : Kind) (home : Option ℕ)
  /-- a coroutine is called -/
  | call (kind : Kind) (home : Option ℕ)
  | moveConstruct (home : Option ℕ) (w : ℕ)
  | moveAssign (kind : Kind) (v w : ℕ)
  | destroy (v : ℕ)
  | destruct (v : ℕ)
  deriving DecidableEq

def step (s : St) : Op → St
  | .construct kind home => s.add ⟨kind, home, none⟩
  | .call kind home => s.newFrame.add ⟨kind, home, some s.next⟩
  | .moveConstruct home w => s.moveConstruct home w
  | .moveAssign kind v w => s.moveAssign v w kind
  | .destroy v => s.destroy v
  | .destruct v => s.destruct v

/-- an object can live on the stack and in a frame that is there -/
def St.Place (s : St) (home : Option ℕ) : Prop := ∀ f ∈ home, s.live f = true

def St.IsA (s : St) (v : ℕ) (kind : Kind) : Prop := ∃ o ∈ s.objects v, o.kind = kind

/-- The operations that the classes have, on objects that are there. -/
def Offered (s : St) : Op → Prop
  | .construct kind home => (kind = .task ∨ kind = .generator) ∧ s.Place home
  | .call _ home => s.Place home
  | .moveConstruct home w => s.objects w ≠ none ∧ s.Place home
  | .moveAssign kind v w => kind ≠ .when_all_task ∧ s.IsA v kind ∧ s.IsA w kind
  | .destroy v => s.IsA v .task
  | .destruct v => s.objects v ≠ none

instance (s : St) (home : Option ℕ) : Decidable (s.Place home) := inferInstanceAs (Decidable (∀ f ∈ home, _))

instance (s : St) (v : ℕ) (kind : Kind) : Decidable (s.IsA v kind) := inferInstanceAs (Decidable (∃ o ∈ s.objects v, _))

instance Offered.decidable (s : St) : (o : Op) → Decidable (Offered s o)
  | .construct .. => inferInstanceAs (Decidable (_ ∧ _))
  | .call _ home => inferInstanceAs (Decidable (s.Place home))
  | .moveConstruct .. => inferInstanceAs (Decidable (_ ∧ _))
  | .moveAssign .. => inferInstanceAs (Decidable (_ ∧ _ ∧ _))
  | .destroy v => inferInstanceAs (Decidable (s.IsA v .task))
  | .destruct _ => inferInstanceAs (Decidable (_ ≠ _))

/-- the object `v`, in `home`, owns the frame `c` -/
def Edge (s : St) (v : ℕ) (home : Option ℕ) (c : ℕ) : Prop := ∃ o ∈ s.objects v, o.home = home ∧ o.coroutine_ = some c

/-- the owner of `c` lives in the frame `p` -/
def Owns (s : St) (p c : ℕ) : Prop := ∃ v, Edge s v (some p) c

/-- the owner of `c` lives on the stack -/
def Held (s : St) (c : ℕ) : Prop := ∃ v, Edge s v none c

/-- `x` is the frame that `v` owns, or is owned in it -/
def Tree (s : St) (v x : ℕ) : Prop := ∃ f ∈ s.handle v, ReflTransGen (Owns s) f x

def Inside (s : St) (v : ℕ) (home : Option ℕ) : Prop := ∃ p ∈ home, Tree s v p

def St.homeOf (s : St) (v : ℕ) : Option ℕ := (s.objects v).bind Owner.home

/-- Nothing was used or destroyed after its end, and every frame is owned from the stack. -/
def Sound (s : St) : Prop := s.misused = false ∧ ∀ f, s.live f = true → Rooted (Owns s) (Held s) f

/-! ## Objects -/

namespace St

variable {s : St} {v w x c : ℕ} {home f : Option ℕ} {o : Owner}

theorem handle_eq (ho : s.objects v = some o) : s.handle v = o.coroutine_ := by
  rw [handle, ho, Option.bind_some]

theorem homeOf_eq (ho : s.objects v = some o) : s.homeOf v = o.home := by
  rw [homeOf, ho, Option.bind_some]

theorem setHandle_map : (s.setHandle v f).objects v = (s.objects v).map fun o => { o with coroutine_ := f } :=
  update_self ..

theorem setHandle_self (ho : s.objects v = some o) :
    (s.setHandle v f).objects v = some { o with coroutine_ := f } := by
  rw [setHandle_map, ho, Option.map_some]

theorem setHandle_of_ne (hx : x ≠ v) : (s.setHandle v f).objects x = s.objects x := by
  show update s.objects v ((s.objects v).map fun o => { o with coroutine_ := f }) x = _
  rw [update_of_ne hx]

end St

variable {s t : St} {v w x c p : ℕ} {home f : Option ℕ} {o : Owner}

theorem edge_iff (ho : s.objects v = some o) : Edge s v home c ↔ o.home = home ∧ o.coroutine_ = some c := by
  simp [Edge, ho]

theorem not_edge (ho : s.objects v = none) : ¬ Edge s v home c := by
  simp [Edge, ho]

theorem edge_of_objects (hx : t.objects x = s.objects x) : Edge t x home c ↔ Edge s x home c := by
  rw [Edge, Edge, hx]

theorem Edge.handle (h : Edge s v home c) : s.handle v = some c ∧ s.homeOf v = home := by
  obtain ⟨o, ho, hhome, hc⟩ := h
  exact ⟨(St.handle_eq ho).trans hc, (St.homeOf_eq ho).trans hhome⟩

theorem exists_edge (hc : s.handle v = some c) : Edge s v (s.homeOf v) c := by
  obtain ⟨o, ho, hc⟩ := Option.bind_eq_some_iff.1 hc
  exact ⟨o, ho, (St.homeOf_eq ho).symm, hc⟩

/-- an edge is one of the roots or one between frames -/
theorem Edge.cases (h : Edge s v home c) : (home = none ∧ Held s c) ∨ ∃ p, home = some p ∧ Owns s p c := by
  cases home with
  | none => exact Or.inl ⟨rfl, v, h⟩
  | some p => exact Or.inr ⟨p, rfl, v, h⟩

theorem Rooted.owned (h : Rooted (Owns s) (Held s) c) : ∃ v home, Edge s v home c := by
  obtain ⟨r, ⟨v, hv⟩, hpath⟩ := h
  cases hpath with
  | refl => exact ⟨v, none, hv⟩
  | tail _ hlast =>
    obtain ⟨w, hw⟩ := hlast
    exact ⟨w, _, hw⟩

theorem Rooted.of_edge (h : Edge t v home c) (hhome : ∀ p ∈ home, Rooted (Owns t) (Held t) p) :
    Rooted (Owns t) (Held t) c := by
  rcases h.cases with ⟨-, hheld⟩ | ⟨p, hp, howns⟩
  · exact ⟨c, hheld, .refl⟩
  · exact (hhome p hp).child howns

theorem Rooted.of_edges (he : ∀ v home c, Edge s v home c → Edge t v home c) (h : Rooted (Owns s) (Held s) c) :
    Rooted (Owns t) (Held t) c := by
  obtain ⟨r, ⟨v, hv⟩, hpath⟩ := h
  refine ⟨r, ⟨v, he _ _ _ hv⟩, ReflTransGen.mono ?_ _ _ hpath⟩
  rintro a b ⟨w, hw⟩
  exact ⟨w, he _ _ _ hw⟩

/-! ## The invariant -/

structure Inv (s : St) : Prop where
  objects_made : ∀ v, s.made ≤ v → s.objects v = none
  frames_made : ∀ f, s.next ≤ f → s.live f = false
  edge_live : ∀ v home c, Edge s v home c → s.live c = true
  home_live : ∀ v, ∀ o ∈ s.objects v, s.Place o.home
  unique : ∀ v w home home' c, Edge s v home c → Edge s w home' c → v = w

theorem Inv.forest (h : Inv s) : Forest (Owns s) (Held s) where
  unique a b c ha hb := by
    obtain ⟨v, hv⟩ := ha
    obtain ⟨w, hw⟩ := hb
    obtain rfl := h.unique _ _ _ _ _ hv hw
    exact Option.some_inj.1 (hv.handle.2.symm.trans hw.handle.2)
  root a c hc ha := by
    obtain ⟨v, hv⟩ := hc
    obtain ⟨w, hw⟩ := ha
    obtain rfl := h.unique _ _ _ _ _ hv hw
    cases hv.handle.2.symm.trans hw.handle.2

theorem init_inv : Inv init where
  objects_made _ _ := rfl
  frames_made _ _ := rfl
  edge_live v home c h := absurd h (not_edge rfl)
  home_live v o ho := by cases ho
  unique v w home home' c h := absurd h (not_edge rfl)

theorem init_sound : Sound init := ⟨rfl, fun _ hf => by cases hf⟩

theorem Inv.objects_next (h : Inv s) : s.objects s.made = none := h.objects_made s.made le_rfl

theorem edge_add (h : Inv s) :
    Edge (s.add o) x home c ↔ (x = s.made ∧ o.home = home ∧ o.coroutine_ = some c) ∨ Edge s x home c := by
  by_cases hx : x = s.made
  · subst hx
    rw [edge_iff (o := o) (update_self ..)]
    simp [not_edge h.objects_next]
  · rw [edge_of_objects (s := s) (update_of_ne hx ..)]
    simp [hx]

theorem Inv.add (h : Inv s) (hhome : s.Place o.home) (hlive : ∀ c ∈ o.coroutine_, s.live c = true)
    (hnew : ∀ c ∈ o.coroutine_, ∀ v home, ¬ Edge s v home c) : Inv (s.add o) where
  objects_made v hv := by
    show update s.objects s.made (some o) v = none
    have hv : s.made + 1 ≤ v := hv
    rw [update_of_ne (by omega)]
    exact h.objects_made v (by omega)
  frames_made := h.frames_made
  edge_live v home c hc := by
    rcases (edge_add h).1 hc with ⟨-, -, hc⟩ | hc
    · exact hlive c hc
    · exact h.edge_live v home c hc
  home_live v p hp := by
    by_cases hv : v = s.made
    · subst hv
      have hp : p ∈ update s.objects s.made (some o) s.made := hp
      rw [update_self, Option.mem_some_iff] at hp
      subst hp
      exact hhome
    · have hp : p ∈ update s.objects s.made (some o) v := hp
      rw [update_of_ne hv] at hp
      exact h.home_live v p hp
  unique v w home home' c hv hw := by
    rcases (edge_add h).1 hv with ⟨rfl, -, hc⟩ | hv
    · rcases (edge_add h).1 hw with ⟨rfl, -, -⟩ | hw
      · rfl
      · exact absurd hw (hnew c hc w home')
    · rcases (edge_add h).1 hw with ⟨-, -, hc⟩ | hw
      · exact absurd hv (hnew c hc v home)
      · exact h.unique v w home home' c hv hw

theorem Sound.add (hs : Sound s) (h : Inv s) : Sound (s.add o) := by
  refine ⟨hs.1, ?_⟩
  intro f hf
  exact Rooted.of_edges (fun v home c hc => (edge_add h).2 (Or.inr hc)) (hs.2 f hf)

theorem St.newFrame_live (hc : s.live c = true) : s.newFrame.live c = true := by
  show update s.live s.next true c = true
  by_cases hnext : c = s.next
  · subst hnext
    rw [update_self]
  · rwa [update_of_ne hnext]

theorem Inv.newFrame (h : Inv s) : Inv s.newFrame where
  objects_made := h.objects_made
  frames_made f hf := by
    show update s.live s.next true f = false
    have hf : s.next + 1 ≤ f := hf
    rw [update_of_ne (by omega)]
    exact h.frames_made f (by omega)
  edge_live v home c hc := St.newFrame_live (h.edge_live v home c hc)
  home_live v o ho p hp := St.newFrame_live (h.home_live v o ho p hp)
  unique := h.unique

theorem edge_remove (hv : s.handle v = none) : Edge (s.remove v) x home c ↔ Edge s x home c := by
  by_cases hx : x = v
  · subst hx
    refine ⟨fun h => absurd h (not_edge (update_self ..)), ?_⟩
    intro h
    rw [h.handle.1] at hv
    cases hv
  · exact edge_of_objects (update_of_ne hx ..)

theorem Inv.remove (h : Inv s) (hv : s.handle v = none) : Inv (s.remove v) where
  objects_made w hw := by
    show update s.objects v none w = none
    by_cases hwv : w = v
    · subst hwv
      rw [update_self]
    · rw [update_of_ne hwv]
      exact h.objects_made w hw
  frames_made := h.frames_made
  edge_live w home c hc := h.edge_live w home c ((edge_remove hv).1 hc)
  home_live w o ho := by
    have ho : o ∈ update s.objects v none w := ho
    by_cases hwv : w = v
    · subst hwv
      rw [update_self] at ho
      cases ho
    · rw [update_of_ne hwv] at ho
      exact h.home_live w o ho
  unique a b p q c ha hb := h.unique a b p q c ((edge_remove hv).1 ha) ((edge_remove hv).1 hb)

theorem Sound.remove (hs : Sound s) (hv : s.handle v = none) : Sound (s.remove v) :=
  ⟨hs.1, fun f hf => Rooted.of_edges (fun _ _ _ hc => (edge_remove hv).2 hc) (hs.2 f hf)⟩

/-! ## The destruction of a frame -/

def Below (s : St) (fs : List ℕ) (x : ℕ) : Prop := ∃ q ∈ fs, ReflTransGen (Owns s) q x

/-- the frames `fs` can be destroyed: their owners are not in them, and what is owned in them is there -/
structure Due (s : St) (fs : List ℕ) : Prop where
  nodup : fs.Nodup
  live : ∀ f ∈ fs, s.live f = true
  objects_made : ∀ v, s.made ≤ v → s.objects v = none
  frames_made : ∀ f, s.next ≤ f → s.live f = false
  unique : ∀ v w home home' c, Edge s v home c → Edge s w home' c → v = w
  outside : ∀ v home c, Edge s v home c → c ∈ fs → ∀ p ∈ home, ¬ Below s fs p
  inside : ∀ p c, Owns s p c → Below s fs p → s.live c = true

/-- the frames `gone` and the objects in them are missing in `t` -/
structure Without (s t : St) (gone : ℕ → Prop) : Prop where
  made : t.made = s.made
  next : t.next = s.next
  misused : t.misused = s.misused
  live : ∀ x, t.live x = true ↔ s.live x = true ∧ ¬ gone x
  objects : ∀ v o, t.objects v = some o ↔ s.objects v = some o ∧ ∀ p ∈ o.home, ¬ gone p

theorem Without.refl (s : St) : Without s s fun _ => False where
  made := rfl
  next := rfl
  misused := rfl
  live _ := by simp
  objects _ _ := by simp

theorem Without.trans {t u : St} {gone gone' all : ℕ → Prop} (h : Without s t gone) (h' : Without t u gone')
    (hall : ∀ x, all x ↔ gone x ∨ gone' x) : Without s u all where
  made := h'.made.trans h.made
  next := h'.next.trans h.next
  misused := h'.misused.trans h.misused
  live x := by
    rw [h'.live, h.live, hall]
    tauto
  objects v o := by
    rw [h'.objects, h.objects, and_assoc, ← forall₂_and]
    simp only [hall, not_or]

theorem Without.congr {gone all : ℕ → Prop} (h : Without s t gone) (hall : ∀ x, all x ↔ gone x) : Without s t all := by
  rwa [show all = gone from funext fun x => propext (hall x)]

theorem Without.edge {gone : ℕ → Prop} (h : Without s t gone) :
    Edge t v home c ↔ Edge s v home c ∧ ∀ p ∈ home, ¬ gone p := by
  constructor
  · rintro ⟨o, ho, rfl, hc⟩
    obtain ⟨ho, hp⟩ := (h.objects v o).1 ho
    exact ⟨⟨o, ho, rfl, hc⟩, hp⟩
  · rintro ⟨⟨o, ho, rfl, hc⟩, hp⟩
    exact ⟨o, (h.objects v o).2 ⟨ho, hp⟩, rfl, hc⟩

theorem dropFrame_without (s : St) (f : ℕ) : Without s (s.dropFrame f) (· = f) where
  made := rfl
  next := rfl
  misused := rfl
  live x := by
    show update s.live f false x = true ↔ _
    by_cases hx : x = f
    · subst hx
      simp
    · simp [hx]
  objects v o := by
    show (s.objects v).filter (fun o => decide (o.home ≠ some f)) = some o ↔ _
    rw [Option.filter_eq_some_iff, decide_eq_true_eq]
    refine and_congr_right fun _ => ?_
    cases o.home with
    | none => simp
    | some p => simp

theorem mem_handlesIn (hmade : ∀ v, s.made ≤ v → s.objects v = none) {f : ℕ} : c ∈ s.handlesIn f ↔ Owns s f c := by
  unfold St.handlesIn Owns Edge
  rw [List.mem_filterMap]
  refine exists_congr fun v => ?_
  rw [List.mem_reverse, List.mem_range, Option.bind_eq_some_iff]
  constructor
  · rintro ⟨-, o, ho, hc⟩
    by_cases hhome : o.home = some f
    · rw [if_pos hhome] at hc
      exact ⟨o, ho, hhome, hc⟩
    · rw [if_neg hhome] at hc
      cases hc
  · rintro ⟨o, ho, hhome, hc⟩
    refine ⟨?_, o, ho, by rw [if_pos hhome, hc]⟩
    by_contra hv
    rw [hmade v (by omega)] at ho
    cases ho

theorem Due.handlesIn_nodup {fs : List ℕ} (h : Due s fs) (f : ℕ) : (s.handlesIn f).Nodup := by
  unfold St.handlesIn
  refine List.Nodup.filterMap ?_ (List.nodup_reverse.2 List.nodup_range)
  have hedge : ∀ v c, ((s.objects v).bind fun o => if o.home = some f then o.coroutine_ else none) = some c →
      Edge s v (some f) c := by
    intro v c hv
    obtain ⟨o, ho, hc⟩ := Option.bind_eq_some_iff.1 hv
    by_cases hhome : o.home = some f
    · rw [if_pos hhome] at hc
      exact ⟨o, ho, hhome, hc⟩
    · rw [if_neg hhome] at hc
      cases hc
  intro v w c hv hw
  exact h.unique v w _ _ c (hedge v c hv) (hedge w c hw)

/-- What is to go is the first frame and what is to go after it is destroyed. -/
theorem below_cons {f : ℕ} {fs : List ℕ} (hmade : ∀ v, s.made ≤ v → s.objects v = none) :
    Below s (f :: fs) x ↔ x = f ∨ Below (s.dropFrame f) (s.handlesIn f ++ fs) x := by
  have hdrop := dropFrame_without s f
  constructor
  · rintro ⟨q, hq, hpath⟩
    induction hpath with
    | refl =>
      rcases List.mem_cons.1 hq with rfl | hq
      · exact Or.inl rfl
      · exact Or.inr ⟨q, List.mem_append_right _ hq, .refl⟩
    | @tail b c _ hbc ih =>
      by_cases hb : b = f
      · subst hb
        exact Or.inr ⟨c, List.mem_append_left _ ((mem_handlesIn hmade).2 hbc), .refl⟩
      · obtain ⟨q', hq', hpath⟩ := ih.resolve_left hb
        obtain ⟨v, hv⟩ := hbc
        refine Or.inr ⟨q', hq', hpath.tail ⟨v, hdrop.edge.2 ⟨hv, ?_⟩⟩⟩
        rintro p ⟨⟩
        exact hb
  · rintro (rfl | ⟨q, hq, hpath⟩)
    · exact ⟨x, List.mem_cons_self .., .refl⟩
    · have hpath : ReflTransGen (Owns s) q x := by
        refine ReflTransGen.mono ?_ _ _ hpath
        rintro a b ⟨v, hv⟩
        exact ⟨v, (hdrop.edge.1 hv).1⟩
      rcases List.mem_append.1 hq with hq | hq
      · exact ⟨f, List.mem_cons_self .., hpath.head ((mem_handlesIn hmade).1 hq)⟩
      · exact ⟨q, List.mem_cons_of_mem _ hq, hpath⟩

theorem Due.dropFrame {f : ℕ} {fs : List ℕ} (h : Due s (f :: fs)) : Due (s.dropFrame f) (s.handlesIn f ++ fs) := by
  have hdrop := dropFrame_without s f
  have hbelow : ∀ x, Below (s.dropFrame f) (s.handlesIn f ++ fs) x → Below s (f :: fs) x :=
    fun x hx => (below_cons h.objects_made).2 (Or.inr hx)
  have hself : Below s (f :: fs) f := ⟨f, List.mem_cons_self .., .refl⟩
  have houtside : ∀ p c, Owns s p c → c ∈ f :: fs → ¬ Below s (f :: fs) p := by
    rintro p c ⟨v, hv⟩ hc
    exact h.outside v _ c hv hc p rfl
  have hne : ∀ p c, Owns s p c → Below s (f :: fs) p → c ≠ f := by
    rintro p c hpc hp rfl
    exact houtside p c hpc (List.mem_cons_self ..) hp
  obtain ⟨hfs, hnodup⟩ := List.nodup_cons.1 h.nodup
  constructor
  · refine List.nodup_append.2 ⟨h.handlesIn_nodup f, hnodup, ?_⟩
    rintro a ha b hb rfl
    exact houtside f a ((mem_handlesIn h.objects_made).1 ha) (List.mem_cons_of_mem _ hb) hself
  · intro c hc
    rw [hdrop.live]
    rcases List.mem_append.1 hc with hhandle | hrest
    · have hfc := (mem_handlesIn h.objects_made).1 hhandle
      exact ⟨h.inside f c hfc hself, hne f c hfc hself⟩
    · refine ⟨h.live c (List.mem_cons_of_mem _ hrest), ?_⟩
      rintro rfl
      exact hfs hrest
  · intro v hv
    show (s.objects v).filter _ = none
    rw [h.objects_made v hv, Option.filter_none]
  · intro x hx
    show update s.live f false x = false
    by_cases hxf : x = f
    · rw [hxf, update_self]
    · rw [update_of_ne hxf]
      exact h.frames_made x hx
  · intro v w home home' c hv hw
    exact h.unique v w home home' c (hdrop.edge.1 hv).1 (hdrop.edge.1 hw).1
  · intro v home c hv hc p hp hbelow'
    obtain ⟨hv, hhome⟩ := hdrop.edge.1 hv
    rcases List.mem_append.1 hc with hc | hc
    · obtain ⟨w, hw⟩ := (mem_handlesIn h.objects_made).1 hc
      obtain rfl := h.unique _ _ _ _ _ hv hw
      exact hhome f (hv.handle.2.symm.trans hw.handle.2) rfl
    · exact h.outside v home c hv (List.mem_cons_of_mem _ hc) p hp (hbelow p hbelow')
  · rintro p c ⟨v, hv⟩ hp
    have hpc : Owns s p c := ⟨v, (hdrop.edge.1 hv).1⟩
    rw [hdrop.live]
    exact ⟨h.inside p c hpc (hbelow p hp), hne p c hpc (hbelow p hp)⟩

def St.liveFrames (s : St) : Finset ℕ := (Finset.range s.next).filter fun f => s.live f = true

theorem Due.mem_liveFrames {fs : List ℕ} (h : Due s fs) : x ∈ s.liveFrames ↔ s.live x = true := by
  rw [St.liveFrames, Finset.mem_filter, Finset.mem_range, and_iff_right_iff_imp]
  intro hx
  by_contra hnext
  rw [h.frames_made x (by omega)] at hx
  cases hx

theorem Due.card_dropFrame {f : ℕ} {fs : List ℕ} (h : Due s (f :: fs)) :
    (s.dropFrame f).liveFrames.card + 1 = s.liveFrames.card := by
  have herase : (s.dropFrame f).liveFrames = s.liveFrames.erase f := by
    ext x
    rw [h.dropFrame.mem_liveFrames, Finset.mem_erase, h.mem_liveFrames, (dropFrame_without s f).live, and_comm]
  rw [herase]
  exact Finset.card_erase_add_one (h.mem_liveFrames.2 (h.live f (List.mem_cons_self ..)))

/-- The destructors come to an end, each frame below is destroyed once, and nothing else is. -/
theorem Due.unwind {n : ℕ} {fs : List ℕ} (h : Due s fs) (hn : s.liveFrames.card ≤ n) :
    Without s (St.unwind n fs s) (Below s fs) := by
  induction n generalizing s fs with
  | zero =>
    cases fs with
    | nil => exact (Without.refl s).congr fun x => by simp [Below]
    | cons f fs =>
      have hf := h.mem_liveFrames.2 (h.live f (List.mem_cons_self ..))
      exact absurd (Finset.card_pos.2 ⟨f, hf⟩) (by omega)
  | succ n ih =>
    cases fs with
    | nil => exact (Without.refl s).congr fun x => by simp [Below]
    | cons f fs =>
      rw [St.unwind, if_pos (h.live f (List.mem_cons_self ..))]
      have hcard := h.card_dropFrame
      exact (dropFrame_without s f).trans (ih h.dropFrame (by omega)) fun x => below_cons h.objects_made

/-- What an object owns can be destroyed. -/
theorem Inv.due (h : Inv s) (hs : Sound s) (hv : Edge s v home c) : Due s [c] where
  nodup := List.nodup_singleton c
  live f hf := by
    rw [List.mem_singleton.1 hf]
    exact h.edge_live v home c hv
  objects_made := h.objects_made
  frames_made := h.frames_made
  unique := h.unique
  outside w home' c' hw hc' p hp hbelow := by
    obtain rfl := List.mem_singleton.1 hc'
    obtain ⟨q, hq, hpath⟩ := hbelow
    obtain rfl := List.mem_singleton.1 hq
    obtain rfl : home' = some p := hp
    exact h.forest.not_below (hs.2 q (h.edge_live v home q hv)) ⟨w, hw⟩ hpath
  inside p c' hpc _ := by
    obtain ⟨w, hw⟩ := hpc
    exact h.edge_live w _ c' hw

theorem destroyHandle_without (h : Inv s) (hs : Sound s) (v : ℕ) : Without s (s.destroyHandle v) (Tree s v) := by
  unfold St.destroyHandle
  cases hv : s.handle v with
  | none => exact (Without.refl s).congr fun x => by simp [Tree, hv]
  | some f =>
    have hcard : s.liveFrames.card ≤ s.next :=
      (Finset.card_filter_le _ _).trans (Finset.card_range s.next).le
    exact ((h.due hs (exists_edge hv)).unwind hcard).congr fun x => by simp [Tree, Below, hv]

end TinyRpc.Async.Handles
