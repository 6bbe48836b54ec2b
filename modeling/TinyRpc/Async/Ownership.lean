/-
When the frames of coroutines are owned, over whole runs of the operations in `Handles`.

A move takes a frame from one object to another, and an assignment also ends what the object assigned to owned, or should.
Three things go wrong: `task` destroys its frame and then reads the handle of a task that was in it; `generator` and
`sync_wait_task` leave the frame they had to nobody; and an owner moved into the frame that it owns keeps that for ever.

`ownership_iff`: in every run, no frame is destroyed twice, no dead object is used and every frame is owned from the
stack, exactly as long as every move and assignment is `Careful`.
-/
import Mathlib.Tactic
import TinyRpc.Async.Handles

namespace TinyRpc.Async.Handles

open TinyRpc.Core Function Relation

variable {s t : St} {v w x c p : ℕ} {home f : Option ℕ} {o : Owner}

/-! ## Moves -/

theorem handle_iff_edge {f : ℕ} : s.handle v = some f ↔ ∃ home, Edge s v home f :=
  ⟨fun hf => ⟨_, exists_edge hf⟩, fun ⟨_, h⟩ => h.handle.1⟩

theorem Tree.mono (he : ∀ v home c, Edge s v home c → Edge t v home c) (h : Tree s v x) : Tree t v x := by
  obtain ⟨f, hf, hpath⟩ := h
  refine ⟨f, handle_iff_edge.2 ⟨_, he _ _ _ (exists_edge hf)⟩, ReflTransGen.mono ?_ _ _ hpath⟩
  rintro a b ⟨w, hw⟩
  exact ⟨w, he _ _ _ hw⟩

/-- The owner of a frame in the tree of `v` is `v`, or lives in the tree. -/
theorem Inv.tree_edge (h : Inv s) (hc : Edge s w home c) (htree : Tree s v c) : w = v ∨ ∃ p ∈ home, Tree s v p := by
  obtain ⟨f, hf, hpath⟩ := htree
  cases hpath with
  | refl => exact Or.inl (h.unique _ _ _ _ _ hc (exists_edge hf))
  | @tail b _ hb hbc =>
    obtain ⟨u, hu⟩ := hbc
    obtain rfl := h.unique _ _ _ _ _ hc hu
    exact Or.inr ⟨b, hc.handle.2.symm.trans hu.handle.2, f, hf, hb⟩

/-- What is not in the tree of `v` stays owned where the rest keeps its edges. -/
theorem Rooted.keep (hx : Rooted (Owns s) (Held s) x) (htree : ¬ Tree s v x)
    (he : ∀ w home c, Edge s w home c → ¬ Tree s v c → Edge t w home c) : Rooted (Owns t) (Held t) x := by
  cases hv : s.handle v with
  | none =>
    refine Rooted.of_edges (fun w home c hc => he w home c hc ?_) hx
    rintro ⟨f, hf, -⟩
    cases hv.symm.trans hf
  | some g =>
    have hg : ∀ y, Tree s v y ↔ ReflTransGen (Owns s) g y := by simp [Tree, hv]
    refine hx.outside (g := g) (fun h => htree ((hg x).2 h)) ?_ ?_
    · rintro r ⟨w, hw⟩ hr
      exact ⟨w, he w none r hw fun h => hr ((hg r).1 h)⟩
    · rintro a b ⟨w, hw⟩ hb
      exact ⟨w, he w (some a) b hw fun h => hb ((hg b).1 h)⟩

/-! ### Destruction -/

theorem edge_setHandle_none : Edge (s.setHandle v none) x home c ↔ x ≠ v ∧ Edge s x home c := by
  by_cases hx : x = v
  · subst hx
    cases hv : s.objects x with
    | none =>
      refine ⟨fun h => absurd h (not_edge ?_), fun h => absurd rfl h.1⟩
      rw [St.setHandle_map, hv, Option.map_none]
    | some o => simp [edge_iff (St.setHandle_self hv)]
  · simp [edge_of_objects (St.setHandle_of_ne hx), hx]

theorem edge_destroy (h : Inv s) (hs : Sound s) :
    Edge (s.destroy v) x home c ↔ Edge s x home c ∧ ¬ Tree s v c := by
  rw [St.destroy, edge_setHandle_none, (destroyHandle_without h hs v).edge]
  constructor
  · rintro ⟨hx, hc, hhome⟩
    refine ⟨hc, fun htree => ?_⟩
    rcases h.tree_edge hc htree with hxv | ⟨p, hp, hptree⟩
    · exact hx hxv
    · exact hhome p hp hptree
  · rintro ⟨hc, htree⟩
    refine ⟨?_, hc, ?_⟩
    · rintro rfl
      exact htree ⟨c, hc.handle.1, .refl⟩
    · rintro p rfl ⟨f, hf, hpath⟩
      exact htree ⟨f, hf, hpath.tail ⟨x, hc⟩⟩

theorem Inv.destroy (h : Inv s) (hs : Sound s) (v : ℕ) : Inv (s.destroy v) := by
  have hw := destroyHandle_without h hs v
  have hmade : (s.destroy v).made = s.made := hw.made
  have hnext : (s.destroy v).next = s.next := hw.next
  have hlive : ∀ x, (s.destroy v).live x = true ↔ s.live x = true ∧ ¬ Tree s v x := hw.live
  constructor
  · intro x hx
    rw [hmade] at hx
    have hnone : (s.destroyHandle v).objects x = none := by
      by_contra hsome
      obtain ⟨o, ho⟩ := Option.ne_none_iff_exists'.1 hsome
      cases (h.objects_made x hx).symm.trans ((hw.objects x o).1 ho).1
    by_cases hxv : x = v
    · subst hxv
      rw [St.destroy, St.setHandle_map, hnone, Option.map_none]
    · rw [St.destroy, St.setHandle_of_ne hxv, hnone]
  · intro x hx
    rw [hnext] at hx
    rw [← Bool.not_eq_true, hlive, h.frames_made x hx]
    simp
  · intro x home c hc
    rw [edge_destroy h hs] at hc
    exact (hlive c).2 ⟨h.edge_live x home c hc.1, hc.2⟩
  · intro x o ho p hp
    have hold : ∃ o', (s.destroyHandle v).objects x = some o' ∧ o'.home = o.home := by
      by_cases hxv : x = v
      · subst hxv
        rw [St.destroy, St.setHandle_map, Option.mem_def, Option.map_eq_some_iff] at ho
        obtain ⟨o', ho', rfl⟩ := ho
        exact ⟨o', ho', rfl⟩
      · rw [St.destroy, St.setHandle_of_ne hxv] at ho
        exact ⟨o, ho, rfl⟩
    obtain ⟨o', ho', hhome⟩ := hold
    obtain ⟨ho', hout⟩ := (hw.objects x o').1 ho'
    rw [← hhome] at hp
    exact (hlive p).2 ⟨h.home_live x o' ho' p hp, hout p hp⟩
  · intro a b home home' c ha hb
    exact h.unique a b home home' c ((edge_destroy h hs).1 ha).1 ((edge_destroy h hs).1 hb).1

theorem Sound.destroy (hs : Sound s) (h : Inv s) (v : ℕ) : Sound (s.destroy v) := by
  have hw := destroyHandle_without h hs v
  refine ⟨hw.misused.trans hs.1, ?_⟩
  intro x hx
  obtain ⟨hlive, htree⟩ := (hw.live x).1 hx
  exact Rooted.keep (hs.2 x hlive) htree fun w home c hc hout => (edge_destroy h hs).2 ⟨hc, hout⟩

section

variable {a b : Owner}

theorem exchange_eq (ha : s.objects v = some a) (hb : s.objects w = some b) :
    s.exchange v w = (s.setHandle w none).setHandle v b.coroutine_ := by
  rw [St.exchange, ha, hb]

theorem edge_exchange (ha : s.objects v = some a) (hb : s.objects w = some b) (hvw : v ≠ w) :
    Edge (s.exchange v w) x home c ↔
      (x = v ∧ a.home = home ∧ b.coroutine_ = some c) ∨ (x ≠ v ∧ x ≠ w ∧ Edge s x home c) := by
  rw [exchange_eq ha hb]
  by_cases hxv : x = v
  · subst hxv
    have hself := St.setHandle_self (f := b.coroutine_) ((St.setHandle_of_ne hvw (s := s) (f := none)).trans ha)
    rw [edge_iff hself]
    simp
  · rw [edge_of_objects (St.setHandle_of_ne hxv), edge_setHandle_none]
    simp [hxv]

theorem exchange_home (ha : s.objects v = some a) (hb : s.objects w = some b) (x : ℕ) :
    ((s.exchange v w).objects x).map Owner.home = (s.objects x).map Owner.home := by
  have hset : ∀ (s : St) (y : ℕ) (f : Option ℕ),
      ((s.setHandle y f).objects x).map Owner.home = (s.objects x).map Owner.home := by
    intro s y f
    by_cases hxy : x = y
    · subst hxy
      rw [St.setHandle_map, Option.map_map]
      rfl
    · rw [St.setHandle_of_ne hxy]
  rw [exchange_eq ha hb, hset, hset]

theorem Inv.exchange (h : Inv s) (ha : s.objects v = some a) (hb : s.objects w = some b) (hvw : v ≠ w) :
    Inv (s.exchange v w) := by
  have hmade : (s.exchange v w).made = s.made := by rw [exchange_eq ha hb]; rfl
  have hnext : (s.exchange v w).next = s.next := by rw [exchange_eq ha hb]; rfl
  have hlive : (s.exchange v w).live = s.live := by rw [exchange_eq ha hb]; rfl
  have hhome := exchange_home ha hb
  constructor
  · intro x hx
    have hx := h.objects_made x (hmade ▸ hx)
    have hmap := hhome x
    rw [hx, Option.map_none] at hmap
    exact Option.map_eq_none_iff.1 hmap
  · intro x hx
    rw [hlive]
    exact h.frames_made x (hnext ▸ hx)
  · intro x home c hc
    rw [hlive]
    rcases (edge_exchange ha hb hvw).1 hc with ⟨-, -, hc⟩ | ⟨-, -, hc⟩
    · exact h.edge_live w b.home c ⟨b, hb, rfl, hc⟩
    · exact h.edge_live x home c hc
  · intro x o ho p hp
    rw [hlive]
    have hmap := hhome x
    rw [show (s.exchange v w).objects x = some o from ho, Option.map_some] at hmap
    obtain ⟨o', ho', hhome'⟩ := Option.map_eq_some_iff.1 hmap.symm
    exact h.home_live x o' ho' p (hhome'.symm ▸ hp)
  · intro x y home home' c hx hy
    have hw : ∀ z p, z ≠ w → Edge s z p c → b.coroutine_ ≠ some c := by
      intro z p hz hzc hbc
      exact hz (h.unique z w p b.home c hzc ⟨b, hb, rfl, hbc⟩)
    rcases (edge_exchange ha hb hvw).1 hx with ⟨rfl, -, hc⟩ | ⟨-, hxw, hx⟩
    · rcases (edge_exchange ha hb hvw).1 hy with ⟨rfl, -, -⟩ | ⟨-, hyw, hy⟩
      · rfl
      · exact absurd hc (hw y home' hyw hy)
    · rcases (edge_exchange ha hb hvw).1 hy with ⟨-, -, hc⟩ | ⟨-, -, hy⟩
      · exact absurd hc (hw x home hxw hx)
      · exact h.unique x y home home' c hx hy

/-- an object that owns nothing loses nothing, and the edges to other frames stay -/
theorem Edge.exchange (hx : Edge s x home c) (ha : s.objects v = some a) (hb : s.objects w = some b) (hvw : v ≠ w)
    (hnull : a.coroutine_ = none) (hne : b.coroutine_ ≠ some c) : Edge (s.exchange v w) x home c := by
  refine (edge_exchange ha hb hvw).2 (Or.inr ⟨?_, ?_, hx⟩)
  · rintro rfl
    cases hnull.symm.trans ((St.handle_eq ha).symm.trans hx.handle.1)
  · rintro rfl
    exact hne ((St.handle_eq hb).symm.trans hx.handle.1)

theorem tree_eq {g : ℕ} (hb : s.objects w = some b) (hg : b.coroutine_ = some g) (y : ℕ) :
    Tree s w y ↔ ReflTransGen (Owns s) g y := by
  simp [Tree, St.handle_eq hb, hg]

/-- A frame that is handed to an object outside its tree takes the tree along. -/
theorem Sound.exchange (h : Inv s) (hs : Sound s) (ha : s.objects v = some a) (hb : s.objects w = some b)
    (hvw : v ≠ w) (hnull : a.coroutine_ = none) (hout : ¬ Inside s w a.home) : Sound (s.exchange v w) := by
  have hmisused : (s.exchange v w).misused = s.misused := by rw [exchange_eq ha hb]; rfl
  have hlive : (s.exchange v w).live = s.live := by rw [exchange_eq ha hb]; rfl
  refine ⟨hmisused.trans hs.1, ?_⟩
  intro x hx
  rw [hlive] at hx
  cases hg : b.coroutine_ with
  | none =>
    refine Rooted.of_edges (fun u home c hc => hc.exchange ha hb hvw hnull ?_) (hs.2 x hx)
    simp [hg]
  | some g =>
    have hkeep : ∀ u home c, Edge s u home c → c ≠ g → Edge (s.exchange v w) u home c := by
      intro u home c hc hne
      refine hc.exchange ha hb hvw hnull ?_
      rw [hg, Ne, Option.some_inj]
      exact hne.symm
    have hrest : ∀ y, s.live y = true → ¬ Tree s w y → Rooted (Owns (s.exchange v w)) (Held (s.exchange v w)) y := by
      intro y hy hy'
      refine Rooted.keep (hs.2 y hy) hy' ?_
      intro u home c hc htree
      refine hkeep u home c hc ?_
      rintro rfl
      exact htree ((tree_eq hb hg c).2 .refl)
    by_cases hxw : Tree s w x
    · have hroot : Rooted (Owns (s.exchange v w)) (Held (s.exchange v w)) g := by
        refine Rooted.of_edge ((edge_exchange ha hb hvw).2 (Or.inl ⟨rfl, rfl, hg⟩)) ?_
        intro p hp
        exact hrest p (h.home_live v a ha p hp) fun ht => hout ⟨p, hp, ht⟩
      refine hroot.below ((tree_eq hb hg x).1 hxw) ?_
      intro p c howned hc
      obtain ⟨u, hu⟩ := howned
      exact ⟨u, hkeep u _ c hu hc⟩
    · exact hrest x hx hxw

end

-- make_when_all_task has the task as a parameter; the frame of the one goes with that of the other
example : ((run step init [.call .task none, .call .when_all_task none, .moveConstruct (some 1) 0, .destruct 1]).live 0,
    (run step init [.call .task none, .call .when_all_task none, .moveConstruct (some 1) 0]).live 0) = (false, true) := by
  decide

end TinyRpc.Async.Handles
