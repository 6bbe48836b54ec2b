/-
The lifetime of the coroutines in a `task_container`.

A cleanup task announces its own end from inside its coroutine: it takes `mutex_`, pushes its position, lowers `size_`,
unlocks, and only then comes to its final suspend point. Meanwhile other threads may start tasks, collect garbage and
destroy the container. `start` destroys the coroutine it finds in the slot it assigns to; the destructor destroys them all
when `size_` is zero, and then the mutex.

Here these steps are interleaved in any order. The sections of `start`, `garbage_collect` and of the destructor's
collections that run under `mutex_` are one step each, which needs the mutex to be free, so `mutex_` records which cleanup
task holds it. Everything a cleanup task does before it locks is one place, `running`. No call begins once the destructor
has left its loop; calls that began earlier keep `size_` above zero.

A start finds in its slot no coroutine, one past its final suspend point, or one between its unlock and that point: only
the last is destroyed too early. The destructor finds every task past its decrement: those that are not yet at their final
suspend point are destroyed too early, and one of them may still hold the mutex.

A start that has to grow where growth adds no slot reads the slot to assign to at `end()`; a run with such a start is
undefined and keeps no promise.

Main results: `Good.step`; `destroys_finished_iff`, the exact condition along every run; `destroys_early`, three runs in
which a coroutine is destroyed before its end, or the mutex while it is held.
-/
import Mathlib.Tactic
import TinyRpc.Async.TaskContainer

namespace TinyRpc.Async.TaskContainerLifetime

open List
open TinyRpc.Core
open TinyRpc.Async.TaskContainer (Slots Fits mark capacity_cleaned getElem?_provided getElem?_of_provided)

/-! ## Cleanup tasks, calls and the destructor -/

/-- where the coroutine of `make_cleanup_task` stands -/
inductive CleanupPc
  /-- before `std::scoped_lock lk{mutex_}` -/
  | running
  /-- before `task_to_del_.push_back(pos)` -/
  | locked
  /-- before `size_.fetch_sub(1)` -/
  | pushed
  /-- before `lk` is destroyed -/
  | decremented
  /-- before the final suspend point -/
  | unlocked
  | final
deriving DecidableEq, Repr

structure Cleanup where
  pos : ℕ
  pc : CleanupPc
deriving DecidableEq, Repr

/-- where `~task_container` stands -/
inductive DestructorPc
  | notCalled
  /-- before the test of `empty()` -/
  | test
  /-- in `garbage_collect` -/
  | collect
  /-- the loop is over; the destructor of `task_` is about to destroy slot `i`, and after the last slot that of `mutex_`
  runs -/
  | destroy (i : ℕ)
  | destroyed
deriving DecidableEq, Repr

structure St where
  slots : Slots
  size_ : ℤ
  /-- the cleanup task that holds the mutex -/
  mutex_ : Option ℕ
  tasks : List Cleanup
  /-- calls of `start` between their `fetch_add` and their lock -/
  starts : ℕ
  destructor : DestructorPc
deriving DecidableEq, Repr

def init (reserve_size : ℕ) : St :=
  { slots := .init reserve_size, size_ := 0, mutex_ := none, tasks := [], starts := 0, destructor := .notCalled }

def St.capacity (s : St) : ℕ := s.slots.capacity

/-- the destructor has left its loop -/
def DestructorPc.left : DestructorPc → Bool
  | .notCalled | .test | .collect => false
  | .destroy _ | .destroyed => true

inductive Op
  /-- `start`, its `fetch_add` -/
  | fetchAdd
  /-- `start`, its locked section -/
  | start (cleanup : Bool)
  | garbageCollect
  /-- the next step of the cleanup task of task `t` -/
  | advance (t : ℕ)
  /-- the next step of the destructor, the first of which calls it -/
  | destroy
deriving DecidableEq, Repr

def St.setPc (s : St) (t : ℕ) (x : Cleanup) (pc : CleanupPc) : St := { s with tasks := s.tasks.set t { x with pc := pc } }

/-- `task_container::start`, from the lock on -/
def St.start (growth : ℕ → ℕ) (cleanup : Bool) (s : St) : St :=
  let c := (s.slots.cleaned cleanup).provided growth
  match c.free_pos_ with
  | some index =>
    { s with slots := c.take index s.tasks.length, tasks := s.tasks ++ [⟨index, .running⟩], starts := s.starts - 1 }
  | none => { s with slots := c, starts := s.starts - 1 }

/-- the end of `task_container::make_cleanup_task` -/
def St.advance (s : St) (t : ℕ) (x : Cleanup) : St :=
  match x.pc with
  | .running => if s.mutex_ = none then { s with mutex_ := some t }.setPc t x .locked else s
  | .locked => { s with slots := s.slots.complete x.pos }.setPc t x .pushed
  | .pushed => { s with size_ := s.size_ - 1 }.setPc t x .decremented
  | .decremented => { s with mutex_ := none }.setPc t x .unlocked
  | .unlocked => s.setPc t x .final
  | .final => s

/-- `~task_container` and the destructors of its members -/
def St.destroy (s : St) : St :=
  match s.destructor with
  | .notCalled => { s with destructor := .test }
  | .test => { s with destructor := if s.size_ = 0 then .destroy 0 else .collect }
  | .collect => if s.mutex_ = none then { s with slots := s.slots.gcInternal.1, destructor := .test } else s
  | .destroy i => { s with destructor := if i < s.capacity then .destroy (i + 1) else .destroyed }
  | .destroyed => s

/-- one atomic step; an operation that cannot be taken does nothing -/
def step (growth : ℕ → ℕ) (s : St) : Op → St
  | .fetchAdd => if s.destructor.left then s else { s with size_ := s.size_ + 1, starts := s.starts + 1 }
  | .start cleanup => if 0 < s.starts ∧ s.mutex_ = none then s.start growth cleanup else s
  | .garbageCollect =>
    if s.destructor.left = false ∧ s.mutex_ = none then { s with slots := s.slots.gcInternal.1 } else s
  | .advance t =>
    match s.tasks[t]? with
    | some x => s.advance t x
    | none => s
  | .destroy => s.destroy

/-- where the coroutine held in slot `p` stands -/
def St.holder (s : St) (p : ℕ) : Option CleanupPc := ((s.slots.task_[p]?.join).bind (s.tasks[·]?)).map Cleanup.pc

/-- the slot that `start` assigns to -/
def St.chosen (growth : ℕ → ℕ) (cleanup : Bool) (s : St) : Option ℕ :=
  ((s.slots.cleaned cleanup).provided growth).free_pos_

/-- what is to hold of a step: a start has a slot to assign to, a coroutine is overwritten or destroyed only past its
final suspend point, and the mutex is not destroyed while a cleanup task holds it -/
def DestroysFinished (growth : ℕ → ℕ) (s : St) : Op → Prop
  | .start cleanup =>
    0 < s.starts → s.mutex_ = none →
      ∃ index, s.chosen growth cleanup = some index ∧ ∀ pc, s.holder index = some pc → pc = .final
  | .destroy =>
    ∀ i, s.destructor = .destroy i →
      if i < s.capacity then ∀ pc, s.holder i = some pc → pc = .final else s.mutex_ = none
  | .fetchAdd | .garbageCollect | .advance _ => True

/-- the condition: a start that has to grow gets new slots, no start assigns to a slot whose cleanup task is between its
unlock and its final suspend point, and the destructor destroys no slot whose cleanup task is between its decrement and
that point -/
def Meets (growth : ℕ → ℕ) (s : St) : Op → Prop
  | .start cleanup =>
    0 < s.starts → s.mutex_ = none → (s.slots.cleaned cleanup).CanProvide growth ∧
      ∀ index, s.chosen growth cleanup = some index → s.holder index ≠ some .unlocked
  | .destroy =>
    ∀ i, s.destructor = .destroy i → i < s.capacity →
      s.holder i ≠ some .decremented ∧ s.holder i ≠ some .unlocked
  | .fetchAdd | .garbageCollect | .advance _ => True

/-! ## The invariant -/

def CleanupPc.inLock : CleanupPc → Bool
  | .locked | .pushed | .decremented => true
  | .running | .unlocked | .final => false

/-- 1 for a cleanup task of slot `p` that has not pushed its position -/
def Cleanup.runs (p : ℕ) (x : Cleanup) : ℤ :=
  match x.pc with
  | .running | .locked => mark x.pos p
  | .pushed | .decremented | .unlocked | .final => 0

/-- 1 for a cleanup task that has not lowered `size_` -/
def Cleanup.weight (x : Cleanup) : ℤ :=
  match x.pc with
  | .running | .locked | .pushed => 1
  | .decremented | .unlocked | .final => 0

/-- the destructor has destroyed slot `p` -/
def DestructorPc.Past (p : ℕ) : DestructorPc → Prop
  | .notCalled | .test | .collect => False
  | .destroy i => p < i
  | .destroyed => True

structure Inv (s : St) (lost : ℕ → ℤ) (used free : List ℕ) : Prop where
  fits : Fits (fun p => tally (Cleanup.runs p) s.tasks) lost s.slots used free
  size : s.size_ = s.starts + tally Cleanup.weight s.tasks
  /-- the mutex is held by the one cleanup task in its locked section -/
  mutex : ∀ (t : ℕ) (x : Cleanup), s.tasks[t]? = some x → (x.pc.inLock = true ↔ s.mutex_ = some t)
  holds : ∀ t, s.mutex_ = some t → t < s.tasks.length
  /-- a coroutine that is not past its end is in its slot -/
  held : ∀ (t : ℕ) (x : Cleanup), s.tasks[t]? = some x → x.pc ≠ .final → s.slots.task_[x.pos]? = some (some t)
  /-- a slot holds the coroutine of a task of that slot -/
  own : ∀ p t : ℕ, s.slots.task_[p]? = some (some t) → ∃ x, s.tasks[t]? = some x ∧ x.pos = p
  left : s.destructor.left = true → s.size_ = 0
  /-- what is destroyed was past its end -/
  past : ∀ x ∈ s.tasks, s.destructor.Past x.pos → x.pc = .final

variable {growth : ℕ → ℕ} {s : St} {lost : ℕ → ℤ} {used free : List ℕ}

theorem Cleanup.runs_nonneg (p : ℕ) (x : Cleanup) : 0 ≤ x.runs p := by
  unfold Cleanup.runs mark
  split
  all_goals first | exact le_rfl | skip
  all_goals
    split_ifs
    all_goals simp

theorem Cleanup.weight_nonneg (x : Cleanup) : 0 ≤ x.weight := by
  unfold Cleanup.weight
  split
  all_goals simp

theorem init_inv (reserve_size : ℕ) : Inv (init reserve_size) (fun _ => 0) [] (range reserve_size) where
  fits := Fits.init reserve_size
  size := rfl
  mutex := nofun
  holds := nofun
  held := nofun
  own := by
    intro p t hp
    simp only [init, Slots.init, getElem?_replicate] at hp
    split_ifs at hp
    cases hp
  left := nofun
  past := nofun

/-! ## The cleanup tasks -/

/-- One cleanup task moves on: it may change the mutex, as long as it is the only one concerned, the positions to delete
and the counter, as long as the accounts stay right. -/
theorem Inv.move (h : Inv s lost used free) {t : ℕ} {x : Cleanup} (ht : s.tasks[t]? = some x) (hx : x.pc ≠ .final)
    {pc : CleanupPc} {slots : Slots} {size_ : ℤ} {mutex_ : Option ℕ} (htask : slots.task_ = s.slots.task_)
    (hfits : Fits (fun p => tally (Cleanup.runs p) (s.tasks.set t { x with pc := pc })) lost slots used free)
    (hsize : size_ = s.size_ - x.weight + Cleanup.weight { x with pc := pc }) (hleft : s.size_ = 0 → size_ = 0)
    (hself : pc.inLock = true ↔ mutex_ = some t) (hother : ∀ t' ≠ t, s.mutex_ = some t' ↔ mutex_ = some t') :
    Inv ({ s with slots := slots, size_ := size_, mutex_ := mutex_ }.setPc t x pc) lost used free := by
  obtain ⟨hlt, -⟩ := List.getElem?_eq_some_iff.1 ht
  refine ⟨hfits, ?_, ?_, ?_, ?_, ?_, ?_, ?_⟩
  · simp only [St.setPc]
    rw [hsize, tally_set ht, h.size]
    ring
  · intro t' x' ht'
    simp only [St.setPc] at ht' ⊢
    by_cases htt : t = t'
    · subst htt
      rw [getElem?_set_self hlt] at ht'
      obtain rfl := Option.some.inj ht'
      exact hself
    · rw [getElem?_set_ne htt] at ht'
      rw [h.mutex t' x' ht']
      exact hother t' (Ne.symm htt)
  · intro t' ht'
    simp only [St.setPc, length_set] at ht' ⊢
    by_cases htt : t' = t
    · rw [htt]
      exact hlt
    · exact h.holds t' ((hother t' htt).2 ht')
  · intro t' x' ht' hx'
    simp only [St.setPc] at ht' ⊢
    rw [htask]
    by_cases htt : t = t'
    · subst htt
      rw [getElem?_set_self hlt] at ht'
      obtain rfl := Option.some.inj ht'
      exact h.held t x ht hx
    · rw [getElem?_set_ne htt] at ht'
      exact h.held t' x' ht' hx'
  · intro p t' hp
    simp only [St.setPc] at hp ⊢
    rw [htask] at hp
    obtain ⟨x', hx', hpos⟩ := h.own p t' hp
    by_cases htt : t = t'
    · subst htt
      rw [ht] at hx'
      obtain rfl := Option.some.inj hx'
      exact ⟨_, getElem?_set_self hlt, hpos⟩
    · exact ⟨x', by rw [getElem?_set_ne htt, hx'], hpos⟩
  · intro hl
    exact hleft (h.left hl)
  · intro x' hx' hpast
    rcases mem_or_eq_of_mem_set hx' with hmem | rfl
    · exact h.past x' hmem hpast
    · exact absurd (h.past x (mem_of_getElem? ht) hpast) hx

/-- moving on leaves the account of the slots alone, unless the position is pushed -/
theorem tally_runs_set {t : ℕ} {x x' : Cleanup} (ht : s.tasks[t]? = some x) (hx : ∀ p, x'.runs p = x.runs p) :
    (fun p => tally (Cleanup.runs p) (s.tasks.set t x')) = fun p => tally (Cleanup.runs p) s.tasks := by
  funext p
  rw [tally_set ht, hx p]
  ring

theorem Inv.advance (h : Inv s lost used free) {t : ℕ} {x : Cleanup} (ht : s.tasks[t]? = some x) :
    Inv (s.advance t x) lost used free := by
  have hlock := h.mutex t x ht
  unfold St.advance
  cases hpc : x.pc with
  | running =>
    dsimp only
    split_ifs with hfree
    · refine h.move ht (by simp [hpc]) rfl ?_ (by simp [Cleanup.weight, hpc]) id (by simp [CleanupPc.inLock]) ?_
      · rw [tally_runs_set ht (by simp [Cleanup.runs, hpc])]
        exact h.fits
      · intro t' htt
        rw [hfree]
        exact iff_of_false (Option.some_ne_none _).symm fun heq => htt (Option.some.inj heq).symm
    · exact h
  | locked =>
    rw [hpc] at hlock
    refine h.move ht (by simp [hpc]) rfl ?_ (by simp [Cleanup.weight, hpc]) id hlock fun _ _ => Iff.rfl
    have hruns : (fun p => tally (Cleanup.runs p) (s.tasks.set t { x with pc := .pushed })) =
        fun p => tally (Cleanup.runs p) s.tasks - mark x.pos p := by
      funext p
      rw [tally_set ht]
      simp [Cleanup.runs, hpc]
    rw [hruns]
    refine h.fits.complete ?_
    have hle := le_tally (Cleanup.runs_nonneg x.pos) (mem_of_getElem? ht)
    simpa [Cleanup.runs, hpc, mark] using hle
  | pushed =>
    rw [hpc] at hlock
    have hle := le_tally Cleanup.weight_nonneg (mem_of_getElem? ht)
    refine h.move ht (by simp [hpc]) rfl ?_ (by simp [Cleanup.weight, hpc]) ?_ hlock fun _ _ => Iff.rfl
    · rw [tally_runs_set ht (by simp [Cleanup.runs, hpc])]
      exact h.fits
    · have hsize := h.size
      simp only [Cleanup.weight, hpc] at hle
      omega
  | decremented =>
    rw [hpc] at hlock
    refine h.move ht (by simp [hpc]) rfl ?_ (by simp [Cleanup.weight, hpc]) id (by simp [CleanupPc.inLock]) ?_
    · rw [tally_runs_set ht (by simp [Cleanup.runs, hpc])]
      exact h.fits
    · intro t' htt
      rw [hlock.1 rfl]
      exact iff_of_false (fun heq => htt (Option.some.inj heq).symm) (Option.some_ne_none _).symm
  | unlocked =>
    rw [hpc] at hlock
    refine h.move ht (by simp [hpc]) rfl ?_ (by simp [Cleanup.weight, hpc]) id hlock fun _ _ => Iff.rfl
    rw [tally_runs_set ht (by simp [Cleanup.runs, hpc])]
    exact h.fits
  | final => exact h

/-! ## The coroutine in a slot -/

theorem holder_eq_some {p : ℕ} {pc : CleanupPc} :
    s.holder p = some pc ↔ ∃ t x, s.slots.task_[p]? = some (some t) ∧ s.tasks[t]? = some x ∧ x.pc = pc := by
  simp only [St.holder, Option.map_eq_some_iff, Option.bind_eq_some_iff, Option.join_eq_some_iff]
  constructor
  · intro h
    rcases h with ⟨x, ⟨t, hp, ht⟩, hpc⟩
    exact ⟨t, x, hp, ht, hpc⟩
  · intro h
    rcases h with ⟨t, x, hp, ht, hpc⟩
    exact ⟨x, ⟨t, hp, ht⟩, hpc⟩

/-- a coroutine that is not past its end is the one in its slot -/
theorem Inv.holder (h : Inv s lost used free) {t : ℕ} {x : Cleanup} (ht : s.tasks[t]? = some x) (hx : x.pc ≠ .final) :
    s.holder x.pos = some x.pc :=
  holder_eq_some.2 ⟨t, x, h.held t x ht hx, ht, rfl⟩

theorem Inv.not_locked (h : Inv s lost used free) (hm : s.mutex_ = none) {t : ℕ} {x : Cleanup}
    (ht : s.tasks[t]? = some x) : x.pc.inLock = false := by
  cases hlock : x.pc.inLock with
  | false => rfl
  | true =>
    have hheld := (h.mutex t x ht).1 hlock
    rw [hm] at hheld
    cases hheld

theorem Inv.chosen (h : Inv s lost used free) {cleanup : Bool} (hp : (s.slots.cleaned cleanup).CanProvide growth) :
    ∃ lost' used' index rest, Fits (fun p => tally (Cleanup.runs p) s.tasks) lost'
      ((s.slots.cleaned cleanup).provided growth) used' (index :: rest) ∧ s.chosen growth cleanup = some index := by
  obtain ⟨used', free', hclean, -⟩ := h.fits.cleaned cleanup
  obtain ⟨index, rest, hfits⟩ := hclean.provided hp
  exact ⟨_, used', index, rest, hfits, hfits.pos⟩

theorem Inv.canProvide (h : Inv s lost used free) {cleanup : Bool} {index : ℕ}
    (hindex : s.chosen growth cleanup = some index) : (s.slots.cleaned cleanup).CanProvide growth := by
  obtain ⟨used', free', hclean, -⟩ := h.fits.cleaned cleanup
  exact hclean.canProvide hindex

/-- a start finds a coroutine that has unlocked, or one past its end -/
theorem Inv.holder_chosen (h : Inv s lost used free) (hm : s.mutex_ = none) {cleanup : Bool} {index : ℕ}
    (hindex : s.chosen growth cleanup = some index) {pc : CleanupPc} (hpc : s.holder index = some pc) :
    pc = .unlocked ∨ pc = .final := by
  obtain ⟨lost', used', index', rest, hfits, hchosen⟩ := h.chosen (h.canProvide hindex)
  obtain rfl : index' = index := Option.some.inj (hchosen.symm.trans hindex)
  obtain ⟨t, x, hp, ht, rfl⟩ := holder_eq_some.1 hpc
  obtain ⟨x', ht', hpos⟩ := h.own _ t hp
  obtain rfl : x = x' := Option.some.inj (ht.symm.trans ht')
  have hruns := tally_eq_zero (Cleanup.runs_nonneg index') (hfits.not_busy mem_cons_self) (mem_of_getElem? ht)
  have hlock := h.not_locked hm ht
  cases hx : x.pc with
  | running =>
    rw [Cleanup.runs, hx, mark, if_pos hpos] at hruns
    cases hruns
  | locked | pushed | decremented =>
    rw [hx] at hlock
    cases hlock
  | unlocked => exact Or.inl rfl
  | final => exact Or.inr rfl

theorem Inv.start (h : Inv s lost used free) {cleanup : Bool} (hstarts : 0 < s.starts) (hm : s.mutex_ = none)
    (hp : (s.slots.cleaned cleanup).CanProvide growth)
    (hfinal : ∀ index, s.chosen growth cleanup = some index → ∀ pc, s.holder index = some pc → pc = .final) :
    ∃ lost' used' free', Inv (s.start growth cleanup) lost' used' free' := by
  obtain ⟨lost', used', index, rest, hfits, hchosen⟩ := h.chosen hp
  have htask : (s.slots.cleaned cleanup).task_ = s.slots.task_ := by cases cleanup <;> rfl
  have hcap := capacity_cleaned s.slots cleanup
  have hindex := hfits.free_lt mem_cons_self
  -- whoever is not past its end is in another slot
  have hne : ∀ (t : ℕ) (x : Cleanup), s.tasks[t]? = some x → x.pc ≠ .final → index ≠ x.pos := by
    rintro t x ht hx rfl
    exact hx (hfinal _ hchosen _ (h.holder ht hx))
  have hsize := h.size
  have hweight := tally_nonneg Cleanup.weight_nonneg s.tasks
  have hleft : s.destructor.left = false := by
    by_contra hl
    have := h.left (Bool.eq_true_of_not_eq_false hl)
    omega
  refine ⟨lost', used' ++ [index], rest, ?_⟩
  rw [St.chosen] at hchosen
  simp only [St.start, hchosen]
  refine ⟨?_, ?_, ?_, ?_, ?_, ?_, ?_, ?_⟩
  · have hbusy : (fun p => tally (Cleanup.runs p) (s.tasks ++ [⟨index, .running⟩])) =
        fun p => tally (Cleanup.runs p) s.tasks + mark index p := by
      funext p
      rw [tally_concat]
      rfl
    rw [hbusy]
    exact hfits.take s.tasks.length
  · simp only [tally_concat]
    rw [hsize]
    simp only [Cleanup.weight]
    omega
  · intro t x ht
    simp only [hm, reduceCtorEq, iff_false, Bool.not_eq_true]
    rcases concat_cases ht with hold | ⟨-, rfl⟩
    · exact h.not_locked hm hold
    · rfl
  · intro t ht
    rw [hm] at ht
    cases ht
  · intro t x ht hx
    simp only [Slots.take]
    rcases concat_cases ht with hold | ⟨rfl, rfl⟩
    · have hheld := h.held t x hold hx
      have hlt := (List.getElem?_eq_some_iff.1 hheld).1
      rw [getElem?_set_ne (hne t x hold hx), getElem?_provided hp (by rw [hcap]; exact hlt), htask]
      exact hheld
    · exact getElem?_set_self hindex
  · intro p t hp
    simp only [Slots.take] at hp
    by_cases hip : index = p
    · subst hip
      rw [getElem?_set_self hindex] at hp
      obtain rfl := Option.some.inj (Option.some.inj hp)
      exact ⟨⟨index, .running⟩, getElem?_concat_length, rfl⟩
    · rw [getElem?_set_ne hip] at hp
      have hslot := getElem?_of_provided hp
      rw [htask] at hslot
      obtain ⟨x, hx, hpos⟩ := h.own p t hslot
      exact ⟨x, by rw [getElem?_append_left (List.getElem?_eq_some_iff.1 hx).1, hx], hpos⟩
  · intro hl
    rw [hleft] at hl
    cases hl
  · intro x _ hpast
    cases hd : s.destructor with
    | notCalled | test | collect =>
      rw [hd] at hpast
      exact hpast.elim
    | destroy _ | destroyed =>
      rw [hd] at hleft
      cases hleft

/-! ## The destructor -/

/-- whatever the destructor finds is past its decrement -/
theorem Inv.weight_zero (h : Inv s lost used free) (hs : s.size_ = 0) {t : ℕ} {x : Cleanup}
    (ht : s.tasks[t]? = some x) : x.weight = 0 := by
  have hsize := h.size
  have hle := le_tally Cleanup.weight_nonneg (mem_of_getElem? ht)
  have hx := x.weight_nonneg
  omega

theorem Inv.holder_destroyed (h : Inv s lost used free) (hs : s.size_ = 0) {i : ℕ} {pc : CleanupPc}
    (hpc : s.holder i = some pc) : pc = .decremented ∨ pc = .unlocked ∨ pc = .final := by
  obtain ⟨t, x, -, ht, rfl⟩ := holder_eq_some.1 hpc
  have hweight := h.weight_zero hs ht
  cases hx : x.pc with
  | running | locked | pushed =>
    rw [Cleanup.weight, hx] at hweight
    cases hweight
  | decremented => exact Or.inl rfl
  | unlocked => exact Or.inr (Or.inl rfl)
  | final => exact Or.inr (Or.inr rfl)

/-- a coroutine that is not past its end keeps its slot from being destroyed -/
theorem Inv.not_past (h : Inv s lost used free) {t : ℕ} {x : Cleanup} (ht : s.tasks[t]? = some x) (hx : x.pc ≠ .final) :
    ¬ s.destructor.Past x.pos ∧ x.pos < s.capacity :=
  ⟨fun hpast => hx (h.past x (mem_of_getElem? ht) hpast), (List.getElem?_eq_some_iff.1 (h.held t x ht hx)).1⟩

/-- when all slots are destroyed nobody holds the mutex -/
theorem Inv.mutex_free (h : Inv s lost used free) {i : ℕ} (hd : s.destructor = .destroy i) (hi : ¬ i < s.capacity) :
    s.mutex_ = none := by
  cases hm : s.mutex_ with
  | none => rfl
  | some t =>
    have ht := getElem?_eq_getElem (h.holds t hm)
    have hlock := (h.mutex t _ ht).2 hm
    obtain ⟨hpast, hlt⟩ := h.not_past ht (by intro hf; rw [hf] at hlock; cases hlock)
    rw [hd] at hpast
    simp only [DestructorPc.Past] at hpast
    omega

/-- only the destructor's own place changes -/
theorem Inv.setDestructor (h : Inv s lost used free) {d : DestructorPc} (hleft : d.left = true → s.size_ = 0)
    (hpast : ∀ x ∈ s.tasks, d.Past x.pos → x.pc = .final) : Inv { s with destructor := d } lost used free :=
  { h with left := hleft, past := hpast }

theorem Inv.gc (h : Inv s lost used free) :
    ∃ lost' used' free', Inv { s with slots := s.slots.gcInternal.1 } lost' used' free' := by
  obtain ⟨used', free', hfits, -⟩ := h.fits.gcInternal
  exact ⟨_, used', free', { h with fits := hfits }⟩

theorem Inv.destroy (h : Inv s lost used free) (hm : Meets growth s .destroy) :
    ∃ lost' used' free', Inv s.destroy lost' used' free' := by
  unfold St.destroy
  cases hd : s.destructor with
  | notCalled => exact ⟨lost, used, free, h.setDestructor nofun (fun _ _ => False.elim)⟩
  | test =>
    refine ⟨lost, used, free, h.setDestructor ?_ ?_⟩
    · intro hl
      split_ifs at hl with hs
      · exact hs
      · cases hl
    · intro x _ hpast
      split_ifs at hpast
      · exact absurd hpast (Nat.not_lt_zero _)
      · exact hpast.elim
  | collect =>
    dsimp only
    split_ifs
    · obtain ⟨lost', used', free', hgc⟩ := h.gc
      exact ⟨lost', used', free', hgc.setDestructor nofun (fun _ _ => False.elim)⟩
    · exact ⟨lost, used, free, h⟩
  | destroy i =>
    have hs : s.size_ = 0 := h.left (by rw [hd]; rfl)
    refine ⟨lost, used, free, h.setDestructor (fun _ => hs) ?_⟩
    intro x hx hpast
    by_contra hfinal
    obtain ⟨t, ht⟩ := getElem?_of_mem hx
    obtain ⟨hnot, hlt⟩ := h.not_past ht hfinal
    rw [hd] at hnot
    simp only [DestructorPc.Past] at hnot
    split_ifs at hpast with hi
    · -- it is in the slot that is destroyed now, between its decrement and its end
      simp only [DestructorPc.Past] at hpast
      obtain rfl : i = x.pos := by omega
      have hmeets := hm x.pos hd hi
      rw [h.holder ht hfinal] at hmeets
      rcases h.holder_destroyed hs (h.holder ht hfinal) with hpc | hpc | hpc
      · exact hmeets.1 (by rw [hpc])
      · exact hmeets.2 (by rw [hpc])
      · exact hfinal hpc
    · omega
  | destroyed => exact ⟨lost, used, free, h⟩

/-! ## Whole runs -/

def Good (s : St) : Prop := ∃ lost used free, Inv s lost used free

/-- from a good state, a step destroys only what is finished exactly when it meets the condition -/
theorem Good.destroysFinished_iff (h : Good s) (o : Op) : DestroysFinished growth s o ↔ Meets growth s o := by
  rcases h with ⟨lost, used, free, h⟩
  cases o with
  | fetchAdd | garbageCollect | advance _ => exact Iff.rfl
  | start cleanup =>
    constructor
    · intro hf hstarts hm
      obtain ⟨index, hindex, hfinal⟩ := hf hstarts hm
      refine ⟨h.canProvide hindex, ?_⟩
      intro index' hindex' hholder
      obtain rfl : index = index' := Option.some.inj (hindex.symm.trans hindex')
      cases hfinal _ hholder
    · intro hmeets hstarts hm
      obtain ⟨hp, hunlocked⟩ := hmeets hstarts hm
      obtain ⟨-, -, index, -, -, hindex⟩ := h.chosen hp
      refine ⟨index, hindex, ?_⟩
      intro pc hpc
      rcases h.holder_chosen hm hindex hpc with rfl | rfl
      · exact absurd hpc (hunlocked index hindex)
      · rfl
  | destroy =>
    constructor
    · intro hf i hi hlt
      have hfinal := hf i hi
      rw [if_pos hlt] at hfinal
      exact ⟨fun hpc => CleanupPc.noConfusion (hfinal _ hpc), fun hpc => CleanupPc.noConfusion (hfinal _ hpc)⟩
    · intro hmeets i hi
      have hs : s.size_ = 0 := h.left (by rw [hi]; rfl)
      split_ifs with hlt
      · intro pc hpc
        obtain ⟨h1, h2⟩ := hmeets i hi hlt
        rcases h.holder_destroyed hs hpc with rfl | rfl | rfl
        · exact absurd hpc h1
        · exact absurd hpc h2
        · rfl
      · exact h.mutex_free hi hlt

theorem Good.step (h : Good s) {o : Op} (hm : Meets growth s o) : Good (step growth s o) := by
  have hfinished := (h.destroysFinished_iff o).2 hm
  rcases h with ⟨lost, used, free, h⟩
  cases o with
  | fetchAdd =>
    simp only [TaskContainerLifetime.step]
    split_ifs with hl
    · exact ⟨lost, used, free, h⟩
    · refine ⟨lost, used, free, { h with size := ?_, left := fun hl' => absurd hl' hl }⟩
      rw [h.size]
      push_cast
      ring
  | start cleanup =>
    simp only [TaskContainerLifetime.step]
    split_ifs with hen
    · obtain ⟨index, hindex, hfinal⟩ := hfinished hen.1 hen.2
      refine h.start hen.1 hen.2 (h.canProvide hindex) ?_
      intro index' hindex'
      obtain rfl : index = index' := Option.some.inj (hindex.symm.trans hindex')
      exact hfinal
    · exact ⟨lost, used, free, h⟩
  | garbageCollect =>
    simp only [TaskContainerLifetime.step]
    split_ifs
    · exact h.gc
    · exact ⟨lost, used, free, h⟩
  | advance t =>
    simp only [TaskContainerLifetime.step]
    split
    · rename_i x ht
      exact ⟨lost, used, free, h.advance ht⟩
    · exact ⟨lost, used, free, h⟩
  | destroy => exact h.destroy hm

/-- **When only finished coroutines are destroyed.** For every reserve size, every growth and every interleaving: every
start has a slot, every coroutine that a start overwrites or the destructor destroys is past its final suspend point, and
the mutex is not destroyed while a cleanup task holds it, exactly when every start that has to grow gets new slots, no start
assigns to a slot whose cleanup task is between its unlock and that point, and the destructor reaches no slot whose cleanup
task is between its decrement and that point. -/
theorem destroys_finished_iff (growth : ℕ → ℕ) (reserve_size : ℕ) (ops : List Op) :
    Along (step growth) (DestroysFinished growth) (init reserve_size) ops ↔
      Along (step growth) (Meets growth) (init reserve_size) ops := by
  have hstep : ∀ s o, Good s → True →
      (DestroysFinished growth s o ↔ Meets growth s o) ∧ (Meets growth s o → Good (step growth s o)) :=
    fun s o h _ => ⟨h.destroysFinished_iff o, h.step⟩
  exact along_iff_of_inv hstep ⟨_, _, _, init_inv reserve_size⟩ (along_of_mem fun _ _ _ => trivial)

/-- a task has lowered `size_` and not yet unlocked when the destructor finds the container empty -/
def announced : List Op := [.fetchAdd, .start true, .advance 0, .advance 0, .advance 0, .destroy, .destroy]

/-- a task has unlocked and is not at its final suspend point when another one is started, and a third one is to follow -/
def collected : List Op :=
  [.fetchAdd, .start true, .advance 0, .advance 0, .advance 0, .advance 0, .fetchAdd, .start true, .fetchAdd]

/-- After `announced` the coroutine is destroyed in the middle of its locked section, and then the mutex while it is held;
after `collected` the coroutine is overwritten before its final suspend point. -/
theorem destroys_early :
    ¬ Along (step (2 * ·)) (DestroysFinished (2 * ·)) (init 1) (announced ++ [Op.destroy]) ∧
    (run (step (2 * ·)) (init 1) (announced ++ [Op.destroy, Op.destroy])).destructor = .destroyed ∧
    (run (step (2 * ·)) (init 1) (announced ++ [Op.destroy, Op.destroy])).mutex_ = some 0 ∧
    ¬ Along (step (2 * ·)) (DestroysFinished (2 * ·)) (init 2) (collected ++ [Op.start true]) := by
  have hannounced : run (step (2 * ·)) (init 1) announced =
      ⟨⟨[some 0], [0], [0], none⟩, 0, some 0, [⟨0, .decremented⟩], 0, .destroy 0⟩ := rfl
  have hcollected : run (step (2 * ·)) (init 2) collected =
      ⟨⟨[some 0, some 1], [1, 0], [], some 0⟩, 2, none, [⟨0, .unlocked⟩, ⟨1, .running⟩], 1, .notCalled⟩ := rfl
  rw [run_append, hannounced]
  refine ⟨?_, by decide, by decide, ?_⟩
  · intro h
    have hlast := h.last
    rw [hannounced] at hlast
    have hfinal := hlast 0 rfl
    rw [if_pos (by decide)] at hfinal
    cases hfinal .decremented (by decide)
  · intro h
    have hlast := h.last
    rw [hcollected] at hlast
    obtain ⟨index, hindex, hfinal⟩ := hlast (by decide) rfl
    obtain rfl : 0 = index := Option.some.inj hindex
    cases hfinal .unlocked (by decide)

end TinyRpc.Async.TaskContainerLifetime
