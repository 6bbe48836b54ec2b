/-
The slots of a `task_container` (async/task_container.hpp).

The container keeps its coroutines in the vector `task_`, and the numbers of its slots in the list `task_idx_`, whose part
from `free_pos_` on is free. `start` takes the slot at `free_pos_` and advances it; a task that completes puts its position
in `task_to_del_`; `gc_internal` splices these positions to the end of the list; `grow` appends new ones. An iterator of
`std::list` is a node, and the nodes hold distinct numbers, so an iterator is written as the number its node holds, and
`end()` as `none`. A slot of `task_` holds the number of the last task started in it.

`growth` stands for the conversion of `task_.size() * growth_factor_` to `std::size_t`.

`Fits` is the account of the slots: those before `free_pos_` belong to a task that has not completed, wait in
`task_to_del_`, or are lost, that is, neither. Slots are lost by `gc_internal` while `free_pos_` is `end()`: splicing
before `end()` leaves them before it. All operations keep the account, so no busy slot is ever free.

Main results: `Fits.gcInternal`, `Fits.grow`, `Fits.take`, `Fits.complete`, one for each operation on the slots;
`busy_slots_kept`, for every reserve size, every growth and every sequence of operations.
-/
import Mathlib.Tactic
import TinyRpc.Core.Machine
import TinyRpc.Core.Tally

namespace TinyRpc.Async.TaskContainer

open List
open TinyRpc.Core

/-! ## The slots -/

structure Slots where
  task_ : List (Option ℕ)
  task_idx_ : List ℕ
  task_to_del_ : List ℕ
  free_pos_ : Option ℕ
deriving DecidableEq, Repr

/-- `task_container::capacity` -/
def Slots.capacity (c : Slots) : ℕ := c.task_.length

/-- `task_container::init` -/
def Slots.init (reserve_size : ℕ) : Slots :=
  { task_ := replicate reserve_size none, task_idx_ := range reserve_size, task_to_del_ := [],
    free_pos_ := (range reserve_size).head? }

/-- the iterator after the one at `pos` -/
def next (l : List ℕ) (pos : ℕ) : Option ℕ := (l.dropWhile (· ≠ pos)).tail.head?

/-- `list.splice(list.end(), list, pos)` -/
def spliceEnd (l : List ℕ) (pos : ℕ) : List ℕ := l.erase pos ++ [pos]

/-- `vector::resize` -/
def resize (l : List (Option ℕ)) (n : ℕ) : List (Option ℕ) := l.take n ++ replicate (n - l.length) none

/-- `task_container::gc_internal`, with the number it returns -/
def Slots.gcInternal (c : Slots) : Slots × ℕ :=
  ({ c with task_idx_ := c.task_to_del_.foldl spliceEnd c.task_idx_, task_to_del_ := [] }, c.task_to_del_.length)

/-- `task_container::grow`, and the assignment of its result to `free_pos_` -/
def Slots.grow (growth : ℕ → ℕ) (c : Slots) : Slots :=
  let task_idx_ := c.task_idx_ ++ range' c.capacity (growth c.capacity - c.capacity)
  { c with task_ := resize c.task_ (growth c.capacity), task_idx_ := task_idx_,
           free_pos_ := c.task_idx_.getLast?.bind (next task_idx_) }

/-- `start`, cleanup: garbage is collected if `cleanup` is `garbage_collect_t::yes` -/
def Slots.cleaned (c : Slots) (cleanup : Bool) : Slots := if cleanup then c.gcInternal.1 else c

/-- `start`, growth: the container is enlarged if nothing is free -/
def Slots.provided (growth : ℕ → ℕ) (c : Slots) : Slots := if c.free_pos_ = none then c.grow growth else c

/-- `start`, assignment: task `t` is put in slot `index`, and `free_pos_` advances -/
def Slots.take (c : Slots) (index t : ℕ) : Slots :=
  { c with task_ := c.task_.set index (some t), free_pos_ := next c.task_idx_ index }

/-- `task_to_del_.push_back(pos)` -/
def Slots.complete (c : Slots) (pos : ℕ) : Slots := { c with task_to_del_ := c.task_to_del_ ++ [pos] }

/-- the positions from `free_pos_` on -/
def Slots.freePart (c : Slots) : List ℕ :=
  match c.free_pos_ with
  | none => []
  | some pos => c.task_idx_.dropWhile (· ≠ pos)

/-! ## The account of the slots -/

/-- 1 at `pos` -/
def mark (pos p : ℕ) : ℤ := if pos = p then 1 else 0

/-- `busy p` tasks of slot `p` have not completed, and slot `p` is lost `lost p` times; before `free_pos_` stand the
positions `used`, from it on the positions `free` -/
structure Fits (busy lost : ℕ → ℤ) (c : Slots) (used free : List ℕ) : Prop where
  idx : c.task_idx_ = used ++ free
  pos : c.free_pos_ = free.head?
  each : ∀ p, used.count p + free.count p = if p < c.capacity then 1 else 0
  account : ∀ p, c.task_to_del_.count p + busy p + lost p = used.count p
  busy : ∀ p, 0 ≤ busy p
  lost : ∀ p, 0 ≤ lost p

variable {busy lost : ℕ → ℤ} {c : Slots} {used free : List ℕ}

theorem Fits.init (n : ℕ) : Fits (fun _ => 0) (fun _ => 0) (Slots.init n) [] (range n) where
  idx := rfl
  pos := rfl
  each := by
    intro p
    simp [Slots.init, Slots.capacity, count_range]
  account := by simp [Slots.init]
  busy := fun _ => le_rfl
  lost := fun _ => le_rfl

theorem next_split {l₁ l₂ : List ℕ} {pos : ℕ} (h : pos ∉ l₁) : next (l₁ ++ pos :: l₂) pos = l₂.head? := by
  rw [next, dropWhile_append_of_pos, dropWhile_cons_of_neg (by simp), tail_cons]
  intro p hp
  simpa using fun heq : p = pos => h (heq ▸ hp)

theorem dropWhile_split {l₁ l₂ : List ℕ} {pos : ℕ} (h : pos ∉ l₁) :
    (l₁ ++ pos :: l₂).dropWhile (· ≠ pos) = pos :: l₂ := by
  rw [dropWhile_append_of_pos, dropWhile_cons_of_neg (by simp)]
  intro p hp
  simpa using fun heq : p = pos => h (heq ▸ hp)

/-- a free position stands nowhere before `free_pos_` -/
theorem Fits.not_used (h : Fits busy lost c used free) {pos : ℕ} (hp : pos ∈ free) : pos ∉ used := by
  intro hu
  have heach := h.each pos
  have h1 := count_pos_iff.2 hu
  have h2 := count_pos_iff.2 hp
  split_ifs at heach
  all_goals omega

/-- a free slot has no task that has not completed -/
theorem Fits.not_busy (h : Fits busy lost c used free) {pos : ℕ} (hp : pos ∈ free) : busy pos = 0 := by
  have haccount := h.account pos
  rw [count_eq_zero_of_not_mem (h.not_used hp)] at haccount
  have hbusy := h.busy pos
  have hlost := h.lost pos
  push_cast at haccount
  omega

theorem Fits.free_lt (h : Fits busy lost c used free) {pos : ℕ} (hp : pos ∈ free) : pos < c.capacity := by
  have heach := h.each pos
  have hpos := count_pos_iff.2 hp
  by_contra hge
  rw [if_neg hge] at heach
  omega

theorem Fits.perm (h : Fits busy lost c used free) : c.task_idx_ ~ range c.capacity := by
  rw [perm_iff_count]
  intro p
  rw [h.idx, count_append, count_range]
  exact h.each p

theorem Fits.freePart (h : Fits busy lost c used free) : c.freePart = free := by
  unfold Slots.freePart
  rw [h.pos]
  cases hf : free with
  | nil => rfl
  | cons pos rest =>
    simp only [head?_cons]
    rw [h.idx, hf, dropWhile_split (h.not_used (hf ▸ mem_cons_self))]

theorem Fits.nodup (h : Fits busy lost c used free) : c.task_to_del_.Nodup := by
  rw [nodup_iff_count_le_one]
  intro p
  have haccount := h.account p
  have heach := h.each p
  have hbusy := h.busy p
  have hlost := h.lost p
  split_ifs at heach
  all_goals omega

/-- one splice: the position is free afterwards, or lost if nothing was free before -/
theorem Fits.splice (h : Fits busy lost c used free) {pos : ℕ} {rest : List ℕ} (hdel : c.task_to_del_ = pos :: rest) :
    ∃ used' free', Fits busy (fun p => lost p + if free = [] then mark pos p else 0)
      { c with task_idx_ := spliceEnd c.task_idx_ pos, task_to_del_ := rest } used' free' ∧
      (free' = [] ↔ free = []) := by
  have hcount : ∀ p, c.task_to_del_.count p = rest.count p + if pos = p then 1 else 0 := by
    intro p
    rw [hdel, count_cons]
    simp
  have hmem : pos ∈ used := by
    have haccount := h.account pos
    have hbusy := h.busy pos
    have hlost := h.lost pos
    have hpos := hcount pos
    rw [if_pos rfl] at hpos
    exact count_pos_iff.1 (by omega)
  have herase : ∀ p, (used.erase pos).count p + (if pos = p then 1 else 0) = used.count p := by
    intro p
    rw [count_erase]
    by_cases hp : pos = p
    · subst hp
      have := count_pos_iff.2 hmem
      simp only [beq_self_eq_true, if_true]
      omega
    · simp [hp]
  have hsplice : spliceEnd c.task_idx_ pos = used.erase pos ++ free ++ [pos] := by
    rw [spliceEnd, h.idx, erase_append_left _ hmem]
  have hspliced : ∀ p, [pos].count p = if pos = p then 1 else 0 := by
    intro p
    rw [count_singleton]
    simp
  cases hfree : free with
  | nil =>
    -- spliced before `end()`, where `free_pos_` stays
    refine ⟨used.erase pos ++ [pos], [], ⟨?_, ?_, ?_, ?_, h.busy, ?_⟩, Iff.rfl⟩
    · simp [hsplice, hfree]
    · simpa [hfree] using h.pos
    · intro p
      have heach := h.each p
      rw [hfree] at heach
      rw [count_append, hspliced, herase]
      exact heach
    · intro p
      have haccount := h.account p
      rw [count_append, hspliced, herase, if_pos rfl, mark, ← haccount, hcount]
      push_cast
      ring
    · intro p
      have := h.lost p
      simp only [if_true, mark]
      split_ifs
      all_goals omega
  | cons v l =>
    refine ⟨used.erase pos, free ++ [pos], ⟨?_, ?_, ?_, ?_, h.busy, ?_⟩, by simp [hfree]⟩
    · simp [hsplice]
    · rw [hfree, cons_append, head?_cons]
      simpa [hfree] using h.pos
    · intro p
      refine Eq.trans ?_ (h.each p)
      rw [count_append, hspliced, ← herase p]
      ring
    · intro p
      have haccount := h.account p
      have hused := herase p
      have hdel := hcount p
      simp only [reduceCtorEq, if_false, add_zero]
      omega
    · intro p
      simpa using h.lost p

theorem Fits.gcInternal (h : Fits busy lost c used free) :
    ∃ used' free', Fits busy (fun p => lost p + if free = [] then (c.task_to_del_.count p : ℤ) else 0) c.gcInternal.1
      used' free' ∧ (free' = [] ↔ free = []) := by
  unfold Slots.gcInternal
  -- by induction on the positions to splice
  cases c with
  | mk task task_idx task_to_del free_pos =>
    dsimp only
    induction task_to_del generalizing task_idx lost used free with
    | nil =>
      refine ⟨used, free, ?_, Iff.rfl⟩
      simpa using h
    | cons pos rest ih =>
      obtain ⟨used', free', hsplice, hnil⟩ := h.splice rfl
      obtain ⟨used'', free'', hrest, hnil'⟩ := ih _ hsplice
      refine ⟨used'', free'', ?_, hnil'.trans hnil⟩
      have hlost : (fun p => lost p + if free = [] then ((pos :: rest).count p : ℤ) else 0) =
          fun p => (lost p + if free = [] then mark pos p else 0) + if free' = [] then (rest.count p : ℤ) else 0 := by
        funext p
        rw [count_cons]
        by_cases hfree : free = []
        · simp only [hfree, hnil.2 hfree, if_true, mark, beq_iff_eq]
          push_cast
          ring
        · simp [hfree, mt hnil.1 hfree]
      rw [hlost]
      exact hrest

theorem length_resize {l : List (Option ℕ)} {n : ℕ} (h : l.length ≤ n) : (resize l n).length = n := by
  rw [resize, length_append, length_replicate, length_take]
  omega

theorem resize_getElem? {l : List (Option ℕ)} {n p : ℕ} (h : l.length ≤ n) (hp : p < l.length) :
    (resize l n)[p]? = l[p]? := by
  rw [resize, take_of_length_le h, getElem?_append_left hp]

/-- when nothing is free, `grow` returns the first position it appends -/
theorem Fits.grow_free_pos (h : Fits busy lost c used []) (growth : ℕ → ℕ) (hc : 0 < c.capacity) :
    (c.grow growth).free_pos_ = (range' c.capacity (growth c.capacity - c.capacity)).head? := by
  have hidx := h.idx
  rw [append_nil] at hidx
  have hne : used ≠ [] := by
    have heach := h.each 0
    rw [if_pos hc, count_nil, add_zero] at heach
    have hpos : 0 < used.count 0 := by omega
    exact ne_nil_of_mem (count_pos_iff.1 hpos)
  -- the last position stands once in the list, so the one after it is the first new one
  obtain ⟨l, last, rfl⟩ : ∃ l last, used = l ++ [last] := ⟨_, _, (dropLast_concat_getLast hne).symm⟩
  have hlast : last ∉ l := by
    intro hm
    have heach := h.each last
    have hpos := count_pos_iff.2 hm
    rw [count_append, count_singleton_self] at heach
    split_ifs at heach
    all_goals omega
  simp only [Slots.grow]
  rw [hidx, getLast?_concat, Option.bind_some, append_assoc, singleton_append, next_split hlast]

/-- growth when nothing is free: the new positions are free -/
theorem Fits.grow (h : Fits busy lost c used []) {growth : ℕ → ℕ} (hc : 0 < c.capacity)
    (hg : c.capacity < growth c.capacity) :
    Fits busy lost (c.grow growth) used (range' c.capacity (growth c.capacity - c.capacity)) := by
  have hidx := h.idx
  rw [append_nil] at hidx
  have hcap : (c.grow growth).capacity = growth c.capacity := length_resize hg.le
  refine ⟨by rw [Slots.grow, hidx], h.grow_free_pos growth hc, ?_, h.account, h.busy, h.lost⟩
  intro p
  have heach := h.each p
  rw [count_nil, add_zero] at heach
  rw [heach, hcap, count_range_1']
  split_ifs
  all_goals omega

/-- a task is started in the first free slot -/
theorem Fits.take {index : ℕ} (h : Fits busy lost c used (index :: free)) (t : ℕ) :
    Fits (fun p => busy p + mark index p) lost (c.take index t) (used ++ [index]) free where
  idx := by rw [append_assoc, singleton_append]; exact h.idx
  pos := by
    rw [Slots.take, h.idx]
    exact next_split (h.not_used mem_cons_self)
  each := by
    intro p
    have hcap : (c.take index t).capacity = c.capacity := length_set
    simp only [hcap]
    rw [← h.each p, count_append, count_singleton, count_cons]
    ring
  account := by
    intro p
    have haccount := h.account p
    rw [count_append, count_singleton]
    simp only [Slots.take, mark, beq_iff_eq]
    push_cast
    rw [← haccount]
    ring
  busy := by
    intro p
    have := h.busy p
    rw [mark]
    split_ifs
    all_goals omega
  lost := h.lost

/-- a task of slot `pos` completes -/
theorem Fits.complete (h : Fits busy lost c used free) {pos : ℕ} (hpos : 1 ≤ busy pos) :
    Fits (fun p => busy p - mark pos p) lost (c.complete pos) used free where
  idx := h.idx
  pos := h.pos
  each := h.each
  account := by
    intro p
    rw [Slots.complete, count_append, count_singleton, ← h.account p]
    simp only [mark, beq_iff_eq]
    push_cast
    ring
  busy := by
    intro p
    have := h.busy p
    rw [mark]
    split_ifs with hp
    · subst hp
      omega
    · omega
  lost := h.lost

theorem capacity_cleaned (c : Slots) (cleanup : Bool) : (c.cleaned cleanup).capacity = c.capacity := by
  cases cleanup <;> rfl

/-- the cleanup of `start` -/
theorem Fits.cleaned (h : Fits busy lost c used free) (cleanup : Bool) :
    ∃ used' free', Fits busy (fun p => lost p + if cleanup ∧ free = [] then (c.task_to_del_.count p : ℤ) else 0)
      (c.cleaned cleanup) used' free' ∧ (free' = [] ↔ free = []) := by
  cases cleanup with
  | false =>
    refine ⟨used, free, ?_, Iff.rfl⟩
    simpa [Slots.cleaned] using h
  | true => simpa [Slots.cleaned] using h.gcInternal

/-- if `start` has to grow, the container has slots and gets more of them -/
def Slots.CanProvide (growth : ℕ → ℕ) (c : Slots) : Prop :=
  c.free_pos_ = none → 0 < c.capacity ∧ c.capacity < growth c.capacity

/-- the growth of `start`: afterwards some slot is free -/
theorem Fits.provided (h : Fits busy lost c used free) {growth : ℕ → ℕ} (hp : c.CanProvide growth) :
    ∃ index free', Fits busy lost (c.provided growth) used (index :: free') := by
  unfold Slots.provided
  cases free with
  | cons index free' =>
    rw [if_neg (by simp [h.pos])]
    exact ⟨index, free', h⟩
  | nil =>
    obtain ⟨hc, hg⟩ := hp h.pos
    rw [if_pos (by simp [h.pos])]
    have hne : range' c.capacity (growth c.capacity - c.capacity) ≠ [] := by
      simp
      omega
    obtain ⟨index, free', hfree⟩ := exists_cons_of_ne_nil hne
    exact ⟨index, free', hfree ▸ h.grow hc hg⟩

/-- otherwise `grow` returns `end()` -/
theorem Fits.canProvide (h : Fits busy lost c used free) {growth : ℕ → ℕ} {index : ℕ}
    (hindex : (c.provided growth).free_pos_ = some index) : c.CanProvide growth := by
  intro hnone
  obtain rfl : free = [] := head?_eq_none_iff.1 (h.pos.symm.trans hnone)
  rw [Slots.provided, if_pos hnone] at hindex
  have hc : 0 < c.capacity := by
    by_contra hc
    have hused : used = [] := by
      refine eq_nil_iff_forall_not_mem.2 fun p hp => ?_
      have heach := h.each p
      have hpos := count_pos_iff.2 hp
      rw [if_neg (by omega)] at heach
      omega
    have hidx := h.idx
    rw [hused, append_nil] at hidx
    simp [Slots.grow, hidx] at hindex
  refine ⟨hc, ?_⟩
  by_contra hg
  rw [h.grow_free_pos growth hc, Nat.sub_eq_zero_of_le (not_lt.1 hg)] at hindex
  cases hindex

/-- what `start` does not move: the tasks in the slots there are -/
theorem getElem?_provided {growth : ℕ → ℕ} (h : c.CanProvide growth) {p : ℕ} (hp : p < c.capacity) :
    (c.provided growth).task_[p]? = c.task_[p]? := by
  unfold Slots.provided
  split_ifs with hnone
  · exact resize_getElem? (h hnone).2.le hp
  · rfl

/-- growth adds only empty slots -/
theorem getElem?_of_provided {growth : ℕ → ℕ} {p t : ℕ} (h : (c.provided growth).task_[p]? = some (some t)) :
    c.task_[p]? = some (some t) := by
  unfold Slots.provided at h
  split_ifs at h
  · rw [Slots.grow, resize, getElem?_append] at h
    split_ifs at h
    · rw [getElem?_take] at h
      split_ifs at h
      exact h
    · rw [getElem?_replicate] at h
      split_ifs at h
      cases h
  · exact h

theorem capacity_provided {growth : ℕ → ℕ} (hg : c.capacity < growth c.capacity) :
    (c.provided growth).capacity = if c.free_pos_ = none then growth c.capacity else c.capacity := by
  unfold Slots.provided
  split_ifs
  · exact length_resize hg.le
  · rfl

/-! ## The container -/

/-- a started task: its cleanup task holds the position `pos`, and has been through its locked section or not -/
structure Task where
  pos : ℕ
  completed : Bool
deriving DecidableEq, Repr

structure St where
  slots : Slots
  size_ : ℤ
  /-- the tasks started so far, in order -/
  tasks : List Task
  /-- `end()` was dereferenced -/
  ub : Bool
deriving DecidableEq, Repr

def St.init (reserve_size : ℕ) : St := { slots := .init reserve_size, size_ := 0, tasks := [], ub := false }

def St.capacity (s : St) : ℕ := s.slots.capacity

/-- started tasks that have not completed -/
def St.uncompleted (s : St) : ℕ := s.tasks.countP (!·.completed)

inductive Op
  | start (cleanup : Bool)
  /-- the locked section at the end of the cleanup task of task `t` -/
  | complete (t : ℕ)
  | garbageCollect
deriving DecidableEq, Repr

/-- `task_container::start` -/
def St.start (growth : ℕ → ℕ) (cleanup : Bool) (s : St) : St :=
  let c := (s.slots.cleaned cleanup).provided growth
  match c.free_pos_ with
  | some index =>
    { s with slots := c.take index s.tasks.length, size_ := s.size_ + 1, tasks := s.tasks ++ [⟨index, false⟩] }
  | none => { s with slots := c, size_ := s.size_ + 1, ub := true }

def step (growth : ℕ → ℕ) (s : St) : Op → St
  | .start cleanup => s.start growth cleanup
  | .complete t =>
    match s.tasks[t]? with
    | some ⟨pos, false⟩ =>
      { s with slots := s.slots.complete pos, size_ := s.size_ - 1, tasks := s.tasks.set t ⟨pos, true⟩ }
    | _ => s
  | .garbageCollect => { s with slots := s.slots.gcInternal.1 }

/-- 1 for a task of slot `p` that has not completed -/
def Task.runs (p : ℕ) (x : Task) : ℤ := if x.pos = p ∧ x.completed = false then 1 else 0

/-- 1 for a task that has not completed -/
def Task.weight (x : Task) : ℤ := if x.completed then 0 else 1

structure Inv (s : St) (lost : ℕ → ℤ) (used free : List ℕ) : Prop where
  fits : Fits (fun p => tally (Task.runs p) s.tasks) lost s.slots used free
  size : s.size_ = tally Task.weight s.tasks
  /-- a task that has not completed is still in its slot -/
  held : ∀ (t : ℕ) (x : Task), s.tasks[t]? = some x → x.completed = false → s.slots.task_[x.pos]? = some (some t)
  defined : s.ub = false
  capacity : 0 < s.slots.capacity

variable {s : St} {growth : ℕ → ℕ}

theorem Task.runs_nonneg (p : ℕ) (x : Task) : 0 ≤ x.runs p := by
  rw [Task.runs]
  split_ifs
  all_goals simp

theorem init_inv {reserve_size : ℕ} (h : 1 ≤ reserve_size) :
    Inv (St.init reserve_size) (fun _ => 0) [] (range reserve_size) where
  fits := Fits.init reserve_size
  size := rfl
  held := nofun
  defined := rfl
  capacity := by
    rw [Slots.capacity, St.init, Slots.init, length_replicate]
    exact h

/-- a slot with no task in it that has not completed -/
theorem completed_of_runs {tasks : List Task} {p : ℕ} (h : tally (Task.runs p) tasks = 0) {x : Task} (hx : x ∈ tasks)
    (hp : x.pos = p) : x.completed = true := by
  have hruns := tally_eq_zero (Task.runs_nonneg p) h hx
  cases hcompleted : x.completed with
  | true => rfl
  | false =>
    rw [Task.runs, if_pos ⟨hp, hcompleted⟩] at hruns
    cases hruns

theorem Inv.pos_lt (h : Inv s lost used free) {t : ℕ} {x : Task} (ht : s.tasks[t]? = some x)
    (hx : x.completed = false) : x.pos < s.slots.capacity :=
  (List.getElem?_eq_some_iff.1 (h.held t x ht hx)).1

theorem Inv.canProvide (h : Inv s lost used free) (hg : s.capacity < growth s.capacity) (cleanup : Bool) :
    (s.slots.cleaned cleanup).CanProvide growth := by
  intro _
  rw [capacity_cleaned]
  exact ⟨h.capacity, hg⟩

theorem Inv.start (h : Inv s lost used free) (hg : s.capacity < growth s.capacity) (cleanup : Bool) :
    ∃ used' free', Inv (s.start growth cleanup)
      (fun p => lost p + if cleanup ∧ free = [] then (s.slots.task_to_del_.count p : ℤ) else 0) used' free' := by
  obtain ⟨used', free', hclean, -⟩ := h.fits.cleaned cleanup
  have hcap := capacity_cleaned s.slots cleanup
  have hcan := h.canProvide hg cleanup
  obtain ⟨index, rest, hfits⟩ := hclean.provided hcan
  have hpos : ((s.slots.cleaned cleanup).provided growth).free_pos_ = some index := hfits.pos
  have htask : (s.slots.cleaned cleanup).task_ = s.slots.task_ := by cases cleanup <;> rfl
  refine ⟨used' ++ [index], rest, ?_⟩
  simp only [St.start, hpos]
  refine ⟨?_, ?_, ?_, h.defined, ?_⟩
  · have hbusy : (fun p => tally (Task.runs p) (s.tasks ++ [⟨index, false⟩])) =
        fun p => tally (Task.runs p) s.tasks + mark index p := by
      funext p
      rw [tally_concat]
      simp [Task.runs, mark]
    rw [hbusy]
    exact hfits.take s.tasks.length
  · rw [tally_concat, h.size]
    simp [Task.weight]
  · -- a task that has not completed is in another slot
    intro t x ht hx
    simp only [Slots.take]
    rcases concat_cases ht with hold | ⟨rfl, rfl⟩
    · have hne : index ≠ x.pos := by
        rintro rfl
        have := completed_of_runs (hfits.not_busy mem_cons_self) (mem_of_getElem? hold) rfl
        rw [hx] at this
        cases this
      rw [getElem?_set_ne hne, getElem?_provided hcan (by rw [hcap]; exact h.pos_lt hold hx), htask]
      exact h.held t x hold hx
    · exact getElem?_set_self (hfits.free_lt mem_cons_self)
  · simp only [Slots.capacity, Slots.take, length_set]
    exact (Nat.zero_le _).trans_lt (hfits.free_lt mem_cons_self)

theorem Inv.complete (h : Inv s lost used free) (t : ℕ) : Inv (step growth s (.complete t)) lost used free := by
  simp only [step]
  split
  · rename_i pos ht
    have hruns : 1 ≤ tally (Task.runs pos) s.tasks := by
      have := le_tally (Task.runs_nonneg pos) (mem_of_getElem? ht)
      simpa [Task.runs] using this
    refine ⟨?_, ?_, ?_, h.defined, h.capacity⟩
    · have hbusy : (fun p => tally (Task.runs p) (s.tasks.set t ⟨pos, true⟩)) =
          fun p => tally (Task.runs p) s.tasks - mark pos p := by
        funext p
        rw [tally_set ht]
        simp [Task.runs, mark]
      rw [hbusy]
      exact h.fits.complete hruns
    · rw [tally_set ht, h.size]
      simp [Task.weight]
    · intro t' x ht' hx
      by_cases htt : t = t'
      · subst htt
        rw [getElem?_set_self (List.getElem?_eq_some_iff.1 ht).1] at ht'
        obtain rfl := Option.some.inj ht'
        cases hx
      · rw [getElem?_set_ne htt] at ht'
        exact h.held t' x ht' hx
  · exact h

theorem Inv.garbageCollect (h : Inv s lost used free) :
    ∃ used' free', Inv (step growth s .garbageCollect)
      (fun p => lost p + if free = [] then (s.slots.task_to_del_.count p : ℤ) else 0) used' free' := by
  obtain ⟨used', free', hfits, -⟩ := h.fits.gcInternal
  exact ⟨used', free', hfits, h.size, h.held, h.defined, h.capacity⟩

def Good (s : St) : Prop := ∃ lost used free, Inv s lost used free

theorem Good.step (h : Good s) {o : Op} (hg : s.capacity < growth s.capacity) : Good (step growth s o) := by
  rcases h with ⟨lost, used, free, h⟩
  cases o with
  | start cleanup => exact ⟨_, h.start hg cleanup⟩
  | complete t => exact ⟨_, _, _, h.complete t⟩
  | garbageCollect => exact ⟨_, h.garbageCollect⟩

/-! ## Busy slots are kept -/

/-- what is to hold of the container in every state -/
structure Sound (s : St) : Prop where
  defined : s.ub = false
  perm : s.slots.task_idx_ ~ range s.capacity
  /-- the free slots have no started task that has not completed -/
  free : ∀ p ∈ s.slots.freePart, ∀ x ∈ s.tasks, x.pos = p → x.completed = true
  /-- a task that has not completed has not been overwritten -/
  held : ∀ (t : ℕ) (x : Task), s.tasks[t]? = some x → x.completed = false → s.slots.task_[x.pos]? = some (some t)
  nodup : s.slots.task_to_del_.Nodup
  size : s.size_ = s.uncompleted

theorem tally_weight (tasks : List Task) : tally Task.weight tasks = tasks.countP (!·.completed) := by
  induction tasks with
  | nil => rfl
  | cons x tasks ih =>
    rw [tally_cons, ih, countP_cons]
    cases hx : x.completed <;> simp [Task.weight, hx, add_comm]

theorem Inv.sound (h : Inv s lost used free) : Sound s where
  defined := h.defined
  perm := h.fits.perm
  free := by
    intro p hp x hx
    rw [h.fits.freePart] at hp
    exact completed_of_runs (h.fits.not_busy hp) hx
  held := h.held
  nodup := h.fits.nodup
  size := by rw [h.size, tally_weight, St.uncompleted]

/-- the slot `start` assigns to has no task that has not completed -/
def AssignsFree (growth : ℕ → ℕ) (s : St) (o : Op) : Prop :=
  ∀ cleanup index, o = .start cleanup → ((s.slots.cleaned cleanup).provided growth).free_pos_ = some index →
    ∀ x ∈ s.tasks, x.pos = index → x.completed = true

theorem Inv.assignsFree (h : Inv s lost used free) (hg : s.capacity < growth s.capacity) (o : Op) :
    AssignsFree growth s o := by
  rintro cleanup index - hindex x hx hpos
  obtain ⟨used', free', hclean, -⟩ := h.fits.cleaned cleanup
  obtain ⟨index', rest, hfits⟩ := hclean.provided (h.canProvide hg cleanup)
  rw [hfits.pos, head?_cons] at hindex
  obtain rfl := Option.some.inj hindex
  exact completed_of_runs (hfits.not_busy mem_cons_self) hx hpos

/-- **A busy slot is never given to a new task.** For every reserve size from 1 on, every growth that enlarges each
capacity the run reaches, and every sequence of starts, completions and collections: in every state the list of slots is
a permutation of `0 .. capacity - 1`, the slots from `free_pos_` on have no started and uncompleted task, every such task
is still in its slot, each position waits in `task_to_del_` at most once and `size()` is the number of started and
uncompleted tasks; and no start assigns to the slot of an uncompleted task. -/
theorem busy_slots_kept (growth : ℕ → ℕ) (reserve_size : ℕ) (hr : 1 ≤ reserve_size) (ops : List Op)
    (hg : Always (step growth) (fun s => s.capacity < growth s.capacity) (St.init reserve_size) ops) :
    Always (step growth) Sound (St.init reserve_size) ops ∧
      Along (step growth) (AssignsFree growth) (St.init reserve_size) ops := by
  have hgood : Good (St.init reserve_size) := ⟨_, _, _, init_inv hr⟩
  constructor
  · have hstep : ∀ s o, Good s → s.capacity < growth s.capacity → Good (step growth s o) := fun s o h => h.step
    refine (always_of_inv hstep hgood hg.along).mono ?_
    intro s h
    rcases h with ⟨lost, used, free, h⟩
    exact h.sound
  · have hstep : ∀ s o, Good s → s.capacity < growth s.capacity → AssignsFree growth s o ∧ Good (step growth s o) := by
      intro s o h hg
      refine ⟨?_, h.step hg⟩
      rcases h with ⟨lost, used, free, h⟩
      exact h.assignsFree hg o
    exact along_of_inv hstep hgood hg.along

/-- two slots that double: the third start collects the slot of the second task, and grows -/
theorem busy_slots_kept_two :
    Always (step (2 * ·)) Sound (St.init 2) [.start true, .start true, .complete 1, .start true, .garbageCollect] ∧
      Along (step (2 * ·)) (AssignsFree (2 * ·)) (St.init 2)
        [.start true, .start true, .complete 1, .start true, .garbageCollect] :=
  busy_slots_kept (2 * ·) 2 (by decide) _ (by decide)

end TinyRpc.Async.TaskContainer
