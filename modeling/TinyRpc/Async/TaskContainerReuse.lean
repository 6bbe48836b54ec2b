/-
When a `task_container` gets its finished slots back.

`gc_internal` splices the positions of finished tasks before `end()`. As long as some slot is free, `free_pos_` stands
before them and they are free afterwards. When the container is exactly full, `free_pos_` is `end()`, it stays `end()`,
and the positions end up before it: they are free no more, and the start that collected them grows the container instead.
So a finished slot is reclaimed exactly when it is collected while some other slot is free.

Main results: `reclaims_iff`, for the default options and every sequence of operations: the container grows only when all
slots are busy, and its capacity stays within twice the largest number of uncompleted tasks, if no collection and no start
meets a full container with finished tasks in it; and only then, for sequences that end with a start. `full_loses`, the
shortest history of a default container that grows with all tasks finished.
-/
import Mathlib.Tactic
import TinyRpc.Async.TaskContainer

namespace TinyRpc.Async.TaskContainer

open List
open TinyRpc.Core

/-- `task_.size() * growth_factor_` with the default factor -/
def double (c : ℕ) : ℕ := c * 2

/-- a container with the default options -/
def defaultContainer : St := St.init 8

/-- every slot belongs to a task that has been started and has not completed; a cleanup changes no task -/
def Full (s : St) : Prop := ∀ p < s.capacity, ∃ x ∈ s.tasks, x.pos = p ∧ x.completed = false

/-- a start that enlarges the container finds it full -/
def GrowsFull (s : St) (o : Op) : Prop :=
  ∀ cleanup, o = .start cleanup → (step double s o).capacity ≠ s.capacity → Full s

/-- the condition on a step: a collection, and a start with or without one, does not find finished tasks waiting in
`task_to_del_` while `free_pos_` is `end()` -/
def Meets (s : St) (o : Op) : Prop :=
  (∀ t, o ≠ .complete t) → s.slots.free_pos_ = none → s.slots.task_to_del_ = []

variable {s : St} {lost : ℕ → ℤ} {used free : List ℕ}

theorem Inv.doubles (h : Inv s lost used free) : s.capacity < double s.capacity := by
  have hcap : 0 < s.capacity := h.capacity
  rw [double]
  omega

theorem Inv.free_eq_nil (h : Inv s lost used free) : s.slots.free_pos_ = none ↔ free = [] := by
  rw [h.fits.pos, head?_eq_none_iff]

/-- a start enlarges the container exactly when `free_pos_` is `end()`, cleanup or not -/
theorem Inv.capacity_start (h : Inv s lost used free) (cleanup : Bool) :
    (step double s (.start cleanup)).capacity = if s.slots.free_pos_ = none then double s.capacity else s.capacity := by
  have hcap := capacity_cleaned s.slots cleanup
  have hfree : (s.slots.cleaned cleanup).free_pos_ = s.slots.free_pos_ := by cases cleanup <;> rfl
  calc (step double s (.start cleanup)).capacity
      = ((s.slots.cleaned cleanup).provided double).capacity := by
        simp only [step, St.start]
        split
        · exact length_set
        · rfl
    _ = if s.slots.free_pos_ = none then double s.slots.capacity else s.slots.capacity := by
        rw [capacity_provided (by rw [hcap]; exact h.doubles), hfree, hcap]

theorem Inv.grows_iff (h : Inv s lost used free) (cleanup : Bool) :
    (step double s (.start cleanup)).capacity ≠ s.capacity ↔ s.slots.free_pos_ = none := by
  rw [h.capacity_start cleanup]
  split_ifs with hnone
  · exact iff_of_true h.doubles.ne' hnone
  · exact iff_of_false (not_not_intro rfl) hnone

theorem busy_iff {tasks : List Task} {p : ℕ} :
    (∃ x ∈ tasks, x.pos = p ∧ x.completed = false) ↔ 1 ≤ tally (Task.runs p) tasks := by
  constructor
  · intro hx
    rcases hx with ⟨x, hmem, hpos, hcompleted⟩
    have hle := le_tally (Task.runs_nonneg p) hmem
    rwa [Task.runs, if_pos ⟨hpos, hcompleted⟩] at hle
  · intro hruns
    by_contra hnone
    push Not at hnone
    have hzero : tally (Task.runs p) tasks = 0 := by
      refine tally_of_zero ?_
      intro x hx
      rw [Task.runs, if_neg]
      intro hc
      exact hnone x hx hc.1 hc.2
    omega

/-! ## While the condition is met, nothing is lost -/

/-- the account of a container that has lost no slot -/
def Whole (s : St) : Prop := ∃ used free, Inv s (fun _ => 0) used free

theorem Inv.whole (h : Inv s lost used free) (hlost : ∀ p, lost p = 0) : Whole s := by
  obtain rfl : lost = fun _ => 0 := funext hlost
  exact ⟨used, free, h⟩

theorem Whole.step (h : Whole s) {o : Op} (hm : Meets s o) : Whole (step double s o) := by
  rcases h with ⟨used, free, h⟩
  -- what a collection would lose
  have hzero : (∀ t, o ≠ .complete t) → ∀ p, free = [] → s.slots.task_to_del_.count p = 0 := by
    intro ho p hfree
    rw [hm ho (h.free_eq_nil.2 hfree), count_nil]
  cases o with
  | start cleanup =>
    obtain ⟨used', free', hstart⟩ := h.start h.doubles cleanup
    refine hstart.whole ?_
    intro p
    split_ifs with hc
    · rw [hzero nofun p hc.2]
      rfl
    · rfl
  | complete t => exact ⟨used, free, h.complete t⟩
  | garbageCollect =>
    obtain ⟨used', free', hgc⟩ := h.garbageCollect
    refine hgc.whole ?_
    intro p
    split_ifs with hc
    · rw [hzero nofun p hc]
      rfl
    · rfl

theorem Whole.growsFull (h : Whole s) {o : Op} (hm : Meets s o) : GrowsFull s o := by
  rintro cleanup rfl hgrows p hp
  rcases h with ⟨used, free, h⟩
  have hnone := (h.grows_iff cleanup).1 hgrows
  -- nothing free, nothing waiting and nothing lost: every slot is busy
  have haccount := h.fits.account p
  have heach := h.fits.each p
  have hlt : p < s.slots.capacity := hp
  rw [hm nofun hnone, count_nil] at haccount
  rw [h.free_eq_nil.1 hnone, count_nil, if_pos hlt] at heach
  rw [busy_iff]
  omega

/-! ## The capacity -/

/-- in a full container there are as many uncompleted tasks as slots -/
theorem Full.capacity_le (h : Full s) : s.capacity ≤ s.uncompleted := by
  have hsub : range s.capacity ⊆ (s.tasks.filter (!·.completed)).map Task.pos := by
    intro p hp
    obtain ⟨x, hx, hpos, hcompleted⟩ := h p (mem_range.1 hp)
    exact mem_map.2 ⟨x, mem_filter.2 ⟨hx, by simp [hcompleted]⟩, hpos⟩
  calc s.capacity = (range s.capacity).length := length_range.symm
    _ ≤ ((s.tasks.filter (!·.completed)).map Task.pos).length := (nodup_range.subperm hsub).length_le
    _ = s.uncompleted := by rw [length_map, St.uncompleted, countP_eq_length_filter]

/-- a step leaves the capacity as it is, or is a start that doubles it -/
theorem Inv.capacity_step (h : Inv s lost used free) (o : Op) :
    (step double s o).capacity = s.capacity ∨
      ∃ cleanup, o = .start cleanup ∧ (step double s o).capacity = double s.capacity := by
  cases o with
  | complete t =>
    refine Or.inl ?_
    simp only [TaskContainer.step]
    split <;> rfl
  | garbageCollect => exact Or.inl rfl
  | start cleanup =>
    rw [h.capacity_start cleanup]
    split_ifs
    · exact Or.inr ⟨cleanup, rfl, rfl⟩
    · exact Or.inl rfl

theorem default_whole : Whole defaultContainer := ⟨[], range 8, init_inv (by decide)⟩

theorem whole_run {ops : List Op} (h : Along (step double) Meets defaultContainer ops) :
    Whole (run (step double) defaultContainer ops) := by
  have hstep : ∀ s o, Whole s → Meets s o → Whole (step double s o) := fun s o h => h.step
  exact (always_of_inv hstep default_whole h).last

/-- the capacity is 8, or at most twice the number of tasks that were uncompleted at some moment of the run -/
theorem capacity_bounded {ops : List Op} (h : Along (step double) Meets defaultContainer ops) :
    ∃ j ≤ ops.length, (run (step double) defaultContainer ops).capacity ≤
      max 8 (2 * (run (step double) defaultContainer (ops.take j)).uncompleted) := by
  induction ops using List.reverseRecOn with
  | nil => exact ⟨0, le_rfl, le_max_left _ _⟩
  | append_singleton ops o ih =>
    have hops := (along_append.1 h).1
    have hwhole := whole_run hops
    obtain ⟨used, free, hinv⟩ := hwhole
    rw [run_concat, length_append, length_singleton]
    rcases hinv.capacity_step o with hsame | ⟨cleanup, rfl, hdouble⟩
    · obtain ⟨j, hj, hle⟩ := ih hops
      refine ⟨j, by omega, ?_⟩
      rw [hsame, take_append_of_le_length hj]
      exact hle
    · -- it was full before it grew
      have hfull := Whole.growsFull ⟨used, free, hinv⟩ h.last cleanup rfl (by rw [hdouble]; exact hinv.doubles.ne')
      refine ⟨ops.length, Nat.le_succ _, ?_⟩
      rw [hdouble, take_left, double, mul_comm]
      exact le_max_of_le_right (Nat.mul_le_mul_left 2 hfull.capacity_le)

/-! ## A slot that is lost -/

/-- nothing is free, and some slot neither runs a task nor waits to be collected -/
def Broken (s : St) : Prop :=
  s.slots.free_pos_ = none ∧ ∃ p < s.capacity, tally (Task.runs p) s.tasks = 0 ∧ p ∉ s.slots.task_to_del_

theorem not_full {p : ℕ} (hp : p < s.capacity) (hruns : tally (Task.runs p) s.tasks = 0) : ¬ Full s := by
  intro hfull
  have := busy_iff.1 (hfull p hp)
  omega

/-- the next start after a slot was lost enlarges a container that is not full -/
theorem Broken.start (h : Broken s) (hi : Inv s lost used free) (cleanup : Bool) : ¬ GrowsFull s (.start cleanup) := by
  rcases h with ⟨hnone, p, hp, hruns, -⟩
  intro hg
  exact not_full hp hruns (hg cleanup rfl ((hi.grows_iff cleanup).2 hnone))

/-- until then the slot stays lost -/
theorem Broken.step (h : Broken s) {o : Op} (ho : ∀ cleanup, o ≠ .start cleanup) : Broken (step double s o) := by
  rcases h with ⟨hnone, p, hp, hruns, hdel⟩
  cases o with
  | start cleanup => exact absurd rfl (ho cleanup)
  | complete t =>
    simp only [TaskContainer.step]
    split
    · rename_i pos ht
      have hne : pos ≠ p := by
        rintro rfl
        have := completed_of_runs hruns (mem_of_getElem? ht) rfl
        cases this
      refine ⟨hnone, p, hp, ?_, ?_⟩
      · rw [tally_set ht, hruns]
        simp [Task.runs, hne]
      · simp [Slots.complete, hdel, hne.symm]
    · exact ⟨hnone, p, hp, hruns, hdel⟩
  | garbageCollect => exact ⟨hnone, p, hp, hruns, not_mem_nil⟩

/-- what a step that fails the condition does -/
theorem Inv.broken (h : Inv s lost used free) {o : Op} (hm : ¬ Meets s o) :
    ¬ GrowsFull s o ∨ (∀ cleanup, o ≠ .start cleanup) ∧ Broken (step double s o) := by
  simp only [Meets, Classical.not_imp] at hm
  obtain ⟨ho, hnone, hne⟩ := hm
  obtain ⟨p, hp⟩ := exists_mem_of_ne_nil _ hne
  -- a waiting slot runs no task
  have hruns : tally (Task.runs p) s.tasks = 0 ∧ p < s.capacity := by
    have haccount := h.fits.account p
    have heach := h.fits.each p
    have hbusy := h.fits.busy p
    have hlost := h.fits.lost p
    have hpos := count_pos_iff.2 hp
    split_ifs at heach with hlt
    · exact ⟨by omega, hlt⟩
    · omega
  cases o with
  | complete t => exact absurd rfl (ho t)
  | start cleanup =>
    refine Or.inl ?_
    intro hg
    exact not_full hruns.2 hruns.1 (hg cleanup rfl ((h.grows_iff cleanup).2 hnone))
  | garbageCollect => exact Or.inr ⟨nofun, hnone, p, hruns.2, hruns.1, not_mem_nil⟩

theorem Broken.grows (h : Broken s) (hi : Good s) (ops : List Op) (cleanup : Bool) :
    ¬ Along (TaskContainer.step double) GrowsFull s (ops ++ [Op.start cleanup]) := by
  induction ops generalizing s with
  | nil =>
    intro hg
    obtain ⟨_, _, _, hi⟩ := hi
    exact h.start hi cleanup hg.1
  | cons o ops ih =>
    intro hg
    have hi' := hi
    obtain ⟨_, _, _, hinv⟩ := hi'
    by_cases ho : ∃ cleanup, o = .start cleanup
    · obtain ⟨cleanup', rfl⟩ := ho
      exact h.start hinv cleanup' hg.1
    · exact ih (h.step fun cleanup' hc => ho ⟨cleanup', hc⟩) (hi.step hinv.doubles) hg.2

/-! ## Whole runs -/

/-- a run that fails the condition somewhere and ends with a start enlarges a container that is not full -/
theorem meets_of_growsFull (hi : Good s) {ops : List Op} {cleanup : Bool}
    (hg : Along (TaskContainer.step double) GrowsFull s (ops ++ [Op.start cleanup])) :
    Along (TaskContainer.step double) Meets s (ops ++ [Op.start cleanup]) := by
  induction ops generalizing s with
  | nil =>
    rcases hi with ⟨_, _, _, hi⟩
    refine ⟨?_, trivial⟩
    by_contra hm
    rcases hi.broken hm with hnot | ⟨ho, -⟩
    · exact hnot hg.1
    · exact ho cleanup rfl
  | cons o ops ih =>
    have hgood := hi
    rcases hi with ⟨_, _, _, hi⟩
    have hstep : Good (TaskContainer.step double s o) := hgood.step hi.doubles
    refine ⟨?_, ih hstep hg.2⟩
    by_contra hm
    rcases hi.broken hm with hnot | ⟨-, hbroken⟩
    · exact hnot hg.1
    · exact hbroken.grows hstep ops cleanup hg.2

/-- **When every finished slot is reclaimed.** For the default options and every sequence of starts, completions and
collections: if no start and no collection finds finished tasks waiting while `free_pos_` is `end()`, then a start
enlarges the container only when every slot belongs to an uncompleted task, and the capacity is at every moment at most 8
or twice the number of uncompleted tasks at some earlier moment. A sequence that ends with a start, and in which every
start enlarges the container only when it is full, meets this condition all along. -/
theorem reclaims_iff (ops : List Op) :
    (Along (step double) Meets defaultContainer ops → Along (step double) GrowsFull defaultContainer ops ∧
      ∀ k ≤ ops.length, ∃ j ≤ k, (run (step double) defaultContainer (ops.take k)).capacity ≤
        max 8 (2 * (run (step double) defaultContainer (ops.take j)).uncompleted)) ∧
      ∀ cleanup, Along (step double) GrowsFull defaultContainer (ops ++ [Op.start cleanup]) →
        Along (step double) Meets defaultContainer (ops ++ [Op.start cleanup]) := by
  refine ⟨?_, fun cleanup hg => meets_of_growsFull ⟨_, _, _, init_inv (by decide)⟩ hg⟩
  intro hm
  constructor
  · have hstep : ∀ s o, Whole s → Meets s o → GrowsFull s o ∧ Whole (step double s o) :=
      fun s o h hm => ⟨h.growsFull hm, h.step hm⟩
    exact along_of_inv hstep default_whole hm
  · intro k hk
    rw [← take_append_drop k ops] at hm
    obtain ⟨j, hj, hle⟩ := capacity_bounded (along_append.1 hm).1
    rw [length_take, min_eq_left hk] at hj
    refine ⟨j, hj, ?_⟩
    rwa [take_take, min_eq_left hj] at hle

/-- Eight tasks are started and completed, and a ninth is started: the container grows to 16 slots, though no task is
uncompleted and all eight slots have been collected. -/
theorem full_loses :
    ¬ Along (step double) GrowsFull defaultContainer
      (replicate 8 (.start true) ++ (range 8).map .complete ++ [Op.start true]) := by
  intro h
  obtain ⟨x, hx, -, hcompleted⟩ := h.last true rfl (by decide) 0 (by decide)
  have hnone : ∀ x ∈ (run (step double) defaultContainer (replicate 8 (.start true) ++ (range 8).map .complete)).tasks,
      x.completed = true := by decide
  rw [hnone x hx] at hcompleted
  cases hcompleted

end TinyRpc.Async.TaskContainer
