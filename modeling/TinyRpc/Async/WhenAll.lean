/-
`when_all` and its latch (async/when_all.hpp).

A coroutine that awaits `when_all` of `n` tasks starts them one after the other, stores its handle in the latch and
counts itself out; each task, at its completion notifier, counts itself out as well, and whoever counts out last makes
the coroutine go on. The latch starts at `n + 1`, so the awaiter is one of those who count.

Any interleaving is a run: the awaiter's thread and the tasks move one atomic step at a time, in any order. A task that
completes inside `start` is one whose steps come before the awaiter's next one; a task that completes elsewhere may be
overtaken by the loop. The value, the void and the exceptional completion all end in the same notifier: `yield_value`
returns `final_suspend()`, `return_void` and `unhandled_exception` fall through to it.

`count_` is an integer here, so that a decrement of zero would be seen and not wrap. The empty parameter pack has a
specialisation of its own, whose `await_ready` is true and which has no latch; no tasks are covered here by the empty
range.

Main results: `step_inv`, the invariant of the countdown; `awaiter_continues_once`, for every number of tasks and every
run.
-/
import Mathlib.Tactic
import TinyRpc.Core.Machine
import TinyRpc.Core.Tally

namespace TinyRpc.Async.WhenAll

open List
open TinyRpc.Core

variable {α ε : Type}

/-! ## The latch, the tasks and the awaiter -/

/-- how a task ends: `co_yield` of a value, `co_return`, or an exception -/
inductive Outcome (α ε : Type)
  | value (return_value_ : α)
  | void
  | exception (except_ptr : ε)
deriving DecidableEq, Repr

/-- where a `when_all_task` stands -/
inductive TaskPc (α ε : Type)
  /-- at its initial suspend point -/
  | created
  /-- resumed by `start`, with `latch_` set -/
  | running
  /-- in the completion notifier, before the `fetch_sub` -/
  | arrived (r : Outcome α ε)
  /-- its `fetch_sub` returned 1: `awaiting_co_.resume()` is next -/
  | resuming (r : Outcome α ε)
  | done (r : Outcome α ε)
deriving DecidableEq, Repr

/-- where the awaiting coroutine's `co_await` stands -/
inductive AwaiterPc
  /-- before `await_ready` -/
  | ready
  /-- in the loop of `when_all_ready_awaitable::try_await`, about to start task `i` -/
  | starting (i : ℕ)
  /-- `awaiting_co_` is written, the `fetch_sub` of `when_all_latch::try_await` is next -/
  | stored
  /-- `await_suspend` returned this -/
  | left (suspended : Bool)
deriving DecidableEq, Repr

/-- why the awaiting coroutine went on -/
inductive How
  /-- `await_ready` returned true -/
  | ready
  /-- `try_await` returned false -/
  | refused
  /-- task `i` resumed the handle it found in `awaiting_co_` -/
  | resumed (i : ℕ) (awaiting_co_ : Option ℕ)
deriving DecidableEq, Repr

structure St (α ε : Type) where
  count_ : ℤ
  awaiting_co_ : Option ℕ
  awaiter : AwaiterPc
  tasks : List (TaskPc α ε)
  /-- each time the awaiting coroutine went on, oldest first -/
  wentOn : List How
deriving DecidableEq, Repr

/-- `when_all_latch(n)` and `n` tasks at their initial suspend points -/
def init (n : ℕ) : St α ε :=
  { count_ := n + 1, awaiting_co_ := none, awaiter := .ready, tasks := List.replicate n .created, wentOn := [] }

/-- `when_all_latch::is_ready`; `finished` says which coroutines are done -/
def St.isReady (finished : ℕ → Bool) (s : St α ε) : Bool :=
  match s.awaiting_co_ with
  | none => false
  | some co => finished co

inductive Op (α ε : Type)
  | awaitReady
  /-- one turn of the starting loop -/
  | start
  /-- `awaiting_co_ = awaiting_coroutine` -/
  | store
  /-- the `fetch_sub` of `try_await` -/
  | tryAwait
  /-- task `i` comes to its completion notifier -/
  | complete (i : ℕ) (r : Outcome α ε)
  /-- the `fetch_sub` of `notify_awaitable_completed` -/
  | notify (i : ℕ)
  /-- `awaiting_co_.resume()` -/
  | resume (i : ℕ)

/-- one atomic step, for an awaiting coroutine with handle `co`; an operation whose party is elsewhere does nothing -/
def step (finished : ℕ → Bool) (co : ℕ) (s : St α ε) : Op α ε → St α ε
  | .awaitReady =>
    if s.awaiter = .ready then
      if s.isReady finished then { s with awaiter := .left false, wentOn := s.wentOn ++ [.ready] }
      else { s with awaiter := .starting 0 }
    else s
  | .start =>
    match s.awaiter with
    | .starting i =>
      if i < s.tasks.length then { s with awaiter := .starting (i + 1), tasks := s.tasks.set i .running } else s
    | _ => s
  | .store =>
    match s.awaiter with
    | .starting i => if i < s.tasks.length then s else { s with awaiter := .stored, awaiting_co_ := some co }
    | _ => s
  | .tryAwait =>
    if s.awaiter = .stored then
      if s.count_ > 1 then { s with count_ := s.count_ - 1, awaiter := .left true }
      else { s with count_ := s.count_ - 1, awaiter := .left false, wentOn := s.wentOn ++ [.refused] }
    else s
  | .complete i r =>
    match s.tasks[i]? with
    | some .running => { s with tasks := s.tasks.set i (.arrived r) }
    | _ => s
  | .notify i =>
    match s.tasks[i]? with
    | some (.arrived r) =>
      if s.count_ = 1 then { s with count_ := s.count_ - 1, tasks := s.tasks.set i (.resuming r) }
      else { s with count_ := s.count_ - 1, tasks := s.tasks.set i (.done r) }
    | _ => s
  | .resume i =>
    match s.tasks[i]? with
    | some (.resuming r) =>
      { s with tasks := s.tasks.set i (.done r), wentOn := s.wentOn ++ [.resumed i s.awaiting_co_] }
    | _ => s

/-! ## The countdown -/

/-- 1 for a task that has not counted itself out -/
def TaskPc.pending : TaskPc α ε → ℤ
  | .created | .running | .arrived _ => 1
  | .resuming _ | .done _ => 0

/-- 1 for a task that is about to resume the awaiting coroutine -/
def TaskPc.holds : TaskPc α ε → ℤ
  | .resuming _ => 1
  | _ => 0

/-- 1 for an awaiter that has not counted itself out -/
def AwaiterPc.pending : AwaiterPc → ℤ
  | .left _ => 0
  | _ => 1

/-- the awaiter has gone past task `i` in its starting loop -/
def AwaiterPc.Past (i : ℕ) : AwaiterPc → Prop
  | .ready => False
  | .starting j => i < j
  | .stored | .left _ => True

def AwaiterPc.Stored : AwaiterPc → Prop
  | .ready | .starting _ => False
  | .stored | .left _ => True

theorem TaskPc.pending_nonneg (t : TaskPc α ε) : 0 ≤ t.pending := by
  cases t <;> simp [TaskPc.pending]

theorem TaskPc.holds_nonneg (t : TaskPc α ε) : 0 ≤ t.holds := by
  cases t <;> simp [TaskPc.holds]

theorem AwaiterPc.pending_nonneg (a : AwaiterPc) : 0 ≤ a.pending := by
  cases a <;> simp [AwaiterPc.pending]

/-- the awaiting coroutine went on because of the countdown, with its own handle -/
def How.Legit (co : ℕ) : How → Prop
  | .ready => False
  | .refused => True
  | .resumed _ h => h = some co

structure Inv (n co : ℕ) (s : St α ε) : Prop where
  length : s.tasks.length = n
  /-- the counter is the number of those who have not counted themselves out -/
  count : s.count_ = tally TaskPc.pending s.tasks + s.awaiter.pending
  /-- one party, the last to count out, makes the coroutine go on: it is about to, or has done so -/
  last : tally TaskPc.holds s.tasks + s.wentOn.length = if s.count_ = 0 then 1 else 0
  unset : s.awaiter = .ready → s.awaiting_co_ = none
  stored : s.awaiter.Stored → s.awaiting_co_ = some co
  started : ∀ i t, s.tasks[i]? = some t → (t = .created ↔ ¬ s.awaiter.Past i)
  legit : ∀ h ∈ s.wentOn, h.Legit co

variable {finished : ℕ → Bool} {n co : ℕ} {s : St α ε}

theorem init_inv (n co : ℕ) : Inv n co (init n : St α ε) where
  length := length_replicate
  count := by simp [init, tally_replicate, TaskPc.pending, AwaiterPc.pending]
  last := by
    have : (n : ℤ) + 1 ≠ 0 := by omega
    simp [init, tally_replicate, TaskPc.holds, this]
  unset := fun _ => rfl
  stored := False.elim
  started := by
    intro i t ht
    rw [init, getElem?_replicate] at ht
    split_ifs at ht
    obtain rfl := Option.some.inj ht
    exact ⟨fun _ h => h, fun _ => rfl⟩
  legit := by simp [init]

/-- a task other than the one at `i` is not touched -/
theorem Inv.started_set (h : Inv n co s) {i : ℕ} {t : TaskPc α ε} (hi : s.awaiter.Past i) (ht : t ≠ .created) :
    ∀ j t', (s.tasks.set i t)[j]? = some t' → (t' = .created ↔ ¬ s.awaiter.Past j) := by
  intro j t' hj
  by_cases hij : i = j
  · subst hij
    rw [getElem?_set_self'] at hj
    obtain ⟨-, -, rfl⟩ := Option.map_eq_some_iff.1 hj
    exact iff_of_false ht (not_not_intro hi)
  · rw [getElem?_set_ne hij] at hj
    exact h.started j t' hj

theorem Inv.past (h : Inv n co s) {i : ℕ} {t : TaskPc α ε} (hi : s.tasks[i]? = some t) (ht : t ≠ .created) :
    s.awaiter.Past i :=
  not_not.1 fun hp => ht ((h.started i t hi).2 hp)

theorem Inv.awaitReady (h : Inv n co s) : Inv n co (step finished co s .awaitReady) := by
  simp only [step]
  split_ifs with hready hco
  · rw [St.isReady, h.unset hready] at hco
    cases hco
  · refine { h with count := ?_, unset := nofun, stored := False.elim, started := ?_ }
    · rw [h.count, hready]
      rfl
    · intro i t ht
      rw [h.started i t ht, hready]
      simp [AwaiterPc.Past]
  · exact h

theorem Inv.start (h : Inv n co s) : Inv n co (step finished co s .start) := by
  simp only [step]
  split
  · rename_i i hi
    split_ifs with hlt
    · have hget := getElem?_eq_getElem hlt
      -- the task the loop has come to is at its initial suspend point
      have hcreated : s.tasks[i] = .created := (h.started i _ hget).2 (by simp [hi, AwaiterPc.Past])
      rw [hcreated] at hget
      refine { h with length := by simpa using h.length, count := ?_, last := ?_, unset := nofun, stored := False.elim,
                      started := ?_ }
      · rw [tally_set hget, h.count, hi]
        simp [TaskPc.pending, AwaiterPc.pending]
      · rw [tally_set hget]
        simpa [TaskPc.holds] using h.last
      · intro j t hj
        by_cases hij : i = j
        · subst hij
          rw [getElem?_set_self hlt] at hj
          obtain rfl := Option.some.inj hj
          simp [AwaiterPc.Past]
        · rw [getElem?_set_ne hij] at hj
          rw [h.started j t hj, hi]
          simp only [AwaiterPc.Past]
          omega
    · exact h
  · exact h

theorem Inv.store (h : Inv n co s) : Inv n co (step finished co s .store) := by
  simp only [step]
  split
  · rename_i i hi
    split_ifs with hlt
    · exact h
    · refine { h with count := ?_, unset := nofun, stored := fun _ => rfl, started := ?_ }
      · rw [h.count, hi]
        rfl
      · intro j t hj
        have hlen : j < s.tasks.length := (List.getElem?_eq_some_iff.1 hj).1
        rw [h.started j t hj, hi]
        simp only [AwaiterPc.Past, not_true_eq_false, iff_false]
        omega
  · exact h

theorem Inv.tryAwait (h : Inv n co s) : Inv n co (step finished co s .tryAwait) := by
  simp only [step]
  split_ifs with hst hc
  · have hcount := h.count
    rw [hst] at hcount
    refine { h with count := ?_, last := ?_, unset := nofun, stored := fun _ => h.stored (by rw [hst]; trivial),
                    started := ?_ }
    · rw [hcount]
      simp [AwaiterPc.pending]
    · have hlast := h.last
      rw [if_neg (by omega)] at hlast
      rw [hlast, if_neg (by simp only; omega)]
    · intro i t ht
      rw [h.started i t ht, hst]
      simp [AwaiterPc.Past]
  · have hcount := h.count
    have hpend := tally_nonneg TaskPc.pending_nonneg s.tasks
    rw [hst] at hcount
    simp only [AwaiterPc.pending] at hcount
    refine { h with count := ?_, last := ?_, unset := nofun, stored := fun _ => h.stored (by rw [hst]; trivial),
                    started := ?_, legit := ?_ }
    · rw [hcount]
      simp [AwaiterPc.pending]
    · -- nobody else is left: this is the last count
      have hlast := h.last
      rw [if_neg (by omega)] at hlast
      rw [length_append, if_pos (by simp only; omega)]
      push_cast
      simp only [length_singleton]
      omega
    · intro i t ht
      rw [h.started i t ht, hst]
      simp [AwaiterPc.Past]
    · intro w hw
      rcases mem_append.1 hw with hw | hw
      · exact h.legit w hw
      · obtain rfl := mem_singleton.1 hw
        trivial
  · exact h

theorem Inv.complete (h : Inv n co s) (i : ℕ) (r : Outcome α ε) : Inv n co (step finished co s (.complete i r)) := by
  simp only [step]
  split
  · rename_i hi
    refine { h with length := by simpa using h.length, count := ?_, last := ?_,
                    started := h.started_set (h.past hi nofun) nofun }
    · rw [tally_set hi, h.count]
      simp [TaskPc.pending]
    · rw [tally_set hi]
      simpa [TaskPc.holds] using h.last
  · exact h

theorem Inv.notify (h : Inv n co s) (i : ℕ) : Inv n co (step finished co s (.notify i)) := by
  simp only [step]
  split
  · rename_i r hi
    have hlast := h.last
    have hpend : 1 ≤ tally TaskPc.pending s.tasks := le_tally TaskPc.pending_nonneg (mem_of_getElem? hi)
    have hcount := h.count
    have hawait := s.awaiter.pending_nonneg
    rw [if_neg (by omega)] at hlast
    split_ifs with hc
    · refine { h with length := by simpa using h.length, count := ?_, last := ?_,
                      started := h.started_set (h.past hi nofun) nofun }
      · rw [tally_set hi, h.count]
        simp only [TaskPc.pending]
        ring
      · rw [tally_set hi, if_pos (by simp only; omega)]
        simp only [TaskPc.holds]
        omega
    · refine { h with length := by simpa using h.length, count := ?_, last := ?_,
                      started := h.started_set (h.past hi nofun) nofun }
      · rw [tally_set hi, h.count]
        simp only [TaskPc.pending]
        ring
      · rw [tally_set hi, if_neg (by simp only; omega)]
        simp only [TaskPc.holds]
        omega
  · exact h

/-- when the count is out, everyone has counted and the handle is stored -/
theorem Inv.counted (h : Inv n co s) (hc : s.count_ = 0) :
    tally TaskPc.pending s.tasks = 0 ∧ ∃ b, s.awaiter = .left b := by
  have hpend := tally_nonneg TaskPc.pending_nonneg s.tasks
  have hcount := h.count
  rw [hc] at hcount
  cases ha : s.awaiter with
  | ready | starting _ | stored =>
    rw [ha] at hcount
    simp only [AwaiterPc.pending] at hcount
    omega
  | left b =>
    rw [ha] at hcount
    simp only [AwaiterPc.pending] at hcount
    exact ⟨by omega, b, rfl⟩

theorem Inv.count_zero (h : Inv n co s) (hw : tally TaskPc.holds s.tasks + s.wentOn.length ≠ 0) : s.count_ = 0 := by
  by_contra hc
  exact hw (h.last.trans (if_neg hc))

theorem Inv.resume (h : Inv n co s) (i : ℕ) : Inv n co (step finished co s (.resume i)) := by
  simp only [step]
  split
  · rename_i r hi
    have hhold : 1 ≤ tally TaskPc.holds s.tasks := le_tally TaskPc.holds_nonneg (mem_of_getElem? hi)
    have hc : s.count_ = 0 := h.count_zero (by omega)
    obtain ⟨-, b, hb⟩ := h.counted hc
    refine { h with length := by simpa using h.length, count := ?_, last := ?_,
                    started := h.started_set (h.past hi nofun) nofun, legit := ?_ }
    · rw [tally_set hi, h.count]
      simp [TaskPc.pending]
    · rw [tally_set hi, length_append, ← h.last]
      simp only [TaskPc.holds, length_singleton]
      push_cast
      ring
    · intro w hw
      rcases mem_append.1 hw with hw | hw
      · exact h.legit w hw
      · obtain rfl := mem_singleton.1 hw
        exact h.stored (by rw [hb]; trivial)
  · exact h

theorem step_inv (h : Inv n co s) (o : Op α ε) : Inv n co (step finished co s o) := by
  cases o with
  | awaitReady => exact h.awaitReady
  | start => exact h.start
  | store => exact h.store
  | tryAwait => exact h.tryAwait
  | complete i r => exact h.complete i r
  | notify i => exact h.notify i
  | resume i => exact h.resume i

/-! ## The countdown ends -/

def TaskPc.isDone : TaskPc α ε → Bool
  | .done _ => true
  | _ => false

/-- `await_suspend` has returned and every task is through with its notifier -/
def St.Finished (s : St α ε) : Prop := (∃ b, s.awaiter = .left b) ∧ ∀ t ∈ s.tasks, t.isDone

/-- steps a task has before it -/
def TaskPc.rank : TaskPc α ε → ℤ
  | .created => 4
  | .running => 3
  | .arrived _ => 2
  | .resuming _ => 1
  | .done _ => 0

/-- steps an awaiter has before it, not counting the turns of its loop -/
def AwaiterPc.rank : AwaiterPc → ℤ
  | .ready => 3
  | .starting _ => 2
  | .stored => 1
  | .left _ => 0

def St.rank (s : St α ε) : ℤ := tally TaskPc.rank s.tasks + s.awaiter.rank

theorem St.rank_nonneg (s : St α ε) : 0 ≤ s.rank := by
  refine add_nonneg (tally_nonneg ?_ _) ?_
  · intro t
    cases t <;> simp [TaskPc.rank]
  · cases s.awaiter <;> simp [AwaiterPc.rank]

theorem tally_rank_lt {i : ℕ} {t t' : TaskPc α ε} (hi : s.tasks[i]? = some t) (ht : t'.rank < t.rank) :
    tally TaskPc.rank (s.tasks.set i t') < tally TaskPc.rank s.tasks := by
  rw [tally_set hi]
  omega

/-- a task that has been started can always move on -/
theorem task_moves {i : ℕ} {t : TaskPc α ε} (hi : s.tasks[i]? = some t) (hne : t ≠ .created) (hdone : ¬ t.isDone) :
    ∃ o, (step finished co s o).rank < s.rank := by
  cases t with
  | created => exact absurd rfl hne
  | running =>
    refine ⟨.complete i .void, ?_⟩
    simp only [step, hi]
    exact add_lt_add_left (tally_rank_lt hi (by simp [TaskPc.rank])) _
  | arrived r =>
    refine ⟨.notify i, ?_⟩
    simp only [step, hi]
    split_ifs
    all_goals exact add_lt_add_left (tally_rank_lt hi (by simp [TaskPc.rank])) _
  | resuming r =>
    refine ⟨.resume i, ?_⟩
    simp only [step, hi]
    exact add_lt_add_left (tally_rank_lt hi (by simp [TaskPc.rank])) _
  | done r => exact absurd rfl hdone

/-- until it is finished, somebody can move -/
theorem Inv.progress (finished : ℕ → Bool) (h : Inv n co s) (hs : ¬ s.Finished) :
    ∃ o, (step finished co s o).rank < s.rank := by
  cases ha : s.awaiter with
  | ready =>
    refine ⟨.awaitReady, ?_⟩
    simp [step, ha, St.isReady, h.unset ha, St.rank, AwaiterPc.rank]
  | starting i =>
    by_cases hlt : i < s.tasks.length
    · have hget := getElem?_eq_getElem hlt
      have hcreated : s.tasks[i] = .created := (h.started i _ hget).2 (by simp [ha, AwaiterPc.Past])
      rw [hcreated] at hget
      refine ⟨.start, ?_⟩
      simp only [step, ha, if_pos hlt, St.rank]
      exact add_lt_add_left (tally_rank_lt hget (by simp [TaskPc.rank])) _
    · refine ⟨.store, ?_⟩
      simp [step, ha, hlt, St.rank, AwaiterPc.rank]
  | stored =>
    refine ⟨.tryAwait, ?_⟩
    simp only [step, ha, if_true]
    split_ifs
    all_goals simp [St.rank, ha, AwaiterPc.rank]
  | left b =>
    obtain ⟨t, ht, hdone⟩ : ∃ t ∈ s.tasks, ¬ t.isDone := by
      by_contra hall
      push Not at hall
      exact hs ⟨⟨b, ha⟩, hall⟩
    obtain ⟨i, hi⟩ := getElem?_of_mem ht
    refine task_moves hi ?_ hdone
    intro hc
    exact (h.started i t hi).1 hc (by rw [ha]; trivial)

/-- from every state of a run there is a way on to the end -/
theorem Inv.finishes (h : Inv n co s) : ∃ ops, (run (step finished co) s ops).Finished := by
  -- by induction on the steps that are left
  obtain ⟨k, hk⟩ := Int.eq_ofNat_of_zero_le s.rank_nonneg
  induction k using Nat.strong_induction_on generalizing s with
  | _ k ih =>
    by_cases hs : s.Finished
    · exact ⟨[], hs⟩
    · obtain ⟨o, ho⟩ := h.progress finished hs
      obtain ⟨k', hk'⟩ := Int.eq_ofNat_of_zero_le (step finished co s o).rank_nonneg
      obtain ⟨ops, hops⟩ := ih k' (by omega) (step_inv h o) hk'
      exact ⟨o :: ops, hops⟩

/-! ## The awaiter goes on once -/

/-- a task that has been at its completion notifier and has counted itself out there -/
def TaskPc.Notified : TaskPc α ε → Prop
  | .resuming _ | .done _ => True
  | _ => False

theorem TaskPc.notified_of_pending {t : TaskPc α ε} (h : t.pending = 0) : t.Notified := by
  cases t with
  | created | running | arrived _ => exact absurd h one_ne_zero
  | resuming _ | done _ => trivial

/-- once the coroutine has gone on, every task has counted itself out -/
theorem Inv.notified (h : Inv n co s) (hw : s.wentOn ≠ []) : ∀ t ∈ s.tasks, t.Notified := by
  have hhold := tally_nonneg TaskPc.holds_nonneg s.tasks
  have hlen := length_pos_iff.2 hw
  have hpend := (h.counted (h.count_zero (by omega))).1
  intro t ht
  exact TaskPc.notified_of_pending (tally_eq_zero TaskPc.pending_nonneg hpend ht)

theorem Inv.wentOn_le (h : Inv n co s) : s.wentOn.length ≤ 1 := by
  have hhold := tally_nonneg TaskPc.holds_nonneg s.tasks
  have hlast := h.last
  split_ifs at hlast
  all_goals omega

/-- at the end the count is out and nobody is about to resume -/
theorem Inv.wentOn_finished (h : Inv n co s) (hs : s.Finished) : s.wentOn.length = 1 := by
  obtain ⟨⟨b, hb⟩, hdone⟩ := hs
  have hzero : ∀ t ∈ s.tasks, t.pending = 0 ∧ t.holds = 0 := by
    intro t ht
    have := hdone t ht
    cases t with
    | done _ => exact ⟨rfl, rfl⟩
    | created | running | arrived _ | resuming _ => cases this
  have hcount : s.count_ = 0 := by
    rw [h.count, tally_of_zero fun t ht => (hzero t ht).1, hb]
    rfl
  have hlast := h.last
  rw [tally_of_zero fun t ht => (hzero t ht).2, if_pos hcount] at hlast
  omega

/-- **`when_all` continues its awaiter exactly once, after every task.** For every number of tasks and every run, the
count never falls below zero; the awaiting coroutine goes on at most once, through `try_await` returning false or
through a task that resumes the handle `try_await` stored; by then every task has been through its completion notifier.
Once `await_suspend` has returned and every task is done it has gone on exactly once, and from every state of the run
this end can be reached. -/
theorem awaiter_continues_once (finished : ℕ → Bool) (n co : ℕ) (ops : List (Op α ε)) :
    Always (step finished co)
      (fun s => 0 ≤ s.count_ ∧ s.wentOn.length ≤ 1 ∧
        (∀ how ∈ s.wentOn, (how = .refused ∨ ∃ i, how = .resumed i (some co)) ∧ s.tasks.length = n ∧
          ∀ t ∈ s.tasks, t.Notified) ∧
        (s.Finished → s.wentOn.length = 1) ∧ ∃ ops', (run (step finished co) s ops').Finished)
      (init n) ops := by
  have hstep : ∀ (s : St α ε) o, Inv n co s → Inv n co (step finished co s o) := fun s o h => step_inv h o
  rw [always_iff]
  intro k _
  have h := run_of_inv hstep (init_inv n co) (ops.take k)
  generalize run (step finished co) (init n) (ops.take k) = s at h
  refine ⟨?_, h.wentOn_le, ?_, h.wentOn_finished, h.finishes⟩
  · rw [h.count]
    exact add_nonneg (tally_nonneg TaskPc.pending_nonneg _) s.awaiter.pending_nonneg
  · intro how hhow
    refine ⟨?_, h.length, h.notified (ne_nil_of_mem hhow)⟩
    have hlegit := h.legit how hhow
    cases how with
    | ready => exact hlegit.elim
    | refused => exact Or.inl rfl
    | resumed i co' =>
      obtain rfl : co' = some co := hlegit
      exact Or.inr ⟨i, rfl⟩

end TinyRpc.Async.WhenAll
