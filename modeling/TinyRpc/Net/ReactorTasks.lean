/-
The task queue of a Reactor (net/reactor.cc: Reactor::loop, addTask, stop).

The loop walks pending_tasks_ by index, tests the size before each task, and clears the vector after the first failing
test, all without the lock. A run interleaves the steps of the loop with addTask calls of other threads, each one atomic
step. Tasks are numbered in the order in which they are added; `ran` is the log of executions.

Main results:
- `tasks_kept`: as long as no addTask falls between the failing size test and the clear, every added task is queued and
  not yet run, or was run exactly once.
- `late_task_lost`: a task added in that window is neither queued nor run, whatever happens afterwards.
-/
import Mathlib.Tactic
import TinyRpc.Core.Machine

namespace TinyRpc.Net.ReactorTasks

open TinyRpc.Core

/-- where the loop thread is -/
inductive Pc
  /-- outside `loop` -/
  | idle
  /-- before the test of stop_flag_ -/
  | head
  /-- before the test `i < pending_tasks_.size()` -/
  | test (i : ℕ)
  | exec (i : ℕ)
  /-- the size test has failed -/
  | clear
  /-- in epoll_wait, or collecting the events it reported -/
  | poll
deriving DecidableEq, Repr

structure St where
  pc : Pc
  stop_flag_ : Bool
  pending_tasks_ : List ℕ
  /-- how many tasks were added so far; the next one gets this number -/
  added : ℕ
  /-- the executed tasks, in order -/
  ran : List ℕ
deriving DecidableEq, Repr

inductive Op
  /-- another thread calls addTask with `k` tasks -/
  | addTask (k : ℕ)
  /-- a callback of a reported event is pushed by the loop -/
  | collect
  /-- the next step of the loop; a task it executes adds `k` tasks itself -/
  | loop (k : ℕ)
  | stop
deriving DecidableEq, Repr

def init : St := ⟨.idle, false, [], 0, []⟩

/-- `k` new tasks at the end of the vector -/
def push (s : St) (k : ℕ) : St :=
  { s with pending_tasks_ := s.pending_tasks_ ++ List.range' s.added k, added := s.added + k }

def loopStep (s : St) (k : ℕ) : St :=
  match s.pc with
  | .idle => { s with pc := .head, stop_flag_ := false }
  | .head => if s.stop_flag_ then { s with pc := .idle } else { s with pc := .test 0 }
  | .test i => if i < s.pending_tasks_.length then { s with pc := .exec i } else { s with pc := .clear }
  | .exec i => push { s with pc := .test (i + 1), ran := s.ran ++ (s.pending_tasks_[i]?).toList } k
  | .clear => { s with pc := .poll, pending_tasks_ := [] }
  | .poll => { s with pc := .head }

def step (s : St) : Op → St
  | .addTask k => push s k
  | .collect => if s.pc = .poll then push s 1 else s
  | .loop k => loopStep s k
  | .stop => if s.pc = .idle then s else { s with stop_flag_ := true }

/-- every added task is queued and not run, or was run exactly once -/
def Kept (s : St) : Prop :=
  ∀ n < s.added, (n ∈ s.pending_tasks_ ∧ n ∉ s.ran) ∨ s.ran.count n = 1

instance (s : St) : Decidable (Kept s) := inferInstanceAs (Decidable (∀ n < s.added, _))

/-- no other thread adds a task between the failing size test and the clear -/
def NotLate (s : St) (o : Op) : Prop := s.pc = .clear → ∀ k, o = .addTask k → k = 0

/-! ## The invariant -/

/-- how many tasks of the vector were executed in this pass -/
def executed (s : St) : ℕ :=
  match s.pc with
  | .test i => i
  | .exec i => i
  | .clear => s.pending_tasks_.length
  | _ => 0

/-- the executed tasks and the waiting ones are all the added tasks, in order -/
structure Inv (s : St) : Prop where
  all : s.ran ++ s.pending_tasks_.drop (executed s) = List.range s.added
  test_le : ∀ i, s.pc = .test i → i ≤ s.pending_tasks_.length
  exec_lt : ∀ i, s.pc = .exec i → i < s.pending_tasks_.length

theorem init_inv : Inv init := ⟨rfl, by simp [init], by simp [init]⟩

theorem kept_of_inv {s : St} (h : Inv s) : Kept s := by
  intro n hn
  have hnodup : (s.ran ++ s.pending_tasks_.drop (executed s)).Nodup := h.all ▸ List.nodup_range
  have hmem : n ∈ s.ran ++ s.pending_tasks_.drop (executed s) := by
    rw [h.all]
    exact List.mem_range.2 hn
  rcases List.mem_append.1 hmem with hran | hwait
  · exact Or.inr (List.count_eq_one_of_mem (List.nodup_append.1 hnodup).1 hran)
  · refine Or.inl ⟨List.mem_of_mem_drop hwait, ?_⟩
    intro hran
    exact (List.disjoint_of_nodup_append hnodup) hran hwait

theorem executed_le {s : St} (h : Inv s) : executed s ≤ s.pending_tasks_.length := by
  unfold executed
  split
  · exact h.test_le _ ‹_›
  · exact (h.exec_lt _ ‹_›).le
  · exact le_rfl
  · exact Nat.zero_le _

/-- a push that the loop will still see -/
theorem push_inv {s : St} (h : Inv s) (hpc : s.pc ≠ .clear) (k : ℕ) : Inv (push s k) := by
  have hex : executed (push s k) = executed s := by
    unfold executed push
    cases hs : s.pc <;> simp_all
  refine ⟨?_, ?_, ?_⟩
  · rw [hex]
    simp only [push]
    rw [List.drop_append_of_le_length (executed_le h), ← List.append_assoc, h.all, List.range_eq_range',
      List.range_eq_range']
    simpa using List.range'_append_1 (s := 0) (m := s.added) (n := k)
  · intro i hi
    have := h.test_le i hi
    simp only [push, List.length_append]
    omega
  · intro i hi
    have := h.exec_lt i hi
    simp only [push, List.length_append]
    omega

theorem loop_inv {s : St} (h : Inv s) (k : ℕ) : Inv (loopStep s k) := by
  have hall := h.all
  unfold loopStep
  cases hpc : s.pc with
  | idle => exact ⟨by simpa [executed, hpc] using hall, by simp, by simp⟩
  | head =>
    dsimp only
    split_ifs
    · exact ⟨by simpa [executed, hpc] using hall, by simp, by simp⟩
    · exact ⟨by simpa [executed, hpc] using hall, by simp, by simp⟩
  | test i =>
    have hle := h.test_le i hpc
    simp only [executed, hpc] at hall
    dsimp only
    split_ifs with hi
    · exact ⟨by simpa [executed] using hall, by simp, by simpa using hi⟩
    · obtain rfl : i = s.pending_tasks_.length := by omega
      exact ⟨by simpa [executed] using hall, by simp, by simp⟩
  | exec i =>
    have hlt := h.exec_lt i hpc
    simp only [executed, hpc] at hall
    refine push_inv ⟨?_, ?_, by simp⟩ (by simp) k
    · -- task `i` moves from the waiting ones to the executed ones
      simp only [executed]
      rw [List.getElem?_eq_getElem hlt, Option.toList_some, List.append_assoc, List.singleton_append,
        ← List.drop_eq_getElem_cons hlt]
      exact hall
    · intro j hj
      obtain rfl : i + 1 = j := by simpa using hj
      exact hlt
  | clear => exact ⟨by simpa [executed, hpc] using hall, by simp, by simp⟩
  | poll => exact ⟨by simpa [executed, hpc] using hall, by simp, by simp⟩

theorem step_inv (s : St) (o : Op) (h : Inv s) (hl : NotLate s o) : Inv (step s o) := by
  cases o with
  | addTask k =>
    by_cases hpc : s.pc = .clear
    · obtain rfl := hl hpc k rfl
      simpa [step, push] using h
    · exact push_inv h hpc k
  | collect =>
    simp only [step]
    split_ifs with hpc
    · exact push_inv h (by simp [hpc]) 1
    · exact h
  | loop k => exact loop_inv h k
  | stop =>
    simp only [step]
    split_ifs
    · exact h
    · exact ⟨h.all, h.test_le, h.exec_lt⟩

/-- **No task is lost or run twice** in any run in which no other thread adds a task between the failing size test and the
clear. -/
theorem tasks_kept (ops : List Op) (h : Along step NotLate init ops) : Always step Kept init ops :=
  (always_of_inv step_inv init_inv h).mono fun _ => kept_of_inv

instance (s : St) (o : Op) : Decidable (NotLate s o) :=
  match o with
  | .addTask k => decidable_of_iff (s.pc = .clear → k = 0) ⟨fun h hpc _ hk => by cases hk; exact h hpc, fun h hpc => h hpc k rfl⟩
  | .collect => isTrue fun _ _ hk => by cases hk
  | .loop _ => isTrue fun _ _ hk => by cases hk
  | .stop => isTrue fun _ _ hk => by cases hk

/-- two tasks of other threads, one added while the loop executes the other -/
theorem tasks_kept_two : Always step Kept init
    [.addTask 1, .loop 0, .loop 0, .loop 0, .addTask 1, .loop 0, .loop 0, .loop 0, .loop 0, .loop 0, .collect, .loop 0] :=
  tasks_kept _ (by decide)

/-- The loop has found the queue empty; a task is added; the clear removes it. -/
theorem late_task_removed :
    (run step init [.loop 0, .loop 0, .loop 0, .addTask 1]).pending_tasks_ = [0] ∧
    ¬ Kept (run step init [.loop 0, .loop 0, .loop 0, .addTask 1, .loop 0]) ∧
    ¬ Always step Kept init [.loop 0, .loop 0, .loop 0, .addTask 1, .loop 0] := by
  decide

/-! ## A late task is lost for good -/

/-- what any step can do: queue new tasks, and execute queued ones -/
structure Moves (s s' : St) : Prop where
  queued : ∀ n ∈ s'.pending_tasks_, n ∈ s.pending_tasks_ ∨ (s.added ≤ n ∧ n < s'.added)
  executed : ∀ n ∈ s'.ran, n ∈ s.ran ∨ n ∈ s.pending_tasks_
  added : s.added ≤ s'.added

theorem push_moves (s : St) (k : ℕ) : Moves s (push s k) := by
  refine ⟨?_, fun n hn => Or.inl hn, Nat.le_add_right _ _⟩
  intro n hn
  rcases List.mem_append.1 hn with hn | hn
  · exact Or.inl hn
  · exact Or.inr (List.mem_range'_1.1 hn)

theorem step_moves (s : St) (o : Op) : Moves s (step s o) := by
  have hsame : Moves s s := ⟨fun _ => Or.inl, fun _ => Or.inl, le_rfl⟩
  cases o with
  | addTask k => exact push_moves s k
  | collect =>
    simp only [step]
    split_ifs
    · exact push_moves s 1
    · exact hsame
  | loop k =>
    simp only [step, loopStep]
    cases s.pc with
    | exec i =>
      obtain ⟨h1, h2, h3⟩ := push_moves { s with pc := .test (i + 1), ran := s.ran ++ (s.pending_tasks_[i]?).toList } k
      refine ⟨h1, ?_, h3⟩
      intro n hn
      rcases List.mem_append.1 hn with hn | hn
      · exact Or.inl hn
      · exact Or.inr (List.mem_of_getElem? (Option.mem_toList.1 hn))
    | clear => exact ⟨fun n hn => absurd hn List.not_mem_nil, hsame.executed, le_rfl⟩
    | head =>
      dsimp only
      split_ifs <;> exact ⟨hsame.queued, hsame.executed, le_rfl⟩
    | test i =>
      dsimp only
      split_ifs <;> exact ⟨hsame.queued, hsame.executed, le_rfl⟩
    | _ => exact ⟨hsame.queued, hsame.executed, le_rfl⟩
  | stop =>
    simp only [step]
    split_ifs
    · exact hsame
    · exact ⟨hsame.queued, hsame.executed, le_rfl⟩

/-- task `n` was added, and is neither queued nor run -/
def Lost (n : ℕ) (s : St) : Prop := n < s.added ∧ n ∉ s.pending_tasks_ ∧ n ∉ s.ran

theorem step_lost (n : ℕ) (s : St) (o : Op) (h : Lost n s) : Lost n (step s o) := by
  obtain ⟨h1, h2, h3⟩ := h
  obtain ⟨m1, m2, m3⟩ := step_moves s o
  refine ⟨h1.trans_le m3, ?_, ?_⟩
  · intro hn
    rcases m1 n hn with hq | hnew
    · exact h2 hq
    · omega
  · intro hn
    exact (m2 n hn).elim h3 h2

/-- a number that was not given out yet is nowhere -/
def Bounded (s : St) : Prop := (∀ n ∈ s.pending_tasks_, n < s.added) ∧ ∀ n ∈ s.ran, n < s.added

theorem step_bounded (s : St) (o : Op) (h : Bounded s) : Bounded (step s o) := by
  obtain ⟨m1, m2, m3⟩ := step_moves s o
  refine ⟨?_, ?_⟩
  · intro n hn
    rcases m1 n hn with hq | hnew
    · exact (h.1 n hq).trans_le m3
    · exact hnew.2
  · intro n hn
    rcases m2 n hn with hr | hq
    · exact (h.2 n hr).trans_le m3
    · exact (h.1 n hq).trans_le m3

/-- **The window.** A task added while the loop is between its failing size test and the clear is lost: the clear
removes it and no later step queues or runs it. -/
theorem late_task_lost (before after : List Op) (k : ℕ) (hpc : (run step init before).pc = .clear) :
    Lost (run step init before).added (run step init (before ++ .addTask 1 :: .loop k :: after)) := by
  have hinit : Bounded init := ⟨by simp [init], by simp [init]⟩
  obtain ⟨-, hran⟩ := run_of_inv step_bounded hinit before
  have hrun : run step init (before ++ .addTask 1 :: .loop k :: after) =
      run step (step (step (run step init before) (.addTask 1)) (.loop k)) after := by
    simp [run]
  rw [hrun]
  refine run_of_inv (step_lost _) ?_ after
  have hstep : step (step (run step init before) (.addTask 1)) (.loop k) =
      { push (run step init before) 1 with pc := .poll, pending_tasks_ := [] } := by
    simp only [step, loopStep, push, hpc]
  rw [hstep]
  exact ⟨Nat.lt_succ_self _, List.not_mem_nil, fun hn => absurd (hran _ hn) (lt_irrefl _)⟩

end TinyRpc.Net.ReactorTasks
