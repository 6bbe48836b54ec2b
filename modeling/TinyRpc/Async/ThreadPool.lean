/-
The coroutine thread pool (async/thread_pool.hpp, thread_pool.cc) and its counter.

Handles come into `queue_` from three places: an operation that `schedule()` has returned and that is awaited later,
`resume` of one handle and `resume` of a range, in which handles may be null. Workers take them out at the front, resume
them and count them down. The counter `size_` is raised before the handle is queued and lowered after it has run, by an
atomic operation of its own, so it is compared here with every party that has raised and not yet lowered it.

A run interleaves the calls, the workers and one call of `shutdown`, one atomic step at a time. A section under
`wait_mutex_` is one step. Waiting on the condition variable is a step that does nothing while the queue is empty and no
stop is requested, which covers every order of notifications and spurious wake-ups. `size_` is an integer, so that a
decrement of zero would be seen and not wrap. `enqueued`, `dequeued` and `resumed` are the histories of the queue.

Main results: `step_inv`, the balance of the counter; `size_exact`, for every number of workers and every run.
-/
import Mathlib.Tactic
import TinyRpc.Core.Machine
import TinyRpc.Core.Tally

namespace TinyRpc.Async.ThreadPool

open List
open TinyRpc.Core

/-! ## The pool -/

/-- where a worker stands in `executor` -/
inductive WorkerPc
  /-- before its first test of the stop token, in `on_thread_start_functor` or earlier -/
  | starting
  /-- in the inner loop, at `wait_cond_.wait` -/
  | waiting
  /-- it has taken handle `h`, the `k`-th of the queue's history -/
  | took (k h : ℕ)
  /-- `handle.resume()` is called, the `fetch_sub` comes when it returns -/
  | running (k h : ℕ)
  /-- out of the inner loop, before the test of the outer one -/
  | testing
  | left
deriving DecidableEq, Repr

structure Worker where
  pc : WorkerPc
  /-- `stop_token.stop_requested()` -/
  stop : Bool
deriving DecidableEq, Repr

/-- where a call to the pool stands -/
inductive Call
  /-- `schedule()`, before the load of `shutdown_` -/
  | schedule
  /-- the load was false -/
  | scheduleAdd
  /-- the operation is returned and not awaited yet -/
  | operation
  /-- "coro::thread_pool is shutting down, unable to schedule new tasks." -/
  | threw
  | resume (handle : Option ℕ)
  /-- counted, to be queued -/
  | resumePush (handle : ℕ)
  | range (handles : List (Option ℕ))
  /-- counted with its null handles, to be queued -/
  | rangePush (handles : List (Option ℕ))
  /-- queued; `null_handles` were counted too many -/
  | rangeSub (null_handles : ℕ)
  | finished
deriving DecidableEq, Repr

/-- where the call of `shutdown` stands -/
inductive ShutdownPc
  | notCalled
  /-- about to request the stop of thread `i` -/
  | stopping (i : ℕ)
  /-- about to join thread `i` -/
  | joining (i : ℕ)
  | returned
deriving DecidableEq, Repr

structure St where
  queue_ : List ℕ
  size_ : ℤ
  shutdown_ : Bool
  workers : List Worker
  calls : List Call
  shut : ShutdownPc
  /-- every handle ever queued, in order -/
  enqueued : List ℕ
  /-- every handle ever taken out, in order -/
  dequeued : List ℕ
  /-- the places in the history whose handles were resumed -/
  resumed : List ℕ
  /-- how many handles had been queued when `shutdown` was called -/
  before : ℕ
deriving DecidableEq, Repr

/-- `thread_pool(options)` with `thread_count = n` -/
def init (n : ℕ) : St :=
  { queue_ := [], size_ := 0, shutdown_ := false, workers := List.replicate n ⟨.starting, false⟩, calls := [],
    shut := .notCalled, enqueued := [], dequeued := [], resumed := [], before := 0 }

inductive Op
  | schedule
  | resume (handle : Option ℕ)
  | resumeRange (handles : List (Option ℕ))
  /-- the next step of call `c` -/
  | advance (c : ℕ)
  /-- the operation that call `c` returned is awaited by coroutine `h` -/
  | awaitSuspend (c h : ℕ)
  /-- the next step of worker `w` -/
  | worker (w : ℕ)
  /-- the next step of `shutdown`, the first of which calls it -/
  | shutdown
deriving DecidableEq, Repr

/-- `queue_.emplace_back` of each handle, under the lock -/
def St.enqueue (s : St) (handles : List ℕ) : St :=
  { s with queue_ := s.queue_ ++ handles, enqueued := s.enqueued ++ handles }

def St.setCall (s : St) (c : ℕ) (pc : Call) : St := { s with calls := s.calls.set c pc }

def St.setWorker (s : St) (w : ℕ) (worker : Worker) : St := { s with workers := s.workers.set w worker }

/-- `fetch_add` or `fetch_sub` -/
def St.count (s : St) (k : ℤ) : St := { s with size_ := s.size_ + k }

/-- `thread_pool::schedule`, `thread_pool::resume` of a handle and of a range -/
def St.advanceCall (s : St) (c : ℕ) : Call → St
  | .schedule => if s.shutdown_ then s.setCall c .threw else s.setCall c .scheduleAdd
  | .scheduleAdd => (s.count 1).setCall c .operation
  | .resume none => s.setCall c .finished
  | .resume (some handle) => (s.count 1).setCall c (.resumePush handle)
  | .resumePush handle => (s.enqueue [handle]).setCall c .finished
  | .range handles => (s.count handles.length).setCall c (.rangePush handles)
  | .rangePush handles => (s.enqueue (handles.filterMap id)).setCall c (.rangeSub (handles.count none))
  | .rangeSub null_handles =>
    if 0 < null_handles then (s.count (-null_handles)).setCall c .finished else s.setCall c .finished
  | .operation | .threw | .finished => s

/-- `thread_pool::executor` -/
def St.advanceWorker (s : St) (w : ℕ) (worker : Worker) : St :=
  match worker.pc with
  | .starting | .testing => s.setWorker w { worker with pc := if worker.stop then .left else .waiting }
  | .waiting =>
    match s.queue_ with
    | h :: queue_ =>
      { s with queue_ := queue_, dequeued := s.dequeued ++ [h] }.setWorker w
        { worker with pc := .took s.dequeued.length h }
    -- the wait ends with an empty queue only when a stop is requested
    | [] => if worker.stop then s.setWorker w { worker with pc := .testing } else s
  | .took k h => { s with resumed := s.resumed ++ [k] }.setWorker w { worker with pc := .running k h }
  | .running _ _ => (s.count (-1)).setWorker w { worker with pc := .waiting }
  | .left => s

/-- `thread_pool::shutdown` -/
def St.advanceShutdown (s : St) : St :=
  match s.shut with
  | .notCalled => { s with shutdown_ := true, before := s.enqueued.length, shut := .stopping 0 }
  | .stopping i =>
    match s.workers[i]? with
    | some worker => { s.setWorker i { worker with stop := true } with shut := .stopping (i + 1) }
    | none => { s with shut := .joining 0 }
  | .joining i =>
    match s.workers[i]? with
    -- `join` blocks until the thread has left
    | some worker => if worker.pc = .left then { s with shut := .joining (i + 1) } else s
    | none => { s with shut := .returned }
  | .returned => s

/-- one atomic step; an operation whose party is elsewhere does nothing -/
def step (s : St) : Op → St
  | .schedule => { s with calls := s.calls ++ [.schedule] }
  | .resume handle => { s with calls := s.calls ++ [.resume handle] }
  | .resumeRange handles => { s with calls := s.calls ++ [.range handles] }
  | .advance c =>
    match s.calls[c]? with
    | some call => s.advanceCall c call
    | none => s
  | .awaitSuspend c h =>
    match s.calls[c]? with
    | some .operation => (s.enqueue [h]).setCall c .finished
    | _ => s
  | .worker w =>
    match s.workers[w]? with
    | some worker => s.advanceWorker w worker
    | none => s
  | .shutdown => s.advanceShutdown

/-! ## What the counter counts -/

/-- what a call has added to `size_` for handles that are not in the queue -/
def Call.weight : Call → ℤ
  | .operation | .resumePush _ => 1
  | .rangePush handles => handles.length
  | .rangeSub null_handles => null_handles
  | .schedule | .scheduleAdd | .threw | .resume _ | .range _ | .finished => 0

/-- 1 for a worker whose handle is taken out and still counted -/
def Worker.weight (worker : Worker) : ℤ :=
  match worker.pc with
  | .took _ _ | .running _ _ => 1
  | .starting | .waiting | .testing | .left => 0

/-- 1 for a worker that has taken the `k`-th handle and not resumed it -/
def Worker.holds (k : ℕ) (worker : Worker) : ℤ :=
  match worker.pc with
  | .took k' _ => if k' = k then 1 else 0
  | .starting | .waiting | .running _ _ | .testing | .left => 0

theorem Call.weight_nonneg (call : Call) : 0 ≤ call.weight := by
  cases call <;> simp [Call.weight]

theorem Worker.weight_nonneg (worker : Worker) : 0 ≤ worker.weight := by
  unfold Worker.weight
  split <;> simp

theorem Worker.holds_nonneg (k : ℕ) (worker : Worker) : 0 ≤ worker.holds k := by
  unfold Worker.holds
  split
  · split_ifs <;> simp
  all_goals exact le_rfl

structure Inv (s : St) : Prop where
  size : s.size_ = tally Call.weight s.calls + s.queue_.length + tally Worker.weight s.workers
  /-- first in, first out -/
  fifo : s.enqueued = s.dequeued ++ s.queue_
  /-- each handle taken out is still held by one worker, or was resumed once -/
  once : ∀ k, s.resumed.count k + tally (Worker.holds k) s.workers = if k < s.dequeued.length then 1 else 0

variable {s : St}

theorem init_inv (n : ℕ) : Inv (init n) where
  size := by simp [init, Worker.weight, tally]
  fifo := rfl
  once := by simp [init, tally_replicate, Worker.holds]

theorem length_filterMap_id (handles : List (Option ℕ)) :
    ((handles.filterMap id).length : ℤ) + handles.count none = handles.length := by
  induction handles with
  | nil => rfl
  | cons h handles ih =>
    cases h with
    | none =>
      rw [filterMap_cons_none rfl, count_cons_self, length_cons]
      push_cast
      omega
    | some h =>
      rw [filterMap_cons_some (id_eq _), count_cons_of_ne (by simp), length_cons, length_cons]
      push_cast
      omega

/-- a call moves: it may change the counter and queue handles, by as much as its weight changes -/
theorem Inv.call (h : Inv s) {c : ℕ} {call : Call} (hc : s.calls[c]? = some call) (call' : Call) (k : ℤ)
    (handles : List ℕ) (hk : call'.weight + handles.length = call.weight + k) :
    Inv (((s.count k).enqueue handles).setCall c call') where
  size := by
    simp only [St.setCall, St.enqueue, St.count, length_append]
    rw [tally_set hc, h.size]
    push_cast
    omega
  fifo := by
    simp only [St.setCall, St.enqueue, St.count]
    rw [h.fifo, append_assoc]
  once := h.once

/-- a call moves without queueing a handle -/
theorem Inv.call_count (h : Inv s) {c : ℕ} {call : Call} (hc : s.calls[c]? = some call) (call' : Call) (k : ℤ)
    (hk : call'.weight = call.weight + k) : Inv ((s.count k).setCall c call') := by
  have hcall := h.call hc call' k [] (by simpa using hk)
  simpa [St.enqueue] using hcall

/-- a call moves without counting -/
theorem Inv.call_enqueue (h : Inv s) {c : ℕ} {call : Call} (hc : s.calls[c]? = some call) (call' : Call)
    (handles : List ℕ) (hk : call'.weight + handles.length = call.weight) :
    Inv ((s.enqueue handles).setCall c call') := by
  have hcall := h.call hc call' 0 handles (by simpa using hk)
  simpa [St.count] using hcall

/-- a call moves and does neither -/
theorem Inv.call_silent (h : Inv s) {c : ℕ} {call : Call} (hc : s.calls[c]? = some call) (call' : Call)
    (hk : call'.weight = call.weight) : Inv (s.setCall c call') := by
  have hcall := h.call_count hc call' 0 (by simpa using hk)
  simpa [St.count] using hcall

theorem Inv.advanceCall (h : Inv s) {c : ℕ} {call : Call} (hc : s.calls[c]? = some call) :
    Inv (s.advanceCall c call) := by
  cases call with
  | schedule =>
    simp only [St.advanceCall]
    split_ifs
    all_goals exact h.call_silent hc _ rfl
  | scheduleAdd => exact h.call_count hc .operation 1 rfl
  | resume handle =>
    cases handle with
    | none => exact h.call_silent hc .finished rfl
    | some handle => exact h.call_count hc (.resumePush handle) 1 rfl
  | resumePush handle => exact h.call_enqueue hc .finished [handle] rfl
  | range handles => exact h.call_count hc (.rangePush handles) handles.length (by simp [Call.weight])
  | rangePush handles =>
    -- the null handles stay counted until the correction
    refine h.call_enqueue hc (.rangeSub (handles.count none)) _ ?_
    have := length_filterMap_id handles
    simp only [Call.weight]
    omega
  | rangeSub null_handles =>
    simp only [St.advanceCall]
    split_ifs with hnull
    · exact h.call_count hc .finished (-null_handles) (by simp [Call.weight])
    · refine h.call_silent hc .finished ?_
      simp only [Call.weight]
      omega
  | operation | threw | finished => exact h

theorem Inv.awaitSuspend (h : Inv s) (c co : ℕ) : Inv (step s (.awaitSuspend c co)) := by
  simp only [step]
  split
  · rename_i hc
    exact h.call_enqueue hc .finished [co] rfl
  · exact h

/-- a worker moves and neither takes nor lets go of a handle -/
theorem Inv.worker_silent (h : Inv s) {w : ℕ} {worker worker' : Worker} (hw : s.workers[w]? = some worker)
    (hweight : worker'.weight = worker.weight) (hholds : ∀ k, worker'.holds k = worker.holds k) :
    Inv (s.setWorker w worker') where
  size := by
    simp only [St.setWorker]
    rw [tally_set hw, hweight, h.size]
    ring
  fifo := h.fifo
  once := by
    intro k
    refine Eq.trans ?_ (h.once k)
    simp only [St.setWorker]
    rw [tally_set hw, hholds k]
    ring

theorem Inv.take (h : Inv s) {w co : ℕ} {worker : Worker} {queue : List ℕ} (hw : s.workers[w]? = some worker)
    (hpc : worker.pc = .waiting) (hq : s.queue_ = co :: queue) :
    Inv ({ s with queue_ := queue, dequeued := s.dequeued ++ [co] }.setWorker w
      { worker with pc := .took s.dequeued.length co }) where
  size := by
    simp only [St.setWorker]
    rw [tally_set hw, h.size, hq]
    simp only [Worker.weight, hpc, length_cons]
    push_cast
    ring
  fifo := by
    simp only [St.setWorker]
    rw [h.fifo, hq, append_assoc, singleton_append]
  once := by
    intro k
    have honce := h.once k
    simp only [St.setWorker, length_append, length_singleton, tally_set hw, Worker.holds, hpc]
    split_ifs at honce ⊢
    all_goals omega

/-- `handle.resume()` -/
theorem Inv.resume (h : Inv s) {w k co : ℕ} {worker : Worker} (hw : s.workers[w]? = some worker)
    (hpc : worker.pc = .took k co) :
    Inv ({ s with resumed := s.resumed ++ [k] }.setWorker w { worker with pc := .running k co }) where
  size := by
    simp only [St.setWorker]
    rw [tally_set hw, h.size]
    simp only [Worker.weight, hpc]
    ring
  fifo := h.fifo
  once := by
    intro k'
    refine Eq.trans ?_ (h.once k')
    simp only [St.setWorker]
    rw [tally_set hw, count_append, count_singleton]
    simp only [Worker.holds, hpc, beq_iff_eq]
    push_cast
    ring

/-- the `fetch_sub` after a resumed coroutine has come back -/
theorem Inv.countDown (h : Inv s) {w k co : ℕ} {worker : Worker} (hw : s.workers[w]? = some worker)
    (hpc : worker.pc = .running k co) : Inv ((s.count (-1)).setWorker w { worker with pc := .waiting }) where
  size := by
    simp only [St.setWorker, St.count]
    rw [tally_set hw, h.size]
    simp only [Worker.weight, hpc]
    ring
  fifo := h.fifo
  once := by
    intro k'
    refine Eq.trans ?_ (h.once k')
    simp only [St.setWorker, St.count]
    rw [tally_set hw]
    simp only [Worker.holds, hpc]
    ring

theorem Inv.advanceWorker (h : Inv s) {w : ℕ} {worker : Worker} (hw : s.workers[w]? = some worker) :
    Inv (s.advanceWorker w worker) := by
  unfold St.advanceWorker
  cases hpc : worker.pc with
  | starting | testing =>
    refine h.worker_silent hw ?_ ?_
    · simp only [Worker.weight, hpc]
      split_ifs <;> rfl
    · intro k
      simp only [Worker.holds, hpc]
      split_ifs <;> rfl
  | waiting =>
    cases hq : s.queue_ with
    | cons co queue => exact h.take hw hpc hq
    | nil =>
      dsimp only
      split_ifs
      · exact h.worker_silent hw (by simp [Worker.weight, hpc]) (by simp [Worker.holds, hpc])
      · exact h
  | took k co => exact h.resume hw hpc
  | running k co => exact h.countDown hw hpc
  | left => exact h

theorem Inv.advanceShutdown (h : Inv s) : Inv s.advanceShutdown := by
  unfold St.advanceShutdown
  cases s.shut with
  | notCalled => exact ⟨h.size, h.fifo, h.once⟩
  | stopping i =>
    dsimp only
    cases hw : s.workers[i]? with
    | none => exact ⟨h.size, h.fifo, h.once⟩
    | some worker =>
      have hstop : Inv (s.setWorker i { worker with stop := true }) := h.worker_silent hw rfl fun _ => rfl
      exact ⟨hstop.size, hstop.fifo, hstop.once⟩
  | joining i =>
    dsimp only
    cases hw : s.workers[i]? with
    | none => exact ⟨h.size, h.fifo, h.once⟩
    | some worker =>
      dsimp only
      split_ifs
      · exact ⟨h.size, h.fifo, h.once⟩
      · exact h
  | returned => exact h

/-- a call begins -/
theorem Inv.begin (h : Inv s) {call : Call} (hcall : call.weight = 0) : Inv { s with calls := s.calls ++ [call] } where
  size := by rw [tally_concat, hcall, add_zero, h.size]
  fifo := h.fifo
  once := h.once

theorem step_inv (h : Inv s) (o : Op) : Inv (step s o) := by
  cases o with
  | schedule | resume _ | resumeRange _ => exact h.begin rfl
  | advance c =>
    simp only [step]
    split
    · rename_i call hc
      exact h.advanceCall hc
    · exact h
  | awaitSuspend c co => exact h.awaitSuspend c co
  | worker w =>
    simp only [step]
    split
    · rename_i worker hw
      exact h.advanceWorker hw
    · exact h
  | shutdown => exact h.advanceShutdown

theorem run_inv (n : ℕ) (ops : List Op) : Inv (run step (init n) ops) :=
  run_of_inv (fun s o (h : Inv s) => step_inv h o) (init_inv n) ops

/-! ## The count, party by party -/

def Call.isResumePush : Call → Bool
  | .resumePush _ => true
  | _ => false

/-- a call of `resume(range)` in progress -/
def Call.isRange : Call → Bool
  | .range _ | .rangePush _ | .rangeSub _ => true
  | _ => false

def Worker.busy (worker : Worker) : Bool :=
  match worker.pc with
  | .took _ _ | .running _ _ => true
  | _ => false

/-- operations created by `schedule()` and not enqueued yet -/
def St.created (s : St) : ℕ := s.calls.count .operation

/-- calls of `resume(handle)` between their increment and their push -/
def St.resuming (s : St) : ℕ := s.calls.countP Call.isResumePush

/-- handles taken out whose decrement has not happened yet -/
def St.busy (s : St) : ℕ := s.workers.countP Worker.busy

theorem tally_call_weight {calls : List Call} (h : ∀ call ∈ calls, call.isRange = false) :
    tally Call.weight calls = calls.count .operation + calls.countP Call.isResumePush := by
  induction calls with
  | nil => rfl
  | cons call calls ih =>
    have hcall := h call mem_cons_self
    have ih := ih fun call hc => h call (mem_cons_of_mem _ hc)
    rw [tally_cons, ih, count_cons, countP_cons]
    cases call with
    | range _ | rangePush _ | rangeSub _ => cases hcall
    | operation | resumePush _ =>
      simp [Call.weight, Call.isResumePush]
      ring
    | schedule | scheduleAdd | threw | resume _ | finished => simp [Call.weight, Call.isResumePush]

theorem tally_worker_weight (workers : List Worker) : tally Worker.weight workers = workers.countP Worker.busy := by
  induction workers with
  | nil => rfl
  | cons worker workers ih =>
    rw [tally_cons, ih, countP_cons]
    unfold Worker.weight Worker.busy
    cases worker.pc <;> simp [add_comm]

theorem Inv.size_nonneg (h : Inv s) : 0 ≤ s.size_ := by
  have hcalls := tally_nonneg Call.weight_nonneg s.calls
  have hworkers := tally_nonneg Worker.weight_nonneg s.workers
  rw [h.size]
  omega

theorem Inv.resumed_once (h : Inv s) (k : ℕ) : s.resumed.count k ≤ 1 := by
  have hheld := tally_nonneg (Worker.holds_nonneg k) s.workers
  have honce := h.once k
  split_ifs at honce
  all_goals omega

/-- `empty()`: nothing is queued or running -/
theorem Inv.idle (h : Inv s) (hs : s.size_ = 0) : s.queue_ = [] ∧ s.busy = 0 := by
  have hcalls := tally_nonneg Call.weight_nonneg s.calls
  have hworkers := tally_worker_weight s.workers
  have hsize := h.size
  rw [hs, hworkers] at hsize
  refine ⟨length_eq_zero_iff.1 (by omega), ?_⟩
  rw [St.busy]
  omega

/-- **`size` is an exact count.** For every number of workers and every run: the counter never falls below zero; the
handles taken out of the queue are the first ones put in, in that order, and each is resumed at most once; whenever no
`resume(range)` is in progress the counter is the number of operations created and not enqueued, plus the handles in the
queue, plus those taken out and not counted down, plus single resumes before their push; and when it is zero nothing is
queued or running. -/
theorem size_exact (n : ℕ) (ops : List Op) :
    Always step
      (fun s => 0 ≤ s.size_ ∧ s.enqueued = s.dequeued ++ s.queue_ ∧ (∀ k, s.resumed.count k ≤ 1) ∧
        ((∀ call ∈ s.calls, call.isRange = false) → s.size_ = s.created + s.queue_.length + s.busy + s.resuming) ∧
        (s.size_ = 0 → s.queue_ = [] ∧ s.busy = 0))
      (init n) ops := by
  rw [always_iff]
  intro k _
  have h := run_inv n (ops.take k)
  refine ⟨h.size_nonneg, h.fifo, h.resumed_once, ?_, h.idle⟩
  intro hrange
  rw [h.size, tally_call_weight hrange, tally_worker_weight, St.created, St.busy, St.resuming]
  ring

end TinyRpc.Async.ThreadPool
