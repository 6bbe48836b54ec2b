/-
What `thread_pool::shutdown` leaves behind.

A worker inside its inner loop leaves it only when it finds the queue empty, so whatever is queued while such a worker
exists is resumed. But a worker that comes to its first test of the stop token after the stop was requested leaves at
once and never looks at the queue, and neither `await_suspend` nor `resume` tests `shutdown_` before it queues. `able`
says which workers will still empty the queue. A run is drained as long as every handle is queued while there is such a
worker, and no `request_stop` takes the last one away from a queue that is not empty; a run that does otherwise ends, when
`shutdown` returns, with a handle that nobody resumes.

Main results: `lost_forever`, a handle queued with no able worker stays in the queue in every continuation;
`shutdown_drains_iff`, the condition along whole runs; `shutdown_loses`, two runs of one worker that lose a handle.
-/
import Mathlib.Tactic
import TinyRpc.Async.ThreadPool

namespace TinyRpc.Async.ThreadPool

open List
open TinyRpc.Core

/-! ## Workers that will still empty the queue -/

/-- in the inner loop of `executor` -/
def Worker.inner (worker : Worker) : Bool :=
  match worker.pc with
  | .waiting | .took _ _ | .running _ _ => true
  | .starting | .testing | .left => false

/-- a worker that will not leave before it has seen the queue empty -/
def Worker.able (worker : Worker) : Bool :=
  match worker.pc with
  | .waiting | .took _ _ | .running _ _ => true
  | .starting | .testing => !worker.stop
  | .left => false

/-- some worker will still empty the queue -/
def St.served (s : St) : Bool := s.workers.any Worker.able

/-- the handles that an operation puts in the queue -/
def St.pushed (s : St) : Op → List ℕ
  | .advance c =>
    match s.calls[c]? with
    | some (.resumePush handle) => [handle]
    | some (.rangePush handles) => handles.filterMap id
    | _ => []
  | .awaitSuspend c h =>
    match s.calls[c]? with
    | some .operation => [h]
    | _ => []
  | .schedule | .resume _ | .resumeRange _ | .worker _ | .shutdown => []

/-- the condition on a step -/
structure Meets (s : St) (o : Op) : Prop where
  /-- handles are queued only while some worker will still empty the queue -/
  push : s.pushed o ≠ [] → s.served
  /-- the stop of thread `i` leaves a worker that will empty the queue, if anything is in it: another one, or `i` itself
  inside its inner loop -/
  stop : o = .shutdown → ∀ i, s.shut = .stopping i → s.queue_ ≠ [] →
    ∃ j worker, s.workers[j]? = some worker ∧ worker.able ∧ (j = i → worker.inner)

/-- whatever is queued, some worker will come for it -/
def Kept (s : St) : Prop := s.queue_ ≠ [] → s.served

variable {s : St}

theorem served_iff : s.served = true ↔ ∃ (j : ℕ) (worker : Worker), s.workers[j]? = some worker ∧ worker.able = true := by
  rw [St.served, any_eq_true]
  constructor
  · intro h
    rcases h with ⟨worker, hmem, hable⟩
    obtain ⟨j, hj⟩ := getElem?_of_mem hmem
    exact ⟨j, worker, hj, hable⟩
  · intro h
    rcases h with ⟨j, worker, hj, hable⟩
    exact ⟨worker, mem_of_getElem? hj, hable⟩

/-- a worker that moves and stays as able as it was changes nothing for the queue -/
theorem served_setWorker {w : ℕ} {worker worker' : Worker} (hw : s.workers[w]? = some worker)
    (h : worker'.able = worker.able) : (s.setWorker w worker').served = s.served := by
  obtain ⟨hlt, rfl⟩ := List.getElem?_eq_some_iff.1 hw
  have hmap : (s.workers.set w worker').map Worker.able = s.workers.map Worker.able := by
    rw [map_set, h, ← getElem_map Worker.able (h := by simpa using hlt), set_getElem_self]
  calc (s.workers.set w worker').any Worker.able
      = ((s.workers.set w worker').map Worker.able).any id := by rw [any_map, Function.id_comp]
    _ = (s.workers.map Worker.able).any id := by rw [hmap]
    _ = s.workers.any Worker.able := by rw [any_map, Function.id_comp]

/-! ## What a step does to the queue and to the able workers -/

theorem advanceCall_queue {c : ℕ} {call : Call} (hc : s.calls[c]? = some call) :
    (s.advanceCall c call).workers = s.workers ∧ (s.advanceCall c call).queue_ = s.queue_ ++ s.pushed (.advance c) := by
  cases call with
  | schedule | rangeSub _ =>
    simp only [St.advanceCall, St.pushed, hc, append_nil]
    split_ifs
    all_goals exact ⟨rfl, rfl⟩
  | resume handle =>
    cases handle
    all_goals simp [St.advanceCall, St.pushed, hc, St.setCall, St.count]
  | scheduleAdd | range _ | operation | threw | finished =>
    simp [St.advanceCall, St.pushed, hc, St.setCall, St.count]
  | resumePush _ | rangePush _ => simp [St.advanceCall, St.pushed, hc, St.setCall, St.enqueue]

/-- Every operation but a worker's step and a step of `shutdown` only queues handles. -/
theorem call_queue (o : Op) (hw : ∀ w, o ≠ .worker w) (hs : o ≠ .shutdown) :
    (step s o).workers = s.workers ∧ (step s o).queue_ = s.queue_ ++ s.pushed o := by
  cases o with
  | schedule | resume _ | resumeRange _ => simp [step, St.pushed]
  | advance c =>
    cases hc : s.calls[c]? with
    | none => simp [step, St.pushed, hc]
    | some call =>
      simp only [step, hc]
      exact advanceCall_queue hc
  | awaitSuspend c h =>
    cases hc : s.calls[c]? with
    | none => simp [step, St.pushed, hc]
    | some call => cases call <;> simp [step, St.pushed, hc, St.enqueue, St.setCall]
  | worker w => exact absurd rfl (hw w)
  | shutdown => exact absurd rfl hs

/-- A worker's step finds the queue empty and leaves it so, or it leaves the able workers as they are, and takes a handle
only as one of them. -/
theorem worker_queue (w : ℕ) :
    (s.queue_ = [] ∧ (step s (.worker w)).queue_ = []) ∨
      ((step s (.worker w)).served = s.served ∧ ((step s (.worker w)).queue_ = s.queue_ ∨ s.served = true)) := by
  simp only [step]
  cases hw : s.workers[w]? with
  | none => exact Or.inr ⟨rfl, Or.inl rfl⟩
  | some worker =>
    simp only [St.advanceWorker]
    cases hpc : worker.pc with
    | starting | testing =>
      refine Or.inr ⟨served_setWorker hw ?_, Or.inl rfl⟩
      cases hstop : worker.stop
      all_goals simp [Worker.able, hpc, hstop]
    | waiting =>
      cases hq : s.queue_ with
      | nil =>
        refine Or.inl ⟨rfl, ?_⟩
        dsimp only
        split_ifs
        all_goals exact hq
      | cons h queue =>
        refine Or.inr ⟨?_, Or.inr ?_⟩
        · exact served_setWorker (s := { s with queue_ := queue, dequeued := s.dequeued ++ [h] }) hw
            (by simp [Worker.able, hpc])
        · exact served_iff.2 ⟨w, worker, hw, by simp [Worker.able, hpc]⟩
    | took k h =>
      refine Or.inr ⟨?_, Or.inl rfl⟩
      exact served_setWorker (s := { s with resumed := s.resumed ++ [k] }) hw (by simp [Worker.able, hpc])
    | running k h =>
      refine Or.inr ⟨?_, Or.inl rfl⟩
      exact served_setWorker (s := s.count (-1)) hw (by simp [Worker.able, hpc])
    | left => exact Or.inr ⟨rfl, Or.inl rfl⟩

/-- A step of `shutdown` leaves the queue alone, and requests the stop of at most one thread. -/
theorem shutdown_queue :
    s.advanceShutdown.queue_ = s.queue_ ∧
      ((∃ i worker, s.shut = .stopping i ∧ s.workers[i]? = some worker ∧
        s.advanceShutdown.workers = s.workers.set i { worker with stop := true }) ∨
        ((∀ i, s.shut = .stopping i → s.workers[i]? = none) ∧ s.advanceShutdown.workers = s.workers)) := by
  unfold St.advanceShutdown
  cases s.shut with
  | notCalled | returned => exact ⟨rfl, Or.inr ⟨nofun, rfl⟩⟩
  | stopping i =>
    dsimp only
    cases hw : s.workers[i]? with
    | none =>
      refine ⟨rfl, Or.inr ⟨?_, rfl⟩⟩
      intro j hj
      obtain rfl := ShutdownPc.stopping.inj hj
      exact hw
    | some worker => exact ⟨rfl, Or.inl ⟨i, worker, rfl, hw, rfl⟩⟩
  | joining i =>
    refine ⟨?_, Or.inr ⟨nofun, ?_⟩⟩
    all_goals
      dsimp only
      cases s.workers[i]? with
      | none => rfl
      | some worker =>
        dsimp only
        split_ifs
        all_goals rfl

/-- after the stop of thread `i`, the able workers are the others that were able, and `i` inside its inner loop -/
theorem served_stopped {t : St} {i : ℕ} {worker : Worker} (hi : s.workers[i]? = some worker)
    (ht : t.workers = s.workers.set i { worker with stop := true }) :
    t.served = true ↔
      ∃ (j : ℕ) (w : Worker), s.workers[j]? = some w ∧ w.able = true ∧ (j = i → w.inner = true) := by
  have hable : (⟨worker.pc, true⟩ : Worker).able = true ↔ worker.able = true ∧ worker.inner = true := by
    unfold Worker.able Worker.inner
    cases worker.pc <;> simp
  have hlt := (List.getElem?_eq_some_iff.1 hi).1
  rw [served_iff, ht]
  constructor
  · intro h
    rcases h with ⟨j, w, hj, hw⟩
    by_cases hij : i = j
    · subst hij
      rw [getElem?_set_self hlt] at hj
      obtain rfl := Option.some.inj hj
      exact ⟨i, worker, hi, (hable.1 hw).1, fun _ => (hable.1 hw).2⟩
    · rw [getElem?_set_ne hij] at hj
      exact ⟨j, w, hj, hw, fun h => absurd h.symm hij⟩
  · intro h
    rcases h with ⟨j, w, hj, hw, hinner⟩
    by_cases hij : i = j
    · subst hij
      rw [hi] at hj
      obtain rfl := Option.some.inj hj
      exact ⟨i, _, getElem?_set_self hlt, hable.2 ⟨hw, hinner rfl⟩⟩
    · exact ⟨j, w, by rw [getElem?_set_ne hij, hj], hw⟩

/-! ## One step -/

theorem served_congr {t : St} (h : t.workers = s.workers) : t.served = s.served := by
  rw [St.served, h, St.served]

theorem meets_of_other {o : Op} (h : s.pushed o = []) (hs : o ≠ .shutdown) : Meets s o :=
  ⟨fun hp => absurd h hp, fun ho => absurd ho hs⟩

/-- From a state in which the queue is looked after, a step leads to such a state exactly when it meets the condition. -/
theorem kept_step_iff (h : Kept s) (o : Op) : Kept (step s o) ↔ Meets s o := by
  by_cases hs : o = .shutdown
  · subst hs
    obtain ⟨hq, hw⟩ := shutdown_queue (s := s)
    simp only [Kept, step, hq]
    rcases hw with ⟨i, worker, hshut, hi, hw⟩ | ⟨hnone, hw⟩
    · rw [served_stopped hi hw]
      constructor
      · intro hk
        refine ⟨fun hp => absurd rfl hp, ?_⟩
        intro _ j hj hne
        obtain rfl := ShutdownPc.stopping.inj (hshut.symm.trans hj)
        exact hk hne
      · intro hm hne
        exact hm.stop rfl i hshut hne
    · rw [served_congr hw]
      refine ⟨fun hk => ⟨fun hp => absurd rfl hp, ?_⟩, fun _ => h⟩
      intro _ i hi hne
      obtain ⟨j, w, hj, hable⟩ := served_iff.1 (hk hne)
      refine ⟨j, w, hj, hable, ?_⟩
      rintro rfl
      rw [hnone j hi] at hj
      cases hj
  · by_cases hw : ∃ w, o = .worker w
    · obtain ⟨w, rfl⟩ := hw
      refine iff_of_true ?_ (meets_of_other rfl hs)
      intro hne
      rcases worker_queue (s := s) w with ⟨-, hq⟩ | ⟨hserved, hq | hable⟩
      · exact absurd hq hne
      · rw [hserved]
        exact h (hq ▸ hne)
      · rw [hserved]
        exact hable
    · obtain ⟨hworkers, hq⟩ := call_queue (s := s) o (fun w hw' => hw ⟨w, hw'⟩) hs
      rw [Kept, served_congr hworkers, hq]
      constructor
      · intro hk
        exact ⟨fun hp => hk (append_ne_nil_of_right_ne_nil _ hp), fun ho => absurd ho hs⟩
      · intro hm hne
        by_cases hqueue : s.queue_ = []
        · rw [hqueue, nil_append] at hne
          exact hm.push hne
        · exact h hqueue

/-- A queue that nobody looks after stays so. -/
theorem lost_step (h : ¬ Kept s) (o : Op) : ¬ Kept (step s o) := by
  rw [Kept, Classical.not_imp, Bool.not_eq_true] at h ⊢
  obtain ⟨hne, hserved⟩ := h
  by_cases hs : o = .shutdown
  · subst hs
    obtain ⟨hq, hw⟩ := shutdown_queue (s := s)
    refine ⟨by rwa [step, hq], ?_⟩
    rcases hw with ⟨i, worker, -, hi, hw⟩ | ⟨-, hw⟩
    · by_contra hable
      obtain ⟨j, w, hj, hw, -⟩ := (served_stopped hi hw).1 (Bool.not_eq_false _ ▸ hable)
      exact Bool.false_ne_true (hserved.symm.trans (served_iff.2 ⟨j, w, hj, hw⟩))
    · exact (served_congr hw).trans hserved
  · by_cases hw : ∃ w, o = .worker w
    · obtain ⟨w, rfl⟩ := hw
      rcases worker_queue (s := s) w with ⟨hq, -⟩ | ⟨hsame, hq | hable⟩
      · exact absurd hq hne
      · exact ⟨by rwa [hq], hsame.trans hserved⟩
      · exact absurd (hserved.symm.trans hable) Bool.false_ne_true
    · obtain ⟨hworkers, hq⟩ := call_queue (s := s) o (fun w hw' => hw ⟨w, hw'⟩) hs
      exact ⟨by rw [hq]; exact append_ne_nil_of_left_ne_nil hne _, (served_congr hworkers).trans hserved⟩

/-- **A lost handle is lost for good.** Once something is queued and no worker will empty the queue, this is so in every
continuation. -/
theorem lost_forever (h : ¬ Kept s) (ops : List Op) : ¬ Kept (run step s ops) :=
  run_of_inv (fun s o (h : ¬ Kept s) => lost_step h o) h ops

/-! ## Joined threads -/

/-- `shutdown` has joined thread `j` -/
def ShutdownPc.Joined (j : ℕ) : ShutdownPc → Prop
  | .notCalled | .stopping _ => False
  | .joining i => j < i
  | .returned => True

structure Stopped (s : St) : Prop where
  joined : ∀ j worker, s.shut.Joined j → s.workers[j]? = some worker → worker.pc = .left
  before : s.before ≤ s.enqueued.length

theorem init_stopped (n : ℕ) : Stopped (init n) := ⟨nofun, le_rfl⟩

theorem advanceCall_frame (c : ℕ) (call : Call) :
    (s.advanceCall c call).shut = s.shut ∧ (s.advanceCall c call).workers = s.workers ∧
      (s.advanceCall c call).before = s.before ∧ s.enqueued.length ≤ (s.advanceCall c call).enqueued.length := by
  cases call with
  | schedule | rangeSub _ =>
    simp only [St.advanceCall]
    split_ifs
    all_goals exact ⟨rfl, rfl, rfl, le_rfl⟩
  | resume handle =>
    cases handle
    all_goals exact ⟨rfl, rfl, rfl, le_rfl⟩
  | scheduleAdd | range _ | operation | threw | finished => exact ⟨rfl, rfl, rfl, le_rfl⟩
  | resumePush _ | rangePush _ => exact ⟨rfl, rfl, rfl, by simp [St.advanceCall, St.enqueue, St.setCall]⟩

/-- a worker that has left does nothing; another one changes only its own place, the queue and the counter -/
theorem advanceWorker_frame (w : ℕ) (worker : Worker) :
    s.advanceWorker w worker = s ∨ worker.pc ≠ .left ∧ (s.advanceWorker w worker).shut = s.shut ∧
      (s.advanceWorker w worker).before = s.before ∧ (s.advanceWorker w worker).enqueued = s.enqueued ∧
      ∃ worker', (s.advanceWorker w worker).workers = s.workers.set w worker' := by
  unfold St.advanceWorker
  cases hpc : worker.pc with
  | starting | testing | took _ _ | running _ _ => exact Or.inr ⟨nofun, rfl, rfl, rfl, _, rfl⟩
  | waiting =>
    cases s.queue_ with
    | cons h queue => exact Or.inr ⟨nofun, rfl, rfl, rfl, _, rfl⟩
    | nil =>
      dsimp only
      split_ifs
      · exact Or.inr ⟨nofun, rfl, rfl, rfl, _, rfl⟩
      · exact Or.inl rfl
  | left => exact Or.inl rfl

theorem Stopped.worker (h : Stopped s) {w : ℕ} {worker : Worker} (hw : s.workers[w]? = some worker) :
    Stopped (s.advanceWorker w worker) := by
  rcases advanceWorker_frame (s := s) w worker with heq | ⟨hpc, hshut, hbefore, henq, worker', hworkers⟩
  · rw [heq]
    exact h
  · refine ⟨?_, by rw [hbefore, henq]; exact h.before⟩
    intro j v hj hv
    rw [hshut] at hj
    have hjw : w ≠ j := by
      rintro rfl
      exact hpc (h.joined w worker hj hw)
    rw [hworkers, getElem?_set_ne hjw] at hv
    exact h.joined j v hj hv

theorem Stopped.shutdown (h : Stopped s) : Stopped s.advanceShutdown := by
  unfold St.advanceShutdown
  cases hs : s.shut with
  | notCalled => exact ⟨nofun, le_rfl⟩
  | stopping i =>
    dsimp only
    cases s.workers[i]? with
    | none => exact ⟨fun j _ hj => absurd hj (Nat.not_lt_zero j), h.before⟩
    | some worker => exact ⟨nofun, h.before⟩
  | joining i =>
    dsimp only
    cases hi : s.workers[i]? with
    | none =>
      refine ⟨?_, h.before⟩
      intro j w _ hj
      have hlen := getElem?_eq_none_iff.1 hi
      have hlt := (List.getElem?_eq_some_iff.1 hj).1
      refine h.joined j w ?_ hj
      rw [hs]
      exact hlt.trans_le hlen
    | some worker =>
      dsimp only
      split_ifs with hleft
      · refine ⟨?_, h.before⟩
        intro j w hj hw
        by_cases hij : j = i
        · subst hij
          rw [hi] at hw
          rw [← Option.some.inj hw]
          exact hleft
        · refine h.joined j w ?_ hw
          rw [hs]
          exact lt_of_le_of_ne (Nat.lt_succ_iff.1 hj) hij
      · exact h
  | returned => exact h

theorem step_stopped (h : Stopped s) (o : Op) : Stopped (step s o) := by
  cases o with
  | schedule | resume _ | resumeRange _ => exact ⟨h.joined, h.before⟩
  | advance c =>
    simp only [step]
    split
    · rename_i call _
      obtain ⟨hshut, hworkers, hbefore, henq⟩ := advanceCall_frame (s := s) c call
      exact ⟨by rw [hshut, hworkers]; exact h.joined, by rw [hbefore]; exact h.before.trans henq⟩
    · exact h
  | awaitSuspend c co =>
    simp only [step]
    split
    · refine ⟨h.joined, h.before.trans ?_⟩
      simp [St.setCall, St.enqueue]
    · exact h
  | worker w =>
    simp only [step]
    split
    · rename_i worker hw
      exact h.worker hw
    · exact h
  | shutdown => exact h.shutdown

/-! ## Whole runs -/

/-- what is to hold when `shutdown` has returned -/
structure Drained (s : St) : Prop where
  /-- every handle queued before the call has been resumed -/
  resumed : s.shut = .returned → ∀ k < s.before, k ∈ s.resumed
  empty : s.shut = .returned → s.queue_ = []

/-- an operation that `schedule()` returned is not enqueued after the last worker has left -/
def InTime (s : St) (o : Op) : Prop :=
  ∀ c h, o = .awaitSuspend c h → s.calls[c]? = some .operation → ∃ worker ∈ s.workers, worker.pc ≠ .left

/-- once every worker has left, a queue that was looked after is empty, and what was taken out was resumed -/
theorem drained (h : Inv s) (hs : Stopped s) (hk : Kept s) : Drained s := by
  have hleft : s.shut = .returned → ∀ worker ∈ s.workers, worker.pc = .left := by
    intro hret worker hmem
    obtain ⟨j, hj⟩ := getElem?_of_mem hmem
    exact hs.joined j worker (by rw [hret]; trivial) hj
  have hempty : s.shut = .returned → s.queue_ = [] := by
    intro hret
    by_contra hne
    obtain ⟨worker, hmem, hable⟩ := any_eq_true.1 (hk hne)
    rw [Worker.able, hleft hret worker hmem] at hable
    cases hable
  refine ⟨?_, hempty⟩
  intro hret k hlt
  have hfifo := h.fifo
  rw [hempty hret, append_nil] at hfifo
  have honce := h.once k
  rw [if_pos (hfifo ▸ hlt.trans_le hs.before), tally_of_zero, add_zero] at honce
  · exact count_pos_iff.1 (by omega)
  · intro worker hmem
    rw [Worker.holds, hleft hret worker hmem]

theorem inTime {o : Op} (h : Meets s o) : InTime s o := by
  rintro c co rfl hc
  have hpush : s.pushed (.awaitSuspend c co) ≠ [] := by
    rw [St.pushed, hc]
    exact cons_ne_nil _ _
  obtain ⟨worker, hmem, hable⟩ := any_eq_true.1 (h.push hpush)
  refine ⟨worker, hmem, ?_⟩
  intro hpc
  rw [Worker.able, hpc] at hable
  cases hable

theorem always_kept_iff (n : ℕ) (ops : List Op) : Always step Kept (init n) ops ↔ Along step Meets (init n) ops := by
  have hstep : ∀ s o, Kept s → True → (Kept (step s o) ↔ Meets s o) ∧ (Meets s o → Kept (step s o)) :=
    fun s o h _ => ⟨kept_step_iff h o, (kept_step_iff h o).2⟩
  have hinit : Kept (init n) := fun h => absurd rfl h
  exact always_iff_of_inv hstep hinit hinit (along_of_mem fun _ _ _ => trivial)

/-- **When `shutdown` drains the pool.** For every number of workers and every run: if each handle is queued while some
worker will still empty the queue, and no `request_stop` takes the last such worker away from a queue with handles in it,
then once `shutdown` has returned the queue is empty and stays so, every handle queued before the call has been resumed,
and no operation is enqueued after the last worker has left. A run in which `shutdown` has returned and left the pool
drained meets this condition all along. -/
theorem shutdown_drains_iff (n : ℕ) (ops : List Op) :
    (Along step Meets (init n) ops → Always step Drained (init n) ops ∧ Along step InTime (init n) ops) ∧
      ((run step (init n) ops).shut = .returned → Always step Drained (init n) ops →
        Along step Meets (init n) ops) := by
  constructor
  · intro hm
    refine ⟨?_, hm.mono fun s o h => inTime h⟩
    have hkept := always_iff.1 ((always_kept_iff n ops).2 hm)
    rw [always_iff]
    intro k hk
    exact drained (run_inv n _) (run_of_inv (fun s o (h : Stopped s) => step_stopped h o) (init_stopped n) _) (hkept k hk)
  · intro hret hd
    rw [← always_kept_iff, always_iff]
    intro k hk
    by_contra hlost
    -- what is lost at step `k` is still in the queue when `shutdown` has returned
    have hend := lost_forever hlost (ops.drop k)
    rw [← run_append, take_append_drop] at hend
    exact hend fun hne => absurd (hd.last.empty hret) hne

/-- Two runs of a pool with one worker. In the first a handle is queued and `shutdown` is called before the worker comes
to its first test: the worker leaves at once, `shutdown` returns, and the handle is still in the queue. In the second
`schedule()` returns an operation before the call of `shutdown`, and it is enqueued after the worker has left. -/
theorem shutdown_loses :
    ¬ Drained (run step (init 1) [.resume (some 7), .advance 0, .advance 0, .shutdown, .shutdown, .worker 0, .shutdown,
      .shutdown, .shutdown]) ∧
    ¬ Along step InTime (init 1) ([.schedule, .advance 0, .advance 0, .shutdown, .shutdown, .worker 0] ++
      [.awaitSuspend 0 7]) := by
  refine ⟨fun h => absurd (h.empty (by decide)) (by decide), ?_⟩
  intro h
  obtain ⟨worker, hmem, hpc⟩ := h.last 0 7 rfl (by decide)
  have hleft : ∀ worker ∈ (run step (init 1) [.schedule, .advance 0, .advance 0, .shutdown, .shutdown,
      .worker 0]).workers, worker.pc = .left := by decide
  exact hpc (hleft worker hmem)

end TinyRpc.Async.ThreadPool
