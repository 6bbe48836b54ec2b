/-
async::sync_wait: a thread that is not a coroutine waits for an awaitable.

The calling thread makes a coroutine that awaits the awaitable, starts it with the event `e` and waits on `e`. The coroutine
runs on the calling thread until it is suspended; the awaitable resumes it there or on another thread. At its end it keeps
the value or the exception in its promise and calls `e.set()` from its last suspend point. Back from `e.wait()` the calling
thread takes the result, and then the coroutine and the event are destroyed, in this order.

Both threads are interleaved in any order, with spurious wakeups of the condition variable, and `mutex_` records which call
holds it. `cond_.wait` tests, unlocks and blocks in one step, as the condition variable promises. `set` unlocks before it
notifies: there another thread is past the last use of the mutex and still to use the condition variable.

Main results: `returns_result`, the call returns what the awaitable ended with and everything but the notification finds the
coroutine and the event alive; `returns_at_last`, no wakeup is lost; `notifies_destroyed_iff`, from which states on the
notification can find the event destroyed.
-/
import Mathlib.Tactic
import TinyRpc.Core.Machine

namespace TinyRpc.Async.SyncWait

open TinyRpc.Core

variable {ε α : Type}

/-- the thread that called `sync_wait`, or another -/
inductive Thread
  | caller
  | other
deriving DecidableEq, Repr

/-- where the caller stands in `sync_wait` -/
inductive CallerPc (ε α : Type)
  | start
  /-- in `task.start(e)` -/
  | starting
  /-- in `wait`, before it locks `mutex_`, for the first time or after it was woken -/
  | lock
  /-- with the mutex, before `return set_` -/
  | test
  /-- blocked in `cond_` -/
  | parked
  /-- before `lk` is destroyed -/
  | unlock
  /-- before `task.return_value()` -/
  | result
  | destroyTask (r : Except ε α)
  | destroyEvent (r : Except ε α)
  | returned (r : Except ε α)
deriving Repr

/-- where the coroutine of `make_sync_wait_task` stands -/
inductive BodyPc
  | initial
  /-- running on the caller's thread since `task.start(e)` -/
  | started
  /-- at its `co_await` -/
  | suspended
  | resumed (t : Thread)
  /-- at its last suspend point, to which it came on thread `t` -/
  | final (t : Thread)
deriving DecidableEq, Repr

/-- where the call of `set` from the last suspend point stands -/
inductive SetPc
  | notCalled
  | lock
  /-- before `set_ = true` -/
  | store
  | unlock
  | notify
  | returned
deriving DecidableEq, Repr

/-- the calls that lock `mutex_` -/
inductive Holder
  | wait
  | set
deriving DecidableEq, Repr

structure St (ε α : Type) where
  caller : CallerPc ε α
  body : BodyPc
  setter : SetPc
  set_ : Bool
  mutex_ : Option Holder
  except_ : Option ε
  return_value_ : Option α
  /-- the coroutine is not destroyed -/
  task : Bool
  /-- the event is not destroyed -/
  event : Bool
deriving Repr

def init : St ε α :=
  { caller := .start, body := .initial, setter := .notCalled, set_ := false, mutex_ := none, except_ := none,
    return_value_ := none, task := true, event := true }

inductive Op (ε α : Type)
  /-- the next step of the caller -/
  | call
  /-- a spurious wakeup -/
  | wake
  /-- the coroutine is suspended at its `co_await` -/
  | suspend
  /-- the awaitable resumes the coroutine on thread `t` -/
  | resume (t : Thread)
  /-- the `co_await` ends with `r`, which the promise keeps -/
  | complete (r : Except ε α)
  /-- the next step of `set` -/
  | set
deriving Repr

/-- `sync_wait_task_promise::result` -/
def St.result (s : St ε α) : Option (Except ε α) :=
  match s.except_ with
  | some e => some (.error e)
  | none => s.return_value_.map .ok

/-- `unhandled_exception`, `yield_value` -/
def St.keep (s : St ε α) : Except ε α → St ε α
  | .error e => { s with except_ := some e }
  | .ok v => { s with return_value_ := some v }

/-- the thread the coroutine runs on -/
def BodyPc.thread : BodyPc → Option Thread
  | .started => some .caller
  | .resumed t => some t
  | .initial | .suspended | .final _ => none

/-- the coroutine, or the call of `set` that it makes, occupies the caller's thread -/
def St.busy (s : St ε α) : Prop :=
  s.body.thread = some .caller ∨ (s.body = .final .caller ∧ s.setter ≠ .returned)

instance (s : St ε α) : Decidable s.busy := inferInstanceAs (Decidable (_ ∨ _))

/-- `sync_wait` -/
def St.call (s : St ε α) : St ε α :=
  match s.caller with
  | .start => { s with caller := .starting, body := .started }
  | .starting => if s.busy then s else { s with caller := .lock }
  | .lock => if s.mutex_ = none then { s with mutex_ := some .wait, caller := .test } else s
  | .test => if s.set_ then { s with caller := .unlock } else { s with mutex_ := none, caller := .parked }
  | .parked => s
  | .unlock => { s with mutex_ := none, caller := .result }
  | .result =>
    match s.result with
    | some r => { s with caller := .destroyTask r }
    | none => s
  | .destroyTask r => { s with task := false, caller := .destroyEvent r }
  | .destroyEvent r => { s with event := false, caller := .returned r }
  | .returned _ => s

def CallerPc.woken : CallerPc ε α → CallerPc ε α
  | .parked => .lock
  | pc => pc

/-- `sync_wait_event::set` -/
def St.set (s : St ε α) : St ε α :=
  match s.setter with
  | .notCalled => s
  | .lock => if s.mutex_ = none then { s with mutex_ := some .set, setter := .store } else s
  | .store => { s with set_ := true, setter := .unlock }
  | .unlock => { s with mutex_ := none, setter := .notify }
  | .notify => { s with caller := s.caller.woken, setter := .returned }
  | .returned => s

/-- the awaitable may resume the coroutine on thread `t`: on the caller's it does so inside `task.start(e)` -/
def St.resumable (s : St ε α) : Thread → Bool
  | .caller => match s.caller with
    | .starting => true
    | _ => false
  | .other => true

/-- one atomic step; an operation that cannot be taken does nothing -/
def step (s : St ε α) : Op ε α → St ε α
  | .call => s.call
  | .wake => { s with caller := s.caller.woken }
  | .suspend => if s.body = .started then { s with body := .suspended } else s
  | .resume t => if s.body = .suspended ∧ s.resumable t then { s with body := .resumed t } else s
  | .complete r =>
    match s.body.thread with
    | some t => { s.keep r with body := .final t, setter := .lock }
    | none => s
  | .set => s.set

/-! ## What a step may use -/

/-- what the caller's next step needs: the event while it waits, the coroutine with its result, and at its destruction its
last suspend point, at the event's no thread that holds the mutex -/
def St.CallDefined (s : St ε α) : Prop :=
  match s.caller with
  | .start | .starting | .returned _ => True
  | .lock | .test | .parked | .unlock => s.event = true
  | .result => s.task = true ∧ s.result ≠ none
  | .destroyTask _ => s.task = true ∧ ∃ t, s.body = .final t
  | .destroyEvent _ => s.event = true ∧ s.mutex_ = none

/-- what the next step of `set` needs up to the notification: the event, and at first the promise, which holds `event_` -/
def St.SetDefined (s : St ε α) : Prop :=
  match s.setter with
  | .notCalled | .notify | .returned => True
  | .lock => s.task = true ∧ s.event = true
  | .store | .unlock => s.event = true

/-- every step but the notification finds alive what it uses -/
def Defined (s : St ε α) : Op ε α → Prop
  | .call => s.CallDefined
  | .set => s.SetDefined
  | .wake | .suspend => True
  | .resume _ => s.body = .suspended → s.task = true
  | .complete _ => (∃ t, s.body.thread = some t) → s.task = true

/-- the next step of `set` does not notify a destroyed condition variable -/
def NotifiesLive (s : St ε α) : Op ε α → Prop
  | .set => s.setter = .notify → s.event = true
  | _ => True

/-! ## The invariant -/

/-- with the mutex -/
def CallerPc.inLock : CallerPc ε α → Bool
  | .test | .unlock => true
  | _ => false

/-- past a test that found `set_` -/
def CallerPc.past : CallerPc ε α → Bool
  | .unlock | .result | .destroyTask _ | .destroyEvent _ | .returned _ => true
  | _ => false

/-- what the call returns, once the caller has it -/
def CallerPc.value : CallerPc ε α → Option (Except ε α)
  | .destroyTask r | .destroyEvent r | .returned r => some r
  | _ => none

def CallerPc.taskGone : CallerPc ε α → Bool
  | .destroyEvent _ | .returned _ => true
  | _ => false

def CallerPc.eventGone : CallerPc ε α → Bool
  | .returned _ => true
  | _ => false

def SetPc.inLock : SetPc → Bool
  | .store | .unlock => true
  | _ => false

/-- past `set_ = true` -/
def SetPc.stored : SetPc → Bool
  | .unlock | .notify | .returned => true
  | _ => false

structure Inv (s : St ε α) : Prop where
  start : s.caller = .start ↔ s.body = .initial
  setter : s.setter = .notCalled ↔ ∀ t, s.body ≠ .final t
  set_ : s.set_ = s.setter.stored
  holdsSet : s.mutex_ = some .set ↔ s.setter.inLock = true
  holdsWait : s.mutex_ = some .wait ↔ s.caller.inLock = true
  parked : s.caller = .parked → s.setter ≠ .returned
  past : s.caller.past = true → s.setter.stored = true ∧ s.setter.inLock = false
  task : s.task = !s.caller.taskGone
  event : s.event = !s.caller.eventGone
  busy : s.busy → s.caller = .starting
  result : s.result ≠ none ↔ ∃ t, s.body = .final t
  value : ∀ r, s.caller.value = some r → s.result = some r

variable {s : St ε α}

theorem init_inv : Inv (init : St ε α) := by
  refine ⟨?_, ?_, rfl, ?_, ?_, ?_, ?_, rfl, rfl, ?_, ?_, ?_⟩ <;>
    simp [init, SetPc.inLock, CallerPc.inLock, CallerPc.past, St.busy, BodyPc.thread, St.result, CallerPc.value]

/-! ## Steps of the caller -/

/-- no coroutine and no call of `set` is on the caller's thread once the caller is back from `task.start(e)` -/
theorem Inv.not_busy (h : Inv s) (hc : s.caller ≠ .starting) : ¬s.busy := fun hb => hc (h.busy hb)

/-- only a call of `set` that holds the mutex keeps the caller from it -/
theorem Inv.not_inLock (h : Inv s) (hm : s.mutex_ ≠ some .set) : s.setter.inLock ≠ true := fun hl => hm (h.holdsSet.2 hl)

/-- The caller moves on its own to a place of which the invariant holds. -/
theorem Inv.moveCaller (h : Inv s) {pc : CallerPc ε α} {m : Option Holder} {t e : Bool} (hstart : s.caller ≠ .start)
    (hpc : pc ≠ .start) (hset : m = some .set ↔ s.setter.inLock = true) (hwait : m = some .wait ↔ pc.inLock = true)
    (hparked : pc = .parked → s.setter ≠ .returned)
    (hpast : pc.past = true → s.setter.stored = true ∧ s.setter.inLock = false) (htask : t = !pc.taskGone)
    (hevent : e = !pc.eventGone) (hbusy : ¬s.busy) (hvalue : ∀ r, pc.value = some r → s.result = some r) :
    Inv { s with caller := pc, mutex_ := m, task := t, event := e } :=
  { h with
    start := iff_of_false hpc (fun hb => hstart (h.start.2 hb))
    holdsSet := hset
    holdsWait := hwait
    parked := hparked
    past := hpast
    task := htask
    event := hevent
    busy := fun hb => absurd hb hbusy
    value := hvalue }

theorem Inv.call (h : Inv s) : Inv s.call := by
  have htask := h.task
  have hevent := h.event
  have hpast := h.past
  unfold St.call
  split
  case h_1 hc =>
    have hb := h.start.1 hc
    have hidle := h.setter.2 (by simp [hb])
    rw [hc] at htask hevent
    refine { h with start := by simp, setter := by simp [hidle], holdsWait := ?_, parked := by simp,
                    past := by simp [CallerPc.past], task := htask, event := hevent, busy := fun _ => rfl, result := ?_,
                    value := by simp [CallerPc.value] }
    · rw [h.holdsWait, hc]
      rfl
    · have hr := h.result
      rw [hb] at hr
      simpa [St.result] using hr
  case h_2 hc =>
    rw [hc] at htask hevent
    split_ifs with hb
    · exact h
    · refine h.moveCaller ?_ ?_ h.holdsSet ?_ ?_ ?_ htask hevent hb ?_ <;>
        simp [hc, h.holdsWait, CallerPc.inLock, CallerPc.past, CallerPc.value]
  case h_3 hc =>
    rw [hc] at htask hevent
    split_ifs with hm
    · have hfree := h.not_inLock (by simp [hm])
      refine h.moveCaller ?_ ?_ ?_ ?_ ?_ ?_ htask hevent (h.not_busy ?_) ?_ <;>
        simp [hc, hfree, CallerPc.inLock, CallerPc.past, CallerPc.value]
    · exact h
  case h_4 hc =>
    rw [hc] at htask hevent
    have hm := h.holdsWait.2 (by rw [hc]; rfl)
    have hfree := h.not_inLock (by simp [hm])
    split_ifs with hset
    · rw [h.set_] at hset
      refine h.moveCaller ?_ ?_ h.holdsSet ?_ ?_ ?_ htask hevent (h.not_busy ?_) ?_ <;>
        simp [hc, hm, hset, hfree, CallerPc.inLock, CallerPc.value]
    · have hback : s.setter ≠ .returned := by
        intro hr
        rw [h.set_, hr] at hset
        exact hset rfl
      refine h.moveCaller ?_ ?_ ?_ ?_ (fun _ => hback) ?_ htask hevent (h.not_busy ?_) ?_ <;>
        simp [hc, hfree, CallerPc.inLock, CallerPc.past, CallerPc.value]
  case h_5 hc => exact h
  case h_6 hc =>
    rw [hc] at htask hevent hpast
    have hfree := (hpast rfl).2
    refine h.moveCaller ?_ ?_ ?_ ?_ ?_ (fun _ => hpast rfl) htask hevent (h.not_busy ?_) ?_ <;>
      simp [hc, hfree, CallerPc.inLock, CallerPc.value]
  case h_7 hc =>
    rw [hc] at htask hevent hpast
    split
    case h_1 r hr =>
      refine h.moveCaller ?_ ?_ h.holdsSet ?_ ?_ (fun _ => hpast rfl) htask hevent (h.not_busy ?_) ?_ <;>
        simp [hc, hr, h.holdsWait, CallerPc.inLock, CallerPc.value]
    case h_2 => exact h
  case h_8 r hc =>
    have hvalue := h.value r
    rw [hc] at hevent hpast hvalue
    refine h.moveCaller ?_ ?_ h.holdsSet ?_ ?_ (fun _ => hpast rfl) rfl hevent (h.not_busy ?_) ?_ <;>
      simp [hc, hvalue rfl, h.holdsWait, CallerPc.inLock, CallerPc.value]
  case h_9 r hc =>
    have hvalue := h.value r
    rw [hc] at htask hpast hvalue
    refine h.moveCaller ?_ ?_ h.holdsSet ?_ ?_ (fun _ => hpast rfl) htask rfl (h.not_busy ?_) ?_ <;>
      simp [hc, hvalue rfl, h.holdsWait, CallerPc.inLock, CallerPc.value]
  case h_10 => exact h

/-! ## Steps of the coroutine and of set -/

theorem CallerPc.woken_eq (pc : CallerPc ε α) : pc.woken = pc ∨ pc = .parked ∧ pc.woken = .lock := by
  cases pc <;> simp [CallerPc.woken]

/-- a wakeup moves the caller to the lock or not at all -/
theorem Inv.wake (h : Inv s) : Inv { s with caller := s.caller.woken } := by
  rcases s.caller.woken_eq with hw | ⟨hp, hw⟩
  · rw [hw]
    exact h
  · have htask := h.task
    have hevent := h.event
    rw [hp] at htask hevent
    rw [hw]
    refine h.moveCaller ?_ ?_ h.holdsSet ?_ ?_ ?_ htask hevent (h.not_busy ?_) ?_ <;>
      simp [hp, h.holdsWait, CallerPc.inLock, CallerPc.past, CallerPc.value]

theorem CallerPc.woken_ne_parked (pc : CallerPc ε α) : pc.woken ≠ .parked := by
  cases pc <;> simp [CallerPc.woken]

/-- `set` moves on its own to a place of which the invariant holds -/
theorem Inv.moveSetter (h : Inv s) {pc : SetPc} {m : Option Holder} {b : Bool} (hcalled : s.setter ≠ .notCalled)
    (hpc : pc ≠ .notCalled) (hstored : b = pc.stored) (hset : m = some .set ↔ pc.inLock = true)
    (hwait : m = some .wait ↔ s.caller.inLock = true) (hparked : s.caller = .parked → pc ≠ .returned)
    (hpast : s.caller.past = true → pc.stored = true ∧ pc.inLock = false) (hreturned : s.setter ≠ .returned) :
    Inv { s with setter := pc, mutex_ := m, set_ := b } :=
  { h with
    setter := iff_of_false hpc (fun hb => hcalled (h.setter.2 hb))
    set_ := hstored
    holdsSet := hset
    holdsWait := hwait
    parked := hparked
    past := hpast
    busy := by
      rintro (hb | ⟨hb, -⟩)
      · exact h.busy (Or.inl hb)
      · exact h.busy (Or.inr ⟨hb, hreturned⟩) }

theorem Inv.set (h : Inv s) : Inv s.set := by
  have hstored := h.set_
  have hholdsSet := h.holdsSet
  have hholdsWait := h.holdsWait
  have hpast := h.past
  unfold St.set
  split
  case h_1 => exact h
  case h_2 hs =>
    rw [hs] at hstored hpast
    have hnot : s.caller.past ≠ true := fun hp => by simpa [SetPc.stored] using (hpast hp).1
    split_ifs with hm
    · rw [hm] at hholdsWait
      refine h.moveSetter ?_ ?_ hstored ?_ ?_ ?_ (fun hp => absurd hp hnot) ?_ <;>
        simp [hs, SetPc.inLock, ← hholdsWait]
    · exact h
  case h_3 hs =>
    rw [hs] at hholdsSet hpast
    have hnot : s.caller.past ≠ true := fun hp => by simpa [SetPc.stored] using (hpast hp).1
    refine h.moveSetter ?_ ?_ rfl hholdsSet hholdsWait ?_ (fun hp => absurd hp hnot) ?_ <;> simp [hs]
  case h_4 hs =>
    rw [hs] at hstored hholdsSet hpast
    have hnot : s.caller.past ≠ true := fun hp => by simpa [SetPc.inLock] using (hpast hp).2
    rw [hholdsSet.2 rfl] at hholdsWait
    refine h.moveSetter ?_ ?_ hstored ?_ ?_ ?_ (fun hp => absurd hp hnot) ?_ <;>
      simp [hs, SetPc.inLock, ← hholdsWait]
  case h_5 hs =>
    rw [hs] at hstored hholdsSet
    have hw := h.wake
    have hcalled : s.setter ≠ .notCalled := by simp [hs]
    exact
      { hw with
        setter := iff_of_false (by simp) (fun hb => hcalled (h.setter.2 hb))
        set_ := hstored
        holdsSet := hholdsSet
        parked := fun hp => absurd hp s.caller.woken_ne_parked
        past := fun _ => ⟨rfl, rfl⟩
        busy := by
          rintro (hb | ⟨-, hb⟩)
          · exact hw.busy (Or.inl hb)
          · exact absurd rfl hb }
  case h_6 => exact h

/-- the coroutine moves while `set` has not been called -/
theorem Inv.moveBody (h : Inv s) {b : BodyPc} (hs : s.setter = .notCalled) (hstart : s.body ≠ .initial)
    (hb : b ≠ .initial) (hfinal : ∀ t, b ≠ .final t) (hbusy : b.thread = some .caller → s.caller = .starting) :
    Inv { s with body := b } := by
  have hnot := h.setter.1 hs
  refine { h with start := iff_of_false (fun hc => hstart (h.start.1 hc)) hb, setter := iff_of_true hs hfinal,
                  busy := ?_, result := ?_ }
  · rintro (hb | ⟨hb, -⟩)
    · exact hbusy hb
    · exact absurd hb (hfinal _)
  · have hr := not_congr h.result
    rw [not_exists, iff_true_right hnot] at hr
    exact iff_of_false hr (fun he => he.elim hfinal)

theorem CallerPc.past_of_value {pc : CallerPc ε α} {r : Except ε α} (h : pc.value = some r) : pc.past = true := by
  cases pc <;> first | rfl | cases h

theorem St.result_keep (s : St ε α) (r : Except ε α) (hs : s.result = none) : (s.keep r).result = some r := by
  have he : s.except_ = none := by
    unfold St.result at hs
    split at hs
    · cases hs
    · assumption
  cases r <;> simp [St.keep, St.result, he]

theorem Inv.complete (h : Inv s) (r : Except ε α) : Inv (step s (.complete r)) := by
  simp only [step]
  split
  case h_1 t ht =>
    have hfinal : ∀ t, s.body ≠ .final t := by
      intro t' hb
      rw [hb] at ht
      cases ht
    have hs := h.setter.2 hfinal
    have hr : s.result = none := by
      by_contra hr
      exact (h.result.1 hr).elim hfinal
    have hpast := h.past
    rw [hs] at hpast
    have hnot : s.caller.past ≠ true := fun hp => by simpa [SetPc.stored] using (hpast hp).1
    have hkept := s.result_keep r hr
    have hstart : s.caller ≠ .start := by
      intro hc
      rw [h.start.1 hc] at ht
      cases ht
    have hset := h.set_
    have hholdsSet := h.holdsSet
    rw [hs] at hset hholdsSet
    have hinv : ∀ e v, St.result { s with except_ := e, return_value_ := v } = some r →
        Inv { s with except_ := e, return_value_ := v, body := .final t, setter := .lock } := by
      intro e v hv
      refine { h with start := iff_of_false hstart (by simp), setter := by simp, set_ := hset, holdsSet := hholdsSet,
                      parked := by simp, past := fun hp => absurd hp hnot, busy := ?_, result := ?_, value := ?_ }
      · rintro (hb | ⟨hb, -⟩)
        · cases hb
        · cases hb
          exact h.busy (Or.inl ht)
      · refine iff_of_true ?_ ⟨t, rfl⟩
        simp [St.result] at hv ⊢
        simp [hv]
      · intro r' hv'
        exact absurd (CallerPc.past_of_value hv') hnot
    cases r with
    | error e => exact hinv _ _ hkept
    | ok v => exact hinv _ _ hkept
  case h_2 => exact h

theorem Inv.step (h : Inv s) (o : Op ε α) : Inv (step s o) := by
  cases o with
  | call => exact h.call
  | wake => exact h.wake
  | set => exact h.set
  | complete r => exact h.complete r
  | suspend =>
    simp only [SyncWait.step]
    split_ifs with hb
    · have hs := h.setter.2 (by simp [hb])
      exact h.moveBody hs (by simp [hb]) (by simp) (by simp) (by simp [BodyPc.thread])
    · exact h
  | resume t =>
    simp only [SyncWait.step]
    split_ifs with hb
    · have hs := h.setter.2 (by simp [hb.1])
      refine h.moveBody hs (by simp [hb.1]) (by simp) (by simp) ?_
      intro ht
      cases ht
      have hr := hb.2
      simp only [St.resumable] at hr
      split at hr
      · assumption
      · cases hr
    · exact h

theorem inv_run (ops : List (Op ε α)) : Inv (run SyncWait.step init ops) := run_of_inv (fun _ o h => h.step o) init_inv ops

/-! ## What the steps use -/

theorem CallerPc.past_of_taskGone {pc : CallerPc ε α} (h : pc.taskGone = true) : pc.past = true := by
  cases pc <;> first | rfl | cases h

theorem CallerPc.taskGone_of_eventGone {pc : CallerPc ε α} (h : pc.eventGone = true) : pc.taskGone = true := by
  cases pc <;> first | rfl | cases h

/-- past its test the caller finds the coroutine at its last suspend point -/
theorem Inv.final (h : Inv s) (hp : s.caller.past = true) : ∃ t, s.body = .final t := by
  have hset := (h.past hp).1
  by_contra hb
  rw [h.setter.2 (not_exists.1 hb)] at hset
  cases hset

/-- the coroutine is destroyed only when the caller has passed its test -/
theorem Inv.task_of_not_past (h : Inv s) (hp : s.caller.past ≠ true) : s.task = true := by
  rw [h.task, Bool.not_eq_true']
  exact Bool.eq_false_iff.2 (fun hg => hp (CallerPc.past_of_taskGone hg))

theorem Inv.event_of_not_past (h : Inv s) (hp : s.caller.past ≠ true) : s.event = true := by
  rw [h.event, Bool.not_eq_true']
  exact Bool.eq_false_iff.2 (fun hg => hp (CallerPc.past_of_taskGone (CallerPc.taskGone_of_eventGone hg)))

theorem Inv.callDefined (h : Inv s) : s.CallDefined := by
  have htask := h.task
  have hevent := h.event
  have hpast := h.past
  have hfinal := h.final
  unfold St.CallDefined
  split
  case h_1 | h_2 | h_3 => trivial
  case h_4 hc | h_5 hc | h_6 hc | h_7 hc =>
    rw [hc] at hevent
    exact hevent
  case h_8 hc =>
    rw [hc] at htask hfinal
    exact ⟨htask, h.result.2 (hfinal rfl)⟩
  case h_9 r hc =>
    rw [hc] at htask hfinal
    exact ⟨htask, hfinal rfl⟩
  case h_10 r hc =>
    have hwait := h.holdsWait
    rw [hc] at hevent hpast hwait
    refine ⟨hevent, ?_⟩
    cases hm : s.mutex_ with
    | none => rfl
    | some x =>
      cases x with
      | wait => exact absurd (hwait.1 hm) (by simp [CallerPc.inLock])
      | set => exact absurd (h.holdsSet.1 hm) (by simp [(hpast rfl).2])

theorem Inv.setDefined (h : Inv s) : s.SetDefined := by
  have hpast := h.past
  unfold St.SetDefined
  split
  case h_1 | h_2 | h_3 => trivial
  case h_4 hs =>
    rw [hs] at hpast
    have hnot : s.caller.past ≠ true := fun hp => by simpa [SetPc.stored] using (hpast hp).1
    exact ⟨h.task_of_not_past hnot, h.event_of_not_past hnot⟩
  case h_5 hs | h_6 hs =>
    rw [hs] at hpast
    exact h.event_of_not_past (fun hp => by simpa [SetPc.inLock] using (hpast hp).2)

theorem Inv.defined (h : Inv s) (o : Op ε α) : Defined s o := by
  have htask : (∀ t, s.body ≠ .final t) → s.task = true := by
    intro hb
    exact h.task_of_not_past (fun hp => (h.final hp).elim hb)
  cases o with
  | call => exact h.callDefined
  | set => exact h.setDefined
  | wake | suspend => trivial
  | resume t =>
    intro hb
    exact htask (by simp [hb])
  | complete r =>
    rintro ⟨t, ht⟩
    refine htask ?_
    intro t' hb
    rw [hb] at ht
    cases ht

/-! ## The result -/

/-- only the end of the coroutine gives the promise a result, the one it ends with -/
theorem Inv.result_step (h : Inv s) {o : Op ε α} {r : Except ε α} (hr : (SyncWait.step s o).result = some r) :
    s.result = some r ∨ o = .complete r ∧ ∃ t, s.body.thread = some t := by
  cases o with
  | call =>
    left
    rw [← hr]
    simp only [SyncWait.step, St.call]
    repeat' split
    all_goals rfl
  | set =>
    left
    rw [← hr]
    simp only [SyncWait.step, St.set]
    repeat' split
    all_goals rfl
  | wake => exact Or.inl hr
  | suspend | resume _ =>
    left
    rw [← hr]
    simp only [SyncWait.step]
    split_ifs <;> rfl
  | complete r' =>
    simp only [SyncWait.step] at hr
    split at hr
    case h_1 t ht =>
      have hs : s.result = none := by
        by_contra hs
        obtain ⟨t', hb⟩ := h.result.1 hs
        rw [hb] at ht
        cases ht
      have hk := (s.result_keep r' hs).symm.trans hr
      cases hk
      exact Or.inr ⟨rfl, t, ht⟩
    case h_2 => exact Or.inl hr

/-- the result in the promise is what the coroutine ended with, at a moment when it ran -/
theorem result_run {ops : List (Op ε α)} {r : Except ε α} (hr : (run step init ops).result = some r) :
    ∃ ops₁ ops₂ t, ops = ops₁ ++ .complete r :: ops₂ ∧ (run step init ops₁).body.thread = some t := by
  induction ops using List.reverseRecOn with
  | nil => cases hr
  | append_singleton ops o ih =>
    rw [run_concat] at hr
    rcases (inv_run ops).result_step hr with hr | ⟨rfl, t, ht⟩
    · obtain ⟨ops₁, ops₂, t, rfl, ht⟩ := ih hr
      exact ⟨ops₁, ops₂ ++ [o], t, by simp, ht⟩
    · exact ⟨ops, [], t, rfl, ht⟩

/-- In every run, with any interleaving and any spurious wakeups, every step but the notification finds alive what it uses:
nothing waits on, locks or sets a destroyed event, and the coroutine is destroyed once, at its last suspend point, and the
event with its mutex free. When `sync_wait` returns, what it returns refers to what the awaitable ended with on some thread
before; the coroutine is destroyed by then, and with it the object, where `await_resume` returned by value. -/
theorem returns_result (ops : List (Op ε α)) :
    Along step Defined init ops ∧ ∀ r, (run step init ops).caller = .returned r →
      (run step init ops).task = false ∧
        ∃ ops₁ ops₂ t, ops = ops₁ ++ .complete r :: ops₂ ∧ (run step init ops₁).body.thread = some t := by
  refine ⟨?_, ?_⟩
  · rw [along_iff]
    intro ops₁ o ops₂ _
    exact (inv_run ops₁).defined o
  · intro r hr
    have h := inv_run ops
    refine ⟨?_, result_run (h.value r ?_)⟩
    · rw [h.task, hr]
      rfl
    · rw [hr]
      rfl

/-! ## No wakeup is lost -/

/-- the steps the caller has left once it finds `set_`, with the wakeup where it is blocked -/
def CallerPc.left : CallerPc ε α → ℕ
  | .start => 8
  | .starting | .parked => 7
  | .lock => 6
  | .test => 5
  | .unlock => 4
  | .result => 3
  | .destroyTask _ => 2
  | .destroyEvent _ => 1
  | .returned _ => 0

theorem CallerPc.returned_of_left {pc : CallerPc ε α} (h : pc.left = 0) : ∃ r, pc = .returned r := by
  cases pc with
  | returned r => exact ⟨r, rfl⟩
  | _ => cases h

def Op.isCall : Op ε α → Bool
  | .call => true
  | _ => false

/-- Once `set_` is stored and the mutex given back, a caller that is not blocked gets on with each of its steps; the rest
of the state is left to it. -/
theorem Inv.call_left (h : Inv s) {t : Thread} (hb : s.body = .final t) (hstored : s.setter.stored = true)
    (hlock : s.setter.inLock = false) (hbusy : ¬s.busy) (hp : s.caller ≠ .parked) :
    s.call.caller.left = s.caller.left - 1 ∧ s.call.setter = s.setter ∧ s.call.body = s.body := by
  unfold St.call
  split
  case h_1 hc => exact absurd (h.start.1 hc) (by simp [hb])
  case h_2 hc => simp [hc, hbusy, CallerPc.left]
  case h_3 hc =>
    have hm : s.mutex_ = none := by
      have hwait := h.holdsWait
      have hset := h.holdsSet
      rw [hc] at hwait
      rw [hlock] at hset
      rcases hx : s.mutex_ with _ | x
      · rfl
      · cases x <;> simp_all [CallerPc.inLock]
    simp [hc, hm, CallerPc.left]
  case h_4 hc => simp [hc, h.set_, hstored, CallerPc.left]
  case h_5 hc => exact absurd hc hp
  case h_7 hc =>
    split
    case h_1 r hr => simp [hc, CallerPc.left]
    case h_2 hr => exact absurd hr (h.result.2 ⟨t, hb⟩)
  case h_6 hc | h_8 hc | h_9 hc | h_10 hc => simp [hc, CallerPc.left]

/-- nothing but the caller moves once `set` has returned -/
theorem Inv.step_of_returned (h : Inv s) (hs : s.setter = .returned) {o : Op ε α} (ho : o.isCall = false) :
    SyncWait.step s o = s := by
  have hnot := h.setter.not.1 (by simp [hs])
  have hp : s.caller ≠ .parked := fun hp => h.parked hp hs
  push Not at hnot
  obtain ⟨t, hb⟩ := hnot
  cases o with
  | call => cases ho
  | wake =>
    rcases s.caller.woken_eq with hw | ⟨hpark, -⟩
    · simp only [SyncWait.step, hw]
    · exact absurd hpark hp
  | suspend | resume _ | complete _ => simp [SyncWait.step, hb, BodyPc.thread]
  | set => simp [SyncWait.step, St.set, hs]

/-- after the notification as many steps of the caller as it has left end the call, with any other steps between them -/
theorem Inv.returns (h : Inv s) (hs : s.setter = .returned) {ops : List (Op ε α)}
    (hops : s.caller.left ≤ ops.countP Op.isCall) : ∃ r, (run SyncWait.step s ops).caller = .returned r := by
  induction ops generalizing s with
  | nil => exact CallerPc.returned_of_left (Nat.le_zero.1 hops)
  | cons o ops ih =>
    cases ho : o.isCall with
    | false =>
      rw [run, List.foldl_cons, h.step_of_returned hs ho]
      rw [List.countP_cons_of_neg (by simp [ho])] at hops
      exact ih h hs hops
    | true =>
      rw [List.countP_cons_of_pos (by simp [ho])] at hops
      have hnot := h.setter.not.1 (by simp [hs])
      push Not at hnot
      obtain ⟨t, hb⟩ := hnot
      have hbusy : ¬s.busy := by
        rintro (hx | ⟨-, hx⟩)
        · rw [hb] at hx
          cases hx
        · exact hx hs
      obtain ⟨hleft, hsetter, -⟩ :=
        h.call_left hb (by rw [hs]; rfl) (by rw [hs]; rfl) hbusy (fun hp => h.parked hp hs)
      have hle : s.call.caller.left ≤ ops.countP Op.isCall := by
        rw [hleft]
        exact Nat.sub_le_of_le_add hops
      cases o with
      | call => exact ih h.call (hsetter.trans hs) hle
      | _ => cases ho

/-- A call of `set` comes to its notification: what keeps it from the mutex is a caller in its test, which then blocks. -/
theorem Inv.to_notify (h : Inv s) {t : Thread} (hb : s.body = .final t) (hs : s.setter ≠ .returned) :
    ∃ ops : List (Op ε α), (∀ o ∈ ops, o = .call ∨ o = .set) ∧ (run SyncWait.step s ops).setter = .notify ∧
      (run SyncWait.step s ops).body = .final t := by
  cases hpc : s.setter with
  | notCalled => exact absurd hb (h.setter.1 hpc t)
  | returned => exact absurd hpc hs
  | notify => exact ⟨[], by simp, hpc, hb⟩
  | unlock => exact ⟨[.set], by simp, by simp [run, SyncWait.step, St.set, hpc], by simp [run, SyncWait.step, St.set, hpc, hb]⟩
  | store =>
    exact ⟨[.set, .set], by simp, by simp [run, SyncWait.step, St.set, hpc], by simp [run, SyncWait.step, St.set, hpc, hb]⟩
  | lock =>
    have hset := h.set_
    have hholdsSet := h.holdsSet
    rw [hpc] at hset hholdsSet
    rcases hm : s.mutex_ with _ | x
    · refine ⟨[.set, .set, .set], by simp, ?_, ?_⟩ <;> simp [run, SyncWait.step, St.set, hpc, hm, hb]
    · cases x with
      | set => exact absurd (hholdsSet.1 hm) (by simp [SetPc.inLock])
      | wait =>
        have hpast := h.past
        rw [hpc] at hpast
        have hlock := h.holdsWait.1 hm
        have hc : s.caller = .test := by
          cases hc : s.caller with
          | test => rfl
          | unlock =>
            rw [hc] at hpast
            exact absurd (hpast rfl).1 (by simp [SetPc.stored])
          | _ =>
            rw [hc] at hlock
            cases hlock
        refine ⟨[.call, .set, .set, .set], by simp, ?_, ?_⟩ <;>
          simp [run, SyncWait.step, St.call, St.set, hc, hpc, hset, hb, SetPc.stored]

/-- No wakeup is lost. Once the coroutine has ended, whatever ran before, `set` can return without another wakeup; and when
it has returned, every run in which the caller takes seven more steps ends with `sync_wait` returned. -/
theorem returns_at_last (ops : List (Op ε α)) {t : Thread} (hended : (run step init ops).body = .final t) :
    (∃ ops' : List (Op ε α), (∀ o ∈ ops', o = .call ∨ o = .set) ∧ (run step init (ops ++ ops')).setter = .returned) ∧
      ((run step init ops).setter = .returned → ∀ ops', 7 ≤ ops'.countP Op.isCall →
        ∃ r, (run step init (ops ++ ops')).caller = .returned r) := by
  have h := inv_run ops
  refine ⟨?_, ?_⟩
  · by_cases hs : (run step init ops).setter = .returned
    · exact ⟨[], by simp, by rwa [List.append_nil]⟩
    · obtain ⟨ops', hmem, hnotify, -⟩ := h.to_notify hended hs
      refine ⟨ops' ++ [.set], ?_, ?_⟩
      · intro o ho
        rcases List.mem_append.1 ho with ho | ho
        · exact hmem o ho
        · exact Or.inr (List.mem_singleton.1 ho)
      · rw [← List.append_assoc, run_concat, run_append]
        simp only [step, St.set, hnotify]
  · intro hs ops' hops
    rw [run_append]
    refine h.returns hs (le_trans ?_ hops)
    have hstart : (run step init ops).caller ≠ .start := fun hc => by
      rw [h.start.1 hc] at hended
      cases hended
    cases hc : (run step init ops).caller <;> simp_all [CallerPc.left]

/-- the coroutine ends on another thread while the caller holds the mutex to test `set_` -/
theorem returns_at_last_blocked : ∃ ops' : List (Op ℕ ℕ), (∀ o ∈ ops', o = .call ∨ o = .set) ∧
    (run step init ([.call, .suspend, .call, .call, .resume .other, .complete (.ok 5)] ++ ops')).setter = .returned :=
  (returns_at_last [.call, .suspend, .call, .call, .resume .other, .complete (.ok 5)] rfl).1

/-! ## The notification of a destroyed event -/

/-- the coroutine has ended on the caller's thread, or is bound to -/
def St.onCaller (s : St ε α) : Prop := s.body = .resumed .caller ∨ s.body = .final .caller

/-- a call of `set` on the caller's thread is over before the caller waits -/
theorem Inv.notifiesLive (h : Inv s) (hs : s.onCaller ∨ s.setter = .returned) (o : Op ε α) : NotifiesLive s o := by
  cases o with
  | set =>
    intro hn
    have hbody : s.body = .final .caller := by
      rcases hs with (hb | hb) | hs
      · have hnot := h.setter.2 (by simp [hb])
        rw [hnot] at hn
        cases hn
      · exact hb
      · rw [hs] at hn
        cases hn
    have hc := h.busy (Or.inr ⟨hbody, by simp [hn]⟩)
    rw [h.event, hc]
    rfl
  | _ => trivial

theorem Inv.safe_step (h : Inv s) (hs : s.onCaller ∨ s.setter = .returned) (o : Op ε α) :
    (SyncWait.step s o).onCaller ∨ (SyncWait.step s o).setter = .returned := by
  by_cases hr : s.setter = .returned
  · right
    cases ho : o.isCall with
    | false => rw [h.step_of_returned hr ho, hr]
    | true =>
      cases o with
      | call =>
        rw [← hr]
        simp only [SyncWait.step, St.call]
        repeat' split
        all_goals rfl
      | _ => cases ho
  · left
    have hb := hs.resolve_right hr
    cases o with
    | call =>
      have hstart : s.caller ≠ .start := fun hc => by
        rcases hb with hb | hb <;> simp [h.start.1 hc] at hb
      simp only [SyncWait.step, St.call]
      repeat' split
      all_goals first | exact absurd (by assumption) hstart | exact hb
    | set =>
      simp only [SyncWait.step, St.set]
      repeat' split
      all_goals exact hb
    | wake => exact hb
    | suspend | resume _ =>
      rcases hb with hb | hb
      · exact Or.inl (by simp [SyncWait.step, hb])
      · exact Or.inr (by simp [SyncWait.step, hb])
    | complete r =>
      right
      rcases hb with hb | hb <;> simp [SyncWait.step, hb, BodyPc.thread]

/-- With the notification still to come from another thread the caller can go all the way, woken without one. -/
theorem Inv.to_returned (h : Inv s) (hb : s.body = .final .other) (hs : s.setter = .notify) :
    ∃ (ops : List (Op ε α)) (r : Except ε α),
      (run SyncWait.step s ops).caller = .returned r ∧ (run SyncWait.step s ops).setter = .notify := by
  induction hn : s.caller.left generalizing s with
  | zero =>
    obtain ⟨r, hr⟩ := CallerPc.returned_of_left hn
    exact ⟨[], r, hr, hs⟩
  | succ n ih =>
    have hbusy : ¬s.busy := by
      rintro (hx | ⟨hx, -⟩)
      · rw [hb] at hx
        cases hx
      · rw [hb] at hx
        cases hx
    by_cases hp : s.caller = .parked
    · have hleft : s.caller.woken.left = n := by
        rw [hp] at hn ⊢
        exact Nat.succ.inj hn
      obtain ⟨ops, r, hr⟩ := ih h.wake hb hs hleft
      exact ⟨.wake :: ops, r, hr⟩
    · obtain ⟨hleft, hsetter, hbody⟩ := h.call_left hb (by rw [hs]; rfl) (by rw [hs]; rfl) hbusy hp
      obtain ⟨ops, r, hr⟩ := ih h.call (hbody.trans hb) (hsetter.trans hs) (by rw [hleft, hn]; rfl)
      exact ⟨.call :: ops, r, hr⟩

/-- where the coroutine has not ended it can still end on another thread -/
theorem Inv.to_final (h : Inv s) (hs : ¬s.onCaller) (r : Except ε α) :
    ∃ ops : List (Op ε α), (run SyncWait.step s ops).body = .final .other ∧
      (s.setter ≠ .returned → (run SyncWait.step s ops).setter ≠ .returned) := by
  cases hb : s.body with
  | initial =>
    have hc := h.start.2 hb
    refine ⟨[.call, .suspend, .resume .other, .complete r], ?_, fun _ => ?_⟩ <;>
      simp [run, SyncWait.step, St.call, hc, St.resumable, BodyPc.thread]
  | started =>
    refine ⟨[.suspend, .resume .other, .complete r], ?_, fun _ => ?_⟩ <;>
      simp [run, SyncWait.step, hb, St.resumable, BodyPc.thread]
  | suspended =>
    refine ⟨[.resume .other, .complete r], ?_, fun _ => ?_⟩ <;> simp [run, SyncWait.step, hb, St.resumable, BodyPc.thread]
  | resumed t =>
    cases t with
    | caller => exact absurd (Or.inl hb) hs
    | other => refine ⟨[.complete r], ?_, fun _ => ?_⟩ <;> simp [run, SyncWait.step, hb, BodyPc.thread]
  | final t =>
    cases t with
    | caller => exact absurd (Or.inr hb) hs
    | other => exact ⟨[], hb, id⟩

/-- From a state of any run on, the notification can find the event destroyed exactly when `set` has not returned and the
coroutine is not bound to end on the caller's own thread: on another thread the caller may pass between the unlock and the
notification. -/
theorem notifies_destroyed_iff (ops : List (Op ε α)) (r : Except ε α) :
    (∃ ops', ¬Along step NotifiesLive (run step init ops) ops') ↔
      ¬(run step init ops).onCaller ∧ (run step init ops).setter ≠ .returned := by
  have h := inv_run ops
  generalize run step init ops = s at h
  constructor
  · rintro ⟨ops', hops⟩
    rw [← not_or]
    intro hs
    have hstep : ∀ (s : St ε α) o, (Inv s ∧ (s.onCaller ∨ s.setter = .returned)) → True →
        NotifiesLive s o ∧ (Inv (step s o) ∧ ((step s o).onCaller ∨ (step s o).setter = .returned)) := by
      rintro s o ⟨h, hs⟩ -
      exact ⟨h.notifiesLive hs o, h.step o, h.safe_step hs o⟩
    exact hops (along_of_inv hstep ⟨h, hs⟩ (along_of_mem fun _ _ _ => trivial))
  · rintro ⟨hs, hr⟩
    obtain ⟨ops₁, hb, hr₁⟩ := h.to_final hs r
    have h₁ := run_of_inv (fun _ o h => h.step o) h ops₁
    obtain ⟨ops₂, -, hn, hb₂⟩ := h₁.to_notify hb (hr₁ hr)
    have h₂ := run_of_inv (fun _ o h => h.step o) h₁ ops₂
    obtain ⟨ops₃, r', hc, hn₃⟩ := h₂.to_returned hb₂ hn
    have h₃ := run_of_inv (fun _ o h => h.step o) h₂ ops₃
    refine ⟨ops₁ ++ ops₂ ++ ops₃ ++ [.set], ?_⟩
    intro hall
    have hlast := hall.last
    rw [run_append, run_append] at hlast
    have hevent := hlast hn₃
    rw [h₃.event, hc] at hevent
    cases hevent

end TinyRpc.Async.SyncWait
