/-
async::task on a thread pool with events (async/task.hpp, thread_pool.cc, event.cc).

A program gives every coroutine a straight-line body; a coroutine is an instance, so each is created once. A task starts
eagerly on the thread that creates it (initial_suspend is suspend_never). A thread is a stack of frames: coroutines that
are running or waiting for a call to return, and calls of event::set in progress. An operation is one step of one
thread, and a run is any sequence of operations, so any number of workers and any interleaving. await_ready and the
compare-exchange of an event's await_suspend are one step, at the point that decides. Task objects live as long as they
are used.

Every suspension gets a ticket, and a registration (queue_, an event's list of awaiters) carries the ticket of the
suspension that made it, so that a resume can be told from a stale one.

Main result `resumes_legit_iff`: in every run, all resumes are made by the party the suspension was registered with if
and only if every co_await of a task finds the task at its final suspend. `await_resumes_scheduled`: the program of
async_test.test_task breaks it, the parent resumes a child that waits in the pool's queue.
-/
import Mathlib.Tactic
import TinyRpc.Core.Machine
import TinyRpc.Core.Registry

namespace TinyRpc.Async

open TinyRpc.Core Function

/-! ## Programs -/

inductive Instr
  /-- co_await thread_pool.schedule() -/
  | schedule
  /-- co_await of event `e` -/
  | event (e : ℕ)
  /-- a call that creates task `d`, to be awaited later -/
  | spawn (d : ℕ)
  /-- co_await of task `d`, which is created first if it was not yet -/
  | await (d : ℕ)
deriving DecidableEq, Repr

structure Body where
  instrs : List Instr
  /-- the body ends in a throw instead of a return -/
  throws : Bool
deriving DecidableEq, Repr

abbrev Program := ℕ → Body

/-! ## State -/

/-- what a suspended coroutine waits for -/
inductive Wait
  | sched
  | event (e : ℕ)
  | child (d : ℕ)
deriving DecidableEq, Repr

inductive Status
  | fresh
  | running
  | suspended (w : Wait) (ticket : ℕ)
  /-- at its final suspend, with or without an exception -/
  | done (threw : Bool)
deriving DecidableEq, Repr

/-- a handle in an event's list of awaiters -/
structure Waiter where
  co : ℕ
  ticket : ℕ
deriving DecidableEq, Repr

/-- a handle in queue_, with the suspension it was registered for -/
structure Queued where
  co : ℕ
  wait : Wait
  ticket : ℕ
deriving DecidableEq, Repr

structure Event where
  isSet : Bool
  /-- the awaiters, last one first -/
  waiters : List Waiter
deriving DecidableEq, Repr

inductive Frame
  | co (c : ℕ)
  /-- event::set of `e`, with the awaiters it has still to resume -/
  | set (e : ℕ) (ws : List Waiter)
  /-- event::set of `e` on the pool, with the awaiters it has still to hand over -/
  | setOn (e : ℕ) (ws : List Waiter)
deriving DecidableEq, Repr

structure St where
  status : ℕ → Status
  /-- what a coroutine has still to do -/
  rest : ℕ → List Instr
  continuation_ : ℕ → Option ℕ
  queue_ : List Queued
  events : ℕ → Event
  /-- innermost frame first; a thread without frames is a worker between two handles, or outside the library -/
  frames : ℕ → List Frame
  tickets : ℕ
  /-- a handle that is not suspended was resumed -/
  ub : Bool

/-- who resumes a handle -/
inductive Party
  /-- a worker that dequeued the registration -/
  | worker (w : Wait) (ticket : ℕ)
  /-- event::set of `e`, from the awaiter's registration -/
  | set (e ticket : ℕ)
  /-- task::awaitable_base::await_suspend of an awaiting coroutine -/
  | awaiter (c : ℕ)
  /-- final_awaitable::await_suspend of task `d` -/
  | final (d : ℕ)
deriving DecidableEq, Repr

inductive Policy
  | lifo | fifo
deriving DecidableEq, Repr

inductive Op
  /-- thread `t`, outside any coroutine, calls the coroutine function of `c` -/
  | start (t c : ℕ)
  /-- thread `t` dequeues the front of queue_ and resumes it -/
  | worker (t : ℕ)
  /-- thread `t` calls set on event `e` -/
  | set (t e : ℕ) (policy : Policy)
  /-- thread `t` calls set on event `e` with the pool as executor -/
  | setOn (t e : ℕ) (policy : Policy)
  | reset (e : ℕ)
  /-- thread `t` takes the next step of its innermost frame -/
  | advance (t : ℕ)
deriving DecidableEq, Repr

namespace St

def setStatus (s : St) (c : ℕ) (v : Status) : St := { s with status := update s.status c v }

def setStack (s : St) (t : ℕ) (fs : List Frame) : St := { s with frames := update s.frames t fs }

def setRest (s : St) (c : ℕ) (is : List Instr) : St := { s with rest := update s.rest c is }

def setEvent (s : St) (e : ℕ) (v : Event) : St := { s with events := update s.events e v }

def enqueue (s : St) (x : Queued) : St := { s with queue_ := s.queue_ ++ [x] }

/-- coroutine `c` suspends for `w` -/
def suspend (s : St) (c : ℕ) (w : Wait) : St :=
  { s.setStatus c (.suspended w s.tickets) with tickets := s.tickets + 1 }

/-- resume of handle `c` on thread `t`, over the frames `fs` -/
def resume (s : St) (t c : ℕ) (fs : List Frame) : St :=
  match s.status c with
  | .suspended _ _ => (s.setStatus c .running).setStack t (.co c :: fs)
  | _ => { s with ub := true }

/-- creation of `d` on thread `t`, over the frames `fs`: it runs at once -/
def create (s : St) (t d : ℕ) (fs : List Frame) : St := (s.setStatus d .running).setStack t (.co d :: fs)

end St

def init (prog : Program) (initially : ℕ → Bool) : St where
  status _ := .fresh
  rest c := (prog c).instrs
  continuation_ _ := none
  queue_ := []
  events e := ⟨initially e, []⟩
  frames _ := []
  tickets := 0
  ub := false

/-! ## Steps -/

/-- the next instruction `i` of the running coroutine `c` on thread `t`, with `is` behind it and the frames `fs` below -/
def exec (s : St) (t c : ℕ) (fs : List Frame) (i : Instr) (is : List Instr) : St × Option (ℕ × Party) :=
  match i with
  | .schedule => ((((s.setRest c is).suspend c .sched).enqueue ⟨c, .sched, s.tickets⟩).setStack t fs, none)
  | .event e =>
    if (s.events e).isSet then (s.setRest c is, none)
    else
      let ws := ⟨c, s.tickets⟩ :: (s.events e).waiters
      ((((s.setRest c is).suspend c (.event e)).setEvent e ⟨false, ws⟩).setStack t fs, none)
  | .spawn d =>
    match s.status d with
    | .fresh => ((s.setRest c is).create t d (.co c :: fs), none)
    | _ => (s.setRest c is, none)
  | .await d =>
    match s.status d with
    | .fresh => (s.create t d (.co c :: fs), none)
    -- await_ready; await_resume throws what the task has thrown, and nothing in the body catches it
    | .done false => (s.setRest c is, none)
    | .done true => (s.setStatus c (.done true), none)
    -- await_suspend: the awaiting coroutine becomes the continuation, and the task's handle is resumed
    | _ =>
      let s' := (s.setRest c is).suspend c (.child d)
      ({ s' with continuation_ := update s'.continuation_ d (some c) }.resume t d fs, some (d, .awaiter c))

/-- one step of coroutine `c` at the top of thread `t` -/
def advanceCo (prog : Program) (s : St) (t c : ℕ) (fs : List Frame) : St × Option (ℕ × Party) :=
  match s.status c with
  | .running =>
    match s.rest c with
    | [] => (s.setStatus c (.done (prog c).throws), none)
    | i :: is => exec s t c fs i is
  -- final_awaitable
  | .done _ =>
    match s.continuation_ c with
    | some p => (s.resume t p fs, some (p, .final c))
    | none => (s.setStack t fs, none)
  | _ => (s, none)

/-- exchange of an event's state_ by set, and the awaiters to resume, in this order -/
def exchange (s : St) (e : ℕ) (policy : Policy) : St × List Waiter :=
  let ws := (s.events e).waiters
  (s.setEvent e ⟨true, []⟩, match policy with | .lifo => ws | .fifo => ws.reverse)

/-- the state after an operation, and the handle it resumed with the party that did; an operation that is not possible
changes nothing, and nothing happens after undefined behaviour -/
def stepR (prog : Program) (s : St) (o : Op) : St × Option (ℕ × Party) :=
  if s.ub then (s, none) else
  match o with
  | .start t c => if s.frames t = [] ∧ s.status c = .fresh then (s.create t c [], none) else (s, none)
  | .worker t =>
    match s.frames t, s.queue_ with
    | [], x :: q => ({ s with queue_ := q }.resume t x.co [], some (x.co, .worker x.wait x.ticket))
    | _, _ => (s, none)
  | .set t e policy =>
    if s.frames t = [] ∧ (s.events e).isSet = false then
      ((exchange s e policy).1.setStack t [.set e (exchange s e policy).2], none)
    else (s, none)
  | .setOn t e policy =>
    if s.frames t = [] ∧ (s.events e).isSet = false then
      ((exchange s e policy).1.setStack t [.setOn e (exchange s e policy).2], none)
    else (s, none)
  | .reset e => (s.setEvent e { s.events e with isSet := false }, none)
  | .advance t =>
    match s.frames t with
    | [] => (s, none)
    | .co c :: fs => advanceCo prog s t c fs
    | .set _ [] :: fs => (s.setStack t fs, none)
    | .set e (x :: ws) :: fs => (s.resume t x.co (.set e ws :: fs), some (x.co, .set e x.ticket))
    | .setOn _ [] :: fs => (s.setStack t fs, none)
    -- thread_pool::resume
    | .setOn e (x :: ws) :: fs => ((s.enqueue ⟨x.co, .event e, x.ticket⟩).setStack t (.setOn e ws :: fs), none)

def step (prog : Program) (s : St) (o : Op) : St := (stepR prog s o).1

/-- may this party resume a handle with this status? Only the one the suspension was registered with -/
def Allowed (s : St) (party : Party) : Status → Prop
  | .suspended .sched n => party = .worker .sched n
  | .suspended (.event e) n => party = .set e n ∨ party = .worker (.event e) n
  | .suspended (.child d) _ => party = .final d ∧ ∃ b, s.status d = .done b
  | _ => False

/-- a resume made by this operation is one its handle was waiting for -/
def Legit (prog : Program) (s : St) (o : Op) : Prop :=
  ∀ c party, (stepR prog s o).2 = some (c, party) → Allowed s party (s.status c)

/-- a co_await of a task that exists finds it at its final suspend -/
def AwaitsFinished (s : St) : Op → Prop
  | .advance t => ∀ c fs d is, s.ub = false → s.frames t = .co c :: fs → s.status c = .running → s.rest c = .await d :: is →
      s.status d = .fresh ∨ ∃ b, s.status d = .done b
  | _ => True

/-! ## Who holds a handle -/

/-- where a handle can be registered or run -/
inductive Holder
  | queue
  | event (e : ℕ)
  | thread (t : ℕ)
deriving DecidableEq, Repr

/-- what a holder takes for granted about the coroutine -/
inductive Expect
  | waiting (w : Wait) (ticket : ℕ)
  | active
deriving DecidableEq, Repr

/-- a coroutine that waits for a child is held by nobody but the child -/
def Meets : Status → Expect → Prop
  | .suspended w n, .waiting w' n' => w = w' ∧ n = n' ∧ ∀ d, w ≠ .child d
  | .running, .active => True
  | .done _, .active => True
  | _, _ => False

theorem meets_running : Meets .running .active := trivial

theorem meets_done (b : Bool) : Meets (.done b) .active := trivial

theorem meets_sched (n : ℕ) : Meets (.suspended .sched n) (.waiting .sched n) := ⟨rfl, rfl, by simp⟩

theorem meets_event (e n : ℕ) : Meets (.suspended (.event e) n) (.waiting (.event e) n) := ⟨rfl, rfl, by simp⟩

theorem meets_waiting {v : Status} {w : Wait} {n : ℕ} (h : Meets v (.waiting w n)) :
    v = .suspended w n ∧ ∀ d, w ≠ .child d := by
  cases v with
  | suspended w' n' =>
    obtain ⟨rfl, rfl, hw⟩ := h
    exact ⟨rfl, hw⟩
  | _ => exact absurd h id

def Queued.entry (x : Queued) : ℕ × Expect := (x.co, .waiting x.wait x.ticket)

def Waiter.entry (e : ℕ) (x : Waiter) : ℕ × Expect := (x.co, .waiting (.event e) x.ticket)

def Frame.entries : Frame → List (ℕ × Expect)
  | .co c => [(c, .active)]
  | .set e ws => ws.map (Waiter.entry e)
  | .setOn e ws => ws.map (Waiter.entry e)

def entries (s : St) : Holder → List (ℕ × Expect)
  | .queue => s.queue_.map Queued.entry
  | .event e => (s.events e).waiters.map (Waiter.entry e)
  | .thread t => (s.frames t).flatMap Frame.entries

/-- every live handle is held once, no task has a continuation, and nothing undefined has happened -/
structure Inv (s : St) : Prop where
  held : Registry Meets (entries s) s.status
  no_continuation : ∀ c, s.continuation_ c = none
  defined : s.ub = false

theorem init_inv (prog : Program) (initially : ℕ → Bool) : Inv (init prog initially) := by
  have he : ∀ k, entries (init prog initially) k = [] := by
    intro k
    cases k <;> rfl
  refine ⟨⟨?_, ?_, ?_⟩, fun _ => rfl, rfl⟩
  · intro k
    simp [he]
  · intro k k' c hc
    simp [he] at hc
  · intro k p hp
    simp [he] at hp

section entries

variable (s : St)

@[simp] theorem entries_setStack (t : ℕ) (fs : List Frame) :
    entries (s.setStack t fs) = update (entries s) (.thread t) (fs.flatMap Frame.entries) := by
  funext k
  cases k with
  | thread t' => by_cases ht : t' = t <;> simp [entries, St.setStack, update, ht]
  | _ => simp [entries, St.setStack, update]

@[simp] theorem entries_setEvent (e : ℕ) (v : Event) :
    entries (s.setEvent e v) = update (entries s) (.event e) (v.waiters.map (Waiter.entry e)) := by
  funext k
  cases k with
  | event e' => by_cases he : e' = e <;> simp [entries, St.setEvent, update, he]
  | _ => simp [entries, St.setEvent, update]

@[simp] theorem entries_queue (q : List Queued) :
    entries { s with queue_ := q } = update (entries s) .queue (q.map Queued.entry) := by
  funext k
  cases k <;> simp [entries, update]

@[simp] theorem entries_setStatus (c : ℕ) (v : Status) : entries (s.setStatus c v) = entries s := by
  funext k
  cases k <;> rfl

@[simp] theorem entries_setRest (c : ℕ) (is : List Instr) : entries (s.setRest c is) = entries s := by
  funext k
  cases k <;> rfl

@[simp] theorem entries_suspend (c : ℕ) (w : Wait) : entries (s.suspend c w) = entries s := by
  funext k
  cases k <;> rfl

end entries

/-! ## Every step keeps the invariant -/

variable {s : St} {t c d e : ℕ} {fs : List Frame} {is : List Instr}

theorem entries_top (hf : s.frames t = .co c :: fs) :
    entries s (.thread t) = (c, .active) :: fs.flatMap Frame.entries := by
  simp [entries, hf, Frame.entries]

theorem setRest_inv (h : Inv s) : Inv (s.setRest c is) :=
  ⟨by rw [entries_setRest]; exact h.held, h.no_continuation, h.defined⟩

theorem create_inv (h : Inv s) (hd : s.status d = .fresh) (hf : s.frames t = fs) : Inv (s.create t d fs) := by
  refine ⟨?_, h.no_continuation, h.defined⟩
  have hfree : Unheld (entries s) d := h.held.unheld fun x hx => by simp [hd, Meets] at hx
  have hadd := h.held.add (k := .thread t) hfree meets_running
  rw [St.create, entries_setStack, entries_setStatus]
  subst hf
  exact hadd

/-- a registration at the front of its holder is resumed by the thread's next step -/
theorem resume_inv {k : Holder} {w : Wait} {n : ℕ} {l : List (ℕ × Expect)} (h : Inv s) (u : St)
    (hk : entries s k = (c, .waiting w n) :: l) (hu : entries u = update (entries s) k l) (hst : u.status = s.status)
    (hc : u.continuation_ = s.continuation_) (hub : u.ub = s.ub)
    (hfs : entries u (.thread t) = fs.flatMap Frame.entries) :
    Inv (u.resume t c fs) ∧ s.status c = .suspended w n ∧ ∀ d, w ≠ .child d := by
  obtain ⟨hw, hchild⟩ := meets_waiting (h.held.met k (c, .waiting w n) (by simp [hk]))
  have hres : u.resume t c fs = (u.setStatus c .running).setStack t (.co c :: fs) := by
    unfold St.resume
    rw [hst, hw]
  refine ⟨⟨?_, ?_, ?_⟩, hw, hchild⟩
  · have hmove := h.held.move (i := .thread t) hk meets_running
    rw [← hu, hfs, ← hst] at hmove
    rw [hres, entries_setStack, entries_setStatus]
    exact hmove
  · intro i
    rw [hres]
    exact (congrFun hc i).trans (h.no_continuation i)
  · rw [hres]
    exact hub.trans h.defined

theorem pop_inv (h : Inv s) {f : Frame} (hf : s.frames t = f :: fs) (hsub : f.entries = [] ∨ ∃ c, f = .co c) :
    Inv (s.setStack t fs) := by
  refine ⟨?_, h.no_continuation, h.defined⟩
  rw [entries_setStack]
  rcases hsub with he | ⟨c, rfl⟩
  · have hsame : entries s (.thread t) = fs.flatMap Frame.entries := by simp [entries, hf, he]
    rw [← hsame, update_eq_self]
    exact h.held
  · exact (h.held.drop (entries_top hf)).1

/-- the running coroutine of thread `t` takes its place in the queue -/
theorem park_queue_inv (h : Inv s) (hf : s.frames t = .co c :: fs) :
    Inv ((((s.setRest c is).suspend c .sched).enqueue ⟨c, .sched, s.tickets⟩).setStack t fs) := by
  refine ⟨?_, h.no_continuation, h.defined⟩
  have hmove := h.held.move (i := .queue) (entries_top hf) (meets_sched s.tickets)
  refine hmove.perm ?_
  intro k
  rw [St.enqueue, entries_setStack, entries_queue, entries_suspend, entries_setRest, update_comm (by simp)]
  by_cases hk : k = .queue
  · subst hk
    simp [St.suspend, St.setRest, St.setStatus, entries, Queued.entry]
  · rw [update_of_ne hk, update_of_ne hk]

/-- the running coroutine of thread `t` takes its place among the awaiters of an event -/
theorem park_event_inv (h : Inv s) (hf : s.frames t = .co c :: fs) :
    Inv ((((s.setRest c is).suspend c (.event e)).setEvent e
      ⟨false, ⟨c, s.tickets⟩ :: (s.events e).waiters⟩).setStack t fs) := by
  refine ⟨?_, h.no_continuation, h.defined⟩
  have hmove := h.held.move (i := .event e) (entries_top hf) (meets_event e s.tickets)
  refine hmove.perm ?_
  intro k
  rw [entries_setStack, entries_setEvent, entries_suspend, entries_setRest, update_comm (by simp)]
  by_cases hk : k = .event e
  · subst hk
    simp [entries, Waiter.entry]
  · rw [update_of_ne hk, update_of_ne hk]

/-- the running coroutine of thread `t` reaches its final suspend -/
theorem finish_inv (h : Inv s) (hf : s.frames t = .co c :: fs) (b : Bool) : Inv (s.setStatus c (.done b)) :=
  ⟨by rw [entries_setStatus]; exact h.held.set_status (entries_top hf) (meets_done b), h.no_continuation, h.defined⟩

/-- event::set takes the awaiters of `e` over to the thread that called it -/
theorem exchange_inv (h : Inv s) (ht : s.frames t = []) (policy : Policy) {f : List Waiter → Frame}
    (hf : ∀ ws, (f ws).entries = ws.map (Waiter.entry e)) :
    Inv ((exchange s e policy).1.setStack t [f (exchange s e policy).2]) := by
  refine ⟨?_, h.no_continuation, h.defined⟩
  have hperm : ((exchange s e policy).2.map (Waiter.entry e)).Perm (entries s (.event e)) := by
    cases policy with
    | lifo => exact List.Perm.refl _
    | fifo => exact (List.reverse_perm _).map _
  have htr := h.held.transfer (k := .event e) (by simp) (by simp [entries, ht] : entries s (.thread t) = []) hperm
  show Registry Meets (entries ((s.setEvent e ⟨true, []⟩).setStack t [f (exchange s e policy).2])) s.status
  rw [entries_setStack, entries_setEvent]
  simpa [hf] using htr

/-- thread_pool::resume of an awaiter: it goes from the thread that called set to the queue -/
theorem handOver_inv {x : Waiter} {ws : List Waiter} (h : Inv s) (hf : s.frames t = .setOn e (x :: ws) :: fs) :
    Inv ((s.enqueue ⟨x.co, .event e, x.ticket⟩).setStack t (.setOn e ws :: fs)) := by
  refine ⟨?_, h.no_continuation, h.defined⟩
  have hk : entries s (.thread t) = x.entry e :: (Frame.setOn e ws :: fs).flatMap Frame.entries := by
    simp [entries, hf, Frame.entries]
  have hst : s.status x.co = .suspended (.event e) x.ticket :=
    (meets_waiting (h.held.met (.thread t) (x.entry e) (by simp [hk]))).1
  have hmove := h.held.move (i := .queue) hk (meets_event e x.ticket)
  rw [← hst, update_eq_self] at hmove
  refine hmove.perm ?_
  intro k
  rw [St.enqueue, entries_setStack, entries_queue, update_comm (by simp)]
  by_cases hkq : k = .queue
  · subst hkq
    simp [entries, Queued.entry]
  · rw [update_of_ne hkq, update_of_ne hkq]

theorem allowed_worker {w : Wait} {n : ℕ} (hw : ∀ d, w ≠ .child d) : Allowed s (.worker w n) (.suspended w n) := by
  cases w with
  | sched => rfl
  | event e => exact Or.inr rfl
  | child d => exact absurd rfl (hw d)

theorem exec_inv {i : Instr} (h : Inv s) (hf : s.frames t = .co c :: fs)
    (ha : ∀ d, i = .await d → s.status d = .fresh ∨ ∃ b, s.status d = .done b) :
    (exec s t c fs i is).2 = none ∧ Inv (exec s t c fs i is).1 := by
  cases i with
  | schedule => exact ⟨rfl, park_queue_inv h hf⟩
  | event e =>
    by_cases he : (s.events e).isSet = true
    · simp only [exec, if_pos he]
      exact ⟨trivial, setRest_inv h⟩
    · simp only [exec, if_neg he]
      exact ⟨trivial, park_event_inv h hf⟩
  | spawn d =>
    cases hd : s.status d with
    | fresh =>
      simp only [exec, hd]
      exact ⟨trivial, create_inv (setRest_inv h) hd hf⟩
    | _ =>
      simp only [exec, hd]
      exact ⟨trivial, setRest_inv h⟩
  | await d =>
    rcases ha d rfl with hd | ⟨b, hd⟩
    · simp only [exec, hd]
      exact ⟨trivial, create_inv h hd hf⟩
    · cases b with
      | false =>
        simp only [exec, hd]
        exact ⟨trivial, setRest_inv h⟩
      | true =>
        simp only [exec, hd]
        exact ⟨trivial, finish_inv h hf true⟩

theorem advanceCo_inv (prog : Program) (h : Inv s) (hf : s.frames t = .co c :: fs)
    (ha : AwaitsFinished s (.advance t)) :
    (advanceCo prog s t c fs).2 = none ∧ Inv (advanceCo prog s t c fs).1 := by
  unfold advanceCo
  cases hc : s.status c with
  | running =>
    cases hr : s.rest c with
    | nil => exact ⟨rfl, finish_inv h hf _⟩
    | cons i is => exact exec_inv h hf fun d hd => ha c fs d is h.defined hf hc (hd ▸ hr)
  | done b =>
    simp only [h.no_continuation c]
    exact ⟨trivial, pop_inv h hf (Or.inr ⟨c, rfl⟩)⟩
  | _ => exact ⟨rfl, h⟩

/-- a worker resumes what it dequeued -/
theorem worker_legit (prog : Program) (h : Inv s) (t : ℕ) :
    Legit prog s (.worker t) ∧ Inv (step prog s (.worker t)) := by
  have hub : ¬ s.ub = true := by simp [h.defined]
  unfold step Legit stepR
  simp only [if_neg hub]
  cases ht : s.frames t with
  | cons f fs => exact ⟨by simp, h⟩
  | nil =>
    cases hq : s.queue_ with
    | nil => exact ⟨by simp, h⟩
    | cons x q =>
      have hk : entries s .queue = x.entry :: q.map Queued.entry := by simp [entries, hq]
      obtain ⟨h1, h2, h3⟩ := resume_inv (t := t) h { s with queue_ := q } hk (entries_queue s q) rfl rfl rfl
        (by simp [entries, ht] : entries { s with queue_ := q } (.thread t) = [].flatMap Frame.entries)
      refine ⟨?_, h1⟩
      intro c party hc
      obtain ⟨rfl, rfl⟩ : x.co = c ∧ Party.worker x.wait x.ticket = party := by simpa using hc
      rw [h2]
      exact allowed_worker h3

/-- the next waiter of an event that is being set: it is suspended on the event, and resuming it keeps the invariant -/
theorem resume_waiter {e : ℕ} {x : Waiter} {ws : List Waiter} (h : Inv s) (ht : s.frames t = .set e (x :: ws) :: fs) :
    s.status x.co = .suspended (.event e) x.ticket ∧ Inv (s.resume t x.co (.set e ws :: fs)) := by
  have hk : entries s (.thread t) = x.entry e :: (Frame.set e ws :: fs).flatMap Frame.entries := by
    simp [entries, ht, Frame.entries]
  obtain ⟨h1, h2, -⟩ := resume_inv (t := t) h (s.setStack t (.set e ws :: fs)) hk (entries_setStack s t _)
    rfl rfl rfl (by rw [entries_setStack, update_self])
  have hres : s.resume t x.co (.set e ws :: fs) = (s.setStack t (.set e ws :: fs)).resume t x.co (.set e ws :: fs) := by
    simp only [St.resume, h2, St.setStack, St.setStatus, update_idem]
  exact ⟨h2, hres ▸ h1⟩

theorem advance_legit (prog : Program) (h : Inv s) (ha : AwaitsFinished s (.advance t)) :
    Legit prog s (.advance t) ∧ Inv (step prog s (.advance t)) := by
  have hub : ¬ s.ub = true := by simp [h.defined]
  unfold step Legit stepR
  simp only [if_neg hub]
  cases ht : s.frames t with
  | nil => exact ⟨by simp, h⟩
  | cons f fs =>
    cases f with
    | co c =>
      obtain ⟨h1, h2⟩ := advanceCo_inv prog h ht ha
      exact ⟨by simp [h1], h2⟩
    | set e ws =>
      cases ws with
      | nil => exact ⟨by simp, pop_inv h ht (Or.inl rfl)⟩
      | cons x ws =>
        obtain ⟨hx, hinv⟩ := resume_waiter h ht
        refine ⟨?_, hinv⟩
        intro c party hc
        obtain ⟨rfl, rfl⟩ : x.co = c ∧ Party.set e x.ticket = party := by simpa using hc
        rw [hx]
        exact Or.inl rfl
    | setOn e ws =>
      cases ws with
      | nil => exact ⟨by simp, pop_inv h ht (Or.inl rfl)⟩
      | cons x ws => exact ⟨by simp, handOver_inv h ht⟩

theorem step_legit (prog : Program) (s : St) (o : Op) (h : Inv s) (ha : AwaitsFinished s o) :
    Legit prog s o ∧ Inv (step prog s o) := by
  have hub : ¬ s.ub = true := by simp [h.defined]
  cases o with
  | worker t => exact worker_legit prog h t
  | advance t => exact advance_legit prog h ha
  | start t c =>
    unfold step Legit stepR
    simp only [if_neg hub]
    split_ifs with hs
    · exact ⟨by simp, create_inv h hs.2 hs.1⟩
    · exact ⟨by simp, h⟩
  | set t e policy | setOn t e policy =>
    unfold step Legit stepR
    simp only [if_neg hub]
    split_ifs with hs
    · exact ⟨by simp, exchange_inv h hs.1 policy fun _ => rfl⟩
    · exact ⟨by simp, h⟩
  | reset e =>
    unfold step Legit stepR
    simp only [if_neg hub]
    refine ⟨by simp, ?_, h.no_continuation, h.defined⟩
    rw [entries_setEvent]
    have hsame : (s.events e).waiters.map (Waiter.entry e) = entries s (.event e) := rfl
    rw [hsame, update_eq_self]
    exact h.held

/-- an awaiting coroutine is never the party its task waits for -/
theorem awaitsFinished_of_legit (prog : Program) (s : St) (o : Op) (h : Legit prog s o) : AwaitsFinished s o := by
  cases o with
  | advance t =>
    intro c fs d is hub hf hc hr
    have hres : s.status d ≠ .fresh → (∀ b, s.status d ≠ .done b) →
        (stepR prog s (.advance t)).2 = some (d, .awaiter c) := by
      intro h1 h2
      unfold stepR
      simp only [hub, hf, advanceCo, hc, hr, exec]
      cases hd : s.status d with
      | fresh => exact absurd hd h1
      | done b => exact absurd hd (h2 b)
      | _ => rfl
    by_contra hno
    rw [not_or, not_exists] at hno
    have hall := h d _ (hres hno.1 hno.2)
    cases hd : s.status d with
    | suspended w n => cases w <;> simp [hd, Allowed] at hall
    | _ => simp [hd, Allowed] at hall
  | _ => trivial

/-- **Resumes.** For every program, every initial state of the events and every run: every handle is resumed only while
it is suspended and only by the party it was registered with, if and only if every co_await of a task finds the task at
its final suspend. -/
theorem resumes_legit_iff (prog : Program) (initially : ℕ → Bool) (ops : List Op) :
    Along (step prog) (Legit prog) (init prog initially) ops ↔
      Along (step prog) AwaitsFinished (init prog initially) ops :=
  ⟨fun h => h.mono (awaitsFinished_of_legit prog), along_of_inv (step_legit prog) (init_inv prog initially)⟩

/-- the program of async_test.test_task: `foo` (0) awaits `bar` (1), `bar` goes through the pool -/
def testTask : Program
  | 0 => ⟨[.await 1], false⟩
  | _ => ⟨[.schedule], false⟩

/-- The parent resumes `bar`, which waits in the pool's queue; `bar` then finishes on the parent's thread, and the worker
that dequeues its handle resumes a finished coroutine. -/
theorem await_resumes_scheduled :
    let s := run (step testTask) (init testTask fun _ => false) [.start 0 0, .advance 0, .advance 0]
    s.status 1 = .suspended .sched 0 ∧ (stepR testTask s (.advance 0)).2 = some (1, .awaiter 0) ∧
    ¬ Legit testTask s (.advance 0) ∧
    (run (step testTask) s [.advance 0, .advance 0, .worker 1]).ub = true := by
  intro s
  have hbar : s.status 1 = .suspended .sched 0 := by decide
  refine ⟨hbar, by decide, ?_, by decide⟩
  intro h
  have hall := h 1 (.awaiter 0) (by decide)
  rw [hbar] at hall
  exact absurd hall (by simp [Allowed])

end TinyRpc.Async
