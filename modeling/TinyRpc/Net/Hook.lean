/-
Coroutines suspended in the hooks of net/coroutine_hook.cc, on one reactor (net/reactor.cc, net/timer.cc).

The loop alternates between executing the tasks in pending_tasks_ and collecting what epoll reports. A report on a
descriptor copies its callbacks into the queue; a callback resumes the coroutine that set it, wherever that coroutine is
by then. Every call of getTimer makes a Timer of its own (init_timer_ is never set), with the hook's one event in it. A
queued callback is kept with the reason it was queued for and with a stamp: a suspension with a smaller number was there
when it was queued. A report with neither EPOLLIN nor EPOLLOUT queues nothing and is left out, and so are the tasks that
addTask of another thread can lose (ReactorTasks): leaving them out takes no resume away.
-/
import Mathlib.Tactic
import TinyRpc.Net.Timer

namespace TinyRpc.Net.Hook

open Function

/-! ## State -/

/-- the hook a coroutine is suspended in -/
inductive Wait
  | read (fd : ℕ)
  | accept (fd : ℕ)
  | write (fd : ℕ)
  /-- with the number of its timer -/
  | connect (fd timer : ℕ)
  /-- called at `since` -/
  | sleep (seconds : ℕ) (since : ℤ) (timer : ℕ)
deriving DecidableEq, Repr

inductive Status
  | fresh
  | active
  /-- suspended; suspensions are numbered -/
  | parked (w : Wait) (n : ℕ)
  | finished
deriving DecidableEq, Repr

structure FdEvent where
  read_cb_ : Option ℕ
  write_cb_ : Option ℕ
  /-- the READ bit of listen_events_ -/
  listenRead : Bool
  /-- the WRITE bit of listen_events_ -/
  listenWrite : Bool
deriving DecidableEq, Repr

/-- why a callback was queued -/
inductive Why
  | start
  | read (fd : ℕ)
  | write (fd : ℕ)
  | timeout (timer : ℕ)
deriving DecidableEq, Repr

inductive Task
  /-- Coroutine::Resume of `c` -/
  | resume (c : ℕ) (why : Why) (stamp : ℕ)
  /-- the callback of a timer's descriptor -/
  | onTimer (timer : ℕ)
deriving DecidableEq, Repr

def Task.co : Task → Option ℕ
  | resume c _ _ => some c
  | onTimer _ => none

inductive Phase
  | tasks | poll
deriving DecidableEq, Repr

structure St where
  status : ℕ → Status
  /-- the coroutine that runs, none for the main one -/
  cur : Option ℕ
  fdEvents : ℕ → FdEvent
  /-- the task of an event is the coroutine it resumes -/
  timers : List (Timer ℕ)
  queue : List Task
  phase : Phase
  /-- the number of suspensions so far -/
  parks : ℕ
  now : ℤ
  g_max_timeout : ℤ

def init : St := ⟨fun _ => .fresh, none, fun _ => ⟨none, none, false, false⟩, [], [], .tasks, 0, 0, 75000⟩

/-- the coroutines with a callback in the queue -/
def queued (s : St) : List ℕ := s.queue.filterMap Task.co

inductive Call
  /-- `ready`: the system call succeeds at once -/
  | read (fd : ℕ) (ready : Bool)
  | accept (fd : ℕ) (ready : Bool)
  | write (fd : ℕ) (ready : Bool)
  /-- `inProgress`: the system call returned EINPROGRESS -/
  | connect (fd : ℕ) (inProgress : Bool)
  | sleep (seconds : ℕ)
deriving DecidableEq, Repr

inductive Op
  /-- setCallBack and addCoroutine -/
  | start (c : ℕ)
  /-- the running coroutine calls a hook -/
  | call (h : Call)
  /-- the running coroutine's callback returns -/
  | finish
  /-- unregisterFromReactor of a descriptor -/
  | unregister (fd : ℕ)
  /-- delListenEvents(WRITE) of a descriptor, as `output` does -/
  | delListenWrite (fd : ℕ)
  | setMaxTimeOut (seconds : ℤ)
  /-- the loop executes the next task -/
  | exec
  /-- the queue is empty: the loop goes to epoll_wait -/
  | poll
  /-- epoll reports a descriptor -/
  | report (fd : ℕ) (epollin epollout : Bool)
  /-- epoll reports a timer's descriptor -/
  | expire (timer : ℕ)
  /-- all reports are collected -/
  | collected
  | tick (ms : ℕ)
deriving DecidableEq, Repr

/-! ## Hooks -/

def setFd (s : St) (fd : ℕ) (v : FdEvent) : St := { s with fdEvents := update s.fdEvents fd v }

/-- toEpoll(READ) by coroutine `c` -/
def toEpollRead (s : St) (fd c : ℕ) : St := setFd s fd { s.fdEvents fd with read_cb_ := some c, listenRead := true }

/-- toEpoll(WRITE) by coroutine `c` -/
def toEpollWrite (s : St) (fd c : ℕ) : St := setFd s fd { s.fdEvents fd with write_cb_ := some c, listenWrite := true }

/-- Yield of coroutine `c` in a hook -/
def park (s : St) (c : ℕ) (w : Wait) : St :=
  { s with status := update s.status c (.parked w s.parks), parks := s.parks + 1, cur := none }

/-- a new Timer with one event, filed at `now`, that resumes `c` -/
def alarm (now interval : ℤ) (c : ℕ) : Timer ℕ :=
  (Timer.mk Pending.empty (fun _ => TimerEvent.make now interval false c) none).addTimerEvent 0 true now

/-- a hook called by coroutine `c`, up to its return or its Yield -/
def callHook (s : St) (c : ℕ) : Call → St
  | .read fd ready => if ready then toEpollRead s fd c else park (toEpollRead s fd c) c (.read fd)
  | .accept fd ready => if ready then s else park (toEpollRead s fd c) c (.accept fd)
  | .write fd ready => if ready then toEpollWrite s fd c else park (toEpollWrite s fd c) c (.write fd)
  | .connect fd inProgress =>
    if inProgress then
      park { toEpollWrite s fd c with timers := s.timers ++ [alarm s.now s.g_max_timeout c] } c (.connect fd s.timers.length)
    else s
  | .sleep seconds =>
    -- 1000 * seconds is computed in unsigned int
    park { s with timers := s.timers ++ [alarm s.now ((1000 * seconds % 2 ^ 32 : ℕ) : ℤ) c] } c
      (.sleep seconds s.now s.timers.length)

/-- what a hook does between its Yield and its next system call -/
def afterYield (s : St) : Wait → St
  | .connect fd timer =>
    { setFd s fd { s.fdEvents fd with listenWrite := false } with
      timers := s.timers.modify timer fun t => t.delTimerEvent 0 }
  | _ => s

/-! ## Steps -/

/-- Coroutine::Resume of `c` from the main coroutine; a finished coroutine is not in a hook -/
def resume (s : St) (c : ℕ) : St :=
  match s.status c with
  | .fresh => { s with status := update s.status c .active, cur := some c }
  | .parked w _ => afterYield { s with status := update s.status c .active, cur := some c } w
  | _ => s

/-- the read callback, when READ is reported -/
def readTask (s : St) (fd : ℕ) (epollin : Bool) : List Task :=
  if epollin && (s.fdEvents fd).listenRead then
    (s.fdEvents fd).read_cb_.toList.map fun c => .resume c (.read fd) s.parks
  else []

/-- the write callback, when WRITE is reported -/
def writeTask (s : St) (fd : ℕ) (epollout : Bool) : List Task :=
  if epollout && (s.fdEvents fd).listenWrite then
    (s.fdEvents fd).write_cb_.toList.map fun c => .resume c (.write fd) s.parks
  else []

/-- Timer::onTimer of one timer: the tasks it hands over, and the timer afterwards -/
def fire (s : St) (timer : ℕ) : St :=
  match s.timers[timer]? with
  | none => s
  | some t =>
    let (t', tasks) := t.onTimer s.now fun _ => s.now
    { s with timers := s.timers.set timer t', queue := s.queue ++ tasks.map fun c => .resume c (.timeout timer) s.parks }

/-- the task at the head of the queue is executed -/
def execTask (s : St) : Task → St
  | .resume c _ _ => resume s c
  | .onTimer timer => fire s timer

/-- Coroutine::setCallBack; it is refused between the start and the end of the coroutine's callback -/
def setCallBack : Status → Status
  | .finished => .fresh
  | st => st

/-- an operation that is not possible changes nothing -/
def step (s : St) : Op → St
  | .start c =>
    { s with status := update s.status c (setCallBack (s.status c)), queue := s.queue ++ [.resume c .start s.parks] }
  | .call h =>
    match s.cur with
    | some c => callHook s c h
    | none => s
  | .finish =>
    match s.cur with
    | some c => { s with status := update s.status c .finished, cur := none }
    | none => s
  | .unregister fd => setFd s fd ⟨none, none, false, false⟩
  | .delListenWrite fd => setFd s fd { s.fdEvents fd with listenWrite := false }
  | .setMaxTimeOut v => { s with g_max_timeout := v * 1000 }
  | .exec =>
    match s.cur, s.phase, s.queue with
    | none, .tasks, x :: q => execTask { s with queue := q } x
    | _, _, _ => s
  | .poll => if s.cur = none ∧ s.queue = [] then { s with phase := .poll } else s
  | .report fd epollin epollout =>
    if s.phase = .poll then { s with queue := s.queue ++ readTask s fd epollin ++ writeTask s fd epollout } else s
  | .expire timer => if s.phase = .poll then { s with queue := s.queue ++ [.onTimer timer] } else s
  | .collected => { s with phase := .tasks }
  | .tick ms => { s with now := s.now + ms }

end TinyRpc.Net.Hook
