/-
The three records of what is registered (net/fd_event.cc, net/reactor.cc, net/tcp_connection.cc, net/tcp_client.cc).

That a descriptor is watched stands in fds_, in the kernel's epoll set, and as a mask in the FdEvent of its number. All
calls are made on the loop thread. `none` is the undefined behaviour of fds_.erase(fds_.end()).

Main result `records_agree_iff`: the records of every open socket agree in every state of a run if and only if a report
with neither EPOLLIN nor EPOLLOUT only comes for a descriptor that listens for nothing, only registered descriptors are
unregistered, and a number goes to a new socket only when no record of its last user is left. ~TcpClient leaves two.
-/
import Mathlib.Tactic
import TinyRpc.Core.Machine
import TinyRpc.Net.Reactor

namespace TinyRpc.Net.Registration

open TinyRpc.Core Function

inductive IOEvent
  | READ | WRITE | ETModel
deriving DecidableEq, Repr

/-- EPOLLIN, EPOLLOUT, EPOLLET -/
def IOEvent.mask : IOEvent → BitVec 32
  | READ => 1#32
  | WRITE => 4#32
  | ETModel => 0x80000000#32

structure St where
  reactor : Reactor
  /-- of the FdEvent of each descriptor number -/
  listen_events_ : ℤ → BitVec 32
  /-- the open sockets -/
  isOpen : ℤ → Bool

namespace St

/-- epoll_ctl fails on a descriptor that is not open, and addEvent then changes nothing -/
def updateToReactor (s : St) (fd : ℤ) : St :=
  if s.isOpen fd then { s with reactor := s.reactor.addEventInLoopThread fd (s.listen_events_ fd).toNat } else s

def addListenEvents (s : St) (fd : ℤ) (event : IOEvent) : St :=
  if s.listen_events_ fd &&& event.mask ≠ 0 then s
  else { s with listen_events_ := update s.listen_events_ fd (s.listen_events_ fd ||| event.mask) }.updateToReactor fd

def delListenEvents (s : St) (fd : ℤ) (event : IOEvent) : St :=
  if s.listen_events_ fd &&& event.mask ≠ 0 then
    { s with listen_events_ := update s.listen_events_ fd (s.listen_events_ fd &&& ~~~event.mask) }.updateToReactor fd
  else s

def unregisterFromReactor (s : St) (fd : ℤ) : Option St :=
  (s.reactor.call true (.delEvent fd)).map fun r =>
    { s with reactor := r, listen_events_ := update s.listen_events_ fd 0 }

/-- close(fd): the kernel forgets the descriptor, FdEvent and Reactor do not hear of it -/
def close (s : St) (fd : ℤ) : St :=
  { s with isOpen := update s.isOpen fd false, reactor := { s.reactor with epoll := update s.reactor.epoll fd none } }

/-- TcpConnection::clearClient; the descriptor of a connection that is not Closed is open -/
def clearClient (s : St) (fd : ℤ) : Option St :=
  if s.isOpen fd then (s.unregisterFromReactor fd).map fun s => s.close fd else some s

/-- TcpClient::~TcpClient -/
def destroyTcpClient (s : St) (fd_ : ℤ) : St := if 0 < fd_ then s.close fd_ else s

/-- the branch of `loop` for a report with neither EPOLLIN nor EPOLLOUT; the kernel reports what it watches -/
def report (s : St) (fd : ℤ) : Option St :=
  if s.reactor.epoll fd ≠ none then (s.reactor.delEventInLoopThread fd).map fun r => { s with reactor := r } else some s

/-- a new socket gets a number that is not in use -/
def socket (s : St) (fd : ℤ) : St :=
  if 0 ≤ fd ∧ s.isOpen fd = false then { s with isOpen := update s.isOpen fd true } else s

end St

inductive Op
  | socket (fd : ℤ)
  | addListenEvents (fd : ℤ) (event : IOEvent)
  | delListenEvents (fd : ℤ) (event : IOEvent)
  | unregisterFromReactor (fd : ℤ)
  | report (fd : ℤ)
  | clearClient (fd : ℤ)
  | destroyTcpClient (fd_ : ℤ)
deriving Repr

def Op.fd : Op → ℤ
  | socket fd | addListenEvents fd _ | delListenEvents fd _ | unregisterFromReactor fd | report fd | clearClient fd
  | destroyTcpClient fd => fd

def St.apply (s : St) : Op → Option St
  | .socket fd => some (s.socket fd)
  | .addListenEvents fd event => some (s.addListenEvents fd event)
  | .delListenEvents fd event => some (s.delListenEvents fd event)
  | .unregisterFromReactor fd => s.unregisterFromReactor fd
  | .report fd => s.report fd
  | .clearClient fd => s.clearClient fd
  | .destroyTcpClient fd_ => some (s.destroyTcpClient fd_)

/-- the wake descriptor is no socket, and nothing else has its number -/
def step (wake_fd_ : ℤ) (s : Option St) (o : Op) : Option St :=
  if o.fd = wake_fd_ then s else s.bind fun s => s.apply o

/-- a new Reactor, with its wake descriptor registered for EPOLLIN -/
def init (wake_fd_ : ℤ) : St :=
  ⟨⟨[wake_fd_], update (fun _ => none) wake_fd_ (some 1), [], []⟩, fun _ => 0, fun _ => false⟩

/-- what the kernel watches a descriptor for -/
def mask (s : St) (fd : ℤ) : ℕ := (s.reactor.epoll fd).getD 0

structure AgreeOn (s : St) (fd : ℤ) : Prop where
  watched : fd ∈ s.reactor.fds_ ↔ s.reactor.epoll fd ≠ none
  mask : mask s fd = (s.listen_events_ fd).toNat

/-- the run is defined so far, and the records of every open socket agree -/
def Agree (s : Option St) : Prop := ∃ t ∈ s, ∀ fd, t.isOpen fd = true → AgreeOn t fd

/-- no record of an earlier user of the number is left -/
def Unused (s : St) (fd : ℤ) : Prop := fd ∉ s.reactor.fds_ ∧ s.listen_events_ fd = 0

/-- the operation cannot tear the records apart -/
def St.Keeps (s : St) : Op → Prop
  | .socket fd => 0 ≤ fd → s.isOpen fd = false → Unused s fd
  | .unregisterFromReactor fd => fd ≠ -1 → fd ∈ s.reactor.fds_
  | .report fd => s.reactor.epoll fd ≠ none → s.listen_events_ fd = 0
  | .clearClient fd => s.isOpen fd = true → fd ∈ s.reactor.fds_
  | .addListenEvents _ _ | .delListenEvents _ _ | .destroyTcpClient _ => True

def Keeps (wake_fd_ : ℤ) (s : Option St) (o : Op) : Prop := o.fd ≠ wake_fd_ → ∀ t ∈ s, t.Keeps o

/-! ## One operation -/

/-- what holds of a defined state in which the records agree -/
structure Inv (wake_fd_ : ℤ) (s : St) : Prop where
  nodup : s.reactor.fds_.Nodup
  agree : ∀ fd, s.isOpen fd = true → AgreeOn s fd
  closed : ∀ fd, fd ≠ wake_fd_ → s.isOpen fd = false → s.reactor.epoll fd = none
  nonneg : ∀ fd, s.isOpen fd = true → 0 ≤ fd

/-- nothing changed but for descriptor `fd` -/
structure SameOff (fd : ℤ) (s t : St) : Prop where
  fds : ∀ i, i ≠ fd → (i ∈ t.reactor.fds_ ↔ i ∈ s.reactor.fds_)
  epoll : ∀ i, i ≠ fd → t.reactor.epoll i = s.reactor.epoll i
  listen : ∀ i, i ≠ fd → t.listen_events_ i = s.listen_events_ i
  isOpen : ∀ i, i ≠ fd → t.isOpen i = s.isOpen i

variable {wake_fd_ fd : ℤ} {s t : St}

theorem SameOff.agreeOn (h : SameOff fd s t) {i : ℤ} (hi : i ≠ fd) (ha : AgreeOn s i) : AgreeOn t i := by
  refine ⟨?_, ?_⟩
  · rw [h.fds i hi, h.epoll i hi]
    exact ha.watched
  · rw [mask, h.epoll i hi, h.listen i hi]
    exact ha.mask

/-- the invariant after an operation on `fd` needs to be seen for `fd` only -/
theorem Inv.frame (h : Inv wake_fd_ s) (fd : ℤ) (hsame : SameOff fd s t) (hnodup : t.reactor.fds_.Nodup)
    (hopen : t.isOpen fd = true → AgreeOn t fd ∧ 0 ≤ fd) (hclosed : t.isOpen fd = false → t.reactor.epoll fd = none) :
    Inv wake_fd_ t := by
  refine ⟨hnodup, ?_, ?_, ?_⟩
  · intro i hi
    by_cases he : i = fd
    · subst he
      exact (hopen hi).1
    · exact hsame.agreeOn he (h.agree i (hsame.isOpen i he ▸ hi))
  · intro i hw hi
    by_cases he : i = fd
    · subst he
      exact hclosed hi
    · rw [hsame.epoll i he]
      exact h.closed i hw (hsame.isOpen i he ▸ hi)
  · intro i hi
    by_cases he : i = fd
    · subst he
      exact (hopen hi).2
    · exact h.nonneg i (hsame.isOpen i he ▸ hi)

/-- a new mask reaches the kernel when the descriptor is open -/
theorem Inv.setListen (h : Inv wake_fd_ s) (hw : fd ≠ wake_fd_) (m : BitVec 32) :
    Inv wake_fd_ ({ s with listen_events_ := update s.listen_events_ fd m }.updateToReactor fd) := by
  cases ho : s.isOpen fd with
  | false =>
    simp only [St.updateToReactor, ho, Bool.false_eq_true, if_false]
    refine h.frame fd ⟨fun _ _ => Iff.rfl, fun _ _ => rfl, ?_, fun _ _ => rfl⟩ h.nodup ?_ ?_
    · intro i hi
      exact update_of_ne hi _ _
    · intro ho'
      exact Bool.noConfusion (ho.symm.trans ho')
    · exact h.closed fd hw
  | true =>
    have heq := Reactor.addEventInLoopThread_eq (h.agree fd ho).watched m.toNat
    simp only [St.updateToReactor, ho, if_true, update_self, heq]
    refine h.frame fd ⟨?_, ?_, ?_, fun _ _ => rfl⟩ ?_ ?_ ?_
    · intro i hi
      by_cases hfd : fd ∈ s.reactor.fds_ <;> simp [hfd, hi]
    · intro i hi
      exact update_of_ne hi _ _
    · intro i hi
      exact update_of_ne hi _ _
    · by_cases hfd : fd ∈ s.reactor.fds_
      · simpa [hfd] using h.nodup
      · simpa [hfd] using h.nodup.append (List.nodup_singleton fd) (by simpa using hfd)
    · intro _
      refine ⟨⟨?_, ?_⟩, h.nonneg fd ho⟩
      · by_cases hfd : fd ∈ s.reactor.fds_ <;> simp [hfd]
      · simp [mask]
    · intro ho'
      exact Bool.noConfusion (ho.symm.trans ho')

/-- a registered descriptor is taken out of fds_ and out of the kernel's set -/
theorem unregister_eq (h : fd ∈ s.reactor.fds_) : s.reactor.delEventInLoopThread fd =
    some { s.reactor with epoll := update s.reactor.epoll fd none, fds_ := s.reactor.fds_.erase fd } := by
  rw [Reactor.delEventInLoopThread_eq, if_pos h]

/-- what is out of fds_ and out of the kernel's set listens for nothing -/
theorem Inv.erase (h : Inv wake_fd_ s) {listen : ℤ → BitVec 32} {isOpen : ℤ → Bool}
    (hl : ∀ i, i ≠ fd → listen i = s.listen_events_ i) (ho : ∀ i, i ≠ fd → isOpen i = s.isOpen i)
    (hfd : isOpen fd = true → listen fd = 0 ∧ 0 ≤ fd) :
    Inv wake_fd_ ⟨{ s.reactor with epoll := update s.reactor.epoll fd none, fds_ := s.reactor.fds_.erase fd }, listen,
      isOpen⟩ := by
  refine h.frame fd ⟨?_, ?_, hl, ho⟩ (h.nodup.erase fd) ?_ ?_
  · intro i hi
    exact List.mem_erase_of_ne hi
  · intro i hi
    exact update_of_ne hi _ _
  · intro hopen
    obtain ⟨hzero, hpos⟩ := hfd hopen
    refine ⟨⟨?_, ?_⟩, hpos⟩
    · simp [h.nodup.not_mem_erase]
    · simp [mask, hzero]
  · intro _
    exact update_self _ _ _

theorem Inv.close (h : Inv wake_fd_ s) (fd : ℤ) : Inv wake_fd_ (s.close fd) := by
  refine h.frame fd ⟨fun _ _ => Iff.rfl, ?_, fun _ _ => rfl, ?_⟩ h.nodup ?_ ?_
  · intro i hi
    exact update_of_ne hi _ _
  · intro i hi
    exact update_of_ne hi _ _
  · intro hopen
    simp [St.close] at hopen
  · intro _
    exact update_self _ _ _

/-- the operation goes through and keeps the invariant -/
def Succeeds (wake_fd_ : ℤ) (s : St) (o : Op) : Prop := ∃ t, s.apply o = some t ∧ Inv wake_fd_ t

theorem Inv.socket (h : Inv wake_fd_ s) (hw : fd ≠ wake_fd_) :
    (Agree (s.apply (.socket fd)) → s.Keeps (.socket fd)) ∧
      (s.Keeps (.socket fd) → Succeeds wake_fd_ s (.socket fd)) := by
  by_cases hnew : 0 ≤ fd ∧ s.isOpen fd = false
  · have hnone := h.closed fd hw hnew.2
    have happ : s.apply (.socket fd) = some { s with isOpen := update s.isOpen fd true } := by
      simp only [St.apply, St.socket, if_pos hnew]
    rw [Succeeds, happ]
    refine ⟨?_, ?_⟩
    · intro hagree _ _
      obtain ⟨t, ht, hall⟩ := hagree
      cases Option.mem_some.1 ht
      have hfd := hall fd (update_self _ _ _)
      refine ⟨?_, ?_⟩
      · intro hmem
        exact hfd.watched.1 hmem hnone
      · have hzero : (s.listen_events_ fd).toNat = 0 := by
          rw [← hfd.mask]
          simp [mask, hnone]
        exact BitVec.eq_of_toNat_eq hzero
    · intro hkeeps
      obtain ⟨hfds, hlisten⟩ := hkeeps hnew.1 hnew.2
      refine ⟨_, rfl, h.frame fd ⟨fun _ _ => Iff.rfl, fun _ _ => rfl, fun _ _ => rfl, ?_⟩ h.nodup ?_ ?_⟩
      · intro i hi
        exact update_of_ne hi _ _
      · intro _
        refine ⟨⟨?_, ?_⟩, hnew.1⟩
        · simp [hfds, hnone]
        · simp [mask, hnone, hlisten]
      · intro _
        exact hnone
  · have happ : s.apply (.socket fd) = some s := by simp only [St.apply, St.socket, if_neg hnew]
    refine ⟨?_, ?_⟩
    · intro _ hpos hclosed
      exact absurd ⟨hpos, hclosed⟩ hnew
    · intro _
      exact ⟨s, happ, h⟩

theorem unregister_undefined (hneg : fd ≠ -1) (hfd : fd ∉ s.reactor.fds_) : s.apply (.unregisterFromReactor fd) = none := by
  simp [St.apply, St.unregisterFromReactor, Reactor.call, hneg, Reactor.delEventInLoopThread_eq, hfd]

theorem not_agree_none : ¬ Agree none := by
  intro h
  obtain ⟨t, ht, -⟩ := h
  exact absurd ht (Option.not_mem_none t)

theorem Inv.unregister (h : Inv wake_fd_ s) :
    (Agree (s.apply (.unregisterFromReactor fd)) → s.Keeps (.unregisterFromReactor fd)) ∧
      (s.Keeps (.unregisterFromReactor fd) → Succeeds wake_fd_ s (.unregisterFromReactor fd)) := by
  by_cases hneg : fd = -1
  · refine ⟨fun _ hne => absurd hneg hne, ?_⟩
    intro _
    refine ⟨{ s with listen_events_ := update s.listen_events_ fd 0 }, ?_, ?_⟩
    · simp [St.apply, St.unregisterFromReactor, Reactor.call, hneg]
    · have hshut : s.isOpen fd ≠ true := by
        intro hopen
        have := h.nonneg fd hopen
        omega
      refine ⟨h.nodup, ?_, h.closed, h.nonneg⟩
      intro i hi
      have hne : i ≠ fd := by
        intro he
        exact hshut (he ▸ hi)
      have hsame : SameOff fd s { s with listen_events_ := update s.listen_events_ fd 0 } :=
        ⟨fun _ _ => Iff.rfl, fun _ _ => rfl, fun j hj => update_of_ne hj _ _, fun _ _ => rfl⟩
      exact hsame.agreeOn hne (h.agree i hi)
  · refine ⟨?_, ?_⟩
    · intro hagree _
      by_contra hfd
      exact not_agree_none (unregister_undefined hneg hfd ▸ hagree)
    · intro hkeeps
      have happ : s.apply (.unregisterFromReactor fd) = (s.reactor.delEventInLoopThread fd).map fun r =>
          { s with reactor := r, listen_events_ := update s.listen_events_ fd 0 } := by
        simp [St.apply, St.unregisterFromReactor, Reactor.call, hneg]
      rw [Succeeds, happ, unregister_eq (hkeeps hneg)]
      refine ⟨_, rfl, h.erase ?_ (fun _ _ => rfl) ?_⟩
      · intro i hi
        exact update_of_ne hi _ _
      · intro hopen
        exact ⟨update_self _ _ _, h.nonneg fd hopen⟩

theorem Inv.clearClient (h : Inv wake_fd_ s) :
    (Agree (s.apply (.clearClient fd)) → s.Keeps (.clearClient fd)) ∧
      (s.Keeps (.clearClient fd) → Succeeds wake_fd_ s (.clearClient fd)) := by
  cases ho : s.isOpen fd with
  | false =>
    have happ : s.apply (.clearClient fd) = some s := by simp [St.apply, St.clearClient, ho]
    exact ⟨fun _ hopen => Bool.noConfusion (ho.symm.trans hopen), fun _ => ⟨s, happ, h⟩⟩
  | true =>
    have hneg : fd ≠ -1 := by
      have := h.nonneg fd ho
      omega
    have happ : s.apply (.clearClient fd) = (s.apply (.unregisterFromReactor fd)).map fun s => s.close fd := by
      simp [St.apply, St.clearClient, ho]
    refine ⟨?_, ?_⟩
    · intro hagree _
      by_contra hfd
      rw [happ, unregister_undefined hneg hfd] at hagree
      exact not_agree_none hagree
    · intro hkeeps
      obtain ⟨t, ht, hinv⟩ := h.unregister.2 fun _ => hkeeps ho
      exact ⟨t.close fd, by rw [happ, ht]; rfl, hinv.close fd⟩

theorem Inv.report (h : Inv wake_fd_ s) (hw : fd ≠ wake_fd_) :
    (Agree (s.apply (.report fd)) → s.Keeps (.report fd)) ∧
      (s.Keeps (.report fd) → Succeeds wake_fd_ s (.report fd)) := by
  by_cases hwatched : s.reactor.epoll fd ≠ none
  · -- what the kernel watches is open, so it stands in fds_
    have hopen : s.isOpen fd = true := by
      by_contra hshut
      exact hwatched (h.closed fd hw (by simpa using hshut))
    have happ : s.apply (.report fd) = some { s with
        reactor := { s.reactor with epoll := update s.reactor.epoll fd none, fds_ := s.reactor.fds_.erase fd } } := by
      simp [St.apply, St.report, hwatched, unregister_eq ((h.agree fd hopen).watched.2 hwatched)]
    rw [Succeeds, happ]
    refine ⟨?_, ?_⟩
    · intro hagree _
      obtain ⟨t, ht, hall⟩ := hagree
      cases Option.mem_some.1 ht
      have hzero : (s.listen_events_ fd).toNat = 0 := by
        rw [← (hall fd hopen).mask]
        simp [mask]
      exact BitVec.eq_of_toNat_eq hzero
    · intro hkeeps
      exact ⟨_, rfl, h.erase (fun _ _ => rfl) (fun _ _ => rfl) fun _ => ⟨hkeeps hwatched, h.nonneg fd hopen⟩⟩
  · have happ : s.apply (.report fd) = some s := by
      simp only [St.apply, St.report, if_neg hwatched]
    exact ⟨fun _ hne => absurd hne hwatched, fun _ => ⟨s, happ, h⟩⟩

theorem apply_keeps_iff (h : Inv wake_fd_ s) {o : Op} (hw : o.fd ≠ wake_fd_) :
    (Agree (s.apply o) → s.Keeps o) ∧ (s.Keeps o → Succeeds wake_fd_ s o) := by
  cases o with
  | socket fd => exact h.socket hw
  | addListenEvents fd event =>
    refine ⟨fun _ => trivial, fun _ => ⟨_, rfl, ?_⟩⟩
    unfold St.addListenEvents
    split_ifs
    · exact h
    · exact h.setListen hw _
  | delListenEvents fd event =>
    refine ⟨fun _ => trivial, fun _ => ⟨_, rfl, ?_⟩⟩
    unfold St.delListenEvents
    split_ifs
    · exact h.setListen hw _
    · exact h
  | unregisterFromReactor fd => exact h.unregister
  | report fd => exact h.report hw
  | clearClient fd => exact h.clearClient
  | destroyTcpClient fd_ =>
    refine ⟨fun _ => trivial, fun _ => ⟨_, rfl, ?_⟩⟩
    unfold St.destroyTcpClient
    split_ifs
    · exact h.close fd_
    · exact h

/-! ## Whole runs -/

/-- the run is defined so far, with the invariant -/
def Defined (wake_fd_ : ℤ) (s : Option St) : Prop := ∃ t, s = some t ∧ Inv wake_fd_ t

theorem Defined.agree {s : Option St} (h : Defined wake_fd_ s) : Agree s := by
  obtain ⟨t, ht, hinv⟩ := h
  exact ⟨t, Option.mem_def.2 ht, hinv.agree⟩

theorem step_agree_iff {s : Option St} (h : Defined wake_fd_ s) (o : Op) :
    (Agree (step wake_fd_ s o) ↔ Keeps wake_fd_ s o) ∧
      (Keeps wake_fd_ s o → Defined wake_fd_ (step wake_fd_ s o)) := by
  by_cases hw : o.fd = wake_fd_
  · rw [step, if_pos hw]
    exact ⟨⟨fun _ hne => absurd hw hne, fun _ => h.agree⟩, fun _ => h⟩
  · obtain ⟨t, rfl, hinv⟩ := h
    obtain ⟨hneeds, hgives⟩ := apply_keeps_iff hinv hw
    have hstep : step wake_fd_ (some t) o = t.apply o := by rw [step, if_neg hw, Option.bind_some]
    have hdef : Keeps wake_fd_ (some t) o → Defined wake_fd_ (step wake_fd_ (some t) o) := by
      intro hkeeps
      rw [hstep]
      exact hgives (hkeeps hw t rfl)
    refine ⟨⟨?_, fun hkeeps => (hdef hkeeps).agree⟩, hdef⟩
    intro hagree _ u hu
    cases Option.mem_some.1 hu
    exact hneeds (hstep ▸ hagree)

theorem init_inv (wake_fd_ : ℤ) : Inv wake_fd_ (init wake_fd_) := by
  refine ⟨List.nodup_singleton _, ?_, ?_, ?_⟩
  · intro fd hfd
    exact Bool.noConfusion hfd
  · intro fd hw _
    simp [init, hw]
  · intro fd hfd
    exact Bool.noConfusion hfd

/-- **The records of registration.** For every run of operations on any descriptors: in every state, every open socket
is in fds_ exactly when the kernel watches it, with the mask its FdEvent has, if and only if a report with neither
EPOLLIN nor EPOLLOUT comes only for a descriptor whose FdEvent listens for nothing, unregisterFromReactor and
clearClient are called only for a descriptor in fds_, and a new socket gets only a number that is not in fds_ and whose
FdEvent listens for nothing. -/
theorem records_agree_iff (wake_fd_ : ℤ) (ops : List Op) :
    Always (step wake_fd_) Agree (some (init wake_fd_)) ops ↔
      Along (step wake_fd_) (Keeps wake_fd_) (some (init wake_fd_)) ops := by
  have hinit : Defined wake_fd_ (some (init wake_fd_)) := ⟨_, rfl, init_inv wake_fd_⟩
  have hstep : ∀ s o, Defined wake_fd_ s → True →
      (Agree (step wake_fd_ s o) ↔ Keeps wake_fd_ s o) ∧
        (Keeps wake_fd_ s o → Defined wake_fd_ (step wake_fd_ s o)) :=
    fun s o hs _ => step_agree_iff hs o
  exact always_iff_of_inv hstep hinit hinit.agree (along_of_mem fun _ _ _ => trivial)

/-- a client registers descriptor 5 and is destroyed; a new socket gets the number and listens for READ -/
def reusedNumber : List Op :=
  [.socket 5, .addListenEvents 5 .READ, .destroyTcpClient 5, .socket 5, .addListenEvents 5 .READ]

/-- a descriptor that listens for READ is reported with neither bit -/
def reportedError : List Op := [.socket 5, .addListenEvents 5 .READ, .report 5]

/-- after the run, the three records of `fd`: is it in fds_, what the kernel has, what its FdEvent has -/
def records (ops : List Op) (fd : ℤ) : Option (Bool × Option ℕ × BitVec 32) :=
  (run (step 3) (some (init 3)) ops).map fun s => (decide (fd ∈ s.reactor.fds_), s.reactor.epoll fd, s.listen_events_ fd)

theorem not_agree_of_records {ops : List Op} {b : Bool} {k : Option ℕ} {m : BitVec 32} (hm : k.getD 0 ≠ m.toNat)
    (h : records ops 5 = some (b, k, m)) (hopen : ((run (step 3) (some (init 3)) ops).map fun s => s.isOpen 5) = some true) :
    ¬ Agree (run (step 3) (some (init 3)) ops) := by
  intro hagree
  obtain ⟨t, ht, hall⟩ := hagree
  rw [Option.mem_def] at ht
  rw [records, ht, Option.map_some, Option.some.injEq, Prod.mk.injEq, Prod.mk.injEq] at h
  rw [ht] at hopen
  obtain ⟨-, hk, hl⟩ := h
  have hmask := (hall 5 (by simpa using hopen)).mask
  rw [mask, hk, hl] at hmask
  exact hm hmask

/-- The new socket is in fds_ and has READ in its FdEvent, but the kernel does not watch it; and after the report the
kernel has forgotten a descriptor whose FdEvent listens for READ. -/
theorem records_disagree :
    records reusedNumber 5 = some (true, none, 1#32) ∧
    ¬ Always (step 3) Agree (some (init 3)) reusedNumber ∧
    records reportedError 5 = some (false, none, 1#32) ∧
    ¬ Always (step 3) Agree (some (init 3)) reportedError := by
  have hreused : records reusedNumber 5 = some (true, none, 1#32) := by decide
  have hreported : records reportedError 5 = some (false, none, 1#32) := by decide
  refine ⟨hreused, ?_, hreported, ?_⟩
  · intro h
    exact not_agree_of_records (by decide) hreused (by decide) h.last
  · intro h
    exact not_agree_of_records (by decide) hreported (by decide) h.last

end TinyRpc.Net.Registration
