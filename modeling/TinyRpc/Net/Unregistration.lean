/-
Unregistering on the loop thread (net/reactor.cc: delEventInLoopThread and the error branch of loop; net/fd_event.cc:
unregisterFromReactor; net/tcp_connection.cc: clearClient).

The machine is that of `Registration`, with addEvent and delEvent called for any descriptor whatsoever. delEventInLoopThread
looks its descriptor up in fds_, logs that it is not there, and erases the iterator all the same: `none` is the undefined
behaviour of fds_.erase(fds_.end()).

Main result `unregister_safe_iff`: along a run no removal erases end(), a removal of a descriptor that is not registered
changes nothing and fds_ holds no descriptor twice, if and only if every descriptor that is removed is in fds_. The loop
itself meets this: the kernel reports only what it watches, and what it watches is in fds_ (`Watched`). A connection whose
descriptor the loop has removed does not. `mem_fds_iff` says by which of the earlier calls a descriptor is in fds_: it was
added, and not removed since.
-/
import Mathlib.Tactic
import TinyRpc.Core.Machine
import TinyRpc.Net.Registration

namespace TinyRpc.Net.Unregistration

open TinyRpc.Core Function Registration

/-! ## Model -/

inductive Op
  /-- an operation of an FdEvent, a connection, a client or the kernel -/
  | event (o : Registration.Op)
  | addEvent (fd : ℤ) (events : ℕ)
  | delEvent (fd : ℤ)
deriving Repr

/-- Reactor::addEvent; epoll_ctl fails on a descriptor that is not open -/
def addEvent (wake_fd_ : ℤ) (s : St) (fd : ℤ) (events : ℕ) : St :=
  if fd = -1 then s
  else if s.isOpen fd ∨ fd = wake_fd_ then { s with reactor := s.reactor.addEventInLoopThread fd events }
  else s

/-- Reactor::delEvent -/
def delEvent (s : St) (fd : ℤ) : Option St := (s.reactor.call true (.delEvent fd)).map fun r => { s with reactor := r }

def apply (wake_fd_ : ℤ) (s : St) : Op → Option St
  | .event o => Registration.step wake_fd_ (some s) o
  | .addEvent fd events => some (addEvent wake_fd_ s fd events)
  | .delEvent fd => delEvent s fd

def step (wake_fd_ : ℤ) (s : Option St) (o : Op) : Option St := s.bind fun s => apply wake_fd_ s o

/-- the descriptor an operation removes -/
def Op.removes : Op → Option ℤ
  | .delEvent fd => some fd
  | .event (.unregisterFromReactor fd) | .event (.report fd) | .event (.clearClient fd) => some fd
  | .event _ | .addEvent _ _ => none

/-- what unregistering owes its callers -/
structure Safe (wake_fd_ : ℤ) (s : Option St) (o : Op) : Prop where
  /-- the iterator that was erased was not end() -/
  defined : step wake_fd_ s o ≠ none
  unchanged : ∀ t ∈ s, ∀ u ∈ step wake_fd_ s o, ∀ fd ∈ o.removes, fd ∉ t.reactor.fds_ → u.reactor.fds_ = t.reactor.fds_
  nodup : ∀ u ∈ step wake_fd_ s o, u.reactor.fds_.Nodup

/-- the descriptor is in fds_ when it is removed by delEvent, unregisterFromReactor or the clearClient of a connection
that is not closed; delEvent ignores -1 -/
def Registered (wake_fd_ : ℤ) (s : St) : Op → Prop
  | .delEvent fd => fd = -1 ∨ fd ∈ s.reactor.fds_
  | .event (.unregisterFromReactor fd) => fd = wake_fd_ ∨ fd = -1 ∨ fd ∈ s.reactor.fds_
  | .event (.clearClient fd) => fd = wake_fd_ ∨ s.isOpen fd = false ∨ fd ∈ s.reactor.fds_
  | .event _ | .addEvent _ _ => True

/-! ## What the kernel watches is in fds_ -/

structure Watched (r : Reactor) : Prop where
  nodup : r.fds_.Nodup
  watched : ∀ fd, r.epoll fd ≠ none → fd ∈ r.fds_

theorem Watched.add {r : Reactor} (h : Watched r) (fd : ℤ) (events : ℕ) : Watched (r.addEventInLoopThread fd events) := by
  cases hm : r.epoll fd with
  | none =>
    by_cases hfd : fd ∈ r.fds_
    · -- the number is left from a socket that was closed: MOD fails
      have hsame : r.addEventInLoopThread fd events = r := by
        simp [Reactor.addEventInLoopThread, epollCtl, hfd, hm]
      rw [hsame]
      exact h
    · have hnew : fd ∈ r.fds_ ↔ r.epoll fd ≠ none := by simp [hfd, hm]
      rw [Reactor.addEventInLoopThread_eq hnew, if_neg hfd]
      refine ⟨h.nodup.append (List.nodup_singleton fd) (by simpa using hfd), ?_⟩
      intro i hi
      by_cases he : i = fd
      · simp [he]
      · exact List.mem_append_left _ (h.watched i (by simpa [he] using hi))
  | some m =>
    have hfd : fd ∈ r.fds_ := h.watched fd (by simp [hm])
    have hold : fd ∈ r.fds_ ↔ r.epoll fd ≠ none := by simp [hfd, hm]
    rw [Reactor.addEventInLoopThread_eq hold, if_pos hfd]
    refine ⟨h.nodup, ?_⟩
    intro i hi
    by_cases he : i = fd
    · rw [he]
      exact hfd
    · exact h.watched i (by simpa [he] using hi)

/-- the kernel forgets a descriptor -/
theorem Watched.forget {r : Reactor} (h : Watched r) (fd : ℤ) : Watched { r with epoll := update r.epoll fd none } := by
  refine ⟨h.nodup, ?_⟩
  intro i hi
  by_cases he : i = fd
  · simp [he] at hi
  · exact h.watched i (by simpa [he] using hi)

theorem Watched.erase {r : Reactor} (h : Watched r) (fd : ℤ) :
    Watched { r with epoll := update r.epoll fd none, fds_ := r.fds_.erase fd } := by
  refine ⟨h.nodup.erase fd, ?_⟩
  intro i hi
  by_cases he : i = fd
  · simp [he] at hi
  · exact (List.mem_erase_of_ne he).2 (h.watched i (by simpa [he] using hi))

/-! ## One operation -/

structure Inv (s : St) : Prop where
  reactor : Watched s.reactor
  nonneg : ∀ fd, s.isOpen fd = true → 0 ≤ fd

variable {wake_fd_ fd : ℤ} {s : St}

/-- the operation goes through, and leaves fds_ as it was where it removes a descriptor that is not there -/
def GoesThrough (s : St) (removed : Option ℤ) (r : Option St) : Prop :=
  ∃ u, r = some u ∧ Inv u ∧ ∀ fd ∈ removed, fd ∉ s.reactor.fds_ → u.reactor.fds_ = s.reactor.fds_

theorem Inv.same (h : Inv s) (removed : Option ℤ) : GoesThrough s removed (some s) :=
  ⟨s, rfl, h, fun _ _ _ => rfl⟩

theorem Inv.keeps {u : St} (h : Inv u) : GoesThrough s none (some u) :=
  ⟨u, rfl, h, fun _ hfd => absurd hfd (Option.not_mem_none _)⟩

/-- Reactor::delEvent of a descriptor in fds_, or of -1 -/
theorem delEvent_call (h : Watched s.reactor) (hfd : fd = -1 ∨ fd ∈ s.reactor.fds_) :
    ∃ r, s.reactor.call true (.delEvent fd) = some r ∧ Watched r ∧ (fd ∉ s.reactor.fds_ → r.fds_ = s.reactor.fds_) := by
  by_cases hneg : fd = -1
  · exact ⟨s.reactor, by simp [Reactor.call, hneg], h, fun _ => rfl⟩
  · have hmem := hfd.resolve_left hneg
    refine ⟨_, ?_, h.erase fd, fun hnot => absurd hmem hnot⟩
    simp only [Reactor.call, if_neg hneg, if_true]
    rw [Reactor.delEventInLoopThread_eq, if_pos hmem]

theorem delEvent_undefined (hneg : fd ≠ -1) (hfd : fd ∉ s.reactor.fds_) : s.reactor.call true (.delEvent fd) = none := by
  simp [Reactor.call, hneg, Reactor.delEventInLoopThread_eq, hfd]

theorem Inv.delEvent (h : Inv s) (hfd : fd = -1 ∨ fd ∈ s.reactor.fds_) : GoesThrough s (some fd) (delEvent s fd) := by
  obtain ⟨r, hr, hw, hsame⟩ := delEvent_call h.reactor hfd
  refine ⟨{ s with reactor := r }, by rw [Unregistration.delEvent, hr]; rfl, ⟨hw, h.nonneg⟩, ?_⟩
  intro i hi
  cases hi
  exact hsame

theorem Inv.unregister (h : Inv s) (hfd : fd = -1 ∨ fd ∈ s.reactor.fds_) :
    GoesThrough s (some fd) (s.unregisterFromReactor fd) := by
  obtain ⟨r, hr, hw, hsame⟩ := delEvent_call h.reactor hfd
  refine ⟨{ s with reactor := r, listen_events_ := update s.listen_events_ fd 0 }, ?_, ⟨hw, h.nonneg⟩, ?_⟩
  · rw [St.unregisterFromReactor, hr]
    rfl
  · intro i hi
    cases hi
    exact hsame

theorem Inv.close (h : Inv s) (fd : ℤ) : Inv (s.close fd) := by
  refine ⟨h.reactor.forget fd, ?_⟩
  intro i hi
  by_cases he : i = fd
  · simp [St.close, he] at hi
  · exact h.nonneg i (by simpa [St.close, he] using hi)

theorem Inv.clearClient (h : Inv s) (hfd : s.isOpen fd = false ∨ fd ∈ s.reactor.fds_) :
    GoesThrough s (some fd) (s.clearClient fd) := by
  cases ho : s.isOpen fd with
  | false =>
    have hsame : s.clearClient fd = some s := by simp [St.clearClient, ho]
    rw [hsame]
    exact h.same _
  | true =>
    have hmem := hfd.resolve_left (by simp [ho])
    obtain ⟨u, hu, hinv, -⟩ := h.unregister (Or.inr hmem)
    refine ⟨u.close fd, by simp [St.clearClient, ho, hu], hinv.close fd, ?_⟩
    intro i hi hnot
    cases hi
    exact absurd hmem hnot

/-- the loop removes only what the kernel watches -/
theorem Inv.report (h : Inv s) (fd : ℤ) : GoesThrough s (some fd) (s.report fd) := by
  by_cases hwatched : s.reactor.epoll fd ≠ none
  · have hmem := h.reactor.watched fd hwatched
    refine ⟨{ s with reactor := _ }, ?_, ⟨h.reactor.erase fd, h.nonneg⟩, ?_⟩
    · rw [St.report, if_pos hwatched, unregister_eq hmem]
      rfl
    · intro i hi hnot
      cases hi
      exact absurd hmem hnot
  · rw [St.report, if_neg hwatched]
    exact h.same _

theorem Inv.update (h : Inv s) (fd : ℤ) (m : BitVec 32) :
    Inv ({ s with listen_events_ := update s.listen_events_ fd m }.updateToReactor fd) := by
  unfold St.updateToReactor
  split_ifs
  · exact ⟨h.reactor.add fd _, h.nonneg⟩
  · exact ⟨h.reactor, h.nonneg⟩

theorem Inv.socket (h : Inv s) (fd : ℤ) : Inv (s.socket fd) := by
  unfold St.socket
  split_ifs with hnew
  · refine ⟨h.reactor, ?_⟩
    intro i hi
    by_cases he : i = fd
    · rw [he]
      exact hnew.1
    · exact h.nonneg i (by simpa [he] using hi)
  · exact h

theorem Inv.addEvent (h : Inv s) (fd : ℤ) (events : ℕ) : Inv (addEvent wake_fd_ s fd events) := by
  unfold Unregistration.addEvent
  split_ifs
  · exact h
  · exact ⟨h.reactor.add fd events, h.nonneg⟩
  · exact h

/-- an operation on a socket -/
theorem Inv.event (h : Inv s) {o : Registration.Op} (hw : o.fd ≠ wake_fd_) (hreg : Registered wake_fd_ s (.event o)) :
    GoesThrough s (Op.event o).removes (s.apply o) := by
  cases o with
  | socket fd => exact (h.socket fd).keeps
  | addListenEvents fd event =>
    refine Inv.keeps ?_
    unfold St.addListenEvents
    split_ifs
    · exact h
    · exact h.update fd _
  | delListenEvents fd event =>
    refine Inv.keeps ?_
    unfold St.delListenEvents
    split_ifs
    · exact h.update fd _
    · exact h
  | unregisterFromReactor fd => exact h.unregister (Or.resolve_left hreg hw)
  | report fd => exact h.report fd
  | clearClient fd => exact h.clearClient (Or.resolve_left hreg hw)
  | destroyTcpClient fd_ =>
    refine Inv.keeps ?_
    unfold St.destroyTcpClient
    split_ifs
    · exact h.close fd_
    · exact h

theorem apply_event {o : Registration.Op} (hw : o.fd ≠ wake_fd_) : apply wake_fd_ s (.event o) = s.apply o := by
  rw [apply, Registration.step, if_neg hw, Option.bind_some]

theorem Inv.goesThrough (h : Inv s) {o : Op} (hreg : Registered wake_fd_ s o) : GoesThrough s o.removes (apply wake_fd_ s o) := by
  cases o with
  | event o =>
    by_cases hw : o.fd = wake_fd_
    · rw [apply, Registration.step, if_pos hw]
      exact h.same _
    · rw [apply_event hw]
      exact h.event hw hreg
  | addEvent fd events => exact (h.addEvent fd events).keeps
  | delEvent fd => exact h.delEvent hreg

/-- the erase of end() -/
theorem Inv.erasesEnd (h : Inv s) {o : Op} (hreg : ¬ Registered wake_fd_ s o) : apply wake_fd_ s o = none := by
  cases o with
  | addEvent fd events => exact absurd trivial hreg
  | delEvent fd =>
    simp only [Registered, not_or] at hreg
    rw [apply, Unregistration.delEvent, delEvent_undefined hreg.1 hreg.2, Option.map_none]
  | event o =>
    cases o with
    | unregisterFromReactor fd =>
      simp only [Registered, not_or] at hreg
      rw [apply_event (o := .unregisterFromReactor fd) hreg.1, St.apply, St.unregisterFromReactor,
        delEvent_undefined hreg.2.1 hreg.2.2, Option.map_none]
    | clearClient fd =>
      simp only [Registered, not_or, Bool.not_eq_false] at hreg
      have hneg : fd ≠ -1 := by
        have := h.nonneg fd hreg.2.1
        omega
      rw [apply_event (o := .clearClient fd) hreg.1, St.apply, St.clearClient, if_pos hreg.2.1, St.unregisterFromReactor,
        delEvent_undefined hneg hreg.2.2, Option.map_none, Option.map_none]
    | _ => exact absurd trivial hreg

/-! ## Whole runs -/

/-- the run is defined so far, with the invariant -/
def Defined (s : Option St) : Prop := ∃ t, s = some t ∧ Inv t

theorem step_safe_iff {s : Option St} (h : Defined s) (o : Op) :
    (Safe wake_fd_ s o ↔ ∀ t ∈ s, Registered wake_fd_ t o) ∧
      ((∀ t ∈ s, Registered wake_fd_ t o) → Defined (step wake_fd_ s o)) := by
  obtain ⟨t, rfl, hinv⟩ := h
  have hstep : step wake_fd_ (some t) o = apply wake_fd_ t o := Option.bind_some _ _
  refine ⟨⟨?_, ?_⟩, ?_⟩
  · intro hsafe u hu
    cases Option.mem_some.1 hu
    by_contra hreg
    exact hsafe.defined (hstep.trans (hinv.erasesEnd hreg))
  · intro hreg
    obtain ⟨u, hu, huinv, hsame⟩ := hinv.goesThrough (hreg t rfl)
    rw [hu] at hstep
    refine ⟨by simp [hstep], ?_, ?_⟩
    · intro t' ht' u' hu' fd hfd hnot
      rw [hstep] at hu'
      cases Option.mem_some.1 ht'
      cases Option.mem_some.1 hu'
      exact hsame fd hfd hnot
    · intro u' hu'
      rw [hstep] at hu'
      cases Option.mem_some.1 hu'
      exact huinv.reactor.nodup
  · intro hreg
    obtain ⟨u, hu, huinv, -⟩ := hinv.goesThrough (hreg t rfl)
    exact ⟨u, hstep.trans hu, huinv⟩

theorem init_inv (wake_fd_ : ℤ) : Inv (init wake_fd_) := by
  refine ⟨⟨List.nodup_singleton _, ?_⟩, fun fd hfd => Bool.noConfusion hfd⟩
  intro fd hfd
  by_cases he : fd = wake_fd_
  · simp [init, he]
  · simp [init, he] at hfd

/-- **Unregistering.** For every run, on the loop thread, of registrations, removals and reports for any descriptors: no
removal erases end(), a removal of a descriptor that is not in fds_ leaves fds_ as it was and fds_ holds no descriptor
twice, if and only if every descriptor is in fds_ when it is removed by delEvent (where -1 is ignored),
unregisterFromReactor or the clearClient of a connection that is not closed. Reports need nothing. -/
theorem unregister_safe_iff (wake_fd_ : ℤ) (ops : List Op) :
    Along (step wake_fd_) (Safe wake_fd_) (some (init wake_fd_)) ops ↔
      Along (step wake_fd_) (fun s o => ∀ t ∈ s, Registered wake_fd_ t o) (some (init wake_fd_)) ops := by
  have hinit : Defined (some (init wake_fd_)) := ⟨_, rfl, init_inv wake_fd_⟩
  have hstep : ∀ s o, Defined s → True → (Safe wake_fd_ s o ↔ ∀ t ∈ s, Registered wake_fd_ t o) ∧
      ((∀ t ∈ s, Registered wake_fd_ t o) → Defined (step wake_fd_ s o)) :=
    fun s o h _ => step_safe_iff h o
  exact along_iff_of_inv hstep hinit (along_of_mem fun _ _ _ => trivial)

/-- the loop removes a connection's descriptor on an error report, and the connection is cleared afterwards -/
def removedTwice : List Op :=
  [.event (.socket 5), .event (.addListenEvents 5 .READ), .event (.report 5), .event (.clearClient 5)]

/-- end() is erased when a removed connection is cleared, and at once for a descriptor that was never added. -/
theorem erases_end :
    (run (step 3) (some (init 3)) removedTwice).isNone = true ∧
    ¬ Along (step 3) (Safe 3) (some (init 3)) removedTwice ∧
    ¬ Along (step 3) (Safe 3) (some (init 3)) [.delEvent 7] := by
  have htwice : (run (step 3) (some (init 3)) removedTwice).isNone = true := by decide
  refine ⟨htwice, ?_, ?_⟩
  · intro h
    exact h.2.2.2.1.defined (Option.isNone_iff_eq_none.1 htwice)
  · intro h
    exact h.1.defined (Option.isNone_iff_eq_none.1 (by decide))

/-! ## What is in fds_ -/

/-- the operation adds `fd`, or changes what it is watched for -/
def Adds (wake_fd_ fd : ℤ) (s : St) : Op → Prop
  | .addEvent fd' _ => fd' = fd ∧ fd ≠ -1 ∧ (s.isOpen fd = true ∨ fd = wake_fd_)
  | .event (.addListenEvents fd' event) =>
    fd' = fd ∧ fd ≠ wake_fd_ ∧ s.isOpen fd = true ∧ s.listen_events_ fd &&& event.mask = 0
  | .event (.delListenEvents fd' event) =>
    fd' = fd ∧ fd ≠ wake_fd_ ∧ s.isOpen fd = true ∧ s.listen_events_ fd &&& event.mask ≠ 0
  | _ => False

/-- the operation takes `fd` out -/
def Removes (wake_fd_ fd : ℤ) (s : St) : Op → Prop
  | .delEvent fd' => fd' = fd ∧ fd ≠ -1
  | .event (.unregisterFromReactor fd') => fd' = fd ∧ fd ≠ wake_fd_ ∧ fd ≠ -1
  | .event (.report fd') => fd' = fd ∧ fd ≠ wake_fd_ ∧ s.reactor.epoll fd ≠ none
  | .event (.clearClient fd') => fd' = fd ∧ fd ≠ wake_fd_ ∧ s.isOpen fd = true
  | _ => False

theorem Watched.mem_add {r : Reactor} (h : Watched r) (fd' : ℤ) (events : ℕ) :
    fd ∈ (r.addEventInLoopThread fd' events).fds_ ↔ fd' = fd ∨ fd ∈ r.fds_ := by
  by_cases hfd : fd' ∈ r.fds_
  · -- MOD, which may fail
    have hsame : (r.addEventInLoopThread fd' events).fds_ = r.fds_ := by
      cases hm : r.epoll fd' <;> simp [Reactor.addEventInLoopThread, epollCtl, hfd, hm]
    rw [hsame]
    exact ⟨Or.inr, fun hor => hor.elim (fun heq => heq ▸ hfd) id⟩
  · have hnone : r.epoll fd' = none := by
      by_contra hne
      exact hfd (h.watched fd' hne)
    rw [Reactor.addEventInLoopThread_eq (by simp [hfd, hnone]), if_neg hfd, List.mem_append, List.mem_singleton, or_comm,
      eq_comm]

theorem ne_and_iff {M P : Prop} {fd' : ℤ} (hP : fd' = fd → P) : fd ≠ fd' ∧ M ↔ M ∧ ¬(fd' = fd ∧ P) := by
  constructor
  · rintro ⟨hne, hm⟩
    exact ⟨hm, fun hsame => hne hsame.1.symm⟩
  · rintro ⟨hm, hnot⟩
    exact ⟨fun heq => hnot ⟨heq.symm, hP heq.symm⟩, hm⟩

theorem Inv.mem_delEvent (h : Inv s) {fd' : ℤ} {r : Reactor} (hr : s.reactor.call true (.delEvent fd') = some r) :
    fd ∈ r.fds_ ↔ fd ∈ s.reactor.fds_ ∧ ¬(fd' = fd ∧ fd ≠ -1) := by
  by_cases hneg : fd' = -1
  · rw [Reactor.call, if_pos hneg] at hr
    cases hr
    exact (and_iff_left fun hsame => hsame.2 (hsame.1 ▸ hneg)).symm
  · simp only [Reactor.call, if_neg hneg, if_true, Reactor.delEventInLoopThread_eq] at hr
    split_ifs at hr
    cases hr
    show fd ∈ s.reactor.fds_.erase fd' ↔ _
    rw [h.reactor.nodup.mem_erase_iff]
    exact ne_and_iff fun heq => heq ▸ hneg

/-- a call that takes `fd'` out, under a condition `P` by which it is no invalid descriptor -/
theorem Inv.mem_unregister (h : Inv s) {fd' : ℤ} {r : Reactor} (hr : s.reactor.call true (.delEvent fd') = some r) {P : Prop}
    (hP : fd' = fd → (fd ≠ -1 ↔ P)) : fd ∈ r.fds_ ↔ False ∨ fd ∈ s.reactor.fds_ ∧ ¬(fd' = fd ∧ P) := by
  rw [h.mem_delEvent hr, false_or]
  exact and_congr_right fun _ => not_congr (and_congr_right hP)

/-- an operation that leaves fds_ alone -/
theorem mem_same {P Q : Prop} (hadds : ¬ P) (hremoves : ¬ Q) : fd ∈ s.reactor.fds_ ↔ P ∨ fd ∈ s.reactor.fds_ ∧ ¬ Q :=
  ⟨fun hmem => Or.inr ⟨hmem, hremoves⟩, fun hor => (hor.resolve_left hadds).1⟩

/-- a new mask reaches the reactor when the descriptor is open -/
theorem Inv.mem_updateToReactor (h : Inv s) (fd' : ℤ) (m : BitVec 32) :
    fd ∈ ({ s with listen_events_ := Function.update s.listen_events_ fd' m }.updateToReactor fd').reactor.fds_ ↔
      (fd' = fd ∧ s.isOpen fd = true) ∨ fd ∈ s.reactor.fds_ := by
  unfold St.updateToReactor
  split_ifs with hopen
  · have hopen : s.isOpen fd' = true := hopen
    refine (h.reactor.mem_add fd' _).trans (or_congr_left ?_)
    exact ⟨fun heq => ⟨heq, heq ▸ hopen⟩, fun hand => hand.1⟩
  · refine ⟨Or.inr, fun hor => hor.resolve_left ?_⟩
    rintro ⟨rfl, hopen'⟩
    exact hopen hopen'

theorem updated_iff {A : Prop} {fd' : ℤ} (hA : fd' = fd → s.isOpen fd = true → A) (hA' : A → fd' = fd ∧ s.isOpen fd = true) :
    (fd' = fd ∧ s.isOpen fd = true) ∨ fd ∈ s.reactor.fds_ ↔ A ∨ fd ∈ s.reactor.fds_ ∧ ¬ False := by
  rw [not_false_iff, and_true]
  exact or_congr_left ⟨fun hand => hA hand.1 hand.2, hA'⟩

theorem Inv.mem_event (h : Inv s) {o : Registration.Op} (hw : o.fd ≠ wake_fd_) {u : St} (hu : s.apply o = some u) :
    fd ∈ u.reactor.fds_ ↔
      Adds wake_fd_ fd s (.event o) ∨ fd ∈ s.reactor.fds_ ∧ ¬ Removes wake_fd_ fd s (.event o) := by
  cases o with
  | socket fd' =>
    cases hu
    have hsame : (s.socket fd').reactor = s.reactor := by
      unfold St.socket
      split_ifs <;> rfl
    rw [hsame]
    exact mem_same id id
  | addListenEvents fd' event =>
    cases hu
    unfold St.addListenEvents
    split_ifs with hmask
    · refine mem_same ?_ id
      rintro ⟨rfl, -, -, hzero⟩
      exact hmask hzero
    · refine (h.mem_updateToReactor fd' _).trans (updated_iff ?_ fun hadds => ⟨hadds.1, hadds.2.2.1⟩)
      rintro rfl hopen
      exact ⟨rfl, hw, hopen, not_not.1 hmask⟩
  | delListenEvents fd' event =>
    cases hu
    unfold St.delListenEvents
    split_ifs with hmask
    · refine (h.mem_updateToReactor fd' _).trans (updated_iff ?_ fun hadds => ⟨hadds.1, hadds.2.2.1⟩)
      rintro rfl hopen
      exact ⟨rfl, hw, hopen, hmask⟩
    · refine mem_same ?_ id
      rintro ⟨rfl, -, -, hne⟩
      exact hmask hne
  | unregisterFromReactor fd' =>
    rw [St.apply, St.unregisterFromReactor, Option.map_eq_some_iff] at hu
    obtain ⟨r, hr, rfl⟩ := hu
    refine h.mem_unregister hr ?_
    intro heq
    subst heq
    exact (and_iff_right hw).symm
  | report fd' =>
    rw [St.apply, St.report] at hu
    split_ifs at hu with hwatched
    · have hmem := h.reactor.watched fd' hwatched
      rw [unregister_eq hmem] at hu
      cases hu
      show fd ∈ s.reactor.fds_.erase fd' ↔ _
      rw [h.reactor.nodup.mem_erase_iff]
      refine Iff.trans (ne_and_iff ?_) (or_iff_right id).symm
      rintro rfl
      exact ⟨hw, hwatched⟩
    · cases hu
      refine mem_same id ?_
      rintro ⟨rfl, -, hne⟩
      exact hwatched hne
  | clearClient fd' =>
    rw [St.apply, St.clearClient] at hu
    split_ifs at hu with hopen
    · rw [St.unregisterFromReactor, Option.map_map, Option.map_eq_some_iff] at hu
      obtain ⟨r, hr, rfl⟩ := hu
      refine h.mem_unregister hr ?_
      intro heq
      subst heq
      have hneg : fd' ≠ -1 := by
        have := h.nonneg fd' hopen
        omega
      exact iff_of_true hneg ⟨hw, hopen⟩
    · cases hu
      refine mem_same id ?_
      rintro ⟨rfl, -, hopen'⟩
      exact hopen hopen'
  | destroyTcpClient fd_ =>
    cases hu
    have hsame : (s.destroyTcpClient fd_).reactor.fds_ = s.reactor.fds_ := by
      unfold St.destroyTcpClient
      split_ifs <;> rfl
    rw [hsame]
    exact mem_same id id

theorem Inv.mem_apply (h : Inv s) {o : Op} {u : St} (hu : apply wake_fd_ s o = some u) :
    fd ∈ u.reactor.fds_ ↔ Adds wake_fd_ fd s o ∨ fd ∈ s.reactor.fds_ ∧ ¬ Removes wake_fd_ fd s o := by
  cases o with
  | event o =>
    by_cases hw : o.fd = wake_fd_
    · rw [apply, Registration.step, if_pos hw] at hu
      cases hu
      refine mem_same ?_ ?_ <;> cases o <;> simp [Adds, Removes] <;> intro heq hne <;> exact absurd (heq.symm.trans hw) hne
    · rw [apply_event hw] at hu
      exact h.mem_event hw hu
  | addEvent fd' events =>
    cases hu
    unfold Unregistration.addEvent
    split_ifs with hneg hopen
    · refine mem_same ?_ id
      rintro ⟨rfl, hne, -⟩
      exact hne hneg
    · refine (h.reactor.mem_add fd' events).trans ?_
      refine ⟨fun hor => hor.imp (fun heq => ⟨heq, heq ▸ hneg, heq ▸ hopen⟩) fun hmem => ⟨hmem, id⟩, ?_⟩
      exact fun hor => hor.imp (fun hadds => hadds.1) fun hand => hand.1
    · refine mem_same ?_ id
      rintro ⟨rfl, -, hopen'⟩
      exact hopen hopen'
  | delEvent fd' =>
    rw [apply, Unregistration.delEvent, Option.map_eq_some_iff] at hu
    obtain ⟨r, hr, rfl⟩ := hu
    refine (h.mem_delEvent hr).trans ?_
    exact (or_iff_right id).symm

/-- an operation that goes through keeps the invariant -/
theorem Inv.keep (h : Inv s) {o : Op} {u : St} (hu : apply wake_fd_ s o = some u) : Inv u := by
  have hreg : Registered wake_fd_ s o := by
    by_contra hreg
    rw [h.erasesEnd hreg] at hu
    cases hu
  obtain ⟨u', hu', hinv, -⟩ := h.goesThrough hreg
  cases hu.symm.trans hu'
  exact hinv

theorem run_none (ops : List Op) : run (step wake_fd_) none ops = none := by
  induction ops with
  | nil => rfl
  | cons o ops ih => exact ih

/-- **By which calls a descriptor is in fds_.** After every run that erases no end(): a descriptor is in fds_ if and only if
some call of the run added it, or it is the wake descriptor, and no call has removed it since. -/
theorem mem_fds_iff (wake_fd_ fd : ℤ) {ops : List Op} {u : St}
    (hu : run (step wake_fd_) (some (init wake_fd_)) ops = some u) :
    fd ∈ u.reactor.fds_ ↔
      Since (step wake_fd_) (fun s o => ∃ t ∈ s, Adds wake_fd_ fd t o) (fun s o => ∃ t ∈ s, Removes wake_fd_ fd t o)
          (some (init wake_fd_)) ops ∨
        fd = wake_fd_ ∧
          Along (step wake_fd_) (fun s o => ¬ ∃ t ∈ s, Removes wake_fd_ fd t o) (some (init wake_fd_)) ops := by
  have hdefined : Along (step wake_fd_) (fun s o => step wake_fd_ s o ≠ none) (some (init wake_fd_)) ops := by
    rw [along_iff]
    rintro ops₁ o ops₂ rfl hnone
    rw [run_append, run, List.foldl_cons, ← run, hnone, run_none] at hu
    cases hu
  have hstep : ∀ s o, Defined s → step wake_fd_ s o ≠ none →
      ((∃ t ∈ step wake_fd_ s o, fd ∈ t.reactor.fds_) ↔ (∃ t ∈ s, Adds wake_fd_ fd t o) ∨
        (∃ t ∈ s, fd ∈ t.reactor.fds_) ∧ ¬ ∃ t ∈ s, Removes wake_fd_ fd t o) ∧ Defined (step wake_fd_ s o) := by
    rintro _ o ⟨t, rfl, h⟩ hgoes
    obtain ⟨v, hv⟩ := Option.ne_none_iff_exists'.1 hgoes
    have happly : apply wake_fd_ t o = some v := hv
    rw [hv]
    exact ⟨by simpa using h.mem_apply happly, v, rfl, h.keep happly⟩
  have hiff := run_iff_since (M := fun s => ∃ t ∈ s, fd ∈ t.reactor.fds_) hstep ⟨_, rfl, init_inv wake_fd_⟩ hdefined
  rw [hu] at hiff
  simpa [init] using hiff

end TinyRpc.Net.Unregistration
