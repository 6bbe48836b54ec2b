/-
How other threads wake the loop of a Reactor (net/reactor.cc: wakeup, addTask, addEvent, delEvent, stop, loop).

A call of another thread puts its entry into a queue under `mutex_` and then, on its own, tests `looping_` and writes to
the eventfd. The loop runs its tasks, clears them, blocks in epoll_wait, reads the eventfd until it is empty, and takes the
descriptors to add and to delete. `stop` tests both flags, stores `stop_flag_` and wakes the loop in the same way; the
loop raises `looping_` before it resets `stop_flag_`.

Here the steps of any number of calls, the loop and the kernel are interleaved in any order. A call made by a task of the
loop is one whose steps all fall into the step of that task. Entries carry the number of their call; callbacks that the
loop queues itself carry none. The masks of descriptors and what tasks do are left out, and epoll_wait is taken to block
as long as nothing is ready: it returns for the eventfd when its counter is not zero, and whenever the kernel says so, for
other descriptors, after its ten seconds or with an error.

Main results: `no_wakeup_lost`, what can be left in the queues while the loop is blocked; `stop_not_missed`, a stop that the
loop cannot miss; `stop_ends_iff`, after which calls of `stop` the loop comes to its end, and which are missed.
-/
import Mathlib.Tactic
import TinyRpc.Core.Machine

namespace TinyRpc.Net.Wakeup

open TinyRpc.Core Function

/-! ## Calls and the loop -/

inductive Kind
  /-- addTask with `k` tasks -/
  | task (k : ℕ)
  | addEvent (fd : ℤ)
  | delEvent (fd : ℤ)
deriving DecidableEq, Repr

/-- where a call stands after its entry is queued -/
inductive CallPc
  /-- before `if (is_wakeup)` and the test of `looping_` -/
  | posted
  /-- before the write to the eventfd -/
  | write
  | woke
  /-- returned without a write: `is_wakeup` is false -/
  | quiet
  /-- returned without a write: `looping_` was false -/
  | early
deriving DecidableEq, Repr

structure Call where
  kind : Kind
  is_wakeup : Bool
  pc : CallPc
deriving DecidableEq, Repr

/-- where a call of `stop` stands -/
inductive StopPc
  | notCalled
  /-- before the test of `looping_` -/
  | looping
  /-- before `stop_flag_ = true` -/
  | store
  /-- in `wakeup`, before its test of `looping_` -/
  | wakeup
  | write
  | returned
deriving DecidableEq, Repr

/-- where the loop thread is -/
inductive Pc
  /-- outside `loop` -/
  | idle
  /-- before `stop_flag_ = false` -/
  | reset
  /-- before the test of `stop_flag_` -/
  | head
  | test (i : ℕ)
  | exec (i : ℕ)
  | clear
  | wait
  /-- reading the eventfd until it is empty -/
  | drain
  /-- queueing callbacks; next the pending descriptors are taken -/
  | collect
  /-- before `looping_ = false` -/
  | leave
deriving DecidableEq, Repr

structure St where
  pc : Pc
  looping_ : Bool
  stop_flag_ : Bool
  /-- the counter of the eventfd -/
  wake_fd_ : ℕ
  pending_tasks_ : List (Option ℕ)
  pending_add_fds_ : List (ℤ × ℕ)
  pending_del_fds_ : List ℕ
  call : ℕ → Option Call
  /-- how many calls were made so far -/
  calls : ℕ
  stop : ℕ → StopPc

def init : St :=
  { pc := .idle, looping_ := false, stop_flag_ := false, wake_fd_ := 0, pending_tasks_ := [], pending_add_fds_ := [],
    pending_del_fds_ := [], call := fun _ => none, calls := 0, stop := fun _ => .notCalled }

inductive Op
  /-- addTask, addEvent or delEvent, up to the end of the locked section -/
  | post (kind : Kind) (is_wakeup : Bool)
  /-- the next step of call `n` -/
  | call (n : ℕ)
  /-- the next step of the `k`-th call of `stop`, the first of which calls it -/
  | stop (k : ℕ)
  | loop
  /-- epoll_wait returns for other descriptors or after its time -/
  | ready
  /-- epoll_wait returns an error -/
  | error
  /-- a callback of a reported event is queued -/
  | callback
deriving DecidableEq, Repr

/-- the eventfd holds at most this count; a write that would pass it fails -/
def counterMax : ℕ := 2 ^ 64 - 2

def St.write (s : St) : St := { s with wake_fd_ := min (s.wake_fd_ + 1) counterMax }

/-- the entry of a call in its queue -/
def St.enqueue (s : St) (n : ℕ) : Kind → St
  | .task k => { s with pending_tasks_ := s.pending_tasks_ ++ List.replicate k (some n) }
  | .addEvent fd =>
    -- an insert into the map, which does not overwrite
    if fd ∈ s.pending_add_fds_.map Prod.fst then s else { s with pending_add_fds_ := (fd, n) :: s.pending_add_fds_ }
  | .delEvent _ => { s with pending_del_fds_ := s.pending_del_fds_ ++ [n] }

/-- the calls that return at once: no task, or an invalid descriptor -/
def Kind.empty : Kind → Bool
  | .task k => k = 0
  | .addEvent fd | .delEvent fd => fd = -1

def St.post (s : St) (kind : Kind) (is_wakeup : Bool) : St :=
  if kind.empty then s
  else { s.enqueue s.calls kind with
    call := update s.call s.calls (some ⟨kind, is_wakeup, .posted⟩), calls := s.calls + 1 }

def St.setCall (s : St) (n : ℕ) (c : Call) (pc : CallPc) : St := { s with call := update s.call n (some { c with pc := pc }) }

/-- `wakeup`, for a call -/
def St.advance (s : St) (n : ℕ) : St :=
  match s.call n with
  | none => s
  | some c =>
    match c.pc with
    | .posted =>
      if c.is_wakeup = false then s.setCall n c .quiet
      else if s.looping_ then s.setCall n c .write
      else s.setCall n c .early
    | .write => s.write.setCall n c .woke
    | .woke | .quiet | .early => s

def St.setStop (s : St) (k : ℕ) (pc : StopPc) : St := { s with stop := update s.stop k pc }

/-- `stop` -/
def St.stopStep (s : St) (k : ℕ) : St :=
  match s.stop k with
  | .notCalled => s.setStop k (if s.stop_flag_ then .returned else .looping)
  | .looping => s.setStop k (if s.looping_ then .store else .returned)
  | .store => { s with stop_flag_ := true }.setStop k .wakeup
  | .wakeup => s.setStop k (if s.looping_ then .write else .returned)
  | .write => s.write.setStop k .returned
  | .returned => s

/-- `loop` -/
def St.loop (s : St) : St :=
  match s.pc with
  | .idle => { s with looping_ := true, pc := .reset }
  | .reset => { s with stop_flag_ := false, pc := .head }
  | .head => { s with pc := if s.stop_flag_ then .leave else .test 0 }
  | .test i => { s with pc := if i < s.pending_tasks_.length then .exec i else .clear }
  | .exec i => { s with pc := .test (i + 1) }
  | .clear => { s with pending_tasks_ := [], pc := .wait }
  | .wait => if s.wake_fd_ = 0 then s else { s with pc := .drain }
  | .drain => if s.wake_fd_ = 0 then { s with pc := .collect } else { s with wake_fd_ := 0 }
  | .collect => { s with pending_add_fds_ := [], pending_del_fds_ := [], pc := .head }
  | .leave => { s with looping_ := false, pc := .idle }

/-- one atomic step; an operation that cannot be taken does nothing -/
def step (s : St) : Op → St
  | .post kind is_wakeup => s.post kind is_wakeup
  | .call n => s.advance n
  | .stop k => s.stopStep k
  | .loop => s.loop
  | .ready => if s.pc = .wait then { s with pc := .collect } else s
  | .error => if s.pc = .wait then { s with pc := .head } else s
  | .callback => if s.pc = .collect then { s with pending_tasks_ := s.pending_tasks_ ++ [none] } else s

/-- the loop is in epoll_wait, and no write has come -/
def St.Blocked (s : St) : Prop := s.pc = .wait ∧ s.wake_fd_ = 0

/-- call `n` is still to wake the loop, or was told not to -/
def St.Unannounced (s : St) (n : ℕ) : Prop :=
  ∃ c, s.call n = some c ∧ (c.pc = .posted ∨ c.pc = .write ∨ c.pc = .quiet)

/-- call `n` found that there was no loop to wake -/
def St.Early (s : St) (n : ℕ) : Prop := ∃ c, s.call n = some c ∧ c.pc = .early

/-- the calls with a descriptor to add or to delete -/
def St.pendingFds (s : St) : List ℕ := s.pending_add_fds_.map Prod.snd ++ s.pending_del_fds_

/-- some call of `stop` is past its store and still to wake the loop -/
def St.StopInFlight (s : St) : Prop := ∃ k, s.stop k = .wakeup ∨ s.stop k = .write

/-! ## The invariant -/

/-- past its test of `stop_flag_` and not yet back from epoll_wait -/
def Pc.running : Pc → Bool
  | .test _ | .exec _ | .clear | .wait => true
  | .idle | .reset | .head | .drain | .collect | .leave => false

structure Inv (s : St) : Prop where
  looping : s.looping_ = true ↔ s.pc ≠ .idle
  called : ∀ n, s.call n ≠ none → n < s.calls
  tasks : s.pc = .wait → ∀ x ∈ s.pending_tasks_, ∃ n, x = some n ∧ (s.Unannounced n ∨ 0 < s.wake_fd_)
  fds : s.pc ≠ .drain → s.pc ≠ .collect → ∀ n ∈ s.pendingFds, s.Unannounced n ∨ s.Early n ∨ 0 < s.wake_fd_
  stop : s.pc.running = true → s.stop_flag_ = true → 0 < s.wake_fd_ ∨ s.StopInFlight

variable {s : St}

theorem init_inv : Inv init := by
  refine ⟨?_, ?_, ?_, ?_, ?_⟩ <;> simp [init, St.pendingFds, Pc.running]

theorem write_pos (s : St) : 0 < s.write.wake_fd_ := Nat.lt_min.2 ⟨Nat.succ_pos _, by decide⟩

/-! ## Calls -/

@[simp] theorem call_setCall_self (s : St) (n : ℕ) (c : Call) (pc : CallPc) :
    (s.setCall n c pc).call n = some { c with pc := pc } := update_self ..

theorem call_setCall_of_ne {m n : ℕ} (hm : m ≠ n) (s : St) (c : Call) (pc : CallPc) :
    (s.setCall n c pc).call m = s.call m := update_of_ne hm _ _

theorem unannounced_setCall_of_ne {m n : ℕ} {c : Call} {pc : CallPc} (hm : m ≠ n) (h : s.Unannounced m) :
    (s.setCall n c pc).Unannounced m := by
  obtain ⟨d, hd, hpc⟩ := h
  exact ⟨d, by rw [call_setCall_of_ne hm, hd], hpc⟩

/-- a call that comes to its write, or is told not to write, is unannounced as before -/
theorem unannounced_setCall {m n : ℕ} {c : Call} {pc : CallPc} (hpc : pc = .quiet ∨ pc = .write) (h : s.Unannounced m) :
    (s.setCall n c pc).Unannounced m := by
  by_cases hm : m = n
  · subst hm
    refine ⟨_, call_setCall_self .., ?_⟩
    rcases hpc with rfl | rfl <;> simp
  · exact unannounced_setCall_of_ne hm h

/-- a call that found no loop has returned -/
theorem early_setCall {m n : ℕ} {c : Call} {pc : CallPc} (hc : s.call n = some c) (hposted : c.pc = .posted)
    (h : s.Early m) : (s.setCall n c pc).Early m := by
  obtain ⟨d, hd, hpc⟩ := h
  have hm : m ≠ n := by
    rintro rfl
    rw [hc] at hd
    cases hd
    rw [hposted] at hpc
    cases hpc
  exact ⟨d, by rw [call_setCall_of_ne hm, hd], hpc⟩

theorem called_setCall (h : Inv s) {n : ℕ} {c : Call} (hc : s.call n = some c) (pc : CallPc) :
    ∀ m, (s.setCall n c pc).call m ≠ none → m < s.calls := by
  intro m hm
  by_cases hmn : m = n
  · subst hmn
    exact h.called m (by simp [hc])
  · rw [call_setCall_of_ne hmn] at hm
    exact h.called m hm

/-- a call goes on: it is told not to write or is about to, it finds no loop, or it writes -/
theorem Inv.advance (h : Inv s) (n : ℕ) : Inv (s.advance n) := by
  unfold St.advance
  split
  case h_1 => exact h
  case h_2 c hc =>
    have hcalled := called_setCall h hc
    split
    case h_1 hpc =>
      have hmove : ∀ pc, pc = .quiet ∨ pc = .write → Inv (s.setCall n c pc) := by
        intro pc hpc'
        refine ⟨h.looping, hcalled pc, ?_, ?_, h.stop⟩
        · intro hw x hx
          obtain ⟨m, rfl, hm⟩ := h.tasks hw x hx
          exact ⟨m, rfl, hm.imp_left (unannounced_setCall hpc')⟩
        · intro hd hcollect m hm
          rcases h.fds hd hcollect m hm with hm | hm | hm
          · exact Or.inl (unannounced_setCall hpc' hm)
          · exact Or.inr (Or.inl (early_setCall hc hpc hm))
          · exact Or.inr (Or.inr hm)
      split_ifs with hw hl
      · exact hmove _ (Or.inl rfl)
      · exact hmove _ (Or.inr rfl)
      · -- the call found no loop, so the loop is not blocked
        have hidle : s.pc = .idle := by
          by_contra hidle
          exact hl (h.looping.2 hidle)
        refine ⟨h.looping, hcalled _, ?_, ?_, h.stop⟩
        · intro hw
          have hw : s.pc = .wait := hw
          rw [hidle] at hw
          cases hw
        · intro hd hcollect m hm
          by_cases hmn : m = n
          · subst hmn
            exact Or.inr (Or.inl ⟨_, update_self .., rfl⟩)
          · rcases h.fds hd hcollect m hm with hm | hm | hm
            · exact Or.inl (unannounced_setCall_of_ne hmn hm)
            · exact Or.inr (Or.inl (early_setCall hc hpc hm))
            · exact Or.inr (Or.inr hm)
    case h_2 hpc =>
      have hpos := write_pos s
      exact ⟨h.looping, hcalled _, fun hw x hx => (h.tasks hw x hx).imp fun m hm => ⟨hm.1, Or.inr hpos⟩,
        fun _ _ m _ => Or.inr (Or.inr hpos), fun _ _ => Or.inl hpos⟩
    all_goals exact h

theorem pendingFds_enqueue (s : St) (n : ℕ) (kind : Kind) :
    ∀ m ∈ (s.enqueue n kind).pendingFds, m = n ∨ m ∈ s.pendingFds := by
  intro m hm
  cases kind with
  | task k => exact Or.inr hm
  | addEvent fd =>
    simp only [St.enqueue] at hm
    split_ifs at hm
    · exact Or.inr hm
    · rcases List.mem_cons.1 hm with hm | hm
      · exact Or.inl hm
      · exact Or.inr hm
  | delEvent fd =>
    simp only [St.enqueue, St.pendingFds, ← List.append_assoc] at hm
    rcases List.mem_append.1 hm with hm | hm
    · exact Or.inr hm
    · exact Or.inl (List.mem_singleton.1 hm)

theorem pending_tasks_enqueue (s : St) (n : ℕ) (kind : Kind) :
    ∀ x ∈ (s.enqueue n kind).pending_tasks_, x = some n ∨ x ∈ s.pending_tasks_ := by
  intro x hx
  cases kind with
  | task k =>
    rcases List.mem_append.1 hx with hx | hx
    · exact Or.inr hx
    · exact Or.inl (List.eq_of_mem_replicate hx)
  | addEvent fd =>
    simp only [St.enqueue] at hx
    split_ifs at hx <;> exact Or.inr hx
  | delEvent fd => exact Or.inr hx

/-- only the queues change -/
theorem enqueue_frame (s : St) (n : ℕ) (kind : Kind) :
    (s.enqueue n kind).pc = s.pc ∧ (s.enqueue n kind).looping_ = s.looping_ ∧
      (s.enqueue n kind).stop_flag_ = s.stop_flag_ ∧ (s.enqueue n kind).wake_fd_ = s.wake_fd_ ∧
      (s.enqueue n kind).stop = s.stop := by
  cases kind with
  | addEvent fd =>
    simp only [St.enqueue]
    split_ifs <;> simp
  | _ => simp [St.enqueue]

theorem Inv.post (h : Inv s) (kind : Kind) (is_wakeup : Bool) : Inv (s.post kind is_wakeup) := by
  unfold St.post
  split_ifs
  · exact h
  · obtain ⟨hpc, hlooping, hstop_flag, hwake, hstop⟩ := enqueue_frame s s.calls kind
    set t : St := { s.enqueue s.calls kind with
      call := update s.call s.calls (some ⟨kind, is_wakeup, .posted⟩), calls := s.calls + 1 } with ht
    have hnew : t.Unannounced s.calls := ⟨_, update_self .., Or.inl rfl⟩
    -- a call made before is not the new one
    have hold : ∀ m c, s.call m = some c → t.call m = some c := by
      intro m c hm
      have hlt := h.called m (by simp [hm])
      rw [← hm]
      exact update_of_ne hlt.ne _ _
    have hunannounced : ∀ m, s.Unannounced m → t.Unannounced m := fun m ⟨c, hc, hcpc⟩ => ⟨c, hold m c hc, hcpc⟩
    refine ⟨?_, ?_, ?_, ?_, ?_⟩
    · rw [show t.looping_ = s.looping_ from hlooping, show t.pc = s.pc from hpc]
      exact h.looping
    · intro m hm
      show m < s.calls + 1
      by_cases hmn : m = s.calls
      · rw [hmn]
        exact Nat.lt_succ_self _
      · have hm : update s.call s.calls (some ⟨kind, is_wakeup, .posted⟩) m ≠ none := hm
        rw [update_of_ne hmn] at hm
        exact Nat.lt_succ_of_lt (h.called m hm)
    · intro hw x hx
      rw [show t.wake_fd_ = s.wake_fd_ from hwake]
      rcases pending_tasks_enqueue s s.calls kind x hx with rfl | hx
      · exact ⟨_, rfl, Or.inl hnew⟩
      · obtain ⟨m, rfl, hm⟩ := h.tasks (hpc.symm.trans hw) x hx
        exact ⟨m, rfl, hm.imp_left (hunannounced m)⟩
    · intro hd hcollect m hm
      rw [show t.wake_fd_ = s.wake_fd_ from hwake]
      rcases pendingFds_enqueue s s.calls kind m hm with rfl | hm
      · exact Or.inl hnew
      · rcases h.fds (hpc ▸ hd) (hpc ▸ hcollect) m hm with hm | ⟨c, hc, hcpc⟩ | hm
        · exact Or.inl (hunannounced m hm)
        · exact Or.inr (Or.inl ⟨c, hold m c hc, hcpc⟩)
        · exact Or.inr (Or.inr hm)
    · intro hr hf
      have hr : (s.enqueue s.calls kind).pc.running = true := hr
      have hf : (s.enqueue s.calls kind).stop_flag_ = true := hf
      rw [hpc] at hr
      rw [hstop_flag] at hf
      rcases h.stop hr hf with hw | ⟨k, hk⟩
      · exact Or.inl (hwake.symm ▸ hw)
      · exact Or.inr ⟨k, show (s.enqueue s.calls kind).stop k = _ ∨ (s.enqueue s.calls kind).stop k = _ from hstop.symm ▸ hk⟩

/-! ## Calls of stop -/

theorem stop_setStop_of_ne {j k : ℕ} (hj : j ≠ k) (s : St) (pc : StopPc) : (s.setStop k pc).stop j = s.stop j :=
  update_of_ne hj _ _

/-- a call that was not past its store leaves the others in flight -/
theorem stopInFlight_setStop {k : ℕ} (pc : StopPc) (hk : s.stop k ≠ .wakeup) (hk' : s.stop k ≠ .write) (h : s.StopInFlight) :
    (s.setStop k pc).StopInFlight := by
  obtain ⟨j, hj⟩ := h
  have hjk : j ≠ k := by
    rintro rfl
    exact hj.elim hk hk'
  exact ⟨j, by rwa [stop_setStop_of_ne hjk]⟩

theorem Inv.stopStep (h : Inv s) (k : ℕ) : Inv (s.stopStep k) := by
  have hsame : ∀ pc, s.stop k ≠ .wakeup → s.stop k ≠ .write → Inv (s.setStop k pc) := fun pc hk hk' =>
    ⟨h.looping, h.called, h.tasks, h.fds, fun hr hf => (h.stop hr hf).imp_right (stopInFlight_setStop pc hk hk')⟩
  unfold St.stopStep
  split
  case h_1 hk | h_2 hk => exact hsame _ (by simp [hk]) (by simp [hk])
  case h_3 hk =>
    exact ⟨h.looping, h.called, h.tasks, h.fds, fun _ _ => Or.inr ⟨k, Or.inl (update_self ..)⟩⟩
  case h_4 hk =>
    refine ⟨h.looping, h.called, h.tasks, h.fds, ?_⟩
    intro hr hf
    have hr : s.pc.running = true := hr
    have hl : s.looping_ = true := by
      rw [h.looping]
      intro hidle
      rw [hidle] at hr
      cases hr
    rw [if_pos hl]
    exact Or.inr ⟨k, Or.inr (update_self ..)⟩
  case h_5 hk =>
    have hpos := write_pos s
    exact ⟨h.looping, h.called, fun hw x hx => (h.tasks hw x hx).imp fun m hm => ⟨hm.1, Or.inr hpos⟩,
      fun _ _ m _ => Or.inr (Or.inr hpos), fun _ _ => Or.inl hpos⟩
  case h_6 => exact h

/-! ## The loop -/

/-- the loop comes to a place of which the invariant says no more than of where it was -/
theorem Inv.setPc (h : Inv s) {pc : Pc} (hidle : s.pc ≠ .idle) (hpc : pc ≠ .idle) (hwait : pc ≠ .wait)
    (hfds : pc ≠ .collect → s.pc ≠ .drain ∧ s.pc ≠ .collect) (hrun : pc.running = true → s.pc.running = true) :
    Inv { s with pc := pc } :=
  { looping := iff_of_true (h.looping.2 hidle) hpc
    called := h.called
    tasks := fun hw => absurd hw hwait
    fds := fun _ hc => h.fds (hfds hc).1 (hfds hc).2
    stop := fun hr => h.stop (hrun hr) }

theorem Inv.loop (h : Inv s) : Inv s.loop := by
  unfold St.loop
  split
  case h_1 hpc =>
    exact ⟨by simp, h.called, by simp, fun _ _ => h.fds (by simp [hpc]) (by simp [hpc]), by simp [Pc.running]⟩
  case h_2 hpc =>
    exact ⟨by simp [h.looping, hpc], h.called, by simp, fun _ _ => h.fds (by simp [hpc]) (by simp [hpc]), by simp⟩
  case h_3 hpc =>
    split_ifs with hf
    · exact h.setPc (by simp [hpc]) (by simp) (by simp) (fun _ => by simp [hpc]) (by simp [Pc.running])
    · refine ⟨by simp [h.looping, hpc], h.called, by simp, fun _ _ => h.fds (by simp [hpc]) (by simp [hpc]), ?_⟩
      intro _ hf'
      exact absurd hf' hf
  case h_4 i hpc =>
    split_ifs <;> exact h.setPc (by simp [hpc]) (by simp) (by simp) (fun _ => by simp [hpc]) (fun _ => by simp [hpc, Pc.running])
  case h_5 i hpc => exact h.setPc (by simp [hpc]) (by simp) (by simp) (fun _ => by simp [hpc]) (fun _ => by simp [hpc, Pc.running])
  case h_6 hpc =>
    refine ⟨by simp [h.looping, hpc], h.called, by simp, fun _ _ => h.fds (by simp [hpc]) (by simp [hpc]), ?_⟩
    intro _
    exact h.stop (by simp [hpc, Pc.running])
  case h_7 hpc =>
    split_ifs
    · exact h
    · refine ⟨by simp [h.looping, hpc], h.called, by simp, fun hd => absurd rfl hd, by simp [Pc.running]⟩
  case h_8 hpc =>
    split_ifs
    · refine ⟨by simp [h.looping, hpc], h.called, by simp, fun _ hc => absurd rfl hc, by simp [Pc.running]⟩
    · exact ⟨by simp [h.looping, hpc], h.called, by simp [hpc], fun hd => absurd hpc hd, by simp [hpc, Pc.running]⟩
  case h_9 hpc =>
    exact ⟨by simp [h.looping, hpc], h.called, by simp, by simp [St.pendingFds], by simp [Pc.running]⟩
  case h_10 hpc =>
    exact ⟨by simp, h.called, by simp, fun _ _ => h.fds (by simp [hpc]) (by simp [hpc]), by simp [Pc.running]⟩

theorem Inv.step (h : Inv s) (o : Op) : Inv (step s o) := by
  cases o with
  | post kind is_wakeup => exact h.post kind is_wakeup
  | call n => exact h.advance n
  | stop k => exact h.stopStep k
  | loop => exact h.loop
  | ready =>
    simp only [Wakeup.step]
    split_ifs with hpc
    · exact h.setPc (by simp [hpc]) (by simp) (by simp) (by simp) (by simp [Pc.running])
    · exact h
  | error =>
    simp only [Wakeup.step]
    split_ifs with hpc
    · exact h.setPc (by simp [hpc]) (by simp) (by simp) (fun _ => by simp [hpc]) (by simp [Pc.running])
    · exact h
  | callback =>
    simp only [Wakeup.step]
    split_ifs with hpc
    · exact ⟨h.looping, h.called, by simp [hpc], fun _ hc => absurd hpc hc, by simp [hpc, Pc.running]⟩
    · exact h

theorem inv_run (ops : List Op) : Inv (run Wakeup.step init ops) := run_of_inv (fun _ o h => h.step o) init_inv ops

/-! ## What is left while the loop is blocked -/

/-- call `n` queued its descriptor before the loop began, and epoll_wait has not come back since -/
def EarlySince (ops : List Op) (n : ℕ) : Prop :=
  ∃ ops₁ ops₂, ops = ops₁ ++ ops₂ ∧ (run step init ops₁).pc = .idle ∧ n ∈ (run step init ops₁).pendingFds ∧
    Along step (fun s o => s.pc = .collect → o ≠ .loop) (run step init ops₁) ops₂

/-- a descriptor enters its queue with its call; it leaves when the loop takes all of them -/
theorem pendingFds_step (s : St) (o : Op) {n : ℕ} (hn : n ∈ (step s o).pendingFds) :
    (n ∈ s.pendingFds ∧ (s.pc = .collect → o ≠ .loop)) ∨ (step s o).Unannounced n := by
  cases o with
  | post kind is_wakeup =>
    simp only [step, St.post] at hn ⊢
    split_ifs at hn ⊢
    · exact Or.inl ⟨hn, by simp⟩
    · rcases pendingFds_enqueue s s.calls kind n hn with rfl | hn
      · exact Or.inr ⟨_, update_self .., Or.inl rfl⟩
      · exact Or.inl ⟨hn, by simp⟩
  | call m =>
    left
    refine ⟨?_, by simp⟩
    simp only [step, St.advance] at hn
    repeat' split at hn
    all_goals exact hn
  | stop k =>
    left
    refine ⟨?_, by simp⟩
    simp only [step, St.stopStep] at hn
    repeat' split at hn
    all_goals exact hn
  | loop =>
    left
    by_cases hc : s.pc = .collect
    · simp [step, St.loop, hc, St.pendingFds] at hn
    · refine ⟨?_, fun h => absurd h hc⟩
      simp only [step, St.loop] at hn
      repeat' split at hn
      all_goals first | exact hn | exact absurd (by assumption) hc
  | ready | error | callback =>
    left
    refine ⟨?_, by simp⟩
    simp only [step] at hn
    split_ifs at hn <;> exact hn

theorem early_post {kind : Kind} {is_wakeup : Bool} {n : ℕ} (hn : (s.post kind is_wakeup).Early n) : s.Early n := by
  obtain ⟨c, hc, hpc⟩ := hn
  unfold St.post at hc
  split_ifs at hc
  · exact ⟨c, hc, hpc⟩
  · have hc : update s.call s.calls (some ⟨kind, is_wakeup, .posted⟩) n = some c := hc
    by_cases hn : n = s.calls
    · subst hn
      rw [update_self] at hc
      cases hc
      cases hpc
    · rw [update_of_ne hn] at hc
      exact ⟨c, hc, hpc⟩

/-- a call finds no loop while there is none -/
theorem Inv.early_advance (h : Inv s) {m n : ℕ} (hn : (s.advance m).Early n) : s.Early n ∨ s.pc = .idle ∧ m = n := by
  obtain ⟨c, hc, hpc⟩ := hn
  unfold St.advance at hc
  by_cases hm : n = m
  · subst hm
    split at hc
    case h_1 => exact Or.inl ⟨c, hc, hpc⟩
    case h_2 d hd =>
      split at hc
      case h_1 hposted =>
        split_ifs at hc with hw hl
        · rw [call_setCall_self] at hc
          cases hc
          cases hpc
        · rw [call_setCall_self] at hc
          cases hc
          cases hpc
        · right
          refine ⟨?_, rfl⟩
          by_contra hidle
          exact hl (h.looping.2 hidle)
      case h_2 =>
        rw [call_setCall_self] at hc
        cases hc
        cases hpc
      all_goals exact Or.inl ⟨c, hc, hpc⟩
  · left
    refine ⟨c, ?_, hpc⟩
    repeat' split at hc
    all_goals first | exact hc | rwa [call_setCall_of_ne hm] at hc

theorem Inv.early_step (h : Inv s) (o : Op) {n : ℕ} (hn : (Wakeup.step s o).Early n) : s.Early n ∨ s.pc = .idle ∧ o = .call n := by
  cases o with
  | post kind is_wakeup => exact Or.inl (early_post hn)
  | call m =>
    rcases h.early_advance hn with hn | ⟨hidle, rfl⟩
    · exact Or.inl hn
    · exact Or.inr ⟨hidle, rfl⟩
  | stop k =>
    obtain ⟨c, hc, hpc⟩ := hn
    refine Or.inl ⟨c, ?_, hpc⟩
    simp only [Wakeup.step, St.stopStep] at hc
    repeat' split at hc
    all_goals exact hc
  | loop =>
    obtain ⟨c, hc, hpc⟩ := hn
    refine Or.inl ⟨c, ?_, hpc⟩
    simp only [Wakeup.step, St.loop] at hc
    repeat' split at hc
    all_goals exact hc
  | ready | error | callback =>
    obtain ⟨c, hc, hpc⟩ := hn
    refine Or.inl ⟨c, ?_, hpc⟩
    simp only [Wakeup.step] at hc
    split_ifs at hc <;> exact hc

theorem early_since {ops : List Op} {n : ℕ} (hn : n ∈ (run step init ops).pendingFds) (he : (run step init ops).Early n) :
    EarlySince ops n := by
  induction ops using List.reverseRecOn with
  | nil => simp [run, init, St.pendingFds] at hn
  | append_singleton ops o ih =>
    rw [run_concat] at hn he
    have hpend : n ∈ (run step init ops).pendingFds ∧ ((run step init ops).pc = .collect → o ≠ .loop) := by
      rcases pendingFds_step _ o hn with hn | ⟨c, hc, hpc⟩
      · exact hn
      · obtain ⟨d, hd, hd'⟩ := he
        rw [hc] at hd
        cases hd
        rw [hd'] at hpc
        simp at hpc
    rcases (inv_run ops).early_step o he with he | ⟨hidle, rfl⟩
    · obtain ⟨ops₁, ops₂, rfl, hidle, hn₁, halong⟩ := ih hpend.1 he
      refine ⟨ops₁, ops₂ ++ [o], by simp, hidle, hn₁, along_append.2 ⟨halong, ?_, trivial⟩⟩
      rw [← run_append]
      exact hpend.2
    · exact ⟨ops, [.call n], rfl, hidle, hpend.1, hpend.2, trivial⟩

/-- In every run, while the loop is blocked in epoll_wait with nothing written to its eventfd: no callback is queued, every
queued task is that of a call still to wake the loop or told not to, and a set `stop_flag_` is that of a call of `stop`
still to wake it. A descriptor may also be waiting since before the loop began, when epoll_wait has not come back yet: its
call found `looping_` false, and the loop takes descriptors only after epoll_wait. -/
theorem no_wakeup_lost (ops : List Op) (hb : (run step init ops).Blocked) :
    (∀ x ∈ (run step init ops).pending_tasks_, ∃ n, x = some n ∧ (run step init ops).Unannounced n) ∧
      (∀ n ∈ (run step init ops).pendingFds, (run step init ops).Unannounced n ∨ EarlySince ops n) ∧
      ((run step init ops).stop_flag_ = true → (run step init ops).StopInFlight) := by
  have h := inv_run ops
  obtain ⟨hpc, hwake⟩ := hb
  have hzero : ¬0 < (run step init ops).wake_fd_ := by simp [hwake]
  refine ⟨?_, ?_, ?_⟩
  · intro x hx
    obtain ⟨n, rfl, hn⟩ := h.tasks hpc x hx
    exact ⟨n, rfl, hn.resolve_right hzero⟩
  · intro n hn
    rcases h.fds (by simp [hpc]) (by simp [hpc]) n hn with hu | he | hw
    · exact Or.inl hu
    · exact Or.inr (early_since hn he)
    · exact absurd hw hzero
  · intro hf
    exact (h.stop (by simp [hpc, Pc.running]) hf).resolve_left hzero

/-- a descriptor added before the loop begins -/
theorem no_wakeup_lost_early :
    (run step init [.post (.addEvent 5) true, .call 0, .loop, .loop, .loop, .loop, .loop]).Blocked ∧
      ((run step init [.post (.addEvent 5) true, .call 0, .loop, .loop, .loop, .loop, .loop]).Unannounced 0 ∨
        EarlySince [.post (.addEvent 5) true, .call 0, .loop, .loop, .loop, .loop, .loop] 0) :=
  ⟨⟨rfl, rfl⟩,
    (no_wakeup_lost [.post (.addEvent 5) true, .call 0, .loop, .loop, .loop, .loop, .loop] ⟨rfl, rfl⟩).2.1 0 (by decide)⟩

/-! ## Which stops are missed -/

/-- in the loop, past `stop_flag_ = false` -/
def St.Inside (s : St) : Prop := s.pc ≠ .idle ∧ s.pc ≠ .reset

/-- the operations of the loop and of the kernel -/
def Op.own : Op → Bool
  | .loop | .ready | .error | .callback => true
  | .post _ _ | .call _ | .stop _ => false

/-- nothing but the reset takes back `stop_flag_` -/
theorem stop_flag_step (s : St) (o : Op) (hf : s.stop_flag_ = true) (ho : s.pc = .reset → o ≠ .loop) :
    (step s o).stop_flag_ = true := by
  cases o with
  | post kind is_wakeup =>
    simp only [step, St.post]
    split_ifs
    · exact hf
    · exact (enqueue_frame s s.calls kind).2.2.1.trans hf
  | call n =>
    simp only [step, St.advance]
    repeat' split
    all_goals exact hf
  | stop k =>
    simp only [step, St.stopStep]
    repeat' split
    all_goals first | exact hf | rfl
  | loop =>
    simp only [step, St.loop]
    repeat' split
    all_goals first | exact hf | exact absurd rfl (ho (by assumption))
  | ready | error | callback =>
    simp only [step]
    split_ifs <;> exact hf

/-- only the loop and the kernel move the loop -/
theorem pc_step (s : St) (o : Op) (ho : o.own = false) : (step s o).pc = s.pc := by
  cases o with
  | post kind is_wakeup =>
    simp only [step, St.post]
    split_ifs
    · rfl
    · exact (enqueue_frame s s.calls kind).1
  | call n =>
    simp only [step, St.advance]
    repeat' split
    all_goals rfl
  | stop k =>
    simp only [step, St.stopStep]
    repeat' split
    all_goals rfl
  | _ => cases ho

/-- from inside the loop a step stays inside or ends it -/
theorem inside_step (s : St) (o : Op) (hin : s.Inside) : (step s o).Inside ∨ (step s o).pc = .idle := by
  obtain ⟨hidle, hreset⟩ := hin
  have hkeep : (step s o).pc = s.pc → (step s o).Inside ∨ (step s o).pc = .idle := fun hpc =>
    Or.inl ⟨hpc ▸ hidle, hpc ▸ hreset⟩
  cases ho : o.own with
  | false => exact hkeep (pc_step s o ho)
  | true =>
    cases o with
    | loop =>
      simp only [step, St.loop, St.Inside] at hidle hreset ⊢
      repeat' split
      all_goals simp_all
    | ready | error =>
      simp only [step, St.Inside]
      split_ifs
      · simp
      · exact Or.inl ⟨hidle, hreset⟩
    | callback =>
      simp only [step, St.Inside]
      split_ifs <;> exact Or.inl ⟨hidle, hreset⟩
    | _ => cases ho

/-- A stop that is stored once the loop has reset its flag is not missed: whatever is posted, called, reported or timed out
afterwards, the flag stays set as long as the loop runs, and the loop is blocked only while a call of `stop` is still to
wake it. -/
theorem stop_not_missed (ops ops' : List Op) (hin : (run step init ops).Inside)
    (hf : (run step init ops).stop_flag_ = true)
    (hagain : Along step (fun s o => s.pc = .idle → o ≠ .loop) (run step init ops) ops') :
    Always step (fun s => s.pc ≠ .idle → s.stop_flag_ = true ∧ (s.Blocked → s.StopInFlight)) (run step init ops) ops' := by
  have hall : Always step (fun s => Inv s ∧ (s.Inside ∧ s.stop_flag_ = true ∨ s.pc = .idle)) (run step init ops) ops' := by
    refine always_of_inv (C := fun s o => s.pc = .idle → o ≠ .loop) ?_ ⟨inv_run ops, Or.inl ⟨hin, hf⟩⟩ hagain
    rintro s o ⟨h, hs⟩ ho
    refine ⟨h.step o, ?_⟩
    rcases hs with ⟨hin, hf⟩ | hidle
    · exact (inside_step s o hin).imp_left fun hin' => ⟨hin', stop_flag_step s o hf (fun hr => absurd hr hin.2)⟩
    · right
      cases hown : o.own with
      | false => rw [pc_step s o hown, hidle]
      | true =>
        cases o with
        | loop => exact absurd rfl (ho hidle)
        | ready | error | callback => simp [step, hidle]
        | _ => cases hown
  refine hall.mono ?_
  rintro s ⟨h, hs⟩ hidle
  obtain ⟨-, hf⟩ := hs.resolve_right hidle
  refine ⟨hf, ?_⟩
  intro hb
  exact (h.stop (by simp [hb.1, Pc.running]) hf).resolve_left (by simp [hb.2])

/-- another thread stops a loop that is about to block, and tasks are posted meanwhile -/
theorem stop_not_missed_posted :
    Along step (fun s o => s.pc = .idle → o ≠ .loop) (run step init [.loop, .loop, .loop, .stop 0, .stop 0, .stop 0])
        [.loop, .post (.task 2) true, .loop, .stop 0, .stop 0, .loop] ∧
      Always step (fun s => s.pc ≠ .idle → s.stop_flag_ = true ∧ (s.Blocked → s.StopInFlight))
        (run step init [.loop, .loop, .loop, .stop 0, .stop 0, .stop 0])
        [.loop, .post (.task 2) true, .loop, .stop 0, .stop 0, .loop] :=
  ⟨by decide,
    stop_not_missed [.loop, .loop, .loop, .stop 0, .stop 0, .stop 0]
      [.loop, .post (.task 2) true, .loop, .stop 0, .stop 0, .loop] ⟨by decide, by decide⟩ rfl (by decide)⟩

/-- how many steps of its own the loop takes at most before it returns, once a stop has been stored and has woken it -/
def St.rank (s : St) : ℕ :=
  match s.pc with
  | .idle | .reset => 0
  | .leave => 1
  | .head => 2
  | .collect => 3
  | .drain => if s.wake_fd_ = 0 then 4 else 5
  | .wait => 6
  | .clear => 7
  | .test i => 2 * (s.pending_tasks_.length - i) + 8
  | .exec i => 2 * (s.pending_tasks_.length - (i + 1)) + 9

/-- a stop that is stored, and has woken the loop where that may block -/
structure Stopping (s : St) : Prop where
  inside : s.Inside
  flag : s.stop_flag_ = true
  woken : s.pc.running = true → s.wake_fd_ ≠ 0

theorem Stopping.loop (h : Stopping s) :
    (s.loop.pc.running = true → s.loop.wake_fd_ ≠ 0) ∧ (s.loop.pc = .idle ∨ s.loop.rank + 1 ≤ s.rank) := by
  obtain ⟨⟨hidle, hreset⟩, hflag, hwoken⟩ := h
  cases hpc : s.pc with
  | idle => exact absurd hpc hidle
  | reset => exact absurd hpc hreset
  | head | collect | leave => simp [St.loop, hpc, hflag, Pc.running, St.rank]
  | clear | wait =>
    have hwake : s.wake_fd_ ≠ 0 := hwoken (by rw [hpc]; rfl)
    simp [St.loop, hpc, hwake, Pc.running, St.rank]
  | drain => by_cases hwake : s.wake_fd_ = 0 <;> simp [St.loop, hpc, hwake, Pc.running, St.rank]
  | test i =>
    have hwake : s.wake_fd_ ≠ 0 := hwoken (by rw [hpc]; rfl)
    by_cases hi : i < s.pending_tasks_.length
    · simp only [St.loop, hpc, if_pos hi, St.rank]
      exact ⟨fun _ => hwake, Or.inr (by omega)⟩
    · simp only [St.loop, hpc, if_neg hi, St.rank]
      exact ⟨fun _ => hwake, Or.inr (by omega)⟩
  | exec i =>
    have hwake : s.wake_fd_ ≠ 0 := hwoken (by rw [hpc]; rfl)
    simp only [St.loop, hpc, St.rank]
    exact ⟨fun _ => hwake, Or.inr le_rfl⟩

/-- epoll_wait returns, with events or with an error -/
theorem Stopping.left (h : Stopping s) (hpc : s.pc = .wait) {pc : Pc} (hleft : pc = .collect ∨ pc = .head) :
    Stopping { s with pc := pc } ∧ ({ s with pc := pc } : St).rank ≤ s.rank := by
  rcases hleft with rfl | rfl
  · exact ⟨⟨by simp [St.Inside], h.flag, by simp [Pc.running]⟩, by simp [St.rank, hpc]⟩
  · exact ⟨⟨by simp [St.Inside], h.flag, by simp [Pc.running]⟩, by simp [St.rank, hpc]⟩

/-- every step of the loop brings it nearer to its end, and the kernel does not take it back -/
theorem Stopping.step (h : Stopping s) {o : Op} (ho : o.own = true) :
    (o = .loop ∧ (Wakeup.step s o).pc = .idle) ∨
      Stopping (Wakeup.step s o) ∧ (Wakeup.step s o).rank + (if o = .loop then 1 else 0) ≤ s.rank := by
  cases o with
  | loop =>
    have hflag := stop_flag_step s .loop h.flag fun hr => absurd hr h.inside.2
    obtain ⟨hwoken, hrank⟩ := h.loop
    rcases inside_step s .loop h.inside with hin | hidle
    · exact Or.inr ⟨⟨hin, hflag, hwoken⟩, hrank.resolve_left hin.1⟩
    · exact Or.inl ⟨rfl, hidle⟩
  | ready =>
    right
    simp only [Wakeup.step, reduceCtorEq, if_false, Nat.add_zero]
    split_ifs with hpc
    · exact h.left hpc (Or.inl rfl)
    · exact ⟨h, le_rfl⟩
  | error =>
    right
    simp only [Wakeup.step, reduceCtorEq, if_false, Nat.add_zero]
    split_ifs with hpc
    · exact h.left hpc (Or.inr rfl)
    · exact ⟨h, le_rfl⟩
  | callback =>
    right
    simp only [Wakeup.step, reduceCtorEq, if_false, Nat.add_zero]
    split_ifs with hpc
    · exact ⟨⟨h.inside, h.flag, by simp [hpc, Pc.running]⟩, by simp [St.rank, hpc]⟩
    · exact ⟨h, le_rfl⟩
  | _ => cases ho

end TinyRpc.Net.Wakeup
