/-
TcpClient (net/tcp_client.cc): the retry loop of `sendAndRecv`, its exchange over the connection, and the destructor.

The answers of the hooks are inputs, one step each. `calls` lists what was called on the descriptor number, in order:
connect, read and write by the hooks, close by TcpConnection::clearClient and by the destructor. Between two calls of
`sendAndRecv` the caller writes to the out buffer and sets the number of retries.

Main result `closed_untouched_iff`: once clearClient has closed the socket nothing more is called on the descriptor, and
it is closed exactly once in the whole run, if and only if no read fails (with a positive descriptor), or one does and
`sendAndRecv` is not called with retries after it (with descriptor 0, which the destructor does not close).
-/
import Mathlib.Tactic
import TinyRpc.Core.Machine
import TinyRpc.Net.TcpConnection

namespace TinyRpc.Net.TcpClient

open TinyRpc.Core

/-- a system call on the client's descriptor -/
inductive Call
  | connect | read | write | close
deriving DecidableEq, Repr

/-- where control is: with the caller, or waiting for the answer of a hook -/
inductive Inside
  | none
  /-- in connect_hook, with `n` tries left -/
  | connecting (n : ℤ)
  | output
  | input
deriving DecidableEq, Repr

structure St where
  conn : TcpConnection
  max_retry_ : ℤ
  inside : Inside
  calls : List Call
deriving DecidableEq, Repr

inductive Op
  | sendAndRecv
  /-- the answer of `connect_hook` -/
  | connectHook (rt : ℤ)
  /-- the answer of `write_hook` -/
  | writeHook (rt : ℤ)
  /-- the answer of `read_hook` -/
  | readHook (r : ReadResult)
  /-- writeToBuffer on the out buffer -/
  | writeToBuffer (buf : List Byte)
  | setTryCounts (v : ℤ)
deriving DecidableEq, Repr

/-- the constructor, with a connection of its own -/
def init : St :=
  ⟨⟨.NotConnected, .ClientConnection, TcpBuffer.make 128, TcpBuffer.make 128, false, false, []⟩, 3, .none, []⟩

def setUpClient (c : TcpConnection) : TcpConnection := { c with state_ := .Connected }

namespace St

/-- the call of `input`; execute and what follows it do nothing on the descriptor -/
def enterInput (s : St) : St :=
  if s.conn.state_ = .Closed ∨ s.conn.state_ = .NotConnected then { s with inside := .none }
  else { s with inside := .input, calls := s.calls ++ [.read] }

/-- the head of output's loop -/
def enterOutput (s : St) : St :=
  if s.conn.state_ = .Connected ∧ s.conn.write_buffer_.readAble ≠ 0 then
    { s with inside := .output, calls := s.calls ++ [.write] }
  else s.enterInput

/-- `sendAndRecv` behind its retry loop -/
def exchange (s : St) : St :=
  if s.conn.state_ ≠ .Connected then { s with inside := .none }
  else { s with conn := setUpClient s.conn }.enterOutput

/-- the head of the retry loop -/
def retry (s : St) (n : ℤ) : St :=
  if n > 0 then { s with inside := .connecting n, calls := s.calls ++ [.connect] } else s.exchange

/-- the calls of close between two states of the connection -/
def closes (c c' : TcpConnection) : List Call := List.replicate (c'.effects.count .close - c.effects.count .close) .close

/-- the destructor -/
def destroy (fd_ : ℤ) (s : St) : St := if fd_ > 0 then { s with calls := s.calls ++ [.close] } else s

end St

/-- an answer without its call, or a call while another is in progress, changes nothing -/
def step (s : St) (o : Op) : St :=
  match s.inside, o with
  | .none, .sendAndRecv => if s.conn.state_ ≠ .Connected then s.retry s.max_retry_ else s.exchange
  | .connecting n, .connectHook rt =>
    if rt = 0 then { s with conn := setUpClient s.conn }.exchange else s.retry (n - 1)
  | .output, .writeHook rt =>
    let (c, pc) := Output.iterate s.conn rt
    if pc = .returned then { s with conn := c }.enterInput else { s with conn := c }.enterOutput
  | .input, .readHook r =>
    let (c, pc) := Input.iterate s.conn r
    let calls := s.calls ++ St.closes s.conn c
    if pc = .returned then { s with conn := c, inside := .none, calls := calls }
    else { s with conn := c, calls := calls ++ [.read] }
  | .none, .writeToBuffer buf => { s with conn := s.conn.written buf }
  | .none, .setTryCounts v => { s with max_retry_ := v }
  | _, _ => s

/-! ## What a closed connection is left with -/

/-- on a connection that is Closed, the operation leaves it Closed and calls nothing -/
def StaysClosed (s : St) (o : Op) : Prop :=
  s.conn.state_ = .Closed → (step s o).conn.state_ = .Closed ∧ (step s o).calls = s.calls

/-- a run and the destruction behind it: once closed, the descriptor is left alone, and it is closed exactly once -/
structure ClosedOnce (fd_ : ℤ) (ops : List Op) : Prop where
  untouched : Along step StaysClosed init ops
  destructor : (run step init ops).conn.state_ = .Closed →
    ((run step init ops).destroy fd_).calls = (run step init ops).calls
  once : ((run step init ops).destroy fd_).calls.count .close = 1

/-- a read that is waited for does not answer 0 or -1 -/
def PeerOpen (s : St) : Op → Prop
  | .readHook r => s.inside = .input → 0 < r.rt
  | _ => True

/-- `sendAndRecv` is not called on a Closed connection with tries to make -/
def NoReconnect (s : St) : Op → Prop
  | .sendAndRecv => s.inside = .none → s.conn.state_ = .Closed → s.max_retry_ ≤ 0
  | _ => True

/-! ## One step -/

/-- nothing is closed between the two states, and a connection that waits for a read is not Closed -/
structure Calm (s t : St) : Prop where
  calls : ∃ l, t.calls = s.calls ++ l ∧ .close ∉ l
  state : s.conn.state_ ≠ .Closed → t.conn.state_ ≠ .Closed
  input : t.inside = .input → t.conn.state_ ≠ .Closed

variable {s t : St} {o : Op} {fd_ : ℤ}

theorem Calm.refl (h : s.inside = .input → s.conn.state_ ≠ .Closed) : Calm s s :=
  ⟨⟨[], (List.append_nil _).symm, List.not_mem_nil⟩, id, h⟩

theorem Calm.of_conn {c : TcpConnection} (h : Calm { s with conn := c } t)
    (hc : s.conn.state_ ≠ .Closed → c.state_ ≠ .Closed) : Calm s t :=
  ⟨h.calls, fun hs => h.state (hc hs), h.input⟩

theorem enterInput_calm (s : St) : Calm s s.enterInput := by
  unfold St.enterInput
  split_ifs with hstate
  · refine ⟨⟨[], (List.append_nil _).symm, List.not_mem_nil⟩, id, ?_⟩
    intro hin
    exact Inside.noConfusion hin
  · exact ⟨⟨[.read], rfl, by decide⟩, id, fun _ hc => hstate (Or.inl hc)⟩

theorem enterOutput_calm (s : St) : Calm s s.enterOutput := by
  unfold St.enterOutput
  split_ifs
  · refine ⟨⟨[.write], rfl, by decide⟩, id, ?_⟩
    intro hin
    exact Inside.noConfusion hin
  · exact enterInput_calm s

theorem exchange_calm (s : St) : Calm s s.exchange := by
  unfold St.exchange
  split_ifs
  · refine ⟨⟨[], (List.append_nil _).symm, List.not_mem_nil⟩, id, ?_⟩
    intro hin
    exact Inside.noConfusion hin
  · exact (enterOutput_calm _).of_conn fun _ => by simp [setUpClient]

theorem retry_calm (s : St) (n : ℤ) : Calm s (s.retry n) := by
  unfold St.retry
  split_ifs
  · refine ⟨⟨[.connect], rfl, by decide⟩, id, ?_⟩
    intro hin
    exact Inside.noConfusion hin
  · exact exchange_calm s

theorem output_iterate_state (c : TcpConnection) (rt : ℤ) : (Output.iterate c rt).1.state_ = c.state_ := by
  unfold Output.iterate
  dsimp only
  split_ifs <;> rfl

/-- a read with an answer above 0 keeps the state of the connection and closes nothing -/
theorem input_iterate_open (c : TcpConnection) {r : ReadResult} (hr : 0 < r.rt) :
    (Input.iterate c r).1.state_ = c.state_ ∧ St.closes c (Input.iterate c r).1 = [] := by
  unfold Input.iterate St.closes TcpConnection.freshSlot
  dsimp only
  rw [if_neg (not_le.2 hr)]
  split_ifs <;> simp

/-- a read that fails closes the connection -/
theorem input_iterate_failed {c : TcpConnection} (hc : c.state_ ≠ .Closed) {r : ReadResult} (hr : r.rt ≤ 0) :
    (Input.iterate c r).1.state_ = .Closed ∧ (Input.iterate c r).2 = .returned ∧
      St.closes c (Input.iterate c r).1 = [.close] := by
  simp [Input.iterate, St.closes, TcpConnection.clearClient, hr, hc]

theorem step_calm (h : s.inside = .input → s.conn.state_ ≠ .Closed) (ho : PeerOpen s o) : Calm s (step s o) := by
  unfold step
  split
  · -- sendAndRecv
    split_ifs
    · exact retry_calm s _
    · exact exchange_calm s
  · -- the answer of connect_hook
    split_ifs
    · exact (exchange_calm _).of_conn fun _ => by simp [setUpClient]
    · exact retry_calm s _
  · -- the answer of write_hook
    have hstate := output_iterate_state s.conn
    dsimp only
    split_ifs
    · exact (enterInput_calm _).of_conn fun hs => by rwa [hstate]
    · exact (enterOutput_calm _).of_conn fun hs => by rwa [hstate]
  · -- the answer of read_hook
    rename_i r hin
    obtain ⟨hstate, hcloses⟩ := input_iterate_open s.conn (ho hin)
    dsimp only
    split_ifs
    · refine ⟨⟨[], by rw [hcloses], List.not_mem_nil⟩, fun hs => hstate ▸ hs, ?_⟩
      intro hin'
      exact Inside.noConfusion hin'
    · refine ⟨⟨[.read], by rw [hcloses, List.append_nil], by decide⟩, fun hs => hstate ▸ hs, ?_⟩
      intro _
      exact hstate ▸ h hin
  · exact ⟨⟨[], (List.append_nil _).symm, List.not_mem_nil⟩, id, h⟩
  · exact ⟨⟨[], (List.append_nil _).symm, List.not_mem_nil⟩, id, h⟩
  · exact Calm.refl h

theorem step_failed (h : s.inside = .input → s.conn.state_ ≠ .Closed) (ho : ¬ PeerOpen s o) :
    (step s o).conn.state_ = .Closed ∧ (step s o).inside = .none ∧ (step s o).calls = s.calls ++ [.close] := by
  cases o with
  | readHook r =>
    have hin : s.inside = .input := by
      by_contra hne
      exact ho fun hin => absurd hin hne
    have hr : r.rt ≤ 0 := by
      by_contra hpos
      exact ho fun _ => not_le.1 hpos
    obtain ⟨hstate, hpc, hcloses⟩ := input_iterate_failed (h hin) hr
    simp only [step, hin, hpc, if_true]
    exact ⟨hstate, trivial, by rw [hcloses]⟩
  | sendAndRecv | connectHook _ | writeHook _ | writeToBuffer _ | setTryCounts _ => exact absurd trivial ho

/-- a Closed connection that nothing waits on stays so, with no call, unless it is to reconnect -/
theorem step_closed (hc : s.conn.state_ = .Closed) (hi : s.inside = .none) (ho : NoReconnect s o) :
    (step s o).conn.state_ = .Closed ∧ (step s o).inside = .none ∧ (step s o).calls = s.calls := by
  cases o with
  | sendAndRecv =>
    have hretry : ¬ s.max_retry_ > 0 := not_lt.2 (ho hi hc)
    simp [step, hi, hc, St.retry, hretry, St.exchange]
  | writeToBuffer buf =>
    simp only [step, hi]
    exact ⟨hc, trivial, trivial⟩
  | setTryCounts v =>
    simp only [step, hi]
    exact ⟨hc, trivial, trivial⟩
  | connectHook rt | writeHook rt | readHook r =>
    simp only [step, hi]
    exact ⟨hc, trivial, trivial⟩

/-- sendAndRecv with retries calls connect on the closed descriptor -/
theorem reconnect_calls (ho : ¬ NoReconnect s o) : ¬ StaysClosed s o := by
  cases o with
  | sendAndRecv =>
    simp only [NoReconnect, not_forall, not_le] at ho
    obtain ⟨hi, hc, hretry⟩ := ho
    intro hstays
    have hcalls := (hstays hc).2
    simp [step, hi, hc, St.retry, hretry] at hcalls
  | connectHook _ | writeHook _ | readHook _ | writeToBuffer _ | setTryCounts _ => exact absurd trivial ho

/-! ## Whole runs -/

/-- nothing closed yet -/
structure Fresh (s : St) : Prop where
  state : s.conn.state_ ≠ .Closed
  none : .close ∉ s.calls

/-- closed once, and left alone -/
structure Done (s : St) : Prop where
  state : s.conn.state_ = .Closed
  idle : s.inside = .none
  once : s.calls.count .close = 1

theorem Fresh.keeps (h : Fresh s) (ho : PeerOpen s o) : Fresh (step s o) := by
  obtain ⟨⟨l, hl, hnot⟩, hstate, -⟩ := step_calm (fun _ => h.state) ho
  refine ⟨hstate h.state, ?_⟩
  rw [hl, List.mem_append]
  intro hmem
  rcases hmem with hmem | hmem
  · exact h.none hmem
  · exact hnot hmem

theorem Fresh.fail (h : Fresh s) (ho : ¬ PeerOpen s o) : Done (step s o) := by
  obtain ⟨hstate, hinside, hcalls⟩ := step_failed (fun _ => h.state) ho
  refine ⟨hstate, hinside, ?_⟩
  rw [hcalls, List.count_append, List.count_eq_zero_of_not_mem h.none]
  rfl

theorem Done.keeps (h : Done s) (ho : NoReconnect s o) : Done (step s o) := by
  obtain ⟨hstate, hinside, hcalls⟩ := step_closed h.state h.idle ho
  exact ⟨hstate, hinside, hcalls ▸ h.once⟩

theorem init_fresh : Fresh init := ⟨by simp [init], List.not_mem_nil⟩

theorem step_once (h : Fresh s ∨ Done s) (ho : NoReconnect s o) :
    StaysClosed s o ∧ (Fresh (step s o) ∨ Done (step s o)) := by
  rcases h with h | h
  · refine ⟨fun hc => absurd hc h.state, ?_⟩
    by_cases hp : PeerOpen s o
    · exact Or.inl (h.keeps hp)
    · exact Or.inr (h.fail hp)
  · refine ⟨?_, Or.inr (h.keeps ho)⟩
    intro _
    obtain ⟨hstate, -, hcalls⟩ := step_closed h.state h.idle ho
    exact ⟨hstate, hcalls⟩

/-- a closed descriptor is left alone exactly when no call of sendAndRecv reconnects -/
theorem untouched_iff (ops : List Op) : Along step StaysClosed init ops ↔ Along step NoReconnect init ops := by
  refine ⟨Along.mono fun s o hs => ?_, ?_⟩
  · by_contra ho
    exact reconnect_calls ho hs
  · intro h
    have hstep : ∀ s o, (Fresh s ∨ Done s) → NoReconnect s o → StaysClosed s o ∧ (Fresh (step s o) ∨ Done (step s o)) :=
      fun s o hs ho => step_once hs ho
    exact along_of_inv hstep (Or.inl init_fresh) h

/-- a run without a failed read closes nothing -/
theorem fresh_run {ops : List Op} (hp : Along step PeerOpen init ops) : Fresh (run step init ops) :=
  (always_of_inv (fun _ _ hs ho => Fresh.keeps hs ho) init_fresh hp).last

/-- a run with one closes the descriptor once, unless it reconnects -/
theorem done_run {ops : List Op} (h : Fresh s) (hp : ¬ Along step PeerOpen s ops) (hn : Along step NoReconnect s ops) :
    Done (run step s ops) := by
  induction ops generalizing s with
  | nil => exact absurd trivial hp
  | cons o ops ih =>
    by_cases ho : PeerOpen s o
    · exact ih (h.keeps ho) (fun hall => hp ⟨ho, hall⟩) hn.2
    · exact (always_of_inv (fun _ _ hs ho => Done.keeps hs ho) (h.fail ho) hn.2).last

/-- **The client's descriptor.** For every run of calls of sendAndRecv with any answers of the hooks, and the
destruction of the client: once clearClient has closed the descriptor the connection stays Closed and nothing more is
called on the descriptor, and it is closed exactly once, if and only if no read answers 0 or -1, for a descriptor above
0; for descriptor 0, if and only if one does and sendAndRecv is not called on the Closed connection with retries left.
-/
theorem closed_untouched_iff (fd_ : ℤ) (ops : List Op) : ClosedOnce fd_ ops ↔
    if fd_ > 0 then Along step PeerOpen init ops
    else ¬ Along step PeerOpen init ops ∧ Along step NoReconnect init ops := by
  by_cases hfd : fd_ > 0
  · rw [if_pos hfd]
    have hdestroy : ((run step init ops).destroy fd_).calls = (run step init ops).calls ++ [.close] := by
      simp only [St.destroy, if_pos hfd]
    refine ⟨?_, ?_⟩
    · intro h
      by_contra hp
      have hdone := done_run init_fresh hp ((untouched_iff ops).1 h.untouched)
      have hsame := h.destructor hdone.state
      rw [hdestroy] at hsame
      simp at hsame
    · intro hp
      have hfresh := fresh_run hp
      have hstep : ∀ s o, Fresh s → PeerOpen s o → StaysClosed s o ∧ Fresh (step s o) :=
        fun s o hs ho => ⟨fun hc => absurd hc hs.state, hs.keeps ho⟩
      refine ⟨along_of_inv hstep init_fresh hp, fun hc => absurd hc hfresh.state, ?_⟩
      rw [hdestroy, List.count_append, List.count_eq_zero_of_not_mem hfresh.none]
      rfl
  · rw [if_neg hfd]
    have hdestroy : (run step init ops).destroy fd_ = run step init ops := by simp only [St.destroy, if_neg hfd]
    refine ⟨?_, ?_⟩
    · intro h
      refine ⟨?_, (untouched_iff ops).1 h.untouched⟩
      intro hp
      have hzero := List.count_eq_zero_of_not_mem (fresh_run hp).none
      have hone := h.once
      rw [hdestroy, hzero] at hone
      exact absurd hone (by decide)
    · intro h
      have hdone := done_run init_fresh h.1 h.2
      refine ⟨(untouched_iff ops).2 h.2, fun _ => by rw [hdestroy], ?_⟩
      rw [hdestroy]
      exact hdone.once

/-- connect, send one byte, and the peer closes before it answers -/
def peerCloses : List Op :=
  [.writeToBuffer [1], .sendAndRecv, .connectHook 0, .writeHook 1, .readHook (.data [])]

/-- The destructor closes descriptor 5 a second time, and another call of sendAndRecv connects on it. -/
theorem closed_again :
    ((run step init peerCloses).destroy 5).calls = [.connect, .write, .read, .close, .close] ∧
    (run step init (peerCloses ++ [.sendAndRecv])).calls = [.connect, .write, .read, .close, .connect] ∧
    ¬ ClosedOnce 5 peerCloses := by
  have hcalls : ((run step init peerCloses).destroy 5).calls = [.connect, .write, .read, .close, .close] := by
    decide +kernel
  refine ⟨hcalls, by decide +kernel, ?_⟩
  intro h
  have honce := h.once
  rw [hcalls] at honce
  exact absurd honce (by decide)

end TinyRpc.Net.TcpClient
