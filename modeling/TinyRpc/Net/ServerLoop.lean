/-
The coroutine of a server connection (net/tcp_connection.cc: MainServerLoopCorFunc; net/io_thread.cc: addClient,
MainLoopTimerFunc).

The coroutine calls `input`, `rcb_`, `wcb_` and `output` in turn until `stop_` is set. It is suspended in the hooks of
`input` and `output`, and wherever a callback calls a hook; there the reactor's other tasks run. The time wheel may then
shut the connection down, and the thread's timer, or addClient for a new descriptor of the same number, drops a Closed
connection from `clients_`. The coroutine has no reference of its own: during a callback the connection is there for
`shared_from_this()`, and otherwise for `clients_` alone.

addClient has the calls of OnRead and OnWrite commented out, so `rcb_` and `wcb_` are empty unless somebody else sets them;
calling an empty one throws. Callbacks read and write the buffers; that they keep a pointer to the connection is left out,
and so is a call of setUpClient, which is for clients.

- `server_loop_sound`: the loop calls no hook of a Closed connection, waits for input only with nothing left to send, closes
  once, and ends only Closed.
- `closed_loop_ends`: a Closed connection's loop ends with the callbacks it is in.
- `outlives_iff`: the coroutine comes back to a connection that is gone exactly if it was dropped during a callback.
- `unset_throws`: without OnRead, the end of the first `input` is the end of the coroutine.
-/
import Mathlib.Tactic
import TinyRpc.Core.Machine
import TinyRpc.Net.TcpBuffer
import TinyRpc.Net.TcpConnection
import TinyRpc.Net.TcpSession

namespace TinyRpc.Net.ServerLoop

open TinyRpc.Core

/-! ## Model -/

/-- where the coroutine is -/
inductive Pc
  /-- still a task of the reactor -/
  | made
  /-- in the read_hook of `input` -/
  | input
  | rcb
  | wcb
  /-- in the write_hook of `output` -/
  | output
  | returned
  /-- std::bad_function_call has left its function -/
  | thrown
  /-- back in a connection that is destroyed -/
  | undefined
  deriving DecidableEq

structure St where
  conn : TcpConnection
  pc : Pc
  /-- is a function set? -/
  rcb_ : Bool
  wcb_ : Bool
  /-- does `clients_` refer to the connection? -/
  held : Bool

inductive Op
  /-- the reactor's task resumes the coroutine -/
  | start
  /-- the answer of `read_hook` -/
  | readHook (r : ReadResult)
  /-- the answer of `write_hook` -/
  | writeHook (rt : ℤ)
  | callbackReturns
  /-- writeToBuffer by a callback, on the out buffer -/
  | writeToBuffer (buf : List Byte)
  /-- readFromBuffer by a callback, on the in buffer -/
  | readFromBuffer (size : ℕ)
  /-- by the time wheel or a callback -/
  | shutdownConnection
  /-- MainLoopTimerFunc, or addClient for the same number -/
  | drop
  | OnRead
  | OnWrite
  deriving DecidableEq

namespace St

def inCallback (s : St) : Prop := s.pc = .rcb ∨ s.pc = .wcb

instance (s : St) : Decidable s.inCallback := inferInstanceAs (Decidable (_ ∨ _))

/-- is the connection there, and the process? -/
def alive (s : St) : Prop := (s.held = true ∨ s.inCallback) ∧ s.pc ≠ .thrown

instance (s : St) : Decidable s.alive := inferInstanceAs (Decidable (_ ∧ _))

def callRcb (s : St) : St := { s with pc := if s.rcb_ then .rcb else .thrown }

def callWcb (s : St) : St := { s with pc := if s.wcb_ then .wcb else .thrown }

/-- `while (!stop_)`, then `input` up to its hook -/
def head (s : St) : St :=
  if s.conn.stop_ then { s with pc := .returned }
  else if s.conn.state_ = .Closed ∨ s.conn.state_ = .NotConnected then s.callRcb
  else { s with pc := .input }

/-- the head of output's loop -/
def outputHead (s : St) : St :=
  if s.conn.state_ = .Connected ∧ s.conn.write_buffer_.readAble ≠ 0 then { s with pc := .output } else s.head

def readBack (s : St) (r : ReadResult) : St :=
  let (c, pc) := Input.iterate s.conn r
  if pc = .returned then callRcb { s with conn := c } else { s with conn := c }

def writeBack (s : St) (rt : ℤ) : St :=
  let (c, pc) := Output.iterate s.conn rt
  if pc = .returned then head { s with conn := c } else outputHead { s with conn := c }

/-- `shared_from_this()` is over, and then the next thing is done with the connection -/
def callbackReturns (s : St) : St :=
  if s.inCallback then
    if s.held then if s.pc = .rcb then s.callWcb else s.outputHead
    else { s with pc := .undefined }
  else s

end St

def step (s : St) : Op → St
  | .start => if s.pc = .made then s.head else s
  | .readHook r => if s.pc = .input then s.readBack r else s
  | .writeHook rt => if s.pc = .output then s.writeBack rt else s
  | .callbackReturns => s.callbackReturns
  | .writeToBuffer buf => if s.inCallback then { s with conn := s.conn.written buf } else s
  | .readFromBuffer size =>
    if s.inCallback then
      { s with conn := { s.conn with read_buffer_ := (s.conn.read_buffer_.readFromBuffer size).2 } }
    else s
  | .shutdownConnection => if s.alive then { s with conn := s.conn.shutdownConnection } else s
  | .drop => if s.conn.state_ = .Closed then { s with held := false } else s
  | .OnRead => if s.alive then { s with rcb_ := true } else s
  | .OnWrite => if s.alive then { s with wcb_ := true } else s

/-- as addClient makes it -/
def init (size : ℕ) : St := { conn := accepted size, pc := .made, rcb_ := false, wcb_ := false, held := true }

/-! ## The connection -/

/-- a server connection is never not connected; `stop_` is for Closed, and it is closed once -/
structure ConnOk (c : TcpConnection) : Prop where
  connected : c.state_ ≠ .NotConnected
  stopped : c.stop_ = true ↔ c.state_ = .Closed
  closed : c.effects.count .close = if c.state_ = .Closed then 1 else 0

variable {c : TcpConnection} {s : St} {size : ℕ}

/-- `input` closes the connection or leaves its state, and returns when it closes -/
theorem input_state (h : c.state_ ≠ .Closed) (r : ReadResult) :
    (Input.iterate c r).1.state_ = c.state_ ∨
      (Input.iterate c r).1.state_ = .Closed ∧ (Input.iterate c r).2 = .returned := by
  unfold Input.iterate TcpConnection.clearClient TcpConnection.freshSlot
  dsimp only
  split_ifs <;> simp_all

theorem ConnOk.input (h : ConnOk c) (hopen : c.state_ ≠ .Closed) (r : ReadResult) : ConnOk (Input.iterate c r).1 := by
  obtain ⟨hconnected, hstopped, hclosed⟩ := h
  rw [if_neg hopen] at hclosed
  unfold Input.iterate TcpConnection.clearClient TcpConnection.freshSlot
  dsimp only
  split_ifs
  · exact ⟨by simp, by simp, by simp [hclosed]⟩
  · exact ⟨hconnected, hstopped, by rw [if_neg hopen]; exact hclosed⟩
  · exact ⟨hconnected, hstopped, by simp [hopen, hclosed]⟩
  · exact ⟨hconnected, hstopped, by rw [if_neg hopen]; exact hclosed⟩
  · exact ⟨hconnected, hstopped, by rw [if_neg hopen]; exact hclosed⟩

theorem output_state (c : TcpConnection) (rt : ℤ) :
    (Output.iterate c rt).1.state_ = c.state_ ∧ (Output.iterate c rt).1.stop_ = c.stop_ ∧
      (Output.iterate c rt).1.effects.count .close = c.effects.count .close ∧
      ((Output.iterate c rt).2 = .returned → (Output.iterate c rt).1.write_buffer_.readAble ≤ 0) := by
  unfold Output.iterate
  dsimp only
  split_ifs with hsent
  · exact ⟨rfl, rfl, by simp, fun _ => hsent⟩
  · exact ⟨rfl, rfl, rfl, nofun⟩

theorem ConnOk.output (h : ConnOk c) (rt : ℤ) : ConnOk (Output.iterate c rt).1 := by
  obtain ⟨hstate, hstop, hcount, -⟩ := output_state c rt
  exact ⟨by rw [hstate]; exact h.connected, by rw [hstate, hstop]; exact h.stopped, by rw [hstate, hcount]; exact h.closed⟩

theorem shutdown_state (c : TcpConnection) :
    c.shutdownConnection = c ∨ c.state_ ≠ .Closed ∧ c.shutdownConnection.state_ = .HalfClosing := by
  unfold TcpConnection.shutdownConnection
  split_ifs with h
  · exact Or.inl rfl
  · exact Or.inr ⟨fun hc => h (Or.inl hc), rfl⟩

theorem ConnOk.shutdown (h : ConnOk c) : ConnOk c.shutdownConnection := by
  obtain ⟨hconnected, hstopped, hclosed⟩ := h
  unfold TcpConnection.shutdownConnection
  split_ifs with hdone
  · exact ⟨hconnected, hstopped, hclosed⟩
  · have hopen : c.state_ ≠ .Closed := fun hc => hdone (Or.inl hc)
    rw [if_neg hopen] at hclosed
    refine ⟨by simp, ?_, by simp [hclosed]⟩
    exact iff_of_false (mt hstopped.1 hopen) (by simp)

/-! ## The loop -/

structure Sound (s : St) : Prop where
  conn : ConnOk s.conn
  /-- no hook is called once the descriptor is closed -/
  hooks : s.pc = .made ∨ s.pc = .input ∨ s.pc = .output → s.conn.state_ ≠ .Closed
  /-- all that is written is sent before the next input -/
  answered : s.pc = .made ∨ s.pc = .input → s.conn.state_ = .Connected → s.conn.write_buffer_.readAble ≤ 0
  ended : s.pc = .returned → s.conn.state_ = .Closed
  held : s.held = false → s.conn.state_ = .Closed

/-- what does not depend on where the coroutine is -/
structure Base (s : St) : Prop where
  conn : ConnOk s.conn
  held : s.held = false → s.conn.state_ = .Closed

theorem Sound.base (h : Sound s) : Base s := ⟨h.conn, h.held⟩

theorem Base.callRcb (h : Base s) : Sound s.callRcb := by
  unfold St.callRcb
  split_ifs <;> exact ⟨h.conn, by simp, by simp, by simp, h.held⟩

theorem Base.callWcb (h : Base s) : Sound s.callWcb := by
  unfold St.callWcb
  split_ifs <;> exact ⟨h.conn, by simp, by simp, by simp, h.held⟩

theorem Base.head (h : Base s) (hsent : s.conn.state_ = .Connected → s.conn.write_buffer_.readAble ≤ 0) : Sound s.head := by
  unfold St.head
  split_ifs with hstop hstate
  · exact ⟨h.conn, by simp, by simp, fun _ => h.conn.stopped.1 hstop, h.held⟩
  · exact h.callRcb
  · exact ⟨h.conn, fun _ hc => hstate (Or.inl hc), fun _ => hsent, by simp, h.held⟩

theorem Base.outputHead (h : Base s) : Sound s.outputHead := by
  unfold St.outputHead
  split_ifs with hmore
  · exact ⟨h.conn, by simp [hmore.1], by simp, by simp, h.held⟩
  · refine h.head fun hc => ?_
    have hnone : s.conn.write_buffer_.readAble = 0 := by
      by_contra hne
      exact hmore ⟨hc, hne⟩
    exact hnone.le

theorem Sound.readBack (h : Sound s) (hpc : s.pc = .input) (r : ReadResult) : Sound (s.readBack r) := by
  have hopen := h.hooks (Or.inr (Or.inl hpc))
  have hheld : s.held = false → (Input.iterate s.conn r).1.state_ = .Closed := fun hh => absurd (h.held hh) hopen
  have hbase : Base { s with conn := (Input.iterate s.conn r).1 } := ⟨h.conn.input hopen r, hheld⟩
  unfold St.readBack
  dsimp only
  split_ifs with hreturned
  · exact hbase.callRcb
  · have hstate := (input_state hopen r).resolve_right fun hc => hreturned hc.2
    refine ⟨hbase.conn, fun _ => ?_, fun _ hc => ?_, fun hr => ?_, hheld⟩
    · rw [hstate]
      exact hopen
    · show (Input.iterate s.conn r).1.write_buffer_.readAble ≤ 0
      rw [TcpSession.iterate_write_buffer]
      exact h.answered (Or.inr hpc) (hstate ▸ hc)
    · cases hpc.symm.trans hr

theorem Sound.writeBack (h : Sound s) (rt : ℤ) : Sound (s.writeBack rt) := by
  obtain ⟨hstate, -, -, hsent⟩ := output_state s.conn rt
  have hbase : Base { s with conn := (Output.iterate s.conn rt).1 } :=
    ⟨h.conn.output rt, fun hh => hstate.trans (h.held hh)⟩
  unfold St.writeBack
  dsimp only
  split_ifs with hreturned
  · exact hbase.head fun _ => hsent hreturned
  · exact hbase.outputHead

theorem Sound.callbackReturns (h : Sound s) : Sound s.callbackReturns := by
  unfold St.callbackReturns
  split_ifs
  · exact h.base.callWcb
  · exact h.base.outputHead
  · exact ⟨h.conn, by simp, by simp, by simp, h.held⟩
  · exact h

theorem Sound.shutdownConnection (h : Sound s) : Sound { s with conn := s.conn.shutdownConnection } := by
  rcases shutdown_state s.conn with heq | ⟨hopen, hstate⟩
  · rwa [heq]
  · refine ⟨h.conn.shutdown, fun _ => ?_, fun _ hc => ?_, fun hr => ?_, fun hh => ?_⟩
    · rw [hstate]
      decide
    · cases hstate.symm.trans hc
    · exact absurd (h.ended hr) hopen
    · exact absurd (h.held hh) hopen

/-- a callback changes buffers only -/
theorem Sound.buffers (h : Sound s) (hin : s.inCallback) (b b' : TcpBuffer) :
    Sound { s with conn := { s.conn with read_buffer_ := b, write_buffer_ := b' } } := by
  refine ⟨⟨h.conn.connected, h.conn.stopped, h.conn.closed⟩, h.hooks, fun hpc => ?_, h.ended, h.held⟩
  rcases hin with hin | hin <;> simp [hin] at hpc

/-- an operation that is not possible changes nothing -/
theorem Sound.ite (h : Sound s) {p : Prop} [Decidable p] {t : St} (ht : p → Sound t) : Sound (if p then t else s) := by
  split_ifs with hp
  · exact ht hp
  · exact h

theorem Sound.step (h : Sound s) (o : Op) : Sound (step s o) := by
  cases o with
  | start => exact h.ite fun hpc => h.base.head (h.answered (Or.inl hpc))
  | readHook r => exact h.ite fun hpc => h.readBack hpc r
  | writeHook rt => exact h.ite fun _ => h.writeBack rt
  | callbackReturns => exact h.callbackReturns
  | writeToBuffer buf => exact h.ite fun hin => h.buffers hin _ _
  | readFromBuffer size => exact h.ite fun hin => h.buffers hin _ _
  | shutdownConnection => exact h.ite fun _ => h.shutdownConnection
  | drop => exact h.ite fun hclosed => ⟨h.conn, h.hooks, h.answered, h.ended, fun _ => hclosed⟩
  | OnRead | OnWrite => exact h.ite fun _ => ⟨h.conn, h.hooks, h.answered, h.ended, h.held⟩

theorem init_sound (size : ℕ) : Sound (init size) where
  conn := ⟨by simp [init, accepted], by simp [init, accepted], by simp [init, accepted]⟩
  hooks _ := by simp [init, accepted]
  answered _ _ := le_rfl
  ended h := by cases h
  held h := by cases h

/-- **The loop of a server connection.** In every run, whatever the hooks answer, the callbacks do and the time wheel and the
timer come upon: the coroutine is in a hook of an open descriptor only; it waits for input on a connection that is not shut
down only when nothing written is left to send; the descriptor is closed once, together with `stop_`, and not before the
connection is Closed; the coroutine's function returns only then, and `clients_` keeps the connection until then. -/
theorem server_loop_sound (size : ℕ) (ops : List Op) : Always step Sound (init size) ops :=
  always_of_inv (fun _ o h _ => h.step o) (init_sound size) (along_of_mem fun _ _ _ => trivial)

/-! ## The end -/

/-- the callbacks still to return once the connection is Closed -/
def Pc.left : Pc → ℕ
  | .rcb => 2
  | .wcb => 1
  | _ => 0

def Op.isReturn : Op → Bool
  | .callbackReturns => true
  | _ => false

/-- only the return of a callback moves the coroutine then -/
theorem closed_other (h : Sound s) (hclosed : s.conn.state_ = .Closed) {o : Op} (ho : o.isReturn = false) :
    (step s o).conn.state_ = .Closed ∧ (step s o).pc = s.pc := by
  have hnot : ¬(s.pc = .made ∨ s.pc = .input ∨ s.pc = .output) := fun hpc => h.hooks hpc hclosed
  cases o with
  | start | readHook | writeHook => simp_all [step]
  | callbackReturns => cases ho
  | shutdownConnection =>
    have hsame : s.conn.shutdownConnection = s.conn := if_pos (Or.inl hclosed)
    simp [step, hsame, hclosed]
  | writeToBuffer | readFromBuffer | drop | OnRead | OnWrite =>
    unfold step
    dsimp only
    split_ifs <;> exact ⟨hclosed, rfl⟩

/-- a Closed connection is not dropped during its callbacks -/
def Patient (s : St) (o : Op) : Prop := o = .drop → s.conn.state_ = .Closed → ¬s.inCallback

theorem head_defined (s : St) : s.head.held = s.held ∧ s.head.pc ≠ .undefined := by
  unfold St.head St.callRcb
  split_ifs <;> simp

theorem outputHead_defined (s : St) : s.outputHead.held = s.held ∧ s.outputHead.pc ≠ .undefined := by
  unfold St.outputHead
  split_ifs
  · simp
  · exact head_defined s

theorem readBack_defined (s : St) (r : ReadResult) (h : s.pc ≠ .undefined) :
    (s.readBack r).held = s.held ∧ (s.readBack r).pc ≠ .undefined := by
  unfold St.readBack St.callRcb
  dsimp only
  split_ifs
  · simp
  · simp
  · exact ⟨rfl, h⟩

theorem writeBack_defined (s : St) (rt : ℤ) : (s.writeBack rt).held = s.held ∧ (s.writeBack rt).pc ≠ .undefined := by
  unfold St.writeBack
  dsimp only
  split_ifs
  · exact head_defined _
  · exact outputHead_defined _

theorem callbackReturns_held (s : St) : s.callbackReturns.held = s.held := by
  unfold St.callbackReturns St.callWcb
  split_ifs
  · rfl
  · rfl
  · exact (outputHead_defined s).1
  · rfl
  · rfl

theorem callbackReturns_defined (h : s.inCallback → s.held = true) (hpc : s.pc ≠ .undefined) :
    s.callbackReturns.pc ≠ .undefined := by
  unfold St.callbackReturns
  split_ifs with hin hheld
  · unfold St.callWcb
    split_ifs <;> simp
  · exact (outputHead_defined s).2
  · exact absurd (h hin) hheld
  · exact hpc

theorem callbackReturns_gone (hin : s.inCallback) (hgone : s.held = false) : s.callbackReturns.pc = .undefined := by
  rw [St.callbackReturns, if_pos hin, if_neg (by simp [hgone])]

/-- the connection is kept during the callbacks -/
structure Kept (s : St) : Prop where
  sound : Sound s
  held : s.inCallback → s.held = true
  defined : s.pc ≠ .undefined

theorem step_defined (h : Kept s) {o : Op} (ho : o ≠ .drop) : (step s o).held = s.held ∧ (step s o).pc ≠ .undefined := by
  cases o with
  | drop => exact absurd rfl ho
  | callbackReturns => exact ⟨callbackReturns_held s, callbackReturns_defined h.held h.defined⟩
  | start =>
    unfold step
    dsimp only
    split_ifs
    · exact head_defined s
    · exact ⟨rfl, h.defined⟩
  | readHook r =>
    unfold step
    dsimp only
    split_ifs
    · exact readBack_defined s r h.defined
    · exact ⟨rfl, h.defined⟩
  | writeHook rt =>
    unfold step
    dsimp only
    split_ifs
    · exact writeBack_defined s rt
    · exact ⟨rfl, h.defined⟩
  | writeToBuffer | readFromBuffer | shutdownConnection | OnRead | OnWrite =>
    unfold step
    dsimp only
    split_ifs <;> exact ⟨rfl, h.defined⟩

/-- Only a drop can take it away: one that is dropped already is Closed, and its callbacks are over. -/
theorem Kept.step (h : Kept s) {o : Op} (ho : o ≠ .drop) : Kept (step s o) := by
  obtain ⟨hheld, hdefined⟩ := step_defined h ho
  refine ⟨h.sound.step o, fun hin => ?_, hdefined⟩
  rw [hheld]
  by_contra hnot
  have hgone : s.held = false := Bool.eq_false_of_not_eq_true hnot
  have hout : ¬s.inCallback := fun hin => hnot (h.held hin)
  cases ho : o.isReturn with
  | false =>
    rw [St.inCallback, (closed_other h.sound (h.sound.held hgone) ho).2] at hin
    exact hout hin
  | true =>
    cases o with
    | callbackReturns =>
      have hsame : s.callbackReturns = s := if_neg hout
      exact hout (hsame ▸ hin)
    | _ => cases ho

theorem kept_step (h : Kept s) (o : Op) :
    ((step s o).callbackReturns.pc ≠ .undefined ↔ Patient s o) ∧ (Patient s o → Kept (step s o)) := by
  by_cases ho : o = .drop
  · subst ho
    by_cases hclosed : s.conn.state_ = .Closed
    · have hdrop : step s .drop = { s with held := false } := if_pos hclosed
      have hpatient : Patient s .drop ↔ ¬s.inCallback := ⟨fun hp => hp rfl hclosed, fun hout _ _ => hout⟩
      rw [hdrop, hpatient]
      refine ⟨⟨fun hpc hin => ?_, fun hout => ?_⟩, fun hout => ?_⟩
      · exact hpc (callbackReturns_gone hin rfl)
      · exact callbackReturns_defined (fun hin => absurd hin hout) h.defined
      · exact ⟨hdrop ▸ h.sound.step .drop, fun hin => absurd hin hout, h.defined⟩
    · have hdrop : step s .drop = s := if_neg hclosed
      rw [hdrop]
      exact ⟨iff_of_true (callbackReturns_defined h.held h.defined) fun _ hc => absurd hc hclosed, fun _ => h⟩
  · have hkept := h.step ho
    exact ⟨iff_of_true (callbackReturns_defined hkept.held hkept.defined) fun hdrop => absurd hdrop ho, fun _ => hkept⟩

theorem init_kept (size : ℕ) : Kept (init size) := ⟨init_sound size, fun _ => rfl, nofun⟩

/-- **The coroutine can outlive its connection.** In every run: a callback would come back to a connection that is still
there, at whatever point of the run it returned, exactly if no Closed connection is dropped during its callbacks. -/
theorem outlives_iff (size : ℕ) (ops : List Op) :
    Always step (fun s => s.callbackReturns.pc ≠ .undefined) (init size) ops ↔ Along step Patient (init size) ops := by
  have hinit := init_kept size
  have hstep : ∀ s o, Kept s → True →
      ((step s o).callbackReturns.pc ≠ .undefined ↔ Patient s o) ∧ (Patient s o → Kept (step s o)) :=
    fun s o h _ => kept_step h o
  refine always_iff_of_inv hstep hinit ?_ (along_of_mem fun _ _ _ => trivial)
  exact callbackReturns_defined hinit.held hinit.defined

/-! ## No callbacks -/

/-- as addClient leaves it -/
structure Unset (s : St) : Prop where
  sound : Sound s
  rcb_ : s.rcb_ = false
  pc : s.pc = .made ∨ s.pc = .input ∨ s.pc = .thrown

/-- the answer with which `input` returns -/
def EndsInput (s : St) (o : Op) : Prop := ∃ r, o = .readHook r ∧ s.pc = .input ∧ (Input.iterate s.conn r).2 = .returned

theorem unset_same (h : Unset s) {t : St} {o : Op} (hrcb : t.rcb_ = s.rcb_) (hpc : t.pc = s.pc) (ho : ¬EndsInput s o) :
    t.rcb_ = false ∧ (t.pc = .made ∨ t.pc = .input ∨ t.pc = .thrown) ∧ (t.pc = .thrown ↔ s.pc = .thrown ∨ EndsInput s o) := by
  rw [hrcb, hpc]
  exact ⟨h.rcb_, h.pc, by simp [ho]⟩

theorem unset_start (h : Unset s) (hpc : s.pc = .made) : s.head = { s with pc := .input } := by
  have hopen := h.sound.hooks (Or.inl hpc)
  have hstop : ¬s.conn.stop_ = true := mt h.sound.conn.stopped.1 hopen
  rw [St.head, if_neg hstop, if_neg (not_or.2 ⟨hopen, h.sound.conn.connected⟩)]

theorem unset_readBack (h : Unset s) (hpc : s.pc = .input) (r : ReadResult) : (s.readBack r).rcb_ = false ∧
    (s.readBack r).pc = if (Input.iterate s.conn r).2 = .returned then .thrown else .input := by
  by_cases hreturned : (Input.iterate s.conn r).2 = .returned
  · simp [St.readBack, St.callRcb, hreturned, h.rcb_]
  · simp [St.readBack, hreturned, h.rcb_, hpc]

theorem unset_step (h : Unset s) {o : Op} (ho : o ≠ .OnRead) : (step s o).rcb_ = false ∧
    ((step s o).pc = .made ∨ (step s o).pc = .input ∨ (step s o).pc = .thrown) ∧
    ((step s o).pc = .thrown ↔ s.pc = .thrown ∨ EndsInput s o) := by
  have hnot : (∀ r, o ≠ .readHook r) → ¬EndsInput s o := fun hne ⟨r, hr, _⟩ => hne r hr
  cases o with
  | OnRead => exact absurd rfl ho
  | start =>
    by_cases hpc : s.pc = .made
    · have hstart : step s .start = { s with pc := .input } := (if_pos hpc).trans (unset_start h hpc)
      rw [hstart]
      exact ⟨h.rcb_, Or.inr (Or.inl rfl), by simp [hpc, hnot nofun]⟩
    · have hsame : step s .start = s := if_neg hpc
      rw [hsame]
      exact unset_same h rfl rfl (hnot nofun)
  | readHook r =>
    by_cases hpc : s.pc = .input
    · have hread : step s (.readHook r) = s.readBack r := if_pos hpc
      have hends : EndsInput s (.readHook r) ↔ (Input.iterate s.conn r).2 = .returned := by
        simp [EndsInput, hpc]
      obtain ⟨hrcb, hback⟩ := unset_readBack h hpc r
      rw [hread, hback, hends, hpc]
      refine ⟨hrcb, ?_, ?_⟩ <;> split_ifs with hreturned <;> simp [hreturned]
    · have hsame : step s (.readHook r) = s := if_neg hpc
      rw [hsame]
      exact unset_same h rfl rfl fun ⟨_, _, hin, _⟩ => hpc hin
  | writeHook rt =>
    have hout : ¬s.pc = .output := by
      rcases h.pc with hpc | hpc | hpc <;> simp [hpc]
    have hsame : step s (.writeHook rt) = s := if_neg hout
    rw [hsame]
    exact unset_same h rfl rfl (hnot nofun)
  | callbackReturns =>
    have hout : ¬s.inCallback := by
      rcases h.pc with hpc | hpc | hpc <;> simp [St.inCallback, hpc]
    have hsame : step s .callbackReturns = s := if_neg hout
    rw [hsame]
    exact unset_same h rfl rfl (hnot nofun)
  | writeToBuffer | readFromBuffer | shutdownConnection | drop | OnWrite =>
    unfold step
    dsimp only
    split_ifs <;> exact unset_same h rfl rfl (hnot nofun)

/-- **A connection as addClient leaves it answers nothing.** In every run without a call of OnRead, the coroutine is waiting
for its first input or has thrown std::bad_function_call, which nothing catches: no callback is called and nothing sent.
It throws exactly when `input` returns, be it with a request or because the peer has closed. -/
theorem unset_throws (size : ℕ) (ops : List Op) (hops : .OnRead ∉ ops) :
    ((run step (init size) ops).pc = .made ∨ (run step (init size) ops).pc = .input ∨
        (run step (init size) ops).pc = .thrown) ∧
      ((run step (init size) ops).pc = .thrown ↔
        ∃ ops₁ o ops₂, ops = ops₁ ++ o :: ops₂ ∧ EndsInput (run step (init size) ops₁) o) := by
  suffices hrun : Unset (run step (init size) ops) ∧ ((run step (init size) ops).pc = .thrown ↔
      ∃ ops₁ o ops₂, ops = ops₁ ++ o :: ops₂ ∧ EndsInput (run step (init size) ops₁) o) from ⟨hrun.1.pc, hrun.2⟩
  induction ops using List.reverseRecOn with
  | nil => exact ⟨⟨init_sound size, rfl, Or.inl rfl⟩, by simp [run, init]⟩
  | append_singleton ops o ih =>
    rw [List.mem_append, not_or] at hops
    obtain ⟨hunset, hthrown⟩ := ih hops.1
    obtain ⟨hrcb, hpc, hiff⟩ := unset_step hunset fun ho => hops.2 (List.mem_singleton.2 ho.symm)
    rw [run_concat, hiff, hthrown]
    refine ⟨⟨hunset.sound.step o, hrcb, hpc⟩, ?_, ?_⟩
    · rintro (⟨ops₁, o', ops₂, rfl, hends⟩ | hends)
      · exact ⟨ops₁, o', ops₂ ++ [o], by simp, hends⟩
      · exact ⟨ops, o, [], rfl, hends⟩
    · rintro ⟨ops₁, o', ops₂, hsplit, hends⟩
      cases ops₂ using List.reverseRecOn with
      | nil =>
        obtain ⟨rfl, ho⟩ := List.append_inj' hsplit rfl
        cases ho
        exact Or.inr hends
      | append_singleton ops₂ o₂ =>
        rw [← List.cons_append, ← List.append_assoc] at hsplit
        obtain ⟨rfl, -⟩ := List.append_inj' hsplit rfl
        exact Or.inl ⟨ops₁, o', ops₂, rfl, hends⟩

/-- a request of three bytes -/
theorem unset_throws_request :
    ((run step (init 8) [.start, .readHook (.data [1, 2, 3])]).pc = .made ∨
        (run step (init 8) [.start, .readHook (.data [1, 2, 3])]).pc = .input ∨
        (run step (init 8) [.start, .readHook (.data [1, 2, 3])]).pc = .thrown) ∧
      ((run step (init 8) [.start, .readHook (.data [1, 2, 3])]).pc = .thrown ↔
        ∃ ops₁ o ops₂, [.start, .readHook (.data [1, 2, 3])] = ops₁ ++ o :: ops₂ ∧ EndsInput (run step (init 8) ops₁) o) :=
  unset_throws 8 [.start, .readHook (.data [1, 2, 3])] (by decide)

end TinyRpc.Net.ServerLoop
