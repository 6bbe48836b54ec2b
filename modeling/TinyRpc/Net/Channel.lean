/-
Two TcpConnections at the ends of one socket connection: bytes from the out buffer of one to the in buffer of the other, in
both directions at once.

Each end is the machine of `TcpSession`, with its calls of `input` and `output`, the answers of their hooks, and the writes
and reads of the application between them. The kernel keeps the bytes it has taken from one end in order and hands them
out at the other in pieces of its choice. The two ends and the kernel are interleaved in any order. Here no hook fails and
no end closes: what -1 and 0 do is in `TcpSession`.

Main result `channel_conserves_iff`: along every run, every byte an application has written is exactly once in its own
out buffer, on its way, in the in buffer of the other end or in what the application there has read, all in the order
written, if and only if no answer of `write_hook` ends at the end of the out vector and no answer of `read_hook` fills
the in vector.
-/
import Mathlib.Tactic
import TinyRpc.Net.TcpSession

namespace TinyRpc.Net.Channel

open TinyRpc.Core Function
open TinyRpc.Net.TcpSession (Op Intact)

inductive Side
  | client | server
deriving DecidableEq, Repr

def Side.other : Side → Side
  | .client => .server
  | .server => .client

@[simp] theorem Side.other_other (x : Side) : x.other.other = x := by cases x <;> rfl

theorem Side.other_ne (x : Side) : x.other ≠ x := by cases x <;> decide

theorem Side.eq_or (x y : Side) : y = x ∨ y = x.other := by cases x <;> cases y <;> decide

structure St where
  session : Side → TcpSession.St
  /-- the bytes the kernel has taken from a side and not yet handed out at the other -/
  wire : Side → List Byte
  /-- all bytes the application of a side has written -/
  sent : Side → List Byte
  /-- all bytes the application of a side has read -/
  got : Side → List Byte

/-- what `write_hook` takes from the out buffer -/
def taken (s : TcpSession.St) : Op → List Byte
  | .writeHook rt =>
    if s.inside = .output then s.conn.write_buffer_.bytesAt s.conn.write_buffer_.read_index_ rt else []
  | _ => []

/-- what `read_hook` puts into the in buffer -/
def delivered (s : TcpSession.St) : Op → List Byte
  | .readHook r => if s.inside = .input then r.bytes else []
  | _ => []

/-- what the application writes -/
def written (s : TcpSession.St) : Op → List Byte
  | .writeToBuffer buf => if s.inside = .none then buf else []
  | _ => []

/-- what the application reads -/
def read (s : TcpSession.St) : Op → List Byte
  | .readFromBuffer size =>
    if s.inside = .none ∧ 0 ≤ size then ((s.conn.read_buffer_.readFromBuffer size).1).getD [] else []
  | _ => []

/-- an operation at one side -/
def step (s : St) (o : Side × Op) : St :=
  let x := o.1
  { session := update s.session x (TcpSession.step (s.session x) o.2)
    wire := update (update s.wire x (s.wire x ++ taken (s.session x) o.2)) x.other
      ((s.wire x.other).drop (delivered (s.session x) o.2).length)
    sent := update s.sent x (s.sent x ++ written (s.session x) o.2)
    got := update s.got x (s.got x ++ read (s.session x) o.2) }

/-- a connection after its constructor, or after `setUpClient` -/
def connected (conn_type : ConnectionType) (size : ℕ) : TcpConnection :=
  ⟨.Connected, conn_type, TcpBuffer.make size, TcpBuffer.make size, false, conn_type = .ServerConnection, []⟩

def init (size : Side → ℕ) : St :=
  { session := fun x => ⟨connected (if x = .client then .ClientConnection else .ServerConnection) (size x), .none⟩
    wire := fun _ => []
    sent := fun _ => []
    got := fun _ => [] }

/-- the kernel's answers: at least one byte, at one end at most those it was shown, at the other the next of those on their
way and at most as many as there is room for -/
def Kernel (s : St) : Side × Op → Prop
  | (x, .writeHook rt) => (s.session x).inside = .output → 1 ≤ rt ∧ rt ≤ (s.session x).conn.write_buffer_.readAble
  | (x, .readHook r) => (s.session x).inside = .input →
      1 ≤ r.rt ∧ r.rt ≤ Input.readCount (s.session x).conn ∧ r.bytes <+: s.wire x.other
  | (_, .input) | (_, .output) | (_, .writeToBuffer _) | (_, .readFromBuffer _) => True

instance (s : St) : DecidablePred (Kernel s)
  | (x, .writeHook _) => inferInstanceAs (Decidable ((s.session x).inside = .output → _ ∧ _))
  | (x, .readHook r) => inferInstanceAs (Decidable ((s.session x).inside = .input → _ ∧ _ ∧ r.bytes <+: s.wire x.other))
  | (_, .input) | (_, .output) | (_, .writeToBuffer _) | (_, .readFromBuffer _) => inferInstanceAs (Decidable True)

/-- what was written at `x` and is in its out buffer, on its way, in the in buffer at the other end or read there -/
def St.pipe (s : St) (x : Side) : List Byte :=
  s.got x.other ++ (s.session x.other).conn.read_buffer_.readable ++ s.wire x ++ (s.session x).conn.write_buffer_.readable

def Conserved (s : St) : Prop := ∀ x, s.pipe x = s.sent x

/-- an answer of `write_hook` that does not end at the end of the vector, of `read_hook` that does not fill it -/
def Short (s : TcpSession.St) : Op → Prop
  | .writeHook rt => s.inside = .output → s.conn.write_buffer_.read_index_ + rt < s.conn.write_buffer_.getSize
  | .readHook r => s.inside = .input → r.rt < Input.readCount s.conn
  | .input | .output | .writeToBuffer _ | .readFromBuffer _ => True

instance (s : TcpSession.St) : DecidablePred (Short s)
  | .writeHook rt =>
    inferInstanceAs (Decidable (s.inside = .output → s.conn.write_buffer_.read_index_ + rt < s.conn.write_buffer_.getSize))
  | .readHook r => inferInstanceAs (Decidable (s.inside = .input → r.rt < Input.readCount s.conn))
  | .input | .output | .writeToBuffer _ | .readFromBuffer _ => inferInstanceAs (Decidable True)

/-- the condition: the answer is committed to the buffer -/
def Commits (s : St) (o : Side × Op) : Prop := Short (s.session o.1) o.2

instance (s : St) : DecidablePred (Commits s) := fun o => inferInstanceAs (Decidable (Short (s.session o.1) o.2))

/-! ## One operation at one end -/

/-- both buffers are well formed, and the in buffer has a vector to double -/
structure Ready (c : TcpConnection) : Prop where
  intact : Intact c
  room : 1 ≤ c.read_buffer_.getSize

/-- What an operation does to the two streams of an end: `out` bytes leave the out buffer at its front for the wire after
`app` bytes were put behind, `inn` bytes come from the wire behind those in the in buffer and `got` are read off its
front. -/
structure Moves (s t : TcpSession.St) (out app inn got : List Byte) : Prop where
  write : out ++ t.conn.write_buffer_.readable = s.conn.write_buffer_.readable ++ app
  read : got ++ t.conn.read_buffer_.readable = s.conn.read_buffer_.readable ++ inn

variable {s : TcpSession.St}

theorem adjust_size {b : TcpBuffer} (h : b.Wf) : b.adjustBuffer.getSize = b.getSize := (TcpBuffer.adjustBuffer_spec h).2.2

theorem size_readFromBuffer {b : TcpBuffer} (h : b.Wf) {n : ℤ} (hn : 0 ≤ n) : (b.readFromBuffer n).2.getSize = b.getSize := by
  unfold TcpBuffer.readFromBuffer
  split_ifs
  · rfl
  · exact adjust_size (TcpBuffer.advance_wf h hn (by omega))
  · exact adjust_size (TcpBuffer.advance_wf h (by have := h.read_le_write; unfold TcpBuffer.readAble; omega) le_rfl)

/-- what a read takes off, then what stays -/
theorem readFromBuffer_split {b : TcpBuffer} (h : b.Wf) {n : ℤ} (hn : 0 ≤ n) :
    ((b.readFromBuffer n).1).getD [] ++ (b.readFromBuffer n).2.readable = b.readable := by
  obtain ⟨htake, hdrop, -⟩ := TcpBuffer.readFromBuffer_spec h hn
  by_cases he : b.readAble = 0
  · have hnil := (TcpBuffer.readable_eq_nil h).2 he
    rw [hdrop, hnil]
    simp [TcpBuffer.readFromBuffer, he]
  · rw [htake he, hdrop]
    exact List.take_append_drop _ _

/-- an answer of `read_hook` that leaves room: the call ends with the bytes committed -/
theorem readHook_moves (h : Ready s.conn) (hi : s.inside = .input) {bs : List Byte}
    (hb : bs.length < Input.readCount s.conn) :
    Ready (TcpSession.step s (.readHook (.data bs))).conn ∧
      (TcpSession.step s (.readHook (.data bs))).conn.read_buffer_.readable = s.conn.read_buffer_.readable ++ bs ∧
      (TcpSession.step s (.readHook (.data bs))).conn.write_buffer_ = s.conn.write_buffer_ := by
  obtain ⟨r1, r2, r3⟩ := Input.room_spec h.intact.read h.room
  have hj : (Input.room s.conn).write_index_ + bs.length < (Input.room s.conn).getSize := by
    unfold Input.readCount TcpBuffer.writeAble at hb
    omega
  obtain ⟨-, hint⟩ := TcpSession.readHook_sound h.intact hi hb.le
  rw [TcpSession.readHook_conn hi] at hint ⊢
  refine ⟨⟨hint, ?_⟩, ?_, TcpSession.iterate_write_buffer _⟩
  · have hroom : (bs.length : ℤ) ≤ (Input.room s.conn).writeAble := hb.le
    obtain ⟨-, s2, -, -, s5⟩ := TcpBuffer.store_spec r2 hroom
    rw [Input.iterate_read_buffer]
    show 1 ≤ (((Input.room s.conn).store bs).recycleWrite bs.length).getSize
    have hif : ¬((Input.room s.conn).store bs).write_index_ + bs.length ≥ ((Input.room s.conn).store bs).getSize := by
      rw [s5]
      exact not_le.2 hj
    rw [TcpBuffer.recycleWrite_eq, if_neg hif]
    refine le_of_le_of_eq ?_ (adjust_size s2).symm
    have hsize : 1 ≤ (Input.room s.conn).getSize := by
      have := r2.read_nonneg
      have := r2.read_le_write
      omega
    exact le_of_le_of_eq hsize s5.symm
  · exact (Input.iterate_short h.intact.read h.room hb).1

/-- an answer of `write_hook` that stops short of the end of the vector: the bytes it took are committed -/
theorem writeHook_moves (h : Ready s.conn) (hi : s.inside = .output) {rt : ℤ} (h1 : 1 ≤ rt)
    (hn : rt ≤ s.conn.write_buffer_.readAble)
    (hj : s.conn.write_buffer_.read_index_ + rt < s.conn.write_buffer_.getSize) :
    Ready (TcpSession.step s (.writeHook rt)).conn ∧
      s.conn.write_buffer_.bytesAt s.conn.write_buffer_.read_index_ rt ++
        (TcpSession.step s (.writeHook rt)).conn.write_buffer_.readable = s.conn.write_buffer_.readable ∧
      (TcpSession.step s (.writeHook rt)).conn.read_buffer_ = s.conn.read_buffer_ := by
  obtain ⟨w1, w2, -⟩ := TcpSession.writeHook_conn hi rt
  obtain ⟨c1, c2, -⟩ := TcpBuffer.recycleRead_spec h.intact.write (by omega) hn hj
  refine ⟨⟨⟨?_, ?_⟩, ?_⟩, ?_, w1⟩
  · rw [w1]
    exact h.intact.read
  · rw [w2]
    exact c2
  · rw [w1]
    exact h.room
  · rw [w2]
    exact c1.symm

/-- what one end may be told by the kernel -/
def Answer (s : TcpSession.St) : Op → Prop
  | .writeHook rt => s.inside = .output → 1 ≤ rt ∧ rt ≤ s.conn.write_buffer_.readAble
  | .readHook r => s.inside = .input → ∃ bs, r = .data bs ∧ 1 ≤ bs.length ∧ bs.length ≤ Input.readCount s.conn
  | .input | .output | .writeToBuffer _ | .readFromBuffer _ => True

/-- an operation that moves no byte -/
theorem moves_idle (h : Ready s.conn) {o : Op} (hconn : (TcpSession.step s o).conn = s.conn) (htaken : taken s o = [])
    (hwritten : written s o = []) (hdelivered : delivered s o = []) (hread : read s o = []) :
    Ready (TcpSession.step s o).conn ∧
      Moves s (TcpSession.step s o) (taken s o) (written s o) (delivered s o) (read s o) := by
  rw [htaken, hwritten, hdelivered, hread, hconn]
  exact ⟨h, by rw [hconn]; simp, by rw [hconn]; simp⟩

theorem moves_step (h : Ready s.conn) (o : Op) (ha : Answer s o) (hc : Short s o) :
    Ready (TcpSession.step s o).conn ∧
      Moves s (TcpSession.step s o) (taken s o) (written s o) (delivered s o) (read s o) := by
  cases hi : s.inside with
  | none =>
    cases o with
    | writeToBuffer buf =>
      obtain ⟨w1, w2⟩ := TcpBuffer.writeToBuffer_spec h.intact.write buf
      simp only [TcpSession.step, hi, taken, written, delivered, read, if_true]
      exact ⟨⟨⟨h.intact.read, w2⟩, h.room⟩, w1, by simp [TcpConnection.written]⟩
    | readFromBuffer size =>
      by_cases hs : size < 0
      · refine moves_idle h ?_ ?_ ?_ ?_ ?_ <;> simp [TcpSession.step, hi, hs, taken, written, delivered, read, not_le.2 hs]
      · have hs' : 0 ≤ size := not_lt.1 hs
        obtain ⟨-, -, r3⟩ := TcpBuffer.readFromBuffer_spec h.intact.read hs'
        simp only [TcpSession.step, hi, taken, written, delivered, read, hs, hs', if_true, if_false, and_true]
        refine ⟨⟨⟨r3, h.intact.write⟩, ?_⟩, by simp, ?_⟩
        · exact le_of_le_of_eq h.room (size_readFromBuffer h.intact.read hs').symm
        · rw [List.append_nil]
          exact readFromBuffer_split h.intact.read hs'
    | input | output | readHook r | writeHook rt =>
      refine moves_idle h ?_ ?_ ?_ ?_ ?_ <;>
        simp [TcpSession.step, TcpSession.outputHead, hi, taken, written, delivered, read]
  | input =>
    cases o with
    | readHook r =>
      obtain ⟨bs, rfl, -, -⟩ := ha hi
      obtain ⟨m1, m2, m3⟩ := readHook_moves h hi (hc hi)
      refine ⟨m1, ?_, ?_⟩
      · rw [m3]
        simp [taken, written]
      · rw [m2]
        simp [read, delivered, hi, ReadResult.bytes]
    | _ => refine moves_idle h ?_ ?_ ?_ ?_ ?_ <;> simp [TcpSession.step, hi, taken, written, delivered, read]
  | output =>
    cases o with
    | writeHook rt =>
      obtain ⟨h1, hn⟩ := ha hi
      obtain ⟨m1, m2, m3⟩ := writeHook_moves h hi h1 hn (hc hi)
      refine ⟨m1, ?_, ?_⟩
      · simpa [taken, written, hi] using m2
      · rw [m3]
        simp [read, delivered]
    | _ => refine moves_idle h ?_ ?_ ?_ ?_ ?_ <;> simp [TcpSession.step, hi, taken, written, delivered, read]

/-! ## One operation of the channel -/

variable {c : St}

@[simp] theorem session_step_self (c : St) (x : Side) (o : Op) :
    (step c (x, o)).session x = TcpSession.step (c.session x) o := update_self ..

@[simp] theorem session_step_other (c : St) (x : Side) (o : Op) : (step c (x, o)).session x.other = c.session x.other :=
  update_of_ne x.other_ne _ _

theorem wire_step_self (c : St) (x : Side) (o : Op) : (step c (x, o)).wire x = c.wire x ++ taken (c.session x) o := by
  simp only [step]
  rw [update_of_ne x.other_ne.symm, update_self]

theorem wire_step_other (c : St) (x : Side) (o : Op) :
    (step c (x, o)).wire x.other = (c.wire x.other).drop (delivered (c.session x) o).length := update_self ..

theorem sent_step_self (c : St) (x : Side) (o : Op) : (step c (x, o)).sent x = c.sent x ++ written (c.session x) o :=
  update_self ..

theorem sent_step_other (c : St) (x : Side) (o : Op) : (step c (x, o)).sent x.other = c.sent x.other :=
  update_of_ne x.other_ne _ _

theorem got_step_self (c : St) (x : Side) (o : Op) : (step c (x, o)).got x = c.got x ++ read (c.session x) o :=
  update_self ..

theorem got_step_other (c : St) (x : Side) (o : Op) : (step c (x, o)).got x.other = c.got x.other :=
  update_of_ne x.other_ne _ _

/-- the pipe out of the side that moves -/
theorem pipe_step_self (c : St) (x : Side) (o : Op) : (step c (x, o)).pipe x =
    c.got x.other ++ (c.session x.other).conn.read_buffer_.readable ++ c.wire x ++
      (taken (c.session x) o ++ (TcpSession.step (c.session x) o).conn.write_buffer_.readable) := by
  rw [St.pipe, got_step_other, session_step_other, wire_step_self, session_step_self]
  simp only [List.append_assoc]

/-- the pipe into the side that moves -/
theorem pipe_step_other (c : St) (x : Side) (o : Op) : (step c (x, o)).pipe x.other =
    c.got x ++ (read (c.session x) o ++ (TcpSession.step (c.session x) o).conn.read_buffer_.readable) ++
      (c.wire x.other).drop (delivered (c.session x) o).length ++ (c.session x.other).conn.write_buffer_.readable := by
  rw [St.pipe, Side.other_other, got_step_self, session_step_self, wire_step_other, session_step_other]
  simp only [List.append_assoc]

theorem data_of_rt {r : ReadResult} (hr : 1 ≤ r.rt) : ∃ bs, r = .data bs := by
  cases r with
  | data bs => exact ⟨bs, rfl⟩
  | error => exact absurd hr (by decide)

theorem kernel_answer {x : Side} {o : Op} (hk : Kernel c (x, o)) : Answer (c.session x) o := by
  cases o with
  | readHook r =>
    intro hi
    obtain ⟨h1, hcount, -⟩ := hk hi
    obtain ⟨bs, rfl⟩ := data_of_rt h1
    exact ⟨bs, rfl, Nat.one_le_cast.1 h1, hcount⟩
  | writeHook rt => exact hk
  | input | output | writeToBuffer _ | readFromBuffer _ => trivial

/-- the kernel hands out the front of what is on its way -/
theorem kernel_delivered {x : Side} {o : Op} (hk : Kernel c (x, o)) :
    delivered (c.session x) o ++ (c.wire x.other).drop (delivered (c.session x) o).length = c.wire x.other := by
  cases o with
  | readHook r =>
    by_cases hi : (c.session x).inside = .input
    · obtain ⟨-, -, rest, hrest⟩ := hk hi
      simp [delivered, hi, ← hrest]
    · simp [delivered, hi]
  | _ => simp [delivered]

structure Inv (c : St) : Prop where
  ready : ∀ x, Ready (c.session x).conn
  conserved : Conserved c

theorem inv_step (h : Inv c) {o : Side × Op} (hk : Kernel c o) (hc : Commits c o) : Inv (step c o) := by
  obtain ⟨x, o⟩ := o
  obtain ⟨hready, hwrite, hread⟩ := moves_step (h.ready x) o (kernel_answer hk) hc
  refine ⟨?_, ?_⟩
  · intro y
    rcases x.eq_or y with rfl | rfl
    · rw [session_step_self]
      exact hready
    · rw [session_step_other]
      exact h.ready _
  · intro y
    rcases x.eq_or y with rfl | rfl
    · rw [pipe_step_self, hwrite, sent_step_self, ← h.conserved y, St.pipe]
      simp only [List.append_assoc]
    · have hcons := h.conserved x.other
      rw [St.pipe, Side.other_other, ← kernel_delivered hk] at hcons
      rw [pipe_step_other, hread, sent_step_other, ← hcons]
      simp only [List.append_assoc]

/-! ## The condition is exact -/

/-- bytes taken again from a buffer that kept them -/
theorem not_conserved_of_taken (h : Inv c) {x : Side} {rt : ℤ} (hk : Kernel c (x, .writeHook rt))
    (hc : ¬Commits c (x, .writeHook rt)) : ¬Conserved (step c (x, .writeHook rt)) := by
  simp only [Commits, Short, Classical.not_imp] at hc
  obtain ⟨hi, hj⟩ := hc
  obtain ⟨h1, hn⟩ := hk hi
  intro hcons
  have hlen := congrArg List.length (hcons x)
  have hold := congrArg List.length (h.conserved x)
  have hb := TcpBuffer.length_bytesAt (h.ready x).intact.write hn
  rw [pipe_step_self, (TcpSession.writeHook_conn hi rt).2.1, TcpBuffer.recycleRead_eq, if_pos (not_lt.1 hj),
    sent_step_self] at hlen
  simp only [St.pipe, taken, written, hi, if_true, List.length_append, List.length_nil, hb] at hlen hold
  omega

/-- bytes put behind the readable ones and not committed -/
theorem not_conserved_of_delivered (h : Inv c) {x : Side} {r : ReadResult} (hk : Kernel c (x, .readHook r))
    (hc : ¬Commits c (x, .readHook r)) : ¬Conserved (step c (x, .readHook r)) := by
  simp only [Commits, Short, Classical.not_imp] at hc
  obtain ⟨hi, hj⟩ := hc
  obtain ⟨h1, hcount, hprefix⟩ := hk hi
  obtain ⟨bs, rfl⟩ := data_of_rt h1
  have hfull : (bs.length : ℤ) = Input.readCount (c.session x).conn := le_antisymm hcount (not_lt.1 hj)
  have hle : bs.length ≤ (c.wire x.other).length := hprefix.length_le
  have hpos : 1 ≤ bs.length := Nat.one_le_cast.1 h1
  intro hcons
  have hnew := congrArg List.length (hcons x.other)
  have hold := congrArg List.length (h.conserved x.other)
  rw [pipe_step_other, TcpSession.readHook_conn hi, Input.iterate_full (h.ready x).intact.read (h.ready x).room hfull,
    sent_step_other] at hnew
  simp only [St.pipe, Side.other_other, read, delivered, hi, if_true, ReadResult.bytes, List.length_append,
    List.length_nil, List.length_drop] at hnew hold
  omega

theorem conserved_step_iff (h : Inv c) {o : Side × Op} (hk : Kernel c o) : Conserved (step c o) ↔ Commits c o := by
  refine ⟨?_, fun hc => (inv_step h hk hc).conserved⟩
  intro hcons
  by_contra hc
  obtain ⟨x, o⟩ := o
  cases o with
  | writeHook rt => exact not_conserved_of_taken h hk hc hcons
  | readHook r => exact not_conserved_of_delivered h hk hc hcons
  | input | output | writeToBuffer _ | readFromBuffer _ => exact hc trivial

theorem init_inv {size : Side → ℕ} (hsize : ∀ x, 1 ≤ size x) : Inv (init size) := by
  have hempty : ∀ n, (TcpBuffer.make n).readable = [] := fun n => by
    simp [TcpBuffer.make, TcpBuffer.readable, TcpBuffer.bytesAt, TcpBuffer.readAble, window_zero]
  refine ⟨fun x => ⟨⟨TcpBuffer.make_wf _, TcpBuffer.make_wf _⟩, ?_⟩, fun x => ?_⟩
  · have hx := hsize x
    simp [init, connected, TcpBuffer.make, TcpBuffer.getSize]
    exact hx
  · simp [St.pipe, init, connected, hempty]

/-- For buffers of any size but none, along every run of two connected ends and the kernel, in every state every byte
written at an end is exactly once in its out buffer, on its way, in the in buffer of the other end or read there, in the
order written, if and only if every answer of a hook is committed. -/
theorem channel_conserves_iff (size : Side → ℕ) (hsize : ∀ x, 1 ≤ size x) (ops : List (Side × Op))
    (hk : Along step Kernel (init size) ops) :
    Always step Conserved (init size) ops ↔ Along step Commits (init size) ops := by
  have hstep : ∀ c o, Inv c → Kernel c o →
      (Conserved (step c o) ↔ Commits c o) ∧ (Commits c o → Inv (step c o)) := fun _ _ h hk =>
    ⟨conserved_step_iff h hk, inv_step h hk⟩
  have hinit := init_inv hsize
  exact always_iff_of_inv hstep hinit hinit.conserved hk

/-- a request in two pieces and its response, with buffers of eight bytes -/
def exchange : List (Side × Op) :=
  [(.client, .writeToBuffer [1, 2, 3]), (.client, .output), (.client, .writeHook 2), (.server, .input),
    (.client, .writeHook 1), (.server, .readHook (.data [1, 2])), (.server, .input), (.server, .readHook (.data [3])),
    (.server, .readFromBuffer 8), (.server, .writeToBuffer [4]), (.server, .output), (.server, .writeHook 1),
    (.client, .input), (.client, .readHook (.data [4])), (.client, .readFromBuffer 1)]

theorem channel_conserves_exchange :
    Along step Kernel (init fun _ => 8) exchange ∧ Always step Conserved (init fun _ => 8) exchange :=
  ⟨by decide +kernel,
    (channel_conserves_iff (fun _ => 8) (fun _ => by decide) exchange (by decide +kernel)).2 (by decide +kernel)⟩

end TinyRpc.Net.Channel
