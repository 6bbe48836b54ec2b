/-
TcpConnection (net/tcp_connection.cc): the loops of `input` and `output` over the results of the hooks.

A hook result is an input of the model: a run of `input` is fed the answers of `read_hook` one after the other
(`Input.run`), a run of `output` those of `write_hook` (`Output.run`), and the state after each answer is the state at the
next loop head or at return. What the connection does to its descriptor, its FdEvent and the time wheel is recorded in
`effects`.

Main results:
- `input_keeps_stream_iff`: `input` keeps the byte stream exactly when its first read leaves free space behind it.
- `output_sends_once_iff`: `output` sends every byte once unless the pending bytes end at the end of the vector and the
  last of them is written before a compaction.
-/
import Mathlib.Tactic
import TinyRpc.Net.TcpBuffer

namespace TinyRpc.Net

open TinyRpc.Core

inductive TcpConnectionState
  | NotConnected | Connected | HalfClosing | Closed
deriving DecidableEq, Repr

inductive ConnectionType
  | ServerConnection | ClientConnection
deriving DecidableEq, Repr

/-- what a connection does outside its own memory -/
inductive Effect
  | unregisterFromReactor
  | close
  | shutdown
  | delListenWrite
  /-- `getTimeWheel()->fresh` of the connection's slot -/
  | fresh
deriving DecidableEq, Repr

structure TcpConnection where
  state_ : TcpConnectionState
  conn_type_ : ConnectionType
  read_buffer_ : TcpBuffer
  write_buffer_ : TcpBuffer
  stop_ : Bool
  /-- does `weak_slot_.lock()` give a slot? -/
  weak_slot_ : Bool
  effects : List Effect
deriving DecidableEq, Repr

namespace TcpConnection

def clearClient (c : TcpConnection) : TcpConnection :=
  if c.state_ = .Closed then c
  else { c with stop_ := true, state_ := .Closed, effects := c.effects ++ [.unregisterFromReactor, .close] }

def shutdownConnection (c : TcpConnection) : TcpConnection :=
  if c.state_ = .Closed ∨ c.state_ = .NotConnected then c
  else { c with state_ := .HalfClosing, effects := c.effects ++ [.shutdown] }

/-- after a short read a server connection moves its slot in the time wheel -/
def freshSlot (c : TcpConnection) : TcpConnection :=
  if c.conn_type_ = .ServerConnection ∧ c.weak_slot_ then { c with effects := c.effects ++ [.fresh] } else c

end TcpConnection

inductive Pc
  | head | returned
deriving DecidableEq, Repr

/-! ## input -/

/-- an answer of `read_hook`: bytes put at the address it was given (none at all when the peer has closed), or -1 -/
inductive ReadResult
  | data (bytes : List Byte)
  | error
deriving DecidableEq, Repr

namespace ReadResult

def bytes : ReadResult → List Byte
  | data bs => bs
  | error => []

def rt : ReadResult → ℤ
  | data bs => bs.length
  | error => -1

end ReadResult

/-- a call of `input` in progress -/
structure Input where
  conn : TcpConnection
  pc : Pc
  /-- all bytes `read_hook` has delivered to this call -/
  delivered : List Byte
deriving DecidableEq, Repr

namespace Input

def start (c : TcpConnection) : Input :=
  ⟨c, if c.state_ = .Closed ∨ c.state_ = .NotConnected then .returned else .head, []⟩

/-- the read buffer a loop head hands to `read_hook`: doubled when it has no free space -/
def room (c : TcpConnection) : TcpBuffer :=
  if c.read_buffer_.writeAble = 0 then c.read_buffer_.resizeBuffer (2 * c.read_buffer_.getSize) else c.read_buffer_

/-- the count passed to `read_hook` at a loop head -/
def readCount (c : TcpConnection) : ℤ := (room c).writeAble

/-- one iteration of the loop, given the answer of `read_hook` -/
def iterate (c : TcpConnection) (r : ReadResult) : TcpConnection × Pc :=
  let read_count := readCount c
  let c := { c with read_buffer_ := ((room c).store r.bytes).recycleWrite r.rt }
  if r.rt ≤ 0 then (c.clearClient, .returned)
  else if r.rt = read_count then (c, .head)
  else if r.rt < read_count then (c.freshSlot, .returned)
  else (c, .head)

def step (s : Input) (r : ReadResult) : Input :=
  match s.pc with
  | .returned => s
  | .head =>
    let (c, pc) := iterate s.conn r
    ⟨c, pc, s.delivered ++ r.bytes⟩

def run (c : TcpConnection) (rs : List ReadResult) : Input := rs.foldl step (start c)

/-- the answers are ones `read_hook` may give without an error: each call delivers at most the bytes it was asked for,
and there is no call after the one that ended the loop -/
def Answers (s : Input) : List ReadResult → Prop
  | [] => True
  | r :: rs => s.pc = .head ∧ r ≠ .error ∧ r.rt ≤ readCount s.conn ∧ Answers (s.step r) rs

instance Answers.decidable (s : Input) : (rs : List ReadResult) → Decidable (Answers s rs)
  | [] => inferInstanceAs (Decidable True)
  | r :: rs =>
    have := Answers.decidable (s.step r) rs
    inferInstanceAs (Decidable (_ ∧ _ ∧ _ ∧ _))

/-- at every loop head and at return the readable bytes are those readable at entry, then all the delivered ones -/
def KeepsStream (c : TcpConnection) (rs : List ReadResult) : Prop :=
  ∀ k ≤ rs.length, (run c (rs.take k)).conn.read_buffer_.readable =
    c.read_buffer_.readable ++ (run c (rs.take k)).delivered

instance (c : TcpConnection) (rs : List ReadResult) : Decidable (KeepsStream c rs) :=
  inferInstanceAs (Decidable (∀ k ≤ rs.length, _))

theorem room_wf {c : TcpConnection} (h : c.read_buffer_.Wf) :
    (room c).readable = c.read_buffer_.readable ∧ (room c).Wf := by
  unfold room
  split_ifs
  · obtain ⟨h0, hr, hsz⟩ := id h
    have hfit : c.read_buffer_.readAble ≤ 2 * c.read_buffer_.getSize := by
      unfold TcpBuffer.readAble
      omega
    obtain ⟨r1, r2, -⟩ := TcpBuffer.resizeBuffer_spec h hfit
    exact ⟨r1, r2⟩
  · exact ⟨rfl, h⟩

theorem room_spec {c : TcpConnection} (h : c.read_buffer_.Wf) (hs : 1 ≤ c.read_buffer_.getSize) :
    (room c).readable = c.read_buffer_.readable ∧ (room c).Wf ∧ 1 ≤ readCount c := by
  obtain ⟨r1, r2⟩ := room_wf h
  refine ⟨r1, r2, ?_⟩
  obtain ⟨h0, hr, hsz⟩ := id h
  unfold readCount room
  by_cases hw : c.read_buffer_.writeAble = 0
  · have hra : c.read_buffer_.readAble ≤ c.read_buffer_.getSize := by
      unfold TcpBuffer.readAble
      omega
    have hfit : c.read_buffer_.readAble ≤ 2 * c.read_buffer_.getSize := by omega
    have hwi : (c.read_buffer_.resizeBuffer (2 * c.read_buffer_.getSize)).write_index_ =
        0 + min (2 * c.read_buffer_.getSize) c.read_buffer_.readAble := rfl
    rw [if_pos hw, TcpBuffer.writeAble, (TcpBuffer.resizeBuffer_spec h hfit).2.2, hwi]
    omega
  · rw [if_neg hw]
    unfold TcpBuffer.writeAble at *
    omega

/-- the read buffer after one iteration -/
theorem iterate_read_buffer (c : TcpConnection) (r : ReadResult) :
    (iterate c r).1.read_buffer_ = ((room c).store r.bytes).recycleWrite r.rt := by
  unfold iterate TcpConnection.clearClient TcpConnection.freshSlot
  dsimp only
  split_ifs <;> rfl

/-- An iteration whose read stops short of the free space commits its bytes; the loop ends there. -/
theorem iterate_short {c : TcpConnection} (h : c.read_buffer_.Wf) (hs : 1 ≤ c.read_buffer_.getSize) {bs : List Byte}
    (hb : bs.length < readCount c) :
    (iterate c (.data bs)).1.read_buffer_.readable = c.read_buffer_.readable ++ bs ∧
      (iterate c (.data bs)).2 = .returned := by
  obtain ⟨r1, r2, -⟩ := room_spec h hs
  refine ⟨?_, ?_⟩
  · rw [iterate_read_buffer, ← r1]
    have hj : (room c).write_index_ + bs.length < (room c).getSize := by
      unfold readCount TcpBuffer.writeAble at hb
      omega
    exact (TcpBuffer.recycleWrite_store_spec r2 hj).1
  · have hne : ¬ (bs.length : ℤ) = readCount c := by omega
    simp only [iterate, ReadResult.rt, hne, hb, if_true, if_false]
    split_ifs <;> rfl

/-- An iteration whose read fills the free space commits nothing. -/
theorem iterate_full {c : TcpConnection} (h : c.read_buffer_.Wf) (hs : 1 ≤ c.read_buffer_.getSize) {bs : List Byte}
    (hb : bs.length = readCount c) : (iterate c (.data bs)).1.read_buffer_.readable = c.read_buffer_.readable := by
  obtain ⟨r1, r2, -⟩ := room_spec h hs
  unfold readCount at hb
  obtain ⟨-, -, s3, -, s5⟩ := TcpBuffer.store_spec r2 hb.le
  have hj : ((room c).store bs).write_index_ + (bs.length : ℤ) ≥ (room c).getSize := by
    have hw : ((room c).store bs).write_index_ = (room c).write_index_ := rfl
    rw [hw]
    unfold TcpBuffer.writeAble at hb
    omega
  rw [iterate_read_buffer]
  show (((room c).store bs).recycleWrite bs.length).readable = _
  rw [TcpBuffer.recycleWrite_eq, s5, if_pos hj, s3, r1]

theorem run_cons_of_returned {c : TcpConnection} {r : ReadResult} {rs : List ReadResult}
    (hr : ((start c).step r).pc = .returned) (ha : Answers (start c) (r :: rs)) : rs = [] := by
  obtain ⟨-, -, -, ht⟩ := ha
  cases rs with
  | nil => rfl
  | cons r' rs => exact absurd (hr.symm.trans ht.1) (by decide)

theorem start_step {c : TcpConnection} (hc : c.state_ = .Connected) (r : ReadResult) :
    (start c).step r = ⟨(iterate c r).1, (iterate c r).2, r.bytes⟩ := by
  simp [start, step, hc]

end Input

/-- **input.** For a connected connection with a well formed read buffer and any answers of `read_hook`, every loop head
and the return see the bytes readable at entry followed by all the delivered bytes if and only if the first answer is
shorter than the count asked for: a read that fills the free space is not committed. -/
theorem input_keeps_stream_iff (c : TcpConnection) (hc : c.state_ = .Connected) (h : c.read_buffer_.Wf)
    (hs : 1 ≤ c.read_buffer_.getSize) (rs : List ReadResult) (ha : Input.Answers (Input.start c) rs) :
    Input.KeepsStream c rs ↔ ∀ r ∈ rs.head?, r.rt < Input.readCount c := by
  cases rs with
  | nil => simp [Input.KeepsStream, Input.run, Input.start]
  | cons r rs =>
    obtain ⟨-, he, hle, -⟩ := id ha
    obtain ⟨bs, rfl⟩ : ∃ bs, r = .data bs := by
      cases r with
      | data bs => exact ⟨bs, rfl⟩
      | error => exact absurd rfl he
    have hone : Input.run c [.data bs] = ⟨(Input.iterate c (.data bs)).1, (Input.iterate c (.data bs)).2, bs⟩ :=
      Input.start_step hc _
    simp only [List.head?_cons, Option.mem_some_iff, forall_eq']
    refine ⟨?_, ?_⟩
    · intro hk
      -- a full first read is already missing at the second loop head
      by_contra hfull
      have hbs : (bs.length : ℤ) = Input.readCount c := le_antisymm hle (not_lt.1 hfull)
      have h1 := hk 1 (by simp)
      rw [List.take_succ_cons, List.take_zero, hone, Input.iterate_full h hs hbs, List.self_eq_append_right] at h1
      have h2 := (Input.room_spec h hs).2.2
      obtain rfl : bs = [] := h1
      rw [← hbs] at h2
      simp at h2
    · intro hlt
      -- a short first read ends the loop, so it is the only one
      obtain ⟨i1, i2⟩ := Input.iterate_short h hs hlt
      obtain rfl : rs = [] := Input.run_cons_of_returned (by rw [Input.start_step hc, i2]) ha
      intro k hk
      obtain rfl | rfl : k = 0 ∨ k = 1 := by simpa [Nat.le_one_iff_eq_zero_or_eq_one] using hk
      · simp [Input.run, Input.start]
      · rw [List.take_succ_cons, List.take_zero, hone, i1]

/-- a connected server connection as its constructor leaves it, with buffers of `size` bytes -/
def accepted (size : ℕ) : TcpConnection :=
  ⟨.Connected, .ServerConnection, TcpBuffer.make size, TcpBuffer.make size, false, true, []⟩

theorem input_keeps_short_read : Input.KeepsStream (accepted 128) [.data [1, 2, 3]] :=
  (input_keeps_stream_iff (accepted 128) rfl (by decide +kernel) (by decide +kernel) [.data [1, 2, 3]]
    (by decide +kernel)).2 (by decide +kernel)

/-- A message of 128 bytes arrives in a buffer of 128: it is not committed, and the next read overwrites it. -/
theorem input_drops_full_read :
    Input.Answers (Input.start (accepted 128)) [.data (List.replicate 128 1), .data [5]] ∧
    (Input.run (accepted 128) [.data (List.replicate 128 1), .data [5]]).pc = .returned ∧
    (Input.run (accepted 128) [.data (List.replicate 128 1), .data [5]]).conn.read_buffer_.readable = [5] ∧
    ¬ Input.KeepsStream (accepted 128) [.data (List.replicate 128 1), .data [5]] := by
  decide +kernel

/-! ## output -/

/-- a call of `output` in progress -/
structure Output where
  conn : TcpConnection
  pc : Pc
  /-- all bytes the socket has accepted from this call -/
  accepted : List Byte
deriving DecidableEq, Repr

namespace Output

def start (c : TcpConnection) : Output := ⟨c, .head, []⟩

/-- does the loop get to its call of `write_hook` from here? Otherwise it breaks at the head, or has returned -/
def CallsHook (s : Output) : Prop := s.pc = .head ∧ s.conn.state_ = .Connected ∧ s.conn.write_buffer_.readAble ≠ 0

instance (s : Output) : Decidable s.CallsHook := inferInstanceAs (Decidable (_ ∧ _ ∧ _))

/-- one iteration of the loop, given the answer of `write_hook` (an answer of 0 or -1 is only logged) -/
def iterate (c : TcpConnection) (rt : ℤ) : TcpConnection × Pc :=
  let c := { c with write_buffer_ := c.write_buffer_.recycleRead rt }
  if c.write_buffer_.readAble ≤ 0 then ({ c with effects := c.effects ++ [.delListenWrite] }, .returned) else (c, .head)

def step (s : Output) (rt : ℤ) : Output :=
  if s.CallsHook then
    let b := s.conn.write_buffer_
    let (c, pc) := iterate s.conn rt
    -- the socket has taken the first `rt` of the bytes it was shown
    ⟨c, pc, s.accepted ++ b.bytesAt b.read_index_ rt⟩
  else { s with pc := .returned }

def run (s : Output) (ns : List ℤ) : Output := ns.foldl step s

/-- the answers are ones `write_hook` may give without an error: each call takes at least one byte and at most the
bytes it was shown, and there is no answer without a call -/
def Answers (s : Output) : List ℤ → Prop
  | [] => True
  | n :: ns => s.CallsHook ∧ 1 ≤ n ∧ n ≤ s.conn.write_buffer_.readAble ∧ Answers (s.step n) ns

instance Answers.decidable (s : Output) : (ns : List ℤ) → Decidable (Answers s ns)
  | [] => inferInstanceAs (Decidable True)
  | n :: ns =>
    have := Answers.decidable (s.step n) ns
    inferInstanceAs (Decidable (_ ∧ _ ∧ _ ∧ _))

/-- at every loop head the accepted bytes and the readable ones make up the bytes readable at entry, and once all of
those are accepted the loop does not call `write_hook` again -/
def SendsOnce (c : TcpConnection) (ns : List ℤ) : Prop :=
  ∀ k ≤ ns.length, (run (start c) (ns.take k)).accepted ++ (run (start c) (ns.take k)).conn.write_buffer_.readable =
      c.write_buffer_.readable ∧
    ((run (start c) (ns.take k)).accepted = c.write_buffer_.readable → ¬ (run (start c) (ns.take k)).CallsHook)

instance (c : TcpConnection) (ns : List ℤ) : Decidable (SendsOnce c ns) :=
  inferInstanceAs (Decidable (∀ k ≤ ns.length, _))

/-- the bytes of the buffer end with the vector, and the answer that completes them finds the buffer not compacted: it is
the first one, or the read index before it is still within the first third -/
def Overruns (b : TcpBuffer) (ns : List ℤ) : Prop :=
  b.write_index_ = b.getSize ∧ ∃ k < ns.length, (ns.take (k + 1)).sum = b.readAble ∧
    (k = 0 ∨ b.read_index_ + (ns.take k).sum ≤ b.getSize / 3)

instance (b : TcpBuffer) (ns : List ℤ) : Decidable (Overruns b ns) :=
  inferInstanceAs (Decidable (_ ∧ ∃ k < ns.length, _))

variable {s : Output} {n : ℤ} {ns : List ℤ}

theorem step_buffer (hc : s.CallsHook) (n : ℤ) :
    (s.step n).conn.write_buffer_ = s.conn.write_buffer_.recycleRead n ∧
      (s.step n).accepted = s.accepted ++ s.conn.write_buffer_.bytesAt s.conn.write_buffer_.read_index_ n := by
  unfold step iterate
  rw [if_pos hc]
  dsimp only
  split_ifs <;> exact ⟨rfl, rfl⟩

theorem step_wf (h : s.conn.write_buffer_.Wf) (hc : s.CallsHook) (h1 : 1 ≤ n)
    (hn : n ≤ s.conn.write_buffer_.readAble) : (s.step n).conn.write_buffer_.Wf := by
  rw [(step_buffer hc n).1]
  by_cases hj : s.conn.write_buffer_.read_index_ + n < s.conn.write_buffer_.getSize
  · exact (TcpBuffer.recycleRead_spec h (by omega) hn hj).2.1
  · rw [TcpBuffer.recycleRead_eq, if_pos (not_lt.1 hj)]
    exact h

theorem run_wf (h : s.conn.write_buffer_.Wf) (ha : Answers s ns) (k : ℕ) :
    (run s (ns.take k)).conn.write_buffer_.Wf := by
  induction ns generalizing s k with
  | nil => rw [List.take_nil]; exact h
  | cons n ns ih =>
    obtain ⟨hc, h1, hn, ht⟩ := ha
    cases k with
    | zero => exact h
    | succ k => exact ih (step_wf h hc h1 hn) ht k

theorem sum_take_nonneg (ha : Answers s ns) (k : ℕ) : 0 ≤ (ns.take k).sum := by
  induction ns generalizing s k with
  | nil => simp
  | cons n ns ih =>
    obtain ⟨-, h1, -, ht⟩ := ha
    cases k with
    | zero => simp
    | succ k =>
      have := ih ht k
      rw [List.take_succ_cons, List.sum_cons]
      omega

/-- the first half of `SendsOnce`, from any point of the loop -/
def Conserves (s : Output) (ns : List ℤ) : Prop :=
  ∀ k ≤ ns.length, (run s (ns.take k)).accepted ++ (run s (ns.take k)).conn.write_buffer_.readable =
    s.accepted ++ s.conn.write_buffer_.readable

/-- once nothing was lost or resent, `SendsOnce` has nothing more to ask: an empty buffer ends the loop -/
theorem sendsOnce_iff_conserves {c : TcpConnection} (h : c.write_buffer_.Wf) (ha : Answers (start c) ns) :
    SendsOnce c ns ↔ Conserves (start c) ns := by
  refine ⟨fun hs k hk => (hs k hk).1, fun hs k hk => ⟨hs k hk, fun hall hcall => hcall.2.2 ?_⟩⟩
  have hk' := hs k hk
  rw [hall] at hk'
  exact (TcpBuffer.readable_eq_nil (run_wf h ha k)).1 (List.append_right_eq_self.1 hk')

theorem conserves_cons : Conserves s (n :: ns) ↔
    (s.step n).accepted ++ (s.step n).conn.write_buffer_.readable = s.accepted ++ s.conn.write_buffer_.readable ∧
      Conserves (s.step n) ns := by
  refine ⟨?_, ?_⟩
  · intro h
    have h0 : (s.step n).accepted ++ (s.step n).conn.write_buffer_.readable =
        s.accepted ++ s.conn.write_buffer_.readable := h 1 (by simp)
    exact ⟨h0, fun k hk => (h (k + 1) (by simpa using hk)).trans h0.symm⟩
  · rintro ⟨h0, h⟩ k hk
    cases k with
    | zero => rfl
    | succ k => exact (h k (by simpa using hk)).trans h0

/-- an answer that is committed leaves the danger as it was -/
theorem overruns_cons {b : TcpBuffer} (h1 : 1 ≤ n) (hn : n ≤ b.readAble) (hwf : b.Wf)
    (hj : b.read_index_ + n < b.getSize) (hpos : ∀ k, 0 ≤ (ns.take k).sum) :
    Overruns b (n :: ns) ↔ Overruns (b.recycleRead n) ns := by
  obtain ⟨-, -, hsize⟩ := TcpBuffer.recycleRead_spec hwf (by omega) hn hj
  obtain ⟨hr, hw⟩ := TcpBuffer.recycleRead_index hj
  obtain ⟨h0, -, hle⟩ := hwf
  unfold Overruns TcpBuffer.readAble at *
  rw [hsize, hr, hw]
  split_ifs with hi
  · -- compacted: the bytes now end before the vector does, and stay so
    refine ⟨?_, fun ⟨hend, _⟩ => by omega⟩
    rintro ⟨hend, k, hk, hsum, hlow⟩
    cases k with
    | zero => simp at hsum; omega
    | succ k =>
      have := hpos k
      simp only [List.take_succ_cons, List.sum_cons] at hsum hlow
      omega
  · refine ⟨fun ⟨hend, k, hk, hsum, hlow⟩ => ⟨hend, ?_⟩, fun ⟨hend, k, hk, hsum, hlow⟩ => ⟨hend, k + 1, ?_, ?_, ?_⟩⟩
    · cases k with
      | zero => simp at hsum; omega
      | succ k =>
        simp only [List.take_succ_cons, List.sum_cons] at hsum hlow
        exact ⟨k, by simpa using hk, by omega, by omega⟩
    · simpa using hk
    · rw [List.take_succ_cons, List.sum_cons]
      omega
    · rw [List.take_succ_cons, List.sum_cons]
      rcases hlow with rfl | hlow
      · simp; omega
      · omega

/-- From any loop head: nothing is lost or resent exactly when the answers do not overrun the buffer. -/
theorem conserves_iff (h : s.conn.write_buffer_.Wf) (ha : Answers s ns) :
    Conserves s ns ↔ ¬ Overruns s.conn.write_buffer_ ns := by
  induction ns generalizing s with
  | nil => simp [Conserves, Overruns, run]
  | cons n ns ih =>
    obtain ⟨hc, h1, hn, ht⟩ := id ha
    obtain ⟨hb, hacc⟩ := step_buffer hc n
    rw [conserves_cons, hacc, hb]
    by_cases hj : s.conn.write_buffer_.read_index_ + n < s.conn.write_buffer_.getSize
    · -- the commit moves `n` bytes from the readable ones to the accepted ones
      have hsplit := (TcpBuffer.recycleRead_spec h (by omega) hn hj).1
      rw [List.append_assoc, ← hsplit, overruns_cons h1 hn h hj (sum_take_nonneg ht), ← hb, ← ih (step_wf h hc h1 hn) ht]
      exact and_iff_right rfl
    · -- the commit is dropped: the accepted bytes are all readable again
      have hlen := TcpBuffer.length_bytesAt h hn
      rw [TcpBuffer.recycleRead_eq, if_pos (not_lt.1 hj)]
      refine iff_of_false ?_ (fun hno => hno ⟨?_, 0, by simp, ?_, Or.inl rfl⟩)
      · rintro ⟨h2, _⟩
        have := congrArg List.length h2
        simp only [List.length_append, hlen] at this
        omega
      · have hle := h.write_le_size
        unfold TcpBuffer.readAble at hn
        omega
      · have hle := h.write_le_size
        unfold TcpBuffer.readAble at *
        simp
        omega

end Output

/-- **output.** For a connected connection with a well formed write buffer and any answers of `write_hook`, every byte is
sent exactly once if and only if the answers do not overrun the buffer. -/
theorem output_sends_once_iff (c : TcpConnection) (h : c.write_buffer_.Wf) (ns : List ℤ)
    (ha : Output.Answers (Output.start c) ns) : Output.SendsOnce c ns ↔ ¬ Output.Overruns c.write_buffer_ ns := by
  rw [Output.sendsOnce_iff_conserves h ha, Output.conserves_iff h ha]
  rfl

/-- the connection after the application has written `buf` to its out buffer -/
def TcpConnection.written (c : TcpConnection) (buf : List Byte) : TcpConnection :=
  { c with write_buffer_ := c.write_buffer_.writeToBuffer buf }

theorem output_sends_partial : Output.SendsOnce ((accepted 4).written [1, 2, 3]) [2, 1] :=
  (output_sends_once_iff ((accepted 4).written [1, 2, 3]) (by decide) [2, 1] (by decide)).2 (by decide)

/-- A response of exactly the size of the vector is accepted in one write and then sent a second time. -/
theorem output_resends_full :
    Output.Answers (Output.start ((accepted 128).written (List.replicate 128 1))) [128] ∧
    (Output.run (Output.start ((accepted 128).written (List.replicate 128 1))) [128]).CallsHook ∧
    (Output.run (Output.start ((accepted 128).written (List.replicate 128 1))) [128, 128]).accepted =
      List.replicate 256 1 ∧
    ¬ Output.SendsOnce ((accepted 128).written (List.replicate 128 1)) [128] := by
  decide +kernel

end TinyRpc.Net
