/-
Whole sequences of calls on one TcpConnection: `input` and `output` with every answer the hooks may give, between them
writes to the out buffer and reads from the in buffer.

Both loops pass the answer of the hook on to recycleWrite or recycleRead whatever its sign, and those test an upper
bound only: an answer of -1 moves an index back by one. An answer of 0 moves nothing.

Main result `buffers_sound_iff`: for every such sequence, both buffers keep their representation invariant and a failed
call leaves the readable bytes as they were, if and only if no hook answers -1.
-/
import Mathlib.Tactic
import TinyRpc.Core.Machine
import TinyRpc.Net.TcpConnection

namespace TinyRpc.Net.TcpSession

open TinyRpc.Core

/-- the function control is in: suspended in its hook, at a loop head -/
inductive Inside
  | none | input | output
deriving DecidableEq, Repr

structure St where
  conn : TcpConnection
  inside : Inside
deriving DecidableEq, Repr

inductive Op
  /-- a call of `input` -/
  | input
  /-- the answer of `read_hook` -/
  | readHook (r : ReadResult)
  /-- a call of `output` -/
  | output
  /-- the answer of `write_hook` -/
  | writeHook (rt : ℤ)
  /-- writeToBuffer on the out buffer -/
  | writeToBuffer (buf : List Byte)
  /-- readFromBuffer on the in buffer -/
  | readFromBuffer (size : ℤ)
deriving DecidableEq, Repr

/-- the head of output's loop: it goes on to `write_hook`, or leaves -/
def outputHead (c : TcpConnection) : St :=
  ⟨c, if c.state_ = .Connected ∧ c.write_buffer_.readAble ≠ 0 then .output else .none⟩

/-- an operation that is not possible changes nothing -/
def step (s : St) (o : Op) : St :=
  match s.inside, o with
  | .none, .input => ⟨s.conn, if s.conn.state_ = .Closed ∨ s.conn.state_ = .NotConnected then .none else .input⟩
  | .input, .readHook r =>
    let (c, pc) := Input.iterate s.conn r
    ⟨c, if pc = .returned then .none else .input⟩
  | .none, .output => outputHead s.conn
  | .output, .writeHook rt =>
    let (c, pc) := Output.iterate s.conn rt
    if pc = .returned then ⟨c, .none⟩ else outputHead c
  | .none, .writeToBuffer buf => ⟨s.conn.written buf, .none⟩
  | .none, .readFromBuffer size =>
    -- a negative count throws before anything is changed
    if size < 0 then s else ⟨{ s.conn with read_buffer_ := (s.conn.read_buffer_.readFromBuffer size).2 }, .none⟩
  | _, _ => s

/-- an answer the kernel may give: at most the requested size, 0, or -1 -/
def Kernel (s : St) : Op → Prop
  | .readHook r => s.inside = .input → r.rt ≤ Input.readCount s.conn
  | .writeHook rt => s.inside = .output → rt = -1 ∨ 0 ≤ rt ∧ rt ≤ s.conn.write_buffer_.readAble
  | _ => True

/-- a hook call that fails: the answer is 0 or -1 -/
def Fails (s : St) : Op → Prop
  | .readHook r => s.inside = .input ∧ r.rt ≤ 0
  | .writeHook rt => s.inside = .output ∧ rt ≤ 0
  | _ => False

structure Intact (c : TcpConnection) : Prop where
  read : c.read_buffer_.Wf
  write : c.write_buffer_.Wf

/-- wherever control leaves a function, and at every head of output's loop, both buffers are well formed; a failed call
leaves what is readable in them -/
structure Sound (s : St) (o : Op) : Prop where
  intact : (step s o).inside ≠ .input → Intact (step s o).conn
  failed : Fails s o → (step s o).conn.read_buffer_.readable = s.conn.read_buffer_.readable ∧
    (step s o).conn.write_buffer_.readable = s.conn.write_buffer_.readable

/-- no hook answers -1 -/
def NoError (s : St) : Op → Prop
  | .readHook r => s.inside = .input → r ≠ .error
  | .writeHook rt => s.inside = .output → rt ≠ -1
  | _ => True

instance (s : St) : (o : Op) → Decidable (Kernel s o)
  | .readHook r => inferInstanceAs (Decidable (s.inside = .input → r.rt ≤ Input.readCount s.conn))
  | .writeHook rt =>
    inferInstanceAs (Decidable (s.inside = .output → rt = -1 ∨ 0 ≤ rt ∧ rt ≤ s.conn.write_buffer_.readAble))
  | .input | .output | .writeToBuffer _ | .readFromBuffer _ => inferInstanceAs (Decidable True)

instance (s : St) : (o : Op) → Decidable (NoError s o)
  | .readHook r => inferInstanceAs (Decidable (s.inside = .input → r ≠ .error))
  | .writeHook rt => inferInstanceAs (Decidable (s.inside = .output → rt ≠ -1))
  | .input | .output | .writeToBuffer _ | .readFromBuffer _ => inferInstanceAs (Decidable True)

/-! ## One answer -/

variable {c : TcpConnection} {s : St}

theorem iterate_write_buffer (r : ReadResult) : (Input.iterate c r).1.write_buffer_ = c.write_buffer_ := by
  unfold Input.iterate TcpConnection.clearClient TcpConnection.freshSlot
  dsimp only
  split_ifs <;> rfl

theorem iterate_failed {r : ReadResult} (hr : r.rt ≤ 0) : (Input.iterate c r).2 = .returned := by
  simp [Input.iterate, hr]

/-- an answer with bytes, or of 0, keeps the buffer well formed; of 0, it keeps the readable bytes -/
theorem iterate_data (h : c.read_buffer_.Wf) {bs : List Byte} (hb : bs.length ≤ Input.readCount c) :
    (Input.iterate c (.data bs)).1.read_buffer_.Wf ∧
      (bs = [] → (Input.iterate c (.data bs)).1.read_buffer_.readable = c.read_buffer_.readable) := by
  obtain ⟨r1, r2⟩ := Input.room_wf h
  unfold Input.readCount at hb
  obtain ⟨-, -, s3, s4, s5⟩ := TcpBuffer.store_spec r2 hb
  rw [Input.iterate_read_buffer, ReadResult.bytes, ReadResult.rt, ← r1]
  by_cases hj : (Input.room c).write_index_ + bs.length < (Input.room c).getSize
  · obtain ⟨w1, w2⟩ := TcpBuffer.recycleWrite_store_spec r2 hj
    refine ⟨w2, ?_⟩
    rintro rfl
    rw [w1, List.append_nil]
  · have hif : ((Input.room c).store bs).write_index_ + bs.length ≥ ((Input.room c).store bs).getSize := by
      rw [s5]
      exact not_lt.1 hj
    rw [TcpBuffer.recycleWrite_eq, if_pos hif]
    exact ⟨s4, fun _ => s3⟩

/-- the adjustment keeps what is readable, so equal contents have equal lengths -/
theorem readAble_of_readable {b b' : TcpBuffer} (h : b.Wf) (h' : b'.Wf) (hread : b'.adjustBuffer.readable = b.readable) :
    b'.readAble = b.readAble := by
  have hlen := TcpBuffer.length_readable h
  have hlen' := TcpBuffer.length_readable h'
  rw [(TcpBuffer.adjustBuffer_spec h').1] at hread
  rw [hread, hlen] at hlen'
  exact hlen'.symm

/-- an answer of -1 moves the write index back: it takes a readable byte away, or leaves the index below the read index -/
theorem recycleWrite_neg {b : TcpBuffer} (h : b.Wf) :
    ¬ ((b.recycleWrite (-1)).Wf ∧ (b.recycleWrite (-1)).readable = b.readable) := by
  obtain ⟨h1, h2, h3⟩ := id h
  have hj : ¬ b.write_index_ + -1 ≥ b.getSize := by omega
  rw [TcpBuffer.recycleWrite_eq, if_neg hj]
  set b' : TcpBuffer := { b with write_index_ := b.write_index_ + -1 } with hb'
  rintro ⟨hwf, hread⟩
  by_cases hlt : b.read_index_ < b.write_index_
  · have hwf' : b'.Wf := ⟨h1, by simp only [hb']; omega, by simp only [hb', TcpBuffer.getSize] at *; omega⟩
    have hlen := readAble_of_readable h hwf' hread
    simp only [hb', TcpBuffer.readAble] at hlen
    omega
  · obtain ⟨i1, i2, -⟩ := hwf
    rw [TcpBuffer.adjustBuffer_eq] at i1 i2
    split_ifs at i1 i2 with hi
    · simp only [hb', TcpBuffer.readAble] at i2
      omega
    · simp only [hb'] at i2
      omega

/-- an answer of -1 moves the read index back: it brings a sent byte back, or leaves the index below zero -/
theorem recycleRead_neg {b : TcpBuffer} (h : b.Wf) :
    ¬ ((b.recycleRead (-1)).Wf ∧ (b.recycleRead (-1)).readable = b.readable) := by
  obtain ⟨h1, h2, h3⟩ := id h
  have hj : ¬ b.read_index_ + -1 ≥ b.getSize := by omega
  rw [TcpBuffer.recycleRead_eq, if_neg hj]
  set b' : TcpBuffer := { b with read_index_ := b.read_index_ + -1 } with hb'
  rintro ⟨hwf, hread⟩
  by_cases hpos : 0 < b.read_index_
  · have hwf' : b'.Wf := ⟨by simp only [hb']; omega, by simp only [hb']; omega, h3⟩
    have hlen := readAble_of_readable h hwf' hread
    simp only [hb', TcpBuffer.readAble] at hlen
    omega
  · obtain ⟨i1, -, -⟩ := hwf
    have hsize : 0 ≤ b'.getSize / 3 := Int.ediv_nonneg (Nat.cast_nonneg _) (by norm_num)
    have hi : ¬ b'.read_index_ > b'.getSize / 3 := by
      simp only [hb'] at *
      omega
    rw [TcpBuffer.adjustBuffer_eq, if_neg hi] at i1
    simp only [hb'] at i1
    omega

/-! ## One step -/

theorem outputHead_conn (c : TcpConnection) : (outputHead c).conn = c := rfl

theorem readHook_conn (hi : s.inside = .input) (r : ReadResult) :
    (step s (.readHook r)).conn = (Input.iterate s.conn r).1 := by
  simp only [step, hi]

theorem writeHook_conn (hi : s.inside = .output) (rt : ℤ) :
    (step s (.writeHook rt)).conn.read_buffer_ = s.conn.read_buffer_ ∧
      (step s (.writeHook rt)).conn.write_buffer_ = s.conn.write_buffer_.recycleRead rt ∧
      (step s (.writeHook rt)).inside ≠ .input := by
  simp only [step, hi, Output.iterate, outputHead]
  split_ifs <;> simp_all

/-- a step that is not a failed call is sound when it leaves the buffers well formed -/
theorem sound_of_intact {o : Op} (h : Intact (step s o).conn) (hf : ¬ Fails s o) : Sound s o :=
  ⟨fun _ => h, fun hfail => absurd hfail hf⟩

theorem readHook_sound (h : Intact s.conn) (hi : s.inside = .input) {bs : List Byte}
    (hb : bs.length ≤ Input.readCount s.conn) :
    Sound s (.readHook (.data bs)) ∧ Intact (step s (.readHook (.data bs))).conn := by
  obtain ⟨d1, d2⟩ := iterate_data h.read hb
  have hint : Intact (step s (.readHook (.data bs))).conn := by
    rw [readHook_conn hi]
    exact ⟨d1, by rw [iterate_write_buffer]; exact h.write⟩
  refine ⟨⟨fun _ => hint, ?_⟩, hint⟩
  rintro ⟨-, hrt⟩
  have hnil : bs = [] := by simpa [ReadResult.rt] using hrt
  rw [readHook_conn hi, iterate_write_buffer]
  exact ⟨d2 hnil, rfl⟩

/-- a read that fails with -1 is never harmless -/
theorem readHook_error (h : Intact s.conn) (hi : s.inside = .input) : ¬ Sound s (.readHook .error) := by
  rintro ⟨hint, hfail⟩
  have hret : (step s (.readHook .error)).inside ≠ .input := by
    have hpc : (Input.iterate s.conn .error).2 = .returned := iterate_failed (by decide)
    simp [step, hi, hpc]
  obtain ⟨r1, r2⟩ := Input.room_wf h.read
  have hroom : (([] : List Byte).length : ℤ) ≤ (Input.room s.conn).writeAble := by
    have := r2.write_le_size
    unfold TcpBuffer.writeAble
    simp only [List.length_nil, Nat.cast_zero]
    omega
  obtain ⟨-, -, s3, s4, -⟩ := TcpBuffer.store_spec r2 hroom
  refine recycleWrite_neg s4 ⟨?_, ?_⟩
  · have hw := (hint hret).read
    rw [readHook_conn hi, Input.iterate_read_buffer] at hw
    exact hw
  · have hr := (hfail ⟨hi, by decide⟩).1
    rw [readHook_conn hi, Input.iterate_read_buffer] at hr
    calc (((Input.room s.conn).store []).recycleWrite (-1)).readable = s.conn.read_buffer_.readable := hr
      _ = (Input.room s.conn).readable := r1.symm
      _ = ((Input.room s.conn).store []).readable := s3.symm

theorem writeHook_sound (h : Intact s.conn) (hi : s.inside = .output) {rt : ℤ} (h0 : 0 ≤ rt)
    (hn : rt ≤ s.conn.write_buffer_.readAble) :
    Sound s (.writeHook rt) ∧ Intact (step s (.writeHook rt)).conn := by
  obtain ⟨w1, w2, -⟩ := writeHook_conn hi rt
  have hcommit : (s.conn.write_buffer_.recycleRead rt).Wf ∧
      (rt ≤ 0 → (s.conn.write_buffer_.recycleRead rt).readable = s.conn.write_buffer_.readable) := by
    by_cases hj : s.conn.write_buffer_.read_index_ + rt < s.conn.write_buffer_.getSize
    · obtain ⟨c1, c2, -⟩ := TcpBuffer.recycleRead_spec h.write h0 hn hj
      refine ⟨c2, ?_⟩
      intro hle
      obtain rfl : rt = 0 := le_antisymm hle h0
      have hnone : s.conn.write_buffer_.bytesAt s.conn.write_buffer_.read_index_ 0 = [] := window_zero _ _
      rw [c1, hnone, List.nil_append]
    · rw [TcpBuffer.recycleRead_eq, if_pos (not_lt.1 hj)]
      exact ⟨h.write, fun _ => rfl⟩
  have hint : Intact (step s (.writeHook rt)).conn := ⟨by rw [w1]; exact h.read, by rw [w2]; exact hcommit.1⟩
  refine ⟨⟨fun _ => hint, ?_⟩, hint⟩
  rintro ⟨-, hle⟩
  rw [w1, w2]
  exact ⟨rfl, hcommit.2 hle⟩

/-- a write that fails with -1 is never harmless -/
theorem writeHook_error (h : Intact s.conn) (hi : s.inside = .output) : ¬ Sound s (.writeHook (-1)) := by
  rintro ⟨hint, hfail⟩
  obtain ⟨-, w2, w3⟩ := writeHook_conn hi (-1)
  refine recycleRead_neg h.write ⟨?_, ?_⟩
  · have hw := (hint w3).write
    rwa [w2] at hw
  · have hr := (hfail ⟨hi, by decide⟩).2
    rwa [w2] at hr

theorem step_sound_iff (s : St) (o : Op) (h : Intact s.conn) (hk : Kernel s o) :
    (Sound s o ↔ NoError s o) ∧ (NoError s o → Intact (step s o).conn) := by
  -- an operation that finds nobody waiting for it changes nothing
  have hidle : step s o = s → ¬ Fails s o → NoError s o →
      (Sound s o ↔ NoError s o) ∧ (NoError s o → Intact (step s o).conn) := by
    intro hsame hf hne
    have hint : Intact (step s o).conn := by rw [hsame]; exact h
    exact ⟨iff_of_true (sound_of_intact hint hf) hne, fun _ => hint⟩
  cases o with
  | readHook r =>
    by_cases hi : s.inside = .input
    · cases r with
      | error => exact ⟨iff_of_false (readHook_error h hi) fun hne => hne hi rfl, fun hne => absurd rfl (hne hi)⟩
      | data bs =>
        obtain ⟨h1, h2⟩ := readHook_sound h hi (hk hi)
        exact ⟨iff_of_true h1 fun _ => by simp, fun _ => h2⟩
    · refine hidle ?_ (fun hf => hi hf.1) fun hin => absurd hin hi
      cases hs : s.inside <;> simp_all [step]
  | writeHook rt =>
    by_cases hi : s.inside = .output
    · rcases hk hi with rfl | ⟨h0, hn⟩
      · exact ⟨iff_of_false (writeHook_error h hi) fun hne => hne hi rfl, fun hne => absurd rfl (hne hi)⟩
      · obtain ⟨h1, h2⟩ := writeHook_sound h hi h0 hn
        exact ⟨iff_of_true h1 fun _ => by omega, fun _ => h2⟩
    · refine hidle ?_ (fun hf => hi hf.1) fun hin => absurd hin hi
      cases hs : s.inside <;> simp_all [step]
  | input =>
    have hint : Intact (step s .input).conn := by
      cases hs : s.inside <;> simpa only [step, hs] using h
    exact ⟨iff_of_true (sound_of_intact hint id) trivial, fun _ => hint⟩
  | output =>
    have hint : Intact (step s .output).conn := by
      cases hs : s.inside <;> simpa only [step, hs, outputHead_conn] using h
    exact ⟨iff_of_true (sound_of_intact hint id) trivial, fun _ => hint⟩
  | writeToBuffer buf =>
    have hint : Intact (step s (.writeToBuffer buf)).conn := by
      cases hs : s.inside with
      | none =>
        simp only [step, hs]
        exact ⟨h.read, (TcpBuffer.writeToBuffer_spec h.write buf).2⟩
      | input => simpa only [step, hs] using h
      | output => simpa only [step, hs] using h
    exact ⟨iff_of_true (sound_of_intact hint id) trivial, fun _ => hint⟩
  | readFromBuffer size =>
    have hint : Intact (step s (.readFromBuffer size)).conn := by
      cases hs : s.inside with
      | none =>
        simp only [step, hs]
        split_ifs with hneg
        · exact h
        · exact ⟨(TcpBuffer.readFromBuffer_spec h.read (not_lt.1 hneg)).2.2, h.write⟩
      | input => simpa only [step, hs] using h
      | output => simpa only [step, hs] using h
    exact ⟨iff_of_true (sound_of_intact hint id) trivial, fun _ => hint⟩

/-- **Failures.** For every connection with well formed buffers and every sequence of calls and answers: both buffers stay
well formed and failed calls leave the readable bytes, if and only if no hook answers -1. -/
theorem buffers_sound_iff (c : TcpConnection) (h : Intact c) (ops : List Op) (hk : Along step Kernel ⟨c, .none⟩ ops) :
    Along step Sound ⟨c, .none⟩ ops ↔ Along step NoError ⟨c, .none⟩ ops :=
  along_iff_of_inv step_sound_iff h hk

/-- a request read in two calls, a response that the socket takes after an answer of 0, and the peer's close -/
def exchangeThenClose : List Op :=
  [.input, .readHook (.data [1, 2]), .readFromBuffer 1, .writeToBuffer [7, 8, 9], .output, .writeHook 2, .writeHook 0,
   .writeHook 1, .input, .readHook (.data [3]), .readFromBuffer 5, .input, .readHook (.data [])]

theorem exchangeThenClose_sound : Along step Sound ⟨accepted 8, .none⟩ exchangeThenClose :=
  (buffers_sound_iff (accepted 8) ⟨by decide, by decide⟩ exchangeThenClose (by decide)).2 (by decide)

/-- A write that fails with -1 leaves the read index at -1, a read that fails with -1 takes a readable byte away. -/
theorem failed_hook_corrupts :
    (step ⟨(accepted 128).written [1], .output⟩ (.writeHook (-1))).conn.write_buffer_.read_index_ = -1 ∧
    Along step Kernel ⟨accepted 128, .none⟩ [.writeToBuffer [1], .output, .writeHook (-1)] ∧
    ¬ Along step Sound ⟨accepted 128, .none⟩ [.writeToBuffer [1], .output, .writeHook (-1)] ∧
    (run step ⟨accepted 128, .none⟩ [.input, .readHook (.data [1, 2]), .input, .readHook .error]).conn.read_buffer_.readable =
      [1] := by
  refine ⟨by decide +kernel, by decide +kernel, ?_, by decide +kernel⟩
  intro h
  have hlast : Along step Sound ⟨accepted 128, .none⟩ ([.writeToBuffer [1], .output] ++ [.writeHook (-1)]) := h
  have hwf := (hlast.last.intact (by decide +kernel)).write
  exact absurd hwf (by decide +kernel)

end TinyRpc.Net.TcpSession
