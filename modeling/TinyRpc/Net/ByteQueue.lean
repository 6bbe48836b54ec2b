/-
TcpBuffer as a FIFO byte queue.

`step` is any call of the buffer's public operations, `Fifo.step` what the same call does to a queue of bytes. Every
memcpy of a call is listed in `copies` with the range it reads and the range it writes; `copies_made` ties the list to what
the call does to the vectors.

Main result `tcpBuffer_fifo`: for every constructor size and every sequence of calls, the representation invariant
holds, the readable bytes are the queue, no memcpy leaves its source or destination, and a read takes exactly the front
of the queue.
-/
import Mathlib.Tactic
import TinyRpc.Core.Machine
import TinyRpc.Net.TcpBuffer

namespace TinyRpc.Net.ByteQueue

open TinyRpc.Core TcpBuffer

inductive Op
  | writeToBuffer (buf : List Byte)
  | readFromBuffer (size : ℤ)
  | resizeBuffer (size : ℤ)
  | adjustBuffer
  | clearBuffer
deriving DecidableEq, Repr

def step (b : TcpBuffer) : Op → TcpBuffer
  | .writeToBuffer buf => b.writeToBuffer buf
  | .readFromBuffer size => (b.readFromBuffer size).2
  | .resizeBuffer size => b.resizeBuffer size
  | .adjustBuffer => b.adjustBuffer
  | .clearBuffer => b.clearBuffer

/-- the calls a user makes: no negative count, and no size that would cut readable bytes off -/
def Legal (b : TcpBuffer) : Op → Prop
  | .readFromBuffer size => 0 ≤ size
  | .resizeBuffer size => b.readAble ≤ size
  | _ => True

instance (b : TcpBuffer) : (o : Op) → Decidable (Legal b o)
  | .readFromBuffer size => inferInstanceAs (Decidable (0 ≤ size))
  | .resizeBuffer size => inferInstanceAs (Decidable (b.readAble ≤ size))
  | .writeToBuffer _ | .adjustBuffer | .clearBuffer => inferInstanceAs (Decidable True)

/-- the queue of the bytes written since the last clear and not yet read -/
def Fifo.step (q : List Byte) : Op → List Byte
  | .writeToBuffer buf => q ++ buf
  | .readFromBuffer size => q.drop size.toNat
  | .clearBuffer => []
  | _ => q

/-! ## The copies of a call -/

/-- a memcpy of `count` bytes from offset `src` of an array of `srcSize` to offset `dst` of one of `dstSize` -/
structure Copy where
  srcSize : ℤ
  src : ℤ
  dstSize : ℤ
  dst : ℤ
  count : ℤ
deriving DecidableEq, Repr

structure Copy.InBounds (m : Copy) : Prop where
  count_nonneg : 0 ≤ m.count
  src_nonneg : 0 ≤ m.src
  src_le : m.src + m.count ≤ m.srcSize
  dst_nonneg : 0 ≤ m.dst
  dst_le : m.dst + m.count ≤ m.dstSize

def resizeCopy (b : TcpBuffer) (size : ℤ) : Copy := ⟨b.getSize, b.read_index_, size, 0, min size b.readAble⟩

def adjustCopies (b : TcpBuffer) : List Copy :=
  if b.read_index_ > b.getSize / 3 then [⟨b.getSize, b.read_index_, b.getSize, 0, b.readAble⟩] else []

/-- the memcpy calls, in order -/
def copies (b : TcpBuffer) : Op → List Copy
  | .writeToBuffer buf =>
    let size : ℤ := buf.length
    (if size > b.writeAble then [resizeCopy b ((3 * (b.write_index_ + size)).tdiv 2)] else []) ++
      [⟨size, 0, (b.grown size).getSize, (b.grown size).write_index_, size⟩]
  | .readFromBuffer size =>
    if b.readAble = 0 then []
    else
      let read_size := if b.readAble > size then size else b.readAble
      ⟨b.getSize, b.read_index_, read_size, 0, read_size⟩ ::
        adjustCopies { b with read_index_ := b.read_index_ + read_size }
  | .resizeBuffer size => [resizeCopy b size]
  | .adjustBuffer => adjustCopies b
  | .clearBuffer => []

variable {b : TcpBuffer}

theorem resizeCopy_inBounds (h : b.Wf) {size : ℤ} (hs : b.readAble ≤ size) : (resizeCopy b size).InBounds := by
  obtain ⟨h1, h2, h3⟩ := h
  have hmin : min size b.readAble = b.readAble := min_eq_right hs
  unfold resizeCopy
  rw [hmin]
  unfold readAble at *
  exact ⟨by simp only; omega, h1, by simp only; omega, le_rfl, by simp only; omega⟩

theorem adjustCopies_inBounds (h : b.Wf) : ∀ m ∈ adjustCopies b, m.InBounds := by
  obtain ⟨h1, h2, h3⟩ := h
  intro m hm
  unfold adjustCopies at hm
  split_ifs at hm
  · rw [List.mem_singleton] at hm
    subst hm
    unfold readAble
    exact ⟨by simp only; omega, h1, by simp only; omega, le_rfl, by simp only; omega⟩
  · exact absurd hm List.not_mem_nil

/-- No memcpy of a legal call leaves its source or its destination. -/
theorem copies_inBounds (h : b.Wf) {o : Op} (ho : Legal b o) : ∀ m ∈ copies b o, m.InBounds := by
  cases o with
  | writeToBuffer buf =>
    have h0 : (0 : ℤ) ≤ buf.length := Nat.cast_nonneg _
    obtain ⟨-, g2, g3⟩ := grown_spec h h0
    obtain ⟨i1, i2, i3⟩ := g2
    intro m hm
    rcases List.mem_append.1 hm with hm | hm
    · split_ifs at hm
      · rw [List.mem_singleton] at hm
        subst hm
        have hfit := readAble_le_new_size h h0
        exact resizeCopy_inBounds h (by omega)
      · exact absurd hm List.not_mem_nil
    · rw [List.mem_singleton] at hm
      subst hm
      unfold writeAble at g3
      exact ⟨h0, le_rfl, by simp, by simp only; omega, by simp only; omega⟩
  | readFromBuffer size =>
    intro m hm
    obtain ⟨k1, k2⟩ := read_size_bounds h ho
    by_cases h0 : b.readAble = 0
    · simp only [copies, if_pos h0] at hm
      exact absurd hm List.not_mem_nil
    · simp only [copies, if_neg h0] at hm
      generalize (if b.readAble > size then size else b.readAble) = k at *
      rcases List.mem_cons.1 hm with rfl | hm
      · obtain ⟨h1, -, h3⟩ := h
        refine ⟨k1, h1, ?_, le_rfl, by simp⟩
        unfold readAble at k2
        simp only
        omega
      · exact adjustCopies_inBounds (advance_wf h k1 k2) m hm
  | resizeBuffer size =>
    intro m hm
    rw [copies, List.mem_singleton] at hm
    subst hm
    exact resizeCopy_inBounds h ho
  | adjustBuffer => exact adjustCopies_inBounds h
  | clearBuffer => exact fun m hm => absurd hm List.not_mem_nil

/-- out of the array `src`, the memcpy makes `dst'` of the array `dst` -/
structure Copy.Moves (m : Copy) (src dst dst' : List Byte) : Prop where
  srcSize : m.srcSize = src.length
  dstSize : m.dstSize = dst.length
  result : dst' = blit dst m.dst.toNat (window src m.src.toNat m.count.toNat)

/-- `l'` is swapped in for `l` after the copy into a new vector, or is `l` where there is no copy -/
def Swapped (l : List Byte) (ms : List Copy) (l' : List Byte) : Prop :=
  (ms = [] ∧ l' = l) ∨ ∃ m n, ms = [m] ∧ m.Moves l (List.replicate n 0) l'

/-- the vectors after a call come out of the copies listed for it, in order -/
def Made (b : TcpBuffer) : Op → Prop
  | .writeToBuffer buf => ∃ ms m l, copies b (.writeToBuffer buf) = ms ++ [m] ∧ Swapped b.buffer_ ms l ∧
      m.Moves buf l (b.writeToBuffer buf).buffer_
  | .readFromBuffer size => (copies b (.readFromBuffer size) = [] ∧ b.readFromBuffer size = (none, b)) ∨
      ∃ m ms n re, copies b (.readFromBuffer size) = m :: ms ∧ m.Moves b.buffer_ (List.replicate n 0) re ∧
        (b.readFromBuffer size).1 = some re ∧ Swapped b.buffer_ ms (b.readFromBuffer size).2.buffer_
  | .resizeBuffer size => Swapped b.buffer_ (copies b (.resizeBuffer size)) (b.resizeBuffer size).buffer_
  | .adjustBuffer => Swapped b.buffer_ (copies b .adjustBuffer) b.adjustBuffer.buffer_
  | .clearBuffer => copies b .clearBuffer = []

theorem resizeCopy_made (b : TcpBuffer) {size : ℤ} (h0 : 0 ≤ size) :
    Swapped b.buffer_ [resizeCopy b size] (b.resizeBuffer size).buffer_ := by
  refine Or.inr ⟨_, size.toNat, rfl, rfl, ?_, rfl⟩
  rw [List.length_replicate, Int.toNat_of_nonneg h0]
  rfl

theorem adjustCopies_made (b : TcpBuffer) : Swapped b.buffer_ (adjustCopies b) b.adjustBuffer.buffer_ := by
  unfold adjustCopies adjustBuffer
  split_ifs
  · refine Or.inr ⟨_, b.buffer_.length, rfl, rfl, ?_, rfl⟩
    rw [List.length_replicate]
    rfl
  · exact Or.inl ⟨rfl, rfl⟩

/-- **The copies listed are those that are made.** -/
theorem copies_made (h : b.Wf) {o : Op} (ho : Legal b o) : Made b o := by
  cases o with
  | writeToBuffer buf =>
    refine ⟨_, _, (b.grown buf.length).buffer_, rfl, ?_, by simp, rfl, ?_⟩
    · unfold grown
      split_ifs
      · have hfit := readAble_le_new_size h (Nat.cast_nonneg buf.length)
        have hread := h.read_le_write
        refine resizeCopy_made b ?_
        unfold readAble at hfit
        omega
      · exact Or.inl ⟨rfl, rfl⟩
    · have hall : window buf (0 : ℤ).toNat (buf.length : ℤ).toNat = buf := by simp [window]
      dsimp only
      rw [hall]
      rfl
  | readFromBuffer size =>
    obtain ⟨hnonneg, hle⟩ := read_size_bounds h ho
    by_cases h0 : b.readAble = 0
    · exact Or.inl ⟨if_pos h0, if_pos h0⟩
    · right
      have hlen := length_bytesAt h hle
      simp only [copies, readFromBuffer, if_neg h0]
      generalize (if b.readAble > size then size else b.readAble) = k at *
      refine ⟨_, _, k.toNat, _, rfl, ⟨rfl, ?_, ?_⟩, rfl, adjustCopies_made _⟩
      · rw [List.length_replicate, Int.toNat_of_nonneg hnonneg]
      · -- the new vector is overwritten as a whole
        show b.bytesAt b.read_index_ k = blit (List.replicate k.toNat 0) 0 (b.bytesAt b.read_index_ k)
        rw [blit, List.take_zero, List.nil_append, Nat.zero_add, hlen, List.drop_eq_nil_of_le (by simp), List.append_nil]
  | resizeBuffer size =>
    have hread := h.read_le_write
    refine resizeCopy_made b (le_trans ?_ ho)
    unfold readAble
    omega
  | adjustBuffer => exact adjustCopies_made b
  | clearBuffer => rfl

/-! ## Refinement -/

/-- the buffer represents the queue -/
def Represents (b : TcpBuffer) (q : List Byte) : Prop := b.Wf ∧ b.readable = q

theorem step_represents (b : TcpBuffer) (q : List Byte) (o : Op) (h : Represents b q) (ho : Legal b o) :
    Represents (step b o) (Fifo.step q o) := by
  obtain ⟨h, rfl⟩ := h
  cases o with
  | writeToBuffer buf =>
    obtain ⟨w1, w2⟩ := writeToBuffer_spec h buf
    exact ⟨w2, w1⟩
  | readFromBuffer size =>
    obtain ⟨-, r2, r3⟩ := readFromBuffer_spec h ho
    exact ⟨r3, r2⟩
  | resizeBuffer size =>
    obtain ⟨r1, r2, -⟩ := resizeBuffer_spec h ho
    exact ⟨r2, r1⟩
  | adjustBuffer =>
    obtain ⟨a1, a2, -⟩ := adjustBuffer_spec h
    exact ⟨a2, a1⟩
  | clearBuffer => exact ⟨make_wf 0, by simp [step, clearBuffer, Fifo.step, readable, bytesAt, readAble, window_zero]⟩

/-- the copies of the call are those listed and stay in bounds, and a read that finds bytes puts the first
min(n, readAble) of them into `re` and removes exactly these -/
structure Served (b : TcpBuffer) (o : Op) : Prop where
  made : Made b o
  inBounds : ∀ m ∈ copies b o, m.InBounds
  taken : ∀ n, o = .readFromBuffer n → 1 ≤ b.readAble →
    (b.readFromBuffer n).1 = some (b.readable.take (min n b.readAble).toNat) ∧
      (b.readFromBuffer n).2.readable = b.readable.drop (min n b.readAble).toNat

theorem served (h : b.Wf) {o : Op} (ho : Legal b o) : Served b o := by
  refine ⟨copies_made h ho, copies_inBounds h ho, ?_⟩
  rintro n rfl h1
  have hlen := length_readable h
  obtain ⟨r1, r2, -⟩ := readFromBuffer_spec h ho
  have htake : b.readable.take (min n b.readAble).toNat = b.readable.take n.toNat := by
    rcases min_choice n b.readAble with hm | hm
    · rw [hm]
    · rw [hm, List.take_of_length_le (by omega), List.take_of_length_le (by omega)]
  have hdrop : b.readable.drop (min n b.readAble).toNat = b.readable.drop n.toNat := by
    rcases min_choice n b.readAble with hm | hm
    · rw [hm]
    · rw [hm, List.drop_of_length_le (by omega), List.drop_of_length_le (by omega)]
  exact ⟨by rw [htake]; exact r1 (by omega), by rw [hdrop]; exact r2⟩

/-- **TcpBuffer is a FIFO byte queue.** After every sequence of calls on a buffer of any size the representation
invariant holds and the readable bytes are the bytes written since the last clear minus the bytes read; and every call
of the sequence keeps its copies in bounds and takes exactly what it was asked for. -/
theorem tcpBuffer_fifo (size : ℕ) (ops : List Op) (h : Along step Legal (make size) ops) :
    (run step (make size) ops).Wf ∧ (run step (make size) ops).readable = run Fifo.step [] ops ∧
      Along step Served (make size) ops := by
  have h0 : Represents (make size) [] :=
    ⟨make_wf size, by simp [make, readable, bytesAt, readAble, window_zero]⟩
  obtain ⟨hwf, hread⟩ := run_sim step_represents h0 h
  refine ⟨hwf, hread, along_of_inv ?_ (make_wf size) h⟩
  intro b o hb ho
  exact ⟨served hb ho, (step_represents b b.readable o ⟨hb, rfl⟩ ho).1⟩

/-- growth, a partial read, a compaction, a clear and a write into the empty vector -/
def mixedCalls : List Op :=
  [.writeToBuffer [1, 2, 3], .readFromBuffer 2, .writeToBuffer [4, 5, 6, 7], .adjustBuffer, .readFromBuffer 3,
   .resizeBuffer 2, .clearBuffer, .writeToBuffer [8, 9], .readFromBuffer 1]

theorem tcpBuffer_fifo_mixed : (run step (make 4) mixedCalls).Wf ∧ (run step (make 4) mixedCalls).readable = [9] ∧
    Along step Served (make 4) mixedCalls := by
  have h := tcpBuffer_fifo 4 mixedCalls (by decide)
  exact ⟨h.1, h.2.1.trans (by decide), h.2.2⟩

end TinyRpc.Net.ByteQueue
