/-
TcpBuffer (net/tcp_buffer.cc): one vector of bytes with a read index and a write index.

Indices and sizes are the source's `int`, as exact integers; nothing checks their sign, so a negative count moves an index
below zero as it does there. `readable` is the range between the two indices, and every operation is specified on it:
- `resizeBuffer_spec`, `adjustBuffer_spec`: growth and compaction keep it;
- `writeToBuffer_spec`, `readFromBuffer_spec`: a write appends to it, a read takes its front;
- `recycleRead_eq`, `recycleWrite_eq`: an index commit is carried out only when it stops short of the end of the vector.
`Wf` is the representation invariant 0 <= read_index_ <= write_index_ <= size.
-/
import Mathlib.Tactic
import TinyRpc.Core.Bytes
import TinyRpc.Core.Window

namespace TinyRpc.Net

open TinyRpc.Core

structure TcpBuffer where
  read_index_ : ℤ
  write_index_ : ℤ
  buffer_ : List Byte
deriving DecidableEq, Repr

namespace TcpBuffer

/-- the constructor: `size` zero bytes -/
def make (size : ℕ) : TcpBuffer := ⟨0, 0, List.replicate size 0⟩

def getSize (b : TcpBuffer) : ℤ := b.buffer_.length

def readAble (b : TcpBuffer) : ℤ := b.write_index_ - b.read_index_

def writeAble (b : TcpBuffer) : ℤ := b.getSize - b.write_index_

/-- the bytes a memcpy of `n` from `&buffer_[i]` reads -/
def bytesAt (b : TcpBuffer) (i n : ℤ) : List Byte := window b.buffer_ i.toNat n.toNat

/-- the bytes between the two indices -/
def readable (b : TcpBuffer) : List Byte := b.bytesAt b.read_index_ b.readAble

def resizeBuffer (b : TcpBuffer) (size : ℤ) : TcpBuffer :=
  let c := min size b.readAble
  ⟨0, 0 + c, blit (List.replicate size.toNat 0) 0 (b.bytesAt b.read_index_ c)⟩

/-- a write of bytes into the vector at the write index, without a commit: what `read_hook` does to it -/
def store (b : TcpBuffer) (buf : List Byte) : TcpBuffer :=
  { b with buffer_ := blit b.buffer_ b.write_index_.toNat buf }

def writeToBuffer (b : TcpBuffer) (buf : List Byte) : TcpBuffer :=
  let size : ℤ := buf.length
  -- (int)(1.5 * (write_index_ + size)) rounds towards zero
  let b := if size > b.writeAble then b.resizeBuffer ((3 * (b.write_index_ + size)).tdiv 2) else b
  { b.store buf with write_index_ := b.write_index_ + size }

def adjustBuffer (b : TcpBuffer) : TcpBuffer :=
  if b.read_index_ > b.getSize / 3 then
    let count := b.readAble
    ⟨0, count, blit (List.replicate b.buffer_.length 0) 0 (b.bytesAt b.read_index_ count)⟩
  else b

/-- the bytes taken, `none` when `re` is left as it was, and the buffer afterwards -/
def readFromBuffer (b : TcpBuffer) (size : ℤ) : Option (List Byte) × TcpBuffer :=
  if b.readAble = 0 then (none, b)
  else
    let read_size := if b.readAble > size then size else b.readAble
    (some (b.bytesAt b.read_index_ read_size), adjustBuffer { b with read_index_ := b.read_index_ + read_size })

def clearBuffer (_ : TcpBuffer) : TcpBuffer := ⟨0, 0, []⟩

def recycleRead (b : TcpBuffer) (index : ℤ) : TcpBuffer :=
  let j := b.read_index_ + index
  if j ≥ b.getSize then b else adjustBuffer { b with read_index_ := j }

def recycleWrite (b : TcpBuffer) (index : ℤ) : TcpBuffer :=
  let j := b.write_index_ + index
  if j ≥ b.getSize then b else adjustBuffer { b with write_index_ := j }

/-! ## The representation invariant -/

structure Wf (b : TcpBuffer) : Prop where
  read_nonneg : 0 ≤ b.read_index_
  read_le_write : b.read_index_ ≤ b.write_index_
  write_le_size : b.write_index_ ≤ b.getSize

instance (b : TcpBuffer) : Decidable b.Wf :=
  decidable_of_iff (0 ≤ b.read_index_ ∧ b.read_index_ ≤ b.write_index_ ∧ b.write_index_ ≤ b.getSize)
    ⟨fun ⟨h1, h2, h3⟩ => ⟨h1, h2, h3⟩, fun ⟨h1, h2, h3⟩ => ⟨h1, h2, h3⟩⟩

theorem make_wf (size : ℕ) : (make size).Wf := ⟨le_rfl, le_rfl, by simp [make, getSize]⟩

variable {b : TcpBuffer}

theorem length_bytesAt (h : b.Wf) {n : ℤ} (hn : n ≤ b.readAble) : (b.bytesAt b.read_index_ n).length = n.toNat := by
  obtain ⟨h1, h2, h3⟩ := h
  unfold readAble getSize at *
  exact length_window (by omega)

theorem length_readable (h : b.Wf) : (b.readable.length : ℤ) = b.readAble := by
  have h1 := h.read_le_write
  rw [readable, length_bytesAt h le_rfl]
  unfold readAble
  omega

theorem readable_eq_nil (h : b.Wf) : b.readable = [] ↔ b.readAble = 0 := by
  rw [← List.length_eq_zero_iff, ← length_readable h]
  omega

/-- what is readable is what an access of `n` bytes sees, then what is readable behind it -/
theorem readable_split (h : b.Wf) {n : ℤ} (h0 : 0 ≤ n) (hn : n ≤ b.readAble) :
    b.readable = b.bytesAt b.read_index_ n ++ { b with read_index_ := b.read_index_ + n }.readable := by
  obtain ⟨h1, h2, h3⟩ := h
  unfold readable bytesAt readAble at *
  rw [show (b.write_index_ - b.read_index_).toNat = n.toNat + (b.write_index_ - (b.read_index_ + n)).toNat by omega,
    show (b.read_index_ + n).toNat = b.read_index_.toNat + n.toNat by omega]
  exact window_add _ _ _ _

theorem advance_wf (h : b.Wf) {n : ℤ} (h0 : 0 ≤ n) (hn : n ≤ b.readAble) :
    { b with read_index_ := b.read_index_ + n }.Wf := by
  obtain ⟨h1, h2, h3⟩ := h
  unfold readAble at hn
  exact ⟨by simp only; omega, by simp only; omega, h3⟩

/-- the count `readFromBuffer` settles on -/
theorem read_size_bounds (h : b.Wf) {size : ℤ} (h0 : 0 ≤ size) :
    0 ≤ (if b.readAble > size then size else b.readAble) ∧
      (if b.readAble > size then size else b.readAble) ≤ b.readAble := by
  have h1 := h.read_le_write
  unfold readAble
  split_ifs <;> omega

/-! ## Growth and compaction -/

/-- moving a range to the front of a fresh vector that has room for it: the bytes are readable there -/
theorem readable_front {m : ℕ} {l : List Byte} {c : ℤ} (hl : (l.length : ℤ) = c) (hm : l.length ≤ m) :
    (TcpBuffer.mk 0 c (blit (List.replicate m 0) 0 l)).readable = l ∧
      (TcpBuffer.mk 0 c (blit (List.replicate m 0) 0 l)).Wf ∧
      (TcpBuffer.mk 0 c (blit (List.replicate m 0) 0 l)).getSize = m := by
  have hs : (blit (List.replicate m (0 : Byte)) 0 l).length = m := by
    rw [length_blit] <;> simp [hm]
  subst hl
  have hz : (TcpBuffer.mk 0 l.length (blit (List.replicate m 0) 0 l)).getSize = m := congrArg Nat.cast hs
  refine ⟨?_, ⟨le_rfl, by simp, hz ▸ Nat.cast_le.2 hm⟩, hz⟩
  have hread : window (blit (List.replicate m (0 : Byte)) 0 l) 0 l.length = l := window_blit (Nat.zero_le _)
  simpa [readable, bytesAt, readAble] using hread

theorem resizeBuffer_spec (h : b.Wf) {size : ℤ} (hs : b.readAble ≤ size) :
    (b.resizeBuffer size).readable = b.readable ∧ (b.resizeBuffer size).Wf ∧ (b.resizeBuffer size).getSize = size := by
  have hr := h.read_le_write
  have hlen := length_readable h
  have hdef : b.resizeBuffer size = ⟨0, b.readAble, blit (List.replicate size.toNat 0) 0 b.readable⟩ := by
    simp only [resizeBuffer, min_eq_right hs, zero_add]
    rfl
  obtain ⟨h1, h2, h3⟩ := readable_front (m := size.toNat) hlen (by omega)
  rw [hdef]
  refine ⟨h1, h2, h3.trans ?_⟩
  unfold readAble at hs
  omega

/-- a compaction moves the read index to the front; it is made only beyond a third of the vector -/
theorem adjustBuffer_eq (b : TcpBuffer) :
    b.adjustBuffer = if b.read_index_ > b.getSize / 3 then
      ⟨0, b.readAble, blit (List.replicate b.buffer_.length 0) 0 b.readable⟩ else b := rfl

theorem adjustBuffer_spec (h : b.Wf) :
    b.adjustBuffer.readable = b.readable ∧ b.adjustBuffer.Wf ∧ b.adjustBuffer.getSize = b.getSize := by
  rw [adjustBuffer_eq]
  split_ifs with hi
  · have hlen := length_readable h
    obtain ⟨h1, h2, h3⟩ := h
    unfold readAble at hlen
    unfold getSize at h3
    exact readable_front hlen (by omega)
  · exact ⟨rfl, h, rfl⟩

/-! ## Writes and index commits -/

theorem store_spec (h : b.Wf) {buf : List Byte} (hb : buf.length ≤ b.writeAble) :
    { b.store buf with write_index_ := b.write_index_ + buf.length }.readable = b.readable ++ buf ∧
      { b.store buf with write_index_ := b.write_index_ + buf.length }.Wf ∧
      (b.store buf).readable = b.readable ∧ (b.store buf).Wf ∧ (b.store buf).getSize = b.getSize := by
  obtain ⟨h1, h2, h3⟩ := h
  unfold writeAble getSize at *
  have hw : b.write_index_.toNat ≤ b.buffer_.length := by omega
  have hlen : (blit b.buffer_ b.write_index_.toNat buf).length = b.buffer_.length := length_blit (by omega)
  have hend : b.read_index_.toNat + b.readAble.toNat ≤ b.write_index_.toNat := by
    unfold readAble
    omega
  have hbefore : window (blit b.buffer_ b.write_index_.toNat buf) b.read_index_.toNat b.readAble.toNat = b.readable :=
    window_blit_before hend hw
  refine ⟨?_, ⟨h1, by simp only [store]; omega, by simp only [getSize, store, hlen]; omega⟩, hbefore, ⟨h1, h2, ?_⟩, ?_⟩
  · have hn : (b.write_index_ + buf.length - b.read_index_).toNat = b.readAble.toNat + buf.length := by
      unfold readAble; omega
    have hi : b.read_index_.toNat + b.readAble.toNat = b.write_index_.toNat := by unfold readAble; omega
    show window (blit b.buffer_ b.write_index_.toNat buf) b.read_index_.toNat
      (b.write_index_ + buf.length - b.read_index_).toNat = _
    rw [hn, window_add, hbefore, hi, window_blit hw]
  · simpa only [getSize, store, hlen] using h3
  · simp only [store, hlen]

/-- the buffer after the first half of `writeToBuffer`: with room for `size` more bytes -/
def grown (b : TcpBuffer) (size : ℤ) : TcpBuffer :=
  if size > b.writeAble then b.resizeBuffer ((3 * (b.write_index_ + size)).tdiv 2) else b

/-- growth by a half of what the indices already take up leaves room for the readable bytes and the new ones -/
theorem readAble_le_new_size (h : b.Wf) {size : ℤ} (h0 : 0 ≤ size) :
    b.readAble + size ≤ (3 * (b.write_index_ + size)).tdiv 2 := by
  obtain ⟨h1, h2, -⟩ := h
  have hd : (3 * (b.write_index_ + size)).tdiv 2 = 3 * (b.write_index_ + size) / 2 :=
    Int.tdiv_eq_ediv_of_nonneg (by omega)
  unfold readAble
  omega

theorem grown_spec (h : b.Wf) {size : ℤ} (h0 : 0 ≤ size) :
    (b.grown size).readable = b.readable ∧ (b.grown size).Wf ∧ size ≤ (b.grown size).writeAble := by
  unfold grown
  split_ifs with hs
  · have hfit := readAble_le_new_size h h0
    have hle : b.readAble ≤ (3 * (b.write_index_ + size)).tdiv 2 := by omega
    obtain ⟨r1, r2, r3⟩ := resizeBuffer_spec h hle
    have hw : (b.resizeBuffer ((3 * (b.write_index_ + size)).tdiv 2)).write_index_ = b.readAble := by
      simp only [resizeBuffer, min_eq_right hle, zero_add]
    refine ⟨r1, r2, ?_⟩
    rw [writeAble, r3, hw]
    omega
  · exact ⟨rfl, h, not_lt.1 hs⟩

/-- `writeToBuffer` appends to what is readable. -/
theorem writeToBuffer_spec (h : b.Wf) (buf : List Byte) :
    (b.writeToBuffer buf).readable = b.readable ++ buf ∧ (b.writeToBuffer buf).Wf := by
  obtain ⟨g1, g2, g3⟩ := grown_spec h (Nat.cast_nonneg buf.length)
  obtain ⟨w1, w2, -⟩ := store_spec g2 g3
  rw [g1] at w1
  exact ⟨w1, w2⟩

/-- Every state reachable from a constructor by writes is well formed, and reads back what was written. -/
theorem writes_spec (size : ℕ) (bufs : List (List Byte)) :
    (bufs.foldl writeToBuffer (make size)).Wf ∧ (bufs.foldl writeToBuffer (make size)).readable = bufs.flatten := by
  suffices hrun : ∀ b : TcpBuffer, b.Wf → (bufs.foldl writeToBuffer b).Wf ∧
      (bufs.foldl writeToBuffer b).readable = b.readable ++ bufs.flatten by
    simpa [readable, bytesAt, readAble, make, window_zero] using hrun (make size) (make_wf size)
  induction bufs with
  | nil => exact fun b h => ⟨h, by simp⟩
  | cons buf bufs ih =>
    intro b h
    obtain ⟨w1, w2⟩ := writeToBuffer_spec h buf
    obtain ⟨i1, i2⟩ := ih _ w2
    exact ⟨i1, by rw [List.foldl_cons, i2, w1, List.flatten_cons, List.append_assoc]⟩

/-- A read of `n` bytes takes them from the front. -/
theorem readFromBuffer_spec (h : b.Wf) {n : ℤ} (h0 : 0 ≤ n) :
    (b.readAble ≠ 0 → (b.readFromBuffer n).1 = some (b.readable.take n.toNat)) ∧
      (b.readFromBuffer n).2.readable = b.readable.drop n.toNat ∧ (b.readFromBuffer n).2.Wf := by
  have hlen := length_readable h
  by_cases he : b.readAble = 0
  · have hnil : b.readable = [] := (readable_eq_nil h).2 he
    simp only [readFromBuffer, if_pos he, hnil, List.drop_nil]
    exact ⟨fun hne => absurd he hne, trivial, h⟩
  · set k := if b.readAble > n then n else b.readAble with hk
    have hk0 : 0 ≤ k ∧ k ≤ b.readAble := read_size_bounds h h0
    -- asking for more than there is takes all of it
    have hcut : b.readable.take n.toNat = b.readable.take k.toNat ∧ b.readable.drop n.toNat = b.readable.drop k.toNat := by
      split_ifs at hk with hlt
      · rw [hk]
        exact ⟨rfl, rfl⟩
      · rw [List.take_of_length_le (by omega), List.take_of_length_le (by omega), List.drop_of_length_le (by omega),
          List.drop_of_length_le (by omega)]
        exact ⟨rfl, rfl⟩
    have hsplit := readable_split h hk0.1 hk0.2
    have hlk := length_bytesAt h hk0.2
    obtain ⟨a1, a2, -⟩ := adjustBuffer_spec (advance_wf h hk0.1 hk0.2)
    simp only [readFromBuffer, if_neg he, ← hk, hcut.1, hcut.2]
    refine ⟨fun _ => ?_, ?_, a2⟩
    · rw [hsplit, List.take_left' hlk]
    · rw [a1, hsplit, List.drop_left' hlk]

/-- a commit that would reach the end of the vector is dropped -/
theorem recycleRead_eq (b : TcpBuffer) (n : ℤ) : b.recycleRead n =
    if b.read_index_ + n ≥ b.getSize then b else adjustBuffer { b with read_index_ := b.read_index_ + n } := rfl

theorem recycleWrite_eq (b : TcpBuffer) (n : ℤ) : b.recycleWrite n =
    if b.write_index_ + n ≥ b.getSize then b else adjustBuffer { b with write_index_ := b.write_index_ + n } := rfl

/-- Otherwise a commit of `n` read bytes drops them from the front. -/
theorem recycleRead_spec (h : b.Wf) {n : ℤ} (h0 : 0 ≤ n) (hn : n ≤ b.readAble) (hj : b.read_index_ + n < b.getSize) :
    b.readable = b.bytesAt b.read_index_ n ++ (b.recycleRead n).readable ∧ (b.recycleRead n).Wf ∧
      (b.recycleRead n).getSize = b.getSize := by
  obtain ⟨a1, a2, a3⟩ := adjustBuffer_spec (advance_wf h h0 hn)
  rw [recycleRead_eq, if_neg (not_le.2 hj), a1]
  exact ⟨readable_split h h0 hn, a2, a3⟩

/-- the indices after a commit: back at the front when the read index passes a third of the vector -/
theorem recycleRead_index {n : ℤ} (hj : b.read_index_ + n < b.getSize) :
    (b.recycleRead n).read_index_ = (if b.read_index_ + n > b.getSize / 3 then 0 else b.read_index_ + n) ∧
      (b.recycleRead n).write_index_ =
        if b.read_index_ + n > b.getSize / 3 then b.readAble - n else b.write_index_ := by
  have hs : { b with read_index_ := b.read_index_ + n }.getSize = b.getSize := rfl
  rw [recycleRead_eq, if_neg (not_le.2 hj), adjustBuffer_eq, hs]
  split_ifs with hi
  · exact ⟨rfl, by unfold readAble; simp only; ring⟩
  · exact ⟨rfl, rfl⟩

/-- A commit of bytes stored behind the write index makes them readable. -/
theorem recycleWrite_store_spec (h : b.Wf) {buf : List Byte} (hj : b.write_index_ + buf.length < b.getSize) :
    ((b.store buf).recycleWrite buf.length).readable = b.readable ++ buf ∧
      ((b.store buf).recycleWrite buf.length).Wf := by
  have hroom : (buf.length : ℤ) ≤ b.writeAble := by
    unfold writeAble
    omega
  obtain ⟨s1, s2, -, -, s5⟩ := store_spec h hroom
  obtain ⟨a1, a2, -⟩ := adjustBuffer_spec s2
  have hif : ¬ (b.store buf).write_index_ + buf.length ≥ b.getSize := not_le.2 hj
  rw [recycleWrite_eq, s5, if_neg hif]
  exact ⟨a1.trans s1, a2⟩

end TcpBuffer

end TinyRpc.Net
