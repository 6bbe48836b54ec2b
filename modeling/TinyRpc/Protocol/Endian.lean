/-
Scalars on the wire (`protocol/archive.hpp`, namespace `endian` and the POD overloads of `Binary::operator&`).

A scalar is the bit pattern of its object (`float` and `double` included; a `bool` is its byte, 0 or 1). Writing a scalar
swaps it on a little-endian host and copies its memory to the stream; reading copies memory from the stream and swaps.
`Swap` is modelled as the source computes it: the shifts of the 2-byte template run on a promoted `int`, arithmetic for a
signed type, the wider templates are built from the narrower ones, and the float templates swap the bytes of a union.

- `swap_reverses`: on a host that swaps, `Swap` reverses the bytes, for every scalar but `short`.
- `put_eq`: the bytes put on the stream are the big-endian bytes of the value, whatever the host.
- `get_yields`: a host of either byte order reads back the value.
`short` is left out: its right shift copies the sign into the low byte.
-/
import Mathlib.Tactic
import TinyRpc.Core.Bytes
import TinyRpc.Core.Stream

namespace TinyRpc.Protocol

open TinyRpc.Core

/-! ## Host memory -/

inductive ByteOrder where
  | little
  | big
deriving DecidableEq, Repr

/-- the bytes of an object of `n` bytes in the host's memory, lowest address first -/
def ByteOrder.toMem (host : ByteOrder) (n : ℕ) (v : BitVec (8 * n)) : List Byte :=
  match host with
  | .little => leBytes n v
  | .big => (leBytes n v).reverse

/-- the object of `n` bytes with the given memory -/
def ByteOrder.ofMem (host : ByteOrder) (n : ℕ) (mem : List Byte) : BitVec (8 * n) :=
  match host with
  | .little => ofLeBytes (8 * n) mem
  | .big => ofLeBytes (8 * n) mem.reverse

/-! ## Swap -/

/-- the endian test: the byte at the address of `uint16_t 1` -/
def shouldSwap (host : ByteOrder) : Bool := (host.toMem 2 1).head? == some 1

/-- exchange `c[i]` and `c[j]` -/
def swapBytes (c : List Byte) (i j : ℕ) : List Byte := (c.set i (c.getD j 0)).set j (c.getD i 0)

/-- `SwapByte<T, 2>`: the operand is promoted to `int` before it is shifted -/
def swap2 (host : ByteOrder) (signed : Bool) (v : BitVec 16) : BitVec 16 :=
  if shouldSwap host then
    let i : BitVec 32 := if signed then v.signExtend 32 else v.setWidth 32
    (i.sshiftRight 8 ||| i <<< 8).setWidth 16
  else v

/-- `SwapByte<T, 4>`, for `int` and `unsigned int` alike -/
def swap4 (host : ByteOrder) (v : BitVec 32) : BitVec 32 :=
  if shouldSwap host then
    (swap2 host false ((v &&& 0xffff#32).setWidth 16)).setWidth 32 <<< 16 |||
      (swap2 host false (((v &&& 0xffff0000#32) >>> 16).setWidth 16)).setWidth 32
  else v

/-- `SwapByte<T, 8>`: the upper half comes from an arithmetic shift when `T` is signed -/
def swap8 (host : ByteOrder) (signed : Bool) (v : BitVec 64) : BitVec 64 :=
  if shouldSwap host then
    (swap4 host ((v &&& 0xffffffff#64).setWidth 32)).setWidth 64 <<< 32 |||
      (swap4 host ((if signed then v.sshiftRight 32 else v >>> 32).setWidth 32)).setWidth 64
  else v

/-- the float templates: exchange the given bytes of the union -/
def swapUnion (host : ByteOrder) (n : ℕ) (pairs : List (ℕ × ℕ)) (f : BitVec (8 * n)) : BitVec (8 * n) :=
  if shouldSwap host then host.ofMem n (pairs.foldl (fun c p => swapBytes c p.1 p.2) (host.toMem n f)) else f

/-- `SwapByte<float, 4>` -/
def swapFloat (host : ByteOrder) : BitVec 32 → BitVec 32 := swapUnion host 4 [(0, 3), (1, 2)]

/-- `SwapByte<double, 8>` -/
def swapDouble (host : ByteOrder) : BitVec 64 → BitVec 64 := swapUnion host 8 [(0, 7), (1, 6), (2, 5), (3, 4)]

/-! ## Scalars -/

/-- the scalar types with a serializer -/
inductive Scalar where
  | bool
  | char
  | unsignedChar
  | short
  | unsignedShort
  | int
  | unsignedInt
  | long
  | unsignedLong
  | longLong
  | unsignedLongLong
  | float
  | double
deriving DecidableEq, Repr

namespace Scalar

/-- `sizeof`, on amd64 -/
def size : Scalar → ℕ
  | bool | char | unsignedChar => 1
  | short | unsignedShort => 2
  | int | unsignedInt | float => 4
  | long | unsignedLong | longLong | unsignedLongLong | double => 8

abbrev Val (s : Scalar) : Type := BitVec (8 * s.size)

/-- `Binary::Swap` -/
def swap (host : ByteOrder) : (s : Scalar) → s.Val → s.Val
  | bool, v | char, v | unsignedChar, v => v
  | short, v => swap2 host true v
  | unsignedShort, v => swap2 host false v
  | int, v | unsignedInt, v => swap4 host v
  | long, v | longLong, v => swap8 host true v
  | unsignedLong, v | unsignedLongLong, v => swap8 host false v
  | float, v => swapFloat host v
  | double, v => swapDouble host v

/-- the magnitude of a float with sign bit, `e` exponent bits and `f` fraction bits -/
def mag (e f : ℕ) {w : ℕ} (v : BitVec w) : ℕ := v.toNat % 2 ^ (e + f)

/-- IEEE comparison on bit patterns: a NaN is not less than anything, the two zeros are equal -/
def ieeeLt (e f : ℕ) {w : ℕ} (u v : BitVec w) : Bool :=
  let key (x : BitVec w) : ℤ := if x.msb then -mag e f x else mag e f x
  let nan (x : BitVec w) : Bool := (2 ^ e - 1) * 2 ^ f < mag e f x
  !nan u && !nan v && decide (key u < key v)

/-- `operator<` on the scalar; plain `char` is signed on amd64 -/
def lt : (s : Scalar) → s.Val → s.Val → Bool
  | bool, u, v | unsignedChar, u, v | unsignedShort, u, v | unsignedInt, u, v | unsignedLong, u, v
  | unsignedLongLong, u, v => BitVec.ult u v
  | char, u, v | short, u, v | int, u, v | long, u, v | longLong, u, v => BitVec.slt u v
  | float, u, v => ieeeLt 8 23 u v
  | double, u, v => ieeeLt 11 52 u v

/-- the bytes `operator<<` puts on the stream -/
def put (host : ByteOrder) (s : Scalar) (v : s.Val) : List Byte := host.toMem s.size (s.swap host v)

/-- the error every short read throws -/
def malformed : String := "malformed data"

/-- `operator>>`: what was in the target is overwritten -/
def get (host : ByteOrder) (s : Scalar) : Decoder Byte String s.Val := do
  let mem ← readExact malformed s.size
  pure (s.swap host (host.ofMem s.size mem))

end Scalar

/-! ## Swap reverses the bytes -/

theorem swap2_reverses : ReversesBytes 2 (swap2 .little false) := by
  intro v
  have h : swap2 .little false v = ((v.setWidth 32).sshiftRight 8 ||| (v.setWidth 32) <<< 8).setWidth 16 := rfl
  have h0 : byte (swap2 .little false v) 0 = byte v 1 := by
    rw [h, byte_setWidth _ (by omega), byte_or, byte_sshiftRight (m := 1) _ (by omega),
      byte_shiftLeft_lt (m := 1) _ (by omega), byte_setWidth _ (by omega)]
    simp
  have h1 : byte (swap2 .little false v) 1 = byte v 0 := by
    rw [h, byte_setWidth _ (by omega), byte_or, byte_sshiftRight (m := 1) _ (by omega),
      byte_shiftLeft_ge (m := 1) _ (by omega) (by omega), byte_setWidth _ (by omega), byte_setWidth _ (by omega),
      byte_of_ge v (by omega)]
    simp
  show [byte (swap2 .little false v) 0, byte (swap2 .little false v) 1] = [byte v 1, byte v 0]
  rw [h0, h1]

theorem low_half (v : BitVec 32) : leBytes 2 ((v &&& 0xffff#32).setWidth 16) = leBytes 2 v := by
  have e : (v &&& 0xffff#32).setWidth 16 = v.setWidth 16 := by
    ext i hi
    interval_cases i <;> simp
  rw [e]
  exact leBytes_setWidth v 2

theorem high_half (v : BitVec 32) :
    leBytes 2 (((v &&& 0xffff0000#32) >>> 16).setWidth 16) = leBytes 2 (v >>> 16) := by
  have e : ((v &&& 0xffff0000#32) >>> 16).setWidth 16 = (v >>> 16).setWidth 16 := by
    ext i hi
    interval_cases i <;> simp
  rw [e]
  exact leBytes_setWidth (v >>> 16) 2

theorem low_word (v : BitVec 64) : leBytes 4 ((v &&& 0xffffffff#64).setWidth 32) = leBytes 4 v := by
  have e : (v &&& 0xffffffff#64).setWidth 32 = v.setWidth 32 := by
    ext i hi
    interval_cases i <;> simp
  rw [e]
  exact leBytes_setWidth v 4

theorem high_word (signed : Bool) (v : BitVec 64) :
    leBytes 4 ((if signed then v.sshiftRight 32 else v >>> 32).setWidth 32) = leBytes 4 (v >>> 32) := by
  apply List.map_congr_left
  intro k hk
  rw [List.mem_range] at hk
  rw [byte_setWidth _ (by omega)]
  cases signed
  · rfl
  · exact (byte_sshiftRight (m := 4) v (by omega)).trans (byte_ushiftRight v 4 k).symm

theorem swap4_reverses : ReversesBytes 4 (swap4 .little) := by
  intro v
  calc leBytes 4 (swap4 .little v)
      = leBytes 2 (swap2 .little false (((v &&& 0xffff0000#32) >>> 16).setWidth 16)) ++
          leBytes 2 (swap2 .little false ((v &&& 0xffff#32).setWidth 16)) := leBytes_join (m := 2) (n := 2) _ _ (by omega)
    _ = (leBytes 2 (v >>> 16)).reverse ++ (leBytes 2 v).reverse := by
        rw [swap2_reverses, swap2_reverses, high_half, low_half]
    _ = (leBytes 4 v).reverse := by
        rw [← List.reverse_append]; exact congrArg List.reverse (leBytes_split v 2 2).symm

theorem swap8_reverses (signed : Bool) : ReversesBytes 8 (swap8 .little signed) := by
  intro v
  calc leBytes 8 (swap8 .little signed v)
      = leBytes 4 (swap4 .little ((if signed then v.sshiftRight 32 else v >>> 32).setWidth 32)) ++
          leBytes 4 (swap4 .little ((v &&& 0xffffffff#64).setWidth 32)) := leBytes_join (m := 4) (n := 4) _ _ (by omega)
    _ = (leBytes 4 (v >>> 32)).reverse ++ (leBytes 4 v).reverse := by
        rw [swap4_reverses, swap4_reverses, high_word, low_word]
    _ = (leBytes 8 v).reverse := by
        rw [← List.reverse_append]; exact congrArg List.reverse (leBytes_split v 4 4).symm

theorem swapUnion_reverses {n : ℕ} {pairs : List (ℕ × ℕ)}
    (h : ∀ c : List Byte, c.length = n → pairs.foldl (fun c p => swapBytes c p.1 p.2) c = c.reverse) :
    ReversesBytes n (swapUnion .little n pairs) := by
  intro v
  have e : swapUnion .little n pairs v = ofLeBytes (8 * n) (leBytes n v).reverse := by
    rw [← h (leBytes n v) (length_leBytes n v)]; rfl
  rw [e, leBytes_ofLeBytes (by simp)]

theorem swapFloat_reverses : ReversesBytes 4 (swapFloat .little) := by
  apply swapUnion_reverses
  intro c hc
  match c, hc with
  | [_, _, _, _], _ => rfl

theorem swapDouble_reverses : ReversesBytes 8 (swapDouble .little) := by
  apply swapUnion_reverses
  intro c hc
  match c, hc with
  | [_, _, _, _, _, _, _, _], _ => rfl

namespace Scalar

/-- Swap reverses the bytes of every scalar but `short`, on a host that swaps. -/
theorem swap_reverses {s : Scalar} (hs : s ≠ short) : ReversesBytes s.size (s.swap .little) := by
  cases s with
  | short => exact absurd rfl hs
  | bool | char | unsignedChar => exact fun _ => rfl
  | unsignedShort => exact swap2_reverses
  | int | unsignedInt => exact swap4_reverses
  | long | longLong => exact swap8_reverses true
  | unsignedLong | unsignedLongLong => exact swap8_reverses false
  | float => exact swapFloat_reverses
  | double => exact swapDouble_reverses

/-- a big-endian host leaves every scalar as it is -/
theorem swap_big (s : Scalar) (v : s.Val) : s.swap .big v = v := by
  cases s <;> rfl

/-! ## Scalars travel in network byte order -/

theorem put_eq {s : Scalar} (hs : s ≠ short) (host : ByteOrder) (v : s.Val) :
    s.put host v = (leBytes s.size v).reverse := by
  cases host
  · exact swap_reverses hs v
  · simp only [put, swap_big, ByteOrder.toMem]

theorem length_put (host : ByteOrder) (s : Scalar) (v : s.Val) : (s.put host v).length = s.size := by
  cases host <;> simp [put, ByteOrder.toMem]

theorem swap_ofMem {s : Scalar} (hs : s ≠ short) (host : ByteOrder) (v : s.Val) :
    s.swap host (host.ofMem s.size (leBytes s.size v).reverse) = v := by
  cases host
  · exact (swap_reverses hs).undo v
  · rw [swap_big]
    simp only [ByteOrder.ofMem, List.reverse_reverse, ofLeBytes_leBytes]

/-- A scalar written by a host of either byte order is read back by a host of either byte order. -/
theorem get_yields {s : Scalar} (hs : s ≠ short) (writer reader : ByteOrder) (v : s.Val) :
    Yields (s.get reader) (s.put writer v) v := by
  have h := (yields_readExact malformed (s.put writer v)).map (f := fun mem => s.swap reader (reader.ofMem s.size mem))
  rw [length_put, put_eq hs, swap_ofMem hs] at h
  rw [put_eq hs]
  exact h

end Scalar

end TinyRpc.Protocol
