/-
Which scalars travel in network byte order (`protocol/archive.hpp`, the `short` that `Endian` leaves out).

`SwapByte<short, 2>` shifts a promoted `int`: the right shift copies the sign into the upper byte, which the OR then cannot
clear. So `Swap` of a negative `short` is its upper byte under a byte of ones (`swap2_negative`); for the others it is the
swap of `unsigned short` (`swap2_nonnegative`).

Main result `scalar_travels_iff`, for every scalar, every value and both byte orders of the two hosts.
-/
import Mathlib.Tactic
import TinyRpc.Core.Bytes
import TinyRpc.Core.Stream
import TinyRpc.Protocol.Endian

namespace TinyRpc.Protocol

open TinyRpc.Core

/-- the bytes on the stream are the big-endian representation of the value, the reader returns the value, and `Swap`
undoes itself on both hosts -/
structure Scalar.Travels (writer reader : ByteOrder) (s : Scalar) (v : s.Val) : Prop where
  bytes : s.put writer v = (leBytes s.size v).reverse
  back : Yields (s.get reader) (s.put writer v) v
  swapWriter : s.swap writer (s.swap writer v) = v
  swapReader : s.swap reader (s.swap reader v) = v

/-- a `short` must be -1, or have neither the sign bit nor the upper bit of its lower byte, unless nobody swaps -/
def Scalar.Unharmed (writer reader : ByteOrder) : (s : Scalar) → s.Val → Prop
  | .short, v => writer = .big ∧ reader = .big ∨ BitVec.toInt v = -1 ∨ 0 ≤ BitVec.toInt v ∧ BitVec.toInt v % 256 < 128
  | _, _ => True

/-! ## The swap of a `short` -/

theorem leBytes_two (v : BitVec 16) : leBytes 2 v = [byte v 0, byte v 1] := rfl

theorem msb_byte_one (v : BitVec 16) : (byte v 1).msb = v.msb := by
  rw [BitVec.msb_eq_getLsbD_last, BitVec.msb_eq_getLsbD_last, getLsbD_byte]
  simp

theorem swap2_nonnegative {v : BitVec 16} (hv : v.msb = false) : swap2 .little true v = swap2 .little false v := by
  have hext : v.signExtend 32 = v.setWidth 32 := BitVec.signExtend_eq_setWidth_of_msb_false hv
  simp only [swap2, if_true, hext, Bool.false_eq_true, if_false]

/-- the byte shifted in is that of the sign -/
theorem swap2_negative {v : BitVec 16} (hv : v.msb = true) : leBytes 2 (swap2 .little true v) = [byte v 1, 0xff#8] := by
  have hswap : swap2 .little true v = ((v.signExtend 32).sshiftRight 8 ||| v.signExtend 32 <<< 8).setWidth 16 := rfl
  have h0 : byte (swap2 .little true v) 0 = byte v 1 := by
    rw [hswap, byte_setWidth _ (by omega), byte_or, byte_sshiftRight (m := 1) _ (by omega),
      byte_shiftLeft_lt (m := 1) _ (by omega), byte_signExtend _ (by omega) (by omega)]
    simp
  have h1 : byte (swap2 .little true v) 1 = 0xff#8 := by
    rw [hswap, byte_setWidth _ (by omega), byte_or, byte_sshiftRight (m := 1) _ (by omega),
      byte_signExtend_ge hv (by omega) (by omega)]
    exact BitVec.allOnes_or
  rw [leBytes_two, h0, h1]

/-- a `short` with neither bit is swapped as an `unsigned short`, and so is the word with its bytes reversed -/
theorem short_reverses {v : BitVec 16} (hv : v.msb = false) (hlow : (byte v 0).msb = false) :
    leBytes 2 (swap2 .little true v) = (leBytes 2 v).reverse ∧
      swap2 .little true (ofLeBytes 16 (leBytes 2 v).reverse) = v := by
  have hbytes : leBytes 2 (ofLeBytes 16 (leBytes 2 v).reverse) = (leBytes 2 v).reverse :=
    leBytes_ofLeBytes (n := 2) (by simp)
  have hmsb : (ofLeBytes 16 (leBytes 2 v).reverse).msb = false := by
    rw [← msb_byte_one, ← hlow]
    exact congrArg (fun l => (l.getD 1 0).msb) hbytes
  refine ⟨?_, ?_⟩
  · rw [swap2_nonnegative hv, swap2_reverses]
  · rw [swap2_nonnegative hmsb]
    exact swap2_reverses.undo v

/-- where `Swap` undoes itself, the value is -1 or has neither bit -/
theorem short_of_swap_swap {v : BitVec 16} (h : swap2 .little true (swap2 .little true v) = v) :
    v = -1#16 ∨ v.msb = false ∧ (byte v 0).msb = false := by
  have hself : leBytes 2 (swap2 .little true (swap2 .little true v)) = leBytes 2 v := by rw [h]
  cases hv : v.msb with
  | true =>
    -- the swap has the sign bit too, so swapping it again leaves ones only
    have hbytes := swap2_negative hv
    have hmsb : (swap2 .little true v).msb = true := by
      rw [← msb_byte_one]
      have hlast : (0xff#8).msb = true := by decide
      exact (congrArg (fun l => (l.getD 1 0).msb) hbytes).trans hlast
    have hones : byte (swap2 .little true v) 1 = 0xff#8 := congrArg (fun l => l.getD 1 0) hbytes
    rw [swap2_negative hmsb, hones] at hself
    exact Or.inl (leBytes_inj (n := 2) (hself.symm.trans (by decide)))
  | false =>
    refine Or.inr ⟨rfl, ?_⟩
    by_contra hlow
    have hbytes : leBytes 2 (swap2 .little true v) = [byte v 1, byte v 0] := by
      rw [swap2_nonnegative hv, swap2_reverses]
      rfl
    have hmsb : (swap2 .little true v).msb = true := by
      rw [← msb_byte_one]
      exact (congrArg (fun l => (l.getD 1 0).msb) hbytes).trans (Bool.eq_true_of_not_eq_false hlow)
    rw [swap2_negative hmsb] at hself
    have hones : 0xff#8 = byte v 1 := congrArg (fun l => l.getD 1 0) hself
    have hbyte := msb_byte_one v
    rw [← hones, hv] at hbyte
    exact absurd hbyte (by decide)

/-! ## Every scalar -/

/-- the condition, for the two bytes of a `short` -/
theorem short_value_iff (v : BitVec 16) : v.toInt = -1 ∨ 0 ≤ v.toInt ∧ v.toInt % 256 < 128 ↔
    v = -1#16 ∨ v.msb = false ∧ (byte v 0).msb = false := by
  have hlow : (byte v 0).toNat = v.toNat % 256 := by simp [byte]
  have hminus : v = -1#16 ↔ v.toNat = 65535 := by
    rw [← BitVec.toNat_inj]
    rfl
  have hlt := v.isLt
  rw [hminus, BitVec.msb_eq_false_iff_two_mul_lt, BitVec.msb_eq_false_iff_two_mul_lt, hlow, BitVec.toInt_eq_msb_cond,
    BitVec.msb_eq_decide]
  by_cases h : 2 ^ (16 - 1) ≤ v.toNat <;> simp only [h, decide_true, decide_false, if_true, Bool.false_eq_true, if_false] <;>
    omega

namespace Scalar

/-- two facts about `Swap` are enough, if one of the hosts swaps -/
theorem travels_of_swap {s : Scalar} {v : s.Val} {writer reader : ByteOrder}
    (h : writer = .little ∨ reader = .little → leBytes s.size (s.swap .little v) = (leBytes s.size v).reverse ∧
      s.swap .little (ofLeBytes _ (leBytes s.size v).reverse) = v) : Travels writer reader s v := by
  have hput : s.put writer v = (leBytes s.size v).reverse := by
    cases writer with
    | little => exact (h (Or.inl rfl)).1
    | big => simp only [put, swap_big, ByteOrder.toMem]
  have hget : s.swap reader (reader.ofMem s.size (leBytes s.size v).reverse) = v := by
    cases reader with
    | little => exact (h (Or.inr rfl)).2
    | big => rw [swap_big, ByteOrder.ofMem, List.reverse_reverse, ofLeBytes_leBytes]
  have htwice : ∀ host, host = writer ∨ host = reader → s.swap host (s.swap host v) = v := by
    intro host hhost
    cases host with
    | little =>
      obtain ⟨hswap, hback⟩ := h (hhost.imp Eq.symm Eq.symm)
      have hrev : s.swap .little v = ofLeBytes _ (leBytes s.size v).reverse := by
        rw [← hswap, ofLeBytes_leBytes]
      rw [hrev, hback]
    | big => rw [swap_big, swap_big]
  refine ⟨hput, ?_, htwice writer (Or.inl rfl), htwice reader (Or.inr rfl)⟩
  have hread := (yields_readExact malformed (s.put writer v)).map (f := fun mem => s.swap reader (reader.ofMem s.size mem))
  rw [length_put, hput, hget] at hread
  rw [hput]
  exact hread

theorem short_travels_iff (writer reader : ByteOrder) (v : BitVec 16) : Travels writer reader short v ↔
    writer = .big ∧ reader = .big ∨ v = -1#16 ∨ v.msb = false ∧ (byte v 0).msb = false := by
  constructor
  · intro h
    cases writer with
    | little => exact Or.inr (short_of_swap_swap h.swapWriter)
    | big =>
      cases reader with
      | little => exact Or.inr (short_of_swap_swap h.swapReader)
      | big => exact Or.inl ⟨rfl, rfl⟩
  · intro h
    rcases h with ⟨rfl, rfl⟩ | rfl | ⟨hv, hlow⟩
    · refine travels_of_swap (s := short) ?_
      intro hlittle
      rcases hlittle with hlittle | hlittle <;> cases hlittle
    · have hswap : leBytes 2 (swap2 .little true (-1#16)) = (leBytes 2 (-1#16)).reverse := by decide
      have hback : swap2 .little true (ofLeBytes 16 (leBytes 2 (-1#16)).reverse) = -1#16 := by decide
      exact travels_of_swap (s := short) fun _ => ⟨hswap, hback⟩
    · exact travels_of_swap (s := short) fun _ => short_reverses hv hlow

end Scalar

/-- **Network byte order.** For every scalar type with a serializer, every value of it and either byte order of the two
hosts: the bytes on the stream are the big-endian representation of the value, the reader returns the value and `Swap`
is an involution on it, exactly when the value is not a `short`, or nobody swaps, or the `short` is -1 or not negative
with a lower byte below 128. -/
theorem scalar_travels_iff (writer reader : ByteOrder) (s : Scalar) (v : s.Val) :
    s.Travels writer reader v ↔ s.Unharmed writer reader v := by
  cases s with
  | short => exact (Scalar.short_travels_iff writer reader v).trans (or_congr Iff.rfl (short_value_iff v).symm)
  | _ =>
    refine ⟨fun _ => trivial, fun _ => Scalar.travels_of_swap fun _ => ⟨?_, ?_⟩⟩
    · exact Scalar.swap_reverses (by decide) v
    · exact (Scalar.swap_reverses (by decide)).undo v

/-- On little-endian hosts the `short` -2 is written as the bytes of -1, and 128 is read back as -128. -/
theorem short_mangled :
    Scalar.put .little .short (-2#16) = [0xff, 0xff] ∧ ¬ Scalar.Travels .little .little .short (-2#16) ∧
    Scalar.put .little .short 128#16 = [0x00, 0x80] ∧
    Scalar.get .little .short (.of [0x00, 0x80]) = .ok (-128#16, .of []) ∧
    ¬ Scalar.Travels .little .little .short 128#16 := by
  refine ⟨by decide, ?_, by decide, rfl, ?_⟩
  · intro h
    have hback : swap2 .little true (swap2 .little true (-2#16)) = -2#16 := h.swapWriter
    exact absurd hback (by decide)
  · intro h
    have hback : swap2 .little true (swap2 .little true 128#16) = 128#16 := h.swapWriter
    exact absurd hback (by decide)

end TinyRpc.Protocol
