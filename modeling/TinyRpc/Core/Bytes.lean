/-
The bytes of a machine word.

`byte v k` is the k-th byte of `v`, counted from the least significant one; `leBytes n v` lists the first `n` of them and
`ofLeBytes` puts a word together again. A word of `n` bytes is determined by `leBytes n` (`leBytes_inj`), so a bit-level
program on words is specified by what it does to the list of bytes: the lemmas `byte_setWidth`, `byte_or`,
`byte_shiftLeft_lt`, ... carry a byte through the operators, and `ReversesBytes` is the specification of a byte swap.
-/
import Mathlib.Tactic

namespace TinyRpc.Core

abbrev Byte := BitVec 8

variable {w : ℕ}

/-- the k-th byte of a word, from the least significant one; zero beyond its width -/
def byte (v : BitVec w) (k : ℕ) : Byte := v.extractLsb' (8 * k) 8

/-! ## Bytes through the operators -/

theorem getLsbD_byte (v : BitVec w) (k i : ℕ) : (byte v k).getLsbD i = (decide (i < 8) && v.getLsbD (8 * k + i)) := by
  simp [byte]

theorem byte_setWidth (v : BitVec w) {n k : ℕ} (h : 8 * k + 8 ≤ n) : byte (v.setWidth n) k = byte v k := by
  apply BitVec.eq_of_getLsbD_eq
  intro i hi
  simp only [getLsbD_byte, BitVec.getLsbD_setWidth, show 8 * k + i < n by omega, decide_true, Bool.true_and]

theorem byte_or (u v : BitVec w) (k : ℕ) : byte (u ||| v) k = byte u k ||| byte v k := by
  apply BitVec.eq_of_getLsbD_eq
  intro i hi
  simp only [BitVec.getLsbD_or, getLsbD_byte, hi, decide_true, Bool.true_and]

theorem byte_ushiftRight (v : BitVec w) (m k : ℕ) : byte (v >>> (8 * m)) k = byte v (m + k) := by
  apply BitVec.eq_of_getLsbD_eq
  intro i hi
  simp only [getLsbD_byte, BitVec.getLsbD_ushiftRight]
  rw [show 8 * m + (8 * k + i) = 8 * (m + k) + i by ring]

theorem byte_sshiftRight (v : BitVec w) {m k : ℕ} (h : 8 * (m + k) + 8 ≤ w) :
    byte (v.sshiftRight (8 * m)) k = byte v (m + k) := by
  apply BitVec.eq_of_getLsbD_eq
  intro i hi
  have h1 : ¬ w ≤ 8 * k + i := by omega
  have h2 : 8 * m + (8 * k + i) < w := by omega
  simp only [getLsbD_byte, BitVec.getLsbD_sshiftRight, h1, h2, decide_false, Bool.not_false, Bool.true_and, if_true]
  rw [show 8 * m + (8 * k + i) = 8 * (m + k) + i by ring]

theorem byte_signExtend (v : BitVec w) {n k : ℕ} (h : 8 * k + 8 ≤ w) (hn : w ≤ n) : byte (v.signExtend n) k = byte v k := by
  apply BitVec.eq_of_getLsbD_eq
  intro i hi
  have h1 : 8 * k + i < w := by omega
  have h2 : 8 * k + i < n := by omega
  simp only [getLsbD_byte, BitVec.getLsbD_signExtend, h1, h2, decide_true, if_true, Bool.true_and]

/-- behind a negative word stand ones -/
theorem byte_signExtend_ge {v : BitVec w} (hv : v.msb = true) {n k : ℕ} (h : w ≤ 8 * k) (hn : 8 * k + 8 ≤ n) :
    byte (v.signExtend n) k = 0xff#8 := by
  apply BitVec.eq_of_getLsbD_eq
  intro i hi
  have h1 : ¬ 8 * k + i < w := by omega
  have h2 : 8 * k + i < n := by omega
  have hones : (0xff#8).getLsbD i = true := by interval_cases i <;> rfl
  simp only [getLsbD_byte, BitVec.getLsbD_signExtend, hi, h1, h2, hv, hones, decide_true, if_false, Bool.true_and]

theorem byte_shiftLeft_lt (v : BitVec w) {m k : ℕ} (h : k < m) : byte (v <<< (8 * m)) k = 0 := by
  apply BitVec.eq_of_getLsbD_eq
  intro i hi
  have h1 : 8 * k + i < 8 * m := by omega
  simp [getLsbD_byte, h1]

theorem byte_shiftLeft_ge (v : BitVec w) {m k : ℕ} (h : m ≤ k) (hw : 8 * k + 8 ≤ w) :
    byte (v <<< (8 * m)) k = byte v (k - m) := by
  apply BitVec.eq_of_getLsbD_eq
  intro i hi
  have h1 : ¬ 8 * k + i < 8 * m := by omega
  have h2 : 8 * k + i < w := by omega
  simp only [getLsbD_byte, BitVec.getLsbD_shiftLeft, h1, h2, decide_true, decide_false, Bool.not_false, Bool.true_and]
  rw [show 8 * k + i - 8 * m = 8 * (k - m) + i by omega]

theorem byte_of_ge (v : BitVec w) {k : ℕ} (h : w ≤ 8 * k) : byte v k = 0 := by
  apply BitVec.eq_of_getLsbD_eq
  intro i hi
  simp [getLsbD_byte, BitVec.getLsbD_of_ge v (8 * k + i) (by omega)]

@[simp] theorem byte_self (b : Byte) : byte b 0 = b := by
  apply BitVec.eq_of_getLsbD_eq
  intro i hi
  simp only [getLsbD_byte, hi, decide_true, Bool.true_and, Nat.mul_zero, Nat.zero_add]

/-! ## Words as lists of bytes -/

/-- the first `n` bytes of a word, least significant first -/
def leBytes (n : ℕ) (v : BitVec w) : List Byte := (List.range n).map (byte v)

/-- the word of width `w` with the given bytes, least significant first -/
def ofLeBytes (w : ℕ) : List Byte → BitVec w
  | [] => 0
  | b :: bs => (ofLeBytes w bs <<< (8 * 1)) ||| b.setWidth w

@[simp] theorem length_leBytes (n : ℕ) (v : BitVec w) : (leBytes n v).length = n := by simp [leBytes]

theorem byte_ofLeBytes (l : List Byte) {k : ℕ} (hw : 8 * k + 8 ≤ w) : byte (ofLeBytes w l) k = l.getD k 0 := by
  induction l generalizing k with
  | nil =>
    apply BitVec.eq_of_getLsbD_eq
    intro i hi
    simp [getLsbD_byte, ofLeBytes]
  | cons b bs ih =>
    rw [ofLeBytes, byte_or, byte_setWidth b hw]
    cases k with
    | zero => rw [byte_shiftLeft_lt _ Nat.zero_lt_one]; simp
    | succ k =>
      rw [byte_shiftLeft_ge _ (by omega) hw, byte_of_ge b (by omega), Nat.add_sub_cancel, ih (by omega)]
      simp

theorem leBytes_ofLeBytes {n : ℕ} {l : List Byte} (h : l.length = n) : leBytes n (ofLeBytes (8 * n) l) = l := by
  apply List.ext_getElem
  · simp [h]
  · intro k h1 h2
    simp only [leBytes, List.getElem_map, List.getElem_range]
    rw [byte_ofLeBytes l (by omega)]
    simp [h2]

/-- A word of `n` bytes is determined by its bytes. -/
theorem leBytes_inj {n : ℕ} {u v : BitVec (8 * n)} (h : leBytes n u = leBytes n v) : u = v := by
  apply BitVec.eq_of_getLsbD_eq
  intro i hi
  have hk : i / 8 < n := by omega
  have hb : byte u (i / 8) = byte v (i / 8) := by
    have := congrArg (fun l => l[i / 8]?) h
    simpa [leBytes, hk] using this
  have hbit := congrArg (fun b => b.getLsbD (i % 8)) hb
  simpa only [getLsbD_byte, Nat.mod_lt i (by decide : 0 < 8), decide_true, Bool.true_and, Nat.div_add_mod] using hbit

theorem ofLeBytes_leBytes {n : ℕ} (v : BitVec (8 * n)) : ofLeBytes (8 * n) (leBytes n v) = v :=
  leBytes_inj (leBytes_ofLeBytes (length_leBytes n v))

theorem leBytes_setWidth (v : BitVec w) (n : ℕ) : leBytes n (v.setWidth (8 * n)) = leBytes n v := by
  apply List.map_congr_left
  intro k hk
  rw [List.mem_range] at hk
  exact byte_setWidth v (by omega)

/-- the bytes of a word split into a low and a high part -/
theorem leBytes_split (v : BitVec w) (m n : ℕ) : leBytes (m + n) v = leBytes m v ++ leBytes n (v >>> (8 * m)) := by
  simp only [leBytes, List.range_add, List.map_append, List.map_map]
  congr 1
  apply List.map_congr_left
  intro k _
  exact (byte_ushiftRight v m k).symm

/-- the bytes of a word put together from a high part `a` and a low part `b` -/
theorem leBytes_join {m n : ℕ} (a : BitVec (8 * n)) (b : BitVec (8 * m)) (hw : 8 * (m + n) ≤ w) :
    leBytes (m + n) (a.setWidth w <<< (8 * m) ||| b.setWidth w) = leBytes m b ++ leBytes n a := by
  simp only [leBytes, List.range_add, List.map_append, List.map_map]
  congr 1
  · apply List.map_congr_left
    intro k hk
    rw [List.mem_range] at hk
    rw [byte_or, byte_shiftLeft_lt _ hk, byte_setWidth b (by omega)]
    simp
  · apply List.map_congr_left
    intro k hk
    rw [List.mem_range] at hk
    simp only [Function.comp]
    rw [byte_or, byte_shiftLeft_ge _ (by omega) (by omega), byte_setWidth b (by omega), byte_of_ge b (by omega),
      byte_setWidth a (by omega), Nat.add_sub_cancel_left]
    simp

/-- the specification of a byte swap on words of `n` bytes -/
def ReversesBytes (n : ℕ) (f : BitVec (8 * n) → BitVec (8 * n)) : Prop :=
  ∀ v, leBytes n (f v) = (leBytes n v).reverse

/-- Swapping the word whose bytes are those of `v` reversed gives back `v`. -/
theorem ReversesBytes.undo {n : ℕ} {f : BitVec (8 * n) → BitVec (8 * n)} (h : ReversesBytes n f) (v : BitVec (8 * n)) :
    f (ofLeBytes (8 * n) (leBytes n v).reverse) = v := by
  apply leBytes_inj
  rw [h, leBytes_ofLeBytes (by simp), List.reverse_reverse]

end TinyRpc.Core
