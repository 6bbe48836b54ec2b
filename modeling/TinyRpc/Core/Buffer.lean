/-
Memory behind a pointer: what is written where, and how far the writes reach.

`Buf` is the memory a `char*` points into, at the offsets from the pointer, with `hi` one past the highest offset that was
ever written. Nothing bounds the writes; that they stay inside an array is a statement about `hi`.

`pokes` writes a list of elements from an offset on. `memmove` and `reverse` read first and write then, so overlapping
ranges are no case of their own. `read_pokes`, `read_pokes_below` and `read_pokes_above` say what stands in a range after
a write; a text is put together with `read_append`. `Holds` is the same as a predicate, with one rule for each operation,
and `CString` is a text that ends at a NUL. `view` and `putBack` are for a function that is given a pointer further in.
-/
import Mathlib.Tactic

namespace TinyRpc.Core

variable {α : Type}

structure Buf (α : Type) where
  mem : ℕ → α
  hi : ℕ

namespace Buf

/-- `p[i] = x` -/
def poke (b : Buf α) (i : ℕ) (x : α) : Buf α := ⟨Function.update b.mem i x, max b.hi (i + 1)⟩

/-- elements written one after the other, from offset `i` on -/
def pokes (b : Buf α) (i : ℕ) : List α → Buf α
  | [] => b
  | x :: xs => (b.poke i x).pokes (i + 1) xs

/-- the `n` elements from offset `i` on -/
def read (b : Buf α) (i n : ℕ) : List α := (List.range' i n).map b.mem

def memmove (b : Buf α) (dst src n : ℕ) : Buf α := b.pokes dst (b.read src n)

/-- `std::reverse(p, p + n)` -/
def reverse (b : Buf α) (n : ℕ) : Buf α := b.pokes 0 (b.read 0 n).reverse

variable {b : Buf α}

/-! ## Reading -/

@[simp] theorem length_read (b : Buf α) (i n : ℕ) : (b.read i n).length = n := by simp [read]

theorem read_succ (b : Buf α) (i n : ℕ) : b.read i (n + 1) = b.mem i :: b.read (i + 1) n := rfl

theorem read_append (b : Buf α) (i m n : ℕ) : b.read i (m + n) = b.read i m ++ b.read (i + m) n := by
  rw [read, read, read, ← List.map_append, List.range'_append_1]

theorem read_congr {b' : Buf α} {i n : ℕ} (h : ∀ j, i ≤ j → j < i + n → b.mem j = b'.mem j) : b.read i n = b'.read i n := by
  refine List.map_congr_left fun j hj => ?_
  obtain ⟨h1, h2⟩ := List.mem_range'_1.1 hj
  exact h j h1 h2

/-! ## Writing -/

@[simp] theorem mem_poke_self (b : Buf α) (i : ℕ) (x : α) : (b.poke i x).mem i = x := by simp [poke]

@[simp] theorem mem_poke_of_ne {i j : ℕ} (h : j ≠ i) (x : α) : (b.poke i x).mem j = b.mem j := by
  simp [poke, h]

theorem pokes_cons (b : Buf α) (i : ℕ) (x : α) (xs : List α) : b.pokes i (x :: xs) = (b.poke i x).pokes (i + 1) xs := rfl

theorem poke_eq_pokes (b : Buf α) (i : ℕ) (x : α) : b.poke i x = b.pokes i [x] := rfl

theorem pokes_append (b : Buf α) (i : ℕ) (xs ys : List α) :
    b.pokes i (xs ++ ys) = (b.pokes i xs).pokes (i + xs.length) ys := by
  induction xs generalizing b i with
  | nil => rfl
  | cons x xs ih =>
    rw [List.cons_append, pokes_cons, ih, pokes_cons, List.length_cons]
    congr 1
    omega

theorem mem_pokes_below {i j : ℕ} {xs : List α} (h : j < i) : (b.pokes i xs).mem j = b.mem j := by
  induction xs generalizing b i with
  | nil => rfl
  | cons x xs ih =>
    rw [pokes_cons, ih (by omega), mem_poke_of_ne (by omega)]

theorem mem_pokes_above {i j : ℕ} {xs : List α} (h : i + xs.length ≤ j) : (b.pokes i xs).mem j = b.mem j := by
  induction xs generalizing b i with
  | nil => rfl
  | cons x xs ih =>
    rw [List.length_cons] at h
    rw [pokes_cons, ih (by omega), mem_poke_of_ne (by omega)]

theorem mem_memmove_below {dst src n j : ℕ} (h : j < dst) : (b.memmove dst src n).mem j = b.mem j := mem_pokes_below h

/-- what was written is there -/
theorem read_pokes (b : Buf α) (i : ℕ) (xs : List α) : (b.pokes i xs).read i xs.length = xs := by
  induction xs generalizing b i with
  | nil => rfl
  | cons x xs ih =>
    rw [pokes_cons, List.length_cons, read_succ, ih, mem_pokes_below (Nat.lt_succ_self i), mem_poke_self]

theorem read_pokes_below {i j n : ℕ} {xs : List α} (h : j + n ≤ i) : (b.pokes i xs).read j n = b.read j n :=
  read_congr fun _ _ hlt => mem_pokes_below (by omega)

theorem read_pokes_above {i j n : ℕ} {xs : List α} (h : i + xs.length ≤ j) : (b.pokes i xs).read j n = b.read j n :=
  read_congr fun _ hle _ => mem_pokes_above (by omega)

theorem read_reverse (b : Buf α) (n : ℕ) : (b.reverse n).read 0 n = (b.read 0 n).reverse := by
  have h := read_pokes b 0 (b.read 0 n).reverse
  rwa [List.length_reverse, length_read] at h

theorem mem_reverse_above {n j : ℕ} (h : n ≤ j) : (b.reverse n).mem j = b.mem j := by
  refine mem_pokes_above ?_
  rw [List.length_reverse, length_read]
  omega

/-! ## What stands where -/

/-- the elements stand from offset `i` on -/
def Holds (b : Buf α) (i : ℕ) (xs : List α) : Prop := b.read i xs.length = xs

variable {i j : ℕ} {xs ys : List α}

theorem holds_append : b.Holds i (xs ++ ys) ↔ b.Holds i xs ∧ b.Holds (i + xs.length) ys := by
  rw [Holds, List.length_append, read_append, List.append_eq_append_iff_of_size_eq_left (by simp)]
  rfl

theorem holds_pokes (b : Buf α) (i : ℕ) (xs : List α) : (b.pokes i xs).Holds i xs := read_pokes b i xs

theorem holds_poke (b : Buf α) (i : ℕ) (x : α) : (b.poke i x).Holds i [x] := read_pokes b i [x]

/-- a write elsewhere leaves it there -/
theorem Holds.pokes (h : b.Holds j ys) (hd : j + ys.length ≤ i ∨ i + xs.length ≤ j) : (b.pokes i xs).Holds j ys := by
  rcases hd with hd | hd
  · exact (read_pokes_below hd).trans h
  · exact (read_pokes_above hd).trans h

theorem Holds.poke {x : α} (h : b.Holds j ys) (hd : j + ys.length ≤ i ∨ i < j) : (b.poke i x).Holds j ys := by
  rw [poke_eq_pokes]
  exact h.pokes hd

/-- a write right behind it -/
theorem Holds.extend (h : b.Holds i xs) (ys : List α) (hj : j = i + xs.length) : (b.pokes j ys).Holds i (xs ++ ys) := by
  subst hj
  exact holds_append.2 ⟨h.pokes (Or.inl (Nat.le_refl _)), holds_pokes _ _ _⟩

theorem Holds.concat (h : b.Holds i xs) (x : α) (hj : j = i + xs.length) : (b.poke j x).Holds i (xs ++ [x]) :=
  h.extend [x] hj

/-- a move takes it along, whether the ranges overlap or not -/
theorem Holds.memmove (h : b.Holds i xs) (dst : ℕ) : (b.memmove dst i xs.length).Holds dst xs := by
  rw [Buf.memmove, h]
  exact holds_pokes b dst xs

theorem Holds.memmove_of_ne {dst src n : ℕ} (h : b.Holds j ys) (hd : j + ys.length ≤ dst ∨ dst + n ≤ j) :
    (b.memmove dst src n).Holds j ys := Holds.pokes h (by rwa [length_read])

/-- the text from offset `i` up to the first `nul` -/
structure CString (nul : α) (b : Buf α) (i : ℕ) (text : List α) : Prop where
  held : b.Holds i (text ++ [nul])
  noNul : ∀ c ∈ text, c ≠ nul

variable {nul : α}

theorem CString.cons {x : α} (h : b.CString nul (i + 1) xs) (hi : b.mem i = x) (hx : x ≠ nul) :
    b.CString nul i (x :: xs) := by
  refine ⟨?_, List.forall_mem_cons.2 ⟨hx, h.noNul⟩⟩
  rw [Holds, List.cons_append, List.length_cons, read_succ, h.held, hi]

theorem CString.unique (hx : b.CString nul i xs) (hy : b.CString nul i ys) : xs = ys := by
  induction xs generalizing i ys with
  | nil =>
    cases ys with
    | nil => rfl
    | cons y ys =>
      have h0 : b.mem i = nul := (List.cons.inj hx.held).1
      have hy0 : b.mem i = y := (List.cons.inj hy.held).1
      exact absurd (hy0.symm.trans h0) (hy.noNul y (by simp))
  | cons x xs ih =>
    have hx0 : b.mem i = x := (List.cons.inj hx.held).1
    cases ys with
    | nil =>
      have h0 : b.mem i = nul := (List.cons.inj hy.held).1
      exact absurd (hx0.symm.trans h0) (hx.noNul x (by simp))
    | cons y ys =>
      have hy0 : b.mem i = y := (List.cons.inj hy.held).1
      have htail : xs = ys := ih (i := i + 1)
        ⟨(List.cons.inj hx.held).2, fun c hc => hx.noNul c (List.mem_cons_of_mem x hc)⟩
        ⟨(List.cons.inj hy.held).2, fun c hc => hy.noNul c (List.mem_cons_of_mem y hc)⟩
      rw [← hx0, ← hy0, htail]

/-! ## Behind another pointer -/

/-- the memory from offset `p` on, as a function that is given the pointer finds it: nothing is written yet -/
def view (b : Buf α) (p : ℕ) : Buf α := ⟨fun i => b.mem (p + i), 0⟩

/-- the memory after such a function; what is in front of the pointer is as it was -/
def putBack (b : Buf α) (p : ℕ) (sub : Buf α) : Buf α :=
  ⟨fun j => if j < p then b.mem j else sub.mem (j - p), if sub.hi = 0 then b.hi else max b.hi (p + sub.hi)⟩

theorem read_putBack_below {j n p : ℕ} (h : j + n ≤ p) (sub : Buf α) : (b.putBack p sub).read j n = b.read j n :=
  read_congr fun _ _ hlt => if_pos (by omega)

theorem read_putBack (b : Buf α) (p n : ℕ) (sub : Buf α) : (b.putBack p sub).read p n = sub.read 0 n := by
  refine List.ext_getElem (by simp) fun k hk _ => ?_
  simp [read, putBack]

theorem hi_putBack_le {p m : ℕ} {sub : Buf α} (hb : b.hi ≤ m) (h : p + sub.hi ≤ m) : (b.putBack p sub).hi ≤ m := by
  unfold putBack
  split_ifs
  · exact hb
  · exact max_le hb h

/-! ## How far the writes reach -/

theorem hi_pokes_le {i m : ℕ} {xs : List α} (hb : b.hi ≤ m) (h : i + xs.length ≤ m) : (b.pokes i xs).hi ≤ m := by
  induction xs generalizing b i with
  | nil => exact hb
  | cons x xs ih =>
    rw [List.length_cons] at h
    refine ih ?_ (by omega)
    exact max_le hb (by omega)

theorem hi_poke (b : Buf α) (i : ℕ) (x : α) : (b.poke i x).hi = max b.hi (i + 1) := rfl

theorem hi_memmove_le {dst src n m : ℕ} (hb : b.hi ≤ m) (h : dst + n ≤ m) : (b.memmove dst src n).hi ≤ m :=
  hi_pokes_le hb (by rwa [length_read])

theorem hi_reverse_le {n m : ℕ} (hb : b.hi ≤ m) (h : n ≤ m) : (b.reverse n).hi ≤ m := by
  refine hi_pokes_le hb ?_
  rw [List.length_reverse, length_read]
  omega

end Buf

end TinyRpc.Core
