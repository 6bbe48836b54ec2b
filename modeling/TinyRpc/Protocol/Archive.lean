/-
The binary archive (`protocol/archive.hpp`, `codec::Binary`): every type the codec can serialize, its encoder and its
decoder.

A type is built from the scalars with arrays, strings, pairs and the containers of the `SERIALIZER_FOR_STL` macros. An
object is the list of its elements in iteration order; `Ordered` is the representation invariant of the sorted
containers, `Sized` the bound under which a 32-bit length prefix is exact.

`operator<<` is `put`, the bytes appended to the stream. `operator>>` is `get`: it decodes INTO a target, and each
constructor treats what was there its own way. A scalar is overwritten, an array is decoded element by element, a string
is cleared first, and the STL macros insert at the end without clearing. `merge w v` says what is left in a target that
held `w` when `v` was sent:

- `get_yields`: decoding the encoding of `v` into `w` leaves `merge w v` and consumes exactly the encoding;
- `merge_of_empty`: into a target whose containers are empty, that is `v`;
- `merge_eq_iff`: for an arbitrary target it is `v` exactly when `Replaced w v`.
-/
import Mathlib.Tactic
import TinyRpc.Core.SortedInsert
import TinyRpc.Protocol.Endian

namespace TinyRpc.Protocol

open TinyRpc.Core

/-! ## Types and objects -/

/-- the sequence containers: one macro, the same code for each -/
inductive SeqKind where
  | vector
  | deque
  | list
deriving DecidableEq, Repr

inductive Ty where
  | scalar (s : Scalar)
  | array (n : ℕ) (t : Ty)
  | string
  | seq (k : SeqKind) (t : Ty)
  | set (t : Ty)
  | multiset (t : Ty)
  | map (k t : Ty)
  | multimap (k t : Ty)
  | pair (a b : Ty)
deriving DecidableEq, Repr

/-- `std::lexicographical_compare` -/
def lexLt {α : Type} (lt : α → α → Bool) : List α → List α → Bool
  | _, [] => false
  | [], _ :: _ => true
  | a :: as, b :: bs => if lt a b then true else if lt b a then false else lexLt lt as bs

/-- `operator<` of `std::pair` -/
def pairLt {α β : Type} (lt₁ : α → α → Bool) (lt₂ : β → β → Bool) (p q : α × β) : Bool :=
  lt₁ p.1 q.1 || (!lt₁ q.1 p.1 && lt₂ p.2 q.2)

/-- the order of a map's entries: their keys -/
def keyLt {α β : Type} (lt : α → α → Bool) (p q : α × β) : Bool := lt p.1 q.1

namespace Ty

/-- the objects of a type; a container is the list of its elements in iteration order -/
def Val : Ty → Type
  | scalar s => s.Val
  | array n t => Fin n → t.Val
  | string => List Byte
  | seq _ t | set t | multiset t => List t.Val
  | map k t | multimap k t => List (k.Val × t.Val)
  | pair a b => a.Val × b.Val

/-- `operator<` of the type; C arrays have none, so no container is keyed by them -/
def lt : (t : Ty) → t.Val → t.Val → Bool
  | scalar s => s.lt
  | array _ _ => fun _ _ => false
  | string => lexLt BitVec.ult
  | seq _ t | set t | multiset t => lexLt t.lt
  | map k t | multimap k t => lexLt (pairLt k.lt t.lt)
  | pair a b => pairLt a.lt b.lt

/-- `T value;` inside the decoding loops. The scalars are indeterminate there: decoding never reads them. -/
def fresh : (t : Ty) → t.Val
  | scalar s => (0 : s.Val)
  | array _ t => fun _ => t.fresh
  | string => ([] : List Byte)
  | seq _ t | set t | multiset t => ([] : List t.Val)
  | map k t | multimap k t => ([] : List (k.Val × t.Val))
  | pair a b => (a.fresh, b.fresh)

/-- no `short` anywhere in the type -/
def NoShort : Ty → Prop
  | scalar s => s ≠ .short
  | array _ t | seq _ t | set t | multiset t => t.NoShort
  | string => True
  | map a b | multimap a b | pair a b => a.NoShort ∧ b.NoShort

/-- the representation invariant of the sorted containers, at every depth -/
def Ordered : (t : Ty) → t.Val → Prop
  | scalar _ => fun _ => True
  | array n t => fun v : Fin n → t.Val => ∀ i, t.Ordered (v i)
  | string => fun _ => True
  | seq _ t => fun v : List t.Val => ∀ x ∈ v, t.Ordered x
  | set t => fun v : List t.Val => Strict t.lt v ∧ ∀ x ∈ v, t.Ordered x
  | multiset t => fun v : List t.Val => Weak t.lt v ∧ ∀ x ∈ v, t.Ordered x
  | map k t => fun v : List (k.Val × t.Val) => Strict (keyLt k.lt) v ∧ ∀ p ∈ v, k.Ordered p.1 ∧ t.Ordered p.2
  | multimap k t => fun v : List (k.Val × t.Val) => Weak (keyLt k.lt) v ∧ ∀ p ∈ v, k.Ordered p.1 ∧ t.Ordered p.2
  | pair a b => fun v : a.Val × b.Val => a.Ordered v.1 ∧ b.Ordered v.2

/-- every string and container, at every depth, is shorter than 2^32 -/
def Sized : (t : Ty) → t.Val → Prop
  | scalar _ => fun _ => True
  | array n t => fun v : Fin n → t.Val => ∀ i, t.Sized (v i)
  | string => fun v : List Byte => v.length < 2 ^ 32
  | seq _ t | set t | multiset t => fun v : List t.Val => v.length < 2 ^ 32 ∧ ∀ x ∈ v, t.Sized x
  | map k t | multimap k t => fun v : List (k.Val × t.Val) => v.length < 2 ^ 32 ∧ ∀ p ∈ v, k.Sized p.1 ∧ t.Sized p.2
  | pair a b => fun v : a.Val × b.Val => a.Sized v.1 ∧ b.Sized v.2

/-- every container outside other containers is empty, as in a default-constructed object without initialisers -/
def Empty : (t : Ty) → t.Val → Prop
  | scalar _ => fun _ => True
  | array n t => fun v : Fin n → t.Val => ∀ i, t.Empty (v i)
  | string => fun _ => True
  | seq _ t | set t | multiset t => fun v : List t.Val => v = []
  | map k t | multimap k t => fun v : List (k.Val × t.Val) => v = []
  | pair a b => fun v : a.Val × b.Val => a.Empty v.1 ∧ b.Empty v.2

instance decidableNoShort : (t : Ty) → Decidable t.NoShort
  | scalar s => inferInstanceAs (Decidable (s ≠ .short))
  | array _ t | seq _ t | set t | multiset t => decidableNoShort t
  | string => inferInstanceAs (Decidable True)
  | map a b | multimap a b | pair a b =>
    have := decidableNoShort a
    have := decidableNoShort b
    inferInstanceAs (Decidable (a.NoShort ∧ b.NoShort))

instance decidableOrdered : (t : Ty) → DecidablePred t.Ordered
  | scalar _ | string => fun _ => inferInstanceAs (Decidable True)
  | array n t => fun v : Fin n → t.Val =>
    have := decidableOrdered t
    inferInstanceAs (Decidable (∀ i, t.Ordered (v i)))
  | seq _ t => fun v : List t.Val =>
    have := decidableOrdered t
    inferInstanceAs (Decidable (∀ x ∈ v, t.Ordered x))
  | set t => fun v : List t.Val =>
    have := decidableOrdered t
    inferInstanceAs (Decidable (Strict t.lt v ∧ ∀ x ∈ v, t.Ordered x))
  | multiset t => fun v : List t.Val =>
    have := decidableOrdered t
    inferInstanceAs (Decidable (Weak t.lt v ∧ ∀ x ∈ v, t.Ordered x))
  | map k t => fun v : List (k.Val × t.Val) =>
    have := decidableOrdered k
    have := decidableOrdered t
    inferInstanceAs (Decidable (Strict (keyLt k.lt) v ∧ ∀ p ∈ v, k.Ordered p.1 ∧ t.Ordered p.2))
  | multimap k t => fun v : List (k.Val × t.Val) =>
    have := decidableOrdered k
    have := decidableOrdered t
    inferInstanceAs (Decidable (Weak (keyLt k.lt) v ∧ ∀ p ∈ v, k.Ordered p.1 ∧ t.Ordered p.2))
  | pair a b => fun v : a.Val × b.Val =>
    have := decidableOrdered a
    have := decidableOrdered b
    inferInstanceAs (Decidable (a.Ordered v.1 ∧ b.Ordered v.2))

instance decidableSized : (t : Ty) → DecidablePred t.Sized
  | scalar _ => fun _ => inferInstanceAs (Decidable True)
  | array n t => fun v : Fin n → t.Val =>
    have := decidableSized t
    inferInstanceAs (Decidable (∀ i, t.Sized (v i)))
  | string => fun v : List Byte => inferInstanceAs (Decidable (v.length < 2 ^ 32))
  | seq _ t | set t | multiset t => fun v : List t.Val =>
    have := decidableSized t
    inferInstanceAs (Decidable (v.length < 2 ^ 32 ∧ ∀ x ∈ v, t.Sized x))
  | map k t | multimap k t => fun v : List (k.Val × t.Val) =>
    have := decidableSized k
    have := decidableSized t
    inferInstanceAs (Decidable (v.length < 2 ^ 32 ∧ ∀ p ∈ v, k.Sized p.1 ∧ t.Sized p.2))
  | pair a b => fun v : a.Val × b.Val =>
    have := decidableSized a
    have := decidableSized b
    inferInstanceAs (Decidable (a.Sized v.1 ∧ b.Sized v.2))

end Ty

/-! ## The encoder -/

/-- the length prefix: a `uint32_t`, so the count modulo 2^32 -/
def putLen (host : ByteOrder) (n : ℕ) : List Byte := Scalar.put host .unsignedInt (BitVec.ofNat 32 n)

namespace Ty

/-- the bytes `operator<<` appends to the stream. A string writes `len` characters, the truncated length; a container
writes all its elements. -/
def put (host : ByteOrder) : (t : Ty) → t.Val → List Byte
  | scalar s => s.put host
  | array n t => fun v : Fin n → t.Val => putLen host n ++ (List.ofFn v).flatMap (t.put host)
  | string => fun v : List Byte => putLen host v.length ++ v.take (v.length % 2 ^ 32)
  | seq _ t | set t | multiset t => fun v : List t.Val => putLen host v.length ++ v.flatMap (t.put host)
  | map k t | multimap k t => fun v : List (k.Val × t.Val) =>
    putLen host v.length ++ v.flatMap fun p => k.put host p.1 ++ t.put host p.2
  | pair a b => fun v : a.Val × b.Val => a.put host v.1 ++ b.put host v.2

end Ty

/-! ## The decoder -/

/-- reading the length prefix -/
def getLen (host : ByteOrder) : Decoder Byte String ℕ := do
  let len ← Scalar.get host .unsignedInt
  pure len.toNat

/-- the array overload: `N` elements are decoded in place, whatever the length prefix said -/
def getArray {α : Type} (get : α → Decoder Byte String α) : {n : ℕ} → (Fin n → α) → Decoder Byte String (Fin n → α)
  | 0, w => pure w
  | _ + 1, w => do
    let x ← get (w 0)
    let xs ← getArray get fun i => w i.succ
    pure (Fin.cons x xs)

/-- the read buffer of the string overload -/
def chunk : ℕ := 4096

/-- the loop of the string overload: `v` collects the characters, at most a buffer at a time -/
def getChars (toRead : ℕ) (v : List Byte) : Decoder Byte String (List Byte) :=
  if toRead = 0 then pure v
  else do
    let l := min toRead chunk
    let buffer ← readExact Scalar.malformed l
    getChars (toRead - l) (v ++ buffer)
termination_by toRead
decreasing_by simp only [chunk]; omega

/-- `v.insert(v.end(), value)` on a sequence -/
def pushBack {α : Type} (v : List α) (value : α) : List α := v ++ [value]

/-- `std::pair`: the first component, then the second -/
def getPair {α β : Type} (get₁ : Decoder Byte String α) (get₂ : Decoder Byte String β) : Decoder Byte String (α × β) := do
  let x ← get₁
  let y ← get₂
  pure (x, y)

namespace Ty

/-- `operator>>` into a target that holds `w` -/
def get (host : ByteOrder) : (t : Ty) → t.Val → Decoder Byte String t.Val
  | scalar s => fun _ => s.get host
  | array n t => fun w : Fin n → t.Val => do
    let _len ← getLen host
    getArray (t.get host) w
  | string => fun _ => do
    let len ← getLen host
    getChars len []
  | seq _ t => fun w : List t.Val => do
    let len ← getLen host
    fill (t.get host t.fresh) pushBack len w
  | set t => fun w : List t.Val => do
    let len ← getLen host
    fill (t.get host t.fresh) (insertUniqueEnd t.lt) len w
  | multiset t => fun w : List t.Val => do
    let len ← getLen host
    fill (t.get host t.fresh) (insertEqualEnd t.lt) len w
  | map k t => fun w : List (k.Val × t.Val) => do
    let len ← getLen host
    fill (getPair (k.get host k.fresh) (t.get host t.fresh)) (insertUniqueEnd (keyLt k.lt)) len w
  | multimap k t => fun w : List (k.Val × t.Val) => do
    let len ← getLen host
    fill (getPair (k.get host k.fresh) (t.get host t.fresh)) (insertEqualEnd (keyLt k.lt)) len w
  | pair a b => fun w : a.Val × b.Val => getPair (a.get host w.1) (b.get host w.2)

/-- what decoding `v` into a target that holds `w` leaves there -/
def merge : (t : Ty) → t.Val → t.Val → t.Val
  | scalar _ => fun _ v => v
  | array n t => fun w v : Fin n → t.Val => fun i => t.merge (w i) (v i)
  | string => fun _ v => v
  | seq _ t => fun w v : List t.Val => v.foldl pushBack w
  | set t => fun w v : List t.Val => v.foldl (insertUniqueEnd t.lt) w
  | multiset t => fun w v : List t.Val => v.foldl (insertEqualEnd t.lt) w
  | map k t => fun w v : List (k.Val × t.Val) => v.foldl (insertUniqueEnd (keyLt k.lt)) w
  | multimap k t => fun w v : List (k.Val × t.Val) => v.foldl (insertEqualEnd (keyLt k.lt)) w
  | pair a b => fun w v : a.Val × b.Val => (a.merge w.1 v.1, b.merge w.2 v.2)

/-- when decoding `v` replaces the old content `w`: a sequence, multiset or multimap must have been empty, a set or map
may have held elements of `v` only -/
def Replaced : (t : Ty) → t.Val → t.Val → Prop
  | scalar _ => fun _ _ => True
  | array n t => fun w v : Fin n → t.Val => ∀ i, t.Replaced (w i) (v i)
  | string => fun _ _ => True
  | seq _ t | multiset t => fun w _ : List t.Val => w = []
  | set t => fun w v : List t.Val => ∀ x ∈ w, x ∈ v
  | map k t => fun w v : List (k.Val × t.Val) => ∀ p ∈ w, p ∈ v
  | multimap k t => fun w _ : List (k.Val × t.Val) => w = []
  | pair a b => fun w v : a.Val × b.Val => a.Replaced w.1 v.1 ∧ b.Replaced w.2 v.2

end Ty

/-! ## The orders are asymmetric -/

theorem lexLt_asymm {α : Type} {lt : α → α → Bool} (h : Asymm lt) : Asymm (lexLt lt) := by
  intro as
  induction as with
  | nil => intro bs _; cases bs <;> rfl
  | cons a as ih =>
    intro bs hab
    cases bs with
    | nil => simp [lexLt] at hab
    | cons b bs =>
      simp only [lexLt] at hab ⊢
      cases h1 : lt a b <;> cases h2 : lt b a <;> simp only [h1, h2, Bool.false_eq_true, if_false, if_true] at hab ⊢
      · exact ih bs hab
      · rw [h a b h1] at h2; exact h2.symm

theorem pairLt_asymm {α β : Type} {lt₁ : α → α → Bool} {lt₂ : β → β → Bool} (h₁ : Asymm lt₁) (h₂ : Asymm lt₂) :
    Asymm (pairLt lt₁ lt₂) := by
  intro p q hpq
  simp only [pairLt, Bool.or_eq_true, Bool.and_eq_true, Bool.not_eq_true'] at hpq
  rcases hpq with hpq | ⟨hqp, hpq⟩
  · simp [pairLt, hpq, h₁ _ _ hpq]
  · simp [pairLt, hqp, h₂ _ _ hpq]

theorem keyLt_asymm {α β : Type} {lt : α → α → Bool} (h : Asymm lt) : Asymm (keyLt (β := β) lt) :=
  fun p q hpq => h p.1 q.1 hpq

theorem ult_asymm {w : ℕ} : Asymm (BitVec.ult (n := w)) := by
  intro u v h
  simp only [BitVec.ult, decide_eq_true_eq, decide_eq_false_iff_not] at h ⊢
  omega

theorem slt_asymm {w : ℕ} : Asymm (BitVec.slt (n := w)) := by
  intro u v h
  simp only [BitVec.slt, decide_eq_true_eq, decide_eq_false_iff_not] at h ⊢
  omega

theorem ieeeLt_asymm (e f : ℕ) {w : ℕ} : Asymm (Scalar.ieeeLt e f (w := w)) := by
  intro u v h
  simp only [Scalar.ieeeLt, Bool.and_eq_true, decide_eq_true_eq] at h
  simp only [Scalar.ieeeLt, Bool.and_eq_false_iff, decide_eq_false_iff_not]
  right
  omega

theorem Scalar.lt_asymm (s : Scalar) : Asymm s.lt := by
  cases s with
  | bool | unsignedChar | unsignedShort | unsignedInt | unsignedLong | unsignedLongLong => exact ult_asymm
  | char | short | int | long | longLong => exact slt_asymm
  | float => exact ieeeLt_asymm 8 23
  | double => exact ieeeLt_asymm 11 52

/-- No type of the codec has two objects each less than the other (NaN keys included). -/
theorem Ty.lt_asymm (t : Ty) : Asymm t.lt := by
  induction t with
  | scalar s => exact s.lt_asymm
  | array n t _ => intro u v h; exact absurd h (by simp [Ty.lt])
  | string => exact lexLt_asymm ult_asymm
  | seq _ t ih | set t ih | multiset t ih => exact lexLt_asymm ih
  | map k t ihk iht | multimap k t ihk iht => exact lexLt_asymm (pairLt_asymm ihk iht)
  | pair a b iha ihb => exact pairLt_asymm iha ihb

/-! ## What each decoding loop yields -/

section Loops

variable (writer reader : ByteOrder)

theorem getLen_yields (n : ℕ) : Yields (getLen reader) (putLen writer n) (n % 2 ^ 32) := by
  have h := (Scalar.get_yields (s := .unsignedInt) (by decide) writer reader (BitVec.ofNat 32 n)).map
    (f := fun len => len.toNat)
  have e : (BitVec.ofNat 32 n).toNat = n % 2 ^ 32 := BitVec.toNat_ofNat n 32
  rw [← e]
  exact h

theorem getLen_yields_of_lt {n : ℕ} (h : n < 2 ^ 32) : Yields (getLen reader) (putLen writer n) n := by
  have h' := getLen_yields writer reader n
  rwa [Nat.mod_eq_of_lt h] at h'

theorem getArray_yields {α : Type} {get : α → Decoder Byte String α} {put : α → List Byte} {n : ℕ} {w v m : Fin n → α}
    (h : ∀ i, Yields (get (w i)) (put (v i)) (m i)) : Yields (getArray get w) ((List.ofFn v).flatMap put) m := by
  induction n with
  | zero =>
    have e : w = m := funext fun i => i.elim0
    rw [← e]
    exact yields_pure w
  | succ n ih =>
    have hxs := (ih fun i => h i.succ).map (f := fun xs => (Fin.cons (m 0) xs : Fin (n + 1) → α))
    have e : (Fin.cons (m 0) fun i : Fin n => m i.succ) = m := Fin.cons_self_tail m
    rw [e] at hxs
    rw [List.ofFn_succ, List.flatMap_cons]
    exact (h 0).bind hxs

theorem getChars_yields (b v : List Byte) : Yields (getChars b.length v) b (v ++ b) := by
  induction hn : b.length using Nat.strong_induction_on generalizing b v with
  | _ n ih =>
    subst hn
    rw [getChars]
    split_ifs with h0
    · rw [List.eq_nil_of_length_eq_zero h0, List.append_nil]
      exact yields_pure v
    · -- one buffer, then the rest of the characters
      have hl : (b.take (min b.length chunk)).length = min b.length chunk := by simp
      have hd : (b.drop (min b.length chunk)).length = b.length - min b.length chunk := by simp
      have h1 := yields_readExact Scalar.malformed (b.take (min b.length chunk))
      have h2 := ih (b.length - min b.length chunk) (by simp only [chunk]; omega) (b.drop (min b.length chunk))
        (v ++ b.take (min b.length chunk)) hd
      rw [hl] at h1
      rw [List.append_assoc, List.take_append_drop] at h2
      have h3 := h1.bind (f := fun buffer => getChars (b.length - min b.length chunk) (v ++ buffer)) h2
      rwa [List.take_append_drop] at h3

theorem getPair_yields {α β : Type} {get₁ : Decoder Byte String α} {get₂ : Decoder Byte String β} {b₁ b₂ : List Byte}
    {x : α} {y : β} (h₁ : Yields get₁ b₁ x) (h₂ : Yields get₂ b₂ y) : Yields (getPair get₁ get₂) (b₁ ++ b₂) (x, y) :=
  h₁.bind h₂.map

theorem foldl_pushBack {α : Type} (w v : List α) : v.foldl pushBack w = w ++ v := by
  induction v generalizing w with
  | nil => simp
  | cons x v ih => rw [List.foldl_cons, ih]; simp [pushBack]

theorem foldl_pushBack_iff {α : Type} {w v : List α} : v.foldl pushBack w = v ↔ w = [] := by
  simp [foldl_pushBack]

/-- a length prefix and a counted loop: the shape of every container overload -/
theorem container_yields {α γ : Type} {d : Decoder Byte String α} {add : γ → α → γ} {put : α → List Byte} {v : List α}
    (hlen : v.length < 2 ^ 32) (h : ∀ x ∈ v, Yields d (put x) x) (w : γ) :
    Yields (getLen reader >>= fun len => fill d add len w) (putLen writer v.length ++ v.flatMap put) (v.foldl add w) :=
  (getLen_yields_of_lt writer reader hlen).bind (yields_fill h w)

theorem string_yields {v : List Byte} (hlen : v.length < 2 ^ 32) :
    Yields (getLen reader >>= fun len => getChars len []) (putLen writer v.length ++ v.take (v.length % 2 ^ 32)) v := by
  have e : v.take (v.length % 2 ^ 32) = v := by rw [Nat.mod_eq_of_lt hlen, List.take_length]
  rw [e]
  exact (getLen_yields_of_lt writer reader hlen).bind (f := fun len => getChars len []) (getChars_yields v [])

end Loops

/-! ## Decoding into a target -/

namespace Ty

theorem fresh_empty (t : Ty) : t.Empty t.fresh := by
  induction t with
  | scalar | string => trivial
  | array n t ih => exact fun _ => ih
  | seq | set | multiset | map | multimap => rfl
  | pair a b iha ihb => exact ⟨iha, ihb⟩

/-- Into a target whose containers are empty, what was sent is what arrives. -/
theorem merge_of_empty (t : Ty) {w v : t.Val} (hw : t.Empty w) (hv : t.Ordered v) : t.merge w v = v := by
  induction t with
  | scalar | string => rfl
  | array n t ih => exact funext fun i => ih (hw i) (hv i)
  | seq k t _ => cases hw; exact foldl_pushBack [] v
  | set t _ => cases hw; exact foldl_insertUniqueEnd_sublist t.lt_asymm [] hv.1 (List.nil_sublist _)
  | multiset t _ => cases hw; exact foldl_insertEqualEnd_append [] hv.1
  | map k t _ _ =>
    cases hw; exact foldl_insertUniqueEnd_sublist (keyLt_asymm k.lt_asymm) [] hv.1 (List.nil_sublist _)
  | multimap k t _ _ => cases hw; exact foldl_insertEqualEnd_append [] hv.1
  | pair a b iha ihb => exact Prod.ext (iha hw.1 hv.1) (ihb hw.2 hv.2)

/-- The framed round trip. Decoding the encoding of `v` into `w` leaves `merge w v` and consumes exactly the encoding,
whatever the byte orders of the two hosts. -/
theorem get_yields (writer reader : ByteOrder) (t : Ty) (ht : t.NoShort) (w : t.Val) {v : t.Val} (hv : t.Ordered v)
    (hs : t.Sized v) : Yields (t.get reader w) (t.put writer v) (t.merge w v) := by
  -- the elements of a container are decoded into fresh objects, so they arrive as they were sent
  have element {t : Ty} (ih : t.NoShort → ∀ (w : t.Val) {v : t.Val}, t.Ordered v → t.Sized v →
      Yields (t.get reader w) (t.put writer v) (t.merge w v)) (ht : t.NoShort) {x : t.Val} (hx : t.Ordered x)
      (hs : t.Sized x) : Yields (t.get reader t.fresh) (t.put writer x) x := by
    have h := ih ht t.fresh hx hs
    rwa [merge_of_empty t t.fresh_empty hx] at h
  induction t with
  | scalar s => exact Scalar.get_yields ht writer reader v
  | array n t ih => exact (getLen_yields writer reader n).bind (getArray_yields fun i => ih ht (w i) (hv i) (hs i))
  | string => exact string_yields writer reader hs
  | seq k t ih => exact container_yields writer reader hs.1 (fun x hx => element ih ht (hv x hx) (hs.2 x hx)) w
  | set t ih => exact container_yields writer reader hs.1 (fun x hx => element ih ht (hv.2 x hx) (hs.2 x hx)) w
  | multiset t ih => exact container_yields writer reader hs.1 (fun x hx => element ih ht (hv.2 x hx) (hs.2 x hx)) w
  | map k t ihk iht =>
    refine container_yields writer reader hs.1 ?_ w
    intro p hp
    exact getPair_yields (element ihk ht.1 (hv.2 p hp).1 (hs.2 p hp).1) (element iht ht.2 (hv.2 p hp).2 (hs.2 p hp).2)
  | multimap k t ihk iht =>
    refine container_yields writer reader hs.1 ?_ w
    intro p hp
    exact getPair_yields (element ihk ht.1 (hv.2 p hp).1 (hs.2 p hp).1) (element iht ht.2 (hv.2 p hp).2 (hs.2 p hp).2)
  | pair a b iha ihb => exact getPair_yields (iha ht.1 w.1 hv.1 hs.1) (ihb ht.2 w.2 hv.2 hs.2)

theorem merge_eq_iff (t : Ty) {w v : t.Val} (hw : t.Ordered w) (hv : t.Ordered v) :
    t.merge w v = v ↔ t.Replaced w v := by
  induction t with
  | scalar | string => exact ⟨fun _ => trivial, fun _ => rfl⟩
  | array n t ih =>
    constructor
    · intro h i; exact (ih (hw i) (hv i)).1 (congrFun h i)
    · intro h; exact funext fun i => (ih (hw i) (hv i)).2 (h i)
  | seq k t _ => exact foldl_pushBack_iff
  | set t _ => exact foldl_insertUniqueEnd_iff t.lt_asymm hv.1 hw.1
  | multiset t _ => exact foldl_insertEqualEnd_iff hv.1
  | map k t _ _ => exact foldl_insertUniqueEnd_iff (keyLt_asymm k.lt_asymm) hv.1 hw.1
  | multimap k t _ _ => exact foldl_insertEqualEnd_iff hv.1
  | pair a b iha ihb =>
    constructor
    · intro h
      exact ⟨(iha hw.1 hv.1).1 (congrArg Prod.fst h), (ihb hw.2 hv.2).1 (congrArg Prod.snd h)⟩
    · intro h
      exact Prod.ext ((iha hw.1 hv.1).2 h.1) ((ihb hw.2 hv.2).2 h.2)

end Ty

end TinyRpc.Protocol
