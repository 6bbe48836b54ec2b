/-
What a hostile length prefix can cost (`protocol/archive.hpp`).

`getMetered` is the decoder of `Archive` with a counter: one for every `v.insert`, and the number of characters for every
`v += std::string(buffer, l)`. The length prefixes it reads are up to 2^32 - 1 at every depth, and nobody checks them
against the bytes that are there. But every object takes bytes of its own (a scalar its size, everything else its length
prefix), the loops insert an element only after they have decoded it, and a string grows only after its characters were
read. So the work is at most the number of bytes on the stream (`work_bounded`), also when the decoder throws.
-/
import Mathlib.Tactic
import TinyRpc.Core.Meter
import TinyRpc.Protocol.Accept

namespace TinyRpc.Protocol

open TinyRpc.Core

/-! ## The decoder with a counter -/

def Scalar.getMetered (host : ByteOrder) (s : Scalar) : Metered Byte String s.Val := do
  let mem ← unmetered (readExact malformed s.size)
  pure (s.swap host (host.ofMem s.size mem))

def getLenMetered (host : ByteOrder) : Metered Byte String ℕ := do
  let len ← Scalar.getMetered host .unsignedInt
  pure len.toNat

def getArrayMetered {α : Type} (get : α → Metered Byte String α) : {n : ℕ} → (Fin n → α) → Metered Byte String (Fin n → α)
  | 0, w => pure w
  | _ + 1, w => do
    let x ← get (w 0)
    let xs ← getArrayMetered get fun i => w i.succ
    pure (Fin.cons x xs)

/-- the loop of the string overload; appending a chunk costs its length -/
def getCharsMetered (toRead : ℕ) (v : List Byte) : Metered Byte String (List Byte) :=
  if toRead = 0 then pure v
  else do
    let l := min toRead chunk
    let buffer ← unmetered (readExact Scalar.malformed l)
    tick l
    getCharsMetered (toRead - l) (v ++ buffer)
termination_by toRead
decreasing_by simp only [chunk]; omega

def getPairMetered {α β : Type} (get₁ : Metered Byte String α) (get₂ : Metered Byte String β) :
    Metered Byte String (α × β) := do
  let x ← get₁
  let y ← get₂
  pure (x, y)

/-- `operator>>` into a target that holds `w`, counting the insertions into containers and the characters appended to
strings -/
def Ty.getMetered (host : ByteOrder) : (t : Ty) → t.Val → Metered Byte String t.Val
  | scalar s => fun _ => s.getMetered host
  | array n t => fun w : Fin n → t.Val => do
    let _len ← getLenMetered host
    getArrayMetered (t.getMetered host) w
  | string => fun _ => do
    let len ← getLenMetered host
    getCharsMetered len []
  | seq _ t => fun w : List t.Val => do
    let len ← getLenMetered host
    fillMetered (t.getMetered host t.fresh) pushBack len w
  | set t => fun w : List t.Val => do
    let len ← getLenMetered host
    fillMetered (t.getMetered host t.fresh) (insertUniqueEnd t.lt) len w
  | multiset t => fun w : List t.Val => do
    let len ← getLenMetered host
    fillMetered (t.getMetered host t.fresh) (insertEqualEnd t.lt) len w
  | map k t => fun w : List (k.Val × t.Val) => do
    let len ← getLenMetered host
    fillMetered (getPairMetered (k.getMetered host k.fresh) (t.getMetered host t.fresh)) (insertUniqueEnd (keyLt k.lt)) len w
  | multimap k t => fun w : List (k.Val × t.Val) => do
    let len ← getLenMetered host
    fillMetered (getPairMetered (k.getMetered host k.fresh) (t.getMetered host t.fresh)) (insertEqualEnd (keyLt k.lt)) len w
  | pair a b => fun w : a.Val × b.Val => getPairMetered (a.getMetered host w.1) (b.getMetered host w.2)

/-! ## Every object pays for its work -/

/-- a scalar takes its bytes, and makes no work -/
theorem Scalar.get_pays (host : ByteOrder) (s : Scalar) : Pays s.size (s.getMetered host) (s.get host) :=
  (pays_readExact malformed s.size).bind (m := 0) fun _ => pays_pure _

theorem getLen_pays (host : ByteOrder) : Pays 4 (getLenMetered host) (getLen host) :=
  (Scalar.get_pays host .unsignedInt).bind (m := 0) fun _ => pays_pure _

theorem getArray_pays {α : Type} {get : α → Metered Byte String α} {get₀ : α → Decoder Byte String α}
    (h : ∀ w, Pays 0 (get w) (get₀ w)) {n : ℕ} (w : Fin n → α) : Pays 0 (getArrayMetered get w) (getArray get₀ w) := by
  induction n with
  | zero => exact pays_pure w
  | succ n ih => exact (h (w 0)).bind fun x => (ih fun i => w i.succ).bind fun xs => pays_pure _

theorem getChars_pays (toRead : ℕ) (v : List Byte) : Pays 0 (getCharsMetered toRead v) (getChars toRead v) := by
  induction toRead using Nat.strong_induction_on generalizing v with
  | _ n ih =>
    rw [getCharsMetered, getChars]
    split_ifs with h0
    · exact pays_pure v
    · have hread : Pays (0 + min n chunk) (unmetered (readExact Scalar.malformed (min n chunk)))
          (readExact (β := Byte) Scalar.malformed (min n chunk)) := by
        rw [Nat.zero_add]
        exact pays_readExact _ _
      refine hread.spend (m := 0) ?_
      intro buffer
      exact ih (n - min n chunk) (by simp only [chunk]; omega) (v ++ buffer)

theorem getPair_pays {α β : Type} {get₁ : Metered Byte String α} {get₂ : Metered Byte String β}
    {d₁ : Decoder Byte String α} {d₂ : Decoder Byte String β} {c₁ c₂ : ℕ} (h₁ : Pays c₁ get₁ d₁) (h₂ : Pays c₂ get₂ d₂) :
    Pays (c₁ + c₂) (getPairMetered get₁ get₂) (getPair d₁ d₂) :=
  h₁.bind fun _ => h₂.bind fun _ => pays_pure _

/-- a length prefix leaves a token to spare, whatever its loop needs -/
theorem prefixed_pays {α : Type} {f : ℕ → Metered Byte String α} {f₀ : ℕ → Decoder Byte String α} (host : ByteOrder)
    (h : ∀ len, Pays 0 (f len) (f₀ len)) : Pays 1 (getLenMetered host >>= f) (getLen host >>= f₀) :=
  ((getLen_pays host).bind h).weaken (by omega)

/-- Decoding any object, into any target, takes more bytes than it makes work. -/
theorem Ty.get_pays (host : ByteOrder) (t : Ty) (w : t.Val) : Pays 1 (t.getMetered host w) (t.get host w) := by
  induction t with
  | scalar s =>
    have hsize : 1 ≤ s.size := by cases s <;> decide
    exact (s.get_pays host).weaken hsize
  | array n t ih => exact prefixed_pays host fun _ => getArray_pays (fun w => (ih w).weaken (Nat.zero_le 1)) w
  | string => exact prefixed_pays host fun len => getChars_pays len []
  | seq _ t ih | set t ih | multiset t ih => exact prefixed_pays host fun len => (ih t.fresh).fill len w
  | map k t ihk iht | multimap k t ihk iht =>
    have hpair := (getPair_pays (ihk k.fresh) (iht t.fresh)).weaken (m := 1) (by omega)
    exact prefixed_pays host fun len => hpair.fill len w
  | pair a b iha ihb => exact (getPair_pays (iha w.1) (ihb w.2)).weaken (by omega)

/-- **Work is paid for.** For every type, every target and every byte string, whatever length prefixes it holds: the
decoder ends with a value or with "malformed data", and the insertions into containers and the characters appended to
strings on the way, at all depths, are together at most the number of bytes. -/
theorem work_bounded (host : ByteOrder) (t : Ty) (w : t.Val) (b : List Byte) :
    (t.getMetered host w (.of b) 0).1 = t.get host w (.of b) ∧
      (t.getMetered host w (.of b) 0).2 ≤ b.length ∧
      ((∃ v s, t.get host w (.of b) = .ok (v, s)) ∨ t.get host w (.of b) = .error "malformed data") := by
  obtain ⟨work, hrun, hpaid⟩ := t.get_pays host w b 0
  rw [hrun]
  refine ⟨rfl, ?_, ?_⟩
  · rw [Nat.zero_add]
    cases h : t.get host w (.of b) with
    | error e =>
      rw [h] at hpaid
      exact hpaid
    | ok p =>
      rw [h] at hpaid
      obtain ⟨r, -, hr⟩ := hpaid
      omega
  · cases h : t.get host w (.of b) with
    | error e =>
      rw [t.get_throws host w _ e h]
      exact Or.inr rfl
    | ok p => exact Or.inl ⟨p.1, p.2, rfl⟩

end TinyRpc.Protocol
