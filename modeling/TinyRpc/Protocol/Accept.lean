/-
Which byte strings the decoder accepts (`protocol/archive.hpp`), where nothing is assumed about who wrote them.

The decoder never looks past what it consumes (`get_local`) and has one error (`get_throws`). With the round trip this
gives `truncated_refused`: a stream that holds a proper prefix of an encoding makes `operator>>` throw "malformed data",
wherever the cut falls. For the types without sorted containers and arrays it is also exact: `accepted_encoded` says that
the bytes it took are the encoding of the value it returned. A set would sort what it reads, and an array ignores its
length prefix, so neither holds for them.
-/
import Mathlib.Tactic
import TinyRpc.Core.Stream
import TinyRpc.Protocol.Archive

namespace TinyRpc.Protocol

open TinyRpc.Core

/-! ## The decoder is local and has one error -/

theorem Scalar.get_local (host : ByteOrder) (s : Scalar) : Local (s.get host) :=
  (local_readExact _ _).bind fun _ => local_pure _

theorem Scalar.get_throws (host : ByteOrder) (s : Scalar) : Throws Scalar.malformed (s.get host) :=
  (throws_readExact _ _).bind fun _ => throws_pure _ _

theorem getLen_local (host : ByteOrder) : Local (getLen host) :=
  (Scalar.get_local host _).bind fun _ => local_pure _

theorem getLen_throws (host : ByteOrder) : Throws Scalar.malformed (getLen host) :=
  (Scalar.get_throws host _).bind fun _ => throws_pure _ _

theorem getArray_local {α : Type} {get : α → Decoder Byte String α} (h : ∀ w, Local (get w)) {n : ℕ} (w : Fin n → α) :
    Local (getArray get w) := by
  induction n with
  | zero => exact local_pure w
  | succ n ih => exact (h (w 0)).bind fun x => (ih fun i => w i.succ).bind fun _ => local_pure _

theorem getArray_throws {α : Type} {get : α → Decoder Byte String α} (h : ∀ w, Throws Scalar.malformed (get w)) {n : ℕ}
    (w : Fin n → α) : Throws Scalar.malformed (getArray get w) := by
  induction n with
  | zero => exact throws_pure _ w
  | succ n ih => exact (h (w 0)).bind fun x => (ih fun i => w i.succ).bind fun _ => throws_pure _ _

theorem getChars_local (toRead : ℕ) (v : List Byte) : Local (getChars toRead v) := by
  induction toRead using Nat.strong_induction_on generalizing v with
  | _ n ih =>
    rw [getChars]
    split_ifs with h0
    · exact local_pure v
    · refine (local_readExact _ _).bind ?_
      intro buffer
      exact ih (n - min n chunk) (by simp only [chunk]; omega) (v ++ buffer)

theorem getChars_throws (toRead : ℕ) (v : List Byte) : Throws Scalar.malformed (getChars toRead v) := by
  induction toRead using Nat.strong_induction_on generalizing v with
  | _ n ih =>
    rw [getChars]
    split_ifs with h0
    · exact throws_pure _ v
    · refine (throws_readExact _ _).bind ?_
      intro buffer
      exact ih (n - min n chunk) (by simp only [chunk]; omega) (v ++ buffer)

theorem getPair_local {α β : Type} {get₁ : Decoder Byte String α} {get₂ : Decoder Byte String β} (h₁ : Local get₁)
    (h₂ : Local get₂) : Local (getPair get₁ get₂) :=
  h₁.bind fun _ => h₂.bind fun _ => local_pure _

theorem getPair_throws {α β : Type} {get₁ : Decoder Byte String α} {get₂ : Decoder Byte String β}
    (h₁ : Throws Scalar.malformed get₁) (h₂ : Throws Scalar.malformed get₂) :
    Throws Scalar.malformed (getPair get₁ get₂) :=
  h₁.bind fun _ => h₂.bind fun _ => throws_pure _ _

namespace Ty

/-- Decoding never looks past what it consumes, whatever the type, the target and the bytes. -/
theorem get_local (host : ByteOrder) (t : Ty) (w : t.Val) : Local (t.get host w) := by
  induction t with
  | scalar s => exact s.get_local host
  | array n t ih => exact (getLen_local host).bind fun _ => getArray_local ih w
  | string => exact (getLen_local host).bind fun len => getChars_local len []
  | seq _ t ih | set t ih | multiset t ih => exact (getLen_local host).bind fun len => local_fill (ih t.fresh) len w
  | map k t ihk iht | multimap k t ihk iht =>
    exact (getLen_local host).bind fun len => local_fill (getPair_local (ihk k.fresh) (iht t.fresh)) len w
  | pair a b iha ihb => exact getPair_local (iha w.1) (ihb w.2)

/-- Every failed decode throws "malformed data". -/
theorem get_throws (host : ByteOrder) (t : Ty) (w : t.Val) : Throws Scalar.malformed (t.get host w) := by
  induction t with
  | scalar s => exact s.get_throws host
  | array n t ih => exact (getLen_throws host).bind fun _ => getArray_throws ih w
  | string => exact (getLen_throws host).bind fun len => getChars_throws len []
  | seq _ t ih | set t ih | multiset t ih => exact (getLen_throws host).bind fun len => throws_fill (ih t.fresh) len w
  | map k t ihk iht | multimap k t ihk iht =>
    exact (getLen_throws host).bind fun len => throws_fill (getPair_throws (ihk k.fresh) (iht t.fresh)) len w
  | pair a b iha ihb => exact getPair_throws (iha w.1) (ihb w.2)

end Ty

/-- **Truncation is detected.** For every type without `short`, every value, every target and hosts of either byte order:
a stream that holds a proper prefix of the encoding makes the decoder throw "malformed data". -/
theorem truncated_refused (writer reader : ByteOrder) (t : Ty) (ht : t.NoShort) {v : t.Val} (hv : t.Ordered v)
    (hs : t.Sized v) (w : t.Val) {p : List Byte} (hp : p <+: t.put writer v) (hne : p ≠ t.put writer v) :
    t.get reader w (.of p) = .error "malformed data" := by
  have hyields := Ty.get_yields writer reader t ht w hv hs
  obtain ⟨e, he⟩ := (t.get_local reader w).refuses hyields hp hne
  rw [he, t.get_throws reader w _ e he]
  rfl

/-- a map with two keys, "a" and "bc" -/
def twoKeys : Ty.Val (.map .string (.scalar .int)) := ([([0x61], 7), ([0x62, 0x63], 8)] : List (List Byte × BitVec 32))

/-- the map is cut inside the characters of its second key -/
theorem truncated_refused_map :
    Ty.get .little (.map .string (.scalar .int)) ([] : List (List Byte × BitVec 32))
      (.of [0, 0, 0, 2, 0, 0, 0, 1, 0x61, 0, 0, 0, 7, 0, 0, 0, 2, 0x62]) = .error "malformed data" := by
  have hput : Ty.put .big (.map .string (.scalar .int)) twoKeys =
      [0, 0, 0, 2, 0, 0, 0, 1, 0x61, 0, 0, 0, 7, 0, 0, 0, 2, 0x62, 0x63, 0, 0, 0, 8] := by decide
  apply truncated_refused .big .little (.map .string (.scalar .int)) (by decide) (v := twoKeys) (by decide) (by decide)
  · rw [hput]
    exact ⟨[0x63, 0, 0, 0, 8], rfl⟩
  · rw [hput]
    decide

/-! ## What is accepted was encoded -/

/-- The bytes of a scalar's memory are what the scalar is written as, on hosts of either byte order. -/
theorem Scalar.get_canonical {s : Scalar} (hs : s ≠ .short) (writer reader : ByteOrder) :
    Canonical (s.get reader) (s.put writer) := by
  intro q v t h
  obtain ⟨mem, t', h1, h2⟩ := bind_eq_ok h
  obtain ⟨hlen, r, rfl, rfl⟩ := readExact_eq_ok h1
  obtain ⟨rfl, rfl⟩ := pure_eq_ok h2
  refine ⟨r, ?_, rfl⟩
  rw [put_eq hs]
  cases reader with
  | little => rw [swap_reverses hs, List.reverse_reverse, ByteOrder.ofMem, leBytes_ofLeBytes hlen]
  | big => rw [swap_big, ByteOrder.ofMem, leBytes_ofLeBytes (by rw [List.length_reverse, hlen]), List.reverse_reverse]

/-- a length that was read is the length that would be written -/
theorem getLen_canonical (writer reader : ByteOrder) {q : List Byte} {n : ℕ} {s : Stream Byte}
    (h : getLen reader (.of q) = .ok (n, s)) : n < 2 ^ 32 ∧ ∃ r, q = putLen writer n ++ r ∧ s = .of r := by
  obtain ⟨len, t, h1, h2⟩ := bind_eq_ok h
  obtain ⟨r, rfl, rfl⟩ := Scalar.get_canonical (by decide) writer reader q len t h1
  obtain ⟨rfl, rfl⟩ := pure_eq_ok h2
  refine ⟨len.isLt, r, ?_, rfl⟩
  rw [putLen]
  have hlen : BitVec.ofNat 32 len.toNat = len := by
    rw [BitVec.ofNat_toNat]
    exact BitVec.setWidth_eq len
  rw [hlen]

/-- the chunks of a string put together are the bytes that were taken -/
theorem getChars_canonical {toRead : ℕ} {v u q : List Byte} {s : Stream Byte} (h : getChars toRead v (.of q) = .ok (u, s)) :
    ∃ b r, b.length = toRead ∧ u = v ++ b ∧ q = b ++ r ∧ s = .of r := by
  induction toRead using Nat.strong_induction_on generalizing v q with
  | _ n ih =>
    rw [getChars] at h
    split_ifs at h with h0
    · obtain ⟨rfl, rfl⟩ := pure_eq_ok h
      exact ⟨[], q, h0.symm, (List.append_nil v).symm, rfl, rfl⟩
    · obtain ⟨buffer, t, h1, h2⟩ := bind_eq_ok h
      obtain ⟨hlen, r, rfl, rfl⟩ := readExact_eq_ok h1
      obtain ⟨b, r', hb, rfl, rfl, rfl⟩ := ih (n - min n chunk) (by simp only [chunk]; omega) h2
      refine ⟨buffer ++ b, r', ?_, ?_, ?_, rfl⟩
      · rw [List.length_append, hlen, hb]
        omega
      · rw [List.append_assoc]
      · rw [List.append_assoc]

theorem getPair_canonical {α β : Type} {get₁ : Decoder Byte String α} {get₂ : Decoder Byte String β}
    {put₁ : α → List Byte} {put₂ : β → List Byte} (h₁ : Canonical get₁ put₁) (h₂ : Canonical get₂ put₂) :
    Canonical (getPair get₁ get₂) fun p => put₁ p.1 ++ put₂ p.2 := by
  intro q p s h
  obtain ⟨x, t, h1, h⟩ := bind_eq_ok h
  obtain ⟨y, t', h2, h⟩ := bind_eq_ok h
  obtain ⟨r, rfl, rfl⟩ := h₁ q x t h1
  obtain ⟨r', rfl, rfl⟩ := h₂ r y t' h2
  obtain ⟨rfl, rfl⟩ := pure_eq_ok h
  exact ⟨r', (List.append_assoc _ _ _).symm, rfl⟩

theorem string_canonical (writer reader : ByteOrder) :
    Canonical (getLen reader >>= fun len => getChars len []) fun v => putLen writer v.length ++ v.take (v.length % 2 ^ 32) := by
  intro q v s h
  obtain ⟨len, t, h1, h2⟩ := bind_eq_ok h
  obtain ⟨hlt, r, rfl, rfl⟩ := getLen_canonical writer reader h1
  obtain ⟨b, r', rfl, rfl, rfl, rfl⟩ := getChars_canonical h2
  refine ⟨r', ?_, rfl⟩
  beta_reduce
  rw [Nat.mod_eq_of_lt hlt, List.take_length, List.append_assoc]

theorem seq_canonical {α : Type} {d : Decoder Byte String α} {put : α → List Byte} (hd : Canonical d put)
    (writer reader : ByteOrder) :
    Canonical (getLen reader >>= fun len => fill d pushBack len []) fun v => putLen writer v.length ++ v.flatMap put := by
  intro q v s h
  obtain ⟨len, t, h1, h2⟩ := bind_eq_ok h
  obtain ⟨-, r, rfl, rfl⟩ := getLen_canonical writer reader h1
  obtain ⟨as, r', rfl, rfl, rfl, rfl⟩ := hd.fill h2
  refine ⟨r', ?_, rfl⟩
  rw [foldl_pushBack, List.nil_append, List.append_assoc]

namespace Ty

/-- built from the scalars other than `bool` and `short` with strings, sequences and pairs -/
def Plain : Ty → Prop
  | scalar s => s ≠ .bool ∧ s ≠ .short
  | string => True
  | seq _ t => t.Plain
  | pair a b => a.Plain ∧ b.Plain
  | array _ _ | set _ | multiset _ | map _ _ | multimap _ _ => False

/-- Decoding into an empty target takes exactly the encoding of what it returns. -/
theorem get_canonical (writer reader : ByteOrder) (t : Ty) (ht : t.Plain) {w : t.Val} (hw : t.Empty w) :
    Canonical (t.get reader w) (t.put writer) := by
  induction t with
  | scalar s => exact Scalar.get_canonical ht.2 writer reader
  | string => exact string_canonical writer reader
  | seq k t ih =>
    cases hw
    exact seq_canonical (ih ht t.fresh_empty) writer reader
  | pair a b iha ihb => exact getPair_canonical (iha ht.1 hw.1) (ihb ht.2 hw.2)
  | array n t _ | set t _ | multiset t _ => exact absurd ht id
  | map k t _ _ | multimap k t _ _ => exact absurd ht id

end Ty

/-- **The decoder accepts only encodings.** For every type built from the scalars other than `bool` and `short` with
strings, sequences and pairs, an empty target and any bytes whatsoever: a decode that succeeds has taken exactly the
encoding of the value it returns, so no value has two accepted encodings. -/
theorem accepted_encoded (writer reader : ByteOrder) (t : Ty) (ht : t.Plain) {w : t.Val} (hw : t.Empty w) :
    (∀ (b : List Byte) (v : t.Val) (s : Stream Byte), t.get reader w (.of b) = .ok (v, s) →
      ∃ r, s = .of r ∧ t.put writer v ++ r = b) ∧
    ∀ (b b' : List Byte) (v : t.Val) (r : List Byte), t.get reader w (.of b) = .ok (v, .of r) →
      t.get reader w (.of b') = .ok (v, .of r) → b = b' := by
  have hcanon := Ty.get_canonical writer reader t ht hw
  have hunique : ∀ (b : List Byte) (v : t.Val) (r : List Byte), t.get reader w (.of b) = .ok (v, .of r) →
      b = t.put writer v ++ r := by
    intro b v r h
    obtain ⟨r', hb, hr⟩ := hcanon b v (.of r) h
    have hrest : r = r' := congrArg Stream.queue hr
    rw [hb, hrest]
  refine ⟨?_, ?_⟩
  · intro b v s h
    obtain ⟨r, hb, hr⟩ := hcanon b v s h
    exact ⟨r, hr, hb.symm⟩
  · intro b b' v r h h'
    calc b = t.put writer v ++ r := hunique b v r h
      _ = b' := (hunique b' v r h').symm

/-- two bytes after a vector of one `int` -/
theorem accepted_encoded_vector :
    Ty.put .little (.seq .vector (.scalar .int)) ([258] : List (BitVec 32)) ++ [9, 9] = [0, 0, 0, 1, 0, 0, 1, 2, 9, 9] := by
  have hget : Ty.get .big (.seq .vector (.scalar .int)) ([] : List (BitVec 32)) (.of [0, 0, 0, 1, 0, 0, 1, 2, 9, 9]) =
      .ok (([258] : List (BitVec 32)), .of [9, 9]) := by
    rfl
  obtain ⟨r, hr, h⟩ := (accepted_encoded .little .big (.seq .vector (.scalar .int)) ⟨by decide, by decide⟩ (w := []) rfl).1
    _ _ _ hget
  have hrest : r = [9, 9] := (congrArg Stream.queue hr).symm
  rwa [hrest] at h

end TinyRpc.Protocol
