/-
The format of the archive, and where the fields of a message begin and end (`protocol/archive.hpp`, `protocol/codec.md`).

`Ty.Frame` is the grammar of the wire format, without a decoder: the bytes of a scalar; a length prefix of four bytes and
that many characters or elements; an array, whose length prefix says nothing. `get_accepts_iff` connects it to the code:
`operator>>` takes exactly the frames of the type, whatever the target holds. So it succeeds where the stream begins with
a frame and leaves what follows it.

Two results say when the frame that is read is the one that was written.

- `framing`: a value is written as one frame when each of its containers, at every depth, has fewer than 2^32 elements. A
  container with more writes all its elements under the truncated length, and leaves elements behind; a string truncates
  itself and is always one frame.
- `array_framing`: an array of another length than the target's is read as if it had the target's length.
-/
import Mathlib.Tactic
import TinyRpc.Core.Format
import TinyRpc.Core.SortedInsert
import TinyRpc.Protocol.Accept

namespace TinyRpc.Protocol

open TinyRpc.Core

/-! ## The grammar -/

/-- the length that a prefix of four bytes says -/
def lenOf (p : List Byte) : ℕ := (ofLeBytes 32 p.reverse).toNat

/-- `n` blocks with `F`, one after the other -/
def Items (F : List Byte → Prop) (n : ℕ) (b : List Byte) : Prop :=
  ∃ items : List (List Byte), items.length = n ∧ (∀ x ∈ items, F x) ∧ b = items.flatten

/-- a length prefix, then what `G` says of the length -/
def Prefixed (G : ℕ → List Byte → Prop) (b : List Byte) : Prop := ∃ p c, b = p ++ c ∧ p.length = 4 ∧ G (lenOf p) c

/-- a block with `F`, then a block with `G` -/
def Then (F G : List Byte → Prop) (b : List Byte) : Prop := ∃ x y, b = x ++ y ∧ F x ∧ G y

/-- the byte strings that stand for an object of the type -/
def Ty.Frame : Ty → List Byte → Prop
  | scalar s => fun b => b.length = s.size
  | array n t => Prefixed fun _ => Items t.Frame n
  | string => Prefixed fun len c => c.length = len
  | seq _ t | set t | multiset t => Prefixed fun len => Items t.Frame len
  | map k t | multimap k t => Prefixed fun len => Items (Then k.Frame t.Frame) len
  | pair a b => Then a.Frame b.Frame

/-! ## The decoder takes exactly the frames -/

theorem leBytes_ofLe_reverse {p : List Byte} (hp : p.length = 4) : (leBytes 4 (ofLeBytes 32 p.reverse)).reverse = p := by
  rw [leBytes_ofLeBytes (n := 4) (by rw [List.length_reverse, hp]), List.reverse_reverse]

/-- any four bytes are a length prefix, read alike on hosts of both byte orders -/
theorem getLen_yields_lenOf (host : ByteOrder) {p : List Byte} (hp : p.length = 4) : Yields (getLen host) p (lenOf p) := by
  have hput : Scalar.put host .unsignedInt (ofLeBytes 32 p.reverse) = p :=
    (Scalar.put_eq (s := .unsignedInt) (by decide) host _).trans (leBytes_ofLe_reverse hp)
  have h := (Scalar.get_yields (s := .unsignedInt) (by decide) host host (ofLeBytes 32 p.reverse)).map (f := fun len => len.toNat)
  rwa [hput] at h

theorem scalar_accepts_iff (host : ByteOrder) (s : Scalar) {b : List Byte} : Accepts (s.get host) b ↔ b.length = s.size := by
  rw [Scalar.get, accepts_bind (local_readExact _ _) fun _ => local_pure _]
  constructor
  · intro h
    obtain ⟨a, b₁, b₂, rfl, h1, h2⟩ := h
    rw [accepts_pure.1 h2, List.append_nil]
    exact accepts_readExact.1 ⟨a, h1⟩
  · intro h
    obtain ⟨a, ha⟩ := (accepts_readExact (e := Scalar.malformed)).2 h
    exact ⟨a, b, [], (List.append_nil b).symm, ha, accepts_pure.2 rfl⟩

/-- a length prefix and a loop -/
theorem prefixed_accepts_iff (host : ByteOrder) {α : Type} {f : ℕ → Decoder Byte String α} (hf : ∀ n, Local (f n))
    {G : ℕ → List Byte → Prop} (h : ∀ n b, Accepts (f n) b ↔ G n b) {b : List Byte} :
    Accepts (getLen host >>= f) b ↔ Prefixed G b := by
  rw [accepts_bind (getLen_local host) hf]
  constructor
  · intro hb
    obtain ⟨n, p, c, rfl, hp, hc⟩ := hb
    have hlen : p.length = 4 := by
      have hacc := (accepts_bind (Scalar.get_local host .unsignedInt) fun _ => local_pure _).1 ⟨n, hp⟩
      obtain ⟨a, b₁, b₂, rfl, h1, h2⟩ := hacc
      rw [accepts_pure.1 h2, List.append_nil]
      exact (scalar_accepts_iff host .unsignedInt).1 ⟨a, h1⟩
    have hn := hp.unique (getLen_yields_lenOf host hlen)
    exact ⟨p, c, rfl, hlen, (h _ _).1 (hn ▸ hc)⟩
  · intro hb
    obtain ⟨p, c, rfl, hlen, hc⟩ := hb
    exact ⟨lenOf p, p, c, rfl, getLen_yields_lenOf host hlen, (h _ _).2 hc⟩

theorem getPair_accepts_iff {α β : Type} {get₁ : Decoder Byte String α} {get₂ : Decoder Byte String β} (h₁ : Local get₁)
    (h₂ : Local get₂) {F G : List Byte → Prop} (hF : ∀ b, Accepts get₁ b ↔ F b) (hG : ∀ b, Accepts get₂ b ↔ G b)
    {b : List Byte} : Accepts (getPair get₁ get₂) b ↔ Then F G b := by
  constructor
  · intro h
    obtain ⟨x, b₁, b₂, rfl, hx, h⟩ := (accepts_bind h₁ fun _ => h₂.bind fun _ => local_pure _).1 h
    obtain ⟨y, b₃, b₄, rfl, hy, h⟩ := (accepts_bind h₂ fun _ => local_pure _).1 h
    rw [accepts_pure.1 h, List.append_nil]
    exact ⟨b₁, b₃, rfl, (hF _).1 ⟨x, hx⟩, (hG _).1 ⟨y, hy⟩⟩
  · intro h
    obtain ⟨b₁, b₂, rfl, hx, hy⟩ := h
    obtain ⟨x, hx⟩ := (hF _).2 hx
    obtain ⟨y, hy⟩ := (hG _).2 hy
    exact ⟨(x, y), getPair_yields hx hy⟩

theorem fill_accepts_iff {α γ : Type} {d : Decoder Byte String α} {add : γ → α → γ} (hd : Local d)
    {F : List Byte → Prop} (hF : ∀ b, Accepts d b ↔ F b) {n : ℕ} {acc : γ} {b : List Byte} :
    Accepts (fill d add n acc) b ↔ Items F n b := by
  rw [accepts_fill hd]
  simp only [hF, Items]

theorem getChars_accepts_iff {toRead : ℕ} {v b : List Byte} : Accepts (getChars toRead v) b ↔ b.length = toRead := by
  constructor
  · intro h
    obtain ⟨u, h⟩ := h
    have hrun := h []
    rw [List.append_nil] at hrun
    obtain ⟨b', r, rfl, -, rfl, hs⟩ := getChars_canonical hrun
    have hr : [] = r := congrArg Stream.queue hs
    rw [← hr, List.append_nil]
  · rintro rfl
    exact ⟨v ++ b, getChars_yields b v⟩

theorem getArray_accepts_iff {α : Type} {get : α → Decoder Byte String α} (hget : ∀ w, Local (get w))
    {F : List Byte → Prop} (hF : ∀ w b, Accepts (get w) b ↔ F b) {n : ℕ} (w : Fin n → α) {b : List Byte} :
    Accepts (getArray get w) b ↔ Items F n b := by
  unfold Items
  induction n generalizing b with
  | zero => rw [getArray, accepts_pure, items_zero]
  | succ n ih =>
    rw [getArray, accepts_bind (hget _) fun x => (getArray_local hget _).bind fun _ => local_pure _, items_succ]
    constructor
    · intro h
      obtain ⟨x, b₁, b₂, rfl, hx, htail⟩ := h
      obtain ⟨xs, b₃, b₄, rfl, hxs, hend⟩ := (accepts_bind (getArray_local hget _) fun _ => local_pure _).1 htail
      rw [accepts_pure.1 hend, List.append_nil]
      exact ⟨b₁, b₃, rfl, (hF _ _).1 ⟨x, hx⟩, (ih _).1 ⟨xs, hxs⟩⟩
    · intro h
      obtain ⟨b₁, b₂, rfl, hb, hrest⟩ := h
      obtain ⟨x, hx⟩ := (hF (w 0) b₁).2 hb
      obtain ⟨xs, hxs⟩ := (ih fun i => w i.succ).2 hrest
      exact ⟨x, b₁, b₂, rfl, hx, _, hxs.map⟩

namespace Ty

/-- **The format.** Decoding takes exactly the frames of the type, whatever the target holds and whatever the host. -/
theorem get_accepts_iff (host : ByteOrder) (t : Ty) (w : t.Val) (b : List Byte) : Accepts (t.get host w) b ↔ t.Frame b := by
  induction t generalizing b with
  | scalar s => exact scalar_accepts_iff host s
  | array n t ih =>
    exact prefixed_accepts_iff host (fun _ => getArray_local (t.get_local host) w)
      fun _ _ => getArray_accepts_iff (t.get_local host) ih w
  | string => exact prefixed_accepts_iff host (fun len => getChars_local len []) fun _ _ => getChars_accepts_iff
  | seq _ t ih | set t ih | multiset t ih =>
    exact prefixed_accepts_iff host (fun len => local_fill (t.get_local host _) len w)
      fun _ _ => fill_accepts_iff (t.get_local host _) (ih _)
  | map k t ihk iht | multimap k t ihk iht =>
    have hpair := getPair_local (k.get_local host k.fresh) (t.get_local host t.fresh)
    refine prefixed_accepts_iff host (fun len => local_fill hpair len w) fun _ _ => fill_accepts_iff hpair fun _ => ?_
    exact getPair_accepts_iff (k.get_local host _) (t.get_local host _) (ihk _) (iht _)
  | pair a c iha ihc => exact getPair_accepts_iff (a.get_local host _) (c.get_local host _) (iha w.1) (ihc w.2)

/-- no frame is the beginning of another -/
theorem frame_unambiguous {t : Ty} {b b' r r' : List Byte} (h : t.Frame b) (h' : t.Frame b') (heq : b ++ r = b' ++ r') :
    b = b' ∧ r = r' :=
  Accepts.unambiguous ((t.get_accepts_iff .little t.fresh b).2 h) ((t.get_accepts_iff .little t.fresh b').2 h') heq

/-- Decoding succeeds where the stream begins with a frame. -/
theorem get_ok_iff (host : ByteOrder) (t : Ty) (w : t.Val) (q r : List Byte) :
    (∃ u, t.get host w (.of q) = .ok (u, .of r)) ↔ ∃ b, t.Frame b ∧ q = b ++ r := by
  rw [(t.get_local host w).ok_iff]
  simp only [get_accepts_iff]

/-- a frame has at least one byte -/
theorem Frame.ne_nil {t : Ty} {b : List Byte} (h : t.Frame b) : b ≠ [] := by
  induction t generalizing b with
  | scalar s =>
    rintro rfl
    cases s <;> cases h
  | array | string | seq | set | multiset | map | multimap =>
    obtain ⟨p, c, rfl, hp, -⟩ := h
    intro hnil
    rw [List.append_eq_nil_iff] at hnil
    rw [hnil.1] at hp
    cases hp
  | pair a b iha ihb =>
    obtain ⟨x, y, rfl, hx, -⟩ := h
    intro hnil
    exact iha hx (List.append_eq_nil_iff.1 hnil).1

end Ty

/-! ## What is written as one frame -/

theorem length_putLen (host : ByteOrder) (n : ℕ) : (putLen host n).length = 4 := Scalar.length_put host .unsignedInt _

theorem lenOf_putLen (host : ByteOrder) (n : ℕ) : lenOf (putLen host n) = n % 2 ^ 32 :=
  (getLen_yields_lenOf host (length_putLen host n)).unique (getLen_yields host host n)

/-- the elements of a list, one after the other -/
theorem items_flatMap {α : Type} {F : List Byte → Prop} {put : α → List Byte} {v : List α} (h : ∀ x ∈ v, F (put x)) :
    Items F v.length (v.flatMap put) := by
  refine ⟨v.map put, List.length_map put, ?_, ?_⟩
  · intro b hb
    obtain ⟨x, hx, rfl⟩ := List.mem_map.1 hb
    exact h x hx
  · rw [List.flatMap_def]

theorem items_ofFn {α : Type} {F : List Byte → Prop} {put : α → List Byte} {n : ℕ} {v : Fin n → α} (h : ∀ i, F (put (v i))) :
    Items F n ((List.ofFn v).flatMap put) := by
  have hall : ∀ x ∈ List.ofFn v, F (put x) := by
    intro x hx
    obtain ⟨i, rfl⟩ := List.mem_ofFn.1 hx
    exact h i
  have hitems := items_flatMap hall
  rwa [List.length_ofFn] at hitems

/-- a length prefix, and as many elements as it says -/
theorem prefixed_take {α : Type} {F : List Byte → Prop} {put : α → List Byte} {v : List α} (h : ∀ x ∈ v, F (put x))
    (host : ByteOrder) : Prefixed (fun len => Items F len)
      (putLen host v.length ++ (v.take (v.length % 2 ^ 32)).flatMap put) := by
  refine ⟨_, _, rfl, length_putLen host _, ?_⟩
  have hlen : (v.take (v.length % 2 ^ 32)).length = v.length % 2 ^ 32 :=
    List.length_take_of_le (Nat.mod_le _ _)
  have hitems := items_flatMap (v := v.take (v.length % 2 ^ 32)) fun x hx => h x (List.mem_of_mem_take hx)
  rw [hlen] at hitems
  beta_reduce
  rwa [lenOf_putLen]

theorem prefixed_all {α : Type} {F : List Byte → Prop} {put : α → List Byte} {v : List α} (hlen : v.length < 2 ^ 32)
    (h : ∀ x ∈ v, F (put x)) (host : ByteOrder) :
    Prefixed (fun len => Items F len) (putLen host v.length ++ v.flatMap put) := by
  have htake := prefixed_take h host
  rwa [Nat.mod_eq_of_lt hlen, List.take_length] at htake

namespace Ty

/-- every container, at every depth, has fewer than 2^32 elements; a string may have any length -/
def Framed : (t : Ty) → t.Val → Prop
  | scalar _ => fun _ => True
  | array n t => fun v : Fin n → t.Val => ∀ i, t.Framed (v i)
  | string => fun _ => True
  | seq _ t | set t | multiset t => fun v : List t.Val => v.length < 2 ^ 32 ∧ ∀ x ∈ v, t.Framed x
  | map k t | multimap k t => fun v : List (k.Val × t.Val) => v.length < 2 ^ 32 ∧ ∀ p ∈ v, k.Framed p.1 ∧ t.Framed p.2
  | pair a b => fun v : a.Val × b.Val => a.Framed v.1 ∧ b.Framed v.2

/-- the same of the elements of the object only -/
def ElementsFramed : (t : Ty) → t.Val → Prop
  | scalar _ => fun _ => True
  | array n t => fun v : Fin n → t.Val => ∀ i, t.Framed (v i)
  | string => fun _ => True
  | seq _ t | set t | multiset t => fun v : List t.Val => ∀ x ∈ v, t.Framed x
  | map k t | multimap k t => fun v : List (k.Val × t.Val) => ∀ p ∈ v, k.Framed p.1 ∧ t.Framed p.2
  | pair a b => fun v : a.Val × b.Val => a.Framed v.1 ∧ b.Framed v.2

/-- An object whose containers fit their length prefixes is written as one frame. -/
theorem put_frame (host : ByteOrder) (t : Ty) {v : t.Val} (hv : t.Framed v) : t.Frame (t.put host v) := by
  induction t with
  | scalar s => exact s.length_put host v
  | array n t ih => exact ⟨_, _, rfl, length_putLen host n, items_ofFn fun i => ih (hv i)⟩
  | string =>
    refine ⟨_, _, rfl, length_putLen host _, ?_⟩
    rw [lenOf_putLen]
    exact List.length_take_of_le (Nat.mod_le _ _)
  | seq _ t ih | set t ih | multiset t ih => exact prefixed_all hv.1 (fun x hx => ih (hv.2 x hx)) host
  | map k t ihk iht | multimap k t ihk iht =>
    exact prefixed_all hv.1 (fun p hp => ⟨_, _, rfl, ihk (hv.2 p hp).1, iht (hv.2 p hp).2⟩) host
  | pair a b iha ihb => exact ⟨_, _, rfl, iha hv.1, ihb hv.2⟩

/-- a frame and more bytes after it: how a container with 2^32 elements or more is written -/
def Overrun (t : Ty) (b : List Byte) : Prop := ∃ c r, t.Frame c ∧ r ≠ [] ∧ b = c ++ r

/-- the elements that the truncated length does not count are left behind -/
theorem prefixed_overrun {α : Type} {F : List Byte → Prop} {put : α → List Byte} {v : List α} (hF : ∀ b, F b → b ≠ [])
    (h : ∀ x ∈ v, F (put x)) (hlen : ¬ v.length < 2 ^ 32) (host : ByteOrder) :
    ∃ c r, Prefixed (fun len => Items F len) c ∧ r ≠ [] ∧ putLen host v.length ++ v.flatMap put = c ++ r := by
  refine ⟨_, (v.drop (v.length % 2 ^ 32)).flatMap put, prefixed_take h host, ?_, ?_⟩
  · intro hnil
    have hdrop : 0 < (v.drop (v.length % 2 ^ 32)).length := by
      rw [List.length_drop]
      have := Nat.mod_lt v.length (Nat.two_pow_pos 32)
      omega
    obtain ⟨x, hx⟩ := List.exists_mem_of_length_pos hdrop
    exact hF _ (h x (List.mem_of_mem_drop hx)) (List.flatMap_eq_nil_iff.1 hnil x hx)
  · rw [List.append_assoc, ← List.flatMap_append, List.take_append_drop]

theorem put_overrun (host : ByteOrder) (t : Ty) {v : t.Val} (hv : t.ElementsFramed v) (hlong : ¬ t.Framed v) :
    t.Overrun (t.put host v) := by
  cases t with
  | scalar | string => exact absurd trivial hlong
  | array n t => exact absurd hv hlong
  | seq _ t | set t | multiset t =>
    refine prefixed_overrun (F := t.Frame) (fun b hb => hb.ne_nil) (fun x hx => t.put_frame host (hv x hx)) ?_ host
    intro hlen
    exact hlong ⟨hlen, hv⟩
  | map k t | multimap k t =>
    refine prefixed_overrun (F := Then k.Frame t.Frame) ?_ ?_ ?_ host
    · intro b hb
      exact Frame.ne_nil (t := .pair k t) hb
    · intro p hp
      exact ⟨_, _, rfl, k.put_frame host (hv p hp).1, t.put_frame host (hv p hp).2⟩
    · intro hlen
      exact hlong ⟨hlen, hv⟩
  | pair a b => exact absurd hv hlong

end Ty

/-- **Framing.** For every type, value, target, rest and hosts of either byte order. A value whose containers, at every
depth, have fewer than 2^32 elements is decoded and leaves exactly the rest; the strings in it may have any size. A
container of framed elements that has 2^32 or more of them itself is decoded too, and leaves something else. -/
theorem framing (writer reader : ByteOrder) (t : Ty) (v w : t.Val) (rest : List Byte) :
    (t.Framed v → ∃ u, t.get reader w (.of (t.put writer v ++ rest)) = .ok (u, .of rest)) ∧
    (t.ElementsFramed v → (∀ u s, t.get reader w (.of (t.put writer v ++ rest)) = .ok (u, s) → s = .of rest) →
      t.Framed v) := by
  refine ⟨?_, ?_⟩
  · intro hv
    exact (t.get_ok_iff reader w _ rest).2 ⟨_, t.put_frame writer hv, rfl⟩
  · intro hv hleaves
    by_contra hlong
    obtain ⟨c, r, hc, hr, hput⟩ := t.put_overrun writer hv hlong
    obtain ⟨u, hu⟩ := (t.get_ok_iff reader w (t.put writer v ++ rest) (r ++ rest)).2 ⟨c, hc, by rw [hput, List.append_assoc]⟩
    have hqueue : r ++ rest = rest := congrArg Stream.queue (hleaves u _ hu)
    exact hr (List.append_left_eq_self.1 hqueue)

/-- a `vector<char>` of 2^32 characters, with nothing after it: decoding returns, and leaves characters unread -/
theorem framing_lost :
    ∃ (u : Ty.Val (.seq .vector (.scalar .char))) (r : List Byte), r ≠ [] ∧
      Ty.get .little (.seq .vector (.scalar .char)) ([] : List (BitVec 8))
        (.of (Ty.put .little (.seq .vector (.scalar .char)) (List.replicate (2 ^ 32) (7 : BitVec 8)) ++ [])) = .ok (u, .of r) := by
  have hlen : (List.replicate (2 ^ 32) (7 : BitVec 8)).length = 2 ^ 32 := List.length_replicate
  obtain ⟨c, r, hc, hr, hput⟩ := Ty.put_overrun .little (.seq .vector (.scalar .char))
    (v := List.replicate (2 ^ 32) (7 : BitVec 8)) (fun _ _ => trivial) (fun hv => absurd hv.1 (Nat.not_lt.2 (Nat.le_of_eq hlen.symm)))
  obtain ⟨u, hu⟩ := (Ty.get_ok_iff .little (.seq .vector (.scalar .char)) ([] : List (BitVec 8)) _ r).2 ⟨c, hc, hput⟩
  exact ⟨u, r, hr, (congrArg _ (congrArg Stream.of (List.append_nil _))).trans hu⟩

/-! ## What is decoded into an empty target is framed -/

theorem getLen_returns (host : ByteOrder) : Returns (getLen host) fun n => n < 2 ^ 32 := by
  have hany : Returns (Scalar.get host .unsignedInt) fun _ => True := fun _ _ _ _ => trivial
  exact hany.bind fun len _ => returns_pure (BitVec.isLt len)

theorem getPair_returns {α β : Type} {get₁ : Decoder Byte String α} {get₂ : Decoder Byte String β} {P : α → Prop}
    {Q : β → Prop} (h₁ : Returns get₁ P) (h₂ : Returns get₂ Q) : Returns (getPair get₁ get₂) fun p => P p.1 ∧ Q p.2 :=
  h₁.bind fun _ hx => h₂.bind fun _ hy => returns_pure ⟨hx, hy⟩

theorem getArray_returns {α : Type} {get : α → Decoder Byte String α} {Q : α → Prop} {n : ℕ} {w : Fin n → α}
    (h : ∀ i, Returns (get (w i)) Q) : Returns (getArray get w) fun v => ∀ i, Q (v i) := by
  induction n with
  | zero => exact returns_pure fun i => i.elim0
  | succ n ih =>
    refine (h 0).bind fun x hx => (ih fun i => h i.succ).bind fun xs hxs => returns_pure ?_
    intro i
    refine Fin.cases ?_ ?_ i
    · exact hx
    · exact hxs

/-- a length prefix and a counted loop into an empty container -/
theorem container_returns (host : ByteOrder) {α : Type} {d : Decoder Byte String α} {add : List α → α → List α}
    {Q : α → Prop} (hd : Returns d Q) (hadd : Adds add) :
    Returns (getLen host >>= fun len => fill d add len []) fun v => v.length < 2 ^ 32 ∧ ∀ x ∈ v, Q x := by
  refine (getLen_returns host).bind ?_
  intro n hn s v t hrun
  obtain ⟨as, rfl, hall, rfl⟩ := hd.fill n [] s v t hrun
  obtain ⟨hlen, hmem⟩ := hadd.foldl as []
  refine ⟨?_, ?_⟩
  · rw [List.length_nil] at hlen
    omega
  · intro x hx
    rcases hmem x hx with hx | hx
    · cases hx
    · exact hall x hx

theorem pushBack_adds {α : Type} : Adds (pushBack (α := α)) :=
  adds_of_perm fun l x => Or.inr (List.perm_append_singleton x l)

namespace Ty

theorem get_returns_framed (host : ByteOrder) (t : Ty) {w : t.Val} (hw : t.Empty w) : Returns (t.get host w) t.Framed := by
  induction t with
  | scalar | string => exact fun _ _ _ _ => trivial
  | array n t ih =>
    exact (getLen_returns host).bind fun _ _ => getArray_returns fun i => ih (hw i)
  | seq _ t ih =>
    cases hw
    exact container_returns host (ih t.fresh_empty) pushBack_adds
  | set t ih =>
    cases hw
    exact container_returns host (ih t.fresh_empty) insertUniqueEnd_adds
  | multiset t ih =>
    cases hw
    exact container_returns host (ih t.fresh_empty) insertEqualEnd_adds
  | map k t ihk iht =>
    cases hw
    exact container_returns host (getPair_returns (ihk k.fresh_empty) (iht t.fresh_empty)) insertUniqueEnd_adds
  | multimap k t ihk iht =>
    cases hw
    exact container_returns host (getPair_returns (ihk k.fresh_empty) (iht t.fresh_empty)) insertEqualEnd_adds
  | pair a b iha ihb => exact getPair_returns (iha hw.1) (ihb hw.2)

end Ty

/-! ## Arrays of different lengths -/

/-- the bytes begin with `n` blocks with `F` -/
def Starts (F : List Byte → Prop) (n : ℕ) (q : List Byte) : Prop := ∃ b r, Items F n b ∧ q = b ++ r

/-- no block with `F` is the beginning of another -/
def Unambiguous (F : List Byte → Prop) : Prop := ∀ {b b' r r'}, F b → F b' → b ++ r = b' ++ r' → b = b' ∧ r = r'

theorem starts_zero {F : List Byte → Prop} {q : List Byte} : Starts F 0 q := ⟨[], q, items_zero.2 rfl, rfl⟩

theorem starts_succ {F : List Byte → Prop} (hF : Unambiguous F) {n : ℕ} {b q : List Byte} (hb : F b) :
    Starts F (n + 1) (b ++ q) ↔ Starts F n q := by
  constructor
  · intro h
    obtain ⟨_, r, hitems, heq⟩ := h
    obtain ⟨x, y, rfl, hx, hrest⟩ := items_succ.1 hitems
    rw [List.append_assoc] at heq
    obtain ⟨-, rfl⟩ := hF hb hx heq
    exact ⟨y, r, hrest, rfl⟩
  · intro h
    obtain ⟨y, r, hrest, rfl⟩ := h
    exact ⟨b ++ y, r, items_succ.2 ⟨b, y, rfl, hb, hrest⟩, (List.append_assoc b y r).symm⟩

/-- the elements that were written count, then what follows them -/
theorem starts_flatMap {α : Type} {F : List Byte → Prop} (hF : Unambiguous F) {put : α → List Byte} {v : List α}
    (hv : ∀ x ∈ v, F (put x)) (n : ℕ) (q : List Byte) :
    Starts F n (v.flatMap put ++ q) ↔ Starts F (n - v.length) q := by
  induction v generalizing n with
  | nil => rfl
  | cons x v ih =>
    cases n with
    | zero =>
      rw [Nat.zero_sub]
      exact iff_of_true starts_zero starts_zero
    | succ n =>
      rw [List.flatMap_cons, List.append_assoc, starts_succ hF (hv x List.mem_cons_self),
        ih fun y hy => hv y (List.mem_cons_of_mem x hy), List.length_cons, Nat.add_sub_add_right]

/-- each element of an array that arrived was decoded from its own bytes -/
theorem getArray_arrives {α : Type} {get : α → Decoder Byte String α} (hget : ∀ w, Local (get w)) {F : List Byte → Prop}
    (hacc : ∀ w b, Accepts (get w) b ↔ F b) (hF : Unambiguous F) {put : α → List Byte} {n : ℕ} {w v : Fin n → α}
    (hv : ∀ i, F (put (v i))) {q : List Byte} {s : Stream Byte}
    (h : getArray get w (.of ((List.ofFn v).flatMap put ++ q)) = .ok (v, s)) (i : Fin n) :
    Yields (get (w i)) (put (v i)) (v i) := by
  induction n with
  | zero => exact i.elim0
  | succ n ih =>
    obtain ⟨x, t, h1, h⟩ := bind_eq_ok h
    obtain ⟨xs, t', h2, h⟩ := bind_eq_ok h
    obtain ⟨hv', rfl⟩ := pure_eq_ok h
    obtain ⟨b, r, hb, rfl, hy⟩ := hget (w 0) _ x t h1
    rw [List.ofFn_succ, List.flatMap_cons, List.append_assoc] at hb
    obtain ⟨rfl, rfl⟩ := hF (hv 0) ((hacc (w 0) b).1 ⟨x, hy⟩) hb
    subst hv'
    refine Fin.cases ?_ ?_ i
    · exact hy
    · exact ih (fun j => hv j.succ) h2

section Array

variable (writer reader : ByteOrder) (t : Ty) {M N : ℕ} (a : Fin M → t.Val) (w : Fin N → t.Val) (suffix : List Byte)

/-- the array and what follows it, decoded into a target of type `T[N]` -/
def decodeArray : Except String ((Ty.array N t).Val × Stream Byte) :=
  (Ty.array N t).get reader w (.of ((Ty.array M t).put writer a ++ suffix))

/-- an array of the target's length arrives and leaves the suffix; any other is refused -/
def ArrayFramed : Prop :=
  (∀ h : N = M, decodeArray writer reader t a w suffix = .ok (fun i => a (i.cast h), .of suffix)) ∧
  (N ≠ M → decodeArray writer reader t a w suffix = .error "malformed data")

/-- the lengths agree and each element, sent alone, arrives; or the lengths differ and there are not enough frames for
the target behind the length prefix -/
def ArraySafe : Prop :=
  (∀ h : N = M, ∀ i, t.get reader (w i) (.of (t.put writer (a (i.cast h)))) = .ok (a (i.cast h), .of [])) ∧
  (N ≠ M → ¬ Starts t.Frame N ((List.ofFn a).flatMap (t.put writer) ++ suffix))

variable {writer reader t a w suffix}

/-- the length prefix says nothing: the target alone decides how many elements are taken -/
theorem decodeArray_ok_iff : (∃ u r, decodeArray writer reader t a w suffix = .ok (u, .of r)) ↔
    Starts t.Frame N ((List.ofFn a).flatMap (t.put writer) ++ suffix) := by
  have hput : (Ty.array M t).put writer a ++ suffix =
      putLen writer M ++ ((List.ofFn a).flatMap (t.put writer) ++ suffix) := List.append_assoc _ _ _
  constructor
  · intro h
    obtain ⟨u, r, h⟩ := h
    obtain ⟨b, ⟨p, c, rfl, hp, hc⟩, hb⟩ := ((Ty.array N t).get_ok_iff reader w _ r).1 ⟨u, h⟩
    rw [hput, List.append_assoc] at hb
    obtain ⟨-, hb⟩ := List.append_inj hb ((length_putLen writer M).trans hp.symm)
    exact ⟨c, r, hc, hb⟩
  · intro h
    obtain ⟨c, r, hc, hb⟩ := h
    have hq : (Ty.array M t).put writer a ++ suffix = putLen writer M ++ c ++ r := by rw [hput, hb, List.append_assoc]
    obtain ⟨u, hu⟩ := ((Ty.array N t).get_ok_iff reader w _ r).2 ⟨_, ⟨_, c, rfl, length_putLen writer M, hc⟩, hq⟩
    exact ⟨u, r, hu⟩

theorem decodeArray_error_iff : decodeArray writer reader t a w suffix = .error "malformed data" ↔
    ¬ Starts t.Frame N ((List.ofFn a).flatMap (t.put writer) ++ suffix) := by
  have hok : (∃ u r, decodeArray writer reader t a w suffix = .ok (u, .of r)) ↔ _ := decodeArray_ok_iff
  rw [← hok]
  cases hrun : decodeArray writer reader t a w suffix with
  | error e =>
    have he : e = "malformed data" := (Ty.array N t).get_throws reader w _ e hrun
    simp [he]
  | ok p =>
    obtain ⟨u, s⟩ := p
    obtain ⟨b, r, -, rfl, -⟩ := (Ty.array N t).get_local reader w _ u s hrun
    simp

theorem arrayFramed_of_safe (h : ArraySafe writer reader t a w suffix) : ArrayFramed writer reader t a w suffix := by
  refine ⟨?_, ?_⟩
  · rintro rfl
    have helem : ∀ i, Yields (t.get reader (w i)) (t.put writer (a i)) (a i) := by
      intro i
      exact (t.get_local reader (w i)).yields_of_ok (h.1 rfl i)
    exact ((getLen_yields writer reader N).bind (getArray_yields helem)) suffix
  · intro hne
    exact decodeArray_error_iff.2 (h.2 hne)

/-- with elements that fit their length prefixes, an array that arrived has done so element by element -/
theorem safe_of_arrayFramed (ha : ∀ i, t.Framed (a i)) (h : ArrayFramed writer reader t a w suffix) :
    ArraySafe writer reader t a w suffix := by
  refine ⟨?_, ?_⟩
  · rintro rfl i
    obtain ⟨n, s, h1, h2⟩ := bind_eq_ok (h.1 rfl)
    have hlen : getLen reader (.of ((Ty.array N t).put writer a ++ suffix)) =
        .ok (N % 2 ^ 32, .of ((List.ofFn a).flatMap (t.put writer) ++ suffix)) :=
      (congrArg _ (congrArg Stream.of (List.append_assoc _ _ _))).trans (getLen_yields writer reader N _)
    have hs : s = .of ((List.ofFn a).flatMap (t.put writer) ++ suffix) := by
      rw [hlen] at h1
      injection h1 with h1
      injection h1 with _ hs
      exact hs.symm
    rw [hs] at h2
    have hyield := getArray_arrives (t.get_local reader) (t.get_accepts_iff reader) Ty.frame_unambiguous
      (fun i => t.put_frame writer (ha i)) h2 i
    have hrun := hyield []
    rwa [List.append_nil] at hrun
  · intro hne
    exact decodeArray_error_iff.1 (h.2 hne)

/-- into an empty target nothing but framed elements arrive -/
theorem framed_of_arrayFramed (hw : (Ty.array N t).Empty w) (hNM : N = M) (h : ArrayFramed writer reader t a w suffix) :
    ∀ i, t.Framed (a i) := by
  subst hNM
  exact (Ty.array N t).get_returns_framed reader hw _ _ _ (h.1 rfl)

end Array

/-- **Arrays.** For every element type, arrays of any two lengths, every target, suffix and hosts of either byte order. An
array that is safe is framed: it arrives if the target has its length and is refused if not. Into an empty target, or with
elements whose containers have fewer than 2^32 elements, no other is. With such elements the frames that a target of
another length finds are the elements themselves, and then those of the suffix. -/
theorem array_framing (writer reader : ByteOrder) (t : Ty) {M N : ℕ} (a : Fin M → t.Val) (w : Fin N → t.Val)
    (suffix : List Byte) :
    (ArraySafe writer reader t a w suffix → ArrayFramed writer reader t a w suffix) ∧
    ((Ty.array N t).Empty w ∨ (∀ i, t.Framed (a i)) → ArrayFramed writer reader t a w suffix →
      ArraySafe writer reader t a w suffix) ∧
    ((∀ i, t.Framed (a i)) → (Starts t.Frame N ((List.ofFn a).flatMap (t.put writer) ++ suffix) ↔
      Starts t.Frame (N - M) suffix)) := by
  refine ⟨arrayFramed_of_safe, ?_, ?_⟩
  · intro hw h
    refine ⟨?_, fun hne => decodeArray_error_iff.1 (h.2 hne)⟩
    intro hNM
    rcases hw with hw | ha
    · exact (safe_of_arrayFramed (framed_of_arrayFramed hw hNM h) h).1 hNM
    · exact (safe_of_arrayFramed ha h).1 hNM
  · intro ha
    have hframes : ∀ x ∈ List.ofFn a, t.Frame (t.put writer x) := by
      intro x hx
      obtain ⟨i, rfl⟩ := List.mem_ofFn.1 hx
      exact t.put_frame writer (ha i)
    rw [starts_flatMap Ty.frame_unambiguous hframes, List.length_ofFn]

/-- an `int[1]` and an `int` after it, read into an `int[2]`: the next field is taken for the second element -/
theorem array_swallows :
    (∃ u : Fin 2 → BitVec 32, u 0 = 5 ∧ u 1 = 6 ∧ decodeArray .little .little (.scalar .int) (fun _ : Fin 1 => (5 : BitVec 32))
      (fun _ : Fin 2 => (0 : BitVec 32)) [0, 0, 0, 6] = .ok (u, .of [])) ∧
    ¬ ArrayFramed .little .little (.scalar .int) (fun _ : Fin 1 => (5 : BitVec 32)) (fun _ : Fin 2 => (0 : BitVec 32))
      [0, 0, 0, 6] := by
  refine ⟨⟨_, rfl, rfl, rfl⟩, ?_⟩
  intro h
  cases h.2 (by decide)

end TinyRpc.Protocol
