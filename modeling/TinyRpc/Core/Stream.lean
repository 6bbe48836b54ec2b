/-
Decoders over a FIFO stream of tokens, and the rules by which a round trip is put together.

A stream is a queue of tokens with a fail state: a read takes tokens from the front, a write appends at the back, and a
read that finds too few tokens drains the queue and sets the fail state, after which nothing is read or written any
more. A decoder consumes tokens from the front of a stream and may refuse.

`Yields d b a` says that, whatever follows, the decoder `d` turns the tokens `b` at the front of the stream into `a` and
leaves exactly what followed. The rules below compose it: `Yields.bind` for sequencing, `yields_readExact` for a read of
known length, `yields_fill` for a counted loop that folds decoded items into an accumulator, and `Yields.replicate` for
a list of messages decoded one after the other. `Yields.unique` makes it a specification: a decoder yields at most one
value on given tokens.

Three properties speak about streams nobody encoded. `Local d`: where `d` succeeds it has taken a block of tokens off
the front, and it would have made the same of that block whatever followed it; so a proper prefix of what a local
decoder yields on is refused (`Local.refuses`). `Throws e d`: `e` is the only error of `d`. `Canonical d put`: what `d`
takes off the front is `put` of what it returns.
-/
import Mathlib.Tactic

namespace TinyRpc.Core

variable {β ε α γ : Type}

/-- a FIFO stream of tokens; `fail` is the state a short read leaves behind -/
structure Stream (β : Type) where
  queue : List β
  fail : Bool
deriving DecidableEq, Repr

namespace Stream

def empty : Stream β := ⟨[], false⟩

/-- a stream in good state that holds `q` -/
def of (q : List β) : Stream β := ⟨q, false⟩

def write (s : Stream β) (b : List β) : Stream β :=
  if s.fail then s else { s with queue := s.queue ++ b }

/-- the tokens read (fewer than `n` on a short read) and the stream afterwards -/
def read (s : Stream β) (n : ℕ) : List β × Stream β :=
  if s.fail then ([], s)
  else if n ≤ s.queue.length then (s.queue.take n, { s with queue := s.queue.drop n })
  else (s.queue, ⟨[], true⟩)

@[simp] theorem write_of (q b : List β) : (of q).write b = of (q ++ b) := by
  simp [write, of]

theorem read_of_append (b q : List β) : (of (b ++ q)).read b.length = (b, of q) := by
  simp [read, of]

end Stream

/-! ## Decoders -/

/-- a decoder: it consumes tokens of the stream and returns a value, or throws -/
abbrev Decoder (β ε α : Type) := StateT (Stream β) (Except ε) α

/-- read exactly `n` tokens, or throw `e` when the read leaves the stream in the fail state -/
def readExact (e : ε) (n : ℕ) : Decoder β ε (List β) := fun s =>
  if (s.read n).2.fail then .error e else .ok (s.read n)

/-- append tokens to the stream -/
def emit (b : List β) : Decoder β ε Unit := fun s => .ok ((), s.write b)

/-- a counted loop: decode `n` items one after the other and add each to the accumulator -/
def fill (d : Decoder β ε α) (add : γ → α → γ) : ℕ → γ → Decoder β ε γ
  | 0, acc => pure acc
  | n + 1, acc => do
    let a ← d
    fill d add n (add acc a)

/-- decode `n` items one after the other -/
def replicate (d : Decoder β ε α) : ℕ → Decoder β ε (List α)
  | 0 => pure []
  | n + 1 => do
    let a ← d
    let as ← replicate d n
    pure (a :: as)

/-- sequencing after a step that succeeded -/
theorem bind_ok {d : Decoder β ε α} {f : α → Decoder β ε γ} {s s' : Stream β} {a : α} (h : d s = .ok (a, s')) :
    (d >>= f) s = f a s' := by
  show (d s).bind (fun p => f p.1 p.2) = _
  rw [h]
  rfl

/-! ## What a decoder yields -/

/-- whatever follows, `d` turns the tokens `b` into `a` and leaves what followed -/
def Yields (d : Decoder β ε α) (b : List β) (a : α) : Prop :=
  ∀ q, d (.of (b ++ q)) = .ok (a, .of q)

theorem yields_pure (a : α) : Yields (pure a : Decoder β ε α) [] a := fun _ => rfl

theorem Yields.bind {d : Decoder β ε α} {f : α → Decoder β ε γ} {b b' : List β} {a : α} {c : γ}
    (hd : Yields d b a) (hf : Yields (f a) b' c) : Yields (d >>= f) (b ++ b') c := by
  intro q
  rw [List.append_assoc, bind_ok (hd (b' ++ q))]
  exact hf q

/-- the last step of a block that only returns what was decoded -/
theorem Yields.map {d : Decoder β ε α} {f : α → γ} {b : List β} {a : α} (hd : Yields d b a) :
    Yields (d >>= fun x => pure (f x)) b (f a) := by
  have h := hd.bind (f := fun x => pure (f x)) (yields_pure (f a))
  rwa [List.append_nil] at h

/-- A decoder yields at most one value on given tokens. -/
theorem Yields.unique {d : Decoder β ε α} {b : List β} {a a' : α} (h : Yields d b a) (h' : Yields d b a') : a = a' := by
  have e := (h []).symm.trans (h' [])
  injection e with e
  exact congrArg Prod.fst e

theorem Yields.eq_iff {d : Decoder β ε α} {b : List β} {a a' : α} (h : Yields d b a) (q : List β) :
    d (.of (b ++ q)) = .ok (a', .of q) ↔ a = a' := by
  rw [h q]
  simp

theorem yields_readExact (e : ε) (b : List β) : Yields (readExact e b.length) b b := by
  intro q
  simp only [readExact, Stream.read_of_append]
  rfl

/-- A counted loop over the encodings of `as` adds exactly `as`, in order. -/
theorem yields_fill {d : Decoder β ε α} {add : γ → α → γ} {put : α → List β} {as : List α}
    (h : ∀ a ∈ as, Yields d (put a) a) (acc : γ) :
    Yields (fill d add as.length acc) (as.flatMap put) (as.foldl add acc) := by
  induction as generalizing acc with
  | nil => exact yields_pure acc
  | cons a as ih =>
    have ha := h a List.mem_cons_self
    have has := ih (fun x hx => h x (List.mem_cons_of_mem a hx)) (add acc a)
    exact ha.bind has

/-- Messages decoded one after the other come back in order. -/
theorem Yields.replicate {d : Decoder β ε α} {put : α → List β} {as : List α} (h : ∀ a ∈ as, Yields d (put a) a) :
    Yields (replicate d as.length) (as.flatMap put) as := by
  induction as with
  | nil => exact yields_pure []
  | cons a as ih =>
    have ha := h a List.mem_cons_self
    have has := ih fun x hx => h x (List.mem_cons_of_mem a hx)
    exact ha.bind has.map

/-! ## Streams nobody encoded -/

theorem pure_eq_ok {a a' : α} {s s' : Stream β} (h : (pure a : Decoder β ε α) s = .ok (a', s')) : a = a' ∧ s = s' := by
  injection h with h
  injection h with h1 h2
  exact ⟨h1, h2⟩

/-- sequencing succeeds when both steps do -/
theorem bind_eq_ok {d : Decoder β ε α} {f : α → Decoder β ε γ} {s s' : Stream β} {c : γ} (h : (d >>= f) s = .ok (c, s')) :
    ∃ a t, d s = .ok (a, t) ∧ f a t = .ok (c, s') := by
  change (d s).bind (fun p => f p.1 p.2) = _ at h
  cases hd : d s with
  | error e =>
    rw [hd] at h
    exact absurd h (by simp [Except.bind])
  | ok p =>
    rw [hd] at h
    exact ⟨p.1, p.2, rfl, h⟩

theorem bind_eq_error {d : Decoder β ε α} {f : α → Decoder β ε γ} {s : Stream β} {e : ε} (h : (d >>= f) s = .error e) :
    d s = .error e ∨ ∃ a t, d s = .ok (a, t) ∧ f a t = .error e := by
  change (d s).bind (fun p => f p.1 p.2) = _ at h
  cases hd : d s with
  | error e' =>
    rw [hd] at h
    injection h with h
    rw [h]
    exact Or.inl rfl
  | ok p =>
    rw [hd] at h
    exact Or.inr ⟨p.1, p.2, rfl, h⟩

theorem readExact_eq_ok {e : ε} {n : ℕ} {q b : List β} {s : Stream β} (h : readExact e n (.of q) = .ok (b, s)) :
    b.length = n ∧ ∃ r, q = b ++ r ∧ s = .of r := by
  by_cases hn : n ≤ q.length
  · have hread : (Stream.of q).read n = (q.take n, .of (q.drop n)) := by simp [Stream.read, Stream.of, hn]
    simp only [readExact, hread] at h
    obtain ⟨rfl, rfl⟩ : q.take n = b ∧ Stream.of (q.drop n) = s := by simpa [Stream.of] using h
    exact ⟨List.length_take_of_le hn, q.drop n, (List.take_append_drop n q).symm, rfl⟩
  · have hread : (Stream.of q).read n = (q, ⟨[], true⟩) := by simp [Stream.read, Stream.of, hn]
    simp [readExact, hread] at h

/-- where `d` succeeds it has taken a block off the front, and it makes the same of that block whatever follows -/
def Local (d : Decoder β ε α) : Prop :=
  ∀ q a s, d (.of q) = .ok (a, s) → ∃ b r, q = b ++ r ∧ s = .of r ∧ Yields d b a

theorem local_pure (a : α) : Local (pure a : Decoder β ε α) := by
  intro q a' s h
  obtain ⟨rfl, rfl⟩ := pure_eq_ok h
  exact ⟨[], q, rfl, rfl, yields_pure a⟩

theorem Local.bind {d : Decoder β ε α} {f : α → Decoder β ε γ} (hd : Local d) (hf : ∀ a, Local (f a)) :
    Local (d >>= f) := by
  intro q c s h
  obtain ⟨a, t, h1, h2⟩ := bind_eq_ok h
  obtain ⟨b, r, rfl, rfl, y1⟩ := hd q a t h1
  obtain ⟨b', r', rfl, rfl, y2⟩ := hf a r c s h2
  exact ⟨b ++ b', r', (List.append_assoc _ _ _).symm, rfl, y1.bind y2⟩

theorem local_readExact (e : ε) (n : ℕ) : Local (readExact e n : Decoder β ε (List β)) := by
  intro q b s h
  obtain ⟨rfl, r, rfl, rfl⟩ := readExact_eq_ok h
  exact ⟨b, r, rfl, rfl, yields_readExact e b⟩

theorem local_fill {d : Decoder β ε α} {add : γ → α → γ} (hd : Local d) (n : ℕ) (acc : γ) : Local (fill d add n acc) := by
  induction n generalizing acc with
  | zero => exact local_pure acc
  | succ n ih => exact hd.bind fun a => ih (add acc a)

/-- A local decoder refuses every proper prefix of what it yields on. -/
theorem Local.refuses {d : Decoder β ε α} (hd : Local d) {b p : List β} {a : α} (hy : Yields d b a) (hp : p <+: b)
    (hne : p ≠ b) : ∃ e, d (.of p) = .error e := by
  cases h : d (.of p) with
  | error e => exact ⟨e, rfl⟩
  | ok x =>
    obtain ⟨w, s⟩ := x
    obtain ⟨b', r, rfl, -, hw⟩ := hd p w s h
    obtain ⟨t, rfl⟩ := hp
    have hall : d (.of (b' ++ (r ++ t))) = .ok (a, .of []) := by
      have hb := hy []
      rwa [List.append_nil, List.append_assoc] at hb
    rw [hw (r ++ t)] at hall
    have hempty : r ++ t = [] := by
      injection hall with hall
      exact congrArg (fun x : α × Stream β => x.2.queue) hall
    rw [(List.append_eq_nil_iff.1 hempty).2] at hne
    exact absurd (List.append_nil _).symm hne

/-- `e` is the only error of `d` -/
def Throws (e : ε) (d : Decoder β ε α) : Prop := ∀ s x, d s = .error x → x = e

theorem throws_pure (e : ε) (a : α) : Throws e (pure a : Decoder β ε α) := by
  intro s x h
  cases h

theorem Throws.bind {e : ε} {d : Decoder β ε α} {f : α → Decoder β ε γ} (hd : Throws e d) (hf : ∀ a, Throws e (f a)) :
    Throws e (d >>= f) := by
  intro s x h
  rcases bind_eq_error h with h | ⟨a, t, -, h⟩
  · exact hd s x h
  · exact hf a t x h

theorem throws_readExact (e : ε) (n : ℕ) : Throws e (readExact e n : Decoder β ε (List β)) := by
  intro s x h
  simp only [readExact] at h
  split_ifs at h
  injection h with h
  exact h.symm

theorem throws_fill {e : ε} {d : Decoder β ε α} {add : γ → α → γ} (hd : Throws e d) (n : ℕ) (acc : γ) :
    Throws e (fill d add n acc) := by
  induction n generalizing acc with
  | zero => exact throws_pure e acc
  | succ n ih => exact hd.bind fun a => ih (add acc a)

/-- what `d` takes off the front is `put` of what it returns -/
def Canonical (d : Decoder β ε α) (put : α → List β) : Prop :=
  ∀ q a s, d (.of q) = .ok (a, s) → ∃ r, q = put a ++ r ∧ s = .of r

/-- A counted loop of canonical items has decoded that many of them, and took exactly their encodings. -/
theorem Canonical.fill {d : Decoder β ε α} {add : γ → α → γ} {put : α → List β} (hd : Canonical d put) {n : ℕ} {acc v : γ}
    {q : List β} {s : Stream β} (h : fill d add n acc (.of q) = .ok (v, s)) :
    ∃ (as : List α) (r : List β), as.length = n ∧ v = as.foldl add acc ∧ q = as.flatMap put ++ r ∧ s = .of r := by
  induction n generalizing acc q with
  | zero =>
    obtain ⟨rfl, rfl⟩ := pure_eq_ok h
    exact ⟨[], q, rfl, rfl, rfl, rfl⟩
  | succ n ih =>
    obtain ⟨a, t, h1, h2⟩ := bind_eq_ok h
    obtain ⟨r, rfl, rfl⟩ := hd q a t h1
    obtain ⟨as, r', hlen, hv, rfl, rfl⟩ := ih h2
    refine ⟨a :: as, r', ?_, hv, ?_, rfl⟩
    · rw [List.length_cons, hlen]
    · rw [List.flatMap_cons, List.append_assoc]

end TinyRpc.Core
