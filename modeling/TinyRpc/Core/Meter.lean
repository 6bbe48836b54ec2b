/-
Decoders that keep count of the work they do.

A metered decoder is a decoder with a counter beside the stream. `tick` adds to the counter, and a throw does not take
back what was counted before it.

`Pays c d d₀` says that the metered decoder `d` is the decoder `d₀` with a counter, and that the work is paid for by the
tokens taken: where `d₀` succeeds, the tokens it took are at least the work plus `c`, where it throws the work is at most
the tokens there were. The `c` tokens to spare pay for work done afterwards: `Pays.spend`, the rule for a step of decoding
followed by `tick`. `Pays.bind` and `pays_readExact` are the others, and `Pays.fill` is the counted loop in which every
item costs one.
-/
import Mathlib.Tactic
import TinyRpc.Core.Stream

namespace TinyRpc.Core

variable {β ε α γ : Type}

/-- a decoder with a counter, which a throw leaves as it is -/
abbrev Metered (β ε α : Type) := StateT (Stream β) (ExceptT ε (StateM ℕ)) α

/-- a decoder that does no work to be counted -/
def unmetered (d : Decoder β ε α) : Metered β ε α := fun s n => (d s, n)

/-- `n` units of work -/
def tick (n : ℕ) : Metered β ε Unit := fun s m => (.ok ((), s), m + n)

/-- the counted loop of `fill`, where adding an item to the accumulator is one unit of work -/
def fillMetered (d : Metered β ε α) (add : γ → α → γ) : ℕ → γ → Metered β ε γ
  | 0, acc => pure acc
  | n + 1, acc => do
    let a ← d
    tick 1
    fillMetered d add n (add acc a)

/-- what is left of the stream and the tokens to spare, for the outcome of decoding `q` with `work` units of work -/
def Paid (c : ℕ) (q : List β) (work : ℕ) : Except ε (α × Stream β) → Prop
  | .ok p => ∃ r, p.2 = .of r ∧ r.length + work + c ≤ q.length
  | .error _ => work ≤ q.length

/-- `d` is `d₀` with a counter, and takes at least one token for each unit of work and `c` more -/
def Pays (c : ℕ) (d : Metered β ε α) (d₀ : Decoder β ε α) : Prop :=
  ∀ q n, ∃ work, d (.of q) n = (d₀ (.of q), n + work) ∧ Paid c q work (d₀ (.of q))

/-- sequencing looks at the outcome of the first step, and goes on with its counter -/
theorem metered_bind (d : Metered β ε α) (f : α → Metered β ε γ) (s : Stream β) (n : ℕ) :
    (d >>= f) s n = ExceptT.bindCont (fun p : α × Stream β => f p.1 p.2) (d s n).1 (d s n).2 := rfl

theorem metered_bind_ok {d : Metered β ε α} {f : α → Metered β ε γ} {s s' : Stream β} {n n' : ℕ} {a : α}
    (h : d s n = (.ok (a, s'), n')) : (d >>= f) s n = f a s' n' := by
  rw [metered_bind, h]
  rfl

theorem metered_bind_error {d : Metered β ε α} {f : α → Metered β ε γ} {s : Stream β} {n n' : ℕ} {e : ε}
    (h : d s n = (.error e, n')) : (d >>= f) s n = (.error e, n') := by
  rw [metered_bind, h]
  rfl

theorem bind_error {d : Decoder β ε α} {f : α → Decoder β ε γ} {s : Stream β} {e : ε} (h : d s = .error e) :
    (d >>= f) s = .error e := by
  show (d s).bind (fun p => f p.1 p.2) = _
  rw [h]
  rfl

theorem pays_pure (a : α) : Pays 0 (pure a : Metered β ε α) (pure a) := by
  intro q n
  exact ⟨0, rfl, q, rfl, le_rfl⟩

/-- A step of decoding, `k` units of work, and what follows. -/
theorem Pays.spend {c m k : ℕ} {d : Metered β ε α} {d₀ : Decoder β ε α} {f : α → Metered β ε γ}
    {f₀ : α → Decoder β ε γ} (hd : Pays (c + k) d d₀) (hf : ∀ a, Pays m (f a) (f₀ a)) :
    Pays (c + m) (do let a ← d; tick k; f a) (d₀ >>= f₀) := by
  intro q n
  obtain ⟨work, hrun, hpaid⟩ := hd q n
  cases h₀ : d₀ (.of q) with
  | error e =>
    rw [h₀] at hrun hpaid
    rw [metered_bind_error hrun, bind_error h₀]
    exact ⟨work, rfl, hpaid⟩
  | ok p =>
    obtain ⟨a, s⟩ := p
    rw [h₀] at hrun hpaid
    obtain ⟨r, rfl, hr⟩ := hpaid
    obtain ⟨work', hrun', hpaid'⟩ := hf a r (n + work + k)
    have htick : (do tick k; f a) (.of r) (n + work) = f a (.of r) (n + work + k) := metered_bind_ok rfl
    rw [metered_bind_ok hrun, bind_ok h₀, htick, hrun']
    refine ⟨work + k + work', by rw [add_assoc, add_assoc, add_assoc], ?_⟩
    cases h' : f₀ a (.of r) with
    | error e =>
      rw [h'] at hpaid'
      simp only [Paid] at hpaid' ⊢
      omega
    | ok p' =>
      rw [h'] at hpaid'
      obtain ⟨r', hs, hr'⟩ := hpaid'
      exact ⟨r', hs, by omega⟩

theorem Pays.bind {c m : ℕ} {d : Metered β ε α} {d₀ : Decoder β ε α} {f : α → Metered β ε γ} {f₀ : α → Decoder β ε γ}
    (hd : Pays c d d₀) (hf : ∀ a, Pays m (f a) (f₀ a)) : Pays (c + m) (d >>= f) (d₀ >>= f₀) :=
  Pays.spend (k := 0) hd hf

/-- tokens to spare need not be used -/
theorem Pays.weaken {c m : ℕ} {d : Metered β ε α} {d₀ : Decoder β ε α} (h : Pays c d d₀) (hc : m ≤ c) : Pays m d d₀ := by
  intro q n
  obtain ⟨work, hrun, hpaid⟩ := h q n
  refine ⟨work, hrun, ?_⟩
  cases h₀ : d₀ (.of q) with
  | error e =>
    rw [h₀] at hpaid
    exact hpaid
  | ok p =>
    rw [h₀] at hpaid
    obtain ⟨r, hs, hr⟩ := hpaid
    exact ⟨r, hs, by omega⟩

theorem pays_readExact (e : ε) (k : ℕ) : Pays k (unmetered (readExact e k) : Metered β ε (List β)) (readExact e k) := by
  intro q n
  refine ⟨0, rfl, ?_⟩
  cases h : readExact e k (.of q) with
  | error e => exact Nat.zero_le _
  | ok p =>
    obtain ⟨b, s⟩ := p
    obtain ⟨hlen, r, rfl, hs⟩ := readExact_eq_ok h
    refine ⟨r, hs, ?_⟩
    rw [List.length_append]
    omega

/-- A counted loop pays for its items when decoding one leaves a token to spare. -/
theorem Pays.fill {d : Metered β ε α} {d₀ : Decoder β ε α} {add : γ → α → γ} (hd : Pays 1 d d₀) (n : ℕ) (acc : γ) :
    Pays 0 (fillMetered d add n acc) (Core.fill d₀ add n acc) := by
  induction n generalizing acc with
  | zero => exact pays_pure acc
  | succ n ih => exact Pays.spend (c := 0) (k := 1) hd fun a => ih (add acc a)

end TinyRpc.Core
