/-
The format of a decoder: which blocks of tokens it accepts, and what it can return.

`Accepts d b` says that `d` takes the whole block `b`, whatever follows, and returns something. For a local decoder this is
all there is to say about where it succeeds: it succeeds on a stream exactly when the stream begins with an accepted block,
and it leaves what follows that block (`Local.ok_iff`). No block that is accepted is the beginning of another
(`Accepts.unambiguous`). The rules `accepts_bind`, `accepts_readExact`, `accepts_fill` turn the text of a decoder into the
grammar of its format.

`Returns d P` says that whatever `d` returns has `P`.
-/
import Mathlib.Tactic
import TinyRpc.Core.Stream

namespace TinyRpc.Core

variable {β ε α γ : Type}

/-! ## Accepted blocks -/

/-- `d` takes the block `b`, whatever follows -/
def Accepts (d : Decoder β ε α) (b : List β) : Prop := ∃ a, Yields d b a

/-- The block a decoder accepts at the front of a stream is unique. -/
theorem Yields.unambiguous {d : Decoder β ε α} {b b' r r' : List β} {a a' : α} (h : Yields d b a) (h' : Yields d b' a')
    (heq : b ++ r = b' ++ r') : b = b' ∧ a = a' ∧ r = r' := by
  have hrun := h r
  rw [heq, h' r'] at hrun
  injection hrun with hrun
  injection hrun with ha hs
  have hr : r' = r := congrArg Stream.queue hs
  subst hr
  exact ⟨List.append_cancel_right heq, ha.symm, rfl⟩

theorem Accepts.unambiguous {d : Decoder β ε α} {b b' r r' : List β} (h : Accepts d b) (h' : Accepts d b')
    (heq : b ++ r = b' ++ r') : b = b' ∧ r = r' := by
  obtain ⟨a, ha⟩ := h
  obtain ⟨a', ha'⟩ := h'
  obtain ⟨hb, -, hr⟩ := ha.unambiguous ha' heq
  exact ⟨hb, hr⟩

/-- A local decoder succeeds where the stream begins with an accepted block. -/
theorem Local.ok_iff {d : Decoder β ε α} (hd : Local d) {q r : List β} :
    (∃ a, d (.of q) = .ok (a, .of r)) ↔ ∃ b, Accepts d b ∧ q = b ++ r := by
  constructor
  · intro h
    obtain ⟨a, h⟩ := h
    obtain ⟨b, r', rfl, hs, hy⟩ := hd q a _ h
    have hr : r = r' := congrArg Stream.queue hs
    exact ⟨b, ⟨a, hy⟩, by rw [hr]⟩
  · intro h
    obtain ⟨b, ⟨a, hy⟩, rfl⟩ := h
    exact ⟨a, hy r⟩

/-- a local decoder that takes all tokens of a stream yields on them -/
theorem Local.yields_of_ok {d : Decoder β ε α} (hd : Local d) {b : List β} {a : α} (h : d (.of b) = .ok (a, .of [])) :
    Yields d b a := by
  obtain ⟨b', r, rfl, hs, hy⟩ := hd b a _ h
  have hr : r = [] := (congrArg Stream.queue hs).symm
  rwa [hr, List.append_nil]

theorem accepts_pure {a : α} {b : List β} : Accepts (pure a : Decoder β ε α) b ↔ b = [] := by
  constructor
  · intro h
    obtain ⟨a', h⟩ := h
    have hrun := pure_eq_ok (h [])
    have hq : b ++ [] = [] := congrArg Stream.queue hrun.2
    rwa [List.append_nil] at hq
  · rintro rfl
    exact ⟨a, yields_pure a⟩

theorem accepts_readExact {e : ε} {n : ℕ} {b : List β} : Accepts (readExact e n : Decoder β ε (List β)) b ↔ b.length = n := by
  constructor
  · intro h
    obtain ⟨a, h⟩ := h
    obtain ⟨hlen, r, hb, hs⟩ := readExact_eq_ok (h [])
    have hr : [] = r := congrArg Stream.queue hs
    rw [← hr, List.append_nil, List.append_nil] at hb
    rw [hb, hlen]
  · rintro rfl
    exact ⟨b, yields_readExact e b⟩

/-- A sequence of two local decoders takes a block of the first, then one of the second. -/
theorem accepts_bind {d : Decoder β ε α} {f : α → Decoder β ε γ} (hd : Local d) (hf : ∀ a, Local (f a)) {b : List β} :
    Accepts (d >>= f) b ↔ ∃ a b₁ b₂, b = b₁ ++ b₂ ∧ Yields d b₁ a ∧ Accepts (f a) b₂ := by
  constructor
  · intro h
    obtain ⟨c, h⟩ := h
    have hrun := h []
    rw [List.append_nil] at hrun
    obtain ⟨a, t, h1, h2⟩ := bind_eq_ok hrun
    obtain ⟨b₁, r, rfl, rfl, hy⟩ := hd b a t h1
    exact ⟨a, b₁, r, rfl, hy, c, (hf a).yields_of_ok h2⟩
  · intro h
    obtain ⟨a, b₁, b₂, rfl, h1, c, h2⟩ := h
    exact ⟨c, h1.bind h2⟩

theorem items_zero {P : List β → Prop} {b : List β} :
    (∃ items : List (List β), items.length = 0 ∧ (∀ x ∈ items, P x) ∧ b = items.flatten) ↔ b = [] := by
  constructor
  · intro h
    obtain ⟨items, hlen, -, rfl⟩ := h
    rw [List.eq_nil_of_length_eq_zero hlen]
    rfl
  · rintro rfl
    exact ⟨[], rfl, by simp, rfl⟩

/-- the first item, and as many as are left -/
theorem items_succ {P : List β → Prop} {n : ℕ} {b : List β} :
    (∃ items : List (List β), items.length = n + 1 ∧ (∀ x ∈ items, P x) ∧ b = items.flatten) ↔
      ∃ x y, b = x ++ y ∧ P x ∧
        ∃ items : List (List β), items.length = n ∧ (∀ x ∈ items, P x) ∧ y = items.flatten := by
  constructor
  · intro h
    obtain ⟨items, hlen, hall, rfl⟩ := h
    obtain ⟨x, items, rfl⟩ := List.exists_cons_of_length_eq_add_one hlen
    refine ⟨x, items.flatten, rfl, hall x List.mem_cons_self, items, by simpa using hlen, ?_, rfl⟩
    intro y hy
    exact hall y (List.mem_cons_of_mem x hy)
  · intro h
    obtain ⟨x, _, rfl, hx, items, hlen, hall, rfl⟩ := h
    exact ⟨x :: items, by rw [List.length_cons, hlen], List.forall_mem_cons.2 ⟨hx, hall⟩, rfl⟩

/-- A counted loop takes that many items. -/
theorem accepts_fill {d : Decoder β ε α} {add : γ → α → γ} (hd : Local d) {n : ℕ} {acc : γ} {b : List β} :
    Accepts (fill d add n acc) b ↔ ∃ items : List (List β), items.length = n ∧ (∀ x ∈ items, Accepts d x) ∧ b = items.flatten := by
  induction n generalizing acc b with
  | zero => rw [fill, accepts_pure, items_zero]
  | succ n ih =>
    rw [fill, accepts_bind hd fun a => local_fill hd n _, items_succ]
    constructor
    · intro h
      obtain ⟨a, b₁, b₂, rfl, h1, h2⟩ := h
      exact ⟨b₁, b₂, rfl, ⟨a, h1⟩, ih.1 h2⟩
    · intro h
      obtain ⟨b₁, b₂, rfl, ⟨a, h1⟩, h2⟩ := h
      exact ⟨a, b₁, b₂, rfl, h1, ih.2 h2⟩

/-! ## What a decoder returns -/

/-- whatever `d` returns has `P` -/
def Returns (d : Decoder β ε α) (P : α → Prop) : Prop := ∀ s a t, d s = .ok (a, t) → P a

theorem returns_pure {a : α} {P : α → Prop} (h : P a) : Returns (pure a : Decoder β ε α) P := by
  intro s a' t hrun
  rwa [← (pure_eq_ok hrun).1]

theorem Returns.bind {d : Decoder β ε α} {f : α → Decoder β ε γ} {Q : α → Prop} {P : γ → Prop} (hd : Returns d Q)
    (hf : ∀ a, Q a → Returns (f a) P) : Returns (d >>= f) P := by
  intro s c t h
  obtain ⟨a, s', h1, h2⟩ := bind_eq_ok h
  exact hf a (hd s a s' h1) s' c t h2

/-- A counted loop has added that many items. -/
theorem Returns.fill {d : Decoder β ε α} {add : γ → α → γ} {Q : α → Prop} (hd : Returns d Q) (n : ℕ) (acc : γ) :
    Returns (fill d add n acc) fun v => ∃ as : List α, as.length = n ∧ (∀ a ∈ as, Q a) ∧ v = as.foldl add acc := by
  induction n generalizing acc with
  | zero => exact returns_pure ⟨[], rfl, by simp, rfl⟩
  | succ n ih =>
    refine hd.bind fun a ha => ?_
    intro s v t h
    obtain ⟨as, hlen, hall, hv⟩ := ih (add acc a) s v t h
    refine ⟨a :: as, by rw [List.length_cons, hlen], ?_, hv⟩
    intro x hx
    rcases List.mem_cons.1 hx with rfl | hx
    · exact ha
    · exact hall x hx

/-! ## Items one after the other, and streams cut short -/

theorem Local.replicate {d : Decoder β ε α} (hd : Local d) (n : ℕ) : Local (replicate d n) := by
  induction n with
  | zero => exact local_pure []
  | succ n ih => exact hd.bind fun a => ih.bind fun as => local_pure (a :: as)

theorem Throws.replicate {e : ε} {d : Decoder β ε α} (hd : Throws e d) (n : ℕ) : Throws e (replicate d n) := by
  induction n with
  | zero => exact throws_pure e []
  | succ n ih => exact hd.bind fun a => ih.bind fun as => throws_pure e (a :: as)

/-- On any beginning of a stream a local decoder with one error makes of its block what it makes of it on the whole stream,
or, where the block is cut, fails. -/
theorem Local.of_prefix {e : ε} {d : Decoder β ε α} (hd : Local d) (he : Throws e d) {b p q : List β} {a : α}
    (hy : Yields d b a) (hp : p <+: b ++ q) :
    (∃ r, p = b ++ r ∧ d (.of p) = .ok (a, .of r)) ∨ (¬b <+: p ∧ d (.of p) = .error e) := by
  by_cases hbp : b <+: p
  · obtain ⟨r, rfl⟩ := hbp
    exact Or.inl ⟨r, rfl, hy r⟩
  · refine Or.inr ⟨hbp, ?_⟩
    have hpb : p <+: b := (List.prefix_or_prefix_of_prefix hp (List.prefix_append b q)).resolve_right hbp
    obtain ⟨x, hx⟩ := hd.refuses hy hpb (fun heq => hbp (heq ▸ List.prefix_rfl))
    rw [hx, he _ x hx]

end TinyRpc.Core
