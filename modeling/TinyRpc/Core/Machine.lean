/-
Runs of a state machine given by a total step function.

`run` is the state after a list of operations. `Along P` says that every operation of a run is taken in a state where
`P` holds of the two, `Always P` that `P` holds in every state the run goes through. Both are decidable on a concrete
run. The rules `along_of_inv`, `always_of_inv` reduce a property of every run whose steps meet a condition to one step,
and `run_sim` does so for a relation between two machines. `Since` says that a step of the run met `A` and none since then
`R`; `run_iff_since` is its rule.
-/
import Mathlib.Tactic

namespace TinyRpc.Core

variable {σ ι : Type} (step : σ → ι → σ)

def run (s : σ) (ops : List ι) : σ := ops.foldl step s

/-- every operation of the run is taken in a state where `P` holds of it -/
def Along (P : σ → ι → Prop) : σ → List ι → Prop
  | _, [] => True
  | s, o :: ops => P s o ∧ Along P (step s o) ops

/-- `P` holds at the start and after every operation of the run -/
def Always (P : σ → Prop) : σ → List ι → Prop
  | s, [] => P s
  | s, o :: ops => P s ∧ Always P (step s o) ops

/-- some operation of the run was taken where `A` holds of it, and none behind it where `R` does -/
def Since (A R : σ → ι → Prop) (s : σ) (ops : List ι) : Prop :=
  ∃ ops₁ o ops₂, ops = ops₁ ++ o :: ops₂ ∧ A (run step s ops₁) o ∧
    Along step (fun s o => ¬ R s o) (step (run step s ops₁) o) ops₂

instance Along.decidable (P : σ → ι → Prop) [∀ s o, Decidable (P s o)] : (s : σ) → (ops : List ι) →
    Decidable (Along step P s ops)
  | _, [] => inferInstanceAs (Decidable True)
  | s, o :: ops =>
    have := Along.decidable P (step s o) ops
    inferInstanceAs (Decidable (_ ∧ _))

instance Always.decidable (P : σ → Prop) [DecidablePred P] : (s : σ) → (ops : List ι) → Decidable (Always step P s ops)
  | s, [] => inferInstanceAs (Decidable (P s))
  | s, o :: ops =>
    have := Always.decidable P (step s o) ops
    inferInstanceAs (Decidable (_ ∧ _))

variable {step}

/-- `Always` is a statement about the states after all prefixes of the run. -/
theorem always_iff {P : σ → Prop} {s : σ} {ops : List ι} :
    Always step P s ops ↔ ∀ k ≤ ops.length, P (run step s (ops.take k)) := by
  induction ops generalizing s with
  | nil => simp [Always, run]
  | cons o ops ih =>
    rw [Always, ih]
    refine ⟨?_, fun h => ⟨h 0 (Nat.zero_le _), fun k hk => h (k + 1) (by simpa using hk)⟩⟩
    intro h k hk
    rcases h with ⟨h0, h⟩
    cases k with
    | zero => exact h0
    | succ k => exact h k (by simpa using hk)

theorem always_iff_along {P : σ → Prop} {s : σ} {ops : List ι} :
    Always step P s ops ↔ P s ∧ Along step (fun s o => P (step s o)) s ops := by
  induction ops generalizing s with
  | nil => exact ⟨fun h => ⟨h, trivial⟩, fun h => h.1⟩
  | cons o ops ih => rw [Always, Along, ih]

/-- An invariant that every step keeps holds after every run. -/
theorem run_of_inv {Inv : σ → Prop} (hstep : ∀ s o, Inv s → Inv (step s o)) {s : σ} (h : Inv s) (ops : List ι) :
    Inv (run step s ops) := by
  induction ops generalizing s with
  | nil => exact h
  | cons o ops ih => exact ih (hstep s o h)

/-- An invariant that every step meeting `C` keeps, and that makes such a step meet `P`, gives `P` along every run that
meets `C`. -/
theorem along_of_inv {C P : σ → ι → Prop} {Inv : σ → Prop}
    (hstep : ∀ s o, Inv s → C s o → P s o ∧ Inv (step s o)) {s : σ} (h : Inv s) {ops : List ι}
    (hc : Along step C s ops) : Along step P s ops := by
  induction ops generalizing s with
  | nil => trivial
  | cons o ops ih =>
    obtain ⟨hp, hi⟩ := hstep s o h hc.1
    exact ⟨hp, ih hi hc.2⟩

/-- Where steps meeting `K` from states with the invariant meet `P` exactly when they meet `C`, and `C` keeps the
invariant, a run of `K`-steps meets `P` all along exactly when it meets `C` all along. -/
theorem along_iff_of_inv {K C P : σ → ι → Prop} {Inv : σ → Prop}
    (hstep : ∀ s o, Inv s → K s o → (P s o ↔ C s o) ∧ (C s o → Inv (step s o))) {s : σ} (h : Inv s) {ops : List ι}
    (hk : Along step K s ops) : Along step P s ops ↔ Along step C s ops := by
  induction ops generalizing s with
  | nil => exact Iff.rfl
  | cons o ops ih =>
    obtain ⟨hpc, hinv⟩ := hstep s o h hk.1
    constructor
    · intro h
      rcases h with ⟨hp, hps⟩
      have hc := hpc.1 hp
      exact ⟨hc, (ih (hinv hc) hk.2).1 hps⟩
    · intro h
      rcases h with ⟨hc, hcs⟩
      exact ⟨hpc.2 hc, (ih (hinv hc) hk.2).2 hcs⟩

/-- Where steps meeting `K` from states with the invariant lead to `P` exactly when they meet `C`, and `C` keeps the
invariant, `P` holds in every state of a run of `K`-steps exactly when the run meets `C` all along. -/
theorem always_iff_of_inv {K C : σ → ι → Prop} {P Inv : σ → Prop}
    (hstep : ∀ s o, Inv s → K s o → (P (step s o) ↔ C s o) ∧ (C s o → Inv (step s o))) {s : σ} (h : Inv s) (hp : P s)
    {ops : List ι} (hk : Along step K s ops) : Always step P s ops ↔ Along step C s ops := by
  rw [always_iff_along, along_iff_of_inv hstep h hk]
  exact and_iff_right hp

/-- An invariant that every step meeting `C` keeps holds in every state of a run that meets `C`. -/
theorem always_of_inv {C : σ → ι → Prop} {Inv : σ → Prop} (hstep : ∀ s o, Inv s → C s o → Inv (step s o)) {s : σ}
    (h : Inv s) {ops : List ι} (hc : Along step C s ops) : Always step Inv s ops := by
  induction ops generalizing s with
  | nil => exact h
  | cons o ops ih => exact ⟨h, ih (hstep s o h hc.1) hc.2⟩

/-- Two machines fed the same operations stay related when every step that meets `C` keeps them related. -/
theorem run_sim {σ' : Type} {step' : σ' → ι → σ'} {R : σ → σ' → Prop} {C : σ → ι → Prop}
    (hstep : ∀ s s' o, R s s' → C s o → R (step s o) (step' s' o)) {s : σ} {s' : σ'} (h : R s s') {ops : List ι}
    (hc : Along step C s ops) : R (run step s ops) (run step' s' ops) := by
  induction ops generalizing s s' with
  | nil => exact h
  | cons o ops ih => exact ih (hstep s s' o h hc.1) hc.2

theorem run_concat (s : σ) (ops : List ι) (o : ι) : run step s (ops ++ [o]) = step (run step s ops) o := by
  rw [run, List.foldl_concat, run]

theorem run_append (s : σ) (ops ops' : List ι) : run step s (ops ++ ops') = run step (run step s ops) ops' :=
  List.foldl_append

theorem along_append {P : σ → ι → Prop} {s : σ} {ops ops' : List ι} :
    Along step P s (ops ++ ops') ↔ Along step P s ops ∧ Along step P (run step s ops) ops' := by
  induction ops generalizing s with
  | nil => exact ⟨fun h => ⟨trivial, h⟩, fun h => h.2⟩
  | cons o ops ih =>
    rw [List.cons_append, Along, Along, ih, and_assoc]
    rfl

/-- `Along` is a statement about every operation of the run and the state it is taken in. -/
theorem along_iff {P : σ → ι → Prop} {s : σ} {ops : List ι} :
    Along step P s ops ↔ ∀ ops₁ o ops₂, ops = ops₁ ++ o :: ops₂ → P (run step s ops₁) o := by
  refine ⟨?_, ?_⟩
  · rintro h ops₁ o ops₂ rfl
    exact (along_append.1 h).2.1
  · intro h
    induction ops generalizing s with
    | nil => trivial
    | cons o ops ih =>
      refine ⟨h [] o ops rfl, ih ?_⟩
      intro ops₁ o' ops₂ hops
      exact h (o :: ops₁) o' ops₂ (by rw [hops, List.cons_append])

theorem along_and {P Q : σ → ι → Prop} {s : σ} {ops : List ι} :
    Along step (fun s o => P s o ∧ Q s o) s ops ↔ Along step P s ops ∧ Along step Q s ops := by
  induction ops generalizing s with
  | nil => exact ⟨fun _ => ⟨trivial, trivial⟩, fun _ => trivial⟩
  | cons o ops ih =>
    rw [Along, Along, Along, ih]
    exact and_and_and_comm

/-- what holds of each operation in any state holds along the run -/
theorem along_of_mem {P : σ → ι → Prop} {s : σ} {ops : List ι} (h : ∀ o ∈ ops, ∀ s, P s o) : Along step P s ops := by
  rw [along_iff]
  intro ops₁ o ops₂ hops
  exact h o (hops ▸ List.mem_append_right _ (List.mem_cons_self ..)) _

theorem Along.last {P : σ → ι → Prop} {s : σ} {ops : List ι} {o : ι} (h : Along step P s (ops ++ [o])) :
    P (run step s ops) o :=
  (along_append.1 h).2.1

theorem Always.last {P : σ → Prop} {s : σ} {ops : List ι} (h : Always step P s ops) : P (run step s ops) := by
  rw [always_iff] at h
  simpa using h ops.length le_rfl

/-- what holds in every state holds in the state of each operation -/
theorem Always.along {P : σ → Prop} {s : σ} {ops : List ι} (h : Always step P s ops) :
    Along step (fun s _ => P s) s ops := by
  induction ops generalizing s with
  | nil => trivial
  | cons o ops ih => exact ⟨h.1, ih h.2⟩

theorem Along.mono {P Q : σ → ι → Prop} (hpq : ∀ s o, P s o → Q s o) {s : σ} {ops : List ι} (h : Along step P s ops) :
    Along step Q s ops := by
  induction ops generalizing s with
  | nil => trivial
  | cons o ops ih => exact ⟨hpq s o h.1, ih h.2⟩

theorem Always.mono {P Q : σ → Prop} (hpq : ∀ s, P s → Q s) {s : σ} {ops : List ι} (h : Always step P s ops) :
    Always step Q s ops := by
  rw [always_iff] at *
  exact fun k hk => hpq _ (h k hk)

theorem since_concat {A R : σ → ι → Prop} {s : σ} {ops : List ι} {o : ι} :
    Since step A R s (ops ++ [o]) ↔ A (run step s ops) o ∨ Since step A R s ops ∧ ¬ R (run step s ops) o := by
  refine ⟨?_, ?_⟩
  · rintro ⟨ops₁, o', ops₂, hops, ha, hlater⟩
    rcases List.eq_nil_or_concat ops₂ with rfl | ⟨ops₂, o'', rfl⟩
    · obtain ⟨rfl, ho⟩ := List.append_inj' hops rfl
      cases ho
      exact Or.inl ha
    · rw [List.concat_eq_append] at hops hlater
      rw [← List.cons_append, ← List.append_assoc] at hops
      obtain ⟨rfl, ho⟩ := List.append_inj' hops rfl
      cases ho
      obtain ⟨hkept, hlast, -⟩ := along_append.1 hlater
      refine Or.inr ⟨⟨ops₁, o', ops₂, rfl, ha, hkept⟩, ?_⟩
      rw [run_append]
      exact hlast
  · rintro (ha | ⟨⟨ops₁, o', ops₂, rfl, ha, hlater⟩, hr⟩)
    · exact ⟨ops, o, [], rfl, ha, trivial⟩
    · rw [run_append] at hr
      exact ⟨ops₁, o', ops₂ ++ [o], by simp, ha, along_append.2 ⟨hlater, hr, trivial⟩⟩

/-- Where a step makes `M` true by meeting `A` and keeps it unless it meets `R`, `M` holds after a run exactly when a step has
met `A`, or `M` held at the start, and no step has met `R` since. -/
theorem run_iff_since {A R C : σ → ι → Prop} {M Inv : σ → Prop}
    (hstep : ∀ s o, Inv s → C s o → (M (step s o) ↔ A s o ∨ M s ∧ ¬ R s o) ∧ Inv (step s o)) {s : σ} (h : Inv s)
    {ops : List ι} (hc : Along step C s ops) :
    M (run step s ops) ↔ Since step A R s ops ∨ M s ∧ Along step (fun s o => ¬ R s o) s ops := by
  suffices hall : (M (run step s ops) ↔ Since step A R s ops ∨ M s ∧ Along step (fun s o => ¬ R s o) s ops) ∧
      Inv (run step s ops) from hall.1
  induction ops using List.reverseRecOn with
  | nil =>
    refine ⟨⟨fun hm => Or.inr ⟨hm, trivial⟩, ?_⟩, h⟩
    rintro (⟨ops₁, o, ops₂, hops, -⟩ | ⟨hm, -⟩)
    · exact absurd hops (by simp)
    · exact hm
  | append_singleton ops o ih =>
    obtain ⟨hiff, hinv⟩ := ih (along_append.1 hc).1
    obtain ⟨hlast, hinv'⟩ := hstep _ o hinv hc.last
    have hkept : Along step (fun s o => ¬ R s o) s (ops ++ [o]) ↔
        Along step (fun s o => ¬ R s o) s ops ∧ ¬ R (run step s ops) o := by
      rw [along_append]
      exact and_congr_right fun _ => and_iff_left trivial
    rw [run_concat, hlast, hiff, since_concat, hkept]
    exact ⟨by tauto, hinv'⟩

end TinyRpc.Core
