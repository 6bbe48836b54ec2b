/-
The time wheel that shuts idle connections down (net/tcp_conn_timer.cc, net/tcp_conn_timer.h).

A slot is held by the buckets of `wheel_` only: it is destroyed when the last bucket holding it is popped. Its
destructor runs the shutdown callback if the connection behind its weak_ptr is still there.

Main result `wheel_on_time`: for every bucket count of at least 1 and every run, a slot is destroyed by the
bucket_count-th loopFunc after its last fresh and by nothing else, and shuts its connection down if that is still alive.
-/
import Mathlib.Tactic
import TinyRpc.Core.Machine
import TinyRpc.Core.Buckets

namespace TinyRpc.Net.TimeWheel

open TinyRpc.Core List

/-- `σ` is the type of slots -/
structure St (σ : Type) where
  /-- the front of the queue first -/
  wheel_ : List (List σ)
  /-- the slots whose weak_ptr_ can still be locked -/
  alive : σ → Bool
  destroyed : List σ
  /-- the slots whose shutdown callback was run -/
  shutdown : List σ

inductive Op (σ : Type)
  | fresh (slot : σ)
  | loopFunc
  /-- the connection of the slot is destroyed -/
  | release (slot : σ)
deriving DecidableEq, Repr

variable {σ : Type} [DecidableEq σ]

/-- the constructor -/
def init (bucket_count : ℕ) : St σ := ⟨replicate bucket_count [], fun _ => true, [], []⟩

/-- the slots whose destructor the operation runs -/
def destroyedBy (s : St σ) : Op σ → List σ
  | .loopFunc => Buckets.leaving s.wheel_
  | .fresh _ | .release _ => []

/-- the slots whose destructor finds the connection and calls back -/
def shutdownBy (s : St σ) (o : Op σ) : List σ := (destroyedBy s o).filter s.alive

def step (s : St σ) (o : Op σ) : St σ :=
  { wheel_ := match o with
      | .fresh slot => Buckets.push s.wheel_ slot
      | .loopFunc => Buckets.turn s.wheel_
      | .release _ => s.wheel_
    alive := match o with
      | .release slot => Function.update s.alive slot false
      | .fresh _ | .loopFunc => s.alive
    destroyed := s.destroyed ++ destroyedBy s o
    shutdown := s.shutdown ++ shutdownBy s o }

/-- `fresh` takes a shared_ptr, so its slot is not destroyed -/
def Held (s : St σ) : Op σ → Prop
  | .fresh slot => slot ∉ s.destroyed
  | .loopFunc | .release _ => True

instance (s : St σ) : (o : Op σ) → Decidable (Held s o)
  | .fresh slot => inferInstanceAs (Decidable (slot ∉ _))
  | .loopFunc | .release _ => inferInstanceAs (Decidable True)

/-- the calls of loopFunc since the last fresh of each slot -/
def tick (idle : σ → Option ℕ) : Op σ → σ → Option ℕ
  | .fresh slot => Function.update idle slot (some 0)
  | .loopFunc => fun slot => (idle slot).map (· + 1)
  | .release _ => idle

def idle (slot : σ) (ops : List (Op σ)) : Option ℕ := run tick (fun _ => none) ops slot

/-- the idle time has reached the bucket count -/
def overdue (b : ℕ) : Option ℕ → Bool
  | some k => decide (b ≤ k)
  | none => false

/-- the wheel shows the idle times below the bucket count; a slot with a greater one is destroyed, once -/
structure Tracks (b : ℕ) (s : St σ) (idle : σ → Option ℕ) : Prop where
  length : s.wheel_.length = b
  age : ∀ slot, Buckets.age s.wheel_ slot = (idle slot).filter fun k => decide (k < b)
  destroyed : ∀ slot, s.destroyed.count slot = if overdue b (idle slot) then 1 else 0

variable {b : ℕ} {s : St σ} {k : σ → Option ℕ}

theorem Tracks.ne_nil (hb : 1 ≤ b) (h : Tracks b s k) : s.wheel_ ≠ [] := by
  rw [← length_pos_iff, h.length]
  exact hb

theorem Tracks.count_destroyedBy (hb : 1 ≤ b) (h : Tracks b s k) (o : Op σ) (slot : σ) :
    (destroyedBy s o).count slot = if o = .loopFunc ∧ k slot = some (b - 1) then 1 else 0 := by
  cases o with
  | loopFunc =>
    rw [destroyedBy, Buckets.count_leaving (h.ne_nil hb), h.length, h.age]
    refine if_congr ?_ rfl rfl
    simp only [true_and, Option.filter_eq_some_iff, decide_eq_true_eq]
    exact and_iff_left (by omega)
  | fresh slot' => simp [destroyedBy]
  | release slot' => simp [destroyedBy]

/-- an idle time below the bucket count, one turn later -/
theorem filter_turn (b : ℕ) (i : Option ℕ) :
    ((i.filter fun k => decide (k < b)).filter fun k => decide (k + 1 < b)).map (· + 1) =
      (i.map (· + 1)).filter fun k => decide (k < b) := by
  cases i with
  | none => rfl
  | some j =>
    simp only [Option.map_some, Option.filter_some, decide_eq_true_eq]
    by_cases hj : j + 1 < b
    · have hj' : j < b := by omega
      simp [hj, hj', Option.filter_some]
    · by_cases hj' : j < b
      · simp [hj, hj', Option.filter_some]
      · simp [hj, hj']

/-- an idle time reaches the bucket count once -/
theorem reaches_once (hb : 1 ≤ b) (i : Option ℕ) :
    ((if overdue b i then 1 else 0) + if i = some (b - 1) then 1 else 0) =
      if overdue b (i.map (· + 1)) then 1 else 0 := by
  cases i with
  | none => simp [overdue]
  | some j =>
    simp only [overdue, Option.map_some, decide_eq_true_eq, Option.some.injEq]
    split_ifs <;> omega

theorem Tracks.not_overdue (h : Tracks b s k) {slot : σ} (ho : slot ∉ s.destroyed) : ¬ overdue b (k slot) = true := by
  intro hex
  have hcount := h.destroyed slot
  rw [if_pos hex] at hcount
  exact ho (count_pos_iff.1 (by omega))

theorem Tracks.fresh (hb : 1 ≤ b) (h : Tracks b s k) {slot : σ} (ho : slot ∉ s.destroyed) :
    Tracks b (step s (.fresh slot)) (tick k (.fresh slot)) := by
  have hne := h.ne_nil hb
  have hsame : (step s (.fresh slot)).destroyed = s.destroyed := append_nil _
  refine ⟨(Buckets.length_push hne slot).trans h.length, ?_, ?_⟩
  · intro y
    rw [step, Buckets.age_push hne]
    by_cases hy : y = slot
    · have hzero : 0 < b := hb
      simp [tick, hy, Option.filter_some, hzero]
    · simp [tick, hy, h.age]
  · intro y
    have hold := h.destroyed y
    rw [hsame]
    by_cases hy : y = slot
    · subst hy
      have hzero : b ≠ 0 := by omega
      rw [if_neg (h.not_overdue ho)] at hold
      simpa [tick, overdue, hzero] using hold
    · simpa [tick, hy] using hold

theorem step_tracks (hb : 1 ≤ b) (h : Tracks b s k) {o : Op σ} (ho : Held s o) : Tracks b (step s o) (tick k o) := by
  cases o with
  | fresh slot => exact h.fresh hb ho
  | loopFunc =>
    refine ⟨(Buckets.length_turn (h.ne_nil hb)).trans h.length, ?_, ?_⟩
    · intro y
      rw [step, Buckets.age_turn, h.age, h.length]
      exact filter_turn b (k y)
    · intro y
      have hnow := h.count_destroyedBy hb .loopFunc y
      simp only [true_and] at hnow
      rw [step, count_append, h.destroyed, hnow]
      exact reaches_once hb (k y)
  | release slot =>
    have hsame : (step s (.release slot)).destroyed = s.destroyed := append_nil _
    refine ⟨h.length, h.age, ?_⟩
    intro y
    rw [hsame]
    exact h.destroyed y

theorem init_tracks (b : ℕ) : Tracks b (init b : St σ) fun _ => none := by
  refine ⟨length_replicate, ?_, ?_⟩
  · intro slot
    rw [Option.filter_none, Buckets.age_eq_none_iff]
    intro bucket hbucket
    rw [eq_of_mem_replicate hbucket]
    exact not_mem_nil
  · intro slot
    rfl

/-- a connection is there until it is released -/
theorem run_alive (s : St σ) (ops : List (Op σ)) (slot : σ) :
    (run step s ops).alive slot = (s.alive slot && decide (.release slot ∉ ops)) := by
  induction ops generalizing s with
  | nil => simp [run]
  | cons o ops ih =>
    have hcons : run step s (o :: ops) = run step (step s o) ops := rfl
    rw [hcons, ih]
    cases o with
    | fresh slot' => simp [step]
    | loopFunc => simp [step]
    | release slot' =>
      by_cases he : slot = slot'
      · simp [step, he]
      · simp [step, he]

/-- **Idle connections.** For every bucket count of at least 1 and every run: the wheel holds that many buckets; a slot is
destroyed once when its idle time has reached the bucket count and not before; the operation that destroys it is the
bucket_count-th loopFunc after its last fresh, which shuts the connection down unless it was released. -/
theorem wheel_on_time (bucket_count : ℕ) (hb : 1 ≤ bucket_count) (ops : List (Op σ))
    (h : Along step Held (init bucket_count) ops) :
    (run step (init bucket_count) ops).wheel_.length = bucket_count ∧
    (∀ slot, (run step (init bucket_count) ops).destroyed.count slot =
      if overdue bucket_count (idle slot ops) then 1 else 0) ∧
    ∀ ops₁ o ops₂, ops = ops₁ ++ o :: ops₂ → ∀ slot,
      (destroyedBy (run step (init bucket_count) ops₁) o).count slot =
        (if o = .loopFunc ∧ idle slot ops₁ = some (bucket_count - 1) then 1 else 0) ∧
      (shutdownBy (run step (init bucket_count) ops₁) o).count slot =
        if o = .loopFunc ∧ idle slot ops₁ = some (bucket_count - 1) ∧ .release slot ∉ ops₁ then 1 else 0 := by
  have hstep : ∀ (s : St σ) (k : σ → Option ℕ) (o : Op σ), Tracks bucket_count s k → Held s o →
      Tracks bucket_count (step s o) (tick k o) := fun s k o hr ho => step_tracks hb hr ho
  have htracks : ∀ l, Along step Held (init bucket_count) l →
      Tracks bucket_count (run step (init bucket_count : St σ) l) (run tick (fun _ => none) l) :=
    fun l hl => run_sim hstep (init_tracks bucket_count) hl
  refine ⟨(htracks ops h).length, (htracks ops h).destroyed, ?_⟩
  intro ops₁ o ops₂ hops slot
  rw [hops, along_append] at h
  have hcount := (htracks ops₁ h.1).count_destroyedBy hb o slot
  have halive := run_alive (init bucket_count) ops₁ slot
  refine ⟨hcount, ?_⟩
  by_cases hrel : .release slot ∈ ops₁
  · have hdead : (run step (init bucket_count) ops₁).alive slot = false := by simpa [hrel] using halive
    have hnot : slot ∉ shutdownBy (run step (init bucket_count) ops₁) o := by
      intro hmem
      exact Bool.noConfusion (hdead.symm.trans (mem_filter.1 hmem).2)
    simp [count_eq_zero_of_not_mem hnot, hrel]
  · have hlive : (run step (init bucket_count) ops₁).alive slot = true := by simpa [hrel, init] using halive
    rw [shutdownBy, count_filter hlive, hcount]
    simp [hrel, idle]

/-- two slots in a wheel of two buckets; slot 0 is refreshed after the first turn, the connection of slot 1 goes away -/
def twoSlots : List (Op ℕ) := [.fresh 0, .fresh 1, .loopFunc, .fresh 0, .release 1, .loopFunc, .loopFunc]

theorem wheel_on_time_twoSlots : Along step Held (init 2) twoSlots ∧
    (run step (init 2) twoSlots).destroyed = [1, 0] ∧ (run step (init 2) twoSlots).shutdown = [0] ∧
    (run step (init 2) twoSlots).wheel_.length = 2 ∧
    (run step (init 2) twoSlots).destroyed.count 0 = if overdue 2 (idle 0 twoSlots) then 1 else 0 := by
  have h : Along step Held (init 2) twoSlots := by decide
  obtain ⟨hlength, hdestroyed, -⟩ := wheel_on_time 2 (by decide) twoSlots h
  exact ⟨h, by decide, by decide, hlength, hdestroyed 0⟩

end TinyRpc.Net.TimeWheel
