/-
Coroutine ids and the coroutine pool (common/coroutine/coroutine.cc, coroutine_pool.cc).

A coroutine is named by its m_cor_id, which its thread hands out once. The pool is a vector of slots (coroutine,
marked); three numbers index it: the slot number, the id of the coroutine in the slot, and m_pool_size, which leaves out
the offset m_index. A run is any sequence of `getCoroutineInstanse`, of `returnCoroutine` by an owner, and of coroutines
entering or leaving CoFunction.

Main result `pool_single_owner`: in every run in which each `getCoroutineInstanse` finds a free slot in its scan, a
coroutine is handed out only while nobody owns it, and a return frees exactly the slot that holds it. The growth path
breaks both: `pool_growth_shares`.
-/
import Mathlib.Tactic
import TinyRpc.Core.Machine

namespace TinyRpc.Common

open TinyRpc.Core

/-! ## Coroutines of a thread -/

/-- the thread locals of coroutine.cc; a coroutine is its id -/
structure Thread where
  t_main_coroutine : Option ℕ
  t_cur_coroutine : Option ℕ
  t_cur_coroutine_id : ℕ
deriving DecidableEq, Repr

namespace Thread

def fresh : Thread := ⟨none, none, 0⟩

/-- `m_cor_id = t_cur_coroutine_id++` -/
def nextId (t : Thread) : ℕ × Thread := (t.t_cur_coroutine_id, { t with t_cur_coroutine_id := t.t_cur_coroutine_id + 1 })

/-- the constructor `Coroutine(int size)`: it makes the main coroutine first if there is none -/
def coroutine (t : Thread) : ℕ × Thread :=
  match t.t_main_coroutine with
  | some _ => t.nextId
  | none =>
    let (m, t) := t.nextId
    nextId { t with t_main_coroutine := some m }

def getCurrentCoroutine (t : Thread) : ℕ × Thread :=
  match t.t_cur_coroutine with
  | some c => (c, t)
  | none =>
    let (m, t) := t.nextId
    (m, { t with t_main_coroutine := some m, t_cur_coroutine := some m })

/-- how coroutines come to exist on a thread -/
inductive Creation
  | coroutine | getCurrentCoroutine
deriving DecidableEq, Repr

def create (t : Thread) : Creation → Thread
  | .coroutine => t.coroutine.2
  | .getCurrentCoroutine => t.getCurrentCoroutine.2

/-- a thread on which the coroutines of `h` were created, in this order -/
def after (h : List Creation) : Thread := run create fresh h

/-- the id the next pooled coroutine gets: the main coroutine may take one before it -/
def upcoming (t : Thread) : ℕ := if t.t_main_coroutine = none then t.t_cur_coroutine_id + 1 else t.t_cur_coroutine_id

theorem coroutine_spec (t : Thread) : t.coroutine.1 = t.upcoming ∧ t.coroutine.2.upcoming = t.upcoming + 1 := by
  unfold coroutine upcoming nextId
  cases t.t_main_coroutine <;> simp

/-- the main coroutine is missing exactly as long as no coroutine was made -/
theorem create_main (t : Thread) (o : Creation) (h : t.t_main_coroutine = none ↔ t.t_cur_coroutine_id = 0) :
    (t.create o).t_main_coroutine = none ↔ (t.create o).t_cur_coroutine_id = 0 := by
  cases o with
  | coroutine =>
    unfold create coroutine nextId
    cases hm : t.t_main_coroutine <;> simp_all
  | getCurrentCoroutine =>
    unfold create getCurrentCoroutine nextId
    cases hc : t.t_cur_coroutine <;> simp_all

theorem upcoming_after (h : List Creation) :
    (after h).upcoming = if (after h).t_cur_coroutine_id = 0 then 1 else (after h).t_cur_coroutine_id := by
  have hm : (after h).t_main_coroutine = none ↔ (after h).t_cur_coroutine_id = 0 :=
    run_of_inv create_main (by simp [fresh]) h
  unfold upcoming
  by_cases h0 : (after h).t_cur_coroutine_id = 0
  · rw [if_pos (hm.2 h0), if_pos h0, h0]
  · rw [if_neg (mt hm.1 h0), if_neg h0]

end Thread

/-! ## The pool -/

/-- a slot: the coroutine (null before it is filled) and the mark "can't be dispatched" -/
abbrev Slot := Option ℕ × Bool

structure CoroutinePool where
  m_index : ℕ
  m_pool_size : ℕ
  m_free_cors : List Slot
deriving DecidableEq, Repr

namespace CoroutinePool

/-- one round of the constructor's loop -/
def fillSlot (x : Thread × List Slot) (i : ℕ) : Thread × List Slot :=
  let (c, t) := x.1.coroutine
  (t, x.2.set i (some c, false))

def make (t : Thread) (pool_size : ℕ) : Thread × CoroutinePool :=
  let m_index := if t.t_cur_coroutine_id = 0 then 1 else t.t_cur_coroutine_id
  let x := (List.range' m_index pool_size).foldl fillSlot (t, List.replicate (pool_size + m_index) (none, false))
  (x.1, ⟨m_index, pool_size, x.2⟩)

/-- may the scan take slot `i`? `inCoFunc` is the flag m_is_in_cofunc of each coroutine -/
def free (p : CoroutinePool) (inCoFunc : ℕ → Bool) (i : ℕ) : Bool :=
  match p.m_free_cors[i]? with
  | some (some c, false) => !inCoFunc c
  | _ => false

/-- the slot the scan of `getCoroutineInstanse` stops at -/
def scan (p : CoroutinePool) (inCoFunc : ℕ → Bool) : Option ℕ :=
  (List.range' p.m_index (p.m_pool_size - p.m_index)).find? (p.free inCoFunc)

/-- one round of the growth loop: the new coroutine goes into slot `i` and to the end -/
def growSlot (x : Thread × List Slot) (i : ℕ) : Thread × List Slot :=
  let (c, t) := x.1.coroutine
  (t, x.2.set i (some c, false) ++ [(some c, false)])

def getCoroutineInstanse (t : Thread) (p : CoroutinePool) (inCoFunc : ℕ → Bool) :
    Option ℕ × Thread × CoroutinePool :=
  match p.scan inCoFunc with
  | some i =>
    let c := (p.m_free_cors[i]?).bind Prod.fst
    (c, t, { p with m_free_cors := p.m_free_cors.set i (c, true) })
  | none =>
    let newsize := 3 * p.m_pool_size / 2
    let x := (List.range (newsize - p.m_pool_size)).foldl growSlot (t, p.m_free_cors)
    let tmp := p.m_pool_size
    ((x.2[tmp]?).bind Prod.fst, x.1, { p with m_pool_size := newsize, m_free_cors := x.2 })

def returnCoroutine (p : CoroutinePool) (cor_id : ℕ) : CoroutinePool :=
  { p with m_free_cors := p.m_free_cors.modify cor_id fun x => (x.1, false) }

/-- a slot holds nothing, or the coroutine with its own number as id -/
def Aligned (slots : List Slot) : Prop := ∀ (i c : ℕ) (b : Bool), slots[i]? = some (some c, b) → c = i

theorem Aligned.set {slots : List Slot} (h : Aligned slots) (i : ℕ) (b : Bool) : Aligned (slots.set i (some i, b)) := by
  intro j c b' hj
  by_cases hij : i = j
  · subst hij
    rw [List.getElem?_set_self'] at hj
    cases hs : slots[i]? <;> simp_all
  · rw [List.getElem?_set_ne hij] at hj
    exact h j c b' hj

/-- The constructor puts coroutine `i` into slot `i`, whatever was created before. -/
theorem make_aligned (h : List Thread.Creation) (n : ℕ) : Aligned (make (Thread.after h) n).2.m_free_cors := by
  -- along the loop, the next coroutine's id is the next slot's number
  have hloop : ∀ n i (x : Thread × List Slot), x.1.upcoming = i → Aligned x.2 →
      Aligned ((List.range' i n).foldl fillSlot x).2 := by
    intro n
    induction n with
    | zero => exact fun i x _ hx => hx
    | succ n ih =>
      intro i x hi hx
      obtain ⟨h1, h2⟩ := Thread.coroutine_spec x.1
      refine ih (i + 1) (fillSlot x i) (h2.trans (by rw [hi])) ?_
      show Aligned (x.2.set i (some x.1.coroutine.1, false))
      rw [h1, hi]
      exact hx.set i false
  refine hloop n _ (Thread.after h, _) (Thread.upcoming_after h) ?_
  intro i c b hi
  simp [List.getElem?_replicate] at hi

/-- the scan stops at a slot with a coroutine that is not marked -/
theorem scan_some {p : CoroutinePool} {inCoFunc : ℕ → Bool} {i : ℕ} (h : p.scan inCoFunc = some i) :
    ∃ c, p.m_free_cors[i]? = some (some c, false) := by
  have hf := List.find?_some h
  unfold free at hf
  split at hf
  · exact ⟨_, ‹_›⟩
  · exact absurd hf (by decide)

theorem returnCoroutine_slot (p : CoroutinePool) (c i : ℕ) : (p.returnCoroutine c).m_free_cors[i]? =
    (p.m_free_cors[i]?).map fun x => if c = i then (x.1, false) else x := by
  unfold returnCoroutine
  rw [List.getElem?_modify]
  cases p.m_free_cors[i]? <;> by_cases hi : c = i <;> simp [hi]

/-! ## Runs -/

structure St where
  thread : Thread
  pool : CoroutinePool
  inCoFunc : ℕ → Bool
  /-- handed out and not yet returned -/
  owned : List ℕ

inductive Op
  | get
  /-- an owner returns coroutine `c` -/
  | ret (c : ℕ)
  /-- coroutine `c` enters or leaves CoFunction -/
  | setIsInCoFunc (c : ℕ) (v : Bool)
deriving DecidableEq, Repr

def init (h : List Thread.Creation) (pool_size : ℕ) : St :=
  let (t, p) := make (Thread.after h) pool_size
  ⟨t, p, fun _ => false, []⟩

def step (s : St) : Op → St
  | .get =>
    let (c, t, p) := s.pool.getCoroutineInstanse s.thread s.inCoFunc
    { s with thread := t, pool := p, owned := c.toList ++ s.owned }
  | .ret c => if c ∈ s.owned then { s with pool := s.pool.returnCoroutine c, owned := s.owned.erase c } else s
  | .setIsInCoFunc c v => { s with inCoFunc := Function.update s.inCoFunc c v }

/-- a call of `getCoroutineInstanse` finds a free slot in its scan -/
def NotExhausted (s : St) (o : Op) : Prop := o = .get → s.pool.scan s.inCoFunc ≠ none

/-- what is handed out has no owner; a return frees exactly the slot that holds the coroutine -/
def Exclusive (s : St) : Op → Prop
  | .get => ∀ c ∈ (s.pool.getCoroutineInstanse s.thread s.inCoFunc).1, c ∉ s.owned
  | .ret c => c ∈ s.owned → ∀ i < s.pool.m_free_cors.length, (step s (.ret c)).pool.m_free_cors[i]? =
      (s.pool.m_free_cors[i]?).map fun x => if x.1 = some c then (x.1, false) else x
  | .setIsInCoFunc _ _ => True

structure Inv (s : St) : Prop where
  aligned : Aligned s.pool.m_free_cors
  owned_nodup : s.owned.Nodup
  owned_marked : ∀ c ∈ s.owned, s.pool.m_free_cors[c]? = some (some c, true)

theorem init_inv (h : List Thread.Creation) (n : ℕ) : Inv (init h n) :=
  ⟨make_aligned h n, List.nodup_nil, fun _ hc => absurd hc List.not_mem_nil⟩

theorem get_exclusive {s : St} (h : Inv s) (hs : s.pool.scan s.inCoFunc ≠ none) :
    Exclusive s .get ∧ Inv (step s .get) := by
  obtain ⟨i, hi⟩ := Option.ne_none_iff_exists'.1 hs
  obtain ⟨c, hc⟩ := scan_some hi
  obtain rfl : c = i := h.aligned i c false hc
  have hget : s.pool.getCoroutineInstanse s.thread s.inCoFunc =
      (some c, s.thread, { s.pool with m_free_cors := s.pool.m_free_cors.set c (some c, true) }) := by
    unfold getCoroutineInstanse
    rw [hi]
    simp [hc]
  -- an owned coroutine's slot is marked, and the scan stopped at one that is not
  have hfree : c ∉ s.owned := fun ho => by
    have := h.owned_marked c ho
    rw [hc] at this
    simp at this
  refine ⟨?_, ?_⟩
  · intro c' hc'
    rw [hget] at hc'
    obtain rfl : c = c' := by simpa using hc'
    exact hfree
  · unfold step
    rw [hget]
    refine ⟨h.aligned.set c true, List.nodup_cons.2 ⟨hfree, h.owned_nodup⟩, ?_⟩
    intro d hd
    rcases List.mem_cons.1 hd with rfl | hd
    · simp [(List.getElem?_eq_some_iff.1 hc).1]
    · have hne : c ≠ d := fun he => hfree (he ▸ hd)
      simpa [List.getElem?_set_ne hne] using h.owned_marked d hd

theorem ret_exclusive {s : St} (h : Inv s) (c : ℕ) : Exclusive s (.ret c) ∧ Inv (step s (.ret c)) := by
  by_cases hc : c ∈ s.owned
  · have hslot := h.owned_marked c hc
    have hstep : step s (.ret c) = { s with pool := s.pool.returnCoroutine c, owned := s.owned.erase c } := if_pos hc
    refine ⟨?_, ?_⟩
    · intro _ i _
      rw [hstep, returnCoroutine_slot]
      cases hx : s.pool.m_free_cors[i]? with
      | none => rfl
      | some x =>
        -- slot `c` holds `c`, and no other slot does
        have hiff : c = i ↔ x.1 = some c := by
          refine ⟨?_, fun hx1 => h.aligned i c x.2 (by rw [hx, ← hx1])⟩
          intro hi
          subst hi
          rw [hslot] at hx
          rw [← Option.some.inj hx]
        by_cases hi : c = i
        · simp [hi, hiff.1 hi]
        · simp [hi, mt hiff.2 hi]
    · rw [hstep]
      refine ⟨?_, h.owned_nodup.erase c, ?_⟩
      · intro i d b hd
        rw [returnCoroutine_slot, Option.map_eq_some_iff] at hd
        obtain ⟨x, hx, hxd⟩ := hd
        have hx1 : x.1 = some d := by
          by_cases hi : c = i
          · rw [if_pos hi] at hxd
            exact congrArg Prod.fst hxd
          · rw [if_neg hi] at hxd
            exact congrArg Prod.fst hxd
        exact h.aligned i d x.2 (by rw [hx, ← hx1])
      · intro d hd
        have hne : c ≠ d := fun he => h.owned_nodup.not_mem_erase (he ▸ hd)
        rw [returnCoroutine_slot, h.owned_marked d (List.mem_of_mem_erase hd)]
        simp [hne]
  · have hstep : step s (.ret c) = s := if_neg hc
    exact ⟨fun ho => absurd ho hc, by rwa [hstep]⟩

theorem step_exclusive (s : St) (o : Op) (h : Inv s) (hn : NotExhausted s o) : Exclusive s o ∧ Inv (step s o) := by
  cases o with
  | get => exact get_exclusive h (hn rfl)
  | ret c => exact ret_exclusive h c
  | setIsInCoFunc c v => exact ⟨trivial, ⟨h.aligned, h.owned_nodup, h.owned_marked⟩⟩

/-- **One owner.** For every number of coroutines created before the pool, every pool size and every run in which each
`getCoroutineInstanse` finds a free slot in its scan: what is handed out has no owner, and a return frees exactly the slot
that holds the coroutine. -/
theorem pool_single_owner (h : List Thread.Creation) (pool_size : ℕ) (ops : List Op)
    (hn : Along step NotExhausted (init h pool_size) ops) : Along step Exclusive (init h pool_size) ops :=
  along_of_inv step_exclusive (init_inv h pool_size) hn

instance (s : St) (o : Op) : Decidable (NotExhausted s o) := inferInstanceAs (Decidable (_ → _))

theorem pool_single_owner_three : Along step Exclusive (init [] 4)
    [.get, .setIsInCoFunc 1 true, .get, .ret 1, .get, .ret 2, .setIsInCoFunc 1 false, .get] :=
  pool_single_owner [] 4 _ (by decide)

/-- With a pool of two the first call empties the scan; the second grows the pool and hands out coroutine 2 without a
mark, and the third hands out coroutine 2 again. -/
theorem pool_growth_shares :
    (run step (init [] 2) [.get, .get]).owned = [2, 1] ∧
    (run step (init [] 2) [.get, .get, .get]).owned = [2, 2, 1] ∧
    ¬ Exclusive (run step (init [] 2) [.get, .get]) .get := by
  refine ⟨by decide, by decide, fun h => h 2 (by decide) (by decide)⟩

end CoroutinePool

end TinyRpc.Common
