/-
Switching between coroutines (common/coroutine/coroutine.cc): setCallBack, GetCurrentCoroutine, IsMainCoroutine, Resume
and Yield on one thread.

The main coroutine is made on two paths: the constructor of a coroutine sets t_main_coroutine only, GetCurrentCoroutine
sets it and t_cur_coroutine. coctx_swap saves the point control is at in one context and goes on at the point saved in
another. The context of a new coroutine is not initialised: setCallBack points it at CoFunction, which runs the callback
and yields when that has returned; to go on behind this Yield is to return from CoFunction to nowhere. `none` is the
undefined behaviour of taking the context of a null coroutine.

Main result `switching_iff`: in every state of a run, IsMainCoroutine and Resume tell the thread's own stack from a
coroutine, control is in the coroutine that was resumed and Yield returns to the Resume that entered, if and only if every
coroutine is constructed after the first GetCurrentCoroutine and every coroutine that is resumed has its callback set.
-/
import Mathlib.Tactic
import TinyRpc.Core.Machine
import TinyRpc.Common.CoroutinePool

namespace TinyRpc.Common.CoroutineSwitch

open TinyRpc.Core Function

/-- where control is, or goes on when a context is restored -/
inductive Point
  /-- on the thread's own stack, back from that Resume -/
  | thread (resume : Option ℕ)
  /-- at the head of CoFunction(co) -/
  | start (co : ℕ)
  /-- in the callback of a coroutine -/
  | coroutine (co : ℕ)
  /-- behind the last Yield of CoFunction -/
  | ended
  /-- a context that was never written -/
  | null
deriving DecidableEq, Repr

structure St where
  thread : Thread
  /-- of each coroutine -/
  m_coctx : ℕ → Point
  m_is_in_cofunc : ℕ → Bool
  control : Point
  /-- the number of Resumes that have switched; the last of them has this number -/
  resumes : ℕ
  /-- the coroutines a caller has a pointer to -/
  known : List ℕ

def isMainCoroutine (t : Thread) : Bool := t.t_main_coroutine.isNone || decide (t.t_cur_coroutine = t.t_main_coroutine)

namespace St

/-- control goes on at a point; CoFunction goes into the callback -/
def goOn (s : St) : Point → St
  | .start co => { s with control := .coroutine co, m_is_in_cofunc := update s.m_is_in_cofunc co true }
  | p => { s with control := p }

/-- coctx_swap, called at `here` -/
def swap (s : St) (here : Point) (cur pending : ℕ) : St :=
  let m_coctx := update s.m_coctx cur here
  { s with m_coctx := m_coctx }.goOn (m_coctx pending)

def resume (s : St) (co : Option ℕ) : St :=
  if s.thread.t_cur_coroutine ≠ s.thread.t_main_coroutine then s
  else match s.thread.t_main_coroutine, co with
    | none, _ => s
    | some _, none => s
    | some m, some co =>
      { s with thread := { s.thread with t_cur_coroutine := some co }, resumes := s.resumes + 1 }.swap
        (.thread (some (s.resumes + 1))) m co

def yield (s : St) : Option St :=
  match s.thread.t_main_coroutine with
  | none => some s
  | some m =>
    if s.thread.t_cur_coroutine = some m then some s
    else match s.thread.t_cur_coroutine with
      | none => none
      | some co => some ({ s with thread := { s.thread with t_cur_coroutine := some m } }.swap s.control co m)

def setCallBack (s : St) (co : ℕ) : St :=
  if s.thread.t_main_coroutine = some co ∨ s.m_is_in_cofunc co = true then s
  else { s with m_coctx := update s.m_coctx co (.start co) }

/-- the end of CoFunction -/
def callBackReturns (s : St) : Option St :=
  match s.control with
  | .coroutine co => { s with control := .ended, m_is_in_cofunc := update s.m_is_in_cofunc co false }.yield
  | _ => some s

/-- new coroutines `ids`, made by the constructor without a callback -/
def construct (s : St) (t : Thread) (ids : List ℕ) : St :=
  { s with
    thread := t, known := ids ++ s.known
    m_coctx := fun i => if i ∈ ids then .null else s.m_coctx i
    m_is_in_cofunc := fun i => if i ∈ ids then false else s.m_is_in_cofunc i }

end St

inductive Op
  /-- the constructor of a coroutine, with a callback or without -/
  | coroutine (callBack : Bool)
  | coroutinePool (pool_size : ℕ)
  /-- of a coroutine the caller has a pointer to -/
  | setCallBack (co : ℕ)
  | getCurrentCoroutine
  | isMainCoroutine
  /-- Resume of null, or of a coroutine the caller has a pointer to -/
  | resume (co : Option ℕ)
  | yield
  /-- the callback that control is in returns -/
  | callBackReturns
deriving DecidableEq, Repr

/-- a thread on which nothing was called yet -/
def init : St := ⟨Thread.fresh, fun _ => .null, fun _ => false, .thread none, 0, []⟩

def apply (s : St) : Op → Option St
  | .coroutine callBack =>
    let (co, t) := s.thread.coroutine
    let s := s.construct t [co]
    some (if callBack then s.setCallBack co else s)
  | .coroutinePool pool_size =>
    let (t, p) := CoroutinePool.make s.thread pool_size
    some (s.construct t (p.m_free_cors.filterMap Prod.fst))
  | .setCallBack co => if co ∈ s.known then some (s.setCallBack co) else some s
  | .getCurrentCoroutine =>
    let (co, t) := s.thread.getCurrentCoroutine
    some { s with thread := t, known := co :: s.known }
  | .isMainCoroutine => some s
  | .resume co => if ∀ c ∈ co, c ∈ s.known then some (s.resume co) else some s
  | .yield => s.yield
  | .callBackReturns => s.callBackReturns

def step (s : Option St) (o : Op) : Option St := s.bind fun s => apply s o

/-- the callback of `co` is set: it runs, or is to begin -/
def Ready (s : St) (co : ℕ) : Prop := s.m_is_in_cofunc co = true ∨ s.m_coctx co = .start co

/-- IsMainCoroutine, Resume and Yield do what they should in this state -/
structure Good (s : St) : Prop where
  /-- on the thread's own stack -/
  main : ∀ k, s.control = .thread k → isMainCoroutine s.thread = true ∧ ∀ co ∈ s.known,
    (s.resume (some co)).thread.t_cur_coroutine = some co ∧
      (s.thread.t_main_coroutine ≠ some co → Ready s co → (s.resume (some co)).control = .coroutine co)
  /-- control is in the coroutine that was resumed last and has not yielded -/
  transferred : ∀ co, s.thread.t_cur_coroutine = some co → s.thread.t_main_coroutine ≠ some co → s.control = .coroutine co
  /-- in a coroutine, Yield goes back to the Resume that switched last -/
  inside : ∀ co, s.control = .coroutine co → isMainCoroutine s.thread = false ∧
    ∃ t, s.yield = some t ∧ t.control = .thread (some s.resumes)
  /-- there is no switch from a null coroutine, and none to a context that was never written, or behind CoFunction -/
  defined : s.yield ≠ none ∧ s.control ≠ .null ∧ s.control ≠ .ended

def WellFormed (s : Option St) : Prop := ∃ t ∈ s, Good t

/-- Coroutines are constructed when t_cur_coroutine is set, that is, after the first GetCurrentCoroutine; where a Resume
switches to another coroutine, that one has its callback set. -/
def Prepared (s : St) : Op → Prop
  | .coroutine _ => s.thread.t_cur_coroutine ≠ none
  | .coroutinePool pool_size => 1 ≤ pool_size → s.thread.t_cur_coroutine ≠ none
  | .resume co => ∀ c ∈ co, c ∈ s.known → s.thread.t_cur_coroutine = s.thread.t_main_coroutine →
      s.thread.t_main_coroutine ≠ some c → Ready s c
  | .setCallBack _ | .getCurrentCoroutine | .isMainCoroutine | .yield | .callBackReturns => True

def InOrder (s : Option St) (o : Op) : Prop := ∀ t ∈ s, Prepared t o

/-! ## The thread locals -/

/-- construction after the main coroutine exists: nothing changes but the ids, which are new -/
structure Extends (t t' : Thread) (ids : List ℕ) : Prop where
  main : t'.t_main_coroutine = t.t_main_coroutine
  cur : t'.t_cur_coroutine = t.t_cur_coroutine
  count : t.t_cur_coroutine_id ≤ t'.t_cur_coroutine_id
  new : ∀ c ∈ ids, t.t_cur_coroutine_id ≤ c ∧ c < t'.t_cur_coroutine_id

variable {t t' : Thread} {m : ℕ}

theorem coroutine_extends (h : t.t_main_coroutine = some m) : Extends t t.coroutine.2 [t.coroutine.1] := by
  have heq : t.coroutine = t.nextId := by simp only [Thread.coroutine, h]
  rw [heq]
  exact ⟨rfl, rfl, Nat.le_succ _, by simp [Thread.nextId]⟩

/-- the constructor sets t_main_coroutine, never t_cur_coroutine -/
theorem coroutine_main (t : Thread) :
    t.coroutine.2.t_main_coroutine ≠ none ∧ t.coroutine.2.t_cur_coroutine = t.t_cur_coroutine := by
  unfold Thread.coroutine Thread.nextId
  cases t.t_main_coroutine <;> simp

theorem mem_filterMap_set {slots : List Slot} {i a c : ℕ} (h : c ∈ (slots.set i (some a, false)).filterMap Prod.fst) :
    c = a ∨ c ∈ slots.filterMap Prod.fst := by
  obtain ⟨x, hx, hc⟩ := List.mem_filterMap.1 h
  rcases List.mem_or_eq_of_mem_set hx with hx | hx
  · exact Or.inr (List.mem_filterMap.2 ⟨x, hx, hc⟩)
  · rw [hx] at hc
    exact Or.inl (Option.some.inj hc).symm

/-- the loop of the pool's constructor -/
theorem fillSlots_extends (is : List ℕ) {x : Thread × List Slot} (hm : x.1.t_main_coroutine = some m)
    (hx : Extends t x.1 (x.2.filterMap Prod.fst)) :
    Extends t (is.foldl CoroutinePool.fillSlot x).1 ((is.foldl CoroutinePool.fillSlot x).2.filterMap Prod.fst) := by
  induction is generalizing x with
  | nil => exact hx
  | cons i is ih =>
    have hstep := coroutine_extends hm
    refine ih (hstep.main.trans hm) ⟨hstep.main.trans hx.main, hstep.cur.trans hx.cur, hx.count.trans hstep.count, ?_⟩
    intro c hc
    rcases mem_filterMap_set hc with rfl | hc
    · exact (hstep.new _ (List.mem_singleton_self _)).imp_left hx.count.trans
    · exact (hx.new c hc).imp_right fun hlt => hlt.trans_le hstep.count

theorem pool_extends (h : t.t_main_coroutine = some m) (pool_size : ℕ) :
    Extends t (CoroutinePool.make t pool_size).1
      ((CoroutinePool.make t pool_size).2.m_free_cors.filterMap Prod.fst) := by
  refine fillSlots_extends _ h ⟨rfl, rfl, le_rfl, ?_⟩
  intro c hc
  obtain ⟨x, hx, hxc⟩ := List.mem_filterMap.1 hc
  rw [List.eq_of_mem_replicate hx] at hxc
  exact absurd hxc (by simp)

/-- a pool of at least one coroutine sets t_main_coroutine, too -/
theorem pool_main (t : Thread) {pool_size : ℕ} (h : 1 ≤ pool_size) :
    (CoroutinePool.make t pool_size).1.t_main_coroutine ≠ none ∧
      (CoroutinePool.make t pool_size).1.t_cur_coroutine = t.t_cur_coroutine := by
  have hloop : ∀ (is : List ℕ) (x : Thread × List Slot), x.1.t_main_coroutine ≠ none →
      (is.foldl CoroutinePool.fillSlot x).1.t_main_coroutine ≠ none ∧
        (is.foldl CoroutinePool.fillSlot x).1.t_cur_coroutine = x.1.t_cur_coroutine := by
    intro is
    induction is with
    | nil => exact fun x hx => ⟨hx, rfl⟩
    | cons i is ih =>
      intro x _
      obtain ⟨h1, h2⟩ := coroutine_main x.1
      obtain ⟨h3, h4⟩ := ih (CoroutinePool.fillSlot x i) h1
      exact ⟨h3, h4.trans h2⟩
  obtain ⟨n, rfl⟩ := Nat.exists_eq_add_of_le' h
  obtain ⟨h1, h2⟩ := coroutine_main t
  unfold CoroutinePool.make
  dsimp only
  rw [List.range'_succ, List.foldl_cons]
  obtain ⟨h3, h4⟩ := hloop _ (CoroutinePool.fillSlot (t, _) _) h1
  exact ⟨h3, h4.trans h2⟩

/-- a pool of size 0 constructs nothing -/
theorem pool_zero (s : St) : apply s (.coroutinePool 0) = some s := by
  have hids : (CoroutinePool.make s.thread 0).2.m_free_cors.filterMap Prod.fst = [] := by
    refine List.filterMap_eq_nil_iff.2 ?_
    intro x hx
    rw [List.eq_of_mem_replicate hx]
  calc apply s (.coroutinePool 0)
      = some (s.construct s.thread ((CoroutinePool.make s.thread 0).2.m_free_cors.filterMap Prod.fst)) := rfl
    _ = some (s.construct s.thread []) := by rw [hids]
    _ = some s := by simp [St.construct]

/-! ## The states between the calls -/

inductive Mode (s : St) : Prop
  /-- nothing was called that makes the main coroutine -/
  | untouched (k : Option ℕ) (main : s.thread.t_main_coroutine = none) (cur : s.thread.t_cur_coroutine = none)
      (known : s.known = []) (control : s.control = .thread k)
  | onThread (m : ℕ) (k : Option ℕ) (main : s.thread.t_main_coroutine = some m)
      (cur : s.thread.t_cur_coroutine = some m) (control : s.control = .thread k)
  | inCoroutine (m co : ℕ) (main : s.thread.t_main_coroutine = some m) (cur : s.thread.t_cur_coroutine = some co)
      (other : co ≠ m) (known : co ∈ s.known) (control : s.control = .coroutine co)
      (running : s.m_is_in_cofunc co = true) (back : s.m_coctx m = .thread (some s.resumes))

/-- where a coroutine other than the main one goes on -/
inductive Context (s : St) (co : ℕ) : Prop
  | entered (running : s.m_is_in_cofunc co = true) (control : s.control = .coroutine co ∨ s.m_coctx co = .coroutine co)
  | set (out : s.m_is_in_cofunc co = false) (start : s.m_coctx co = .start co)
  | unset (out : s.m_is_in_cofunc co = false) (nowhere : s.m_coctx co = .null ∨ s.m_coctx co = .ended)

structure Inv (s : St) : Prop where
  mode : Mode s
  contexts : ∀ co ∈ s.known, s.thread.t_main_coroutine ≠ some co → Context s co
  main_lt : ∀ m ∈ s.thread.t_main_coroutine, m < s.thread.t_cur_coroutine_id
  known_lt : ∀ co ∈ s.known, co < s.thread.t_cur_coroutine_id

variable {s : St} {co : ℕ}

/-- a coroutine's context depends on its own fields, and on control only if that is in it -/
theorem Context.congr {u : St} (h : Context s co) (hctx : u.m_coctx co = s.m_coctx co)
    (hin : u.m_is_in_cofunc co = s.m_is_in_cofunc co) (hcontrol : s.control = .coroutine co → u.control = .coroutine co) :
    Context u co := by
  cases h with
  | entered running control => exact .entered (hin.trans running) (control.imp hcontrol hctx.trans)
  | set out start => exact .set (hin.trans out) (hctx.trans start)
  | unset out nowhere => exact .unset (hin.trans out) (nowhere.imp hctx.trans hctx.trans)

/-! ## Resume and Yield -/

theorem resume_of_onThread (hm : s.thread.t_main_coroutine = some m) (hc : s.thread.t_cur_coroutine = some m) (co : ℕ) :
    s.resume (some co) = { s with thread := { s.thread with t_cur_coroutine := some co }, resumes := s.resumes + 1 }.swap
      (.thread (some (s.resumes + 1))) m co := by
  simp [St.resume, hm, hc]

@[simp] theorem goOn_thread (s : St) (p : Point) : (s.goOn p).thread = s.thread := by cases p <;> rfl

@[simp] theorem swap_thread (s : St) (here : Point) (cur pending : ℕ) : (s.swap here cur pending).thread = s.thread :=
  goOn_thread ..

/-- Resume of a coroutine whose callback is set -/
theorem resume_ready (hm : s.thread.t_main_coroutine = some m) (hc : s.thread.t_cur_coroutine = some m) (hne : co ≠ m)
    (hctx : Context s co) (hout : s.control ≠ .coroutine co) (hready : Ready s co) :
    s.resume (some co) = { s with
      thread := { s.thread with t_cur_coroutine := some co }, resumes := s.resumes + 1
      m_coctx := update s.m_coctx m (.thread (some (s.resumes + 1)))
      control := .coroutine co, m_is_in_cofunc := update s.m_is_in_cofunc co true } := by
  rw [resume_of_onThread hm hc]
  cases hctx with
  | entered running control =>
    have hself : update s.m_is_in_cofunc co true = s.m_is_in_cofunc := by rw [← running, update_eq_self]
    simp [St.swap, St.goOn, hne, control.resolve_left hout, hself]
  | set out start => simp [St.swap, St.goOn, hne, start]
  | unset out nowhere =>
    rcases hready with hready | hready
    · exact absurd (out.symm.trans hready) Bool.false_ne_true
    · rcases nowhere with h | h <;> exact Point.noConfusion (h.symm.trans hready)

/-- and of one whose callback is not set -/
theorem resume_unset (hm : s.thread.t_main_coroutine = some m) (hc : s.thread.t_cur_coroutine = some m) (hne : co ≠ m)
    (hctx : Context s co) (hready : ¬ Ready s co) :
    (s.resume (some co)).control = .null ∨ (s.resume (some co)).control = .ended := by
  rw [resume_of_onThread hm hc]
  cases hctx with
  | entered running control => exact absurd (Or.inl running) hready
  | set out start => exact absurd (Or.inr start) hready
  | unset out nowhere => rcases nowhere with h | h <;> simp [St.swap, St.goOn, hne, h]

theorem yield_of_inCoroutine (hm : s.thread.t_main_coroutine = some m) (hc : s.thread.t_cur_coroutine = some co)
    (hne : co ≠ m) {k : Option ℕ} (hback : s.m_coctx m = .thread k) :
    s.yield = some { s with
      thread := { s.thread with t_cur_coroutine := some m }, m_coctx := update s.m_coctx co s.control
      control := .thread k } := by
  simp [St.yield, St.swap, St.goOn, hm, hc, hne, hne.symm, hback]

theorem yield_of_onThread (hm : s.thread.t_main_coroutine = some m) (hc : s.thread.t_cur_coroutine = some m) :
    s.yield = some s := by
  simp [St.yield, hm, hc]

/-! ## The invariant -/

theorem Inv.good (h : Inv s) : Good s := by
  cases h.mode with
  | untouched k main cur known control =>
    have hyield : s.yield = some s := by simp [St.yield, main]
    refine ⟨?_, ?_, ?_, ?_⟩
    · intro _ _
      refine ⟨by simp [isMainCoroutine, main], ?_⟩
      intro co hco
      exact absurd (known ▸ hco) List.not_mem_nil
    · intro co hco
      exact absurd (cur.symm.trans hco) (Option.some_ne_none co).symm
    · intro co hco
      exact Point.noConfusion (control.symm.trans hco)
    · rw [hyield, control]
      exact ⟨Option.some_ne_none s, Point.noConfusion, Point.noConfusion⟩
  | onThread m k main cur control =>
    have hyield := yield_of_onThread main cur
    refine ⟨?_, ?_, ?_, ?_⟩
    · intro _ _
      refine ⟨by simp [isMainCoroutine, main, cur], ?_⟩
      intro co hco
      refine ⟨by rw [resume_of_onThread main cur, swap_thread], ?_⟩
      intro hne hready
      have hne' : co ≠ m := by
        intro he
        exact hne (he ▸ main)
      rw [resume_ready main cur hne' (h.contexts co hco hne) (by simp [control]) hready]
    · intro co hco hne
      exact absurd (main.trans (cur.symm.trans hco)) hne
    · intro co hco
      exact Point.noConfusion (control.symm.trans hco)
    · rw [hyield, control]
      exact ⟨Option.some_ne_none s, Point.noConfusion, Point.noConfusion⟩
  | inCoroutine m co main cur other known control running back =>
    have hyield := yield_of_inCoroutine main cur other back
    refine ⟨?_, ?_, ?_, ?_⟩
    · intro k hk
      exact Point.noConfusion (control.symm.trans hk)
    · intro c hc _
      rw [control, Option.some.inj (cur.symm.trans hc)]
    · intro _ _
      exact ⟨by simp [isMainCoroutine, main, cur, other], _, hyield, rfl⟩
    · rw [hyield, control]
      exact ⟨Option.some_ne_none _, Point.noConfusion, Point.noConfusion⟩

theorem Inv.construct (h : Inv s) (hcur : s.thread.t_cur_coroutine ≠ none) {ids : List ℕ} (ht : Extends s.thread t ids) :
    Inv (s.construct t ids) := by
  have hold : ∀ c, c < s.thread.t_cur_coroutine_id → c ∉ ids := fun c hc hmem => absurd (ht.new c hmem).1 (not_le.2 hc)
  refine ⟨?_, ?_, ?_, ?_⟩
  · cases h.mode with
    | untouched k main cur known control => exact absurd cur hcur
    | onThread m k main cur control =>
      exact .onThread m k (ht.main.trans main) (ht.cur.trans cur) control
    | inCoroutine m co main cur other known control running back =>
      have hm := hold m (h.main_lt m main)
      have hco := hold co (h.known_lt co known)
      refine .inCoroutine m co (ht.main.trans main) (ht.cur.trans cur) other (List.mem_append_right _ known) control ?_ ?_
      · simpa [St.construct, hco] using running
      · simpa [St.construct, hm] using back
  · intro co hco hne
    by_cases hnew : co ∈ ids
    · exact .unset (by simp [St.construct, hnew]) (Or.inl (by simp [St.construct, hnew]))
    · have hknown : co ∈ s.known := (List.mem_append.1 hco).resolve_left hnew
      refine (h.contexts co hknown (ht.main ▸ hne)).congr ?_ ?_ id <;> simp [St.construct, hnew]
  · intro m hm
    exact (h.main_lt m (ht.main ▸ hm)).trans_le ht.count
  · intro co hco
    rcases List.mem_append.1 hco with hco | hco
    · exact (ht.new co hco).2
    · exact (h.known_lt co hco).trans_le ht.count

/-- setCallBack writes the context of a coroutine that is neither the main one nor in its callback -/
theorem Inv.setCallBack (h : Inv s) (co : ℕ) : Inv (s.setCallBack co) := by
  unfold St.setCallBack
  split_ifs with hrefused
  · exact h
  · obtain ⟨hmain, hout⟩ := not_or.1 hrefused
    have hout : s.m_is_in_cofunc co = false := Bool.eq_false_iff.2 hout
    refine ⟨?_, ?_, h.main_lt, h.known_lt⟩
    · cases h.mode with
      | untouched k main cur known control => exact .untouched k main cur known control
      | onThread m k main cur control => exact .onThread m k main cur control
      | inCoroutine m c main cur other known control running back =>
        have hm : m ≠ co := fun he => hmain (he ▸ main)
        exact .inCoroutine m c main cur other known control running (by simpa [hm] using back)
    · intro c hc hne
      by_cases hcco : c = co
      · subst hcco
        exact .set hout (update_self ..)
      · exact (h.contexts c hc hne).congr (update_of_ne hcco _ _) rfl id

theorem Inv.getCurrentCoroutine (h : Inv s) :
    Inv { s with thread := s.thread.getCurrentCoroutine.2, known := s.thread.getCurrentCoroutine.1 :: s.known } := by
  cases h.mode with
  | untouched k main cur known control =>
    have hget : s.thread.getCurrentCoroutine = (s.thread.t_cur_coroutine_id,
        ⟨some s.thread.t_cur_coroutine_id, some s.thread.t_cur_coroutine_id, s.thread.t_cur_coroutine_id + 1⟩) := by
      simp [Thread.getCurrentCoroutine, cur, Thread.nextId]
    rw [hget]
    refine ⟨.onThread _ k rfl rfl control, ?_, ?_, ?_⟩
    · intro co hco hne
      rw [known, List.mem_singleton] at hco
      exact absurd (congrArg some hco.symm) hne
    · intro m hm
      cases Option.mem_some.1 hm
      exact Nat.lt_succ_self _
    · intro co hco
      rw [known, List.mem_singleton] at hco
      rw [hco]
      exact Nat.lt_succ_self _
  | onThread m k main cur control =>
    have hget : s.thread.getCurrentCoroutine = (m, s.thread) := by simp [Thread.getCurrentCoroutine, cur]
    rw [hget]
    refine ⟨.onThread m k main cur control, ?_, h.main_lt, List.forall_mem_cons.2 ⟨h.main_lt m main, h.known_lt⟩⟩
    intro co hco hne
    rcases List.mem_cons.1 hco with rfl | hco
    · exact absurd main hne
    · exact (h.contexts co hco hne).congr rfl rfl id
  | inCoroutine m c main cur other known control running back =>
    have hget : s.thread.getCurrentCoroutine = (c, s.thread) := by simp [Thread.getCurrentCoroutine, cur]
    rw [hget]
    refine ⟨.inCoroutine m c main cur other (List.mem_cons_of_mem _ known) control running back, ?_, h.main_lt,
      List.forall_mem_cons.2 ⟨h.known_lt c known, h.known_lt⟩⟩
    intro co hco hne
    rcases List.mem_cons.1 hco with rfl | hco
    · exact (h.contexts co known hne).congr rfl rfl id
    · exact (h.contexts co hco hne).congr rfl rfl id

theorem Inv.resume (h : Inv s) {co : Option ℕ} (hco : ∀ c ∈ co, c ∈ s.known) (hprepared : Prepared s (.resume co)) :
    Inv (s.resume co) := by
  cases co with
  | none =>
    have hsame : s.resume none = s := by
      unfold St.resume
      split_ifs
      · rfl
      · cases s.thread.t_main_coroutine <;> rfl
    rw [hsame]
    exact h
  | some c =>
    have hc : c ∈ s.known := hco c rfl
    cases h.mode with
    | untouched k main cur known control => exact absurd (known ▸ hc) List.not_mem_nil
    | onThread m k main cur control =>
      have hout : ∀ i, s.control ≠ .coroutine i := fun i hi => Point.noConfusion (control.symm.trans hi)
      by_cases hcm : c = m
      · -- the main coroutine itself: it goes on where it is
        subst hcm
        have hself : s.resume (some c) = { s with
            thread := { s.thread with t_cur_coroutine := some c }, resumes := s.resumes + 1
            m_coctx := update s.m_coctx c (.thread (some (s.resumes + 1))), control := .thread (some (s.resumes + 1)) } := by
          rw [resume_of_onThread main cur]
          simp [St.swap, St.goOn]
        rw [hself]
        refine ⟨.onThread c _ main rfl rfl, ?_, h.main_lt, h.known_lt⟩
        intro i hi hne
        have hic : i ≠ c := fun he => hne (he ▸ main)
        exact (h.contexts i hi hne).congr (update_of_ne hic _ _) rfl fun hcontrol => absurd hcontrol (hout i)
      · have hne : s.thread.t_main_coroutine ≠ some c := fun he => hcm (Option.some.inj (main.symm.trans he)).symm
        rw [resume_ready main cur hcm (h.contexts c hc hne) (hout c) (hprepared c rfl hc (cur.trans main.symm) hne)]
        refine ⟨.inCoroutine m c main rfl hcm hc rfl (update_self ..) (update_self ..), ?_, h.main_lt, h.known_lt⟩
        intro i hi hne'
        by_cases hic : i = c
        · subst hic
          exact .entered (update_self ..) (Or.inl rfl)
        · have him : i ≠ m := fun he => hne' (he ▸ main)
          exact (h.contexts i hi hne').congr (update_of_ne him _ _) (update_of_ne hic _ _)
            fun hcontrol => absurd hcontrol (hout i)
    | inCoroutine m c' main cur other known control running back =>
      have hsame : s.resume (some c) = s := by
        simp [St.resume, main, cur, other]
      rw [hsame]
      exact h

/-- leaving a coroutine, by Yield in its callback or at the end of CoFunction -/
theorem Inv.leave (h : Inv s) {m c : ℕ} (main : s.thread.t_main_coroutine = some m) (control : s.control = .coroutine c)
    {here : Point} {b : Bool} (hhere : b = true ∧ here = .coroutine c ∨ b = false ∧ here = .ended) (other : c ≠ m)
    (k : Option ℕ) :
    Inv { s with
      thread := { s.thread with t_cur_coroutine := some m }, m_coctx := update s.m_coctx c here
      m_is_in_cofunc := update s.m_is_in_cofunc c b, control := .thread k } := by
  refine ⟨.onThread m k main rfl rfl, ?_, h.main_lt, h.known_lt⟩
  intro i hi hne
  by_cases hic : i = c
  · subst hic
    rcases hhere with ⟨rfl, rfl⟩ | ⟨rfl, rfl⟩
    · exact .entered (update_self ..) (Or.inr (update_self ..))
    · exact .unset (update_self ..) (Or.inr (update_self ..))
  · refine (h.contexts i hi hne).congr (update_of_ne hic _ _) (update_of_ne hic _ _) ?_
    intro hcontrol
    exact absurd (Point.coroutine.inj (control.symm.trans hcontrol)).symm hic

theorem Inv.yield (h : Inv s) : ∃ t, s.yield = some t ∧ Inv t := by
  cases h.mode with
  | untouched k main cur known control => exact ⟨s, by simp [St.yield, main], h⟩
  | onThread m k main cur control => exact ⟨s, yield_of_onThread main cur, h⟩
  | inCoroutine m co main cur other known control running back =>
    refine ⟨_, yield_of_inCoroutine main cur other back, ?_⟩
    have hleave := h.leave main control (b := true) (Or.inl ⟨rfl, control⟩) other (some s.resumes)
    rwa [show update s.m_is_in_cofunc co true = s.m_is_in_cofunc by rw [← running, update_eq_self]] at hleave

theorem Inv.callBackReturns (h : Inv s) : ∃ t, s.callBackReturns = some t ∧ Inv t := by
  unfold St.callBackReturns
  cases h.mode with
  | untouched k main cur known control | onThread m k main cur control =>
    rw [control]
    exact ⟨s, rfl, h⟩
  | inCoroutine m co main cur other known control running back =>
    rw [control]
    exact ⟨_, yield_of_inCoroutine (s := { s with control := .ended, m_is_in_cofunc := update s.m_is_in_cofunc co false })
      main cur other back, h.leave main control (Or.inr ⟨rfl, rfl⟩) other _⟩

/-! ## One operation -/

/-- with t_main_coroutine set and t_cur_coroutine not, IsMainCoroutine is false on the thread's own stack -/
theorem not_good {k : Option ℕ} (hk : s.control = .thread k) (hm : s.thread.t_main_coroutine ≠ none)
    (hc : s.thread.t_cur_coroutine = none) : ¬ Good s := by
  intro hgood
  have hmain := (hgood.main k hk).1
  have hor : s.thread.t_main_coroutine = none ∨ none = s.thread.t_main_coroutine := by
    simpa [isMainCoroutine, hc] using hmain
  rcases hor with hor | hor
  · exact hm hor
  · exact hm hor.symm

/-- without t_cur_coroutine there is no main coroutine, and control is on the thread's own stack -/
theorem Inv.on_thread_of_null (h : Inv s) (hc : s.thread.t_cur_coroutine = none) : ∃ k, s.control = .thread k := by
  cases h.mode with
  | untouched k main cur known control => exact ⟨k, control⟩
  | onThread m k main cur control => exact ⟨k, control⟩
  | inCoroutine m co main cur other known control running back =>
    exact absurd (cur.symm.trans hc) (Option.some_ne_none co)

theorem Inv.main_of_cur (h : Inv s) (hc : s.thread.t_cur_coroutine ≠ none) : ∃ m, s.thread.t_main_coroutine = some m := by
  cases h.mode with
  | untouched k main cur known control => exact absurd cur hc
  | onThread m k main cur control => exact ⟨m, main⟩
  | inCoroutine m co main cur other known control running back => exact ⟨m, main⟩

theorem apply_inv (h : Inv s) {o : Op} (ho : Prepared s o) : ∃ t, apply s o = some t ∧ Inv t := by
  cases o with
  | coroutine callBack =>
    obtain ⟨m, hm⟩ := h.main_of_cur ho
    have hnew := h.construct ho (coroutine_extends hm)
    refine ⟨_, rfl, ?_⟩
    split_ifs
    · exact hnew.setCallBack _
    · exact hnew
  | coroutinePool pool_size =>
    cases pool_size with
    | zero => exact ⟨s, pool_zero s, h⟩
    | succ n =>
      have hcur := ho (Nat.succ_pos n)
      obtain ⟨m, hm⟩ := h.main_of_cur hcur
      exact ⟨_, rfl, h.construct hcur (pool_extends hm (n + 1))⟩
  | setCallBack co =>
    by_cases hco : co ∈ s.known
    · exact ⟨s.setCallBack co, by simp only [apply, if_pos hco], h.setCallBack co⟩
    · exact ⟨s, by simp only [apply, if_neg hco], h⟩
  | getCurrentCoroutine => exact ⟨_, rfl, h.getCurrentCoroutine⟩
  | isMainCoroutine => exact ⟨s, rfl, h⟩
  | resume co =>
    by_cases hco : ∀ c ∈ co, c ∈ s.known
    · exact ⟨s.resume co, by simp only [apply, if_pos hco], h.resume hco ho⟩
    · exact ⟨s, by simp only [apply, if_neg hco], h⟩
  | yield => exact h.yield
  | callBackReturns => exact h.callBackReturns

/-- A coroutine constructed before the first GetCurrentCoroutine breaks the thread, and so does a switch to one whose
callback is not set. -/
theorem prepared_of_good (h : Inv s) {o : Op} (hg : WellFormed (apply s o)) : Prepared s o := by
  obtain ⟨u, hu, hgood⟩ := hg
  rw [Option.mem_def] at hu
  cases o with
  | coroutine callBack =>
    intro hc
    obtain ⟨k, hk⟩ := h.on_thread_of_null hc
    obtain ⟨h1, h2⟩ := coroutine_main s.thread
    cases hu
    cases callBack with
    | false => exact not_good (s := s.construct _ _) hk h1 (h2.trans hc) hgood
    | true =>
      refine not_good (k := k) ?_ ?_ ?_ hgood <;> simp only [if_true, St.setCallBack]
      · split_ifs <;> exact hk
      · split_ifs <;> exact h1
      · split_ifs <;> exact h2.trans hc
  | coroutinePool pool_size =>
    intro hpos hc
    obtain ⟨k, hk⟩ := h.on_thread_of_null hc
    obtain ⟨h1, h2⟩ := pool_main s.thread hpos
    cases hu
    exact not_good (s := s.construct _ _) hk h1 (h2.trans hc) hgood
  | resume co =>
    intro c hc hknown hcur hne
    cases Option.mem_def.1 hc
    by_contra hready
    have hone : ∀ c' ∈ some c, c' ∈ s.known := by
      intro c' hc'
      rwa [← Option.mem_some.1 hc']
    simp only [apply, if_pos hone, Option.some.injEq] at hu
    obtain ⟨m, hm⟩ : ∃ m, s.thread.t_main_coroutine = some m := by
      cases h.mode with
      | untouched k main cur known control => exact absurd (known ▸ hknown) List.not_mem_nil
      | onThread m k main cur control => exact ⟨m, main⟩
      | inCoroutine m co main cur other known control running back => exact ⟨m, main⟩
    have hcm : c ≠ m := fun he => hne (he ▸ hm)
    have hcontrol := resume_unset hm (hcur.trans hm) hcm (h.contexts c hknown hne) hready
    rw [hu] at hcontrol
    exact hcontrol.elim hgood.defined.2.1 hgood.defined.2.2
  | setCallBack _ | getCurrentCoroutine | isMainCoroutine | yield | callBackReturns => trivial

/-! ## Whole runs -/

def Defined (s : Option St) : Prop := ∃ t, s = some t ∧ Inv t

theorem Defined.wellFormed {s : Option St} (h : Defined s) : WellFormed s := by
  obtain ⟨t, ht, hinv⟩ := h
  exact ⟨t, Option.mem_def.2 ht, hinv.good⟩

theorem step_wellFormed_iff {s : Option St} (h : Defined s) (o : Op) :
    (WellFormed (step s o) ↔ InOrder s o) ∧ (InOrder s o → Defined (step s o)) := by
  obtain ⟨t, rfl, hinv⟩ := h
  have hdef : InOrder (some t) o → Defined (step (some t) o) := fun ho => apply_inv hinv (ho t rfl)
  refine ⟨⟨?_, fun ho => (hdef ho).wellFormed⟩, hdef⟩
  intro hg u hu
  cases Option.mem_some.1 hu
  exact prepared_of_good hinv hg

theorem init_defined : Defined (some init) := by
  refine ⟨init, rfl, .untouched none rfl rfl rfl rfl, ?_, ?_, ?_⟩
  · intro co hco
    exact absurd hco List.not_mem_nil
  · intro m hm
    exact absurd hm (Option.not_mem_none m)
  · intro co hco
    exact absurd hco List.not_mem_nil

/-- **Coroutine switching.** On a fresh thread, for every sequence of calls and returns of callbacks: in every state, on the
thread's own stack IsMainCoroutine is true and Resume switches to any coroutine that has its callback set, in a coroutine
IsMainCoroutine is false and Yield returns to the Resume that entered it, and no switch is from or to a null coroutine or
to where nothing can go on, if and only if coroutines, alone or by a pool, are constructed only after the first
GetCurrentCoroutine, and every Resume that switches to a coroutine finds its callback set. -/
theorem switching_iff (ops : List Op) : Always step WellFormed (some init) ops ↔ Along step InOrder (some init) ops := by
  have hstep : ∀ s o, Defined s → True →
      (WellFormed (step s o) ↔ InOrder s o) ∧ (InOrder s o → Defined (step s o)) :=
    fun s o hs _ => step_wellFormed_iff hs o
  exact always_iff_of_inv hstep init_defined init_defined.wellFormed (along_of_mem fun _ _ _ => trivial)

/-- TcpServer::start: the pool is made first, then its coroutine is given its callback and resumed -/
def serverStart : List Op := [.coroutinePool 2, .setCallBack 1, .resume (some 1)]

/-- After the pool is made IsMainCoroutine is false on the thread's own stack, the Resume is refused, and a Yield would
take the context of a null coroutine. -/
theorem pool_first_refuses :
    (run step (some init) serverStart).map (fun s => (isMainCoroutine s.thread, s.thread.t_cur_coroutine, s.control)) =
      some (false, none, .thread none) ∧
    (run step (some init) serverStart).bind St.yield = none ∧
    ¬ Always step WellFormed (some init) serverStart := by
  have hrun : (run step (some init) serverStart).map
      (fun s => (isMainCoroutine s.thread, s.thread.t_cur_coroutine, s.control)) = some (false, none, .thread none) := by
    decide
  refine ⟨hrun, by decide, ?_⟩
  intro h
  obtain ⟨s, hs, hgood⟩ := h.last
  rw [Option.mem_def] at hs
  rw [hs, Option.map_some, Option.some.injEq, Prod.mk.injEq, Prod.mk.injEq] at hrun
  have hmain := (hgood.main none hrun.2.2).1
  exact Bool.noConfusion (hrun.1.symm.trans hmain)

/-- a pooled coroutine without a callback, and one whose callback has returned -/
example :
    (run step (some init) [.getCurrentCoroutine, .coroutinePool 2, .resume (some 1)]).map St.control = some .null ∧
      (run step (some init) [.getCurrentCoroutine, .coroutine true, .resume (some 1), .callBackReturns,
        .resume (some 1)]).map St.control = some .ended := by decide

end TinyRpc.Common.CoroutineSwitch
