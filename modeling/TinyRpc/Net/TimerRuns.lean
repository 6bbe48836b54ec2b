/-
Runs of one Timer and the reactor's task queue (net/timer.cc, net/reactor.cc).

A run makes event objects, adds and cancels them, calls `onTimer`, and lets the loop execute the tasks `onTimer` has put
into the queue. Every reading of the clock is an input. The task of event `e` is `e` itself. The history keeps every
insertion into the multimap, the re-insertions of repeated events included, and every task handed over.

Main results:
- `handed_well`: when owners add each event once, a task is handed over no earlier than the time its event was last
  inserted under, at most once per insertion, not after a cancellation, and in arrival order.
- `cancellation_final_iff`: no task of a cancelled event is executed, in a run and while the queue is worked off behind
  it, exactly when no event is cancelled while its task is in the queue.
-/
import Mathlib.Tactic
import TinyRpc.Core.Machine
import TinyRpc.Net.Timer

namespace TinyRpc.Net.TimerRuns

open TinyRpc.Core List

structure St where
  timer : Timer ℕ
  /-- the number of event objects made so far -/
  made : ℕ
  /-- the last reading of the clock -/
  now : ℤ
  /-- pending_tasks_: handed over and not yet executed -/
  queue : List ℕ
  /-- every insertion so far, newest first -/
  inserted : List Entry
  /-- every task handed over so far -/
  handed : List ℕ

inductive Op
  /-- the constructor of TimerEvent -/
  | make (interval : ℤ) (is_repeated : Bool) (now : ℤ)
  | addTimerEvent (e : ℕ) (need_reset : Bool) (now : ℤ)
  | delTimerEvent (e : ℕ)
  /-- the timerfd is read at `read`, the scan reads the clock at `now`, what follows at `clock 0`, `clock 1`, ... -/
  | onTimer (read now : ℤ) (clock : ℕ → ℤ)
  /-- the loop executes the next task -/
  | exec

def init : St := ⟨⟨Pending.empty, fun e => ⟨0, 0, false, false, e⟩, none⟩, 0, 0, [], [], []⟩

/-- the read of the timerfd in `onTimer`: an expiry is consumed, and the timerfd fires once -/
def readFd (t : Timer ℕ) (time : ℤ) : Timer ℕ :=
  match t.armed with
  | some expiry => if expiry ≤ time then { t with armed := none } else t
  | none => t

/-- the entries `onTimer` puts back for the repeated events it hands over -/
def reinserted (t : Timer ℕ) (now : ℤ) (clock : ℕ → ℤ) : List Entry :=
  Timer.rearmed t.event clock 0 ((t.scan now).map Prod.snd)

/-- an operation on an event that does not exist changes nothing -/
def step (s : St) : Op → St
  | .make interval is_repeated now =>
    { s with
      timer := { s.timer with event := Function.update s.timer.event s.made (TimerEvent.make now interval is_repeated s.made) }
      made := s.made + 1, now := now }
  | .addTimerEvent e need_reset now =>
    if e < s.made then
      { s with
        timer := s.timer.addTimerEvent e need_reset now, now := now
        inserted := ((s.timer.event e).m_arrive_time, e) :: s.inserted }
    else s
  | .delTimerEvent e => if e < s.made then { s with timer := s.timer.delTimerEvent e } else s
  | .onTimer read now clock =>
    let (timer, tasks) := (readFd s.timer read).onTimer now clock
    { s with
      timer := timer, now := clock (reinserted s.timer now clock).length
      queue := s.queue ++ tasks, handed := s.handed ++ tasks
      inserted := (reinserted s.timer now clock).reverse ++ s.inserted }
  | .exec => { s with queue := s.queue.tail }

/-- delTimerEvent(e) has returned -/
def Cancelled (s : St) (e : ℕ) : Prop := (s.timer.event e).m_is_cancled = true

instance (s : St) (e : ℕ) : Decidable (Cancelled s e) := inferInstanceAs (Decidable (_ = true))

variable {s : St}

theorem readFd_eq (t : Timer ℕ) (time : ℤ) :
    (readFd t time).m_pending_events = t.m_pending_events ∧ (readFd t time).event = t.event := by
  unfold readFd
  split
  · split_ifs <;> exact ⟨rfl, rfl⟩
  · exact ⟨rfl, rfl⟩

/-- what the scan takes does not depend on the timerfd -/
theorem readFd_scan (t : Timer ℕ) (time now : ℤ) :
    (readFd t time).scan now = t.scan now ∧ (readFd t time).rest now = t.rest now := by
  obtain ⟨h1, h2⟩ := readFd_eq t time
  unfold Timer.scan Timer.rest Timer.Fires
  rw [h1, h2]
  exact ⟨rfl, rfl⟩

/-! ## What is handed over -/

/-- the tasks the operation hands to the reactor -/
def handedBy (s : St) : Op → List ℕ
  | .onTimer read now clock => ((readFd s.timer read).onTimer now clock).2
  | _ => []

/-- the arrival time under which `e` was last inserted -/
def lastInsert (inserted : List Entry) (e : ℕ) : Option ℤ := (inserted.find? fun x => decide (x.2 = e)).map Prod.fst

/-- an owner adds an event object that was not added before -/
def AddedOnce (s : St) : Op → Prop
  | .addTimerEvent e _ _ => e ∉ s.inserted.map Prod.snd
  | _ => True

instance (s : St) : (o : Op) → Decidable (AddedOnce s o)
  | .addTimerEvent e _ _ => inferInstanceAs (Decidable (e ∉ _))
  | .make _ _ _ | .delTimerEvent _ | .onTimer _ _ _ | .exec => inferInstanceAs (Decidable True)

/-- `e` is handed over by a scan that reads the clock no earlier than the time `e` was last inserted under -/
def NotEarly (s : St) (e : ℕ) : Op → Prop
  | .onTimer _ now _ => ∃ a, lastInsert s.inserted e = some a ∧ a ≤ now
  | _ => False

structure HandedWell (s : St) (o : Op) : Prop where
  not_early : ∀ e ∈ handedBy s o, NotEarly s e o
  not_cancelled : ∀ e ∈ handedBy s o, ¬ Cancelled s e
  /-- a one-shot event is handed over once in the whole run -/
  one_shot : ∀ e, (s.timer.event e).m_is_repeated = false → (step s o).handed.count e ≤ 1
  /-- and any event at most once per insertion made before -/
  per_insertion : ∀ e, (step s o).handed.count e ≤ (s.inserted.map Prod.snd).count e
  in_order : (handedBy s o).Pairwise fun e f =>
    ∀ a ∈ lastInsert s.inserted e, ∀ b ∈ lastInsert s.inserted f, a ≤ b

/-- every insertion is either pending or was handed over, and an event is pending at most once, under its last arrival
time -/
structure Inv (s : St) : Prop where
  filed : ∀ x ∈ s.timer.m_pending_events.entries, lastInsert s.inserted x.2 = some x.1
  once : (s.timer.m_pending_events.entries.map Prod.snd).Nodup
  balance : ∀ e, s.handed.count e + (s.timer.m_pending_events.entries.map Prod.snd).count e =
    (s.inserted.map Prod.snd).count e
  one_shot : ∀ e, (s.timer.event e).m_is_repeated = false → (s.inserted.map Prod.snd).count e ≤ 1
  existing : ∀ e ∈ s.inserted.map Prod.snd, e < s.made
  task : ∀ e, (s.timer.event e).m_task = e

theorem lastInsert_cons (l : List Entry) (x : Entry) (e : ℕ) :
    lastInsert (x :: l) e = if x.2 = e then some x.1 else lastInsert l e := by
  unfold lastInsert
  rw [find?_cons]
  by_cases hx : x.2 = e
  · simp [hx]
  · simp [hx]

theorem lastInsert_append_of_notMem {l l' : List Entry} {e : ℕ} (h : e ∉ l.map Prod.snd) :
    lastInsert (l ++ l') e = lastInsert l' e := by
  have hnone : l.find? (fun x => decide (x.2 = e)) = none := by
    rw [find?_eq_none]
    intro x hx he
    exact h (mem_map.2 ⟨x, hx, by simpa using he⟩)
  rw [lastInsert, find?_append, hnone, Option.none_or, lastInsert]

/-- an entry among new ones for different events is the last one of its event -/
theorem lastInsert_append_of_mem {l l' : List Entry} {x : Entry} (hx : x ∈ l) (hnd : (l.map Prod.snd).Nodup) :
    lastInsert (l ++ l') x.2 = some x.1 := by
  induction l with
  | nil => exact absurd hx not_mem_nil
  | cons y l ih =>
    rw [map_cons, nodup_cons] at hnd
    rw [cons_append, lastInsert_cons]
    rcases mem_cons.1 hx with rfl | hx
    · exact if_pos rfl
    · have hne : y.2 ≠ x.2 := by
        intro he
        exact hnd.1 (he ▸ mem_map_of_mem hx)
      rw [if_neg hne]
      exact ih hx hnd.2

theorem onTimer_pending (s : St) (read now : ℤ) (clock : ℕ → ℤ) :
    (step s (.onTimer read now clock)).timer.m_pending_events.entries ~
      s.timer.rest now ++ reinserted s.timer now clock := by
  have hspec := ((readFd s.timer read).onTimer_spec now clock).2
  obtain ⟨hscan, hrest⟩ := readFd_scan s.timer read now
  rw [hscan, hrest, (readFd_eq s.timer read).2] at hspec
  exact hspec

theorem onTimer_flags (s : St) (read now : ℤ) (clock : ℕ → ℤ) (e : ℕ) :
    ((step s (.onTimer read now clock)).timer.event e).m_is_repeated = (s.timer.event e).m_is_repeated ∧
      ((step s (.onTimer read now clock)).timer.event e).m_is_cancled = (s.timer.event e).m_is_cancled ∧
      ((step s (.onTimer read now clock)).timer.event e).m_task = (s.timer.event e).m_task := by
  have hevent : (step s (.onTimer read now clock)).timer.event e = _ := (readFd s.timer read).onTimer_event now clock e
  rw [hevent, (readFd_eq s.timer read).2]
  exact ⟨rfl, rfl, rfl⟩

theorem handedBy_onTimer (htask : ∀ e, (s.timer.event e).m_task = e) (read now : ℤ) (clock : ℕ → ℤ) :
    handedBy s (.onTimer read now clock) = (s.timer.scan now).map Prod.snd := by
  rw [handedBy, ((readFd s.timer read).onTimer_spec now clock).1, (readFd_scan s.timer read now).1,
    (readFd_eq s.timer read).2]
  exact map_congr_left fun x _ => htask x.2

/-- what a scan hands over was pending and not cancelled -/
theorem mem_handedBy (htask : ∀ e, (s.timer.event e).m_task = e) {read now : ℤ} {clock : ℕ → ℤ} {e : ℕ}
    (he : e ∈ handedBy s (.onTimer read now clock)) :
    ∃ a ≤ now, (a, e) ∈ s.timer.m_pending_events.entries ∧ ¬ Cancelled s e := by
  rw [handedBy_onTimer htask] at he
  obtain ⟨x, hx, rfl⟩ := mem_map.1 he
  obtain ⟨hdue, hlive⟩ := Timer.fires_of_mem_scan hx
  exact ⟨x.1, hdue, (takeWhile_sublist _).subset hx, by simp [Cancelled, hlive]⟩

/-- the history of what was handed over grows by what the operation hands over -/
theorem step_handed (s : St) (o : Op) : (step s o).handed = s.handed ++ handedBy s o := by
  cases o with
  | addTimerEvent f need_reset now =>
    have hnil : handedBy s (.addTimerEvent f need_reset now) = [] := rfl
    rw [hnil, append_nil]
    simp only [step]
    split_ifs <;> rfl
  | delTimerEvent f =>
    have hnil : handedBy s (.delTimerEvent f) = [] := rfl
    rw [hnil, append_nil]
    simp only [step]
    split_ifs <;> rfl
  | onTimer read now clock => rfl
  | make _ _ _ | exec => exact (append_nil _).symm

theorem map_snd_reinserted (t : Timer ℕ) (now : ℤ) (clock : ℕ → ℤ) : (reinserted t now clock).map Prod.snd =
    ((t.scan now).map Prod.snd).filter fun e => (t.event e).m_is_repeated :=
  Timer.map_snd_rearmed _ _ _ _

/-- the events the scan takes and those it leaves -/
theorem Inv.split (h : Inv s) (now : ℤ) : ((s.timer.scan now).map Prod.snd ++ (s.timer.rest now).map Prod.snd).Nodup := by
  rw [← map_append, Timer.scan_append_rest]
  exact h.once

theorem Inv.count_split (now : ℤ) (e : ℕ) : (s.timer.m_pending_events.entries.map Prod.snd).count e =
    ((s.timer.scan now).map Prod.snd).count e + ((s.timer.rest now).map Prod.snd).count e := by
  rw [← count_append, ← map_append, Timer.scan_append_rest]

theorem Inv.onTimer (h : Inv s) (read now : ℤ) (clock : ℕ → ℤ) : Inv (step s (.onTimer read now clock)) := by
  have hpend := onTimer_pending s read now clock
  have hsnd := map_snd_reinserted s.timer now clock
  have hsub : (reinserted s.timer now clock).map Prod.snd <+ (s.timer.scan now).map Prod.snd := by
    rw [hsnd]
    exact filter_sublist
  have hsplit := h.split now
  have hins : (step s (.onTimer read now clock)).inserted = (reinserted s.timer now clock).reverse ++ s.inserted := rfl
  have hhand : (step s (.onTimer read now clock)).handed = s.handed ++ (s.timer.scan now).map Prod.snd := by
    rw [step_handed, handedBy_onTimer h.task]
  have hflags := onTimer_flags s read now clock
  refine ⟨?_, ?_, ?_, ?_, ?_, ?_⟩
  · intro x hx
    rw [hins]
    rcases mem_append.1 (hpend.mem_iff.1 hx) with hx | hx
    · -- what was left is not among the events put back
      rw [lastInsert_append_of_notMem]
      · refine h.filed x ?_
        rw [← Timer.scan_append_rest s.timer now]
        exact mem_append_right _ hx
      · rw [map_reverse, mem_reverse]
        intro he
        exact disjoint_of_nodup_append hsplit (hsub.subset he) (mem_map_of_mem hx)
    · refine lastInsert_append_of_mem (mem_reverse.2 hx) ?_
      rw [map_reverse, nodup_reverse]
      exact (nodup_append.1 hsplit).1.sublist hsub
  · rw [(hpend.map Prod.snd).nodup_iff, map_append]
    exact nodup_append_comm.1 (hsplit.sublist (hsub.append_right _))
  · intro e
    have hbal := h.balance e
    rw [Inv.count_split now e] at hbal
    rw [hhand, hins, (hpend.map Prod.snd).count_eq]
    simp only [map_append, count_append, map_reverse, count_reverse]
    omega
  · intro e he
    rw [(hflags e).1] at he
    have hnot : e ∉ (reinserted s.timer now clock).map Prod.snd := by
      rw [hsnd]
      simp [he]
    rw [hins]
    simp only [map_append, count_append, map_reverse, count_reverse, count_eq_zero_of_not_mem hnot]
    simpa using h.one_shot e he
  · intro e he
    rw [hins, map_append, mem_append, map_reverse, mem_reverse] at he
    rcases he with he | he
    · -- put back, so it was pending and hence inserted before
      refine h.existing e (count_pos_iff.1 ?_)
      have hpos := count_pos_iff.2 (hsub.subset he)
      have hbal := h.balance e
      rw [Inv.count_split now e] at hbal
      omega
    · exact h.existing e he
  · intro e
    rw [(hflags e).2.2]
    exact h.task e

theorem Inv.make (h : Inv s) (interval : ℤ) (is_repeated : Bool) (now : ℤ) :
    Inv (step s (.make interval is_repeated now)) := by
  have hnew : ∀ e ∈ s.inserted.map Prod.snd, e ≠ s.made := fun e he => (h.existing e he).ne
  refine ⟨h.filed, h.once, h.balance, ?_, ?_, ?_⟩
  · intro e he
    by_cases hm : e = s.made
    · have hnot : e ∉ s.inserted.map Prod.snd := fun hmem => hnew e hmem hm
      exact (count_eq_zero_of_not_mem hnot).le.trans (Nat.zero_le 1)
    · exact h.one_shot e (by simpa [step, hm] using he)
  · intro e he
    exact (h.existing e he).trans (Nat.lt_succ_self _)
  · intro e
    by_cases hm : e = s.made
    · simp [step, hm, TimerEvent.make]
    · simpa [step, hm] using h.task e

theorem Inv.addTimerEvent (h : Inv s) {e : ℕ} (hm : e < s.made) (hnew : e ∉ s.inserted.map Prod.snd) (need_reset : Bool)
    (now : ℤ) : Inv (step s (.addTimerEvent e need_reset now)) := by
  have hpend : (step s (.addTimerEvent e need_reset now)).timer.m_pending_events.entries ~
      ((s.timer.event e).m_arrive_time, e) :: s.timer.m_pending_events.entries := by
    simp only [step, if_pos hm, Timer.addTimerEvent_pending]
    exact Pending.emplace_perm _ _ _
  have hev : (step s (.addTimerEvent e need_reset now)).timer.event = s.timer.event := by
    simp only [step, if_pos hm, Timer.addTimerEvent_event]
  have hins : (step s (.addTimerEvent e need_reset now)).inserted =
      ((s.timer.event e).m_arrive_time, e) :: s.inserted := by
    simp only [step, if_pos hm]
  have hhand : (step s (.addTimerEvent e need_reset now)).handed = s.handed := by
    simp only [step, if_pos hm]
  have hmade : (step s (.addTimerEvent e need_reset now)).made = s.made := by
    simp only [step, if_pos hm]
  -- an event that was never inserted is not pending
  have hzero := count_eq_zero_of_not_mem hnew
  have hfresh : e ∉ s.timer.m_pending_events.entries.map Prod.snd := by
    refine count_eq_zero.1 ?_
    have := h.balance e
    omega
  refine ⟨?_, ?_, ?_, ?_, ?_, ?_⟩
  · intro x hx
    rw [hins, lastInsert_cons]
    rcases mem_cons.1 (hpend.mem_iff.1 hx) with rfl | hx
    · exact if_pos rfl
    · have hne : e ≠ x.2 := by
        intro he
        exact hfresh (he ▸ mem_map_of_mem hx)
      rw [if_neg hne]
      exact h.filed x hx
  · rw [(hpend.map Prod.snd).nodup_iff]
    exact nodup_cons.2 ⟨hfresh, h.once⟩
  · intro f
    rw [hhand, hins, (hpend.map Prod.snd).count_eq, map_cons, map_cons, count_cons, count_cons, ← h.balance f]
    omega
  · intro f hf
    rw [hev] at hf
    rw [hins, map_cons, count_cons]
    by_cases he : e = f
    · subst he
      simp [hzero]
    · simpa [he] using h.one_shot f hf
  · intro f hf
    rw [hins] at hf
    rw [hmade]
    rcases mem_cons.1 hf with rfl | hf
    · exact hm
    · exact h.existing f hf
  · intro f
    rw [hev]
    exact h.task f

theorem Inv.delTimerEvent (h : Inv s) (e : ℕ) : Inv (step s (.delTimerEvent e)) := by
  by_cases hm : e < s.made
  · simp only [step, if_pos hm]
    refine ⟨h.filed, h.once, h.balance, ?_, h.existing, ?_⟩
    · intro f hf
      rw [(s.timer.delTimerEvent_event e f).2.2.1] at hf
      exact h.one_shot f hf
    · intro f
      rw [(s.timer.delTimerEvent_event e f).2.2.2]
      exact h.task f
  · simpa only [step, if_neg hm] using h

theorem step_inv (h : Inv s) {o : Op} (ho : AddedOnce s o) : Inv (step s o) := by
  cases o with
  | make interval is_repeated now => exact h.make interval is_repeated now
  | addTimerEvent e need_reset now =>
    by_cases hm : e < s.made
    · exact h.addTimerEvent hm ho need_reset now
    · simpa only [step, if_neg hm] using h
  | delTimerEvent e => exact h.delTimerEvent e
  | onTimer read now clock => exact h.onTimer read now clock
  | exec => exact ⟨h.filed, h.once, h.balance, h.one_shot, h.existing, h.task⟩

theorem init_inv : Inv init := by
  refine ⟨?_, nodup_nil, ?_, ?_, ?_, ?_⟩
  · intro x hx
    exact absurd hx not_mem_nil
  · intro e
    rfl
  · intro e _
    exact Nat.zero_le 1
  · intro e he
    exact absurd he not_mem_nil
  · intro e
    rfl

/-- nothing is handed over that is not pending -/
theorem Inv.count_handedBy (h : Inv s) (o : Op) (e : ℕ) :
    (handedBy s o).count e ≤ (s.timer.m_pending_events.entries.map Prod.snd).count e := by
  cases o with
  | onTimer read now clock =>
    rw [handedBy_onTimer h.task]
    exact ((takeWhile_sublist _).map _).count_le e
  | make _ _ _ | addTimerEvent _ _ _ | delTimerEvent _ | exec => exact Nat.zero_le _

theorem Inv.handed_le (h : Inv s) (o : Op) (e : ℕ) : (step s o).handed.count e ≤ (s.inserted.map Prod.snd).count e := by
  calc (step s o).handed.count e
      = s.handed.count e + (handedBy s o).count e := by rw [step_handed, count_append]
    _ ≤ s.handed.count e + (s.timer.m_pending_events.entries.map Prod.snd).count e :=
        Nat.add_le_add_left (h.count_handedBy o e) _
    _ = (s.inserted.map Prod.snd).count e := h.balance e

/-- what the scan takes, in the order of the map -/
theorem Inv.scan_in_order (h : Inv s) (now : ℤ) : ((s.timer.scan now).map Prod.snd).Pairwise fun e f =>
    ∀ a ∈ lastInsert s.inserted e, ∀ b ∈ lastInsert s.inserted f, a ≤ b := by
  have hsub : s.timer.scan now <+ s.timer.m_pending_events.entries := takeWhile_sublist _
  rw [pairwise_map]
  refine (s.timer.m_pending_events.sorted.sublist hsub).imp_of_mem ?_
  intro x y hx hy hxy a ha b hb
  rw [h.filed x (hsub.subset hx)] at ha
  rw [h.filed y (hsub.subset hy)] at hb
  simp only [Option.mem_some_iff] at ha hb
  simp only [keyLt, decide_eq_false_iff_not, not_lt] at hxy
  rwa [← ha, ← hb]

theorem Inv.handedWell (h : Inv s) (o : Op) : HandedWell s o := by
  have hone : ∀ e, (s.timer.event e).m_is_repeated = false → (step s o).handed.count e ≤ 1 :=
    fun e he => (h.handed_le o e).trans (h.one_shot e he)
  cases o with
  | onTimer read now clock =>
    refine ⟨?_, ?_, hone, h.handed_le _, ?_⟩
    · intro e he
      obtain ⟨a, hdue, hmem, -⟩ := mem_handedBy h.task he
      exact ⟨a, h.filed _ hmem, hdue⟩
    · intro e he
      obtain ⟨a, -, -, hlive⟩ := mem_handedBy h.task he
      exact hlive
    · rw [handedBy_onTimer h.task read now clock]
      exact h.scan_in_order now
  | make _ _ _ | addTimerEvent _ _ _ | delTimerEvent _ | exec =>
    exact ⟨fun e he => absurd he not_mem_nil, fun e he => absurd he not_mem_nil, hone, h.handed_le _, Pairwise.nil⟩

/-- a cancelled event stays cancelled -/
theorem step_cancelled {e : ℕ} (hm : e < s.made) (hc : Cancelled s e) (o : Op) :
    e < (step s o).made ∧ Cancelled (step s o) e := by
  unfold Cancelled at *
  cases o with
  | make interval is_repeated now =>
    refine ⟨hm.trans (Nat.lt_succ_self _), ?_⟩
    simpa [step, hm.ne] using hc
  | addTimerEvent f need_reset now =>
    simp only [step]
    split_ifs
    · rw [Timer.addTimerEvent_event]
      exact ⟨hm, hc⟩
    · exact ⟨hm, hc⟩
  | delTimerEvent f =>
    simp only [step]
    split_ifs
    · refine ⟨hm, ?_⟩
      by_cases he : e = f
      · simp [Timer.delTimerEvent, he]
      · simpa [Timer.delTimerEvent, he] using hc
    · exact ⟨hm, hc⟩
  | onTimer read now clock => exact ⟨hm, (onTimer_flags s read now clock e).2.1.trans hc⟩
  | exec => exact ⟨hm, hc⟩

theorem delTimerEvent_cancelled {e : ℕ} {ops : List Op} (hm : e < (run step init ops).made) :
    e < (run step init (ops ++ [.delTimerEvent e])).made ∧
      Cancelled (run step init (ops ++ [.delTimerEvent e])) e := by
  rw [run_concat]
  simp [step, hm, Cancelled, Timer.delTimerEvent]

/-- **Timers are never early, never repeated by accident, and ordered.** For every run in which owners add each event
object once, with any clock readings: a task is handed over only by a scan that reads the clock no earlier than the time
its event was last inserted under, one-shot events at most once in the whole run, any event at most once per insertion,
in arrival order; and no scan after the cancellation of an event hands it over. -/
theorem handed_well (ops : List Op) (h : Along step AddedOnce init ops) :
    Along step HandedWell init ops ∧
      ∀ ops₁ e ops₂, ops = ops₁ ++ .delTimerEvent e :: ops₂ → e < (run step init ops₁).made →
        Along step (fun s o => e ∉ handedBy s o) (run step init (ops₁ ++ [.delTimerEvent e])) ops₂ := by
  have hstep : ∀ s o, Inv s → AddedOnce s o → HandedWell s o ∧ Inv (step s o) :=
    fun s o hi ho => ⟨hi.handedWell o, step_inv hi ho⟩
  refine ⟨along_of_inv hstep init_inv h, ?_⟩
  intro ops₁ e ops₂ hops hm
  rw [hops, append_cons, along_append] at h
  have hinv : Inv (run step init (ops₁ ++ [.delTimerEvent e])) :=
    (always_of_inv (fun s o hi ho => (hstep s o hi ho).2) init_inv h.1).last
  have hlater : ∀ s o, (Inv s ∧ e < s.made ∧ Cancelled s e) → AddedOnce s o →
      e ∉ handedBy s o ∧ (Inv (step s o) ∧ e < (step s o).made ∧ Cancelled (step s o) e) := by
    rintro s o ⟨hi, hlt, hc⟩ ho
    obtain ⟨hwell, hi'⟩ := hstep s o hi ho
    exact ⟨fun he => hwell.not_cancelled e he hc, hi', step_cancelled hlt hc o⟩
  exact along_of_inv hlater ⟨hinv, delTimerEvent_cancelled hm⟩ h.2

/-- a repeated event and a one-shot one; the repeated one is handed over twice, then cancelled -/
def twoTimers : List Op :=
  [.make 10 true 0, .make 15 false 0, .addTimerEvent 0 true 0, .addTimerEvent 1 true 1, .onTimer 10 10 fun _ => 11,
    .onTimer 21 21 fun _ => 21, .delTimerEvent 0, .onTimer 40 40 fun _ => 40]

theorem handed_well_twoTimers :
    Along step AddedOnce init twoTimers ∧ (run step init twoTimers).handed = [0, 1, 0] ∧
      Along step HandedWell init twoTimers ∧
      Along step (fun s o => 0 ∉ handedBy s o) (run step init twoTimers.dropLast) [.onTimer 40 40 fun _ => 40] := by
  have h : Along step AddedOnce init twoTimers := by decide
  obtain ⟨hwell, hlater⟩ := handed_well twoTimers h
  exact ⟨h, by decide, hwell, hlater (twoTimers.take 6) 0 _ rfl (by decide)⟩

/-! ## Cancellation and the task queue -/

/-- the task the loop executes in this operation -/
def executed (s : St) : Op → Option ℕ
  | .exec => s.queue.head?
  | _ => none

/-- once delTimerEvent(e) has returned, the task of `e` is not executed any more -/
def CancellationFinal (ops : List Op) : Prop :=
  ∀ ops₁ e ops₂, ops = ops₁ ++ .delTimerEvent e :: ops₂ → e < (run step init ops₁).made →
    Along step (fun s o => executed s o ≠ some e) (run step init (ops₁ ++ [.delTimerEvent e])) ops₂

/-- an event is cancelled while its task is not in the queue -/
def NotQueued (s : St) : Op → Prop
  | .delTimerEvent e => e ∉ s.queue
  | _ => True

instance (s : St) : (o : Op) → Decidable (NotQueued s o)
  | .delTimerEvent e => inferInstanceAs (Decidable (e ∉ _))
  | .make _ _ _ | .addTimerEvent _ _ _ | .onTimer _ _ _ | .exec => inferInstanceAs (Decidable True)

/-- what is pending or queued exists, and the task of an event is its own -/
structure Known (s : St) : Prop where
  task : ∀ e, (s.timer.event e).m_task = e
  pending : ∀ x ∈ s.timer.m_pending_events.entries, x.2 < s.made
  queued : ∀ e ∈ s.queue, e < s.made

def LiveQueue (s : St) : Prop := ∀ e ∈ s.queue, ¬ Cancelled s e

theorem step_known (s : St) (o : Op) (h : Known s) : Known (step s o) := by
  cases o with
  | make interval is_repeated now =>
    refine ⟨?_, ?_, ?_⟩
    · intro e
      by_cases hm : e = s.made
      · simp [step, hm, TimerEvent.make]
      · simpa [step, hm] using h.task e
    · intro x hx
      exact (h.pending x hx).trans (Nat.lt_succ_self _)
    · intro e he
      exact (h.queued e he).trans (Nat.lt_succ_self _)
  | addTimerEvent e need_reset now =>
    simp only [step]
    split_ifs with hm
    · refine ⟨?_, ?_, h.queued⟩
      · rw [Timer.addTimerEvent_event]
        exact h.task
      · intro x hx
        rw [Timer.addTimerEvent_pending] at hx
        rcases mem_cons.1 ((Pending.emplace_perm _ _ _).mem_iff.1 hx) with rfl | hx
        · exact hm
        · exact h.pending x hx
    · exact h
  | delTimerEvent e =>
    simp only [step]
    split_ifs
    · refine ⟨?_, h.pending, h.queued⟩
      intro f
      rw [(s.timer.delTimerEvent_event e f).2.2.2]
      exact h.task f
    · exact h
  | onTimer read now clock =>
    have hscan : ∀ e ∈ (s.timer.scan now).map Prod.snd, e < s.made := by
      intro e he
      obtain ⟨x, hx, rfl⟩ := mem_map.1 he
      exact h.pending x ((takeWhile_sublist _).subset hx)
    refine ⟨?_, ?_, ?_⟩
    · intro e
      exact (onTimer_flags s read now clock e).2.2.trans (h.task e)
    · intro x hx
      rcases mem_append.1 ((onTimer_pending s read now clock).mem_iff.1 hx) with hx | hx
      · exact h.pending x ((dropWhile_sublist _).subset hx)
      · have hsnd := mem_map_of_mem (f := Prod.snd) hx
        rw [map_snd_reinserted] at hsnd
        exact hscan x.2 (mem_of_mem_filter hsnd)
    · intro e he
      rcases mem_append.1 he with he | he
      · exact h.queued e he
      · exact hscan e ((handedBy_onTimer h.task read now clock) ▸ he)
  | exec => exact ⟨h.task, h.pending, fun e he => h.queued e (mem_of_mem_tail he)⟩

theorem init_known : Known init :=
  ⟨fun _ => rfl, fun _ hx => absurd hx not_mem_nil, fun _ he => absurd he not_mem_nil⟩

theorem step_liveQueue (hk : Known s) (h : LiveQueue s) {o : Op} (ho : NotQueued s o) : LiveQueue (step s o) := by
  unfold LiveQueue Cancelled at *
  cases o with
  | make interval is_repeated now =>
    intro e he
    have hne : e ≠ s.made := (hk.queued e he).ne
    simpa [step, hne] using h e he
  | addTimerEvent f need_reset now =>
    simp only [step]
    split_ifs
    · simp only [Timer.addTimerEvent_event]
      exact h
    · exact h
  | delTimerEvent f =>
    simp only [step]
    split_ifs
    · intro e he
      have hne : e ≠ f := by
        rintro rfl
        exact ho he
      simpa [Timer.delTimerEvent, hne] using h e he
    · exact h
  | onTimer read now clock =>
    intro e he
    rw [(onTimer_flags s read now clock e).2.1]
    rcases mem_append.1 he with he | he
    · exact h e he
    · obtain ⟨a, -, -, hlive⟩ := mem_handedBy hk.task (show e ∈ handedBy s (.onTimer read now clock) from he)
      exact hlive
  | exec =>
    intro e he
    exact h e (mem_of_mem_tail he)

/-- a queued task stays queued until it is executed -/
theorem step_mem_queue {e : ℕ} (he : e ∈ s.queue) {o : Op} (ho : executed s o ≠ some e) : e ∈ (step s o).queue := by
  cases o with
  | make interval is_repeated now => exact he
  | addTimerEvent f need_reset now =>
    simp only [step]
    split_ifs <;> exact he
  | delTimerEvent f =>
    simp only [step]
    split_ifs <;> exact he
  | onTimer read now clock => exact mem_append_left _ he
  | exec =>
    cases hq : s.queue with
    | nil => exact absurd (hq ▸ he) not_mem_nil
    | cons f q =>
      rw [hq] at he
      have hne : f ≠ e := by simpa [executed, hq] using ho
      simpa [step, hq, hne.symm] using he

theorem run_exec_queue (s : St) (n : ℕ) : (run step s (replicate n .exec)).queue = s.queue.drop n := by
  induction n generalizing s with
  | zero => rfl
  | succ n ih =>
    calc (run step s (replicate (n + 1) .exec)).queue = (run step (step s .exec) (replicate n .exec)).queue := rfl
      _ = s.queue.tail.drop n := ih _
      _ = s.queue.drop (n + 1) := drop_tail

/-- a task in the queue is executed when the queue is worked off -/
theorem queued_executed {e : ℕ} (he : e ∈ s.queue) (ops : List Op) :
    ∃ n, ¬ Along step (fun s o => executed s o ≠ some e) s (ops ++ replicate n .exec) := by
  have hstay : ∀ (l : List Op) (s : St), e ∈ s.queue → Along step (fun s o => executed s o ≠ some e) s l →
      e ∈ (run step s l).queue := by
    intro l
    induction l with
    | nil => exact fun s he _ => he
    | cons o l ih => exact fun s he h => ih (step s o) (step_mem_queue he h.1) h.2
  refine ⟨(run step s ops).queue.length, ?_⟩
  intro h
  have hmem := hstay _ s he h
  rw [run, foldl_append] at hmem
  have hdone := run_exec_queue (run step s ops) (run step s ops).queue.length
  rw [drop_length] at hdone
  exact absurd (hdone ▸ hmem) not_mem_nil

/-- while only live tasks are in the queue, the task of a cancelled event is not executed -/
theorem cancelled_not_executed {e : ℕ} (hk : Known s) (hl : LiveQueue s) (hm : e < s.made) (hc : Cancelled s e)
    {ops : List Op} (h : Along step NotQueued s ops) : Along step (fun s o => executed s o ≠ some e) s ops := by
  induction ops generalizing s with
  | nil => trivial
  | cons o ops ih =>
    refine ⟨?_, ?_⟩
    · intro he
      cases o with
      | exec => exact hl e (mem_of_mem_head? he) hc
      | make _ _ _ | addTimerEvent _ _ _ | delTimerEvent _ | onTimer _ _ _ => exact absurd he (by simp [executed])
    · obtain ⟨hm', hc'⟩ := step_cancelled hm hc o
      exact ih (step_known s o hk) (step_liveQueue hk hl h.1) hm' hc' h.2

/-- **Cancellation.** For every run, and the execution of the tasks left in the queue behind it: no task of a cancelled
event is executed, if and only if every delTimerEvent comes while the task of its event is not in the queue. -/
theorem cancellation_final_iff (ops : List Op) :
    (∀ n, CancellationFinal (ops ++ replicate n .exec)) ↔ Along step NotQueued init ops := by
  refine ⟨?_, ?_⟩
  · intro hfinal
    rw [along_iff]
    intro ops₁ o ops₂ hops
    cases o with
    | delTimerEvent e =>
      intro hq
      have hm := (run_of_inv step_known init_known ops₁).queued e hq
      have hstart : e ∈ (run step init (ops₁ ++ [.delTimerEvent e])).queue := by
        rw [run_concat]
        exact step_mem_queue hq (o := .delTimerEvent e) (by simp [executed])
      obtain ⟨n, hn⟩ := queued_executed hstart ops₂
      exact hn (hfinal n ops₁ e (ops₂ ++ replicate n .exec) (by simp [hops]) hm)
    | make _ _ _ | addTimerEvent _ _ _ | onTimer _ _ _ | exec => trivial
  · intro h n ops₁ e ops₂ hops hm
    have hrest : Along step NotQueued (run step init ops) (replicate n .exec) := by
      refine along_of_mem ?_
      intro o ho s
      rw [eq_of_mem_replicate ho]
      trivial
    have hall : Along step NotQueued init (ops₁ ++ [.delTimerEvent e] ++ ops₂) := by
      rw [← append_cons, ← hops]
      exact along_append.2 ⟨h, hrest⟩
    obtain ⟨hfirst, hlast⟩ := along_append.1 hall
    have hstep : ∀ s o, (Known s ∧ LiveQueue s) → NotQueued s o → Known (step s o) ∧ LiveQueue (step s o) :=
      fun s o hi ho => ⟨step_known s o hi.1, step_liveQueue hi.1 hi.2 ho⟩
    have hinit : Known init ∧ LiveQueue init := ⟨init_known, fun _ he => absurd he not_mem_nil⟩
    obtain ⟨hknown, hlive⟩ := (always_of_inv hstep hinit hfirst).last
    obtain ⟨hlt, hc⟩ := delTimerEvent_cancelled hm
    exact cancelled_not_executed hknown hlive hlt hc hlast

/-- a timeout of 10 fires; another task of the same round cancels it before the loop comes to it -/
def cancelQueued : List Op :=
  [.make 10 false 0, .addTimerEvent 0 true 0, .onTimer 10 10 fun _ => 10, .delTimerEvent 0]

/-- The task of the cancelled event is executed next. -/
theorem cancelled_task_executed :
    ¬ CancellationFinal (cancelQueued ++ [.exec]) ∧
      executed (run step init cancelQueued) .exec = some 0 ∧ Cancelled (run step init cancelQueued) 0 := by
  have hexec : executed (run step init cancelQueued) .exec = some 0 := by decide
  refine ⟨?_, hexec, by decide⟩
  intro h
  exact (h (cancelQueued.take 3) 0 [.exec] rfl (by decide)).1 hexec

end TinyRpc.Net.TimerRuns
