/-
Timer events and their expiry (net/timer.cc, net/timer.h).

The pending events are a multimap from arrival time to event object, an ordered list whose order is part of its type. An
event object is a number into a heap of TimerEvents, so that cancelling one is a flag on an element that stays in the
map. Every call of getNowMs is an input: `now` for the scan of `onTimer`, `clock 0`, `clock 1`, ... for the readings
after it. Times are integers, without the wrap of int64_t.

Main result `onTimer_complete_iff`: one call of `onTimer` hands over exactly the tasks that are due and re-arms exactly
the repeated events among them if and only if no due event is cancelled; a cancelled one stays and stops the scan.
-/
import Mathlib.Tactic
import TinyRpc.Core.SortedInsert

namespace TinyRpc.Net

open TinyRpc.Core List

variable {τ : Type}

/-- `τ` is the type of tasks -/
structure TimerEvent (τ : Type) where
  m_arrive_time : ℤ
  m_interval : ℤ
  m_is_repeated : Bool
  m_is_cancled : Bool
  m_task : τ
deriving DecidableEq, Repr

/-- the constructor, with its reading of the clock -/
def TimerEvent.make (now interval : ℤ) (is_repeated : Bool) (task : τ) : TimerEvent τ :=
  ⟨now + interval, interval, is_repeated, false, task⟩

/-! ## The multimap -/

/-- an arrival time and the event filed under it -/
abbrev Entry := ℤ × ℕ

def keyLt (a b : Entry) : Bool := decide (a.1 < b.1)

theorem keyLt_asymm : Asymm keyLt := by
  intro a b h
  simp only [keyLt, decide_eq_true_eq, decide_eq_false_iff_not] at *
  omega

theorem keyLt_trans (a b c : Entry) (hab : keyLt b a = false) (hbc : keyLt c b = false) : keyLt c a = false := by
  simp only [keyLt, decide_eq_false_iff_not] at *
  omega

/-- std::multimap<int64_t, TimerEvent::ptr> in iteration order -/
structure Pending where
  entries : List Entry
  sorted : Weak keyLt entries
deriving DecidableEq

namespace Pending

def empty : Pending := ⟨[], Pairwise.nil⟩

/-- a new entry goes behind those with an equal key -/
def emplace (p : Pending) (key : ℤ) (e : ℕ) : Pending :=
  ⟨insertEqual keyLt p.entries (key, e), p.sorted.insertEqual keyLt_asymm keyLt_trans (key, e)⟩

/-- erase of the first `n` entries -/
def eraseFirst (p : Pending) (n : ℕ) : Pending := ⟨p.entries.drop n, p.sorted.sublist (drop_sublist n _)⟩

theorem emplace_perm (p : Pending) (key : ℤ) (e : ℕ) : (p.emplace key e).entries ~ (key, e) :: p.entries :=
  insertEqual_perm _ _

end Pending

/-! ## The timer -/

structure Timer (τ : Type) where
  m_pending_events : Pending
  event : ℕ → TimerEvent τ
  /-- the expiry time of the last timerfd_settime; none when it was never set, or disarmed by a zero interval -/
  armed : Option ℤ

namespace Timer

def resetArriveTime (s : Timer τ) (now : ℤ) : Timer τ :=
  match s.m_pending_events.entries with
  | [] => s
  | (first, _) :: _ =>
    if first < now then s
    else
      let interval := first - now
      { s with armed := if interval = 0 then none else some (now + interval) }

/-- `now` is what a call of `resetArriveTime` reads from the clock -/
def addTimerEvent (s : Timer τ) (e : ℕ) (need_reset : Bool) (now : ℤ) : Timer τ :=
  let is_reset := match s.m_pending_events.entries with
    | [] => true
    | (_, first) :: _ => decide ((s.event e).m_arrive_time < (s.event first).m_arrive_time)
  let s := { s with m_pending_events := s.m_pending_events.emplace (s.event e).m_arrive_time e }
  if is_reset && need_reset then s.resetArriveTime now else s

def delTimerEvent (s : Timer τ) (e : ℕ) : Timer τ :=
  { s with event := Function.update s.event e { s.event e with m_is_cancled := true } }

/-- resetTime of event `e` at clock reading `now` -/
def resetTime (s : Timer τ) (e : ℕ) (now : ℤ) : Timer τ :=
  { s with event := Function.update s.event e { s.event e with m_arrive_time := now + (s.event e).m_interval } }

/-- does the scan of `onTimer` take this entry? -/
def Fires (s : Timer τ) (now : ℤ) (x : Entry) : Bool := decide (x.1 ≤ now) && !(s.event x.2).m_is_cancled

/-- the entries in front of the first one that does not fire -/
def scan (s : Timer τ) (now : ℤ) : List Entry := s.m_pending_events.entries.takeWhile (s.Fires now)

/-- the loop that re-arms; each repeated event reads the clock once, from reading `j` on. The second result is the
number of readings made -/
def rearm (clock : ℕ → ℤ) (s : Timer τ) (j : ℕ) : List ℕ → Timer τ × ℕ
  | [] => (s, j)
  | e :: es =>
    if (s.event e).m_is_repeated then rearm clock ((s.resetTime e (clock j)).addTimerEvent e false (clock j)) (j + 1) es
    else rearm clock s j es

/-- the state after the call, and the tasks handed to the reactor -/
def onTimer (s : Timer τ) (now : ℤ) (clock : ℕ → ℤ) : Timer τ × List τ :=
  let tmps := s.scan now
  let tasks := tmps.map fun x => (s.event x.2).m_task
  let s := { s with m_pending_events := s.m_pending_events.eraseFirst tmps.length }
  let (s, j) := rearm clock s 0 (tmps.map Prod.snd)
  (s.resetArriveTime (clock j), tasks)

/-! ## Expiry -/

/-- the entries of the repeated events among `es`, re-armed with the readings from `j` on -/
def rearmed (event : ℕ → TimerEvent τ) (clock : ℕ → ℤ) (j : ℕ) : List ℕ → List Entry
  | [] => []
  | e :: es =>
    if (event e).m_is_repeated then (clock j + (event e).m_interval, e) :: rearmed event clock (j + 1) es
    else rearmed event clock j es

/-- the entries that are due, in arrival order -/
def due (s : Timer τ) (now : ℤ) : List Entry := s.m_pending_events.entries.filter fun x => decide (x.1 ≤ now)

/-- the due entries of events that were not cancelled -/
def live (s : Timer τ) (now : ℤ) : List Entry := (s.due now).filter fun x => !(s.event x.2).m_is_cancled

/-- exactly the tasks of the live due events are handed over, in arrival order; pending are exactly the entries that were
not due and the re-armed ones -/
def Complete (s : Timer τ) (now : ℤ) (clock : ℕ → ℤ) : Prop :=
  (s.onTimer now clock).2 = (s.live now).map (fun x => (s.event x.2).m_task) ∧
    (s.onTimer now clock).1.m_pending_events.entries ~
      (s.m_pending_events.entries.filter fun x => decide (now < x.1)) ++
        rearmed s.event clock 0 ((s.live now).map Prod.snd)

theorem resetArriveTime_pending (s : Timer τ) (now : ℤ) :
    (s.resetArriveTime now).m_pending_events = s.m_pending_events := by
  unfold resetArriveTime
  split
  · rfl
  · split_ifs <;> rfl

theorem resetArriveTime_event (s : Timer τ) (now : ℤ) : (s.resetArriveTime now).event = s.event := by
  unfold resetArriveTime
  split
  · rfl
  · split_ifs <;> rfl

theorem addTimerEvent_pending (s : Timer τ) (e : ℕ) (need_reset : Bool) (now : ℤ) :
    (s.addTimerEvent e need_reset now).m_pending_events = s.m_pending_events.emplace (s.event e).m_arrive_time e := by
  simp only [addTimerEvent]
  split_ifs
  · exact resetArriveTime_pending _ now
  · rfl

theorem addTimerEvent_event (s : Timer τ) (e : ℕ) (need_reset : Bool) (now : ℤ) :
    (s.addTimerEvent e need_reset now).event = s.event := by
  simp only [addTimerEvent]
  split_ifs
  · exact resetArriveTime_event _ now
  · rfl

/-- re-arming looks at nothing that `resetTime` changes -/
theorem rearmed_congr {ev ev' : ℕ → TimerEvent τ} (clock : ℕ → ℤ)
    (h : ∀ e, (ev e).m_is_repeated = (ev' e).m_is_repeated ∧ (ev e).m_interval = (ev' e).m_interval) (es : List ℕ) (j : ℕ) :
    rearmed ev clock j es = rearmed ev' clock j es := by
  induction es generalizing j with
  | nil => rfl
  | cons e es ih =>
    obtain ⟨h1, h2⟩ := h e
    simp only [rearmed, h1, h2, ih]

theorem resetTime_event (s : Timer τ) (e : ℕ) (now : ℤ) (i : ℕ) :
    ((s.resetTime e now).event i).m_is_repeated = (s.event i).m_is_repeated ∧
      ((s.resetTime e now).event i).m_interval = (s.event i).m_interval := by
  by_cases hi : i = e
  · subst hi
    simp [resetTime]
  · simp [resetTime, hi]

/-- a cancellation sets the flag and nothing else -/
theorem delTimerEvent_event (s : Timer τ) (e i : ℕ) :
    ((s.delTimerEvent e).event i).m_arrive_time = (s.event i).m_arrive_time ∧
      ((s.delTimerEvent e).event i).m_interval = (s.event i).m_interval ∧
      ((s.delTimerEvent e).event i).m_is_repeated = (s.event i).m_is_repeated ∧
      ((s.delTimerEvent e).event i).m_task = (s.event i).m_task := by
  by_cases hi : i = e
  · subst hi
    simp [delTimerEvent]
  · simp [delTimerEvent, hi]

/-- one repeated event goes back into the map at its new time -/
theorem readd_entries (s : Timer τ) (e : ℕ) (now : ℤ) :
    ((s.resetTime e now).addTimerEvent e false now).m_pending_events.entries ~
      (now + (s.event e).m_interval, e) :: s.m_pending_events.entries ∧
    ((s.resetTime e now).addTimerEvent e false now).event = (s.resetTime e now).event := by
  have hkey : ((s.resetTime e now).event e).m_arrive_time = now + (s.event e).m_interval := by simp [resetTime]
  refine ⟨?_, addTimerEvent_event _ _ _ _⟩
  rw [addTimerEvent_pending, hkey]
  exact Pending.emplace_perm _ _ _

theorem rearm_entries (clock : ℕ → ℤ) (s : Timer τ) (j : ℕ) (es : List ℕ) :
    (rearm clock s j es).1.m_pending_events.entries ~
      s.m_pending_events.entries ++ rearmed s.event clock j es := by
  induction es generalizing s j with
  | nil => simp [rearm, rearmed]
  | cons e es ih =>
    by_cases hr : (s.event e).m_is_repeated = true
    · obtain ⟨h1, h2⟩ := readd_entries s e (clock j)
      have hih := ih ((s.resetTime e (clock j)).addTimerEvent e false (clock j)) (j + 1)
      rw [h2, rearmed_congr clock (resetTime_event s e (clock j))] at hih
      simp only [rearm, rearmed, if_pos hr]
      calc (rearm clock ((s.resetTime e (clock j)).addTimerEvent e false (clock j)) (j + 1) es).1.m_pending_events.entries
          ~ ((s.resetTime e (clock j)).addTimerEvent e false (clock j)).m_pending_events.entries ++
              rearmed s.event clock (j + 1) es := hih
        _ ~ (clock j + (s.event e).m_interval, e) :: s.m_pending_events.entries ++ rearmed s.event clock (j + 1) es :=
            h1.append_right _
        _ ~ s.m_pending_events.entries ++ (clock j + (s.event e).m_interval, e) :: rearmed s.event clock (j + 1) es :=
            perm_middle.symm
    · simp only [rearm, rearmed, if_neg hr]
      exact ih s j

/-- what the scan leaves -/
def rest (s : Timer τ) (now : ℤ) : List Entry := s.m_pending_events.entries.dropWhile (s.Fires now)

theorem scan_append_rest (s : Timer τ) (now : ℤ) : s.scan now ++ s.rest now = s.m_pending_events.entries :=
  takeWhile_append_dropWhile

theorem eraseFirst_scan (s : Timer τ) (now : ℤ) :
    (s.m_pending_events.eraseFirst (s.scan now).length).entries = s.rest now := by
  calc s.m_pending_events.entries.drop (s.scan now).length
      = (s.scan now ++ s.rest now).drop (s.scan now).length := by rw [scan_append_rest]
    _ = s.rest now := drop_left

/-- What a call of `onTimer` does, whatever is cancelled: it stops at the first entry that does not fire. -/
theorem onTimer_spec (s : Timer τ) (now : ℤ) (clock : ℕ → ℤ) :
    (s.onTimer now clock).2 = (s.scan now).map (fun x => (s.event x.2).m_task) ∧
      (s.onTimer now clock).1.m_pending_events.entries ~
        s.rest now ++ rearmed s.event clock 0 ((s.scan now).map Prod.snd) := by
  refine ⟨rfl, ?_⟩
  simp only [onTimer]
  rw [resetArriveTime_pending]
  refine (rearm_entries clock _ 0 _).trans ?_
  rw [eraseFirst_scan]

theorem fires_iff {s : Timer τ} {now : ℤ} {x : Entry} :
    s.Fires now x = true ↔ x.1 ≤ now ∧ (s.event x.2).m_is_cancled = false := by
  simp [Fires]

theorem fires_of_mem_scan {s : Timer τ} {now : ℤ} {x : Entry} (h : x ∈ s.scan now) :
    x.1 ≤ now ∧ (s.event x.2).m_is_cancled = false :=
  fires_iff.1 (all_eq_true.1 all_takeWhile x h)

/-- the scanned entries are live, and the others are live when they are live among the rest -/
theorem live_eq (s : Timer τ) (now : ℤ) : s.live now =
    s.scan now ++ ((s.rest now).filter fun x => decide (x.1 ≤ now)).filter fun x => !(s.event x.2).m_is_cancled := by
  have hdue : (s.scan now).filter (fun x => decide (x.1 ≤ now)) = s.scan now :=
    filter_eq_self.2 fun x hx => by simpa using (fires_of_mem_scan hx).1
  have hlive : (s.scan now).filter (fun x => !(s.event x.2).m_is_cancled) = s.scan now :=
    filter_eq_self.2 fun x hx => by simpa using (fires_of_mem_scan hx).2
  rw [live, due, ← scan_append_rest s now, filter_append, filter_append, hdue, hlive]

theorem later_eq (s : Timer τ) (now : ℤ) : s.m_pending_events.entries.filter (fun x => decide (now < x.1)) =
    (s.rest now).filter fun x => decide (now < x.1) := by
  have hscan : (s.scan now).filter (fun x => decide (now < x.1)) = [] :=
    filter_eq_nil_iff.2 fun x hx => by simpa using (fires_of_mem_scan hx).1
  rw [← scan_append_rest s now, filter_append, hscan, nil_append]

/-- the rest begins with a cancelled due entry, or nothing in it is due -/
theorem rest_cases (s : Timer τ) (now : ℤ) :
    (∃ x l, s.rest now = x :: l ∧ x.1 ≤ now ∧ (s.event x.2).m_is_cancled = true) ∨ ∀ x ∈ s.rest now, now < x.1 := by
  cases hr : s.rest now with
  | nil => exact Or.inr fun x hx => absurd hx not_mem_nil
  | cons x l =>
    have hx : ¬ s.Fires now x = true := by
      have hhead := head?_dropWhile_not (s.Fires now) s.m_pending_events.entries
      rw [← rest, hr] at hhead
      simpa using hhead
    by_cases hle : x.1 ≤ now
    · refine Or.inl ⟨x, l, rfl, hle, ?_⟩
      by_contra hc
      exact hx (fires_iff.2 ⟨hle, by simpa using hc⟩)
    · -- the list is ordered, so what stands behind `x` is later too
      have hsub : Weak keyLt (x :: l) := by
        rw [← hr]
        exact s.m_pending_events.sorted.sublist (dropWhile_sublist _)
      refine Or.inr ?_
      intro y hy
      rcases mem_cons.1 hy with rfl | hy
      · omega
      · have := (pairwise_cons.1 hsub).1 y hy
        simp only [keyLt, decide_eq_false_iff_not] at this
        omega

theorem rearm_of_not_repeated (clock : ℕ → ℤ) (s : Timer τ) (j : ℕ) (es : List ℕ)
    (h : ∀ e, (s.event e).m_is_repeated = false) : rearm clock s j es = (s, j) := by
  induction es with
  | nil => rfl
  | cons e es ih => simp only [rearm, h e, Bool.false_eq_true, if_false, ih]

/-- a timer without repeated events only loses the entries its scan takes -/
theorem onTimer_of_not_repeated {s : Timer τ} (now : ℤ) (clock : ℕ → ℤ) (h : ∀ e, (s.event e).m_is_repeated = false) :
    (s.onTimer now clock).2 = (s.scan now).map (fun x => (s.event x.2).m_task) ∧
      (s.onTimer now clock).1.m_pending_events.entries = s.rest now ∧ (s.onTimer now clock).1.event = s.event := by
  have hrearm := rearm_of_not_repeated clock
    { s with m_pending_events := s.m_pending_events.eraseFirst (s.scan now).length } 0 ((s.scan now).map Prod.snd) h
  refine ⟨rfl, ?_, ?_⟩
  · simp only [onTimer, hrearm]
    rw [resetArriveTime_pending]
    exact eraseFirst_scan s now
  · simp only [onTimer, hrearm]
    exact resetArriveTime_event _ _

/-- re-arming moves arrival times and nothing else of the events -/
theorem rearm_event (clock : ℕ → ℤ) (s : Timer τ) (j : ℕ) (es : List ℕ) (i : ℕ) :
    (rearm clock s j es).1.event i =
      { s.event i with m_arrive_time := ((rearm clock s j es).1.event i).m_arrive_time } := by
  induction es generalizing s j with
  | nil => rfl
  | cons e es ih =>
    by_cases hr : (s.event e).m_is_repeated = true
    · simp only [rearm, if_pos hr]
      rw [ih, addTimerEvent_event]
      by_cases hi : i = e
      · subst hi
        simp [resetTime]
      · simp [resetTime, hi]
    · simp only [rearm, if_neg hr]
      exact ih s j

theorem onTimer_event (s : Timer τ) (now : ℤ) (clock : ℕ → ℤ) (i : ℕ) : (s.onTimer now clock).1.event i =
    { s.event i with m_arrive_time := ((s.onTimer now clock).1.event i).m_arrive_time } := by
  simp only [onTimer, resetArriveTime_event]
  exact rearm_event clock _ 0 _ i

theorem map_snd_rearmed (event : ℕ → TimerEvent τ) (clock : ℕ → ℤ) (j : ℕ) (es : List ℕ) :
    (rearmed event clock j es).map Prod.snd = es.filter fun e => (event e).m_is_repeated := by
  induction es generalizing j with
  | nil => rfl
  | cons e es ih =>
    by_cases hr : (event e).m_is_repeated = true
    · simp [rearmed, hr, ih]
    · simp [rearmed, hr, ih]

theorem length_rearmed (event : ℕ → TimerEvent τ) (clock : ℕ → ℤ) (j : ℕ) (es : List ℕ) :
    (rearmed event clock j es).length = es.countP fun e => (event e).m_is_repeated := by
  rw [countP_eq_length_filter, ← map_snd_rearmed event clock j es, length_map]

/-- nothing due is cancelled: the scan takes all that is due -/
theorem complete_of_none_cancelled {s : Timer τ} {now : ℤ} (clock : ℕ → ℤ) (h : ∀ x ∈ s.rest now, now < x.1) :
    s.Complete now clock := by
  obtain ⟨h1, h2⟩ := s.onTimer_spec now clock
  have hnone : (s.rest now).filter (fun x => decide (x.1 ≤ now)) = [] :=
    filter_eq_nil_iff.2 fun x hx => by simpa using h x hx
  have hall : (s.rest now).filter (fun x => decide (now < x.1)) = s.rest now :=
    filter_eq_self.2 fun x hx => by simpa using h x hx
  have hlive : s.live now = s.scan now := by rw [live_eq, hnone, filter_nil, append_nil]
  refine ⟨by rw [hlive]; exact h1, ?_⟩
  rw [later_eq, hall, hlive]
  exact h2

/-- a cancelled due entry stays pending, which makes the map too long -/
theorem not_complete_of_cancelled {s : Timer τ} {now : ℤ} (clock : ℕ → ℤ) {x : Entry} {l : List Entry}
    (hr : s.rest now = x :: l) (hx : x.1 ≤ now) (hc : (s.event x.2).m_is_cancled = true) : ¬ s.Complete now clock := by
  rintro ⟨-, hpend⟩
  have hlen := ((s.onTimer_spec now clock).2.symm.trans hpend).length_eq
  rw [later_eq, live_eq, hr] at hlen
  have hlater : (x :: l).filter (fun x => decide (now < x.1)) = l.filter fun x => decide (now < x.1) :=
    filter_cons_of_neg (by simpa using hx)
  have hdue : (x :: l).filter (fun x => decide (x.1 ≤ now)) = x :: l.filter fun x => decide (x.1 ≤ now) :=
    filter_cons_of_pos (by simpa using hx)
  rw [hlater, hdue, filter_cons_of_neg (by simp [hc])] at hlen
  simp only [length_append, length_cons, length_rearmed, map_append, countP_append] at hlen
  have hbound := (countP_le_length (p := fun e => (s.event e).m_is_repeated)
    (l := ((l.filter fun x => decide (x.1 ≤ now)).filter fun x => !(s.event x.2).m_is_cancled).map Prod.snd))
  have hsub := length_filter_le (fun x => !(s.event x.2).m_is_cancled) (l.filter fun x => decide (x.1 ≤ now))
  have htotal := l.length_eq_length_filter_add fun x => decide (x.1 ≤ now)
  have hneg : (l.filter fun x => !decide (x.1 ≤ now)) = l.filter fun x => decide (now < x.1) :=
    filter_congr fun x _ => by simp only [← not_le, decide_not]
  rw [hneg] at htotal
  rw [length_map] at hbound
  omega

/-- **onTimer.** For every pending map, every set of cancelled and repeated events and every clock: the call hands over
exactly the tasks of the live due events, in arrival order, and leaves exactly the later entries and the re-armed ones, if
and only if no event that is due was cancelled. -/
theorem onTimer_complete_iff (s : Timer τ) (now : ℤ) (clock : ℕ → ℤ) :
    s.Complete now clock ↔ ∀ x ∈ s.m_pending_events.entries, x.1 ≤ now → (s.event x.2).m_is_cancled = false := by
  refine ⟨?_, ?_⟩
  · intro hcomp
    rcases s.rest_cases now with ⟨x, l, hr, hx, hc⟩ | hlater
    · exact absurd hcomp (not_complete_of_cancelled clock hr hx hc)
    · intro x hx hle
      rw [← scan_append_rest s now] at hx
      rcases mem_append.1 hx with hx | hx
      · exact (fires_of_mem_scan hx).2
      · have := hlater x hx
        omega
  · intro h
    rcases s.rest_cases now with ⟨x, l, hr, hx, hc⟩ | hlater
    · have hmem : x ∈ s.m_pending_events.entries := by
        rw [← scan_append_rest s now, hr]
        simp
      rw [h x hmem hx] at hc
      exact absurd hc (by decide)
    · exact complete_of_none_cancelled clock hlater

/-- two one-shot events made at time 0 and filed, due at 10 and at 20; the first is then cancelled -/
def cancelledFirst : Timer ℕ :=
  let event e := TimerEvent.make 0 (if e = 0 then 10 else 20) false e
  ((Timer.mk Pending.empty event none).addTimerEvent 0 true 0 |>.addTimerEvent 1 true 0).delTimerEvent 0

/-- The cancelled event stays in front and keeps the task of the other one from being handed over. -/
theorem cancelled_blocks :
    (cancelledFirst.onTimer 30 fun _ => 30).2 = [] ∧ (cancelledFirst.live 30).map Prod.snd = [1] ∧
    (cancelledFirst.onTimer 30 fun _ => 30).1.m_pending_events.entries = [(10, 0), (20, 1)] ∧
    ¬ cancelledFirst.Complete 30 fun _ => 30 := by
  refine ⟨by decide, by decide, by decide, fun h => absurd h.1 (by decide)⟩

end Timer

end TinyRpc.Net
