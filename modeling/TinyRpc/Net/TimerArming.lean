/-
The timerfd behind the pending events (net/timer.cc).

`resetArriveTime` sets the timerfd for the first pending event, except when that event is already past (it then leaves
the timerfd as it is) and when it is due in this very millisecond (the interval is then zero, which disarms the
timerfd). Both tests are made at a reading of the clock of their own, later than the scan.

Main result `timer_awake_iff`: with clock readings that do not go back, the timerfd is set in time for the pending
events after every call, if and only if every call of `resetArriveTime` finds them all later than its reading, or one of
them before it and an expiry that fires by then still set.
-/
import Mathlib.Tactic
import TinyRpc.Core.Machine
import TinyRpc.Net.TimerRuns

namespace TinyRpc.Net.TimerArming

open TinyRpc.Core TinyRpc.Net.TimerRuns List

/-- with events pending, the timerfd fires by the time each of them arrives, or at once when that time has passed -/
def Rings (t : Timer ℕ) (now : ℤ) : Prop :=
  t.m_pending_events.entries ≠ [] → ∃ expiry ∈ t.armed, ∀ x ∈ t.m_pending_events.entries, expiry ≤ max x.1 now

instance (t : Timer ℕ) (now : ℤ) : Decidable (Rings t now) := inferInstanceAs (Decidable (_ → _))

def Awake (s : St) : Prop := Rings s.timer s.now

instance : DecidablePred Awake := fun s => inferInstanceAs (Decidable (Rings s.timer s.now))

/-- readings of the clock do not go back, and owners let addTimerEvent reset the timerfd -/
def Forward (s : St) : Op → Prop
  | .make interval _ now => 0 ≤ interval ∧ s.now ≤ now
  | .addTimerEvent _ need_reset now => need_reset = true ∧ s.now ≤ now
  | .onTimer read now clock => s.now ≤ read ∧ read ≤ now ∧ now ≤ clock 0 ∧ Monotone clock
  | .delTimerEvent _ | .exec => True

/-- the events arriving at `times` are all later than the reading, or one is past and the timerfd fires by now -/
def InTime (armed : Option ℤ) (now : ℤ) (times : List ℤ) : Prop :=
  (∀ k ∈ times, now < k) ∨ (∃ k ∈ times, k < now) ∧ ∃ expiry ∈ armed, expiry ≤ now

/-- does addTimerEvent(e) call `resetArriveTime`? -/
def Resets (t : Timer ℕ) (e : ℕ) : Prop :=
  ∀ x ∈ t.m_pending_events.entries.head?, (t.event e).m_arrive_time < (t.event x.2).m_arrive_time

/-- the operation calls `resetArriveTime` in time, if it does -/
def ResetsInTime (s : St) : Op → Prop
  | .addTimerEvent e _ now =>
    e < s.made → Resets s.timer e →
      InTime s.timer.armed now ((s.timer.event e).m_arrive_time :: s.timer.m_pending_events.entries.map Prod.fst)
  | .onTimer read now clock =>
    InTime (readFd s.timer read).armed (clock (reinserted s.timer now clock).length)
      ((s.timer.rest now ++ reinserted s.timer now clock).map Prod.fst)
  | .make _ _ _ | .delTimerEvent _ | .exec => True

variable {s : St} {t : Timer ℕ}

/-! ## Setting the timerfd -/

theorem InTime.perm {armed : Option ℤ} {now : ℤ} {times times' : List ℤ} (h : times ~ times') :
    InTime armed now times ↔ InTime armed now times' := by
  unfold InTime
  simp only [h.mem_iff]

/-- `resetArriveTime` does its duty exactly when it is called in time -/
theorem resetArriveTime_rings (t : Timer ℕ) (now : ℤ) :
    Rings (t.resetArriveTime now) now ↔ InTime t.armed now (t.m_pending_events.entries.map Prod.fst) := by
  unfold Rings
  rw [Timer.resetArriveTime_pending]
  unfold Timer.resetArriveTime
  have hsorted := t.m_pending_events.sorted
  cases hp : t.m_pending_events.entries with
  | nil => simp [InTime]
  | cons x l =>
    have hmin : ∀ y ∈ x :: l, x.1 ≤ y.1 := by
      intro y hy
      rw [hp] at hsorted
      rcases mem_cons.1 hy with rfl | hy
      · exact le_rfl
      · simpa [keyLt] using (pairwise_cons.1 hsorted).1 y hy
    have hhead : x ∈ x :: l := mem_cons_self ..
    simp only [ne_eq, reduceCtorEq, not_false_eq_true, forall_true_left]
    rcases lt_trichotomy x.1 now with hlt | heq | hgt
    · -- past: nothing is set
      rw [if_pos hlt]
      refine ⟨?_, ?_⟩
      · intro h
        obtain ⟨expiry, hexp, hall⟩ := h
        refine Or.inr ⟨⟨x.1, mem_map_of_mem hhead, hlt⟩, expiry, hexp, ?_⟩
        simpa [max_eq_right hlt.le] using hall x hhead
      · intro h
        rcases h with hall | ⟨-, expiry, hexp, hle⟩
        · exact absurd (hall x.1 (mem_map_of_mem hhead)) hlt.le.not_gt
        · exact ⟨expiry, hexp, fun y _ => hle.trans (le_max_right _ _)⟩
    · -- due now: disarmed
      rw [if_neg heq.ge.not_gt]
      refine ⟨?_, ?_⟩
      · intro h
        obtain ⟨expiry, hexp, -⟩ := h
        simp [heq] at hexp
      · intro h
        rcases h with hall | ⟨⟨k, hk, hlt⟩, -⟩
        · exact absurd (hall x.1 (mem_map_of_mem hhead)) heq.le.not_gt
        · obtain ⟨y, hy, rfl⟩ := mem_map.1 hk
          have := hmin y hy
          omega
    · rw [if_neg hgt.le.not_gt]
      refine ⟨?_, ?_⟩
      · intro _
        refine Or.inl ?_
        intro k hk
        obtain ⟨y, hy, rfl⟩ := mem_map.1 hk
        exact hgt.trans_le (hmin y hy)
      · intro _
        have hne : x.1 - now ≠ 0 := by omega
        refine ⟨x.1, by simp [hne], ?_⟩
        intro y hy
        exact (hmin y hy).trans (le_max_left _ _)

theorem addTimerEvent_of_resets {e : ℕ} (h : Resets t e) (now : ℤ) : t.addTimerEvent e true now =
    { t with m_pending_events := t.m_pending_events.emplace (t.event e).m_arrive_time e }.resetArriveTime now := by
  unfold Resets at h
  unfold Timer.addTimerEvent
  cases hp : t.m_pending_events.entries with
  | nil => rfl
  | cons x l =>
    rw [hp] at h
    have hx := h x rfl
    simp [hx]

theorem addTimerEvent_of_not_resets {e : ℕ} (h : ¬ Resets t e) (now : ℤ) :
    (t.addTimerEvent e true now).armed = t.armed ∧
      ∃ x ∈ t.m_pending_events.entries, (t.event x.2).m_arrive_time ≤ (t.event e).m_arrive_time := by
  unfold Resets at h
  unfold Timer.addTimerEvent
  cases hp : t.m_pending_events.entries with
  | nil => exact absurd (by simp [hp]) h
  | cons x l =>
    have hx : ¬ (t.event e).m_arrive_time < (t.event x.2).m_arrive_time := by simpa [hp] using h
    exact ⟨by simp [hx], x, mem_cons_self .., not_lt.1 hx⟩

/-! ## Arrival times and keys -/

/-- events are filed no later than they arrive, and arrive no later than an interval from now. An event that is added
twice can stand under an earlier time than the one it carries -/
structure Keyed (t : Timer ℕ) (made : ℕ) (now : ℤ) : Prop where
  filed : ∀ x ∈ t.m_pending_events.entries, x.2 < made ∧ x.1 ≤ (t.event x.2).m_arrive_time
  arrive : ∀ e < made, (t.event e).m_arrive_time ≤ now + (t.event e).m_interval

variable {made : ℕ} {now : ℤ}

theorem Keyed.later (h : Keyed t made now) {now' : ℤ} (hle : now ≤ now') : Keyed t made now' := by
  refine ⟨h.filed, ?_⟩
  intro e he
  calc (t.event e).m_arrive_time ≤ now + (t.event e).m_interval := h.arrive e he
    _ ≤ now' + (t.event e).m_interval := Int.add_le_add_right hle _

/-- only the pending events and the event objects count -/
theorem Keyed.congr {t' : Timer ℕ} (h : Keyed t made now) (hp : t'.m_pending_events.entries ⊆ t.m_pending_events.entries)
    (he : t'.event = t.event) : Keyed t' made now := by
  refine ⟨?_, ?_⟩
  · intro x hx
    rw [he]
    exact h.filed x (hp hx)
  · rw [he]
    exact h.arrive

theorem Keyed.addTimerEvent (h : Keyed t made now) {e : ℕ} (he : e < made) (need_reset : Bool) (c : ℤ) :
    Keyed (t.addTimerEvent e need_reset c) made now := by
  refine ⟨?_, ?_⟩
  · intro x hx
    rw [Timer.addTimerEvent_event]
    rw [Timer.addTimerEvent_pending] at hx
    rcases mem_cons.1 ((Pending.emplace_perm _ _ _).mem_iff.1 hx) with rfl | hx
    · exact ⟨he, le_rfl⟩
    · exact h.filed x hx
  · rw [Timer.addTimerEvent_event]
    exact h.arrive

theorem Keyed.resetTime (h : Keyed t made now) (e : ℕ) : Keyed (t.resetTime e now) made now := by
  refine ⟨?_, ?_⟩
  · intro x hx
    obtain ⟨hm, hle⟩ := h.filed x hx
    refine ⟨hm, ?_⟩
    by_cases hxe : x.2 = e
    · rw [hxe] at hm hle
      simpa [Timer.resetTime, hxe] using hle.trans (h.arrive e hm)
    · simpa [Timer.resetTime, hxe] using hle
  · intro f hf
    by_cases hfe : f = e
    · simp [Timer.resetTime, hfe]
    · simpa [Timer.resetTime, hfe] using h.arrive f hf

/-- The loop that re-arms, with a clock that does not go back: it makes one reading for each entry it puts back, and
leaves the timerfd alone. -/
theorem rearm_keyed {clock : ℕ → ℤ} (hclock : Monotone clock) {j : ℕ} {es : List ℕ} (hes : ∀ e ∈ es, e < made)
    (h : Keyed t made (clock j)) :
    Keyed (Timer.rearm clock t j es).1 made (clock (Timer.rearm clock t j es).2) ∧
      (Timer.rearm clock t j es).2 = j + (Timer.rearmed t.event clock j es).length ∧
      (Timer.rearm clock t j es).1.armed = t.armed := by
  induction es generalizing t j with
  | nil => exact ⟨h, rfl, rfl⟩
  | cons e es ih =>
    obtain ⟨he, hes⟩ := forall_mem_cons.1 hes
    by_cases hr : (t.event e).m_is_repeated = true
    · have hstep : Keyed ((t.resetTime e (clock j)).addTimerEvent e false (clock j)) made (clock (j + 1)) :=
        ((h.resetTime e).addTimerEvent he false (clock j)).later (hclock (Nat.le_succ j))
      obtain ⟨h1, h2, h3⟩ := ih hes hstep
      simp only [Timer.rearm, Timer.rearmed, if_pos hr]
      refine ⟨h1, ?_, ?_⟩
      · rw [h2, Timer.addTimerEvent_event, Timer.rearmed_congr clock (Timer.resetTime_event t e (clock j)), length_cons]
        omega
      · rw [h3]
        simp [Timer.addTimerEvent, Timer.resetTime]
    · simp only [Timer.rearm, Timer.rearmed, if_neg hr]
      exact ih hes h

/-- `onTimer` after its scan and the erase of what the scan took -/
def erased (t : Timer ℕ) (now : ℤ) : Timer ℕ :=
  { t with m_pending_events := t.m_pending_events.eraseFirst (t.scan now).length }

/-- `onTimer` ends with a call of `resetArriveTime`, at the reading after the last entry it puts back. -/
theorem onTimer_reset (read now : ℤ) {clock : ℕ → ℤ} (hclock : Monotone clock) (h : Keyed s.timer s.made (clock 0)) :
    ∃ t : Timer ℕ,
      (step s (.onTimer read now clock)).timer = t.resetArriveTime (clock (reinserted s.timer now clock).length) ∧
      t.m_pending_events.entries ~ s.timer.rest now ++ reinserted s.timer now clock ∧
      t.armed = (readFd s.timer read).armed ∧
      Keyed t s.made (clock (reinserted s.timer now clock).length) := by
  obtain ⟨hpend, hevent⟩ := readFd_eq s.timer read
  obtain ⟨hscan, hrest⟩ := readFd_scan s.timer read now
  have hentries : (erased (readFd s.timer read) now).m_pending_events.entries = s.timer.rest now :=
    ((readFd s.timer read).eraseFirst_scan now).trans hrest
  have hkeyed : Keyed (erased (readFd s.timer read) now) s.made (clock 0) := by
    refine h.congr ?_ hevent
    rw [hentries]
    exact (dropWhile_sublist _).subset
  have hes : ∀ e ∈ (s.timer.scan now).map Prod.snd, e < s.made := by
    intro e he
    obtain ⟨x, hx, rfl⟩ := mem_map.1 he
    exact (h.filed x ((takeWhile_sublist _).subset hx)).1
  obtain ⟨h1, h2, h3⟩ := rearm_keyed hclock hes hkeyed
  have hback : Timer.rearmed (erased (readFd s.timer read) now).event clock 0 ((s.timer.scan now).map Prod.snd) =
      reinserted s.timer now clock := by
    rw [reinserted, ← hevent]
    rfl
  rw [hback, Nat.zero_add] at h2
  rw [h2] at h1
  have hperm := Timer.rearm_entries clock (erased (readFd s.timer read) now) 0 ((s.timer.scan now).map Prod.snd)
  rw [hback, hentries] at hperm
  refine ⟨_, ?_, hperm, h3, h1⟩
  rw [← h2, ← hscan]
  rfl

/-! ## Whole runs -/

structure Inv (s : St) : Prop where
  awake : Awake s
  keyed : Keyed s.timer s.made s.now

theorem Rings.later {now' : ℤ} (h : Rings t now) (hle : now ≤ now') : Rings t now' := by
  intro hne
  obtain ⟨expiry, hexp, hall⟩ := h hne
  refine ⟨expiry, hexp, ?_⟩
  intro x hx
  calc expiry ≤ max x.1 now := hall x hx
    _ ≤ max x.1 now' := max_le_max_left _ hle

theorem Inv.make (h : Inv s) (interval : ℤ) (is_repeated : Bool) (hle : s.now ≤ now) :
    Inv (step s (.make interval is_repeated now)) := by
  refine ⟨h.awake.later hle, ?_, ?_⟩
  · intro x hx
    obtain ⟨hm, hx⟩ := h.keyed.filed x hx
    exact ⟨hm.trans (Nat.lt_succ_self _), by simpa [step, hm.ne] using hx⟩
  · intro e he
    by_cases hm : e = s.made
    · simp [step, hm, TimerEvent.make]
    · have he' : e < s.made := lt_of_le_of_ne (Nat.lt_succ_iff.1 he) hm
      have hold := (h.keyed.later hle).arrive e he'
      simpa [step, hm] using hold

theorem Inv.delTimerEvent (h : Inv s) (e : ℕ) : Inv (step s (.delTimerEvent e)) := by
  simp only [step]
  split_ifs
  · refine ⟨h.awake, ?_, ?_⟩
    · intro x hx
      rw [(s.timer.delTimerEvent_event e x.2).1]
      exact h.keyed.filed x hx
    · intro f hf
      obtain ⟨harrive, hinterval, -⟩ := s.timer.delTimerEvent_event e f
      rw [harrive, hinterval]
      exact h.keyed.arrive f hf
  · exact h

/-- an added event that does not come first leaves the expiry in time -/
theorem addTimerEvent_awake_iff (h : Inv s) {e : ℕ} (hm : e < s.made) (hle : s.now ≤ now) :
    Awake (step s (.addTimerEvent e true now)) ↔ ResetsInTime s (.addTimerEvent e true now) := by
  have hperm := Pending.emplace_perm s.timer.m_pending_events (s.timer.event e).m_arrive_time e
  have hstep : (step s (.addTimerEvent e true now)).timer = s.timer.addTimerEvent e true now ∧
      (step s (.addTimerEvent e true now)).now = now := by
    simp [step, hm]
  unfold Awake
  rw [hstep.1, hstep.2]
  by_cases hr : Resets s.timer e
  · rw [addTimerEvent_of_resets hr, resetArriveTime_rings, InTime.perm (hperm.map Prod.fst)]
    exact ⟨fun hin _ _ => hin, fun hin => hin hm hr⟩
  · obtain ⟨harmed, x, hx, hlate⟩ := addTimerEvent_of_not_resets hr now
    refine ⟨fun _ _ hr' => absurd hr' hr, ?_⟩
    intro _ _
    obtain ⟨expiry, hexp, hall⟩ := (Rings.later h.awake hle) (ne_nil_of_mem hx)
    refine ⟨expiry, harmed ▸ hexp, ?_⟩
    intro y hy
    rw [Timer.addTimerEvent_pending] at hy
    rcases mem_cons.1 (hperm.mem_iff.1 hy) with rfl | hy
    · calc expiry ≤ max x.1 now := hall x hx
        _ ≤ max (s.timer.event e).m_arrive_time now :=
          max_le_max_right _ ((h.keyed.filed x hx).2.trans hlate)
    · exact hall y hy

theorem step_awake_iff (h : Inv s) {o : Op} (ho : Forward s o) :
    (Awake (step s o) ↔ ResetsInTime s o) ∧ (ResetsInTime s o → Inv (step s o)) := by
  cases o with
  | make interval is_repeated now =>
    have hinv := h.make interval is_repeated ho.2
    exact ⟨⟨fun _ => trivial, fun _ => hinv.awake⟩, fun _ => hinv⟩
  | addTimerEvent e need_reset now =>
    obtain ⟨rfl, hle⟩ := ho
    by_cases hm : e < s.made
    · have hiff := addTimerEvent_awake_iff h hm hle
      refine ⟨hiff, ?_⟩
      intro hin
      refine ⟨hiff.2 hin, ?_⟩
      simp only [step, if_pos hm]
      exact (h.keyed.addTimerEvent hm true now).later hle
    · have hsame : step s (.addTimerEvent e true now) = s := by simp only [step, if_neg hm]
      rw [hsame]
      exact ⟨⟨fun _ hlt => absurd hlt hm, fun _ => h.awake⟩, fun _ => h⟩
  | delTimerEvent e => exact ⟨⟨fun _ => trivial, fun _ => (h.delTimerEvent e).awake⟩, fun _ => h.delTimerEvent e⟩
  | onTimer read now clock =>
    obtain ⟨h1, h2, h3, hclock⟩ := ho
    have hlater : s.now ≤ clock 0 := by
      calc s.now ≤ read := h1
        _ ≤ now := h2
        _ ≤ clock 0 := h3
    have hkeyed : Keyed s.timer s.made (clock 0) := h.keyed.later hlater
    obtain ⟨t, heq, hperm, harmed, ht⟩ := onTimer_reset read now hclock hkeyed
    have hiff : Awake (step s (.onTimer read now clock)) ↔ ResetsInTime s (.onTimer read now clock) := by
      unfold Awake
      rw [heq]
      refine (resetArriveTime_rings t _).trans ?_
      rw [InTime.perm (hperm.map Prod.fst), harmed]
      rfl
    refine ⟨hiff, ?_⟩
    intro hin
    refine ⟨hiff.2 hin, ?_⟩
    rw [heq]
    refine ht.congr ?_ (Timer.resetArriveTime_event _ _)
    rw [Timer.resetArriveTime_pending]
    exact Subset.refl _
  | exec => exact ⟨⟨fun _ => trivial, fun _ => h.awake⟩, fun _ => ⟨h.awake, h.keyed⟩⟩

/-- a timer made at `now` -/
def start (now : ℤ) : St := { init with now := now }

theorem start_inv (now : ℤ) : Inv (start now) := by
  refine ⟨?_, ?_, ?_⟩
  · intro hne
    exact absurd rfl hne
  · intro x hx
    exact absurd hx not_mem_nil
  · intro e he
    exact absurd he (Nat.not_lt_zero e)

/-- **The timer does not sleep.** For every run with clock readings that do not go back and with intervals of at least
zero: after every call the timerfd is set to fire by the earliest pending arrival time, or at once when that is past, if
and only if every call of `resetArriveTime` finds all pending events later than its reading of the clock, or one of them
before it and an expiry not later than the reading still set. -/
theorem timer_awake_iff (now : ℤ) (ops : List Op) (h : Along step Forward (start now) ops) :
    Always step Awake (start now) ops ↔ Along step ResetsInTime (start now) ops := by
  have hstep : ∀ s o, Inv s → Forward s o →
      (Awake (step s o) ↔ ResetsInTime s o) ∧ (ResetsInTime s o → Inv (step s o)) :=
    fun s o hi ho => step_awake_iff hi ho
  exact always_iff_of_inv hstep (start_inv now) (start_inv now).awake h

/-- a call whose later readings are all the same -/
theorem forward_onTimer {read now c : ℤ} (h : s.now ≤ read ∧ read ≤ now ∧ now ≤ c) :
    Forward s (.onTimer read now fun _ => c) :=
  ⟨h.1, h.2.1, h.2.2, monotone_const⟩

/-- a repeated event of 10 ms and a one-shot one of 25, with a scan a millisecond late -/
def wakes : List Op :=
  [.make 10 true 0, .make 25 false 0, .addTimerEvent 0 true 0, .addTimerEvent 1 true 1, .onTimer 10 11 fun _ => 11]

theorem timer_awake_wakes : Along step Forward (start 0) wakes ∧ Along step ResetsInTime (start 0) wakes ∧
    Always step Awake (start 0) wakes ∧ (run step (start 0) wakes).timer.armed = some 21 := by
  have hforward : Along step Forward (start 0) wakes :=
    ⟨⟨by decide, by decide⟩, ⟨by decide, by decide⟩, ⟨by decide, by decide⟩, ⟨by decide, by decide⟩,
      forward_onTimer (by decide), trivial⟩
  have hawake : Always step Awake (start 0) wakes := by decide
  exact ⟨hforward, (timer_awake_iff 0 wakes hforward).1 hawake, hawake, by decide⟩

/-- sleep_hook(0): an event of interval zero, added within the millisecond -/
def sleepZero : List Op := [.make 0 false 0, .addTimerEvent 0 true 0]

/-- two events a millisecond apart; the clock passes the second one between the scan and `resetArriveTime` -/
def crossed : List Op :=
  [.make 10 false 0, .make 11 false 0, .addTimerEvent 0 true 0, .addTimerEvent 1 true 0, .onTimer 10 10 fun _ => 12]

/-- the first of two events is cancelled, and the timerfd fires for it -/
def cancelledHead : List Op :=
  [.make 10 false 0, .make 20 false 0, .addTimerEvent 0 true 0, .addTimerEvent 1 true 0, .delTimerEvent 0,
    .onTimer 10 10 fun _ => 11]

/-- the timerfd is left without an expiry, with an event pending -/
def FallsAsleep (ops : List Op) : Prop :=
  Along step Forward (start 0) ops ∧ ¬ Always step Awake (start 0) ops ∧ (run step (start 0) ops).timer.armed = none

/-- The timer goes to sleep with work pending: on an interval of zero, when the clock passes an event in the middle of the
call, and on a cancelled event in front. -/
theorem timer_sleeps : FallsAsleep sleepZero ∧ FallsAsleep crossed ∧ FallsAsleep cancelledHead := by
  refine ⟨⟨?_, by decide, by decide⟩, ⟨?_, by decide, by decide⟩, ⟨?_, by decide, by decide⟩⟩
  · exact ⟨⟨by decide, by decide⟩, ⟨by decide, by decide⟩, trivial⟩
  · exact ⟨⟨by decide, by decide⟩, ⟨by decide, by decide⟩, ⟨by decide, by decide⟩, ⟨by decide, by decide⟩,
      forward_onTimer (by decide), trivial⟩
  · exact ⟨⟨by decide, by decide⟩, ⟨by decide, by decide⟩, ⟨by decide, by decide⟩, ⟨by decide, by decide⟩,
      trivial, forward_onTimer (by decide), trivial⟩

end TinyRpc.Net.TimerArming
