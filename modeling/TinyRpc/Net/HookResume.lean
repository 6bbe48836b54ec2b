/-
Who resumes a coroutine that is suspended in a hook.

`Legit` says of one step that a suspension it ends is ended by what the coroutine waits for. Callbacks stay registered
after the hook that set them has returned, so this needs `Expected`: a READ or WRITE is reported for a coroutine only
while it waits for it, nothing is queued for a coroutine that has a callback queued, and sleeps are below 2^32
milliseconds.

Main result `hooks_resumed_by_awaited`: every run whose steps are expected has only legitimate resumes. The invariant
relates each queued callback to what its coroutine waits for and each timer to the suspension that set it.
`read_event_resumes_writer`: without `Expected` a READ event resumes a coroutine suspended in write_hook.
-/
import Mathlib.Tactic
import TinyRpc.Core.Machine
import TinyRpc.Net.Hook

namespace TinyRpc.Net.Hook

open TinyRpc.Core Function

/-! ## What a coroutine waits for -/

/-- a callback queued for `why` is what a coroutine waits for in its suspension `n`; READ must have been reported after it
suspended -/
def ResumedBy (now : ℤ) (why : Why) (stamp n : ℕ) : Wait → Prop
  | .read fd => why = .read fd ∧ n < stamp
  | .accept fd => why = .read fd ∧ n < stamp
  | .write fd => why = .write fd
  | .connect fd timer => why = .write fd ∨ why = .timeout timer
  | .sleep seconds since _ => since + 1000 * seconds ≤ now

/-- a coroutine whose suspension this operation ends is resumed by what it waits for -/
def Legit (s : St) (o : Op) : Prop :=
  ∀ c w n, s.status c = .parked w n → (step s o).status c ≠ .parked w n →
    o = .exec ∧ ∃ why stamp q, s.queue = .resume c why stamp :: q ∧ ResumedBy s.now why stamp n w

/-- suspended in a hook that waits for READ on `fd` -/
def WaitsRead (fd : ℕ) : Status → Bool
  | .parked (.read f) _ => decide (f = fd)
  | .parked (.accept f) _ => decide (f = fd)
  | _ => false

/-- suspended in a hook that waits for WRITE on `fd` -/
def WaitsWrite (fd : ℕ) : Status → Bool
  | .parked (.write f) _ => decide (f = fd)
  | .parked (.connect f _) _ => decide (f = fd)
  | _ => false

/-- what the task at the head of the queue needs -/
def ExecExpected (s : St) : List Task → Prop
  | .onTimer timer :: _ => ∀ t ∈ s.timers[timer]?, ∀ x ∈ t.m_pending_events.entries,
      t.Fires s.now x = true → (t.event x.2).m_task ∉ queued s
  | _ => True

/-- what a report needs of the coroutines whose callbacks it queues -/
def ReportExpected (s : St) (fd : ℕ) (epollin epollout : Bool) : Prop :=
  ((epollin && (s.fdEvents fd).listenRead) = true →
    ∀ c ∈ (s.fdEvents fd).read_cb_, WaitsRead fd (s.status c) = true ∧ c ∉ queued s) ∧
  ((epollout && (s.fdEvents fd).listenWrite) = true →
    ∀ c ∈ (s.fdEvents fd).write_cb_, WaitsWrite fd (s.status c) = true ∧ c ∉ queued s)

/-- a coroutine is started only when it is not in its callback, a READ or WRITE is reported and a timeout expires only
when no callback of the coroutine is queued, and a READ or WRITE only while it waits for it; sleeps are below 2^32
milliseconds -/
def Expected (s : St) : Op → Prop
  | .start c => (s.status c = .fresh ∨ s.status c = .finished) ∧ c ∉ queued s
  | .call (.sleep seconds) => 1000 * seconds < 2 ^ 32
  | .report fd epollin epollout => s.phase = .poll → ReportExpected s fd epollin epollout
  | .exec => s.cur = none → s.phase = .tasks → ExecExpected s s.queue
  | _ => True

instance (s : St) : (q : List Task) → Decidable (ExecExpected s q)
  | .onTimer timer :: _ => inferInstanceAs (Decidable (∀ t ∈ s.timers[timer]?, ∀ x ∈ t.m_pending_events.entries,
      t.Fires s.now x = true → (t.event x.2).m_task ∉ queued s))
  | .resume _ _ _ :: _ => inferInstanceAs (Decidable True)
  | [] => inferInstanceAs (Decidable True)

instance (s : St) (fd : ℕ) (epollin epollout : Bool) : Decidable (ReportExpected s fd epollin epollout) :=
  inferInstanceAs (Decidable (_ ∧ _))

instance (s : St) : (o : Op) → Decidable (Expected s o)
  | .start c => inferInstanceAs (Decidable (_ ∧ c ∉ queued s))
  | .call (.sleep seconds) => inferInstanceAs (Decidable (1000 * seconds < 2 ^ 32))
  | .report fd epollin epollout => inferInstanceAs (Decidable (s.phase = .poll → ReportExpected s fd epollin epollout))
  | .exec => inferInstanceAs (Decidable (s.cur = none → s.phase = .tasks → ExecExpected s s.queue))
  | .call (.read _ _) => inferInstanceAs (Decidable True)
  | .call (.accept _ _) => inferInstanceAs (Decidable True)
  | .call (.write _ _) => inferInstanceAs (Decidable True)
  | .call (.connect _ _) => inferInstanceAs (Decidable True)
  | .finish | .unregister _ | .delListenWrite _ | .setMaxTimeOut _ | .poll | .expire _ | .collected | .tick _ =>
    inferInstanceAs (Decidable True)

/-! ## The invariant -/

/-- a queued callback, against what its coroutine is doing -/
def Awaited (now : ℤ) (why : Why) (stamp : ℕ) : Status → Prop
  | .fresh => True
  | .parked (.sleep seconds since timer) _ => why = .timeout timer ∧ since + 1000 * seconds ≤ now
  | .parked w n => ResumedBy now why stamp n w
  | _ => False

/-- what timer `i` is for, when it is due at `a` -/
def Sets (i : ℕ) (a : ℤ) : Status → Prop
  | .parked (.connect _ timer) _ => timer = i
  | .parked (.sleep seconds since timer) _ => timer = i ∧ since + 1000 * seconds ≤ a
  | _ => False

/-- timer `i` has at most its one event pending, and when that is not cancelled its coroutine waits for it -/
structure IsAlarm (status : ℕ → Status) (i : ℕ) (t : Timer ℕ) : Prop where
  once : ∀ e, (t.event e).m_is_repeated = false
  single : t.m_pending_events.entries.length ≤ 1
  first : ∀ x ∈ t.m_pending_events.entries, x.2 = 0
  live : ∀ x ∈ t.m_pending_events.entries, (t.event x.2).m_is_cancled = false → Sets i x.1 (status (t.event x.2).m_task)

/-- timer `i` has nothing pending -/
def Spent (timers : List (Timer ℕ)) (i : ℕ) : Prop := ∃ t, timers[i]? = some t ∧ t.m_pending_events.entries = []

structure Inv (s : St) : Prop where
  awaited : ∀ c why k, .resume c why k ∈ s.queue → Awaited s.now why k (s.status c)
  nodup : (queued s).Nodup
  running : ∀ c, s.cur = some c → s.status c = .active
  tickets : ∀ c w n, s.status c = .parked w n → n < s.parks
  alarms : ∀ i t, s.timers[i]? = some t → IsAlarm s.status i t
  spent : ∀ c i k, .resume c (.timeout i) k ∈ s.queue → Spent s.timers i

theorem inv_init : Inv init := by
  constructor <;> simp [init, queued]

variable {s : St} {c : ℕ}

theorem mem_queued : c ∈ queued s ↔ ∃ why k, .resume c why k ∈ s.queue := by
  constructor
  · intro h
    obtain ⟨x, hx, hco⟩ := List.mem_filterMap.1 h
    cases x with
    | resume d why k =>
      obtain rfl : d = c := by simpa [Task.co] using hco
      exact ⟨why, k, hx⟩
    | onTimer i => simp [Task.co] at hco
  · rintro ⟨why, k, hx⟩
    exact List.mem_filterMap.2 ⟨_, hx, rfl⟩

theorem waitsRead_iff {fd : ℕ} {st : Status} :
    WaitsRead fd st = true ↔ ∃ n, st = .parked (.read fd) n ∨ st = .parked (.accept fd) n := by
  cases st with
  | parked w n => cases w <;> simp [WaitsRead]
  | _ => simp [WaitsRead]

theorem waitsWrite_iff {fd : ℕ} {st : Status} :
    WaitsWrite fd st = true ↔ ∃ n, st = .parked (.write fd) n ∨ ∃ i, st = .parked (.connect fd i) n := by
  cases st with
  | parked w n => cases w <;> simp [WaitsWrite]
  | _ => simp [WaitsWrite]

theorem waitsRead_waitsWrite {fd : ℕ} {st : Status} (hr : WaitsRead fd st = true)
    (hw : WaitsWrite fd st = true) : False := by
  obtain ⟨n, rfl | rfl⟩ := waitsRead_iff.1 hr <;> simp [WaitsWrite] at hw

/-- no live event is set to resume `c` -/
def Off (s : St) (c : ℕ) : Prop := ∀ (i : ℕ) (t : Timer ℕ), s.timers[i]? = some t → ∀ x ∈ t.m_pending_events.entries,
  (t.event x.2).m_is_cancled = false → (t.event x.2).m_task ≠ c

namespace Inv

theorem setFd (h : Inv s) (fd : ℕ) (v : FdEvent) : Inv (setFd s fd v) :=
  ⟨h.awaited, h.nodup, h.running, h.tickets, h.alarms, h.spent⟩

theorem off (h : Inv s) {st : Status} (hs : s.status c = st) (hst : ∀ i a, ¬ Sets i a st) : Off s c := by
  rintro i t ht x hx hl rfl
  have hset := (h.alarms i t ht).live x hx hl
  rw [hs] at hset
  exact hst i x.1 hset

theorem not_queued (h : Inv s) (hc : s.status c = .active) : c ∉ queued s := by
  intro hq
  obtain ⟨why, k, hx⟩ := mem_queued.1 hq
  have ha := h.awaited c why k hx
  rw [hc] at ha
  exact ha

/-- the head of the queue is taken off -/
theorem tail (h : Inv s) {x : Task} {q : List Task} (hq : s.queue = x :: q) : Inv { s with queue := q } := by
  have hsub : ∀ y ∈ q, y ∈ s.queue := fun y hy => by rw [hq]; exact List.mem_cons_of_mem _ hy
  refine { h with awaited := ?_, nodup := ?_, spent := ?_ }
  · intro c why k hx
    exact h.awaited c why k (hsub _ hx)
  · have hnd := h.nodup
    rw [queued, hq] at hnd
    exact hnd.sublist ((List.sublist_cons_self x q).filterMap _)
  · intro c i k hx
    exact h.spent c i k (hsub _ hx)

/-- a callback is queued -/
theorem enqueue (h : Inv s) {why : Why} (hc : c ∉ queued s) (ha : Awaited s.now why s.parks (s.status c))
    (ht : ∀ i, why = .timeout i → Spent s.timers i) : Inv { s with queue := s.queue ++ [.resume c why s.parks] } := by
  refine { h with awaited := ?_, nodup := ?_, spent := ?_ }
  · intro d why' k hx
    simp only [List.mem_append, List.mem_singleton, Task.resume.injEq] at hx
    rcases hx with hx | ⟨rfl, rfl, rfl⟩
    · exact h.awaited d why' k hx
    · exact ha
  · have hq : queued { s with queue := s.queue ++ [.resume c why s.parks] } = queued s ++ [c] := by
      simp [queued, Task.co]
    rw [hq]
    exact List.nodup_append.2 ⟨h.nodup, List.nodup_singleton c, fun a ha' b hb => by
      rintro rfl
      exact hc (List.mem_singleton.1 hb ▸ ha')⟩
  · intro d i k hx
    simp only [List.mem_append, List.mem_singleton, Task.resume.injEq] at hx
    rcases hx with hx | ⟨rfl, rfl, rfl⟩
    · exact h.spent d i k hx
    · exact ht i rfl

/-- a coroutine that nothing is going to resume changes its status -/
theorem move (h : Inv s) (hq : c ∉ queued s) (hoff : Off s c) {st : Status} {p : ℕ} (hp : s.parks ≤ p)
    (hst : ∀ w n, st = .parked w n → n < p) {cur : Option ℕ} (hcur : ∀ d, cur = some d → update s.status c st d = .active) :
    Inv { s with status := update s.status c st, parks := p, cur := cur } := by
  have hne : ∀ d, d ≠ c → update s.status c st d = s.status d := fun d hd => update_of_ne hd _ _
  refine { h with awaited := ?_, running := hcur, tickets := ?_, alarms := ?_ }
  · intro d why k hx
    have hd : d ≠ c := by
      rintro rfl
      exact hq (mem_queued.2 ⟨why, k, hx⟩)
    simp only [hne d hd]
    exact h.awaited d why k hx
  · intro d w n hd
    by_cases hdc : d = c
    · subst hdc
      simp only [update_self] at hd
      exact hst w n hd
    · simp only [hne d hdc] at hd
      exact (h.tickets d w n hd).trans_le hp
  · intro i t ht
    obtain ⟨h1, h2, h3, h4⟩ := h.alarms i t ht
    refine ⟨h1, h2, h3, ?_⟩
    intro x hx hl
    simp only [hne _ (hoff i t ht x hx hl)]
    exact h4 x hx hl

theorem moveActive (h : Inv s) (hc : s.status c = .active) {st : Status} {p : ℕ} (hp : s.parks ≤ p)
    (hst : ∀ w n, st = .parked w n → n < p) : Inv { s with status := update s.status c st, parks := p, cur := none } := by
  exact h.move (h.not_queued hc) (h.off hc fun _ _ => id) hp hst fun d hd => absurd hd (by simp)

theorem park (h : Inv s) (hc : s.status c = .active) (w : Wait) : Inv (park s c w) :=
  h.moveActive hc (Nat.le_succ _) fun w' n hw => by
    obtain ⟨-, rfl⟩ := Status.parked.inj hw
    exact Nat.lt_succ_self _

/-- a hook sets the timer its coroutine waits for -/
theorem addAlarm (h : Inv s) {now interval : ℤ} (hc : Sets s.timers.length (now + interval) (s.status c)) :
    Inv { s with timers := s.timers ++ [alarm now interval c] } := by
  have hev : ∀ e, (alarm now interval c).event e = TimerEvent.make now interval false c := by
    intro e
    rw [alarm, Timer.addTimerEvent_event]
  have hent : (alarm now interval c).m_pending_events.entries = [(now + interval, 0)] := by
    rw [alarm, Timer.addTimerEvent_pending]
    rfl
  refine { h with alarms := ?_, spent := ?_ }
  · intro i t ht
    by_cases hi : i < s.timers.length
    · rw [List.getElem?_append_left hi] at ht
      exact h.alarms i t ht
    · obtain ⟨rfl, rfl⟩ : i = s.timers.length ∧ alarm now interval c = t := by
        rw [List.getElem?_append_right (not_lt.1 hi), List.getElem?_singleton] at ht
        split_ifs at ht with h0
        exact ⟨by omega, Option.some.inj ht⟩
      refine ⟨fun e => by rw [hev]; rfl, by simp [hent], by simp [hent], ?_⟩
      intro x hx _
      rw [hent, List.mem_singleton] at hx
      subst hx
      rw [hev]
      exact hc
  · intro d i k hx
    obtain ⟨t, ht, hn⟩ := h.spent d i k hx
    exact ⟨t, by rw [List.getElem?_append_left (List.getElem?_eq_some_iff.1 ht).1]; exact ht, hn⟩

/-- One hook call, up to its return or its Yield. -/
theorem callHook (h : Inv s) (hc : s.status c = .active) {call : Call} (hx : Expected s (.call call)) :
    Inv (callHook s c call) := by
  cases call with
  | read fd ready =>
    cases ready with
    | true => exact h.setFd fd _
    | false => exact (h.setFd fd _).park hc _
  | accept fd ready =>
    cases ready with
    | true => exact h
    | false => exact (h.setFd fd _).park hc _
  | write fd ready =>
    cases ready with
    | true => exact h.setFd fd _
    | false => exact (h.setFd fd _).park hc _
  | connect fd inProgress =>
    cases inProgress with
    | true =>
      refine ((h.setFd fd _).park hc (.connect fd s.timers.length)).addAlarm ?_
      simp [Hook.park, Hook.setFd, Sets]
    | false => exact h
  | sleep seconds =>
    have hms : ((1000 * seconds % 2 ^ 32 : ℕ) : ℤ) = 1000 * seconds := by
      rw [Nat.mod_eq_of_lt hx]
      push_cast
      rfl
    refine (h.park hc (.sleep seconds s.now s.timers.length)).addAlarm ?_
    simp only [Hook.park, update_self, Sets]
    exact ⟨trivial, by rw [hms]⟩

theorem cancel (h : Inv s) (i : ℕ) : Inv { s with timers := s.timers.modify i fun t => t.delTimerEvent 0 } := by
  refine { h with alarms := ?_, spent := ?_ }
  · intro j t' ht'
    simp only [List.getElem?_modify] at ht'
    split_ifs at ht' with hij
    · obtain ⟨t, ht, rfl⟩ := Option.map_eq_some_iff.1 ht'
      obtain ⟨h1, h2, h3, h4⟩ := h.alarms j t ht
      refine ⟨?_, h2, h3, ?_⟩
      · intro e
        by_cases he : e = 0 <;> simp [Timer.delTimerEvent, he, h1]
      · intro x hx hl
        rw [h3 x hx] at hl
        simp [Timer.delTimerEvent] at hl
    · exact h.alarms j t' (by simpa using ht')
  · intro d j k hx
    obtain ⟨t, ht, hn⟩ := h.spent d j k hx
    simp only [Spent, List.getElem?_modify, ht]
    split_ifs
    · exact ⟨t.delTimerEvent 0, rfl, hn⟩
    · exact ⟨t, rfl, hn⟩

theorem activate (h : Inv s) (hq : c ∉ queued s) (hoff : Off s c) :
    Inv { s with status := update s.status c .active, cur := some c } := by
  refine h.move hq hoff le_rfl (fun w n hw => by simp at hw) ?_
  intro d hd
  obtain rfl := Option.some.inj hd
  exact update_self _ _ _

/-- A callback resumes the coroutine that waits for it. -/
theorem resume (h : Inv s) (hq : c ∉ queued s) {why : Why} {k : ℕ} (ha : Awaited s.now why k (s.status c))
    (ht : ∀ i, why = .timeout i → Spent s.timers i) : Inv (resume s c) := by
  unfold Hook.resume
  cases hs : s.status c with
  | fresh => exact h.activate hq (h.off hs fun _ _ => id)
  | active => rw [hs] at ha; exact ha.elim
  | finished => rw [hs] at ha; exact ha.elim
  | parked w n =>
    cases w with
    | read fd => exact h.activate hq (h.off hs fun _ _ => id)
    | accept fd => exact h.activate hq (h.off hs fun _ _ => id)
    | write fd => exact h.activate hq (h.off hs fun _ _ => id)
    | connect fd timer =>
      -- delTimerEvent cancels the only event that could still resume it
      have hoff : Off { s with timers := s.timers.modify timer fun t => t.delTimerEvent 0 } c := by
        rintro i t' ht' x hx hl rfl
        have halarm := (h.cancel timer).alarms i t' ht'
        have hset := halarm.live x hx hl
        simp only [hs, Sets] at hset
        subst hset
        simp only [List.getElem?_modify, if_true] at ht'
        obtain ⟨t, -, rfl⟩ := Option.map_eq_some_iff.1 ht'
        rw [halarm.first x hx] at hl
        simp [Timer.delTimerEvent] at hl
      exact ((h.cancel timer).activate hq hoff).setFd fd _
    | sleep seconds since timer =>
      -- its own timer fired and has nothing pending
      rw [hs] at ha
      obtain ⟨t0, ht0, hn⟩ := ht timer ha.1
      refine h.activate hq ?_
      rintro i t hti x hx hl rfl
      have hset := (h.alarms i t hti).live x hx hl
      simp only [hs, Sets] at hset
      rw [← hset.1, ht0] at hti
      obtain rfl := Option.some.inj hti
      rw [hn] at hx
      exact List.not_mem_nil hx

/-- a timer either hands over nothing and stays as it is, or hands over its one task and has nothing left -/
theorem onTimer (h : Inv s) {i : ℕ} {t : Timer ℕ} (ht : s.timers[i]? = some t) (now : ℤ) (clock : ℕ → ℤ) :
    (t.onTimer now clock).1.event = t.event ∧
    ((t.onTimer now clock).2 = [] ∧ (t.onTimer now clock).1.m_pending_events.entries = t.m_pending_events.entries ∨
      ∃ x ∈ t.m_pending_events.entries, t.Fires now x = true ∧ (t.onTimer now clock).2 = [(t.event x.2).m_task] ∧
        (t.onTimer now clock).1.m_pending_events.entries = []) := by
  obtain ⟨h1, h2, -, -⟩ := h.alarms i t ht
  obtain ⟨htasks, hent, hev⟩ := Timer.onTimer_of_not_repeated now clock h1
  refine ⟨hev, ?_⟩
  have hsplit := t.scan_append_rest now
  rw [← hsplit] at h2
  rw [htasks, hent]
  cases hscan : t.scan now with
  | nil =>
    rw [hscan] at hsplit
    exact Or.inl ⟨rfl, hsplit⟩
  | cons x l =>
    rw [hscan] at h2 hsplit
    have hlen : l.length + (t.rest now).length = 0 := by
      simp only [List.cons_append, List.length_cons, List.length_append] at h2
      omega
    obtain ⟨rfl, hrest⟩ : l = [] ∧ t.rest now = [] := by
      simpa [List.length_eq_zero_iff] using hlen
    refine Or.inr ⟨x, by rw [← hsplit]; exact List.mem_cons_self, ?_, rfl, hrest⟩
    exact Timer.fires_iff.2 (Timer.fires_of_mem_scan (by rw [hscan]; exact List.mem_singleton_self x))

/-- a timer keeps its event and possibly loses its entry -/
theorem setTimer (h : Inv s) {i : ℕ} {t t' : Timer ℕ} (ht : s.timers[i]? = some t) (hev : t'.event = t.event)
    (hent : t'.m_pending_events.entries = t.m_pending_events.entries ∨ t'.m_pending_events.entries = []) :
    Inv { s with timers := s.timers.set i t' } := by
  have hi : i < s.timers.length := (List.getElem?_eq_some_iff.1 ht).1
  refine { h with alarms := ?_, spent := ?_ }
  · intro j t1 ht1
    by_cases hij : i = j
    · subst hij
      rw [List.getElem?_set_self hi] at ht1
      obtain rfl := Option.some.inj ht1
      obtain ⟨h1, h2, h3, h4⟩ := h.alarms i t ht
      rcases hent with hent | hent
      · exact ⟨by rw [hev]; exact h1, by rw [hent]; exact h2, by rw [hent]; exact h3, by rw [hent, hev]; exact h4⟩
      · exact ⟨by rw [hev]; exact h1, by simp [hent], by simp [hent], by simp [hent]⟩
    · rw [List.getElem?_set_ne hij] at ht1
      exact h.alarms j t1 ht1
  · intro d j k hx
    obtain ⟨t0, ht0, hn⟩ := h.spent d j k hx
    by_cases hij : i = j
    · subst hij
      obtain rfl := Option.some.inj (ht.symm.trans ht0)
      refine ⟨t', List.getElem?_set_self hi, ?_⟩
      rcases hent with hent | hent
      · rw [hent, hn]
      · exact hent
    · exact ⟨t0, by rw [List.getElem?_set_ne hij]; exact ht0, hn⟩

/-- A timer expires: what it hands over is awaited. -/
theorem fire (h : Inv s) (i : ℕ) (hx : ∀ t ∈ s.timers[i]?, ∀ x ∈ t.m_pending_events.entries,
    t.Fires s.now x = true → (t.event x.2).m_task ∉ queued s) : Inv (fire s i) := by
  unfold Hook.fire
  cases ht : s.timers[i]? with
  | none => exact h
  | some t =>
    obtain ⟨hev, hcase⟩ := h.onTimer ht s.now fun _ => s.now
    rcases hcase with ⟨htasks, hent⟩ | ⟨x, hmem, hfires, htasks, hent⟩
    · simp only [htasks, List.map_nil, List.append_nil]
      exact h.setTimer ht hev (Or.inl hent)
    · simp only [htasks, List.map_cons, List.map_nil]
      obtain ⟨hdue, hlive⟩ := Timer.fires_iff.1 hfires
      refine (h.setTimer ht hev (Or.inr hent)).enqueue (hx t ht x hmem hfires) ?_ ?_
      · have hset := (h.alarms i t ht).live x hmem hlive
        change Awaited s.now (.timeout i) s.parks (s.status (t.event x.2).m_task)
        revert hset
        cases s.status (t.event x.2).m_task with
        | parked w n =>
          cases w with
          | connect fd timer => exact fun hset => Or.inr (by rw [hset])
          | sleep seconds since timer => exact fun hset => ⟨by rw [hset.1], hset.2.trans hdue⟩
          | read fd => exact False.elim
          | accept fd => exact False.elim
          | write fd => exact False.elim
        | fresh => exact False.elim
        | active => exact False.elim
        | finished => exact False.elim
      · intro j hj
        obtain rfl := Why.timeout.inj hj
        exact ⟨_, List.getElem?_set_self (List.getElem?_eq_some_iff.1 ht).1, hent⟩

/-- the callback of a reported event is queued, if there is one -/
theorem enqueueCallback (h : Inv s) {why : Why} (o : Option ℕ) (hwhy : ∀ i, why ≠ .timeout i)
    (ho : ∀ c ∈ o, c ∉ queued s ∧ Awaited s.now why s.parks (s.status c)) :
    Inv { s with queue := s.queue ++ o.toList.map fun c => .resume c why s.parks } := by
  cases o with
  | none => simpa using h
  | some c =>
    obtain ⟨hq, ha⟩ := ho c rfl
    exact h.enqueue hq ha fun i hi => absurd hi (hwhy i)

theorem readTask (h : Inv s) {fd : ℕ} {epollin : Bool} (hx : (epollin && (s.fdEvents fd).listenRead) = true →
    ∀ c ∈ (s.fdEvents fd).read_cb_, WaitsRead fd (s.status c) = true ∧ c ∉ queued s) :
    Inv { s with queue := s.queue ++ readTask s fd epollin } := by
  unfold Hook.readTask
  split_ifs with hin
  · refine h.enqueueCallback _ (fun i => by simp) ?_
    intro c hc
    obtain ⟨hw, hq⟩ := hx hin c hc
    obtain ⟨n, hs | hs⟩ := waitsRead_iff.1 hw
    · exact ⟨hq, by rw [hs]; exact ⟨rfl, h.tickets c _ n hs⟩⟩
    · exact ⟨hq, by rw [hs]; exact ⟨rfl, h.tickets c _ n hs⟩⟩
  · simpa using h

theorem writeTask (h : Inv s) {fd : ℕ} {epollout : Bool} (hx : (epollout && (s.fdEvents fd).listenWrite) = true →
    ∀ c ∈ (s.fdEvents fd).write_cb_, WaitsWrite fd (s.status c) = true ∧ c ∉ queued s) :
    Inv { s with queue := s.queue ++ writeTask s fd epollout } := by
  unfold Hook.writeTask
  split_ifs with hout
  · refine h.enqueueCallback _ (fun i => by simp) ?_
    intro c hc
    obtain ⟨hw, hq⟩ := hx hout c hc
    obtain ⟨n, hs | ⟨i, hs⟩⟩ := waitsWrite_iff.1 hw
    · exact ⟨hq, by rw [hs]; rfl⟩
    · exact ⟨hq, by rw [hs]; exact Or.inl rfl⟩
  · simpa using h

/-- Epoll reports a descriptor: what it queues is awaited. -/
theorem report (h : Inv s) {fd : ℕ} {epollin epollout : Bool} (hx : ReportExpected s fd epollin epollout) :
    Inv { s with queue := s.queue ++ Hook.readTask s fd epollin ++ Hook.writeTask s fd epollout } := by
  obtain ⟨hread, hwrite⟩ := hx
  refine (h.readTask hread).writeTask ?_
  intro hout c hc
  obtain ⟨hw, hq⟩ := hwrite hout c hc
  refine ⟨hw, ?_⟩
  intro hc'
  -- a coroutine that waits for WRITE is not the one whose read callback was just queued
  obtain ⟨why, k, hmem⟩ := mem_queued.1 hc'
  rcases List.mem_append.1 hmem with hmem | hmem
  · exact hq (mem_queued.2 ⟨why, k, hmem⟩)
  · unfold Hook.readTask at hmem
    split_ifs at hmem with hin
    · simp only [List.mem_map, Option.mem_toList, Task.resume.injEq] at hmem
      obtain ⟨d, hd, rfl, -⟩ := hmem
      exact waitsRead_waitsWrite (hread hin d hd).1 hw
    · exact List.not_mem_nil hmem

theorem start (h : Inv s) (hx : Expected s (.start c)) : Inv (step s (.start c)) := by
  obtain ⟨hs, hq⟩ := hx
  have hst : setCallBack (s.status c) = .fresh := by rcases hs with hs | hs <;> rw [hs] <;> rfl
  have hoff : Off s c := by
    rcases hs with hs | hs
    · exact h.off hs fun _ _ => id
    · exact h.off hs fun _ _ => id
  have hm : Inv { s with status := update s.status c .fresh } := by
    refine h.move hq hoff le_rfl (fun w n hw => by simp at hw) ?_
    intro d hd
    have hact := h.running d hd
    have hdc : d ≠ c := by
      rintro rfl
      rcases hs with hs | hs <;> rw [hs] at hact <;> simp at hact
    rw [update_of_ne hdc]
    exact hact
  simp only [step, hst]
  exact hm.enqueue hq (by simp [Awaited]) fun i hi => by simp at hi

theorem tick (h : Inv s) (ms : ℕ) : Inv { s with now := s.now + ms } := by
  refine { h with awaited := ?_ }
  intro c why k hx
  have ha := h.awaited c why k hx
  cases hs : s.status c with
  | parked w n =>
    rw [hs] at ha
    cases w with
    | sleep seconds since timer => exact ⟨ha.1, ha.2.trans (by simp)⟩
    | read fd => exact ha
    | accept fd => exact ha
    | write fd => exact ha
    | connect fd timer => exact ha
  | fresh => trivial
  | active => rw [hs] at ha; exact ha
  | finished => rw [hs] at ha; exact ha

theorem exec (h : Inv s) (hx : Expected s .exec) : Inv (step s .exec) := by
  simp only [step]
  split
  · rename_i x q hcur hphase hq
    have htail := h.tail hq
    cases x with
    | resume c why k =>
      have hnd := h.nodup
      rw [queued, hq] at hnd
      have hc : c ∉ queued { s with queue := q } := (List.nodup_cons.1 hnd).1
      have hmem : .resume c why k ∈ s.queue := by rw [hq]; exact List.mem_cons_self
      exact htail.resume hc (h.awaited c why k hmem) fun i hi => h.spent c i k (hi ▸ hmem)
    | onTimer i =>
      have hx := hx hcur hphase
      rw [hq] at hx
      have hqueued : queued s = queued { s with queue := q } := by
        rw [queued, hq]
        rfl
      simp only [ExecExpected, hqueued] at hx
      exact htail.fire i hx
  · exact h

end Inv

theorem step_inv (s : St) (o : Op) (h : Inv s) (hx : Expected s o) : Inv (step s o) := by
  cases o with
  | start c => exact h.start hx
  | call call =>
    simp only [step]
    split
    · rename_i c hcur
      exact h.callHook (h.running c hcur) hx
    · exact h
  | finish =>
    simp only [step]
    split
    · rename_i c hcur
      exact h.moveActive (h.running c hcur) le_rfl fun w n hw => by simp at hw
    · exact h
  | unregister fd => exact h.setFd fd _
  | delListenWrite fd => exact h.setFd fd _
  | setMaxTimeOut v => exact ⟨h.awaited, h.nodup, h.running, h.tickets, h.alarms, h.spent⟩
  | exec => exact h.exec hx
  | poll =>
    simp only [step]
    split_ifs
    · exact ⟨h.awaited, h.nodup, h.running, h.tickets, h.alarms, h.spent⟩
    · exact h
  | report fd epollin epollout =>
    simp only [step]
    split_ifs with hphase
    · exact h.report (hx hphase)
    · exact h
  | expire i =>
    simp only [step]
    split_ifs
    · have hmem : ∀ c why k, .resume c why k ∈ s.queue ++ [.onTimer i] → .resume c why k ∈ s.queue := by simp
      refine { h with awaited := fun c why k hx => h.awaited c why k (hmem c why k hx), nodup := ?_,
                      spent := fun c i k hx => h.spent c i k (hmem c _ k hx) }
      have hq : queued { s with queue := s.queue ++ [.onTimer i] } = queued s := by
        simp [queued, List.filterMap_cons, Task.co]
      rw [hq]
      exact h.nodup
    · exact h
  | collected => exact ⟨h.awaited, h.nodup, h.running, h.tickets, h.alarms, h.spent⟩
  | tick ms => exact h.tick ms

/-! ## Resumption -/

theorem resumedBy_of_awaited {now : ℤ} {why : Why} {k n : ℕ} {w : Wait} (h : Awaited now why k (.parked w n)) :
    ResumedBy now why k n w := by
  cases w with
  | sleep seconds since timer => exact h.2
  | read fd => exact h
  | accept fd => exact h
  | write fd => exact h
  | connect fd timer => exact h

theorem callHook_status {d : ℕ} (hd : d ≠ c) (call : Call) : (callHook s c call).status d = s.status d := by
  cases call with
  | read fd ready => cases ready <;> simp [callHook, toEpollRead, setFd, park, hd]
  | accept fd ready => cases ready <;> simp [callHook, toEpollRead, setFd, park, hd]
  | write fd ready => cases ready <;> simp [callHook, toEpollWrite, setFd, park, hd]
  | connect fd inProgress => cases inProgress <;> simp [callHook, toEpollWrite, setFd, park, hd]
  | sleep seconds => simp [callHook, park, hd]

theorem resume_status {d : ℕ} (hd : d ≠ c) : (resume s c).status d = s.status d := by
  unfold resume
  cases hs : s.status c with
  | parked w n => cases w <;> simp [afterYield, setFd, hd]
  | fresh => simp [hd]
  | active => rfl
  | finished => rfl

theorem fire_status (i : ℕ) : (fire s i).status = s.status := by
  unfold fire
  split <;> rfl

/-- only the loop ends a suspension -/
theorem step_parked (h : Inv s) {o : Op} (ho : o ≠ .exec) {w : Wait} {n : ℕ} (hs : s.status c = .parked w n) :
    (step s o).status c = .parked w n := by
  have hcur : ∀ d, s.cur = some d → c ≠ d := by
    rintro d hd rfl
    rw [h.running c hd] at hs
    exact absurd hs (by simp)
  cases o with
  | exec => exact absurd rfl ho
  | start d =>
    by_cases hd : c = d
    · subst hd
      simp [step, hs, setCallBack]
    · simpa [step, hd] using hs
  | call call =>
    simp only [step]
    split
    · rename_i d hd
      rw [callHook_status (hcur d hd)]
      exact hs
    · exact hs
  | finish =>
    simp only [step]
    split
    · rename_i d hd
      simpa [hcur d hd] using hs
    · exact hs
  | unregister fd => exact hs
  | delListenWrite fd => exact hs
  | setMaxTimeOut v => exact hs
  | collected => exact hs
  | tick ms => exact hs
  | poll =>
    simp only [step]
    split_ifs <;> exact hs
  | report fd epollin epollout =>
    simp only [step]
    split_ifs <;> exact hs
  | expire i =>
    simp only [step]
    split_ifs <;> exact hs

/-- the loop ends only the suspension of the coroutine at the head of the queue -/
theorem exec_head {w : Wait} {n : ℕ} (hs : s.status c = .parked w n) (hne : (step s .exec).status c ≠ .parked w n) :
    ∃ why k q, s.queue = .resume c why k :: q := by
  simp only [step] at hne
  split at hne
  · rename_i x q hnone hphase hq
    cases x with
    | resume d why k =>
      by_cases hd : c = d
      · subst hd
        exact ⟨why, k, q, hq⟩
      · exact absurd (by rw [execTask, resume_status hd]; exact hs) hne
    | onTimer i => exact absurd (by rw [execTask, fire_status]; exact hs) hne
  · exact absurd hs hne

/-- **Resumption.** In every run whose steps are all expected, a coroutine suspended in read_hook or accept_hook is
resumed only by a READ reported after it suspended, one in write_hook only by a WRITE, one in connect_hook only by a
WRITE or by its own timeout, and one in sleep_hook only when the time has passed. -/
theorem hooks_resumed_by_awaited (ops : List Op) (h : Along step Expected init ops) : Along step Legit init ops := by
  refine along_of_inv (fun s o hi hx => ⟨?_, step_inv s o hi hx⟩) inv_init h
  intro c w n hs hne
  obtain rfl : o = .exec := by
    by_contra ho
    exact hne (step_parked hi ho hs)
  obtain ⟨why, k, q, hq⟩ := exec_head hs hne
  have ha := hi.awaited c why k (by rw [hq]; exact List.mem_cons_self)
  rw [hs] at ha
  exact ⟨rfl, why, k, q, hq, resumedBy_of_awaited ha⟩

/-- coroutine 1 connects, is reported WRITE before its timeout, reads and sleeps; coroutine 2 writes meanwhile -/
def expectedRun : List Op :=
  [.start 1, .start 2, .exec, .call (.connect 5 true), .exec, .call (.write 6 false), .poll, .report 5 false true,
   .report 6 false true, .collected, .exec, .call (.read 5 false), .exec, .finish, .tick 80000, .poll, .expire 0,
   .report 5 true false, .collected, .exec, .exec, .call (.sleep 2), .tick 2500, .poll, .expire 1, .collected, .exec, .exec,
   .finish]

/-- Both coroutines end, the hypothesis is met and every resume is legitimate. -/
theorem expectedRun_resumed : Along step Expected init expectedRun ∧ Along step Legit init expectedRun ∧
    (run step init expectedRun).status 1 = .finished ∧ (run step init expectedRun).status 2 = .finished :=
  ⟨by decide, hooks_resumed_by_awaited expectedRun (by decide), by decide, by decide⟩

/-- A READ reported for a coroutine that is suspended elsewhere, and not asleep, resumes it there. -/
theorem unexpected_read_resumes {fd n : ℕ} {w : Wait} (hphase : s.phase = .poll) (hcur : s.cur = none) (hq : s.queue = [])
    (hlisten : (s.fdEvents fd).listenRead = true) (hcb : (s.fdEvents fd).read_cb_ = some c)
    (hs : s.status c = .parked w n) (hw : WaitsRead fd (s.status c) = false) (hsleep : ∀ sec t i, w ≠ .sleep sec t i) :
    ¬ Legit (run step s [.report fd true false, .collected]) .exec := by
  have hrun : run step s [.report fd true false, .collected] =
      { s with queue := [.resume c (.read fd) s.parks], phase := .tasks } := by
    simp [run, step, hphase, hq, readTask, writeTask, hlisten, hcb]
  have hexec : (step (run step s [.report fd true false, .collected]) .exec).status c = .active := by
    rw [hrun]
    cases w <;> simp [step, hcur, execTask, resume, hs, afterYield, setFd]
  rw [hs] at hw
  intro h
  have hne : (step (run step s [.report fd true false, .collected]) .exec).status c ≠ .parked w n := by
    rw [hexec]
    simp
  obtain ⟨-, why, k, q, hqueue, hby⟩ := h c w n (by rw [hrun]; exact hs) hne
  obtain rfl : Why.read fd = why := by
    rw [hrun] at hqueue
    simp only [List.cons.injEq, Task.resume.injEq] at hqueue
    exact hqueue.1.2.1
  cases w with
  | read f =>
    obtain rfl := Why.read.inj hby.1
    simp [WaitsRead] at hw
  | accept f =>
    obtain rfl := Why.read.inj hby.1
    simp [WaitsRead] at hw
  | write f => simp [ResumedBy] at hby
  | connect f i => simp [ResumedBy] at hby
  | sleep sec t i => exact hsleep sec t i rfl

/-- a coroutine reads from descriptor 5, goes on to write to it and is blocked; then READ is reported -/
def readThenWrite : List Op :=
  [.start 1, .exec, .call (.read 5 false), .poll, .report 5 true false, .collected, .exec, .call (.write 5 false), .poll,
   .report 5 true false, .collected]

/-- The coroutine is suspended in write_hook and its next resume is for the READ event. -/
theorem read_event_resumes_writer :
    (run step init readThenWrite).status 1 = .parked (.write 5) 1 ∧
    (run step init readThenWrite).queue = [.resume 1 (.read 5) 2] ∧
    (run step init (readThenWrite ++ [.exec])).status 1 = .active ∧
    ¬ Along step Legit init (readThenWrite ++ [.exec]) := by
  refine ⟨by decide, by decide, by decide, ?_⟩
  intro h
  obtain ⟨-, why, k, q, hq, hwhy⟩ := h.last 1 (.write 5) 1 (by decide) (by decide)
  have hqueue : (run step init readThenWrite).queue = [.resume 1 (.read 5) 2] := by decide
  rw [hqueue] at hq
  obtain ⟨⟨-, rfl, -⟩, -⟩ : (1 = 1 ∧ .read 5 = why ∧ 2 = k) ∧ [] = q := by simpa using hq
  exact absurd hwhy (by simp [ResumedBy])

end TinyRpc.Net.Hook
