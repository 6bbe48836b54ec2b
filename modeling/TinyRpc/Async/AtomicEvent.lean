/-
async::event at the granularity of its atomic operations (async/event.hpp, async/event.cc).

`state_` is one word: the event's own address when it is set, null, or the awaiter that was pushed last; the awaiters
behind it are linked by `next_`. An await_suspend loads the word and then tries to push its awaiter with a weak
compare-exchange, which may fail although the word has not changed; a set exchanges the word and then walks the list it
took, after turning it round in place under fifo. Every one of these accesses, every round of the two loops of set and
every reset is an operation, and a run is any interleaving of them by any number of callers. An awaiter lives in the frame
of its coroutine, so its address may be used again after the coroutine was resumed.

A waiter is the number of its await_suspend call, a set call has a number too, and the log says what happened in which
order. `Served` and `SawSet` say what is promised of every run, in terms of the log, and `Recorded` ties the log to the
operations and to what they find; `Logged` is what the log says of the waiters on each list, and each event keeps it. The
pointers and the runs are in `AtomicEventRuns`.
-/
import Mathlib.Tactic
import TinyRpc.Core.Machine
import TinyRpc.Async.Task

namespace TinyRpc.Async.AtomicEvent

open TinyRpc.Core Function List

/-- the values of state_ -/
inductive Word
  /-- the address of the event -/
  | set
  | null
  | awaiter (a : ℕ)
deriving DecidableEq, Repr

/-- the word as a pointer to an awaiter -/
def Word.head : Word → Option ℕ
  | .set | .null => none
  | .awaiter a => some a

/-- the awaiter at an address -/
inductive Awaiter
  | free
  /-- in the loop of await_suspend, with next_ written and the compare-exchange to come -/
  | trying (awaiting_coroutine_ : ℕ) (old_value : Word)
  /-- await_suspend has returned true -/
  | suspended (awaiting_coroutine_ : ℕ)
deriving DecidableEq, Repr

/-- the waiter an awaiter is for -/
def Awaiter.waiter : Awaiter → Option ℕ
  | .free => none
  | .trying w _ | .suspended w => some w

/-- where a call of set is -/
inductive SetPc
  | idle
  /-- in the loop of reverse -/
  | reverse (prev cur : Option ℕ)
  /-- in the loop that resumes -/
  | resume (waiters : Option ℕ)
  | returned
deriving DecidableEq, Repr

inductive Ev
  /-- the compare-exchange of waiter `w` succeeds, its await_suspend returns true -/
  | pushed (w : ℕ)
  /-- the await_suspend of waiter `w` returns false -/
  | refused (w : ℕ)
  /-- the exchange of set call `σ` -/
  | exchanged (σ : ℕ) (policy : Policy)
  /-- set call `σ` resumes waiter `w`, itself or through its executor -/
  | resumed (σ w : ℕ)
deriving DecidableEq, Repr

structure St where
  state_ : Word
  next_ : ℕ → Option ℕ
  awaiter : ℕ → Awaiter
  /-- the calls of await_suspend so far -/
  waiters : ℕ
  setter : ℕ → SetPc
  /-- the calls of set so far -/
  sets : ℕ
  log : List Ev
  /-- a handle that is not suspended was resumed -/
  ub : Bool

inductive Op
  /-- a call of await_suspend on the awaiter at `a`, up to its load -/
  | awaitSuspend (a : ℕ)
  | compareExchange (a : ℕ) (spurious : Bool)
  /-- a call of set, up to its exchange -/
  | set (policy : Policy)
  /-- the next round of a loop of set call `σ` -/
  | advance (σ : ℕ)
  | reset
deriving DecidableEq, Repr

def init (initially_set : Bool) : St where
  state_ := if initially_set then .set else .null
  next_ _ := none
  awaiter _ := .free
  waiters := 0
  setter _ := .idle
  sets := 0
  log := []
  ub := false

/-- the body of await_suspend's loop, with the word read last -/
def St.loop (s : St) (a w : ℕ) (old_value : Word) : St :=
  match old_value with
  | .set => { s with awaiter := update s.awaiter a .free, log := s.log ++ [.refused w] }
  | old_value =>
    { s with next_ := update s.next_ a old_value.head, awaiter := update s.awaiter a (.trying w old_value) }

/-- the list that a set has taken from the word -/
def St.taken (s : St) (old_value : Word) : Policy → SetPc
  | .lifo => .resume old_value.head
  | .fifo =>
    match old_value.head with
    | none => .resume none
    | some cur => if s.next_ cur = none then .resume (some cur) else .reverse none (some cur)

/-- where a set goes after its exchange -/
def St.exchanged (s : St) (policy : Policy) : SetPc := if s.state_ = .set then .returned else s.taken s.state_ policy

def St.advance (s : St) (σ : ℕ) : St :=
  match s.setter σ with
  | .idle | .returned => s
  | .reverse prev none => { s with setter := update s.setter σ (.resume prev) }
  | .reverse prev (some cur) =>
    { s with next_ := update s.next_ cur prev, setter := update s.setter σ (.reverse (some cur) (s.next_ cur)) }
  | .resume none => { s with setter := update s.setter σ .returned }
  | .resume (some a) =>
    match s.awaiter a with
    | .suspended w =>
      { s with
        awaiter := update s.awaiter a .free, setter := update s.setter σ (.resume (s.next_ a))
        log := s.log ++ [.resumed σ w] }
    | .free | .trying _ _ => { s with ub := true }

def step (s : St) : Op → St
  | .awaitSuspend a =>
    if s.awaiter a = .free then St.loop { s with waiters := s.waiters + 1 } a s.waiters s.state_ else s
  | .compareExchange a spurious =>
    match s.awaiter a with
    | .trying w old_value =>
      if s.state_ = old_value ∧ spurious = false then
        { s with state_ := .awaiter a, awaiter := update s.awaiter a (.suspended w), log := s.log ++ [.pushed w] }
      else s.loop a w s.state_
    | .free | .suspended _ => s
  | .set policy =>
    { s with
      state_ := .set, sets := s.sets + 1, log := s.log ++ [.exchanged s.sets policy]
      setter := update s.setter s.sets (s.exchanged policy) }
  | .advance σ => s.advance σ
  | .reset => if s.state_ = .set then { s with state_ := .null } else s

/-! ## What the log says -/

/-- the set call that resumed waiter `w` -/
def Ev.resumer (w : ℕ) : Ev → Option ℕ
  | .resumed σ w' => if w' = w then some σ else none
  | _ => none

/-- the waiter that set call `σ` resumed -/
def Ev.waiter (σ : ℕ) : Ev → Option ℕ
  | .resumed σ' w => if σ' = σ then some w else none
  | _ => none

/-- the set call that made its exchange -/
def Ev.exchanger : Ev → Option ℕ
  | .exchanged σ _ => some σ
  | _ => none

/-- the set calls that resumed waiter `w`, one for each resume -/
def resumers (w : ℕ) (log : List Ev) : List ℕ := log.filterMap (Ev.resumer w)

/-- the waiters that set call `σ` resumed, in order -/
def resumedBy (σ : ℕ) (log : List Ev) : List ℕ := log.filterMap (Ev.waiter σ)

/-- the first set call whose exchange follows the successful compare-exchange of waiter `w` -/
def taker (w : ℕ) (log : List Ev) : Option ℕ := ((log.dropWhile (· ≠ .pushed w)).tail).findSome? Ev.exchanger

/-- one entry more: a push goes in front, an exchange takes all -/
def pend (ws : List ℕ) : Ev → List ℕ
  | .pushed w => w :: ws
  | .exchanged _ _ => []
  | _ => ws

/-- the waiters pushed since the last exchange, last one first -/
def pending (log : List Ev) : List ℕ := log.foldl pend []

/-- the order in which a set resumes them -/
def order (ws : List ℕ) : Policy → List ℕ
  | .lifo => ws
  | .fifo => ws.reverse

/-- nothing is lost, resumed twice or resumed out of order -/
structure Served (s : St) : Prop where
  defined : s.ub = false
  /-- a suspended waiter is resumed by the first set whose exchange follows, and by it only, once it has returned -/
  taken : ∀ w σ, .pushed w ∈ s.log → taker w s.log = some σ →
    resumers w s.log <+: [σ] ∧ (s.setter σ = .returned → resumers w s.log = [σ])
  /-- and by nobody while no set has followed -/
  waits : ∀ w, .pushed w ∈ s.log → taker w s.log = none → resumers w s.log = []
  refused : ∀ w, .refused w ∈ s.log → .pushed w ∉ s.log ∧ resumers w s.log = []
  ordered : ∀ l₁ σ policy l₂, s.log = l₁ ++ .exchanged σ policy :: l₂ →
    resumedBy σ s.log <+: order (pending l₁) policy ∧
      (s.setter σ = .returned → resumedBy σ s.log = order (pending l₁) policy)

/-- a waiter is refused only by a word that says set -/
def SawSet (s : St) (o : Op) : Prop := ∀ w, .refused w ∈ (step s o).log → .refused w ∈ s.log ∨ s.state_ = .set

/-- the entry that an operation is to have, by the word, the awaiter and the set call that it finds -/
def entry (s : St) : Op → Option Ev
  | .awaitSuspend a => if s.awaiter a = .free ∧ s.state_ = .set then some (.refused s.waiters) else none
  | .compareExchange a spurious =>
    match s.awaiter a with
    | .trying w old_value =>
      if s.state_ = old_value ∧ spurious = false then some (.pushed w)
      else if s.state_ = .set then some (.refused w)
      else none
    | .free | .suspended _ => none
  | .set policy => some (.exchanged s.sets policy)
  | .advance σ =>
    match s.setter σ with
    | .resume (some a) =>
      match s.awaiter a with
      | .suspended w => some (.resumed σ w)
      | .free | .trying _ _ => none
    | _ => none
  | .reset => none

/-- an operation has its entry, and does what the entry says -/
structure Recorded (s : St) (o : Op) : Prop where
  logged : (step s o).log = s.log ++ (entry s o).toList
  /-- after every exchange the word says set -/
  exchanged : ∀ σ policy, entry s o = some (.exchanged σ policy) → (step s o).state_ = .set ∧ (step s o).setter σ ≠ .idle
  /-- a waiter is suspended, and at the head of the list, by its push and by nothing else -/
  pushed : ∀ w, entry s o = some (.pushed w) → ∃ a, (step s o).state_ = .awaiter a ∧ (step s o).awaiter a = .suspended w
  suspended : ∀ a w, (step s o).awaiter a = .suspended w → s.awaiter a = .suspended w ∨ entry s o = some (.pushed w)
  /-- an awaiter is let go with the waiter that is refused, or resumed -/
  freed : ∀ a w, (s.awaiter a).waiter = some w → (step s o).awaiter a = .free →
    entry s o = some (.refused w) ∨ ∃ σ, entry s o = some (.resumed σ w)
  /-- await_suspend tries with the word it has read last until it is refused or its compare-exchange succeeds -/
  called : ∀ a, o = .awaitSuspend a → s.awaiter a = .free → (step s o).waiters = s.waiters + 1 ∧
    (entry s o = none → (step s o).awaiter a = .trying s.waiters s.state_)
  again : ∀ a w old_value spurious, o = .compareExchange a spurious → s.awaiter a = .trying w old_value →
    entry s o = none → (step s o).awaiter a = .trying w s.state_

/-- a set call in the log, with its number -/
def Ev.exchange : Ev → Option (Policy × ℕ)
  | .exchanged σ policy => some (policy, σ)
  | _ => none

/-- the set calls in the log, in order -/
def exchanges (log : List Ev) : List (Policy × ℕ) := log.filterMap Ev.exchange

def Op.policy : Op → Option Policy
  | .set policy => some policy
  | _ => none

section Log

variable {w σ : ℕ} {log : List Ev} {e : Ev}

theorem resumers_concat : resumers w (log ++ [e]) = resumers w log ++ (e.resumer w).toList := by
  rw [resumers, filterMap_append]
  cases h : e.resumer w <;> simp [resumers, h]

theorem resumedBy_concat : resumedBy σ (log ++ [e]) = resumedBy σ log ++ (e.waiter σ).toList := by
  rw [resumedBy, filterMap_append]
  cases h : e.waiter σ <;> simp [resumedBy, h]

theorem pending_concat : pending (log ++ [e]) = pend (pending log) e := by
  rw [pending, foldl_concat, pending]

theorem taker_concat (h : Ev.pushed w ∈ log) : taker w (log ++ [e]) = (taker w log).or e.exchanger := by
  obtain ⟨l₁, l₂, rfl, hl₁⟩ := eq_append_cons_of_mem h
  have hdrop : ∀ l : List Ev, (l₁ ++ .pushed w :: l).dropWhile (· ≠ .pushed w) = .pushed w :: l := by
    intro l
    rw [dropWhile_append_of_pos]
    · simp
    · intro x hx
      exact decide_eq_true fun he => hl₁ (he ▸ hx)
  have hlast : [e].findSome? Ev.exchanger = e.exchanger := by
    cases h : e.exchanger <;> simp [findSome?, h]
  rw [taker, taker, append_assoc, cons_append, hdrop, hdrop, tail_cons, tail_cons, findSome?_append, hlast]

/-- an event that resumes nobody -/
theorem resumers_frame (he : e.resumer w = none) : resumers w (log ++ [e]) = resumers w log := by
  rw [resumers_concat, he]
  exact append_nil _

theorem resumedBy_frame (he : e.waiter σ = none) : resumedBy σ (log ++ [e]) = resumedBy σ log := by
  rw [resumedBy_concat, he]
  exact append_nil _

/-- an event that is no exchange -/
theorem taker_frame (h : Ev.pushed w ∈ log) (he : e.exchanger = none) : taker w (log ++ [e]) = taker w log := by
  rw [taker_concat h, he]
  exact Option.or_none

theorem taker_push (h : Ev.pushed w ∉ log) : taker w (log ++ [Ev.pushed w]) = none := by
  rw [taker, dropWhile_append_of_pos]
  · simp
  · intro x hx
    exact decide_eq_true fun he => h (he ▸ hx)

end Log

/-! ## The log, event by event -/

/-- the lists a suspended awaiter can be on -/
inductive Holder
  | state
  | setter (σ : ℕ)
deriving DecidableEq, Repr

/-- the set call that has taken the awaiters of a holder -/
def Holder.taker : Holder → Option ℕ
  | .state => none
  | .setter σ => some σ

/-- what the log says of the waiters on the lists, after `waiters` calls of await_suspend and `sets` calls of set -/
structure Logged (log : List Ev) (waits : Holder → List ℕ) (waiters sets : ℕ) : Prop where
  logged : ∀ w, Ev.pushed w ∈ log ∨ Ev.refused w ∈ log → w < waiters
  pending : waits .state = pending log
  waiting : ∀ k, ∀ w ∈ waits k, Ev.pushed w ∈ log ∧ taker w log = k.taker ∧ resumers w log = []
  pushed : ∀ w, Ev.pushed w ∈ log → (∃ k, w ∈ waits k) ∨ ∃ σ, resumers w log = [σ] ∧ taker w log = some σ
  unpushed : ∀ w, Ev.pushed w ∉ log → resumers w log = []
  refused : ∀ w, Ev.refused w ∈ log → Ev.pushed w ∉ log
  exchanged : ∀ σ policy, Ev.exchanged σ policy ∈ log → σ < sets
  unresumed : ∀ σ, sets ≤ σ → resumedBy σ log = []
  ordered : ∀ l₁ σ policy l₂, log = l₁ ++ .exchanged σ policy :: l₂ →
    resumedBy σ log ++ waits (.setter σ) = order (AtomicEvent.pending l₁) policy

section History

variable {log : List Ev} {lists : Holder → List ℕ} {waiters sets w : ℕ}

theorem logged_nil : Logged [] (fun _ => []) 0 0 := by
  refine ⟨?_, rfl, ?_, ?_, fun _ _ => rfl, ?_, ?_, fun _ _ => rfl, ?_⟩
  · intro w hw
    simp at hw
  · intro k w hw
    exact absurd hw not_mem_nil
  · intro w hw
    exact absurd hw not_mem_nil
  · intro w hw
    exact absurd hw not_mem_nil
  · intro σ policy hσ
    exact absurd hσ not_mem_nil
  · intro l₁ σ policy l₂ hl
    simp at hl

/-- an event in the log with one more stands in the log or is the new one -/
theorem concat_eq_split {log l₁ l₂ : List Ev} {e x : Ev} (h : log ++ [e] = l₁ ++ x :: l₂) :
    (log = l₁ ∧ e = x ∧ l₂ = []) ∨ ∃ l₃, log = l₁ ++ x :: l₃ ∧ l₂ = l₃ ++ [e] := by
  rcases eq_nil_or_concat l₂ with rfl | ⟨l₃, y, rfl⟩
  · obtain ⟨h1, h2⟩ := append_inj' h rfl
    exact Or.inl ⟨h1, by simpa using h2, rfl⟩
  · rw [concat_eq_append, ← cons_append, ← append_assoc] at h
    obtain ⟨h1, h2⟩ := append_inj' h rfl
    refine Or.inr ⟨l₃, h1, ?_⟩
    rw [concat_eq_append]
    simpa using h2.symm

/-- a waiter is refused -/
theorem Logged.refuse (h : Logged log lists waiters sets) (hw : w < waiters) (hpushed : Ev.pushed w ∉ log) :
    Logged (log ++ [Ev.refused w]) lists waiters sets := by
  have hmem : ∀ v, Ev.pushed v ∈ log ++ [Ev.refused w] ↔ Ev.pushed v ∈ log := by simp
  have htaker : ∀ v, Ev.pushed v ∈ log → taker v (log ++ [Ev.refused w]) = taker v log := fun v hv => taker_frame hv rfl
  have hres : ∀ v, resumers v (log ++ [Ev.refused w]) = resumers v log := fun v => resumers_frame rfl
  refine ⟨?_, ?_, ?_, ?_, ?_, ?_, ?_, ?_, ?_⟩
  · intro v hv
    rcases hv with hv | hv
    · exact h.logged v (Or.inl ((hmem v).1 hv))
    · rcases mem_append.1 hv with hv | hv
      · exact h.logged v (Or.inr hv)
      · obtain rfl : v = w := by simpa using hv
        exact hw
  · rw [pending_concat]
    exact h.pending
  · intro k v hv
    obtain ⟨h1, h2, h3⟩ := h.waiting k v hv
    exact ⟨(hmem v).2 h1, (htaker v h1).trans h2, (hres v).trans h3⟩
  · intro v hv
    have hv' := (hmem v).1 hv
    rw [hres, htaker v hv']
    exact h.pushed v hv'
  · intro v hv
    rw [hres]
    exact h.unpushed v fun hv' => hv ((hmem v).2 hv')
  · intro v hv hp
    rw [hmem] at hp
    rcases mem_append.1 hv with hv | hv
    · exact h.refused v hv hp
    · obtain rfl : v = w := by simpa using hv
      exact hpushed hp
  · intro σ policy hσ
    exact h.exchanged σ policy (by simpa using hσ)
  · intro σ hσ
    exact (resumedBy_frame rfl).trans (h.unresumed σ hσ)
  · intro l₁ σ policy l₂ hl
    rcases concat_eq_split hl with ⟨-, he, -⟩ | ⟨l₃, hlog, -⟩
    · cases he
    · rw [resumedBy_frame rfl]
      exact h.ordered l₁ σ policy l₃ hlog

/-- a waiter is pushed in front of the event's list -/
theorem Logged.push (h : Logged log lists waiters sets) (hw : w < waiters) (hpushed : Ev.pushed w ∉ log)
    (hrefused : Ev.refused w ∉ log) :
    Logged (log ++ [Ev.pushed w]) (update lists .state (w :: lists .state)) waiters sets := by
  have hset : ∀ σ, update lists .state (w :: lists .state) (.setter σ) = lists (.setter σ) := by simp
  have hmem : ∀ v, Ev.pushed v ∈ log ++ [Ev.pushed w] ↔ Ev.pushed v ∈ log ∨ v = w := by simp
  have htaker : ∀ v, Ev.pushed v ∈ log → taker v (log ++ [Ev.pushed w]) = taker v log := fun v hv => taker_frame hv rfl
  have hres : ∀ v, resumers v (log ++ [Ev.pushed w]) = resumers v log := fun v => resumers_frame rfl
  refine ⟨?_, ?_, ?_, ?_, ?_, ?_, ?_, ?_, ?_⟩
  · intro v hv
    rcases hv with hv | hv
    · rcases (hmem v).1 hv with hv | rfl
      · exact h.logged v (Or.inl hv)
      · exact hw
    · exact h.logged v (Or.inr (by simpa using hv))
  · rw [update_self, pending_concat, h.pending]
    rfl
  · intro k v hv
    have hold : v ∈ lists k → Ev.pushed v ∈ log ++ [Ev.pushed w] ∧ taker v (log ++ [Ev.pushed w]) = k.taker ∧
        resumers v (log ++ [Ev.pushed w]) = [] := by
      intro hv
      obtain ⟨h1, h2, h3⟩ := h.waiting k v hv
      exact ⟨(hmem v).2 (Or.inl h1), (htaker v h1).trans h2, (hres v).trans h3⟩
    cases k with
    | state =>
      rw [update_self] at hv
      rcases mem_cons.1 hv with rfl | hv
      · exact ⟨(hmem v).2 (Or.inr rfl), taker_push hpushed, (hres v).trans (h.unpushed v hpushed)⟩
      · exact hold hv
    | setter σ =>
      rw [hset] at hv
      exact hold hv
  · intro v hv
    rcases (hmem v).1 hv with hv | rfl
    · rw [hres, htaker v hv]
      rcases h.pushed v hv with ⟨k, hk⟩ | hσ
      · refine Or.inl ⟨k, ?_⟩
        cases k with
        | state =>
          rw [update_self]
          exact mem_cons_of_mem _ hk
        | setter σ =>
          rw [hset]
          exact hk
      · exact Or.inr hσ
    · exact Or.inl ⟨.state, by simp⟩
  · intro v hv
    rw [hres]
    exact h.unpushed v fun hv' => hv ((hmem v).2 (Or.inl hv'))
  · intro v hv hp
    have hv' : Ev.refused v ∈ log := by simpa using hv
    rcases (hmem v).1 hp with hp | rfl
    · exact h.refused v hv' hp
    · exact hrefused hv'
  · intro σ policy hσ
    exact h.exchanged σ policy (by simpa using hσ)
  · intro σ hσ
    exact (resumedBy_frame rfl).trans (h.unresumed σ hσ)
  · intro l₁ σ policy l₂ hl
    rcases concat_eq_split hl with ⟨-, he, -⟩ | ⟨l₃, hlog, -⟩
    · cases he
    · rw [resumedBy_frame rfl, hset]
      exact h.ordered l₁ σ policy l₃ hlog

/-- the next set call takes the event's list -/
theorem Logged.exchange (h : Logged log lists waiters sets) (policy : Policy) (hfree : lists (.setter sets) = [])
    {taken : List ℕ} (htaken : taken = order (lists .state) policy) (hperm : taken ~ lists .state) :
    Logged (log ++ [Ev.exchanged sets policy]) (update (update lists .state []) (.setter sets) taken) waiters
      (sets + 1) := by
  have hother : ∀ σ, σ ≠ sets → update (update lists .state []) (.setter sets) taken (.setter σ) = lists (.setter σ) := by
    intro σ hσ
    rw [update_of_ne (by simpa using hσ), update_of_ne (by simp)]
  have hstate : update (update lists .state []) (.setter sets) taken .state = [] := by
    rw [update_of_ne (by simp), update_self]
  have hres : ∀ v, resumers v (log ++ [Ev.exchanged sets policy]) = resumers v log := fun v => resumers_frame rfl
  have hmem : ∀ v, Ev.pushed v ∈ log ++ [Ev.exchanged sets policy] ↔ Ev.pushed v ∈ log := by simp
  have hmem' : ∀ v, Ev.refused v ∈ log ++ [Ev.exchanged sets policy] ↔ Ev.refused v ∈ log := by simp
  have hby : ∀ σ, resumedBy σ (log ++ [Ev.exchanged sets policy]) = resumedBy σ log := fun σ => resumedBy_frame rfl
  refine ⟨?_, ?_, ?_, ?_, ?_, ?_, ?_, ?_, ?_⟩
  · intro w hw
    exact h.logged w (hw.imp (hmem w).1 (hmem' w).1)
  · rw [hstate, pending_concat]
    rfl
  · intro k v hv
    have hold : ∀ k', v ∈ lists k' → Ev.pushed v ∈ log ++ [Ev.exchanged sets policy] ∧
        taker v (log ++ [Ev.exchanged sets policy]) = k'.taker.or (some sets) ∧
        resumers v (log ++ [Ev.exchanged sets policy]) = [] := by
      intro k' hk'
      obtain ⟨h1, h2, h3⟩ := h.waiting k' v hk'
      refine ⟨(hmem v).2 h1, ?_, (hres v).trans h3⟩
      rw [taker_concat h1, h2]
      rfl
    cases k with
    | state =>
      rw [hstate] at hv
      exact absurd hv not_mem_nil
    | setter σ =>
      by_cases hσ : σ = sets
      · subst hσ
        rw [update_self] at hv
        exact hold .state (hperm.mem_iff.1 hv)
      · rw [hother σ hσ] at hv
        exact hold (.setter σ) hv
  · intro v hv
    have hv' := (hmem v).1 hv
    rcases h.pushed v hv' with ⟨k, hk⟩ | ⟨σ, h1, h2⟩
    · refine Or.inl ?_
      cases k with
      | state =>
        refine ⟨.setter sets, ?_⟩
        rw [update_self]
        exact hperm.mem_iff.2 hk
      | setter σ =>
        refine ⟨.setter σ, ?_⟩
        have hσ : σ ≠ sets := by
          rintro rfl
          rw [hfree] at hk
          exact absurd hk not_mem_nil
        rw [hother σ hσ]
        exact hk
    · refine Or.inr ⟨σ, (hres v).trans h1, ?_⟩
      rw [taker_concat hv', h2]
      rfl
  · intro v hv
    exact (hres v).trans (h.unpushed v fun hv' => hv ((hmem v).2 hv'))
  · intro v hv hp
    exact h.refused v ((hmem' v).1 hv) ((hmem v).1 hp)
  · intro σ policy' hσ
    rcases mem_append.1 hσ with hσ | hσ
    · exact (h.exchanged σ policy' hσ).trans (Nat.lt_succ_self _)
    · obtain ⟨rfl, -⟩ : σ = sets ∧ policy' = policy := by simpa using hσ
      exact Nat.lt_succ_self _
  · intro σ hσ
    exact (hby σ).trans (h.unresumed σ ((Nat.le_succ _).trans hσ))
  · intro l₁ σ policy' l₂ hl
    rw [hby σ]
    rcases concat_eq_split hl with ⟨hlog, he, -⟩ | ⟨l₃, hlog, -⟩
    · obtain ⟨rfl, rfl⟩ : sets = σ ∧ policy = policy' := by simpa using he
      rw [h.unresumed _ le_rfl, update_self, htaken, ← hlog, h.pending]
      rfl
    · have hσ : σ ≠ sets := by
        have hlt := h.exchanged σ policy' (by rw [hlog]; simp)
        exact hlt.ne
      rw [hother σ hσ]
      exact h.ordered l₁ σ policy' l₃ hlog

/-- a set call resumes the first waiter of its list -/
theorem Logged.resume (h : Logged log lists waiters sets) {σ : ℕ} {l : List ℕ} (hσ : σ < sets)
    (hl : lists (.setter σ) = w :: l) (hother : ∀ k, w ∉ update lists (.setter σ) l k) :
    Logged (log ++ [Ev.resumed σ w]) (update lists (.setter σ) l) waiters sets := by
  obtain ⟨hpushed, htaker, hnone⟩ := h.waiting (.setter σ) w (by rw [hl]; exact mem_cons_self)
  have hsub : ∀ k, ∀ v ∈ update lists (.setter σ) l k, v ∈ lists k ∧ v ≠ w := by
    intro k v hv
    refine ⟨?_, fun hvw => hother k (hvw ▸ hv)⟩
    by_cases hk : k = .setter σ
    · subst hk
      rw [update_self] at hv
      rw [hl]
      exact mem_cons_of_mem _ hv
    · rwa [update_of_ne hk] at hv
  have hmem : ∀ v, Ev.pushed v ∈ log ++ [Ev.resumed σ w] ↔ Ev.pushed v ∈ log := by simp
  have hmem' : ∀ v, Ev.refused v ∈ log ++ [Ev.resumed σ w] ↔ Ev.refused v ∈ log := by simp
  have htakers : ∀ v, Ev.pushed v ∈ log → taker v (log ++ [Ev.resumed σ w]) = taker v log := fun v hv => taker_frame hv rfl
  have hres : ∀ v, v ≠ w → resumers v (log ++ [Ev.resumed σ w]) = resumers v log :=
    fun v hv => resumers_frame (if_neg hv.symm)
  have hself : resumers w (log ++ [Ev.resumed σ w]) = [σ] := by
    rw [resumers_concat, hnone, Ev.resumer, if_pos rfl]
    rfl
  refine ⟨?_, ?_, ?_, ?_, ?_, ?_, ?_, ?_, ?_⟩
  · intro v hv
    exact h.logged v (hv.imp (hmem v).1 (hmem' v).1)
  · rw [update_of_ne (by simp), h.pending, pending_concat]
    rfl
  · intro k v hv
    obtain ⟨hvk, hvw⟩ := hsub k v hv
    obtain ⟨h1, h2, h3⟩ := h.waiting k v hvk
    exact ⟨(hmem v).2 h1, (htakers v h1).trans h2, (hres v hvw).trans h3⟩
  · intro v hv
    have hv' := (hmem v).1 hv
    rw [htakers v hv']
    by_cases hvw : v = w
    · subst hvw
      exact Or.inr ⟨σ, hself, htaker⟩
    · rw [hres v hvw]
      rcases h.pushed v hv' with ⟨k, hk⟩ | hσ'
      · refine Or.inl ⟨k, ?_⟩
        by_cases hkσ : k = .setter σ
        · subst hkσ
          rw [hl, mem_cons] at hk
          rw [update_self]
          exact hk.resolve_left hvw
        · rw [update_of_ne hkσ]
          exact hk
      · exact Or.inr hσ'
  · intro v hv
    have hv' : Ev.pushed v ∉ log := fun hm => hv ((hmem v).2 hm)
    have hvw : v ≠ w := by
      rintro rfl
      exact hv' hpushed
    exact (hres v hvw).trans (h.unpushed v hv')
  · intro v hv hp
    exact h.refused v ((hmem' v).1 hv) ((hmem v).1 hp)
  · intro σ' policy hσ'
    exact h.exchanged σ' policy (by simpa using hσ')
  · intro σ' hσ'
    have hnone : (Ev.resumed σ w).waiter σ' = none := if_neg (hσ.trans_le hσ').ne
    exact (resumedBy_frame hnone).trans (h.unresumed σ' hσ')
  · intro l₁ σ' policy l₂ hlog
    rcases concat_eq_split hlog with ⟨-, he, -⟩ | ⟨l₃, hlog, -⟩
    · cases he
    · rw [resumedBy_concat, ← h.ordered l₁ σ' policy l₃ hlog]
      by_cases hσ' : σ' = σ
      · subst hσ'
        rw [Ev.waiter, if_pos rfl, update_self, hl]
        simp
      · have hk : Holder.setter σ' ≠ .setter σ := by simpa using hσ'
        rw [Ev.waiter, if_neg (Ne.symm hσ'), update_of_ne hk]
        simp

end History

end TinyRpc.Async.AtomicEvent
