/-
async::event: no waiter is lost, resumed twice or resumed out of order.

The invariant has two halves. `held` says which awaiters are on the list of the word and on that of each set call, in
their order: every pointer of the event and of a set call reaches exactly the awaiters on its list (`Chain`), and every
awaiter on a list is suspended and on no other (`Registry`). `Logged` is the half about the history. `left` counts the
rounds a set call has still to go; only its own rounds change it. The log itself is tied to the operations one by one
(`step_recorded`, `exchanges_run`).

Main result `waiters_resumed`.
-/
import Mathlib.Tactic
import TinyRpc.Core.Chain
import TinyRpc.Core.Machine
import TinyRpc.Core.Registry
import TinyRpc.Async.AtomicEvent

namespace TinyRpc.Async.AtomicEvent

open TinyRpc.Core Function List

/-! ## Who holds an awaiter -/

/-- an awaiter on a list is suspended, with the coroutine it is on the list for -/
def Meets : Awaiter → ℕ → Prop
  | .suspended w, w' => w = w'
  | .free, _ | .trying _ _, _ => False

/-- the pointers of a set call reach the awaiters it has still to resume, in that order, and `n` of its rounds are left -/
def SetPc.Holds (next_ : ℕ → Option ℕ) (l : List ℕ) (n : ℕ) : SetPc → Prop
  | .idle | .returned => l = [] ∧ n = 0
  | .resume waiters => Chain next_ waiters l ∧ n = l.length + 1
  | .reverse prev cur =>
    ∃ turned rest, l = rest.reverse ++ turned ∧ Chain next_ prev turned ∧ Chain next_ cur rest ∧
      n = rest.length + l.length + 2

/-- `w` is a waiter of which nothing is in the log, and no awaiter but that at `a` is for it -/
structure Undecided (s : St) (a w : ℕ) : Prop where
  called : w < s.waiters
  pushed : .pushed w ∉ s.log
  refused : .refused w ∉ s.log
  alone : ∀ b, (s.awaiter b).waiter = some w → b = a

/-- the waiters on each list -/
def waits (held : Holder → List (ℕ × ℕ)) (k : Holder) : List ℕ := (held k).map Prod.snd

/-- `held` are the awaiters on each list with their waiters, `left` the rounds a set call has still to go -/
structure Inv (s : St) (held : Holder → List (ℕ × ℕ)) (left : ℕ → ℕ) : Prop where
  defined : s.ub = false
  registry : Registry Meets held s.awaiter
  state : Chain s.next_ s.state_.head ((held .state).map Prod.fst)
  setters : ∀ σ, (s.setter σ).Holds s.next_ ((held (.setter σ)).map Prod.fst) (left σ)
  idle : ∀ σ, s.setter σ = .idle ↔ s.sets ≤ σ
  trying : ∀ a w old_value, s.awaiter a = .trying w old_value →
    old_value ≠ .set ∧ s.next_ a = old_value.head ∧ Ev.pushed w ∉ s.log ∧ Ev.refused w ∉ s.log
  apart : ∀ a b w, (s.awaiter a).waiter = some w → (s.awaiter b).waiter = some w → a = b
  called : ∀ a w, (s.awaiter a).waiter = some w → w < s.waiters
  log : Logged s.log (waits held) s.waiters s.sets

variable {s : St} {held : Holder → List (ℕ × ℕ)} {left : ℕ → ℕ}

theorem init_inv (initially_set : Bool) : Inv (init initially_set) (fun _ => []) fun _ => 0 := by
  refine ⟨rfl, ⟨?_, ?_, ?_⟩, ?_, ?_, ?_, ?_, ?_, ?_, ?_⟩
  · intro k
    exact nodup_nil
  · intro k k' c hc
    exact absurd hc not_mem_nil
  · intro k p hp
    exact absurd hp not_mem_nil
  · cases initially_set <;> rfl
  · intro σ
    exact ⟨rfl, rfl⟩
  · intro σ
    exact ⟨fun _ => Nat.zero_le σ, fun _ => rfl⟩
  · intro a w old_value ha
    cases ha
  · intro a b w ha
    cases ha
  · intro a w ha
    cases ha
  · exact logged_nil

/-- the waiters when one list changes -/
theorem waits_update (held : Holder → List (ℕ × ℕ)) (k : Holder) (l : List (ℕ × ℕ)) :
    waits (update held k l) = update (waits held) k (l.map Prod.snd) :=
  comp_update (List.map Prod.snd) held k l

/-! ## await_suspend -/

/-- only the next fields of the awaiters a set call has taken count for it -/
theorem SetPc.Holds.congr {next_ next' : ℕ → Option ℕ} {l : List ℕ} {n : ℕ} {pc : SetPc} (h : pc.Holds next_ l n)
    (hn : ∀ a ∈ l, next' a = next_ a) : pc.Holds next' l n := by
  cases pc with
  | idle | returned => exact h
  | resume waiters => exact ⟨h.1.congr hn, h.2⟩
  | reverse prev cur =>
    obtain ⟨turned, rest, rfl, hturned, hrest, hleft⟩ := h
    refine ⟨turned, rest, rfl, hturned.congr ?_, hrest.congr ?_, hleft⟩
    · intro a ha
      exact hn a (mem_append_right _ ha)
    · intro a ha
      exact hn a (mem_append_left _ (mem_reverse.2 ha))

/-- an awaiter that is not suspended is on no list -/
theorem Inv.unheld (h : Inv s held left) {a : ℕ} (ha : ∀ w, s.awaiter a ≠ .suspended w) : Unheld held a := by
  refine h.registry.unheld ?_
  intro w hw
  cases hx : s.awaiter a with
  | suspended v => exact ha v hx
  | free | trying _ _ =>
    rw [hx] at hw
    exact hw

/-- an awaiter on a list is suspended -/
theorem Inv.suspended (h : Inv s held left) {k : Holder} {x : ℕ × ℕ} (hx : x ∈ held k) : s.awaiter x.1 = .suspended x.2 := by
  have hmeets := h.registry.met k x hx
  cases ha : s.awaiter x.1 with
  | suspended w =>
    rw [ha] at hmeets
    exact congrArg Awaiter.suspended hmeets
  | free | trying _ _ =>
    rw [ha] at hmeets
    exact absurd hmeets id

theorem Inv.undecided (h : Inv s held left) {a w : ℕ} {old_value : Word} (ha : s.awaiter a = .trying w old_value) :
    Undecided s a w := by
  obtain ⟨-, -, h1, h2⟩ := h.trying a w old_value ha
  have hwaiter : (s.awaiter a).waiter = some w := by rw [ha]; rfl
  exact ⟨h.called a w hwaiter, h1, h2, fun b hb => h.apart b a w hb hwaiter⟩

/-- one awaiter changes, and is for waiter `w` or for none afterwards -/
theorem Inv.apart_update (h : Inv s held left) {a w : ℕ} (hw : Undecided s a w) {x : Awaiter}
    (hx : ∀ v, x.waiter = some v → v = w) :
    (∀ b c v, (update s.awaiter a x b).waiter = some v → (update s.awaiter a x c).waiter = some v → b = c) ∧
      ∀ b v, (update s.awaiter a x b).waiter = some v → v < s.waiters := by
  have hother : ∀ b v, (update s.awaiter a x b).waiter = some v → (b = a ∧ v = w) ∨ (b ≠ a ∧ (s.awaiter b).waiter = some v) := by
    intro b v hb
    by_cases hba : b = a
    · subst hba
      rw [update_self] at hb
      exact Or.inl ⟨rfl, hx v hb⟩
    · rw [update_of_ne hba] at hb
      exact Or.inr ⟨hba, hb⟩
  refine ⟨?_, ?_⟩
  · intro b c v hb hc
    rcases hother b v hb with ⟨hb1, hb2⟩ | ⟨-, hb'⟩
    · rcases hother c v hc with ⟨hc1, -⟩ | ⟨-, hc'⟩
      · rw [hb1, hc1]
      · rw [hb1, hw.alone c (hb2 ▸ hc')]
    · rcases hother c v hc with ⟨hc1, hc2⟩ | ⟨-, hc'⟩
      · rw [hc1, hw.alone b (hc2 ▸ hb')]
      · exact h.apart b c v hb' hc'
  · intro b v hb
    rcases hother b v hb with ⟨-, rfl⟩ | ⟨-, hb⟩
    · exact hw.called
    · exact h.called b v hb

/-- the word read last does not say set: next_ is written, and the compare-exchange is still to come -/
theorem Inv.loop_trying (h : Inv s held left) {a w : ℕ} (hu : Unheld held a) (hw : Undecided s a w) {old_value : Word}
    (hold : old_value ≠ .set) :
    Inv { s with next_ := update s.next_ a old_value.head, awaiter := update s.awaiter a (.trying w old_value) } held left := by
  obtain ⟨hapart, hcalled⟩ := h.apart_update hw (x := .trying w old_value) fun v hv => (Option.some.inj hv).symm
  refine { h with registry := h.registry.update_status hu, state := h.state.update (hu _), setters := ?_, trying := ?_,
                  apart := hapart, called := hcalled }
  · intro σ
    refine (h.setters σ).congr ?_
    intro b hb
    have hba : b ≠ a := by
      intro hba
      exact hu _ (hba ▸ hb)
    exact update_of_ne hba _ _
  · intro a' w' old' ha'
    by_cases he : a' = a
    · subst he
      obtain ⟨rfl, rfl⟩ : w = w' ∧ old_value = old' := by simpa using ha'
      exact ⟨hold, by simp, hw.pushed, hw.refused⟩
    · simp only [update_of_ne he] at ha' ⊢
      exact h.trying a' w' old' ha'

/-- an awaiter leaves the loop, and its waiter is in the log -/
theorem Inv.trying_of_leave (h : Inv s held left) {a w : ℕ} (hw : Undecided s a w) {x : Awaiter} {e : Ev}
    (hx : ∀ v old, x ≠ .trying v old) (he : ∀ v, e = .pushed v ∨ e = .refused v → v = w) {a' w' : ℕ} {old_value : Word}
    (ha' : update s.awaiter a x a' = .trying w' old_value) :
    old_value ≠ .set ∧ s.next_ a' = old_value.head ∧ .pushed w' ∉ s.log ++ [e] ∧ .refused w' ∉ s.log ++ [e] := by
  have hne : a' ≠ a := by
    intro heq
    rw [heq, update_self] at ha'
    exact hx w' old_value ha'
  rw [update_of_ne hne] at ha'
  obtain ⟨h1, h2, h3, h4⟩ := h.trying a' w' old_value ha'
  have hww : w' ≠ w := by
    intro hww
    refine hne (hw.alone a' ?_)
    rw [ha', hww]
    rfl
  refine ⟨h1, h2, ?_, ?_⟩
  · intro hmem
    rcases mem_append.1 hmem with hmem | hmem
    · exact h3 hmem
    · exact hww (he w' (Or.inl (mem_singleton.1 hmem).symm))
  · intro hmem
    rcases mem_append.1 hmem with hmem | hmem
    · exact h4 hmem
    · exact hww (he w' (Or.inr (mem_singleton.1 hmem).symm))

/-- the word read last says set: await_suspend returns false -/
theorem Inv.loop_refused (h : Inv s held left) {a w : ℕ} (hu : Unheld held a) (hw : Undecided s a w) :
    Inv { s with awaiter := update s.awaiter a .free, log := s.log ++ [.refused w] } held left := by
  obtain ⟨hapart, hcalled⟩ := h.apart_update hw (x := .free) (by simp [Awaiter.waiter])
  refine { h with registry := h.registry.update_status hu, apart := hapart, called := hcalled, trying := ?_,
                  log := h.log.refuse hw.called hw.pushed }
  intro a' w' old' ha'
  exact h.trying_of_leave hw (x := .free) (e := .refused w) (by simp) (by simp) ha'

/-- the compare-exchange finds the word that next_ was written with: the awaiter goes in front of the list. It does not
matter whether the word has changed and changed back in between -/
theorem Inv.push (h : Inv s held left) {a w : ℕ} {old_value : Word} (ha : s.awaiter a = .trying w old_value)
    (hold : s.state_ = old_value) :
    Inv { s with state_ := .awaiter a, awaiter := update s.awaiter a (.suspended w), log := s.log ++ [.pushed w] }
      (update held .state ((a, w) :: held .state)) left := by
  have hnext := (h.trying a w old_value ha).2.1
  have hw := h.undecided ha
  have hu : Unheld held a := h.unheld (by simp [ha])
  obtain ⟨hapart, hcalled⟩ := h.apart_update hw (x := .suspended w) fun v hv => (Option.some.inj hv).symm
  refine { h with registry := h.registry.add hu rfl, apart := hapart, called := hcalled, state := ?_, setters := ?_,
                  trying := ?_, log := ?_ }
  · rw [update_self, map_cons]
    refine ⟨rfl, ?_⟩
    rw [hnext, ← hold]
    exact h.state
  · intro σ
    rw [update_of_ne (by simp)]
    exact h.setters σ
  · intro a' w' old' ha'
    exact h.trying_of_leave hw (x := .suspended w) (e := .pushed w) (by simp) (by simp) ha'
  · rw [waits_update]
    exact h.log.push hw.called hw.pushed hw.refused

/-! ## set -/

/-- the list a set takes, in the order in which it will resume it -/
def orderPairs (l : List (ℕ × ℕ)) : Policy → List (ℕ × ℕ)
  | .lifo => l
  | .fifo => l.reverse

/-- the pointers a set starts with reach the list it takes -/
theorem taken_holds (h : Inv s held left) (policy : Policy) :
    ∃ n, (s.taken s.state_ policy).Holds s.next_ ((orderPairs (held .state) policy).map Prod.fst) n := by
  have hchain := h.state
  cases policy with
  | lifo => exact ⟨_, hchain, rfl⟩
  | fifo =>
    simp only [orderPairs, St.taken, map_reverse]
    cases hhead : s.state_.head with
    | none =>
      rw [hhead, chain_null] at hchain
      rw [hchain]
      exact ⟨1, rfl, rfl⟩
    | some cur =>
      rw [hhead] at hchain
      obtain ⟨l, hl, hrest⟩ := chain_node.1 hchain
      dsimp only
      split_ifs with hnext
      · -- a single awaiter: reverse returns it as it is
        rw [hnext, chain_null] at hrest
        subst hrest
        rw [hl] at hchain ⊢
        exact ⟨_, hchain, rfl⟩
      · exact ⟨_, [], _, (append_nil _).symm, rfl, hchain, rfl⟩

theorem exchanged_busy (s : St) (policy : Policy) : s.exchanged policy ≠ .idle := by
  unfold St.exchanged
  split_ifs
  · simp
  · cases policy with
    | lifo => simp [St.taken]
    | fifo =>
      simp only [St.taken]
      split
      · simp
      · split_ifs <;> simp

theorem exchanged_holds (h : Inv s held left) (policy : Policy) :
    ∃ n, (s.exchanged policy).Holds s.next_ ((orderPairs (held .state) policy).map Prod.fst) n := by
  unfold St.exchanged
  split_ifs with hset
  · -- an event that is set has no list
    have hnil : held .state = [] := by
      have hchain := h.state
      rw [hset] at hchain
      exact map_eq_nil_iff.1 (chain_null.1 hchain)
    refine ⟨0, ?_, rfl⟩
    rw [hnil]
    cases policy <;> rfl
  · exact taken_holds h policy

theorem orderPairs_perm (l : List (ℕ × ℕ)) (policy : Policy) : orderPairs l policy ~ l := by
  cases policy with
  | lifo => exact Perm.refl _
  | fifo => exact reverse_perm _

theorem map_snd_orderPairs (l : List (ℕ × ℕ)) (policy : Policy) :
    (orderPairs l policy).map Prod.snd = order (l.map Prod.snd) policy := by
  cases policy with
  | lifo => rfl
  | fifo => exact map_reverse

/-- the exchange takes the whole list -/
theorem Inv.set (h : Inv s held left) (policy : Policy) :
    ∃ n, Inv (step s (.set policy)) (update (update held .state []) (.setter s.sets) (orderPairs (held .state) policy))
      (update left s.sets n) := by
  have hidle : s.setter s.sets = .idle := (h.idle s.sets).2 le_rfl
  have hfree : held (.setter s.sets) = [] := by
    have hh := h.setters s.sets
    rw [hidle] at hh
    exact map_eq_nil_iff.1 hh.1
  have hperm := orderPairs_perm (held .state) policy
  obtain ⟨n, hn⟩ := exchanged_holds h policy
  refine ⟨n, { h with registry := h.registry.transfer (by simp) hfree hperm, state := ?_, setters := ?_, idle := ?_,
                      trying := ?_, log := ?_ }⟩
  · rw [update_of_ne (by simp), update_self]
    rfl
  · intro σ
    by_cases hσ : σ = s.sets
    · subst hσ
      simp only [step, update_self]
      exact hn
    · have hk : Holder.setter σ ≠ .setter s.sets := by simpa using hσ
      have hk' : Holder.setter σ ≠ .state := by simp
      simp only [step, update_of_ne hσ, update_of_ne hk, update_of_ne hk']
      exact h.setters σ
  · intro σ
    by_cases hσ : σ = s.sets
    · subst hσ
      simp only [step, update_self]
      exact ⟨fun hp => absurd hp (exchanged_busy s policy), fun hle => absurd hle (Nat.not_succ_le_self _)⟩
    · simp only [step, update_of_ne hσ]
      rw [h.idle σ]
      omega
  · intro a w old_value ha
    obtain ⟨h1, h2, h3, h4⟩ := h.trying a w old_value ha
    exact ⟨h1, h2, by simpa [step] using h3, by simpa [step] using h4⟩
  · rw [waits_update, waits_update]
    refine h.log.exchange policy ?_ (map_snd_orderPairs _ _) (hperm.map Prod.snd)
    rw [waits, hfree]
    rfl

/-- a round of set that resumes nobody: it may write the next fields of the awaiters it has taken -/
theorem Inv.round (h : Inv s held left) (next' : ℕ → Option ℕ) {σ n : ℕ} {pc : SetPc} (hbusy : s.setter σ ≠ .idle)
    (hpc : pc ≠ .idle) (hnext : ∀ a, a ∉ (held (.setter σ)).map Prod.fst → next' a = s.next_ a)
    (hn : pc.Holds next' ((held (.setter σ)).map Prod.fst) n) :
    Inv { s with next_ := next', setter := update s.setter σ pc } held (update left σ n) := by
  have hoff : ∀ k, k ≠ .setter σ → ∀ a ∈ (held k).map Prod.fst, next' a = s.next_ a := by
    intro k hk a ha
    refine hnext a ?_
    intro hσ
    exact hk (h.registry.unique k (.setter σ) a ha hσ)
  refine { h with state := h.state.congr (hoff .state (by simp)), setters := ?_, idle := ?_, trying := ?_ }
  · intro σ'
    by_cases hσ : σ' = σ
    · subst hσ
      simp only [update_self]
      exact hn
    · simp only [update_of_ne hσ]
      exact (h.setters σ').congr (hoff (.setter σ') (by simpa using hσ))
  · intro σ'
    by_cases hσ : σ' = σ
    · subst hσ
      simp only [update_self]
      exact ⟨fun hp => absurd hp hpc, fun hle => absurd ((h.idle σ').2 hle) hbusy⟩
    · simp only [update_of_ne hσ]
      exact h.idle σ'
  · intro a w old_value ha
    obtain ⟨h1, h2, h3⟩ := h.trying a w old_value ha
    have hu : Unheld held a := by
      refine h.unheld ?_
      intro v hv
      exact Awaiter.noConfusion (hv.symm.trans ha)
    exact ⟨h1, (hnext a (hu _)).trans h2, h3⟩

/-- the first awaiter of a set call's list is suspended, and is resumed -/
theorem Inv.resume (h : Inv s held left) {σ a : ℕ} (hσ : s.setter σ = .resume (some a)) :
    ∃ w l, s.awaiter a = .suspended w ∧ left σ = l.length + 2 ∧
      Inv { s with
            awaiter := update s.awaiter a .free, setter := update s.setter σ (.resume (s.next_ a))
            log := s.log ++ [.resumed σ w] }
        (update held (.setter σ) l) (update left σ (l.length + 1)) := by
  have hholds := h.setters σ
  rw [hσ] at hholds
  obtain ⟨hchain, hleft⟩ := hholds
  obtain ⟨as, has, hrest⟩ := chain_node.1 hchain
  obtain ⟨⟨b, w⟩, l, hl, rfl, rfl⟩ := map_eq_cons_iff.1 has
  have hsusp : s.awaiter b = .suspended w := h.suspended (x := (b, w)) (k := .setter σ) (by rw [hl]; simp)
  obtain ⟨hdrop, hunheld⟩ := h.registry.drop hl
  refine ⟨w, l, hsusp, ?_, ?_⟩
  · rw [hleft, hl, map_cons, length_cons, length_map]
  have hlt : σ < s.sets := by
    by_contra hge
    rw [(h.idle σ).2 (not_lt.1 hge)] at hσ
    cases hσ
  have hwaiter : (s.awaiter b).waiter = some w := by rw [hsusp]; rfl
  -- no other awaiter on a list is for the waiter that is resumed
  have hother : ∀ k, w ∉ waits (update held (.setter σ) l) k := by
    intro k hk
    obtain ⟨x, hx, hxw⟩ := mem_map.1 hk
    have hxk : x ∈ held k := by
      by_cases hk : k = .setter σ
      · subst hk
        rw [update_self] at hx
        rw [hl]
        exact mem_cons_of_mem _ hx
      · rwa [update_of_ne hk] at hx
    have hxa : (s.awaiter x.1).waiter = some w := by
      rw [h.suspended hxk, ← hxw]
      rfl
    exact hunheld k ((h.apart x.1 b w hxa hwaiter) ▸ mem_map_of_mem hx)
  have hfree : ∀ c v, (update s.awaiter b .free c).waiter = some v → (s.awaiter c).waiter = some v := by
    intro c v hc
    by_cases hcb : c = b
    · subst hcb
      rw [update_self] at hc
      cases hc
    · rwa [update_of_ne hcb] at hc
  refine { h with registry := hdrop.update_status hunheld, state := ?_, setters := ?_, idle := ?_, trying := ?_,
                  apart := ?_, called := ?_, log := ?_ }
  · rw [update_of_ne (by simp)]
    exact h.state
  · intro σ'
    by_cases hσ' : σ' = σ
    · subst hσ'
      simp only [update_self]
      exact ⟨hrest, by rw [length_map]⟩
    · have hk : Holder.setter σ' ≠ .setter σ := by simpa using hσ'
      simp only [update_of_ne hσ', update_of_ne hk]
      exact h.setters σ'
  · intro σ'
    by_cases hσ' : σ' = σ
    · subst hσ'
      simp only [update_self]
      exact ⟨fun hp => SetPc.noConfusion hp, fun hle => absurd hle (not_le.2 hlt)⟩
    · simp only [update_of_ne hσ']
      exact h.idle σ'
  · intro a' w' old_value ha'
    have hne : a' ≠ b := by
      rintro rfl
      simp at ha'
    simp only [update_of_ne hne] at ha'
    obtain ⟨h1, h2, h3, h4⟩ := h.trying a' w' old_value ha'
    exact ⟨h1, h2, by simpa using h3, by simpa using h4⟩
  · intro c d v hc hd
    exact h.apart c d v (hfree c v hc) (hfree d v hd)
  · intro c v hc
    exact h.called c v (hfree c v hc)
  · rw [waits_update] at hother ⊢
    refine h.log.resume hlt ?_ hother
    rw [waits, hl, map_cons]

/-! ## Whole runs -/

theorem Inv.advance (h : Inv s held left) (σ : ℕ) :
    ∃ held', Inv (s.advance σ) held' (update left σ (left σ - 1)) := by
  have hholds := h.setters σ
  unfold St.advance
  cases hσ : s.setter σ with
  | idle | returned =>
    rw [hσ] at hholds
    refine ⟨held, ?_⟩
    rw [hholds.2, Nat.zero_sub, ← hholds.2, update_eq_self]
    exact h
  | reverse prev cur =>
    rw [hσ] at hholds
    obtain ⟨turned, rest, hlist, hturned, hrest, hleft⟩ := hholds
    cases cur with
    | none =>
      rw [chain_null] at hrest
      subst hrest
      refine ⟨held, h.round s.next_ (by simp [hσ]) (by simp) (fun _ _ => rfl) ⟨?_, ?_⟩⟩
      · rw [hlist]
        exact hturned
      · rw [hleft, length_nil]
        omega
    | some a =>
      obtain ⟨rest, rfl, hnext⟩ := chain_node.1 hrest
      have hnodup := h.registry.nodup (.setter σ)
      rw [hlist, reverse_cons, append_assoc, singleton_append] at hnodup
      obtain ⟨-, hnodup, hapart⟩ := nodup_append.1 hnodup
      have hturn : a ∉ turned := (nodup_cons.1 hnodup).1
      have hrest' : a ∉ rest := fun hm => hapart a (mem_reverse.2 hm) a mem_cons_self rfl
      obtain ⟨h1, h2⟩ := hturned.turn hrest hturn hrest'
      refine ⟨held, h.round _ (by simp [hσ]) (by simp) ?_ ⟨a :: turned, rest, ?_, h1, h2, ?_⟩⟩
      · intro b hb
        refine update_of_ne ?_ _ _
        rintro rfl
        rw [hlist] at hb
        simp at hb
      · rw [hlist, reverse_cons, append_assoc, singleton_append]
      · rw [hleft, length_cons]
        omega
  | resume waiters =>
    cases waiters with
    | none =>
      rw [hσ] at hholds
      obtain ⟨hchain, hleft⟩ := hholds
      rw [chain_null] at hchain
      rw [hchain] at hleft
      refine ⟨held, h.round s.next_ (by simp [hσ]) (by simp) (fun _ _ => rfl) ⟨hchain, ?_⟩⟩
      rw [hleft]
      rfl
    | some a =>
      obtain ⟨w, l, hsusp, hleft, hinv⟩ := h.resume hσ
      refine ⟨update held (.setter σ) l, ?_⟩
      simp only [hsusp, hleft]
      exact hinv

theorem Inv.loop (h : Inv s held left) {a w : ℕ} (hu : Unheld held a) (hw : Undecided s a w) (old_value : Word) :
    Inv (s.loop a w old_value) held left := by
  cases old_value with
  | set => exact h.loop_refused hu hw
  | null => exact h.loop_trying hu hw (by simp)
  | awaiter b => exact h.loop_trying hu hw (by simp)

theorem Inv.awaitSuspend (h : Inv s held left) (a : ℕ) : Inv (step s (.awaitSuspend a)) held left := by
  simp only [step]
  split_ifs with ha
  · have hcall : Inv { s with waiters := s.waiters + 1 } held left :=
      { h with called := fun b w hb => (h.called b w hb).trans (Nat.lt_succ_self _)
               log := { h.log with logged := fun w hw => (h.log.logged w hw).trans (Nat.lt_succ_self _) } }
    refine hcall.loop (h.unheld (by simp [ha])) ⟨Nat.lt_succ_self _, ?_, ?_, ?_⟩ s.state_
    · intro hm
      exact lt_irrefl _ (h.log.logged s.waiters (Or.inl hm))
    · intro hm
      exact lt_irrefl _ (h.log.logged s.waiters (Or.inr hm))
    · intro b hb
      exact absurd (h.called b s.waiters hb) (lt_irrefl _)
  · exact h

theorem Inv.compareExchange (h : Inv s held left) (a : ℕ) (spurious : Bool) :
    ∃ held', Inv (step s (.compareExchange a spurious)) held' left := by
  simp only [step]
  cases ha : s.awaiter a with
  | free | suspended _ => exact ⟨held, h⟩
  | trying w old_value =>
    dsimp only
    split_ifs with hc
    · exact ⟨_, h.push ha hc.1⟩
    · exact ⟨held, h.loop (h.unheld (by simp [ha])) (h.undecided ha) s.state_⟩

/-- every operation keeps the invariant, and only a set call's own rounds bring it nearer to its return -/
theorem step_inv (h : Inv s held left) (o : Op) :
    ∃ held' left', Inv (step s o) held' left' ∧
      ∀ σ < s.sets, left' σ = left σ - if o = .advance σ then 1 else 0 := by
  cases o with
  | awaitSuspend a => exact ⟨held, left, h.awaitSuspend a, fun σ _ => by simp⟩
  | compareExchange a spurious =>
    obtain ⟨held', hinv⟩ := h.compareExchange a spurious
    exact ⟨held', left, hinv, fun σ _ => by simp⟩
  | set policy =>
    obtain ⟨n, hinv⟩ := h.set policy
    refine ⟨_, _, hinv, ?_⟩
    intro σ hσ
    rw [update_of_ne hσ.ne]
    simp
  | advance σ =>
    obtain ⟨held', hinv⟩ := h.advance σ
    refine ⟨held', _, hinv, ?_⟩
    intro σ' _
    by_cases hσ : σ' = σ
    · subst hσ
      simp
    · have hne : Op.advance σ ≠ .advance σ' := by simpa using Ne.symm hσ
      rw [update_of_ne hσ, if_neg hne, Nat.sub_zero]
  | reset =>
    refine ⟨held, left, ?_, fun σ _ => by simp⟩
    simp only [step]
    split_ifs with hs
    · have hchain := h.state
      rw [hs] at hchain
      exact { h with state := hchain }
    · exact h

theorem loop_sets (s : St) (a w : ℕ) (old_value : Word) : (s.loop a w old_value).sets = s.sets := by
  cases old_value <;> rfl

/-- only a set operation makes a set call -/
theorem sets_step (s : St) (o : Op) : (step s o).sets = s.sets + o.policy.toList.length := by
  cases o with
  | awaitSuspend a =>
    simp only [step]
    split_ifs
    · exact loop_sets ..
    · rfl
  | compareExchange a spurious =>
    simp only [step]
    split
    · split_ifs
      · rfl
      · exact loop_sets ..
    all_goals rfl
  | set policy => rfl
  | advance σ =>
    simp only [step, St.advance]
    repeat' split
    all_goals rfl
  | reset =>
    simp only [step]
    split_ifs <;> rfl

theorem step_sets (s : St) (o : Op) : s.sets ≤ (step s o).sets := by
  rw [sets_step]
  exact Nat.le_add_right ..

theorem run_sets (s : St) (ops : List Op) : s.sets ≤ (run step s ops).sets := by
  have hstep : ∀ t o, s.sets ≤ t.sets → s.sets ≤ (step t o).sets := fun t o h => h.trans (step_sets t o)
  exact run_of_inv hstep le_rfl ops

/-- after a run, a set call has as many rounds left as it had, less those it made -/
theorem run_inv (h : Inv s held left) (ops : List Op) :
    ∃ held' left', Inv (run step s ops) held' left' ∧ ∀ σ < s.sets, left' σ = left σ - ops.count (.advance σ) := by
  induction ops generalizing s held left with
  | nil => exact ⟨held, left, h, fun σ _ => by simp⟩
  | cons o ops ih =>
    obtain ⟨held₁, left₁, h₁, hleft₁⟩ := step_inv h o
    obtain ⟨held₂, left₂, h₂, hleft₂⟩ := ih h₁
    refine ⟨held₂, left₂, h₂, ?_⟩
    intro σ hσ
    rw [hleft₂ σ (hσ.trans_le (step_sets s o)), hleft₁ σ hσ, count_cons, Nat.sub_sub]
    congr 1
    rw [add_comm]
    simp

theorem Inv.returned (h : Inv s held left) {σ : ℕ} (hσ : σ < s.sets) (hleft : left σ = 0) : s.setter σ = .returned := by
  have hholds := h.setters σ
  rw [hleft] at hholds
  cases hpc : s.setter σ with
  | idle => exact absurd ((h.idle σ).1 hpc) (not_le.2 hσ)
  | returned => rfl
  | resume waiters =>
    rw [hpc] at hholds
    exact absurd hholds.2 (by simp)
  | reverse prev cur =>
    rw [hpc] at hholds
    obtain ⟨_, _, -, -, -, hn⟩ := hholds
    exact absurd hn (by simp)

theorem Inv.held_returned (h : Inv s held left) {σ : ℕ} (hσ : s.setter σ = .returned) : held (.setter σ) = [] := by
  have hholds := h.setters σ
  rw [hσ] at hholds
  exact map_eq_nil_iff.1 hholds.1

theorem Inv.served (h : Inv s held left) : Served s := by
  refine ⟨h.defined, ?_, ?_, ?_, ?_⟩
  · intro w σ hw htaker
    rcases h.log.pushed w hw with ⟨k, hk⟩ | ⟨σ', h1, h2⟩
    · -- still on a list, and that of the set call that took it
      obtain ⟨-, h2, h3⟩ := h.log.waiting k w hk
      rw [h3]
      refine And.intro nil_prefix ?_
      intro hret
      rw [htaker] at h2
      cases k with
      | state => cases h2
      | setter σ' =>
        obtain rfl : σ = σ' := Option.some.inj h2
        rw [waits, h.held_returned hret] at hk
        exact absurd hk not_mem_nil
    · rw [htaker] at h2
      obtain rfl := Option.some.inj h2
      rw [h1]
      exact ⟨prefix_refl _, fun _ => rfl⟩
  · intro w hw htaker
    rcases h.log.pushed w hw with ⟨k, hk⟩ | ⟨σ', -, h2⟩
    · exact (h.log.waiting k w hk).2.2
    · rw [htaker] at h2
      cases h2
  · intro w hw
    have hnot := h.log.refused w hw
    exact ⟨hnot, h.log.unpushed w hnot⟩
  · intro l₁ σ policy l₂ hlog
    have hord := h.log.ordered l₁ σ policy l₂ hlog
    refine ⟨⟨_, hord⟩, ?_⟩
    intro hret
    rw [waits, h.held_returned hret, map_nil, append_nil] at hord
    exact hord

/-- the body of the loop refuses only a word that says set -/
theorem loop_refused {a w v : ℕ} {old_value : Word} (h : .refused v ∈ (s.loop a w old_value).log) :
    .refused v ∈ s.log ∨ old_value = .set := by
  cases old_value with
  | set => exact Or.inr rfl
  | null | awaiter _ => exact Or.inl h

theorem step_sawSet (s : St) (o : Op) : SawSet s o := by
  intro w hw
  cases o with
  | awaitSuspend a =>
    simp only [step] at hw
    split_ifs at hw
    · exact loop_refused (s := { s with waiters := s.waiters + 1 }) hw
    · exact Or.inl hw
  | compareExchange a spurious =>
    cases ha : s.awaiter a with
    | free | suspended _ =>
      simp only [step, ha] at hw
      exact Or.inl hw
    | trying w' old_value =>
      simp only [step, ha] at hw
      split_ifs at hw
      · exact Or.inl (by simpa using hw)
      · exact loop_refused hw
  | set policy => exact Or.inl (by simpa [step] using hw)
  | advance σ =>
    refine Or.inl ?_
    simp only [step, St.advance] at hw
    split at hw
    · exact hw
    · exact hw
    · exact hw
    · exact hw
    · exact hw
    · split at hw
      · simpa using hw
      · exact hw
      · exact hw
  | reset =>
    refine Or.inl ?_
    simp only [step] at hw
    split_ifs at hw
    · exact hw
    · exact hw

/-! ## The log and the operations -/

/-- an awaiter that changes by itself -/
theorem awaiters_update {t : St} {a : ℕ} {x : Awaiter} (h : t.awaiter = update s.awaiter a x) {e : Option Ev}
    (hsuspended : ∀ w, x = .suspended w → s.awaiter a = .suspended w ∨ e = some (.pushed w))
    (hfreed : ∀ w, (s.awaiter a).waiter = some w → x = .free → e = some (.refused w) ∨ ∃ σ, e = some (.resumed σ w)) :
    (∀ b w, t.awaiter b = .suspended w → s.awaiter b = .suspended w ∨ e = some (.pushed w)) ∧
      ∀ b w, (s.awaiter b).waiter = some w → t.awaiter b = .free → e = some (.refused w) ∨ ∃ σ, e = some (.resumed σ w) := by
  rw [h]
  refine ⟨?_, ?_⟩ <;> intro b w <;> by_cases hb : b = a
  · subst hb
    rw [update_self]
    exact hsuspended w
  · rw [update_of_ne hb]
    exact Or.inl
  · subst hb
    rw [update_self]
    exact hfreed w
  · rw [update_of_ne hb]
    intro hw hfree
    rw [hfree] at hw
    cases hw

/-- an operation that leaves the awaiters alone -/
theorem recorded_of_same {o : Op} (hlogged : (step s o).log = s.log ++ (entry s o).toList)
    (hawaiter : (step s o).awaiter = s.awaiter) (hpushed : ∀ w, entry s o ≠ some (.pushed w))
    (hexchanged : ∀ σ policy, entry s o = some (.exchanged σ policy) →
      (step s o).state_ = .set ∧ (step s o).setter σ ≠ .idle)
    (hcalled : ∀ a, o = .awaitSuspend a → s.awaiter a ≠ .free)
    (hagain : ∀ a w old_value spurious, o = .compareExchange a spurious → s.awaiter a ≠ .trying w old_value) :
    Recorded s o := by
  obtain ⟨hsuspended, hfreed⟩ := awaiters_update (s := s) (t := step s o) (a := 0) (x := s.awaiter 0) (e := entry s o)
    (by rw [hawaiter, update_eq_self]) (fun w hw => Or.inl hw) fun w hw hfree => by rw [hfree] at hw; cases hw
  exact ⟨hlogged, hexchanged, fun w hw => absurd hw (hpushed w), hsuspended, hfreed,
    fun a ho ha => absurd ha (hcalled a ho),
    fun a w old_value spurious ho ha => absurd ha (hagain a w old_value spurious ho)⟩

theorem loop_entry (s : St) (a w : ℕ) (old_value : Word) :
    (s.loop a w old_value).log = s.log ++ (if old_value = .set then some (Ev.refused w) else none).toList ∧
      (s.loop a w old_value).awaiter = update s.awaiter a (if old_value = .set then .free else .trying w old_value) ∧
      (s.loop a w old_value).waiters = s.waiters := by
  cases old_value <;> simp [St.loop]

/-- the loop of await_suspend, from a call or after a compare-exchange that has failed -/
theorem recorded_loop {o : Op} {a w : ℕ} (hw : ∀ v, (s.awaiter a).waiter = some v → v = w)
    (hlog : (step s o).log = s.log ++ (entry s o).toList)
    (hawaiter : (step s o).awaiter = update s.awaiter a (if s.state_ = .set then .free else .trying w s.state_))
    (hentry : entry s o = if s.state_ = .set then some (.refused w) else none)
    (hcalled : ∀ b, o = .awaitSuspend b → b = a ∧ w = s.waiters ∧ (step s o).waiters = s.waiters + 1)
    (hagain : ∀ b v old_value spurious, o = .compareExchange b spurious → s.awaiter b = .trying v old_value →
      b = a ∧ v = w) :
    Recorded s o := by
  obtain ⟨hsuspended, hfreed⟩ := awaiters_update hawaiter (e := entry s o)
    (by intro v hv; split_ifs at hv)
    (by
      intro v hv hfree
      split_ifs at hfree with hset
      rw [hentry, if_pos hset, hw v hv]
      exact Or.inl rfl)
  -- where the word does not say set, the awaiter tries with it
  have htrying : entry s o = none → (step s o).awaiter a = .trying w s.state_ := by
    intro hnone
    rw [hentry] at hnone
    split_ifs at hnone with hset
    rw [hawaiter, update_self, if_neg hset]
  refine ⟨hlog, ?_, ?_, hsuspended, hfreed, ?_, ?_⟩
  · intro σ policy he
    rw [hentry] at he
    split_ifs at he
    cases he
  · intro v he
    rw [hentry] at he
    split_ifs at he
    cases he
  · intro b ho _
    obtain ⟨rfl, rfl, hwaiters⟩ := hcalled b ho
    exact ⟨hwaiters, htrying⟩
  · intro b v old_value spurious ho hb
    obtain ⟨rfl, rfl⟩ := hagain b v old_value spurious ho hb
    exact htrying

theorem recorded_awaitSuspend (s : St) (a : ℕ) : Recorded s (.awaitSuspend a) := by
  by_cases ha : s.awaiter a = .free
  · obtain ⟨hlog, hawaiter, hwaiters⟩ := loop_entry { s with waiters := s.waiters + 1 } a s.waiters s.state_
    have hstep : step s (.awaitSuspend a) = St.loop { s with waiters := s.waiters + 1 } a s.waiters s.state_ := if_pos ha
    have hentry : entry s (.awaitSuspend a) = if s.state_ = .set then some (.refused s.waiters) else none := by
      simp [entry, ha]
    rw [← hstep] at hlog hawaiter hwaiters
    refine recorded_loop (by simp [ha, Awaiter.waiter]) (hentry ▸ hlog) hawaiter hentry ?_ (by simp)
    intro b hb
    exact ⟨(Op.awaitSuspend.inj hb).symm, rfl, hwaiters⟩
  · have hstep : step s (.awaitSuspend a) = s := if_neg ha
    have hentry : entry s (.awaitSuspend a) = none := if_neg fun h => ha h.1
    exact recorded_of_same (by simp [hstep, hentry]) (by rw [hstep]) (by simp [hentry]) (by simp [hentry])
      (by simpa using ha) (by simp)

theorem recorded_compareExchange (s : St) (a : ℕ) (spurious : Bool) : Recorded s (.compareExchange a spurious) := by
  cases ha : s.awaiter a with
  | free | suspended _ =>
    have hstep : step s (.compareExchange a spurious) = s := by simp [step, ha]
    have hentry : entry s (.compareExchange a spurious) = none := by simp [entry, ha]
    refine recorded_of_same (by simp [hstep, hentry]) (by rw [hstep]) (by simp [hentry]) (by simp [hentry]) (by simp) ?_
    intro b v old_value spurious' hb hv
    obtain rfl := (Op.compareExchange.inj hb).1
    rw [ha] at hv
    cases hv
  | trying w old_value =>
    by_cases hc : s.state_ = old_value ∧ spurious = false
    · have hstep : step s (.compareExchange a spurious) = { s with
          state_ := .awaiter a, awaiter := update s.awaiter a (.suspended w), log := s.log ++ [.pushed w] } := by
        simp [step, ha, hc]
      have hentry : entry s (.compareExchange a spurious) = some (.pushed w) := by simp [entry, ha, hc]
      obtain ⟨hsuspended, hfreed⟩ := awaiters_update (s := s) (t := step s (.compareExchange a spurious)) (a := a)
        (x := .suspended w) (e := some (.pushed w)) (by rw [hstep]) (by simp) (by simp)
      refine ⟨by simp [hstep, hentry], by simp [hentry], ?_, hentry ▸ hsuspended, hentry ▸ hfreed, by simp, by simp [hentry]⟩
      intro v hv
      obtain rfl : w = v := by simpa [hentry] using hv
      exact ⟨a, by rw [hstep], by simp [hstep]⟩
    · obtain ⟨hlog, hawaiter, -⟩ := loop_entry s a w s.state_
      have hstep : step s (.compareExchange a spurious) = s.loop a w s.state_ := by simp [step, ha, hc]
      have hentry : entry s (.compareExchange a spurious) = if s.state_ = .set then some (.refused w) else none := by
        simp [entry, ha, hc]
      rw [← hstep] at hlog hawaiter
      refine recorded_loop (by simp [ha, Awaiter.waiter]) (hentry ▸ hlog) hawaiter hentry (by simp) ?_
      intro b v old' spurious' hb hv
      obtain rfl := (Op.compareExchange.inj hb).1
      rw [ha] at hv
      exact ⟨rfl, (Awaiter.trying.inj hv).1.symm⟩

theorem recorded_advance (s : St) (σ : ℕ) : Recorded s (.advance σ) := by
  by_cases hresume : ∃ a w, s.setter σ = .resume (some a) ∧ s.awaiter a = .suspended w
  · obtain ⟨a, w, hσ, ha⟩ := hresume
    have hstep : step s (.advance σ) = { s with
        awaiter := update s.awaiter a .free, setter := update s.setter σ (.resume (s.next_ a))
        log := s.log ++ [.resumed σ w] } := by simp [step, St.advance, hσ, ha]
    have hentry : entry s (.advance σ) = some (.resumed σ w) := by simp [entry, hσ, ha]
    obtain ⟨hsuspended, hfreed⟩ := awaiters_update (s := s) (t := step s (.advance σ)) (a := a) (x := .free)
      (e := some (.resumed σ w)) (by rw [hstep]) (by simp) (by simp [ha, Awaiter.waiter])
    exact ⟨by simp [hstep, hentry], by simp [hentry], by simp [hentry], hentry ▸ hsuspended, hentry ▸ hfreed, by simp,
      by simp⟩
  · have hentry : entry s (.advance σ) = none := by
      simp only [entry]
      split
      · split
        · exact absurd ⟨_, _, by assumption, by assumption⟩ hresume
        all_goals rfl
      · rfl
    have hsame : (step s (.advance σ)).log = s.log ∧ (step s (.advance σ)).awaiter = s.awaiter := by
      simp only [step, St.advance]
      split
      case h_6 =>
        split
        · exact absurd ⟨_, _, by assumption, by assumption⟩ hresume
        all_goals exact ⟨rfl, rfl⟩
      all_goals exact ⟨rfl, rfl⟩
    exact recorded_of_same (by simp [hsame.1, hentry]) hsame.2 (by simp [hentry]) (by simp [hentry]) (by simp) (by simp)

theorem step_recorded (s : St) (o : Op) : Recorded s o := by
  cases o with
  | awaitSuspend a => exact recorded_awaitSuspend s a
  | compareExchange a spurious => exact recorded_compareExchange s a spurious
  | set policy =>
    refine recorded_of_same rfl rfl (by simp [entry]) ?_ (by simp) (by simp)
    intro σ policy' he
    obtain ⟨rfl, rfl⟩ : s.sets = σ ∧ policy = policy' := by simpa [entry] using he
    exact ⟨rfl, by simp [step, exchanged_busy]⟩
  | advance σ => exact recorded_advance s σ
  | reset =>
    have hsame : (step s .reset).log = s.log ∧ (step s .reset).awaiter = s.awaiter := by
      simp only [step]
      split_ifs <;> exact ⟨rfl, rfl⟩
    exact recorded_of_same (by simp [hsame.1, entry]) hsame.2 (by simp [entry]) (by simp [entry]) (by simp) (by simp)

theorem exchanges_concat (log : List Ev) (e : Option Ev) :
    exchanges (log ++ e.toList) = exchanges log ++ (e.bind Ev.exchange).toList := by
  rw [exchanges, filterMap_append, ← exchanges]
  cases e with
  | none => rfl
  | some e => cases h : e.exchange <;> simp [h]

/-- only a set operation makes an exchange, with the next number -/
theorem entry_exchange (s : St) (o : Op) : (entry s o).bind Ev.exchange = o.policy.map (·, s.sets) := by
  cases o with
  | awaitSuspend a =>
    simp only [entry]
    split_ifs <;> rfl
  | compareExchange a spurious =>
    simp only [entry]
    split
    · split_ifs <;> rfl
    all_goals rfl
  | set policy => rfl
  | advance σ =>
    simp only [entry]
    split
    · split <;> rfl
    · rfl
  | reset => rfl

/-- the set calls of the log are the set operations of the run, numbered in their order -/
theorem exchanges_run (initially_set : Bool) (ops : List Op) :
    exchanges (run step (init initially_set) ops).log = (ops.filterMap Op.policy).zipIdx ∧
      (run step (init initially_set) ops).sets = (ops.filterMap Op.policy).length := by
  induction ops using reverseRecOn with
  | nil => exact ⟨rfl, rfl⟩
  | append_singleton ops o ih =>
    obtain ⟨hlog, hsets⟩ := ih
    have hlast : [o].filterMap Op.policy = o.policy.toList := by cases h : o.policy <;> simp [h]
    rw [run_concat, filterMap_append, hlast, zipIdx_append, length_append]
    refine ⟨?_, by rw [sets_step, hsets]⟩
    rw [(step_recorded _ o).logged, exchanges_concat, entry_exchange, hlog, hsets, Nat.zero_add]
    congr 1
    cases o.policy <;> rfl

/-- **Waiters.** From an event set or not, for every interleaving of the atomic operations of await_suspend, set and reset
calls: no waiter is lost, resumed twice or resumed out of order; a waiter that is refused found the event set; every
operation has its entry in the log and does what the entry says, and the set calls of the log are the set operations in
their order; and every set call returns after a number of its own rounds that nobody can change. -/
theorem waiters_resumed (initially_set : Bool) (ops : List Op) :
    Served (run step (init initially_set) ops) ∧ Along step SawSet (init initially_set) ops ∧
      Along step Recorded (init initially_set) ops ∧
      exchanges (run step (init initially_set) ops).log = (ops.filterMap Op.policy).zipIdx ∧
      ∀ σ < (run step (init initially_set) ops).sets, ∃ n, ∀ later : List Op, n ≤ later.count (.advance σ) →
        (run step (run step (init initially_set) ops) later).setter σ = .returned := by
  obtain ⟨held, left, h, -⟩ := run_inv (init_inv initially_set) ops
  refine ⟨h.served, along_of_mem fun o _ s => step_sawSet s o, along_of_mem fun o _ s => step_recorded s o,
    (exchanges_run initially_set ops).1, ?_⟩
  intro σ hσ
  refine ⟨left σ, ?_⟩
  intro later hlater
  obtain ⟨held', left', h', hleft⟩ := run_inv h later
  refine h'.returned ?_ ?_
  · exact hσ.trans_le (run_sets _ later)
  · rw [hleft σ hσ]
    exact Nat.sub_eq_zero_of_le hlater

/-- two waiters suspend themselves, and a set resumes them -/
def twoWaiters (policy : Policy) : List Op :=
  [.awaitSuspend 7, .compareExchange 7 false, .awaitSuspend 5, .compareExchange 5 true, .compareExchange 5 false,
    .set policy] ++ List.replicate 6 (.advance 0)

/-- in both orders, and the set call has returned -/
example :
    resumedBy 0 (run step (init false) (twoWaiters .lifo)).log = [1, 0] ∧
      resumedBy 0 (run step (init false) (twoWaiters .fifo)).log = [0, 1] ∧
      (run step (init false) (twoWaiters .lifo)).setter 0 = .returned ∧
      (run step (init false) (twoWaiters .fifo)).setter 0 = .returned := by decide

end TinyRpc.Async.AtomicEvent
