/-
FdEventContainer::getFdEvent on any number of threads (net/fd_event.cc).

A call copies `fds_` under the read lock, looks its descriptor up in the copy, and extends the copy when the descriptor
lies behind it; the extended vector is swapped in under the write lock. The three parts are the operations of the model,
and a run is any interleaving of them. An FdEvent is the number of its construction, so two events are one object exactly
when the numbers are equal. An index outside the vector is undefined behaviour (`ub`), and so is a size times 1.5 that is
no `int`.

Main result `one_event_iff`: along a run all calls for a descriptor, and a call made from any state of it, give one
FdEvent and the container never shrinks, if and only if every descriptor lies in the copy it is looked up in or below one
and a half times its size, and no other call swaps between the copy and the swap of a call that extends.
-/
import Mathlib.Tactic
import TinyRpc.Core.Machine

namespace TinyRpc.Net.FdEventContainer

open TinyRpc.Core List

/-- where a thread is in its call -/
inductive Pc
  | idle
  /-- it has its copy of fds_ -/
  | copied (fd : ℤ) (tmps : List ℕ)
  /-- it has pushed new events behind the copy and taken `re`, and waits for the write lock -/
  | built (fd : ℤ) (tmps pushed : List ℕ) (re : ℕ)
deriving DecidableEq, Repr

structure St where
  fds_ : List ℕ
  pc : ℕ → Pc
  /-- the FdEvents constructed so far -/
  made : ℕ
  /-- the calls that have returned, with their results -/
  returned : List (ℤ × ℕ)
  ub : Bool

inductive Op
  /-- thread `t` calls getFdEvent and copies the container -/
  | copy (t : ℕ) (fd : ℤ)
  /-- it returns the entry of its copy, or extends the copy -/
  | build (t : ℕ)
  | swap (t : ℕ)
deriving DecidableEq, Repr

/-- FdEventContainer(size) -/
def init (size : ℕ) : St := ⟨range size, fun _ => .idle, size, [], false⟩

/-- `v[i]` -/
def entry (v : List ℕ) (i : ℤ) : Option ℕ := if 0 ≤ i then v[i.toNat]? else none

/-- `(int)(tmps.size() * 1.5)` -/
def oneAndAHalf (size : ℕ) : Option ℕ := if size * 3 / 2 < 2 ^ 31 then some (size * 3 / 2) else none

/-- the size of the extended vector: 1.5 times the old one, or the descriptor -/
def newSize (n : ℕ) (fd : ℤ) : ℤ := if (n : ℤ) > fd then n else fd

def St.build (s : St) (t : ℕ) (fd : ℤ) (tmps : List ℕ) : St :=
  if fd < tmps.length then
    match entry tmps fd with
    | some re => { s with pc := Function.update s.pc t .idle, returned := s.returned ++ [(fd, re)] }
    | none => { s with ub := true }
  else
    match oneAndAHalf tmps.length with
    | none => { s with ub := true }
    | some n =>
      let count := (newSize n fd - tmps.length).toNat
      let pushed := range' s.made count
      match entry (tmps ++ pushed) fd with
      | some re => { s with pc := Function.update s.pc t (.built fd tmps pushed re), made := s.made + count }
      | none => { s with ub := true }

def step (s : St) : Op → St
  | .copy t fd =>
    match s.pc t with
    | .idle => { s with pc := Function.update s.pc t (.copied fd s.fds_) }
    | _ => s
  | .build t =>
    match s.pc t with
    | .copied fd tmps => s.build t fd tmps
    | _ => s
  | .swap t =>
    match s.pc t with
    | .built fd tmps pushed re =>
      { s with fds_ := tmps ++ pushed, pc := Function.update s.pc t .idle, returned := s.returned ++ [(fd, re)] }
    | _ => s

/-- all calls so far for one descriptor have returned one object -/
def OneEvent (s : St) : Prop := s.ub = false ∧ ∀ x ∈ s.returned, ∀ y ∈ s.returned, x.1 = y.1 → x.2 = y.2

instance : DecidablePred OneEvent := fun s => inferInstanceAs (Decidable (s.ub = false ∧ _))

/-- a call for a descriptor in the container, by a thread that does nothing else -/
def lookup (t : ℕ) (fd : ℤ) : List Op := [.copy t fd, .build t]

/-- so do the calls so far and one more, for any descriptor in the container -/
def Steady (s : St) : Prop :=
  OneEvent s ∧ ∀ (t : ℕ) (fd : ℤ), s.pc t = .idle → 0 ≤ fd → fd < s.fds_.length → OneEvent (run step s (lookup t fd))

/-- the container does not get smaller -/
def Grows (s : St) (o : Op) : Prop := s.fds_.length ≤ (step s o).fds_.length

instance (s : St) (o : Op) : Decidable (Grows s o) := inferInstanceAs (Decidable (_ ≤ _))

/-- the descriptor is in the copy, or in the extended one -/
def Within (size : ℕ) (fd : ℤ) : Prop := 0 ≤ fd ∧ (fd < size ∨ fd < (size * 3 / 2 : ℕ) ∧ size * 3 / 2 < 2 ^ 31)

instance (size : ℕ) (fd : ℤ) : Decidable (Within size fd) := inferInstanceAs (Decidable (_ ∧ _))

/-- a call's descriptor is inside the extended copy, and what it extends is still the container when it swaps -/
def Alone (s : St) : Op → Prop
  | .copy _ _ => True
  | .build t => ∀ fd tmps, s.pc t = .copied fd tmps → Within tmps.length fd
  | .swap t => ∀ fd tmps pushed re, s.pc t = .built fd tmps pushed re → s.fds_ = tmps

/-! ## Entries -/

theorem entry_eq_some {v : List ℕ} {i : ℤ} {x : ℕ} : entry v i = some x ↔ 0 ≤ i ∧ v[i.toNat]? = some x := by
  unfold entry
  split_ifs with h <;> simp [h]

theorem entry_isSome {v : List ℕ} {i : ℤ} (h0 : 0 ≤ i) (h : i < v.length) : ∃ x, entry v i = some x := by
  have hlt : i.toNat < v.length := by omega
  exact ⟨v[i.toNat], entry_eq_some.2 ⟨h0, getElem?_eq_getElem hlt⟩⟩

theorem entry_lt {v : List ℕ} {i : ℤ} {x : ℕ} (h : entry v i = some x) : i < v.length := by
  obtain ⟨h0, h⟩ := entry_eq_some.1 h
  have hlt := (List.getElem?_eq_some_iff.1 h).1
  omega

theorem entry_mem {v : List ℕ} {i : ℤ} {x : ℕ} (h : entry v i = some x) : x ∈ v :=
  mem_of_getElem? (entry_eq_some.1 h).2

/-- what stands in a vector stands in its extensions -/
theorem entry_append {v u : List ℕ} {i : ℤ} {x : ℕ} (h : entry v i = some x) : entry (v ++ u) i = some x := by
  obtain ⟨h0, hx⟩ := entry_eq_some.1 h
  have hlt := (List.getElem?_eq_some_iff.1 hx).1
  exact entry_eq_some.2 ⟨h0, by rwa [getElem?_append_left hlt]⟩

/-- behind the copy stand the new events -/
theorem entry_append_right {v u : List ℕ} {i : ℤ} {x : ℕ} (h : entry (v ++ u) i = some x) (hi : v.length ≤ i) : x ∈ u := by
  obtain ⟨h0, hx⟩ := entry_eq_some.1 h
  rw [getElem?_append_right (by omega)] at hx
  exact mem_of_getElem? hx

/-! ## One operation -/

/-- the copy a thread works on -/
def Pc.tmps : Pc → Option (List ℕ)
  | .idle => none
  | .copied _ tmps => some tmps
  | .built _ tmps _ _ => some tmps

/-- the events a thread has made and not published -/
def Pc.pushed : Pc → List ℕ
  | .idle | .copied _ _ => []
  | .built _ _ pushed _ => pushed

/-- what a thread's call relies on while the container only grows at its end -/
structure Pc.Ok (fds_ : List ℕ) (made : ℕ) (returned : List (ℤ × ℕ)) (pc : Pc) : Prop where
  /-- a copy is the front of the container, and if it is not all of it a call has returned an event behind it -/
  copy : ∀ tmps ∈ pc.tmps, tmps <+: fds_ ∧ (tmps.length < fds_.length → ∃ p ∈ returned, (tmps.length : ℤ) ≤ p.1)
  fresh : ∀ x ∈ pc.pushed, x ∉ fds_ ∧ x < made
  built : ∀ fd tmps pushed re, pc = .built fd tmps pushed re →
    (tmps.length : ℤ) ≤ fd ∧ entry (tmps ++ pushed) fd = some re

structure Inv (s : St) : Prop where
  defined : s.ub = false
  made : ∀ x ∈ s.fds_, x < s.made
  returned : ∀ p ∈ s.returned, entry s.fds_ p.1 = some p.2
  threads : ∀ t, (s.pc t).Ok s.fds_ s.made s.returned
  apart : ∀ t t', t ≠ t' → Disjoint (s.pc t).pushed (s.pc t').pushed

variable {s : St}

theorem Pc.idle_ok (fds_ : List ℕ) (made : ℕ) (returned : List (ℤ × ℕ)) : Pc.idle.Ok fds_ made returned := by
  refine ⟨?_, ?_, ?_⟩
  · intro tmps ht
    exact absurd ht (Option.not_mem_none _)
  · intro x hx
    exact absurd hx not_mem_nil
  · intro fd tmps pushed re hpc
    cases hpc

/-- more events and more results change nothing for a call -/
theorem Pc.Ok.mono {fds_ : List ℕ} {made made' : ℕ} {returned : List (ℤ × ℕ)} {pc : Pc} (h : pc.Ok fds_ made returned)
    (hm : made ≤ made') (l : List (ℤ × ℕ)) : pc.Ok fds_ made' (returned ++ l) := by
  refine ⟨?_, ?_, h.built⟩
  · intro tmps ht
    obtain ⟨h1, h2⟩ := h.copy tmps ht
    refine ⟨h1, ?_⟩
    intro hlt
    obtain ⟨p, hp, hle⟩ := h2 hlt
    exact ⟨p, mem_append_left _ hp, hle⟩
  · intro x hx
    obtain ⟨h1, h2⟩ := h.fresh x hx
    exact ⟨h1, h2.trans_le hm⟩

/-- one thread's new events change -/
theorem apart_update {pc : ℕ → Pc} (h : ∀ t t', t ≠ t' → Disjoint (pc t).pushed (pc t').pushed) (t : ℕ) (p : Pc)
    (hp : ∀ t' ≠ t, Disjoint p.pushed (pc t').pushed) :
    ∀ t₁ t₂, t₁ ≠ t₂ → Disjoint (Function.update pc t p t₁).pushed (Function.update pc t p t₂).pushed := by
  intro t₁ t₂ hne
  by_cases h₁ : t₁ = t
  · subst h₁
    rw [Function.update_self, Function.update_of_ne hne.symm]
    exact hp t₂ hne.symm
  · rw [Function.update_of_ne h₁]
    by_cases h₂ : t₂ = t
    · subst h₂
      rw [Function.update_self]
      exact (hp t₁ h₁).symm
    · rw [Function.update_of_ne h₂]
      exact h t₁ t₂ hne

theorem init_inv (size : ℕ) : Inv (init size) := by
  refine ⟨rfl, ?_, ?_, ?_, ?_⟩
  · intro x hx
    exact mem_range.1 hx
  · intro p hp
    exact absurd hp not_mem_nil
  · intro t
    exact Pc.idle_ok _ _ _
  · intro t t' _
    exact disjoint_nil_left _

/-- results that agree with one vector agree with each other -/
theorem same_of_entry {v : List ℕ} {l : List (ℤ × ℕ)} (h : ∀ p ∈ l, entry v p.1 = some p.2) :
    ∀ x ∈ l, ∀ y ∈ l, x.1 = y.1 → x.2 = y.2 := by
  intro x hx y hy hxy
  have h1 := h x hx
  rw [hxy, h y hy] at h1
  exact (Option.some.inj h1).symm

theorem returned_concat {v : List ℕ} {l : List (ℤ × ℕ)} {fd : ℤ} {re : ℕ} (h : ∀ p ∈ l, entry v p.1 = some p.2)
    (hre : entry v fd = some re) : ∀ p ∈ l ++ [(fd, re)], entry v p.1 = some p.2 := by
  intro p hp
  rcases mem_append.1 hp with hp | hp
  · exact h p hp
  · rw [mem_singleton.1 hp]
    exact hre

/-- what a lookup returns -/
theorem run_lookup {t : ℕ} {fd : ℤ} {re : ℕ} (hpc : s.pc t = .idle) (hre : entry s.fds_ fd = some re) :
    (run step s (lookup t fd)).returned = s.returned ++ [(fd, re)] ∧ (run step s (lookup t fd)).ub = s.ub := by
  have hlt := entry_lt hre
  simp [run, lookup, step, hpc, St.build, hlt, hre]

theorem Inv.steady (h : Inv s) : Steady s := by
  refine ⟨⟨h.defined, same_of_entry h.returned⟩, ?_⟩
  intro t fd hpc h0 hlt
  obtain ⟨re, hre⟩ := entry_isSome h0 hlt
  obtain ⟨hret, hub⟩ := run_lookup hpc hre
  refine ⟨hub.trans h.defined, ?_⟩
  rw [hret]
  exact same_of_entry (returned_concat h.returned hre)

theorem Inv.copy (h : Inv s) (t : ℕ) (fd : ℤ) : Inv (step s (.copy t fd)) := by
  cases hpc : s.pc t with
  | copied _ _ | built _ _ _ _ =>
    simp only [step, hpc]
    exact h
  | idle =>
    simp only [step, hpc]
    refine ⟨h.defined, h.made, h.returned, ?_, apart_update h.apart t _ fun _ _ => disjoint_nil_left _⟩
    refine (Function.forall_update_iff s.pc _).2 ⟨⟨?_, ?_, ?_⟩, fun t' _ => h.threads t'⟩
    · intro tmps ht
      obtain rfl : s.fds_ = tmps := by simpa [Pc.tmps] using ht
      exact ⟨prefix_refl _, fun hlt => absurd hlt (lt_irrefl _)⟩
    · intro x hx
      exact absurd hx not_mem_nil
    · intro fd' tmps pushed re ht
      cases ht

/-- a descriptor in the copy: the call returns the container's event -/
theorem Inv.found (h : Inv s) {t : ℕ} {fd : ℤ} {tmps : List ℕ} (hpc : s.pc t = .copied fd tmps) (h0 : 0 ≤ fd)
    (hlt : fd < tmps.length) : Inv (s.build t fd tmps) := by
  obtain ⟨re, hre⟩ := entry_isSome h0 hlt
  obtain ⟨u, hu⟩ := ((h.threads t).copy tmps (by simp [hpc, Pc.tmps])).1
  have hentry : entry s.fds_ fd = some re := by
    rw [← hu]
    exact entry_append hre
  simp only [St.build, if_pos hlt, hre]
  refine ⟨h.defined, h.made, returned_concat h.returned hentry, ?_, ?_⟩
  · refine (Function.forall_update_iff s.pc _).2 ⟨Pc.idle_ok _ _ _, ?_⟩
    intro t' _
    exact (h.threads t').mono le_rfl _
  · exact apart_update h.apart t _ fun _ _ => disjoint_nil_left _

/-- a descriptor behind the copy, and inside the extended one: the new events are nobody else's -/
theorem Inv.extend (h : Inv s) {t : ℕ} {fd : ℤ} {tmps : List ℕ} (hpc : s.pc t = .copied fd tmps)
    (hge : ¬ fd < tmps.length) (hlt : fd < (tmps.length * 3 / 2 : ℕ)) (hint : tmps.length * 3 / 2 < 2 ^ 31) :
    Inv (s.build t fd tmps) := by
  set count := (newSize (tmps.length * 3 / 2) fd - tmps.length).toNat with hcount
  have hsize : tmps.length + count = tmps.length * 3 / 2 := by
    rw [hcount, newSize, if_pos hlt]
    omega
  obtain ⟨re, hre⟩ : ∃ re, entry (tmps ++ range' s.made count) fd = some re := by
    apply entry_isSome (by omega)
    rw [length_append, length_range', hsize]
    exact hlt
  have hnew : ∀ x ∈ range' s.made count, s.made ≤ x ∧ x < s.made + count := by
    intro x hx
    exact mem_range'_1.1 hx
  simp only [St.build, if_neg hge, oneAndAHalf, if_pos hint, ← hcount, hre]
  refine ⟨h.defined, fun x hx => (h.made x hx).trans_le (Nat.le_add_right _ _), h.returned, ?_, ?_⟩
  · refine (Function.forall_update_iff s.pc _).2 ⟨⟨?_, ?_, ?_⟩, ?_⟩
    · intro tmps' ht
      obtain rfl : tmps = tmps' := by simpa [Pc.tmps] using ht
      exact (h.threads t).copy tmps (by simp [hpc, Pc.tmps])
    · intro x hx
      obtain ⟨h1, h2⟩ := hnew x hx
      refine ⟨?_, h2⟩
      intro hmem
      exact absurd (h.made x hmem) (not_lt.2 h1)
    · intro fd' tmps' pushed re' he
      cases he
      exact ⟨not_lt.1 hge, hre⟩
    · intro t' _
      have hmono := (h.threads t').mono (Nat.le_add_right s.made count) []
      rwa [append_nil] at hmono
  · refine apart_update h.apart t _ ?_
    intro t' _ x hx hx'
    exact absurd ((h.threads t').fresh x hx').2 (not_lt.2 (hnew x hx).1)

/-- a swap of an extension of the container itself -/
theorem Inv.swap (h : Inv s) {t : ℕ} {fd : ℤ} {tmps pushed : List ℕ} {re : ℕ} (hpc : s.pc t = .built fd tmps pushed re)
    (ha : s.fds_ = tmps) : Inv (step s (.swap t)) := by
  obtain ⟨hbehind, hre⟩ := (h.threads t).built fd tmps pushed re hpc
  have hfresh : ∀ x ∈ pushed, x ∉ s.fds_ ∧ x < s.made := by
    have hok := (h.threads t).fresh
    rwa [hpc] at hok
  simp only [step, hpc]
  rw [← ha] at hbehind hre ⊢
  refine ⟨h.defined, ?_, returned_concat (fun p hp => entry_append (h.returned p hp)) hre, ?_, ?_⟩
  · intro x hx
    rcases mem_append.1 hx with hx | hx
    · exact h.made x hx
    · exact (hfresh x hx).2
  · refine (Function.forall_update_iff s.pc _).2 ⟨Pc.idle_ok _ _ _, ?_⟩
    intro t' hne
    refine ⟨?_, ?_, (h.threads t').built⟩
    · intro tmps' ht
      have hfront := ((h.threads t').copy tmps' ht).1
      refine ⟨hfront.trans (prefix_append _ _), ?_⟩
      intro _
      refine ⟨(fd, re), mem_append_right _ (mem_singleton_self _), ?_⟩
      calc (tmps'.length : ℤ) ≤ s.fds_.length := Int.ofNat_le.2 hfront.length_le
        _ ≤ fd := hbehind
    · intro x hx
      obtain ⟨h1, h2⟩ := (h.threads t').fresh x hx
      refine ⟨?_, h2⟩
      intro hmem
      rcases mem_append.1 hmem with hmem | hmem
      · exact h1 hmem
      · have hapart := h.apart t t' hne.symm
        rw [hpc] at hapart
        exact hapart hmem hx
  · exact apart_update h.apart t _ fun _ _ => disjoint_nil_left _

/-- a swap over a container that has grown since the copy: it shrinks, or an event that was returned is replaced -/
theorem Inv.not_steady_swap (h : Inv s) {t : ℕ} {fd : ℤ} {tmps pushed : List ℕ} {re : ℕ}
    (hpc : s.pc t = .built fd tmps pushed re) (ha : s.fds_ ≠ tmps) (hgrows : Grows s (.swap t)) :
    ¬ Steady (step s (.swap t)) := by
  obtain ⟨hfront, hbehind⟩ := (h.threads t).copy tmps (by simp [hpc, Pc.tmps])
  have hlt : tmps.length < s.fds_.length := by
    refine lt_of_le_of_ne hfront.length_le ?_
    intro hlen
    exact ha (hfront.eq_of_length hlen).symm
  obtain ⟨p, hp, hle⟩ := hbehind hlt
  have hold := h.returned p hp
  have hplt := entry_lt hold
  have hnew : (step s (.swap t)).fds_ = tmps ++ pushed ∧ (step s (.swap t)).pc t = .idle ∧
      (step s (.swap t)).returned = s.returned ++ [(fd, re)] := by
    simp [step, hpc]
  have hin : p.1 < (step s (.swap t)).fds_.length := hplt.trans_le (Int.ofNat_le.2 hgrows)
  have h0 : 0 ≤ p.1 := (entry_eq_some.1 hold).1
  obtain ⟨x, hx⟩ := entry_isSome h0 hin
  intro hsteady
  obtain ⟨-, hsame⟩ := hsteady.2 t p.1 hnew.2.1 h0 hin
  rw [(run_lookup hnew.2.1 hx).1, hnew.2.2] at hsame
  have hpx : p.2 = x := hsame p (by simp [hp]) (p.1, x) (by simp) rfl
  have hxnew : x ∈ (s.pc t).pushed := by
    rw [hpc]
    exact entry_append_right (hnew.1 ▸ hx) hle
  exact ((h.threads t).fresh x hxnew).1 (hpx ▸ entry_mem hold)

/-- a descriptor outside the extended copy is read all the same, or the new size is no `int` -/
theorem build_ub {t : ℕ} {fd : ℤ} {tmps : List ℕ} (hout : ¬ Within tmps.length fd) : (s.build t fd tmps).ub = true := by
  unfold Within at hout
  unfold St.build
  split_ifs with hlt
  · have hnone : entry tmps fd = none := if_neg (by omega)
    simp [hnone]
  · unfold oneAndAHalf
    split_ifs with hint
    · have h0 : 0 ≤ fd := by omega
      have hsize : newSize (tmps.length * 3 / 2) fd = fd := if_neg (by omega)
      have hnone : entry (tmps ++ range' s.made (newSize (tmps.length * 3 / 2) fd - tmps.length).toNat) fd = none := by
        rw [entry, if_pos h0, getElem?_eq_none_iff, length_append, length_range', hsize]
        omega
      simp only [hnone]
    · rfl

theorem step_steady_iff (h : Inv s) (o : Op) :
    (Steady (step s o) ∧ Grows s o ↔ Alone s o) ∧ (Alone s o → Inv (step s o)) := by
  -- where the step keeps the invariant, all four statements hold
  have hgood : Inv (step s o) → Grows s o → Alone s o →
      (Steady (step s o) ∧ Grows s o ↔ Alone s o) ∧ (Alone s o → Inv (step s o)) :=
    fun hinv hgrows halone => ⟨⟨fun _ => halone, fun _ => ⟨hinv.steady, hgrows⟩⟩, fun _ => hinv⟩
  cases o with
  | copy t fd =>
    refine hgood (h.copy t fd) ?_ trivial
    cases hpc : s.pc t <;> simp [Grows, step, hpc]
  | build t =>
    cases hpc : s.pc t with
    | idle | built _ _ _ _ =>
      have hsame : step s (.build t) = s := by simp only [step, hpc]
      refine hgood (hsame.symm ▸ h) (by rw [Grows, hsame]) ?_
      intro fd tmps ht
      rw [hpc] at ht
      cases ht
    | copied fd tmps =>
      have hstep : step s (.build t) = s.build t fd tmps := by simp only [step, hpc]
      have halone : Alone s (.build t) ↔ Within tmps.length fd := by
        refine ⟨fun ha => ha fd tmps hpc, ?_⟩
        intro hin fd' tmps' ht
        rw [hpc] at ht
        cases ht
        exact hin
      by_cases hin : Within tmps.length fd
      · have hinv : Inv (s.build t fd tmps) := by
          by_cases hlt : fd < tmps.length
          · exact h.found hpc hin.1 hlt
          · obtain ⟨hhalf, hint⟩ := hin.2.resolve_left hlt
            exact h.extend hpc hlt hhalf hint
        refine hgood (hstep.symm ▸ hinv) ?_ (halone.2 hin)
        rw [Grows, hstep]
        unfold St.build
        split_ifs
        · split <;> exact le_rfl
        · split
          · exact le_rfl
          · dsimp only
            split <;> exact le_rfl
      · have hbad : ¬ Steady (step s (.build t)) := by
          intro hsteady
          have hub := hsteady.1.1
          rw [hstep, build_ub hin] at hub
          cases hub
        rw [halone]
        exact ⟨⟨fun hs => absurd hs.1 hbad, fun hin' => absurd hin' hin⟩, fun hin' => absurd hin' hin⟩
  | swap t =>
    cases hpc : s.pc t with
    | idle | copied _ _ =>
      have hsame : step s (.swap t) = s := by simp only [step, hpc]
      refine hgood (hsame.symm ▸ h) (by rw [Grows, hsame]) ?_
      intro fd tmps pushed re ht
      rw [hpc] at ht
      cases ht
    | built fd tmps pushed re =>
      have halone : Alone s (.swap t) ↔ s.fds_ = tmps := by
        refine ⟨fun ha => ha fd tmps pushed re hpc, ?_⟩
        intro ha fd' tmps' pushed' re' ht
        rw [hpc] at ht
        cases ht
        exact ha
      by_cases ha : s.fds_ = tmps
      · refine hgood (h.swap hpc ha) ?_ (halone.2 ha)
        simp [Grows, step, hpc, ha]
      · rw [halone]
        exact ⟨⟨fun hs => absurd hs.1 (h.not_steady_swap hpc ha hs.2), fun ha' => absurd ha' ha⟩, fun ha' => absurd ha' ha⟩

/-! ## Whole runs -/

/-- **One event.** For every initial size and every interleaving of getFdEvent calls: in every state all calls for one
descriptor have returned one FdEvent, a further call for a descriptor in the container returns it too, and the container
never gets smaller, if and only if every descriptor is inside the vector its call looks it up in (the copy, or one and a
half times its size where that is an `int`) and every vector that is swapped in extends the container it replaces. -/
theorem one_event_iff (size : ℕ) (ops : List Op) :
    Always step Steady (init size) ops ∧ Along step Grows (init size) ops ↔ Along step Alone (init size) ops := by
  have hstep : ∀ s o, Inv s → True → (Steady (step s o) ∧ Grows s o ↔ Alone s o) ∧ (Alone s o → Inv (step s o)) :=
    fun s o h _ => step_steady_iff h o
  have hboth : Along step (fun s o => Steady (step s o) ∧ Grows s o) (init size) ops ↔
      Along step Alone (init size) ops :=
    along_iff_of_inv hstep (init_inv size) (along_of_mem fun _ _ _ => trivial)
  rw [always_iff_along, ← hboth, along_and, and_assoc]
  exact and_iff_right (init_inv size).steady

/-- two threads extend copies of the same 128 events for one descriptor -/
def twoGrowers : List Op := [.copy 0 150, .copy 1 150, .build 0, .build 1, .swap 0, .swap 1]

/-- the extension for descriptor 150 is swapped in over the longer one for 200 -/
def shrinking : List Op := [.copy 0 140, .copy 1 150, .build 1, .swap 1, .copy 1 200, .build 1, .swap 1, .build 0, .swap 0]

/-- The two calls return different events; a stale extension shrinks the container; and a single call for descriptor 200
reads behind the vector of 200 entries it has made. -/
theorem two_events :
    (run step (init 128) twoGrowers).returned = [(150, 150), (150, 214)] ∧
    ¬ OneEvent (run step (init 128) twoGrowers) ∧
    ¬ Along step Grows (init 128) shrinking ∧
    ¬ OneEvent (run step (init 128) [.copy 0 200, .build 0]) := by
  decide +kernel

end TinyRpc.Net.FdEventContainer
