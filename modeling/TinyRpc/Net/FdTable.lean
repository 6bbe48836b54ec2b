/-
FdEventContainer as a growing table, on one thread (net/fd_event.cc).

`FdEventContainer` has the interleavings of the calls, and an FdEvent there is only the number of its construction. Here a
call is one step, an FdEvent knows its descriptor too, and descriptors and the initial size are `int`s.

- `growing_table_iff`: along every run each call is defined, returns the event of its descriptor, the one it returned
  before, and keeps the table, exactly when each descriptor is in the container or below one and a half times its size.
  The new size is the larger of that and the descriptor itself, and then there is no entry for the descriptor.
- `sequential_sim`: the calls are the ones of `FdEventContainer`, where a thread copies, builds and swaps without anyone
  in between.
-/
import Mathlib.Tactic
import TinyRpc.Core.Machine
import TinyRpc.Net.FdEventContainer

namespace TinyRpc.Net.FdTable

open TinyRpc.Core List
open TinyRpc.Net.FdEventContainer (oneAndAHalf)

/-! ## Model -/

structure FdEvent where
  /-- the number of its construction: which object it is -/
  id : ℕ
  m_fd : ℤ
deriving DecidableEq, Repr

def FdEvent.getFd (e : FdEvent) : ℤ := e.m_fd

structure St where
  fds_ : List FdEvent
  /-- the FdEvents constructed so far -/
  made : ℕ
  /-- the calls that have returned, with their results -/
  returned : List (ℤ × FdEvent)
  ub : Bool
deriving DecidableEq, Repr

/-- `count` turns of a loop that pushes `make_shared<FdEvent>(i)` -/
def pushEvents (made i : ℕ) : ℕ → List FdEvent
  | 0 => []
  | count + 1 => ⟨made, i⟩ :: pushEvents (made + 1) (i + 1) count

/-- FdEventContainer(size) -/
def init (size : BitVec 32) : St := ⟨pushEvents 0 0 size.toInt.toNat, size.toInt.toNat, [], false⟩

/-- `v[i]` -/
def entry (v : List FdEvent) (i : ℤ) : Option FdEvent := if 0 ≤ i then v[i.toNat]? else none

def getFdEvent (s : St) (fd : ℤ) : St :=
  if fd < (BitVec.ofNat 32 s.fds_.length).toInt then
    match entry s.fds_ fd with
    | some re => { s with returned := s.returned ++ [(fd, re)] }
    | none => { s with ub := true }
  else
    match oneAndAHalf s.fds_.length with
    | none => { s with ub := true }
    | some m =>
      let n : ℤ := if (m : ℤ) > fd then m else fd
      let count := (n - s.fds_.length).toNat
      let tmps := s.fds_ ++ pushEvents s.made s.fds_.length count
      match entry tmps fd with
      | some re => { s with fds_ := tmps, made := s.made + count, returned := s.returned ++ [(fd, re)] }
      | none => { s with ub := true }

/-- a call, with an `int` -/
def step (s : St) (fd : BitVec 32) : St := getFdEvent s fd.toInt

/-- entry `i` of the container is the event of descriptor `i` -/
def Indexed (v : List FdEvent) : Prop := ∀ (i : ℕ) (e : FdEvent), v[i]? = some e → e.getFd = i

/-- what a call for `fd` owes its caller -/
structure Served (s : St) (fd : BitVec 32) : Prop where
  defined : (step s fd).ub = false
  event : ∃ re, (step s fd).returned = s.returned ++ [(fd.toInt, re)] ∧ re.getFd = fd.toInt ∧
    ∀ p ∈ s.returned, p.1 = fd.toInt → p.2 = re
  kept : s.fds_ <+: (step s fd).fds_
  indexed : Indexed (step s fd).fds_

/-- the descriptor is in the container, or below one and a half times its size -/
def Fits (s : St) (fd : BitVec 32) : Prop :=
  0 ≤ fd.toInt ∧ (fd.toInt < s.fds_.length ∨ fd.toInt < (s.fds_.length * 3 / 2 : ℕ) ∧ s.fds_.length * 3 / 2 < 2 ^ 31)

instance (s : St) (fd : BitVec 32) : Decidable (Fits s fd) := inferInstanceAs (Decidable (_ ∧ _))

/-! ## The table -/

theorem length_pushEvents (made i count : ℕ) : (pushEvents made i count).length = count := by
  induction count generalizing made i with
  | zero => rfl
  | succ count ih => rw [pushEvents, length_cons, ih]

theorem getElem?_pushEvents (made i : ℕ) {count j : ℕ} (h : j < count) :
    (pushEvents made i count)[j]? = some ⟨made + j, (i + j : ℕ)⟩ := by
  induction count generalizing made i j with
  | zero => exact absurd h (Nat.not_lt_zero j)
  | succ count ih =>
    cases j with
    | zero => rfl
    | succ j =>
      rw [pushEvents, getElem?_cons_succ, ih _ _ (by omega), Nat.add_right_comm made, Nat.add_right_comm i]
      rfl

theorem pushEvents_append (made i count count' : ℕ) :
    pushEvents made i count ++ pushEvents (made + count) (i + count) count' = pushEvents made i (count + count') := by
  induction count generalizing made i with
  | zero => rw [Nat.zero_add]; rfl
  | succ count ih =>
    have h := ih (made + 1) (i + 1)
    rw [Nat.succ_add, pushEvents, pushEvents, cons_append, ← h]
    congr 3 <;> omega

theorem indexed_pushEvents (n : ℕ) : Indexed (pushEvents 0 0 n) := by
  intro i e h
  have hi : i < n := by
    have hlt := (List.getElem?_eq_some_iff.1 h).1
    rwa [length_pushEvents] at hlt
  rw [getElem?_pushEvents 0 0 hi] at h
  cases h
  simp [FdEvent.getFd]

/-- the entries of the table are the events of their indices -/
theorem entry_pushEvents {n : ℕ} {fd : ℤ} (h0 : 0 ≤ fd) (h : fd < n) :
    entry (pushEvents 0 0 n) fd = some ⟨fd.toNat, fd⟩ := by
  have hlt : fd.toNat < n := by omega
  have hfd : ((fd.toNat : ℕ) : ℤ) = fd := Int.toNat_of_nonneg h0
  rw [entry, if_pos h0, getElem?_pushEvents 0 0 hlt, Nat.zero_add, hfd]

theorem entry_eq_none {v : List FdEvent} {fd : ℤ} (h : ¬ (0 ≤ fd ∧ fd < v.length)) : entry v fd = none := by
  unfold entry
  split_ifs with h0
  · rw [getElem?_eq_none_iff]
    omega
  · rfl

/-! ## One call -/

/-- the events of the descriptors below the size, in order; every call has returned its entry -/
structure Inv (s : St) : Prop where
  defined : s.ub = false
  table : s.fds_ = pushEvents 0 0 s.made
  int : s.made < 2 ^ 31
  returned : ∀ p ∈ s.returned, p.2 = ⟨p.1.toNat, p.1⟩

variable {s : St}

theorem Inv.length (h : Inv s) : s.fds_.length = s.made := by rw [h.table, length_pushEvents]

/-- `static_cast<int>(tmps.size())` is the size -/
theorem Inv.size (h : Inv s) : (BitVec.ofNat 32 s.made).toInt = s.made := by
  have hint := h.int
  rw [BitVec.toInt_ofNat', Int.bmod_eq_of_le_mul_two (by omega) (by omega)]

theorem init_inv (size : BitVec 32) : Inv (init size) := by
  refine ⟨rfl, rfl, ?_, ?_⟩
  · have := BitVec.toInt_lt (x := size)
    simp only [init]
    omega
  · intro p hp
    exact absurd hp not_mem_nil

theorem returned_concat {l : List (ℤ × FdEvent)} (h : ∀ p ∈ l, p.2 = ⟨p.1.toNat, p.1⟩) (fd : ℤ) :
    ∀ p ∈ l ++ [(fd, ⟨fd.toNat, fd⟩)], p.2 = ⟨p.1.toNat, p.1⟩ := by
  intro p hp
  rcases mem_append.1 hp with hp | hp
  · exact h p hp
  · rw [mem_singleton.1 hp]

/-- a descriptor in the container -/
theorem Inv.found (h : Inv s) {fd : ℤ} (h0 : 0 ≤ fd) (hlt : fd < s.made) :
    getFdEvent s fd = { s with returned := s.returned ++ [(fd, ⟨fd.toNat, fd⟩)] } := by
  rw [getFdEvent, h.length, h.size, if_pos hlt, h.table, entry_pushEvents h0 hlt]

/-- a descriptor behind the container, and inside the extended one -/
theorem Inv.extended (h : Inv s) {fd : ℤ} (hge : ¬ fd < s.made) (hlt : fd < (s.made * 3 / 2 : ℕ))
    (hint : s.made * 3 / 2 < 2 ^ 31) :
    getFdEvent s fd = { s with fds_ := pushEvents 0 0 (s.made * 3 / 2), made := s.made * 3 / 2,
                               returned := s.returned ++ [(fd, ⟨fd.toNat, fd⟩)] } := by
  have hcount : (((s.made * 3 / 2 : ℕ) : ℤ) - s.made).toNat = s.made * 3 / 2 - s.made := by omega
  have hsize : s.made + (s.made * 3 / 2 - s.made) = s.made * 3 / 2 := by omega
  have htmps : s.fds_ ++ pushEvents s.made s.made (s.made * 3 / 2 - s.made) = pushEvents 0 0 (s.made * 3 / 2) := by
    have happend := pushEvents_append 0 0 s.made (s.made * 3 / 2 - s.made)
    rwa [Nat.zero_add, hsize, ← h.table] at happend
  simp only [getFdEvent, h.length, h.size, if_neg hge, oneAndAHalf, if_pos hint, if_pos hlt, hcount, hsize, htmps,
    entry_pushEvents (by omega) hlt]

/-- any other descriptor is read outside the vector, or the new size is no `int` -/
theorem Inv.undefined (h : Inv s) {fd : ℤ}
    (hout : ¬ (0 ≤ fd ∧ (fd < s.made ∨ fd < (s.made * 3 / 2 : ℕ) ∧ s.made * 3 / 2 < 2 ^ 31))) :
    (getFdEvent s fd).ub = true := by
  have hlen := h.length
  unfold getFdEvent
  rw [hlen, h.size]
  split_ifs with hlt
  · rw [entry_eq_none (by omega)]
  · unfold oneAndAHalf
    split_ifs with hint
    · -- the descriptor itself is the new size
      have hn : ¬ fd < (s.made * 3 / 2 : ℕ) := by omega
      have hnone : entry (s.fds_ ++ pushEvents s.made s.made (fd - s.made).toNat) fd = none := by
        apply entry_eq_none
        rw [length_append, length_pushEvents, h.length]
        omega
      simp only [gt_iff_lt, if_neg hn, hnone]
    · rfl

theorem Inv.fits_iff (h : Inv s) (fd : BitVec 32) :
    Fits s fd ↔ 0 ≤ fd.toInt ∧ (fd.toInt < s.made ∨ fd.toInt < (s.made * 3 / 2 : ℕ) ∧ s.made * 3 / 2 < 2 ^ 31) := by
  rw [Fits, h.length]

/-- the size of the container after a call that fits -/
def sizeAfter (made : ℕ) (fd : ℤ) : ℕ := if fd < made then made else made * 3 / 2

theorem le_sizeAfter (made : ℕ) (fd : ℤ) : made ≤ sizeAfter made fd := by
  unfold sizeAfter
  split_ifs <;> omega

theorem Inv.sizeAfter_lt (h : Inv s) {fd : BitVec 32} (hfd : Fits s fd) : sizeAfter s.made fd.toInt < 2 ^ 31 := by
  obtain ⟨-, hfd⟩ := (h.fits_iff fd).1 hfd
  unfold sizeAfter
  split_ifs with hlt
  · exact h.int
  · exact (hfd.resolve_left hlt).2

/-- the state after a call that fits -/
theorem Inv.step_eq (h : Inv s) {fd : BitVec 32} (hfd : Fits s fd) :
    step s fd = ⟨pushEvents 0 0 (sizeAfter s.made fd.toInt), sizeAfter s.made fd.toInt,
      s.returned ++ [(fd.toInt, ⟨fd.toInt.toNat, fd.toInt⟩)], false⟩ := by
  obtain ⟨h0, hfd⟩ := (h.fits_iff fd).1 hfd
  unfold sizeAfter
  split_ifs with hlt
  · rw [step, h.found h0 hlt, ← h.table, ← h.defined]
  · obtain ⟨hhalf, hint⟩ := hfd.resolve_left hlt
    rw [step, h.extended hlt hhalf hint, h.defined]

theorem Inv.step (h : Inv s) {fd : BitVec 32} (hfd : Fits s fd) : Inv (step s fd) := by
  rw [h.step_eq hfd]
  exact ⟨rfl, rfl, h.sizeAfter_lt hfd, returned_concat h.returned fd.toInt⟩

theorem Inv.served (h : Inv s) {fd : BitVec 32} (hfd : Fits s fd) : Served s fd := by
  have hstep := h.step_eq hfd
  refine ⟨by rw [hstep], ⟨⟨fd.toInt.toNat, fd.toInt⟩, by rw [hstep], rfl, ?_⟩, ?_, ?_⟩
  · intro p hp hpfd
    rw [h.returned p hp, hpfd]
  · refine ⟨pushEvents s.made s.made (sizeAfter s.made fd.toInt - s.made), ?_⟩
    have happend := pushEvents_append 0 0 s.made (sizeAfter s.made fd.toInt - s.made)
    rw [Nat.zero_add, Nat.add_sub_cancel' (le_sizeAfter _ _), ← h.table] at happend
    rw [hstep, happend]
  · rw [hstep]
    exact indexed_pushEvents _

theorem Inv.served_iff (h : Inv s) (fd : BitVec 32) : Served s fd ↔ Fits s fd := by
  refine ⟨?_, h.served⟩
  intro hserved
  by_contra hfd
  have hub := h.undefined (mt (h.fits_iff fd).2 hfd)
  have hdef := hserved.defined
  rw [FdTable.step, hub] at hdef
  cases hdef

/-! ## Whole runs -/

/-- **A growing table.** For every initial size and every sequence of descriptors, on one thread: the container begins with
entry `i` for descriptor `i`; every call indexes inside the vector, returns the event of its descriptor and the same one
as before, keeps the entries there are and leaves entry `i` for descriptor `i`, exactly when every descriptor is in the
container at its call or below one and a half times its size (where that is an `int`). -/
theorem growing_table_iff (size : BitVec 32) (fds : List (BitVec 32)) :
    Indexed (init size).fds_ ∧
      (Along FdTable.step Served (init size) fds ↔ Along FdTable.step Fits (init size) fds) := by
  refine ⟨indexed_pushEvents _, ?_⟩
  exact along_iff_of_inv (K := fun _ _ => True) (fun s fd h _ => ⟨h.served_iff fd, h.step⟩) (init_inv size)
    (along_of_mem fun _ _ _ => trivial)

/-- descriptor 192 in the container of 128: the vector is extended to 192 entries, and the 193rd is read -/
theorem last_slot_missing :
    (FdTable.step (init 128) 191).ub = false ∧ (FdTable.step (init 128) 192).ub = true ∧
      ¬ Along FdTable.step Served (init 128) [192] := by
  have hub : (FdTable.step (init 128) 192).ub = true := by decide +kernel
  refine ⟨by decide +kernel, hub, ?_⟩
  intro h
  have hdef := h.1.defined
  rw [hub] at hdef
  cases hdef

/-! ## The calls are those of the threads -/

/-- a whole call of thread `t` -/
def wholeCall (t : ℕ) (c : FdEventContainer.St) (fd : BitVec 32) : FdEventContainer.St :=
  run FdEventContainer.step c [.copy t fd.toInt, .build t, .swap t]

/-- the container of the threads, with thread `t` between two calls -/
structure Same (t : ℕ) (s : St) (c : FdEventContainer.St) : Prop where
  fds_ : c.fds_ = s.fds_.map FdEvent.id
  made : c.made = s.made
  idle : c.pc t = .idle
  returned : c.returned = s.returned.map fun p => (p.1, p.2.id)
  ub : c.ub = s.ub

theorem map_pushEvents (made i count : ℕ) : (pushEvents made i count).map FdEvent.id = range' made count := by
  induction count generalizing made i with
  | zero => rfl
  | succ count ih => rw [pushEvents, map_cons, ih, range'_succ]

theorem entry_range' {n : ℕ} {fd : ℤ} (h0 : 0 ≤ fd) (h : fd < n) :
    FdEventContainer.entry (range' 0 n) fd = some fd.toNat := by
  have hlt : fd.toNat < n := by omega
  rw [FdEventContainer.entry, if_pos h0, getElem?_range' hlt, Nat.zero_add, Nat.one_mul]

/-- a call of a thread for a descriptor in the container -/
theorem wholeCall_found {t : ℕ} {c : FdEventContainer.St} (hidle : c.pc t = .idle) (hfds : c.fds_ = range' 0 c.made)
    {fd : BitVec 32} (h0 : 0 ≤ fd.toInt) (hlt : fd.toInt < c.made) :
    (wholeCall t c fd).fds_ = range' 0 c.made ∧ (wholeCall t c fd).made = c.made ∧ (wholeCall t c fd).pc t = .idle ∧
      (wholeCall t c fd).returned = c.returned ++ [(fd.toInt, fd.toInt.toNat)] ∧ (wholeCall t c fd).ub = c.ub := by
  have hlen : fd.toInt < c.fds_.length := by rwa [hfds, length_range']
  have hentry : FdEventContainer.entry c.fds_ fd.toInt = some fd.toInt.toNat := by
    rw [hfds]
    exact entry_range' h0 hlt
  simp [wholeCall, run, FdEventContainer.step, hidle, FdEventContainer.St.build, hlen, hentry, ← hfds]

/-- a call of a thread for a descriptor behind it -/
theorem wholeCall_extended {t : ℕ} {c : FdEventContainer.St} (hidle : c.pc t = .idle) (hfds : c.fds_ = range' 0 c.made)
    {fd : BitVec 32} (h0 : 0 ≤ fd.toInt) (hge : ¬ fd.toInt < c.made) (hhalf : fd.toInt < (c.made * 3 / 2 : ℕ))
    (hint : c.made * 3 / 2 < 2 ^ 31) :
    (wholeCall t c fd).fds_ = range' 0 (c.made * 3 / 2) ∧ (wholeCall t c fd).made = c.made * 3 / 2 ∧
      (wholeCall t c fd).pc t = .idle ∧ (wholeCall t c fd).returned = c.returned ++ [(fd.toInt, fd.toInt.toNat)] ∧
      (wholeCall t c fd).ub = c.ub := by
  have hlen : c.fds_.length = c.made := by rw [hfds, length_range']
  have hge' : ¬ fd.toInt < c.fds_.length := by rwa [hlen]
  have hsize : oneAndAHalf c.fds_.length = some (c.made * 3 / 2) := by rw [hlen, oneAndAHalf, if_pos hint]
  have hcount : (FdEventContainer.newSize (c.made * 3 / 2) fd.toInt - c.fds_.length).toNat =
      c.made * 3 / 2 - c.made := by
    rw [hlen, FdEventContainer.newSize, if_pos hhalf]
    omega
  have hmade : c.made + (c.made * 3 / 2 - c.made) = c.made * 3 / 2 := by omega
  have htmps : c.fds_ ++ range' c.made (c.made * 3 / 2 - c.made) = range' 0 (c.made * 3 / 2) := by
    have happend : range' 0 c.made ++ range' (0 + c.made) (c.made * 3 / 2 - c.made) =
      range' 0 (c.made + (c.made * 3 / 2 - c.made)) := range'_append_1
    rwa [Nat.zero_add, ← hfds, hmade] at happend
  simp [wholeCall, run, FdEventContainer.step, hidle, FdEventContainer.St.build, hge', hsize, hcount, htmps,
    entry_range' h0 hhalf, hmade]

theorem Same.wholeCall {t : ℕ} {c : FdEventContainer.St} (hsame : Same t s c) (h : Inv s) {fd : BitVec 32}
    (hfd : Fits s fd) : Same t (FdTable.step s fd) (wholeCall t c fd) := by
  have hfds : c.fds_ = range' 0 c.made := by rw [hsame.fds_, h.table, map_pushEvents, hsame.made]
  have hret : c.returned ++ [(fd.toInt, fd.toInt.toNat)] =
      (s.returned ++ [(fd.toInt, FdEvent.mk fd.toInt.toNat fd.toInt)]).map fun p : ℤ × FdEvent => (p.1, p.2.id) := by
    rw [hsame.returned, map_append]
    rfl
  have hub : c.ub = false := hsame.ub.trans h.defined
  have hfit := (h.fits_iff fd).1 hfd
  rw [h.step_eq hfd]
  unfold sizeAfter
  rw [← hsame.made] at hfit ⊢
  obtain ⟨h0, hfit⟩ := hfit
  split_ifs with hlt
  · obtain ⟨h1, h2, h3, h4, h5⟩ := wholeCall_found hsame.idle hfds h0 hlt
    exact ⟨by rw [h1, map_pushEvents], h2, h3, h4.trans hret, h5.trans hub⟩
  · obtain ⟨hhalf, hint⟩ := hfit.resolve_left hlt
    obtain ⟨h1, h2, h3, h4, h5⟩ := wholeCall_extended hsame.idle hfds h0 hlt hhalf hint
    exact ⟨by rw [h1, map_pushEvents], h2, h3, h4.trans hret, h5.trans hub⟩

/-- Along every run of calls that fit, the table and the container of the threads agree: the same objects, the same
results. -/
theorem sequential_sim (t : ℕ) (size : BitVec 32) {fds : List (BitVec 32)} (h : Along FdTable.step Fits (init size) fds) :
    Same t (run FdTable.step (init size) fds) (run (wholeCall t) (FdEventContainer.init size.toInt.toNat) fds) := by
  have hinit : Same t (init size) (FdEventContainer.init size.toInt.toNat) := by
    refine ⟨?_, rfl, rfl, rfl, rfl⟩
    rw [init, map_pushEvents, FdEventContainer.init, range_eq_range']
  refine (run_sim (R := fun s c => Inv s ∧ Same t s c) ?_ ⟨init_inv size, hinit⟩ h).2
  intro s c fd hr hfd
  exact ⟨hr.1.step hfd, hr.2.wholeCall hr.1 hfd⟩

end TinyRpc.Net.FdTable
