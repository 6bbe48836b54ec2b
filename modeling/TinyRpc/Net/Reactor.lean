/-
Registration of descriptors with a Reactor (net/reactor.cc: addEvent, delEvent, addEventInLoopThread,
delEventInLoopThread and the drain at the end of a round of loop).

A call on the loop thread is applied at once. A call of another thread is deferred: an addition goes to a map that keeps
the first mask of a descriptor, a deletion to a vector, and a drain applies all additions before all deletions. `none`
is the undefined behaviour of fds_.erase(fds_.end()). epoll_ctl is the kernel's: ADD fails on a present descriptor, MOD
and DEL on an absent one.

Main result `deferred_eq_immediate_iff`: for every start, every sequence of calls whose deletions are of registered
descriptors and every way to cut it into batches, the drains end with the registrations of the immediate calls exactly
when no batch deletes a descriptor twice, no batch only deletes a descriptor that the last batch on it deleted and added
again, and the last batch on a descriptor ends with its only deletion, or has none and begins and ends with the same
mask.
-/
import Mathlib.Tactic
import TinyRpc.Core.Machine
import TinyRpc.Core.SortedInsert

namespace TinyRpc.Net

open TinyRpc.Core Function

/-! ## The kernel's interest list -/

/-- the mask each registered descriptor is watched for -/
abbrev Interest := ℤ → Option ℕ

inductive CtlOp
  | ADD | MOD | DEL
deriving DecidableEq, Repr

/-- epoll_ctl; `none` is an error return -/
def epollCtl (k : Interest) (op : CtlOp) (fd : ℤ) (events : ℕ) : Option Interest :=
  match op, k fd with
  | .ADD, none => some (update k fd (some events))
  | .MOD, some _ => some (update k fd (some events))
  | .DEL, some _ => some (update k fd none)
  | _, _ => none

/-! ## The reactor -/

structure Reactor where
  fds_ : List ℤ
  epoll : Interest
  /-- std::map in key order -/
  pending_add_fds_ : List (ℤ × ℕ)
  pending_del_fds_ : List ℤ

namespace Reactor

def addEventInLoopThread (s : Reactor) (fd : ℤ) (events : ℕ) : Reactor :=
  let is_add := decide (fd ∉ s.fds_)
  match epollCtl s.epoll (if is_add then .ADD else .MOD) fd events with
  | none => s
  | some k => { s with epoll := k, fds_ := if is_add then s.fds_ ++ [fd] else s.fds_ }

def delEventInLoopThread (s : Reactor) (fd : ℤ) : Option Reactor :=
  -- a failing DEL is only logged
  let k := (epollCtl s.epoll .DEL fd 0).getD s.epoll
  if fd ∈ s.fds_ then some { s with epoll := k, fds_ := s.fds_.erase fd } else none

/-- the order of the map's keys -/
def fdLt (a b : ℤ × ℕ) : Bool := decide (a.1 < b.1)

/-- addEvent of another thread: an insert, which does not overwrite -/
def postAdd (s : Reactor) (fd : ℤ) (events : ℕ) : Reactor :=
  { s with pending_add_fds_ := insertUnique fdLt s.pending_add_fds_ (fd, events) }

/-- delEvent of another thread -/
def postDel (s : Reactor) (fd : ℤ) : Reactor := { s with pending_del_fds_ := s.pending_del_fds_ ++ [fd] }

inductive Call
  | addEvent (fd : ℤ) (events : ℕ)
  | delEvent (fd : ℤ)
deriving DecidableEq, Repr

/-- a call, on the loop thread or on another one -/
def call (inLoopThread : Bool) (s : Reactor) : Call → Option Reactor
  | .addEvent fd events =>
    if fd = -1 then some s
    else if inLoopThread then some (s.addEventInLoopThread fd events)
    else some (s.postAdd fd events)
  | .delEvent fd =>
    if fd = -1 then some s
    else if inLoopThread then s.delEventInLoopThread fd
    else some (s.postDel fd)

/-- the end of a round of `loop`: first the additions, in key order, then the deletions -/
def drain (s : Reactor) : Option Reactor :=
  let tmp_add := s.pending_add_fds_
  let tmp_del := s.pending_del_fds_
  let s := { s with pending_add_fds_ := [], pending_del_fds_ := [] }
  let s := tmp_add.foldl (fun s x => s.addEventInLoopThread x.1 x.2) s
  tmp_del.foldlM delEventInLoopThread s

/-- the calls one by one, as on the loop thread -/
def immediate (s : Reactor) (calls : List Call) : Option Reactor := calls.foldlM (call true) s

/-- a batch of calls of other threads, then a drain -/
def round (s : Reactor) (batch : List Call) : Option Reactor := batch.foldlM (call false) s >>= drain

def deferred (s : Reactor) (batches : List (List Call)) : Option Reactor := batches.foldlM round s

/-! ## Calls on the loop thread -/

/-- fds_ lists the descriptors that epoll watches -/
structure Wf (s : Reactor) : Prop where
  nodup : s.fds_.Nodup
  agree : ∀ fd, fd ∈ s.fds_ ↔ s.epoll fd ≠ none

variable {s t : Reactor}

/-- on a descriptor for which the two agree, epoll_ctl succeeds -/
theorem addEventInLoopThread_eq {fd : ℤ} (h : fd ∈ s.fds_ ↔ s.epoll fd ≠ none) (events : ℕ) :
    s.addEventInLoopThread fd events =
      { s with epoll := update s.epoll fd (some events), fds_ := if fd ∈ s.fds_ then s.fds_ else s.fds_ ++ [fd] } := by
  by_cases hfd : fd ∈ s.fds_
  · obtain ⟨m, hm⟩ := Option.ne_none_iff_exists'.1 (h.1 hfd)
    simp [addEventInLoopThread, epollCtl, hfd, hm]
  · have hm : s.epoll fd = none := by
      by_contra hne
      exact hfd (h.2 hne)
    simp [addEventInLoopThread, epollCtl, hfd, hm]

theorem delEventInLoopThread_eq (s : Reactor) (fd : ℤ) : s.delEventInLoopThread fd =
    if fd ∈ s.fds_ then some { s with epoll := update s.epoll fd none, fds_ := s.fds_.erase fd } else none := by
  have hk : (epollCtl s.epoll .DEL fd 0).getD s.epoll = update s.epoll fd none := by
    cases hm : s.epoll fd with
    | none =>
      have hsame : update s.epoll fd none = s.epoll := by rw [← hm, update_eq_self]
      simp [epollCtl, hm, hsame]
    | some m => simp [epollCtl, hm]
  rw [delEventInLoopThread, hk]

theorem addEventInLoopThread_spec (h : s.Wf) (fd : ℤ) (events : ℕ) :
    (s.addEventInLoopThread fd events).Wf ∧
      (s.addEventInLoopThread fd events).epoll = update s.epoll fd (some events) ∧
      (s.addEventInLoopThread fd events).pending_add_fds_ = s.pending_add_fds_ ∧
      (s.addEventInLoopThread fd events).pending_del_fds_ = s.pending_del_fds_ := by
  rw [addEventInLoopThread_eq (h.agree fd)]
  refine ⟨⟨?_, ?_⟩, rfl, rfl, rfl⟩
  · by_cases hfd : fd ∈ s.fds_
    · simpa [hfd] using h.nodup
    · simpa [hfd] using h.nodup.append (List.nodup_singleton fd) (by simpa using hfd)
  · intro i
    have hagree := h.agree i
    by_cases hi : i = fd
    · subst hi
      by_cases hfd : i ∈ s.fds_ <;> simp [hfd]
    · by_cases hfd : fd ∈ s.fds_ <;> simp [hi, hfd, hagree]

theorem delEventInLoopThread_spec (h : s.Wf) (fd : ℤ) :
    (s.epoll fd = none → s.delEventInLoopThread fd = none) ∧
      (s.epoll fd ≠ none → ∃ t, s.delEventInLoopThread fd = some t ∧ t.Wf ∧ t.epoll = update s.epoll fd none ∧
        t.pending_add_fds_ = s.pending_add_fds_ ∧ t.pending_del_fds_ = s.pending_del_fds_) := by
  rw [delEventInLoopThread_eq]
  refine ⟨?_, ?_⟩
  · intro hm
    exact if_neg fun hfd => (h.agree fd).1 hfd hm
  · intro hne
    have hfd := (h.agree fd).2 hne
    refine ⟨_, if_pos hfd, ⟨h.nodup.erase fd, ?_⟩, rfl, rfl, rfl⟩
    intro i
    by_cases hi : i = fd
    · subst hi
      simp [h.nodup.not_mem_erase]
    · simp [hi, List.mem_erase_of_ne hi, h.agree i]

/-! ## Calls on one descriptor -/

namespace Call

def fd : Call → ℤ
  | addEvent fd _ => fd
  | delEvent fd => fd

/-- what the call alone makes of its descriptor -/
def effect : Call → Option ℕ
  | addEvent _ events => some events
  | delEvent _ => none

end Call

/-- the calls of a batch on one descriptor -/
def callsOn (fd : ℤ) (batch : List Call) : List Call := batch.filter fun c => c.fd = fd

/-- the mask of the first addition -/
def firstMask (calls : List Call) : Option ℕ := calls.findSome? Call.effect

/-- the descriptors a batch deletes, in order -/
def dels (batch : List Call) : List ℤ :=
  batch.filterMap fun c => if c.effect = none ∧ c.fd ≠ -1 then some c.fd else none

/-- what a list of calls on one descriptor makes of it, one by one -/
def lastEffect (before : Option ℕ) (calls : List Call) : Option ℕ := calls.foldl (fun _ c => c.effect) before

theorem eq_delEvent {c : Call} (h : c.effect = none) : c = .delEvent c.fd := by
  cases c with
  | addEvent fd events => exact absurd h (by simp [Call.effect])
  | delEvent fd => rfl

theorem mem_dels {batch : List Call} {fd : ℤ} : fd ∈ dels batch ↔ fd ≠ -1 ∧ .delEvent fd ∈ batch := by
  simp only [dels, List.mem_filterMap]
  refine ⟨?_, fun ⟨h1, h2⟩ => ⟨.delEvent fd, h2, by simp [Call.effect, Call.fd, h1]⟩⟩
  rintro ⟨c, hc, hif⟩
  split_ifs at hif with hd
  obtain rfl : c.fd = fd := by simpa using hif
  exact ⟨hd.2, eq_delEvent hd.1 ▸ hc⟩

theorem callsOn_cons (fd : ℤ) (c : Call) (calls : List Call) :
    callsOn fd (c :: calls) = if c.fd = fd then c :: callsOn fd calls else callsOn fd calls := by
  simp only [callsOn, List.filter_cons, decide_eq_true_eq]

theorem firstMask_cons (c : Call) (calls : List Call) : firstMask (c :: calls) = c.effect.or (firstMask calls) := by
  cases c <;> simp [firstMask, Call.effect, List.findSome?_cons]

theorem firstMask_concat_of_ne {fd : ℤ} (batch : List Call) {c : Call} (hc : c.fd ≠ fd) :
    firstMask (callsOn fd (batch ++ [c])) = firstMask (callsOn fd batch) := by
  simp [callsOn, firstMask, hc]

theorem firstMask_concat (batch : List Call) (c : Call) :
    firstMask (callsOn c.fd (batch ++ [c])) = (firstMask (callsOn c.fd batch)).or c.effect := by
  simp [callsOn, firstMask]

theorem dels_concat_del (batch : List Call) {fd : ℤ} (hfd : fd ≠ -1) :
    dels (batch ++ [.delEvent fd]) = dels batch ++ [fd] := by
  simp [dels, Call.effect, Call.fd, hfd]

theorem dels_concat_of_not (batch : List Call) {c : Call} (hc : ¬ (c.effect = none ∧ c.fd ≠ -1)) :
    dels (batch ++ [c]) = dels batch := by
  rw [dels, List.filterMap_append, List.filterMap_cons, if_neg hc, List.filterMap_nil, List.append_nil]
  rfl

/-- one call on the loop thread touches its own descriptor only -/
theorem call_spec (h : s.Wf) {c : Call} (ht : call true s c = some t) :
    t.Wf ∧ ∀ fd ≠ -1, t.epoll fd = (if c.fd = fd then c.effect else s.epoll fd) ∧
      (c = .delEvent fd → s.epoll fd ≠ none) := by
  cases c with
  | addEvent fd0 events =>
    by_cases h1 : fd0 = -1
    · obtain rfl : s = t := by simpa [call, h1] using ht
      refine ⟨h, fun fd hfd => ⟨?_, by simp⟩⟩
      rw [if_neg (by simp only [Call.fd]; omega)]
    · obtain rfl : s.addEventInLoopThread fd0 events = t := by simpa [call, h1] using ht
      obtain ⟨a1, a2, -⟩ := addEventInLoopThread_spec h fd0 events
      refine ⟨a1, fun fd _ => ⟨?_, by simp⟩⟩
      rw [a2]
      by_cases hi : fd0 = fd
      · simp [Call.fd, Call.effect, hi]
      · simp [Call.fd, hi, Ne.symm hi]
  | delEvent fd0 =>
    by_cases h1 : fd0 = -1
    · obtain rfl : s = t := by simpa [call, h1] using ht
      refine ⟨h, fun fd hfd => ⟨?_, by simpa [h1] using fun he => absurd he.symm hfd⟩⟩
      rw [if_neg (by simp only [Call.fd]; omega)]
    · replace ht : s.delEventInLoopThread fd0 = some t := by simpa [call, h1] using ht
      obtain ⟨d1, d2⟩ := delEventInLoopThread_spec h fd0
      have hreg : s.epoll fd0 ≠ none := fun hn => by simp [d1 hn] at ht
      obtain ⟨u, hu, u1, u2, -⟩ := d2 hreg
      obtain rfl : u = t := by simpa [hu] using ht
      refine ⟨u1, fun fd _ => ⟨?_, ?_⟩⟩
      · rw [u2]
        by_cases hi : fd0 = fd
        · simp [Call.fd, Call.effect, hi]
        · simp [Call.fd, hi, Ne.symm hi]
      · rintro ⟨rfl⟩
        exact hreg

/-- **Immediate calls.** The last call on a descriptor decides, and a batch that begins with a deletion of it finds it
registered. -/
theorem immediate_spec (h : s.Wf) {calls : List Call} (ht : immediate s calls = some t) :
    t.Wf ∧ ∀ fd ≠ -1, t.epoll fd = lastEffect (s.epoll fd) (callsOn fd calls) ∧
      (.delEvent fd ∈ calls → firstMask (callsOn fd calls) = none → s.epoll fd ≠ none) := by
  induction calls generalizing s with
  | nil =>
    obtain rfl : s = t := by simpa [immediate] using ht
    exact ⟨h, fun fd _ => ⟨rfl, by simp⟩⟩
  | cons c calls ih =>
    obtain ⟨u, hu, hut⟩ : ∃ u, call true s c = some u ∧ immediate u calls = some t := by
      simpa [immediate, List.foldlM_cons, Option.bind_eq_some_iff] using ht
    obtain ⟨u1, u2⟩ := call_spec h hu
    obtain ⟨t1, t2⟩ := ih u1 hut
    refine ⟨t1, ?_⟩
    intro fd hfd
    obtain ⟨e1, e2⟩ := u2 fd hfd
    obtain ⟨f1, f2⟩ := t2 fd hfd
    rw [callsOn_cons]
    by_cases hc : c.fd = fd
    · rw [if_pos hc, f1, e1, if_pos hc, firstMask_cons, Option.or_eq_none_iff]
      exact ⟨rfl, fun _ hno => e2 (hc ▸ eq_delEvent hno.1)⟩
    · rw [if_neg hc, f1, e1, if_neg hc]
      rw [e1, if_neg hc] at f2
      refine ⟨rfl, fun hmem => f2 ((List.mem_cons.1 hmem).resolve_left ?_)⟩
      rintro rfl
      exact hc rfl

/-! ## One round -/

/-- what a call of another thread leaves for the drain -/
def post (s : Reactor) : Call → Reactor
  | .addEvent fd events => if fd = -1 then s else s.postAdd fd events
  | .delEvent fd => if fd = -1 then s else s.postDel fd

theorem round_eq (s : Reactor) (batch : List Call) : round s batch = (batch.foldl post s).drain := by
  have hpost : ∀ s c, call false s c = some (post s c) := by
    intro s c
    cases c <;> simp only [call, post, Bool.false_eq_true, if_false] <;> split_ifs <;> rfl
  have hfold : batch.foldlM (call false) s = some (batch.foldl post s) := by
    induction batch generalizing s with
    | nil => rfl
    | cons c batch ih =>
      rw [List.foldlM_cons, hpost, List.foldl_cons]
      exact ih (post s c)
  rw [round, hfold]
  rfl

theorem fdLt_trans (a b c : ℤ × ℕ) (hab : fdLt a b = true) (hbc : fdLt b c = true) : fdLt a c = true := by
  simp only [fdLt, decide_eq_true_eq] at *
  omega

/-- `t` holds what `batch` left for the drain of `s`: each descriptor with the mask of its first addition, and all
deletions -/
structure Posted (s t : Reactor) (batch : List Call) : Prop where
  fds : t.fds_ = s.fds_
  epoll : t.epoll = s.epoll
  strict : Strict fdLt t.pending_add_fds_
  adds : ∀ fd m, (fd, m) ∈ t.pending_add_fds_ ↔ fd ≠ -1 ∧ firstMask (callsOn fd batch) = some m
  dels : t.pending_del_fds_ = dels batch

theorem Posted.delEvent {t : Reactor} {batch : List Call} (h : Posted s t batch) (fd0 : ℤ) :
    Posted s (post t (.delEvent fd0)) (batch ++ [.delEvent fd0]) := by
  have hmask : ∀ fd, firstMask (callsOn fd (batch ++ [.delEvent fd0])) = firstMask (callsOn fd batch) := by
    intro fd
    by_cases hc : (Call.delEvent fd0).fd = fd
    · rw [← hc, firstMask_concat, Call.effect, Option.or_none]
    · exact firstMask_concat_of_ne batch hc
  have hadds : ∀ fd m, (fd, m) ∈ t.pending_add_fds_ ↔
      fd ≠ -1 ∧ firstMask (callsOn fd (batch ++ [.delEvent fd0])) = some m := by
    intro fd m
    rw [h.adds, hmask]
  simp only [post]
  by_cases h1 : fd0 = -1
  · rw [if_pos h1]
    refine ⟨h.fds, h.epoll, h.strict, hadds, ?_⟩
    rw [h.dels, dels_concat_of_not batch (c := .delEvent fd0) fun hd => hd.2 h1]
  · rw [if_neg h1]
    refine ⟨h.fds, h.epoll, h.strict, hadds, ?_⟩
    rw [dels_concat_del batch h1, postDel, h.dels]

/-- the map takes a new pair only where the batch has no addition yet -/
theorem Posted.absent_iff {t : Reactor} {batch : List Call} (h : Posted s t batch) {fd0 : ℤ} (h1 : fd0 ≠ -1) (events : ℕ) :
    (∀ z ∈ t.pending_add_fds_, fdLt (fd0, events) z = true ∨ fdLt z (fd0, events) = true) ↔
      firstMask (callsOn fd0 batch) = none := by
  rw [Option.eq_none_iff_forall_ne_some]
  constructor
  · intro hall m hm
    have := hall (fd0, m) ((h.adds fd0 m).2 ⟨h1, hm⟩)
    simp [fdLt] at this
  · intro hno z hz
    have hne : z.1 ≠ fd0 := fun he => hno z.2 (he ▸ ((h.adds z.1 z.2).1 hz).2)
    simp only [fdLt, decide_eq_true_eq]
    exact (lt_or_gt_of_ne hne).symm

theorem Posted.addEvent {t : Reactor} {batch : List Call} (h : Posted s t batch) (fd0 : ℤ) (events : ℕ) :
    Posted s (post t (.addEvent fd0 events)) (batch ++ [.addEvent fd0 events]) := by
  have hdels := h.dels
  rw [← dels_concat_of_not batch (c := .addEvent fd0 events) (by simp [Call.effect])] at hdels
  simp only [post]
  by_cases h1 : fd0 = -1
  · rw [if_pos h1]
    refine ⟨h.fds, h.epoll, h.strict, ?_, hdels⟩
    intro fd m
    rw [h.adds]
    refine and_congr_right ?_
    intro hfd
    have hne : (Call.addEvent fd0 events).fd ≠ fd := fun he => hfd (he.symm.trans h1)
    rw [firstMask_concat_of_ne batch hne]
  · rw [if_neg h1]
    refine ⟨h.fds, h.epoll, h.strict.insertUnique fdLt_trans _, ?_, hdels⟩
    intro fd m
    rw [postAdd, mem_insertUnique_iff fdLt_trans h.strict, h.absent_iff h1, h.adds]
    by_cases hc : fd0 = fd
    · subst hc
      have hself := firstMask_concat batch (.addEvent fd0 events)
      simp only [Call.fd, Call.effect] at hself
      rw [hself]
      cases firstMask (callsOn fd0 batch) <;> simp [h1, eq_comm]
    · rw [firstMask_concat_of_ne batch (c := .addEvent fd0 events) hc]
      simp [Ne.symm hc]

theorem foldl_post_spec (h : s.pending_add_fds_ = []) (h' : s.pending_del_fds_ = []) (batch : List Call) :
    Posted s (batch.foldl post s) batch := by
  induction batch using List.reverseRecOn with
  | nil => exact ⟨rfl, rfl, by simp [h, Strict], by simp [h, callsOn, firstMask], by simp [h', Reactor.dels]⟩
  | append_singleton batch c ih =>
    rw [List.foldl_append, List.foldl_cons, List.foldl_nil]
    cases c with
    | delEvent fd => exact ih.delEvent fd
    | addEvent fd events => exact ih.addEvent fd events

theorem foldl_add_spec (h : s.Wf) {l : List (ℤ × ℕ)} (hl : Strict fdLt l) :
    (l.foldl (fun s x => s.addEventInLoopThread x.1 x.2) s).Wf ∧
      (∀ fd m, (fd, m) ∈ l → (l.foldl (fun s x => s.addEventInLoopThread x.1 x.2) s).epoll fd = some m) ∧
      (∀ fd, (∀ m, (fd, m) ∉ l) → (l.foldl (fun s x => s.addEventInLoopThread x.1 x.2) s).epoll fd = s.epoll fd) ∧
      (l.foldl (fun s x => s.addEventInLoopThread x.1 x.2) s).pending_add_fds_ = s.pending_add_fds_ ∧
      (l.foldl (fun s x => s.addEventInLoopThread x.1 x.2) s).pending_del_fds_ = s.pending_del_fds_ := by
  induction l generalizing s with
  | nil => exact ⟨h, by simp, fun _ _ => rfl, rfl, rfl⟩
  | cons x l ih =>
    obtain ⟨hx, hl⟩ := List.pairwise_cons.1 hl
    obtain ⟨a1, a2, a3, a4⟩ := addEventInLoopThread_spec h x.1 x.2
    obtain ⟨i1, i2, i3, i4, i5⟩ := ih a1 hl
    rw [List.foldl_cons]
    refine ⟨i1, ?_, ?_, i4.trans a3, i5.trans a4⟩
    · intro fd m hm
      rcases List.mem_cons.1 hm with hm | hm
      · -- no later pair has the same key
        have hlater : ∀ m', (fd, m') ∉ l := fun m' hm' => by
          have := hx _ hm'
          simp [fdLt, ← hm] at this
        rw [i3 fd hlater, a2, ← hm, update_self]
      · exact i2 fd m hm
    · intro fd hno
      have hne : fd ≠ x.1 := fun he => hno x.2 (he ▸ List.mem_cons_self)
      rw [i3 fd fun m hm => hno m (List.mem_cons_of_mem _ hm), a2, update_of_ne hne]

/-- deletions one after the other: each descriptor must be registered, so none may come twice -/
theorem foldlM_del_spec (h : s.Wf) (l : List ℤ) :
    (l.Nodup ∧ (∀ fd ∈ l, s.epoll fd ≠ none) ∧ ∃ t, l.foldlM delEventInLoopThread s = some t ∧ t.Wf ∧
        (∀ fd, t.epoll fd = if fd ∈ l then none else s.epoll fd) ∧
        t.pending_add_fds_ = s.pending_add_fds_ ∧ t.pending_del_fds_ = s.pending_del_fds_) ∨
      (¬ (l.Nodup ∧ ∀ fd ∈ l, s.epoll fd ≠ none) ∧ l.foldlM delEventInLoopThread s = none) := by
  induction l generalizing s with
  | nil => exact Or.inl ⟨List.nodup_nil, by simp, s, rfl, h, by simp, rfl, rfl⟩
  | cons x l ih =>
    obtain ⟨d1, d2⟩ := delEventInLoopThread_spec h x
    rw [List.foldlM_cons]
    by_cases hx : s.epoll x = none
    · exact Or.inr ⟨fun hn => hn.2 x List.mem_cons_self hx, by rw [d1 hx]; rfl⟩
    · obtain ⟨u, hu, u1, u2, u3, u4⟩ := d2 hx
      rw [hu]
      rcases ih u1 with ⟨n1, n2, t, t1, t2, t3, t4, t5⟩ | ⟨n1, n2⟩
      · have hxl : x ∉ l := fun hxl => n2 x hxl (by rw [u2, update_self])
        refine Or.inl ⟨List.nodup_cons.2 ⟨hxl, n1⟩, ?_, t, t1, t2, ?_, t4.trans u3, t5.trans u4⟩
        · intro fd hfd
          rcases List.mem_cons.1 hfd with rfl | hfd
          · exact hx
          · have hne : fd ≠ x := fun he => hxl (he ▸ hfd)
            have := n2 fd hfd
            rwa [u2, update_of_ne hne] at this
        · intro fd
          rw [t3, u2]
          by_cases he : fd = x
          · simp [he]
          · simp [he]
      · refine Or.inr ⟨fun ⟨m1, m2⟩ => n1 ⟨(List.nodup_cons.1 m1).2, ?_⟩, n2⟩
        intro fd hfd
        have hne : fd ≠ x := fun he => (List.nodup_cons.1 m1).1 (he ▸ hfd)
        rw [u2, update_of_ne hne]
        exact m2 fd (List.mem_cons_of_mem _ hfd)

/-- a reactor between two rounds -/
structure Idle (s : Reactor) : Prop where
  wf : s.Wf
  no_add : s.pending_add_fds_ = []
  no_del : s.pending_del_fds_ = []

/-- **One round.** The additions come first and keep their first mask, the deletions come last; the round is undefined
when a descriptor is deleted twice, or neither was registered nor is added. -/
theorem round_spec (h : s.Idle) (batch : List Call) :
    ((dels batch).Nodup ∧ (∀ fd ∈ dels batch, (firstMask (callsOn fd batch)).or (s.epoll fd) ≠ none) ∧
      ∃ t, round s batch = some t ∧ t.Idle ∧ ∀ fd ≠ -1, t.epoll fd =
        if fd ∈ dels batch then none else (firstMask (callsOn fd batch)).or (s.epoll fd)) ∨
    (¬ ((dels batch).Nodup ∧ ∀ fd ∈ dels batch, (firstMask (callsOn fd batch)).or (s.epoll fd) ≠ none) ∧
      round s batch = none) := by
  obtain ⟨p1, p2, p3, p4, p5⟩ := foldl_post_spec h.no_add h.no_del batch
  set u : Reactor := { batch.foldl post s with pending_add_fds_ := [], pending_del_fds_ := [] } with hu
  have huwf : u.Wf := ⟨by rw [hu, p1]; exact h.wf.nodup, fun fd => by rw [hu, p1, p2]; exact h.wf.agree fd⟩
  obtain ⟨a1, a2, a3, a4, a5⟩ := foldl_add_spec huwf p3
  set v := (batch.foldl post s).pending_add_fds_.foldl (fun s x => s.addEventInLoopThread x.1 x.2) u with hv
  have hround : round s batch = (dels batch).foldlM delEventInLoopThread v := by
    rw [round_eq, drain, ← p5]
  have hmid : ∀ fd ≠ -1, v.epoll fd = (firstMask (callsOn fd batch)).or (s.epoll fd) := by
    intro fd hfd
    cases hm : firstMask (callsOn fd batch) with
    | none => rw [Option.none_or, a3 fd fun m hmem => by simp [((p4 fd m).1 hmem).2] at hm, hu, p2]
    | some m => rw [Option.some_or, a2 fd m ((p4 fd m).2 ⟨hfd, hm⟩)]
  have hreg : (∀ fd ∈ dels batch, v.epoll fd ≠ none) ↔
      ∀ fd ∈ dels batch, (firstMask (callsOn fd batch)).or (s.epoll fd) ≠ none :=
    forall₂_congr fun fd hfd => by rw [hmid fd (mem_dels.1 hfd).1]
  rw [hround]
  rcases foldlM_del_spec a1 (dels batch) with ⟨n1, n2, t, t1, t2, t3, t4, t5⟩ | ⟨n1, n2⟩
  · refine Or.inl ⟨n1, hreg.1 n2, t, t1, ⟨t2, t4.trans a4, t5.trans a5⟩, ?_⟩
    intro fd hfd
    rw [t3, hmid fd hfd]
  · exact Or.inr ⟨by rwa [hreg] at n1, n2⟩

/-! ## Runs of rounds -/

/-- what a round makes of a descriptor with these calls in its batch -/
def roundEffect (before : Option ℕ) (calls : List Call) : Option ℕ :=
  if ∃ c ∈ calls, c.effect = none then none else (firstMask calls).or before

/-- the calls on a descriptor in the last batch that has any -/
def lastOn (fd : ℤ) (batches : List (List Call)) : Option (List Call) :=
  ((batches.map (callsOn fd)).filter fun l => l ≠ []).getLast?

/-- the calls delete the descriptor and then register it again -/
def Reopened (calls : List Call) : Prop := (∃ c ∈ calls, c.effect = none) ∧ lastEffect none calls ≠ none

/-- a round makes of these calls what they make one by one -/
def Settled (calls : List Call) : Prop := roundEffect none calls = lastEffect none calls

/-- batch `b` can be drained after the batches `pre`: it deletes nothing twice, and what it only deletes was not deleted
and registered again by the last batch on it -/
def Drains (pre : List (List Call)) (b : List Call) : Prop :=
  (dels b).Nodup ∧ ∀ fd ∈ dels b, firstMask (callsOn fd b) = none → ∀ l ∈ lastOn fd pre, ¬ Reopened l

/-- the batches before the next one -/
def record (pre : List (List Call)) (b : List Call) : List (List Call) := pre ++ [b]

structure Faithful (batches : List (List Call)) : Prop where
  drains : Along record Drains [] batches
  settled : ∀ fd ≠ -1, ∀ l ∈ lastOn fd batches, Settled l

theorem lastOn_concat (fd : ℤ) (pre : List (List Call)) (b : List Call) :
    lastOn fd (pre ++ [b]) = if callsOn fd b = [] then lastOn fd pre else some (callsOn fd b) := by
  simp only [lastOn, List.map_append, List.map_cons, List.map_nil, List.filter_append]
  by_cases hb : callsOn fd b = [] <;> simp [hb]

/-- with a call at hand, what was before does not matter -/
theorem lastEffect_of_ne_nil (before : Option ℕ) {calls : List Call} (h : calls ≠ []) :
    lastEffect before calls = lastEffect none calls := by
  cases calls with
  | nil => exact absurd rfl h
  | cons c calls => rfl

theorem firstMask_ne_none {calls : List Call} (h : calls ≠ []) (hno : ¬ ∃ c ∈ calls, c.effect = none) :
    firstMask calls ≠ none := by
  cases calls with
  | nil => exact absurd rfl h
  | cons c calls =>
    rw [firstMask_cons]
    intro hn
    exact hno ⟨c, List.mem_cons_self, (Option.or_eq_none_iff.1 hn).1⟩

theorem roundEffect_of_ne_nil (before : Option ℕ) {calls : List Call} (h : calls ≠ []) :
    roundEffect before calls = roundEffect none calls := by
  unfold roundEffect
  split_ifs with hd
  · rfl
  · obtain ⟨m, hm⟩ := Option.ne_none_iff_exists'.1 (firstMask_ne_none h hd)
    rw [hm, Option.some_or, Option.some_or]

theorem mem_dels_iff {fd : ℤ} (hfd : fd ≠ -1) (b : List Call) :
    fd ∈ dels b ↔ ∃ c ∈ callsOn fd b, c.effect = none := by
  rw [mem_dels]
  refine ⟨fun ⟨_, h⟩ => ⟨.delEvent fd, by simp [callsOn, h, Call.fd], rfl⟩, fun ⟨c, hc, he⟩ => ⟨hfd, ?_⟩⟩
  obtain ⟨h1, h2⟩ := List.mem_filter.1 hc
  obtain rfl : c.fd = fd := by simpa using h2
  exact eq_delEvent he ▸ h1

/-- after the batches `pre`: `s` through drains, `u` one by one, both from `s₀` -/
structure Tracks (s₀ : Reactor) (pre : List (List Call)) (s u : Reactor) : Prop where
  idle : s.Idle
  wf : u.Wf
  drained : ∀ fd ≠ -1, s.epoll fd = (lastOn fd pre).elim (s₀.epoll fd) (roundEffect none)
  applied : ∀ fd ≠ -1, u.epoll fd = (lastOn fd pre).elim (s₀.epoll fd) (lastEffect none)

theorem Tracks.step {s₀ s u s' u' : Reactor} {pre : List (List Call)} {b : List Call} (h : Tracks s₀ pre s u)
    (hs : round s b = some s') (hu : immediate u b = some u') : Tracks s₀ (pre ++ [b]) s' u' := by
  obtain ⟨u1, u2⟩ := immediate_spec h.wf hu
  rcases round_spec h.idle b with ⟨-, -, t, t1, t2, t3⟩ | ⟨-, hnone⟩
  · obtain rfl : t = s' := by simpa [t1] using hs
    refine ⟨t2, u1, ?_, ?_⟩
    · intro fd hfd
      have hround : t.epoll fd = roundEffect (s.epoll fd) (callsOn fd b) := by
        rw [t3 fd hfd, roundEffect]
        simp only [mem_dels_iff hfd]
      rw [hround, lastOn_concat]
      by_cases hb : callsOn fd b = []
      · rw [if_pos hb, hb, ← h.drained fd hfd]
        simp [roundEffect, firstMask]
      · rw [if_neg hb, Option.elim_some, roundEffect_of_ne_nil _ hb]
    · intro fd hfd
      rw [(u2 fd hfd).1, lastOn_concat]
      by_cases hb : callsOn fd b = []
      · rw [if_pos hb, hb, ← h.applied fd hfd]
        rfl
      · rw [if_neg hb, Option.elim_some, lastEffect_of_ne_nil _ hb]
  · simp [hnone] at hs

theorem ne_nil_of_mem_lastOn {fd : ℤ} {pre : List (List Call)} {l : List Call} (h : l ∈ lastOn fd pre) : l ≠ [] := by
  simpa using (List.mem_filter.1 (List.mem_of_getLast? h)).2

/-- a descriptor that a valid batch only deletes is there for the drain, unless the last batch on it reopened it -/
theorem Tracks.registered_iff {s₀ s u : Reactor} {pre : List (List Call)} {fd : ℤ} (h : Tracks s₀ pre s u)
    (hfd : fd ≠ -1) (hreg : u.epoll fd ≠ none) : s.epoll fd ≠ none ↔ ∀ l ∈ lastOn fd pre, ¬ Reopened l := by
  rw [h.applied fd hfd] at hreg
  rw [h.drained fd hfd]
  cases hl : lastOn fd pre with
  | none =>
    rw [hl] at hreg
    simpa using hreg
  | some l =>
    rw [hl, Option.elim_some] at hreg
    have hne := ne_nil_of_mem_lastOn hl
    simp only [Option.elim_some, Option.mem_some_iff, forall_eq', Reopened, roundEffect]
    split_ifs with hd
    · simp [hd, hreg]
    · simp [hd, firstMask_ne_none hne hd]

theorem Tracks.drains_iff {s₀ s u u' : Reactor} {pre : List (List Call)} {b : List Call} (h : Tracks s₀ pre s u)
    (hu : immediate u b = some u') : (∃ t, round s b = some t) ↔ Drains pre b := by
  have hiff : (∀ fd ∈ dels b, (firstMask (callsOn fd b)).or (s.epoll fd) ≠ none) ↔
      ∀ fd ∈ dels b, firstMask (callsOn fd b) = none → ∀ l ∈ lastOn fd pre, ¬ Reopened l := by
    refine forall₂_congr ?_
    intro fd hfd
    obtain ⟨hne, hdel⟩ := mem_dels.1 hfd
    cases hm : firstMask (callsOn fd b) with
    | some m => simp
    | none =>
      rw [Option.none_or, h.registered_iff hne (((immediate_spec h.wf hu).2 fd hne).2 hdel hm)]
      simp
  rw [Drains, ← hiff]
  rcases round_spec h.idle b with ⟨n1, n2, t, t1, -⟩ | ⟨n1, n2⟩
  · exact ⟨fun _ => ⟨n1, n2⟩, fun _ => ⟨t, t1⟩⟩
  · exact ⟨fun ⟨t, ht⟩ => by simp [n2] at ht, fun hn => absurd hn n1⟩

/-- the same descriptors are registered, with the same masks (-1 is no descriptor) -/
def SameRegistrations (s t : Reactor) : Prop := ∀ fd ≠ -1, (fd ∈ s.fds_ ↔ fd ∈ t.fds_) ∧ s.epoll fd = t.epoll fd

theorem Tracks.same_iff {s₀ s u : Reactor} {pre : List (List Call)} (h : Tracks s₀ pre s u) :
    SameRegistrations s u ↔ ∀ fd ≠ -1, ∀ l ∈ lastOn fd pre, Settled l := by
  refine forall₂_congr ?_
  intro fd hfd
  have hepoll : s.epoll fd = u.epoll fd ↔ ∀ l ∈ lastOn fd pre, Settled l := by
    rw [h.drained fd hfd, h.applied fd hfd]
    cases lastOn fd pre with
    | none => simp
    | some l => simp [Settled]
  rw [← hepoll, h.idle.wf.agree, h.wf.agree]
  exact ⟨fun hs => hs.2, fun he => ⟨by rw [he], he⟩⟩

theorem deferred_iff_from {s₀ s u t : Reactor} {pre bs : List (List Call)} (h : Tracks s₀ pre s u)
    (hu : immediate u bs.flatten = some t) : (∃ v, deferred s bs = some v ∧ SameRegistrations v t) ↔
      Along record Drains pre bs ∧ ∀ fd ≠ -1, ∀ l ∈ lastOn fd (pre ++ bs), Settled l := by
  induction bs generalizing pre s u with
  | nil =>
    obtain rfl : u = t := by simpa [immediate] using hu
    simp [deferred, Along, h.same_iff]
  | cons b bs ih =>
    obtain ⟨u', hb, hrest⟩ : ∃ u', immediate u b = some u' ∧ immediate u' bs.flatten = some t := by
      simpa [immediate, List.foldlM_append, Option.bind_eq_some_iff] using hu
    have hd := h.drains_iff hb
    rw [deferred, List.foldlM_cons, Along, and_assoc]
    by_cases hex : ∃ s', round s b = some s'
    · obtain ⟨s', hs'⟩ := id hex
      have hih := ih (h.step hs' hb) hrest
      rw [List.append_assoc, List.singleton_append] at hih
      rw [hs']
      exact hih.trans (and_iff_right (hd.1 hex)).symm
    · have hnone : round s b = none := by
        rw [Option.eq_none_iff_forall_ne_some]
        exact fun s' hs' => hex ⟨s', hs'⟩
      rw [hnone]
      refine iff_of_false ?_ fun hf => hex (hd.2 hf.1)
      rintro ⟨v, hv, -⟩
      cases hv

/-- **Deferred registration.** From any reactor between two rounds, for every sequence of calls whose deletions find
their descriptor registered and every cut into batches: the drains end with the registrations that the calls make one by
one if and only if the batches are faithful. -/
theorem deferred_eq_immediate_iff (s t : Reactor) (h : s.Idle) (batches : List (List Call))
    (hvalid : immediate s batches.flatten = some t) :
    (∃ v, deferred s batches = some v ∧ SameRegistrations v t) ↔ Faithful batches := by
  have hstart : Tracks s [] s s := ⟨h, h.wf, fun fd _ => rfl, fun fd _ => rfl⟩
  rw [deferred_iff_from hstart hvalid, List.nil_append]
  exact ⟨fun ⟨h1, h2⟩ => ⟨h1, h2⟩, fun hf => ⟨hf.drains, hf.settled⟩⟩

instance (calls : List Call) : Decidable (Reopened calls) := inferInstanceAs (Decidable (_ ∧ _))

instance (pre : List (List Call)) (b : List Call) : Decidable (Drains pre b) := inferInstanceAs (Decidable (_ ∧ _))

/-- a reactor after its constructor: only the wakeup descriptor 3 is registered -/
def made : Reactor := ⟨[3], fun fd => if fd = 3 then some 1 else none, [], []⟩

theorem made_idle : made.Idle := ⟨⟨by decide, fun fd => by simp [made]⟩, rfl, rfl⟩

/-- a descriptor is registered, registered for more in the next batch, and deleted together with a new one's arrival -/
theorem deferred_agrees_example :
    ∃ v, deferred made [[.addEvent 5 1], [.addEvent 5 5], [.addEvent 6 1, .delEvent 5]] = some v ∧
      ∀ t, immediate made [.addEvent 5 1, .addEvent 5 5, .addEvent 6 1, .delEvent 5] = some t → SameRegistrations v t := by
  have hrun : ∃ t, immediate made [.addEvent 5 1, .addEvent 5 5, .addEvent 6 1, .delEvent 5] = some t := ⟨_, rfl⟩
  obtain ⟨t, ht⟩ := hrun
  have hfaith : Faithful [[.addEvent 5 1], [.addEvent 5 5], [.addEvent 6 1, .delEvent 5]] := by
    refine ⟨by decide, ?_⟩
    intro fd _ l hl
    by_cases h5 : fd = 5
    · subst h5
      obtain rfl : [.delEvent 5] = l := by simpa [lastOn, callsOn, Call.fd] using hl
      rfl
    · by_cases h6 : fd = 6
      · subst h6
        obtain rfl : [.addEvent 6 1] = l := by simpa [lastOn, callsOn, Call.fd] using hl
        rfl
      · simp [lastOn, callsOn, Call.fd, Ne.symm h5, Ne.symm h6] at hl
  obtain ⟨v, hv, hsame⟩ := (deferred_eq_immediate_iff made t made_idle
    [[.addEvent 5 1], [.addEvent 5 5], [.addEvent 6 1, .delEvent 5]] ht).2 hfaith
  exact ⟨v, hv, fun t' ht' => Option.some.inj (ht'.symm.trans ht) ▸ hsame⟩

/-- A descriptor is closed and its number reused within one batch: the calls leave it registered, the drain does not. -/
theorem deferred_drops_reopened :
    (immediate made [.addEvent 5 1, .delEvent 5, .addEvent 5 4]).map (fun t => t.epoll 5) = some (some 4) ∧
    (deferred made [[.addEvent 5 1, .delEvent 5, .addEvent 5 4]]).map (fun v => v.epoll 5) = some none ∧
    ¬ ∃ v t, deferred made [[.addEvent 5 1, .delEvent 5, .addEvent 5 4]] = some v ∧
      immediate made [.addEvent 5 1, .delEvent 5, .addEvent 5 4] = some t ∧ SameRegistrations v t := by
  refine ⟨by decide, by decide, ?_⟩
  rintro ⟨v, t, hv, ht, hsame⟩
  have hv5 : v.epoll 5 = none := by
    have hd : (deferred made [[.addEvent 5 1, .delEvent 5, .addEvent 5 4]]).map (fun v => v.epoll 5) = some none := by decide
    simpa [hv] using hd
  have ht5 : t.epoll 5 = some 4 := by
    have hi : (immediate made [.addEvent 5 1, .delEvent 5, .addEvent 5 4]).map (fun t => t.epoll 5) = some (some 4) := by
      decide
    simpa [ht] using hi
  have := (hsame 5 (by decide)).2
  rw [hv5, ht5] at this
  exact absurd this (by decide)

end Reactor

end TinyRpc.Net
