/-
Descriptors and connections across the I/O threads (net/tcp_server.cc: MainAcceptCorFunc; net/io_thread.cc:
IOThreadPool::getIOThread, IOThread::addClient, MainLoopTimerFunc; net/tcp_connection.cc: clearClient,
shutdownConnection).

The kernel gives accept any number that is not open. The main thread queues the descriptor for the next I/O thread in
turn; that thread makes a connection of it, which replaces one that is Closed under the same number and is refused by one
that is not. A connection closes its descriptor when it becomes Closed, and the thread's timer frees it later, leaving a
null pointer in the map. So the next connection of the number may be made on another thread, beside what is left of the
last one. Peer addresses are in `TcpServer`; the map holds the only lasting reference to a connection, so the connection
is the entry.

A task that the reactor clears unseen (`ReactorTasks.late_task_lost`) is the operation `lost`. A pool of no threads has none to
queue for; `round_robin` is about the others.

Main results: `one_owner_iff`, every open descriptor is in exactly one place and none is refused, exactly as long as no task
is lost; `round_robin`, which thread gets which descriptor, and how evenly.
-/
import Mathlib.Data.Int.CardIntervalMod
import Mathlib.Tactic
import TinyRpc.Net.TcpConnection
import TinyRpc.Net.TcpServer

namespace TinyRpc.Net.Clients

open TinyRpc.Core Function
open TinyRpc.Net.TcpServer (getIOThread)

/-- an entry of `clients_`: a null pointer, or a connection with its state -/
abbrev Entry := Option TcpConnectionState

structure St where
  /-- the kernel's open descriptors -/
  opened : ℤ → Bool
  index_ : ℤ
  /-- what toAccept has returned and MainAcceptCorFunc has not queued yet -/
  accepted : Option ℤ
  /-- of the reactor of each I/O thread -/
  pending_tasks_ : ℤ → List ℤ
  /-- the map of each I/O thread -/
  clients_ : ℤ → ℤ → Option Entry
  /-- the thread of each descriptor queued so far, in order -/
  dispatched : List ℤ

def init : St :=
  { opened := fun _ => false, index_ := -1, accepted := none, pending_tasks_ := fun _ => [], clients_ := fun _ _ => none,
    dispatched := [] }

inductive Op
  /-- accept returns `fd` -/
  | toAccept (fd : ℤ)
  /-- MainAcceptCorFunc queues it -/
  | addTask
  /-- an I/O thread executes its next task -/
  | addClient (thread : ℤ)
  | clearClient (thread fd : ℤ)
  | shutdownConnection (thread fd : ℤ)
  | timer (thread : ℤ)
  /-- a reactor drops the task queued last -/
  | lost (thread : ℤ)
deriving Repr

/-- a connection that is not Closed -/
def Entry.live : Entry → Bool
  | none => false
  | some state => state ≠ .Closed

/-- does `clients_` of a thread hold a connection of `fd` that is not Closed? -/
def St.live (s : St) (thread fd : ℤ) : Bool := ((s.clients_ thread fd).map Entry.live).getD false

def St.setEntry (s : St) (thread fd : ℤ) (e : Entry) : St :=
  { s with clients_ := update s.clients_ thread (update (s.clients_ thread) fd (some e)) }

def St.toAccept (s : St) (fd : ℤ) : St :=
  if s.accepted = none ∧ fd ≠ -1 ∧ s.opened fd = false then
    { s with opened := update s.opened fd true, accepted := some fd }
  else s

def St.addTask (size_ : ℤ) (s : St) : St :=
  match s.accepted with
  | none => s
  | some fd =>
    let (thread, index) := getIOThread size_ s.index_
    { s with
      index_ := index, accepted := none, dispatched := s.dispatched ++ [thread]
      pending_tasks_ := update s.pending_tasks_ thread (s.pending_tasks_ thread ++ [fd]) }

/-- the task of `fd` is refused: "insert error, this fd of TcpConection exist and state not Closed" -/
def St.addClient (s : St) (thread : ℤ) : St :=
  match s.pending_tasks_ thread with
  | [] => s
  | fd :: fds =>
    let s := { s with pending_tasks_ := update s.pending_tasks_ thread fds }
    if s.live thread fd then s else s.setEntry thread fd (some .Connected)

def St.clearClient (s : St) (thread fd : ℤ) : St :=
  if s.live thread fd then { s.setEntry thread fd (some .Closed) with opened := update s.opened fd false } else s

def St.shutdownConnection (s : St) (thread fd : ℤ) : St :=
  match s.clients_ thread fd with
  | some (some .Connected) | some (some .HalfClosing) => s.setEntry thread fd (some .HalfClosing)
  | _ => s

/-- the entry after the timer: a Closed connection is freed -/
def Entry.swept : Entry → Entry
  | some .Closed => none
  | e => e

/-- MainLoopTimerFunc -/
def St.timer (s : St) (thread : ℤ) : St :=
  { s with clients_ := update s.clients_ thread fun fd => (s.clients_ thread fd).map Entry.swept }

def St.lost (s : St) (thread : ℤ) : St :=
  { s with pending_tasks_ := update s.pending_tasks_ thread (s.pending_tasks_ thread).dropLast }

variable (size_ : ℤ)

def step (s : St) : Op → St
  | .toAccept fd => s.toAccept fd
  | .addTask => s.addTask size_
  | .addClient thread => s.addClient thread
  | .clearClient thread fd => s.clearClient thread fd
  | .shutdownConnection thread fd => s.shutdownConnection thread fd
  | .timer thread => s.timer thread
  | .lost thread => s.lost thread

/-! ## Where a descriptor is -/

inductive Place
  /-- between accept and the queue -/
  | main
  | queue (thread : ℤ)
  /-- with a connection that is not Closed -/
  | client (thread : ℤ)
deriving DecidableEq, Repr

def St.At (s : St) (fd : ℤ) : Place → Prop
  | .main => s.accepted = some fd
  | .queue thread => fd ∈ s.pending_tasks_ thread
  | .client thread => s.live thread fd = true

/-- every open descriptor is in exactly one place, queued at most once, and no other descriptor is in any -/
structure OneOwner (s : St) : Prop where
  placed : ∀ fd, s.opened fd = true ↔ ∃ p, s.At fd p
  unique : ∀ fd p q, s.At fd p → s.At fd q → p = q
  nodup : ∀ thread, (s.pending_tasks_ thread).Nodup

/-- the next task of a thread is refused -/
def Refused (s : St) : Op → Prop
  | .addClient thread => ∃ fd fds, s.pending_tasks_ thread = fd :: fds ∧ s.live thread fd = true
  | _ => False

/-- no queued task is lost -/
def KeepsTasks (s : St) : Op → Prop
  | .lost thread => s.pending_tasks_ thread = []
  | _ => True

variable {size_ : ℤ} {s : St}

theorem live_setEntry (s : St) (thread fd : ℤ) (e : Entry) (i x : ℤ) :
    (s.setEntry thread fd e).live i x = if i = thread ∧ x = fd then e.live else s.live i x := by
  unfold St.live St.setEntry
  by_cases hi : i = thread
  · subst hi
    by_cases hx : x = fd
    · subst hx
      simp
    · simp [hx]
  · simp [hi]

theorem init_oneOwner : OneOwner init := by
  refine ⟨?_, ?_, ?_⟩
  · intro fd
    refine iff_of_false (by simp [init]) ?_
    rintro ⟨p, hp⟩
    cases p <;> simp [St.At, init, St.live] at hp
  · intro fd p q hp
    cases p <;> simp [St.At, init, St.live] at hp
  · intro thread
    simp [init]

/-- A descriptor moves from one place to another; all others stay. -/
theorem OneOwner.move (h : OneOwner s) {t : St} {fd : ℤ} {p q : Place} (hp : s.At fd p) (hq : t.At fd q)
    (hold : ∀ r, r ≠ q → t.At fd r → s.At fd r ∧ r ≠ p) (hopened : t.opened = s.opened)
    (hothers : ∀ x, x ≠ fd → ∀ r, t.At x r ↔ s.At x r) (hnodup : ∀ thread, (t.pending_tasks_ thread).Nodup) :
    OneOwner t := by
  have honly : ∀ r, t.At fd r → r = q := by
    intro r hr
    by_contra hne
    obtain ⟨hs, hrp⟩ := hold r hne hr
    exact hrp (h.unique fd r p hs hp)
  refine ⟨?_, ?_, hnodup⟩
  · intro x
    rw [hopened, h.placed x]
    by_cases hx : x = fd
    · subst hx
      exact iff_of_true ⟨p, hp⟩ ⟨q, hq⟩
    · exact exists_congr fun r => (hothers x hx r).symm
  · intro x r r' hr hr'
    by_cases hx : x = fd
    · subst hx
      rw [honly r hr, honly r' hr']
    · exact h.unique x r r' ((hothers x hx r).1 hr) ((hothers x hx r').1 hr')

/-- what is at the same places as before keeps its owner -/
theorem OneOwner.congr (h : OneOwner s) {t : St} (hopened : t.opened = s.opened) (haccepted : t.accepted = s.accepted)
    (hpending : t.pending_tasks_ = s.pending_tasks_) (hlive : ∀ thread fd, t.live thread fd = s.live thread fd) :
    OneOwner t := by
  have hat : ∀ fd p, t.At fd p ↔ s.At fd p := by
    intro fd p
    cases p <;> simp only [St.At, haccepted, hpending, hlive]
  refine ⟨?_, ?_, ?_⟩
  · intro fd
    rw [hopened, h.placed fd]
    exact exists_congr fun p => (hat fd p).symm
  · intro fd p q hp hq
    exact h.unique fd p q ((hat fd p).1 hp) ((hat fd q).1 hq)
  · intro thread
    rw [hpending]
    exact h.nodup thread

theorem OneOwner.toAccept (h : OneOwner s) (fd : ℤ) : OneOwner (s.toAccept fd) := by
  unfold St.toAccept
  split_ifs with hc
  · obtain ⟨hnone, -, hclosed⟩ := hc
    have hfresh : ∀ p, ¬s.At fd p := by
      intro p hp
      rw [(h.placed fd).2 ⟨p, hp⟩] at hclosed
      cases hclosed
    have hmain : ∀ x, ¬s.At x .main := by
      intro x hx
      have hx : s.accepted = some x := hx
      rw [hnone] at hx
      cases hx
    refine ⟨?_, ?_, h.nodup⟩
    · intro x
      by_cases hx : x = fd
      · subst hx
        exact iff_of_true (update_self ..) ⟨.main, rfl⟩
      · show update s.opened fd true x = true ↔ _
        rw [update_of_ne hx, h.placed x]
        refine exists_congr fun p => ?_
        cases p with
        | main => exact iff_of_false (hmain x) (fun he => hx (Option.some.inj he).symm)
        | queue thread | client thread => exact Iff.rfl
    · -- only `fd` has been put at the first place, and it is at no other
      have hother : ∀ x p, p ≠ .main → St.At { s with opened := update s.opened fd true, accepted := some fd } x p →
          s.At x p ∧ x ≠ fd := by
        intro x p hp hat
        have hat : s.At x p := by cases p with
          | main => exact absurd rfl hp
          | queue thread | client thread => exact hat
        exact ⟨hat, fun hx => hfresh p (hx ▸ hat)⟩
      intro x p q hp hq
      by_cases hpm : p = .main
      · subst hpm
        by_contra hqm
        exact (hother x q (Ne.symm hqm) hq).2 (Option.some.inj hp).symm
      · obtain ⟨hp', hx⟩ := hother x p hpm hp
        refine h.unique x p q hp' (hother x q ?_ hq).1
        rintro rfl
        exact hx (Option.some.inj hq).symm
  · exact h

theorem OneOwner.addTask (h : OneOwner s) : OneOwner (s.addTask size_) := by
  unfold St.addTask
  split
  case h_1 => exact h
  case h_2 fd hfd =>
    obtain ⟨thread, index⟩ := getIOThread size_ s.index_
    have hmain : s.At fd .main := hfd
    have hqueued : ∀ i, fd ∉ s.pending_tasks_ i := by
      intro i hi
      cases h.unique fd .main (.queue i) hmain hi
    refine h.move hmain (q := .queue thread) ?_ ?_ rfl ?_ ?_
    · show fd ∈ update s.pending_tasks_ thread (s.pending_tasks_ thread ++ [fd]) thread
      rw [update_self]
      exact List.mem_append_right _ (List.mem_singleton_self fd)
    · intro r hr hat
      cases r with
      | main => cases hat
      | queue i =>
        have hi : i ≠ thread := fun hi => hr (hi ▸ rfl)
        have hat : fd ∈ update s.pending_tasks_ thread (s.pending_tasks_ thread ++ [fd]) i := hat
        rw [update_of_ne hi] at hat
        exact absurd hat (hqueued i)
      | client i => exact ⟨hat, by simp⟩
    · intro x hx r
      cases r with
      | main =>
        refine iff_of_false (fun he => by cases he) ?_
        intro he
        exact hx (Option.some.inj (hfd.symm.trans he)).symm
      | queue i =>
        show x ∈ update s.pending_tasks_ thread (s.pending_tasks_ thread ++ [fd]) i ↔ x ∈ s.pending_tasks_ i
        by_cases hi : i = thread
        · subst hi
          rw [update_self, List.mem_append, List.mem_singleton, or_iff_left hx]
        · rw [update_of_ne hi]
      | client i => exact Iff.rfl
    · intro i
      show (update s.pending_tasks_ thread (s.pending_tasks_ thread ++ [fd]) i).Nodup
      by_cases hi : i = thread
      · subst hi
        rw [update_self]
        exact List.Nodup.append (h.nodup i) (List.nodup_singleton fd)
          (List.disjoint_singleton.2 (hqueued i))
      · rw [update_of_ne hi]
        exact h.nodup i

/-- a queued descriptor has no connection that is not Closed -/
theorem OneOwner.not_live (h : OneOwner s) {thread fd : ℤ} (hfd : fd ∈ s.pending_tasks_ thread) (i : ℤ) :
    s.live i fd ≠ true := by
  intro hl
  cases h.unique fd (.queue thread) (.client i) hfd hl

theorem OneOwner.addClient (h : OneOwner s) (thread : ℤ) : OneOwner (s.addClient thread) := by
  unfold St.addClient
  split
  case h_1 => exact h
  case h_2 fd fds hfds =>
    have hfd : fd ∈ s.pending_tasks_ thread := hfds ▸ List.mem_cons_self ..
    have hnot := h.not_live hfd thread
    have hnodup := h.nodup thread
    rw [hfds, List.nodup_cons] at hnodup
    set u : St := { s with pending_tasks_ := update s.pending_tasks_ thread fds } with hu
    have hlive : u.live thread fd = s.live thread fd := rfl
    dsimp only
    rw [if_neg (hlive ▸ hnot)]
    have hqueue : s.At fd (.queue thread) := hfd
    refine h.move hqueue (q := .client thread) ?_ ?_ rfl ?_ ?_
    · show (u.setEntry thread fd (some .Connected)).live thread fd = true
      simp [live_setEntry, Entry.live]
    · intro r hr hat
      cases r with
      | main => exact ⟨hat, by simp⟩
      | queue i =>
        have hat : fd ∈ update s.pending_tasks_ thread fds i := hat
        by_cases hi : i = thread
        · subst hi
          rw [update_self] at hat
          exact absurd hat hnodup.1
        · rw [update_of_ne hi] at hat
          exact ⟨hat, fun he => hi (Place.queue.inj he)⟩
      | client i =>
        have hi : i ≠ thread := fun hi => hr (hi ▸ rfl)
        have hat : (u.setEntry thread fd (some .Connected)).live i fd = true := hat
        rw [live_setEntry, if_neg (fun hc => hi hc.1)] at hat
        exact ⟨hat, by simp⟩
    · intro x hx r
      cases r with
      | main => exact Iff.rfl
      | queue i =>
        show x ∈ update s.pending_tasks_ thread fds i ↔ x ∈ s.pending_tasks_ i
        by_cases hi : i = thread
        · subst hi
          rw [update_self, hfds, List.mem_cons, or_iff_right hx]
        · rw [update_of_ne hi]
      | client i =>
        show (u.setEntry thread fd (some .Connected)).live i x = true ↔ s.live i x = true
        rw [live_setEntry, if_neg (fun hc => hx hc.2)]
        exact Iff.rfl
    · intro i
      show (update s.pending_tasks_ thread fds i).Nodup
      by_cases hi : i = thread
      · subst hi
        rw [update_self]
        exact hnodup.2
      · rw [update_of_ne hi]
        exact h.nodup i

theorem OneOwner.clearClient (h : OneOwner s) (thread fd : ℤ) : OneOwner (s.clearClient thread fd) := by
  unfold St.clearClient
  split_ifs with hl
  · have hat : ∀ x p, St.At { s.setEntry thread fd (some .Closed) with opened := update s.opened fd false } x p ↔
        s.At x p ∧ x ≠ fd := by
      intro x p
      have honly : ∀ q, s.At fd q → q = .client thread := fun q hq => h.unique fd q (.client thread) hq hl
      cases p with
      | main =>
        refine ⟨fun he => ⟨he, ?_⟩, fun he => he.1⟩
        rintro rfl
        cases honly .main he
      | queue i =>
        refine ⟨fun he => ⟨he, ?_⟩, fun he => he.1⟩
        rintro rfl
        cases honly (.queue i) he
      | client i =>
        show (s.setEntry thread fd (some .Closed)).live i x = true ↔ s.live i x = true ∧ x ≠ fd
        rw [live_setEntry]
        split_ifs with hc
        · obtain ⟨rfl, rfl⟩ := hc
          simp [Entry.live]
        · refine ⟨fun he => ⟨he, ?_⟩, fun he => he.1⟩
          rintro rfl
          cases honly (.client i) he
          exact hc ⟨rfl, rfl⟩
    refine ⟨?_, ?_, h.nodup⟩
    · intro x
      simp only [hat, exists_and_right]
      show update s.opened fd false x = true ↔ _
      by_cases hx : x = fd
      · subst hx
        simp
      · rw [update_of_ne hx, h.placed x, and_iff_left hx]
    · intro x p q hp hq
      exact h.unique x p q ((hat x p).1 hp).1 ((hat x q).1 hq).1
  · exact h

/-- the timer frees only connections that are Closed -/
theorem Entry.live_swept (e : Entry) : e.swept.live = e.live := by
  cases e with
  | none => rfl
  | some state => cases state <;> rfl

theorem live_timer (s : St) (thread i fd : ℤ) : (s.timer thread).live i fd = s.live i fd := by
  have hentry : (s.timer thread).clients_ i fd =
      if i = thread then (s.clients_ i fd).map Entry.swept else s.clients_ i fd := by
    unfold St.timer
    split_ifs with hi
    · subst hi
      simp
    · simp [hi]
  rw [St.live, hentry]
  split_ifs
  · rw [Option.map_map]
    congr 2
    exact funext Entry.live_swept
  · rfl

theorem OneOwner.shutdownConnection (h : OneOwner s) (thread fd : ℤ) : OneOwner (s.shutdownConnection thread fd) := by
  have hset : ∀ state, s.clients_ thread fd = some (some state) → state ≠ .Closed →
      OneOwner (s.setEntry thread fd (some .HalfClosing)) := by
    intro state he hstate
    refine h.congr rfl rfl rfl ?_
    intro i x
    rw [live_setEntry]
    split_ifs with hc
    · obtain ⟨rfl, rfl⟩ := hc
      simp [St.live, he, Entry.live, hstate]
    · rfl
  unfold St.shutdownConnection
  split
  case h_1 he => exact hset _ he (by simp)
  case h_2 he => exact hset _ he (by simp)
  case h_3 => exact h

theorem OneOwner.step (h : OneOwner s) (o : Op) (ho : KeepsTasks s o) : OneOwner (step size_ s o) := by
  cases o with
  | toAccept fd => exact h.toAccept fd
  | addTask => exact h.addTask
  | addClient thread => exact h.addClient thread
  | clearClient thread fd => exact h.clearClient thread fd
  | shutdownConnection thread fd => exact h.shutdownConnection thread fd
  | timer thread => exact h.congr rfl rfl rfl (live_timer s thread)
  | lost thread =>
    have hnil : s.pending_tasks_ thread = [] := ho
    refine h.congr rfl rfl ?_ fun _ _ => rfl
    show update s.pending_tasks_ thread (s.pending_tasks_ thread).dropLast = s.pending_tasks_
    rw [hnil, List.dropLast_nil, ← hnil, update_eq_self]

/-- a descriptor whose task is lost stays open in no place -/
theorem not_oneOwner_of_lost (h : OneOwner s) {thread : ℤ} (ho : s.pending_tasks_ thread ≠ []) :
    ¬OneOwner (s.lost thread) := by
  intro h'
  have hmem := List.getLast_mem ho
  set fd := (s.pending_tasks_ thread).getLast ho with hfd
  have hsplit := List.dropLast_append_getLast ho
  have hnodup := h.nodup thread
  rw [← hsplit, List.nodup_append] at hnodup
  have hopen : (s.lost thread).opened fd = true := (h.placed fd).2 ⟨.queue thread, hmem⟩
  obtain ⟨p, hp⟩ := (h'.placed fd).1 hopen
  cases p with
  | main => cases h.unique fd .main (.queue thread) hp hmem
  | client i => cases h.unique fd (.client i) (.queue thread) hp hmem
  | queue i =>
    have hp : fd ∈ update s.pending_tasks_ thread (s.pending_tasks_ thread).dropLast i := hp
    by_cases hi : i = thread
    · subst hi
      rw [update_self] at hp
      exact hnodup.2.2 fd hp fd (List.mem_singleton_self fd) rfl
    · rw [update_of_ne hi] at hp
      cases h.unique fd (.queue i) (.queue thread) hp hmem
      exact hi rfl

/-- In every order of accepts, queueings, tasks of the I/O threads, closes, shutdowns and timers: an open descriptor is in
exactly one place - accepted and not yet queued, queued once for one thread, or with one connection that is not Closed on
one thread - and no other is in any, and addClient refuses no task; and this holds exactly as long as no queued task is
lost. -/
theorem one_owner_iff (size_ : ℤ) (ops : List Op) :
    Along (step size_) (fun s o => OneOwner (step size_ s o) ∧ ¬Refused s o) init ops ↔
      Along (step size_) KeepsTasks init ops := by
  refine along_iff_of_inv (K := fun _ _ => True) ?_ init_oneOwner (along_of_mem fun _ _ _ => trivial)
  intro s o h _
  refine ⟨⟨?_, fun ho => ⟨h.step o ho, ?_⟩⟩, h.step o⟩
  · intro hs
    cases o with
    | lost thread =>
      by_contra ho
      exact not_oneOwner_of_lost h ho hs.1
    | _ => trivial
  · intro hr
    cases o with
    | addClient thread =>
      obtain ⟨fd, fds, hfds, hl⟩ := hr
      exact h.not_live (hfds ▸ List.mem_cons_self ..) thread hl
    | _ => exact hr

/-! ## Whose turn it is -/

/-- the index of the pool after `n` descriptors -/
def indexAfter (size_ : ℤ) (n : ℕ) : ℤ := if n = 0 then -1 else ((n - 1 : ℕ) : ℤ) % size_ + 1

/-- the thread of the descriptor behind `n` others -/
theorem getIOThread_indexAfter {size_ : ℤ} (hsize : 1 ≤ size_) (n : ℕ) :
    getIOThread size_ (indexAfter size_ n) = ((n : ℤ) % size_, indexAfter size_ (n + 1)) := by
  have hnext : indexAfter size_ (n + 1) = (n : ℤ) % size_ + 1 := by simp [indexAfter]
  have hturn : (if indexAfter size_ n = size_ ∨ indexAfter size_ n = -1 then 0 else indexAfter size_ n) = (n : ℤ) % size_ := by
    rcases n with _ | n
    · simp [indexAfter]
    · have hindex : indexAfter size_ (n + 1) = (n : ℤ) % size_ + 1 := by simp [indexAfter]
      have h0 := Int.emod_nonneg n (show size_ ≠ 0 by omega)
      have hlt := Int.emod_lt_of_pos n (show 0 < size_ by omega)
      rw [hindex, Nat.cast_succ, ← Int.emod_add_emod]
      by_cases hlast : (n : ℤ) % size_ + 1 = size_
      · rw [if_pos (Or.inl hlast), hlast, Int.emod_self]
      · have hstay : ¬((n : ℤ) % size_ + 1 = size_ ∨ (n : ℤ) % size_ + 1 = -1) := by omega
        rw [if_neg hstay]
        exact (Int.emod_eq_of_lt (by omega) (by omega)).symm
  rw [getIOThread, hturn, hnext]

/-- the threads of the descriptors so far, and the index that follows from their number -/
structure InTurn (size_ : ℤ) (s : St) : Prop where
  threads : s.dispatched = (List.range s.dispatched.length).map fun k : ℕ => (k : ℤ) % size_
  index : s.index_ = indexAfter size_ s.dispatched.length

theorem InTurn.step (hsize : 1 ≤ size_) (h : InTurn size_ s) (o : Op) : InTurn size_ (step size_ s o) := by
  cases o with
  | addTask =>
    simp only [Clients.step, St.addTask]
    split
    case h_1 => exact h
    case h_2 fd hfd =>
      rw [h.index, getIOThread_indexAfter hsize]
      refine ⟨?_, ?_⟩
      · show s.dispatched ++ [_] = _
        rw [List.length_append, List.length_singleton, List.range_succ, List.map_append, ← h.threads]
        rfl
      · show indexAfter size_ (s.dispatched.length + 1) = _
        rw [List.length_append, List.length_singleton]
  | toAccept fd =>
    simp only [Clients.step, St.toAccept]
    split_ifs <;> exact ⟨h.threads, h.index⟩
  | addClient thread =>
    simp only [Clients.step, St.addClient]
    split
    · exact h
    · split_ifs <;> exact ⟨h.threads, h.index⟩
  | clearClient thread fd =>
    simp only [Clients.step, St.clearClient]
    split_ifs <;> exact ⟨h.threads, h.index⟩
  | shutdownConnection thread fd =>
    simp only [Clients.step, St.shutdownConnection]
    split <;> exact ⟨h.threads, h.index⟩
  | timer thread | lost thread => exact ⟨h.threads, h.index⟩

/-- how often a remainder comes among the first `n` numbers -/
theorem count_emod {size_ : ℤ} (hsize : 1 ≤ size_) {i : ℤ} (h0 : 0 ≤ i) (hi : i < size_) (n : ℕ) :
    (((List.range n).map fun k : ℕ => (k : ℤ) % size_).count i : ℤ) = n / size_ + if i < n % size_ then 1 else 0 := by
  obtain ⟨r, rfl⟩ := Int.eq_ofNat_of_zero_le (show 0 ≤ size_ by omega)
  obtain ⟨v, rfl⟩ := Int.eq_ofNat_of_zero_le h0
  have hr : 0 < r := by omega
  have hv : v % r = v := Nat.mod_eq_of_lt (by omega)
  have hcount := Nat.count_modEq_card n hr v
  rw [hv] at hcount
  have hlist : ((List.range n).map fun k : ℕ => (k : ℤ) % (r : ℤ)).count (v : ℤ) = Nat.count (· ≡ v [MOD r]) n := by
    rw [Nat.count, List.count_eq_countP, List.countP_map]
    refine List.countP_congr fun k _ => ?_
    simp only [Function.comp, Nat.ModEq, hv, beq_iff_eq, decide_eq_true_eq]
    exact_mod_cast Iff.rfl
  rw [hlist, hcount]
  push_cast
  split_ifs <;> simp_all <;> omega

/-- In every run the descriptors go to the I/O threads in turn: the `n`-th to be queued goes to thread `n` modulo the size of
the pool. So no thread is more than one descriptor ahead of another, and none is ahead of an earlier one. -/
theorem round_robin {size_ : ℤ} (hsize : 1 ≤ size_) (ops : List Op) :
    (run (step size_) init ops).dispatched =
        (List.range (run (step size_) init ops).dispatched.length).map (fun k : ℕ => (k : ℤ) % size_) ∧
      ∀ i j, 0 ≤ i → i ≤ j → j < size_ →
        (run (step size_) init ops).dispatched.count j ≤ (run (step size_) init ops).dispatched.count i ∧
          (run (step size_) init ops).dispatched.count i ≤ (run (step size_) init ops).dispatched.count j + 1 := by
  have h : InTurn size_ (run (step size_) init ops) :=
    run_of_inv (fun _ o h => h.step hsize o) ⟨rfl, rfl⟩ ops
  refine ⟨h.threads, ?_⟩
  intro i j h0 hij hj
  have hi := count_emod hsize h0 (hij.trans_lt hj) (run (step size_) init ops).dispatched.length
  have hj := count_emod hsize (h0.trans hij) hj (run (step size_) init ops).dispatched.length
  rw [← h.threads] at hi hj
  split_ifs at hi hj <;> omega

theorem round_robin_three :
    (run (step 3) init [.toAccept 5, .addTask, .toAccept 6, .addTask, .clearClient 0 5]).dispatched.count 1 ≤
      (run (step 3) init [.toAccept 5, .addTask, .toAccept 6, .addTask, .clearClient 0 5]).dispatched.count 0 ∧
    (run (step 3) init [.toAccept 5, .addTask, .toAccept 6, .addTask, .clearClient 0 5]).dispatched.count 0 ≤
      (run (step 3) init [.toAccept 5, .addTask, .toAccept 6, .addTask, .clearClient 0 5]).dispatched.count 1 + 1 :=
  (round_robin (by decide) [.toAccept 5, .addTask, .toAccept 6, .addTask, .clearClient 0 5]).2 0 1 (by decide) (by decide)
    (by decide)

end TinyRpc.Net.Clients
