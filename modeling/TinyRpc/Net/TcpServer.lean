/-
Accepting connections (net/tcp_server.cc, net/io_thread.cc): TcpAcceptor::toAccept, MainAcceptCorFunc, and
IOThread::addClient on the I/O threads.

An accepted descriptor travels by value in the task that is queued for an I/O thread; its peer address stays in the one
field `m_peer_addr` of the acceptor until the task reads it. toAccept passes a length of 0 to accept, so the address it
stores is what stood in its stack frame, which is an input of the model (`memory`). Each task keeps the peer its accept
reported: two addresses are the same when their ip and port are, or their path up to its NUL.

Main result `own_address_iff`: along a run, and however the I/O threads go on from any point of it, every connection
gets the address its own accept reported, if and only if every accept finds that address in its stack frame already, and
finds only tasks for the same address in the queues.
-/
import Mathlib.Tactic
import TinyRpc.Core.Machine
import TinyRpc.Core.Bytes
import TinyRpc.Core.Window

namespace TinyRpc.Net.TcpServer

open TinyRpc.Core

inductive Family
  | AF_INET | AF_UNIX | other
deriving DecidableEq, Repr

/-- `ip_` and `port_` are the bytes of sin_addr and sin_port, `path_` is sun_path up to its NUL -/
inductive NetAddress
  | IPAddress (ip_ port_ addr_ : List Byte)
  | UnixDomainAddress (path_ addr_ : List Byte)
deriving DecidableEq, Repr

/-- the address made of the bytes from &cli_addr on, a sockaddr_in or a sockaddr_un; none for an unknown protocol -/
def NetAddress.make : Family → List Byte → Option NetAddress
  | .AF_INET, bytes =>
    let addr_ := bytes.take 16
    some (.IPAddress (window addr_ 4 4) (window addr_ 2 2) addr_)
  | .AF_UNIX, bytes =>
    let addr_ := bytes.take 110
    some (.UnixDomainAddress ((addr_.drop 2).takeWhile fun c => c ≠ 0) addr_)
  | .other, _ => none

/-- whom an address names -/
inductive Peer
  | inet (ip port : List Byte)
  | unix (path : List Byte)
deriving DecidableEq, Repr

def NetAddress.peer : NetAddress → Peer
  | .IPAddress ip_ port_ _ => .inet ip_ port_
  | .UnixDomainAddress path_ _ => .unix path_

/-- accept writes the peer's address to `memory`, cut off at `len` bytes -/
def fill (memory reported : List Byte) (len : ℕ) : List Byte := blit memory 0 (reported.take len)

/-- a queued addClient, with the peer that the accept of its descriptor reported -/
structure Task where
  fd : ℤ
  reported : Peer
deriving DecidableEq, Repr

structure St where
  m_peer_addr : Option NetAddress
  /-- of the IOThreadPool -/
  index_ : ℤ
  /-- what toAccept has returned and MainAcceptCorFunc has not queued yet -/
  accepted : Option Task
  /-- of the reactor of each I/O thread -/
  pending_tasks_ : ℤ → List Task
  /-- the descriptors of each I/O thread's clients_ with a connection that is not Closed -/
  clients_ : ℤ → ℤ → Bool
  /-- the connections made so far, each with the peer address it was given -/
  created : List (Task × Option NetAddress)

inductive Op
  /-- accept gives `fd` and reports an address; `memory` are the bytes from &cli_addr on -/
  | toAccept (fd : ℤ) (reported memory : List Byte)
  /-- MainAcceptCorFunc queues the task -/
  | addTask
  /-- an I/O thread executes its next task -/
  | addClient (thread : ℤ)
  /-- the connection of `fd` on an I/O thread is Closed -/
  | closed (thread fd : ℤ)
deriving Repr

def init : St := ⟨none, -1, none, fun _ => [], fun _ _ => false, []⟩

/-- toAccept in MainAcceptCorFunc; an accept that fails, or of an unknown protocol, gives -1 and is tried again -/
def St.toAccept (m_family : Family) (s : St) (fd : ℤ) (reported memory : List Byte) : St :=
  let len := 0
  match s.accepted, NetAddress.make m_family (fill memory reported len), NetAddress.make m_family reported with
  | none, some peer, some own =>
    if fd = -1 then s else { s with m_peer_addr := some peer, accepted := some ⟨fd, own.peer⟩ }
  | _, _, _ => s

/-- the thread of the next descriptor, and the index behind it -/
def getIOThread (size_ index_ : ℤ) : ℤ × ℤ :=
  let index := if index_ = size_ ∨ index_ = -1 then 0 else index_
  (index, index + 1)

def St.addTask (size_ : ℤ) (s : St) : St :=
  match s.accepted with
  | none => s
  | some task =>
    let (thread, index) := getIOThread size_ s.index_
    { s with
      index_ := index, accepted := none
      pending_tasks_ := Function.update s.pending_tasks_ thread (s.pending_tasks_ thread ++ [task]) }

def St.addClient (s : St) (thread : ℤ) : St :=
  match s.pending_tasks_ thread with
  | [] => s
  | task :: tasks =>
    let s := { s with pending_tasks_ := Function.update s.pending_tasks_ thread tasks }
    -- insert error, this fd of TcpConnection exists and its state is not Closed
    if s.clients_ thread task.fd then s
    else
      { s with
        clients_ := Function.update s.clients_ thread (Function.update (s.clients_ thread) task.fd true)
        created := s.created ++ [(task, s.m_peer_addr)] }

def St.closed (s : St) (thread fd : ℤ) : St :=
  { s with clients_ := Function.update s.clients_ thread (Function.update (s.clients_ thread) fd false) }

variable (m_family : Family) (size_ : ℤ)

def step (s : St) : Op → St
  | .toAccept fd reported memory => s.toAccept m_family fd reported memory
  | .addTask => s.addTask size_
  | .addClient thread => s.addClient thread
  | .closed thread fd => s.closed thread fd

/-- every connection has the address the accept of its descriptor reported -/
def OwnAddress (s : St) : Prop := ∀ x ∈ s.created, x.2.map NetAddress.peer = some x.1.reported

instance : DecidablePred OwnAddress := fun s => inferInstanceAs (Decidable (∀ x ∈ s.created, _))

/-- what is not the next accept: the queueing of the last one, and what the I/O threads do -/
def Op.Later : Op → Prop
  | .toAccept _ _ _ => False
  | .addTask | .addClient _ | .closed _ _ => True

/-- an accept finds the address it is to report in its stack frame, and no task for another address in a queue -/
def InTurn (s : St) : Op → Prop
  | .toAccept fd reported memory => s.accepted = none → fd ≠ -1 → ∀ own ∈ NetAddress.make m_family reported,
      (NetAddress.make m_family memory).map NetAddress.peer = some own.peer ∧
        ∀ thread, ∀ task ∈ s.pending_tasks_ thread, task.reported = own.peer
  | .addTask | .addClient _ | .closed _ _ => True

/-! ## One operation -/

/-- the address in the acceptor is that of every task under way -/
structure Inv (s : St) : Prop where
  queued : ∀ thread, ∀ task ∈ s.pending_tasks_ thread, s.m_peer_addr.map NetAddress.peer = some task.reported
  accepted : ∀ task ∈ s.accepted, s.m_peer_addr.map NetAddress.peer = some task.reported
  own : OwnAddress s

variable {m_family : Family} {size_ : ℤ} {s : St}

/-- a length of 0 lets accept write nothing -/
theorem fill_zero (memory reported : List Byte) : fill memory reported 0 = memory := by
  simp [fill, blit]

/-- an accept changes the two fields of the main thread, or nothing -/
theorem toAccept_cases (s : St) (fd : ℤ) (reported memory : List Byte) :
    (∃ peer own, s.accepted = none ∧ fd ≠ -1 ∧ NetAddress.make m_family memory = some peer ∧
      NetAddress.make m_family reported = some own ∧
      s.toAccept m_family fd reported memory = { s with m_peer_addr := some peer, accepted := some ⟨fd, own.peer⟩ }) ∨
    s.toAccept m_family fd reported memory = s := by
  unfold St.toAccept
  simp only [fill_zero]
  split
  · rename_i peer own ha hp ho
    split_ifs with hfd
    · exact Or.inr rfl
    · exact Or.inl ⟨peer, own, ha, hfd, hp, ho, rfl⟩
  · exact Or.inr rfl

/-- the next task of a thread leaves its queue, and makes a connection or not -/
theorem addClient_spec {thread : ℤ} {task : Task} {tasks : List Task} (hp : s.pending_tasks_ thread = task :: tasks) :
    (s.addClient thread).pending_tasks_ = Function.update s.pending_tasks_ thread tasks ∧
      (s.addClient thread).m_peer_addr = s.m_peer_addr ∧ (s.addClient thread).accepted = s.accepted ∧
      (s.addClient thread).created =
        s.created ++ if s.clients_ thread task.fd then [] else [(task, s.m_peer_addr)] := by
  cases hc : s.clients_ thread task.fd <;> simp [St.addClient, hp, hc]

theorem mem_update_queue {q : ℤ → List Task} {thread i : ℤ} {tasks : List Task} {task : Task}
    (h : task ∈ Function.update q thread tasks i) : task ∈ tasks ∨ task ∈ q i := by
  by_cases hi : i = thread
  · subst hi
    exact Or.inl (by simpa using h)
  · exact Or.inr (by simpa [hi] using h)

theorem Inv.toAccept (h : Inv s) {fd : ℤ} {reported memory : List Byte}
    (ho : InTurn m_family s (.toAccept fd reported memory)) : Inv (s.toAccept m_family fd reported memory) := by
  rcases toAccept_cases s fd reported memory with ⟨peer, own, ha, hfd, hpeer, hown, heq⟩ | heq
  · obtain ⟨hmemory, htasks⟩ := ho ha hfd own hown
    rw [hpeer] at hmemory
    rw [heq]
    refine ⟨?_, ?_, h.own⟩
    · intro thread task hmem
      rw [htasks thread task hmem]
      exact hmemory
    · intro task hmem
      cases Option.mem_some.1 hmem
      exact hmemory
  · rw [heq]
    exact h

theorem Inv.addTask (h : Inv s) : Inv (s.addTask size_) := by
  unfold St.addTask
  split
  · exact h
  · rename_i task ha
    refine ⟨?_, ?_, h.own⟩
    · intro i task' hmem
      rcases mem_update_queue hmem with hmem | hmem
      · rcases List.mem_append.1 hmem with hmem | hmem
        · exact h.queued _ task' hmem
        · rw [List.mem_singleton.1 hmem]
          exact h.accepted task ha
      · exact h.queued i task' hmem
    · intro task' hmem
      exact absurd hmem (Option.not_mem_none _)

theorem Inv.addClient (h : Inv s) (thread : ℤ) : Inv (s.addClient thread) := by
  cases hp : s.pending_tasks_ thread with
  | nil =>
    have hsame : s.addClient thread = s := by simp only [St.addClient, hp]
    rw [hsame]
    exact h
  | cons task tasks =>
    obtain ⟨hqueue, hpeer, hacc, hcreated⟩ := addClient_spec hp
    have hhead : s.m_peer_addr.map NetAddress.peer = some task.reported := h.queued thread task (hp ▸ List.mem_cons_self ..)
    refine ⟨?_, ?_, ?_⟩
    · intro i task' hmem
      rw [hqueue] at hmem
      rw [hpeer]
      rcases mem_update_queue hmem with hmem | hmem
      · exact h.queued thread task' (hp ▸ List.mem_cons_of_mem _ hmem)
      · exact h.queued i task' hmem
    · rw [hacc, hpeer]
      exact h.accepted
    · intro x hx
      rw [hcreated, List.mem_append] at hx
      rcases hx with hx | hx
      · exact h.own x hx
      · split_ifs at hx
        · exact absurd hx List.not_mem_nil
        · rw [List.mem_singleton.1 hx]
          exact hhead

theorem step_inv (h : Inv s) {o : Op} (ho : InTurn m_family s o) : Inv (step m_family size_ s o) := by
  cases o with
  | toAccept fd reported memory => exact h.toAccept ho
  | addTask => exact h.addTask
  | addClient thread => exact h.addClient thread
  | closed thread fd => exact ⟨h.queued, h.accepted, h.own⟩

theorem init_inv : Inv init := by
  refine ⟨?_, ?_, ?_⟩
  · intro thread task hmem
    exact absurd hmem List.not_mem_nil
  · intro task hmem
    exact absurd hmem (Option.not_mem_none _)
  · intro x hx
    exact absurd hx List.not_mem_nil

/-! ## A task under another address -/

/-- a task in a queue can be executed next after those before it, when a Closed connection leaves its descriptor free -/
theorem executes_wrong {thread : ℤ} {task : Task} {pre post : List Task}
    (hq : s.pending_tasks_ thread = pre ++ task :: post) (hne : s.m_peer_addr.map NetAddress.peer ≠ some task.reported) :
    ∃ ops : List Op, (∀ o ∈ ops, o.Later) ∧ ¬ OwnAddress (run (step m_family size_) s ops) := by
  induction pre generalizing s with
  | nil =>
    have hq' : (s.closed thread task.fd).pending_tasks_ thread = task :: post := hq
    obtain ⟨-, -, -, hcreated⟩ := addClient_spec hq'
    have hfree : (s.closed thread task.fd).clients_ thread task.fd = false := by simp [St.closed]
    rw [hfree, if_neg Bool.false_ne_true] at hcreated
    refine ⟨[.closed thread task.fd, .addClient thread], by simp [Op.Later], ?_⟩
    intro hown
    refine hne (hown (task, s.m_peer_addr) ?_)
    have hrun : (run (step m_family size_) s [.closed thread task.fd, .addClient thread]).created =
        s.created ++ [(task, s.m_peer_addr)] := hcreated
    rw [hrun]
    exact List.mem_append_right _ (List.mem_singleton_self _)
  | cons first pre ih =>
    rw [List.cons_append] at hq
    obtain ⟨hqueue, hpeer, -, -⟩ := addClient_spec hq
    obtain ⟨ops, hlater, hwrong⟩ := ih (s := s.addClient thread) (by rw [hqueue, Function.update_self])
      (by rw [hpeer]; exact hne)
    refine ⟨.addClient thread :: ops, ?_, hwrong⟩
    intro o ho
    rcases List.mem_cons.1 ho with rfl | ho
    · trivial
    · exact hlater o ho

theorem queued_wrong {thread : ℤ} {task : Task} (hmem : task ∈ s.pending_tasks_ thread)
    (hne : s.m_peer_addr.map NetAddress.peer ≠ some task.reported) :
    ∃ ops : List Op, (∀ o ∈ ops, o.Later) ∧ ¬ OwnAddress (run (step m_family size_) s ops) := by
  obtain ⟨pre, post, hq⟩ := List.append_of_mem hmem
  exact executes_wrong hq hne

/-- so does the descriptor that was accepted last, once its task is queued -/
theorem accepted_wrong {task : Task} (ha : s.accepted = some task)
    (hne : s.m_peer_addr.map NetAddress.peer ≠ some task.reported) :
    ∃ ops : List Op, (∀ o ∈ ops, o.Later) ∧ ¬ OwnAddress (run (step m_family size_) s ops) := by
  have hmem : task ∈ (s.addTask size_).pending_tasks_ (getIOThread size_ s.index_).1 := by
    simp [St.addTask, ha]
  have hpeer : (s.addTask size_).m_peer_addr = s.m_peer_addr := by simp [St.addTask, ha]
  obtain ⟨ops, hlater, hwrong⟩ := queued_wrong hmem (by rw [hpeer]; exact hne)
  refine ⟨.addTask :: ops, ?_, hwrong⟩
  intro o ho
  rcases List.mem_cons.1 ho with rfl | ho
  · trivial
  · exact hlater o ho

/-- an accept out of turn makes a connection with another address possible -/
theorem accept_wrong {fd : ℤ} {reported memory : List Byte} (ho : ¬ InTurn m_family s (.toAccept fd reported memory)) :
    ∃ ops : List Op, (∀ o ∈ ops, o.Later) ∧
      ¬ OwnAddress (run (step m_family size_) (s.toAccept m_family fd reported memory) ops) := by
  simp only [InTurn, not_forall] at ho
  obtain ⟨ha, hfd, own, hown, hnot⟩ := ho
  rw [Option.mem_def] at hown
  obtain ⟨peer, hpeer⟩ : ∃ peer, NetAddress.make m_family memory = some peer := by
    cases m_family with
    | AF_INET => exact ⟨_, rfl⟩
    | AF_UNIX => exact ⟨_, rfl⟩
    | other => exact absurd hown (by simp [NetAddress.make])
  have heq : s.toAccept m_family fd reported memory =
      { s with m_peer_addr := some peer, accepted := some ⟨fd, own.peer⟩ } := by
    simp only [St.toAccept, fill_zero, ha, hpeer, hown, if_neg hfd]
  rw [heq]
  by_cases hsame : peer.peer = own.peer
  · -- the stack frame held the right address, so a queued task is for another one
    have htask : ∃ thread, ∃ task ∈ s.pending_tasks_ thread, task.reported ≠ own.peer := by
      by_contra hall
      refine hnot ⟨by rw [hpeer, Option.map_some, hsame], ?_⟩
      intro thread task hmem
      by_contra hne
      exact hall ⟨thread, task, hmem, hne⟩
    obtain ⟨thread, task, hmem, hne⟩ := htask
    refine queued_wrong hmem ?_
    intro heq
    exact hne ((Option.some.inj heq).symm.trans hsame)
  · refine accepted_wrong rfl ?_
    intro heq
    exact hsame (Option.some.inj heq)

/-! ## Whole runs -/

theorem Op.Later.inTurn {o : Op} (h : o.Later) (s : St) : InTurn m_family s o := by
  cases o with
  | toAccept _ _ _ => exact absurd h id
  | addTask | addClient _ | closed _ _ => trivial

/-- **Peer addresses.** For every run of accepts and of the I/O threads: every connection made in it, and in any
continuation of the I/O threads from any of its states, has the address that the accept of its descriptor reported, if
and only if every accept finds that address in its stack frame already, and finds in the queues only tasks for the same
address. -/
theorem own_address_iff (m_family : Family) (size_ : ℤ) (ops : List Op) :
    (∀ ops₁ ops₂ later, ops = ops₁ ++ ops₂ → (∀ o ∈ later, o.Later) →
        OwnAddress (run (step m_family size_) init (ops₁ ++ later))) ↔
      Along (step m_family size_) (InTurn m_family) init ops := by
  refine ⟨?_, ?_⟩
  · intro h
    rw [along_iff]
    intro ops₁ o ops₂ hops
    cases o with
    | toAccept fd reported memory =>
      by_contra ho
      obtain ⟨later, hlater, hwrong⟩ := accept_wrong ho
      refine hwrong ?_
      have hown := h (ops₁ ++ [.toAccept fd reported memory]) ops₂ later (by rw [hops, List.append_cons]) hlater
      rw [run, List.foldl_append, List.foldl_append] at hown
      exact hown
    | addTask | addClient _ | closed _ _ => trivial
  · intro h ops₁ ops₂ later hops hlater
    rw [hops, along_append] at h
    have hrest : Along (step m_family size_) (InTurn m_family) (run (step m_family size_) init ops₁) later :=
      along_of_mem fun o ho s => (hlater o ho).inTurn s
    have hstep : ∀ s o, Inv s → InTurn m_family s o → Inv (step m_family size_ s o) := fun s o hs ho => step_inv hs ho
    exact (always_of_inv hstep init_inv (along_append.2 ⟨h.1, hrest⟩)).last.own

/-- the sockaddr_in of 10.0.0.`host`, port 80 -/
def sockaddrIn (host : Byte) : List Byte := [2, 0, 0, 80, 10, 0, 0, host, 0, 0, 0, 0, 0, 0, 0, 0]

/-- one accept, with zeros in the stack frame -/
def oneAccept : List Op := [.toAccept 7 (sockaddrIn 1) (List.replicate 16 0), .addTask, .addClient 0]

/-- two accepts before the first task is executed, with the right bytes in the stack frame each time -/
def twoAccepts : List Op :=
  [.toAccept 7 (sockaddrIn 1) (sockaddrIn 1), .addTask, .toAccept 8 (sockaddrIn 2) (sockaddrIn 2), .addTask, .addClient 0]

/-- The connection gets the zeros of the stack frame; and even with the right bytes there, the first of two descriptors
gets the address of the second. -/
theorem foreign_address :
    (run (step .AF_INET 2) init oneAccept).created =
      [(⟨7, .inet [10, 0, 0, 1] [0, 80]⟩, some (.IPAddress [0, 0, 0, 0] [0, 0] (List.replicate 16 0)))] ∧
    ¬ OwnAddress (run (step .AF_INET 2) init oneAccept) ∧
    (run (step .AF_INET 2) init twoAccepts).created =
      [(⟨7, .inet [10, 0, 0, 1] [0, 80]⟩, some (.IPAddress [10, 0, 0, 2] [0, 80] (sockaddrIn 2)))] ∧
    ¬ OwnAddress (run (step .AF_INET 2) init twoAccepts) := by
  decide

/-- the bytes behind the path do not count -/
example : OwnAddress (run (step .AF_UNIX 2) init
    [.toAccept 7 [1, 0, 47, 97, 0] ([1, 0, 47, 97, 0] ++ List.replicate 105 255), .addTask, .addClient 0]) := by
  decide

end TinyRpc.Net.TcpServer
