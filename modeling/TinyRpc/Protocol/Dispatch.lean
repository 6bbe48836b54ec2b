/-
Many procedures and many messages on one stream (`protocol/factory.hpp`, `protocol/rpc.hpp`).

`rpc(...)` defines a procedure and registers its constructor under the handler's name before `main`; a later registration
of the same name replaces an earlier one. `dispatch(name, codec)` makes a procedure of the map, or a null pointer for a name
that is not in it, and its `call` runs on the codec. The names do not travel on the stream: `serve` is handed them.

- `dispatch_session`: any sequence of calls by name is faithful, and each call runs the last procedure registered under its
  name; the first name that is not registered ends it with a call through a null pointer.
- `messages_unambiguous`: two sequences of as many messages, written by any hosts, are the same when one stream begins
  with both.
- `messages_cut`: of a sequence of messages that has arrived in part a reader gets the messages that are there in whole, or
  "malformed data", and nothing else.

All three are about messages without short, of sizes below 2^32, that are decoded into objects whose containers are empty.
-/
import Mathlib.Tactic
import TinyRpc.Core.Format
import TinyRpc.Protocol.Accept
import TinyRpc.Protocol.Rpc

namespace TinyRpc.Protocol

open TinyRpc.Core Function

/-! ## ObjectFactory -/

namespace ObjectFactory

/-- a constructor, null or not, for each name in the map -/
abbrev ConstructorMap (α : Type) := String → Option (Option α)

variable {α : Type}

def set (constructorMap : ConstructorMap α) (name : String) (constructor : Option α) : ConstructorMap α :=
  update constructorMap name (some constructor)

/-- the object made, `none` for a null pointer -/
def create (constructorMap : ConstructorMap α) (name : String) : Option α :=
  match constructorMap name with
  | none => none
  | some constructor => constructor

/-- the map after the initialisers of all `register_class` objects, in the order they ran -/
def registered (regs : List (String × α)) : ConstructorMap α :=
  regs.foldl (fun m r => set m r.1 (some r.2)) fun _ => none

/-- the last registration under a name -/
def last (regs : List (String × α)) (name : String) : Option α := (regs.reverse.find? (·.1 = name)).map Prod.snd

/-- a name makes what was registered last under it -/
theorem create_registered (regs : List (String × α)) (name : String) : create (registered regs) name = last regs name := by
  induction regs using List.reverseRecOn with
  | nil => rfl
  | append_singleton regs r ih =>
    have hreg : registered (regs ++ [r]) = set (registered regs) r.1 (some r.2) := by
      rw [registered, List.foldl_concat, ← registered]
    rw [hreg, last, List.reverse_concat]
    by_cases hr : r.1 = name
    · subst hr
      simp [create, set]
    · have hkeep : set (registered regs) r.1 (some r.2) name = registered regs name := update_of_ne (Ne.symm hr) _ _
      rw [create, hkeep, ← create, ih, last, List.find?_cons_of_neg (by simpa using hr)]

end ObjectFactory

/-! ## Procedures called by name -/

/-- what `rpc(request, response, handler, codec)` defines; `req` is the object `request req;` -/
structure RemoteProcedure where
  request : Schema
  response : Schema
  req : Obj request
  handler : Obj request → Obj response

/-- an object of some message type -/
abbrev Message := (ms : Schema) × Obj ms

def Message.put (host : ByteOrder) (m : Message) : List Byte := m.2.put host m.1

/-- `call`, with the request it hands to the handler -/
def RemoteProcedure.call (host : ByteOrder) (p : RemoteProcedure) : Decoder Byte String Message := do
  let r ← Protocol.call host p.req p.handler
  pure ⟨p.request, r⟩

/-- `dispatch(name, codec)->call(codec)` for each name, with the requests handed to the handlers; `none` is a call through
a null pointer -/
def serve (m : ObjectFactory.ConstructorMap RemoteProcedure) (host : ByteOrder) :
    List String → Stream Byte → Option (Except String (List Message × Stream Byte))
  | [], s => some (.ok ([], s))
  | name :: names, s =>
    match ObjectFactory.create m name with
    | none => none
    | some p =>
      match p.call host s with
      | .error e => some (.error e)
      | .ok (r, s) => (serve m host names s).map (Except.map fun x => (r :: x.1, x.2))

/-- decode one message after the other, each into the object given -/
def receive (host : ByteOrder) : List Message → Decoder Byte String (List Message)
  | [] => pure []
  | ⟨ms, w⟩ :: ws => do
    let o ← decode host ms w
    let os ← receive host ws
    pure (⟨ms, o⟩ :: os)

/-- A call by name with its request. No message type has a short, the objects that are decoded into (`req` and `resp`) have
empty containers, and the request and the response are of sizes below 2^32. -/
structure Exchange (regs : List (String × RemoteProcedure)) where
  name : String
  proc : RemoteProcedure
  found : ObjectFactory.last regs name = some proc
  request : Obj proc.request
  /-- what the client decodes the response into -/
  resp : Obj proc.response
  plain : (∀ t ∈ proc.request, t.NoShort) ∧ ∀ t ∈ proc.response, t.NoShort
  empty : proc.req.All Ty.Empty proc.request ∧ resp.All Ty.Empty proc.response
  sendable : request.Sendable proc.request ∧ (proc.handler request).Sendable proc.response

namespace Exchange

variable {regs : List (String × RemoteProcedure)}

def asked (x : Exchange regs) : Message := ⟨x.proc.request, x.request⟩

def answer (x : Exchange regs) : Message := ⟨x.proc.response, x.proc.handler x.request⟩

def target (x : Exchange regs) : Message := ⟨x.proc.response, x.resp⟩

/-- one call of the procedure under the name -/
theorem call_eq (host : ByteOrder) (x : Exchange regs) (q : List Byte) :
    x.proc.call host (.of (x.asked.put host ++ q)) = .ok (x.asked, .of (q ++ x.answer.put host)) := by
  have h : Protocol.call host x.proc.req x.proc.handler (.of (x.asked.put host ++ q)) =
      .ok (x.request, .of (q ++ x.answer.put host)) := by
    have hcall := Protocol.call_eq host x.proc.handler x.plain.1 x.proc.req x.sendable.1 q
    rwa [Obj.merge_of_empty _ x.empty.1 x.sendable.1] at hcall
  rw [RemoteProcedure.call, bind_ok h]
  rfl

end Exchange

/-- the server's side: unread requests in front, responses written behind them -/
theorem serve_eq (host : ByteOrder) {regs : List (String × RemoteProcedure)} (xs : List (Exchange regs)) (names : List String)
    (q : List Byte) :
    serve (ObjectFactory.registered regs) host (xs.map Exchange.name ++ names)
        (.of (xs.flatMap (fun x => x.asked.put host) ++ q)) =
      (serve (ObjectFactory.registered regs) host names (.of (q ++ xs.flatMap fun x => x.answer.put host))).map
        (Except.map fun r => (xs.map Exchange.asked ++ r.1, r.2)) := by
  induction xs generalizing q with
  | nil =>
    simp only [List.map_nil, List.flatMap_nil, List.nil_append, List.append_nil]
    cases serve (ObjectFactory.registered regs) host names (.of q) with
    | none => rfl
    | some r => cases r <;> rfl
  | cons x xs ih =>
    have hfound : ObjectFactory.create (ObjectFactory.registered regs) x.name = some x.proc := by
      rw [ObjectFactory.create_registered, x.found]
    rw [List.map_cons, List.cons_append, serve, hfound, List.flatMap_cons, List.append_assoc]
    simp only [x.call_eq host]
    rw [List.append_assoc, ih, List.flatMap_cons, ← List.append_assoc]
    cases serve (ObjectFactory.registered regs) host names _ with
    | none => rfl
    | some r => cases r <;> rfl

/-- the client's side -/
theorem receive_yields (host : ByteOrder) {regs : List (String × RemoteProcedure)} (xs : List (Exchange regs)) :
    Yields (receive host (xs.map Exchange.target)) (xs.flatMap fun x => x.answer.put host) (xs.map Exchange.answer) := by
  induction xs with
  | nil => exact yields_pure []
  | cons x xs ih =>
    have hx := decode_yields_of_empty host x.proc.response x.plain.2 x.empty.2 x.sendable.2
    have hall := hx.bind (f := fun o => receive host (xs.map Exchange.target) >>= fun os => pure (⟨x.proc.response, o⟩ :: os))
      (ih.bind (yields_pure _))
    rw [List.append_nil] at hall
    exact hall

/-- Calls by name are faithful. With the requests of any sequence of calls as in `Exchange` back to back on a stream, and
whatever was registered in what order, each call runs the procedure registered last under its name on exactly the request
sent, in order; the client then decodes exactly the handlers' responses, in order, and leaves the stream empty. Where a name
follows that was never registered, its call goes through a null pointer. -/
theorem dispatch_session (host : ByteOrder) {regs : List (String × RemoteProcedure)} (xs : List (Exchange regs)) :
    (∃ s, serve (ObjectFactory.registered regs) host (xs.map Exchange.name)
          (.of (xs.flatMap fun x => x.asked.put host)) = some (.ok (xs.map Exchange.asked, s)) ∧
        receive host (xs.map Exchange.target) s = .ok (xs.map Exchange.answer, .empty)) ∧
      ∀ name names q, ObjectFactory.last regs name = none →
        serve (ObjectFactory.registered regs) host (xs.map Exchange.name ++ name :: names)
          (.of (xs.flatMap (fun x => x.asked.put host) ++ q)) = none := by
  refine ⟨⟨.of (xs.flatMap fun x => x.answer.put host), ?_, ?_⟩, ?_⟩
  · have h := serve_eq host xs [] []
    rw [List.append_nil, List.append_nil, List.nil_append] at h
    rw [h, serve]
    simp [Except.map]
  · have h := receive_yields host xs []
    rw [List.append_nil] at h
    exact h
  · intro name names q hnone
    rw [serve_eq, serve, ObjectFactory.create_registered, hnone]
    rfl

/-- two procedures, one of them registered again -/
def procedures : List (String × RemoteProcedure) :=
  [("count", ⟨words, count, noWords, fun _ => noCount⟩), ("id", ⟨count, count, noCount, id⟩),
    ("count", ⟨words, count, noWords, wordCount⟩)]

def countCall : Exchange procedures where
  name := "count"
  proc := ⟨words, count, noWords, wordCount⟩
  found := rfl
  request := wordRequest
  resp := noCount
  plain := ⟨by decide, by decide⟩
  empty := ⟨⟨rfl, trivial, trivial⟩, trivial, trivial, trivial⟩
  sendable := ⟨by decide, by decide⟩

theorem dispatch_session_count :
    ∃ s, serve (ObjectFactory.registered procedures) .little ["count", "count"]
        (.of ((Message.put .little ⟨words, wordRequest⟩) ++ Message.put .little ⟨words, wordRequest⟩)) =
          some (.ok ([⟨words, wordRequest⟩, ⟨words, wordRequest⟩], s)) ∧
      receive .little [⟨count, noCount⟩, ⟨count, noCount⟩] s =
        .ok ([⟨count, wordCount wordRequest⟩, ⟨count, wordCount wordRequest⟩], .empty) :=
  (dispatch_session .little [countCall, countCall]).1

/-! ## Sequences of messages -/

theorem forEach_local {f : (t : Ty) → t.Val → Decoder Byte String t.Val} (hf : ∀ t w, Local (f t w)) :
    ∀ (ms : Schema) (w : Obj ms), Local (forEach f ms w)
  | [], w => local_pure w
  | t :: ms, (v, o) => (hf t v).bind fun _ => (forEach_local hf ms o).bind fun _ => local_pure _

theorem decode_local (host : ByteOrder) (ms : Schema) (w : Obj ms) : Local (decode host ms w) :=
  forEach_local (Ty.get_local host) ms w

theorem decode_throws (host : ByteOrder) : ∀ (ms : Schema) (w : Obj ms), Throws Scalar.malformed (decode host ms w)
  | [], w => throws_pure _ w
  | t :: ms, (v, o) => (Ty.get_throws host t v).bind fun _ => (decode_throws host ms o).bind fun _ => throws_pure _ _

/-- a message arrives in an empty object, whatever the byte orders of the two hosts -/
theorem decode_arrives (writer reader : ByteOrder) (ms : Schema) (hms : ∀ t ∈ ms, t.NoShort) {w o : Obj ms}
    (hw : w.All Ty.Empty ms) (ho : o.Sendable ms) : Yields (decode reader ms w) (o.put writer ms) o := by
  induction ms with
  | nil => exact yields_pure _
  | cons t ms ih =>
    obtain ⟨w, ws⟩ := w
    obtain ⟨v, vs⟩ := o
    have hv := Ty.get_yields writer reader t (hms t List.mem_cons_self) w ho.1.1 ho.1.2
    rw [t.merge_of_empty hw.1 ho.1.1] at hv
    have hvs := ih (fun t' ht' => hms t' (List.mem_cons_of_mem t ht')) hw.2 ho.2
    exact hv.bind hvs.map

/-- an object of nothing but fresh fields -/
def Obj.fresh : (ms : Schema) → Obj ms
  | [] => ()
  | t :: ms => (t.fresh, fresh ms)

theorem Obj.fresh_empty (ms : Schema) : (fresh ms).All Ty.Empty ms := by
  induction ms with
  | nil => trivial
  | cons t ms ih => exact ⟨t.fresh_empty, ih⟩

theorem messages_arrive (writer reader : ByteOrder) {ms : Schema} (hms : ∀ t ∈ ms, t.NoShort) {w : Obj ms}
    (hw : w.All Ty.Empty ms) {os : List (Obj ms)} (hos : ∀ o ∈ os, o.Sendable ms) :
    Yields (replicate (decode reader ms w) os.length) (os.flatMap (Obj.put writer ms)) os :=
  Yields.replicate fun o ho => decode_arrives writer reader ms hms hw (hos o ho)

/-- No stream begins with two sequences of as many messages of sizes below 2^32, whatever the byte orders of the hosts that
wrote them: the encodings of one message type without short are a prefix code, and so are those of its sequences. -/
theorem messages_unambiguous (writer writer' : ByteOrder) {ms : Schema} (hms : ∀ t ∈ ms, t.NoShort)
    {os os' : List (Obj ms)} (hos : ∀ o ∈ os, o.Sendable ms) (hos' : ∀ o ∈ os', o.Sendable ms)
    (hlen : os.length = os'.length) {q q' : List Byte}
    (h : os.flatMap (Obj.put writer ms) ++ q = os'.flatMap (Obj.put writer' ms) ++ q') : os = os' ∧ q = q' := by
  have hy := messages_arrive writer .little hms (Obj.fresh_empty ms) hos
  have hy' := messages_arrive writer' .little hms (Obj.fresh_empty ms) hos'
  rw [hlen] at hy
  obtain ⟨-, hmsgs, hrest⟩ := hy.unambiguous hy' h
  exact ⟨hmsgs, hrest⟩

/-- what a reader makes of a stream of two requests -/
def readWords (stream : List Byte) : List (Obj words) :=
  match replicate (decode .big words noWords) 2 (.of stream) with
  | .ok (os, _) => os
  | .error _ => []

/-- what is read of a stream, written again by another host -/
theorem messages_unambiguous_words :
    [wordRequest, noWords] = readWords (wordRequest.put .little words ++ noWords.put .little words) ∧
      ([7] : List Byte) = [7] :=
  messages_unambiguous .little .big (by decide) (by decide) (by decide +kernel) (by decide +kernel) (by decide +kernel)

/-- What has arrived of a sequence of messages without short and of sizes below 2^32, cut anywhere: a reader of any byte
order that asks for the first `n` of them, into an object whose containers are empty, gets exactly these and leaves the
rest, when they are there in whole, and throws "malformed data" otherwise. -/
theorem messages_cut (writer reader : ByteOrder) {ms : Schema} (hms : ∀ t ∈ ms, t.NoShort) {w : Obj ms}
    (hw : w.All Ty.Empty ms) {os : List (Obj ms)} (hos : ∀ o ∈ os, o.Sendable ms) {n : ℕ} (hn : n ≤ os.length)
    {p : List Byte} (hp : p <+: os.flatMap (Obj.put writer ms)) :
    (∃ r, p = (os.take n).flatMap (Obj.put writer ms) ++ r ∧
        replicate (decode reader ms w) n (.of p) = .ok (os.take n, .of r)) ∨
      (¬(os.take n).flatMap (Obj.put writer ms) <+: p ∧
        replicate (decode reader ms w) n (.of p) = .error Scalar.malformed) := by
  have hlocal := (decode_local reader ms w).replicate n
  have hthrows := (decode_throws reader ms w).replicate n
  have htake : ∀ o ∈ os.take n, o.Sendable ms := fun o ho => hos o (List.mem_of_mem_take ho)
  have hy := messages_arrive writer reader hms hw htake
  rw [List.length_take_of_le hn] at hy
  refine hlocal.of_prefix hthrows hy (q := (os.drop n).flatMap (Obj.put writer ms)) ?_
  rw [← List.flatMap_append, List.take_append_drop]
  exact hp

def cutRequests : List Byte := wordRequest.put .big words ++ (wordRequest.put .big words).take 5

theorem messages_cut_words :
    (∃ r, cutRequests = ([wordRequest, wordRequest].take 2).flatMap (Obj.put .big words) ++ r ∧
        replicate (decode .little words noWords) 2 (.of cutRequests) = .ok ([wordRequest, wordRequest].take 2, .of r)) ∨
      (¬([wordRequest, wordRequest].take 2).flatMap (Obj.put .big words) <+: cutRequests ∧
        replicate (decode .little words noWords) 2 (.of cutRequests) = .error Scalar.malformed) :=
  have hempty : noWords.All Ty.Empty words := ⟨rfl, trivial, trivial⟩
  messages_cut .big .little (by decide) hempty (by decide) (by decide) (by decide)

end TinyRpc.Protocol
