/-
Remote procedures over one stream (`protocol/schema.hpp`, `protocol/rpc.hpp`).

A message type is the list of its exported fields; `forEach` visits them in order with the codec's `operator<<` or
`operator>>`. `call` is the body the `rpc(...)` macro generates: decode a request into a default-constructed object, run
the handler, encode its response on the same stream. `session` is a whole exchange: a list of requests encoded back to
back, that many calls, that many responses decoded.

- `session_faithful`: from an empty stream the session never throws, hands exactly the requests to the handler in order,
  returns the handler's responses in order and leaves the stream empty. While it runs the stream holds the unread
  requests followed by the responses already written (`calls_eq`).
- `decode_replaces_iff`: decoding leaves exactly what was sent, and the handler of a call receives exactly the request
  that was sent, if and only if the old content of the target is `Replaced`. The containers of the STL macros are not
  cleared before they are filled, so a default member initialiser of a request type survives into the request.
-/
import Mathlib.Tactic
import TinyRpc.Core.Stream
import TinyRpc.Protocol.Archive

namespace TinyRpc.Protocol

open TinyRpc.Core

/-! ## Messages -/

/-- the types of the exported fields of a message, in `message(...)` order -/
abbrev Schema := List Ty

/-- the objects of a message type: one value for each exported field -/
def Obj : Schema → Type
  | [] => Unit
  | t :: ms => t.Val × Obj ms

/-- visit every field with `f` -/
def forEach {m : Type → Type} [Monad m] (f : (t : Ty) → t.Val → m t.Val) : (ms : Schema) → Obj ms → m (Obj ms)
  | [], o => pure o
  | t :: ms, (v, o) => do
    let v' ← f t v
    let o' ← forEach f ms o
    pure (v', o')

/-- `codec << value` -/
def write (host : ByteOrder) (t : Ty) (v : t.Val) : Decoder Byte String t.Val := do
  emit (t.put host v)
  pure v

/-- `for_each(obj, codec << value)` -/
def encode (host : ByteOrder) (ms : Schema) (o : Obj ms) : Decoder Byte String (Obj ms) := forEach (write host) ms o

/-- `for_each(obj, codec >> value)` -/
def decode (host : ByteOrder) (ms : Schema) (o : Obj ms) : Decoder Byte String (Obj ms) := forEach (Ty.get host) ms o

/-- the procedure of `rpc(request, response, handler, codec)`. `req` is the default-constructed request; the call
returns the request it handed to the handler. -/
def call (host : ByteOrder) {request response : Schema} (req : Obj request) (handler : Obj request → Obj response) :
    Decoder Byte String (Obj request) := do
  let r ← decode host request req
  let _ ← encode host response (handler r)
  pure r

/-- encode messages back to back -/
def encodeAll (host : ByteOrder) (ms : Schema) : List (Obj ms) → Decoder Byte String Unit
  | [] => pure ()
  | o :: os => do
    let _ ← encode host ms o
    encodeAll host ms os

/-- a whole exchange over one stream: the requests handed to the handler, and the responses decoded -/
def session (host : ByteOrder) {request response : Schema} (req : Obj request) (resp : Obj response)
    (handler : Obj request → Obj response) (rs : List (Obj request)) :
    Decoder Byte String (List (Obj request) × List (Obj response)) := do
  encodeAll host request rs
  let handed ← replicate (call host req handler) rs.length
  let answers ← replicate (decode host response resp) rs.length
  pure (handed, answers)

/-! ## Field-wise predicates -/

namespace Obj

/-- `P` holds of every field -/
def All (P : (t : Ty) → t.Val → Prop) : (ms : Schema) → Obj ms → Prop
  | [], _ => True
  | t :: ms, (v, o) => P t v ∧ All P ms o

/-- `P` relates every field of one object with that of the other -/
def All₂ (P : (t : Ty) → t.Val → t.Val → Prop) : (ms : Schema) → Obj ms → Obj ms → Prop
  | [], _, _ => True
  | t :: ms, (v, o), (v', o') => P t v v' ∧ All₂ P ms o o'

instance decidableAll (P : (t : Ty) → t.Val → Prop) [∀ t, DecidablePred (P t)] :
    (ms : Schema) → DecidablePred (All P ms)
  | [] => fun _ => inferInstanceAs (Decidable True)
  | t :: ms => fun o : t.Val × Obj ms =>
    have := decidableAll P ms
    inferInstanceAs (Decidable (P t o.1 ∧ All P ms o.2))

/-- an object of a message type as the program can hold it, every string and container shorter than 2^32 -/
def Sendable (ms : Schema) (o : Obj ms) : Prop := o.All (fun t v => t.Ordered v ∧ t.Sized v) ms

instance (ms : Schema) : DecidablePred (Sendable ms) :=
  decidableAll (fun t v => t.Ordered v ∧ t.Sized v) ms

/-- the bytes of a message: its fields one after the other -/
def put (host : ByteOrder) : (ms : Schema) → Obj ms → List Byte
  | [], _ => []
  | t :: ms, (v, o) => t.put host v ++ put host ms o

/-- field-wise `Ty.merge` -/
def merge : (ms : Schema) → Obj ms → Obj ms → Obj ms
  | [], _, o => o
  | t :: ms, (w, o), (v, o') => (t.merge w v, merge ms o o')

end Obj

/-! ## Encoding and decoding a message -/

theorem encode_eq (host : ByteOrder) (ms : Schema) (o : Obj ms) (q : List Byte) :
    encode host ms o (.of q) = .ok (o, .of (q ++ o.put host ms)) := by
  induction ms generalizing q with
  | nil => simp [encode, forEach, Obj.put]; rfl
  | cons t ms ih =>
    obtain ⟨v, o⟩ := o
    have h0 : (emit (t.put host v) : Decoder Byte String Unit) (.of q) = .ok ((), .of (q ++ t.put host v)) := by
      simp [emit]
    have h1 : write host t v (.of q) = .ok (v, .of (q ++ t.put host v)) := by
      simp only [write]
      rw [bind_ok h0]
      rfl
    show (write host t v >>= fun v' => encode host ms o >>= fun o' => pure (v', o')) (.of q) = _
    rw [bind_ok h1, bind_ok (ih o (q ++ t.put host v)), Obj.put, List.append_assoc]
    rfl

theorem encodeAll_eq (host : ByteOrder) (ms : Schema) (os : List (Obj ms)) (q : List Byte) :
    encodeAll host ms os (.of q) = .ok ((), .of (q ++ os.flatMap (Obj.put host ms))) := by
  induction os generalizing q with
  | nil => simp [encodeAll]; rfl
  | cons o os ih =>
    rw [encodeAll, bind_ok (encode_eq host ms o q), ih, List.flatMap_cons, List.append_assoc]

/-- Decoding a message into `w` leaves the field-wise merge and consumes exactly the message. -/
theorem decode_yields (host : ByteOrder) (ms : Schema) (hms : ∀ t ∈ ms, t.NoShort) (w : Obj ms) {o : Obj ms}
    (ho : o.Sendable ms) : Yields (decode host ms w) (o.put host ms) (w.merge ms o) := by
  induction ms with
  | nil => exact yields_pure _
  | cons t ms ih =>
    obtain ⟨w, ws⟩ := w
    obtain ⟨v, vs⟩ := o
    have hv := Ty.get_yields host host t (hms t List.mem_cons_self) w ho.1.1 ho.1.2
    have hvs := ih (fun t' ht' => hms t' (List.mem_cons_of_mem t ht')) ws ho.2
    exact hv.bind hvs.map

theorem Obj.merge_of_empty (ms : Schema) {w o : Obj ms} (hw : w.All Ty.Empty ms) (ho : o.Sendable ms) :
    w.merge ms o = o := by
  induction ms with
  | nil => rfl
  | cons t ms ih =>
    obtain ⟨w, ws⟩ := w
    obtain ⟨v, vs⟩ := o
    exact Prod.ext (t.merge_of_empty hw.1 ho.1.1) (ih hw.2 ho.2)

theorem Obj.merge_eq_iff (ms : Schema) {w o : Obj ms} (hw : w.All Ty.Ordered ms) (ho : o.Sendable ms) :
    w.merge ms o = o ↔ w.All₂ Ty.Replaced ms o := by
  induction ms with
  | nil => exact ⟨fun _ => trivial, fun _ => rfl⟩
  | cons t ms ih =>
    obtain ⟨w, ws⟩ := w
    obtain ⟨v, vs⟩ := o
    have h1 := t.merge_eq_iff hw.1 ho.1.1
    have h2 := ih hw.2 ho.2
    constructor
    · intro h
      exact ⟨h1.1 (congrArg Prod.fst h), h2.1 (congrArg Prod.snd h)⟩
    · intro h
      exact Prod.ext (h1.2 h.1) (h2.2 h.2)

theorem decode_yields_of_empty (host : ByteOrder) (ms : Schema) (hms : ∀ t ∈ ms, t.NoShort) {w o : Obj ms}
    (hw : w.All Ty.Empty ms) (ho : o.Sendable ms) : Yields (decode host ms w) (o.put host ms) o := by
  have h := decode_yields host ms hms w ho
  rwa [Obj.merge_of_empty ms hw ho] at h

/-! ## The remote procedure -/

section Call

variable (host : ByteOrder) {request response : Schema} (handler : Obj request → Obj response)

/-- one call: the handler is handed what decoding left in the request, and its response goes to the back of the stream -/
theorem call_eq (hreq : ∀ t ∈ request, t.NoShort) (req : Obj request) {r : Obj request} (hr : r.Sendable request)
    (q : List Byte) :
    call host req handler (.of (r.put host request ++ q)) =
      .ok (req.merge request r, .of (q ++ (handler (req.merge request r)).put host response)) := by
  rw [call, bind_ok (decode_yields host request hreq req hr q), bind_ok (encode_eq host response _ q)]
  rfl

/-- The queue invariant of a run of calls: unread requests in front, responses already written behind them. -/
theorem calls_eq (hreq : ∀ t ∈ request, t.NoShort) {req : Obj request} (hempty : req.All Ty.Empty request)
    {rs : List (Obj request)} (hrs : ∀ r ∈ rs, r.Sendable request) (q : List Byte) :
    replicate (call host req handler) rs.length (.of (rs.flatMap (Obj.put host request) ++ q)) =
      .ok (rs, .of (q ++ (rs.map handler).flatMap (Obj.put host response))) := by
  induction rs generalizing q with
  | nil => simp [replicate]; rfl
  | cons r rs ih =>
    have hr := hrs r List.mem_cons_self
    have h1 := call_eq host handler hreq req hr (rs.flatMap (Obj.put host request) ++ q)
    rw [Obj.merge_of_empty request hempty hr] at h1
    have h2 := ih (fun r' hr' => hrs r' (List.mem_cons_of_mem r hr')) (q ++ (handler r).put host response)
    rw [List.append_assoc] at h1
    rw [List.length_cons, replicate, List.flatMap_cons, List.append_assoc, bind_ok h1, bind_ok h2]
    simp
    rfl

/-- RPC over one stream is faithful and order preserving. From an empty stream, n requests encoded back to back, n calls
and n decoded responses: nothing throws, the handler is handed exactly the requests in order, its responses come back in
order, and the stream ends empty. -/
theorem session_faithful (hreq : ∀ t ∈ request, t.NoShort) (hresp : ∀ t ∈ response, t.NoShort)
    {req : Obj request} {resp : Obj response} (hreq0 : req.All Ty.Empty request) (hresp0 : resp.All Ty.Empty response)
    {rs : List (Obj request)} (hrs : ∀ r ∈ rs, r.Sendable request) (hh : ∀ r ∈ rs, (handler r).Sendable response) :
    session host req resp handler rs .empty = .ok ((rs, rs.map handler), .empty) := by
  have h1 := encodeAll_eq host request rs []
  have h2 := calls_eq host handler hreq hreq0 hrs []
  have h3 : Yields (replicate (decode host response resp) (rs.map handler).length)
      ((rs.map handler).flatMap (Obj.put host response)) (rs.map handler) := by
    apply Yields.replicate
    intro a ha
    obtain ⟨r, hr, rfl⟩ := List.mem_map.1 ha
    exact decode_yields_of_empty host response hresp hresp0 (hh r hr)
  have h4 := h3 []
  rw [List.length_map, List.append_nil] at h4
  rw [List.append_nil] at h2
  show (encodeAll host request rs >>= _) (.of []) = _
  rw [bind_ok h1]
  rw [List.nil_append, bind_ok h2]
  rw [List.nil_append, bind_ok h4]
  rfl

end Call

/-- a request with a sorted container of strings -/
def words : Schema := [.map .string (.seq .vector (.scalar .int)), .scalar .unsignedShort]

def count : Schema := [.string, .scalar .unsignedInt]

/-- a handler: the words in one string, and their number -/
def wordCount (r : Obj words) : Obj count :=
  let w : List (List Byte × List (BitVec 32)) := r.1
  (w.flatMap Prod.fst, BitVec.ofNat 32 w.length, ())

def wordRequest : Obj words :=
  (([([0x61], [1, 2]), ([0x61, 0x62], [])] : List (List Byte × List (BitVec 32))), (0x1234 : BitVec 16), ())

def noWords : Obj words := (([] : List (List Byte × List (BitVec 32))), (0 : BitVec 16), ())

def noCount : Obj count := (([] : List Byte), (0 : BitVec 32), ())

theorem session_faithful_words :
    session .little noWords noCount wordCount [wordRequest, wordRequest] .empty =
      .ok (([wordRequest, wordRequest], [wordCount wordRequest, wordCount wordRequest]), .empty) := by
  have h1 : wordRequest.Sendable words := by decide
  have h2 : (wordCount wordRequest).Sendable count := by decide
  apply session_faithful
  · decide
  · decide
  · exact ⟨rfl, trivial, trivial⟩
  · exact ⟨trivial, trivial, trivial⟩
  · simp [h1]
  · simp [h2]

/-! ## Decoding into a target that is not empty -/

/-- When decoding replaces the target. `operator>>` leaves exactly what was sent, and a call hands its handler exactly
the request that was sent, if and only if the old content of the target is `Replaced`: old elements of a sequence,
multiset or multimap stay in front of the new ones, and old elements of a set or map stay beside them. -/
theorem decode_replaces_iff (host : ByteOrder) :
    (∀ (t : Ty) (w v : t.Val) (q : List Byte), t.NoShort → t.Ordered w → t.Ordered v → t.Sized v →
      (t.get host w (.of (t.put host v ++ q)) = .ok (v, .of q) ↔ t.Replaced w v)) ∧
    ∀ (request response : Schema) (handler : Obj request → Obj response) (req r : Obj request) (q : List Byte),
      (∀ t ∈ request, t.NoShort) → req.All Ty.Ordered request → r.Sendable request →
      ((∃ s, call host req handler (.of (r.put host request ++ q)) = .ok (r, s)) ↔ req.All₂ Ty.Replaced request r) := by
  constructor
  · intro t w v q ht hw hv hs
    rw [(Ty.get_yields host host t ht w hv hs).eq_iff q]
    exact t.merge_eq_iff hw hv
  · intro request response handler req r q hms hreq hr
    rw [call_eq host handler hms req hr q, ← Obj.merge_eq_iff request hreq hr]
    constructor
    · rintro ⟨s, hs⟩
      injection hs with hs
      exact congrArg Prod.fst hs
    · intro h
      exact ⟨_, by rw [h]⟩

/-- a string field is replaced whatever it held -/
theorem decode_replaces_string :
    Ty.get .little .string ([0x78] : List Byte) (.of (Ty.put .little .string ([0x61] : List Byte) ++ [0x7a])) =
      .ok (([0x61] : List Byte), .of [0x7a]) :=
  ((decode_replaces_iff .little).1 .string [0x78] [0x61] [0x7a] trivial trivial trivial
    (by simp [Ty.Sized])).2 trivial

/-- the fields of `protocol_test`'s request `A` -/
def testA : Schema :=
  [.scalar .char, .scalar .unsignedInt, .scalar .unsignedShort, .scalar .unsignedLongLong,
    .array 3 (.scalar .unsignedChar), .seq .vector (.scalar .int)]

/-- `A a;` with the default member initialisers of the test -/
def defaultA : Obj testA :=
  ((0x63 : BitVec 8), (1 : BitVec 32), (2 : BitVec 16), (3 : BitVec 64), (![0x61, 0x72, 0] : Fin 3 → BitVec 8),
    ([1, 2, 3, 4, 5, 5, 6] : List (BitVec 32)), ())

/-- the fields of the test's response `B` -/
def testB : Schema := [.scalar .int, .scalar .char, .seq .vector (.scalar .int)]

/-- the test's handler: it answers `B{3, 'd', {7, 8, 9, 10, 10, 11}}` -/
def getB (_ : Obj testA) : Obj testB :=
  ((3 : BitVec 32), (0x64 : BitVec 8), ([7, 8, 9, 10, 10, 11] : List (BitVec 32)), ())

/-- The test's own exchange. A default `A` is encoded and the call decodes it into another default `A`: the handler is
handed a request whose `vec` holds the seven elements twice. -/
theorem call_keeps_default :
    ¬ ∃ s, call .little defaultA getB (.of (defaultA.put .little testA)) = .ok (defaultA, s) := by
  have h := call_eq .little getB (by decide) defaultA (r := defaultA) (by decide) []
  rw [List.append_nil] at h
  rintro ⟨s, hs⟩
  rw [hs] at h
  injection h with h
  have hvec : List.length (α := BitVec 32) defaultA.2.2.2.2.2.1 =
      List.length (α := BitVec 32) (Obj.merge testA defaultA defaultA).2.2.2.2.2.1 :=
    congrArg (fun o : Obj testA => List.length (α := BitVec 32) o.2.2.2.2.2.1) (congrArg Prod.fst h)
  exact absurd hvec (by decide)

end TinyRpc.Protocol
