/-
Loops over a generator (async/generator.hpp: generator_promise, generator_iterator, generator::begin and end).

A generator's body runs when a loop asks for a value: `begin` and `operator++` resume it, up to its next co_yield, its end
or an exception, and an exception comes out of that call. Body and loop take turns and may share anything, `τ`. The
iterator refers to the coroutine and has nothing of its own, so the place that a loop has come to is one of the generator.

A loop may leave early, by break, return or an exception, and another may start over the same generator. Resuming a
coroutine at its final suspension point is undefined.

`loops_iff`: loops over a generator do what its body does with the loops' bodies in the place of its co_yield. The values
go to the loops one after the other, none twice and none left out: a loop that is left has had its last value, and the next
one starts behind it. What a body throws is thrown in the loop that asked, once. It is undefined to start a loop after one
that went to the end or met the exception.
-/
import Mathlib.Tactic

namespace TinyRpc.Async.Generator

variable {σ τ β ε : Type}

/-- what a body runs into -/
inductive Event (σ β ε : Type)
  | co_yield (value : β) (s : σ)
  | co_return
  | unhandled_exception (e : ε)

/-- a body, from one suspension point to the next -/
abbrev Body (σ τ β ε : Type) := σ → τ → Event σ β ε × τ

/-- a coroutine with its promise; `point` is none at the final suspension point -/
structure Coroutine (σ β ε : Type) where
  point : Option σ
  /-- the object that `value_` points to -/
  value_ : Option β
  except_ : Option ε

def Coroutine.init (s : σ) : Coroutine σ β ε := ⟨some s, none, none⟩

def Coroutine.done (c : Coroutine σ β ε) : Bool := c.point.isNone

inductive Outcome (ε : Type)
  | returned
  | threw (e : ε)
  | undefined

/-- coroutine_handle::resume; `none` is undefined -/
def resume (run : Body σ τ β ε) (c : Coroutine σ β ε) (t : τ) : Option (Coroutine σ β ε × τ) :=
  match c.point with
  | none => none
  | some s =>
    match run s t with
    | (.co_yield v s', t') => some ({ c with point := some s', value_ := some v }, t')
    | (.co_return, t') => some ({ c with point := none }, t')
    | (.unhandled_exception e, t') => some ({ c with point := none, except_ := some e }, t')

/-- rethrow_if_exception -/
def rethrow (c : Coroutine σ β ε) : Outcome ε :=
  match c.except_ with
  | some e => .threw e
  | none => .returned

/-- generator_iterator::operator++ -/
def increment (run : Body σ τ β ε) (coroutine_ : Option (Coroutine σ β ε)) (t : τ) :
    Outcome ε × Option (Coroutine σ β ε) × τ :=
  match coroutine_ with
  | none => (.undefined, none, t)
  | some c =>
    match resume run c t with
    | none => (.undefined, some c, t)
    | some (c', t') => (if c'.done then rethrow c' else .returned, some c', t')

/-- generator::begin -/
def begin (run : Body σ τ β ε) (coroutine_ : Option (Coroutine σ β ε)) (t : τ) :
    Outcome ε × Option (Coroutine σ β ε) × τ :=
  match coroutine_ with
  | none => (.returned, none, t)
  | some c =>
    match resume run c t with
    | none => (.undefined, some c, t)
    | some (c', t') => (if c'.done then rethrow c' else .returned, some c', t')

/-- operator== with the sentinel -/
def atEnd (coroutine_ : Option (Coroutine σ β ε)) : Bool :=
  match coroutine_ with
  | none => true
  | some c => c.done

inductive Flow
  | next
  | leave

abbrev LoopBody (τ β : Type) := β → τ → Flow × τ

inductive End (ε : Type)
  | finished
  | left
  | threw (e : ε)
  | undefined

/-- the loop after `begin`, for no more than `n` values -/
def visit (run : Body σ τ β ε) (body : LoopBody τ β) :
    ℕ → Option (Coroutine σ β ε) → τ → Option (End ε × Option (Coroutine σ β ε) × τ)
  | 0, _, _ => none
  | n + 1, it, t =>
    if atEnd it then some (.finished, it, t)
    else
      match it.bind Coroutine.value_ with
      | none => some (.undefined, it, t)
      | some v =>
        match body v t with
        | (.leave, t) => some (.left, it, t)
        | (.next, t) =>
          match increment run it t with
          | (.undefined, it, t) => some (.undefined, it, t)
          | (.threw e, it, t) => some (.threw e, it, t)
          | (.returned, it, t) => visit run body n it t

/-- `for (auto&& v : generator) body` -/
def forLoop (run : Body σ τ β ε) (body : LoopBody τ β) (n : ℕ) (coroutine_ : Option (Coroutine σ β ε)) (t : τ) :
    Option (End ε × Option (Coroutine σ β ε) × τ) :=
  match begin run coroutine_ t with
  | (.undefined, it, t) => some (.undefined, it, t)
  | (.threw e, it, t) => some (.threw e, it, t)
  | (.returned, it, t) => visit run body n it t

/-- loops one after the other, up to the first that is undefined -/
def loops (run : Body σ τ β ε) (n : ℕ) : List (LoopBody τ β) → Option (Coroutine σ β ε) → τ → Option (List (End ε) × τ)
  | [], _, t => some ([], t)
  | body :: bodies, it, t =>
    match forLoop run body n it t with
    | none => none
    | some (.undefined, _, t) => some ([.undefined], t)
    | some (e, it, t) => (loops run n bodies it t).map fun (es, t) => (e :: es, t)

/-- the generator's body with a loop's in the place of co_yield, from one of its suspension points on -/
def inlined (run : Body σ τ β ε) (body : LoopBody τ β) : ℕ → σ → τ → Option (End ε × Option σ × τ)
  | 0, _, _ => none
  | n + 1, s, t =>
    match run s t with
    | (.co_yield v s, t) =>
      match body v t with
      | (.leave, t) => some (.left, some s, t)
      | (.next, t) => inlined run body n s t
    | (.co_return, t) => some (.finished, none, t)
    | (.unhandled_exception e, t) => some (.threw e, none, t)

/-- each loop's body in its turn; there is none after the end -/
def inlinedLoops (run : Body σ τ β ε) (n : ℕ) : List (LoopBody τ β) → Option σ → τ → Option (List (End ε) × τ)
  | [], _, t => some ([], t)
  | _ :: _, none, t => some ([.undefined], t)
  | body :: bodies, some s, t =>
    match inlined run body n s t with
    | none => none
    | some (e, s, t) => (inlinedLoops run n bodies s t).map fun (es, t) => (e :: es, t)

variable {run : Body σ τ β ε} {body : LoopBody τ β} {c : Coroutine σ β ε} {it : Option (Coroutine σ β ε)} {s : σ}
  {point : Option σ} {t t' : τ} {v : β} {e : End ε} {n : ℕ}

/-- the generator's coroutine is suspended there, and has kept no exception before its end -/
def Follows (it : Option (Coroutine σ β ε)) (point : Option σ) : Prop :=
  ∃ c, it = some c ∧ c.point = point ∧ (point ≠ none → c.except_ = none)

/-- the body's value is with the loop -/
def inlinedAt (run : Body σ τ β ε) (body : LoopBody τ β) (n : ℕ) (v : β) (s : σ) (t : τ) : Option (End ε × Option σ × τ) :=
  match body v t with
  | (.leave, t) => some (.left, some s, t)
  | (.next, t) => inlined run body n s t

theorem inlined_succ (n : ℕ) (s : σ) (t : τ) : inlined run body (n + 1) s t =
    match run s t with
    | (.co_yield v s, t) => inlinedAt run body n v s t
    | (.co_return, t) => some (.finished, none, t)
    | (.unhandled_exception e, t) => some (.threw e, none, t) := rfl

/-- what `begin` and `operator++` come back with from a suspended coroutine -/
theorem increment_suspended (hs : c.point = some s) (hc : c.except_ = none) (t : τ) :
    increment run (some c) t =
      match run s t with
      | (.co_yield v s, t) => (.returned, some { c with point := some s, value_ := some v }, t)
      | (.co_return, t) => (.returned, some { c with point := none }, t)
      | (.unhandled_exception e, t) => (.threw e, some { c with point := none, except_ := some e }, t) := by
  obtain ⟨point, value_, except_⟩ := c
  obtain rfl : point = some s := hs
  obtain rfl : except_ = none := hc
  unfold increment resume
  dsimp only
  rcases run s t with ⟨(⟨v, s'⟩ | _ | e), t'⟩
  · rfl
  · rfl
  · rfl

theorem begin_eq_increment (c : Coroutine σ β ε) (t : τ) : begin run (some c) t = increment run (some c) t := rfl

theorem visit_done (hdone : c.point = none) (n : ℕ) (t : τ) :
    visit run body (n + 1) (some c) t = some (.finished, some c, t) := by
  simp [visit, atEnd, Coroutine.done, hdone]

theorem visit_suspended (hs : c.point = some s) (hv : c.value_ = some v) (n : ℕ) (t : τ) :
    visit run body (n + 1) (some c) t =
      match body v t with
      | (.leave, t) => some (.left, some c, t)
      | (.next, t) =>
        match increment run (some c) t with
        | (.undefined, it, t) => some (.undefined, it, t)
        | (.threw e, it, t) => some (.threw e, it, t)
        | (.returned, it, t) => visit run body n it t := by
  simp [visit, atEnd, Coroutine.done, hs, hv]

theorem visit_of_inlined (hs : c.point = some s) (hc : c.except_ = none) (hv : c.value_ = some v)
    (h : inlinedAt run body n v s t = some (e, point, t')) :
    ∃ it, visit run body (n + 1) (some c) t = some (e, it, t') ∧ Follows it point := by
  induction n generalizing c s v t with
  | zero =>
    rw [visit_suspended hs hv]
    unfold inlinedAt at h
    rcases hbody : body v t with ⟨_ | _, t₁⟩ <;> rw [hbody] at h
    · cases h
    · cases h
      exact ⟨some c, rfl, c, rfl, hs, fun _ => hc⟩
  | succ n ih =>
    rw [visit_suspended hs hv]
    unfold inlinedAt at h
    rcases hbody : body v t with ⟨_ | _, t₁⟩ <;> rw [hbody] at h
    · dsimp only at h ⊢
      rw [increment_suspended hs hc]
      rw [inlined_succ] at h
      rcases hrun : run s t₁ with ⟨(⟨v', s'⟩ | _ | e'), t₂⟩ <;> rw [hrun] at h
      · exact ih rfl hc rfl h
      · cases h
        exact ⟨_, visit_done rfl n _, _, rfl, rfl, fun hne => absurd rfl hne⟩
      · cases h
        exact ⟨_, rfl, _, rfl, rfl, fun hne => absurd rfl hne⟩
    · cases h
      exact ⟨some c, rfl, c, rfl, hs, fun _ => hc⟩

theorem inlined_of_visit (hs : c.point = some s) (hc : c.except_ = none) (hv : c.value_ = some v)
    (h : visit run body n (some c) t = some (e, it, t')) :
    ∃ point, inlinedAt run body n v s t = some (e, point, t') ∧ Follows it point := by
  induction n generalizing c s v t with
  | zero => cases h
  | succ n ih =>
    rw [visit_suspended hs hv] at h
    unfold inlinedAt
    rcases hbody : body v t with ⟨_ | _, t₁⟩ <;> rw [hbody] at h
    · dsimp only at h ⊢
      rw [increment_suspended hs hc] at h
      rw [inlined_succ]
      rcases hrun : run s t₁ with ⟨(⟨v', s'⟩ | _ | e'), t₂⟩ <;> rw [hrun] at h
      · exact ih (c := { c with point := some s', value_ := some v' }) rfl hc rfl h
      · cases n with
        | zero => cases h
        | succ n =>
          dsimp only at h
          rw [visit_done rfl] at h
          cases h
          exact ⟨none, rfl, _, rfl, rfl, fun hne => absurd rfl hne⟩
      · cases h
        exact ⟨none, rfl, _, rfl, rfl, fun hne => absurd rfl hne⟩
    · cases h
      exact ⟨some s, rfl, c, rfl, hs, fun _ => hc⟩

theorem forLoop_of_inlined (hs : c.point = some s) (hc : c.except_ = none)
    (h : inlined run body n s t = some (e, point, t')) :
    ∃ it, forLoop run body n (some c) t = some (e, it, t') ∧ Follows it point := by
  cases n with
  | zero => cases h
  | succ n =>
    unfold forLoop
    rw [begin_eq_increment, increment_suspended hs hc]
    rw [inlined_succ] at h
    rcases hrun : run s t with ⟨(⟨v', s'⟩ | _ | e'), t₁⟩ <;> rw [hrun] at h
    · exact visit_of_inlined rfl hc rfl h
    · cases h
      exact ⟨_, visit_done rfl n _, _, rfl, rfl, fun hne => absurd rfl hne⟩
    · cases h
      exact ⟨_, rfl, _, rfl, rfl, fun hne => absurd rfl hne⟩

theorem inlined_of_forLoop (hs : c.point = some s) (hc : c.except_ = none)
    (h : forLoop run body n (some c) t = some (e, it, t')) :
    ∃ point, inlined run body (n + 1) s t = some (e, point, t') ∧ Follows it point := by
  unfold forLoop at h
  rw [begin_eq_increment, increment_suspended hs hc] at h
  rw [inlined_succ]
  rcases hrun : run s t with ⟨(⟨v', s'⟩ | _ | e'), t₁⟩ <;> rw [hrun] at h
  · exact inlined_of_visit (c := { c with point := some s', value_ := some v' }) rfl hc rfl h
  · cases n with
    | zero => cases h
    | succ n =>
      dsimp only at h
      rw [visit_done rfl] at h
      cases h
      exact ⟨none, rfl, _, rfl, rfl, fun hne => absurd rfl hne⟩
  · cases h
    exact ⟨none, rfl, _, rfl, rfl, fun hne => absurd rfl hne⟩

/-- a loop over a suspended coroutine is defined -/
theorem inlined_defined (h : inlined run body n s t = some (e, point, t')) : e ≠ .undefined := by
  induction n generalizing s t with
  | zero => cases h
  | succ n ih =>
    rw [inlined_succ] at h
    rcases hrun : run s t with ⟨(⟨v, s'⟩ | _ | e'), t₁⟩ <;> rw [hrun] at h
    · unfold inlinedAt at h
      dsimp only at h
      rcases hbody : body v t₁ with ⟨_ | _, t₂⟩ <;> rw [hbody] at h
      · exact ih h
      · cases h
        exact nofun
    · cases h
      exact nofun
    · cases h
      exact nofun

theorem forLoop_undefined (hdone : c.point = none) (body : LoopBody τ β) (n : ℕ) (t : τ) :
    forLoop run body n (some c) t = some (.undefined, some c, t) := by
  obtain ⟨point, value_, except_⟩ := c
  obtain rfl : point = none := hdone
  rfl

theorem loops_cons (hdefined : e ≠ .undefined) {bodies : List (LoopBody τ β)} {it' : Option (Coroutine σ β ε)}
    (h : forLoop run body n it t = some (e, it', t')) :
    loops run n (body :: bodies) it t = (loops run n bodies it' t').map fun (es, t) => (e :: es, t) := by
  rw [loops, h]
  cases e with
  | undefined => exact absurd rfl hdefined
  | finished => rfl
  | left => rfl
  | threw e => rfl

theorem loops_of_inlined {bodies : List (LoopBody τ β)} {r : List (End ε) × τ} (hit : Follows it point)
    (h : inlinedLoops run n bodies point t = some r) : loops run n bodies it t = some r := by
  induction bodies generalizing it point t r with
  | nil => exact h
  | cons body bodies ih =>
    obtain ⟨c, rfl, hpoint, hexcept⟩ := hit
    cases point with
    | none =>
      rw [loops, forLoop_undefined hpoint]
      exact h
    | some s =>
      rw [inlinedLoops] at h
      cases hone : inlined run body n s t with
      | none =>
        rw [hone] at h
        cases h
      | some r' =>
        obtain ⟨e, point', t'⟩ := r'
        rw [hone] at h
        obtain ⟨rest, hrest, rfl⟩ := Option.map_eq_some_iff.1 h
        obtain ⟨it', hloop, hit'⟩ := forLoop_of_inlined hpoint (hexcept nofun) hone
        rw [loops_cons (inlined_defined hone) hloop, ih hit' hrest, Option.map_some]

theorem inlined_of_loops {bodies : List (LoopBody τ β)} {r : List (End ε) × τ} (hit : Follows it point)
    (h : loops run n bodies it t = some r) : inlinedLoops run (n + 1) bodies point t = some r := by
  induction bodies generalizing it point t r with
  | nil => exact h
  | cons body bodies ih =>
    obtain ⟨c, rfl, hpoint, hexcept⟩ := hit
    cases point with
    | none =>
      rw [loops, forLoop_undefined hpoint] at h
      exact h
    | some s =>
      cases hone : forLoop run body n (some c) t with
      | none =>
        rw [loops, hone] at h
        cases h
      | some r' =>
        obtain ⟨e, it', t'⟩ := r'
        obtain ⟨point', hinlined, hit'⟩ := inlined_of_forLoop hpoint (hexcept nofun) hone
        rw [loops_cons (inlined_defined hinlined) hone] at h
        obtain ⟨rest, hrest, rfl⟩ := Option.map_eq_some_iff.1 h
        rw [inlinedLoops, hinlined]
        dsimp only
        rw [ih hit' hrest, Option.map_some]

/-- **Loops over a generator are its body with theirs in the place of co_yield.** Loops one after the other over a
new generator come to an end with a result exactly if that does. -/
theorem loops_iff (run : Body σ τ β ε) (bodies : List (LoopBody τ β)) (s : σ) (t : τ) (r : List (End ε) × τ) :
    (∃ n, loops run n bodies (some (.init s)) t = some r) ↔ ∃ n, inlinedLoops run n bodies (some s) t = some r := by
  have hinit : Follows (some (Coroutine.init (β := β) (ε := ε) s)) (some s) := ⟨_, rfl, rfl, fun _ => rfl⟩
  constructor
  · rintro ⟨n, h⟩
    exact ⟨n + 1, inlined_of_loops hinit h⟩
  · rintro ⟨n, h⟩
    exact ⟨n, loops_of_inlined hinit h⟩

/-- yields 0 to 3 -/
def counting : Body ℕ (List ℕ) ℕ ℕ := fun s t => if s < 4 then (.co_yield s (s + 1), t) else (.co_return, t)

-- the first loop leaves at 1, the second takes the rest
example : loops counting 9 [fun v t => (if v = 1 then .leave else .next, t ++ [v]), fun v t => (.next, t ++ [10 + v])]
    (some (.init 0)) [] = some ([.left, .finished], [0, 1, 12, 13]) := rfl

end TinyRpc.Async.Generator
