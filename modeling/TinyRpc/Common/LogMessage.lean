/-
Log statements (`LOG` and `LogMessage` in common/log.hpp).

`LOG(level) << a << b` makes a `LogMessage`, which writes the time, the place and the level, then inserts the operands, and
at the end of the statement the `LogMessage` adds a line break and writes all to the output of its level. The buffer is not
its own: there is one for each level and thread, and each statement starts at the front of it. So a statement in a function
that another's operand calls is made, and is over, while that other one is under way. Below is one thread; the buffer and
the insertions are those of `LogStream`. An operand that is infinite or not a number fails the assertion of dtoa_grisu2,
and the program is over.

- `statements_written`: while no statement is made at a level that is under way, the outputs get what they would get if
  every statement had a buffer of its own.
- `statement_ends`: in every run, what a statement writes is 1023 bytes at most, and its line break is only missing if it
  is 1023 bytes.
- `short_line_whole`: after every run in which no assertion has failed, a statement of up to 975 bytes without floating
  point writes its whole line, each operand as its formatter leaves it: the integer 0 as nothing. `shortFile_eq` says what
  is left of the path in it, `finite_goes_on` in which runs no assertion fails.
-/
import Mathlib.Tactic
import TinyRpc.Common.LogStream
import TinyRpc.Common.DtoaRead

namespace TinyRpc.Common.LogMessage

open TinyRpc.Core Function

/-! ## Model -/

/-- the levels that have a name -/
inductive Level
  | DEBUG
  | INFO
  | WARN
  | ERROR
  | FATAL
  deriving DecidableEq

/-- `LogLv<LEVEL>::id` -/
def Level.id : Level → List Byte
  | .DEBUG => "DEBUG".toList.map ascii
  | .INFO => "INFO".toList.map ascii
  | .WARN => "WARN".toList.map ascii
  | .ERROR => "ERROR".toList.map ascii
  | .FATAL => "FATAL".toList.map ascii

/-- a statement under way: its level and its `cur_` -/
structure Entry where
  level : Level
  cur : ℕ
  deriving DecidableEq

variable {Tm File : Type}

structure St (File : Type) where
  /-- `gLogBuf` -/
  gLogBuf : Level → Buf Byte
  /-- `LogLv<LEVEL>::output`, none is null -/
  output : Level → Option File
  /-- the statements under way, the innermost first -/
  entries : List Entry
  /-- each fwrite, in order -/
  written : List (Option File × List Byte)
  /-- an assertion has failed -/
  aborted : Bool

inductive Op (Tm File : Type)
  /-- a statement begins, with the time, `__FILE__` and the line -/
  | LOG (level : Level) (ts : Tm) (path : List Byte) (line : BitVec 32)
  /-- the innermost one inserts an operand -/
  | insert (i : Insertion Tm)
  /-- it ends -/
  | finish
  /-- the program assigns an output -/
  | assign (level : Level) (output : Option File)

/-- past_last_slash; a path up to its NUL -/
def past_last_slash : List Byte → List Byte → List Byte
  | [], last_slash => last_slash
  | c :: str, last_slash => if c = ascii '/' then past_last_slash str str else past_last_slash str last_slash

/-- `__SHORT_FILE__` -/
def shortFile (path : List Byte) : List Byte := past_last_slash path path

/-- what the constructor inserts -/
def header (level : Level) (ts : Tm) (file : List Byte) (line : BitVec 32) : List (Item Tm) :=
  [.tm ts, .cstr (some file), .char (ascii ':'), .integer .w32 true line, .char (ascii ' '), .cstr (some level.id),
    .char (ascii ' ')]

section

variable (fuel : ℕ) (oob : ℕ → ℕ) (lib : Strftime Tm)

namespace St

def insert (s : St File) (i : Insertion Tm) : St File :=
  match s.entries with
  | [] => s
  | e :: es =>
    match Common.insert fuel oob lib ⟨s.gLogBuf e.level, e.cur⟩ i with
    | some b => { s with gLogBuf := update s.gLogBuf e.level b.data, entries := ⟨e.level, b.cur⟩ :: es }
    | none => { s with aborted := true }

/-- the constructor; `stdout` is the output of the level GLOBAL -/
def logMessage (stdout : File) (s : St File) (level : Level) (ts : Tm) (file : List Byte) (line : BitVec 32) : St File :=
  let s := { s with
    output := update s.output level (some ((s.output level).getD stdout))
    entries := ⟨level, 0⟩ :: s.entries }
  ((header level ts file line).map .item).foldl (insert fuel oob lib) s

/-- flush, and the end of the innermost statement -/
def flush (s : St File) : St File :=
  match s.entries with
  | [] => s
  | e :: es =>
    { s with
      entries := es
      written := s.written ++ [(s.output e.level, (LogStreamBuffer.mk (s.gLogBuf e.level) e.cur).flush)] }

end St

/-- nothing happens once an assertion has failed -/
def step (stdout : File) (s : St File) (op : Op Tm File) : St File :=
  if s.aborted then s
  else
    match op with
    | .LOG level ts path line => s.logMessage fuel oob lib stdout level ts (shortFile path) line
    | .insert i => s.insert fuel oob lib i
    | .finish => (s.insert fuel oob lib (.item (.char (ascii '\n')))).flush
    | .assign level output => { s with output := update s.output level output }

end

/-- on memory that holds anything -/
def init (mem : Level → ℕ → Byte) : St File :=
  { gLogBuf := fun level => ⟨mem level, 0⟩, output := fun _ => none, entries := [], written := [], aborted := false }

/-- no statement at this level is under way -/
def Apart (s : St File) : Op Tm File → Prop
  | .LOG level .. => ∀ e ∈ s.entries, e.level ≠ level
  | _ => True

instance Apart.decidable (s : St File) : (o : Op Tm File) → Decidable (Apart s o)
  | .LOG level .. => inferInstanceAs (Decidable (∀ e ∈ s.entries, e.level ≠ level))
  | .insert _ => inferInstanceAs (Decidable True)
  | .finish => inferInstanceAs (Decidable True)
  | .assign .. => inferInstanceAs (Decidable True)

/-! ## Statements with a buffer of their own -/

/-- what an item adds after `cur` bytes -/
def itemAdded (lib : Strftime Tm) (cur : ℕ) : Item Tm → List Byte
  | .ptr v => if 8 < kSmallBufferSize - cur then ((hexDigits v.toNat).take (kSmallBufferSize - cur - 1)).reverse else []
  | .short v => if 48 < kSmallBufferSize - cur then (Item.short v).text lib else []
  | .unsignedShort v => if 48 < kSmallBufferSize - cur then (Item.unsignedShort v).text lib else []
  | .integer w signed v => if 48 < kSmallBufferSize - cur then (Item.integer w signed v).text lib else []
  | i => if (i.text lib).length < kSmallBufferSize - cur then i.text lib else []

section

variable (fuel : ℕ) (oob : ℕ → ℕ) (lib : Strftime Tm)

/-- what dtoa_grisu2 leaves in memory without end, as far as it counts it -/
def counted (v : BitVec 64) : Option (List Byte) :=
  (dtoaGrisu2 fuel oob ⟨fun _ => 0, 0⟩ (BitVec.allOnes 64) v).map fun r => r.1.read 0 r.2

def doubleAdded (cur : ℕ) (v : BitVec 64) : Option (List Byte) :=
  if 48 < kSmallBufferSize - cur then counted fuel oob v else some []

/-- what an insertion adds after `cur` bytes; `none` is a failed assertion -/
def added (cur : ℕ) : Insertion Tm → Option (List Byte)
  | .item i => some (itemAdded lib cur i)
  | .float v => doubleAdded fuel oob cur (Binary32.toBinary64 v)
  | .double v => doubleAdded fuel oob cur v

structure Own (File : Type) where
  output : Level → Option File
  entries : List (Level × List Byte)
  written : List (Option File × List Byte)
  aborted : Bool

namespace Own

def insert (s : Own File) (i : Insertion Tm) : Own File :=
  match s.entries with
  | [] => s
  | (level, text) :: es =>
    match added fuel oob lib text.length i with
    | some t => { s with entries := (level, text ++ t) :: es }
    | none => { s with aborted := true }

def flush (s : Own File) : Own File :=
  match s.entries with
  | [] => s
  | (level, text) :: es => { s with entries := es, written := s.written ++ [(s.output level, text)] }

def step (stdout : File) (s : Own File) (op : Op Tm File) : Own File :=
  if s.aborted then s
  else
    match op with
    | .LOG level ts path line =>
      let s := { s with
        output := update s.output level (some ((s.output level).getD stdout))
        entries := (level, []) :: s.entries }
      ((header level ts (shortFile path) line).map .item).foldl (insert fuel oob lib) s
    | .insert i => s.insert fuel oob lib i
    | .finish => (s.insert fuel oob lib (.item (.char (ascii '\n')))).flush
    | .assign level output => { s with output := update s.output level output }

def init : Own File := { output := fun _ => none, entries := [], written := [], aborted := false }

end Own

end

/-! ## Insertions -/

section

variable {b : LogStreamBuffer}

theorem room_eq (h : b.Inside) : b.room.toNat = kSmallBufferSize - b.cur := by
  have hroom := h.room_toNat
  omega

theorem append_added (h : b.Inside) (text : List Byte) :
    Adds b (b.append text) (if text.length < kSmallBufferSize - b.cur then text else []) := by
  rw [← room_eq h]
  split_ifs with hfits
  · exact append_adds hfits
  · rw [LogStreamBuffer.append, if_neg hfits]
    exact Adds.refl b

theorem formatInteger_added (h : b.Inside) (w : Width) (signed : Bool) (v : BitVec w.bits) :
    Adds b (formatInteger b w signed v)
      (if 48 < kSmallBufferSize - b.cur then unlimited fun dst avail => itoa w signed dst avail v else []) := by
  have hroom : b.avail > kMaxNumericSize ↔ 48 < kSmallBufferSize - b.cur := by
    rw [h.avail_eq.1, room_eq h, kMaxNumericSize]
    exact Nat.cast_lt
  rw [formatInteger]
  by_cases h48 : 48 < kSmallBufferSize - b.cur
  · have hfull := (itoa_backwards w signed ⟨fun _ => 0, 0⟩ (BitVec.allOnes 64) v (by decide)).text
    rw [written_of_room w signed v (by decide),
      ← written_of_room w signed v (show 22 ≤ b.room.toNat by rw [room_eq h]; omega)] at hfull
    rw [if_pos h48, if_pos (hroom.2 h48), unlimited, hfull]
    exact backwards_adds b (itoa_backwards w signed _ b.room v h.room_pos)
  · rw [if_neg h48, if_neg (mt hroom.1 h48)]
    exact Adds.refl b

theorem strftime_added (h : b.Inside) (lib : Strftime Tm) (t : Tm) : Adds b (b.appendfx (lib.call t))
    (if (lib.text t).length < kSmallBufferSize - b.cur then lib.text t else []) := by
  rw [← room_eq h]
  unfold LogStreamBuffer.appendfx Strftime.call
  split_ifs with hfits
  · refine advance_adds b ?_ rfl
    rw [Buf.pokes_append, Buf.read_pokes_below (by omega), Buf.read_pokes]
  · exact advance_adds b rfl rfl

theorem insertItem_added (lib : Strftime Tm) (h : b.Inside) (i : Item Tm) :
    Adds b (insertItem lib b i) (itemAdded lib b.cur i) := by
  cases i with
  | cstr str => cases str <;> exact append_added h _
  | bool v => exact append_added h _
  | short v => exact formatInteger_added h .w32 true _
  | unsignedShort v => exact formatInteger_added h .w32 false _
  | integer w signed v => exact formatInteger_added h w signed v
  | ptr v =>
    rw [itemAdded, ← room_eq h]
    have hguard : 8 < b.avail ↔ 8 < b.room.toNat := by
      rw [h.avail_eq.1]
      exact Nat.cast_lt
    split_ifs with hroom
    · exact ptr_adds lib h v (hguard.2 hroom)
    · rw [ptr_dropped lib h v (not_lt.1 (mt hguard.1 hroom))]
      exact Adds.refl b
  | char v => exact append_added h _
  | string v => exact append_added h _
  | tm t => exact strftime_added h lib t

variable {fuel : ℕ} (oob : ℕ → ℕ)

/-- the memory behind `cur_` does not show in what is counted of a double -/
theorem counted_eq (hfuel : 64 ≤ fuel) (buffer : Buf Byte) (maxlen : BitVec 64) {v : BitVec 64} (hv : Binary64.Finite v) :
    ∃ b n, dtoaGrisu2 fuel oob buffer maxlen v = some (b, n) ∧ counted fuel oob v = some (b.read 0 n) := by
  obtain ⟨b, n, hrun, hread⟩ := dtoaGrisu2_counted oob buffer maxlen hfuel hv
  obtain ⟨b', n', hrun', hread'⟩ := dtoaGrisu2_counted oob ⟨fun _ => 0, 0⟩ (BitVec.allOnes 64) hfuel hv
  have hsame := @dtoaGrisu2_returned fuel oob buffer maxlen v ⟨fun _ => 0, 0⟩ (BitVec.allOnes 64)
  rw [hrun, hrun'] at hsame
  obtain rfl : n = n' := Option.some.inj hsame
  refine ⟨b, n, hrun, ?_⟩
  rw [counted, hrun', hread, ← hread']
  rfl

theorem insertDouble_added (hfuel : 64 ≤ fuel) (h : b.Inside) (v : BitVec 64) :
    Option.Rel (fun t text => t.Inside ∧ Adds b t text) (insertDouble fuel oob b v) (doubleAdded fuel oob b.cur v) := by
  have hroom : b.avail > kMaxNumericSize ↔ 48 < kSmallBufferSize - b.cur := by
    rw [h.avail_eq.1, room_eq h, kMaxNumericSize]
    exact Nat.cast_lt
  by_cases h48 : 48 < kSmallBufferSize - b.cur
  · by_cases hv : Binary64.Finite v
    · obtain ⟨buf, n, hrun, hcounted⟩ := counted_eq oob hfuel (b.data.view b.cur) b.room hv
      obtain ⟨t, hinsert, hinside⟩ := insertDouble_inside oob hfuel h hv
      rw [hinsert, doubleAdded, if_pos h48, hcounted]
      rw [insertDouble, if_pos (hroom.2 h48), hrun] at hinsert
      obtain rfl := Option.some.inj hinsert
      refine .some ⟨hinside, advance_adds b ?_ ?_⟩ <;> rw [Buf.length_read]
    · -- both fail the assertion
      have hfails : ∀ buffer maxlen, dtoaGrisu2 fuel oob buffer maxlen v = none := by
        intro buffer maxlen
        rw [dtoaGrisu2, if_pos]
        rw [Binary64.finite_iff, not_and_or, Bool.not_eq_false, Bool.not_eq_false] at hv
        rwa [Bool.or_eq_true]
      rw [insertDouble, if_pos (hroom.2 h48), hfails, doubleAdded, if_pos h48, counted, hfails]
      exact .none
  · rw [insertDouble, if_neg (mt hroom.1 h48), doubleAdded, if_neg h48]
    exact .some ⟨h, Adds.refl b⟩

/-- what an insertion adds depends on the memory in no way, and neither does whether it returns -/
theorem insert_added (lib : Strftime Tm) (hfuel : 64 ≤ fuel) (h : b.Inside) (i : Insertion Tm) :
    Option.Rel (fun t text => t.Inside ∧ Adds b t text) (Common.insert fuel oob lib b i) (added fuel oob lib b.cur i) := by
  cases i with
  | item i => exact .some ⟨insertItem_inside lib h i, insertItem_added lib h i⟩
  | float v => exact insertDouble_added oob hfuel h _
  | double v => exact insertDouble_added oob hfuel h v

end

/-! ## One step -/

theorem start_lt : 0 < kSmallBufferSize := by decide

/-- the memory of a statement holds its text -/
def Holds (s : St File) (e : Entry) (p : Level × List Byte) : Prop :=
  p.1 = e.level ∧ e.cur < kSmallBufferSize ∧ e.cur = p.2.length ∧
    (LogStreamBuffer.mk (s.gLogBuf e.level) e.cur).flush = p.2

structure Agrees (s : St File) (o : Own File) : Prop where
  output : o.output = s.output
  written : o.written = s.written
  aborted : o.aborted = s.aborted
  entries : List.Forall₂ (Holds s) s.entries o.entries
  levels : (s.entries.map Entry.level).Nodup
  hi_le : ∀ level, (s.gLogBuf level).hi ≤ kSmallBufferSize

variable {s : St File} {o : Own File} {stdout : File} {fuel : ℕ} (oob : ℕ → ℕ) (lib : Strftime Tm)

theorem holds_congr {t : St File} {es : List Entry} {ps : List (Level × List Byte)}
    (h : ∀ e ∈ es, t.gLogBuf e.level = s.gLogBuf e.level) (hholds : List.Forall₂ (Holds s) es ps) :
    List.Forall₂ (Holds t) es ps := by
  induction hholds with
  | nil => exact .nil
  | @cons e p es ps he _ ih =>
    refine .cons ?_ (ih fun e' he' => h e' (List.mem_cons_of_mem _ he'))
    rwa [Holds, h e (List.mem_cons_self ..)]

/-- the buffer of one level is written, and stays inside -/
theorem hi_le_update {gLogBuf : Level → Buf Byte} (h : ∀ level, (gLogBuf level).hi ≤ kSmallBufferSize) {level : Level}
    {b : LogStreamBuffer} (hb : b.Inside) : ∀ l, (update gLogBuf level b.data l).hi ≤ kSmallBufferSize := by
  intro l
  by_cases hl : l = level
  · subst hl
    rw [update_self]
    exact hb.hi_le
  · rw [update_of_ne hl]
    exact h l

theorem Agrees.insert (hfuel : 64 ≤ fuel) (h : Agrees s o) (i : Insertion Tm) :
    Agrees (s.insert fuel oob lib i) (o.insert fuel oob lib i) := by
  obtain ⟨gLogBuf, output, entries, written, aborted⟩ := s
  obtain ⟨output', entries', written', aborted'⟩ := o
  obtain ⟨houtput, hwritten, haborted, hentries, hlevels, hhi⟩ := h
  cases hentries with
  | nil => exact ⟨houtput, hwritten, haborted, .nil, hlevels, hhi⟩
  | @cons e p es ps he hes =>
    obtain ⟨level, text⟩ := p
    obtain ⟨rfl, hcur, hlen, hflush⟩ := he
    have hlen : e.cur = text.length := hlen
    have hflush : (LogStreamBuffer.mk (gLogBuf e.level) e.cur).flush = text := hflush
    have hinside : (LogStreamBuffer.mk (gLogBuf e.level) e.cur).Inside := ⟨hhi e.level, hcur⟩
    have hadded := insert_added oob lib hfuel hinside i
    rw [St.insert, Own.insert]
    dsimp only at hadded ⊢
    rw [← hlen]
    generalize Common.insert fuel oob lib ⟨gLogBuf e.level, e.cur⟩ i = made at hadded ⊢
    generalize added fuel oob lib e.cur i = more at hadded ⊢
    cases hadded with
    | none => exact ⟨houtput, hwritten, rfl, .cons ⟨rfl, hcur, hlen, hflush⟩ hes, hlevels, hhi⟩
    | @some t more hadded =>
      obtain ⟨hinside', hadds⟩ := hadded
      obtain ⟨hnot, hnodup⟩ := List.nodup_cons.1 hlevels
      refine ⟨houtput, hwritten, haborted, .cons ⟨rfl, hinside'.cur_lt, ?_, ?_⟩ ?_, hlevels, hi_le_update hhi hinside'⟩
      · show t.cur = (text ++ more).length
        rw [hadds.cur, List.length_append, ← hlen]
      · show (LogStreamBuffer.mk (update gLogBuf e.level _ e.level) _).flush = text ++ more
        rw [update_self, ← hflush]
        exact hadds.flush
      · refine holds_congr (fun e' he' => ?_) hes
        refine update_of_ne (fun heq => hnot ?_) _ _
        rw [← heq]
        exact List.mem_map_of_mem he'

theorem Agrees.insertAll (hfuel : 64 ≤ fuel) (h : Agrees s o) (is : List (Insertion Tm)) :
    Agrees (is.foldl (St.insert fuel oob lib) s) (is.foldl (Own.insert fuel oob lib) o) := by
  induction is generalizing s o with
  | nil => exact h
  | cons i is ih => exact ih (h.insert oob lib hfuel i)

theorem Agrees.flush (h : Agrees s o) : Agrees s.flush o.flush := by
  obtain ⟨gLogBuf, output, entries, written, aborted⟩ := s
  obtain ⟨output', entries', written', aborted'⟩ := o
  obtain ⟨houtput, hwritten, haborted, hentries, hlevels, hhi⟩ := h
  cases hentries with
  | nil => exact ⟨houtput, hwritten, haborted, .nil, hlevels, hhi⟩
  | @cons e p es ps he hes =>
    obtain ⟨level, text⟩ := p
    obtain ⟨rfl, -, -, hflush⟩ := he
    refine ⟨houtput, ?_, haborted, hes, (List.nodup_cons.1 hlevels).2, hhi⟩
    show written' ++ [(output' e.level, text)] = written ++ [(output e.level, _)]
    rw [show written' = written from hwritten, show output' = output from houtput, hflush]

theorem agrees_step (hfuel : 64 ≤ fuel) (s : St File) (o : Own File) (op : Op Tm File) (h : Agrees s o)
    (hop : Apart s op) : Agrees (step fuel oob lib stdout s op) (Own.step fuel oob lib stdout o op) := by
  unfold step Own.step
  by_cases haborted : s.aborted = true
  · rw [if_pos haborted, if_pos (h.aborted.trans haborted)]
    exact h
  rw [if_neg haborted, if_neg (by rwa [h.aborted])]
  cases op with
  | LOG level ts file line =>
    have hmade : Agrees
        { s with
          output := update s.output level (some ((s.output level).getD stdout))
          entries := ⟨level, 0⟩ :: s.entries }
        { o with
          output := update o.output level (some ((o.output level).getD stdout))
          entries := (level, []) :: o.entries } := by
      refine ⟨?_, h.written, h.aborted, .cons ⟨rfl, start_lt, rfl, rfl⟩ h.entries, List.nodup_cons.2 ⟨?_, h.levels⟩,
        h.hi_le⟩
      · rw [h.output]
      · intro hmem
        obtain ⟨e, he, hlevel⟩ := List.mem_map.1 hmem
        exact hop e he hlevel
    exact hmade.insertAll oob lib hfuel _
  | insert i => exact h.insert oob lib hfuel i
  | finish => exact (h.insert oob lib hfuel _).flush
  | assign level output =>
    refine ⟨?_, h.written, h.aborted, h.entries, h.levels, h.hi_le⟩
    show update o.output level output = update s.output level output
    rw [h.output]

theorem init_agrees (mem : Level → ℕ → Byte) : Agrees (init mem : St File) Own.init where
  output := rfl
  written := rfl
  aborted := rfl
  entries := .nil
  levels := List.nodup_nil
  hi_le _ := Nat.zero_le _

/-- **Statements do not mix.** In every run that makes no statement at a level that is under way, each output gets what
it would get if each statement had its own buffer, in the order in which the statements end. -/
theorem statements_written (hfuel : 64 ≤ fuel) (stdout : File) (mem : Level → ℕ → Byte) {ops : List (Op Tm File)}
    (hops : Along (step fuel oob lib stdout) Apart (init mem) ops) :
    (run (step fuel oob lib stdout) (init mem) ops).written = (run (Own.step fuel oob lib stdout) .init ops).written :=
  (run_sim (agrees_step oob lib hfuel) (init_agrees mem) hops).written.symm

/-- a statement within another, each with a double, and at the end one that is not a number -/
theorem statements_written_nested :
    (run (step 64 (fun _ => 0) .given ()) (init fun _ _ => 0xff)
        [.LOG .INFO [] [ascii 'f'] 1, .insert (.double 0x3FF8000000000000),
          .LOG .DEBUG [] [ascii 'g'] 2, .insert (.float 0x3F800000), .finish, .insert (.item (.bool false)), .finish,
          .LOG .WARN [] [ascii 'h'] 3, .insert (.double 0x7FF8000000000000), .finish]).written =
      (run (Own.step 64 (fun _ => 0) .given ()) .init
        [.LOG .INFO [] [ascii 'f'] 1, .insert (.double 0x3FF8000000000000),
          .LOG .DEBUG [] [ascii 'g'] 2, .insert (.float 0x3F800000), .finish, .insert (.item (.bool false)), .finish,
          .LOG .WARN [] [ascii 'h'] 3, .insert (.double 0x7FF8000000000000), .finish]).written :=
  statements_written (fun _ => 0) .given (Nat.le_refl 64) () (fun _ _ => 0xff) (by decide +kernel)

/-! ## The ends of the lines -/

structure Bounded (s : St File) : Prop where
  hi_le : ∀ level, (s.gLogBuf level).hi ≤ kSmallBufferSize
  cur_lt : ∀ e ∈ s.entries, e.cur < kSmallBufferSize

/-- a line break, or no room for one -/
def Ended (text : List Byte) : Prop := text.length ≤ 1023 ∧ (text.length = 1023 ∨ text.getLast? = some (ascii '\n'))

theorem Bounded.insert (hfuel : 64 ≤ fuel) (h : Bounded s) (i : Insertion Tm) :
    Bounded (s.insert fuel oob lib i) ∧ (s.insert fuel oob lib i).written = s.written := by
  obtain ⟨gLogBuf, output, entries, written, aborted⟩ := s
  obtain ⟨hhi, hcur⟩ := h
  cases entries with
  | nil => exact ⟨⟨hhi, hcur⟩, rfl⟩
  | cons e es =>
    obtain ⟨hlt, hcur'⟩ := List.forall_mem_cons.1 hcur
    have hadded := insert_added oob lib (b := ⟨gLogBuf e.level, e.cur⟩) hfuel ⟨hhi e.level, hlt⟩ i
    rw [St.insert]
    dsimp only at hadded ⊢
    generalize Common.insert fuel oob lib ⟨gLogBuf e.level, e.cur⟩ i = made at hadded ⊢
    generalize added fuel oob lib e.cur i = more at hadded
    cases hadded with
    | none => exact ⟨⟨hhi, hcur⟩, rfl⟩
    | some hadded => exact ⟨⟨hi_le_update hhi hadded.1, List.forall_mem_cons.2 ⟨hadded.1.cur_lt, hcur'⟩⟩, rfl⟩

theorem Bounded.insertAll (hfuel : 64 ≤ fuel) (h : Bounded s) (is : List (Insertion Tm)) :
    Bounded (is.foldl (St.insert fuel oob lib) s) ∧ (is.foldl (St.insert fuel oob lib) s).written = s.written := by
  induction is generalizing s with
  | nil => exact ⟨h, rfl⟩
  | cons i is ih =>
    obtain ⟨hinsert, hwritten⟩ := h.insert oob lib hfuel i
    obtain ⟨hrest, hsame⟩ := ih hinsert
    exact ⟨hrest, hsame.trans hwritten⟩

theorem ended_of_append {b : LogStreamBuffer} (h : b.Inside) : Ended (b.append [ascii '\n']).flush := by
  have hlen : ∀ b : LogStreamBuffer, b.flush.length = b.cur := fun b => Buf.length_read ..
  have hadds := append_added h [ascii '\n']
  have hlt := (h.append [ascii '\n']).cur_lt
  refine ⟨by rw [hlen]; exact Nat.le_of_lt_succ hlt, ?_⟩
  rw [hadds.flush]
  split_ifs with hroom
  · exact Or.inr (List.getLast?_concat)
  · left
    have hcur := h.cur_lt
    rw [List.length_singleton, not_lt, kSmallBufferSize] at hroom
    rw [kSmallBufferSize] at hcur
    rw [List.append_nil, hlen]
    omega

theorem bounded_step (hfuel : 64 ≤ fuel) (stdout : File) (s : St File) (op : Op Tm File)
    (hs : Bounded s ∧ ∀ w ∈ s.written, Ended w.2) :
    Bounded (step fuel oob lib stdout s op) ∧ ∀ w ∈ (step fuel oob lib stdout s op).written, Ended w.2 := by
  obtain ⟨h, hended⟩ := hs
  unfold step
  split_ifs
  · exact ⟨h, hended⟩
  cases op with
  | LOG level ts path line =>
    have hmade : Bounded { s with
        output := update s.output level (some ((s.output level).getD stdout))
        entries := ⟨level, 0⟩ :: s.entries } := ⟨h.hi_le, List.forall_mem_cons.2 ⟨start_lt, h.cur_lt⟩⟩
    obtain ⟨hinsert, hwritten⟩ := hmade.insertAll oob lib hfuel ((header level ts (shortFile path) line).map .item)
    refine ⟨hinsert, fun w hw => hended w ?_⟩
    exact hwritten ▸ hw
  | insert i =>
    obtain ⟨hinsert, hwritten⟩ := h.insert oob lib hfuel i
    exact ⟨hinsert, fun w hw => hended w (hwritten ▸ hw)⟩
  | finish =>
    obtain ⟨hinsert, hwritten⟩ := h.insert oob lib hfuel (.item (.char (ascii '\n')))
    obtain ⟨gLogBuf, output, entries, written, aborted⟩ := s
    cases entries with
    | nil => exact ⟨h, hended⟩
    | cons e es =>
      refine ⟨⟨hinsert.hi_le, (List.forall_mem_cons.1 hinsert.cur_lt).2⟩, ?_⟩
      intro w hw
      rcases List.mem_append.1 hw with hw | hw
      · exact hended w hw
      · obtain rfl := List.mem_singleton.1 hw
        have hinside : (LogStreamBuffer.mk (gLogBuf e.level) e.cur).Inside :=
          ⟨h.hi_le e.level, h.cur_lt e (List.mem_cons_self ..)⟩
        have hended := ended_of_append hinside
        show Ended (LogStreamBuffer.mk (update gLogBuf e.level _ e.level) _).flush
        rw [update_self]
        exact hended
  | assign level output => exact ⟨⟨h.hi_le, h.cur_lt⟩, hended⟩

theorem bounded_run (hfuel : 64 ≤ fuel) (stdout : File) (mem : Level → ℕ → Byte) (ops : List (Op Tm File)) :
    Bounded (run (step fuel oob lib stdout) (init mem) ops) ∧
      ∀ w ∈ (run (step fuel oob lib stdout) (init mem) ops).written, Ended w.2 :=
  run_of_inv (bounded_step oob lib hfuel stdout) ⟨⟨fun _ => Nat.zero_le _, List.forall_mem_nil _⟩, List.forall_mem_nil _⟩ ops

/-- In every run, nested or not, what a statement writes is 1023 bytes at most, and ends its line unless it is 1023 bytes
long: the next statement then goes on in the same line. -/
theorem statement_ends (hfuel : 64 ≤ fuel) (stdout : File) (mem : Level → ℕ → Byte) (ops : List (Op Tm File)) :
    ∀ w ∈ (run (step fuel oob lib stdout) (init mem) ops).written, Ended w.2 :=
  (bounded_run oob lib hfuel stdout mem ops).2

/-- a statement with 1.5, within another at the same level -/
theorem statement_ends_nested : Ended ("g:27 INFO 1.\n".toList.map ascii) :=
  statement_ends (fun _ => 0) .given (Nat.le_refl 64) () (fun _ _ => 0) [.LOG .INFO [] [ascii 'f'] 1,
    .LOG .INFO [] [ascii 'g'] 27, .insert (.double 0x3FF8000000000000), .finish, .finish]
    (some (), "g:27 INFO 1.\n".toList.map ascii) (by decide +kernel)

/-! ## A whole line -/

theorem past_last_slash_eq (str last_slash : List Byte) : ascii '/' ∉ str ∧ past_last_slash str last_slash = last_slash ∨
    ∃ dir file, str = dir ++ ascii '/' :: file ∧ ascii '/' ∉ file ∧ past_last_slash str last_slash = file := by
  induction str generalizing last_slash with
  | nil => exact Or.inl ⟨List.not_mem_nil, rfl⟩
  | cons c str ih =>
    by_cases hc : c = ascii '/'
    · subst hc
      rw [past_last_slash, if_pos rfl]
      rcases ih str with ⟨hnot, heq⟩ | ⟨dir, file, hstr, hnot, heq⟩
      · exact Or.inr ⟨[], str, rfl, hnot, heq⟩
      · exact Or.inr ⟨ascii '/' :: dir, file, by rw [hstr]; rfl, hnot, heq⟩
    · rw [past_last_slash, if_neg hc]
      rcases ih last_slash with ⟨hnot, heq⟩ | ⟨dir, file, hstr, hnot, heq⟩
      · exact Or.inl ⟨List.not_mem_cons_of_ne_of_not_mem (Ne.symm hc) hnot, heq⟩
      · exact Or.inr ⟨c :: dir, file, by rw [hstr]; rfl, hnot, heq⟩

/-- the file without its directories -/
theorem shortFile_eq (path : List Byte) :
    ascii '/' ∉ shortFile path ∧ (path = shortFile path ∨ ∃ dir, path = dir ++ ascii '/' :: shortFile path) := by
  rcases past_last_slash_eq path path with ⟨hnot, heq⟩ | ⟨dir, file, hpath, hnot, heq⟩
  · rw [shortFile, heq]
    exact ⟨hnot, Or.inl rfl⟩
  · rw [shortFile, heq]
    exact ⟨hnot, Or.inr ⟨dir, hpath⟩⟩

/-- `LOG(level) << operands` and nothing between; no operand is a floating-point number -/
def statement (level : Level) (ts : Tm) (path : List Byte) (line : BitVec 32) (operands : List (Item Tm)) :
    List (Op Tm File) :=
  .LOG level ts path line :: ((operands.map fun i => .insert (.item i)) ++ [.finish])

/-- what it inserts -/
def lineItems (level : Level) (ts : Tm) (file : List Byte) (line : BitVec 32) (operands : List (Item Tm)) : List (Item Tm) :=
  header level ts file line ++ operands ++ [.char (ascii '\n')]

/-- up to 975 bytes every kind of operand finds the room that it asks for -/
theorem itemAdded_eq_text {cur : ℕ} {i : Item Tm} (h : cur + (i.text lib).length ≤ 975) :
    itemAdded lib cur i = i.text lib := by
  have hroom : kSmallBufferSize = 1024 := rfl
  cases i with
  | ptr v =>
    have htext : (Item.ptr v : Item Tm).text lib = (hexDigits v.toNat).reverse := unlimited_ptrtoa v
    rw [htext, List.length_reverse] at h
    rw [htext, itemAdded, if_pos (by omega), List.take_of_length_le (by omega)]
  | short v => exact if_pos (by omega)
  | unsignedShort v => exact if_pos (by omega)
  | integer w signed v => exact if_pos (by omega)
  | cstr str => exact if_pos (by omega)
  | bool v => exact if_pos (by omega)
  | char v => exact if_pos (by omega)
  | string v => exact if_pos (by omega)
  | tm t => exact if_pos (by omega)

theorem foldl_adds {b : LogStreamBuffer} (hb : b.Inside) {is : List (Item Tm)}
    (h : b.cur + (is.flatMap (Item.text lib)).length ≤ 975) :
    Adds b (is.foldl (insertItem lib) b) (is.flatMap (Item.text lib)) := by
  induction is generalizing b with
  | nil => exact Adds.refl b
  | cons i is ih =>
    rw [List.flatMap_cons, List.length_append] at h
    have hadds := insertItem_added lib hb i
    rw [itemAdded_eq_text lib (by omega)] at hadds
    have hrest := ih (insertItem_inside lib hb i) (by rw [hadds.cur]; omega)
    rw [List.flatMap_cons, List.foldl_cons]
    refine ⟨?_, ?_⟩
    · rw [hrest.cur, hadds.cur, List.length_append, Nat.add_assoc]
    · rw [hrest.flush, hadds.flush, List.append_assoc]

/-- the insertions of one statement are those into its buffer -/
theorem insertAll_eq (s : St File) (e : Entry) (es : List Entry) (is : List (Item Tm)) :
    (is.map .item).foldl (St.insert fuel oob lib) { s with entries := e :: es } =
      let b := is.foldl (insertItem lib) ⟨s.gLogBuf e.level, e.cur⟩
      { s with gLogBuf := update s.gLogBuf e.level b.data, entries := ⟨e.level, b.cur⟩ :: es } := by
  induction is generalizing s e with
  | nil =>
    show _ = St.mk (update s.gLogBuf e.level (s.gLogBuf e.level)) _ _ _ _
    rw [update_eq_self]
    rfl
  | cons i is ih =>
    rw [List.map_cons, List.foldl_cons, List.foldl_cons]
    have hfirst : St.insert fuel oob lib { s with entries := e :: es } (.item i) =
        let b := insertItem lib ⟨s.gLogBuf e.level, e.cur⟩ i
        { { s with gLogBuf := update s.gLogBuf e.level b.data } with entries := ⟨e.level, b.cur⟩ :: es } := rfl
    rw [hfirst, ih]
    dsimp only
    rw [update_self, update_idem]

/-- an item fails no assertion -/
theorem insert_item_aborted (s : St File) (i : Item Tm) : (s.insert fuel oob lib (.item i)).aborted = s.aborted := by
  obtain ⟨gLogBuf, output, entries, written, aborted⟩ := s
  cases entries <;> rfl

theorem insertItems_aborted (s : St File) (is : List (Item Tm)) :
    ((is.map .item).foldl (St.insert fuel oob lib) s).aborted = s.aborted := by
  induction is generalizing s with
  | nil => rfl
  | cons i is ih => exact (ih _).trans (insert_item_aborted oob lib s i)

theorem run_operands {s : St File} (hgoes : s.aborted = false) (is : List (Item Tm)) :
    run (step fuel oob lib stdout) s (is.map fun i => .insert (.item i)) =
      (is.map .item).foldl (St.insert fuel oob lib) s := by
  induction is generalizing s with
  | nil => rfl
  | cons i is ih =>
    have hfirst : step fuel oob lib stdout s (.insert (.item i)) = s.insert fuel oob lib (.item i) := by
      rw [step.eq_def, hgoes]
      rfl
    rw [List.map_cons, run, List.foldl_cons, ← run, hfirst]
    exact ih ((insert_item_aborted oob lib s i).trans hgoes)

theorem flush_aborted (s : St File) : s.flush.aborted = s.aborted := by
  obtain ⟨gLogBuf, output, entries, written, aborted⟩ := s
  cases entries <;> rfl

theorem insert_aborted (hfuel : 64 ≤ fuel) (h : Bounded s) {i : Insertion Tm} (hi : i.Finite) :
    (s.insert fuel oob lib i).aborted = s.aborted := by
  obtain ⟨gLogBuf, output, entries, written, aborted⟩ := s
  cases entries with
  | nil => rfl
  | cons e es =>
    obtain ⟨b, hinsert, -⟩ := insert_inside oob lib (s := ⟨gLogBuf e.level, e.cur⟩) hfuel
      ⟨h.hi_le e.level, h.cur_lt e (List.mem_cons_self ..)⟩ hi
    rw [St.insert]
    dsimp only
    rw [hinsert]

/-- A run goes on as long as its floating-point operands are finite. -/
theorem finite_goes_on (hfuel : 64 ≤ fuel) (stdout : File) (mem : Level → ℕ → Byte) {ops : List (Op Tm File)}
    (hfinite : ∀ i, .insert i ∈ ops → i.Finite) : (run (step fuel oob lib stdout) (init mem) ops).aborted = false := by
  suffices hrun : Always (step fuel oob lib stdout) (fun s => (Bounded s ∧ ∀ w ∈ s.written, Ended w.2) ∧ s.aborted = false)
      (init mem) ops from hrun.last.2
  refine always_of_inv (C := fun _ o => ∀ i, o = .insert i → i.Finite) ?_
    ⟨⟨⟨fun _ => Nat.zero_le _, List.forall_mem_nil _⟩, List.forall_mem_nil _⟩, rfl⟩
    (along_of_mem fun o ho _ i hi => hfinite i (hi ▸ ho))
  rintro s op ⟨h, hgoes⟩ hop
  refine ⟨bounded_step oob lib hfuel stdout s op h, ?_⟩
  rw [step.eq_def, hgoes, if_neg Bool.false_ne_true]
  cases op with
  | LOG level ts path line => exact (insertItems_aborted oob lib _ _).trans hgoes
  | insert i => exact (insert_aborted oob lib hfuel h.1 (hop i rfl)).trans hgoes
  | finish => exact ((flush_aborted _).trans (insert_item_aborted oob lib s _)).trans hgoes
  | assign level output => rfl

/-- a statement is its insertions and the flush -/
theorem run_statement {s : St File} (hgoes : s.aborted = false) (level : Level) (ts : Tm) (path : List Byte)
    (line : BitVec 32) (operands : List (Item Tm)) :
    run (step fuel oob lib stdout) s (statement level ts path line operands) =
      St.flush (((lineItems level ts (shortFile path) line operands).map .item).foldl (St.insert fuel oob lib) { s with
        output := update s.output level (some ((s.output level).getD stdout)), entries := ⟨level, 0⟩ :: s.entries }) := by
  set made : St File := { s with
    output := update s.output level (some ((s.output level).getD stdout)), entries := ⟨level, 0⟩ :: s.entries }
  have hfirst : step fuel oob lib stdout s (.LOG level ts path line) =
      ((header level ts (shortFile path) line).map .item).foldl (St.insert fuel oob lib) made := by
    rw [step.eq_def, hgoes]
    rfl
  have hmade : (((header level ts (shortFile path) line).map .item).foldl (St.insert fuel oob lib) made).aborted = false :=
    (insertItems_aborted oob lib made _).trans hgoes
  rw [statement, run, List.foldl_cons, ← run, run_append, hfirst, run_operands oob lib hmade, lineItems, List.map_append,
    List.map_append, List.foldl_append, List.foldl_append, run, List.foldl_cons, List.foldl_nil, step.eq_def,
    insertItems_aborted, hmade]
  rfl

/-- **A short line is written whole.** After every run that goes on, statements of any level under way or not, a statement of
up to 975 bytes without floating point writes one line: time, file without its directories, line number, level and all its
operands, each as its formatter leaves it, to the output of its level or else to stdout. -/
theorem short_line_whole (hfuel : 64 ≤ fuel) (stdout : File) (mem : Level → ℕ → Byte) (ops : List (Op Tm File))
    (hgoes : (run (step fuel oob lib stdout) (init mem) ops).aborted = false)
    (level : Level) (ts : Tm) (path : List Byte) (line : BitVec 32) (operands : List (Item Tm))
    (hshort : ((lineItems level ts (shortFile path) line operands).flatMap (Item.text lib)).length ≤ 975) :
    (run (step fuel oob lib stdout) (init mem) (ops ++ statement level ts path line operands)).written =
      (run (step fuel oob lib stdout) (init mem) ops).written ++
        [(some (((run (step fuel oob lib stdout) (init mem) ops).output level).getD stdout),
          (lineItems level ts (shortFile path) line operands).flatMap (Item.text lib))] := by
  obtain ⟨hbounded, -⟩ := bounded_run oob lib hfuel stdout mem ops
  rw [run_append]
  generalize run (step fuel oob lib stdout) (init mem) ops = s at hbounded hgoes ⊢
  have hinside : (LogStreamBuffer.mk (s.gLogBuf level) 0).Inside := ⟨hbounded.hi_le level, start_lt⟩
  have hadds := foldl_adds lib hinside (show 0 + _ ≤ 975 by rwa [Nat.zero_add])
  have hinsert := @insertAll_eq Tm File fuel oob lib { s with
    output := update s.output level (some ((s.output level).getD stdout)) } ⟨level, 0⟩
    s.entries (lineItems level ts (shortFile path) line operands)
  rw [run_statement oob lib hgoes, hinsert]
  show s.written ++ [(update s.output level _ level, (LogStreamBuffer.mk (update s.gLogBuf level _ level) _).flush)] = _
  rw [update_self, update_self]
  have hflush := hadds.flush
  rw [show (LogStreamBuffer.mk (s.gLogBuf level) 0).flush = [] from rfl, List.nil_append] at hflush
  rw [← hflush]

/-- behind a statement with 1.0 that is under way -/
theorem short_line_whole_nested :
    (run (step 64 (fun _ => 0) .given ()) (init fun _ _ => 0) ([.LOG .INFO [] [ascii 'f'] 1, .insert (.float 0x3F800000)] ++
        statement .INFO [] [ascii 'd', ascii '/', ascii 'g'] 2 [.bool true])).written =
      (run (step 64 (fun _ => 0) .given ()) (init fun _ _ => 0)
        [.LOG .INFO [] [ascii 'f'] 1, .insert (.float 0x3F800000)]).written ++
        [(some (((run (step 64 (fun _ => 0) .given ()) (init fun _ _ => 0)
            [.LOG .INFO [] [ascii 'f'] 1, .insert (.float 0x3F800000)]).output .INFO).getD ()),
          (lineItems .INFO [] (shortFile [ascii 'd', ascii '/', ascii 'g']) 2 [.bool true]).flatMap (Item.text .given))] :=
  short_line_whole (fun _ => 0) .given (Nat.le_refl 64) () (fun _ _ => 0)
    [.LOG .INFO [] [ascii 'f'] 1, .insert (.float 0x3F800000)] (by decide +kernel)
    .INFO [] [ascii 'd', ascii '/', ascii 'g'] 2 [.bool true] (by decide +kernel)

end TinyRpc.Common.LogMessage
