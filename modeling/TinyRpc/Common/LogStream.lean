/-
The buffer of a log entry (`LogStreamBuffer` and `LogStream` in common/log.hpp).

A log entry is put together in 1024 bytes by one `operator<<` after the other, and `flush` writes what is there to the
output. What does not fit is dropped, and each operator finds that out in its own way: a text wants more room than it has
characters, a number 48 bytes to spare, a pointer the size of a pointer, and the time is left to `strftime`. The formatters
of the numbers and pointers write behind `cur_` and return how many characters it moves by.

`strftime` is the parameter `lib`: a text that fits with its NUL is written and its length returned; of one that does not,
some bytes are written, no more than there is room for, and 0 is returned.

- `insertions_stay_inside`: in every run of insertions, nothing is written behind the 1024 bytes and `size()` stays below
  1024.
- `flush_eq_kept_iff`: what is flushed is the complete texts of the items that were not dropped, exactly when every pointer
  finds no more than 8 bytes left or room for all its digits and a NUL. A pointer has 8 bytes and its text up to 16
  characters.
-/
import Mathlib.Tactic
import TinyRpc.Core.Buffer
import TinyRpc.Core.Machine
import TinyRpc.Core.DigitWriter
import TinyRpc.Core.BinaryFloat
import TinyRpc.Common.Itoa
import TinyRpc.Common.Ptrtoa
import TinyRpc.Common.Dtoa

namespace TinyRpc.Common

open TinyRpc.Core

/-! ## Model -/

def kSmallBufferSize : ℕ := 1024

def kMaxNumericSize : ℤ := 48

/-- the memory that `data_` points to, and the offset of `cur_` in it -/
structure LogStreamBuffer where
  data : Buf Byte
  cur : ℕ

namespace LogStreamBuffer

/-- on memory that holds anything -/
def init (mem : ℕ → Byte) : LogStreamBuffer := ⟨⟨mem, 0⟩, 0⟩

def size (s : LogStreamBuffer) : ℕ := s.cur

def avail (s : LogStreamBuffer) : ℤ := kSmallBufferSize - s.cur

/-- `avail()` where a `size_t` is wanted -/
def room (s : LogStreamBuffer) : BitVec 64 := BitVec.ofInt 64 s.avail

def append (s : LogStreamBuffer) (text : List Byte) : LogStreamBuffer :=
  if s.room.toNat > text.length then ⟨s.data.pokes s.cur text, s.cur + text.length⟩ else s

/-- a formatter has left its text behind `cur_`, and `cur_` moves by what it returned -/
def advance (s : LogStreamBuffer) (result : Buf Byte × ℕ) : LogStreamBuffer :=
  ⟨s.data.putBack s.cur result.1, s.cur + result.2⟩

def appendfx (s : LogStreamBuffer) (f : Buf Byte → BitVec 64 → Buf Byte × ℕ) : LogStreamBuffer :=
  s.advance (f (s.data.view s.cur) s.room)

/-- the bytes that `flush` writes to the output -/
def flush (s : LogStreamBuffer) : List Byte := s.data.read 0 s.cur

end LogStreamBuffer

/-- `strftime` with the format of the log -/
structure Strftime (Tm : Type) where
  text : Tm → List Byte
  /-- what is left in a buffer that the text does not fit in -/
  rest : Tm → ℕ → List Byte
  rest_le : ∀ t n, (rest t n).length ≤ n

variable {Tm : Type}

/-- the time is written into a buffer of `maxsize` bytes -/
def Strftime.call (lib : Strftime Tm) (t : Tm) (dst : Buf Byte) (maxsize : BitVec 64) : Buf Byte × ℕ :=
  if (lib.text t).length < maxsize.toNat then (dst.pokes 0 (lib.text t ++ [0]), (lib.text t).length)
  else (dst.pokes 0 (lib.rest t maxsize.toNat), 0)

/-- times that are given by their text; one that is too long is written as far as there is room -/
def Strftime.given : Strftime (List Byte) where
  text := id
  rest := fun t n => t.take n
  rest_le := fun t n => List.length_take_le n t

/-- what can be inserted, floating point apart -/
inductive Item (Tm : Type) where
  /-- `const char*` and `const unsigned char*`: the bytes there, or a null pointer -/
  | cstr (str : Option (List Byte))
  | bool (v : Bool)
  | short (v : BitVec 16)
  | unsignedShort (v : BitVec 16)
  /-- every other integer type -/
  | integer (w : Width) (signed : Bool) (v : BitVec w.bits)
  | ptr (v : BitVec 64)
  | char (v : Byte)
  /-- `string` and `string_view` -/
  | string (v : List Byte)
  | tm (t : Tm)

inductive Insertion (Tm : Type) where
  | item (i : Item Tm)
  | float (v : BitVec 32)
  | double (v : BitVec 64)

/-- neither infinite nor not a number -/
def Insertion.Finite : Insertion Tm → Prop
  | item _ => True
  | float v => Binary32.Finite v
  | double v => Binary64.Finite v

instance : (o : Insertion Tm) → Decidable o.Finite
  | .item _ => inferInstanceAs (Decidable True)
  | .float v => inferInstanceAs (Decidable (Binary32.Finite v))
  | .double v => inferInstanceAs (Decidable (Binary64.Finite v))

/-- what stands for a null pointer -/
def nullText : List Byte := "(null)".toList.map ascii

/-- the bytes in front of the NUL -/
def strlenText (str : List Byte) : List Byte := str.takeWhile fun c => c ≠ 0

section LogStream

open LogStreamBuffer

def formatInteger (s : LogStreamBuffer) (w : Width) (signed : Bool) (v : BitVec w.bits) : LogStreamBuffer :=
  if s.avail > kMaxNumericSize then s.appendfx fun dst avail => itoa w signed dst avail v else s

/-- `operator<<` -/
def insertItem (lib : Strftime Tm) (s : LogStreamBuffer) : Item Tm → LogStreamBuffer
  | .cstr (some str) => s.append (strlenText str)
  | .cstr none => s.append nullText
  | .bool v => s.append [if v then ascii '1' else ascii '0']
  | .short v => formatInteger s .w32 true (v.signExtend 32)
  | .unsignedShort v => formatInteger s .w32 false (v.setWidth 32)
  | .integer w signed v => formatInteger s w signed v
  -- `sizeof(ptr)` is unsigned, so the comparison is
  | .ptr v => if s.room > 8#64 then s.appendfx fun dst avail => ptrtoa dst avail v else s
  | .char v => s.append [v]
  | .string v => s.append v
  | .tm t => s.appendfx (lib.call t)

variable (fuel : ℕ) (oob : ℕ → ℕ) (lib : Strftime Tm)

/-- `operator<<(double)`; `none` is a failed assertion or a loop that has not ended -/
def insertDouble (s : LogStreamBuffer) (v : BitVec 64) : Option LogStreamBuffer :=
  if s.avail > kMaxNumericSize then (dtoaGrisu2 fuel oob (s.data.view s.cur) s.room v).map s.advance else some s

def insert (s : LogStreamBuffer) : Insertion Tm → Option LogStreamBuffer
  | .item i => some (insertItem lib s i)
  | .float v => insertDouble fuel oob s (Binary32.toBinary64 v)
  | .double v => insertDouble fuel oob s v

/-- one insertion of a run -/
def insertStep (s : Option LogStreamBuffer) (o : Insertion Tm) : Option LogStreamBuffer :=
  s.bind fun s => insert fuel oob lib s o

end LogStream

/-! ## The bound -/

namespace LogStreamBuffer

/-- everything was written inside the buffer, and there is room for one more byte -/
structure Inside (s : LogStreamBuffer) : Prop where
  hi_le : s.data.hi ≤ kSmallBufferSize
  cur_lt : s.cur < kSmallBufferSize

variable {s : LogStreamBuffer}

theorem inside_init (mem : ℕ → Byte) : (init mem).Inside := ⟨Nat.zero_le _, Nat.succ_pos _⟩

theorem Inside.avail_eq (h : s.Inside) : s.avail = s.room.toNat ∧ s.room.toNat + s.cur = kSmallBufferSize := by
  have hcur := h.cur_lt
  have havail : s.avail = ((kSmallBufferSize - s.cur : ℕ) : ℤ) := by rw [avail, Nat.cast_sub hcur.le]
  have hroom : s.room.toNat = kSmallBufferSize - s.cur := by
    rw [room, havail, BitVec.ofInt_natCast, BitVec.toNat_ofNat]
    exact Nat.mod_eq_of_lt ((Nat.sub_le _ _).trans_lt (by decide))
  exact ⟨by rw [havail, hroom], by rw [hroom, Nat.sub_add_cancel hcur.le]⟩

/-- while `cur_` is inside, the conversion of `avail()` does not wrap -/
theorem Inside.room_toNat (h : s.Inside) : s.room.toNat + s.cur = kSmallBufferSize := h.avail_eq.2

theorem Inside.room_pos (h : s.Inside) : 0 < s.room.toNat := by
  have hcur := h.cur_lt
  have hroom := h.room_toNat
  omega

theorem Inside.append (h : s.Inside) (text : List Byte) : (s.append text).Inside := by
  have hroom := h.room_toNat
  unfold LogStreamBuffer.append
  split_ifs with hfits
  · exact ⟨Buf.hi_pokes_le h.hi_le (by omega), show s.cur + text.length < kSmallBufferSize by omega⟩
  · exact h

/-- a formatter that writes no further than it may and returns less than that -/
theorem Inside.advance (h : s.Inside) {result : Buf Byte × ℕ} (hhi : result.1.hi ≤ s.room.toNat)
    (hreturned : result.2 < s.room.toNat) : (s.advance result).Inside := by
  have hroom := h.room_toNat
  exact ⟨Buf.hi_putBack_le h.hi_le (by omega), show s.cur + result.2 < kSmallBufferSize by omega⟩

end LogStreamBuffer

open LogStreamBuffer

variable {s : LogStreamBuffer}

theorem formatInteger_inside (h : s.Inside) (w : Width) (signed : Bool) (v : BitVec w.bits) :
    (formatInteger s w signed v).Inside := by
  unfold formatInteger
  split_ifs
  · refine h.advance (itoa_hi_le w signed _ s.room v h.room_pos) ?_
    rw [(itoa_backwards w signed _ s.room v h.room_pos).returned]
    exact length_written_lt h.room_pos
  · exact h

theorem strftime_inside (h : s.Inside) (lib : Strftime Tm) (t : Tm) : (s.appendfx (lib.call t)).Inside := by
  have hpos := h.room_pos
  unfold appendfx Strftime.call
  split_ifs with hfits
  · refine h.advance (Buf.hi_pokes_le (Nat.zero_le _) ?_) hfits
    rw [List.length_append, List.length_singleton, Nat.zero_add]
    exact hfits
  · refine h.advance (Buf.hi_pokes_le (Nat.zero_le _) ?_) hpos
    rw [Nat.zero_add]
    exact lib.rest_le _ _

theorem insertItem_inside (lib : Strftime Tm) (h : s.Inside) (o : Item Tm) : (insertItem lib s o).Inside := by
  cases o with
  | cstr str => cases str <;> exact h.append _
  | bool v => exact h.append _
  | short v => exact formatInteger_inside h .w32 true _
  | unsignedShort v => exact formatInteger_inside h .w32 false _
  | integer w signed v => exact formatInteger_inside h w signed v
  | ptr v =>
    rw [insertItem]
    split_ifs
    · refine h.advance (ptrtoa_hi_le _ s.room v h.room_pos) ?_
      have hpos := h.room_pos
      rw [(ptrtoa_backwards _ s.room v hpos).returned, List.length_take]
      omega
    · exact h
  | char v => exact h.append _
  | string v => exact h.append _
  | tm t => exact strftime_inside h lib t

section

variable {fuel : ℕ} (oob : ℕ → ℕ) (lib : Strftime Tm)

/-- the reserve of 48 bytes is enough for every finite double -/
theorem insertDouble_inside (hfuel : 64 ≤ fuel) (h : s.Inside) {v : BitVec 64} (hv : Binary64.Finite v) :
    ∃ t, insertDouble fuel oob s v = some t ∧ t.Inside := by
  unfold insertDouble
  split_ifs with hroom
  · obtain ⟨b, n, hrun, hhi, hn⟩ := dtoaGrisu2_bounds oob hfuel (fun i => s.data.mem (s.cur + i)) s.room hv
    rw [h.avail_eq.1, kMaxNumericSize] at hroom
    exact ⟨_, by rw [Buf.view, hrun]; rfl, h.advance (by dsimp only; omega) (by dsimp only; omega)⟩
  · exact ⟨s, rfl, h⟩

theorem insert_inside (hfuel : 64 ≤ fuel) (h : s.Inside) {o : Insertion Tm} (ho : o.Finite) :
    ∃ t, insert fuel oob lib s o = some t ∧ t.Inside := by
  cases o with
  | item i => exact ⟨_, rfl, insertItem_inside lib h i⟩
  | float v => exact insertDouble_inside oob hfuel h (Binary32.finite_toBinary64 ho)
  | double v => exact insertDouble_inside oob hfuel h ho

/-- **The buffer is never overrun.** In every run of insertions whose floating-point numbers are finite, from memory that
holds anything: every insertion returns, everything is written inside the 1024 bytes, and `size()` is below 1024. -/
theorem insertions_stay_inside (hfuel : 64 ≤ fuel) (mem : ℕ → Byte) {ops : List (Insertion Tm)} (hops : ∀ o ∈ ops, o.Finite) :
    Always (insertStep fuel oob lib) (fun s => ∃ t, s = some t ∧ t.data.hi ≤ kSmallBufferSize ∧ t.size < kSmallBufferSize)
      (some (init mem)) ops := by
  have hrun : Always (insertStep fuel oob lib) (fun s => ∃ t, s = some t ∧ t.Inside) (some (init mem)) ops := by
    refine always_of_inv ?_ ⟨_, rfl, inside_init mem⟩ (along_of_mem fun o ho _ => hops o ho)
    rintro _ o ⟨s, rfl, hs⟩ ho
    exact insert_inside oob lib hfuel hs ho
  refine hrun.mono ?_
  rintro _ ⟨t, rfl, ht⟩
  exact ⟨t, rfl, ht.hi_le, ht.cur_lt⟩

end

/-- one item of each kind, and at the end texts that are too long -/
theorem insertions_stay_inside_mixed :
    Always (insertStep 64 (fun _ => 0) .given)
      (fun s => ∃ t, s = some t ∧ t.data.hi ≤ kSmallBufferSize ∧ t.size < kSmallBufferSize) (some (init fun _ => 0xff))
      [.item (.tm (" 2023-02-03 04:05:06 ".toList.map ascii)), .item (.cstr none),
        .item (.cstr (some [ascii 'a', 0, ascii 'b'])), .item (.integer .w64 true (-1)), .item (.short 0x8000),
        .item (.ptr 0x7fff12345678), .double 0x3FD3333333333334, .float 1, .item (.string (List.replicate 900 (ascii 'x'))),
        .item (.bool true), .item (.char 0), .item (.string (List.replicate 2000 (ascii 'y')))] :=
  insertions_stay_inside (fun _ => 0) .given (Nat.le_refl 64) (fun _ => 0xff) (by decide)

/-! ## All or nothing -/

/-- the text that a formatter leaves in memory without end -/
def unlimited (f : Buf Byte → BitVec 64 → Buf Byte × ℕ) : List Byte :=
  let r := f ⟨fun _ => 0, 0⟩ (BitVec.allOnes 64)
  r.1.read 0 r.2

/-- the complete text of an item -/
def Item.text (lib : Strftime Tm) : Item Tm → List Byte
  | .cstr (some str) => strlenText str
  | .cstr none => nullText
  | .bool v => [if v then ascii '1' else ascii '0']
  | .short v => unlimited fun dst avail => itoa .w32 true dst avail (v.signExtend 32)
  | .unsignedShort v => unlimited fun dst avail => itoa .w32 false dst avail (v.setWidth 32)
  | .integer w signed v => unlimited fun dst avail => itoa w signed dst avail v
  | .ptr v => unlimited fun dst avail => ptrtoa dst avail v
  | .char v => [v]
  | .string v => v
  | .tm t => lib.text t

/-- the complete texts of the items that are not dropped: `cur_` moves -/
def kept (lib : Strftime Tm) : LogStreamBuffer → List (Item Tm) → List (List Byte)
  | _, [] => []
  | s, o :: ops => (if (insertItem lib s o).size = s.size then [] else o.text lib) :: kept lib (insertItem lib s o) ops

/-- a pointer is dropped or has room for its digits and a NUL -/
def Fits (s : LogStreamBuffer) : Item Tm → Prop
  | .ptr v => s.avail ≤ 8 ∨ (hexDigits v.toNat).length < s.avail
  | _ => True

/-- `t` is added to what will be flushed -/
structure Adds (s s' : LogStreamBuffer) (t : List Byte) : Prop where
  cur : s'.cur = s.cur + t.length
  flush : s'.flush = s.flush ++ t

/-- the text is added, or nothing is -/
def Whole (s s' : LogStreamBuffer) (t : List Byte) : Prop := Adds s s' [] ∨ Adds s s' t

theorem Adds.refl (s : LogStreamBuffer) : Adds s s [] := ⟨rfl, (List.append_nil _).symm⟩

theorem append_adds {text : List Byte} (h : text.length < s.room.toNat) : Adds s (s.append text) text := by
  rw [LogStreamBuffer.append, if_pos h]
  refine ⟨rfl, ?_⟩
  rw [flush, Buf.read_append, Nat.zero_add, Buf.read_pokes, Buf.read_pokes_below (by omega)]
  rfl

theorem append_whole (s : LogStreamBuffer) (text : List Byte) : Whole s (s.append text) text := by
  by_cases hfits : text.length < s.room.toNat
  · exact Or.inr (append_adds hfits)
  · rw [LogStreamBuffer.append, if_neg hfits]
    exact Or.inl (Adds.refl s)

theorem advance_adds (s : LogStreamBuffer) {result : Buf Byte × ℕ} {t : List Byte} (hread : result.1.read 0 t.length = t)
    (hreturned : result.2 = t.length) : Adds s (s.advance result) t := by
  refine ⟨by rw [← hreturned]; rfl, ?_⟩
  rw [advance, flush, hreturned, Buf.read_append, Nat.zero_add, Buf.read_putBack, hread, Buf.read_putBack_below (by omega)]
  rfl

/-- what a formatter that writes backwards adds -/
theorem backwards_adds (s : LogStreamBuffer) {buf : Buf Byte} {result : Buf Byte × ℕ} {t : List Byte}
    (h : Backwards 0 buf t result) : Adds s (s.advance result) t.reverse := by
  refine advance_adds s ?_ ?_
  · rw [List.length_reverse, h.read]
  · rw [List.length_reverse, h.returned]

/-- an integer is written whole: there are 49 bytes at least, and it takes 21 -/
theorem formatInteger_whole (h : s.Inside) (w : Width) (signed : Bool) (v : BitVec w.bits) :
    Whole s (formatInteger s w signed v) (unlimited fun dst avail => itoa w signed dst avail v) := by
  unfold formatInteger
  split_ifs with hroom
  · rw [h.avail_eq.1, kMaxNumericSize] at hroom
    have hfull := (itoa_backwards w signed ⟨fun _ => 0, 0⟩ (BitVec.allOnes 64) v (by decide)).text
    rw [written_of_room w signed v (by decide), ← written_of_room w signed v (show 22 ≤ s.room.toNat by omega)] at hfull
    rw [unlimited, hfull]
    exact Or.inr (backwards_adds s (itoa_backwards w signed _ s.room v h.room_pos))
  · exact Or.inl (Adds.refl s)

theorem strftime_whole (s : LogStreamBuffer) (lib : Strftime Tm) (t : Tm) : Whole s (s.appendfx (lib.call t)) (lib.text t) := by
  unfold appendfx Strftime.call
  split_ifs with hfits
  · refine Or.inr (advance_adds s ?_ rfl)
    rw [Buf.pokes_append, Buf.read_pokes_below (by omega), Buf.read_pokes]
  · exact Or.inl (advance_adds s rfl rfl)

theorem unlimited_ptrtoa (v : BitVec 64) : (unlimited fun dst avail => ptrtoa dst avail v) = (hexDigits v.toNat).reverse := by
  have hlen := length_hexDigits_le v
  have hfull := (ptrtoa_backwards ⟨fun _ => 0, 0⟩ (BitVec.allOnes 64) v (by decide)).text
  rw [List.take_of_length_le (hlen.trans (by decide))] at hfull
  exact hfull

/-- the unsigned comparison says the same as a signed one -/
theorem ptr_guard_iff (h : s.Inside) : s.room > 8#64 ↔ 8 < s.avail := by
  have height : (8#64).toNat = 8 := rfl
  rw [gt_iff_lt, BitVec.lt_def, height, h.avail_eq.1]
  exact Nat.cast_lt.symm

theorem Item.text_ptr (lib : Strftime Tm) (v : BitVec 64) : (Item.ptr v).text lib = (hexDigits v.toNat).reverse :=
  unlimited_ptrtoa v

/-- a pointer is written as far as there is room -/
theorem ptr_adds (lib : Strftime Tm) (h : s.Inside) (v : BitVec 64) (hroom : 8 < s.avail) :
    Adds s (insertItem lib s (.ptr v)) ((hexDigits v.toNat).take (s.room.toNat - 1)).reverse := by
  rw [insertItem, if_pos ((ptr_guard_iff h).2 hroom)]
  exact backwards_adds s (ptrtoa_backwards _ s.room v h.room_pos)

theorem ptr_dropped (lib : Strftime Tm) (h : s.Inside) (v : BitVec 64) (hroom : s.avail ≤ 8) :
    insertItem lib s (.ptr v) = s := by
  rw [insertItem, if_neg (mt (ptr_guard_iff h).1 (not_lt.2 hroom))]

/-- an item that fits is added whole or not at all -/
theorem insertItem_whole (lib : Strftime Tm) (h : s.Inside) {o : Item Tm} (ho : Fits s o) :
    Whole s (insertItem lib s o) (o.text lib) := by
  cases o with
  | cstr str => cases str <;> exact append_whole s _
  | bool v => exact append_whole s _
  | short v => exact formatInteger_whole h .w32 true _
  | unsignedShort v => exact formatInteger_whole h .w32 false _
  | integer w signed v => exact formatInteger_whole h w signed v
  | ptr v =>
    rcases le_or_gt s.avail 8 with hdrop | hroom
    · rw [ptr_dropped lib h v hdrop]
      exact Or.inl (Adds.refl s)
    · have hfits : (hexDigits v.toNat).length < s.room.toNat := by
        have := ho.resolve_left (not_le.2 hroom)
        rwa [h.avail_eq.1, Nat.cast_lt] at this
      have hadds := ptr_adds lib h v hroom
      rw [List.take_of_length_le (by omega)] at hadds
      rw [Item.text_ptr]
      exact Or.inr hadds
  | char v => exact append_whole s _
  | string v => exact append_whole s _
  | tm t => exact strftime_whole s lib t

/-- a pointer that does not fit is cut: its last digits are added, and there is at least one -/
theorem insertItem_cut (lib : Strftime Tm) (h : s.Inside) {o : Item Tm} (ho : ¬ Fits s o) :
    ∃ t, Adds s (insertItem lib s o) t ∧ 0 < t.length ∧ t.length < (o.text lib).length := by
  cases o with
  | ptr v =>
    obtain ⟨hroom, hlong⟩ := not_or.1 ho
    rw [not_le] at hroom
    refine ⟨_, ptr_adds lib h v hroom, ?_⟩
    rw [h.avail_eq.1, Nat.cast_lt, not_lt] at hlong
    rw [h.avail_eq.1] at hroom
    rw [Item.text_ptr, List.length_reverse, List.length_reverse, List.length_take]
    omega
  | _ => exact absurd trivial ho

/-- What a run adds is no longer than the texts that were kept, and equal to them exactly when every item fits. -/
theorem run_adds (lib : Strftime Tm) (h : s.Inside) (ops : List (Item Tm)) :
    ∃ t, (run (insertItem lib) s ops).flush = s.flush ++ t ∧ t.length ≤ (kept lib s ops).flatten.length ∧
      (t = (kept lib s ops).flatten ↔ Along (insertItem lib) Fits s ops) := by
  induction ops generalizing s with
  | nil => exact ⟨[], (List.append_nil _).symm, Nat.le_refl 0, iff_of_true rfl trivial⟩
  | cons o ops ih =>
    obtain ⟨t', hflush, hle, hiff⟩ := ih (insertItem_inside lib h o)
    rw [kept, List.flatten_cons, Along, ← hiff]
    by_cases ho : Fits s o
    · rw [and_iff_right ho]
      obtain ⟨t, hadds, ht⟩ : ∃ t, Adds s (insertItem lib s o) t ∧
          (if (insertItem lib s o).size = s.size then [] else o.text lib) = t := by
        rcases insertItem_whole lib h ho with hdrop | hwhole
        · exact ⟨[], hdrop, if_pos hdrop.cur⟩
        · refine ⟨_, hwhole, ?_⟩
          split_ifs with hsame
          · have hcur := hwhole.cur
            rw [size, size] at hsame
            exact (List.length_eq_zero_iff.1 (by omega)).symm
          · rfl
      refine ⟨t ++ t', ?_, ?_, ?_⟩
      · rw [← List.append_assoc, ← hadds.flush]
        exact hflush
      · rw [ht, List.length_append, List.length_append]
        exact Nat.add_le_add_left hle _
      · rw [ht]
        exact List.append_right_inj t
    · -- what was cut is missing, and nothing later makes up for it
      obtain ⟨t, hadds, hpos, hlt⟩ := insertItem_cut lib h ho
      have hmoved : (insertItem lib s o).size ≠ s.size := by
        rw [size, size, hadds.cur]
        omega
      rw [if_neg hmoved]
      have hshort : (t ++ t').length < (o.text lib ++ (kept lib (insertItem lib s o) ops).flatten).length := by
        rw [List.length_append, List.length_append]
        omega
      refine ⟨t ++ t', ?_, hshort.le, iff_of_false (fun heq => ?_) fun hall => ho hall.1⟩
      · rw [← List.append_assoc, ← hadds.flush]
        exact hflush
      · rw [heq] at hshort
        exact lt_irrefl _ hshort

/-- **All or nothing.** For every sequence of insertions without floating point: what is flushed is the complete texts of
the items that were not dropped, one after the other, exactly when every pointer either finds no more than 8 bytes left or
finds room for all its digits and a NUL. -/
theorem flush_eq_kept_iff (lib : Strftime Tm) (mem : ℕ → Byte) (ops : List (Item Tm)) :
    (run (insertItem lib) (init mem) ops).flush = (kept lib (init mem) ops).flatten ↔
      Along (insertItem lib) Fits (init mem) ops := by
  obtain ⟨t, hflush, -, hiff⟩ := run_adds lib (inside_init mem) ops
  rw [hflush, ← hiff]
  rfl

/-- with 12 bytes left, the pointer 7fff12345678 loses its first digit -/
theorem pointer_cut :
    (run (insertItem .given) (init fun _ => 0) [.string (List.replicate 1012 (ascii 'x')), .ptr 0x7fff12345678]).flush =
        List.replicate 1012 (ascii 'x') ++ "fff12345678".toList.map ascii ∧
      (run (insertItem .given) (init fun _ => 0) [.string (List.replicate 1012 (ascii 'x')), .ptr 0x7fff12345678]).flush ≠
        (kept .given (init fun _ => 0) [.string (List.replicate 1012 (ascii 'x')), .ptr 0x7fff12345678]).flatten := by
  set s := (init fun _ => 0).append (List.replicate 1012 (ascii 'x')) with hs
  have hroom : (init fun _ => 0).room.toNat = 1024 := by decide
  have hadds : Adds (init fun _ => 0) s (List.replicate 1012 (ascii 'x')) :=
    append_adds (by rw [List.length_replicate, hroom]; decide)
  have hinside : s.Inside := (inside_init _).append _
  have hcur : s.cur = 1012 := by
    rw [hadds.cur, List.length_replicate]
    rfl
  have hleft : s.room.toNat = 12 := by
    have := hinside.room_toNat
    rw [hcur, kSmallBufferSize] at this
    omega
  have hdigits : hexDigits (0x7fff12345678 : BitVec 64).toNat = ("7fff12345678".toList.map ascii).reverse := by
    decide
  have hptr := ptr_adds .given hinside 0x7fff12345678 (by rw [hinside.avail_eq.1, hleft]; decide)
  rw [hleft, hdigits] at hptr
  have hinsert : insertItem .given (init fun _ => 0) (.string (List.replicate 1012 (ascii 'x'))) = s := rfl
  have hcut : (("7fff12345678".toList.map ascii).reverse.take (12 - 1)).reverse = "fff12345678".toList.map ascii := by decide
  have hfirst : s.size ≠ (init fun _ => 0).size := by
    rw [size, hcur]
    exact Nat.succ_ne_zero _
  have hsecond : (insertItem .given s (.ptr 0x7fff12345678)).size ≠ s.size := by
    rw [size, size, hptr.cur]
    exact Nat.ne_of_gt (Nat.lt_add_of_pos_right (by decide))
  have hflush : (run (insertItem .given) (init fun _ => 0)
      [.string (List.replicate 1012 (ascii 'x')), .ptr 0x7fff12345678]).flush =
      List.replicate 1012 (ascii 'x') ++ "fff12345678".toList.map ascii := by
    rw [run, List.foldl_cons, List.foldl_cons, List.foldl_nil, hinsert, hptr.flush, hadds.flush, hcut]
    rfl
  refine ⟨hflush, ?_⟩
  rw [hflush, kept, kept, kept, hinsert, if_neg hfirst, if_neg hsecond, List.flatten_cons, List.flatten_cons, List.flatten_nil,
    List.append_nil, Item.text_ptr, Item.text, hdigits, List.reverse_reverse, ne_eq, List.append_right_inj]
  decide

end TinyRpc.Common
