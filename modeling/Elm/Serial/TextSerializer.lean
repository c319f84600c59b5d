import Mathlib.Data.Finset.Card
import Elm.Lib.Loop
import Elm.Serial.Unserializer

/-!
# `TextSerializer`

The text that `src/serial2_TextSerializer.cpp` writes for objects in memory, as a list of the pieces that are put on
the output.  An object is written in place where it is embedded in another one, and a pointer is written as an address:
`flush` writes the objects that pointers have led to, if they have not been written meanwhile.
-/

namespace Elm.Serial.Text

open Elm.Serial Function List

/-- What `__visit` finds in an object, the fields of the base classes first: a value, a pointer or an object that is
embedded, the first and the last one with their addresses. -/
inductive Members (T : Type)
  | nil
  | value (name : List Char) (type : T) (object : Addr) (text : List Char) (rest : Members T)
  | pointer (name : List Char) (type : T) (object : Addr) (rest : Members T)
  | object (name : List Char) (type : T) (object : Addr) (fields rest : Members T)

/-- What is at an address when it is seen with a serial type. -/
inductive Body (T : Type)
  | value (text : List Char)
  | object (fields : Members T)

/-- A piece of the text. -/
inductive Piece (T : Type)
  /-- `*object=`; the type is written at the top level. -/
  | entry (object : Addr) (type : Option T)
  /-- `&object;`; the type is not written. -/
  | pointer (object : Addr) (type : T)
  /-- `name->`. -/
  | field (name : List Char)
  | text (chars : List Char)

/-- The members of `TextSerializer`, and what it has written. -/
structure TextSerializer (T : Type) where
  objects : Addr → Option Bool
  toProcess : List (Addr × T)
  level : Nat
  out : List (Piece T)

variable {T : Type}

namespace TextSerializer

/-- The constructor. -/
def new (T : Type) : TextSerializer T := ⟨fun _ => none, [], 0, []⟩

/-- A piece that is only written. -/
def put (s : TextSerializer T) (piece : Piece T) : TextSerializer T := { s with out := s.out ++ [piece] }

/-- The function `prefix`, after the text of the piece is chosen. -/
def putEntry (s : TextSerializer T) (object : Addr) (type : Option T) : TextSerializer T :=
  { s.put (.entry object type) with objects := update s.objects object (some true) }

def atLevel (s : TextSerializer T) (level : Nat) : TextSerializer T := { s with level }

/-- The function `prefix`. -/
def enter (s : TextSerializer T) (type : T) (object : Addr) : TextSerializer T :=
  (s.putEntry object (if s.level = 0 then some type else none)).atLevel (s.level + 1)

/-- The function `suffix`. -/
def leave (s : TextSerializer T) : TextSerializer T := s.atLevel (s.level - 1)

/-- `onValue` and `onEnum`. -/
def onValue (s : TextSerializer T) (type : T) (object : Addr) (text : List Char) : TextSerializer T :=
  ((s.enter type object).put (.text text)).leave

/-- `beginObject`. -/
def beginObject (s : TextSerializer T) (type : T) (object : Addr) : TextSerializer T :=
  (s.enter type object).put (.text ['{'])

/-- `endObject`. -/
def endObject (s : TextSerializer T) : TextSerializer T := s.leave.put (.text ['}'])

/-- `beginField`; `endField` does nothing. -/
def beginField (s : TextSerializer T) (name : List Char) : TextSerializer T := s.put (.field name)

/-- `onPointer`. -/
def onPointer (s : TextSerializer T) (type : T) (object : Addr) : TextSerializer T :=
  let s := s.put (.pointer object type)
  if object ≠ 0 ∧ s.objects object = none then
    { s with objects := update s.objects object (some false), toProcess := s.toProcess ++ [(object, type)] }
  else
    s

end TextSerializer

/-- `__serialize_body`. -/
def Members.serialize : Members T → TextSerializer T → TextSerializer T
  | .nil, s => s
  | .value name type obj text rest, s => rest.serialize ((s.beginField name).onValue type obj text)
  | .pointer name type obj rest, s => rest.serialize ((s.beginField name).onPointer type obj)
  | .object name type obj fields rest, s =>
    rest.serialize (fields.serialize ((s.beginField name).beginObject type obj)).endObject

/-- The function `serialize` of a type. -/
def Body.serialize (type : T) (object : Addr) (s : TextSerializer T) : Body T → TextSerializer T
  | .value text => s.onValue type object text
  | .object fields => (fields.serialize (s.beginObject type object)).endObject

/-- A turn of the loop of `flush`; `p` is what is in memory. -/
def turn (p : T → Addr → Body T) (s : TextSerializer T) : TextSerializer T ⊕ TextSerializer T :=
  match s.toProcess with
  | [] => .inr { s with objects := fun _ => none }
  | (object, type) :: toProcess =>
    let s := { s with toProcess }
    .inl (if (s.objects object).getD false then s else (p type object).serialize type object s)

/-- `flush`, with a bound on the turns of its loop. -/
def flush (p : T → Addr → Body T) (fuel : Nat) (s : TextSerializer T) : Option (TextSerializer T) :=
  Loop.run (turn p) fuel s

/-! ## The text of an object -/

/-- The pieces of the members of an object. -/
def Members.pieces : Members T → List (Piece T)
  | .nil => []
  | .value name _ obj text rest => .field name :: .entry obj none :: .text text :: rest.pieces
  | .pointer name type obj rest => .field name :: .pointer obj type :: rest.pieces
  | .object name _ obj fields rest =>
    .field name :: .entry obj none :: .text ['{'] :: (fields.pieces ++ .text ['}'] :: rest.pieces)

/-- The pieces of an object of the top level, after its first one. -/
def Body.pieces : Body T → List (Piece T)
  | .value text => [.text text]
  | .object fields => .text ['{'] :: (fields.pieces ++ [.text ['}']])

/-- A piece is written and noted. -/
def note (s : TextSerializer T) : Piece T → TextSerializer T
  | .entry object type => s.putEntry object type
  | .pointer object type => s.onPointer type object
  | .field name => s.put (.field name)
  | .text chars => s.put (.text chars)

theorem out_note (s : TextSerializer T) (piece : Piece T) : (note s piece).out = s.out ++ [piece] := by
  cases piece with
  | pointer object type =>
    rw [note, TextSerializer.onPointer]
    split_ifs <;> rfl
  | _ => rfl

/-- The level plays no part, and is kept. -/
theorem note_level (s : TextSerializer T) (level : Nat) (piece : Piece T) :
    note (s.atLevel level) piece = (note s piece).atLevel level := by
  cases piece with
  | pointer object type =>
    by_cases hnew : object ≠ 0 ∧ s.objects object = none <;>
      simp [note, TextSerializer.onPointer, TextSerializer.put, TextSerializer.atLevel, hnew]
  | _ => rfl

/-- The text of some pieces. -/
def notes (s : TextSerializer T) (pieces : List (Piece T)) : TextSerializer T := pieces.foldl note s

theorem out_notes (pieces : List (Piece T)) (s : TextSerializer T) : (notes s pieces).out = s.out ++ pieces := by
  induction pieces generalizing s with
  | nil => exact (append_nil _).symm
  | cons piece pieces ih =>
    rw [notes, foldl_cons, ← notes, ih, out_note, append_assoc, singleton_append]

theorem notes_level (pieces : List (Piece T)) (s : TextSerializer T) (level : Nat) :
    notes (s.atLevel level) pieces = (notes s pieces).atLevel level := by
  induction pieces generalizing s with
  | nil => rfl
  | cons piece pieces ih =>
    rw [notes, foldl_cons, note_level]
    exact ih (note s piece)

theorem level_notes (pieces : List (Piece T)) (s : TextSerializer T) : (notes s pieces).level = s.level := by
  show (notes (s.atLevel s.level) pieces).level = s.level
  rw [notes_level]
  rfl

/-- An object of the top level, or one that is embedded, from its first piece to its last one. -/
theorem endObject_notes (s : TextSerializer T) (type : T) (object : Addr) (pieces : List (Piece T)) :
    (notes (s.beginObject type object) pieces).endObject =
      notes s (.entry object (if s.level = 0 then some type else none) :: .text ['{'] :: (pieces ++ [.text ['}']])) := by
  let first : List (Piece T) := [.entry object (if s.level = 0 then some type else none), .text ['{']]
  have hbegin : s.beginObject type object = (notes s first).atLevel (s.level + 1) := rfl
  have hsplit : notes s (first ++ (pieces ++ [.text ['}']])) = (notes (notes s first) pieces).put (.text ['}']) := by
    simp [notes, note]
  have hlevel : (notes (notes s first) pieces).level = s.level := by rw [level_notes, level_notes]
  show _ = notes s (first ++ (pieces ++ [.text ['}']]))
  have hleave : ((notes (notes s first) pieces).atLevel (s.level + 1)).leave = notes (notes s first) pieces := by
    show (notes (notes s first) pieces).atLevel s.level = _
    rw [← hlevel]
    rfl
  rw [hbegin, notes_level, hsplit, TextSerializer.endObject, hleave]

/-- Inside an object, no type is written. -/
theorem Members.serialize_eq (m : Members T) (s : TextSerializer T) (hlevel : 0 < s.level) :
    m.serialize s = notes s m.pieces := by
  induction m generalizing s with
  | nil => rfl
  | value name type obj text rest ih =>
    have hvalue : (s.beginField name).onValue type obj text =
        notes s [.field name, .entry obj none, .text text] := by
      simp [TextSerializer.onValue, TextSerializer.enter, TextSerializer.leave, TextSerializer.atLevel,
        TextSerializer.beginField, TextSerializer.put, TextSerializer.putEntry, notes, note, hlevel.ne']
    rw [Members.serialize, hvalue, ih _ (by rwa [level_notes])]
    rfl
  | pointer name type obj rest ih =>
    have hpointer : (s.beginField name).onPointer type obj = notes s [.field name, .pointer obj type] := rfl
    rw [Members.serialize, hpointer, ih _ (by rwa [level_notes])]
    rfl
  | object name type obj fields rest ihFields ih =>
    have hfield : (s.beginField name).level = s.level := rfl
    rw [Members.serialize, ihFields _ (Nat.succ_pos _), endObject_notes, hfield, if_neg hlevel.ne',
      ih _ (by rwa [level_notes])]
    simp [Members.pieces, notes, note, TextSerializer.beginField]

theorem Body.serialize_eq (b : Body T) (type : T) (object : Addr) (s : TextSerializer T) (hlevel : s.level = 0) :
    b.serialize type object s = notes s (.entry object (some type) :: b.pieces) := by
  cases b with
  | value text =>
    simp [Body.serialize, Body.pieces, TextSerializer.onValue, TextSerializer.enter, TextSerializer.leave,
      TextSerializer.atLevel, TextSerializer.put, TextSerializer.putEntry, notes, note, hlevel]
  | object fields =>
    rw [Body.serialize, Members.serialize_eq _ _ (Nat.succ_pos _), endObject_notes, if_pos hlevel]
    rfl

/-! ## The invariant -/

variable {F : Finset Addr} {s : TextSerializer T}

/-- What the map of the objects tells about the text and the queue, but for the object `hole`, which has just left the
queue. -/
structure Inv (F : Finset Addr) (hole : Option Addr) (s : TextSerializer T) : Prop where
  marked : ∀ o, s.objects o = some true ↔ ∃ type, Piece.entry o type ∈ s.out
  waiting : ∀ o, s.objects o = some false → some o = hole ∨ o ∈ s.toProcess.map Prod.fst
  pointed : ∀ o type, Piece.pointer o type ∈ s.out → o ≠ 0 → s.objects o ≠ none
  queued : ∀ x ∈ s.toProcess, x.1 ∈ F

/-- The objects of `F` that have not been met and those of the queue: what is left to do. -/
def load (F : Finset Addr) (s : TextSerializer T) : Nat :=
  (F.filter fun o => s.objects o = none).card + s.toProcess.length

/-- A pointer leads to an object of `F`. -/
def Inside (F : Finset Addr) (piece : Piece T) : Prop := ∀ o type, piece = .pointer o type → o = 0 ∨ o ∈ F

theorem inv_new (F : Finset Addr) : Inv F none (.new T) where
  marked o := by simp [TextSerializer.new]
  waiting o h := nomatch h
  pointed o type h := nomatch h
  queued x h := nomatch h

/-- A text or the name of a field. -/
theorem inv_put (h : Inv F none s) {piece : Piece T} (hentry : ∀ o type, piece ≠ .entry o type)
    (hpointer : ∀ o type, piece = .pointer o type → o ≠ 0 → s.objects o ≠ none) : Inv F none (s.put piece) where
  marked o := by
    rw [TextSerializer.put, h.marked o]
    simp [fun type => (hentry o type).symm]
  waiting := h.waiting
  pointed o type hmem hne := by
    rcases mem_append.mp hmem with hmem | hmem
    · exact h.pointed o type hmem hne
    · exact hpointer o type (mem_singleton.mp hmem).symm hne
  queued := h.queued

/-- An object that has been met is no longer to be met. -/
theorem filter_update (F : Finset Addr) (objects : Addr → Option Bool) (object : Addr) (b : Bool) :
    (F.filter fun o => update objects object (some b) o = none) =
      (F.filter fun o => objects o = none).erase object := by
  ext o
  by_cases ho : o = object <;> simp [update_apply, ho]

theorem inv_putEntry {object : Addr} (h : Inv F (some object) s) (type : Option T) :
    Inv F none (s.putEntry object type) ∧ load F (s.putEntry object type) ≤ load F s := by
  refine ⟨⟨fun o => ?_, fun o ho => Or.inr ?_, fun o t hmem hne => ?_, h.queued⟩, ?_⟩ <;>
    simp only [TextSerializer.putEntry, TextSerializer.put, update_apply] at *
  · rcases eq_or_ne o object with rfl | ho
    · exact iff_of_true (if_pos rfl) ⟨type, by simp⟩
    · rw [if_neg ho, h.marked o]
      simp [ho]
  · split_ifs at ho with heq
    · cases ho
    · exact (h.waiting o ho).resolve_left fun hhole => heq (Option.some.inj hhole)
  · split_ifs
    · exact Option.some_ne_none _
    · exact h.pointed o t (by simpa using hmem) hne
  · rw [load, load, filter_update]
    exact Nat.add_le_add_right (Finset.card_erase_le) _

theorem inv_onPointer (h : Inv F none s) {object : Addr} (type : T) (hF : object = 0 ∨ object ∈ F) :
    Inv F none (s.onPointer type object) ∧ load F (s.onPointer type object) ≤ load F s := by
  by_cases hnew : object ≠ 0 ∧ s.objects object = none
  · -- the object enters the queue
    have heq : s.onPointer type object = { s.put (.pointer object type) with
        objects := update s.objects object (some false)
        toProcess := s.toProcess ++ [(object, type)] } := if_pos hnew
    have hobject : object ∈ F := hF.resolve_left hnew.1
    rw [heq]
    refine ⟨⟨fun o => ?_, fun o ho => Or.inr ?_, fun o t hmem hne => ?_, fun x hx => ?_⟩, ?_⟩ <;>
      simp only [TextSerializer.put, update_apply] at *
    · have hiff := h.marked o
      rcases eq_or_ne o object with rfl | ho
      · simpa [hnew.2] using hiff
      · simpa [ho] using hiff
    · split_ifs at ho with hself
      · simp [hself]
      · simp [(h.waiting o ho).resolve_left nofun]
    · split_ifs with hself
      · exact Option.some_ne_none _
      · exact h.pointed o t (by simpa [hself] using hmem) hne
    · rcases mem_append.mp hx with hx | hx
      · exact h.queued x hx
      · rwa [mem_singleton.mp hx]
    · have hmem : object ∈ F.filter fun o => s.objects o = none := Finset.mem_filter.mpr ⟨hobject, hnew.2⟩
      have hless := Finset.card_erase_lt_of_mem hmem
      rw [load, load, filter_update, length_append, length_singleton]
      omega
  · have heq : s.onPointer type object = s.put (.pointer object type) := if_neg hnew
    rw [heq]
    refine ⟨inv_put h nofun fun o t hpointer hne hnone => hnew ?_, le_rfl⟩
    obtain ⟨rfl, -⟩ := Piece.pointer.inj hpointer
    exact ⟨hne, hnone⟩

theorem inv_note (h : Inv F none s) {piece : Piece T} (hF : Inside F piece) :
    Inv F none (note s piece) ∧ load F (note s piece) ≤ load F s := by
  cases piece with
  | entry object type =>
    exact inv_putEntry ⟨h.marked, fun o ho => Or.inr ((h.waiting o ho).resolve_left nofun), h.pointed, h.queued⟩ type
  | pointer object type => exact inv_onPointer h type (hF object type rfl)
  | field name => exact ⟨inv_put h nofun nofun, le_rfl⟩
  | text chars => exact ⟨inv_put h nofun nofun, le_rfl⟩

theorem inv_notes (pieces : List (Piece T)) : ∀ {s : TextSerializer T}, Inv F none s → (∀ piece ∈ pieces, Inside F piece) →
    Inv F none (notes s pieces) ∧ load F (notes s pieces) ≤ load F s := by
  induction pieces with
  | nil => exact fun {s} h _ => ⟨h, le_rfl⟩
  | cons piece pieces ih =>
    intro s h hF
    obtain ⟨h₁, hload₁⟩ := inv_note h (hF piece mem_cons_self)
    obtain ⟨h', hload'⟩ := ih h₁ fun piece hmem => hF piece (mem_cons_of_mem _ hmem)
    exact ⟨h', hload'.trans hload₁⟩

/-! ## `flush` -/

variable {p : T → Addr → Body T}

/-- The text of an object of the top level. -/
def textOf (p : T → Addr → Body T) (x : Addr × T) : List (Piece T) := .entry x.1 (some x.2) :: (p x.2 x.1).pieces

/-- The pointers of the objects of `F` lead to `F`. -/
def Closed (p : T → Addr → Body T) (F : Finset Addr) : Prop :=
  ∀ o ∈ F, ∀ type, ∀ piece ∈ (p type o).pieces, Inside F piece

/-- Between two turns: the objects `tasks` have been written at the top level, each of them once. -/
structure Flushing (p : T → Addr → Body T) (F : Finset Addr) (tasks : List (Addr × T)) (s : TextSerializer T) :
    Prop where
  inv : Inv F none s
  level : s.level = 0
  out : s.out = tasks.flatMap (textOf p)
  nodup : (tasks.map Prod.fst).Nodup

/-- An object that has no entry is written. -/
theorem serialize_flushing (hF : Closed p F) {tasks : List (Addr × T)} {object : Addr} {type : T}
    (hinv : Inv F (some object) s) (hlevel : s.level = 0) (hout : s.out = tasks.flatMap (textOf p))
    (hnodup : (tasks.map Prod.fst).Nodup) (hobject : object ∈ F) (hnew : s.objects object ≠ some true) :
    Flushing p F (tasks ++ [(object, type)]) ((p type object).serialize type object s) ∧
      load F ((p type object).serialize type object s) ≤ load F s := by
  obtain ⟨h₁, hload₁⟩ := inv_putEntry hinv (some type)
  obtain ⟨h', hload'⟩ := inv_notes (p type object).pieces h₁ (hF object hobject type)
  rw [Body.serialize_eq _ _ _ _ hlevel]
  refine ⟨⟨h', by rw [level_notes, hlevel], ?_, ?_⟩, hload'.trans hload₁⟩
  · rw [out_notes, hout, flatMap_append, flatMap_singleton]
    rfl
  · rw [map_append]
    refine hnodup.append (nodup_singleton _) fun o ho ho' => hnew ?_
    obtain ⟨x, hx, heq⟩ := mem_map.mp (mem_singleton.mp ho' ▸ ho)
    have heq : x.1 = object := heq
    refine (hinv.marked object).mpr ⟨some x.2, ?_⟩
    rw [hout, mem_flatMap]
    refine ⟨x, hx, ?_⟩
    rw [← heq]
    exact mem_cons_self

theorem turn_flushing (hF : Closed p F) {tasks : List (Addr × T)} (h : Flushing p F tasks s) :
    (∃ s' more, turn p s = .inl s' ∧ load F s' < load F s ∧ Flushing p F (tasks ++ more) s') ∨
      turn p s = .inr { s with objects := fun _ => none } ∧ s.toProcess = [] := by
  cases hqueue : s.toProcess with
  | nil => exact Or.inr ⟨by rw [turn, hqueue], rfl⟩
  | cons x toProcess =>
    obtain ⟨object, type⟩ := x
    left
    have hload : load F { s with toProcess } < load F s := by
      rw [load, load, hqueue, length_cons]
      exact Nat.lt_succ_self _
    have hwaiting : ∀ o, s.objects o = some false → o = object ∨ o ∈ toProcess.map Prod.fst := by
      intro o ho
      have hmem := (h.inv.waiting o ho).resolve_left nofun
      rwa [hqueue, map_cons, mem_cons] at hmem
    have hqueued : ∀ x ∈ toProcess, x.1 ∈ F := fun x hx =>
      h.inv.queued x (by rw [hqueue]; exact mem_cons_of_mem _ hx)
    by_cases hdone : s.objects object = some true
    · -- it has been written meanwhile
      refine ⟨{ s with toProcess }, [], by simp [turn, hqueue, hdone], hload, ?_⟩
      rw [append_nil]
      refine ⟨⟨h.inv.marked, fun o ho => Or.inr ((hwaiting o ho).resolve_left ?_), h.inv.pointed, hqueued⟩, h.level,
        h.out, h.nodup⟩
      rintro rfl
      cases hdone.symm.trans ho
    · have hfalse : (s.objects object).getD false = false := by
        cases hobject : s.objects object with
        | none => rfl
        | some b =>
          cases b with
          | false => rfl
          | true => exact absurd hobject hdone
      have hinv : Inv F (some object) { s with toProcess } :=
        ⟨h.inv.marked, fun o ho => (hwaiting o ho).imp_left (congrArg some), h.inv.pointed, hqueued⟩
      have hobject : object ∈ F := h.inv.queued (object, type) (by rw [hqueue]; exact mem_cons_self)
      obtain ⟨hflushing, hle⟩ := serialize_flushing hF hinv h.level h.out h.nodup hobject hdone
      refine ⟨_, [(object, type)], ?_, hle.trans_lt hload, hflushing⟩
      simp only [turn, hqueue, hfalse]
      rfl

/-- An object is serialized, then `flush` is called: it ends.  The text is made of the texts of objects of the top
level, that one being the first of them, and none of them being there twice; whatever a pointer leads to, null apart,
has an entry in the text; and the serializer is ready for another object. -/
theorem flush_serialize (p : T → Addr → Body T) (F : Finset Addr) (hF : Closed p F) (type : T) {root : Addr}
    (hroot : root ∈ F) :
    ∃ fuel s tasks, flush p fuel ((p type root).serialize type root (.new T)) = some s ∧
      s.out = (((root, type) :: tasks).flatMap (textOf p)) ∧ ((root :: tasks.map Prod.fst).Nodup) ∧
      (∀ o t, Piece.pointer o t ∈ s.out → o ≠ 0 → ∃ type', Piece.entry o type' ∈ s.out) ∧
      s.toProcess = [] ∧ s.level = 0 ∧ ∀ o, s.objects o = none := by
  have hnew := inv_new (T := T) F
  have hinv : Inv F (some root) (.new T) :=
    ⟨hnew.marked, fun o ho => Or.inr ((hnew.waiting o ho).resolve_left nofun), hnew.pointed, hnew.queued⟩
  have hout : (TextSerializer.new T).out = ([] : List (Addr × T)).flatMap (textOf p) := rfl
  obtain ⟨hfirst, -⟩ := serialize_flushing (p := p) hF hinv rfl hout nodup_nil hroot nofun
  obtain ⟨s, hrun, tasks, s', hs', hqueue, rfl⟩ := Loop.exists_run_eq_some (turn p)
    (fun k s => k = load F s ∧ ∃ tasks, Flushing p F ((root, type) :: tasks) s)
    (fun r => ∃ tasks s', Flushing p F ((root, type) :: tasks) s' ∧ s'.toProcess = [] ∧
      r = { s' with objects := fun _ => none })
    (by
      rintro k s ⟨rfl, tasks, hs⟩
      rcases turn_flushing hF hs with ⟨s', more, hturn, hlt, hs'⟩ | ⟨hturn, hqueue⟩
      · exact Or.inl ⟨s', _, hturn, hlt, rfl, tasks ++ more, hs'⟩
      · exact Or.inr ⟨_, hturn, tasks, s, hs, hqueue, rfl⟩)
    _ _ _ ⟨rfl, [], hfirst⟩ (Nat.lt_succ_self _)
  refine ⟨_, _, tasks, hrun, hs'.out, hs'.nodup, fun o t hmem hne => ?_, hqueue, hs'.level, fun _ => rfl⟩
  refine (hs'.inv.marked o).mp ?_
  cases hobject : s'.objects o with
  | none => exact absurd hobject (hs'.inv.pointed o t hmem hne)
  | some b =>
    cases b with
    | true => rfl
    | false =>
      have hwait := (hs'.inv.waiting o hobject).resolve_left nofun
      rw [hqueue] at hwait
      cases hwait

/-- Two objects that point to each other, the second one through an object that is embedded in it. -/
def ring : Unit → Addr → Body Unit
  | _, 8 => .object (.pointer ['n', 'e', 'x', 't'] () 16 .nil)
  | _, _ => .object (.object ['l', 'i', 'n', 'k'] () 16 (.pointer ['n', 'e', 'x', 't'] () 8 .nil) .nil)

theorem flush_serialize_ring :
    Closed ring {8, 16} ∧
      ∃ fuel s tasks, flush ring fuel ((ring () 8).serialize () 8 (.new Unit)) = some s ∧
        s.out = (((8, ()) :: tasks).flatMap (textOf ring)) ∧ ((8 :: tasks.map Prod.fst).Nodup) ∧
        (∀ o t, Piece.pointer o t ∈ s.out → o ≠ 0 → ∃ type', Piece.entry o type' ∈ s.out) ∧
        s.toProcess = [] ∧ s.level = 0 ∧ ∀ o, s.objects o = none := by
  have hclosed : Closed ring {8, 16} := by
    intro o ho type piece hpiece o' type' heq
    subst heq
    rcases Finset.mem_insert.mp ho with rfl | ho
    · simp_all [ring, Body.pieces, Members.pieces]
    · rw [Finset.mem_singleton.mp ho] at hpiece
      simp_all [ring, Body.pieces, Members.pieces]
  exact ⟨hclosed, flush_serialize ring {8, 16} hclosed () (by decide)⟩

end Elm.Serial.Text
