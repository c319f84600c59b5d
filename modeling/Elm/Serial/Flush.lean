import Elm.Lib.Loop
import Elm.Lib.Planned
import Elm.Serial.Unserializer

/-!
# `XOMUnserializer::flush`

The loop that builds the objects of the pending references, and what it should do.  `Ready` is the condition under
which a turn of the loop goes well: it is about the references as they are before the turn, the element that is built
in it and the types.
-/

namespace Elm.Serial

open Elm.Xom

variable {T : Type}

/-! ## The dictionary of the identifiers -/

/-- The loop on `todo`, with its elements from the top. -/
def collect : Nat → List Node → (Id → Option Node) → Id → Option Node
  | 0, _, elems => elems
  | _ + 1, [], elems => elems
  | fuel + 1, e :: todo, elems =>
    collect fuel ((e.children.filter Node.isElement).reverse ++ todo)
      (match e.getAttributeValue idTag with
        | some id => Function.update elems id (some e)
        | none => elems)

/-- The elements of the document that `flush` finds for the identifiers. -/
def dictionary (root : Node) : Id → Option Node := collect root.descendants.length [root] fun _ => none

/-! ## `flush` -/

/-- How `flush` ends: `failed` is for the exceptions and the failures of `embed`. -/
inductive Outcome (T : Type)
  | returned (s : State T)
  | unresolved (id : Id) (s : State T)
  | failed (x : Exn T)

/-- A turn of the loop on `pending`.  When the solver knows the object, it is recorded, but the null element is
embedded all the same. -/
def turn (w : World T) (elems : Id → Option Node) (s : State T) : State T ⊕ Outcome T :=
  match s.pending with
  | [] => .inr (.returned s)
  | id :: pending =>
    let s := { s with pending := pending }
    match s.refs id with
    | none => .inl s
    | some r =>
      if r.isRecorded then
        .inl s
      else
        match elems id, w.solve id with
        | none, none => .inr (.unresolved id { s with pending := [] })
        | none, some _ => .inr (.failed .nullElement)
        | some e, _ =>
          match embed w (unserialize w e) e r.type s.next s.alloc with
          | .error x => .inr (.failed x)
          | .ok (s, obj) => .inl (s.record id obj)

/-- `flush`, with a bound on the turns of its loop. -/
def flush (w : World T) (root : Node) (fuel : Nat) (s : State T) : Option (Outcome T) :=
  Loop.run (turn w (dictionary root)) fuel s

/-! ## What `flush` should do -/

/-- An element of the document has this identifier. -/
def Carried (root : Node) (id : Id) : Prop := ∃ e ∈ root.descendants, e.getAttributeValue idTag = some id

namespace State

/-- The references that an earlier `flush` has taken from `pending` when it threw. -/
def Dropped (s : State T) (id : Id) : Prop := ∃ r, s.refs id = some r ∧ r.ptr = none ∧ id ∉ s.pending

/-- The pointers that wait for the object of an identifier. -/
def Waiting (s : State T) (id : Id) (l : Addr) : Prop := ∃ r, s.refs id = some r ∧ l ∈ r.patches

/-- The identifiers that have an object. -/
def ids (s : State T) : List Id := s.built.map Prod.fst

end State

/-- The end of a `flush` that did its work, from the state `s`. -/
def Settles (w : World T) (root : Node) (s : State T) : Outcome T → Prop
  | .returned s' =>
    (∀ id l, s.Waiting id l ∨ (id, l) ∈ s'.asked → ¬ s.Dropped id → ∃ a, s'.mem l = some a ∧
      ((id, a) ∈ s'.built ∨ ¬ Carried root id ∧ w.solve id = some a)) ∧ s'.ids.Nodup
  | .unresolved id s' => ¬ Carried root id ∧ w.solve id = none ∧ s'.ids.Nodup
  | .failed _ => False

/-- `flush` ends and does its work. -/
def Flushes (w : World T) (root : Node) (s : State T) : Prop :=
  ∃ fuel o, flush w root fuel s = some o ∧ Settles w root s o

/-! ## The condition -/

/-- The identifiers of the objects that `embed` builds. -/
def embedParts (w : World T) (parts : T → Option (List Id)) (e : Node) (t : T) : Option (List Id) :=
  match findClass w e t with
  | .error _ => none
  | .ok u => if (w.info u).isSerial then parts u else none

/-- The identifiers of the objects that are built with a field. -/
def Field.parts (w : World T) (f : Field T) (parts : T → Option (List Id)) (e : Node) : Option (List Id) :=
  if f.pointer then
    match e.getAttributeValue refTag with
    | some _ => some []
    | none => embedParts w parts e f.type
  else
    match (w.info f.type).content with
    | .value reads => if reads e.getValue then some [] else none
    | .object _ => parts f.type

mutual

/-- The identifiers of the objects that are built with an element, if its description is complete: the texts are
well-formed and the classes can be found. -/
def parts (w : World T) : Node → T → Option (List Id)
  | .element _ attributes children, t =>
    match (w.info t).content with
    | .value reads => if reads (Node.getValues children) then some (attributes.lookup idTag).toList else none
    | .object fields =>
      Planned.append (some (attributes.lookup idTag).toList) (Planned.concat (fieldParts w children) fields)
  | _, _ => some []

def fieldParts (w : World T) : List Node → Field T → Option (List Id)
  | [], _ => some []
  | c :: children, f => if c.hasName f.name then f.parts w (parts w c) c else fieldParts w children f

end

/-- The turn for the first pending reference goes well: its object is known, or the solver does not know it either, or
its element can be read and no object that it contains has been built. -/
def Ready (w : World T) (elems : Id → Option Node) (s : State T) : Prop :=
  match s.pending with
  | [] => True
  | id :: _ =>
    match s.refs id with
    | none => True
    | some r => r.isRecorded ∨
        match elems id with
        | none => w.solve id = none
        | some e => ∃ ids, embedParts w (parts w e) e r.type = some ids ∧ (s.ids ++ ids).Nodup

end Elm.Serial
