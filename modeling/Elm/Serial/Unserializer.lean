import Mathlib.Logic.Function.Basic
import Elm.Xom.Node

/-!
# `XOMUnserializer`

The objects that are built from an XML document, after `src/serial2_XOMUnserializer.cpp`, with the part of
`include/elm/serial2/serial.h` that reads a class: its fields, which are named, are looked for in the children of the
element of the object.  A field is a value, an object or a pointer; collections are left out.

The element that `ctx` and `stack` keep is an argument here, as each `beginField` has its `endField`.  The objects, the
fields and the pointers are numbered in the order in which they are met: these numbers are the addresses.  The values
that are read and the name of the document are not kept.
-/

namespace Elm.Serial

open Elm.Xom Function

abbrev Id := List Char

abbrev Addr := Nat

/-! ## Types -/

/-- What `FIELD` and `DFIELD` give; `type` is the type of the field, or of what it points to. -/
structure Field (T : Type) where
  name : List Char
  pointer : Bool
  type : T

/-- What `__unserialize` does with a type: `onValue` or `onEnum`, for which the text is well-formed or not, or
`beginObject` and the fields that `__visit` gives, those of the base classes first. -/
inductive Content (T : Type)
  | value (reads : List Char → Bool)
  | object (fields : List (Field T))

/-- `rtti::Type`. -/
structure TypeInfo (T : Type) where
  isClass : Bool
  isSerial : Bool
  content : Content T

/-- The types of the program, `Type::get` and the external solver.  `ExternalSolver::solve`, which is not virtual,
always answers null. -/
structure World (T : Type) where
  info : T → TypeInfo T
  get : List Char → Option T
  solve : Id → Option Addr

/-- How reading an element fails; the last two stop the program. -/
inductive Exn (T : Type)
  | noClass (name : List Char)
  | notClass (t : T)
  | notSerial (t : T)
  | malformed
  | usedTwice (id : Id)
  | asSerial (t : T)
  | nullElement

/-! ## References -/

/-- `XOMUnserializer::ref_t`: `ptr` is null until the object is known, and `patches` are the pointers that wait. -/
structure Ref (T : Type) where
  type : T
  ptr : Option Addr
  patches : List Addr

/-- What the pointers of the program hold. -/
abbrev Mem := Addr → Option Addr

namespace Ref

variable {T : Type}

def isRecorded (r : Ref T) : Bool := r.ptr.isSome

/-- `ref_t::put`. -/
def put (r : Ref T) (l : Addr) (mem : Mem) : Ref T × Mem :=
  match r.ptr with
  | some a => (r, update mem l (some a))
  | none => ({ r with patches := l :: r.patches }, mem)

/-- `ref_t::record`. -/
def record (r : Ref T) (a : Addr) (mem : Mem) : Ref T × Mem :=
  ({ r with ptr := some a, patches := [] }, r.patches.foldl (fun mem l => update mem l (some a)) mem)

end Ref

/-- The members `refs` and `pending` and the memory.  `asked` and `built` are a record of the run: the pointers that
have asked for the object of an identifier, and the objects that have been built for an element with an identifier. -/
structure State (T : Type) where
  refs : Id → Option (Ref T)
  pending : List Id
  mem : Mem
  next : Addr
  asked : List (Id × Addr)
  built : List (Id × Addr)

/-- The unserializer as its constructors leave it. -/
def State.init (T : Type) (mem : Mem) (next : Addr) : State T := ⟨fun _ => none, [], mem, next, [], []⟩

/-! ## The tags -/

def idTag : List Char := ['i', 'd']

def refTag : List Char := ['r', 'e', 'f']

def nullTag : List Char := ['N', 'U', 'L', 'L']

def classTag : List Char := ['c', 'l', 'a', 's', 's']

namespace State

variable {T : Type}

/-- A new address. -/
def alloc (s : State T) : State T := { s with next := s.next + 1 }

def store (s : State T) (l : Addr) (v : Option Addr) : State T := { s with mem := update s.mem l v }

/-- The object of an element is recorded as built. -/
def note (s : State T) (e : Node) (a : Addr) : State T :=
  { s with built := s.built ++ (e.getAttributeValue idTag).toList.map fun id => (id, a) }

/-- `r`, the reference of `id`, is changed with the memory. -/
def setRef (s : State T) (id : Id) (r : Ref T × Mem) : State T :=
  { s with refs := update s.refs id (some r.1), mem := r.2 }

/-- `record` of the reference of `id`. -/
def record (s : State T) (id : Id) (a : Addr) : State T :=
  match s.refs id with
  | some r => s.setRef id (r.record a s.mem)
  | none => s

/-- A new reference is pushed on `pending`. -/
def addRef (s : State T) (t : T) (id : Id) : State T × Ref T :=
  ({ s with pending := id :: s.pending, refs := update s.refs id (some ⟨t, none, []⟩) }, ⟨t, none, []⟩)

/-- The part of `onPointer` about an identifier. -/
def refer (s : State T) (t : T) (id : Id) (l : Addr) : State T :=
  let (s, r) := match s.refs id with
    | some r => (s, r)
    | none => s.addRef t id
  { s.setRef id (r.put l s.mem) with asked := (id, l) :: s.asked }

/-- `lookupID`, which is all that `beginObject` does. -/
def lookupID (s : State T) (e : Node) (t : T) (a : Addr) : Except (Exn T) (State T) :=
  match e.getAttributeValue idTag with
  | none => .ok s
  | some id =>
    match s.refs id with
    | some r => if r.isRecorded then .error (.usedTwice id) else .ok (s.setRef id (r.record a s.mem))
    | none => .ok { s with refs := update s.refs id (some ⟨t, some a, []⟩) }

end State

/-! ## The reading of an element -/

variable {T : Type}

/-- The reading of an element as an object of a type that is at an address. -/
abbrev Reader (T : Type) := T → Addr → State T → Except (Exn T) (State T)

/-- The class of an embedded object. -/
def findClass (w : World T) (e : Node) (t : T) : Except (Exn T) T :=
  match e.getAttributeValue classTag with
  | none => .ok t
  | some name =>
    match w.get name with
    | none => .error (.noClass name)
    | some u =>
      if ¬ (w.info u).isClass then .error (.notClass u)
      else if ¬ (w.info u).isSerial then .error (.notSerial u)
      else .ok u

/-- `embed`: the pointer at `l` is set to a new object, whose address is given back. -/
def embed (w : World T) (unserialize : Reader T) (e : Node) (t : T) (l : Addr) (s : State T) :
    Except (Exn T) (State T × Addr) :=
  match findClass w e t with
  | .error x => .error x
  | .ok u =>
    if (w.info u).isSerial then
      (unserialize u s.next (s.alloc.store l (some s.next))).map fun s' => (s', s.next)
    else
      .error (.asSerial u)

/-- `onPointer`. -/
def onPointer (w : World T) (unserialize : Reader T) (e : Node) (t : T) (l : Addr) (s : State T) :
    Except (Exn T) (State T) :=
  match e.getAttributeValue refTag with
  | some id => .ok (if id = nullTag then s.store l none else s.refer t id l)
  | none => (embed w unserialize e t l s).map Prod.fst

/-- `__unserialize` of a field, between `beginField` and `endField`. -/
def Field.unserialize (w : World T) (f : Field T) (unserialize : Reader T) (e : Node) (s : State T) :
    Except (Exn T) (State T) :=
  if f.pointer then
    onPointer w unserialize e f.type s.next s.alloc
  else
    match (w.info f.type).content with
    | .value reads => if reads e.getValue then .ok s else .error .malformed
    | .object _ => unserialize f.type s.next s.alloc

mutual

/-- `Serializable::unserialize`, which for a class is `from_class::unserialize`. -/
def unserialize (w : World T) : Node → T → Addr → State T → Except (Exn T) (State T)
  | .element name attributes children, t, a, s =>
    let s := s.note (.element name attributes children) a
    match (w.info t).content with
    | .value reads => if reads (Node.getValues children) then .ok s else .error .malformed
    | .object fields => do
      let s ← s.lookupID (.element name attributes children) t a
      fields.foldlM (fun s f => readField w children f s) s
  | _, _, _, s => .ok s

/-- `__unserialize` of a `Field`: `beginField` takes the first child that has its name. -/
def readField (w : World T) : List Node → Field T → State T → Except (Exn T) (State T)
  | [], _, s => .ok s
  | c :: children, f, s =>
    if c.hasName f.name then f.unserialize w (unserialize w c) c s else readField w children f s

end

end Elm.Serial
