import Elm.Serial.Unserializer

/-!
# Collections in XML

`CollectionSerializer` and the functions on arrays of `include/elm/serial2/collections.h`, with the functions of
`XOMElementSerializer` and of `XOMUnserializer` that they call.  An element that is written is the last child of the
one below it on the stack: it is put there when its context is left.

The items of a compound are of one type, which leads the reading.  What is no compound is written in the current
element and read from it by functions that do not touch the contexts.
-/

namespace Elm.Serial.Compound

open Elm.Xom

/-! ## Types and values -/

/-- A type whose values are not compounds, and the arrays and the collections. -/
inductive Shape
  | value
  | array (item : Shape)
  | collection (item : Shape)

/-- The values in the memory; a compound has an address. -/
def Stored (α : Type) : Shape → Type
  | .value => α
  | .array t => Addr × List (Stored α t)
  | .collection t => Addr × List (Stored α t)

/-- The values without their addresses. -/
def Data (α : Type) : Shape → Type
  | .value => α
  | .array t => List (Data α t)
  | .collection t => List (Data α t)

def Stored.data {α : Type} : (t : Shape) → Stored α t → Data α t
  | .value, a => a
  | .array t, v => v.2.map (Stored.data t)
  | .collection t, v => v.2.map (Stored.data t)

/-- An element that is being written. -/
structure Elem where
  name : List Char
  attributes : List (List Char × List Char)
  children : List Node

namespace Elem

/-- A new element. -/
def new (name : List Char) : Elem := ⟨name, [], []⟩

def node (e : Elem) : Node := .element e.name e.attributes e.children

/-- `addAttribute`, which changes an attribute that there is already. -/
def addAttribute (e : Elem) (name value : List Char) : Elem :=
  if e.attributes.any (·.1 = name) then
    { e with attributes := e.attributes.map fun a => if a.1 = name then (name, value) else a }
  else
    { e with attributes := e.attributes ++ [(name, value)] }

/-- `appendChild`. -/
def appendChild (e : Elem) (child : Node) : Elem := { e with children := e.children ++ [child] }

end Elem

/-- How the reading stops: a failed assertion, or an exception. -/
inductive Failure
  | assertion
  | exception (message : List Char)
  deriving DecidableEq

/-- `onValue` and its like, for the types that are not compounds. -/
structure Codec (α : Type) where
  write : α → Elem → Elem
  read : Node → Except Failure α

/-- What is written in a new element is read back. -/
def Codec.Faithful {α : Type} (codec : Codec α) : Prop :=
  ∀ a name, codec.read (codec.write a (Elem.new name)).node = .ok a

/-! ## `XOMElementSerializer` -/

/-- `XOMElementSerializer::context_t`. -/
structure WriteContext where
  elem : Elem
  firstItem : Bool

/-- The members `idmap` and `ref_current`. -/
structure Ids where
  idmap : Addr → Option Nat
  refCurrent : Nat

/-- `refGet`. -/
def Ids.refGet (ids : Ids) (object : Addr) : Nat × Ids :=
  match ids.idmap object with
  | some id => (id, ids)
  | none => (ids.refCurrent, ⟨Function.update ids.idmap object (some ids.refCurrent), ids.refCurrent + 1⟩)

/-- The serializer; its constructor does not initialize `ctx.firstItem`. -/
structure Writer where
  ctx : WriteContext
  stack : List WriteContext
  ids : Ids

def itemName : List Char := ['i', 't', 'e', 'm']

namespace Writer

/-- `ctx = stack.pop()`: the element that is left is the last child of the one that is found. -/
def pop (s : Writer) : Option Writer :=
  match s.stack with
  | [] => none
  | ctx :: stack => some { s with ctx := { ctx with elem := ctx.elem.appendChild s.ctx.elem.node }, stack }

/-- `beginCompound`. -/
def beginCompound (s : Writer) (object : Addr) : Writer :=
  let (id, ids) := s.ids.refGet object
  let ctx := { s.ctx with elem := s.ctx.elem.addAttribute idTag (toString id).toList }
  { ctx := ⟨Elem.new itemName, true⟩, stack := ctx :: s.stack, ids }

/-- `endCompound`. -/
def endCompound (s : Writer) : Option Writer := s.pop

/-- `onItem`. -/
def onItem (s : Writer) : Option Writer :=
  if s.ctx.firstItem then
    some { s with ctx := { s.ctx with firstItem := false } }
  else do
    let s ← s.pop
    -- `firstItem` is the one of the context that was pushed
    return { s with ctx := { s.ctx with elem := Elem.new itemName }, stack := s.ctx :: s.stack }

end Writer

section Serialize

variable {α : Type} (codec : Codec α)

/-- The serialization of the items of a compound. -/
def serializeItems {β : Type} (write : β → Writer → Option Writer) (object : Addr) (items : List β) (s : Writer) :
    Option Writer := do
  let s ← items.foldlM (fun s item => do write item (← s.onItem)) (s.beginCompound object)
  s.endCompound

/-- `__serialize`, and `CollectionSerializer::serialize`. -/
def serialize : (t : Shape) → Stored α t → Writer → Option Writer
  | .value, a, s => some { s with ctx := { s.ctx with elem := codec.write a s.ctx.elem } }
  | .array t, v, s => serializeItems (serialize t) v.1 v.2 s
  | .collection t, v, s => serializeItems (serialize t) v.1 v.2 s

end Serialize

/-! ## `XOMUnserializer` -/

/-- `XOMUnserializer::context_t`. -/
structure ReadContext where
  i : Nat
  elem : Node

/-- The unserializer. -/
structure Reader where
  ctx : ReadContext
  stack : List ReadContext

namespace Reader

/-- The loops on `ctx.i` from the index `i` on: the first child that is an element is entered. -/
def enterFrom (s : Reader) (i : Nat) : Bool × Reader :=
  let j := i + (s.ctx.elem.children.drop i).findIdx Node.isElement
  match s.ctx.elem.children[j]? with
  | some node => (true, ⟨⟨j, node⟩, ⟨j, s.ctx.elem⟩ :: s.stack⟩)
  | none => (false, ⟨⟨j, s.ctx.elem⟩, s.stack⟩)

/-- `beginCompound`. -/
def beginCompound (s : Reader) : Bool × Reader := s.enterFrom 0

/-- `nextItem`. -/
def nextItem (s : Reader) : Except Failure (Bool × Reader) :=
  match s.stack with
  | [] => .error .assertion
  | ctx :: stack => .ok (enterFrom ⟨ctx, stack⟩ (ctx.i + 1))

/-- `endCompound`. -/
def endCompound (s : Reader) : Reader := s

/-- `countItems`. -/
def countItems (s : Reader) : Nat := s.ctx.elem.children.countP Node.isElement

end Reader

section Unserialize

variable {β : Type} (read : Reader → Except Failure (β × Reader))

/-- The loop on the items of an array. -/
def readArray : Nat → Reader → Except Failure (List β × Reader)
  | 0, s => .ok ([], s)
  | n + 1, s => do
    let (item, s) ← read s
    let (_, s) ← s.nextItem
    let (items, s) ← readArray n s
    return (item :: items, s)

/-- The loop of `CollectionSerializer::unserialize`, where `nextItem` is not called. -/
def readCollection : Nat → Reader → Except Failure (List β × Reader)
  | 0, s => .ok ([], s)
  | n + 1, s => do
    let (item, s) ← read s
    let (items, s) ← readCollection n s
    return (item :: items, s)

/-- `__unserialize` of a new `AllocArray`. -/
def unserializeArray (s : Reader) : Except Failure (List β × Reader) :=
  let cnt := s.countItems
  if cnt ≠ 0 then
    let (begun, s) := s.beginCompound
    if !begun then
      .error .assertion
    else do
      let (items, s) ← readArray read cnt s
      return (items, s.endCompound)
  else
    .ok ([], s)

/-- `CollectionSerializer::unserialize` of an empty collection. -/
def unserializeCollection (s : Reader) : Except Failure (List β × Reader) := do
  let cnt := s.countItems
  let (items, s) ← readCollection read cnt s.beginCompound.2
  return (items, s.endCompound)

/-- `__unserialize`, and `CollectionSerializer::unserialize`. -/
def unserialize {α : Type} (codec : Codec α) : (t : Shape) → Reader → Except Failure (Data α t × Reader)
  | .value, s => do
    let a ← codec.read s.ctx.elem
    return (a, s)
  | .array t, s => unserializeArray (unserialize codec t) s
  | .collection t, s => unserializeCollection (unserialize codec t) s

end Unserialize

end Elm.Serial.Compound
