import Mathlib.Data.List.AList
import Elm.Xom.Node

/-!
# `dtd`

The parser of `src/xom_dtd.cpp`.  The DTD elements and the attributes are objects that are named by their
addresses, which are the types `E` and `A`; `V` is the type of the values of `Attribute<T>`, and a pointer
of the application is `none` when it is null.

The application is the factory.  Its answers depend on the whole state of the parser, with all the calls it
has received.  `parse` may not end (`Repeat`), so that it takes a number of steps.
-/

namespace Elm.Dtd

open Elm.Xom (Node)

/-! ## The DTD -/

/-- The classes that are derived from `Content`. -/
inductive Content (E : Type)
  | element (e : E)
  | optional (con : Content E)
  | alt (con1 con2 : Content E)
  | seq (con1 con2 : Content E)
  | repeat (con : Content E)
  | empty
  | ignored
  | pcdata
  | any

/-- The classes that are derived from `AbstractAttribute`; `read` is the reading of a value in a text, which
tells whether it fails. -/
inductive AttributeKind (V : Type)
  | abstract
  | value (init : V) (read : V → List Char → V × Bool)
  | string (init : List Char)
  | id
  | ref

/-- `AbstractAttribute`, without the members that change. -/
structure AbstractAttribute (E V : Type) where
  element : E
  name : List Char
  required : Bool
  strict : Bool
  forward : Bool
  kind : AttributeKind V

/-- `Element`. -/
structure Element (E A : Type) where
  name : List Char
  attrs : List A
  content : Content E

/-- The members of an attribute that change; `text` is the value of an `Attribute<xom::String>`. -/
structure AttributeState (V R : Type) where
  set : Bool
  value : V
  text : List Char
  id : List Char
  done : Bool
  ref : Option R

/-! ## The parser -/

/-- `backpatch_t`. -/
structure Backpatch (A R : Type) where
  attr : A
  object : Option R
  xelt : Option Node

/-- `context_t`. -/
structure Context (E : Type) where
  i : Nat
  elt : E
  node : Option Node

/-- A call of the factory, with what it returns. -/
inductive Call (E A R : Type)
  | begin (e : E)
  | endElement (e : E)
  | backtrack (e : E)
  | getRef (e : E) (ref : Option R)
  | getPatchRef (a : A) (object : Option R)
  | patch (a : A) (object ref : Option R)
  | getPCDATA (data : List Char)
  | getAny (node : Node)

/-- `Parser`, with the attributes and the calls of the factory. -/
structure Parser (E A V R : Type) where
  cur : Context E
  stack : List (Context E)
  map : AList fun _ : List Char => Option R
  patches : AList fun _ : List Char => List (Backpatch A R)
  posts : List A
  lastError : Option Node
  attr : A → AttributeState V R
  calls : List (Call E A R)

/-- `Factory`. -/
structure Factory (E A V R : Type) where
  getRef : Parser E A V R → E → Option R
  getPatchRef : Parser E A V R → A → Option R

/-- The DTD elements and their attributes, and the arguments `factory` and `flags` of the parser; an
attribute is added once, by its constructor, to the attributes of its element. -/
structure Definition (E A V R : Type) where
  element : E → Element E A
  attr : A → AbstractAttribute E V
  factory : Factory E A V R
  crop : Bool
  element_of_mem : ∀ e, ∀ a ∈ (element e).attrs, (attr a).element = e
  nodup_attrs : ∀ e, (element e).attrs.Nodup

/-- The messages of the exceptions; the first one is raised by an attribute with the flag `STRICT`. -/
inductive Exception
  | raise (element : Option Node) (message : List Char)
  | fail (element : Option Node) (message : List Char)

/-- What a function of the parser gives; it is `unfinished` when the number of steps is too small. -/
inductive Outcome (S α : Type)
  | returned (a : α)
  | raised (exception : Exception) (s : S)
  | unfinished

namespace Outcome

variable {S α β : Type}

def bind (x : Outcome S α) (f : α → Outcome S β) : Outcome S β :=
  match x with
  | .returned a => f a
  | .raised exception s => .raised exception s
  | .unfinished => .unfinished

instance : Monad (Outcome S) where
  pure := .returned
  bind := bind

@[simp] theorem pure_eq (a : α) : (pure a : Outcome S α) = .returned a := rfl

@[simp] theorem bind_returned (a : α) (f : α → Outcome S β) : (Outcome.returned a >>= f) = f a := rfl

theorem bind_eq_returned_iff {x : Outcome S α} {f : α → Outcome S β} {b : β} :
    (x >>= f) = .returned b ↔ ∃ a, x = .returned a ∧ f a = .returned b := by
  cases x with
  | returned a => simp
  | raised exception s =>
    constructor
    · intro h
      cases h
    · rintro ⟨a, ha, -⟩
      cases ha
  | unfinished =>
    constructor
    · intro h
      cases h
    · rintro ⟨a, ha, -⟩
      cases ha

theorem bind_eq_raised_iff {x : Outcome S α} {f : α → Outcome S β} {exception : Exception} {s : S} :
    (x >>= f) = .raised exception s ↔
      x = .raised exception s ∨ ∃ a, x = .returned a ∧ f a = .raised exception s := by
  cases x with
  | returned a => simp
  | raised exception' s' =>
    constructor
    · intro h
      cases h
      exact Or.inl rfl
    · rintro (h | ⟨a, ha, -⟩)
      · cases h
        rfl
      · cases ha
  | unfinished =>
    constructor
    · intro h
      cases h
    · rintro (h | ⟨a, ha, -⟩)
      · cases h
      · cases ha

end Outcome

namespace Parser

variable {E A V R : Type}

/-- `Parser::ended`. -/
def ended (s : Parser E A V R) : Bool := s.cur.node.isNone

/-- `Parser::parent`. -/
def parent (s : Parser E A V R) : Option Node := s.stack.head?.bind Context.node

/-- `Parser::recordError`. -/
def recordError (s : Parser E A V R) : Parser E A V R := { s with lastError := s.cur.node }

/-- The characters that `isEmpty` skips. -/
def isBlank (c : Char) : Bool := c = ' ' || c = '\t' || c = '\x0b' || c = '\n'

/-- `Parser::isEmpty`, for a node. -/
def isEmpty : Node → Bool
  | .text t => t.all isBlank
  | _ => false

/-- A call of the factory. -/
def call (s : Parser E A V R) (c : Call E A R) : Parser E A V R := { s with calls := s.calls ++ [c] }

/-- The members of an attribute are changed. -/
def setAttr [DecidableEq A] (s : Parser E A V R) (a : A) (state : AttributeState V R) : Parser E A V R :=
  { s with attr := Function.update s.attr a state }

/-- `Parser::addPost`. -/
def addPost (s : Parser E A V R) (a : A) : Parser E A V R := { s with posts := s.posts ++ [a] }

end Parser

namespace Definition

variable {E A V R : Type} [DecidableEq A] (d : Definition E A V R)

/-! ## Positions -/

omit [DecidableEq A] in
/-- The children that `setNode` stops at. -/
def stops (node : Node) : Bool := !(d.crop && Parser.isEmpty node)

omit [DecidableEq A] in
/-- `Parser::setNode`. -/
def setNode (s : Parser E A V R) : Parser E A V R :=
  match s.parent with
  | none => { s with cur := { s.cur with node := none } }
  | some parent =>
    let i := s.cur.i + ((parent.children.drop s.cur.i).takeWhile fun node => !d.stops node).length
    { s with cur := { s.cur with i := i, node := parent.children[i]? } }

omit [DecidableEq A] in
/-- `Parser::next`. -/
def next (s : Parser E A V R) : Parser E A V R :=
  d.setNode { s with cur := { s.cur with i := s.cur.i + 1 } }

omit [DecidableEq A] in
/-- `Parser::backtrack`. -/
def backtrack (s : Parser E A V R) (m : Nat) : Parser E A V R :=
  d.setNode { s with cur := { s.cur with i := m } }

/-! ## Identifiers and references -/

omit [DecidableEq A] in
/-- `Parser::recordID`. -/
def recordID (s : Parser E A V R) (id : List Char) (e : E) : Parser E A V R :=
  let p := d.factory.getRef s e
  let s := s.call (.getRef e p)
  let s := { s with map := s.map.insert id p }
  match s.patches.lookup id with
  | none => s
  | some bs =>
    let s := bs.foldl (fun s b => s.call (.patch b.attr b.object p)) s
    { s with patches := s.patches.erase id }

omit [DecidableEq A] in
/-- `Parser::recordPatch`. -/
def recordPatch (s : Parser E A V R) (id : List Char) (a : A) : Parser E A V R :=
  let p := d.factory.getPatchRef s a
  let s := s.call (.getPatchRef a p)
  let bs := (s.patches.lookup id).getD []
  { s with patches := s.patches.insert id (⟨a, p, s.cur.node⟩ :: bs) }

/-! ## Attributes -/

/-- `AbstractAttribute::reset`, `Attribute::reset`, `IDAttribute::reset` and `RefAttribute::reset`. -/
def reset (s : Parser E A V R) (a : A) : Parser E A V R :=
  let state := s.attr a
  s.setAttr a <|
    match (d.attr a).kind with
    | .abstract => { state with set := false }
    | .value init _ => { state with set := false, value := init }
    -- the attributes of strings keep the member `_set`
    | .string init => { state with text := init }
    | .id => { state with set := false, id := [] }
    | .ref => { state with set := false, done := false, ref := none }

/-- The exception of an attribute. -/
def raise (s : Parser E A V R) (a : A) (before value after : List Char) :
    Outcome (Parser E A V R) (Bool × Parser E A V R) :=
  .raised (.raise s.cur.node (before ++ value ++ after ++ (d.attr a).name)) s

/-- `AbstractAttribute::process`, `Attribute::process`, `IDAttribute::process` and
`RefAttribute::process`. -/
def process (s : Parser E A V R) (a : A) (value : List Char) :
    Outcome (Parser E A V R) (Bool × Parser E A V R) :=
  match (d.attr a).kind with
  | .abstract => .returned (true, s)
  | .value _ read =>
    let r := read (s.attr a).value value
    .returned (r.2, s.setAttr a { s.attr a with value := r.1 })
  | .string _ => .returned (true, s.setAttr a { s.attr a with text := value })
  | .id =>
    if (s.map.lookup value).isSome then
      if (d.attr a).strict then
        d.raise s a "already used identifier \"".toList value "\"in ".toList
      else
        .returned (false, s)
    else
      .returned (true, (s.setAttr a { s.attr a with id := value }).addPost a)
  | .ref =>
    match s.map.lookup value with
    | some p => .returned (true, s.setAttr a { s.attr a with id := value, done := true, ref := p })
    | none =>
      let s := s.setAttr a { s.attr a with id := value, done := false, ref := none }
      if (d.attr a).forward then
        .returned (true, s.addPost a)
      else if (d.attr a).strict then
        d.raise s a "undefined reference \"".toList value "\" in ".toList
      else
        .returned (false, s)

/-- `AbstractAttribute::parse`. -/
def parseAttribute (s : Parser E A V R) (a : A) : Outcome (Parser E A V R) (Bool × Parser E A V R) :=
  match s.cur.node.bind (·.getAttributeValue (d.attr a).name) with
  | some value => d.process (s.setAttr a { s.attr a with set := true }) a value
  | none => .returned (!(d.attr a).required, d.reset s a)

/-- The attributes of `Element::parse`. -/
def parseAttributes : List A → Parser E A V R → Outcome (Parser E A V R) (Bool × Parser E A V R)
  | [], s => .returned (true, s)
  | a :: as, s => do
    let (accepted, s) ← d.parseAttribute s a
    if accepted then
      parseAttributes as s
    else
      return (false, s.recordError)

omit [DecidableEq A] in
/-- `IDAttribute::postprocess` and `RefAttribute::postprocess`. -/
def postprocess (s : Parser E A V R) (a : A) : Parser E A V R :=
  match (d.attr a).kind with
  | .id => d.recordID s (s.attr a).id (d.attr a).element
  | .ref => d.recordPatch s (s.attr a).id a
  | _ => s

/-! ## Elements and contents -/

omit [DecidableEq A] in
/-- `Parser::begin`. -/
def begin (s : Parser E A V R) (e : E) : Parser E A V R :=
  let s := s.call (.begin e)
  let s := s.posts.foldl d.postprocess s
  let s := { s with posts := [], lastError := s.cur.node }
  let s := { s with stack := s.cur :: s.stack }
  d.setNode { s with cur := { s.cur with i := 0, elt := e } }

omit [DecidableEq A] in
/-- `Parser::end`. -/
def endElement (s : Parser E A V R) (success : Bool) : Parser E A V R :=
  match s.stack with
  | [] => s
  | context :: stack =>
    let elt := s.cur.elt
    let s := { s with cur := context, stack := stack }
    if !success then s.call (.backtrack elt) else d.next (s.call (.endElement elt))

omit [DecidableEq A] in
/-- The loop of `EmptyContent::parse`. -/
def parseEmpty (m : Nat) : Nat → Parser E A V R → Outcome (Parser E A V R) (Bool × Parser E A V R)
  | 0, _ => .unfinished
  | n + 1, s =>
    match s.cur.node with
    | none => .returned (true, s)
    | some node => if !Parser.isEmpty node then .returned (false, d.backtrack s m) else parseEmpty m n (d.next s)

omit [DecidableEq A] in
/-- The loops of `IgnoredContent::parse` and `AnyContent::parse`, with the call of the factory. -/
def parseAll (any : Bool) : Nat → Parser E A V R → Outcome (Parser E A V R) (Bool × Parser E A V R)
  | 0, _ => .unfinished
  | n + 1, s =>
    match s.cur.node with
    | none => .returned (true, s)
    | some node => parseAll any n (d.next (if any then s.call (.getAny node) else s))

omit [DecidableEq A] in
/-- `PCDATAContent::parse`. -/
def parsePCDATA (s : Parser E A V R) : Bool × Parser E A V R :=
  match s.cur.node with
  | none => (true, s.call (.getPCDATA []))
  | some (.text t) => (true, d.next (s.call (.getPCDATA t)))
  | some _ => (false, s)

/-- `Content::parse`, in a number of steps. -/
def parse : Nat → Content E → Parser E A V R → Outcome (Parser E A V R) (Bool × Parser E A V R)
  | 0, _, _ => .unfinished
  | n + 1, .element e, s =>
    match s.cur.node with
    | some (.element name _ _) =>
      if name ≠ (d.element e).name then
        return (false, s)
      else do
        let (accepted, s) ← d.parseAttributes (d.element e).attrs s
        if !accepted then
          return (false, s)
        else
          let (success, s) ← parse n (d.element e).content (d.begin s e)
          if !s.ended then
            return (false, d.endElement s.recordError false)
          else
            return (success, d.endElement s success)
    -- also at the end of the children
    | _ => return (false, s)
  | n + 1, .optional con, s =>
    if s.ended then
      return (true, s)
    else do
      let (_, s) ← parse n con s
      return (true, s)
  | n + 1, .alt con1 con2, s => do
    let (success, s) ← parse n con1 s
    if success then
      return (true, s)
    else
      parse n con2 s
  | n + 1, .seq con1 con2, s =>
    if s.ended then
      return (false, s)
    else do
      let m := s.cur.i
      let (success, s) ← parse n con1 s
      if !success then
        return (false, d.backtrack s m)
      else
        let (success, s) ← parse n con2 s
        if !success then
          return (false, d.backtrack s m)
        else
          return (true, s)
  | n + 1, .repeat con, s =>
    if s.ended then
      return (true, s)
    else do
      let (success, s) ← parse n con s
      if success then
        parse n (.repeat con) s
      else
        return (true, s)
  | n + 1, .empty, s => d.parseEmpty s.cur.i n s
  | n + 1, .ignored, s => d.parseAll false n s
  | _ + 1, .pcdata, s => return d.parsePCDATA s
  | n + 1, .any, s => d.parseAll true n s

/-- `Element::reset` and the other functions `reset`, in a number of steps. -/
def resetContent : Nat → Content E → Parser E A V R → Outcome (Parser E A V R) (Parser E A V R)
  | 0, _, _ => .unfinished
  | n + 1, .element e, s => resetContent n (d.element e).content ((d.element e).attrs.foldl d.reset s)
  | n + 1, .optional con, s => resetContent n con s
  | n + 1, .alt con1 con2, s => do
    let s ← resetContent n con1 s
    resetContent n con2 s
  | n + 1, .seq con1 con2, s => do
    let s ← resetContent n con1 s
    resetContent n con2 s
  | n + 1, .repeat con, s => resetContent n con s
  | _ + 1, _, s => return s

/-- `Parser::parse`, in a number of steps; `root` is the member `_elt`.  The error names the first pending reference
of the list, where the one of the source is the first by hash. -/
def parseDocument (n : Nat) (root : E) (xelt : Node) (s : Parser E A V R) :
    Outcome (Parser E A V R) (Parser E A V R) := do
  let s := { s with patches := ∅, posts := [] }
  let s ← d.resetContent n (.element root) s
  let s := { s with cur := ⟨0, root, some xelt⟩, lastError := some xelt }
  let (success, s) ← d.parse n (.element root) s
  if !success then
    .raised (.fail s.lastError "cannot parse.".toList) s
  else
    match s.patches.entries with
    | [] => return s
    | ⟨id, bs⟩ :: _ =>
      .raised (.fail (bs.head?.bind Backpatch.xelt) ("some references are pending as ".toList ++ id)) s

/-- `Element::parse`, which creates a parser, with the members of the attributes. -/
def parseElement (n : Nat) (root : E) (xelt : Node) (attr : A → AttributeState V R) :
    Outcome (Parser E A V R) (Parser E A V R) :=
  d.parseDocument n root xelt ⟨⟨0, root, none⟩, [], ∅, ∅, [], none, attr, []⟩

end Definition

end Elm.Dtd
