import Elm.Lib.Chain
import Elm.Lib.Loop

/-!
# `List`

The singly linked lists of `include/elm/data/List.h`, over the nodes of `include/elm/inhstruct/SLList.h`.  The
nodes of all the lists are in one memory: to use a node that has been freed, or a null pointer, gives no result.
A loop over the nodes of a list is given the number of nodes that have been made as a bound.
-/

namespace Elm.Data.LinkedList

open Function

variable {T : Type}

/-- The nodes, with their pointer `nxt` and their value `val`, and the address of the next node to be made. -/
structure Memory (T : Type) where
  nodes : Chain.Read Nat T
  next : Nat

namespace Memory

/-- Before the first node. -/
def start : Memory T := ⟨fun _ => none, 0⟩

/-- `new Node`: a node that is not linked. -/
def new (m : Memory T) (v : T) : Memory T :=
  { nodes := update m.nodes m.next (some (none, v)), next := m.next + 1 }

/-- `Node::free`. -/
def free (m : Memory T) (a : Nat) : Option (Memory T) :=
  (m.nodes a).map fun _ => { m with nodes := update m.nodes a none }

/-- `SLNode::next`. -/
def nxt (m : Memory T) (a : Nat) : Option (Option Nat) := (m.nodes a).map Prod.fst

/-- The member `val`. -/
def val (m : Memory T) (a : Nat) : Option T := (m.nodes a).map Prod.snd

/-- The pointer of a node is changed. -/
def setNxt (m : Memory T) (a : Nat) (p : Option Nat) : Option (Memory T) :=
  (m.nodes a).map fun c => { m with nodes := update m.nodes a (some (p, c.2)) }

/-- The value of a node is changed. -/
def setVal (m : Memory T) (a : Nat) (v : T) : Option (Memory T) :=
  (m.nodes a).map fun c => { m with nodes := update m.nodes a (some (c.1, v)) }

/-- `SLNode::insertAfter`. -/
def insertAfter (m : Memory T) (a node : Nat) : Option (Memory T) := do
  let m ← m.setNxt node (← m.nxt a)
  m.setNxt a (some node)

/-- `SLNode::removeNext`. -/
def removeNext (m : Memory T) (a : Nat) : Option (Memory T) := do
  let b ← ← m.nxt a
  m.setNxt a (← m.nxt b)

end Memory

/-- A list: its member `fst`, and the memory. -/
structure SLList (T : Type) where
  mem : Memory T
  fst : Option Nat

/-- A `PrecIter`: its members `node` and `prev`. -/
structure PrecIter where
  node : Option Nat
  prev : Option Nat
  deriving DecidableEq

namespace SLList

/-- `_list.addFirst`. -/
def link (s : SLList T) (node : Nat) : Option (SLList T) := do
  let mem ← s.mem.setNxt node s.fst
  some ⟨mem, some node⟩

/-- `_list.removeFirst`. -/
def unlink (s : SLList T) : Option (SLList T) := do
  let a ← s.fst
  some { s with fst := ← s.mem.nxt a }

/-- A loop over the nodes of the list. -/
def loop {σ ρ : Type} (s : SLList T) (body : σ → Nat → T → σ ⊕ ρ) (exit : σ → ρ) (p : Option Nat) (init : σ) :
    Option ρ :=
  Chain.walk s.mem.nodes body exit s.mem.next p init

/-- `_list.last`. -/
def lastNode (s : SLList T) : Option (Option Nat) :=
  match s.fst with
  | none => some none
  | some a => do s.loop (fun _ b _ => .inl b) some (← s.mem.nxt a) a

/-! ## Observers -/

/-- The nodes that `Iter` goes through. -/
def items (s : SLList T) : Option (List (Nat × T)) :=
  s.loop (fun seen a v => .inl (seen ++ [(a, v)])) id s.fst []

/-- `count`. -/
def count (s : SLList T) : Option Nat := s.loop (fun cnt _ _ => .inl (cnt + 1)) id s.fst 0

/-- `isEmpty`. -/
def isEmpty (s : SLList T) : Bool := s.fst.isNone

/-- `contains`. -/
def contains (isEqual : T → T → Bool) (s : SLList T) (item : T) : Option Bool :=
  s.loop (fun _ _ v => if isEqual item v then .inr true else .inl ()) (fun _ => false) s.fst ()

/-- The loop of `find`, from a node. -/
def findLoop (isEqual : T → T → Bool) (s : SLList T) (item : T) (p : Option Nat) : Option (Option Nat) :=
  s.loop (fun _ a v => if isEqual item v then .inr (some a) else .inl ()) (fun _ => none) p ()

/-- `find`. -/
def find (isEqual : T → T → Bool) (s : SLList T) (item : T) : Option (Option Nat) :=
  s.findLoop isEqual item s.fst

/-- `find`, after a position. -/
def findAfter (isEqual : T → T → Bool) (s : SLList T) (item : T) (pos : Nat) : Option (Option Nat) := do
  s.findLoop isEqual item (← s.mem.nxt pos)

/-- `first`. -/
def first (s : SLList T) : Option T := s.fst.bind s.mem.val

/-- `last`. -/
def last (s : SLList T) : Option T := do
  s.mem.val (← ← s.lastNode)

/-- `nth`: there is no result when an assertion fails. -/
def nth (s : SLList T) (n : Int) : Option T := do
  ← s.loop (fun n _ v => if n = 0 then .inr (some v) else .inl (n - 1)) (fun _ => none) s.fst n

/-! ## Changes -/

/-- `addFirst`. -/
def addFirst (s : SLList T) (v : T) : Option (SLList T) := link { s with mem := s.mem.new v } s.mem.next

/-- `addLast`. -/
def addLast (s : SLList T) (v : T) : Option (SLList T) :=
  let s' : SLList T := { s with mem := s.mem.new v }
  if s'.fst = none then
    s'.link s.mem.next
  else do
    some { s' with mem := ← s'.mem.insertAfter (← ← s'.lastNode) s.mem.next }

/-- `addAfter`. -/
def addAfter (s : SLList T) (pos : Option Nat) (v : T) : Option (SLList T) := do
  let a ← pos
  some { s with mem := ← (s.mem.new v).insertAfter a s.mem.next }

/-- `removeFirst`. -/
def removeFirst (s : SLList T) : Option (SLList T) := do
  let node ← s.fst
  let s ← s.unlink
  some { s with mem := ← s.mem.free node }

/-- `removeLast`: the loop of `_list.removeLast` keeps the node and the one before. -/
def removeLast (s : SLList T) : Option (SLList T) := do
  let last ← ← s.lastNode
  let a ← s.fst
  let prv ← s.loop (fun (node, _) b _ => .inl (b, some node)) Prod.snd (← s.mem.nxt a) (a, none)
  let s ← match prv with
    | some prv => do some { s with mem := ← s.mem.removeNext prv }
    | none => s.unlink
  some { s with mem := ← s.mem.free last }

/-- `remove`, of a value. -/
def remove (isEqual : T → T → Bool) (s : SLList T) (value : T) : Option (SLList T) :=
  match s.fst with
  | none => some s
  | some a => do
    if isEqual (← s.mem.val a) value then
      s.removeFirst
    else
      let found ← s.loop (fun prev cur v => if isEqual v value then .inr (some (prev, cur)) else .inl cur)
        (fun _ => none) (← s.mem.nxt a) a
      match found with
      | none => some s
      | some (prev, cur) => do
        let mem ← s.mem.removeNext prev
        some { s with mem := ← mem.free cur }

/-- `set`. -/
def set (s : SLList T) (pos : Option Nat) (item : T) : Option (SLList T) := do
  let a ← pos
  some { s with mem := ← s.mem.setVal a item }

/-- The loop of `clear`. -/
def clearLoop : Nat → SLList T → Option (SLList T)
  | 0, s => if s.fst = none then some s else none
  | fuel + 1, s => if s.fst = none then some s else s.removeFirst.bind (clearLoop fuel)

/-- `clear`. -/
def clear (s : SLList T) : Option (SLList T) := clearLoop s.mem.next s

/-- The loop of `copy`: `item` is in the other list, and `cur` is the last node of this one. -/
def copyLoop : Nat → Memory T → Option Nat → Nat → Option (Memory T)
  | _, m, none, _ => some m
  | 0, _, some _, _ => none
  | fuel + 1, m, some a, cur => do
    let m' ← (m.new (← m.val a)).insertAfter cur m.next
    copyLoop fuel m' (← m'.nxt a) (← ← m'.nxt cur)

/-- `copy`: `list` is the member `fst` of the other list, or of this one. -/
def copy (s : SLList T) (list : SLList T → Option Nat) : Option (SLList T) := do
  let s ← s.clear
  match list s with
  | none => some s
  | some a => do
    let s ← s.addFirst (← s.mem.val a)
    let cur ← s.fst
    some { s with mem := ← copyLoop s.mem.next s.mem (← s.mem.nxt a) cur }

/-! ## Iterators -/

/-- `PrecIter`, at the start of the list. -/
def begin (s : SLList T) : PrecIter := ⟨s.fst, none⟩

/-- `PrecIter::next`. -/
def forward (s : SLList T) (i : PrecIter) : Option PrecIter := do
  let a ← i.node
  some ⟨← s.mem.nxt a, some a⟩

/-- `addBefore`. -/
def addBefore (s : SLList T) (pos : PrecIter) (v : T) : Option (SLList T × PrecIter) :=
  match pos.prev with
  | none => do
    let s ← s.addFirst v
    some (s, { pos with prev := s.fst })
  | some prev => do
    let mem ← (s.mem.new v).insertAfter prev s.mem.next
    some ({ s with mem }, { pos with prev := ← mem.nxt prev })

/-- `remove`, at an iterator. -/
def removeAt (s : SLList T) (i : PrecIter) : Option (SLList T × PrecIter) := do
  let cur ← i.node
  match i.prev with
  | none => do
    let s ← s.removeFirst
    some (s, { i with node := s.fst })
  | some prev => do
    let mem ← s.mem.removeNext prev
    let mem ← mem.free cur
    some ({ s with mem }, { i with node := ← mem.nxt prev })

end SLList

/-- What is done to a list; `addAfter`, `addBefore`, `removeAt` and `set` are done at its iterator. -/
inductive Act (T : Type)
  | addFirst (v : T)
  | addLast (v : T)
  | addAfter (v : T)
  | addBefore (v : T)
  | removeFirst
  | removeLast
  | remove (v : T)
  | removeAt
  | set (v : T)
  | copy (src : Nat)
  | clear
  | begin
  | next

/-- An action on the list `l`. -/
structure Op (T : Type) where
  l : Nat
  act : Act T

/-! ## The program -/

/-- The memory, and the member `fst` and an iterator of each list. -/
structure State (T : Type) where
  mem : Memory T
  fst : Nat → Option Nat
  iter : Nat → PrecIter

namespace State

/-- The lists are empty. -/
def start : State T := ⟨.start, fun _ => none, fun _ => ⟨none, none⟩⟩

def list (t : State T) (l : Nat) : SLList T := ⟨t.mem, t.fst l⟩

/-- A list has been changed. -/
def put (t : State T) (l : Nat) (s : SLList T) : State T :=
  { t with mem := s.mem, fst := update t.fst l s.fst }

/-- An iterator has been changed. -/
def putIter (t : State T) (l : Nat) (i : PrecIter) : State T := { t with iter := update t.iter l i }

/-- One operation. -/
def step (isEqual : T → T → Bool) (t : State T) (op : Op T) : Option (State T) :=
  let s := t.list op.l
  let i := t.iter op.l
  match op.act with
  | .addFirst v => (s.addFirst v).map (t.put op.l)
  | .addLast v => (s.addLast v).map (t.put op.l)
  | .addAfter v => (s.addAfter i.node v).map (t.put op.l)
  | .addBefore v => (s.addBefore i v).map fun (s, i) => (t.put op.l s).putIter op.l i
  | .removeFirst => s.removeFirst.map (t.put op.l)
  | .removeLast => s.removeLast.map (t.put op.l)
  | .remove v => (s.remove isEqual v).map (t.put op.l)
  | .removeAt => (s.removeAt i).map fun (s, i) => (t.put op.l s).putIter op.l i
  | .set v => (s.set i.node v).map (t.put op.l)
  | .copy src => (s.copy fun s => if src = op.l then s.fst else t.fst src).map (t.put op.l)
  | .clear => s.clear.map (t.put op.l)
  | .begin => some (t.putIter op.l s.begin)
  | .next => (s.forward i).map (t.putIter op.l)

end State

/-! ## Mathematical lists -/

/-- A list, and the position of its iterator, as long as the list is changed by this iterator only. -/
structure Spec (T : Type) where
  elements : List T
  cursor : Option Nat

namespace Spec

/-- The lists are empty. -/
def start : Nat → Spec T := fun _ => ⟨[], none⟩

/-- One action, if it is allowed: the first or the last element of an empty list is not removed, and an iterator
that is used has a position, with an element for all but `addBefore`. -/
def act (isEqual : T → T → Bool) (lists : Nat → Spec T) (m : Spec T) : Act T → Option (Spec T)
  | .addFirst v => some ⟨v :: m.elements, none⟩
  | .addLast v => some ⟨m.elements ++ [v], none⟩
  | .addAfter v => m.cursor.bind fun k =>
    if k < m.elements.length then some ⟨m.elements.insertIdx (k + 1) v, some k⟩ else none
  | .addBefore v => m.cursor.map fun k => ⟨m.elements.insertIdx k v, some (k + 1)⟩
  | .removeFirst => if m.elements.isEmpty then none else some ⟨m.elements.tail, none⟩
  | .removeLast => if m.elements.isEmpty then none else some ⟨m.elements.dropLast, none⟩
  | .remove v => some ⟨m.elements.eraseP fun x => isEqual x v, none⟩
  | .removeAt => m.cursor.bind fun k =>
    if k < m.elements.length then some ⟨m.elements.eraseIdx k, some k⟩ else none
  | .set v => m.cursor.bind fun k =>
    if k < m.elements.length then some ⟨m.elements.set k v, some k⟩ else none
  | .copy src => some ⟨(lists src).elements, none⟩
  | .clear => some ⟨[], none⟩
  | .begin => some ⟨m.elements, some 0⟩
  | .next => m.cursor.bind fun k =>
    if k < m.elements.length then some ⟨m.elements, some (k + 1)⟩ else none

/-- One operation. -/
def step (isEqual : T → T → Bool) (lists : Nat → Spec T) (op : Op T) : Option (Nat → Spec T) :=
  (act isEqual lists (lists op.l) op.act).map (update lists op.l)

end Spec

/-- The observers of a list, whose nodes are `nodes`, and its iterator agree with the mathematical list. -/
structure Agrees (isEqual : T → T → Bool) (m : Spec T) (s : SLList T) (i : PrecIter) (nodes : List Nat) :
    Prop where
  length : nodes.length = m.elements.length
  nodup : nodes.Nodup
  items : s.items = some (nodes.zip m.elements)
  count : s.count = some m.elements.length
  isEmpty : s.isEmpty = m.elements.isEmpty
  contains : ∀ v, s.contains isEqual v = some (m.elements.any (isEqual v))
  find : ∀ v, s.find isEqual v = some nodes[m.elements.findIdx (isEqual v)]?
  findAfter : ∀ k a v, nodes[k]? = some a → s.findAfter isEqual v a =
    some (nodes.drop (k + 1))[(m.elements.drop (k + 1)).findIdx (isEqual v)]?
  first : s.first = m.elements.head?
  last : s.last = m.elements.getLast?
  nth : ∀ n : Int, s.nth n = if 0 ≤ n then m.elements[n.toNat]? else none
  iter : ∀ k, m.cursor = some k → i.node = nodes[k]?

/-- A list that has elements is not copied to itself. -/
def CopiesOther (lists : Nat → Spec T) (op : Op T) : Prop :=
  match op.act with
  | .copy src => src = op.l → (lists src).elements.isEmpty
  | _ => True

instance (lists : Nat → Spec T) : ∀ op, Decidable (CopiesOther lists op)
  | ⟨l, .copy src⟩ => inferInstanceAs (Decidable (src = l → (lists src).elements.isEmpty))
  | ⟨_, .addFirst _⟩ | ⟨_, .addLast _⟩ | ⟨_, .addAfter _⟩ | ⟨_, .addBefore _⟩ | ⟨_, .removeFirst⟩
  | ⟨_, .removeLast⟩ | ⟨_, .remove _⟩ | ⟨_, .removeAt⟩ | ⟨_, .set _⟩ | ⟨_, .clear⟩ | ⟨_, .begin⟩ | ⟨_, .next⟩ =>
    isTrue trivial

/-- The program beside the mathematical lists. -/
def both (isEqual : T → T → Bool) : (Nat → Spec T) × State T → Op T → Option ((Nat → Spec T) × State T) :=
  Run.beside (Spec.step isEqual) (State.step isEqual)

end Elm.Data.LinkedList
