import Elm.Data.DLListRun

/-!
# `BiDiList`

The lists of `include/elm/data/BiDiList.h`: a `DLList` whose nodes have a value.  The nodes of all the lists are in
one memory: to use a node that has been freed, or a null pointer, gives no result, and so does a failed assertion.
A loop over the nodes of a list is given the number of nodes that have been made as a bound.
-/

namespace Elm.Data.BiDiList

open DoubleChain Function
open DLList (Addr Memory)
open DLList.Addr

variable {T : Type}

/-- The nodes, and the number of the next node to be made. -/
structure Heap (T : Type) where
  mem : Memory T
  next : Nat

namespace Heap

/-- The memory is changed. -/
def withMem (h : Heap T) (mem : Option (Memory T)) : Option (Heap T) := mem.map fun m => { h with mem := m }

/-- `new Node`: the pointers are not initialised. -/
def new (h : Heap T) (v : T) : Heap T :=
  { mem := { h.mem with cell := update h.mem.cell (node h.next) (some (some v)) }, next := h.next + 1 }

/-- `Node::free`. -/
def free (h : Heap T) (a : Addr) : Option (Heap T) :=
  (h.mem.cell a).map fun _ => { h with mem := { h.mem with cell := update h.mem.cell a none } }

/-- The member `val`: the markers have none. -/
def val (h : Heap T) (a : Addr) : Option T := (h.mem.cell a).join

/-- The member `val` is changed. -/
def setVal (h : Heap T) (a : Addr) (v : T) : Option (Heap T) :=
  (h.val a).map fun _ => { h with mem := { h.mem with cell := update h.mem.cell a (some (some v)) } }

/-! ## Observers -/

/-- `Iter`, at the start of the list. -/
def begin (h : Heap T) (l : Nat) : Option Addr := (h.mem.first l).join

/-- `Iter::ended`. -/
def ended (h : Heap T) (i : Addr) : Option Bool := h.mem.atEnd i

/-- `Iter::next`. -/
def forward (h : Heap T) (i : Addr) : Option Addr := (h.mem.nxt i).join

/-- The body of a loop is given the value of the node. -/
def onValue {σ ρ : Type} (body : σ → Addr → T → σ ⊕ ρ) (s : σ) (a : Addr) : Option T → σ ⊕ Option ρ
  | none => .inr none
  | some v => (body s a v).map id some

/-- A loop over the nodes, from the position `i`. -/
def loop {σ ρ : Type} (h : Heap T) (body : σ → Addr → T → σ ⊕ ρ) (exit : σ → Addr → Option ρ) (i : Addr) (init : σ) :
    Option ρ :=
  (walk h.mem.readNxt (onValue body) exit (h.next + 1) i init).join

/-- The elements, by `Iter`. -/
def items (h : Heap T) (l : Nat) : Option (List (Addr × Option T)) := h.mem.forward (h.next + 1) l

/-- The elements in the reverse order, by `DLNode::previous`. -/
def backItems (h : Heap T) (l : Nat) : Option (List (Addr × Option T)) := h.mem.backward (h.next + 1) l

/-- `count`. -/
def count (h : Heap T) (l : Nat) : Option Nat := h.mem.count (h.next + 1) l

/-- `isEmpty`. -/
def isEmpty (h : Heap T) (l : Nat) : Option Bool := h.mem.isEmpty l

/-- `contains`. -/
def contains (isEqual : T → T → Bool) (h : Heap T) (l : Nat) (item : T) : Option Bool := do
  h.loop (fun _ _ v => if isEqual item v then .inr true else .inl ()) (fun _ _ => some false) (← h.begin l) ()

/-- The loop of `find`, from a position. -/
def findLoop (isEqual : T → T → Bool) (h : Heap T) (item : T) (i : Addr) : Option Addr :=
  h.loop (fun _ a v => if isEqual item v then .inr a else .inl ()) (fun _ a => some a) i ()

/-- `find`. -/
def find (isEqual : T → T → Bool) (h : Heap T) (l : Nat) (item : T) : Option Addr := do
  h.findLoop isEqual item (← h.begin l)

/-- `find`, after a position. -/
def findAfter (isEqual : T → T → Bool) (h : Heap T) (item : T) (pos : Addr) : Option Addr := do
  h.findLoop isEqual item (← h.forward pos)

/-- `nth`. -/
def nth (h : Heap T) (l : Nat) (n : Int) : Option Addr := do
  h.loop (fun n a _ => if n = 0 then .inr a else .inl (n - 1)) (fun _ _ => none) (← h.begin l) n

/-- `first`, of a constant list. -/
def first (h : Heap T) (l : Nat) : Option T := (h.mem.first l).join.bind h.val

/-- `last`, of a constant list. -/
def last (h : Heap T) (l : Nat) : Option T := (h.mem.last l).join.bind h.val

/-- `first`, of a list that may be changed. -/
def firstMut (h : Heap T) (l : Nat) : Option T := (h.mem.first l).join.bind h.val

/-- `last`, of a list that may be changed. -/
def lastMut (h : Heap T) (l : Nat) : Option T := (h.mem.first l).join.bind h.val

/-! ## Changes -/

/-- `addFirst`. -/
def addFirst (h : Heap T) (l : Nat) (v : T) : Option (Heap T) :=
  (h.new v).withMem ((h.new v).mem.addFirst l (node h.next))

/-- `addLast`. -/
def addLast (h : Heap T) (l : Nat) (v : T) : Option (Heap T) :=
  (h.new v).withMem ((h.new v).mem.addLast l (node h.next))

/-- `addAfter`. -/
def addAfter (h : Heap T) (i : Addr) (v : T) : Option (Heap T) := do
  if ← h.ended i then none else (h.new v).withMem ((h.new v).mem.insertAfter i (node h.next))

/-- `addBefore`. -/
def addBefore (h : Heap T) (i : Addr) (v : T) : Option (Heap T) := do
  if ← h.ended i then none else (h.new v).withMem ((h.new v).mem.insertBefore i (node h.next))

/-- `removeFirst`. -/
def removeFirst (h : Heap T) (l : Nat) : Option (Heap T) := do
  let n ← ← h.mem.first l
  let h ← h.withMem (h.mem.removeFirst l)
  h.free n

/-- `removeLast`. -/
def removeLast (h : Heap T) (l : Nat) : Option (Heap T) := do
  let n ← ← h.mem.last l
  let h ← h.withMem (h.mem.removeLast l)
  h.free n

/-- `removeBefore`. -/
def removeBefore (h : Heap T) (i : Addr) : Option (Heap T) := do
  let n ← ← h.mem.prv i
  let h ← h.withMem (h.mem.removePrevious i)
  h.free n

/-- `removeAfter`. -/
def removeAfter (h : Heap T) (i : Addr) : Option (Heap T) := do
  let n ← ← h.mem.nxt i
  let h ← h.withMem (h.mem.removeNext i)
  h.free n

/-- `remove`, of a constant iterator. -/
def remove (h : Heap T) (i : Addr) : Option (Heap T) := do
  if ← h.ended i then none else h.withMem (h.mem.remove i)

/-- `remove`, of an iterator, which goes to the next node. -/
def removeAt (h : Heap T) (i : Addr) : Option (Heap T × Addr) := do
  if ← h.ended i then
    none
  else
    let n ← ← h.mem.nxt i
    let h ← h.withMem (h.mem.remove i)
    some (h, n)

/-- `remove`, of a value. -/
def removeValue (isEqual : T → T → Bool) (h : Heap T) (l : Nat) (v : T) : Option (Heap T) := do
  let i ← h.find isEqual l v
  if ← h.ended i then some h else (h.removeAt i).map Prod.fst

/-- `set`. -/
def set (h : Heap T) (i : Addr) (v : T) : Option (Heap T) := do
  if ← h.ended i then none else h.setVal i v

/-- The loop of `clear`. -/
def clearLoop : Nat → Heap T → Nat → Option (Heap T)
  | 0, _, _ => none
  | fuel + 1, h, l => do
    if ← h.isEmpty l then some h else clearLoop fuel (← h.removeFirst l) l

/-- `clear`. -/
def clear (h : Heap T) (l : Nat) : Option (Heap T) := clearLoop (h.next + 1) h l

/-- The loop of `copy`, from the position `i` in the other list. -/
def copyLoop : Nat → Heap T → Nat → Addr → Option (Heap T)
  | 0, _, _, _ => none
  | fuel + 1, h, l, i => do
    if ← h.ended i then
      some h
    else
      let h ← h.addLast l (← h.val i)
      copyLoop fuel h l (← h.forward i)

/-- `copy`. -/
def copy (h : Heap T) (l src : Nat) : Option (Heap T) := do
  let h ← h.clear l
  copyLoop (h.next + 1) h l (← h.begin src)

end Heap

/-! ## Runs -/

/-- What is done to a list; some actions are done at its iterator.  `removeConst` removes at a copy of the
iterator. -/
inductive Act (T : Type)
  | addFirst (v : T)
  | addLast (v : T)
  | addAfter (v : T)
  | addBefore (v : T)
  | removeFirst
  | removeLast
  | removeBefore
  | removeAfter
  | remove (v : T)
  | removeAt
  | removeConst
  | set (v : T)
  | copy (src : Nat)
  | clear
  | begin
  | next

/-- An action on the list `l`, or a call of `first` or `last` on a list that may be changed. -/
inductive Op (T : Type)
  | act (l : Nat) (a : Act T)
  | first (l : Nat)
  | last (l : Nat)

/-- The nodes, an iterator of each list, and the answers of `first` and `last`. -/
structure State (T : Type) where
  heap : Heap T
  iter : Nat → Addr
  answers : List T

namespace State

/-- All the lists are empty; the pointers of a node are not initialised. -/
def start (garbage : Links Addr) : State T where
  heap :=
    { mem :=
        { links :=
            { nxt := fun a => match a with | hd l => some (tl l) | tl _ => none | node n => garbage.nxt (node n)
              prv := fun a => match a with | hd _ => none | tl l => some (hd l) | node n => garbage.prv (node n) }
          cell := fun a => match a with | node _ => none | _ => some none }
      next := 0 }
  iter := tl
  answers := []

def withHeap (t : State T) (h : Option (Heap T)) : Option (State T) := h.map fun h => { t with heap := h }

def putIter (t : State T) (l : Nat) (i : Addr) : State T := { t with iter := update t.iter l i }

/-- One action. -/
def act (isEqual : T → T → Bool) (t : State T) (l : Nat) : Act T → Option (State T)
  | .addFirst v => t.withHeap (t.heap.addFirst l v)
  | .addLast v => t.withHeap (t.heap.addLast l v)
  | .addAfter v => t.withHeap (t.heap.addAfter (t.iter l) v)
  | .addBefore v => t.withHeap (t.heap.addBefore (t.iter l) v)
  | .removeFirst => t.withHeap (t.heap.removeFirst l)
  | .removeLast => t.withHeap (t.heap.removeLast l)
  | .removeBefore => t.withHeap (t.heap.removeBefore (t.iter l))
  | .removeAfter => t.withHeap (t.heap.removeAfter (t.iter l))
  | .remove v => t.withHeap (t.heap.removeValue isEqual l v)
  | .removeAt => (t.heap.removeAt (t.iter l)).map fun (h, i) => { t with heap := h }.putIter l i
  | .removeConst => t.withHeap (t.heap.remove (t.iter l))
  | .set v => t.withHeap (t.heap.set (t.iter l) v)
  | .copy src => t.withHeap (t.heap.copy l src)
  | .clear => t.withHeap (t.heap.clear l)
  | .begin => (t.heap.begin l).map (t.putIter l)
  | .next => (t.heap.forward (t.iter l)).map (t.putIter l)

/-- One operation. -/
def step (isEqual : T → T → Bool) (t : State T) : Op T → Option (State T)
  | .act l a => t.act isEqual l a
  | .first l => (t.heap.firstMut l).map fun v => { t with answers := t.answers ++ [v] }
  | .last l => (t.heap.lastMut l).map fun v => { t with answers := t.answers ++ [v] }

end State

/-! ## Mathematical lists -/

/-- A list, and the position of its iterator, as long as the list is changed by this iterator only. -/
structure Spec (T : Type) where
  elements : List T
  cursor : Option Nat

namespace Spec

/-- One action, if it is allowed: an element that is removed or changed is there, and an iterator that is used has a
position. -/
def act (isEqual : T → T → Bool) (lists : Nat → Spec T) (m : Spec T) : Act T → Option (Spec T)
  | .addFirst v => some ⟨v :: m.elements, none⟩
  | .addLast v => some ⟨m.elements ++ [v], none⟩
  | .addAfter v => m.cursor.bind fun k =>
    if k < m.elements.length then some ⟨m.elements.insertIdx (k + 1) v, some k⟩ else none
  | .addBefore v => m.cursor.bind fun k =>
    if k < m.elements.length then some ⟨m.elements.insertIdx k v, some (k + 1)⟩ else none
  | .removeFirst => if m.elements.isEmpty then none else some ⟨m.elements.tail, none⟩
  | .removeLast => if m.elements.isEmpty then none else some ⟨m.elements.dropLast, none⟩
  | .removeBefore => m.cursor.bind fun k =>
    if 0 < k then some ⟨m.elements.eraseIdx (k - 1), some (k - 1)⟩ else none
  | .removeAfter => m.cursor.bind fun k =>
    if k + 1 < m.elements.length then some ⟨m.elements.eraseIdx (k + 1), some k⟩ else none
  | .remove v => some ⟨m.elements.eraseP (isEqual v), none⟩
  | .removeAt => m.cursor.bind fun k =>
    if k < m.elements.length then some ⟨m.elements.eraseIdx k, some k⟩ else none
  | .removeConst => m.cursor.bind fun k =>
    if k < m.elements.length then some ⟨m.elements.eraseIdx k, none⟩ else none
  | .set v => m.cursor.bind fun k =>
    if k < m.elements.length then some ⟨m.elements.set k v, some k⟩ else none
  | .copy src => some ⟨(lists src).elements, none⟩
  | .clear => some ⟨[], none⟩
  | .begin => some ⟨m.elements, some 0⟩
  | .next => m.cursor.bind fun k =>
    if k < m.elements.length then some ⟨m.elements, some (k + 1)⟩ else none

end Spec

/-- The lists, and the answers of `first` and `last`. -/
structure Specs (T : Type) where
  lists : Nat → Spec T
  answers : List T

namespace Specs

/-- All the lists are empty. -/
def start : Specs T := ⟨fun _ => ⟨[], none⟩, []⟩

/-- One operation; `first` and `last` are asked of a list that has elements. -/
def step (isEqual : T → T → Bool) (s : Specs T) : Op T → Option (Specs T)
  | .act l a => ((s.lists l).act isEqual s.lists a).map fun m => { s with lists := update s.lists l m }
  | .first l => (s.lists l).elements.head?.map fun v => { s with answers := s.answers ++ [v] }
  | .last l => (s.lists l).elements.getLast?.map fun v => { s with answers := s.answers ++ [v] }

end Specs

/-- The observers of the list `l`, whose nodes are `nodes`, and its iterator agree with the mathematical list. -/
structure Agrees (isEqual : T → T → Bool) (m : Spec T) (h : Heap T) (l : Nat) (i : Addr) (nodes : List Nat) :
    Prop where
  links : DLList.Agrees h.mem l nodes
  length : nodes.length = m.elements.length
  items : h.items l = some ((nodes.map node).zip (m.elements.map some))
  backItems : h.backItems l = some ((nodes.map node).zip (m.elements.map some)).reverse
  count : h.count l = some m.elements.length
  isEmpty : h.isEmpty l = some m.elements.isEmpty
  contains : ∀ v, h.contains isEqual l v = some (m.elements.any (isEqual v))
  find : ∀ v, h.find isEqual l v = (nodes.map node ++ [tl l])[m.elements.findIdx (isEqual v)]?
  findAfter : ∀ k n v, nodes[k]? = some n → h.findAfter isEqual v (node n) =
    ((nodes.drop (k + 1)).map node ++ [tl l])[(m.elements.drop (k + 1)).findIdx (isEqual v)]?
  nth : ∀ n : Int, h.nth l n = if 0 ≤ n then (nodes.map node)[n.toNat]? else none
  first : h.first l = m.elements.head?
  last : h.last l = m.elements.getLast?
  firstMut : h.firstMut l = m.elements.head?
  iter : ∀ k, m.cursor = some k → (nodes.map node ++ [tl l])[k]? = some i

/-- No list that has elements is copied to itself, and `last` is asked, of a list that may be changed, when the
first element is also the last one. -/
def Fits (s : Specs T) : Op T → Prop
  | .act l (.copy src) => src = l → (s.lists src).elements.isEmpty
  | .last l => (s.lists l).elements.head? = (s.lists l).elements.getLast?
  | _ => True

instance [DecidableEq T] (s : Specs T) : ∀ op, Decidable (Fits s op)
  | .act l (.copy src) => inferInstanceAs (Decidable (src = l → (s.lists src).elements.isEmpty))
  | .last l => inferInstanceAs (Decidable ((s.lists l).elements.head? = (s.lists l).elements.getLast?))
  | .first _ => isTrue trivial
  | .act _ (.addFirst _) | .act _ (.addLast _) | .act _ (.addAfter _) | .act _ (.addBefore _)
  | .act _ .removeFirst | .act _ .removeLast | .act _ .removeBefore | .act _ .removeAfter | .act _ (.remove _)
  | .act _ .removeAt | .act _ .removeConst | .act _ (.set _) | .act _ .clear | .act _ .begin | .act _ .next =>
    isTrue trivial

/-- The program beside the mathematical lists. -/
def both (isEqual : T → T → Bool) : Specs T × State T → Op T → Option (Specs T × State T) :=
  Run.beside (Specs.step isEqual) (State.step isEqual)

end Elm.Data.BiDiList
