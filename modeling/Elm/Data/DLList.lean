import Elm.Lib.Chain
import Elm.Lib.DoubleChain
import Elm.Lib.Loop

/-!
# `DLList`

The doubly linked lists of `include/elm/inhstruct/DLList.h`.  A list has two markers, `hd` before its nodes and
`tl` behind them.  To use a node that does not exist, or a null pointer, gives no result, and so does a failed
assertion.
-/

namespace Elm.Data.DLList

open DoubleChain Function

variable {T : Type}

/-- A marker of the list `l`, or a node. -/
inductive Addr
  | hd (l : Nat)
  | tl (l : Nat)
  | node (n : Nat)
  deriving DecidableEq

open Addr

/-- The pointers `nxt` and `prv`, and the nodes that exist: some of them have a value. -/
structure Memory (T : Type) where
  links : Links Addr
  cell : Addr → Option (Option T)

namespace Memory

/-- `DLNode::next`. -/
def nxt (m : Memory T) (a : Addr) : Option (Option Addr) := (m.cell a).map fun _ => m.links.nxt a

/-- `DLNode::previous`. -/
def prv (m : Memory T) (a : Addr) : Option (Option Addr) := (m.cell a).map fun _ => m.links.prv a

/-- `DLNode::atBegin`. -/
def atBegin (m : Memory T) (a : Addr) : Option Bool := (m.prv a).map Option.isNone

/-- `DLNode::atEnd`. -/
def atEnd (m : Memory T) (a : Addr) : Option Bool := (m.nxt a).map Option.isNone

def setNxt (m : Memory T) (a : Addr) (p : Option Addr) : Option (Memory T) :=
  (m.cell a).map fun _ => { m with links := { m.links with nxt := update m.links.nxt a p } }

def setPrv (m : Memory T) (a : Addr) (p : Option Addr) : Option (Memory T) :=
  (m.cell a).map fun _ => { m with links := { m.links with prv := update m.links.prv a p } }

/-- `DLNode::replace`. -/
def replace (m : Memory T) (this node : Addr) : Option (Memory T) := do
  let m ← m.setPrv (← ← m.nxt this) (some node)
  let m ← m.setNxt node (← m.nxt this)
  let m ← m.setNxt (← ← m.prv this) (some node)
  m.setPrv node (← m.prv this)

/-- `DLNode::insertAfter`. -/
def insertAfter (m : Memory T) (this node : Addr) : Option (Memory T) := do
  let m ← m.setPrv (← ← m.nxt this) (some node)
  let m ← m.setNxt node (← m.nxt this)
  let m ← m.setNxt this (some node)
  m.setPrv node (some this)

/-- `DLNode::insertBefore`. -/
def insertBefore (m : Memory T) (this node : Addr) : Option (Memory T) := do
  let m ← m.setNxt (← ← m.prv this) (some node)
  let m ← m.setPrv node (← m.prv this)
  let m ← m.setPrv this (some node)
  m.setNxt node (some this)

/-- `DLNode::remove`. -/
def remove (m : Memory T) (this : Addr) : Option (Memory T) := do
  let m ← m.setNxt (← ← m.prv this) (← m.nxt this)
  m.setPrv (← ← m.nxt this) (← m.prv this)

/-- `DLNode::removeNext`. -/
def removeNext (m : Memory T) (this : Addr) : Option (Memory T) := do
  let n ← ← m.nxt this
  if ← m.atEnd n then none else m.remove n

/-- `DLNode::removePrevious`. -/
def removePrevious (m : Memory T) (this : Addr) : Option (Memory T) := do
  let n ← ← m.prv this
  if ← m.atBegin n then none else m.remove n

/-! ## The list -/

/-- `DLList::first`. -/
def first (m : Memory T) (l : Nat) : Option (Option Addr) := m.nxt (hd l)

/-- `DLList::last`. -/
def last (m : Memory T) (l : Nat) : Option (Option Addr) := m.prv (tl l)

/-- `DLList::isEmpty`. -/
def isEmpty (m : Memory T) (l : Nat) : Option Bool := (m.first l).map fun p => p = some (tl l)

/-- The loop of `DLList::count`, from the node `cur`. -/
def countLoop (m : Memory T) (l : Nat) : Nat → Addr → Nat → Option Nat
  | 0, _, _ => none
  | fuel + 1, cur, cnt => if cur = tl l then some cnt else do countLoop m l fuel (← ← m.nxt cur) (cnt + 1)

/-- `DLList::count`. -/
def count (m : Memory T) (fuel l : Nat) : Option Nat := do m.countLoop l fuel (← ← m.first l) 0

/-- `DLList::addFirst`. -/
def addFirst (m : Memory T) (l : Nat) (node : Addr) : Option (Memory T) := m.insertAfter (hd l) node

/-- `DLList::addLast`. -/
def addLast (m : Memory T) (l : Nat) (node : Addr) : Option (Memory T) := m.insertBefore (tl l) node

/-- `DLList::removeFirst`. -/
def removeFirst (m : Memory T) (l : Nat) : Option (Memory T) := do
  if ← m.isEmpty l then none else m.removeNext (hd l)

/-- `DLList::removeLast`. -/
def removeLast (m : Memory T) (l : Nat) : Option (Memory T) := do
  if ← m.isEmpty l then none else m.removePrevious (tl l)

/-- The constructor `DLList()` of the list `l`. -/
def construct (m : Memory T) (l : Nat) : Option (Memory T) := do
  let m ← m.setNxt (hd l) (some (tl l))
  let m ← m.setPrv (hd l) none
  let m ← m.setPrv (tl l) (some (hd l))
  m.setNxt (tl l) none

/-- The constructor `DLList(DLList& list)` of the list `l`. -/
def constructCopy (m : Memory T) (l list : Nat) : Option (Memory T) := do
  let m ← m.setPrv (hd l) none
  let m ← m.setNxt (tl l) none
  if ← m.isEmpty list then
    let m ← m.setNxt (hd l) (some (tl l))
    m.setPrv (tl l) (some (hd l))
  else
    let m ← m.setNxt (hd l) (← m.nxt (hd list))
    let m ← m.setNxt (hd list) none
    let m ← m.setPrv (← ← m.nxt (hd l)) (some (hd l))
    let m ← m.setPrv (tl l) (← m.prv (tl list))
    let m ← m.setPrv (tl list) none
    m.setNxt (← ← m.prv (tl l)) (some (tl l))

/-! ## Iteration -/

/-- A node, as a loop over the following nodes reads it. -/
def readNxt (m : Memory T) (a : Addr) : Option (Option Addr × Option T) := (m.cell a).map fun v => (m.links.nxt a, v)

/-- A node, as a loop over the previous nodes reads it. -/
def readPrv (m : Memory T) (a : Addr) : Option (Option Addr × Option T) := (m.cell a).map fun v => (m.links.prv a, v)

/-- The nodes from `first` by `next`, up to the one that is `atEnd`. -/
def forward (m : Memory T) (fuel l : Nat) : Option (List (Addr × Option T)) := do
  walk m.readNxt (fun seen a v => .inl (seen ++ [(a, v)])) (fun seen _ => seen) fuel (← ← m.first l) []

/-- The nodes from `last` by `previous`, up to the one that is `atBegin`. -/
def backward (m : Memory T) (fuel l : Nat) : Option (List (Addr × Option T)) := do
  walk m.readPrv (fun seen a v => .inl (seen ++ [(a, v)])) (fun seen _ => seen) fuel (← ← m.last l) []

end Memory

/-! ## The nodes of a list -/

/-- The markers of the list `l` and its nodes. -/
def path (l : Nat) (xs : List Nat) : List Addr := hd l :: (xs.map node ++ [tl l])

/-- The list `l` has the nodes `xs`: the pointers are mutually inverse all around the list. -/
structure Holds (m : Memory T) (l : Nat) (xs : List Nat) : Prop where
  linked : Linked m.links (path l xs)
  nodup : xs.Nodup
  nxt_tl : m.links.nxt (tl l) = none
  prv_hd : m.links.prv (hd l) = none
  cell_hd : m.cell (hd l) = some none
  cell_tl : m.cell (tl l) = some none
  cell : ∀ n ∈ xs, (m.cell (node n)).isSome

/-- The pointers change in the list `l` and in the nodes `ns` only. -/
structure Change (m m' : Memory T) (l : Nat) (xs xs' ns : List Nat) : Prop where
  holds : Holds m' l xs'
  nodes : xs' ⊆ xs ++ ns
  cell : m'.cell = m.cell
  frame : ∀ a, a ∉ path l (xs ++ ns) → m'.links.nxt a = m.links.nxt a ∧ m'.links.prv a = m.links.prv a

/-! ## Runs -/

/-- An operation on a list: `n` is the node that is added, `p` a node of the list. -/
inductive Act
  | addFirst (n : Nat)
  | addLast (n : Nat)
  | removeFirst
  | removeLast
  | insertAfter (p n : Nat)
  | insertBefore (p n : Nat)
  | replace (p n : Nat)
  | remove (p : Nat)
  | removeNext (p : Nat)
  | removePrevious (p : Nat)

/-- `make` and `copy` are the two constructors: the new list takes the next number. -/
inductive Op
  | make
  | copy (src : Nat)
  | edit (l : Nat) (act : Act)

namespace Act

/-- The operation on the nodes. -/
def perform (m : Memory T) (l : Nat) : Act → Option (Memory T)
  | addFirst n => m.addFirst l (node n)
  | addLast n => m.addLast l (node n)
  | removeFirst => m.removeFirst l
  | removeLast => m.removeLast l
  | insertAfter p n => m.insertAfter (node p) (node n)
  | insertBefore p n => m.insertBefore (node p) (node n)
  | replace p n => m.replace (node p) (node n)
  | remove p => m.remove (node p)
  | removeNext p => m.removeNext (node p)
  | removePrevious p => m.removePrevious (node p)

/-- The operation on a mathematical list; a node that is added is in none of the lists. -/
def apply (spec : List (List Nat)) (xs : List Nat) : Act → Option (List Nat)
  | addFirst n => if ∀ ys ∈ spec, n ∉ ys then some (n :: xs) else none
  | addLast n => if ∀ ys ∈ spec, n ∉ ys then some (xs ++ [n]) else none
  | removeFirst => if xs.isEmpty then none else some xs.tail
  | removeLast => if xs.isEmpty then none else some xs.dropLast
  | insertAfter p n => if p ∈ xs ∧ ∀ ys ∈ spec, n ∉ ys then some (xs.insertIdx (xs.idxOf p + 1) n) else none
  | insertBefore p n => if p ∈ xs ∧ ∀ ys ∈ spec, n ∉ ys then some (xs.insertIdx (xs.idxOf p) n) else none
  | replace p n => if p ∈ xs ∧ ∀ ys ∈ spec, n ∉ ys then some (xs.set (xs.idxOf p) n) else none
  | remove p => if p ∈ xs then some (xs.eraseIdx (xs.idxOf p)) else none
  | removeNext p =>
    if p ∈ xs ∧ xs.idxOf p + 1 < xs.length then some (xs.eraseIdx (xs.idxOf p + 1)) else none
  | removePrevious p => if p ∈ xs ∧ 0 < xs.idxOf p then some (xs.eraseIdx (xs.idxOf p - 1)) else none

end Act

/-- Mathematical lists under the same operations; the nodes of a copied list go to the new one. -/
def specStep (spec : List (List Nat)) : Op → Option (List (List Nat))
  | .make => some (spec ++ [[]])
  | .copy src => spec[src]?.map fun xs => spec.set src [] ++ [xs]
  | .edit l act => spec[l]?.bind fun xs => (act.apply spec xs).map fun ys => spec.set l ys

/-- The memory and the number of lists. -/
structure State (T : Type) where
  mem : Memory T
  lists : Nat

namespace State

/-- No list yet; the pointers of the nodes are not initialised. -/
def start (garbage : Links Addr) : State T :=
  { mem := { links := garbage, cell := fun a => match a with | node _ => some none | _ => none }, lists := 0 }

/-- The memory with the markers of a new list. -/
def declare (s : State T) : Memory T :=
  { s.mem with
    cell := update (update s.mem.cell (hd s.lists) (some none)) (tl s.lists) (some none) }

def step (s : State T) : Op → Option (State T)
  | .make => (s.declare.construct s.lists).map fun m => ⟨m, s.lists + 1⟩
  | .copy src => (s.declare.constructCopy s.lists src).map fun m => ⟨m, s.lists + 1⟩
  | .edit l act => (act.perform s.mem l).map fun m => { s with mem := m }

end State

/-- A list that is copied has no node. -/
def CopiesEmpty (spec : List (List Nat)) : Op → Prop
  | .copy src => spec[src]? = some []
  | _ => True

instance (spec : List (List Nat)) : ∀ op, Decidable (CopiesEmpty spec op)
  | .copy src => inferInstanceAs (Decidable (spec[src]? = some []))
  | .make => .isTrue trivial
  | .edit _ _ => .isTrue trivial

/-- Both systems. -/
def both : List (List Nat) × State T → Op → Option (List (List Nat) × State T) := Run.beside specStep State.step

end Elm.Data.DLList
