import Elm.Lib.Chain
import Elm.Lib.Loop
import Mathlib.Data.List.AList

/-!
# `HashTable`

The hash table of `include/elm/data/HashTable.h`, at the level of its nodes and pointers: an array
of buckets, each one a list of nodes linked by `next`.  A pointer is an address or null (`none`),
and following a null or dangling pointer has no result.  Addresses are given by the allocator.
-/

namespace Elm.Data

open Chain

/-- The hash manager `H` of a table: `computeHash` and `isEqual`. -/
structure Manager (T : Type*) where
  computeHash : T → Nat
  isEqual : T → T → Bool

/-- `HashTable::node_t`. -/
structure Node (A T : Type*) where
  next : Option A
  data : T

/-- `HashTable`: its array `_tab` of `_size` pointers, never empty, and the nodes it has
allocated. -/
structure HashTable (A T : Type*) where
  tab : List (Option A)
  nodes : AList fun _ : A => Node A T
  size_pos : 0 < tab.length

namespace HashTable

variable {A T : Type*} [DecidableEq A]

/-- `_size`. -/
def size (st : HashTable A T) : Nat := st.tab.length

/-- `_tab[i]`. -/
def entry (st : HashTable A T) (i : Nat) : Option A := st.tab.getD i none

/-- `_tab[i] = p`. -/
def setEntry (st : HashTable A T) (i : Nat) (p : Option A) : HashTable A T :=
  { st with tab := st.tab.set i p, size_pos := by simpa using st.size_pos }

/-- `*a = n`. -/
def store (st : HashTable A T) (a : A) (n : Node A T) : HashTable A T :=
  { st with nodes := st.nodes.insert a n }

/-- `A::free(a)`. -/
def free (st : HashTable A T) (a : A) : HashTable A T := { st with nodes := st.nodes.erase a }

/-- `p->next = next`. -/
def setNext (st : HashTable A T) (p : A) (next : Option A) : Option (HashTable A T) :=
  (st.nodes.lookup p).map fun n => st.store p { n with next := next }

/-- The memory of the nodes. -/
def read (st : HashTable A T) : Read A T := fun a =>
  (st.nodes.lookup a).map fun n => (n.next, n.data)

/-- `HashTable(int _size)`. -/
def new (size : Nat) (hsize : 0 < size) : HashTable A T :=
  ⟨List.replicate size none, ∅, by simpa using hsize⟩

/-! ## Lookups and updates -/

/-- One turn of the loops `for(node = _tab[i], prev = 0; node; prev = node, node = node->next)`,
left at the first node that passes the test. -/
def scanTurn (st : HashTable A T) (test : A → T → Bool) (s : Option A × Option A) :
    (Option A × Option A) ⊕ Option (Option (A × Node A T × Option A)) :=
  match s.1 with
  | none => .inr (some none)
  | some a =>
    match st.nodes.lookup a with
    | none => .inr none
    | some n => if test a n.data then .inr (some (some (a, n, s.2))) else .inl (n.next, some a)

/-- Such a loop over bucket `i`: the node it stops on and the one before it, if any. -/
def scan (st : HashTable A T) (test : A → T → Bool) (i : Nat) :
    Option (Option (A × Node A T × Option A)) :=
  (Loop.run (scanTurn st test) (st.nodes.keys.length + 1) (st.entry i, none)).join

variable (H : Manager T)

/-- `computeHash(key) % _size`. -/
def index (st : HashTable A T) (key : T) : Nat := H.computeHash key % st.size

/-- `HashTable::find`: a node found behind another one is moved to the front of its bucket. -/
def find (st : HashTable A T) (key : T) : Option (Option A × HashTable A T) :=
  let i := st.index H key
  match st.scan (fun _ d => H.isEqual d key) i with
  | none => none
  | some none => some (none, st)
  | some (some (a, _, none)) => some (some a, st)
  | some (some (a, n, some prev)) =>
    (st.setNext prev n.next).bind fun st =>
      (st.setNext a (st.entry i)).map fun st => (some a, st.setEntry i (some a))

/-- `HashTable::make` and `add`, the new node being at address `a`. -/
def add (st : HashTable A T) (data : T) (a : A) : HashTable A T :=
  let i := st.index H data
  (st.store a ⟨st.entry i, data⟩).setEntry i (some a)

/-- The datum of a node found by a lookup. -/
def deref (found : Option A × HashTable A T) : Option (Option T × HashTable A T) :=
  match found.1 with
  | none => some (none, found.2)
  | some a => (found.2.nodes.lookup a).map fun n => (some n.data, found.2)

/-- `HashTable::get`; the inner `none` is the null pointer. -/
def get (st : HashTable A T) (key : T) : Option (Option T × HashTable A T) :=
  (st.find H key).bind deref

/-- `HashTable::hasKey`. -/
def hasKey (st : HashTable A T) (key : T) : Option (Bool × HashTable A T) :=
  (st.find H key).map fun found => (found.1.isSome, found.2)

/-- `HashTable::contains`. -/
def contains (st : HashTable A T) (x : T) : Option (Bool × HashTable A T) :=
  (st.find H x).map fun found => (found.1.isSome, found.2)

/-- `HashTable::put`, a new node being at address `fresh` if one is made. -/
def put (st : HashTable A T) (data : T) (fresh : A) : Option (HashTable A T) :=
  match st.find H data with
  | none => none
  | some (none, st) => some (st.add H data fresh)
  | some (some a, st) => (st.nodes.lookup a).map fun n => st.store a { n with data := data }

/-- The end of both `remove`: the node at `a` is unlinked and freed. -/
def unlink (st : HashTable A T) (i : Nat) (a : A) (n : Node A T) (prev : Option A) :
    Option (HashTable A T) :=
  match prev with
  | some prev => (st.setNext prev n.next).map fun st => st.free a
  | none => some ((st.setEntry i n.next).free a)

/-- `HashTable::remove(const T& key)`. -/
def remove (st : HashTable A T) (key : T) : Option (HashTable A T) :=
  let i := st.index H key
  match st.scan (fun _ d => H.isEqual d key) i with
  | none => none
  | some none => some st
  | some (some (a, n, prev)) => st.unlink i a n prev

/-- One turn of the inner loop of `clear`. -/
def clearTurn (s : Option A × HashTable A T) :
    (Option A × HashTable A T) ⊕ Option (HashTable A T) :=
  match s.1 with
  | none => .inr (some s.2)
  | some cur =>
    match s.2.nodes.lookup cur with
    | none => .inr none
    | some n => .inl (n.next, s.2.free cur)

/-- The body of the outer loop of `clear`. -/
def clearBucket (st : HashTable A T) (i : Nat) : Option (HashTable A T) :=
  ((Loop.run clearTurn (st.nodes.keys.length + 1) (st.entry i, st)).join).map fun st =>
    st.setEntry i none

/-- `HashTable::clear`. -/
def clear (st : HashTable A T) : Option (HashTable A T) :=
  (List.range st.size).foldlM clearBucket st

/-! ## Iteration -/

/-- `HashTable::InternIterator`: its members `node` and `i`. -/
structure Iter (A : Type*) where
  node : Option A
  i : Nat
  deriving DecidableEq

/-- The loop of `InternIterator::step`, with at most `k` turns. -/
def stepFrom (st : HashTable A T) : Nat → Iter A → Iter A
  | 0, it => it
  | k + 1, it =>
    match st.entry it.i with
    | some a => ⟨some a, it.i⟩
    | none => stepFrom st k ⟨it.node, it.i + 1⟩

/-- `InternIterator::step`. -/
def step (st : HashTable A T) (it : Iter A) : Iter A := st.stepFrom (st.size - it.i) it

/-- `HashTable::begin`. -/
def begin (st : HashTable A T) : Iter A := st.step ⟨none, 0⟩

/-- `InternIterator::ended`. -/
def ended (st : HashTable A T) (it : Iter A) : Bool := st.size ≤ it.i

/-- `InternIterator::next`. -/
def next (st : HashTable A T) (it : Iter A) : Option (Iter A) :=
  (it.node.bind st.nodes.lookup).map fun n =>
    match n.next with
    | some b => ⟨some b, it.i⟩
    | none => st.step ⟨none, it.i + 1⟩

/-- `Iter::item`. -/
def item (st : HashTable A T) (it : Iter A) : Option T :=
  (it.node.bind st.nodes.lookup).map Node.data

/-- One turn of a loop over the items. -/
def itemsTurn (st : HashTable A T) (s : Iter A × List T) : (Iter A × List T) ⊕ Option (List T) :=
  if st.ended s.1 then
    .inr (some s.2.reverse)
  else
    match st.item s.1, st.next s.1 with
    | some x, some it => .inl (it, x :: s.2)
    | _, _ => .inr none

/-- The items given by an iteration over the table. -/
def items (st : HashTable A T) : Option (List T) :=
  (Loop.run (itemsTurn st) (st.nodes.keys.length + 1) (st.begin, [])).join

/-- `HashTable::remove(const Iter& i)`. -/
def removeIter (st : HashTable A T) (it : Iter A) : Option (HashTable A T) :=
  match st.scan (fun a _ => it.node = some a) it.i with
  | some (some (a, n, prev)) => st.unlink it.i a n prev
  | _ => none

/-- One turn of the inner loop of `count`. -/
def countTurn (st : HashTable A T) (s : Option A × Nat) : (Option A × Nat) ⊕ Option Nat :=
  match s.1 with
  | none => .inr (some s.2)
  | some cur =>
    match st.nodes.lookup cur with
    | none => .inr none
    | some n => .inl (n.next, s.2 + 1)

/-- `HashTable::count`. -/
def count (st : HashTable A T) : Option Nat :=
  (List.range st.size).foldlM
    (fun cnt i => (Loop.run (countTurn st) (st.nodes.keys.length + 1) (st.entry i, cnt)).join) 0

/-- `HashTable::isEmpty`. -/
def isEmpty (st : HashTable A T) : Bool := st.tab.all Option.isNone

end HashTable

end Elm.Data
