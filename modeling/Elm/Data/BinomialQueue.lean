import Elm.Lib.Loop
import Mathlib.Data.Multiset.AddSub
import Mathlib.Tactic

/-!
# `BinomialQueue`

The priority queue of `include/elm/data/BinomialQueue.h` is a list of binomial trees.  The nodes are linked by
`next` to their siblings and by `child` to the first of their children: here a node has the list of its children,
and the pointer to a node stands for the list of the siblings from this node on.
-/

namespace Elm.Data

namespace BinomialQueue

/-- `BinomialQueue::Node`. -/
inductive Node (T : Type*)
  | mk (degree : Nat) (x : T) (child : List (Node T))

namespace Node

variable {T : Type*}

def degree : Node T → Nat
  | mk degree _ _ => degree

def x : Node T → T
  | mk _ x _ => x

def child : Node T → List (Node T)
  | mk _ _ child => child

end Node

end BinomialQueue

open BinomialQueue

/-- The fields of a queue: the list from `_head` on, and the node of `_min` when it is not null. -/
structure BinomialQueue (T : Type*) where
  head : List (Node T)
  min : Option (Node T)

namespace BinomialQueue

variable {T : Type*}

/-- The constructor. -/
def new : BinomialQueue T := ⟨[], none⟩

/-- `isEmpty`. -/
def isEmpty (q : BinomialQueue T) : Bool := q.head.isEmpty && q.min.isNone

/-- `link`: a node becomes the first child of another one. -/
def link (root child : Node T) : Node T := .mk (root.degree + 1) root.x (child :: root.child)

/-- `merge`: in the order of the degrees. -/
def merge : List (Node T) → List (Node T) → List (Node T)
  | [], b => b
  | a, [] => a
  | a :: as, b :: bs => if a.degree < b.degree then a :: merge as (b :: bs) else b :: merge (a :: as) bs
termination_by a b => a.length + b.length

/-- The loop of `reverse`: `t` is the list that has been reversed. -/
def reverseLoop (t : List (Node T)) : List (Node T) → List (Node T)
  | [] => t
  | h :: rest => reverseLoop (h :: t) rest

/-- `reverse`. -/
def reverse (h : List (Node T)) : List (Node T) := reverseLoop [] h

section Comparator

variable (compare : T → T → Ordering)

/-- `higher`. -/
def higher (x y : T) : Bool := (compare x y).isLE

/-- The loop of `join` from the node `x` on, where `rest` is the list that follows it: the nodes that it has
passed, `p` being the last of them, keep their places. -/
def joinLoop (x : Node T) : List (Node T) → List (Node T)
  | [] => [x]
  | n :: rest =>
    if x.degree ≠ n.degree ∨ (rest.head?.map Node.degree) = some x.degree then x :: joinLoop n rest
    else if higher compare x.x n.x then joinLoop (link x n) rest
    else joinLoop (link n x) rest

/-- `join` of the list at `_head` with another one. -/
def join (head h2 : List (Node T)) : List (Node T) :=
  match h2, head with
  | [], _ => head
  | _, [] => h2
  | _, _ =>
    match merge head h2 with
    | [] => []
    | x :: rest => joinLoop compare x rest

/-- The loop of `min`: the nodes before the best one so far, this one, and the nodes after it up to `p`. -/
def minLoop (before : List (Node T)) (n : Node T) (between : List (Node T)) :
    List (Node T) → List (Node T) × Node T × List (Node T)
  | [] => (before, n, between)
  | c :: rest =>
    if higher compare c.x n.x then minLoop (before ++ n :: between) c [] rest
    else minLoop before n (between ++ [c]) rest

/-- `min`: a node with the smallest element, with the nodes before it and those after it. -/
def minNode : List (Node T) → Option (List (Node T) × Node T × List (Node T))
  -- `ASSERTP(_head != nullptr, ...)` fails
  | [] => none
  | n :: rest => some (minLoop compare [] n [] rest)

/-- `head`. -/
def headItem (q : BinomialQueue T) : Option T := (minNode compare q.head).map fun (_, n, _) => n.x

/-- `get`. -/
def get (q : BinomialQueue T) : Option (T × BinomialQueue T) :=
  (minNode compare q.head).map fun (before, n, after) =>
    (n.x, { q with head := join compare (before ++ after) (reverse n.child) })

/-- `put`. -/
def put (q : BinomialQueue T) (x : T) : BinomialQueue T :=
  let n : Node T := .mk 0 x []
  match q.min with
  | some m =>
    if higher compare n.x m.x then ⟨join compare q.head [.mk 0 m.x []], some n⟩
    else { q with head := join compare q.head [n] }
  | none => { q with head := join compare q.head [n] }

/-! ## The elements and the invariant of the forest -/

mutual

/-- The elements of a tree. -/
def Node.elements : Node T → List T
  | .mk _ x child => x :: forestElements child

/-- The elements of a list of trees. -/
def forestElements : List (Node T) → List T
  | [] => []
  | n :: rest => n.elements ++ forestElements rest

end

/-- A heap-ordered binomial tree of its degree: the children of a node of degree `d` have the degrees `d - 1` down
to `0`, and no child has an element smaller than the one of the node. -/
inductive Binomial : Node T → Prop
  | mk {d : Nat} {x : T} {child : List (Node T)} (degrees : child.map Node.degree = (List.range d).reverse)
      (order : ∀ c ∈ child, (compare x c.x).isLE) (children : ∀ c ∈ child, Binomial c) : Binomial (.mk d x child)

/-- Binomial trees of strictly increasing degrees. -/
structure Forest (f : List (Node T)) : Prop where
  degrees : f.Pairwise fun a b => a.degree < b.degree
  binomial : ∀ n ∈ f, Binomial compare n

/-! ## Runs -/

/-- A call. -/
inductive Op (T : Type*)
  | put (x : T)
  | get

/-- The queue and the elements put and not yet got. -/
structure State (T : Type*) where
  queue : BinomialQueue T
  pending : Multiset T

/-- A `get` takes one occurrence of the element that it returns. -/
def step [DecidableEq T] (s : State T) : Op T → Option (State T)
  | .put x => some ⟨s.queue.put compare x, x ::ₘ s.pending⟩
  | .get => (s.queue.get compare).map fun (x, queue) => ⟨queue, s.pending.erase x⟩

/-- A smallest element of a multiset. -/
def IsMin (x : T) (m : Multiset T) : Prop := x ∈ m ∧ ∀ y ∈ m, (compare x y).isLE

/-- The queue has the pending elements in a forest, and its observers and the next `get` are those of a priority
queue. -/
structure Correct (s : State T) : Prop where
  forest : Forest compare s.queue.head
  elements : ↑(forestElements s.queue.head) = s.pending
  isEmpty : s.queue.isEmpty ↔ s.pending = 0
  head : s.pending ≠ 0 → ∃ x, s.queue.headItem compare = some x ∧ IsMin compare x s.pending
  get : s.pending ≠ 0 → ∃ x queue, s.queue.get compare = some (x, queue) ∧ IsMin compare x s.pending ∧
    x ::ₘ ↑(forestElements queue.head) = s.pending

end Comparator

/-- `get` needs an element. -/
def Allowed (s : State T) : Op T → Prop
  | .put _ => True
  | .get => s.pending ≠ 0

end BinomialQueue

end Elm.Data
