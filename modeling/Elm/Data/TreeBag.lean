import Elm.Lib.BinTree
import Elm.Lib.Loop
import Mathlib.Data.Multiset.AddSub
import Mathlib.Order.Basic

/-!
# `TreeBag`

A bag of `include/elm/data/TreeBag.h` is a binary search tree without balance, where equal elements go to the
right.  The nodes are those of `inhstruct::BinTree`; a pointer to a node is the position of the node in the tree.
The comparison is the one of the comparator `C`, whose `doCompare` and `compare` are one function.
-/

namespace Elm.Data

open BinaryTree Function

/-- What the pointer to the root of a bag refers to. -/
inductive TreeBag (T : Type*)
  | nodes (root : BinaryTree T)
  /-- The pointer is not null, and the nodes behind it have been freed. -/
  | freed

namespace TreeBag

variable {T : Type*}

/-- The constructor `TreeBag()`. -/
def new : TreeBag T := .nodes nil

/-- `isEmpty`: only the pointer to the root is read. -/
def isEmpty : TreeBag T → Bool
  | .nodes root => root = nil
  | .freed => false

/-- `BinTree::count(node)`. -/
def countNodes : BinaryTree T → Nat
  | nil => 0
  | node _ left right => 1 + countNodes left + countNodes right

/-- `count`. -/
def count : TreeBag T → Option Nat
  | .nodes root => some (countNodes root)
  | .freed => none

section Comparator

variable (compare : T → T → Ordering)

/-- The loop of `add`: the new node goes to the first free place. -/
def insert (x : T) : BinaryTree T → BinaryTree T
  | nil => node x nil nil
  | node val left right =>
    if (compare x val).isGE then node val left (insert x right) else node val (insert x left) right

/-- `add`. -/
def add (x : T) : TreeBag T → Option (TreeBag T)
  | .nodes root => some (.nodes (insert compare x root))
  | .freed => none

/-- `addAll` of the elements that an iteration gives. -/
def addAll (xs : List T) (b : TreeBag T) : Option (TreeBag T) := xs.foldlM (fun b x => b.add compare x) b

/-- The loop of `find`. -/
def findNode (x : T) : BinaryTree T → Option T
  | nil => none
  | node val left right =>
    match compare x val with
    | .eq => some val
    | .gt => findNode x right
    | .lt => findNode x left

/-- `find`: the element found, if there is one. -/
def find (x : T) : TreeBag T → Option (Option T)
  | .nodes root => some (findNode compare x root)
  | .freed => none

/-- `contains`. -/
def contains (x : T) (b : TreeBag T) : Option Bool := (b.find compare x).map Option.isSome

end Comparator

/-- The last loop of `remove`: go to the right-most node and hang a tree under it. -/
def hangRight (tree : BinaryTree T) : BinaryTree T → BinaryTree T
  | nil => tree
  | node val left right => node val left (hangRight tree right)

/-- What `remove` puts in the place of a node with these children. -/
def replacement (left right : BinaryTree T) : BinaryTree T :=
  if left = nil then right
  else if right = nil then left
  else hangRight right left

/-- The search of `remove`, where the place of the node found is filled again. -/
def removeNode (compare : T → T → Ordering) (x : T) : BinaryTree T → Option (BinaryTree T)
  -- `ASSERT(node)` fails
  | nil => none
  | node val left right =>
    match compare x val with
    | .eq => some (replacement left right)
    | .gt => (removeNode compare x right).map fun right' => node val left right'
    | .lt => (removeNode compare x left).map fun left' => node val left' right

/-- `remove`. -/
def remove (compare : T → T → Ordering) (x : T) : TreeBag T → Option (TreeBag T)
  | .nodes root => (removeNode compare x root).map .nodes
  | .freed => none

/-! ## The iterator -/

namespace Iter

/-- `downLeft`: stack a node and its left spine.  The top of the stack comes first. -/
def downLeft : BinaryTree T → Path → List Path → List Path
  | nil, _, s => s
  | node _ left _, p, s => downLeft left (.left :: p) (p :: s)

/-- `upRight`: leave the nodes whose right child has been completed. -/
def upRight (root : BinaryTree T) : Path → List Path → List Path
  | _, [] => []
  | n, top :: s => if root.subtree (.right :: top) ≠ nil ∧ .right :: top = n then upRight root top s else top :: s

/-- `next`, which does not look whether the iterator has ended. -/
def next (root : BinaryTree T) : List Path → Option (List Path)
  | [] => none
  | top :: s =>
    if root.subtree (.right :: top) ≠ nil then
      some (downLeft (root.subtree (.right :: top)) (.right :: top) (top :: s))
    else
      match s with
      | [] => some []
      | parent :: _ =>
        if root.subtree (.right :: parent) ≠ nil ∧ top = .right :: parent then some (upRight root top s)
        else some s

/-- `item`. -/
def item (root : BinaryTree T) : List Path → Option T
  | [] => none
  | top :: _ =>
    match root.subtree top with
    | nil => none
    | node val _ _ => some val

/-- The constructor `Iter(tree)`. -/
def start (root : BinaryTree T) : List Path := downLeft root [] []

/-- One turn of `for(const auto& x: bag)`.  The elements taken so far are in reverse order. -/
def turn (root : BinaryTree T) (state : List Path × List T) : (List Path × List T) ⊕ Option (List T) :=
  match state with
  | ([], taken) => .inr (some taken.reverse)
  | (s, taken) =>
    match item root s, next root s with
    | some x, some s' => .inl (s', x :: taken)
    | _, _ => .inr none

end Iter

/-- The elements that the iteration gives, in its order. -/
def items : TreeBag T → Option (List T)
  | .nodes root => (Loop.run (Iter.turn root) (root.numNodes + 1) (Iter.start root, [])).join
  | .freed => none

/-! ## `clear` and `copy` -/

/-- One turn of `while(todo)`: a node leaves the queue, its children enter it, and it is freed. -/
def clearTurn (state : List (BinaryTree T) × List T) : (List (BinaryTree T) × List T) ⊕ List T :=
  match state with
  | ([], released) => .inr released
  | (nil :: todo, released) => .inl (todo, released)
  | (node val left right :: todo, released) =>
    .inl (todo ++ (if left = nil then [] else [left]) ++ (if right = nil then [] else [right]), released ++ [val])

/-- `clear`, with the elements whose nodes it frees.  The pointer to the root stays as it is. -/
def clear (b : TreeBag T) : Option (TreeBag T × List T) :=
  if b.isEmpty then some (b, [])
  else
    match b with
    | .nodes root => (Loop.run clearTurn (root.numNodes + 1) ([root], [])).map fun released => (.freed, released)
    | .freed => none

/-! ## Programs with several bags -/

/-- A call on the bags named by `ι`. -/
inductive Op (ι T : Type*)
  | add (i : ι) (x : T)
  | remove (i : ι) (x : T)
  | clear (i : ι)
  | copy (i j : ι)

variable {ι : Type*}

section Calls

variable [DecidableEq ι]

/-- The effect of a call.  `copy` clears its receiver before it reads its argument, which may be the same bag. -/
def call (compare : T → T → Ordering) (bags : ι → TreeBag T) : Op ι T → Option (ι → TreeBag T)
  | .add i x => ((bags i).add compare x).map (update bags i)
  | .remove i x => ((bags i).remove compare x).map (update bags i)
  | .clear i => (bags i).clear.map fun (b, _) => update bags i b
  | .copy i j =>
    (bags i).clear.bind fun (b, _) =>
      let cleared := update bags i b
      (cleared j).items.bind fun xs => (b.addAll compare xs).map (update cleared i)

/-! ## What a bag stands for -/

/-- The same calls on multisets. -/
def callSets [DecidableEq T] (sets : ι → Multiset T) : Op ι T → (ι → Multiset T)
  | .add i x => update sets i (x ::ₘ sets i)
  | .remove i x => update sets i ((sets i).erase x)
  | .clear i => update sets i 0
  | .copy i j =>
    let cleared := update sets i 0
    update cleared i (cleared j)

end Calls

/-- The bags of a program and the multisets they stand for. -/
structure State (ι T : Type*) where
  bags : ι → TreeBag T
  sets : ι → Multiset T

/-- All bags are empty. -/
def State.init : State ι T := ⟨fun _ => new, fun _ => 0⟩

def step [DecidableEq ι] [DecidableEq T] (compare : T → T → Ordering) (s : State ι T) (op : Op ι T) : Option (State ι T) :=
  (call compare s.bags op).map fun bags => ⟨bags, callSets s.sets op⟩

/-- Smaller elements on the left of each node, the others on its right. -/
def SearchTree (compare : T → T → Ordering) : BinaryTree T → Prop
  | nil => True
  | node val left right =>
    (∀ y ∈ left.toList, compare y val = .lt) ∧ (∀ y ∈ right.toList, (compare val y).isLE) ∧
      SearchTree compare left ∧ SearchTree compare right

/-- The bag is a search tree, and its observers answer as the multiset. -/
structure Agrees [DecidableEq T] (compare : T → T → Ordering) (b : TreeBag T) (m : Multiset T) : Prop where
  searchTree : ∃ root, b = .nodes root ∧ SearchTree compare root
  contains : ∀ x, b.contains compare x = some (decide (x ∈ m))
  find : ∀ x, b.find compare x = some (if x ∈ m then some x else none)
  count : b.count = some m.card
  isEmpty : b.isEmpty = decide (m = 0)
  items : ∃ xs, b.items = some xs ∧ (xs.Pairwise fun x y => (compare x y).isLE) ∧ ↑xs = m

/-- `remove` is of a present element. -/
def Present (s : State ι T) : Op ι T → Prop
  | .remove i x => x ∈ s.sets i
  | _ => True

/-- A present element for `remove`, and an empty receiver for `clear` and `copy`. -/
def Allowed (s : State ι T) : Op ι T → Prop
  | .add _ _ => True
  | .remove i x => x ∈ s.sets i
  | .clear i => s.sets i = 0
  | .copy i _ => s.sets i = 0

instance [DecidableEq T] (s : State ι T) : (op : Op ι T) → Decidable (Allowed s op)
  | .add _ _ => inferInstanceAs (Decidable True)
  | .remove i x => inferInstanceAs (Decidable (x ∈ s.sets i))
  | .clear i => inferInstanceAs (Decidable (s.sets i = 0))
  | .copy i _ => inferInstanceAs (Decidable (s.sets i = 0))

end TreeBag

end Elm.Data
