import Elm.Lib.BinTree
import Elm.Lib.Loop

/-!
# `avl::GenTree`

The tree of `include/elm/avl/GenTree.h` and its rebalancing code in `src/avl_GenTree.cpp`.

A null pointer is the empty tree, and the `Stack` of (node, direction) pairs that the source keeps
while it walks down is a list of frames: the pointed node without the child the walk went to.  The
assignment `*link(s) = n` then puts `n` in the innermost hole.  Read-only traversals
(`VisitStack`) point into a tree that does not change, so there a node pointer is the position of
the node and two pointers are equal when the positions are.

`cmp < 0`, `cmp == 0` and `cmp > 0` are the three values of `Ordering`.
-/

namespace Elm.Avl

open BinaryTree

/-- The fields of a node besides its two links: the balance factor of `AbstractTree::Node` and the
datum of `GenTree::Node`. -/
structure Cell (T : Type*) where
  data : T
  bal : Int
  deriving DecidableEq, Repr

/-- `Node *`; the null pointer is `nil`. -/
abbrev Node (T : Type*) := BinaryTree (Cell T)

/-- The traversal stack of `AbstractTree`, innermost entry first. -/
abbrev Stack (T : Type*) := List (Frame (Cell T))

/-- The template parameters `K` (key of a datum) and `C` (comparison of keys). -/
structure Adapter (T K : Type*) where
  key : T → K
  compare : K → K → Ordering

/-- `AbstractTree::_root` and `AbstractTree::_cnt`. -/
structure GenTree (T : Type*) where
  root : Node T
  cnt : Int
  deriving DecidableEq, Repr

variable {T K : Type*}

/-- `n->_bal`. -/
def Node.bal : Node T → Int
  | nil => 0
  | node c _ _ => c.bal

/-- `new(this) Node(item)`: no child and a null balance. -/
def Node.new (item : T) : Node T := node ⟨item, 0⟩ nil nil

/-- The empty tree of the default constructor. -/
def GenTree.empty : GenTree T := ⟨nil, 0⟩

/-! ## Rotations -/

/-- `AbstractTree::rotateRight`: `r` is the node popped from the stack, the result is the node that
takes its place in `*link(s)`. -/
def rotateRight : Node T → Node T
  | node r (node nr a b) c =>
    let rbal := r.bal + 1 - min nr.bal 0
    node { nr with bal := nr.bal + 1 + max rbal 0 } a (node { r with bal := rbal } b c)
  | r => r

/-- `AbstractTree::rotateLeft`. -/
def rotateLeft : Node T → Node T
  | node r a (node nr b c) =>
    let rbal := r.bal - 1 - max nr.bal 0
    node { nr with bal := nr.bal - 1 + min rbal 0 } (node { r with bal := rbal } a b) c
  | r => r

/-- Rotation of the left child: `s.push(n->_left, LEFT); rotateLeft(s)`. -/
def rotateLeftChild : Node T → Node T
  | node c l r => node c (rotateLeft l) r
  | nil => nil

/-- Rotation of the right child: `s.push(n->_right, RIGHT); rotateRight(s)`. -/
def rotateRightChild : Node T → Node T
  | node c l r => node c l (rotateRight r)
  | nil => nil

/-! ## Insertion -/

/-- The loop of `AbstractTree::insert`; `n` is the subtree that has just been linked at the top of
the stack.  Leaving the loop keeps the nodes that are still on the stack as they are. -/
def insertLoop : Node T → Stack T → Node T
  | n, [] => n
  | n, f :: s =>
    let bal := match f.side with
      | .left => f.label.bal - 1
      | .right => f.label.bal + 1
    let p := Frame.plug { f with label := { f.label with bal := bal } } n
    if bal = 0 then
      unwind p s
    else if bal < -1 then
      -- too high on left
      unwind (rotateRight (if 0 < Node.bal p.left then rotateLeftChild p else p)) s
    else if 1 < bal then
      -- too high on right
      unwind (rotateLeft (if Node.bal p.right < 0 then rotateRightChild p else p)) s
    else
      insertLoop p s

/-- `AbstractTree::insert`. -/
def GenTree.insert (t : GenTree T) (s : Stack T) (n : Node T) : GenTree T :=
  match t.root with
  | nil => ⟨n, t.cnt + 1⟩
  | node _ _ _ => ⟨insertLoop n s, t.cnt + 1⟩

/-! ## Removal -/

/-- The loop of `AbstractTree::remove`; `n` replaces the removed node at the top of the stack. -/
def removeLoop : Node T → Stack T → Node T
  | n, [] => n
  | n, f :: s =>
    match f.side with
    | .left =>
      let bal := f.label.bal + 1
      let p := Frame.plug { f with label := { f.label with bal := bal } } n
      if bal = 0 then removeLoop p s
      else if bal = 1 then unwind p s
      else if Node.bal p.right = 0 then unwind (rotateLeft p) s
      else if Node.bal p.right = 1 then removeLoop (rotateLeft p) s
      else removeLoop (rotateLeft (rotateRightChild p)) s
    | .right =>
      let bal := f.label.bal - 1
      let p := Frame.plug { f with label := { f.label with bal := bal } } n
      if bal = 0 then removeLoop p s
      else if bal = -1 then unwind p s
      else if Node.bal p.left = 0 then unwind (rotateRight p) s
      else if Node.bal p.left = -1 then removeLoop (rotateRight p) s
      else removeLoop (rotateRight (rotateLeftChild p)) s

/-- `AbstractTree::remove(Stack&, Node *)`. -/
def GenTree.unlink (t : GenTree T) (s : Stack T) (n : Node T) : GenTree T :=
  ⟨removeLoop n s, t.cnt - 1⟩

/-- `AbstractTree::leftMost`. -/
def leftMost : Stack T → Node T → Node T × Stack T
  | s, node c (node d a b) r => leftMost (⟨.left, c, r⟩ :: s) (node d a b)
  | s, n => (n, s)

/-- `GenTree::exchange`: swap the data of two nodes. -/
def exchange (p n : Cell T) : Cell T × Cell T :=
  ({ p with data := n.data }, { n with data := p.data })

/-- `GenTree::remove(Stack&, Node *)`.  In the middle case the removed node `n` stays in the tree
with the datum of its successor `p`, and it is `p` that is unlinked; the frames that `leftMost`
pushes lie above the one of `n`. -/
def GenTree.removeNode (t : GenTree T) (s : Stack T) : Node T → GenTree T
  | nil => t
  | node _ nil r => t.unlink s r
  | node _ l nil => t.unlink s l
  | node n l r =>
    match leftMost [] r with
    | (node p _ pr, above) =>
      t.unlink (above ++ ⟨.right, (exchange p n).2, l⟩ :: s) pr
    | (nil, _) => t

/-! ## Lookups -/

section Keyed

variable (A : Adapter T K)

/-- `GenTree::lookup`: the node found, or null, and the stack of its parents. -/
def lookup (key : K) : Node T → Stack T → Node T × Stack T
  | nil, s => (nil, s)
  | node c l r, s =>
    match A.compare key (A.key c.data) with
    | .eq => (node c l r, s)
    | .lt => lookup key l (⟨.left, c, r⟩ :: s)
    | .gt => lookup key r (⟨.right, c, l⟩ :: s)

/-- `GenTree::find`. -/
def find (key : K) : Node T → Node T
  | nil => nil
  | node c l r =>
    match A.compare key (A.key c.data) with
    | .lt => find key l
    | .gt => find key r
    | .eq => node c l r

/-- `GenTree::get`. -/
def GenTree.get (t : GenTree T) (key : K) : Option T :=
  match find A key t.root with
  | nil => none
  | node c _ _ => some c.data

/-- `GenTree::contains`. -/
def GenTree.contains (t : GenTree T) (key : K) : Bool :=
  match find A key t.root with
  | nil => false
  | node _ _ _ => true

/-- `GenTree::add`. -/
def GenTree.add (t : GenTree T) (item : T) : GenTree T :=
  match lookup A (A.key item) t.root [] with
  | (nil, s) => t.insert s (Node.new item)
  | (node _ _ _, _) => t

/-- `GenTree::removeByKey`. -/
def GenTree.removeByKey (t : GenTree T) (key : K) : GenTree T :=
  match lookup A key t.root [] with
  | (nil, _) => t
  | (node c l r, s) => t.removeNode s (node c l r)

/-- `GenTree::remove(const T&)`. -/
def GenTree.remove (t : GenTree T) (x : T) : GenTree T := t.removeByKey A (A.key x)

end Keyed

/-! ## Clearing -/

/-- One turn of the loop of `GenTree::clear`, with the nodes freed so far: the popped node stacks its
children and is freed. -/
def clearTurn : List (Node T) × List (Cell T) → (List (Node T) × List (Cell T)) ⊕ List (Cell T)
  | ([], freed) => .inr freed
  | (nil :: s, freed) => .inl (s, freed)
  | (node c l r :: s, freed) =>
    let s := if l ≠ nil then l :: s else s
    let s := if r ≠ nil then r :: s else s
    .inl (s, c :: freed)

/-- `GenTree::clear`, with the list of the nodes it frees. -/
def GenTree.clear (t : GenTree T) : Option (GenTree T × List (Cell T)) :=
  let s := if t.root ≠ nil then [t.root] else []
  (Loop.run clearTurn (t.root.numNodes + 1) (s, [])).map fun freed => (⟨nil, 0⟩, freed)

/-! ## Read-only traversals -/

/-- `VisitStack`: the positions of the stacked nodes, top first. -/
abbrev VisitStack := List Path

/-- `GenTree::Iter::visit` without the last push: stack the left spine of a subtree. -/
def pushLeft : Node T → Path → VisitStack → VisitStack
  | nil, _, s => s
  | node _ l _, p, s => pushLeft l (.left :: p) (p :: s)

/-- `GenTree::Iter::visit`: the node reached is stacked twice. -/
def visit (root : Node T) (p : Path) (s : VisitStack) : VisitStack :=
  match pushLeft (root.subtree p) p s with
  | [] => []
  | top :: s' => top :: top :: s'

/-- `GenTree::Iter::next`. -/
def iterNext (root : Node T) : VisitStack → VisitStack
  | [] => []
  | [_] => []
  | last :: top :: s =>
    if root.subtree (.left :: top) ≠ nil ∧ last = .left :: top then
      top :: top :: s
    else if last = top ∧ root.subtree (.right :: top) ≠ nil then
      visit root (.right :: top) (top :: s)
    else
      iterNext root (top :: s)

/-- `GenTree::Iter::item`. -/
def iterItem (root : Node T) : VisitStack → Option T
  | [] => none
  | p :: _ =>
    match root.subtree p with
    | nil => none
    | node c _ _ => some c.data

/-- The constructor `GenTree::Iter(tree)`. -/
def GenTree.begin (t : GenTree T) : VisitStack := visit t.root [] []

/-- One turn of `for(auto x: tree)`: leave when the iterator has ended, else take the item and go to
the next one.  The items taken so far are kept in reverse order. -/
def itemsTurn (root : Node T) (s : VisitStack × List T) : (VisitStack × List T) ⊕ List T :=
  match iterItem root s.1 with
  | none => .inr s.2.reverse
  | some x => .inl (iterNext root s.1, x :: s.2)

/-- The items given by the iterator, in its order. -/
def GenTree.items (t : GenTree T) : Option (List T) :=
  Loop.run (itemsTurn t.root) (t.root.numNodes + 1) (t.begin, [])

/-! ## Copy -/

/-- `new(a) Node(n)`: the datum and the balance of `n`, without its children. -/
def Node.clone : Node T → Node T
  | nil => nil
  | node c _ _ => node c nil nil

/-- The tree being built and the two stacks of `GenTree::copy`. -/
structure CopyState (T : Type*) where
  target : Node T
  ss : VisitStack
  st : VisitStack

/-- `VisitStack::copyLeft` and `VisitStack::copyRight`. -/
def copyChild (src : Node T) (d : Side) (s : CopyState T) : CopyState T :=
  match s.ss, s.st with
  | p :: _, q :: _ =>
    { target := s.target.modifyAt q (setChild d (Node.clone (src.subtree (d :: p))))
      ss := (d :: p) :: s.ss
      st := (d :: q) :: s.st }
  | _, _ => s

/-- The two inner loops of `GenTree::copy` once `prv` has been popped from `ss`: the `do` loop goes
on from a right child, the `while` loop from a node without right child.  `none` is the `return` on
an empty stack. -/
def copyPop (src : Node T) : Path → VisitStack → VisitStack → Option (VisitStack × VisitStack)
  | _, [], _ => none
  | prv, top :: ss, st =>
    if .right :: top = prv ∨ src.subtree (.right :: top) = nil then
      copyPop src top ss st.tail
    else
      some (top :: ss, st.tail)

/-- One turn of the outer loop of `GenTree::copy`. -/
def copyTurn (src : Node T) (s : CopyState T) : CopyState T ⊕ Node T :=
  match s.ss with
  | [] => .inr s.target
  | p :: ss =>
    if src.subtree (.left :: p) ≠ nil then
      .inl (copyChild src .left s)
    else if src.subtree (.right :: p) ≠ nil then
      .inl (copyChild src .right s)
    else
      match copyPop src p ss s.st with
      | none => .inr s.target
      | some (ss', st') => .inl (copyChild src .right { s with ss := ss', st := st' })

/-- `GenTree::copy` after its `clear()`.  Each turn but the last one copies a node, which bounds the
number of turns. -/
def GenTree.copyFrom (src : GenTree T) : Option (GenTree T) :=
  match src.root with
  | nil => some GenTree.empty
  | node _ _ _ =>
    (Loop.run (copyTurn src.root) (src.root.numNodes + 1)
      ⟨Node.clone src.root, [[]], [[]]⟩).map fun root => ⟨root, src.cnt⟩

end Elm.Avl
