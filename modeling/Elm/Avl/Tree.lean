import Elm.Lib.BinTree
import Elm.Lib.Loop

/-!
# `avl::Tree`

The tree of inherited nodes of `include/elm/avl/Tree.h` and `src/avl_Tree.cpp`, which `inhstruct::AVLTree`
is another name of.  Each node keeps the height of its subtree in `h`.  A null pointer is the empty tree; a
call that fails an assertion, or that follows a null pointer, has no result.

The functions of the right side are those of the left side seen in a mirror, which the second part of this
file states, so that only one side needs to be studied.
-/

namespace Elm.AVLTree

open BinaryTree Option

/-- `Tree::Node`: the inheriting object and the field `h`. -/
structure Cell (T : Type*) where
  data : T
  h : Int
  deriving DecidableEq, Repr

/-- `Node *`; the null pointer is `nil`. -/
abbrev Node (T : Type*) := BinaryTree (Cell T)

variable {T : Type*}

/-- `height(node)`. -/
def height : Node T → Int
  | nil => 0
  | node c _ _ => c.h

/-- `computeHeight(node)`. -/
def computeHeight : Node T → Node T
  | nil => nil
  | node c l r => node { c with h := if height r < height l then height l + 1 else height r + 1 } l r

/-- `ASSERT(!root || abs(height(root->_left()) - height(root->_right())) < 2)`. -/
def assertBalanced : Node T → Option (Node T)
  | nil => some nil
  | node c l r => if |height l - height r| < 2 then some (node c l r) else none

/-! ## Rotations -/

/-- `rotateSingleLeft`: the left child takes the place of its parent. -/
def rotateSingleLeft : Node T → Option (Node T)
  | node c (node d a b) r => some (computeHeight (node d a (computeHeight (node c b r))))
  | _ => none

/-- `rotateSingleRight`. -/
def rotateSingleRight : Node T → Option (Node T)
  | node c l (node d a b) => some (computeHeight (node d (computeHeight (node c l a)) b))
  | _ => none

/-- `rotateDoubleLeft`. -/
def rotateDoubleLeft : Node T → Option (Node T)
  | node c l r => (rotateSingleRight l).bind fun l => rotateSingleLeft (node c l r)
  | nil => none

/-- `rotateDoubleRight`. -/
def rotateDoubleRight : Node T → Option (Node T)
  | node c l r => (rotateSingleLeft r).bind fun r => rotateSingleRight (node c l r)
  | nil => none

/-! ## Insertion -/

section Insert

variable (compare : T → T → Ordering) (x : T)

/-- The end of `insert` after an insertion to the left. -/
def insertedLeft (c : Cell T) (l r : Node T) : Option (Node T) :=
  (if 2 ≤ height l - height r then
      match l with
      | nil => none
      | node d _ _ =>
        if compare d.data x = .gt then rotateSingleLeft (node c l r) else rotateDoubleLeft (node c l r)
    else
      some (node c l r)).bind fun cur => assertBalanced (computeHeight cur)

/-- The end of `insert` after an insertion to the right. -/
def insertedRight (c : Cell T) (l r : Node T) : Option (Node T) :=
  (if 2 ≤ height r - height l then
      match r with
      | nil => none
      | node d _ _ =>
        if compare d.data x = .lt then rotateSingleRight (node c l r)
        else rotateDoubleRight (node c l r)
    else
      some (node c l r)).bind fun cur => assertBalanced (computeHeight cur)

/-- `insert(cur, node)`, the links of the new node being null. -/
def insert : Node T → Option (Node T)
  | nil => some (node ⟨x, 1⟩ nil nil)
  | node c l r =>
    match compare c.data x with
    | .gt => (insert l).bind fun l => insertedLeft compare x c l r
    | .lt => (insert r).bind fun r => insertedRight compare x c l r
    | .eq => some (node c l r)

end Insert

/-! ## Removal -/

/-- The end of `removeGreatest` after a removal from the right subtree. -/
def removedRight (c : Cell T) (l r : Node T) : Option (Node T) :=
  (if 2 ≤ height l - height r then rotateSingleLeft (node c l r)
    else some (computeHeight (node c l r))).bind assertBalanced

/-- The end of `removeLeast` after a removal from the left subtree. -/
def removedLeft (c : Cell T) (l r : Node T) : Option (Node T) :=
  (if 2 ≤ height r - height l then rotateSingleRight (node c l r)
    else some (computeHeight (node c l r))).bind assertBalanced

/-- `removeGreatest(root, res)`: the subtree that is left and the removed node. -/
def removeGreatest : Node T → Option (Node T × Cell T)
  | nil => none
  | node c l r =>
    if r = nil then
      (assertBalanced l).map fun l => (l, c)
    else
      (removeGreatest r).bind fun (r, res) => (removedRight c l r).map fun root => (root, res)

/-- `removeLeast(root, res)`. -/
def removeLeast : Node T → Option (Node T × Cell T)
  | nil => none
  | node c l r =>
    if l = nil then
      (assertBalanced r).map fun r => (r, c)
    else
      (removeLeast l).bind fun (l, res) => (removedLeft c l r).map fun root => (root, res)

/-- `remove`, when the node is found: what takes its place.  The assertion compares heights inside of
`abs`, `abs(height(left) - height(right) < 2)`. -/
def removeFound (left right : Node T) : Option (Node T) :=
  if left = nil then
    some right
  else if right = nil then
    some left
  else if height right < height left then
    (removeGreatest left).bind fun (left, root) =>
      if height left - height right < 2 then some (node root left right) else none
  else
    (removeLeast right).bind fun (right, root) =>
      if height left - height right < 2 then some (node root left right) else none

/-- `remove(root, node)`; `compare` may not be given a null pointer. -/
def remove (compare : T → T → Ordering) (x : T) : Node T → Option (Node T)
  | nil => none
  | node c l r =>
    (assertBalanced (node c l r)).bind fun _ =>
      (match compare c.data x with
        | .lt => (remove compare x r).bind fun r =>
          (if 2 ≤ height l - height r then rotateSingleLeft (node c l r)
            else some (node c l r)).bind assertBalanced
        | .gt => (remove compare x l).bind fun l =>
          (if 2 ≤ height r - height l then rotateSingleRight (node c l r)
            else some (node c l r)).bind assertBalanced
        | .eq => removeFound l r).bind fun root => assertBalanced (computeHeight root)

/-! ## The mirror -/

@[simp] theorem height_mirror (t : Node T) : height t.mirror = height t := by
  cases t <;> rfl

@[simp] theorem computeHeight_mirror (t : Node T) :
    computeHeight t.mirror = (computeHeight t).mirror := by
  cases t with
  | nil => rfl
  | node c l r =>
    simp only [mirror_node, computeHeight, height_mirror]
    congr 2
    split_ifs <;> omega

@[simp] theorem assertBalanced_mirror (t : Node T) :
    assertBalanced t.mirror = (assertBalanced t).map mirror := by
  cases t with
  | nil => rfl
  | node c l r =>
    simp only [mirror_node, assertBalanced, height_mirror, abs_sub_comm (height r)]
    split_ifs <;> rfl

theorem rotateSingleRight_mirror (t : Node T) :
    rotateSingleRight t.mirror = (rotateSingleLeft t).map mirror := by
  match t with
  | nil => rfl
  | node c nil r => rfl
  | node c (node d a b) r =>
    have hinner := computeHeight_mirror (node c b r)
    have houter := computeHeight_mirror (node d a (computeHeight (node c b r)))
    rw [mirror_node] at hinner houter
    rw [mirror_node, mirror_node, rotateSingleRight, rotateSingleLeft, map_some, hinner, houter]

theorem rotateSingleLeft_mirror (t : Node T) :
    rotateSingleLeft t.mirror = (rotateSingleRight t).map mirror := by
  have h := rotateSingleRight_mirror t.mirror
  rw [mirror_mirror] at h
  simp [h, Function.comp_def]

theorem rotateDoubleRight_mirror (t : Node T) :
    rotateDoubleRight t.mirror = (rotateDoubleLeft t).map mirror := by
  cases t with
  | nil => rfl
  | node c l r =>
    rw [mirror_node, rotateDoubleRight, rotateDoubleLeft, rotateSingleLeft_mirror, Option.map_bind,
      bind_map]
    congr 1
    funext l
    exact rotateSingleRight_mirror (node c l r)

theorem insertedRight_mirror (compare : T → T → Ordering) (x : T) (c : Cell T) (l r : Node T) :
    insertedRight compare x c r.mirror l.mirror =
      (insertedLeft (fun y z => (compare y z).swap) x c l r).map mirror := by
  have hend (t : Option (Node T)) :
      (t.map mirror).bind (fun cur => assertBalanced (computeHeight cur)) =
        (t.bind fun cur => assertBalanced (computeHeight cur)).map mirror := by
    rw [bind_map, Option.map_bind]
    congr 1
    funext cur
    simp
  unfold insertedRight insertedLeft
  rw [height_mirror, height_mirror, ← hend]
  congr 1
  by_cases hh : 2 ≤ height l - height r
  · cases l with
    | nil => simp [hh]
    | node d a b =>
      have hsingle := rotateSingleRight_mirror (node c (node d a b) r)
      have hdouble := rotateDoubleRight_mirror (node c (node d a b) r)
      simp only [mirror_node] at hsingle hdouble
      rw [if_pos hh, if_pos hh]
      by_cases hlt : compare d.data x = .lt
      · simp [hlt, hsingle]
      · simp [hlt, hdouble]
  · simp [hh]

theorem removedLeft_mirror (c : Cell T) (l r : Node T) :
    removedLeft c r.mirror l.mirror = (removedRight c l r).map mirror := by
  unfold removedLeft removedRight
  rw [height_mirror, height_mirror]
  split_ifs with hh
  · have hrotate := rotateSingleRight_mirror (node c l r)
    rw [mirror_node] at hrotate
    rw [hrotate, bind_map, Option.map_bind]
    congr 1
    funext t
    exact assertBalanced_mirror t
  · have hcompute := computeHeight_mirror (node c l r)
    rw [mirror_node] at hcompute
    rw [hcompute, bind_some, bind_some, assertBalanced_mirror]

theorem removeLeast_mirror (t : Node T) :
    removeLeast t.mirror = (removeGreatest t).map fun s => (s.1.mirror, s.2) := by
  induction t with
  | nil => rfl
  | node c l r _ ihr =>
    rw [mirror_node, removeLeast, removeGreatest]
    simp only [mirror_eq_nil_iff]
    split_ifs with hr
    · rw [assertBalanced_mirror, map_map, map_map]
      rfl
    · rw [ihr, bind_map, Option.map_bind]
      congr 1
      funext s
      simp only [Function.comp, removedLeft_mirror, map_map]
      rfl

end Elm.AVLTree
