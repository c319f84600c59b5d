import Elm.Lib.BinTree

/-!
# Visits of an `inhstruct::BinTree`

The three visits of `src/inhstruct_BinTree.cpp`.  A node is its address, and is in a tree once.  The function
`process` of a visitor changes the state of the visitor, and the visit goes on as long as its result is not 0.
The visits in pre-order and in post-order recurse with the visit in in-order.
-/

namespace Elm.Inhstruct

open List hiding nil
open BinaryTree

/-- `BinTree`: the nodes below its member `_root`. -/
structure BinTree (A : Type*) where
  root : BinaryTree A
  nodup : root.toList.Nodup

namespace BinTree

variable {A σ : Type*}

/-- A visitor: its function `process`, with its state. -/
abbrev Visitor (A σ : Type*) := A → σ → Int × σ

/-- The visitor that notes the nodes it is called for. -/
def Visitor.noting (visitor : Visitor A σ) : Visitor A (σ × List A) := fun node s =>
  ((visitor node s.1).1, (visitor node s.1).2, s.2 ++ [node])

/-- The operator `&&`: the right operand is evaluated when the left one is true. -/
def both (x y : σ → Bool × σ) (s : σ) : Bool × σ :=
  match x s with
  | (true, s) => y s
  | (false, s) => (false, s)

/-- `visitor->process(node)`, as a condition. -/
def call (visitor : Visitor A σ) (node : A) (s : σ) : Bool × σ :=
  ((visitor node s).1 ≠ 0, (visitor node s).2)

/-- `BinTree::visit(visitor, node)`. -/
def visitNode (visitor : Visitor A σ) : BinaryTree A → σ → Bool × σ
  | nil => fun s => (true, s)
  | node a left right => both (visitNode visitor left) (both (call visitor a) (visitNode visitor right))

/-- `BinTree::visitPreOrder(visitor, node)`. -/
def visitPreOrderNode (visitor : Visitor A σ) : BinaryTree A → σ → Bool × σ
  | nil => fun s => (true, s)
  | node a left right => both (call visitor a) (both (visitNode visitor left) (visitNode visitor right))

/-- `BinTree::visitPostOrder(visitor, node)`. -/
def visitPostOrderNode (visitor : Visitor A σ) : BinaryTree A → σ → Bool × σ
  | nil => fun s => (true, s)
  | node a left right => both (visitNode visitor left) (both (visitNode visitor right) (call visitor a))

/-- `visit`. -/
def visit (t : BinTree A) (visitor : Visitor A σ) (s : σ) : Bool × σ := visitNode visitor t.root s

/-- `visitPreOrder`. -/
def visitPreOrder (t : BinTree A) (visitor : Visitor A σ) (s : σ) : Bool × σ := visitPreOrderNode visitor t.root s

/-- `visitPostOrder`. -/
def visitPostOrder (t : BinTree A) (visitor : Visitor A σ) (s : σ) : Bool × σ := visitPostOrderNode visitor t.root s

/-! ## The nodes that are processed -/

/-- The visitor never stops the visit. -/
def Visitor.Continues (visitor : Visitor A σ) : Prop := ∀ node s, (visitor node s).1 ≠ 0

/-- A part of a visit goes to its end and processes these nodes. -/
def Processes (x : σ × List A → Bool × (σ × List A)) (nodes : List A) : Prop :=
  ∀ s noted, ∃ s', x (s, noted) = (true, s', noted ++ nodes)

variable {visitor : Visitor A σ}

theorem Processes.both {x y : σ × List A → Bool × (σ × List A)} {xs ys : List A} (hx : Processes x xs)
    (hy : Processes y ys) : Processes (both x y) (xs ++ ys) := by
  intro s noted
  obtain ⟨s₁, hx⟩ := hx s noted
  obtain ⟨s₂, hy⟩ := hy s₁ (noted ++ xs)
  refine ⟨s₂, ?_⟩
  simp only [BinTree.both, hx, hy, append_assoc]

theorem processes_call (h : visitor.Continues) (a : A) : Processes (call visitor.noting a) [a] := by
  intro s noted
  refine ⟨(visitor a s).2, ?_⟩
  simp [call, Visitor.noting, h a s]

theorem processes_visitNode (h : visitor.Continues) (t : BinaryTree A) :
    Processes (visitNode visitor.noting t) t.toList := by
  induction t with
  | nil =>
    intro s noted
    exact ⟨s, by rw [toList_nil, append_nil]; rfl⟩
  | node a left right ihl ihr => exact ihl.both ((processes_call h a).both ihr)

/-- The order of `visitPreOrder`: below the root it is the one of `visit`. -/
def preOrder : BinaryTree A → List A
  | nil => []
  | node a left right => a :: (left.toList ++ right.toList)

/-- The order of `visitPostOrder`. -/
def postOrder : BinaryTree A → List A
  | nil => []
  | node a left right => left.toList ++ (right.toList ++ [a])

theorem processes_visitPreOrderNode (h : visitor.Continues) (t : BinaryTree A) :
    Processes (visitPreOrderNode visitor.noting t) (preOrder t) := by
  cases t with
  | nil => exact processes_visitNode h nil
  | node a left right =>
    exact (processes_call h a).both ((processes_visitNode h left).both (processes_visitNode h right))

theorem processes_visitPostOrderNode (h : visitor.Continues) (t : BinaryTree A) :
    Processes (visitPostOrderNode visitor.noting t) (postOrder t) := by
  cases t with
  | nil => exact processes_visitNode h nil
  | node a left right =>
    exact (processes_visitNode h left).both ((processes_visitNode h right).both (processes_call h a))

/-- What holds of the two subtrees of the root. -/
def Below (cond : BinaryTree A → Prop) (t : BinTree A) : Prop := cond t.root.left ∧ cond t.root.right

/-- Two lists are put together from parts of the same lengths. -/
theorem append_eq_append_iff {xs ys xs' ys' : List A} (h : xs'.length = xs.length) :
    xs ++ ys = xs' ++ ys' ↔ xs' = xs ∧ ys' = ys := by
  constructor
  · intro heq
    obtain ⟨hxs, hys⟩ := append_inj heq h.symm
    exact ⟨hxs.symm, hys.symm⟩
  · rintro ⟨rfl, rfl⟩
    rfl

theorem preOrder_eq_iff (t : BinTree A) : preOrder t.root = t.root.preList ↔ t.Below NoLeft := by
  obtain ⟨root, hnodup⟩ := t
  cases root with
  | nil => exact iff_of_true rfl ⟨trivial, trivial⟩
  | node a left right =>
    obtain ⟨hleft, hrest, -⟩ := nodup_append.mp hnodup
    have hright := (nodup_cons.mp hrest).2
    -- the nodes are different, so that the in-order list of a subtree tells its shape
    show a :: (left.toList ++ right.toList) = a :: (left.preList ++ right.preList) ↔ left.NoLeft ∧ right.NoLeft
    rw [← preList_eq_toList_iff hleft, ← preList_eq_toList_iff hright, cons_inj_right]
    exact append_eq_append_iff (length_preList left)

theorem postOrder_eq_iff (t : BinTree A) : postOrder t.root = t.root.postList ↔ t.Below NoRight := by
  obtain ⟨root, hnodup⟩ := t
  cases root with
  | nil => exact iff_of_true rfl ⟨trivial, trivial⟩
  | node a left right =>
    obtain ⟨hleft, hrest, -⟩ := nodup_append.mp hnodup
    have hright := (nodup_cons.mp hrest).2
    show left.toList ++ (right.toList ++ [a]) = left.postList ++ (right.postList ++ [a]) ↔
      left.NoRight ∧ right.NoRight
    rw [← postList_eq_toList_iff hleft, ← postList_eq_toList_iff hright,
      append_eq_append_iff (length_postList left), append_left_inj]

/-- A visit from a state of the visitor goes to its end, and these are the nodes that it processes, in this order. -/
def Visits (visitor : Visitor A σ) (s : σ) (visit : Visitor A (σ × List A) → σ × List A → Bool × (σ × List A))
    (nodes : List A) : Prop :=
  ∃ s', visit visitor.noting (s, []) = (true, s', nodes)

theorem visits_iff {visit : Visitor A (σ × List A) → σ × List A → Bool × (σ × List A)} {xs : List A}
    (h : Processes (visit visitor.noting) xs) (s : σ) (ys : List A) : Visits visitor s visit ys ↔ xs = ys := by
  obtain ⟨s₁, hvisit⟩ := h s []
  constructor
  · rintro ⟨s₂, hvisit'⟩
    exact congrArg (fun r => r.2.2) (hvisit.symm.trans hvisit')
  · rintro rfl
    exact ⟨s₁, hvisit⟩

/-- `visit` is in in-order for every tree.  `visitPreOrder` is in pre-order exactly when no node below the root has a
left child, and `visitPostOrder` in post-order exactly when no node below the root has a right child. -/
theorem visits_order_iff (t : BinTree A) (visitor : Visitor A σ) (h : visitor.Continues) (s : σ) :
    Visits visitor s t.visit t.root.toList ∧
      (Visits visitor s t.visitPreOrder t.root.preList ↔ t.Below NoLeft) ∧
      (Visits visitor s t.visitPostOrder t.root.postList ↔ t.Below NoRight) := by
  refine ⟨?_, ?_, ?_⟩
  · exact (visits_iff (processes_visitNode h t.root) s _).mpr rfl
  · rw [← preOrder_eq_iff]
    exact visits_iff (processes_visitPreOrderNode h t.root) s _
  · rw [← postOrder_eq_iff]
    exact visits_iff (processes_visitPostOrderNode h t.root) s _

/-- The root 4, with the children 2 and 6, each of which has two children. -/
def sevenNodes : BinTree Nat where
  root := node 4 (node 2 (node 1 nil nil) (node 3 nil nil)) (node 6 (node 5 nil nil) (node 7 nil nil))
  nodup := by decide

/-- A visitor that counts. -/
def counting : Visitor Nat Nat := fun _ count => (1, count + 1)

theorem continues_counting : counting.Continues := fun _ _ => one_ne_zero

theorem visits_order_iff_sevenNodes :
    Visits counting 0 sevenNodes.visit [1, 2, 3, 4, 5, 6, 7] ∧
      (Visits counting 0 sevenNodes.visitPreOrder [4, 2, 1, 3, 6, 5, 7] ↔ sevenNodes.Below NoLeft) ∧
      (Visits counting 0 sevenNodes.visitPostOrder [1, 3, 2, 5, 7, 6, 4] ↔ sevenNodes.Below NoRight) :=
  visits_order_iff sevenNodes counting continues_counting 0

/-- The nodes 1 and 2 come in the wrong order in both visits. -/
theorem not_visits_order : ¬ ∀ (t : BinTree Nat) (visitor : Visitor Nat Nat), visitor.Continues → ∀ s,
    Visits visitor s t.visit t.root.toList ∧ Visits visitor s t.visitPreOrder t.root.preList ∧
      Visits visitor s t.visitPostOrder t.root.postList := by
  intro hall
  obtain ⟨-, ⟨s', hpre⟩, -⟩ := hall sevenNodes counting continues_counting 0
  have hnodes : (sevenNodes.visitPreOrder counting.noting (0, [])).2.2 = sevenNodes.root.preList := by rw [hpre]
  revert hnodes
  decide

end BinTree

end Elm.Inhstruct
