import Elm.Data.TreeBagRun

/-!
# `inhstruct::SortedBinTree`

The sorted binary tree of `src/inhstruct_SortedBinTree.cpp`, without balance, over the nodes of
`inhstruct::BinTree`.  A node stands for what `compare` sees of it, and equal nodes go to the right.  `remove` puts
the two subtrees of the node that it deletes together with `relink`.
-/

namespace Elm.Inhstruct.SortedBinTree

open List hiding nil
open BinaryTree Std
open Elm.Data.TreeBag (SearchTree findNode)

variable {T : Type*}

section Model

variable (compare : T → T → Ordering)

/-- The loop of `get`: the node found, if there is one. -/
def get (x : T) : BinaryTree T → Option T
  | nil => none
  | node cur left right =>
    match compare x cur with
    | .eq => some cur
    | .lt => get x left
    | .gt => get x right

/-- `insert`, of a node that has no children yet. -/
def insert (x : T) : BinaryTree T → BinaryTree T
  | nil => node x nil nil
  | node cur left right =>
    if compare x cur = .lt then node cur (insert x left) right else node cur left (insert x right)

/-- `relink`: the subtrees on the left and on the right of a removed node become one tree. -/
def relink : BinaryTree T → BinaryTree T → BinaryTree T
  | nil, right => right
  | node l ll lr, right =>
    if right = nil then node l ll lr
    else if lr = nil then node l ll right
    else if right.left = nil then setChild .left (node l ll lr) right
    else node l (relink ll lr) right

/-- `remove`, below a node: a node that is equal to `x` is deleted, if there is one. -/
def remove (x : T) : BinaryTree T → BinaryTree T
  | nil => nil
  | node cur left right =>
    match compare x cur with
    | .eq => relink left right
    | .lt => node cur (remove x left) right
    | .gt => node cur left (remove x right)

end Model

/-! ## Programs -/

/-- A call that changes the tree. -/
inductive Op (T : Type*)
  | insert (x : T)
  | remove (x : T)

/-- The tree, and the nodes that have been inserted and not removed. -/
structure State (T : Type*) where
  tree : BinaryTree T
  nodes : Multiset T

/-- An empty tree. -/
def State.init : State T := ⟨nil, 0⟩

def step [DecidableEq T] (compare : T → T → Ordering) (s : State T) : Op T → Option (State T)
  | .insert x => some ⟨insert compare x s.tree, x ::ₘ s.nodes⟩
  | .remove x => some ⟨remove compare x s.tree, s.nodes.erase x⟩

/-- The tree is a search tree of these nodes, and `get` finds them and no others. -/
structure Agrees [DecidableEq T] (compare : T → T → Ordering) (s : State T) : Prop where
  searchTree : SearchTree compare s.tree
  nodes : ↑s.tree.toList = s.nodes
  get : ∀ x, get compare x s.tree = if x ∈ s.nodes then some x else none

/-- Two subtrees that `relink` puts together in order: one of the two inner grandchildren is missing. -/
def Linkable (left right : BinaryTree T) : Prop := left.right = nil ∨ right.left = nil

instance (left right : BinaryTree T) : Decidable (Linkable left right) :=
  inferInstanceAs (Decidable (left.right = nil ∨ right.left = nil))

/-- The node that `remove` finds, with its subtrees; an empty tree if there is none. -/
def found (compare : T → T → Ordering) (x : T) : BinaryTree T → BinaryTree T
  | nil => nil
  | node cur left right =>
    match compare x cur with
    | .eq => node cur left right
    | .lt => found compare x left
    | .gt => found compare x right

/-- What is removed has subtrees that `relink` puts together in order. -/
def Allowed (compare : T → T → Ordering) (s : State T) : Op T → Prop
  | .insert _ => True
  | .remove x => Linkable (found compare x s.tree).left (found compare x s.tree).right

instance (compare : T → T → Ordering) (s : State T) : (op : Op T) → Decidable (Allowed compare s op)
  | .insert _ => inferInstanceAs (Decidable True)
  | .remove x => inferInstanceAs (Decidable (Linkable (found compare x s.tree).left (found compare x s.tree).right))

/-! ## Lookups and insertions -/

variable {compare : T → T → Ordering} {x : T} {t left right : BinaryTree T}

/-- The loop of `get` goes the same way as the one of a `TreeBag`. -/
theorem get_eq_findNode (x : T) (t : BinaryTree T) : get compare x t = findNode compare x t := by
  induction t with
  | nil => rfl
  | node cur left right ihl ihr =>
    unfold get findNode
    cases compare x cur with
    | eq => rfl
    | lt => exact ihl
    | gt => exact ihr

theorem insert_eq (x : T) (t : BinaryTree T) : insert compare x t = Elm.Data.TreeBag.insert compare x t := by
  induction t with
  | nil => rfl
  | node cur left right ihl ihr =>
    unfold insert Elm.Data.TreeBag.insert
    rw [ihl, ihr]
    cases compare x cur <;> rfl

/-! ## Removal -/

/-- No node is lost by `relink`. -/
theorem perm_relink (left right : BinaryTree T) :
    (relink left right).toList.Perm (left.toList ++ right.toList) := by
  induction left generalizing right with
  | nil => exact Perm.refl _
  | node l ll lr ihl _ =>
    unfold relink
    split_ifs with hright hlr hrl
    · rw [hright, toList_nil, append_nil]
    · rw [hlr]
      simp
    · cases right with
      | nil => exact absurd rfl hright
      | node r rl rr =>
        obtain rfl : rl = nil := hrl
        exact Perm.refl _
    · -- the right subtree of the left one goes to its left
      refine (Perm.append_right _ (ihl lr)).trans ?_
      simp only [toList_node, append_assoc, cons_append]
      exact Perm.append_left _ perm_middle

/-- The subtrees of a node are put together in order exactly when one of the inner grandchildren is missing. -/
theorem searchTree_relink_iff [TransCmp compare] {cur : T} (h : SearchTree compare (node cur left right)) :
    SearchTree compare (relink left right) ↔ Linkable left right := by
  obtain ⟨hleft, hright, hl, hr⟩ := h
  have hlt : ∀ y ∈ left.toList, ∀ z ∈ right.toList, compare y z = .lt := fun y hy z hz =>
    TransCmp.lt_of_lt_of_isLE (hleft y hy) (hright z hz)
  cases left with
  | nil => exact iff_of_true hr (Or.inl rfl)
  | node l ll lr =>
    obtain ⟨hll, hlr, hsll, hslr⟩ := hl
    have hroot : l ∈ (node l ll lr).toList := by simp
    unfold relink
    split_ifs with hnil hlrnil hrl
    · exact iff_of_true ⟨hll, hlr, hsll, hslr⟩ (Or.inr (by rw [hnil]; rfl))
    · -- the right subtree goes to the right of `l`
      refine iff_of_true ⟨hll, fun z hz => ?_, hsll, hr⟩ (Or.inl hlrnil)
      rw [hlt l hroot z hz]
      rfl
    · cases right with
      | nil => exact absurd rfl hnil
      | node r rl rr =>
        -- the left subtree goes to the left of `r`
        obtain ⟨-, hrr, -, hsrr⟩ := hr
        refine iff_of_true ⟨fun y hy => hlt y hy r (by simp), hrr, ⟨hll, hlr, hsll, hslr⟩, hsrr⟩ (Or.inr hrl)
    · -- the nodes that were on the right of `l` are now on its left
      refine iff_of_false ?_ fun hlink => hlink.elim hlrnil hrl
      rintro ⟨hbad, -⟩
      obtain ⟨y, hy⟩ := exists_mem_of_ne_nil _ (mt toList_eq_nil_iff.mp hlrnil)
      have hmem : y ∈ (relink ll lr).toList := (perm_relink ll lr).mem_iff.mpr (mem_append_right _ hy)
      exact OrientedCmp.not_lt_of_isLE (hlr y hy) (hbad y hmem)

/-- One node that is equal to `x` is removed, if there is one. -/
theorem remove_toList [TransCmp compare] [LawfulEqCmp compare] [DecidableEq T] (h : SearchTree compare t) :
    ((remove compare x t).toList : Multiset T) = (t.toList : Multiset T).erase x := by
  induction t with
  | nil => rfl
  | node cur left right ihl ihr =>
    obtain ⟨hleft, hright, hl, hr⟩ := h
    have hnode : ∀ l r : BinaryTree T, ((node cur l r).toList : Multiset T) = cur ::ₘ (↑l.toList + ↑r.toList) := by
      intro l r
      rw [toList_node, Multiset.coe_add, Multiset.cons_coe, Multiset.coe_eq_coe]
      exact perm_middle
    unfold remove
    cases hcmp : compare x cur with
    | eq =>
      obtain rfl := LawfulEqCmp.compare_eq_iff_eq.mp hcmp
      rw [hnode, Multiset.erase_cons_head, Multiset.coe_add, Multiset.coe_eq_coe]
      exact perm_relink left right
    | lt =>
      -- all nodes equal to `x` are on the left
      have hne : cur ≠ x := fun heq => by simp [heq, ReflCmp.compare_self] at hcmp
      have hnot : x ∉ (right.toList : Multiset T) := fun hx =>
        OrientedCmp.not_isLE_of_lt hcmp (hright x hx)
      show ((node cur (remove compare x left) right).toList : Multiset T) = _
      rw [hnode, hnode, ihl hl, Multiset.erase_cons_tail _ hne, Multiset.erase_add_left_neg _ hnot]
    | gt =>
      have hne : cur ≠ x := fun heq => by simp [heq, ReflCmp.compare_self] at hcmp
      have hnot : x ∉ (left.toList : Multiset T) := fun hx => by simp [hleft x hx] at hcmp
      show ((node cur left (remove compare x right)).toList : Multiset T) = _
      rw [hnode, hnode, ihr hr, Multiset.erase_cons_tail _ hne, Multiset.erase_add_right_neg _ hnot]

theorem mem_of_mem_remove [TransCmp compare] [LawfulEqCmp compare] [DecidableEq T] (h : SearchTree compare t) {y : T}
    (hy : y ∈ (remove compare x t).toList) : y ∈ t.toList := by
  rw [← Multiset.mem_coe, remove_toList h] at hy
  exact Multiset.mem_of_mem_erase hy

/-- The tree stays a search tree exactly when the subtrees of the removed node can be put together in order. -/
theorem searchTree_remove_iff [TransCmp compare] [LawfulEqCmp compare] [DecidableEq T] (h : SearchTree compare t) :
    SearchTree compare (remove compare x t) ↔ Linkable (found compare x t).left (found compare x t).right := by
  induction t with
  | nil => exact iff_of_true trivial (Or.inl rfl)
  | node cur left right ihl ihr =>
    have hall := h
    obtain ⟨hleft, hright, hl, hr⟩ := h
    unfold remove found
    cases compare x cur with
    | eq => exact searchTree_relink_iff hall
    | lt =>
      show SearchTree compare (node cur (remove compare x left) right) ↔ _
      rw [← ihl hl]
      exact ⟨fun h => h.2.2.1, fun h => ⟨fun y hy => hleft y (mem_of_mem_remove hl hy), hright, h, hr⟩⟩
    | gt =>
      show SearchTree compare (node cur left (remove compare x right)) ↔ _
      rw [← ihr hr]
      exact ⟨fun h => h.2.2.2, fun h => ⟨hleft, fun y hy => hright y (mem_of_mem_remove hr hy), hl, h⟩⟩

/-! ## Runs -/

variable [DecidableEq T] {s : State T}

/-- A search tree of its nodes is all that the lookups need. -/
theorem agrees_iff [TransCmp compare] [LawfulEqCmp compare] :
    Agrees compare s ↔ SearchTree compare s.tree ∧ ↑s.tree.toList = s.nodes := by
  constructor
  · exact fun h => ⟨h.searchTree, h.nodes⟩
  · rintro ⟨hsearch, hnodes⟩
    refine ⟨hsearch, hnodes, fun x => ?_⟩
    rw [get_eq_findNode, Elm.Data.TreeBag.findNode_eq hsearch, ← hnodes]
    simp only [Multiset.mem_coe]

/-- After a call the tree agrees with the nodes exactly if the call was allowed. -/
theorem step_agrees_iff [TransCmp compare] [LawfulEqCmp compare] (h : Agrees compare s) (op : Op T) :
    ∃ s', step compare s op = some s' ∧ (Agrees compare s' ↔ Allowed compare s op) := by
  obtain ⟨hsearch, hnodes⟩ := agrees_iff.mp h
  cases op with
  | insert x =>
    refine ⟨_, rfl, iff_of_true (agrees_iff.mpr ⟨?_, ?_⟩) trivial⟩
    · rw [insert_eq]
      exact hsearch.insert x
    · rw [insert_eq, Multiset.coe_eq_coe.mpr (Elm.Data.TreeBag.perm_insert x s.tree), ← Multiset.cons_coe, hnodes]
  | remove x =>
    refine ⟨_, rfl, ?_⟩
    have hnodes' : ((remove compare x s.tree).toList : Multiset T) = s.nodes.erase x := by
      rw [remove_toList hsearch, hnodes]
    rw [agrees_iff, and_iff_left hnodes']
    exact searchTree_remove_iff hsearch

theorem agrees_init [TransCmp compare] [LawfulEqCmp compare] : Agrees compare (State.init : State T) :=
  agrees_iff.mpr ⟨trivial, rfl⟩

/-- In a run, all the states agree with the nodes that have been inserted and not removed, if and only if no node is
removed whose left child has a right child and whose right child has a left child. -/
theorem sortedBinTree_run_iff [TransCmp compare] [LawfulEqCmp compare] (ops : List (Op T)) :
    Run.Meets (Allowed compare) (step compare) State.init ops ↔
      ∀ k, ∃ s, Run.exec (step compare) State.init (ops.take k) = some s ∧ Agrees compare s := by
  refine Run.meets_iff_forall_exists_exec (Agrees compare) (Agrees compare) (fun _ h => h) ?_ ?_ ops State.init
    agrees_init (Run.meets_of_forall (fun _ _ => trivial) ops _)
  · intro s op h _ hallowed
    obtain ⟨s', hstep, hiff⟩ := step_agrees_iff h op
    exact ⟨s', hstep, hiff.mpr hallowed⟩
  · intro s op s' h _ hnot hstep hagrees
    obtain ⟨s₁, hstep₁, hiff⟩ := step_agrees_iff h op
    obtain rfl := Option.some.inj (hstep.symm.trans hstep₁)
    exact hnot (hiff.mp hagrees)

/-- The root has both subtrees, and its left child has no right one. -/
def removals : List (Op Nat) := [.insert 4, .insert 2, .insert 6, .insert 1, .insert 5, .remove 4, .remove 2]

theorem sortedBinTree_run_iff_removals :
    Run.Meets (Allowed Ord.compare) (step (Ord.compare : Nat → Nat → Ordering)) State.init removals ∧
      ∀ k, ∃ s, Run.exec (step (Ord.compare : Nat → Nat → Ordering)) State.init (removals.take k) = some s ∧
        Agrees Ord.compare s := by
  have hallowed : Run.Meets (Allowed Ord.compare) (step (Ord.compare : Nat → Nat → Ordering)) State.init removals :=
    by decide
  exact ⟨hallowed, (sortedBinTree_run_iff removals).mp hallowed⟩

/-- After the removal of 4 the node 3 is on the left of the node 2. -/
theorem not_sortedBinTree_run : ¬ ∀ (ops : List (Op Nat)) k,
    ∃ s, Run.exec (step (Ord.compare : Nat → Nat → Ordering)) State.init (ops.take k) = some s ∧
      Agrees Ord.compare s := by
  intro hall
  obtain ⟨s, hexec, hagrees⟩ :=
    hall [.insert 4, .insert 2, .insert 6, .insert 1, .insert 3, .insert 5, .remove 4] 7
  obtain rfl := Option.some.inj hexec
  exact absurd (hagrees.get 3) (by decide)

end Elm.Inhstruct.SortedBinTree
