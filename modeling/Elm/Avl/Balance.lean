import Elm.Avl.GenTree

/-!
# Balance of `avl::GenTree`

`Balanced` is the `balanced` predicate of the comment that opens `src/avl_GenTree.cpp`.  A stack is
balanced for a hole of height `h` when its nodes are, once the hole holds a subtree of that height;
this is what the two rebalancing loops rely on while the heights below them change.
-/

namespace Elm.Avl

open BinaryTree

variable {T : Type*}

/-- Every balance factor is the difference of heights, and lies in `{-1, 0, 1}`. -/
def Balanced : Node T → Prop
  | nil => True
  | node c l r =>
    c.bal = (height r : Int) - height l ∧ -1 ≤ c.bal ∧ c.bal ≤ 1 ∧ Balanced l ∧ Balanced r

/-- The nodes of a stack are balanced when the hole has height `h`. -/
def StackBalanced : Stack T → Nat → Prop
  | [], _ => True
  | f :: s, h =>
    (match f.side with
      | .left => f.label.bal = (height f.sibling : Int) - h
      | .right => f.label.bal = (h : Int) - height f.sibling) ∧
    -1 ≤ f.label.bal ∧ f.label.bal ≤ 1 ∧ Balanced f.sibling ∧
    StackBalanced s (max h (height f.sibling) + 1)

@[simp] theorem balanced_nil : Balanced (nil : Node T) := trivial

@[simp] theorem balanced_node (c : Cell T) (l r : Node T) :
    Balanced (node c l r) ↔
      c.bal = (height r : Int) - height l ∧ -1 ≤ c.bal ∧ c.bal ≤ 1 ∧ Balanced l ∧ Balanced r :=
  Iff.rfl

theorem Balanced.bal_mem {n : Node T} (h : Balanced n) : -1 ≤ Node.bal n ∧ Node.bal n ≤ 1 := by
  cases n with
  | nil => simp [Node.bal]
  | node c l r => exact ⟨h.2.1, h.2.2.1⟩

@[simp] theorem stackBalanced_nil (h : Nat) : StackBalanced ([] : Stack T) h := trivial

@[simp] theorem stackBalanced_left (c : Cell T) (u : Node T) (s : Stack T) (h : Nat) :
    StackBalanced (⟨.left, c, u⟩ :: s) h ↔
      c.bal = (height u : Int) - h ∧ -1 ≤ c.bal ∧ c.bal ≤ 1 ∧ Balanced u ∧
        StackBalanced s (max h (height u) + 1) :=
  Iff.rfl

@[simp] theorem stackBalanced_right (c : Cell T) (u : Node T) (s : Stack T) (h : Nat) :
    StackBalanced (⟨.right, c, u⟩ :: s) h ↔
      c.bal = (h : Int) - height u ∧ -1 ≤ c.bal ∧ c.bal ≤ 1 ∧ Balanced u ∧
        StackBalanced s (max h (height u) + 1) :=
  Iff.rfl

/-- A tree seen from one of its positions is balanced when the subtree there and the stack are. -/
theorem balanced_unwind_iff {n : Node T} {s : Stack T} :
    Balanced (unwind n s) ↔ Balanced n ∧ StackBalanced s (height n) := by
  induction s generalizing n with
  | nil => simp
  | cons f s ih =>
    obtain ⟨side, c, u⟩ := f
    cases side with
    | left =>
      rw [unwind_cons, ih, Frame.plug_left, balanced_node, stackBalanced_left, height]
      tauto
    | right =>
      rw [unwind_cons, ih, Frame.plug_right, balanced_node, stackBalanced_right, height,
        max_comm (height u)]
      tauto

/-- Going back up from a hole filled with a balanced subtree of the expected height. -/
theorem balanced_unwind {n : Node T} {s : Stack T} {h : Nat} (hn : Balanced n)
    (hh : height n = h) (hs : StackBalanced s h) : Balanced (unwind n s) :=
  balanced_unwind_iff.mpr ⟨hn, hh ▸ hs⟩

/-! ## Rotations

A node is out of balance by two on one side.  The rotations below are the four repairs of the
source; each statement gives the balance and the height of the repaired subtree. -/

/-- Single right rotation of a node whose left child is not heavy on the right. -/
theorem rotateRight_balanced {c : Cell T} {l r : Node T} (hl : Balanced l) (hr : Balanced r)
    (hc : c.bal = (height r : Int) - height l) (hbal : c.bal = -2) (hside : Node.bal l ≤ 0) :
    Balanced (rotateRight (node c l r)) ∧
      (height (rotateRight (node c l r)) : Int) = height l + 1 + Node.bal l := by
  cases l with
  | nil => simp only [height] at hc; omega
  | node d a b =>
    obtain ⟨hd, hlo, hhi, ha, hb⟩ := hl
    simp only [Node.bal, height] at *
    simp only [rotateRight, balanced_node, height, ha, hb, hr, true_and, and_true]
    omega

/-- Single left rotation of a node whose right child is not heavy on the left. -/
theorem rotateLeft_balanced {c : Cell T} {l r : Node T} (hl : Balanced l) (hr : Balanced r)
    (hc : c.bal = (height r : Int) - height l) (hbal : c.bal = 2) (hside : 0 ≤ Node.bal r) :
    Balanced (rotateLeft (node c l r)) ∧
      (height (rotateLeft (node c l r)) : Int) = height r + 1 - Node.bal r := by
  cases r with
  | nil => simp only [height] at hc; omega
  | node d a b =>
    obtain ⟨hd, hlo, hhi, ha, hb⟩ := hr
    simp only [Node.bal, height] at *
    simp only [rotateLeft, balanced_node, height, ha, hb, hl, and_true]
    omega

/-- Double rotation of a node whose left child is heavy on the right. -/
theorem rotateRight_rotateLeftChild_balanced {c : Cell T} {l r : Node T} (hl : Balanced l)
    (hr : Balanced r) (hc : c.bal = (height r : Int) - height l) (hbal : c.bal = -2)
    (hside : 0 < Node.bal l) :
    Balanced (rotateRight (rotateLeftChild (node c l r))) ∧
      height (rotateRight (rotateLeftChild (node c l r))) = height l := by
  cases l with
  | nil => simp only [height] at hc; omega
  | node d a b =>
    obtain ⟨hd, hlo, hhi, ha, hb⟩ := hl
    cases b with
    | nil => simp only [Node.bal, height] at *; omega
    | node e x y =>
      obtain ⟨he, helo, hehi, hx, hy⟩ := hb
      simp only [Node.bal, height] at *
      simp only [rotateLeftChild, rotateLeft, rotateRight, balanced_node, height, ha, hx, hy,
        hr, and_true]
      omega

/-- Double rotation of a node whose right child is heavy on the left. -/
theorem rotateLeft_rotateRightChild_balanced {c : Cell T} {l r : Node T} (hl : Balanced l)
    (hr : Balanced r) (hc : c.bal = (height r : Int) - height l) (hbal : c.bal = 2)
    (hside : Node.bal r < 0) :
    Balanced (rotateLeft (rotateRightChild (node c l r))) ∧
      height (rotateLeft (rotateRightChild (node c l r))) = height r := by
  cases r with
  | nil => simp only [height] at hc; omega
  | node d a b =>
    obtain ⟨hd, hlo, hhi, ha, hb⟩ := hr
    cases a with
    | nil => simp only [Node.bal, height] at *; omega
    | node e x y =>
      obtain ⟨he, helo, hehi, hx, hy⟩ := ha
      simp only [Node.bal, height] at *
      simp only [rotateRightChild, rotateLeft, rotateRight, balanced_node, height, hb, hx, hy,
        hl, and_true]
      omega

/-- The repair made by the insertion loop when the left child, which has grown, leans on a side. -/
theorem insert_repair_left {c : Cell T} {l r : Node T} (hl : Balanced l) (hr : Balanced r)
    (hc : c.bal = (height r : Int) - height l) (hbal : c.bal = -2) (hlean : Node.bal l ≠ 0) :
    ∃ q, rotateRight (if 0 < Node.bal l then rotateLeftChild (node c l r) else node c l r) = q ∧
      Balanced q ∧ height q = height l := by
  by_cases hside : 0 < Node.bal l
  · rw [if_pos hside]
    exact ⟨_, rfl, rotateRight_rotateLeftChild_balanced hl hr hc hbal hside⟩
  · rw [if_neg hside]
    obtain ⟨hb, hh⟩ := rotateRight_balanced hl hr hc hbal (not_lt.mp hside)
    have hmem := hl.bal_mem
    exact ⟨_, rfl, hb, by omega⟩

/-- The repair made by the insertion loop when the right child, which has grown, leans on a side. -/
theorem insert_repair_right {c : Cell T} {l r : Node T} (hl : Balanced l) (hr : Balanced r)
    (hc : c.bal = (height r : Int) - height l) (hbal : c.bal = 2) (hlean : Node.bal r ≠ 0) :
    ∃ q, rotateLeft (if Node.bal r < 0 then rotateRightChild (node c l r) else node c l r) = q ∧
      Balanced q ∧ height q = height r := by
  by_cases hside : Node.bal r < 0
  · rw [if_pos hside]
    exact ⟨_, rfl, rotateLeft_rotateRightChild_balanced hl hr hc hbal hside⟩
  · rw [if_neg hside]
    obtain ⟨hb, hh⟩ := rotateLeft_balanced hl hr hc hbal (not_lt.mp hside)
    have hmem := hr.bal_mem
    exact ⟨_, rfl, hb, by omega⟩

/-! ## Insertion -/

/-- One turn of the insertion loop when the left child of `c` has grown. -/
theorem insertLoop_left (n u : Node T) (c : Cell T) (s : Stack T) :
    insertLoop n (⟨.left, c, u⟩ :: s) =
      let p := node { c with bal := c.bal - 1 } n u
      if c.bal - 1 = 0 then unwind p s
      else if c.bal - 1 < -1 then
        unwind (rotateRight (if 0 < Node.bal n then rotateLeftChild p else p)) s
      else if 1 < c.bal - 1 then
        unwind (rotateLeft (if Node.bal u < 0 then rotateRightChild p else p)) s
      else insertLoop p s := rfl

/-- One turn of the insertion loop when the right child of `c` has grown. -/
theorem insertLoop_right (n u : Node T) (c : Cell T) (s : Stack T) :
    insertLoop n (⟨.right, c, u⟩ :: s) =
      let p := node { c with bal := c.bal + 1 } u n
      if c.bal + 1 = 0 then unwind p s
      else if c.bal + 1 < -1 then
        unwind (rotateRight (if 0 < Node.bal u then rotateLeftChild p else p)) s
      else if 1 < c.bal + 1 then
        unwind (rotateLeft (if Node.bal n < 0 then rotateRightChild p else p)) s
      else insertLoop p s := rfl

/-- The insertion loop below a hole of height `h` that now holds a subtree one higher.  A subtree
that has grown leans on one side, unless it is the new leaf. -/
theorem insertLoop_balanced {n : Node T} {s : Stack T} {h : Nat} (hn : Balanced n)
    (hh : height n = h + 1) (hlean : Node.bal n ≠ 0 ∨ h = 0) (hs : StackBalanced s h) :
    Balanced (insertLoop n s) := by
  induction s generalizing n h with
  | nil => exact hn
  | cons f s ih =>
    obtain ⟨side, c, u⟩ := f
    cases side with
    | left =>
      obtain ⟨hc, hlo, hhi, hu, hs⟩ := (stackBalanced_left c u s h).mp hs
      simp only [insertLoop_left]
      by_cases h0 : c.bal - 1 = 0
      · -- the right sibling was higher: the height of the parent does not change
        rw [if_pos h0]
        refine balanced_unwind (h := max h (height u) + 1) ?_ ?_ hs
        · simp only [balanced_node, hn, hu, and_true]; omega
        · simp only [height]; omega
      rw [if_neg h0]
      by_cases hlow : c.bal - 1 < -1
      · rw [if_pos hlow]
        obtain ⟨q, hq, hb, hht⟩ := insert_repair_left (c := { c with bal := c.bal - 1 }) hn hu
          (by simp only; omega) (by simp only; omega) (by omega)
        rw [hq]
        exact balanced_unwind hb (by omega) hs
      · rw [if_neg hlow, if_neg (by omega)]
        refine ih (h := max h (height u) + 1) ?_ ?_ (Or.inl h0) hs
        · simp only [balanced_node, hn, hu, and_true]; omega
        · simp only [height]; omega
    | right =>
      obtain ⟨hc, hlo, hhi, hu, hs⟩ := (stackBalanced_right c u s h).mp hs
      simp only [insertLoop_right]
      by_cases h0 : c.bal + 1 = 0
      · -- the left sibling was higher
        rw [if_pos h0]
        refine balanced_unwind (h := max h (height u) + 1) ?_ ?_ hs
        · simp only [balanced_node, hn, hu, and_true]; omega
        · simp only [height]; omega
      rw [if_neg h0, if_neg (by omega)]
      by_cases hhigh : 1 < c.bal + 1
      · rw [if_pos hhigh]
        obtain ⟨q, hq, hb, hht⟩ := insert_repair_right (c := { c with bal := c.bal + 1 }) hu hn
          (by simp only; omega) (by simp only; omega) (by omega)
        rw [hq]
        exact balanced_unwind hb (by omega) hs
      · rw [if_neg hhigh]
        refine ih (h := max h (height u) + 1) ?_ ?_ (Or.inl h0) hs
        · simp only [balanced_node, hn, hu, and_true]; omega
        · simp only [height]; omega

/-! ## Removal -/

/-- One turn of the removal loop when the left child of `c` has shrunk. -/
theorem removeLoop_left (n u : Node T) (c : Cell T) (s : Stack T) :
    removeLoop n (⟨.left, c, u⟩ :: s) =
      let p := node { c with bal := c.bal + 1 } n u
      if c.bal + 1 = 0 then removeLoop p s
      else if c.bal + 1 = 1 then unwind p s
      else if Node.bal u = 0 then unwind (rotateLeft p) s
      else if Node.bal u = 1 then removeLoop (rotateLeft p) s
      else removeLoop (rotateLeft (rotateRightChild p)) s := rfl

/-- One turn of the removal loop when the right child of `c` has shrunk. -/
theorem removeLoop_right (n u : Node T) (c : Cell T) (s : Stack T) :
    removeLoop n (⟨.right, c, u⟩ :: s) =
      let p := node { c with bal := c.bal - 1 } u n
      if c.bal - 1 = 0 then removeLoop p s
      else if c.bal - 1 = -1 then unwind p s
      else if Node.bal u = 0 then unwind (rotateRight p) s
      else if Node.bal u = -1 then removeLoop (rotateRight p) s
      else removeLoop (rotateRight (rotateLeftChild p)) s := rfl

/-- The removal loop below a hole of height `h + 1` that now holds a subtree one lower. -/
theorem removeLoop_balanced {n : Node T} {s : Stack T} {h : Nat} (hn : Balanced n)
    (hh : height n = h) (hs : StackBalanced s (h + 1)) : Balanced (removeLoop n s) := by
  induction s generalizing n h with
  | nil => exact hn
  | cons f s ih =>
    obtain ⟨side, c, u⟩ := f
    cases side with
    | left =>
      obtain ⟨hc, hlo, hhi, hu, hs⟩ := (stackBalanced_left c u s (h + 1)).mp hs
      simp only [removeLoop_left]
      -- the left subtree was the higher one: the parent loses a level
      by_cases h0 : c.bal + 1 = 0
      · rw [if_pos h0]
        refine ih (h := height u + 1) ?_ ?_ ?_
        · simp only [balanced_node, hn, hu, and_true]; omega
        · simp only [height]; omega
        · exact (show max (h + 1) (height u) + 1 = height u + 1 + 1 by omega) ▸ hs
      rw [if_neg h0]
      by_cases h1 : c.bal + 1 = 1
      · rw [if_pos h1]
        refine balanced_unwind (h := max (h + 1) (height u) + 1) ?_ ?_ hs
        · simp only [balanced_node, hn, hu, and_true]; omega
        · simp only [height]; omega
      rw [if_neg h1]
      -- now the right subtree is two levels higher
      have hbal : c.bal + 1 = 2 := by omega
      by_cases hr0 : Node.bal u = 0
      · rw [if_pos hr0]
        obtain ⟨hb, hht⟩ := rotateLeft_balanced (c := { c with bal := c.bal + 1 }) hn hu
          (by simp only; omega) hbal (by omega)
        exact balanced_unwind hb (by omega) hs
      rw [if_neg hr0]
      by_cases hr1 : Node.bal u = 1
      · rw [if_pos hr1]
        obtain ⟨hb, hht⟩ := rotateLeft_balanced (c := { c with bal := c.bal + 1 }) hn hu
          (by simp only; omega) hbal (by omega)
        refine ih (h := height u) hb (by omega) ?_
        exact (show max (h + 1) (height u) + 1 = height u + 1 by omega) ▸ hs
      · rw [if_neg hr1]
        have hmem := hu.bal_mem
        have hneg : Node.bal u < 0 := by omega
        obtain ⟨hb, hht⟩ := rotateLeft_rotateRightChild_balanced
          (c := { c with bal := c.bal + 1 }) hn hu (by simp only; omega) hbal hneg
        refine ih (h := height u) hb hht ?_
        exact (show max (h + 1) (height u) + 1 = height u + 1 by omega) ▸ hs
    | right =>
      obtain ⟨hc, hlo, hhi, hu, hs⟩ := (stackBalanced_right c u s (h + 1)).mp hs
      simp only [removeLoop_right]
      by_cases h0 : c.bal - 1 = 0
      · rw [if_pos h0]
        refine ih (h := height u + 1) ?_ ?_ ?_
        · simp only [balanced_node, hn, hu, and_true]; omega
        · simp only [height]; omega
        · exact (show max (h + 1) (height u) + 1 = height u + 1 + 1 by omega) ▸ hs
      rw [if_neg h0]
      by_cases h1 : c.bal - 1 = -1
      · rw [if_pos h1]
        refine balanced_unwind (h := max (h + 1) (height u) + 1) ?_ ?_ hs
        · simp only [balanced_node, hn, hu, and_true]; omega
        · simp only [height]; omega
      rw [if_neg h1]
      -- now the left subtree is two levels higher
      have hbal : c.bal - 1 = -2 := by omega
      by_cases hl0 : Node.bal u = 0
      · rw [if_pos hl0]
        obtain ⟨hb, hht⟩ := rotateRight_balanced (c := { c with bal := c.bal - 1 }) hu hn
          (by simp only; omega) hbal (by omega)
        exact balanced_unwind hb (by omega) hs
      rw [if_neg hl0]
      by_cases hl1 : Node.bal u = -1
      · rw [if_pos hl1]
        obtain ⟨hb, hht⟩ := rotateRight_balanced (c := { c with bal := c.bal - 1 }) hu hn
          (by simp only; omega) hbal (by omega)
        refine ih (h := height u) hb (by omega) ?_
        exact (show max (h + 1) (height u) + 1 = height u + 1 by omega) ▸ hs
      · rw [if_neg hl1]
        have hmem := hu.bal_mem
        have hpos : 0 < Node.bal u := by omega
        obtain ⟨hb, hht⟩ := rotateRight_rotateLeftChild_balanced
          (c := { c with bal := c.bal - 1 }) hu hn (by simp only; omega) hbal hpos
        refine ih (h := height u) hb hht ?_
        exact (show max (h + 1) (height u) + 1 = height u + 1 by omega) ▸ hs

end Elm.Avl
