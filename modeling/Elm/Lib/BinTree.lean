import Mathlib.Data.Tree.Basic
import Mathlib.Tactic

/-!
# Binary trees: in-order lists and zippers

A node of a tree under modification is seen from the path that leads to it: a `Frame` is a parent
with a hole at one side, and a list of frames (innermost first) is what an explicit traversal stack
holds.  Filling the hole and going back up (`unwind`) gives the whole tree again, and the in-order
list splits at the hole into `before`, the list of the filling and `after`.
-/

namespace BinaryTree

open List

variable {α β : Type*}

/-- The labels in in-order. -/
def toList : BinaryTree α → List α
  | nil => []
  | node a l r => l.toList ++ a :: r.toList

@[simp] theorem toList_nil : (nil : BinaryTree α).toList = [] := rfl

@[simp] theorem toList_node (a : α) (l r : BinaryTree α) :
    (node a l r).toList = l.toList ++ a :: r.toList := rfl

@[simp] theorem toList_eq_nil_iff {t : BinaryTree α} : t.toList = [] ↔ t = nil := by
  cases t <;> simp

/-- Emptiness is decidable without comparing labels. -/
instance decidableEqNil : (t : BinaryTree α) → Decidable (t = nil)
  | nil => isTrue rfl
  | node _ _ _ => isFalse nofun

theorem length_toList (t : BinaryTree α) : t.toList.length = t.numNodes := by
  induction t with
  | nil => rfl
  | node a l r ihl ihr =>
    simp only [toList_node, length_append, length_cons, numNodes, ihl, ihr]
    omega

/-- The tree seen from behind: left and right are exchanged everywhere. -/
def mirror : BinaryTree α → BinaryTree α
  | nil => nil
  | node a l r => node a r.mirror l.mirror

@[simp] theorem mirror_nil : (nil : BinaryTree α).mirror = nil := rfl

@[simp] theorem mirror_node (a : α) (l r : BinaryTree α) :
    (node a l r).mirror = node a r.mirror l.mirror := rfl

@[simp] theorem mirror_mirror (t : BinaryTree α) : t.mirror.mirror = t := by
  induction t with
  | nil => rfl
  | node a l r ihl ihr => rw [mirror_node, mirror_node, ihl, ihr]

@[simp] theorem mirror_eq_nil_iff {t : BinaryTree α} : t.mirror = nil ↔ t = nil := by
  cases t <;> simp

@[simp] theorem toList_mirror (t : BinaryTree α) : t.mirror.toList = t.toList.reverse := by
  induction t with
  | nil => rfl
  | node a l r ihl ihr => simp [ihl, ihr]

@[simp] theorem height_mirror (t : BinaryTree α) : t.mirror.height = t.height := by
  induction t with
  | nil => rfl
  | node a l r ihl ihr => rw [mirror_node, height, height, ihl, ihr, max_comm]

/-- The side of a parent on which a child hangs. -/
inductive Side
  | left
  | right
  deriving DecidableEq, Repr

/-- A parent whose child at `side` has been left out. -/
structure Frame (α : Type*) where
  side : Side
  label : α
  sibling : BinaryTree α

namespace Frame

/-- Put a child in the hole of a frame. -/
def plug (f : Frame α) (t : BinaryTree α) : BinaryTree α :=
  match f.side with
  | .left => node f.label t f.sibling
  | .right => node f.label f.sibling t

@[simp] theorem plug_left (a : α) (s t : BinaryTree α) :
    plug ⟨.left, a, s⟩ t = node a t s := rfl

@[simp] theorem plug_right (a : α) (s t : BinaryTree α) :
    plug ⟨.right, a, s⟩ t = node a s t := rfl

end Frame

/-- Fill the innermost hole and go back up to the root. -/
def unwind : BinaryTree α → List (Frame α) → BinaryTree α
  | t, [] => t
  | t, f :: s => unwind (f.plug t) s

@[simp] theorem unwind_nil (t : BinaryTree α) : unwind t [] = t := rfl

@[simp] theorem unwind_cons (t : BinaryTree α) (f : Frame α) (s : List (Frame α)) :
    unwind t (f :: s) = unwind (f.plug t) s := rfl

theorem unwind_append (t : BinaryTree α) (s s' : List (Frame α)) :
    unwind t (s ++ s') = unwind (unwind t s) s' := by
  induction s generalizing t with
  | nil => rfl
  | cons f s ih => exact ih (f.plug t)

/-- The labels that precede the hole of a stack in in-order. -/
def before : List (Frame α) → List α
  | [] => []
  | ⟨.left, _, _⟩ :: s => before s
  | ⟨.right, a, t⟩ :: s => before s ++ (t.toList ++ [a])

/-- The labels that follow the hole of a stack in in-order. -/
def after : List (Frame α) → List α
  | [] => []
  | ⟨.left, a, t⟩ :: s => a :: t.toList ++ after s
  | ⟨.right, _, _⟩ :: s => after s

theorem before_append (s s' : List (Frame α)) : before (s ++ s') = before s' ++ before s := by
  induction s with
  | nil => simp [before]
  | cons f s ih =>
    obtain ⟨side, a, u⟩ := f
    cases side with
    | left => exact ih
    | right => simp [before, ih]

theorem after_append (s s' : List (Frame α)) : after (s ++ s') = after s ++ after s' := by
  induction s with
  | nil => rfl
  | cons f s ih =>
    obtain ⟨side, a, u⟩ := f
    cases side with
    | left => simp [after, ih]
    | right => exact ih

theorem toList_unwind (t : BinaryTree α) (s : List (Frame α)) :
    (unwind t s).toList = before s ++ t.toList ++ after s := by
  induction s generalizing t with
  | nil => simp [before, after]
  | cons f s ih =>
    obtain ⟨side, a, u⟩ := f
    cases side with
    | left => simp [ih, before, after]
    | right => simp [ih, before, after]

/-! ## Other labels -/

/-- A frame with other labels. -/
def Frame.map (g : α → β) (f : Frame α) : Frame β := ⟨f.side, g f.label, f.sibling.map g⟩

theorem numNodes_map (g : α → β) (t : BinaryTree α) : (t.map g).numNodes = t.numNodes := by
  induction t with
  | nil => rfl
  | node a l r ihl ihr => rw [map, numNodes, numNodes, ihl, ihr]

theorem map_eq_nil_iff {g : α → β} {t : BinaryTree α} : t.map g = nil ↔ t = nil := by
  cases t with
  | nil => exact iff_of_true rfl rfl
  | node a l r => exact iff_of_false nofun nofun

/-! ## Positions -/

/-- A position in a tree: the sides taken from the root, the last one first. -/
abbrev Path := List Side

/-- The child of a tree at one side. -/
def child : Side → BinaryTree α → BinaryTree α
  | .left => left
  | .right => right

/-- The subtree at a position. -/
def subtree (t : BinaryTree α) : Path → BinaryTree α
  | [] => t
  | d :: p => child d (subtree t p)

@[simp] theorem subtree_nil (t : BinaryTree α) : t.subtree [] = t := rfl

@[simp] theorem subtree_cons (t : BinaryTree α) (d : Side) (p : Path) :
    t.subtree (d :: p) = child d (t.subtree p) := rfl

/-- Replace a child. -/
def setChild (d : Side) (u : BinaryTree α) : BinaryTree α → BinaryTree α
  | nil => nil
  | node a l r =>
    match d with
    | .left => node a u r
    | .right => node a l u

/-- Change the subtree at a position. -/
def modifyAt (t : BinaryTree α) : Path → (BinaryTree α → BinaryTree α) → BinaryTree α
  | [], g => g t
  | d :: p, g => modifyAt t p fun u => setChild d (g (child d u)) u

/-- The position of the hole of a stack. -/
def position (s : List (Frame α)) : Path := s.map Frame.side

@[simp] theorem position_nil : position ([] : List (Frame α)) = [] := rfl

@[simp] theorem position_cons (f : Frame α) (s : List (Frame α)) :
    position (f :: s) = f.side :: position s := rfl

/-- The way from a position to the root starts at the position. -/
theorem tails_eq (p : Path) : p.tails = p :: p.tails.tail := by
  cases p <;> rfl

@[simp] theorem child_plug (f : Frame α) (t : BinaryTree α) : child f.side (f.plug t) = t := by
  obtain ⟨side, a, u⟩ := f
  cases side <;> rfl

theorem setChild_plug (f : Frame α) (t u : BinaryTree α) :
    setChild f.side u (f.plug t) = f.plug u := by
  obtain ⟨side, a, v⟩ := f
  cases side <;> rfl

/-- The subtree at the position of the hole is the filling. -/
@[simp] theorem subtree_unwind (t : BinaryTree α) (s : List (Frame α)) :
    (unwind t s).subtree (position s) = t := by
  induction s generalizing t with
  | nil => rfl
  | cons f s ih => simp [ih]

/-- Changing the subtree at the position of the hole changes the filling only. -/
theorem modifyAt_unwind (g : BinaryTree α → BinaryTree α) (t : BinaryTree α)
    (s : List (Frame α)) :
    (unwind t s).modifyAt (position s) g = unwind (g t) s := by
  induction s generalizing t g with
  | nil => rfl
  | cons f s ih =>
    have h := ih (fun u => setChild f.side (g (child f.side u)) u) (f.plug t)
    simp only [child_plug, setChild_plug] at h
    exact h

/-! ## Depths -/

/-- The depths of the nodes in in-order, when the root is at depth `d`. -/
def depths : BinaryTree α → Nat → List Nat
  | nil, _ => []
  | node _ l r, d => l.depths (d + 1) ++ d :: r.depths (d + 1)

@[simp] theorem depths_nil (d : Nat) : (nil : BinaryTree α).depths d = [] := rfl

@[simp] theorem depths_node (a : α) (l r : BinaryTree α) (d : Nat) :
    (node a l r).depths d = l.depths (d + 1) ++ d :: r.depths (d + 1) := rfl

theorem length_depths (t : BinaryTree α) (d : Nat) : (t.depths d).length = t.numNodes := by
  induction t generalizing d with
  | nil => rfl
  | node a l r ihl ihr =>
    simp only [depths_node, length_append, length_cons, numNodes, ihl, ihr]
    omega

/-- The depths around a hole. -/
theorem depths_unwind (t : BinaryTree α) (s : List (Frame α)) :
    ∃ xs ys, (unwind t s).depths 0 = xs ++ t.depths s.length ++ ys ∧ xs.length = (before s).length := by
  induction s generalizing t with
  | nil => exact ⟨[], [], by simp, rfl⟩
  | cons f s ih =>
    obtain ⟨side, a, u⟩ := f
    cases side with
    | left =>
      obtain ⟨xs, ys, hdepths, hxs⟩ := ih (node a t u)
      refine ⟨xs, s.length :: u.depths (s.length + 1) ++ ys, ?_, hxs⟩
      rw [unwind_cons, Frame.plug_left, hdepths]
      simp
    | right =>
      obtain ⟨xs, ys, hdepths, hxs⟩ := ih (node a u t)
      refine ⟨xs ++ (u.depths (s.length + 1) ++ [s.length]), ys, ?_, ?_⟩
      · rw [unwind_cons, Frame.plug_right, hdepths]
        simp
      · simp [before, hxs, length_depths, length_toList]

/-- Some node is as deep as the tree is high. -/
theorem exists_mem_depths {t : BinaryTree α} (h : t ≠ nil) (d : Nat) :
    ∃ k ∈ t.depths d, k + 1 = d + t.height := by
  induction t generalizing d with
  | nil => exact absurd rfl h
  | node a l r ihl ihr =>
    rw [height]
    rcases Nat.le_total l.height r.height with hle | hle
    · rw [Nat.max_eq_right hle]
      by_cases hr : r = nil
      · subst hr
        exact ⟨d, by simp, rfl⟩
      · obtain ⟨k, hk, hdepth⟩ := ihr hr (d + 1)
        refine ⟨k, ?_, by omega⟩
        exact mem_append_right _ (mem_cons_of_mem _ hk)
    · rw [Nat.max_eq_left hle]
      by_cases hl : l = nil
      · subst hl
        exact ⟨d, by simp, rfl⟩
      · obtain ⟨k, hk, hdepth⟩ := ihl hl (d + 1)
        refine ⟨k, ?_, by omega⟩
        exact mem_append_left _ hk

/-! ## Pre-order and post-order -/

/-- The labels in pre-order. -/
def preList : BinaryTree α → List α
  | nil => []
  | node a l r => a :: (l.preList ++ r.preList)

/-- The labels in post-order. -/
def postList : BinaryTree α → List α
  | nil => []
  | node a l r => l.postList ++ (r.postList ++ [a])

/-- No node has a left child. -/
def NoLeft : BinaryTree α → Prop
  | nil => True
  | node _ l r => l = nil ∧ r.NoLeft

/-- No node has a right child. -/
def NoRight : BinaryTree α → Prop
  | nil => True
  | node _ l r => r = nil ∧ l.NoRight

@[simp] theorem preList_nil : (nil : BinaryTree α).preList = [] := rfl

@[simp] theorem preList_node (a : α) (l r : BinaryTree α) :
    (node a l r).preList = a :: (l.preList ++ r.preList) := rfl

@[simp] theorem postList_nil : (nil : BinaryTree α).postList = [] := rfl

@[simp] theorem postList_node (a : α) (l r : BinaryTree α) :
    (node a l r).postList = l.postList ++ (r.postList ++ [a]) := rfl

@[simp] theorem noLeft_node {a : α} {l r : BinaryTree α} : (node a l r).NoLeft ↔ l = nil ∧ r.NoLeft := Iff.rfl

@[simp] theorem noRight_node {a : α} {l r : BinaryTree α} : (node a l r).NoRight ↔ r = nil ∧ l.NoRight := Iff.rfl

theorem length_preList (t : BinaryTree α) : t.preList.length = t.toList.length := by
  induction t with
  | nil => rfl
  | node a l r ihl ihr =>
    simp only [preList_node, toList_node, length_append, length_cons, ihl, ihr]
    omega

/-- Seen from behind, the post-order is a pre-order. -/
theorem preList_mirror (t : BinaryTree α) : t.mirror.preList = t.postList.reverse := by
  induction t with
  | nil => rfl
  | node a l r ihl ihr => simp [ihl, ihr]

theorem length_postList (t : BinaryTree α) : t.postList.length = t.toList.length := by
  rw [← length_reverse, ← preList_mirror, length_preList, toList_mirror, length_reverse]

theorem noLeft_mirror {t : BinaryTree α} : t.mirror.NoLeft ↔ t.NoRight := by
  induction t with
  | nil => exact Iff.rfl
  | node a l r ihl ihr => rw [mirror_node, noLeft_node, noRight_node, mirror_eq_nil_iff, ihl]

/-- The pre-order and the in-order are one order only where no node has a left child. -/
theorem preList_eq_toList_iff {t : BinaryTree α} (h : t.toList.Nodup) : t.preList = t.toList ↔ t.NoLeft := by
  induction t with
  | nil => exact iff_of_true rfl trivial
  | node a l r _ ihr =>
    rw [noLeft_node]
    cases l with
    | nil =>
      have hr : r.toList.Nodup := (nodup_cons.mp h).2
      simp [ihr hr]
    | node b l₁ l₂ =>
      -- the root comes first in the one, and a node of its left subtree in the other
      refine iff_of_false (fun heq => ?_) fun hno => nomatch hno.1
      have hne : (node b l₁ l₂).toList ≠ [] := by simp
      obtain ⟨c, cs, hl⟩ := exists_cons_of_ne_nil hne
      rw [preList_node, toList_node, hl, cons_append, List.cons.injEq] at heq
      rw [toList_node, hl, nodup_append] at h
      exact h.2.2 c mem_cons_self a mem_cons_self heq.1.symm

theorem postList_eq_toList_iff {t : BinaryTree α} (h : t.toList.Nodup) : t.postList = t.toList ↔ t.NoRight := by
  have hmirror : t.mirror.toList.Nodup := by rwa [toList_mirror, nodup_reverse]
  rw [← noLeft_mirror, ← preList_eq_toList_iff hmirror, preList_mirror, toList_mirror, reverse_inj]

end BinaryTree
