import Elm.Lib.BinTree

/-!
# Binary trees in a memory

A memory gives at each address a node with the addresses of its two children.  A tree whose labels are the
addresses of its nodes and their values says which part of a memory is a tree; it is read, or changed at the hole
of a stack of frames, by its list of links.
-/

namespace LinkedTree

open List hiding nil
open BinaryTree Function

variable {A V : Type*}

/-- A node in the memory. -/
structure Link (A V : Type*) where
  left : Option A
  right : Option A
  val : V
  deriving DecidableEq, Repr

namespace Link

/-- The pointer of a side. -/
def child (d : Side) (c : Link A V) : Option A :=
  match d with
  | .left => c.left
  | .right => c.right

/-- The pointer of a side is changed. -/
def setChild (d : Side) (p : Option A) (c : Link A V) : Link A V :=
  match d with
  | .left => { c with left := p }
  | .right => { c with right := p }

end Link

/-- What a memory holds at an address. -/
abbrev Read (A V : Type*) := A → Option (Link A V)

/-- The address of the root. -/
def addr : BinaryTree (A × V) → Option A
  | nil => none
  | node a _ _ => some a.1

/-- The links of a tree. -/
def links : BinaryTree (A × V) → List (A × Link A V)
  | nil => []
  | node a l r => (a.1, ⟨addr l, addr r, a.2⟩) :: (links l ++ links r)

/-- The addresses of a tree. -/
def addrs (t : BinaryTree (A × V)) : List A := (links t).map Prod.fst

/-- The node of a frame, when its hole is filled by the tree at the address `p`. -/
def frameLink (p : Option A) (f : Frame (A × V)) : Link A V :=
  match f.side with
  | .left => ⟨p, addr f.sibling, f.label.2⟩
  | .right => ⟨addr f.sibling, p, f.label.2⟩

/-- The links around the hole of a stack. -/
def around (p : Option A) : List (Frame (A × V)) → List (A × Link A V)
  | [] => []
  | f :: s => (f.label.1, frameLink p f) :: (links f.sibling ++ around (some f.label.1) s)

/-- The memory holds the tree. -/
def Stored (read : Read A V) (t : BinaryTree (A × V)) : Prop := ∀ x ∈ links t, read x.1 = some x.2

variable {read read' : Read A V} {t : BinaryTree (A × V)} {f : Frame (A × V)} {s : List (Frame (A × V))}

@[simp] theorem addr_nil : addr (nil : BinaryTree (A × V)) = none := rfl

@[simp] theorem addr_node (a : A × V) (l r : BinaryTree (A × V)) : addr (node a l r) = some a.1 := rfl

@[simp] theorem addrs_nil : addrs (nil : BinaryTree (A × V)) = [] := rfl

@[simp] theorem addrs_node (a : A × V) (l r : BinaryTree (A × V)) :
    addrs (node a l r) = a.1 :: (addrs l ++ addrs r) := by
  unfold addrs
  rw [links, map_cons, map_append]

theorem addr_eq_none_iff : addr t = none ↔ t = nil := by
  cases t with
  | nil => exact iff_of_true rfl rfl
  | node a l r => exact iff_of_false (Option.some_ne_none a.1) nofun

theorem addr_plug (f : Frame (A × V)) (t : BinaryTree (A × V)) : addr (f.plug t) = some f.label.1 := by
  obtain ⟨side, a, u⟩ := f
  cases side <;> rfl

/-- The root does not depend on what fills a hole below it. -/
theorem addr_unwind_cons (t u : BinaryTree (A × V)) (f : Frame (A × V)) (s : List (Frame (A × V))) :
    addr (unwind t (f :: s)) = addr (unwind u (f :: s)) := by
  induction s generalizing t u f with
  | nil => rw [unwind_cons, unwind_nil, addr_plug, unwind_cons, unwind_nil, addr_plug]
  | cons g s ih => exact ih (f.plug t) (f.plug u) g

theorem mem_addrs_of_addr {a : A} (h : addr t = some a) : a ∈ addrs t := by
  cases t with
  | nil => cases h
  | node b l r =>
    rw [addr_node] at h
    obtain rfl := Option.some.inj h
    rw [addrs_node]
    exact mem_cons_self

theorem length_addrs (t : BinaryTree (A × V)) : (addrs t).length = t.numNodes := by
  induction t with
  | nil => rfl
  | node a l r ihl ihr =>
    rw [addrs_node, length_cons, length_append, ihl, ihr]
    rfl

/-- The links of a tree and those around it. -/
theorem links_unwind (t : BinaryTree (A × V)) (s : List (Frame (A × V))) :
    (links (unwind t s)).Perm (links t ++ around (addr t) s) := by
  induction s generalizing t with
  | nil =>
    rw [unwind_nil, around, append_nil]
  | cons f s ih =>
    rw [unwind_cons]
    refine (ih (f.plug t)).trans ?_
    rw [addr_plug, around]
    obtain ⟨side, a, u⟩ := f
    cases side with
    | left =>
      rw [Frame.plug_left, links]
      simp only [frameLink, cons_append, append_assoc]
      exact perm_middle.symm
    | right =>
      rw [Frame.plug_right, links]
      simp only [frameLink, cons_append]
      refine (Perm.cons _ ?_).trans perm_middle.symm
      rw [← append_assoc]
      exact perm_append_comm.append_right _

theorem addrs_unwind (t : BinaryTree (A × V)) (s : List (Frame (A × V))) :
    (addrs (unwind t s)).Perm (addrs t ++ (around (addr t) s).map Prod.fst) := by
  have h := (links_unwind t s).map Prod.fst
  rwa [map_append] at h

/-! ## Reading -/

theorem Stored.mono (h : Stored read t) (hread : ∀ a ∈ addrs t, read' a = read a) : Stored read' t := by
  intro x hx
  rw [hread x.1 (mem_map_of_mem hx)]
  exact h x hx

/-- The node at the hole of a stack. -/
theorem Stored.read_node {a : A × V} {l r : BinaryTree (A × V)} (h : Stored read (unwind (node a l r) s)) :
    read a.1 = some ⟨addr l, addr r, a.2⟩ := by
  apply h (a.1, ⟨addr l, addr r, a.2⟩)
  rw [(links_unwind (node a l r) s).mem_iff]
  exact mem_append_left _ mem_cons_self

/-- The parent of the hole of a stack. -/
theorem Stored.read_frame (h : Stored read (unwind t (f :: s))) :
    read f.label.1 = some (frameLink (addr t) f) := by
  apply h (f.label.1, frameLink (addr t) f)
  rw [(links_unwind t (f :: s)).mem_iff]
  exact mem_append_right _ mem_cons_self

/-! ## Writing -/

variable [DecidableEq A]

/-- A new leaf is hung in the hole of a stack. -/
theorem Stored.hang (h : Stored read (unwind nil (f :: s))) (hnodup : (addrs (unwind nil (f :: s))).Nodup) {b : A}
    (hb : b ∉ addrs (unwind nil (f :: s))) (v : V) :
    Stored (update (update read b (some ⟨none, none, v⟩)) f.label.1
      (some (frameLink (some b) f))) (unwind (node (b, v) nil nil) (f :: s)) := by
  have hperm := addrs_unwind nil (f :: s)
  simp only [addrs_nil, nil_append, around, map_cons] at hperm
  have hnodup' := (nodup_cons.mp (hperm.nodup_iff.mp hnodup)).1
  have hb' : b ∉ f.label.1 :: (links f.sibling ++ around (some f.label.1) s).map Prod.fst :=
    fun hmem => hb (hperm.mem_iff.mpr hmem)
  obtain ⟨hbf, hbrest⟩ := not_or.mp (fun hmem => hb' (mem_cons.mpr hmem))
  intro x hx
  rw [(links_unwind (node (b, v) nil nil) (f :: s)).mem_iff] at hx
  simp only [links, around, addr_nil, addr_node, append_nil, cons_append, nil_append,
    mem_cons] at hx
  rcases hx with rfl | rfl | hx
  · -- the leaf
    rw [update_of_ne hbf, update_self]
  · -- its parent
    rw [update_self]
  · -- the other nodes are as before
    have hmem : x.1 ∈ (links f.sibling ++ around (some f.label.1) s).map Prod.fst := mem_map_of_mem hx
    have hparent : x.1 ≠ f.label.1 := by
      intro heq
      rw [heq] at hmem
      exact hnodup' hmem
    have hleaf : x.1 ≠ b := by
      intro heq
      rw [heq] at hmem
      exact hbrest hmem
    rw [update_of_ne hparent, update_of_ne hleaf]
    apply h x
    rw [(links_unwind nil (f :: s)).mem_iff]
    exact mem_append_right _ (mem_cons_of_mem _ hx)

omit [DecidableEq A] in
theorem addrs_hang (b : A) (v : V) (f : Frame (A × V)) (s : List (Frame (A × V))) :
    (addrs (unwind (node (b, v) nil nil) (f :: s))).Perm (b :: addrs (unwind nil (f :: s))) := by
  refine (addrs_unwind _ _).trans ?_
  rw [addrs_node]
  exact (addrs_unwind nil (f :: s)).symm.cons b

end LinkedTree
