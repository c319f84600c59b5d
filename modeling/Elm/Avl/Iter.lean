import Elm.Avl.Set

/-!
# `GenTree::Iter`

An iterator stands for the data that are still to come: those of the node it stands on, of its right subtree
and of what follows in the tree.  Each step takes the first of them off, so that the iteration visits the
in-order list and ends with it; a loop over a tree is a loop over this list.
-/

namespace Elm.Avl

open BinaryTree Std List

variable {T K : Type*}

/-- `Iter::ended`. -/
def iterEnded (s : VisitStack) : Bool := s.isEmpty

/-- The stack of an iterator that has still to visit the data `xs`. -/
def Visits (root : Node T) (stack : VisitStack) (xs : List T) : Prop :=
  (stack = [] ∧ xs = []) ∨
    ∃ c l r s, stack = onNode s ∧ root = unwind (node c l r) s ∧ xs = c.data :: (dataList r ++ dataAfter s)

/-- What follows the data up to a node in the in-order list is what the iterator standing on it has to visit. -/
theorem visits_onNode {root : Node T} {c : Cell T} {l r : Node T} {s : Stack T}
    (hroot : root = unwind (node c l r) s) {xs ys : List T} (hxs : dataBefore s ++ dataList l = xs)
    (hlist : dataList root = xs ++ ys) : Visits root (onNode s) ys := by
  have hsplit : dataList root = xs ++ c.data :: (dataList r ++ dataAfter s) := by
    rw [hroot, dataList_unwind, dataList_node, ← hxs]
    simp only [append_assoc, cons_append]
  refine Or.inr ⟨c, l, r, s, rfl, hroot, ?_⟩
  exact append_cancel_left (hlist.symm.trans hsplit)

/-- The iterator begins before the whole in-order list. -/
theorem GenTree.begin_visits (t : GenTree T) : Visits t.root t.begin (dataList t.root) := by
  obtain ⟨root, cnt⟩ := t
  cases root with
  | nil => exact Or.inl ⟨rfl, rfl⟩
  | node c l r =>
    obtain ⟨d, b, s, hvisit, hroot, hbefore⟩ :=
      visit_spec (s := []) (rfl : node c l r = unwind (node c l r) [])
    have hstart : dataBefore s ++ dataList (nil : Node T) = [] := by
      rw [hbefore]
      rfl
    have hvisits := visits_onNode hroot hstart (nil_append _).symm
    rw [← hvisit] at hvisits
    exact hvisits

theorem Visits.ended {root : Node T} {stack : VisitStack} {xs : List T} (h : Visits root stack xs) :
    iterEnded stack = true ↔ xs = [] := by
  unfold iterEnded
  rw [List.isEmpty_iff]
  rcases h with ⟨rfl, rfl⟩ | ⟨c, l, r, s, rfl, -, rfl⟩
  · exact iff_of_true rfl rfl
  · exact iff_of_false (cons_ne_nil _ _) (cons_ne_nil _ _)

/-- `Iter::item` is the first of the data to come. -/
theorem Visits.item {root : Node T} {stack : VisitStack} {xs : List T} (h : Visits root stack xs) :
    iterItem root stack = xs.head? := by
  rcases h with ⟨rfl, rfl⟩ | ⟨c, l, r, s, rfl, hroot, rfl⟩
  · rfl
  · have hsub : root.subtree (position s) = node c l r := by rw [hroot, subtree_unwind]
    simp only [iterItem, onNode, hsub, head?_cons]

/-- `Iter::next` takes it off. -/
theorem Visits.next {root : Node T} {stack : VisitStack} {xs : List T} (h : Visits root stack xs) :
    Visits root (iterNext root stack) xs.tail := by
  rcases h with ⟨rfl, rfl⟩ | ⟨c, l, r, s, rfl, hroot, rfl⟩
  · exact Or.inl ⟨rfl, rfl⟩
  · have hlist : dataList root =
        dataBefore s ++ (dataList l ++ [c.data]) ++ (dataList r ++ dataAfter s) := by
      rw [hroot, dataList_unwind, dataList_node]
      simp only [append_assoc, cons_append, nil_append]
    rw [tail_cons]
    rcases iterNext_spec hroot with ⟨hend, hall⟩ | ⟨d, a, b, s', hnext, hroot', hseen⟩
    · -- the node was the last one
      have hrest : dataList r ++ dataAfter s = [] := by
        rw [hall] at hlist
        exact self_eq_append_right.mp hlist
      exact Or.inl ⟨hend, hrest⟩
    · rw [hnext]
      exact visits_onNode hroot' hseen hlist

theorem Visits.iterate {root : Node T} {stack : VisitStack} {xs : List T} (h : Visits root stack xs) (k : Nat) :
    Visits root ((iterNext root)^[k] stack) (xs.drop k) := by
  induction k generalizing stack xs with
  | zero => exact h
  | succ k ih =>
    have hrest := ih h.next
    rw [drop_tail] at hrest
    exact hrest

/-! ## Loops over a tree -/

section Loops

variable {σ ρ : Type*}

/-- One turn of `for(auto x: tree)`, for a tree that is part of the state: the body goes on or leaves the loop. -/
def walkTurn (root : σ → Node T) (body : σ → T → σ ⊕ ρ) (exit : σ → ρ) (state : σ × VisitStack) :
    (σ × VisitStack) ⊕ ρ :=
  match iterItem (root state.1) state.2 with
  | none => .inr (exit state.1)
  | some x =>
    match body state.1 x with
    | .inl s => .inl (s, iterNext (root s) state.2)
    | .inr r => .inr r

/-- The loop from the state `s`. -/
def walk (root : σ → Node T) (body : σ → T → σ ⊕ ρ) (exit : σ → ρ) (s : σ) : Option ρ :=
  Loop.run (walkTurn root body exit) ((root s).numNodes + 1) (s, visit (root s) [] [])

variable {root : σ → Node T} {body : σ → T → σ ⊕ ρ}

theorem run_walkTurn (hroot : ∀ s x s', body s x = .inl s' → root s' = root s) (exit : σ → ρ) {fuel : Nat} {s : σ}
    {stack : VisitStack} {xs : List T} (h : Visits (root s) stack xs) (hfuel : xs.length < fuel) :
    Loop.run (walkTurn root body exit) fuel (s, stack) = some (Loop.visit body exit xs s) := by
  induction fuel generalizing s stack xs with
  | zero => exact absurd hfuel (Nat.not_lt_zero _)
  | succ fuel ih =>
    have hitem := h.item
    cases xs with
    | nil =>
      apply Loop.run_succ_inr
      unfold walkTurn
      rw [hitem]
      rfl
    | cons x xs =>
      rw [head?_cons] at hitem
      cases hbody : body s x with
      | inl s' =>
        have hturn : walkTurn root body exit (s, stack) = .inl (s', iterNext (root s') stack) := by
          unfold walkTurn
          simp only [hitem, hbody]
        have hnext := h.next
        rw [← hroot s x s' hbody] at hnext
        rw [Loop.run_succ_inl hturn, ih hnext (Nat.lt_of_succ_lt_succ hfuel)]
        simp only [Loop.visit, hbody, tail_cons]
      | inr r =>
        have hturn : walkTurn root body exit (s, stack) = .inr r := by
          unfold walkTurn
          simp only [hitem, hbody]
        rw [Loop.run_succ_inr hturn]
        simp only [Loop.visit, hbody]

/-- A loop that leaves the tree as it is goes over the in-order list. -/
theorem walk_eq (hroot : ∀ s x s', body s x = .inl s' → root s' = root s) (exit : σ → ρ) (s : σ) :
    walk root body exit s = some (Loop.visit body exit (dataList (root s)) s) := by
  apply run_walkTurn hroot exit (GenTree.begin_visits ⟨root s, 0⟩)
  rw [length_dataList]
  exact Nat.lt_succ_self _

end Loops

/-! ## Search trees -/

variable {A : Adapter T K}

/-- In a search tree the in-order list is increasing. -/
theorem SearchTree.increasing [TransCmp A.compare] {n : Node T} (h : SearchTree A n) : Increasing A (dataList n) := by
  induction n with
  | nil => exact List.Pairwise.nil
  | node c l r ihl ihr =>
    obtain ⟨hleft, hright, hl, hr⟩ := h
    rw [dataList_node]
    refine pairwise_append.mpr ⟨ihl hl, pairwise_cons.mpr ⟨hright, ihr hr⟩, ?_⟩
    intro x hx y hy
    rcases mem_cons.mp hy with rfl | hy
    · exact hleft x hx
    · exact TransCmp.lt_trans (hleft x hx) (hright y hy)

end Elm.Avl
