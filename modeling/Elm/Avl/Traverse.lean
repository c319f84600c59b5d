import Elm.Avl.Order

/-!
# Traversals of `avl::GenTree`: clearing, copy and iteration

Clearing frees each node once.  The copy and the iteration keep the positions of a node and of all
its ancestors on their stack, that is the tails of one position.  The copy of a tree is the tree
itself, the two being built from the same frames; the iteration gives the in-order list.
-/

namespace Elm.Avl

open List hiding nil
open BinaryTree

variable {T : Type*}

/-! ## Clearing -/

/-- The nodes below the entries of a stack of subtrees. -/
def stacked (s : List (Node T)) : List (Cell T) := s.flatMap toList

/-- Stacking a child if there is one. -/
theorem stacked_push (n : Node T) (s : List (Node T)) :
    stacked (if n ≠ nil then n :: s else s) = n.toList ++ stacked s := by
  cases n <;> simp [stacked]

theorem nil_not_mem_push {n : Node T} {s : List (Node T)} (h : nil ∉ s) :
    nil ∉ if n ≠ nil then n :: s else s := by
  cases n <;> simp [h]

/-- A turn takes one node off the stack and frees it; the nodes to free and the freed ones stay the
same in all. -/
theorem clearTurn_spec {s : List (Node T)} (freed : List (Cell T)) (hs : nil ∉ s) :
    (s = [] ∧ clearTurn (s, freed) = .inr freed) ∨
      ∃ s' freed', clearTurn (s, freed) = .inl (s', freed') ∧ nil ∉ s' ∧
        (stacked s').length < (stacked s).length ∧
        (stacked s' ++ freed').Perm (stacked s ++ freed) := by
  match s with
  | [] => exact Or.inl ⟨rfl, rfl⟩
  | nil :: s => simp at hs
  | node c l r :: s =>
    have hs' : nil ∉ s := fun h => hs (mem_cons_of_mem _ h)
    refine Or.inr ⟨_, _, rfl, nil_not_mem_push (nil_not_mem_push hs'), ?_, ?_⟩
    · rw [stacked_push, stacked_push]
      simp only [stacked, flatMap_cons, toList_node, length_append, length_cons]
      omega
    · rw [stacked_push, stacked_push, ← Multiset.coe_eq_coe]
      simp only [stacked, flatMap_cons, toList_node, ← Multiset.coe_add,
        ← Multiset.cons_coe, ← Multiset.singleton_add]
      abel

/-- `GenTree::clear` frees each node of the tree exactly once and leaves the empty tree. -/
theorem GenTree.clear_spec (t : GenTree T) :
    ∃ freed, t.clear = some (GenTree.empty, freed) ∧ freed.Perm t.root.toList := by
  have hstart : nil ∉ (if t.root ≠ nil then [t.root] else []) := nil_not_mem_push (by simp)
  have hstacked : stacked (if t.root ≠ nil then [t.root] else []) = t.root.toList := by
    rw [stacked_push]
    simp [stacked]
  obtain ⟨freed, hrun, hfreed⟩ := Loop.exists_run_eq_some clearTurn
    (fun k (state : List (Node T) × List (Cell T)) => nil ∉ state.1 ∧
      (stacked state.1).length = k ∧ (stacked state.1 ++ state.2).Perm t.root.toList)
    (fun freed => freed.Perm t.root.toList)
    (by
      rintro k ⟨s, freed⟩ ⟨hs, rfl, hperm⟩
      obtain ⟨rfl, hturn⟩ | ⟨s', freed', hturn, hs', hlt, hperm'⟩ := clearTurn_spec freed hs
      · exact Or.inr ⟨freed, hturn, hperm⟩
      · exact Or.inl ⟨_, _, hturn, hlt, hs', rfl, hperm'.trans hperm⟩)
    (t.root.numNodes + 1) t.root.numNodes (if t.root ≠ nil then [t.root] else [], [])
    ⟨hstart, by rw [hstacked, length_toList], by rw [hstacked, append_nil]⟩ (by omega)
  exact ⟨freed, by simp only [GenTree.clear, hrun]; rfl, hfreed⟩

/-! ## Copy -/

/-- A frame of the tree being copied: the right child of a node is copied after its left child. -/
def prune (f : Frame (Cell T)) : Frame (Cell T) :=
  match f.side with
  | .left => { f with sibling := nil }
  | .right => f

@[simp] theorem prune_left (c : Cell T) (u : Node T) : prune ⟨.left, c, u⟩ = ⟨.left, c, nil⟩ := rfl

@[simp] theorem prune_right (c : Cell T) (u : Node T) : prune ⟨.right, c, u⟩ = ⟨.right, c, u⟩ := rfl

@[simp] theorem prune_side (f : Frame (Cell T)) : (prune f).side = f.side := by
  obtain ⟨side, c, u⟩ := f
  cases side <;> rfl

@[simp] theorem position_map_prune (s : Stack T) : position (s.map prune) = position s := by
  simp [position]

/-- The number of nodes still to be copied at the right of a stack. -/
def pending : Stack T → Nat
  | [] => 0
  | ⟨.left, _, u⟩ :: s => u.numNodes + pending s
  | ⟨.right, _, _⟩ :: s => pending s

/-- The state of a copy that has just created the clone of `n`. -/
structure CopyAt (src n : Node T) (s : Stack T) (state : CopyState T) : Prop where
  ne_nil : n ≠ nil
  src_eq : src = unwind n s
  ss_eq : state.ss = (position s).tails
  st_eq : state.st = (position s).tails
  target_eq : state.target = unwind (Node.clone n) (s.map prune)

theorem tails_position (s : Stack T) :
    (position s).tails = position s :: (position s).tails.tail := by
  cases s <;> rfl

theorem copyChild_eq {src : Node T} {d : Side} {state : CopyState T} {p q : Path}
    {ps qs : VisitStack} (hss : state.ss = p :: ps) (hst : state.st = q :: qs) :
    copyChild src d state =
      { target := state.target.modifyAt q (setChild d (Node.clone (src.subtree (d :: p))))
        ss := (d :: p) :: p :: ps
        st := (d :: q) :: q :: qs } := by
  simp only [copyChild, hss, hst]

/-- Copying the left child of the node just created. -/
theorem copyChild_left {src : Node T} {c : Cell T} {l r : Node T} {s : Stack T}
    {state : CopyState T} (h : CopyAt src (node c l r) s state) (hl : l ≠ nil) :
    CopyAt src l (⟨.left, c, r⟩ :: s) (copyChild src .left state) := by
  obtain ⟨-, hsrc, hss, hst, htarget⟩ := h
  have hclone : src.subtree (.left :: position s) = l := by
    rw [subtree_cons, hsrc, subtree_unwind]
    rfl
  have hmodify := modifyAt_unwind (setChild .left (Node.clone l)) (Node.clone (node c l r))
    (s.map prune)
  rw [position_map_prune, ← htarget] at hmodify
  rw [tails_position] at hss hst
  rw [copyChild_eq hss hst, hclone, hmodify, ← tails_position]
  exact ⟨hl, hsrc, rfl, rfl, rfl⟩

/-- Copying the right child of a node whose left side is complete. -/
theorem copyChild_right {src : Node T} {c : Cell T} {l r : Node T} {s : Stack T}
    {state : CopyState T} (hsrc : src = unwind (node c l r) s)
    (hss : state.ss = (position s).tails) (hst : state.st = (position s).tails)
    (htarget : state.target = unwind (node c l nil) (s.map prune)) (hr : r ≠ nil) :
    CopyAt src r (⟨.right, c, l⟩ :: s) (copyChild src .right state) := by
  have hclone : src.subtree (.right :: position s) = r := by
    rw [subtree_cons, hsrc, subtree_unwind]
    rfl
  have hmodify := modifyAt_unwind (setChild .right (Node.clone r)) (node c l nil) (s.map prune)
  rw [position_map_prune, ← htarget] at hmodify
  rw [tails_position] at hss hst
  rw [copyChild_eq hss hst, hclone, hmodify, ← tails_position]
  exact ⟨hr, hsrc, rfl, rfl, rfl⟩

/-- One step of the climb from the subtree `n` in the frame `f`. -/
theorem copyPop_frame {src n : Node T} {f : Frame (Cell T)} {s : Stack T}
    (hsrc : src = unwind n (f :: s)) :
    copyPop src (position (f :: s)) (position (f :: s)).tails.tail (position (f :: s)).tails =
      if .right = f.side ∨ child .right (f.plug n) = nil then
        copyPop src (position s) (position s).tails.tail (position s).tails
      else
        some ((position s).tails, (position s).tails) := by
  have hright : src.subtree (.right :: position s) = child .right (f.plug n) := by
    rw [subtree_cons, hsrc, unwind_cons, subtree_unwind]
  change copyPop src (f.side :: position s) (position s).tails
    ((f.side :: position s) :: (position s).tails) = _
  conv => lhs; rw [tails_position s]
  simp only [copyPop, tail_cons, hright, List.cons.injEq, and_true, ← tails_position]

/-- Climbing from a completed subtree: the stack is exhausted and the copy is complete, or it stops
at the nearest ancestor reached from the left that has a right child. -/
theorem copyPop_spec {src n : Node T} {s : Stack T} (hsrc : src = unwind n s) :
    (copyPop src (position s) (position s).tails.tail (position s).tails = none ∧
        unwind n (s.map prune) = src ∧ pending s = 0) ∨
      ∃ c l r s', r ≠ nil ∧
        copyPop src (position s) (position s).tails.tail (position s).tails =
          some ((position s').tails, (position s').tails) ∧
        src = unwind (node c l r) s' ∧
        unwind n (s.map prune) = unwind (node c l nil) (s'.map prune) ∧
        r.numNodes + pending s' = pending s := by
  induction s generalizing n with
  | nil => exact Or.inl ⟨rfl, hsrc.symm, rfl⟩
  | cons f s ih =>
    rw [copyPop_frame hsrc]
    obtain ⟨side, c, u⟩ := f
    cases side with
    | right =>
      rw [if_pos (Or.inl rfl)]
      exact ih hsrc
    | left =>
      by_cases hu : u = nil
      · have hcond : Side.right = (Frame.mk .left c u).side ∨
            child .right (Frame.plug ⟨.left, c, u⟩ n) = nil := Or.inr hu
        rw [if_pos hcond]
        subst hu
        obtain hdone | ⟨d, a, b, s', hb, hrun, hrest⟩ := ih hsrc
        · exact Or.inl (by simpa [pending] using hdone)
        · exact Or.inr ⟨d, a, b, s', hb, hrun, by simpa [pending] using hrest⟩
      · rw [if_neg (by simp [child, hu])]
        exact Or.inr ⟨c, n, u, s, hu, rfl, hsrc, rfl, rfl⟩

/-- One turn of the copy: it creates one node of those still to be copied, or the copy is complete. -/
theorem copyTurn_spec {src n : Node T} {s : Stack T} {state : CopyState T}
    (h : CopyAt src n s state) :
    (∃ n' s' state', copyTurn src state = .inl state' ∧ CopyAt src n' s' state' ∧
        n'.numNodes + pending s' + 1 = n.numNodes + pending s) ∨
      copyTurn src state = .inr src ∧ n.numNodes + pending s = 1 := by
  obtain ⟨hn, hsrc, hss, hst, htarget⟩ := h
  cases n with
  | nil => exact absurd rfl hn
  | node c l r =>
    have hleft : src.subtree (.left :: position s) = l := by
      rw [subtree_cons, hsrc, subtree_unwind]
      rfl
    have hright : src.subtree (.right :: position s) = r := by
      rw [subtree_cons, hsrc, subtree_unwind]
      rfl
    have hss' : state.ss = position s :: (position s).tails.tail := by
      rw [hss, ← tails_position]
    simp only [copyTurn, hss', hleft, hright]
    by_cases hl : l = nil
    · subst hl
      rw [if_neg (by simp)]
      by_cases hr : r = nil
      · subst hr
        rw [if_neg (by simp), hst]
        obtain ⟨hrun, hdone, hnone⟩ | ⟨d, a, b, s', hb, hrun, hsrc', hcur, hle⟩ := copyPop_spec hsrc
        · right
          simp only [hrun, htarget]
          refine ⟨congrArg Sum.inr hdone, ?_⟩
          simp only [numNodes]
          omega
        · left
          simp only [hrun]
          refine ⟨b, ⟨.right, d, a⟩ :: s', _, rfl,
            copyChild_right hsrc' rfl rfl (htarget.trans hcur) hb, ?_⟩
          simp only [pending, numNodes]
          omega
      · rw [if_pos hr]
        refine Or.inl ⟨r, ⟨.right, c, nil⟩ :: s, _, rfl,
          copyChild_right hsrc hss hst htarget hr, ?_⟩
        simp only [pending, numNodes]
        omega
    · rw [if_pos hl]
      refine Or.inl ⟨l, ⟨.left, c, r⟩ :: s, _, rfl,
        copyChild_left ⟨hn, hsrc, hss, hst, htarget⟩ hl, ?_⟩
      simp only [pending, numNodes]
      omega

/-- `GenTree::copy` builds the very same tree. -/
theorem GenTree.copyFrom_eq (t : GenTree T) (hcnt : t.root = nil → t.cnt = 0) :
    t.copyFrom = some t := by
  obtain ⟨root, cnt⟩ := t
  cases root with
  | nil =>
    obtain rfl : cnt = 0 := hcnt rfl
    rfl
  | node c l r =>
    have hstart : CopyAt (node c l r) (node c l r) [] ⟨Node.clone (node c l r), [[]], [[]]⟩ :=
      ⟨nofun, rfl, rfl, rfl, rfl⟩
    obtain ⟨root', hrun, hroot⟩ := Loop.exists_run_eq_some (copyTurn (node c l r))
      (fun k state => ∃ n s, CopyAt (node c l r) n s state ∧ n.numNodes + pending s = k)
      (fun root => root = node c l r)
      (by
        rintro k state ⟨n, s, hat, rfl⟩
        obtain ⟨n', s', state', hturn, hat', hnodes⟩ | ⟨hturn, -⟩ := copyTurn_spec hat
        · exact Or.inl ⟨state', _, hturn, by omega, n', s', hat', rfl⟩
        · exact Or.inr ⟨_, hturn, rfl⟩)
      ((node c l r).numNodes + 1) (node c l r).numNodes _ ⟨_, _, hstart, rfl⟩ (by omega)
    simp only [GenTree.copyFrom, hrun, hroot, Option.map_some]

/-! ## Iteration -/

/-- The stack of an iterator standing on the node below `s`: the node is stacked twice. -/
def onNode (s : Stack T) : VisitStack := position s :: (position s).tails

/-- Going down to the leftmost node of a subtree. -/
theorem pushLeft_spec (c : Cell T) (l r : Node T) (s : Stack T) :
    ∃ d b s', pushLeft (node c l r) (position s) (position s).tails.tail = (position s').tails ∧
      unwind (node d nil b) s' = unwind (node c l r) s ∧ dataBefore s' = dataBefore s := by
  induction l generalizing c r s with
  | nil => exact ⟨c, r, s, (tails_position s).symm, rfl, rfl⟩
  | node d a b iha _ =>
    obtain ⟨e, x, s', hpush, hup, hbefore⟩ := iha d b (⟨.left, c, r⟩ :: s)
    refine ⟨e, x, s', ?_, hup, hbefore⟩
    rw [← hpush, pushLeft]
    change pushLeft _ (.left :: position s) (position s :: (position s).tails.tail) =
      pushLeft _ (.left :: position s) (position s).tails
    rw [← tails_position]

theorem visit_spec {root : Node T} {c : Cell T} {l r : Node T} {s : Stack T}
    (hroot : root = unwind (node c l r) s) :
    ∃ d b s', visit root (position s) (position s).tails.tail = onNode s' ∧
      root = unwind (node d nil b) s' ∧ dataBefore s' = dataBefore s := by
  obtain ⟨d, b, s', hpush, hup, hbefore⟩ := pushLeft_spec c l r s
  refine ⟨d, b, s', ?_, hroot.trans hup.symm, hbefore⟩
  have hsub : root.subtree (position s) = node c l r := by rw [hroot, subtree_unwind]
  rw [visit, hsub, hpush, tails_position s']
  simp only [onNode, ← tails_position]

/-- The iterator climbing from a visited subtree: the traversal is over, or it stands on the nearest
ancestor whose left subtree this completes. -/
theorem iterNext_climb {root n : Node T} {s : Stack T} (hn : n ≠ nil) (hroot : root = unwind n s) :
    (iterNext root (position s).tails = [] ∧ dataBefore s ++ dataList n = dataList root) ∨
      ∃ c l r s', iterNext root (position s).tails = onNode s' ∧
        root = unwind (node c l r) s' ∧
        dataBefore s' ++ dataList l = dataBefore s ++ dataList n := by
  induction s generalizing n with
  | nil =>
    subst hroot
    exact Or.inl ⟨rfl, rfl⟩
  | cons f s ih =>
    obtain ⟨side, c, u⟩ := f
    have hunfold : iterNext root (position (⟨side, c, u⟩ :: s)).tails =
        iterNext root ((side :: position s) :: position s :: (position s).tails.tail) := by
      rw [← tails_position]
      rfl
    have hleft : root.subtree (.left :: position s) =
        child .left (Frame.plug ⟨side, c, u⟩ n) := by
      rw [subtree_cons, hroot, unwind_cons, subtree_unwind]
    rw [hunfold, iterNext, hleft, ← tails_position]
    cases side with
    | left =>
      rw [if_pos ⟨hn, rfl⟩]
      exact Or.inr ⟨c, n, u, s, rfl, hroot, rfl⟩
    | right =>
      rw [if_neg (by simp), if_neg (by simp)]
      obtain ⟨hend, hdata⟩ | ⟨d, a, b, s', hnext, hroot', hdata⟩ :=
        ih (n := node c u n) nofun hroot
      · exact Or.inl ⟨hend, by simpa using hdata⟩
      · exact Or.inr ⟨d, a, b, s', hnext, hroot', by simpa using hdata⟩

/-- `Iter::next` from a node: the next node in in-order, or the end after the last one. -/
theorem iterNext_spec {root : Node T} {c : Cell T} {l r : Node T} {s : Stack T}
    (hroot : root = unwind (node c l r) s) :
    (iterNext root (onNode s) = [] ∧
        dataBefore s ++ (dataList l ++ [c.data]) = dataList root) ∨
      ∃ d a b s', iterNext root (onNode s) = onNode s' ∧ root = unwind (node d a b) s' ∧
        dataBefore s' ++ dataList a = dataBefore s ++ (dataList l ++ [c.data]) := by
  have hunfold : iterNext root (onNode s) =
      iterNext root (position s :: position s :: (position s).tails.tail) := by
    rw [onNode, ← tails_position]
  have hright : root.subtree (.right :: position s) = r := by
    rw [subtree_cons, hroot, subtree_unwind]
    rfl
  rw [hunfold, iterNext, if_neg (by simp), hright, ← tails_position]
  cases r with
  | nil =>
    rw [if_neg (by simp)]
    obtain ⟨hend, hdata⟩ | ⟨d, a, b, s', hnext, hroot', hdata⟩ :=
      iterNext_climb (n := node c l nil) nofun hroot
    · exact Or.inl ⟨hend, by simpa using hdata⟩
    · exact Or.inr ⟨d, a, b, s', hnext, hroot', by simpa using hdata⟩
  | node e x y =>
    rw [if_pos ⟨rfl, nofun⟩]
    obtain ⟨d, b, s', hvisit, hroot', hbefore⟩ := visit_spec (s := ⟨.right, c, l⟩ :: s) hroot
    refine Or.inr ⟨d, nil, b, s', hvisit, hroot', ?_⟩
    simp [hbefore]

/-- The items seen before the iterator reaches the node below `s`. -/
def IterAt (root : Node T) (k : Nat) (state : VisitStack × List T) : Prop :=
  (state.1 = [] ∧ state.2.reverse = dataList root ∧ k = 0) ∨
    ∃ c l r s, state.1 = onNode s ∧ root = unwind (node c l r) s ∧
      state.2.reverse = dataBefore s ++ dataList l ∧
      k = (dataList root).length - state.2.length

/-- One turn of the iteration: it takes the next item, or all of them have been taken. -/
theorem itemsTurn_spec {root : Node T} {k : Nat} {state : VisitStack × List T}
    (h : IterAt root k state) :
    (∃ state' k', itemsTurn root state = .inl state' ∧ k' < k ∧ IterAt root k' state') ∨
      ∃ xs, itemsTurn root state = .inr xs ∧ xs = dataList root := by
  obtain ⟨stack, acc⟩ := state
  obtain ⟨hstack, hacc, -⟩ | ⟨c, l, r, s, hstack, hroot, hacc, hk⟩ := h
  · simp only at hstack hacc
    exact Or.inr ⟨acc.reverse, by simp [itemsTurn, hstack, iterItem], hacc⟩
  · simp only at hstack hacc hk
    have hitem : iterItem root stack = some c.data := by
      have hsub : root.subtree (position s) = node c l r := by rw [hroot, subtree_unwind]
      simp [hstack, onNode, iterItem, hsub]
    -- the node below the iterator is still to come
    have hlen : acc.length < (dataList root).length := by
      have h := congrArg List.length hacc
      rw [length_reverse] at h
      rw [h, hroot, dataList_unwind]
      simp
    have hacc' : (c.data :: acc).reverse = dataBefore s ++ (dataList l ++ [c.data]) := by
      rw [reverse_cons, hacc, append_assoc]
    refine Or.inl ⟨(iterNext root stack, c.data :: acc),
      (dataList root).length - (c.data :: acc).length, by simp [itemsTurn, hitem], ?_, ?_⟩
    · simp only [length_cons]
      omega
    · rw [hstack]
      obtain ⟨hend, hdata⟩ | ⟨d, a, b, s', hnext, hroot', hdata⟩ := iterNext_spec hroot
      · refine Or.inl ⟨hend, hacc'.trans hdata, ?_⟩
        have h := congrArg List.length (hacc'.trans hdata)
        rw [length_reverse] at h
        omega
      · exact Or.inr ⟨d, a, b, s', hnext, hroot', hacc'.trans hdata.symm, rfl⟩

/-- Iterating over a tree gives its data in in-order. -/
theorem GenTree.items_eq (t : GenTree T) : t.items = some (dataList t.root) := by
  obtain ⟨root, cnt⟩ := t
  have hstart : ∃ k, k < root.numNodes + 1 ∧ IterAt root k (GenTree.begin ⟨root, cnt⟩, []) := by
    cases root with
    | nil => exact ⟨0, by simp, Or.inl ⟨rfl, rfl, rfl⟩⟩
    | node c l r =>
      obtain ⟨d, b, s, hvisit, hroot, hbefore⟩ :=
        visit_spec (s := []) (rfl : node c l r = unwind (node c l r) [])
      refine ⟨(dataList (node c l r)).length, ?_, Or.inr ⟨d, nil, b, s, hvisit, hroot, ?_, rfl⟩⟩
      · rw [length_dataList]
        omega
      · rw [hbefore]
        rfl
  obtain ⟨k, hk, hat⟩ := hstart
  obtain ⟨xs, hrun, hxs⟩ := Loop.exists_run_eq_some (itemsTurn root) (IterAt root)
    (fun xs => xs = dataList root) (fun _ _ h => itemsTurn_spec h) (root.numNodes + 1) k _ hat hk
  simpa [GenTree.items, hxs] using hrun

end Elm.Avl
