import Elm.Data.TreeBag
import Mathlib.Data.Multiset.ZeroCons

/-!
# Runs of `TreeBag`

The elements of a bag in in-order are sorted, and each operation is described by what it does to that list: `add`
puts an element in it, `remove` takes one out of it.
-/

namespace Elm.Data.TreeBag

open BinaryTree Std

variable {T : Type*} {compare : T → T → Ordering}

theorem countNodes_eq (root : BinaryTree T) : countNodes root = root.toList.length := by
  induction root with
  | nil => rfl
  | node val left right ihl ihr =>
    simp only [countNodes, toList_node, List.length_append, List.length_cons, ihl, ihr]
    omega

/-! ## The search tree -/

theorem SearchTree.sorted [TransCmp compare] {root : BinaryTree T} (h : SearchTree compare root) :
    root.toList.Pairwise fun x y => (compare x y).isLE := by
  induction root with
  | nil => exact List.Pairwise.nil
  | node val left right ihl ihr =>
    obtain ⟨hleft, hright, hl, hr⟩ := h
    have hleft' : ∀ y ∈ left.toList, (compare y val).isLE := fun y hy => by rw [hleft y hy]; rfl
    rw [toList_node, List.pairwise_append, List.pairwise_cons]
    refine ⟨ihl hl, ⟨hright, ihr hr⟩, fun x hx y hy => ?_⟩
    rcases List.mem_cons.mp hy with rfl | hy
    · exact hleft' x hx
    · exact TransCmp.isLE_trans (hleft' x hx) (hright y hy)

theorem toList_insert (x : T) (root : BinaryTree T) :
    ∃ before after, root.toList = before ++ after ∧ (insert compare x root).toList = before ++ x :: after := by
  induction root with
  | nil => exact ⟨[], [], rfl, rfl⟩
  | node val left right ihl ihr =>
    unfold insert
    split_ifs
    · obtain ⟨before, after, hsplit, hinsert⟩ := ihr
      exact ⟨left.toList ++ val :: before, after, by simp [hsplit], by simp [hinsert]⟩
    · obtain ⟨before, after, hsplit, hinsert⟩ := ihl
      exact ⟨before, after ++ val :: right.toList, by simp [hsplit], by simp [hinsert]⟩

theorem perm_insert (x : T) (root : BinaryTree T) :
    (insert compare x root).toList.Perm (x :: root.toList) := by
  obtain ⟨before, after, hsplit, hinsert⟩ := @toList_insert T compare x root
  rw [hsplit, hinsert]
  exact List.perm_middle

theorem SearchTree.insert [TransCmp compare] {root : BinaryTree T} (h : SearchTree compare root) (x : T) :
    SearchTree compare (insert compare x root) := by
  induction root with
  | nil => exact ⟨nofun, nofun, trivial, trivial⟩
  | node val left right ihl ihr =>
    obtain ⟨hleft, hright, hl, hr⟩ := h
    unfold TreeBag.insert
    split_ifs with hge
    · refine ⟨hleft, fun y hy => ?_, hl, ihr hr⟩
      rcases List.mem_cons.mp ((perm_insert x right).mem_iff.mp hy) with rfl | hy
      · exact OrientedCmp.isLE_of_isGE hge
      · exact hright y hy
    · refine ⟨fun y hy => ?_, hright, ihl hl, hr⟩
      rcases List.mem_cons.mp ((perm_insert x left).mem_iff.mp hy) with rfl | hy
      · cases hcmp : compare y val <;> simp_all
      · exact hleft y hy

/-- Going down by the comparison finds an element that is equal, if there is one. -/
theorem findNode_spec [TransCmp compare] {root : BinaryTree T} (h : SearchTree compare root) (x : T) :
    (∃ y ∈ root.toList, findNode compare x root = some y ∧ compare x y = .eq) ∨
      findNode compare x root = none ∧ ∀ y ∈ root.toList, compare x y ≠ .eq := by
  induction root with
  | nil => exact Or.inr ⟨rfl, nofun⟩
  | node val left right ihl ihr =>
    obtain ⟨hleft, hright, hl, hr⟩ := h
    unfold findNode
    cases hcmp : compare x val with
    | eq => exact Or.inl ⟨val, by simp, rfl, hcmp⟩
    | gt =>
      refine (ihr hr).imp ?_ (And.imp_right fun hnone y hy => ?_)
      · rintro ⟨y, hy, hfind, heq⟩
        exact ⟨y, by simp [hy], hfind, heq⟩
      · rcases List.mem_append.mp hy with hy | hy
        · have hgt := TransCmp.gt_trans hcmp (OrientedCmp.gt_iff_lt.mpr (hleft y hy))
          rw [hgt]
          decide
        · rcases List.mem_cons.mp hy with rfl | hy
          · rw [hcmp]
            decide
          · exact hnone y hy
    | lt =>
      refine (ihl hl).imp ?_ (And.imp_right fun hnone y hy => ?_)
      · rintro ⟨y, hy, hfind, heq⟩
        exact ⟨y, by simp [hy], hfind, heq⟩
      · rcases List.mem_append.mp hy with hy | hy
        · exact hnone y hy
        · rcases List.mem_cons.mp hy with rfl | hy
          · rw [hcmp]
            decide
          · rw [TransCmp.lt_of_lt_of_isLE hcmp (hright y hy)]
            decide

theorem findNode_eq [TransCmp compare] [LawfulEqCmp compare] [DecidableEq T] {root : BinaryTree T}
    (h : SearchTree compare root) (x : T) :
    findNode compare x root = if x ∈ root.toList then some x else none := by
  rcases findNode_spec h x with ⟨y, hy, hfind, heq⟩ | ⟨hfind, hnone⟩
  · obtain rfl := LawfulEqCmp.compare_eq_iff_eq.mp heq
    rw [hfind, if_pos hy]
  · rw [hfind, if_neg fun hx => hnone x hx ReflCmp.compare_self]

/-! ## Removal -/

theorem toList_hangRight (tree : BinaryTree T) (root : BinaryTree T) :
    (hangRight tree root).toList = root.toList ++ tree.toList := by
  induction root with
  | nil => rfl
  | node val left right _ ihr => simp [hangRight, ihr]

theorem SearchTree.hangRight {tree root : BinaryTree T} (h : SearchTree compare root)
    (htree : SearchTree compare tree) (hle : ∀ x ∈ root.toList, ∀ y ∈ tree.toList, (compare x y).isLE) :
    SearchTree compare (hangRight tree root) := by
  induction root with
  | nil => exact htree
  | node val left right _ ihr =>
    obtain ⟨hleft, hright, hl, hr⟩ := h
    refine ⟨hleft, fun y hy => ?_, hl, ihr hr fun x hx => hle x (by simp [hx])⟩
    rw [toList_hangRight] at hy
    rcases List.mem_append.mp hy with hy | hy
    · exact hright y hy
    · exact hle val (by simp) y hy

theorem toList_replacement (left right : BinaryTree T) :
    (replacement left right).toList = left.toList ++ right.toList := by
  unfold replacement
  split_ifs with hleft hright
  · simp [hleft]
  · simp [hright]
  · exact toList_hangRight right left

theorem SearchTree.replacement [TransCmp compare] {val : T} {left right : BinaryTree T}
    (h : SearchTree compare (node val left right)) : SearchTree compare (replacement left right) := by
  obtain ⟨hleft, hright, hl, hr⟩ := h
  unfold TreeBag.replacement
  split_ifs
  · exact hr
  · exact hl
  · refine hl.hangRight hr fun x hx y hy => ?_
    exact TransCmp.isLE_trans (by rw [hleft x hx]; rfl) (hright y hy)

/-- The element found leaves the tree, the others keep their order. -/
theorem removeNode_split [TransCmp compare] {root : BinaryTree T} (h : SearchTree compare root) {x : T}
    (hx : ∃ y ∈ root.toList, compare x y = .eq) :
    ∃ root' ys y zs, removeNode compare x root = some root' ∧ SearchTree compare root' ∧
      root.toList = ys ++ y :: zs ∧ root'.toList = ys ++ zs ∧ compare x y = .eq := by
  induction root with
  | nil =>
    obtain ⟨y, hy, -⟩ := hx
    cases hy
  | node val left right ihl ihr =>
    have hroot := h
    obtain ⟨hleft, hright, hl, hr⟩ := h
    obtain ⟨y, hy, heq⟩ := hx
    rw [toList_node, List.mem_append, List.mem_cons] at hy
    unfold removeNode
    cases hcmp : compare x val with
    | eq =>
      have hlist := toList_replacement left right
      exact ⟨_, left.toList, val, right.toList, rfl, hroot.replacement, rfl, hlist, hcmp⟩
    | gt =>
      have hy' : y ∈ right.toList := by
        rcases hy with hy | rfl | hy
        · have hgt := TransCmp.gt_trans hcmp (OrientedCmp.gt_iff_lt.mpr (hleft y hy))
          rw [heq] at hgt
          cases hgt
        · rw [hcmp] at heq
          cases heq
        · exact hy
      obtain ⟨right', ys, z, zs, hremove, hsearch, hlist, hlist', hz⟩ := ihr hr ⟨y, hy', heq⟩
      refine ⟨node val left right', left.toList ++ val :: ys, z, zs, by simp [hremove],
        ⟨hleft, fun w hw => hright w ?_, hl, hsearch⟩, by simp [hlist], by simp [hlist'], hz⟩
      rw [hlist] at *
      rw [hlist'] at hw
      exact ((List.sublist_cons_self z zs).append_left ys).mem hw
    | lt =>
      have hy' : y ∈ left.toList := by
        rcases hy with hy | rfl | hy
        · exact hy
        · rw [hcmp] at heq
          cases heq
        · have hlt := TransCmp.lt_of_lt_of_isLE hcmp (hright y hy)
          rw [heq] at hlt
          cases hlt
      obtain ⟨left', ys, z, zs, hremove, hsearch, hlist, hlist', hz⟩ := ihl hl ⟨y, hy', heq⟩
      refine ⟨node val left' right, ys, z, zs ++ val :: right.toList, by simp [hremove],
        ⟨fun w hw => hleft w ?_, hright, hsearch, hr⟩, by simp [hlist], by simp [hlist'], hz⟩
      rw [hlist] at *
      rw [hlist'] at hw
      exact ((List.sublist_cons_self z zs).append_left ys).mem hw

/-- A present element is found, and it leaves the tree once. -/
theorem removeNode_spec [TransCmp compare] [LawfulEqCmp compare] {root : BinaryTree T}
    (h : SearchTree compare root) {x : T} (hx : x ∈ root.toList) :
    ∃ root', removeNode compare x root = some root' ∧ SearchTree compare root' ∧
      root.toList.Perm (x :: root'.toList) := by
  obtain ⟨root', ys, y, zs, hremove, hsearch, hlist, hlist', heq⟩ :=
    removeNode_split h ⟨x, hx, ReflCmp.compare_self⟩
  obtain rfl := LawfulEqCmp.compare_eq_iff_eq.mp heq
  refine ⟨root', hremove, hsearch, ?_⟩
  rw [hlist, hlist']
  exact List.perm_middle

/-- The assertion of `remove` fails when no element is equal. -/
theorem removeNode_eq_none {root : BinaryTree T} {x : T} (hx : ∀ y ∈ root.toList, compare x y ≠ .eq) :
    removeNode compare x root = none := by
  induction root with
  | nil => rfl
  | node val left right ihl ihr =>
    have hleft := ihl fun y hy => hx y (by simp [hy])
    have hright := ihr fun y hy => hx y (by simp [hy])
    have hval := hx val (by simp)
    unfold removeNode
    cases hcmp : compare x val with
    | eq => exact absurd hcmp hval
    | gt => simp [hright]
    | lt => simp [hleft]

theorem removeNode_absent [LawfulEqCmp compare] {root : BinaryTree T} {x : T} (hx : x ∉ root.toList) :
    removeNode compare x root = none := by
  refine removeNode_eq_none fun y hy heq => hx ?_
  rwa [LawfulEqCmp.compare_eq_iff_eq.mp heq]

/-! ## Iteration

The stack of the iterator is the way from its node up to the root.
-/

/-- Going down to the left-most node of a subtree. -/
theorem downLeft_spec (val : T) (left right : BinaryTree T) (s : List (Frame T)) :
    ∃ a b s', Iter.downLeft (node val left right) (position s) (position s).tails.tail = (position s').tails ∧
      unwind (node a nil b) s' = unwind (node val left right) s ∧
      a :: b.toList ++ after s' = (node val left right).toList ++ after s := by
  induction left generalizing val right s with
  | nil => exact ⟨val, right, s, (tails_eq _).symm, rfl, rfl⟩
  | node c l r ihl _ =>
    obtain ⟨a, b, s', hdown, hup, hafter⟩ := ihl c r (⟨.left, val, right⟩ :: s)
    refine ⟨a, b, s', ?_, hup, ?_⟩
    · rw [← hdown, Iter.downLeft, ← tails_eq]
      rfl
    · rw [hafter]
      simp [after]

/-- Leaving a completed subtree: the iterator has ended, or it stands on the first ancestor whose left subtree
it has left. -/
theorem upRight_spec {root t : BinaryTree T} (ht : t ≠ nil) (s : List (Frame T)) (hroot : root = unwind t s) :
    (Iter.upRight root (position s) (position s).tails.tail = [] ∧ after s = []) ∨
      ∃ a l r s', Iter.upRight root (position s) (position s).tails.tail = (position s').tails ∧
        root = unwind (node a l r) s' ∧ a :: r.toList ++ after s' = after s := by
  induction s generalizing t with
  | nil => exact Or.inl ⟨rfl, rfl⟩
  | cons f s ih =>
    obtain ⟨side, a, u⟩ := f
    have hright : root.subtree (.right :: position s) = child .right (Frame.plug ⟨side, a, u⟩ t) := by
      rw [subtree_cons, hroot, unwind_cons, subtree_unwind]
    have hunfold : Iter.upRight root (position (⟨side, a, u⟩ :: s)) (position (⟨side, a, u⟩ :: s)).tails.tail =
        if root.subtree (.right :: position s) ≠ nil ∧ .right :: position s = side :: position s then
          Iter.upRight root (position s) (position s).tails.tail
        else position s :: (position s).tails.tail := by
      show Iter.upRight root (side :: position s) (position s).tails = _
      rw [tails_eq, Iter.upRight, List.tail_cons]
    rw [hunfold, hright]
    cases side with
    | left =>
      rw [if_neg (by simp)]
      exact Or.inr ⟨a, t, u, s, (tails_eq _).symm, hroot, rfl⟩
    | right =>
      rw [if_pos ⟨ht, rfl⟩]
      have hchild : node a u t ≠ nil := nofun
      exact ih hchild hroot

/-- The test before `upRight` is the first one of its loop. -/
theorem next_of_nil {root : BinaryTree T} {top : Path} (s : List Path) (h : root.subtree (.right :: top) = nil) :
    Iter.next root (top :: s) = some (Iter.upRight root top s) := by
  simp only [Iter.next, h, ne_eq, not_true_eq_false, if_false]
  cases s with
  | nil => rfl
  | cons parent s =>
    simp only
    split_ifs with hparent
    · rfl
    · rw [Iter.upRight, if_neg]
      rintro ⟨hne, heq⟩
      exact hparent ⟨hne, heq.symm⟩

/-- `next`: the following element in in-order, or the end. -/
theorem next_spec {root : BinaryTree T} {val : T} {left right : BinaryTree T} {s : List (Frame T)}
    (hroot : root = unwind (node val left right) s) :
    (Iter.next root (position s).tails = some [] ∧ right.toList ++ after s = []) ∨
      ∃ a l r s', Iter.next root (position s).tails = some (position s').tails ∧ root = unwind (node a l r) s' ∧
        a :: r.toList ++ after s' = right.toList ++ after s := by
  have hsub : root.subtree (.right :: position s) = right := by
    rw [subtree_cons, hroot, subtree_unwind]
    rfl
  rw [tails_eq]
  cases right with
  | node c l r =>
    obtain ⟨a, b, s', hdown, hup, hafter⟩ := downLeft_spec c l r (⟨.right, val, left⟩ :: s)
    refine Or.inr ⟨a, nil, b, s', ?_, hroot.trans hup.symm, hafter⟩
    rw [← hdown]
    simp only [Iter.next, hsub, ne_eq, reduceCtorEq, not_false_eq_true, if_true]
    rw [← tails_eq]
    rfl
  | nil =>
    rw [next_of_nil _ hsub]
    have hnode : node val left nil ≠ nil := nofun
    rcases upRight_spec hnode s hroot with ⟨hend, hafter⟩ | ⟨a, l, r, s', hstop, hroot', hafter⟩
    · exact Or.inl ⟨congrArg some hend, hafter⟩
    · exact Or.inr ⟨a, l, r, s', congrArg some hstop, hroot', hafter⟩

/-- The iterator stands on the first element of the list that remains, or it has ended. -/
def IterAt (root : BinaryTree T) (rest : List T) (s : List Path) : Prop :=
  (s = [] ∧ rest = []) ∨
    ∃ a l r stack, s = (position stack).tails ∧ root = unwind (node a l r) stack ∧ a :: r.toList ++ after stack = rest

theorem start_spec (root : BinaryTree T) : IterAt root root.toList (Iter.start root) := by
  cases root with
  | nil => exact Or.inl ⟨rfl, rfl⟩
  | node val left right =>
    obtain ⟨a, b, s, hdown, hup, hafter⟩ := downLeft_spec val left right []
    refine Or.inr ⟨a, nil, b, s, hdown, hup.symm, ?_⟩
    rw [hafter]
    exact List.append_nil _

/-- Iterating over a bag gives its elements in in-order. -/
theorem items_eq (root : BinaryTree T) : (TreeBag.nodes root).items = some root.toList := by
  have hloop : ∃ r, Loop.run (Iter.turn root) (root.numNodes + 1) (Iter.start root, []) = some r ∧
      r = some root.toList := by
    refine @Loop.exists_run_of_list _ (Option (List T)) T (Iter.turn root)
      (fun rest state => IterAt root rest state.1 ∧ state.2.reverse ++ rest = root.toList)
      (fun r => r = some root.toList) ?_ ?_ (root.numNodes + 1) root.toList (Iter.start root, [])
      ⟨start_spec root, rfl⟩ ?_
    · rintro x rest ⟨s, taken⟩ ⟨⟨-, hrest⟩ | ⟨a, l, r, stack, hs, hroot, hrest⟩, htaken⟩
      · cases hrest
      simp only at hs htaken
      obtain ⟨rfl, hrest'⟩ := List.cons.inj hrest
      have htaken' : (a :: taken).reverse ++ rest = root.toList := by
        rw [List.reverse_cons, List.append_assoc]
        exact htaken
      have hitem : Iter.item root s = some a := by
        have hsub : root.subtree (position stack) = node a l r := by rw [hroot, subtree_unwind]
        rw [hs, tails_eq, Iter.item, hsub]
      have hturn : ∀ s', Iter.next root s = some s' → Iter.turn root (s, taken) = .inl (s', a :: taken) := by
        intro s' hnext
        rw [tails_eq] at hs
        rw [hs] at hitem hnext ⊢
        simp only [Iter.turn, hitem, hnext]
      rcases next_spec hroot with ⟨hend, hafter⟩ | ⟨b, l', r', stack', hnext, hroot', hafter⟩
      · refine Or.inl ⟨_, hturn [] (by rw [hs]; exact hend), Or.inl ⟨rfl, ?_⟩, htaken'⟩
        exact hrest'.symm.trans hafter
      · refine Or.inl ⟨_, hturn _ (by rw [hs]; exact hnext), Or.inr ⟨b, l', r', stack', rfl, hroot', ?_⟩, htaken'⟩
        exact hafter.trans hrest'
    · rintro ⟨s, taken⟩ ⟨⟨hs, -⟩ | ⟨a, l, r, stack, -, -, hrest⟩, htaken⟩
      · rw [List.append_nil] at htaken
        simp only at hs htaken
        refine ⟨some root.toList, ?_, rfl⟩
        rw [hs, ← htaken]
        rfl
      · cases hrest
    · rw [length_toList]
      exact Nat.lt_succ_self _
  obtain ⟨r, hrun, rfl⟩ := hloop
  show (Loop.run (Iter.turn root) (root.numNodes + 1) (Iter.start root, [])).join = some root.toList
  rw [hrun]
  rfl

/-! ## Clearing -/

/-- The elements of the trees in the queue. -/
def queued (todo : List (BinaryTree T)) : List T := todo.flatMap toList

theorem queued_append (todo todo' : List (BinaryTree T)) : queued (todo ++ todo') = queued todo ++ queued todo' :=
  List.flatMap_append

theorem nil_not_mem_child (t : BinaryTree T) : nil ∉ (if t = nil then [] else [t]) := by
  split_ifs with h
  · exact List.not_mem_nil
  · exact fun hmem => h (List.mem_singleton.mp hmem).symm

theorem queued_child (t : BinaryTree T) : queued (if t = nil then [] else [t]) = t.toList := by
  split_ifs with h
  · rw [h]
    rfl
  · exact List.append_nil _

/-- `clear` frees the node of each element once, and leaves a pointer to these nodes. -/
theorem clear_nodes {root : BinaryTree T} (hroot : root ≠ nil) :
    ∃ released, (TreeBag.nodes root).clear = some (.freed, released) ∧ released.Perm root.toList := by
  have hloop : ∃ released, Loop.run clearTurn (root.numNodes + 1) ([root], []) = some released ∧
      released.Perm root.toList := by
    refine @Loop.exists_run_eq_some _ (List T) clearTurn
      (fun n state => n = (queued state.1).length ∧ nil ∉ state.1 ∧ (state.2 ++ queued state.1).Perm root.toList)
      (fun released => released.Perm root.toList) ?_ (root.numNodes + 1) root.numNodes ([root], []) ?_ (by omega)
    · rintro n ⟨todo, released⟩ ⟨hn, hnil, hperm⟩
      cases todo with
      | nil =>
        refine Or.inr ⟨released, rfl, ?_⟩
        simpa [queued] using hperm
      | cons t todo =>
        cases t with
        | nil => simp at hnil
        | node val left right =>
          have hqueued : (queued (todo ++ (if left = nil then [] else [left]) ++
              (if right = nil then [] else [right]))).Perm (left.toList ++ right.toList ++ queued todo) := by
            rw [queued_append, queued_append, queued_child, queued_child, List.append_assoc]
            exact List.perm_append_comm
          refine Or.inl ⟨_, _, rfl, ?_, rfl, ?_, ?_⟩
          · rw [hqueued.length_eq, hn]
            simp [queued]
          · simp only [List.mem_append, not_or]
            exact ⟨⟨fun h => hnil (List.mem_cons_of_mem _ h), nil_not_mem_child left⟩, nil_not_mem_child right⟩
          · refine List.Perm.trans ?_ hperm
            simp only [List.append_assoc, List.singleton_append]
            refine List.Perm.append_left released ?_
            have hmiddle : (val :: (left.toList ++ right.toList ++ queued todo)).Perm
                (queued (node val left right :: todo)) := by
              rw [List.append_assoc]
              refine List.perm_middle.symm.trans (List.Perm.of_eq ?_)
              simp [queued]
            exact (List.Perm.cons val (by simpa using hqueued)).trans hmiddle
    · refine ⟨?_, ?_, ?_⟩
      · simp [queued, length_toList]
      · simpa using Ne.symm hroot
      · simp [queued]
  obtain ⟨released, hrun, hperm⟩ := hloop
  refine ⟨released, ?_, hperm⟩
  have hempty : (TreeBag.nodes root).isEmpty = false := by simpa [isEmpty] using hroot
  unfold clear
  simp only [hempty, Bool.false_eq_true, if_false, hrun, Option.map_some]

/-! ## Runs -/

theorem addAll_nodes [TransCmp compare] (xs : List T) {root : BinaryTree T} (h : SearchTree compare root) :
    ∃ root', addAll compare xs (.nodes root) = some (.nodes root') ∧ SearchTree compare root' ∧
      (root'.toList : Multiset T) = ↑xs + ↑root.toList := by
  induction xs generalizing root with
  | nil => exact ⟨root, rfl, h, by simp⟩
  | cons x xs ih =>
    obtain ⟨root', hadd, h', hroot'⟩ := ih (h.insert x)
    refine ⟨root', hadd, h', ?_⟩
    rw [hroot', Multiset.coe_eq_coe.mpr (perm_insert x root), ← Multiset.cons_coe, ← Multiset.cons_coe,
      Multiset.add_cons, Multiset.cons_add]

theorem clear_new : (new : TreeBag T).clear = some (new, []) := rfl

theorem clear_freed : (freed : TreeBag T).clear = none := rfl

theorem addAll_freed (xs : List T) {b : TreeBag T} (h : addAll compare xs .freed = some b) : b = .freed := by
  cases xs with
  | nil => exact (Option.some.inj h).symm
  | cons x xs => cases h

section Invariant

variable {ι : Type*}

/-- The invariant of the runs: each bag is a search tree with the elements of its multiset. -/
def State.Good (compare : T → T → Ordering) (s : State ι T) : Prop :=
  ∀ i, ∃ root, s.bags i = .nodes root ∧ SearchTree compare root ∧ ↑root.toList = s.sets i

/-- A bag points to nodes that have been freed. -/
def State.Dangling (s : State ι T) : Prop := ∃ i, s.bags i = .freed

theorem State.good_init : (State.init : State ι T).Good compare := fun _ => ⟨nil, rfl, trivial, rfl⟩

/-- A bag without elements has no nodes. -/
theorem State.Good.bag_eq_new {s : State ι T} (h : s.Good compare) {i : ι} (hi : s.sets i = 0) : s.bags i = new := by
  obtain ⟨root, hbag, -, hset⟩ := h i
  rw [hi, Multiset.coe_eq_zero, toList_eq_nil_iff] at hset
  rw [hbag, hset]
  rfl

/-- A bag with elements is not usable after it has been cleared. -/
theorem State.Good.clear_eq_freed {s : State ι T} (h : s.Good compare) {i : ι} (hi : s.sets i ≠ 0) :
    ∃ released, (s.bags i).clear = some (.freed, released) := by
  obtain ⟨root, hbag, -, hset⟩ := h i
  have hroot : root ≠ nil := by
    rintro rfl
    exact hi hset.symm
  obtain ⟨released, hclear, -⟩ := clear_nodes hroot
  exact ⟨released, by rw [hbag, hclear]⟩

theorem State.Good.update [DecidableEq ι] {s : State ι T} (h : s.Good compare) (i : ι) {root : BinaryTree T}
    {m : Multiset T} (hsearch : SearchTree compare root) (hset : ↑root.toList = m) :
    State.Good compare ⟨Function.update s.bags i (.nodes root), Function.update s.sets i m⟩ := by
  intro j
  by_cases hj : j = i
  · subst hj
    exact ⟨root, by simp, hsearch, by simpa using hset⟩
  · obtain ⟨root', hbag, hsearch', hset'⟩ := h j
    exact ⟨root', by simpa [hj] using hbag, hsearch', by simpa [hj] using hset'⟩

end Invariant

variable {ι : Type*} [DecidableEq ι] [DecidableEq T]

theorem agrees_nodes [TransCmp compare] [LawfulEqCmp compare] {root : BinaryTree T} (h : SearchTree compare root) :
    Agrees compare (.nodes root) ↑root.toList where
  searchTree := ⟨root, rfl, h⟩
  contains x := by
    simp only [contains, find, findNode_eq h, Option.map_some, Multiset.mem_coe, Option.some.injEq]
    split_ifs <;> simp_all
  find x := by
    simp only [find, findNode_eq h, Multiset.mem_coe]
  count := by
    rw [Multiset.coe_card, ← countNodes_eq]
    rfl
  isEmpty := by
    simp [isEmpty]
  items := ⟨root.toList, items_eq root, h.sorted, rfl⟩

theorem step_good [TransCmp compare] [LawfulEqCmp compare] (s : State ι T) (op : Op ι T) (h : s.Good compare)
    (hallowed : Allowed s op) : ∃ s', step compare s op = some s' ∧ s'.Good compare := by
  cases op with
  | add i x =>
    obtain ⟨root, hbag, hsearch, hset⟩ := h i
    refine ⟨⟨Function.update s.bags i (.nodes (insert compare x root)), Function.update s.sets i (x ::ₘ s.sets i)⟩,
      ?_, h.update i (hsearch.insert x) ?_⟩
    · simp only [step, call, hbag, add, Option.map_some, callSets]
    · rw [← hset, Multiset.cons_coe, Multiset.coe_eq_coe]
      exact perm_insert x root
  | remove i x =>
    obtain ⟨root, hbag, hsearch, hset⟩ := h i
    have hx : x ∈ root.toList := by
      rw [← Multiset.mem_coe, hset]
      exact hallowed
    obtain ⟨root', hremove, hsearch', hperm⟩ := removeNode_spec hsearch hx
    refine ⟨⟨Function.update s.bags i (.nodes root'), Function.update s.sets i ((s.sets i).erase x)⟩,
      ?_, h.update i hsearch' ?_⟩
    · simp only [step, call, hbag, remove, hremove, Option.map_some, callSets]
    · rw [← hset, Multiset.coe_eq_coe.mpr hperm, ← Multiset.cons_coe, Multiset.erase_cons_head]
  | clear i =>
    have hnew := h.bag_eq_new hallowed
    refine ⟨⟨Function.update s.bags i new, Function.update s.sets i 0⟩, ?_, h.update i trivial rfl⟩
    simp only [step, call, hnew, clear_new, Option.map_some, callSets]
  | copy i j =>
    have hnew := h.bag_eq_new hallowed
    have hcleared : State.Good compare ⟨Function.update s.bags i new, Function.update s.sets i 0⟩ :=
      h.update i trivial rfl
    obtain ⟨root, hbag, hsearch, hset⟩ := hcleared j
    simp only at hbag hset
    obtain ⟨root', hadd, hsearch', hroot'⟩ := @addAll_nodes T compare _ root.toList nil trivial
    refine ⟨⟨Function.update (Function.update s.bags i new) i (.nodes root'),
      Function.update (Function.update s.sets i 0) i (Function.update s.sets i 0 j)⟩, ?_,
      hcleared.update i hsearch' ?_⟩
    · have hadd' : addAll compare root.toList new = some (.nodes root') := hadd
      simp only [step, call, hnew, clear_new, Option.bind_some, hbag, items_eq, hadd', Option.map_some, callSets]
    · rw [hroot', hset]
      exact add_zero _

/-! ### After a clear of a bag with elements -/

theorem step_dangling (s : State ι T) (op : Op ι T) (s' : State ι T) (h : s.Dangling)
    (hstep : step compare s op = some s') : s'.Dangling := by
  obtain ⟨i, hi⟩ := h
  have hupdate : ∀ (bags : ι → TreeBag T) (j : ι) (b : TreeBag T), bags i = .freed → i ≠ j →
      Function.update bags j b i = .freed := by
    intro bags j b hbag hij
    rw [Function.update_of_ne hij, hbag]
  obtain ⟨bags, hcall, rfl⟩ := Option.map_eq_some_iff.mp hstep
  refine ⟨i, ?_⟩
  show bags i = .freed
  cases op with
  | add j x =>
    obtain ⟨b, hadd, rfl⟩ := Option.map_eq_some_iff.mp hcall
    refine hupdate _ _ _ hi fun hij => ?_
    rw [← hij, hi] at hadd
    cases hadd
  | remove j x =>
    obtain ⟨b, hremove, rfl⟩ := Option.map_eq_some_iff.mp hcall
    refine hupdate _ _ _ hi fun hij => ?_
    rw [← hij, hi] at hremove
    cases hremove
  | clear j =>
    obtain ⟨b, hclear, rfl⟩ := Option.map_eq_some_iff.mp hcall
    refine hupdate _ _ _ hi fun hij => ?_
    rw [← hij, hi, clear_freed] at hclear
    cases hclear
  | copy j k =>
    obtain ⟨b, hclear, hcopy⟩ := Option.bind_eq_some_iff.mp hcall
    obtain ⟨xs, -, hadd⟩ := Option.bind_eq_some_iff.mp hcopy
    obtain ⟨b', -, rfl⟩ := Option.map_eq_some_iff.mp hadd
    have hij : i ≠ j := by
      intro hij
      rw [← hij, hi, clear_freed] at hclear
      cases hclear
    exact hupdate _ _ _ (hupdate _ _ _ hi hij) hij

/-- A call that is not allowed fails, or it leaves a bag that points to freed nodes. -/
theorem step_not_allowed [LawfulEqCmp compare] (s : State ι T) (op : Op ι T) (s' : State ι T) (h : s.Good compare)
    (hnot : ¬ Allowed s op) (hstep : step compare s op = some s') : s'.Dangling := by
  obtain ⟨bags, hcall, rfl⟩ := Option.map_eq_some_iff.mp hstep
  cases op with
  | add i x => exact absurd trivial hnot
  | remove i x =>
    obtain ⟨root, hbag, -, hset⟩ := h i
    have hx : x ∉ root.toList := by
      rw [← Multiset.mem_coe, hset]
      exact hnot
    simp only [call, hbag, remove, removeNode_absent hx, Option.map_none] at hcall
    cases hcall
  | clear i =>
    obtain ⟨released, hclear⟩ := h.clear_eq_freed hnot
    simp only [call, hclear, Option.map_some, Option.some.injEq] at hcall
    exact ⟨i, by simp [← hcall]⟩
  | copy i j =>
    obtain ⟨released, hclear⟩ := h.clear_eq_freed hnot
    simp only [call, hclear, Option.bind_some] at hcall
    obtain ⟨xs, -, hadd⟩ := Option.bind_eq_some_iff.mp hcall
    obtain ⟨b, hadd', rfl⟩ := Option.map_eq_some_iff.mp hadd
    exact ⟨i, by simp [addAll_freed xs hadd']⟩

/-- In every run the bags and the multisets agree, if and only if elements are removed from bags that contain them
and no bag with elements is cleared or the receiver of a copy. -/
theorem treeBag_run_iff [TransCmp compare] [LawfulEqCmp compare] (ops : List (Op ι T)) :
    (∃ s, Run.exec (step compare) State.init ops = some s ∧ ∀ i, Agrees compare (s.bags i) (s.sets i)) ↔
      Run.Meets Allowed (step compare) (State.init : State ι T) ops := by
  constructor
  · rintro ⟨s, hexec, hagrees⟩
    refine Run.meets_of_exec (State.Good compare) State.Dangling step_good step_not_allowed step_dangling ops
      State.init s State.good_init hexec ?_
    rintro ⟨i, hi⟩
    obtain ⟨root, hroot, -⟩ := (hagrees i).searchTree
    rw [hi] at hroot
    cases hroot
  · intro hmeets
    obtain ⟨s, hexec, hgood⟩ := Run.exists_exec_of_meets (State.Good compare) step_good ops State.init
      State.good_init hmeets
    refine ⟨s, hexec, fun i => ?_⟩
    obtain ⟨root, hbag, hsearch, hset⟩ := hgood i
    rw [hbag, ← hset]
    exact agrees_nodes hsearch

/-- A run with equal elements, a removal in the middle and a copy. -/
theorem treeBag_run_iff_nat :
    ∃ s, Run.exec (step (Ord.compare : Nat → Nat → Ordering)) (State.init : State Bool Nat)
      [.add true 5, .add true 3, .add true 5, .add true 8, .remove true 5, .copy false true] = some s ∧
      ∀ i, Agrees Ord.compare (s.bags i) (s.sets i) := by
  refine (treeBag_run_iff _).mpr ?_
  decide

/-- A bag that has been cleared is not empty. -/
theorem not_treeBag_run :
    ¬ ∀ ops : List (Op Bool Nat), Run.Meets Present (step Ord.compare) State.init ops →
      ∃ s, Run.exec (step Ord.compare) State.init ops = some s ∧ ∀ i, Agrees Ord.compare (s.bags i) (s.sets i) := by
  intro hall
  obtain ⟨s, hexec, hagrees⟩ := hall [.add true 5, .clear true] (Run.meets_of_mem (by simp [Present]) _)
  obtain rfl := Option.some.inj hexec
  exact absurd (hagrees true).isEmpty (by decide)

end Elm.Data.TreeBag
