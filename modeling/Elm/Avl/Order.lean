import Elm.Avl.Balance

/-!
# Contents and order of `avl::GenTree`

The data of a tree in in-order do not depend on the rotations, so each operation is described by
what it does to that list, cut at the place where the traversal stack stops.  The binary search
tree property is that the list is strictly increasing for the comparator.
-/

namespace Elm.Avl

open BinaryTree Std

variable {T K : Type*}

/-- The data in in-order. -/
def dataList (n : Node T) : List T := n.toList.map Cell.data

/-- The data that precede and follow the hole of a stack. -/
def dataBefore (s : Stack T) : List T := (before s).map Cell.data

@[inherit_doc dataBefore]
def dataAfter (s : Stack T) : List T := (after s).map Cell.data

@[simp] theorem dataList_nil : dataList (nil : Node T) = [] := rfl

@[simp] theorem dataList_node (c : Cell T) (l r : Node T) :
    dataList (node c l r) = dataList l ++ c.data :: dataList r := by
  simp [dataList]

@[simp] theorem dataBefore_nil : dataBefore ([] : Stack T) = [] := rfl

@[simp] theorem dataAfter_nil : dataAfter ([] : Stack T) = [] := rfl

@[simp] theorem dataBefore_left (c : Cell T) (u : Node T) (s : Stack T) :
    dataBefore (⟨.left, c, u⟩ :: s) = dataBefore s := rfl

@[simp] theorem dataBefore_right (c : Cell T) (u : Node T) (s : Stack T) :
    dataBefore (⟨.right, c, u⟩ :: s) = dataBefore s ++ (dataList u ++ [c.data]) := by
  simp [dataBefore, before, dataList]

@[simp] theorem dataAfter_left (c : Cell T) (u : Node T) (s : Stack T) :
    dataAfter (⟨.left, c, u⟩ :: s) = c.data :: dataList u ++ dataAfter s := by
  simp [dataAfter, after, dataList]

@[simp] theorem dataAfter_right (c : Cell T) (u : Node T) (s : Stack T) :
    dataAfter (⟨.right, c, u⟩ :: s) = dataAfter s := rfl

theorem dataBefore_append (s s' : Stack T) :
    dataBefore (s ++ s') = dataBefore s' ++ dataBefore s := by
  simp [dataBefore, before_append]

theorem dataAfter_append (s s' : Stack T) :
    dataAfter (s ++ s') = dataAfter s ++ dataAfter s' := by
  simp [dataAfter, after_append]

theorem dataList_unwind (n : Node T) (s : Stack T) :
    dataList (unwind n s) = dataBefore s ++ dataList n ++ dataAfter s := by
  simp [dataList, dataBefore, dataAfter, toList_unwind]

theorem length_dataList (n : Node T) : (dataList n).length = n.numNodes := by
  simp [dataList, length_toList]

/-! ## The rebalancing loops keep the data -/

@[simp] theorem dataList_rotateRight (n : Node T) : dataList (rotateRight n) = dataList n := by
  match n with
  | nil => rfl
  | node c nil r => rfl
  | node c (node d a b) r => simp [rotateRight]

@[simp] theorem dataList_rotateLeft (n : Node T) : dataList (rotateLeft n) = dataList n := by
  match n with
  | nil => rfl
  | node c l nil => rfl
  | node c l (node d a b) => simp [rotateLeft]

@[simp] theorem dataList_rotateLeftChild (n : Node T) :
    dataList (rotateLeftChild n) = dataList n := by
  cases n <;> simp [rotateLeftChild]

@[simp] theorem dataList_rotateRightChild (n : Node T) :
    dataList (rotateRightChild n) = dataList n := by
  cases n <;> simp [rotateRightChild]

theorem dataList_insertLoop (n : Node T) (s : Stack T) :
    dataList (insertLoop n s) = dataBefore s ++ dataList n ++ dataAfter s := by
  induction s generalizing n with
  | nil => simp [insertLoop]
  | cons f s ih =>
    obtain ⟨side, c, u⟩ := f
    cases side with
    | left =>
      simp only [insertLoop_left]
      split_ifs <;> simp [ih, dataList_unwind]
    | right =>
      simp only [insertLoop_right]
      split_ifs <;> simp [ih, dataList_unwind]

theorem dataList_removeLoop (n : Node T) (s : Stack T) :
    dataList (removeLoop n s) = dataBefore s ++ dataList n ++ dataAfter s := by
  induction s generalizing n with
  | nil => simp [removeLoop]
  | cons f s ih =>
    obtain ⟨side, c, u⟩ := f
    cases side with
    | left =>
      simp only [removeLoop_left]
      split_ifs <;> simp [ih, dataList_unwind]
    | right =>
      simp only [removeLoop_right]
      split_ifs <;> simp [ih, dataList_unwind]

/-! ## The leftmost node -/

/-- `leftMost` only adds left turns and stops at a node without left child. -/
theorem leftMost_spec (s : Stack T) (c : Cell T) (l r : Node T) :
    ∃ p pr above, leftMost s (node c l r) = (node p nil pr, above ++ s) ∧
      unwind (node p nil pr) above = node c l r ∧ dataBefore above = [] := by
  induction l generalizing c r s with
  | nil => exact ⟨c, r, [], rfl, rfl, rfl⟩
  | node d a b iha _ =>
    obtain ⟨p, pr, above, heq, hup, hbefore⟩ := iha (⟨.left, c, r⟩ :: s) d b
    refine ⟨p, pr, above ++ [⟨.left, c, r⟩], ?_, ?_, ?_⟩
    · simpa [leftMost] using heq
    · rw [unwind_append, hup]
      rfl
    · simp [dataBefore_append, hbefore]

/-! ## Removal of a found node -/

/-- Removing a node keeps the other data in their order. -/
theorem dataList_removeNode (t : GenTree T) (s : Stack T) (c : Cell T) (l r : Node T) :
    dataList (t.removeNode s (node c l r)).root =
      dataBefore s ++ (dataList l ++ dataList r) ++ dataAfter s := by
  match l, r with
  | nil, r => simp [GenTree.removeNode, GenTree.unlink, dataList_removeLoop]
  | node d a b, nil => simp [GenTree.removeNode, GenTree.unlink, dataList_removeLoop]
  | node d a b, node e x y =>
    obtain ⟨p, pr, above, heq, hup, hbefore⟩ := leftMost_spec [] e x y
    have hdata : dataList (node e x y) = p.data :: dataList pr ++ dataAfter above := by
      rw [← hup, dataList_unwind, hbefore]
      simp
    simp only [GenTree.removeNode, heq, GenTree.unlink, dataList_removeLoop, List.append_nil,
      dataBefore_append, dataAfter_append, hbefore, exchange, dataBefore_right,
      dataAfter_right, hdata]
    simp

/-- Removing a node of a balanced tree leaves a balanced tree. -/
theorem balanced_removeNode (t : GenTree T) (s : Stack T) (c : Cell T) (l r : Node T)
    (h : Balanced (unwind (node c l r) s)) :
    Balanced (t.removeNode s (node c l r)).root := by
  obtain ⟨hn, hs⟩ := balanced_unwind_iff.mp h
  obtain ⟨hc, hlo, hhi, hl, hr⟩ := (balanced_node c l r).mp hn
  match l, r with
  | nil, r =>
    refine removeLoop_balanced (h := height r) hr rfl ?_
    simpa using hs
  | node d a b, nil =>
    refine removeLoop_balanced (h := height (node d a b)) hl rfl ?_
    simpa using hs
  | node d a b, node e x y =>
    obtain ⟨p, pr, above, heq, hup, -⟩ := leftMost_spec [] e x y
    simp only [GenTree.removeNode, heq, GenTree.unlink, List.append_nil]
    -- the tree before the unlinking, with the data of the two nodes exchanged
    have hwhole : Balanced (unwind (node p nil pr)
        (above ++ ⟨.right, (exchange p c).2, node d a b⟩ :: s)) := by
      rw [unwind_append, hup, unwind_cons, Frame.plug_right]
      exact balanced_unwind (h := height (node c (node d a b) (node e x y)))
        ⟨hc, hlo, hhi, hl, hr⟩ rfl hs
    obtain ⟨hp, hstack⟩ := balanced_unwind_iff.mp hwhole
    refine removeLoop_balanced (h := height pr) hp.2.2.2.2 rfl ?_
    simpa using hstack

theorem cnt_removeNode (t : GenTree T) (s : Stack T) (c : Cell T) (l r : Node T) :
    (t.removeNode s (node c l r)).cnt = t.cnt - 1 := by
  match l, r with
  | nil, r => rfl
  | node d a b, nil => rfl
  | node d a b, node e x y =>
    obtain ⟨p, pr, above, heq, -, -⟩ := leftMost_spec [] e x y
    simp [GenTree.removeNode, heq, GenTree.unlink]

/-! ## Lookups -/

section Keyed

variable (A : Adapter T K)

/-- The data of a list have strictly increasing keys. -/
def Increasing (xs : List T) : Prop :=
  xs.Pairwise fun x y => A.compare (A.key x) (A.key y) = .lt

/-- What a lookup of `key` knows about the data around its stack. -/
def Around (key : K) (xs ys : List T) : Prop :=
  (∀ x ∈ xs, A.compare (A.key x) key = .lt) ∧ ∀ y ∈ ys, A.compare key (A.key y) = .lt

variable {A}

/-- In an increasing list the neighbours of an element compare with it as their side says. -/
theorem Increasing.around_middle {xs ys : List T} {x : T} (h : Increasing A (xs ++ x :: ys)) :
    Around A (A.key x) xs ys := by
  obtain ⟨-, hright, hcross⟩ := List.pairwise_append.mp h
  exact ⟨fun y hy => hcross y hy x (by simp), (List.pairwise_cons.mp hright).1⟩

/-- An element between the two parts of an increasing list keeps it increasing. -/
theorem Increasing.insert_middle [TransCmp A.compare] {xs ys : List T} {x : T}
    (h : Increasing A (xs ++ ys)) (haround : Around A (A.key x) xs ys) :
    Increasing A (xs ++ x :: ys) := by
  obtain ⟨hxs, hys, hcross⟩ := List.pairwise_append.mp h
  refine List.pairwise_append.mpr ⟨hxs, List.pairwise_cons.mpr ⟨haround.2, hys⟩, ?_⟩
  intro y hy z hz
  rcases List.mem_cons.mp hz with rfl | hz
  · exact haround.1 y hy
  · exact hcross y hy z hz

theorem Increasing.remove_middle {xs zs : List T} (ys : List T)
    (h : Increasing A (xs ++ ys ++ zs)) : Increasing A (xs ++ zs) := by
  refine List.Pairwise.sublist ?_ h
  simp

/-- A lookup stops at a node with an equal key, or at the place where such a node would be. -/
theorem lookup_spec [TransCmp A.compare] {key : K} {n : Node T} {s : Stack T}
    (hinc : Increasing A (dataList (unwind n s)))
    (haround : Around A key (dataBefore s) (dataAfter s)) :
    ∃ m s', lookup A key n s = (m, s') ∧ unwind m s' = unwind n s ∧
      Around A key (dataBefore s') (dataAfter s') ∧
      ∀ c l r, m = node c l r → A.compare key (A.key c.data) = .eq := by
  induction n generalizing s with
  | nil => exact ⟨nil, s, rfl, rfl, haround, nofun⟩
  | node c l r ihl ihr =>
    have hmid : Around A (A.key c.data) (dataBefore s ++ dataList l)
        (dataList r ++ dataAfter s) := by
      apply Increasing.around_middle
      simpa [dataList_unwind] using hinc
    obtain ⟨hbefore, hafter⟩ := haround
    cases hcmp : A.compare key (A.key c.data) with
    | eq =>
      refine ⟨node c l r, s, by simp [lookup, hcmp], rfl, ⟨hbefore, hafter⟩, ?_⟩
      rintro d a b ⟨rfl, rfl, rfl⟩
      exact hcmp
    | lt =>
      -- the key is below `c`, hence below all that follows `c`
      have haround' : Around A key (dataBefore (⟨.left, c, r⟩ :: s))
          (dataAfter (⟨.left, c, r⟩ :: s)) := by
        refine ⟨hbefore, ?_⟩
        intro y hy
        rw [dataAfter_left, List.cons_append] at hy
        rcases List.mem_cons.mp hy with rfl | hy
        · exact hcmp
        · exact TransCmp.lt_trans hcmp (hmid.2 y hy)
      obtain ⟨m, s', heq, hup, hrest⟩ := ihl (s := ⟨.left, c, r⟩ :: s) hinc haround'
      exact ⟨m, s', by simpa [lookup, hcmp] using heq, hup, hrest⟩
    | gt =>
      have hcmp' : A.compare (A.key c.data) key = .lt := OrientedCmp.lt_of_gt hcmp
      have haround' : Around A key (dataBefore (⟨.right, c, l⟩ :: s))
          (dataAfter (⟨.right, c, l⟩ :: s)) := by
        refine ⟨?_, hafter⟩
        intro y hy
        rw [dataBefore_right, ← List.append_assoc] at hy
        rcases List.mem_append.mp hy with hy | hy
        · exact TransCmp.lt_trans (hmid.1 y hy) hcmp'
        · exact List.mem_singleton.mp hy ▸ hcmp'
      obtain ⟨m, s', heq, hup, hrest⟩ := ihr (s := ⟨.right, c, l⟩ :: s) hinc haround'
      exact ⟨m, s', by simpa [lookup, hcmp] using heq, hup, hrest⟩

/-! ## The invariant of a tree -/

variable (A)

/-- The invariant of `src/avl_GenTree.cpp`: a binary search tree without equal keys, balanced, and
whose counter is its number of nodes. -/
structure GenTree.Invariant (t : GenTree T) : Prop where
  increasing : Increasing A (dataList t.root)
  balanced : Balanced t.root
  cnt_eq : t.cnt = t.root.numNodes

theorem GenTree.invariant_empty : (GenTree.empty : GenTree T).Invariant A :=
  ⟨List.Pairwise.nil, trivial, rfl⟩

variable {A}

/-- The lookup that starts each operation. -/
theorem GenTree.Invariant.lookup_root [TransCmp A.compare] {t : GenTree T} (h : t.Invariant A)
    (key : K) :
    ∃ m s, lookup A key t.root [] = (m, s) ∧ unwind m s = t.root ∧
      Around A key (dataBefore s) (dataAfter s) ∧
      ∀ c l r, m = node c l r → A.compare key (A.key c.data) = .eq :=
  lookup_spec (s := []) h.increasing ⟨nofun, nofun⟩

/-- The new leaf is linked at the place of the lookup. -/
theorem root_add {t : GenTree T} {item : T} {s : Stack T} (h : lookup A (A.key item) t.root [] = (nil, s)) :
    (t.add A item).root = insertLoop (Node.new item) s := by
  simp only [GenTree.add, h, GenTree.insert]
  cases hr : t.root with
  | node _ _ _ => rfl
  | nil =>
    simp only [hr, lookup, Prod.mk.injEq] at h
    rw [← h.2]
    rfl

/-- `add` of a key that is not there puts the item at its place and keeps the invariant; `add` of a
key that is there changes nothing. -/
theorem GenTree.Invariant.add_spec [TransCmp A.compare] {t : GenTree T} (h : t.Invariant A)
    (item : T) :
    (t.add A item).Invariant A ∧
      ((∃ xs ys, dataList t.root = xs ++ ys ∧ Around A (A.key item) xs ys ∧
          dataList (t.add A item).root = xs ++ item :: ys) ∨
        ((∃ x ∈ dataList t.root, A.compare (A.key item) (A.key x) = .eq) ∧ t.add A item = t)) := by
  obtain ⟨m, s, heq, hup, haround, hkey⟩ := h.lookup_root (A.key item)
  cases m with
  | node c l r =>
    have hadd : t.add A item = t := by simp [GenTree.add, heq]
    rw [hadd]
    refine ⟨h, Or.inr ⟨⟨c.data, ?_, hkey c l r rfl⟩, rfl⟩⟩
    rw [← hup, dataList_unwind]
    simp
  | nil =>
    have hlist : dataList t.root = dataBefore s ++ dataAfter s := by
      rw [← hup, dataList_unwind]
      simp
    have hcnt : (t.add A item).cnt = t.cnt + 1 := by
      simp only [GenTree.add, heq, GenTree.insert]
      cases t.root <;> rfl
    have hnew : dataList (t.add A item).root = dataBefore s ++ item :: dataAfter s := by
      rw [root_add heq, dataList_insertLoop]
      simp [Node.new]
    refine ⟨⟨?_, ?_, ?_⟩, Or.inl ⟨_, _, hlist, haround, hnew⟩⟩
    · rw [hnew]
      exact Increasing.insert_middle (hlist ▸ h.increasing) haround
    · rw [root_add heq]
      have hstack := (balanced_unwind_iff.mp (hup ▸ h.balanced)).2
      refine insertLoop_balanced (h := 0) ?_ rfl (Or.inr rfl) hstack
      simp [Node.new]
    · rw [hcnt, h.cnt_eq, ← length_dataList, ← length_dataList, hnew, hlist]
      simp only [List.length_append, List.length_cons]
      omega

/-- `removeByKey` of a key that is there takes its item out and keeps the invariant; of a key that
is not there, it changes nothing. -/
theorem GenTree.Invariant.removeByKey_spec [TransCmp A.compare] {t : GenTree T}
    (h : t.Invariant A) (key : K) :
    (t.removeByKey A key).Invariant A ∧
      ((∃ xs x ys, dataList t.root = xs ++ x :: ys ∧ A.compare key (A.key x) = .eq ∧
          dataList (t.removeByKey A key).root = xs ++ ys) ∨
        ((∀ x ∈ dataList t.root, A.compare key (A.key x) ≠ .eq) ∧ t.removeByKey A key = t)) := by
  obtain ⟨m, s, heq, hup, haround, hkey⟩ := h.lookup_root key
  cases m with
  | nil =>
    have hrem : t.removeByKey A key = t := by simp [GenTree.removeByKey, heq]
    rw [hrem]
    refine ⟨h, Or.inr ⟨?_, rfl⟩⟩
    intro x hx
    rw [← hup, dataList_unwind, dataList_nil, List.append_nil] at hx
    rcases List.mem_append.mp hx with hx | hx
    · rw [OrientedCmp.gt_of_lt (haround.1 x hx)]
      decide
    · rw [haround.2 x hx]
      decide
  | node c l r =>
    have hrem : t.removeByKey A key = t.removeNode s (node c l r) := by
      simp [GenTree.removeByKey, heq]
    have hlist : dataList t.root =
        (dataBefore s ++ dataList l) ++ c.data :: (dataList r ++ dataAfter s) := by
      rw [← hup, dataList_unwind]
      simp
    have hnew : dataList (t.removeByKey A key).root =
        (dataBefore s ++ dataList l) ++ (dataList r ++ dataAfter s) := by
      rw [hrem, dataList_removeNode]
      simp
    refine ⟨⟨?_, ?_, ?_⟩, Or.inl ⟨_, _, _, hlist, hkey c l r rfl, hnew⟩⟩
    · rw [hnew]
      apply Increasing.remove_middle [c.data]
      simpa [hlist] using h.increasing
    · rw [hrem]
      exact balanced_removeNode t s c l r (hup ▸ h.balanced)
    · rw [hrem, cnt_removeNode, ← hrem, h.cnt_eq, ← length_dataList, ← length_dataList, hnew,
        hlist]
      simp only [List.length_append, List.length_cons]
      omega

end Keyed

end Elm.Avl
