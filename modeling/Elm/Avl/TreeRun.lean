import Elm.Avl.TreeBalance

/-!
# Runs of `avl::Tree`

The nodes in in-order are increasing for `compare`: an insertion puts its node at its place, a removal takes
the node that compares equal out.  Insertions keep the balance.  A removal keeps it unless the repair of some
node on its way asks for a double rotation; the assertion that follows the single rotation then fails.
-/

namespace Elm.AVLTree

open List hiding nil
open BinaryTree Std Option

variable {T : Type*} {compare : T → T → Ordering} {x : T} {c : Cell T} {l r t : Node T}

/-! ## Order -/

/-- The nodes increase in in-order: the tree is a binary search tree without equal keys. -/
def Increasing (compare : T → T → Ordering) (t : Node T) : Prop :=
  (dataList t).Pairwise fun y z => compare y z = .lt

theorem Increasing.node (h : Increasing compare (node c l r)) :
    Increasing compare l ∧ Increasing compare r ∧ (∀ y ∈ dataList l, compare y c.data = .lt) ∧
      ∀ y ∈ dataList r, compare c.data y = .lt := by
  rw [Increasing, dataList_node] at h
  obtain ⟨hl, hcr, hlr⟩ := pairwise_append.mp h
  obtain ⟨hright, hr⟩ := pairwise_cons.mp hcr
  exact ⟨hl, hr, fun y hy => hlr y hy c.data mem_cons_self, hright⟩

/-! ## Removal -/

/-- The removal of `x` makes the tree lose a level. -/
def Shrinks (compare : T → T → Ordering) (x : T) : Node T → Prop
  | nil => False
  | node c l r =>
    match compare c.data x with
    | .lt => Shrinks compare x r ∧ Lowers l r
    | .gt => Shrinks compare x l ∧ Lowers r.mirror l.mirror
    | .eq => l = nil ∨ r = nil ∨
        if height r < height l then ShrinksGreatest l else ShrinksLeast r ∧ height l < height r

/-- No node on the way of the removal of `x` needs a double rotation: where a subtree loses a level and its
sibling is the higher one, the sibling does not lean towards it. -/
def Fits (compare : T → T → Ordering) (x : T) : Node T → Prop
  | nil => True
  | node c l r =>
    match compare c.data x with
    | .lt => Fits compare x r ∧ Repairs (Shrinks compare x r) l r
    | .gt => Fits compare x l ∧ Repairs (Shrinks compare x l) r.mirror l.mirror
    | .eq => l = nil ∨ r = nil ∨ if height r < height l then FitsGreatest l else FitsLeast r

instance decidableShrinks (compare : T → T → Ordering) (x : T) :
    (t : Node T) → Decidable (Shrinks compare x t)
  | nil => .isFalse id
  | node c l r => by
    have := decidableShrinks compare x l
    have := decidableShrinks compare x r
    unfold Shrinks
    cases compare c.data x <;> infer_instance

instance decidableFits (compare : T → T → Ordering) (x : T) : (t : Node T) → Decidable (Fits compare x t)
  | nil => .isTrue trivial
  | node c l r => by
    have := decidableFits compare x l
    have := decidableFits compare x r
    unfold Fits
    cases compare c.data x <;> infer_instance

/-- Checking a node before and after its height is computed is one check. -/
theorem assertBalanced_twice (t : Node T) :
    (assertBalanced t).bind (fun root => assertBalanced (computeHeight root)) =
      assertBalanced (computeHeight t) := by
  cases ht : assertBalanced t with
  | none => rw [assertBalanced_computeHeight, ht, bind_none, map_none]
  | some u =>
    obtain rfl := eq_of_assertBalanced ht
    rfl

theorem removedRight_eq (c : Cell T) (l r : Node T) :
    ((if 2 ≤ height l - height r then rotateSingleLeft (node c l r) else some (node c l r)).bind
      assertBalanced).bind (fun root => assertBalanced (computeHeight root)) = removedRight c l r := by
  unfold removedRight
  split_ifs with hdiff
  · cases l with
    | nil => rfl
    | node d a b =>
      rw [rotateSingleLeft, bind_some, assertBalanced_twice,
        computeHeight_computeHeight]
  · exact assertBalanced_twice (node c l r)

theorem removedLeft_eq (c : Cell T) (l r : Node T) :
    ((if 2 ≤ height r - height l then rotateSingleRight (node c l r) else some (node c l r)).bind
      assertBalanced).bind (fun root => assertBalanced (computeHeight root)) = removedLeft c l r := by
  unfold removedLeft
  split_ifs with hdiff
  · cases r with
    | nil => cases l <;> rfl
    | node d a b =>
      rw [rotateSingleRight, bind_some, assertBalanced_twice,
        computeHeight_computeHeight]
  · exact assertBalanced_twice (node c l r)

/-- The list `zs` is `ys` without the element that compares equal to `x`. -/
def RemovedFrom (compare : T → T → Ordering) (x : T) (ys zs : List T) : Prop :=
  ∃ before y after, ys = before ++ y :: after ∧ zs = before ++ after ∧ compare y x = .eq

theorem RemovedFrom.append_right {ys zs : List T} (h : RemovedFrom compare x ys zs) (ws : List T) :
    RemovedFrom compare x (ys ++ ws) (zs ++ ws) := by
  obtain ⟨before, y, after, rfl, rfl, hy⟩ := h
  exact ⟨before, y, after ++ ws, by simp, by simp, hy⟩

theorem RemovedFrom.append_left {ys zs : List T} (h : RemovedFrom compare x ys zs) (ws : List T) :
    RemovedFrom compare x (ws ++ ys) (ws ++ zs) := by
  obtain ⟨before, y, after, rfl, rfl, hy⟩ := h
  exact ⟨ws ++ before, y, after, by simp, by simp, hy⟩

/-- What takes the place of the node that is found. -/
theorem removeFound_spec (hl : Balanced l) (hr : Balanced r) (hlo : -1 ≤ height l - height r)
    (hhi : height l - height r ≤ 1) :
    ((l = nil ∨ r = nil ∨ if height r < height l then FitsGreatest l else FitsLeast r) →
      ∃ t, removeFound l r = some t ∧ Balanced (computeHeight t) ∧
        dataList t = dataList l ++ dataList r ∧
        Loses (l = nil ∨ r = nil ∨
            if height r < height l then ShrinksGreatest l else ShrinksLeast r ∧ height l < height r)
          (max (height l) (height r) + 1) (height (computeHeight t))) ∧
    (¬ (l = nil ∨ r = nil ∨ if height r < height l then FitsGreatest l else FitsLeast r) →
      removeFound l r = none) := by
  have hl0 := hl.height_nonneg
  have hr0 := hr.height_nonneg
  unfold removeFound
  by_cases hlnil : l = nil
  · subst hlnil
    rw [if_pos rfl]
    refine ⟨fun _ => ⟨r, rfl, ?_, by simp, Or.inl ⟨Or.inl rfl, ?_⟩⟩, fun h => absurd (Or.inl rfl) h⟩
    · rwa [hr.computeHeight_eq]
    · rw [hr.computeHeight_eq, height_nil]
      omega
  by_cases hrnil : r = nil
  · subst hrnil
    rw [if_neg hlnil, if_pos rfl]
    refine ⟨fun _ => ⟨l, rfl, ?_, by simp, Or.inl ⟨Or.inr (Or.inl rfl), ?_⟩⟩,
      fun h => absurd (Or.inr (Or.inl rfl)) h⟩
    · rwa [hl.computeHeight_eq]
    · rw [hl.computeHeight_eq, height_nil]
      omega
  rw [if_neg hlnil, if_neg hrnil]
  by_cases hhigher : height r < height l
  · obtain ⟨hok, hbad⟩ := removeGreatest_spec hl hlnil
    simp only [if_pos hhigher, hlnil, hrnil, false_or]
    constructor
    · intro hfits
      obtain ⟨l', res, hremove, hl', hdata, hloses⟩ := hok hfits
      have hdiff : -1 ≤ height l' - height r ∧ height l' - height r ≤ 1 := by
        rcases hloses with ⟨-, hless⟩ | ⟨-, hsame⟩
        · omega
        · omega
      have hassert : height l' - height r < 2 := by omega
      refine ⟨node res l' r, ?_, balanced_computeHeight hl' hr hdiff.1 hdiff.2, by simp [hdata], ?_⟩
      · rw [hremove, bind_some, if_pos hassert]
      · rw [computeHeight_node, height_node]
        rcases hloses with ⟨hshrinks, hless⟩ | ⟨hshrinks, hsame⟩
        · exact Or.inl ⟨hshrinks, by simp only; omega⟩
        · exact Or.inr ⟨hshrinks, by simp only; omega⟩
    · intro hfits
      rw [hbad hfits, bind_none]
  · obtain ⟨hok, hbad⟩ := removeLeast_spec hr hrnil
    simp only [if_neg hhigher, hlnil, hrnil, false_or]
    constructor
    · intro hfits
      obtain ⟨r', res, hremove, hr', hdata, hloses⟩ := hok hfits
      have hdiff : -1 ≤ height l - height r' ∧ height l - height r' ≤ 1 := by
        rcases hloses with ⟨-, hless⟩ | ⟨-, hsame⟩
        · omega
        · omega
      have hassert : height l - height r' < 2 := by omega
      refine ⟨node res l r', ?_, balanced_computeHeight hl hr' hdiff.1 hdiff.2, by simp [hdata], ?_⟩
      · rw [hremove, bind_some, if_pos hassert]
      · rw [computeHeight_node, height_node]
        rcases hloses with ⟨hshrinks, hless⟩ | ⟨hshrinks, hsame⟩
        · by_cases hlower : height l < height r
          · exact Or.inl ⟨⟨hshrinks, hlower⟩, by simp only; omega⟩
          · exact Or.inr ⟨fun h => hlower h.2, by simp only; omega⟩
        · exact Or.inr ⟨fun h => hshrinks h.1, by simp only; omega⟩
    · intro hfits
      rw [hbad hfits, bind_none]

/-- The node that is looked for is on the side that `compare` says. -/
theorem mem_side [TransCmp compare] (hinc : Increasing compare (node c l r)) {y : T}
    (hy : y ∈ dataList (node c l r)) (heq : compare y x = .eq) :
    (compare c.data x = .lt → y ∈ dataList r) ∧ (compare c.data x = .gt → y ∈ dataList l) := by
  obtain ⟨-, -, hleft, hright⟩ := hinc.node
  have hsame : compare c.data y = compare c.data x := TransCmp.congr_right heq
  rw [dataList_node, mem_append, mem_cons] at hy
  rcases hy with hy | rfl | hy
  · have hgt : compare c.data y = .gt := OrientedCmp.gt_iff_lt.mpr (hleft y hy)
    rw [← hsame, hgt]
    exact ⟨nofun, fun _ => hy⟩
  · rw [heq]
    exact ⟨nofun, nofun⟩
  · rw [← hsame, hright y hy]
    exact ⟨fun _ => hy, nofun⟩

/-- The removal of a present node succeeds exactly if no node on its way needs a double rotation. -/
theorem remove_spec [TransCmp compare] (h : Balanced t) (hinc : Increasing compare t)
    (hpresent : ∃ y ∈ dataList t, compare y x = .eq) :
    (Fits compare x t → ∃ t', remove compare x t = some t' ∧ Balanced t' ∧
      RemovedFrom compare x (dataList t) (dataList t') ∧
      Loses (Shrinks compare x t) (height t) (height t')) ∧
    (¬ Fits compare x t → remove compare x t = none) := by
  induction t with
  | nil =>
    obtain ⟨y, hy, -⟩ := hpresent
    cases hy
  | node c l r ihl ihr =>
    have hassert := h.assertBalanced_eq
    obtain ⟨hc, hlo, hhi, hl, hr⟩ := h
    obtain ⟨hincl, hincr, -⟩ := hinc.node
    obtain ⟨y, hy, heq⟩ := hpresent
    obtain ⟨hyr, hyl⟩ := mem_side hinc hy heq
    rw [remove, hassert, bind_some, Fits, Shrinks, height_node, hc, dataList_node]
    cases hcompare : compare c.data x with
    | lt =>
      obtain ⟨hok, hbad⟩ := ihr hr hincr ⟨y, hyr hcompare, heq⟩
      simp only
      by_cases hfits : Fits compare x r
      · obtain ⟨r', hremove, hr', hdata, hloses⟩ := hok hfits
        obtain ⟨hdone, hcrash⟩ := @removedRight_spec T c l r r' _ hl hr' hlo hhi hloses
        rw [hremove, bind_some, removedRight_eq]
        constructor
        · rintro ⟨-, hrepairs⟩
          obtain ⟨t', hremoved, ht', htdata, hheight⟩ := hdone hrepairs
          refine ⟨t', hremoved, ht', ?_, hheight⟩
          rw [htdata]
          simpa using hdata.append_left (dataList l ++ [c.data])
        · exact fun hnot => hcrash fun hrepairs => hnot ⟨hfits, hrepairs⟩
      · refine ⟨fun h => absurd h.1 hfits, fun _ => ?_⟩
        rw [hbad hfits, bind_none, bind_none]
    | gt =>
      obtain ⟨hok, hbad⟩ := ihl hl hincl ⟨y, hyl hcompare, heq⟩
      simp only
      by_cases hfits : Fits compare x l
      · obtain ⟨l', hremove, hl', hdata, hloses⟩ := hok hfits
        obtain ⟨hdone, hcrash⟩ := @removedLeft_spec T c l r l' _ hl' hr hlo hhi hloses
        rw [hremove, bind_some, removedLeft_eq]
        constructor
        · rintro ⟨-, hrepairs⟩
          obtain ⟨t', hremoved, ht', htdata, hheight⟩ := hdone hrepairs
          refine ⟨t', hremoved, ht', ?_, hheight⟩
          rw [htdata]
          exact hdata.append_right (c.data :: dataList r)
        · exact fun hnot => hcrash fun hrepairs => hnot ⟨hfits, hrepairs⟩
      · refine ⟨fun h => absurd h.1 hfits, fun _ => ?_⟩
        rw [hbad hfits, bind_none, bind_none]
    | eq =>
      obtain ⟨hok, hbad⟩ := removeFound_spec hl hr hlo hhi
      simp only
      constructor
      · intro hfits
        obtain ⟨t', hfound, ht', hdata, hloses⟩ := hok hfits
        refine ⟨computeHeight t', ?_, ht', ?_, hloses⟩
        · rw [hfound, bind_some, ht'.assertBalanced_eq]
        · rw [dataList_computeHeight, hdata]
          exact ⟨dataList l, c.data, dataList r, rfl, rfl, hcompare⟩
      · intro hfits
        rw [hbad hfits, bind_none]

/-! ## Runs -/

/-- A call that modifies the tree. -/
inductive Op (T : Type*) where
  | insert (x : T)
  | remove (x : T)

/-- The tree after a call. -/
def call (compare : T → T → Ordering) (t : Node T) : Op T → Option (Node T)
  | .insert x => insert compare x t
  | .remove x => remove compare x t

/-- The nodes inserted and not removed after a call. -/
def Op.apply (compare : T → T → Ordering) (m : List T) : Op T → List T
  | .insert x => x :: m
  | .remove x => m.filter fun y => compare y x ≠ .eq

/-- The contract of a call: no inserted node has the key of one of the tree, and removed nodes are
present. -/
def Allowed (compare : T → T → Ordering) (m : List T) : Op T → Prop
  | .insert x => ∀ y ∈ m, compare y x ≠ .eq
  | .remove x => ∃ y ∈ m, compare y x = .eq

/-- A removal needs no double rotation. -/
def FitsOp (compare : T → T → Ordering) (t : Node T) : Op T → Prop
  | .insert _ => True
  | .remove x => Fits compare x t

instance (compare : T → T → Ordering) (m : List T) (op : Op T) : Decidable (Allowed compare m op) := by
  cases op <;> unfold Allowed <;> infer_instance

instance (compare : T → T → Ordering) (t : Node T) (op : Op T) : Decidable (FitsOp compare t op) := by
  cases op <;> unfold FitsOp <;> infer_instance

/-- A call on the tree, and its effect on the nodes inserted and not removed. -/
def stepBoth (compare : T → T → Ordering) (s : Node T × List T) (op : Op T) : Option (Node T × List T) :=
  (call compare s.1 op).map fun t => (t, op.apply compare s.2)

/-- The tree is balanced and increasing, and its nodes are those of the list. -/
structure Invariant (compare : T → T → Ordering) (s : Node T × List T) : Prop where
  balanced : Balanced s.1
  increasing : Increasing compare s.1
  perm : (dataList s.1).Perm s.2

theorem InsertedIn.perm {ys zs : List T} (h : InsertedIn compare x ys zs) : zs.Perm (x :: ys) := by
  obtain ⟨before, after, rfl, rfl, -⟩ := h
  exact perm_middle

theorem InsertedIn.pairwise {ys zs : List T} (h : InsertedIn compare x ys zs)
    (hys : ys.Pairwise fun y z => compare y z = .lt) : zs.Pairwise fun y z => compare y z = .lt := by
  obtain ⟨before, after, rfl, rfl, hplace⟩ := h
  obtain ⟨hbefore, hafter⟩ := hplace hys
  obtain ⟨hb, ha, hba⟩ := pairwise_append.mp hys
  refine pairwise_append.mpr ⟨hb, pairwise_cons.mpr ⟨hafter, ha⟩, fun y hy z hz => ?_⟩
  rcases mem_cons.mp hz with rfl | hz
  · exact hbefore y hy
  · exact hba y hy z hz

/-- In an increasing list, one element compares equal to `x`. -/
theorem RemovedFrom.eq_filter [TransCmp compare] {ys zs : List T} (h : RemovedFrom compare x ys zs)
    (hys : ys.Pairwise fun y z => compare y z = .lt) :
    zs = ys.filter fun y => compare y x ≠ .eq := by
  obtain ⟨before, y, after, rfl, rfl, hy⟩ := h
  obtain ⟨-, hlater, hbefore⟩ := pairwise_append.mp hys
  obtain ⟨hafter, -⟩ := pairwise_cons.mp hlater
  have hb : ∀ z ∈ before, compare z x ≠ .eq := by
    intro z hz
    have hsame : compare z y = compare z x := TransCmp.congr_right hy
    rw [← hsame, hbefore z hz y mem_cons_self]
    decide
  have ha : ∀ z ∈ after, compare z x ≠ .eq := by
    intro z hz
    have hgt : compare z y = .gt := OrientedCmp.gt_iff_lt.mpr (hafter z hz)
    have hsame : compare z y = compare z x := TransCmp.congr_right hy
    rw [← hsame, hgt]
    decide
  rw [filter_append, filter_cons_of_neg (by simp [hy]),
    filter_eq_self.mpr fun z hz => by simpa using hb z hz,
    filter_eq_self.mpr fun z hz => by simpa using ha z hz]

/-- An allowed call keeps the invariant if no removal needs a double rotation, and fails an assertion
otherwise. -/
theorem step_spec [TransCmp compare] {s : Node T × List T} {op : Op T} (h : Invariant compare s)
    (hop : Allowed compare s.2 op) :
    (FitsOp compare s.1 op → ∃ s', stepBoth compare s op = some s' ∧ Invariant compare s') ∧
      (¬ FitsOp compare s.1 op → stepBoth compare s op = none) := by
  cases op with
  | insert x =>
    refine ⟨fun _ => ?_, fun h => absurd trivial h⟩
    obtain ⟨t', hinsert, hbalanced, hplace, -⟩ := insert_spec h.balanced
      fun y hy => hop y (h.perm.mem_iff.mp hy)
    refine ⟨(t', x :: s.2), by simp [stepBoth, call, hinsert, Op.apply], hbalanced, ?_, ?_⟩
    · exact hplace.pairwise h.increasing
    · exact hplace.perm.trans (h.perm.cons x)
  | remove x =>
    obtain ⟨y, hy, heq⟩ := hop
    obtain ⟨hok, hbad⟩ := remove_spec h.balanced h.increasing ⟨y, h.perm.mem_iff.mpr hy, heq⟩
    constructor
    · intro hfits
      obtain ⟨t', hremove, hbalanced, hdata, -⟩ := hok hfits
      have hfilter := hdata.eq_filter h.increasing
      refine ⟨(t', Op.apply compare s.2 (.remove x)), ?_, hbalanced, ?_, ?_⟩
      · simp only [stepBoth, call, hremove, map_some]
      · rw [Increasing, hfilter]
        exact List.Pairwise.filter _ h.increasing
      · rw [hfilter]
        exact h.perm.filter _
    · intro hfits
      simp [stepBoth, call, hbad hfits]

/-- The height kept in each node is one plus the greater height of its two subtrees, which differ by one at
most. -/
def HeightsExact : Node T → Prop
  | nil => True
  | node c l r => c.h = max (l.height : Int) r.height + 1 ∧ |(l.height : Int) - r.height| ≤ 1 ∧
      HeightsExact l ∧ HeightsExact r

theorem Balanced.height_eq (h : Balanced t) : height t = t.height := by
  induction t with
  | nil => rfl
  | node c l r ihl ihr =>
    obtain ⟨hc, -, -, hl, hr⟩ := h
    rw [height_node, hc, ihl hl, ihr hr, BinaryTree.height]
    push_cast
    rfl

theorem Balanced.heightsExact (h : Balanced t) : HeightsExact t := by
  induction t with
  | nil => trivial
  | node c l r ihl ihr =>
    obtain ⟨hc, hlo, hhi, hl, hr⟩ := h
    rw [hl.height_eq, hr.height_eq] at hc hlo hhi
    exact ⟨hc, abs_le.mpr ⟨hlo, hhi⟩, ihl hl, ihr hr⟩

/-- A run of insertions of nodes with new keys and removals of present nodes passes all the assertions
exactly if none of its removals needs a double rotation; then the tree is a search tree of the nodes
inserted and not removed, with exact heights, in balance. -/
theorem tree_run_iff [TransCmp compare] (ops : List (Op T))
    (hops : Run.Meets (fun s op => Allowed compare s.2 op) (stepBoth compare) (nil, []) ops) :
    ((∃ s, Run.exec (stepBoth compare) (nil, []) ops = some s) ↔
      Run.Meets (fun s op => FitsOp compare s.1 op) (stepBoth compare) (nil, []) ops) ∧
    ∀ t m, Run.exec (stepBoth compare) (nil, []) ops = some (t, m) →
      (dataList t).Pairwise (fun y z => compare y z = .lt) ∧ (dataList t).Perm m ∧ HeightsExact t := by
  have hstart : Invariant compare ((nil, []) : Node T × List T) :=
    ⟨trivial, List.Pairwise.nil, Perm.refl _⟩
  have hgood : ∀ (s : Node T × List T) (op : Op T), Invariant compare s →
      Allowed compare s.2 op ∧ FitsOp compare s.1 op →
      ∃ s', stepBoth compare s op = some s' ∧ Invariant compare s' :=
    fun s op hs hop => (step_spec hs hop.1).1 hop.2
  have hmeets : ∀ s, Run.exec (stepBoth compare) (nil, []) ops = some s →
      Run.Meets (fun s op => FitsOp compare s.1 op) (stepBoth compare) (nil, []) ops := by
    intro s hs
    exact Run.meets_of_exec_eq_some (Invariant compare) hgood
      (fun s op hinv hop => (step_spec hinv hop).2) ops _ s hstart hops hs
  have hruns : Run.Meets (fun s op => FitsOp compare s.1 op) (stepBoth compare) (nil, []) ops →
      ∃ s, Run.exec (stepBoth compare) (nil, []) ops = some s ∧ Invariant compare s :=
    fun hfits => Run.exists_exec_of_meets (Invariant compare) hgood ops _ hstart (hops.and hfits)
  refine ⟨⟨fun ⟨s, hs⟩ => hmeets s hs, fun hfits => ?_⟩, fun t m hexec => ?_⟩
  · obtain ⟨s, hs, -⟩ := hruns hfits
    exact ⟨s, hs⟩
  · obtain ⟨s, hs, hinv⟩ := hruns (hmeets _ hexec)
    obtain rfl := some.inj (hs.symm.trans hexec)
    exact ⟨hinv.increasing, hinv.perm, hinv.balanced.heightsExact⟩

/-- Four insertions, one of them with a double rotation, and a removal with a single rotation. -/
theorem tree_run_iff_nat :
    ∃ t m, Run.exec (stepBoth (@Ord.compare Nat _)) (nil, [])
        [.insert 3, .insert 1, .insert 2, .insert 0, .remove 3] = some (t, m) ∧
      (dataList t).Pairwise (fun y z => Ord.compare y z = .lt) ∧ (dataList t).Perm m ∧ HeightsExact t := by
  obtain ⟨hiff, hall⟩ := @tree_run_iff Nat Ord.compare _
    [.insert 3, .insert 1, .insert 2, .insert 0, .remove 3] (by decide)
  obtain ⟨⟨t, m⟩, hs⟩ := hiff.mpr (by decide)
  exact ⟨t, m, hs, hall t m hs⟩

/-- The left child of the root leans inward when the right one is removed: after the single rotation the
assertion fails. -/
theorem not_tree_run :
    Run.Meets (fun s op => Allowed Ord.compare s.2 op) (stepBoth (@Ord.compare Nat _)) (nil, [])
        [.insert 3, .insert 1, .insert 4, .insert 2, .remove 4] ∧
      Run.exec (stepBoth (@Ord.compare Nat _)) (nil, [])
        [.insert 3, .insert 1, .insert 4, .insert 2, .remove 4] = none := by
  decide

end Elm.AVLTree
