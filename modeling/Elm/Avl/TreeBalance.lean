import Elm.Avl.Tree

/-!
# Balance of `avl::Tree`

The heights kept in the nodes decide everything that the functions of the tree do.  `Balanced` says that they
are exact and that siblings differ by one level at most.  An insertion repairs a node with a single or a
double rotation; a removal only has single rotations, which repair a node unless the child on the high side
leans inward.
-/

namespace Elm.AVLTree

open List hiding nil
open BinaryTree Std Option

variable {T : Type*} {c d : Cell T} {a b l r t : Node T}

/-! ## Data and heights -/

/-- The data in in-order. -/
def dataList (t : Node T) : List T := t.toList.map Cell.data

@[simp] theorem dataList_nil : dataList (nil : Node T) = [] := rfl

@[simp] theorem dataList_node (c : Cell T) (l r : Node T) :
    dataList (node c l r) = dataList l ++ c.data :: dataList r := by
  simp [dataList]

@[simp] theorem dataList_mirror (t : Node T) : dataList t.mirror = (dataList t).reverse := by
  simp [dataList]

@[simp] theorem dataList_computeHeight (t : Node T) : dataList (computeHeight t) = dataList t := by
  cases t with
  | nil => rfl
  | node c l r => simp [computeHeight]

/-- The height kept in each node is one more than that of its higher child, and the heights of its children
differ by one at most. -/
def Balanced : Node T → Prop
  | nil => True
  | node c l r =>
    c.h = max (height l) (height r) + 1 ∧ -1 ≤ height l - height r ∧ height l - height r ≤ 1 ∧
      Balanced l ∧ Balanced r

theorem balanced_node : Balanced (node c l r) ↔
    c.h = max (height l) (height r) + 1 ∧ -1 ≤ height l - height r ∧ height l - height r ≤ 1 ∧
      Balanced l ∧ Balanced r :=
  Iff.rfl

@[simp] theorem height_nil : height (nil : Node T) = 0 := rfl

@[simp] theorem height_node (c : Cell T) (l r : Node T) : height (node c l r) = c.h := rfl

theorem Balanced.height_nonneg (h : Balanced t) : 0 ≤ height t := by
  induction t with
  | nil => exact Int.le_refl 0
  | node c l r ihl ihr =>
    obtain ⟨hc, -, -, hl, hr⟩ := h
    have := ihl hl
    rw [height_node]
    omega

theorem Balanced.mirror (h : Balanced t) : Balanced t.mirror := by
  induction t with
  | nil => trivial
  | node c l r ihl ihr =>
    obtain ⟨hc, hlo, hhi, hl, hr⟩ := h
    rw [mirror_node, balanced_node, height_mirror, height_mirror]
    exact ⟨by omega, by omega, by omega, ihr hr, ihl hl⟩

theorem computeHeight_node (c : Cell T) (l r : Node T) :
    computeHeight (node c l r) = node { c with h := max (height l) (height r) + 1 } l r := by
  rw [computeHeight]
  congr 2
  split_ifs <;> omega

@[simp] theorem computeHeight_computeHeight (t : Node T) :
    computeHeight (computeHeight t) = computeHeight t := by
  cases t with
  | nil => rfl
  | node c l r => rw [computeHeight_node, computeHeight_node]

theorem Balanced.computeHeight_eq (h : Balanced t) : computeHeight t = t := by
  cases t with
  | nil => rfl
  | node c l r => rw [computeHeight_node, ← h.1]

theorem abs_lt_two_iff {m n : Int} : |m - n| < 2 ↔ -1 ≤ m - n ∧ m - n ≤ 1 := by
  rw [abs_lt]
  omega

theorem Balanced.assertBalanced_eq (h : Balanced t) : assertBalanced t = some t := by
  cases t with
  | nil => rfl
  | node c l r => exact if_pos (abs_lt_two_iff.mpr ⟨h.2.1, h.2.2.1⟩)

theorem eq_of_assertBalanced {u : Node T} (h : assertBalanced t = some u) : u = t := by
  cases t with
  | nil => exact (some.inj h).symm
  | node c l r =>
    rw [assertBalanced] at h
    split_ifs at h
    exact (some.inj h).symm

/-- The assertion does not read the height of the node itself. -/
theorem assertBalanced_computeHeight (t : Node T) :
    assertBalanced (computeHeight t) = (assertBalanced t).map computeHeight := by
  cases t with
  | nil => rfl
  | node c l r =>
    rw [computeHeight_node, assertBalanced, assertBalanced]
    split_ifs
    · rw [map_some, computeHeight_node]
    · rfl

theorem balanced_computeHeight (hl : Balanced l) (hr : Balanced r) (hlo : -1 ≤ height l - height r)
    (hhi : height l - height r ≤ 1) : Balanced (computeHeight (node c l r)) := by
  rw [computeHeight_node]
  exact ⟨rfl, hlo, hhi, hl, hr⟩

/-- The assertion fails on a node with a child two levels higher than the other one. -/
theorem assertBalanced_eq_none (h : 2 ≤ height l - height r ∨ 2 ≤ height r - height l) :
    assertBalanced (node c l r) = none := by
  refine if_neg ?_
  rw [abs_lt_two_iff]
  omega

/-! ## Rotations -/

/-- The right subtree is the higher one: inward for a left child, outward for a right child. -/
def LeansRight : Node T → Prop
  | nil => False
  | node _ a b => height a < height b

/-- The left subtree is the higher one. -/
def LeansLeft (t : Node T) : Prop := LeansRight t.mirror

instance : (t : Node T) → Decidable (LeansRight t)
  | nil => .isFalse id
  | node _ a b => inferInstanceAs (Decidable (height a < height b))

instance (t : Node T) : Decidable (LeansLeft t) := inferInstanceAs (Decidable (LeansRight t.mirror))

@[simp] theorem leansRight_node : LeansRight (node c a b) ↔ height a < height b := Iff.rfl

@[simp] theorem leansLeft_node : LeansLeft (node c a b) ↔ height b < height a := by
  simp [LeansLeft]

/-- A single rotation brings a left child that is two levels too high back into balance, unless it leans to
the right: then the new root is out of balance on the other side. -/
theorem rotateSingleLeft_spec (hl : Balanced l) (hr : Balanced r) (hdiff : height l - height r = 2) :
    ∃ t, rotateSingleLeft (node c l r) = some t ∧ dataList t = dataList l ++ c.data :: dataList r ∧
      (LeansRight l → assertBalanced t = none) ∧
      (¬ LeansRight l → Balanced t ∧
        (LeansLeft l ∧ height t = height l ∨ ¬ LeansLeft l ∧ height t = height l + 1)) := by
  cases l with
  | nil =>
    have := hr.height_nonneg
    simp only [height_nil] at hdiff
    omega
  | node d a b =>
    obtain ⟨hd, hlo, hhi, ha, hb⟩ := hl
    simp only [height_node] at hdiff
    refine ⟨_, rfl, by simp, ?_, ?_⟩
    · intro hlean
      rw [leansRight_node] at hlean
      rw [computeHeight_node, computeHeight_node]
      refine assertBalanced_eq_none (Or.inr ?_)
      simp only [height_node]
      omega
    · intro hlean
      rw [leansRight_node] at hlean
      rw [computeHeight_node, computeHeight_node, leansLeft_node]
      simp only [balanced_node, height_node, ha, hb, hr, true_and, and_true]
      omega

/-- A double rotation repairs a left child that leans to the right. -/
theorem rotateDoubleLeft_spec (hl : Balanced (node d a b)) (hr : Balanced r) (hdiff : d.h - height r = 2)
    (hlean : LeansRight (node d a b)) :
    ∃ t, rotateDoubleLeft (node c (node d a b) r) = some t ∧
      dataList t = dataList (node d a b) ++ c.data :: dataList r ∧ Balanced t ∧ height t = d.h := by
  obtain ⟨hd, hlo, hhi, ha, hb⟩ := hl
  rw [leansRight_node] at hlean
  cases b with
  | nil =>
    have := ha.height_nonneg
    simp only [height_nil] at hlean
    omega
  | node e x y =>
    obtain ⟨he, helo, hehi, hx, hy⟩ := hb
    simp only [height_node] at *
    refine ⟨_, rfl, by simp [computeHeight_node], ?_, ?_⟩
    · simp only [computeHeight_node, balanced_node, height_node, ha, hx, hy, hr, true_and, and_true]
      omega
    · simp only [computeHeight_node, height_node]
      omega

/-! ## Insertion -/

/-- The root leans to the side where the new node is. -/
def Grown (compare : T → T → Ordering) (x : T) : Node T → Prop
  | nil => False
  | node d a b =>
    compare d.data x = .gt ∧ height b < height a ∨ compare d.data x = .lt ∧ height a < height b

theorem grown_mirror (compare : T → T → Ordering) (x : T) (t : Node T) :
    Grown (fun y z => (compare y z).swap) x t.mirror ↔ Grown compare x t := by
  cases t with
  | nil => rfl
  | node d a b => simp [Grown, or_comm]

section Insert

variable {compare : T → T → Ordering} {x : T}

/-- After an insertion to the left, which has added one level to the left subtree at most. -/
theorem insertedLeft_spec (hl : Balanced l) (hr : Balanced r) (hlo : -1 ≤ height l - height r)
    (hhi : height l - height r ≤ 2) (hgrown : height l - height r = 2 → Grown compare x l) :
    ∃ t, insertedLeft compare x c l r = some t ∧ Balanced t ∧
      dataList t = dataList l ++ c.data :: dataList r ∧
      (height l - height r = 2 → height t = height l) ∧
      (height l - height r ≠ 2 → t = computeHeight (node c l r)) := by
  unfold insertedLeft
  by_cases hdiff : height l - height r = 2
  · have hif : 2 ≤ height l - height r := by omega
    have hgrown' := hgrown hdiff
    rw [if_pos hif]
    cases l with
    | nil => cases hgrown'
    | node d a b =>
      rcases hgrown' with ⟨hgt, hlean⟩ | ⟨hlt, hlean⟩
      · -- the new node is below the outer grandchild
        obtain ⟨t, hrotate, hdata, -, hok⟩ := @rotateSingleLeft_spec _ c _ _ hl hr hdiff
        have hout : ¬ LeansRight (node d a b) := by
          rw [leansRight_node]
          omega
        obtain ⟨ht, hheight⟩ := hok hout
        have htop : height t = height (node d a b) := by
          rw [leansLeft_node] at hheight
          omega
        refine ⟨t, ?_, ht, hdata, fun _ => htop, fun hne => absurd hdiff hne⟩
        simp [hgt, hrotate, ht.computeHeight_eq, ht.assertBalanced_eq]
      · -- below the inner one
        obtain ⟨t, hrotate, hdata, ht, htop⟩ := @rotateDoubleLeft_spec _ c _ _ _ _ hl hr hdiff hlean
        refine ⟨t, ?_, ht, hdata, fun _ => htop, fun hne => absurd hdiff hne⟩
        simp [hlt, hrotate, ht.computeHeight_eq, ht.assertBalanced_eq]
  · have hif : ¬ 2 ≤ height l - height r := by omega
    have ht := balanced_computeHeight (c := c) hl hr hlo (by omega)
    rw [if_neg hif, bind_some]
    exact ⟨_, ht.assertBalanced_eq, ht, by simp, fun heq => absurd heq hdiff, fun _ => rfl⟩

/-- A level is added at most; where one is added to a tree that was not empty, the root leans to the side of
the new node. -/
def Grew (compare : T → T → Ordering) (x : T) (t t' : Node T) : Prop :=
  height t' = height t ∨ height t' = height t + 1 ∧ (t = nil ∨ Grown compare x t')

theorem grew_mirror (compare : T → T → Ordering) (x : T) (t t' : Node T) :
    Grew (fun y z => (compare y z).swap) x t.mirror t'.mirror ↔ Grew compare x t t' := by
  rw [Grew, Grew, height_mirror, height_mirror, mirror_eq_nil_iff, grown_mirror]

/-- After an insertion to the left of a node of exact height. -/
theorem insertedLeft_grew {l' : Node T} (h : Balanced (node c l r)) (hl' : Balanced l')
    (hgrew : Grew compare x l l') (hcompare : compare c.data x = .gt) :
    ∃ t, insertedLeft compare x c l' r = some t ∧ Balanced t ∧
      dataList t = dataList l' ++ c.data :: dataList r ∧ Grew compare x (node c l r) t := by
  obtain ⟨hc, hlo, hhi, hl, hr⟩ := h
  have hl0 := hl.height_nonneg
  have hr0 := hr.height_nonneg
  have hbounds : height l ≤ height l' ∧ height l' ≤ height l + 1 := by
    rcases hgrew with hsame | ⟨hmore, -⟩
    · omega
    · omega
  have hgrown : height l' - height r = 2 → Grown compare x l' := by
    intro hdiff
    rcases hgrew with hsame | ⟨hmore, rfl | hgrown⟩
    · omega
    · rw [height_nil] at hmore
      omega
    · exact hgrown
  obtain ⟨t, hend, ht, hdata, htwo, hone⟩ :=
    @insertedLeft_spec T c l' r compare x hl' hr (by omega) (by omega) hgrown
  refine ⟨t, hend, ht, hdata, ?_⟩
  unfold Grew
  rw [height_node, hc]
  by_cases hdiff : height l' - height r = 2
  · left
    rw [htwo hdiff]
    omega
  · rw [hone hdiff, computeHeight_node, height_node]
    by_cases hhigher : max (height l) (height r) < height l'
    · right
      have hlean : height r < height l' := by omega
      exact ⟨by simp only; omega, Or.inr (Or.inl ⟨hcompare, hlean⟩)⟩
    · left
      simp only
      omega

theorem insertedRight_grew {r' : Node T} (h : Balanced (node c l r)) (hr' : Balanced r')
    (hgrew : Grew compare x r r') (hcompare : compare c.data x = .lt) :
    ∃ t, insertedRight compare x c l r' = some t ∧ Balanced t ∧
      dataList t = dataList l ++ c.data :: dataList r' ∧ Grew compare x (node c l r) t := by
  obtain ⟨t, hend, ht, hdata, hgrows⟩ :=
    @insertedLeft_grew T c r.mirror l.mirror (fun y z => (compare y z).swap) x r'.mirror h.mirror hr'.mirror
      ((grew_mirror compare x r r').mpr hgrew) (by simp [hcompare])
  have hmirror := insertedRight_mirror compare x c r'.mirror l.mirror
  rw [mirror_mirror, mirror_mirror, hend, map_some] at hmirror
  refine ⟨t.mirror, hmirror, ht.mirror, by simp [hdata], ?_⟩
  rw [← grew_mirror, mirror_mirror]
  exact hgrows

/-- The list `zs` is `ys` with `x` added, at its place if `ys` is increasing. -/
def InsertedIn (compare : T → T → Ordering) (x : T) (ys zs : List T) : Prop :=
  ∃ before after, ys = before ++ after ∧ zs = before ++ x :: after ∧
    (ys.Pairwise (fun y z => compare y z = .lt) →
      (∀ y ∈ before, compare y x = .lt) ∧ ∀ y ∈ after, compare x y = .lt)

theorem InsertedIn.append_right [TransCmp compare] {ys zs : List T} (h : InsertedIn compare x ys zs) {y : T}
    (hy : compare y x = .gt) (ws : List T) : InsertedIn compare x (ys ++ y :: ws) (zs ++ y :: ws) := by
  obtain ⟨before, after, rfl, rfl, hplace⟩ := h
  refine ⟨before, after ++ y :: ws, by simp, by simp, fun hinc => ?_⟩
  obtain ⟨hold, hlater, -⟩ := pairwise_append.mp hinc
  obtain ⟨hws, -⟩ := pairwise_cons.mp hlater
  obtain ⟨hbefore, hafter⟩ := hplace hold
  have hxy : compare x y = .lt := OrientedCmp.gt_iff_lt.mp hy
  refine ⟨hbefore, fun z hz => ?_⟩
  rcases mem_append.mp hz with hz | hz
  · exact hafter z hz
  · rcases mem_cons.mp hz with rfl | hz
    · exact hxy
    · exact TransCmp.lt_trans hxy (hws z hz)

theorem InsertedIn.append_left [TransCmp compare] {ys zs : List T} (h : InsertedIn compare x ys zs) {y : T}
    (hy : compare y x = .lt) (ws : List T) : InsertedIn compare x (ws ++ y :: ys) (ws ++ y :: zs) := by
  obtain ⟨before, after, rfl, rfl, hplace⟩ := h
  refine ⟨ws ++ y :: before, after, by simp, by simp, fun hinc => ?_⟩
  obtain ⟨-, hlater, hws⟩ := pairwise_append.mp hinc
  obtain ⟨-, hold⟩ := pairwise_cons.mp hlater
  obtain ⟨hbefore, hafter⟩ := hplace hold
  refine ⟨fun z hz => ?_, hafter⟩
  rcases mem_append.mp hz with hz | hz
  · exact TransCmp.lt_trans (hws z hz y mem_cons_self) hy
  · rcases mem_cons.mp hz with rfl | hz
    · exact hy
    · exact hbefore z hz

/-- An insertion of a new key succeeds. -/
theorem insert_spec [TransCmp compare] (h : Balanced t) (hnew : ∀ y ∈ dataList t, compare y x ≠ .eq) :
    ∃ t', insert compare x t = some t' ∧ Balanced t' ∧ InsertedIn compare x (dataList t) (dataList t') ∧
      Grew compare x t t' := by
  induction t with
  | nil =>
    refine ⟨_, rfl, by simp [Balanced], ?_, Or.inr ⟨rfl, Or.inl rfl⟩⟩
    exact ⟨[], [], rfl, rfl, fun _ => by simp⟩
  | node c l r ihl ihr =>
    rw [insert]
    cases hcompare : compare c.data x with
    | eq => exact absurd hcompare (hnew c.data (by simp))
    | gt =>
      obtain ⟨l', hinsert, hl', hplace, hgrew⟩ := ihl h.2.2.2.1 fun y hy => hnew y (by simp [hy])
      obtain ⟨t', hend, ht', hdata, hgrows⟩ := insertedLeft_grew h hl' hgrew hcompare
      refine ⟨t', by simp [hinsert, hend], ht', ?_, hgrows⟩
      rw [hdata, dataList_node]
      exact hplace.append_right hcompare (dataList r)
    | lt =>
      obtain ⟨r', hinsert, hr', hplace, hgrew⟩ := ihr h.2.2.2.2 fun y hy => hnew y (by simp [hy])
      obtain ⟨t', hend, ht', hdata, hgrows⟩ := insertedRight_grew h hr' hgrew hcompare
      refine ⟨t', by simp [hinsert, hend], ht', ?_, hgrows⟩
      rw [hdata, dataList_node]
      exact hplace.append_left hcompare (dataList l)

end Insert

/-! ## Removal of an extreme node -/

/-- A level that is lost in the right subtree is lost by the whole tree. -/
def Lowers (l r : Node T) : Prop :=
  height l < height r ∨ height r < height l ∧ LeansLeft l

instance (l r : Node T) : Decidable (Lowers l r) :=
  inferInstanceAs (Decidable (height l < height r ∨ height r < height l ∧ LeansLeft l))

/-- When the right subtree loses a level and the left one was higher, the left one does not lean inward. -/
def Repairs (shrinks : Prop) (l r : Node T) : Prop :=
  shrinks → height r < height l → ¬ LeansRight l

instance {p : Prop} [Decidable p] (l r : Node T) : Decidable (Repairs p l r) :=
  inferInstanceAs (Decidable (p → height r < height l → ¬ LeansRight l))

/-- The height after an operation that may have lost a level. -/
def Loses (shrinks : Prop) (before after : Int) : Prop :=
  shrinks ∧ after = before - 1 ∨ ¬ shrinks ∧ after = before

theorem loses_congr {p q : Prop} {m n : Int} (h : p ↔ q) : Loses p m n ↔ Loses q m n := by
  rw [Loses, Loses, h]

/-- After a removal from the right subtree: the node is repaired exactly if the left child does not lean
inward where a rotation is needed. -/
theorem removedRight_spec {r' : Node T} {shrinks : Prop} (hl : Balanced l) (hr' : Balanced r')
    (hlo : -1 ≤ height l - height r) (hhi : height l - height r ≤ 1)
    (hloses : Loses shrinks (height r) (height r')) :
    (Repairs shrinks l r → ∃ t, removedRight c l r' = some t ∧ Balanced t ∧
      dataList t = dataList l ++ c.data :: dataList r' ∧
      Loses (shrinks ∧ Lowers l r) (max (height l) (height r) + 1) (height t)) ∧
    (¬ Repairs shrinks l r → removedRight c l r' = none) := by
  unfold removedRight
  by_cases hdiff : height l - height r' = 2
  · -- a rotation is needed
    have hshrinks : shrinks := by
      rcases hloses with ⟨hshrinks, -⟩ | ⟨-, hsame⟩
      · exact hshrinks
      · omega
    have hheight : height r' = height r - 1 := by
      rcases hloses with ⟨-, hless⟩ | ⟨hnot, -⟩
      · exact hless
      · exact absurd hshrinks hnot
    have hhigher : height r < height l := by omega
    have hrepairs : Repairs shrinks l r ↔ ¬ LeansRight l :=
      ⟨fun h => h hshrinks hhigher, fun h _ _ => h⟩
    obtain ⟨t, hrotate, hdata, hbad, hok⟩ := @rotateSingleLeft_spec _ c _ _ hl hr' hdiff
    rw [if_pos (by omega), hrotate, bind_some, hrepairs, not_not]
    refine ⟨fun hlean => ?_, hbad⟩
    obtain ⟨ht, htop⟩ := hok hlean
    refine ⟨t, ht.assertBalanced_eq, ht, hdata, ?_⟩
    have hlowers : shrinks ∧ Lowers l r ↔ LeansLeft l := by
      simp only [hshrinks, true_and, Lowers, hhigher]
      exact or_iff_right (by omega)
    rw [loses_congr hlowers]
    rcases htop with ⟨hleft, htop⟩ | ⟨hleft, htop⟩
    · exact Or.inl ⟨hleft, by omega⟩
    · exact Or.inr ⟨hleft, by omega⟩
  · have hrepairs : Repairs shrinks l r := by
      intro hshrinks hhigher
      rcases hloses with ⟨-, hless⟩ | ⟨hnot, -⟩
      · omega
      · exact absurd hshrinks hnot
    have hlo' : -1 ≤ height l - height r' := by
      rcases hloses with ⟨-, hless⟩ | ⟨-, hsame⟩
      · omega
      · omega
    have hhi' : height l - height r' ≤ 1 := by
      rcases hloses with ⟨-, hless⟩ | ⟨-, hsame⟩
      · omega
      · omega
    have ht := balanced_computeHeight (c := c) hl hr' hlo' hhi'
    rw [if_neg (by omega), bind_some]
    refine ⟨fun _ => ⟨_, ht.assertBalanced_eq, ht, by simp, ?_⟩, fun h => absurd hrepairs h⟩
    rw [computeHeight_node, height_node]
    simp only
    rcases hloses with ⟨hshrinks, hless⟩ | ⟨hnot, hsame⟩
    · by_cases hlower : height l < height r
      · exact Or.inl ⟨⟨hshrinks, Or.inl hlower⟩, by omega⟩
      · refine Or.inr ⟨?_, by omega⟩
        rintro ⟨-, hless' | ⟨hhigher, -⟩⟩
        · exact hlower hless'
        · omega
    · exact Or.inr ⟨fun h => hnot h.1, by omega⟩

theorem removedLeft_spec {l' : Node T} {shrinks : Prop} (hl' : Balanced l') (hr : Balanced r)
    (hlo : -1 ≤ height l - height r) (hhi : height l - height r ≤ 1)
    (hloses : Loses shrinks (height l) (height l')) :
    (Repairs shrinks r.mirror l.mirror → ∃ t, removedLeft c l' r = some t ∧ Balanced t ∧
      dataList t = dataList l' ++ c.data :: dataList r ∧
      Loses (shrinks ∧ Lowers r.mirror l.mirror) (max (height l) (height r) + 1) (height t)) ∧
    (¬ Repairs shrinks r.mirror l.mirror → removedLeft c l' r = none) := by
  obtain ⟨hok, hbad⟩ := @removedRight_spec T c r.mirror l.mirror l'.mirror shrinks hr.mirror hl'.mirror
    (by rw [height_mirror, height_mirror]; omega) (by rw [height_mirror, height_mirror]; omega)
    (by simpa using hloses)
  have hmirror := removedLeft_mirror c r.mirror l'.mirror
  rw [mirror_mirror, mirror_mirror] at hmirror
  rw [hmirror]
  constructor
  · intro hrepairs
    obtain ⟨t, hremoved, ht, hdata, hheight⟩ := hok hrepairs
    refine ⟨t.mirror, by rw [hremoved, map_some], ht.mirror, by simp [hdata], ?_⟩
    simpa [max_comm] using hheight
  · intro hrepairs
    rw [hbad hrepairs, map_none]

/-- The removal of the greatest node makes the tree lose a level. -/
def ShrinksGreatest : Node T → Prop
  | nil => False
  | node _ l r => r = nil ∨ ShrinksGreatest r ∧ Lowers l r

/-- No node on the way to the greatest one needs a double rotation. -/
def FitsGreatest : Node T → Prop
  | nil => True
  | node _ l r => FitsGreatest r ∧ Repairs (ShrinksGreatest r) l r

instance decidableShrinksGreatest : (t : Node T) → Decidable (ShrinksGreatest t)
  | nil => .isFalse id
  | node _ l r =>
    have := decidableShrinksGreatest r
    inferInstanceAs (Decidable (r = nil ∨ ShrinksGreatest r ∧ Lowers l r))

instance decidableFitsGreatest : (t : Node T) → Decidable (FitsGreatest t)
  | nil => .isTrue trivial
  | node _ l r =>
    have := decidableFitsGreatest r
    inferInstanceAs (Decidable (FitsGreatest r ∧ Repairs (ShrinksGreatest r) l r))

/-- The removal of the least node makes the tree lose a level. -/
def ShrinksLeast (t : Node T) : Prop := ShrinksGreatest t.mirror

/-- No node on the way to the least one needs a double rotation. -/
def FitsLeast (t : Node T) : Prop := FitsGreatest t.mirror

instance (t : Node T) : Decidable (ShrinksLeast t) := decidableShrinksGreatest t.mirror

instance (t : Node T) : Decidable (FitsLeast t) := decidableFitsGreatest t.mirror

theorem removeGreatest_spec (h : Balanced t) (hne : t ≠ nil) :
    (FitsGreatest t → ∃ t' res, removeGreatest t = some (t', res) ∧ Balanced t' ∧
      dataList t = dataList t' ++ [res.data] ∧ Loses (ShrinksGreatest t) (height t) (height t')) ∧
    (¬ FitsGreatest t → removeGreatest t = none) := by
  induction t with
  | nil => exact absurd rfl hne
  | node c l r _ ihr =>
    obtain ⟨hc, hlo, hhi, hl, hr⟩ := h
    rw [removeGreatest, FitsGreatest, ShrinksGreatest, height_node, hc]
    by_cases hnil : r = nil
    · subst hnil
      have hl0 := hl.height_nonneg
      rw [if_pos rfl, hl.assertBalanced_eq]
      refine ⟨fun _ => ⟨l, c, rfl, hl, by simp, Or.inl ⟨Or.inl rfl, ?_⟩⟩, fun h => ?_⟩
      · rw [height_nil]
        omega
      · exact absurd ⟨trivial, fun hshrinks => hshrinks.elim⟩ h
    · obtain ⟨hok, hbad⟩ := ihr hr hnil
      rw [if_neg hnil]
      by_cases hfits : FitsGreatest r
      · obtain ⟨r', res, hremove, hr', hdata, hloses⟩ := hok hfits
        obtain ⟨hdone, hcrash⟩ := @removedRight_spec T c l r r' _ hl hr' hlo hhi hloses
        rw [hremove, bind_some]
        constructor
        · rintro ⟨-, hrepairs⟩
          obtain ⟨t, hremoved, ht, htdata, hheight⟩ := hdone hrepairs
          refine ⟨t, res, by simp [hremoved], ht, by simp [htdata, hdata], ?_⟩
          exact (loses_congr (by simp [hnil])).mp hheight
        · intro hnot
          have hnone := hcrash fun hrepairs => hnot ⟨hfits, hrepairs⟩
          simp only [hnone, map_none]
      · refine ⟨fun h => absurd h.1 hfits, fun _ => ?_⟩
        rw [hbad hfits]
        rfl

theorem removeLeast_spec (h : Balanced t) (hne : t ≠ nil) :
    (FitsLeast t → ∃ t' res, removeLeast t = some (t', res) ∧ Balanced t' ∧
      dataList t = res.data :: dataList t' ∧ Loses (ShrinksLeast t) (height t) (height t')) ∧
    (¬ FitsLeast t → removeLeast t = none) := by
  obtain ⟨hok, hbad⟩ := removeGreatest_spec h.mirror (by simpa using hne)
  have hmirror := removeLeast_mirror t.mirror
  rw [mirror_mirror] at hmirror
  rw [hmirror]
  constructor
  · intro hfits
    obtain ⟨t', res, hremove, ht', hdata, hloses⟩ := hok hfits
    refine ⟨t'.mirror, res, by rw [hremove, map_some], ht'.mirror, ?_, ?_⟩
    · have hreverse := congrArg List.reverse hdata
      simpa using hreverse
    · simpa [ShrinksLeast] using hloses
  · intro hfits
    rw [hbad hfits, map_none]

end Elm.AVLTree
