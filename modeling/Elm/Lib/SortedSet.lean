import Mathlib.Data.Set.Basic
import Mathlib.Tactic

/-!
# Sorted lists as sets

A list that is strictly sorted for a comparison stands for the set of the values that compare equal to one of its
items.  The operations on these sets are merges: one of the two lists, or both, advance at each comparison of
their heads.
-/

namespace SortedSet

open Std List

variable {α : Type*} (cmp : α → α → Ordering)

/-- Each item is less than the following ones. -/
def Sorted (xs : List α) : Prop := xs.Pairwise fun x y => cmp x y = .lt

/-- The values that compare equal to an item. -/
def elements (xs : List α) : Set α := {x | ∃ y ∈ xs, cmp x y = .eq}

/-- The items of both lists, those of the first one for equal items. -/
def union : List α → List α → List α
  | [], ys => ys
  | x :: xs, [] => x :: xs
  | x :: xs, y :: ys =>
    match cmp x y with
    | .eq => x :: union xs ys
    | .lt => x :: union xs (y :: ys)
    | .gt => y :: union (x :: xs) ys
termination_by xs ys => xs.length + ys.length

/-- The items of the first list that have an equal one in the second list. -/
def inter : List α → List α → List α
  | [], _ => []
  | _ :: _, [] => []
  | x :: xs, y :: ys =>
    match cmp x y with
    | .eq => x :: inter xs ys
    | .lt => inter xs (y :: ys)
    | .gt => inter (x :: xs) ys
termination_by xs ys => xs.length + ys.length

/-- The items of the first list that have no equal one in the second list. -/
def diff : List α → List α → List α
  | [], _ => []
  | x :: xs, [] => x :: xs
  | x :: xs, y :: ys =>
    match cmp x y with
    | .eq => diff xs ys
    | .lt => x :: diff xs (y :: ys)
    | .gt => diff (x :: xs) ys
termination_by xs ys => xs.length + ys.length

/-- Whether each item of the first list has an equal one in the second list. -/
def included : List α → List α → Bool
  | [], _ => true
  | _ :: _, [] => false
  | x :: xs, y :: ys =>
    match cmp x y with
    | .eq => included xs ys
    | .lt => false
    | .gt => included (x :: xs) ys
termination_by xs ys => xs.length + ys.length

/-- Whether both lists have equal items at the same places. -/
def same : List α → List α → Bool
  | [], [] => true
  | x :: xs, y :: ys => if cmp x y = .eq then same xs ys else false
  | _, _ => false

variable {cmp} {x y : α} {xs ys : List α}

/-! ## Items and elements -/

@[simp] theorem elements_nil : elements cmp [] = ∅ := by
  ext z
  simp [elements]

theorem mem_elements_cons {z : α} : z ∈ elements cmp (x :: xs) ↔ cmp z x = .eq ∨ z ∈ elements cmp xs := by
  simp [elements]

theorem elements_append : elements cmp (xs ++ ys) = elements cmp xs ∪ elements cmp ys := by
  ext z
  simp only [elements, mem_append, Set.mem_ofPred_eq, Set.mem_union]
  constructor
  · rintro ⟨y, hy | hy, heq⟩
    · exact Or.inl ⟨y, hy, heq⟩
    · exact Or.inr ⟨y, hy, heq⟩
  · rintro (⟨y, hy, heq⟩ | ⟨y, hy, heq⟩)
    · exact ⟨y, Or.inl hy, heq⟩
    · exact ⟨y, Or.inr hy, heq⟩

theorem sorted_cons : Sorted cmp (x :: xs) ↔ (∀ y ∈ xs, cmp x y = .lt) ∧ Sorted cmp xs := pairwise_cons

variable [TransCmp cmp]

theorem mem_elements_of_mem (h : x ∈ xs) : x ∈ elements cmp xs := ⟨x, h, ReflCmp.compare_self⟩

/-- What compares equal is in the same sets. -/
theorem mem_elements_congr {z w : α} (h : cmp z w = .eq) : z ∈ elements cmp xs ↔ w ∈ elements cmp xs := by
  constructor
  · rintro ⟨y, hy, heq⟩
    exact ⟨y, hy, TransCmp.eq_trans (OrientedCmp.eq_symm h) heq⟩
  · rintro ⟨y, hy, heq⟩
    exact ⟨y, hy, TransCmp.eq_trans h heq⟩

/-- What is less than the head of a sorted list, or equal to it, is not in its tail. -/
theorem Sorted.not_mem_of_lt {z : α} (h : Sorted cmp (x :: xs)) (hz : cmp z x ≠ .gt) : z ∉ elements cmp xs := by
  rintro ⟨y, hy, heq⟩
  have hxy := (sorted_cons.mp h).1 y hy
  have hzy : cmp z y = .lt := by
    cases hzx : cmp z x with
    | lt => exact TransCmp.lt_trans hzx hxy
    | eq => exact TransCmp.lt_of_eq_of_lt hzx hxy
    | gt => exact absurd hzx hz
  rw [heq] at hzy
  cases hzy

/-- What is less than the head of a sorted list is not in it. -/
theorem Sorted.not_mem {z : α} (h : Sorted cmp (x :: xs)) (hz : cmp z x = .lt) : z ∉ elements cmp (x :: xs) := by
  intro hmem
  rcases mem_elements_cons.mp hmem with heq | hmem
  · rw [hz] at heq
    cases heq
  · exact h.not_mem_of_lt (by rw [hz]; decide) hmem

/-- Where a value stands in a sorted list. -/
theorem Sorted.exists_split (h : Sorted cmp xs) (v : α) :
    ∃ as bs, (∀ a ∈ as, cmp v a = .gt) ∧ (∀ b ∈ bs, cmp v b = .lt) ∧
      (xs = as ++ bs ∨ ∃ y, cmp v y = .eq ∧ xs = as ++ y :: bs) := by
  induction xs with
  | nil => exact ⟨[], [], nofun, nofun, Or.inl rfl⟩
  | cons x xs ih =>
    obtain ⟨hx, hxs⟩ := sorted_cons.mp h
    cases hcmp : cmp v x with
    | lt =>
      refine ⟨[], x :: xs, nofun, fun b hb => ?_, Or.inl rfl⟩
      rcases mem_cons.mp hb with rfl | hb
      · exact hcmp
      · exact TransCmp.lt_trans hcmp (hx b hb)
    | eq => exact ⟨[], xs, nofun, fun b hb => TransCmp.lt_of_eq_of_lt hcmp (hx b hb), Or.inr ⟨x, hcmp, rfl⟩⟩
    | gt =>
      obtain ⟨as, bs, has, hbs, hsplit⟩ := ih hxs
      have has' : ∀ a ∈ x :: as, cmp v a = .gt := by
        intro a ha
        rcases mem_cons.mp ha with rfl | ha
        · exact hcmp
        · exact has a ha
      refine ⟨x :: as, bs, has', hbs, ?_⟩
      rcases hsplit with rfl | ⟨y, hy, rfl⟩
      · exact Or.inl rfl
      · exact Or.inr ⟨y, hy, rfl⟩

/-- A value put where it stands. -/
theorem Sorted.insert {as bs : List α} {v : α} (h : Sorted cmp (as ++ bs)) (has : ∀ a ∈ as, cmp v a = .gt)
    (hbs : ∀ b ∈ bs, cmp v b = .lt) : Sorted cmp (as ++ v :: bs) := by
  obtain ⟨hpre, hpost, hcross⟩ := pairwise_append.mp h
  refine pairwise_append.mpr ⟨hpre, sorted_cons.mpr ⟨hbs, hpost⟩, fun a ha b hb => ?_⟩
  rcases mem_cons.mp hb with rfl | hb
  · exact OrientedCmp.lt_of_gt (has a ha)
  · exact hcross a ha b hb

/-- Two heads that compare equal stand for the same values. -/
theorem eq_iff_of_eq {z : α} (h : cmp x y = .eq) : cmp z x = .eq ↔ cmp z y = .eq := by
  constructor
  · exact fun hz => TransCmp.eq_trans hz h
  · exact fun hz => TransCmp.eq_trans hz (OrientedCmp.eq_symm h)

/-! ## The union -/

omit [TransCmp cmp] in
theorem mem_of_mem_union {z : α} (h : z ∈ union cmp xs ys) : z ∈ xs ∨ z ∈ ys := by
  induction xs, ys using union.induct cmp with
  | case1 ys =>
    rw [union] at h
    exact Or.inr h
  | case2 x xs =>
    rw [union] at h
    exact Or.inl h
  | case3 x xs y ys hcmp ih =>
    simp only [union, hcmp, mem_cons] at h ⊢
    rcases h with rfl | h
    · exact Or.inl (Or.inl rfl)
    · exact (ih h).imp Or.inr Or.inr
  | case4 x xs y ys hcmp ih =>
    simp only [union, hcmp, mem_cons] at h ih ⊢
    rcases h with rfl | h
    · exact Or.inl (Or.inl rfl)
    · exact (ih h).imp_left Or.inr
  | case5 x xs y ys hcmp ih =>
    simp only [union, hcmp, mem_cons] at h ih ⊢
    rcases h with rfl | h
    · exact Or.inr (Or.inl rfl)
    · exact (ih h).imp_right Or.inr

theorem sorted_union (hxs : Sorted cmp xs) (hys : Sorted cmp ys) : Sorted cmp (union cmp xs ys) := by
  induction xs, ys using union.induct cmp with
  | case1 ys =>
    rw [union]
    exact hys
  | case2 x xs =>
    rw [union]
    exact hxs
  | case3 x xs y ys hcmp ih =>
    obtain ⟨hx, hxs'⟩ := sorted_cons.mp hxs
    obtain ⟨hy, hys'⟩ := sorted_cons.mp hys
    simp only [union, hcmp]
    refine sorted_cons.mpr ⟨fun z hz => ?_, ih hxs' hys'⟩
    rcases mem_of_mem_union hz with hz | hz
    · exact hx z hz
    · exact TransCmp.lt_of_eq_of_lt hcmp (hy z hz)
  | case4 x xs y ys hcmp ih =>
    obtain ⟨hx, hxs'⟩ := sorted_cons.mp hxs
    have hy := (sorted_cons.mp hys).1
    simp only [union, hcmp]
    refine sorted_cons.mpr ⟨fun z hz => ?_, ih hxs' hys⟩
    rcases mem_of_mem_union hz with hz | hz
    · exact hx z hz
    · rcases mem_cons.mp hz with rfl | hz
      · exact hcmp
      · exact TransCmp.lt_trans hcmp (hy z hz)
  | case5 x xs y ys hcmp ih =>
    obtain ⟨hy, hys'⟩ := sorted_cons.mp hys
    have hx := (sorted_cons.mp hxs).1
    have hlt : cmp y x = .lt := OrientedCmp.lt_of_gt hcmp
    simp only [union, hcmp]
    refine sorted_cons.mpr ⟨fun z hz => ?_, ih hxs hys'⟩
    rcases mem_of_mem_union hz with hz | hz
    · rcases mem_cons.mp hz with rfl | hz
      · exact hlt
      · exact TransCmp.lt_trans hlt (hx z hz)
    · exact hy z hz

theorem elements_union (xs ys : List α) : elements cmp (union cmp xs ys) = elements cmp xs ∪ elements cmp ys := by
  induction xs, ys using union.induct cmp with
  | case1 ys => rw [union, elements_nil, Set.empty_union]
  | case2 x xs => rw [union, elements_nil, Set.union_empty]
  | case3 x xs y ys hcmp ih =>
    ext z
    simp only [union, hcmp, mem_elements_cons, ih, Set.mem_union, eq_iff_of_eq hcmp]
    tauto
  | case4 x xs y ys hcmp ih =>
    ext z
    simp only [union, hcmp, mem_elements_cons, ih, Set.mem_union]
    tauto
  | case5 x xs y ys hcmp ih =>
    ext z
    simp only [union, hcmp, mem_elements_cons, ih, Set.mem_union]
    tauto

/-! ## The intersection -/

omit [TransCmp cmp] in
theorem inter_sublist (xs ys : List α) : (inter cmp xs ys).Sublist xs := by
  induction xs, ys using inter.induct cmp with
  | case1 ys =>
    rw [inter]
  | case2 x xs =>
    rw [inter]
    exact nil_sublist _
  | case3 x xs y ys hcmp ih =>
    simp only [inter, hcmp]
    exact ih.cons_cons x
  | case4 x xs y ys hcmp ih =>
    simp only [inter, hcmp]
    exact ih.cons x
  | case5 x xs y ys hcmp ih =>
    simp only [inter, hcmp]
    exact ih

omit [TransCmp cmp] in
theorem sorted_inter (hxs : Sorted cmp xs) (ys : List α) : Sorted cmp (inter cmp xs ys) :=
  hxs.sublist (inter_sublist xs ys)

theorem elements_inter (hxs : Sorted cmp xs) (hys : Sorted cmp ys) :
    elements cmp (inter cmp xs ys) = elements cmp xs ∩ elements cmp ys := by
  induction xs, ys using inter.induct cmp with
  | case1 ys => rw [inter, elements_nil, Set.empty_inter]
  | case2 x xs => rw [inter, elements_nil, Set.inter_empty]
  | case3 x xs y ys hcmp ih =>
    have hrest := ih (sorted_cons.mp hxs).2 (sorted_cons.mp hys).2
    ext z
    simp only [inter, hcmp, mem_elements_cons, hrest, Set.mem_inter_iff, eq_iff_of_eq hcmp]
    -- what equals the common head is in no tail
    have hx : cmp z y = .eq → z ∉ elements cmp xs := fun h =>
      hxs.not_mem_of_lt (by rw [(eq_iff_of_eq hcmp).mpr h]; decide)
    have hy : cmp z y = .eq → z ∉ elements cmp ys := fun h => hys.not_mem_of_lt (by rw [h]; decide)
    tauto
  | case4 x xs y ys hcmp ih =>
    have hrest := ih (sorted_cons.mp hxs).2 hys
    ext z
    have hhead : cmp z x = .eq → z ∉ elements cmp (y :: ys) := fun h =>
      hys.not_mem (TransCmp.lt_of_eq_of_lt h hcmp)
    rw [inter, hcmp]
    simp only [hrest, Set.mem_inter_iff, mem_elements_cons (x := x)]
    tauto
  | case5 x xs y ys hcmp ih =>
    have hrest := ih hxs (sorted_cons.mp hys).2
    ext z
    have hhead : cmp z y = .eq → z ∉ elements cmp (x :: xs) := fun h =>
      hxs.not_mem (TransCmp.lt_of_eq_of_lt h (OrientedCmp.lt_of_gt hcmp))
    rw [inter, hcmp]
    simp only [hrest, Set.mem_inter_iff, mem_elements_cons (x := y)]
    tauto

/-! ## The difference -/

omit [TransCmp cmp] in
theorem diff_sublist (xs ys : List α) : (diff cmp xs ys).Sublist xs := by
  induction xs, ys using diff.induct cmp with
  | case1 ys => rw [diff]
  | case2 x xs => rw [diff]
  | case3 x xs y ys hcmp ih =>
    simp only [diff, hcmp]
    exact ih.cons x
  | case4 x xs y ys hcmp ih =>
    simp only [diff, hcmp]
    exact ih.cons_cons x
  | case5 x xs y ys hcmp ih =>
    simp only [diff, hcmp]
    exact ih

omit [TransCmp cmp] in
theorem sorted_diff (hxs : Sorted cmp xs) (ys : List α) : Sorted cmp (diff cmp xs ys) :=
  hxs.sublist (diff_sublist xs ys)

theorem elements_diff (hxs : Sorted cmp xs) (hys : Sorted cmp ys) :
    elements cmp (diff cmp xs ys) = elements cmp xs \ elements cmp ys := by
  induction xs, ys using diff.induct cmp with
  | case1 ys => rw [diff, elements_nil, Set.empty_sdiff]
  | case2 x xs => rw [diff, elements_nil, Set.sdiff_empty]
  | case3 x xs y ys hcmp ih =>
    have hrest := ih (sorted_cons.mp hxs).2 (sorted_cons.mp hys).2
    ext z
    have hx : cmp z y = .eq → z ∉ elements cmp xs := fun h =>
      hxs.not_mem_of_lt (by rw [(eq_iff_of_eq hcmp).mpr h]; decide)
    simp only [diff, hcmp, hrest, Set.mem_sdiff, mem_elements_cons, eq_iff_of_eq hcmp]
    tauto
  | case4 x xs y ys hcmp ih =>
    have hrest := ih (sorted_cons.mp hxs).2 hys
    ext z
    have hhead : cmp z x = .eq → z ∉ elements cmp (y :: ys) := fun h =>
      hys.not_mem (TransCmp.lt_of_eq_of_lt h hcmp)
    rw [diff, hcmp]
    simp only [hrest, Set.mem_sdiff, mem_elements_cons (x := x)]
    tauto
  | case5 x xs y ys hcmp ih =>
    have hrest := ih hxs (sorted_cons.mp hys).2
    ext z
    have hhead : cmp z y = .eq → z ∉ elements cmp (x :: xs) := fun h =>
      hxs.not_mem (TransCmp.lt_of_eq_of_lt h (OrientedCmp.lt_of_gt hcmp))
    rw [diff, hcmp]
    simp only [hrest, Set.mem_sdiff, mem_elements_cons (x := y)]
    tauto

/-! ## The inclusion -/

theorem included_iff (hxs : Sorted cmp xs) (hys : Sorted cmp ys) :
    included cmp xs ys = true ↔ elements cmp xs ⊆ elements cmp ys := by
  induction xs, ys using included.induct cmp with
  | case1 ys =>
    rw [included, elements_nil]
    exact iff_of_true rfl (Set.empty_subset _)
  | case2 x xs =>
    rw [included, elements_nil]
    exact iff_of_false (by decide) fun h => h (mem_elements_of_mem mem_cons_self)
  | case3 x xs y ys hcmp ih =>
    rw [included, hcmp]
    simp only
    rw [ih (sorted_cons.mp hxs).2 (sorted_cons.mp hys).2]
    constructor
    · intro h z hz
      rw [mem_elements_cons, eq_iff_of_eq hcmp] at hz
      exact mem_elements_cons.mpr (hz.imp_right fun hz => h hz)
    · intro h z hz
      rcases mem_elements_cons.mp (h (mem_elements_cons.mpr (Or.inr hz))) with heq | hz'
      · -- the head of `ys` equals the one of `xs`, which is not in the tail
        exact absurd hz (hxs.not_mem_of_lt (by rw [(eq_iff_of_eq hcmp).mpr heq]; decide))
      · exact hz'
  | case4 x xs y ys hcmp =>
    rw [included, hcmp]
    refine iff_of_false Bool.false_ne_true fun h => ?_
    exact hys.not_mem hcmp (h (mem_elements_of_mem mem_cons_self))
  | case5 x xs y ys hcmp ih =>
    rw [included, hcmp]
    simp only
    rw [ih hxs (sorted_cons.mp hys).2]
    constructor
    · exact fun h z hz => mem_elements_cons.mpr (Or.inr (h hz))
    · intro h z hz
      rcases mem_elements_cons.mp (h hz) with heq | hz'
      · exact absurd hz (hxs.not_mem (TransCmp.lt_of_eq_of_lt heq (OrientedCmp.lt_of_gt hcmp)))
      · exact hz'

/-! ## The equality -/

theorem same_iff (hxs : Sorted cmp xs) (hys : Sorted cmp ys) :
    same cmp xs ys = true ↔ elements cmp xs = elements cmp ys := by
  induction xs generalizing ys with
  | nil =>
    cases ys with
    | nil => exact iff_of_true rfl rfl
    | cons y ys =>
      rw [elements_nil]
      refine iff_of_false Bool.false_ne_true fun h => ?_
      have hmem : y ∈ elements cmp (y :: ys) := mem_elements_of_mem mem_cons_self
      rw [← h] at hmem
      exact hmem
  | cons x xs ih =>
    cases ys with
    | nil =>
      rw [elements_nil]
      refine iff_of_false Bool.false_ne_true fun h => ?_
      have hmem : x ∈ elements cmp (x :: xs) := mem_elements_of_mem mem_cons_self
      rw [h] at hmem
      exact hmem
    | cons y ys =>
      have hrest := ih (sorted_cons.mp hxs).2 (sorted_cons.mp hys).2
      rw [same]
      by_cases hcmp : cmp x y = .eq
      · rw [if_pos hcmp, hrest]
        constructor
        · intro h
          ext z
          rw [mem_elements_cons, mem_elements_cons, eq_iff_of_eq hcmp, h]
        · intro h
          -- what equals the heads is in no tail
          ext z
          have hx : cmp z y = .eq → z ∉ elements cmp xs := fun hz =>
            hxs.not_mem_of_lt (by rw [(eq_iff_of_eq hcmp).mpr hz]; decide)
          have hy : cmp z y = .eq → z ∉ elements cmp ys := fun hz => hys.not_mem_of_lt (by rw [hz]; decide)
          have hz := Set.ext_iff.mp h z
          rw [mem_elements_cons, mem_elements_cons, eq_iff_of_eq hcmp] at hz
          tauto
      · rw [if_neg hcmp]
        refine iff_of_false Bool.false_ne_true fun h => ?_
        cases hcase : cmp x y with
        | eq => exact hcmp hcase
        | lt =>
          have hmem : x ∈ elements cmp (x :: xs) := mem_elements_of_mem mem_cons_self
          rw [h] at hmem
          exact hys.not_mem hcase hmem
        | gt =>
          have hmem : y ∈ elements cmp (y :: ys) := mem_elements_of_mem mem_cons_self
          rw [← h] at hmem
          exact hxs.not_mem (OrientedCmp.lt_of_gt hcase) hmem

end SortedSet
