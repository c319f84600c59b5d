import Elm.Avl.Map

/-!
# `avl::GenTree` as a set of keys

The set that a tree stands for is the list of its items, in the order in which their keys came in: an item
whose key is already there is not added.  The observers of the tree answer as this list does, whatever the
shape of the tree.
-/

namespace Elm.Avl

open List hiding nil
open BinaryTree Std

variable {T K : Type*} (A : Adapter T K)

/-- `GenTree::count`. -/
def GenTree.count (t : GenTree T) : Int := t.cnt

/-- `GenTree::isEmpty`. -/
def GenTree.isEmpty (t : GenTree T) : Bool := t.cnt = 0

/-- `GenTree::addAll`, for a collection that gives these items. -/
def GenTree.addAll (t : GenTree T) (items : List T) : GenTree T := items.foldl (fun t item => t.add A item) t

/-- The calls that change the set. -/
inductive SetOp (T K : Type*)
  | add (item : T)
  | removeByKey (key : K)
  | addAll (items : List T)
  | clear

/-- The effect of a call on the tree. -/
def GenTree.apply (t : GenTree T) : SetOp T K → Option (GenTree T)
  | .add item => some (t.add A item)
  | .removeByKey key => some (t.removeByKey A key)
  | .addAll items => some (t.addAll A items)
  | .clear => t.clear.map Prod.fst

/-! ## The set -/

/-- The item has this key. -/
def hasKey (key : K) (x : T) : Bool := A.compare key (A.key x) = .eq

/-- A key comes in, unless it is there. -/
def addItem (xs : List T) (item : T) : List T := if xs.any (hasKey A (A.key item)) then xs else xs ++ [item]

/-- The effect of a call on the set. -/
def applyItems (xs : List T) : SetOp T K → List T
  | .add item => addItem A xs item
  | .removeByKey key => xs.filter fun x => !hasKey A key x
  | .addAll items => items.foldl (addItem A) xs
  | .clear => []

variable {A}

theorem hasKey_iff {key : K} {x : T} : hasKey A key x = true ↔ A.compare key (A.key x) = .eq := by
  unfold hasKey
  exact decide_eq_true_iff

/-- Two items of an increasing list do not have the same key. -/
theorem Increasing.hasKey_unique [TransCmp A.compare] {xs : List T} (h : Increasing A xs) (key : K) :
    xs.Pairwise fun x y => ¬(hasKey A key x = true ∧ hasKey A key y = true) := by
  refine h.imp ?_
  intro x y hlt ⟨hx, hy⟩
  have heq : A.compare (A.key x) (A.key y) = .eq :=
    TransCmp.eq_trans (OrientedCmp.eq_symm (hasKey_iff.mp hx)) (hasKey_iff.mp hy)
  rw [hlt] at heq
  cases heq

/-- A search that one element at most satisfies does not depend on the order. -/
theorem find?_eq_of_perm {p : T → Bool} {xs ys : List T} (hperm : xs.Perm ys)
    (hunique : xs.Pairwise fun x y => ¬(p x = true ∧ p y = true)) : xs.find? p = ys.find? p := by
  have hmem : ∀ {x y : T}, x ∈ xs → y ∈ xs → p x = true → p y = true → x = y := by
    intro x y hx hy hpx hpy
    by_contra hne
    have : Std.Symm fun x y : T => ¬(p x = true ∧ p y = true) := ⟨fun a b hab hba => hab hba.symm⟩
    exact hunique.forall hx hy hne ⟨hpx, hpy⟩
  cases hx : xs.find? p with
  | none =>
    rw [find?_eq_none] at hx
    refine (find?_eq_none.mpr fun y hy => hx y (hperm.mem_iff.mpr hy)).symm
  | some x =>
    have hpx := find?_some hx
    have hxmem := mem_of_find?_eq_some hx
    cases hy : ys.find? p with
    | none => exact absurd hpx (find?_eq_none.mp hy x (hperm.mem_iff.mp hxmem))
    | some y =>
      have hymem := hperm.mem_iff.mpr (mem_of_find?_eq_some hy)
      rw [hmem hxmem hymem hpx (find?_some hy)]

/-! ## The observers -/

/-- `find` follows the order of the keys. -/
theorem find_spec [TransCmp A.compare] {key : K} {n : Node T} (h : Increasing A (dataList n)) :
    (dataList n).find? (hasKey A key) =
      match find A key n with
      | nil => none
      | node c _ _ => some c.data := by
  induction n with
  | nil => rfl
  | node c l r ihl ihr =>
    rw [dataList_node] at h ⊢
    obtain ⟨hl, hr, -⟩ := pairwise_append.mp h
    have haround := h.around_middle
    -- on the left of a greater key and on the right of a smaller one, there is no such item
    have hleft : A.compare key (A.key c.data) ≠ .lt → (dataList l).find? (hasKey A key) = none := by
      intro hnlt
      refine find?_eq_none.mpr fun x hx heq => hnlt ?_
      exact TransCmp.lt_of_eq_of_lt (hasKey_iff.mp heq) (haround.1 x hx)
    have hright : A.compare key (A.key c.data) ≠ .gt → (dataList r).find? (hasKey A key) = none := by
      intro hngt
      refine find?_eq_none.mpr fun x hx heq => hngt ?_
      have hlt := TransCmp.lt_of_lt_of_eq (haround.2 x hx) (OrientedCmp.eq_symm (hasKey_iff.mp heq))
      exact OrientedCmp.gt_of_lt hlt
    rw [find?_append, find?_cons]
    unfold find
    cases hcmp : A.compare key (A.key c.data) with
    | lt =>
      have hnot : hasKey A key c.data = false := by
        unfold hasKey
        rw [hcmp]
        rfl
      rw [hnot, hright (by rw [hcmp]; decide), ihl hl]
      exact Option.or_none
    | gt =>
      have hnot : hasKey A key c.data = false := by
        unfold hasKey
        rw [hcmp]
        rfl
      rw [hnot, hleft (by rw [hcmp]; decide), ihr hr.tail]
      rfl
    | eq =>
      rw [hleft (by rw [hcmp]; decide), hasKey_iff.mpr hcmp]
      rfl

/-- The tree stands for the set. -/
structure Represents (A : Adapter T K) (t : GenTree T) (xs : List T) : Prop where
  invariant : t.Invariant A
  perm : (dataList t.root).Perm xs

variable {t : GenTree T} {xs : List T}

/-- A tree stands for its own items. -/
theorem GenTree.Invariant.represents (h : t.Invariant A) : Represents A t (dataList t.root) :=
  ⟨h, Perm.refl _⟩

variable [TransCmp A.compare]

theorem Represents.find? (h : Represents A t xs) (key : K) :
    xs.find? (hasKey A key) = t.get A key := by
  rw [← find?_eq_of_perm h.perm (h.invariant.increasing.hasKey_unique key), find_spec h.invariant.increasing]
  rfl

theorem Represents.any (h : Represents A t xs) (key : K) : xs.any (hasKey A key) = t.contains A key := by
  have hfind := h.find? key
  rw [← isSome_find?, hfind]
  unfold GenTree.get GenTree.contains
  cases find A key t.root <;> rfl

omit [TransCmp A.compare] in
theorem Represents.count (h : Represents A t xs) : t.count = xs.length := by
  unfold GenTree.count
  rw [h.invariant.cnt_eq, ← length_dataList, h.perm.length_eq]

/-! ## The calls -/

theorem Represents.add (h : Represents A t xs) (item : T) :
    Represents A (t.add A item) (addItem A xs item) := by
  obtain ⟨hinv, hadd⟩ := h.invariant.add_spec item
  refine ⟨hinv, ?_⟩
  unfold addItem
  rcases hadd with ⟨ys, zs, hold, haround, hnew⟩ | ⟨⟨x, hx, heq⟩, hsame⟩
  · have hnot : xs.any (hasKey A (A.key item)) = false := by
      rw [any_eq_false]
      intro x hx hkey
      have hmem := h.perm.mem_iff.mpr hx
      rw [hold] at hmem
      rcases mem_append.mp hmem with hy | hz
      · have hlt := haround.1 x hy
        rw [OrientedCmp.eq_symm (hasKey_iff.mp hkey)] at hlt
        cases hlt
      · have hlt := haround.2 x hz
        rw [hasKey_iff.mp hkey] at hlt
        cases hlt
    rw [hnot, hnew, if_neg (by decide)]
    have hperm := h.perm
    rw [hold] at hperm
    exact perm_middle.trans ((hperm.cons item).trans (perm_append_singleton item xs).symm)
  · have hany : xs.any (hasKey A (A.key item)) = true :=
      any_eq_true.mpr ⟨x, h.perm.mem_iff.mp hx, hasKey_iff.mpr heq⟩
    rw [hany, hsame, if_pos rfl]
    exact h.perm

theorem Represents.addAll (items : List T) : ∀ {t : GenTree T} {xs : List T}, Represents A t xs →
    Represents A (t.addAll A items) (items.foldl (addItem A) xs) := by
  induction items with
  | nil => exact fun h => h
  | cons item items ih => exact fun h => ih (h.add item)

theorem Represents.removeByKey (h : Represents A t xs) (key : K) :
    Represents A (t.removeByKey A key) (xs.filter fun x => !hasKey A key x) := by
  obtain ⟨hinv, hremove⟩ := h.invariant.removeByKey_spec key
  refine ⟨hinv, ?_⟩
  rcases hremove with ⟨ys, x, zs, hold, heq, hnew⟩ | ⟨hnone, hsame⟩
  · have hinc := h.invariant.increasing
    rw [hold] at hinc
    have haround := hinc.around_middle
    have hkeep : ∀ z ∈ ys ++ zs, (!hasKey A key z) = true := by
      intro z hz
      rw [Bool.not_eq_true', ← Bool.not_eq_true]
      intro hkey
      -- the key of `z` would be the one of `x`
      have hxz : A.compare (A.key x) (A.key z) = .eq :=
        TransCmp.eq_trans (OrientedCmp.eq_symm heq) (hasKey_iff.mp hkey)
      rcases mem_append.mp hz with hz | hz
      · have hlt := haround.1 z hz
        rw [OrientedCmp.eq_symm hxz] at hlt
        cases hlt
      · have hlt := haround.2 z hz
        rw [hxz] at hlt
        cases hlt
    have hperm := (h.perm.filter fun x => !hasKey A key x).symm
    rw [hold, filter_append, filter_cons, if_neg (by simp [hasKey_iff.mpr heq]),
      ← filter_append, filter_eq_self.mpr hkeep] at hperm
    rw [hnew]
    exact hperm.symm
  · rw [hsame, filter_eq_self.mpr ?_]
    · exact h.perm
    · intro x hx
      have hne := hnone x (h.perm.mem_iff.mpr hx)
      rw [Bool.not_eq_true', ← Bool.not_eq_true]
      exact fun hkey => hne (hasKey_iff.mp hkey)

theorem Represents.apply (h : Represents A t xs) (op : SetOp T K) :
    ∃ t', t.apply A op = some t' ∧ Represents A t' (applyItems A xs op) := by
  cases op with
  | add item => exact ⟨_, rfl, h.add item⟩
  | removeByKey key => exact ⟨_, rfl, h.removeByKey key⟩
  | addAll items => exact ⟨_, rfl, h.addAll items⟩
  | clear =>
    obtain ⟨freed, hclear, -⟩ := t.clear_spec
    refine ⟨GenTree.empty, ?_, GenTree.invariant_empty A, Perm.nil⟩
    unfold GenTree.apply
    rw [hclear]
    rfl

instance : TransCmp (pairAdapter Nat (compare : Nat → Nat → Ordering)).compare :=
  inferInstanceAs (TransCmp (compare : Nat → Nat → Ordering))

end Elm.Avl
