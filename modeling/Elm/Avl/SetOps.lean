import Elm.Avl.Filled
import Elm.Lib.SortedSet

/-!
# `avl::Set`

The operations of `include/elm/avl/Set.h` on two sets of a program.  `join` and `diff` go over the argument while
they change the receiver, `meet` builds a set of its own that it copies to the receiver, and `subsetOf` goes over
both sets in lockstep.
-/

namespace Elm.Avl

open List hiding nil
open BinaryTree Std SortedSet Function Option

variable {ι T : Type*} [DecidableEq ι] (cmp : T → T → Ordering)

/-- `IdAdapter<T>` and the comparator: each item is its own key. -/
def idAdapter : Adapter T T := ⟨id, cmp⟩

/-- `Set::join`. -/
def join (sets : Trees ι T) (i j : ι) : Option (Trees ι T) :=
  Fixed.walk (fun sets => (sets j).root)
    (fun sets x => (Fixed.add (idAdapter cmp) (sets i) x).map (update sets i)) sets

/-- `Set::diff`. -/
def diff (sets : Trees ι T) (i j : ι) : Option (Trees ι T) :=
  Fixed.walk (fun sets => (sets j).root)
    (fun sets x => (Fixed.remove (idAdapter cmp) (sets i) x).map (update sets i)) sets

/-- `Set::meet`. -/
def meet (sets : Trees ι T) (i j : ι) : Option (Trees ι T) :=
  (Fixed.walk (fun _ => (sets i).root)
    (fun is x => if (sets j).contains (idAdapter cmp) x then Fixed.add (idAdapter cmp) is x else some is)
    GenTree.empty).bind fun is =>
      (Fixed.clear (sets i)).bind fun _ => (Fixed.copyFrom is).map (update sets i)

/-- One turn of the loop of `Set::subsetOf`, with the iterators of the receiver and of the argument. -/
def subsetTurn (a b : Node T) (s : VisitStack × VisitStack) : Option ((VisitStack × VisitStack) ⊕ Bool) :=
  match iterItem a s.1, iterItem b s.2 with
  | some x, some y =>
    match cmp x y with
    | .eq => (Fixed.next a s.1).bind fun i => (Fixed.next b s.2).map fun j => .inl (i, j)
    | .lt => some (.inr false)
    | .gt => (Fixed.next b s.2).map fun j => .inl (s.1, j)
  | _, _ => some (.inr (iterEnded s.1))

/-- `Set::subsetOf`. -/
def subsetOf (t s : GenTree T) : Option Bool :=
  (Fixed.visit t.root [] []).bind fun i => (Fixed.visit s.root [] []).bind fun j =>
    Loop.attempt (subsetTurn cmp t.root s.root) (s.root.numNodes + 1) (i, j)

/-- The elements of a set, up to the comparator: those that `contains` finds. -/
def GenTree.elements (t : GenTree T) : Set T := {x | t.contains (idAdapter cmp) x = true}

variable {cmp} [TransCmp cmp]

instance : TransCmp (idAdapter cmp).compare := inferInstanceAs (TransCmp cmp)

/-! ## The elements of one set -/

variable {t : GenTree T}

theorem Represents.elements_eq {xs : List T} (h : Represents (idAdapter cmp) t xs) :
    t.elements cmp = SortedSet.elements cmp xs := by
  ext x
  rw [GenTree.elements, Set.mem_ofPred_eq, ← h.any x, List.any_eq_true]
  simp only [hasKey_iff]
  rfl

theorem elements_empty : (GenTree.empty : GenTree T).elements cmp = ∅ :=
  (GenTree.invariant_empty _).represents.elements_eq.trans elements_nil

/-- An addition brings the element in. -/
theorem elements_add (h : t.Invariant (idAdapter cmp)) (item : T) :
    (t.add (idAdapter cmp) item).elements cmp = {x | cmp x item = .eq} ∪ t.elements cmp := by
  rw [(h.represents.add item).elements_eq, h.represents.elements_eq]
  ext x
  rw [Set.mem_union, Set.mem_ofPred_eq]
  unfold addItem
  by_cases hany : (dataList t.root).any (hasKey (idAdapter cmp) ((idAdapter cmp).key item)) = true
  · rw [if_pos hany]
    obtain ⟨y, hy, heq⟩ := List.any_eq_true.mp hany
    constructor
    · exact Or.inr
    · rintro (hx | hx)
      · exact ⟨y, hy, TransCmp.eq_trans hx (hasKey_iff.mp heq)⟩
      · exact hx
  · rw [if_neg hany, elements_append, Set.mem_union, mem_elements_cons, elements_nil]
    simp only [Set.mem_empty_iff_false, or_false]
    exact Or.comm

/-- A removal takes it out. -/
theorem elements_remove (h : t.Invariant (idAdapter cmp)) (item : T) :
    (t.remove (idAdapter cmp) item).elements cmp = t.elements cmp \ {x | cmp x item = .eq} := by
  have hremove : Represents (idAdapter cmp) (t.remove (idAdapter cmp) item) _ :=
    h.represents.removeByKey item
  rw [hremove.elements_eq, h.represents.elements_eq]
  ext x
  rw [Set.mem_sdiff, Set.mem_ofPred_eq]
  constructor
  · rintro ⟨y, hy, heq⟩
    obtain ⟨hmem, hkey⟩ := mem_filter.mp hy
    refine ⟨⟨y, hmem, heq⟩, fun hx => ?_⟩
    have hyes : hasKey (idAdapter cmp) item y = true :=
      hasKey_iff.mpr (TransCmp.eq_trans (OrientedCmp.eq_symm hx) heq)
    rw [hyes] at hkey
    cases hkey
  · rintro ⟨⟨y, hmem, heq⟩, hx⟩
    refine ⟨y, mem_filter.mpr ⟨hmem, ?_⟩, heq⟩
    rw [Bool.not_eq_true', ← Bool.not_eq_true]
    exact fun hkey => hx (TransCmp.eq_trans heq (OrientedCmp.eq_symm (hasKey_iff.mp hkey)))

theorem GenTree.Invariant.add (h : t.Invariant (idAdapter cmp)) (item : T) :
    (t.add (idAdapter cmp) item).Invariant (idAdapter cmp) :=
  (h.add_spec item).1

theorem GenTree.Invariant.remove (h : t.Invariant (idAdapter cmp)) (item : T) :
    (t.remove (idAdapter cmp) item).Invariant (idAdapter cmp) :=
  (h.removeByKey_spec item).1

/-! ## The loops -/

/-- Before each item of a list is taken, the tree meets a condition with it. -/
def FitsFold (fits : GenTree T → T → Prop) (f : GenTree T → T → GenTree T) : List T → GenTree T → Prop
  | [], _ => True
  | x :: xs, t => fits t x ∧ FitsFold fits f xs (f t x)

/-- A set that is changed at each item of a list, the other sets of the program being left as they are. -/
theorem foldlM_update {ι : Type*} [DecidableEq ι] {p : GenTree T → Prop} {fits : GenTree T → T → Prop}
    {f : GenTree T → T → GenTree T} {g : GenTree T → T → Option (GenTree T)}
    (hg : ∀ t x, p t → SucceedsWhen (fits t x) (g t x) (f t x)) (hp : ∀ t x, p t → p (f t x)) (xs : List T)
    (sets : Trees ι T) (i : ι) (h : p (sets i)) :
    SucceedsWhen (FitsFold fits f xs (sets i)) (xs.foldlM (fun sets x => (g (sets i) x).map (update sets i)) sets)
      (update sets i (xs.foldl f (sets i))) := by
  induction xs generalizing sets with
  | nil => exact ⟨fun _ => by simp, fun h => absurd trivial h⟩
  | cons x xs ih =>
    obtain ⟨hsome, hnone⟩ := hg (sets i) x h
    rw [foldlM_cons]
    by_cases hfits : fits (sets i) x
    · have hrest := ih (update sets i (f (sets i) x)) (by rw [update_self]; exact hp _ x h)
      rw [update_self, update_idem] at hrest
      rw [hsome hfits]
      exact ⟨fun hfold => hrest.1 hfold.2, fun hfold => hrest.2 fun h => hfold ⟨hfits, h⟩⟩
    · rw [hnone hfits]
      exact ⟨fun hfold => absurd hfold.1 hfits, fun _ => rfl⟩

theorem elements_foldl_add (xs : List T) : ∀ {t : GenTree T}, t.Invariant (idAdapter cmp) →
    (xs.foldl (fun t x => t.add (idAdapter cmp) x) t).Invariant (idAdapter cmp) ∧
      (xs.foldl (fun t x => t.add (idAdapter cmp) x) t).elements cmp =
        t.elements cmp ∪ SortedSet.elements cmp xs := by
  induction xs with
  | nil =>
    intro t h
    exact ⟨h, by rw [elements_nil, Set.union_empty]; rfl⟩
  | cons x xs ih =>
    intro t h
    obtain ⟨hinv, helements⟩ := ih (h.add x)
    refine ⟨hinv, helements.trans ?_⟩
    rw [elements_add h]
    ext z
    simp only [Set.mem_union, Set.mem_ofPred_eq, mem_elements_cons]
    tauto

theorem elements_foldl_remove (xs : List T) : ∀ {t : GenTree T}, t.Invariant (idAdapter cmp) →
    (xs.foldl (fun t x => t.remove (idAdapter cmp) x) t).Invariant (idAdapter cmp) ∧
      (xs.foldl (fun t x => t.remove (idAdapter cmp) x) t).elements cmp =
        t.elements cmp \ SortedSet.elements cmp xs := by
  induction xs with
  | nil =>
    intro t h
    exact ⟨h, by rw [elements_nil, Set.sdiff_empty]; rfl⟩
  | cons x xs ih =>
    intro t h
    obtain ⟨hinv, helements⟩ := ih (h.remove x)
    refine ⟨hinv, helements.trans ?_⟩
    rw [elements_remove h]
    ext z
    simp only [Set.mem_sdiff, Set.mem_ofPred_eq, mem_elements_cons]
    tauto

/-- What an item of the receiver does to the set that `meet` builds. -/
def meetWith (cmp : T → T → Ordering) (s is : GenTree T) (x : T) : GenTree T :=
  if s.contains (idAdapter cmp) x then is.add (idAdapter cmp) x else is

/-- The set that `meet` builds. -/
theorem elements_foldl_meet (s : GenTree T) (xs : List T) : ∀ {t : GenTree T}, t.Invariant (idAdapter cmp) →
    (xs.foldl (meetWith cmp s) t).Invariant (idAdapter cmp) ∧
      (xs.foldl (meetWith cmp s) t).elements cmp =
        t.elements cmp ∪ SortedSet.elements cmp (xs.filter fun x => s.contains (idAdapter cmp) x) := by
  induction xs with
  | nil =>
    intro t h
    exact ⟨h, by rw [filter_nil, elements_nil, Set.union_empty]; rfl⟩
  | cons x xs ih =>
    intro t h
    rw [foldl_cons, meetWith]
    by_cases hx : s.contains (idAdapter cmp) x = true
    · obtain ⟨hinv, helements⟩ := ih (h.add x)
      rw [if_pos hx]
      refine ⟨hinv, helements.trans ?_⟩
      rw [elements_add h, filter_cons_of_pos hx]
      ext z
      simp only [Set.mem_union, Set.mem_ofPred_eq, mem_elements_cons]
      tauto
    · rw [if_neg hx, filter_cons_of_neg hx]
      exact ih h

/-- One item that is greater than the others. -/
theorem meetWith_spec (s : GenTree T) (h : t.Invariant (idAdapter cmp)) (hfilled : Filled t.root) {x : T}
    (hless : ∀ z ∈ dataList t.root, cmp z x = .lt) :
    (meetWith cmp s t x).Invariant (idAdapter cmp) ∧ Filled (meetWith cmp s t x).root ∧
      (∀ z ∈ dataList (meetWith cmp s t x).root, z ∈ dataList t.root ∨ z = x) ∧
      (meetWith cmp s t x).root.numNodes ≤ t.root.numNodes + 1 := by
  rw [meetWith]
  split_ifs
  · refine ⟨h.add x, filled_add h hfilled hless, ?_⟩
    rcases (h.add_spec x).2 with ⟨as, bs, hlist, -, hnew⟩ | ⟨-, heq⟩
    · rw [← length_dataList, ← length_dataList, hnew, hlist]
      refine ⟨fun z hz => ?_, by simp only [length_append, length_cons]; omega⟩
      simp only [mem_append, mem_cons] at hz ⊢
      tauto
    · rw [heq]
      exact ⟨fun z hz => .inl hz, Nat.le_succ _⟩
  · exact ⟨h, hfilled, fun z hz => .inl hz, Nat.le_succ _⟩

/-- It is filled in increasing order, and so has at most 31 levels, as the receiver. -/
theorem foldlM_meetWith (s : GenTree T) {xs : List T} (hxs : Sorted cmp xs) (h : t.Invariant (idAdapter cmp))
    (hfilled : Filled t.root) (hless : ∀ x ∈ dataList t.root, ∀ y ∈ xs, cmp x y = .lt)
    (hcount : t.root.numNodes + xs.length < 2 ^ 31) :
    xs.foldlM (fun is x => if s.contains (idAdapter cmp) x then Fixed.add (idAdapter cmp) is x else some is) t =
        some (xs.foldl (meetWith cmp s) t) ∧
      (xs.foldl (meetWith cmp s) t).root.height ≤ 31 := by
  induction xs generalizing t with
  | nil => exact ⟨rfl, hfilled.height_le (by simpa using hcount)⟩
  | cons x xs ih =>
    obtain ⟨hx, hxs⟩ := sorted_cons.mp hxs
    obtain ⟨hinv, hfilled', hmem, hnum⟩ := meetWith_spec s h hfilled fun z hz => hless z hz x mem_cons_self
    have hturn : (if s.contains (idAdapter cmp) x then Fixed.add (idAdapter cmp) t x else some t) =
        some (meetWith cmp s t x) := by
      rw [meetWith, Fixed.add_eq h (Nat.le_succ_of_le (hfilled.height_le (by omega)))]
      split_ifs <;> rfl
    rw [length_cons] at hcount
    rw [foldlM_cons, hturn]
    refine ih hxs hinv hfilled' (fun z hz y hy => ?_) (by omega)
    rcases hmem z hz with hz | rfl
    · exact hless z hz y (mem_cons_of_mem _ hy)
    · exact hx y hy

/-- The numbers of items of both lists that the lockstep of `subsetOf` goes past. -/
def compared (cmp : T → T → Ordering) : List T → List T → Nat × Nat
  | [], _ => (0, 0)
  | _ :: _, [] => (0, 0)
  | x :: xs, y :: ys =>
    match cmp x y with
    | .eq => ((compared cmp xs ys).1 + 1, (compared cmp xs ys).2 + 1)
    | .lt => (0, 0)
    | .gt => ((compared cmp (x :: xs) ys).1, (compared cmp (x :: xs) ys).2 + 1)

/-- The stack holds an iterator and the next `n` ones. -/
def HoldsNext (root : Node T) (n : Nat) (stack : VisitStack) : Prop :=
  ∀ k ≤ n, ((iterNext root)^[k] stack).length ≤ maxHeight

theorem holdsNext_zero {root : Node T} {stack : VisitStack} (h : stack.length ≤ maxHeight) : HoldsNext root 0 stack := by
  intro k hk
  obtain rfl := Nat.le_zero.mp hk
  exact h

theorem holdsNext_succ {root : Node T} {n : Nat} {stack : VisitStack} (h : stack.length ≤ maxHeight) :
    HoldsNext root (n + 1) stack ↔ HoldsNext root n (iterNext root stack) := by
  constructor
  · exact fun hnext k hk => hnext (k + 1) (Nat.succ_le_succ hk)
  · intro hnext k hk
    cases k with
    | zero => exact h
    | succ k => exact hnext k (Nat.le_of_succ_le_succ hk)

/-- An iterator that is not ended has a stack. -/
theorem Visits.ne_nil {root : Node T} {stack : VisitStack} {xs : List T} (h : Visits root stack xs) (hxs : xs ≠ []) :
    stack ≠ [] := by
  rintro rfl
  exact hxs (h.ended.mp rfl)

omit [TransCmp cmp] in
/-- The lockstep of `subsetOf` is the one of the lists, as far as the stacks hold the iterators. -/
theorem attempt_subsetTurn {a b : Node T} {fuel : Nat} {i j : VisitStack} {xs ys : List T}
    (hi : Visits a i xs) (hj : Visits b j ys) (hil : i.length ≤ maxHeight) (hjl : j.length ≤ maxHeight)
    (hfuel : ys.length < fuel) :
    SucceedsWhen (HoldsNext a (compared cmp xs ys).1 i ∧ HoldsNext b (compared cmp xs ys).2 j)
      (Loop.attempt (subsetTurn cmp a b) fuel (i, j)) (included cmp xs ys) := by
  induction fuel generalizing i j xs ys with
  | zero => exact absurd hfuel (Nat.not_lt_zero _)
  | succ fuel ih =>
    have hitem := hi.item
    have hitem' := hj.item
    have hended := hi.ended
    have hstop : ∀ {answer}, subsetTurn cmp a b (i, j) = some (.inr answer) →
        SucceedsWhen (HoldsNext a 0 i ∧ HoldsNext b 0 j) (Loop.attempt (subsetTurn cmp a b) (fuel + 1) (i, j)) answer :=
      fun h => ⟨fun _ => Loop.attempt_succ_inr h fuel,
        fun hnot => absurd ⟨holdsNext_zero hil, holdsNext_zero hjl⟩ hnot⟩
    cases xs with
    | nil =>
      rw [compared, included]
      apply hstop
      unfold subsetTurn
      rw [hended.mpr rfl]
      simp only [hitem, head?_nil]
    | cons x xs =>
      have hgoes : iterEnded i = false := by
        rw [← Bool.not_eq_true, hended]
        exact cons_ne_nil _ _
      cases ys with
      | nil =>
        rw [compared, included]
        apply hstop
        unfold subsetTurn
        rw [hgoes]
        simp only [hitem, hitem', head?_cons, head?_nil]
      | cons y ys =>
        have hfuel' : ys.length < fuel := Nat.lt_of_succ_lt_succ hfuel
        rw [head?_cons] at hitem hitem'
        have hnext := Fixed.next_eq a (hi.ne_nil (cons_ne_nil x xs)) hil
        have hnext' := Fixed.next_eq b (hj.ne_nil (cons_ne_nil y ys)) hjl
        cases hcmp : cmp x y with
        | eq =>
          have hturn : subsetTurn cmp a b (i, j) = (Fixed.held (iterNext a i)).bind fun i =>
              (Fixed.held (iterNext b j)).map fun j => .inl (i, j) := by
            unfold subsetTurn
            simp only [hitem, hitem', hcmp, hnext, hnext']
          simp only [compared, included, hcmp, holdsNext_succ hil, holdsNext_succ hjl]
          by_cases hil' : (iterNext a i).length ≤ maxHeight
          · by_cases hjl' : (iterNext b j).length ≤ maxHeight
            · rw [Fixed.held_eq hil', Fixed.held_eq hjl'] at hturn
              rw [Loop.attempt_succ_inl hturn]
              exact ih hi.next hj.next hil' hjl' hfuel'
            · rw [Fixed.held_eq hil', Fixed.held, if_neg hjl'] at hturn
              exact ⟨fun h => absurd (h.2 0 (Nat.zero_le _)) hjl', fun _ => Loop.attempt_succ_none hturn fuel⟩
          · rw [Fixed.held, if_neg hil'] at hturn
            exact ⟨fun h => absurd (h.1 0 (Nat.zero_le _)) hil', fun _ => Loop.attempt_succ_none hturn fuel⟩
        | lt =>
          simp only [compared, included, hcmp]
          apply hstop
          unfold subsetTurn
          simp only [hitem, hitem', hcmp]
        | gt =>
          have hturn : subsetTurn cmp a b (i, j) = (Fixed.held (iterNext b j)).map fun j => .inl (i, j) := by
            unfold subsetTurn
            simp only [hitem, hitem', hcmp, hnext']
          simp only [compared, included, hcmp, holdsNext_succ hjl]
          by_cases hjl' : (iterNext b j).length ≤ maxHeight
          · rw [Fixed.held_eq hjl'] at hturn
            rw [Loop.attempt_succ_inl hturn]
            exact ih hi hj.next hil hjl' hfuel'
          · rw [Fixed.held, if_neg hjl'] at hturn
            exact ⟨fun h => absurd (h.2 0 (Nat.zero_le _)) hjl', fun _ => Loop.attempt_succ_none hturn fuel⟩

/-- The nodes of the tree up to the one of index `n` are among its 31 first levels. -/
def LowUpTo (t : GenTree T) (n : Nat) : Prop := ∀ d ∈ (t.root.depths 0).take (n + 1), d < 31

omit [TransCmp cmp] in
theorem lowUpTo_iff (n : Nat) : LowUpTo t n ↔ HoldsNext t.root n t.begin := by
  have hlength := fun k => (t.begin_visits.iterate k).length
  constructor
  · intro h k hk
    rw [hlength k]
    cases hget : (t.root.depths 0)[k]? with
    | none => exact Nat.zero_le _
    | some d =>
      have hlow := h d (mem_of_getElem? (by rw [getElem?_take_of_lt (Nat.lt_succ_of_le hk), hget]))
      exact Nat.succ_le_succ hlow
  · intro h d hd
    obtain ⟨k, hget⟩ := mem_iff_getElem?.mp hd
    rw [getElem?_take] at hget
    split_ifs at hget with hk
    have hle := h k (Nat.le_of_lt_succ hk)
    rw [hlength k, hget] at hle
    exact Nat.le_of_succ_le_succ hle

/-! ## The operations -/

omit [TransCmp cmp] in
/-- A loop over a set that leaves it as it is. -/
theorem walk_update {sets : Trees ι T} {i j : ι} (hij : i ≠ j) {fits : GenTree T → T → Prop}
    {f : GenTree T → T → GenTree T} {g : GenTree T → T → Option (GenTree T)}
    (hg : ∀ t x, t.Invariant (idAdapter cmp) → SucceedsWhen (fits t x) (g t x) (f t x))
    (hf : ∀ t x, t.Invariant (idAdapter cmp) → (f t x).Invariant (idAdapter cmp))
    (h : (sets i).Invariant (idAdapter cmp)) :
    SucceedsWhen ((sets j).root.height ≤ 31 ∧ FitsFold fits f (dataList (sets j).root) (sets i))
      (Fixed.walk (fun sets => (sets j).root) (fun sets x => (g (sets i) x).map (update sets i)) sets)
      (update sets i ((dataList (sets j).root).foldl f (sets i))) := by
  obtain ⟨hsome, hnone⟩ := foldlM_update hg hf (dataList (sets j).root) sets i h
  rw [Fixed.walk_eq]
  · by_cases hlow : (sets j).root.height ≤ 31
    · have hlt : (sets j).root.height < maxHeight := Nat.lt_succ_of_le hlow
      rw [if_pos hlt]
      exact ⟨fun hfits => hsome hfits.2, fun hfits => hnone fun h => hfits ⟨hlow, h⟩⟩
    · have hlt : ¬(sets j).root.height < maxHeight := fun hlt => hlow (Nat.le_of_lt_succ hlt)
      rw [if_neg hlt]
      exact ⟨fun hfits => absurd hfits.1 hlow, fun _ => rfl⟩
  · intro sets x sets' hbody
    obtain ⟨t, -, rfl⟩ := map_eq_some_iff.mp hbody
    rw [update_of_ne hij.symm]

/-- The call gives the receiver this set of elements, in a balanced search tree, and changes no other set. -/
def GivesSet (cmp : T → T → Ordering) (sets : Trees ι T) (i : ι) (call : Option (Trees ι T)) (xs : Set T) : Prop :=
  ∃ u, call = some (update sets i u) ∧ u.Invariant (idAdapter cmp) ∧ u.elements cmp = xs

omit [TransCmp cmp] in
theorem gives_iff {sets : Trees ι T} {i : ι} {call : Option (Trees ι T)} {u : GenTree T} {xs : Set T} {p : Prop}
    (hcall : SucceedsWhen p call (update sets i u)) (hinv : u.Invariant (idAdapter cmp)) (hxs : u.elements cmp = xs) :
    GivesSet cmp sets i call xs ↔ p := by
  constructor
  · rintro ⟨u', hu', -⟩
    by_contra hnot
    rw [hcall.2 hnot] at hu'
    cases hu'
  · exact fun hp => ⟨u, hcall.1 hp, hinv, hxs⟩

theorem join_iff {sets : Trees ι T} (h : ∀ k, (sets k).Invariant (idAdapter cmp)) {i j : ι} (hij : i ≠ j) :
    GivesSet cmp sets i (join cmp sets i j) ((sets i).elements cmp ∪ (sets j).elements cmp) ↔
      (sets j).root.height ≤ 31 ∧
        FitsFold (AddFits (idAdapter cmp)) (GenTree.add (idAdapter cmp)) (dataList (sets j).root) (sets i) := by
  obtain ⟨hinv, helements⟩ := elements_foldl_add (dataList (sets j).root) (h i)
  refine gives_iff (walk_update hij (fun t x ht => Fixed.add_succeeds ht x) (fun t x ht => ht.add x) (h i)) hinv
    (helements.trans ?_)
  rw [(h j).represents.elements_eq]

theorem diff_iff {sets : Trees ι T} (h : ∀ k, (sets k).Invariant (idAdapter cmp)) {i j : ι} (hij : i ≠ j) :
    GivesSet cmp sets i (diff cmp sets i j) ((sets i).elements cmp \ (sets j).elements cmp) ↔
      (sets j).root.height ≤ 31 ∧
        FitsFold (RemovalFits (idAdapter cmp)) (GenTree.remove (idAdapter cmp)) (dataList (sets j).root) (sets i) := by
  obtain ⟨hinv, helements⟩ := elements_foldl_remove (dataList (sets j).root) (h i)
  refine gives_iff (walk_update hij (fun t x ht => Fixed.removeByKey_succeeds ht x) (fun t x ht => ht.remove x) (h i))
    hinv (helements.trans ?_)
  rw [(h j).represents.elements_eq]

theorem meet_iff {sets : Trees ι T} (h : ∀ k, (sets k).Invariant (idAdapter cmp)) {i j : ι} :
    GivesSet cmp sets i (meet cmp sets i j) ((sets i).elements cmp ∩ (sets j).elements cmp) ↔
      (sets i).root.height ≤ 31 := by
  obtain ⟨hinv, helements⟩ :=
    elements_foldl_meet (sets j) (dataList (sets i).root) (GenTree.invariant_empty (idAdapter cmp))
  obtain ⟨freed, hclear, -⟩ := (sets i).clear_spec
  refine gives_iff ?_ hinv (helements.trans ?_)
  · rw [meet, Fixed.walk_eq fun _ _ _ _ => rfl]
    by_cases hlow : (sets i).root.height ≤ 31
    · have hlt : (sets i).root.height < maxHeight := Nat.lt_succ_of_le hlow
      have hcount : (dataList (sets i).root).length < 2 ^ 31 := by
        rw [length_dataList]
        exact (numNodes_lt _).trans_le (Nat.pow_le_pow_right (by decide) hlow)
      have hincreasing : Sorted cmp (dataList (sets i).root) := (h i).increasing
      obtain ⟨hfold, hheight⟩ := foldlM_meetWith (sets j) hincreasing (GenTree.invariant_empty _) trivial nofun
        (by rw [GenTree.empty, numNodes, Nat.zero_add]; exact hcount)
      have hcopied := (Fixed.copyFrom_eq (Nat.le_succ_of_le hheight)).trans (GenTree.Invariant.copyFrom_eq hinv)
      rw [if_pos hlt, hfold, bind_some, Fixed.clear_eq (Nat.le_of_lt hlt), hclear, bind_some, hcopied]
      exact ⟨fun _ => rfl, fun hnot => absurd hlow hnot⟩
    · have hlt : ¬(sets i).root.height < maxHeight := fun hlt => hlow (Nat.le_of_lt_succ hlt)
      rw [if_neg hlt]
      exact ⟨fun hle => absurd hle hlow, fun _ => rfl⟩
  · rw [elements_empty, Set.empty_union, (h i).represents.elements_eq]
    ext z
    rw [Set.mem_inter_iff]
    constructor
    · rintro ⟨y, hy, heq⟩
      obtain ⟨hmem, hin⟩ := mem_filter.mp hy
      have hin' : y ∈ (sets j).elements cmp := hin
      rw [(h j).represents.elements_eq, ← mem_elements_congr heq] at hin'
      exact ⟨⟨y, hmem, heq⟩, by rwa [(h j).represents.elements_eq]⟩
    · rintro ⟨⟨y, hmem, heq⟩, hin⟩
      rw [(h j).represents.elements_eq, mem_elements_congr heq,
        ← (h j).represents.elements_eq] at hin
      exact ⟨y, mem_filter.mpr ⟨hmem, hin⟩, heq⟩

theorem subsetOf_iff {t s : GenTree T} (ht : t.Invariant (idAdapter cmp)) (hs : s.Invariant (idAdapter cmp)) :
    (∃ b, subsetOf cmp t s = some b ∧ (b = true ↔ t.elements cmp ⊆ s.elements cmp)) ↔
      LowUpTo t (compared cmp (dataList t.root) (dataList s.root)).1 ∧
        LowUpTo s (compared cmp (dataList t.root) (dataList s.root)).2 := by
  have hbegin : ∀ u : GenTree T, Fixed.visit u.root [] [] = Fixed.held u.begin := fun u =>
    Fixed.visit_eq u.root [] (Nat.zero_le _)
  have hcall : SucceedsWhen (LowUpTo t (compared cmp (dataList t.root) (dataList s.root)).1 ∧
      LowUpTo s (compared cmp (dataList t.root) (dataList s.root)).2) (subsetOf cmp t s)
      (included cmp (dataList t.root) (dataList s.root)) := by
    rw [subsetOf, hbegin, hbegin, lowUpTo_iff, lowUpTo_iff]
    by_cases htl : t.begin.length ≤ maxHeight
    · by_cases hsl : s.begin.length ≤ maxHeight
      · rw [Fixed.held_eq htl, Fixed.held_eq hsl]
        exact attempt_subsetTurn t.begin_visits s.begin_visits htl hsl (by rw [length_dataList]; exact Nat.lt_succ_self _)
      · rw [Fixed.held_eq htl, Fixed.held, if_neg hsl]
        exact ⟨fun h => absurd (h.2 0 (Nat.zero_le _)) hsl, fun _ => rfl⟩
    · rw [Fixed.held, if_neg htl]
      exact ⟨fun h => absurd (h.1 0 (Nat.zero_le _)) htl, fun _ => rfl⟩
  have hxs : Sorted cmp (dataList t.root) := ht.increasing
  have hys : Sorted cmp (dataList s.root) := hs.increasing
  have hincluded := included_iff hxs hys
  rw [← ht.represents.elements_eq, ← hs.represents.elements_eq] at hincluded
  constructor
  · rintro ⟨b, hb, -⟩
    by_contra hnot
    rw [hcall.2 hnot] at hb
    cases hb
  · exact fun hlow => ⟨_, hcall.1 hlow, hincluded⟩

/-- On two different sets of a program, `join`, `meet` and `diff` give the receiver the union, the intersection and
the difference, a balanced search tree again, and change no other set, and `subsetOf` tells the inclusion, exactly
when the stacks hold what is stacked. -/
theorem set_operations {sets : Trees ι T} (h : ∀ k, (sets k).Invariant (idAdapter cmp)) {i j : ι} (hij : i ≠ j) :
    (GivesSet cmp sets i (join cmp sets i j) ((sets i).elements cmp ∪ (sets j).elements cmp) ↔
      (sets j).root.height ≤ 31 ∧
        FitsFold (AddFits (idAdapter cmp)) (GenTree.add (idAdapter cmp)) (dataList (sets j).root) (sets i)) ∧
    (GivesSet cmp sets i (meet cmp sets i j) ((sets i).elements cmp ∩ (sets j).elements cmp) ↔
      (sets i).root.height ≤ 31) ∧
    (GivesSet cmp sets i (diff cmp sets i j) ((sets i).elements cmp \ (sets j).elements cmp) ↔
      (sets j).root.height ≤ 31 ∧
        FitsFold (RemovalFits (idAdapter cmp)) (GenTree.remove (idAdapter cmp)) (dataList (sets j).root) (sets i)) ∧
    ((∃ b, subsetOf cmp (sets i) (sets j) = some b ∧ (b = true ↔ (sets i).elements cmp ⊆ (sets j).elements cmp)) ↔
      LowUpTo (sets i) (compared cmp (dataList (sets i).root) (dataList (sets j).root)).1 ∧
        LowUpTo (sets j) (compared cmp (dataList (sets i).root) (dataList (sets j).root)).2) :=
  ⟨join_iff h hij, meet_iff h, diff_iff h hij, subsetOf_iff (h i) (h j)⟩

/-- Two sets of numbers with a common element. -/
def twoSets : Trees Bool Nat := fun b =>
  if b then ⟨node ⟨2, -1⟩ (node ⟨1, 0⟩ nil nil) nil, 2⟩ else ⟨node ⟨2, 1⟩ nil (node ⟨3, 0⟩ nil nil), 2⟩

theorem set_operations_twoSets :
    GivesSet compare twoSets true (join compare twoSets true false)
      ((twoSets true).elements compare ∪ (twoSets false).elements compare) ∧
    GivesSet compare twoSets true (meet compare twoSets true false)
      ((twoSets true).elements compare ∩ (twoSets false).elements compare) ∧
    GivesSet compare twoSets true (diff compare twoSets true false)
      ((twoSets true).elements compare \ (twoSets false).elements compare) ∧
    ∃ b, subsetOf compare (twoSets true) (twoSets false) = some b ∧
      (b = true ↔ (twoSets true).elements compare ⊆ (twoSets false).elements compare) := by
  have hinv : ∀ k, (twoSets k).Invariant (idAdapter compare) := by
    intro k
    cases k
    · exact ⟨by unfold Increasing; decide, by simp [twoSets], rfl⟩
    · exact ⟨by unfold Increasing; decide, by simp [twoSets], rfl⟩
  obtain ⟨hjoin, hmeet, hdiff, hsubset⟩ :=
    @set_operations Bool Nat _ compare _ twoSets hinv true false (by decide)
  refine ⟨hjoin.mpr ⟨by decide, ?_, ?_, trivial⟩, hmeet.mpr (by decide),
    hdiff.mpr ⟨by decide, .inl ?_, ?_, trivial⟩, hsubset.mpr ⟨?_, ?_⟩⟩
  · show _ ≤ _
    decide
  · show _ ≤ _
    decide
  · decide
  · show _ ≤ _
    decide
  · show ∀ d ∈ _, d < 31
    decide
  · show ∀ d ∈ _, d < 31
    decide

/-- The iteration of `join` over a set of 32 levels is stopped. -/
theorem not_set_operations :
    ¬ ∀ (sets : Trees Bool Nat), (∀ k, (sets k).Invariant (idAdapter compare)) →
      GivesSet compare sets true (join compare sets true false)
        ((sets true).elements compare ∪ (sets false).elements compare) := by
  intro h
  let sets : Trees Bool Nat := fun b => if b then GenTree.empty else ⟨fibTree 32 0, (fibTree 32 0).numNodes⟩
  obtain ⟨u, hu, -⟩ := h sets fun k => by
    cases k
    · exact ⟨increasing_fibTree 32 0, balanced_fibTree 32 0, rfl⟩
    · exact GenTree.invariant_empty _
  rw [join, Fixed.walk_eq, if_neg] at hu
  · cases hu
  · show ¬(fibTree 32 0).height < maxHeight
    rw [height_fibTree]
    decide
  · intro sets x sets' hbody
    obtain ⟨t, -, rfl⟩ := map_eq_some_iff.mp hbody
    exact congrArg GenTree.root (update_of_ne (by decide) _ _)

/-! ## `avl::Queue` -/

/-- The loop of `Queue::head`. -/
def headLoop : Node T → Option T
  | nil => none
  | node c nil _ => some c.data
  | node _ (node c l r) _ => headLoop (node c l r)

/-- `Queue::get`, which stops on an empty queue. -/
def queueGet (t : GenTree T) : Option (T × GenTree T) := do
  match ← Fixed.leftMost 0 [] t.root with
  | (nil, _) => none
  | (node c l r, s) => (Fixed.removeNode t s (node c l r)).map fun t => (c.data, t)

/-- The calls of a queue. -/
inductive QueueOp (T : Type*)
  | put (x : T)
  | get
  | head
  | reset

variable (cmp) in
/-- A call of a queue, with the item that it gives. -/
def QueueOp.run (t : GenTree T) : QueueOp T → Option (Option T × GenTree T)
  | .put x => (Fixed.add (idAdapter cmp) t x).map fun t => (none, t)
  | .get => (queueGet t).map fun r => (some r.1, r.2)
  | .head => (headLoop t.root).map fun x => (some x, t)
  | .reset => (Fixed.clear t).map fun r => (none, r.1)

variable (cmp) in
/-- The calls on a sorted list: an item that has an equal one is not put, and the least one is given. -/
def QueueOp.perform (xs : List T) : QueueOp T → Option (Option T × List T)
  | .put x => some (none, union cmp xs [x])
  | .get => xs.head?.map fun x => (some x, xs.tail)
  | .head => xs.head?.map fun x => (some x, xs)
  | .reset => some (none, [])

/-- What a sequence of calls gives; it stops at a failed assertion. -/
def answers {S : Type*} (call : S → QueueOp T → Option (Option T × S)) : S → List (QueueOp T) → Option (List (Option T))
  | _, [] => some []
  | s, op :: ops => (call s op).bind fun r => (answers call r.2 ops).map (r.1 :: ·)

/-- The head of the queue is the first item in the order of the tree. -/
theorem headLoop_eq (n : Node T) : headLoop n = (dataList n).head? := by
  induction n with
  | nil => rfl
  | node c l r ihl _ =>
    cases l with
    | nil => simp [headLoop]
    | node d a b =>
      rw [headLoop, ihl, dataList_node (l := node d a b), head?_append]
      cases hdata : dataList (node d a b) with
      | nil => simp at hdata
      | cons x xs => rfl

omit [TransCmp cmp] in
/-- `get` gives the first item and takes it out of the tree. -/
theorem queueGet_spec (h : t.Invariant (idAdapter cmp)) (hlow : t.root.height ≤ 31) {x : T} {xs : List T}
    (hdata : dataList t.root = x :: xs) :
    ∃ t', queueGet t = some (x, t') ∧ t'.Invariant (idAdapter cmp) ∧ dataList t'.root = xs := by
  cases hroot : t.root with
  | nil =>
    rw [hroot] at hdata
    cases hdata
  | node c l r =>
    obtain ⟨p, pr, above, heq, hup, hbefore⟩ := leftMost_spec [] c l r
    have hlist : dataList t.root = p.data :: (dataList pr ++ dataAfter above) := by
      rw [hroot, ← hup, dataList_unwind, hbefore]
      simp
    obtain ⟨rfl, rfl⟩ := List.cons.inj (hdata.symm.trans hlist)
    rw [append_nil] at heq
    have hnew : dataList (t.removeNode above (node p nil pr)).root = dataList pr ++ dataAfter above := by
      rw [dataList_removeNode, hbefore]
      simp
    refine ⟨t.removeNode above (node p nil pr), ?_, ⟨?_, ?_, ?_⟩, hnew⟩
    · have hlength := length_add_height_le (node p nil pr) above
      rw [hup, ← hroot, height] at hlength
      have hfits : above.length < maxHeight := by
        rw [maxHeight]
        omega
      have hleft := (Fixed.leftMost_succeeds 0 (node c l r) (s := []) (Nat.zero_le _)).1
        (by rw [heq, Nat.zero_add]; exact Nat.le_of_lt hfits)
      have hremove := (Fixed.removeNode_succeeds (t := t) (Nat.le_of_lt hfits)
        (show Balanced (unwind (node p nil pr) above) by rw [hup, ← hroot]; exact h.balanced)).1 (.inl hfits)
      rw [heq, ← hroot] at hleft
      simp only [queueGet, hleft, bind_eq_bind, bind_some, hremove, map_some]
    · rw [hnew]
      have hinc := h.increasing
      rw [hlist] at hinc
      exact hinc.of_cons
    · exact balanced_removeNode t above p nil pr (by rw [hup, ← hroot]; exact h.balanced)
    · rw [cnt_removeNode, h.cnt_eq, ← length_dataList, ← length_dataList, hnew, hlist, length_cons]
      omega

/-- `put` is the union with one item. -/
theorem dataList_put (h : t.Invariant (idAdapter cmp)) (x : T) :
    dataList (t.add (idAdapter cmp) x).root = union cmp (dataList t.root) [x] := by
  have hbefore : ∀ {xs ys : List T}, (∀ y ∈ xs, cmp y x = .lt) → union cmp (xs ++ ys) [x] = xs ++ union cmp ys [x] := by
    intro xs ys hxs
    induction xs with
    | nil => rfl
    | cons y xs ih =>
      rw [cons_append, union, hxs y mem_cons_self]
      exact congrArg (y :: ·) (ih fun z hz => hxs z (mem_cons_of_mem _ hz))
  rcases (h.add_spec x).2 with ⟨xs, ys, hold, haround, hnew⟩ | ⟨⟨y, hy, heq⟩, hsame⟩
  · rw [hnew, hold, hbefore haround.1]
    cases ys with
    | nil => rw [union]
    | cons y ys =>
      have hgt : cmp y x = .gt := OrientedCmp.gt_of_lt (haround.2 y mem_cons_self)
      rw [union, hgt]
      simp only [union]
  · obtain ⟨xs, ys, hlist⟩ := append_of_mem hy
    have hinc := h.increasing
    rw [hlist] at hinc
    have hlt : ∀ z ∈ xs, cmp z x = .lt := fun z hz =>
      TransCmp.lt_of_lt_of_eq (hinc.around_middle.1 z hz) (OrientedCmp.eq_symm heq)
    have hyx : cmp y x = .eq := OrientedCmp.eq_symm heq
    rw [hsame, hlist, hbefore hlt, union, hyx]
    cases ys <;> simp only [union]

/-- A call of the queue gives what the call on its items gives. -/
theorem QueueOp.run_spec (h : t.Invariant (idAdapter cmp)) (hlow : t.root.height ≤ 31) (op : QueueOp T) :
    (op.run cmp t = none ∧ op.perform cmp (dataList t.root) = none) ∨
      ∃ answer t', op.run cmp t = some (answer, t') ∧ t'.Invariant (idAdapter cmp) ∧
        op.perform cmp (dataList t.root) = some (answer, dataList t'.root) := by
  cases op with
  | put x =>
    refine Or.inr ⟨none, t.add (idAdapter cmp) x, ?_, h.add x, ?_⟩
    · rw [run, Fixed.add_eq h (Nat.le_succ_of_le hlow)]
      rfl
    · rw [perform, dataList_put h]
  | get =>
    cases hdata : dataList t.root with
    | nil =>
      refine Or.inl ⟨?_, rfl⟩
      cases hroot : t.root with
      | nil =>
        simp [run, queueGet, hroot, Fixed.leftMost]
      | node c l r =>
        rw [hroot] at hdata
        simp at hdata
    | cons x xs =>
      obtain ⟨t', hget, hinv, hnew⟩ := queueGet_spec h hlow hdata
      refine Or.inr ⟨some x, t', ?_, hinv, ?_⟩
      · rw [run, hget]
        rfl
      · rw [hnew]
        rfl
  | head =>
    rw [run, perform, headLoop_eq]
    cases hdata : dataList t.root with
    | nil => exact Or.inl ⟨rfl, rfl⟩
    | cons x xs => exact Or.inr ⟨some x, t, rfl, h, by rw [hdata]; rfl⟩
  | reset =>
    obtain ⟨freed, hclear, -⟩ := t.clear_spec
    refine Or.inr ⟨none, GenTree.empty, ?_, GenTree.invariant_empty _, rfl⟩
    rw [run, Fixed.clear_eq (Nat.le_succ_of_le hlow), hclear]
    rfl

/-- The call puts an item. -/
def QueueOp.isPut : QueueOp T → Bool
  | .put _ => true
  | _ => false

omit [TransCmp cmp] in
/-- A call adds an item to the list at most, and only if it puts one. -/
theorem QueueOp.length_perform {op : QueueOp T} {xs ys : List T} {answer : Option T}
    (h : op.perform cmp xs = some (answer, ys)) : ys.length ≤ xs.length + [op].countP isPut := by
  have hput : ∀ (xs : List T) (x : T), (union cmp xs [x]).length ≤ xs.length + 1 := by
    intro xs x
    induction xs with
    | nil => simp [union]
    | cons y xs ih =>
      rw [union]
      cases cmp y x with
      | lt => simpa using ih
      | eq => cases xs <;> simp [union]
      | gt => simp [union]
  cases op with
  | put x =>
    obtain rfl := congrArg Prod.snd (some.inj h)
    exact hput xs x
  | reset =>
    obtain rfl := congrArg Prod.snd (some.inj h)
    exact Nat.zero_le _
  | get =>
    obtain ⟨x, -, hx⟩ := map_eq_some_iff.mp h
    obtain rfl := congrArg Prod.snd hx
    rw [length_tail]
    exact (Nat.sub_le _ _).trans (Nat.le_add_right _ _)
  | head =>
    obtain ⟨x, -, hx⟩ := map_eq_some_iff.mp h
    obtain rfl := congrArg Prod.snd hx
    exact Nat.le_add_right _ _

/-- A queue in which at most 5702885 items are put answers any sequence of calls as a sorted list does, and stops where
this list is empty. -/
theorem queue_answers (ops : List (QueueOp T)) (hops : ops.countP QueueOp.isPut ≤ 5702885) :
    answers (QueueOp.run cmp) GenTree.empty ops = answers (QueueOp.perform cmp) [] ops := by
  have hrun : ∀ (ops : List (QueueOp T)) (t : GenTree T), t.Invariant (idAdapter cmp) →
      (dataList t.root).length + ops.countP QueueOp.isPut ≤ 5702885 →
      answers (QueueOp.run cmp) t ops = answers (QueueOp.perform cmp) (dataList t.root) ops := by
    intro ops
    induction ops with
    | nil =>
      intro t _ _
      rw [answers, answers]
    | cons op ops ih =>
      intro t h hcount
      rw [← singleton_append, countP_append] at hcount
      have hnum := length_dataList t.root
      have hlow : t.root.height ≤ 31 := height_le_of_numNodes h.balanced (by omega)
      rcases QueueOp.run_spec h hlow op with ⟨hrun, hperform⟩ | ⟨answer, t', hrun, hinv, hperform⟩
      · rw [answers, answers, hrun, hperform]
        rfl
      · have hlength := QueueOp.length_perform hperform
        rw [answers, answers, hrun, hperform, bind_some, bind_some, ih t' hinv (by omega)]
  exact hrun ops GenTree.empty (GenTree.invariant_empty _) (by rwa [show dataList (GenTree.empty : GenTree T).root = [] from rfl,
    length_nil, Nat.zero_add])

/-- An item is put twice and given once. -/
theorem queue_answers_twice :
    answers (QueueOp.run compare) GenTree.empty [.put 3, .put 1, .put 3, .get, .get] =
        some [none, none, none, some 1, some 3] ∧
      answers (QueueOp.run compare) GenTree.empty [.put 3, .put 3, .get, .get] = (none : Option (List (Option ℕ))) := by
  rw [queue_answers _ (by decide), queue_answers _ (by decide)]
  have h31 : compare 3 1 = Ordering.gt := by decide
  have h13 : compare 1 3 = Ordering.lt := by decide
  constructor
  · simp [answers, QueueOp.perform, union, h31, h13]
  · simp [answers, QueueOp.perform, union]

end Elm.Avl
