import Elm.Avl.SetOps

/-!
# Runs over `avl::Map`s

A program holds any number of maps, all empty at the start, and applies to them any sequence of `put`, `remove`,
`copy` and `clear`.  What a map should hold is said by the last `put` of each key.  `put` goes to the `set` of the
tree, which keeps a pair that is already there, `contains` asks that all the values are equal to its argument, and
`equals` compares the keys only.
-/

namespace Elm.Avl

open List hiding nil
open BinaryTree Std Function Option

/-! ## The observers -/

section Observers

variable {T K V : Type*}

/-- One turn of the loop of `GenTree::equals`. -/
def equalsTurn (A : Adapter T K) (a b : Node T) (s : VisitStack × VisitStack) : (VisitStack × VisitStack) ⊕ Bool :=
  match iterItem a s.1, iterItem b s.2 with
  | some x, some y =>
    if A.compare (A.key x) (A.key y) = .eq then .inl (iterNext a s.1, iterNext b s.2) else .inr false
  | _, _ => .inr (iterEnded s.1 && iterEnded s.2)

/-- `GenTree::equals`. -/
def GenTree.equals (A : Adapter T K) (t s : GenTree T) : Option Bool :=
  Loop.run (equalsTurn A t.root s.root) (t.root.numNodes + 1) (t.begin, s.begin)

/-- `Map::get`. -/
def Map.get (cmp : K → K → Ordering) (m : Map K V) (key : K) : Option V :=
  (GenTree.get (pairAdapter V cmp) m key).map Prod.snd

/-- `Map::contains`. -/
def Map.contains (isEqual : V → V → Bool) (m : Map K V) (x : V) : Option Bool :=
  walk (fun _ => m.root) (fun _ y => if !isEqual x y.2 then .inr false else .inl ()) (fun _ => true) ()

/-- `Map::equals`. -/
def Map.equals (cmp : K → K → Ordering) (m n : Map K V) : Option Bool := GenTree.equals (pairAdapter V cmp) m n

/-! ## Looking for a key -/

variable {A : Adapter T K} [TransCmp A.compare] {t : GenTree T}

theorem hasKey_congr {key key' : K} (h : A.compare key key' = .eq) : hasKey A key = hasKey A key' := by
  funext x
  rw [Bool.eq_iff_iff, hasKey_iff, hasKey_iff]
  constructor
  · exact fun hx => TransCmp.eq_trans (OrientedCmp.eq_symm h) hx
  · exact fun hx => TransCmp.eq_trans h hx

/-- The item of a key is the one of the in-order list that has it. -/
theorem GenTree.Invariant.get_eq_some (h : t.Invariant A) {key : K} {x : T} :
    t.get A key = some x ↔ x ∈ dataList t.root ∧ A.compare key (A.key x) = .eq := by
  rw [← h.represents.find? key]
  constructor
  · intro hfind
    exact ⟨mem_of_find?_eq_some hfind, hasKey_iff.mp (find?_some hfind)⟩
  · rintro ⟨hmem, hkey⟩
    -- some item is found, and no other one has this key
    have hsome : ((dataList t.root).find? (hasKey A key)).isSome = true := by
      rw [find?_isSome]
      exact ⟨x, hmem, hasKey_iff.mpr hkey⟩
    obtain ⟨y, hy⟩ := isSome_iff_exists.mp hsome
    rw [hy]
    have hykey : hasKey A key y = true := find?_some hy
    have hymem := mem_of_find?_eq_some hy
    by_contra hne
    have : Std.Symm fun x y : T => ¬(hasKey A key x = true ∧ hasKey A key y = true) :=
      ⟨fun a b hab hba => hab hba.symm⟩
    have hunique := (h.increasing.hasKey_unique key).forall hymem hmem (fun heq => hne (congrArg some heq))
    exact hunique ⟨hykey, hasKey_iff.mpr hkey⟩

/-- An addition leaves the items that are there. -/
theorem GenTree.Invariant.get_add (h : t.Invariant A) (item : T) (key : K) :
    (t.add A item).get A key =
      if A.compare key (A.key item) = .eq then some ((t.get A (A.key item)).getD item) else t.get A key := by
  rw [← (h.represents.add item).find? key, ← h.represents.find? key, ← h.represents.find? (A.key item)]
  unfold addItem
  by_cases hany : (dataList t.root).any (hasKey A (A.key item)) = true
  · rw [if_pos hany]
    by_cases heq : A.compare key (A.key item) = .eq
    · rw [if_pos heq, hasKey_congr heq]
      rw [← isSome_find?] at hany
      obtain ⟨y, hy⟩ := isSome_iff_exists.mp hany
      rw [hy]
      rfl
    · rw [if_neg heq]
  · rw [if_neg hany, find?_append]
    have hnone : (dataList t.root).find? (hasKey A (A.key item)) = none := by
      rw [← isSome_find?, Bool.not_eq_true, isSome_eq_false_iff, isNone_iff_eq_none] at hany
      exact hany
    by_cases heq : A.compare key (A.key item) = .eq
    · rw [if_pos heq, hasKey_congr heq, hnone, find?_singleton, if_pos (hasKey_iff.mpr ReflCmp.compare_self)]
      rfl
    · rw [if_neg heq, find?_singleton, if_neg (fun hkey => heq (hasKey_iff.mp hkey)), or_none]

/-- A removal takes the item of its key. -/
theorem GenTree.Invariant.get_removeByKey (h : t.Invariant A) (key x : K) :
    (t.removeByKey A key).get A x = if A.compare x key = .eq then none else t.get A x := by
  rw [← (h.represents.removeByKey key).find? x, ← h.represents.find? x, find?_filter]
  by_cases heq : A.compare x key = .eq
  · rw [if_pos heq, hasKey_congr heq, find?_eq_none]
    intro y _
    cases hasKey A key y <;> decide
  · rw [if_neg heq]
    congr 1
    funext y
    by_cases hx : hasKey A x y = true
    · have hkey : hasKey A key y = false := by
        rw [← Bool.not_eq_true]
        intro hkey
        exact heq (TransCmp.eq_trans (hasKey_iff.mp hx) (OrientedCmp.eq_symm (hasKey_iff.mp hkey)))
      simp [hkey]
    · simp [hx]

omit [TransCmp A.compare] in
/-! ## The lockstep of `equals` -/

omit [TransCmp A.compare] in
theorem run_equalsTurn {a b : Node T} {fuel : Nat} {i j : VisitStack} {xs ys : List T} (hi : Visits a i xs)
    (hj : Visits b j ys) (hfuel : xs.length < fuel) :
    Loop.run (equalsTurn A a b) fuel (i, j) =
      some (SortedSet.same (fun x y => A.compare (A.key x) (A.key y)) xs ys) := by
  induction fuel generalizing i j xs ys with
  | zero => exact absurd hfuel (Nat.not_lt_zero _)
  | succ fuel ih =>
    have hitem := hi.item
    have hitem' := hj.item
    have hended := hi.ended
    have hended' := hj.ended
    cases xs with
    | nil =>
      apply Loop.run_succ_inr
      unfold equalsTurn
      cases ys with
      | nil =>
        rw [hended.mpr rfl, hended'.mpr rfl]
        simp only [hitem, head?_nil]
        rfl
      | cons y ys =>
        have hgoes : iterEnded j = false := by
          rw [← Bool.not_eq_true, hended']
          exact cons_ne_nil _ _
        rw [hgoes, Bool.and_false]
        simp only [hitem, head?_nil]
        rfl
    | cons x xs =>
      cases ys with
      | nil =>
        have hgoes : iterEnded i = false := by
          rw [← Bool.not_eq_true, hended]
          exact cons_ne_nil _ _
        apply Loop.run_succ_inr
        unfold equalsTurn
        rw [hgoes, Bool.false_and]
        simp only [hitem, hitem', head?_cons, head?_nil]
        rfl
      | cons y ys =>
        rw [head?_cons] at hitem hitem'
        rw [SortedSet.same]
        by_cases hcmp : A.compare (A.key x) (A.key y) = .eq
        · have hturn : equalsTurn A a b (i, j) = .inl (iterNext a i, iterNext b j) := by
            unfold equalsTurn
            simp only [hitem, hitem', hcmp, if_true]
          rw [Loop.run_succ_inl hturn, ih hi.next hj.next (Nat.lt_of_succ_lt_succ hfuel), if_pos hcmp]
          rfl
        · have hturn : equalsTurn A a b (i, j) = .inr false := by
            unfold equalsTurn
            simp only [hitem, hitem', if_neg hcmp]
          rw [Loop.run_succ_inr hturn, if_neg hcmp]

/-- `equals` tells whether both trees have the same keys. -/
theorem GenTree.Invariant.equals_spec {t s : GenTree T} (ht : t.Invariant A) (hs : s.Invariant A) :
    ∃ b, GenTree.equals A t s = some b ∧
      (b = true ↔ ∀ key, (t.get A key).isSome = (s.get A key).isSome) := by
  have : TransCmp fun x y : T => A.compare (A.key x) (A.key y) :=
    { eq_swap := OrientedCmp.eq_swap, isLE_trans := TransCmp.isLE_trans }
  have hxs : SortedSet.Sorted (fun x y => A.compare (A.key x) (A.key y)) (dataList t.root) := ht.increasing
  have hys : SortedSet.Sorted (fun x y => A.compare (A.key x) (A.key y)) (dataList s.root) := hs.increasing
  refine ⟨_, run_equalsTurn t.begin_visits s.begin_visits ?_, ?_⟩
  · rw [length_dataList]
    exact Nat.lt_succ_self _
  · rw [SortedSet.same_iff hxs hys]
    have hsome : ∀ {u : GenTree T}, u.Invariant A → ∀ key,
        (u.get A key).isSome = true ↔ ∃ y ∈ dataList u.root, A.compare key (A.key y) = .eq := by
      intro u hu key
      rw [isSome_iff_exists]
      simp only [hu.get_eq_some]
    constructor
    · intro heq key
      rw [Bool.eq_iff_iff, hsome ht, hsome hs]
      -- a key of one tree is the key of one of its items, which the other one has too
      constructor
      · rintro ⟨y, hy, hkey⟩
        have hmem : y ∈ SortedSet.elements (fun x y => A.compare (A.key x) (A.key y)) (dataList s.root) := by
          rw [← heq]
          exact SortedSet.mem_elements_of_mem hy
        obtain ⟨z, hz, hyz⟩ := hmem
        exact ⟨z, hz, TransCmp.eq_trans hkey hyz⟩
      · rintro ⟨y, hy, hkey⟩
        have hmem : y ∈ SortedSet.elements (fun x y => A.compare (A.key x) (A.key y)) (dataList t.root) := by
          rw [heq]
          exact SortedSet.mem_elements_of_mem hy
        obtain ⟨z, hz, hyz⟩ := hmem
        exact ⟨z, hz, TransCmp.eq_trans hkey hyz⟩
    · intro hkeys
      ext x
      have hx := hkeys (A.key x)
      rw [Bool.eq_iff_iff, hsome ht, hsome hs] at hx
      exact hx

end Observers

/-! ## The calls -/

section Calls

variable {ι K V : Type*} [DecidableEq ι] (cmp : K → K → Ordering)

/-- A call that changes one of the maps named by `ι`. -/
inductive MapOp (ι K V : Type*)
  | put (i : ι) (key : K) (value : V)
  | remove (i : ι) (key : K)
  | copy (i j : ι)
  | clear (i : ι)

/-- The call on the member `tree`. -/
def MapOp.onTree : MapOp ι K V → Op ι (K × V) K
  | .put i key value => .add i (key, value)
  | .remove i key => .removeByKey i key
  | .copy i j => .copy i j
  | .clear i => .clear i

/-- The effect of a call on the maps. -/
def mapStep (maps : Trees ι (K × V)) (op : MapOp ι K V) : Option (Trees ι (K × V)) :=
  step (pairAdapter V cmp) maps op.onTree

/-- The effect of a call on what the maps should hold. -/
def lastPut (spec : ι → K → Option V) : MapOp ι K V → ι → K → Option V
  | .put i key value =>
    update spec i fun x => if cmp x key = .eq then some value else spec i x
  | .remove i key => update spec i fun x => if cmp x key = .eq then none else spec i x
  | .copy i j => update spec i (spec j)
  | .clear i => update spec i fun _ => none

/-- The effect of a call on what the maps give: a pair that is there stays, and a map that is copied to itself is
cleared before. -/
def firstPut (spec : ι → K → Option V) : MapOp ι K V → ι → K → Option V
  | .put i key value =>
    update spec i fun x => if cmp x key = .eq then some ((spec i key).getD value) else spec i x
  | .remove i key => update spec i fun x => if cmp x key = .eq then none else spec i x
  | .copy i j => update spec i (if i = j then fun _ => none else spec j)
  | .clear i => update spec i fun _ => none

/-- The calls that do what they should: a `put` of a key that is absent or that has this value already, a `copy`
of another map or of an empty one. -/
def Keeps (spec : ι → K → Option V) : MapOp ι K V → Prop
  | .put i key value => spec i key = none ∨ spec i key = some value
  | .copy i j => i ≠ j ∨ ∀ key, spec i key = none
  | _ => True

/-- What the maps should hold, and the maps. -/
def mapBoth (s : (ι → K → Option V) × Trees ι (K × V)) (op : MapOp ι K V) :
    Option ((ι → K → Option V) × Trees ι (K × V)) :=
  Run.beside (fun spec op => some (lastPut cmp spec op)) (mapStep cmp) s op

/-- No call yet. -/
def mapStart : (ι → K → Option V) × Trees ι (K × V) := (fun _ _ => none, fun _ => GenTree.empty)

/-- What the maps of the program give. -/
def Gives (maps : Trees ι (K × V)) (i : ι) (key : K) : Option V := Map.get cmp (maps i) key

variable {cmp}

instance [TransCmp cmp] : TransCmp (pairAdapter V cmp).compare := inferInstanceAs (TransCmp cmp)

variable [TransCmp cmp] {m n : Map K V}

theorem Map.get_put (h : m.Invariant (pairAdapter V cmp)) (key : K) (value : V) (x : K) :
    Map.get cmp (m.add (pairAdapter V cmp) (key, value)) x =
      if cmp x key = .eq then some ((Map.get cmp m key).getD value) else Map.get cmp m x := by
  unfold Map.get
  rw [h.get_add]
  change Option.map Prod.snd
    (if cmp x key = .eq then some ((GenTree.get (pairAdapter V cmp) m key).getD _) else _) = _
  by_cases heq : cmp x key = .eq
  · rw [if_pos heq, if_pos heq]
    cases GenTree.get (pairAdapter V cmp) m key <;> rfl
  · rw [if_neg heq, if_neg heq]

theorem Map.get_remove (h : m.Invariant (pairAdapter V cmp)) (key x : K) :
    Map.get cmp (m.removeByKey (pairAdapter V cmp) key) x = if cmp x key = .eq then none else Map.get cmp m x := by
  unfold Map.get
  rw [h.get_removeByKey]
  change Option.map Prod.snd (if cmp x key = .eq then none else _) = _
  by_cases heq : cmp x key = .eq
  · rw [if_pos heq, if_pos heq]
    rfl
  · rw [if_neg heq, if_neg heq]

omit [TransCmp cmp] in
theorem Map.get_empty (key : K) : Map.get cmp (GenTree.empty : Map K V) key = none := rfl

omit [TransCmp cmp] in
/-- A copy of another map gives its values, and a map that is copied to itself becomes empty. -/
theorem step_copy {maps : Trees ι (K × V)} (h : ∀ k, (maps k).Invariant (pairAdapter V cmp)) (i j : ι) :
    mapStep cmp maps (.copy i j) =
      some (update maps i (if i = j then GenTree.empty else maps j)) := by
  obtain ⟨freed, hclear, -⟩ := (maps i).clear_spec
  unfold mapStep
  simp only [MapOp.onTree, step, hclear, bind_some]
  by_cases hij : i = j
  · subst hij
    rw [if_pos rfl, update_self, (GenTree.invariant_empty (pairAdapter V cmp)).copyFrom_eq,
      map_some, update_idem]
  · rw [if_neg hij, update_of_ne (Ne.symm hij), (h j).copyFrom_eq, map_some, update_idem]

omit [TransCmp cmp] in
theorem gives_update (maps : Trees ι (K × V)) (i : ι) (m : Map K V) :
    Gives cmp (update maps i m) = update (Gives cmp maps) i (Map.get cmp m) := by
  funext k key
  unfold Gives
  by_cases hk : k = i
  · subst hk
    rw [update_self, update_self]
  · rw [update_of_ne hk, update_of_ne hk]

/-- One call. -/
theorem mapStep_spec {maps : Trees ι (K × V)} (h : ∀ k, (maps k).Invariant (pairAdapter V cmp))
    (op : MapOp ι K V) :
    ∃ maps', mapStep cmp maps op = some maps' ∧ (∀ k, (maps' k).Invariant (pairAdapter V cmp)) ∧
      Gives cmp maps' = firstPut cmp (Gives cmp maps) op := by
  obtain ⟨maps', hstep, hinv⟩ := step_invariant h op.onTree
  refine ⟨maps', hstep, hinv, ?_⟩
  cases op with
  | put i key value =>
    obtain rfl := some.inj hstep
    rw [gives_update, firstPut]
    congr 1
    funext x
    exact Map.get_put (h i) key value x
  | remove i key =>
    obtain rfl := some.inj hstep
    rw [gives_update, firstPut]
    congr 1
    funext x
    exact Map.get_remove (h i) key x
  | copy i j =>
    obtain rfl := some.inj ((step_copy h i j).symm.trans hstep)
    rw [gives_update, firstPut]
    congr 1
    by_cases hij : i = j
    · rw [if_pos hij, if_pos hij]
      rfl
    · rw [if_neg hij, if_neg hij]
      rfl
  | clear i =>
    obtain ⟨freed, hclear, -⟩ := (maps i).clear_spec
    have hcleared : mapStep cmp maps (.clear i) = some (update maps i GenTree.empty) := by
      unfold mapStep
      simp only [MapOp.onTree, step, hclear, map_some]
    obtain rfl := some.inj (hcleared.symm.trans hstep)
    rw [gives_update, firstPut]
    exact congrArg _ (funext Map.get_empty)

/-- A call gives what it should exactly if it keeps to the condition. -/
theorem firstPut_eq_iff (spec : ι → K → Option V) (op : MapOp ι K V) :
    firstPut cmp spec op = lastPut cmp spec op ↔ Keeps spec op := by
  cases op with
  | put i key value =>
    simp only [firstPut, lastPut, Keeps]
    constructor
    · intro heq
      have hkey := congrFun (congrFun heq i) key
      rw [update_self, update_self, if_pos ReflCmp.compare_self,
        if_pos ReflCmp.compare_self] at hkey
      cases hold : spec i key with
      | none => exact Or.inl rfl
      | some old =>
        rw [hold] at hkey
        exact Or.inr hkey
    · intro hkeeps
      congr 1
      funext x
      rcases hkeeps with hold | hold
      · rw [hold]
        rfl
      · rw [hold]
        rfl
  | remove i key => exact iff_of_true rfl trivial
  | copy i j =>
    simp only [firstPut, lastPut, Keeps]
    by_cases hij : i = j
    · subst hij
      rw [if_pos rfl]
      constructor
      · intro heq
        refine Or.inr fun key => ?_
        have hkey := congrFun (congrFun heq i) key
        rw [update_self, update_self] at hkey
        exact hkey.symm
      · rintro (hne | hnone)
        · exact absurd rfl hne
        · congr 1
          funext key
          exact (hnone key).symm
    · rw [if_neg hij]
      exact iff_of_true rfl (Or.inl hij)
  | clear i => exact iff_of_true rfl trivial

/-! ## The observers of a reached map -/

/-- The values that a map gives are those of its pairs. -/
theorem Map.get_eq_some_iff (h : m.Invariant (pairAdapter V cmp)) {v : V} :
    (∃ key, Map.get cmp m key = some v) ↔ ∃ y ∈ dataList m.root, y.2 = v := by
  unfold Map.get
  simp only [map_eq_some_iff, h.get_eq_some]
  constructor
  · rintro ⟨key, y, ⟨hy, -⟩, hv⟩
    exact ⟨y, hy, hv⟩
  · rintro ⟨y, hy, hv⟩
    exact ⟨y.1, y, ⟨hy, ReflCmp.compare_self⟩, hv⟩

omit [TransCmp cmp] in
/-- `contains` asks that all the values are equal. -/
theorem Map.contains_eq (isEqual : V → V → Bool) (m : Map K V) (x : V) :
    Map.contains isEqual m x = some ((dataList m.root).all fun y => isEqual x y.2) := by
  have hvisit : ∀ ys : List (K × V),
      Loop.visit (fun (_ : Unit) (y : K × V) => if !isEqual x y.2 then .inr false else .inl ())
          (fun _ => true) ys () =
        ys.all fun y => isEqual x y.2 := by
    intro ys
    induction ys with
    | nil => rfl
    | cons y ys ih =>
      rw [Loop.visit, all_cons]
      cases hy : isEqual x y.2 with
      | true =>
        rw [Bool.true_and]
        exact ih
      | false => rfl
  unfold Map.contains
  rw [walk_eq (fun _ _ _ _ => rfl), hvisit]

/-- What `contains` should tell: some value of the map is equal to `x`. -/
def HasValue (cmp : K → K → Ordering) (isEqual : V → V → Bool) (m : Map K V) (x : V) : Prop :=
  ∃ key v, Map.get cmp m key = some v ∧ isEqual x v = true

/-- The map has values, which are all equal to `x` or all different from it. -/
def SameAnswer (cmp : K → K → Ordering) (isEqual : V → V → Bool) (m : Map K V) (x : V) : Prop :=
  (∃ key v, Map.get cmp m key = some v) ∧
    ∀ key v key' v', Map.get cmp m key = some v → Map.get cmp m key' = some v' → isEqual x v = isEqual x v'

/-- `contains` is right exactly if the map is not empty and all its values give the same answer. -/
theorem Map.contains_iff (isEqual : V → V → Bool) (h : m.Invariant (pairAdapter V cmp)) (x : V) :
    ∃ b, Map.contains isEqual m x = some b ∧
      ((b = true ↔ HasValue cmp isEqual m x) ↔ SameAnswer cmp isEqual m x) := by
  refine ⟨_, Map.contains_eq isEqual m x, ?_⟩
  have hall : ((dataList m.root).all fun y => isEqual x y.2) = true ↔
      ∀ key v, Map.get cmp m key = some v → isEqual x v = true := by
    rw [List.all_eq_true]
    constructor
    · intro hy key v hget
      obtain ⟨y, hmem, rfl⟩ := (Map.get_eq_some_iff h).mp ⟨key, hget⟩
      exact hy y hmem
    · intro hv y hmem
      obtain ⟨key, hget⟩ := (Map.get_eq_some_iff h).mpr ⟨y, hmem, rfl⟩
      exact hv key y.2 hget
  rw [hall]
  unfold HasValue SameAnswer
  constructor
  · intro hright
    have hsome : ∃ key v, Map.get cmp m key = some v := by
      by_contra hempty
      obtain ⟨key, v, hget, -⟩ := hright.mp fun key v hget => absurd ⟨key, v, hget⟩ hempty
      exact hempty ⟨key, v, hget⟩
    refine ⟨hsome, fun key v key' v' hv hv' => ?_⟩
    rw [Bool.eq_iff_iff]
    constructor
    · exact fun hx => hright.mpr ⟨key, v, hv, hx⟩ key' v' hv'
    · exact fun hx => hright.mpr ⟨key', v', hv', hx⟩ key v hv
  · rintro ⟨⟨key, v, hget⟩, hsame⟩
    constructor
    · exact fun hx => ⟨key, v, hget, hx key v hget⟩
    · rintro ⟨key', v', hget', hx⟩ key'' v'' hget''
      rw [hsame key'' v'' key' v' hget'' hget']
      exact hx

/-- What `equals` should tell: the maps have the same keys, with equal values. -/
def SameMap (cmp : K → K → Ordering) (isEqual : V → V → Bool) (m n : Map K V) : Prop :=
  ∀ key, match Map.get cmp m key, Map.get cmp n key with
    | none, none => True
    | some v, some w => isEqual v w = true
    | _, _ => False

/-- If the maps have the same keys, their values are equal. -/
def KeysTell (cmp : K → K → Ordering) (isEqual : V → V → Bool) (m n : Map K V) : Prop :=
  (∀ key, (Map.get cmp m key).isSome = (Map.get cmp n key).isSome) →
    ∀ key v w, Map.get cmp m key = some v → Map.get cmp n key = some w → isEqual v w = true

/-- `equals` is right exactly if the keys alone tell whether the maps are equal. -/
theorem Map.equals_iff (isEqual : V → V → Bool) (hm : m.Invariant (pairAdapter V cmp))
    (hn : n.Invariant (pairAdapter V cmp)) :
    ∃ b, Map.equals cmp m n = some b ∧
      ((b = true ↔ SameMap cmp isEqual m n) ↔ KeysTell cmp isEqual m n) := by
  obtain ⟨b, hrun, hb⟩ := hm.equals_spec hn
  refine ⟨b, hrun, ?_⟩
  have hkeys : b = true ↔ ∀ key, (Map.get cmp m key).isSome = (Map.get cmp n key).isSome := by
    rw [hb]
    unfold Map.get
    simp only [isSome_map]
  rw [hkeys]
  unfold KeysTell
  constructor
  · intro hright hsame key v w hv hw
    have hkey := hright.mp hsame key
    rw [hv, hw] at hkey
    exact hkey
  · intro htell
    constructor
    · intro hsame key
      have hkey := hsame key
      cases hv : Map.get cmp m key with
      | none =>
        cases hw : Map.get cmp n key with
        | none => trivial
        | some w =>
          rw [hv, hw] at hkey
          cases hkey
      | some v =>
        cases hw : Map.get cmp n key with
        | none =>
          rw [hv, hw] at hkey
          cases hkey
        | some w => exact htell hsame key v w hv hw
    · intro hmap key
      have hkey := hmap key
      cases hv : Map.get cmp m key with
      | none =>
        cases hw : Map.get cmp n key with
        | none => rfl
        | some w =>
          rw [hv, hw] at hkey
          exact hkey.elim
      | some v =>
        cases hw : Map.get cmp n key with
        | none =>
          rw [hv, hw] at hkey
          exact hkey.elim
        | some w => rfl

/-! ## Runs -/

/-- The maps have their invariant and give what they should. -/
structure MapInv (cmp : K → K → Ordering) (s : (ι → K → Option V) × Trees ι (K × V)) : Prop where
  invariant : ∀ k, (s.2 k).Invariant (pairAdapter V cmp)
  gives : Gives cmp s.2 = s.1

omit [DecidableEq ι] [TransCmp cmp] in
theorem mapStart_inv : MapInv cmp (mapStart : (ι → K → Option V) × Trees ι (K × V)) :=
  ⟨fun _ => GenTree.invariant_empty _, rfl⟩

/-- In every run, the maps give all along the value of the last `put` of each key if and only if each `put` is for
a key that is absent or has this value, and only empty maps are copied to themselves.  Whatever the run, `contains`
is right for the maps with the same answer for all their values, of which there is one at least, and `equals` for
the maps whose keys tell whether they are equal.  The trees have at most 31 levels, for the stacks of 32 entries. -/
theorem map_run_iff (isEqual : V → V → Bool) (ops : List (MapOp ι K V)) :
    ((∀ k, ∃ s, Run.exec (mapBoth cmp) mapStart (ops.take k) = some s ∧ Gives cmp s.2 = s.1) ↔
      Run.Meets (fun s op => Keeps s.1 op) (mapBoth cmp) mapStart ops) ∧
    ∃ maps, Run.exec (mapStep cmp) (fun _ : ι => GenTree.empty) ops = some maps ∧
      (∀ i x, ∃ b, Map.contains isEqual (maps i) x = some b ∧
        ((b = true ↔ HasValue cmp isEqual (maps i) x) ↔ SameAnswer cmp isEqual (maps i) x)) ∧
      ∀ i j, ∃ b, Map.equals cmp (maps i) (maps j) = some b ∧
        ((b = true ↔ SameMap cmp isEqual (maps i) (maps j)) ↔ KeysTell cmp isEqual (maps i) (maps j)) := by
  constructor
  · have hall : Run.Meets (fun _ _ => True) (mapBoth cmp) mapStart ops :=
      Run.meets_of_forall (fun _ _ => trivial) ops mapStart
    refine (Run.meets_iff_forall_exists_exec (MapInv cmp) _ (fun _ h => h.gives) ?_ ?_ ops _ mapStart_inv
      hall).symm
    · rintro ⟨spec, maps⟩ op ⟨hinv, hgives⟩ - hkeeps
      obtain ⟨maps', hstep, hinv', hgives'⟩ := mapStep_spec hinv op
      refine ⟨(lastPut cmp spec op, maps'), Run.beside_eq_some.mpr ⟨rfl, hstep⟩, hinv', ?_⟩
      rw [hgives', hgives]
      exact (firstPut_eq_iff spec op).mpr hkeeps
    · rintro ⟨spec, maps⟩ op ⟨spec', maps'⟩ ⟨hinv, hgives⟩ - hkeeps hboth hgood
      obtain ⟨hspec, hstep⟩ := Run.beside_eq_some.mp hboth
      obtain ⟨maps'', hstep', -, hgives'⟩ := mapStep_spec hinv op
      obtain rfl := some.inj (hstep'.symm.trans hstep)
      obtain rfl := some.inj hspec
      have hfirst : Gives cmp maps'' = firstPut cmp spec op := by
        rw [← show Gives cmp maps = spec from hgives]
        exact hgives'
      exact hkeeps ((firstPut_eq_iff spec op).mp (hfirst.symm.trans hgood))
  · have hkeep : ∀ (maps : Trees ι (K × V)) (op : MapOp ι K V), (∀ k, (maps k).Invariant (pairAdapter V cmp)) →
        ∃ maps', mapStep cmp maps op = some maps' ∧ ∀ k, (maps' k).Invariant (pairAdapter V cmp) :=
      fun _ op h => step_invariant h op.onTree
    obtain ⟨maps, hexec, hinv⟩ := Run.exists_exec _ hkeep ops _ fun _ => GenTree.invariant_empty _
    refine ⟨maps, hexec, fun i x => Map.contains_iff isEqual (hinv i) x, fun i j => ?_⟩
    exact Map.equals_iff isEqual (hinv i) (hinv j)

end Calls

/-- A key that is put again once it has been removed, and a copy. -/
def somePuts : List (MapOp Bool Nat Nat) := [.put true 1 10, .remove true 1, .put true 1 20, .copy false true]

theorem map_run_iff_somePuts :
    ∃ s, Run.exec (mapBoth compare) mapStart (somePuts.take 3) = some s ∧ Gives compare s.2 = s.1 :=
  (@map_run_iff Bool Nat Nat _ compare _ (fun x y => x == y) somePuts).1.mpr
    (Run.meets_cons (Or.inl rfl) rfl (Run.meets_cons trivial rfl (Run.meets_cons (Or.inl rfl) rfl
      (Run.meets_cons (Or.inl (by decide)) rfl trivial)))) 3

/-- The second `put` of a key is lost, a value among others is not found, and maps that differ by their values are
equal. -/
theorem not_map_run :
    (¬ ∀ ops : List (MapOp Bool Nat Nat), ∀ k, ∃ s, Run.exec (mapBoth compare) mapStart (ops.take k) = some s ∧
      Gives compare s.2 = s.1) ∧
    (¬ ∀ (ops : List (MapOp Bool Nat Nat)) (maps : Trees Bool (Nat × Nat)),
      Run.exec (mapStep compare) (fun _ => GenTree.empty) ops = some maps → ∀ i x b,
        Map.contains (fun x y => x == y) (maps i) x = some b →
          (b = true ↔ HasValue compare (fun x y => x == y) (maps i) x)) ∧
    ¬ ∀ (ops : List (MapOp Bool Nat Nat)) (maps : Trees Bool (Nat × Nat)),
      Run.exec (mapStep compare) (fun _ => GenTree.empty) ops = some maps → ∀ i j b,
        Map.equals compare (maps i) (maps j) = some b →
          (b = true ↔ SameMap compare (fun x y => x == y) (maps i) (maps j)) := by
  refine ⟨fun hall => ?_, fun hall => ?_, fun hall => ?_⟩
  · obtain ⟨s, hs, hgives⟩ := hall [.put true 1 10, .put true 1 20] 2
    obtain rfl := some.inj hs
    exact absurd (congrFun (congrFun hgives true) 1) (by decide)
  · have h := hall [.put true 1 10, .put true 2 20] _ rfl true 10 false rfl
    exact absurd (h.mpr ⟨1, 10, rfl, rfl⟩) (by decide)
  · have h := hall [.put true 1 10, .put false 1 20] _ rfl true false true rfl
    have hvalue : ((10 : Nat) == 20) = true := h.mp rfl 1
    cases hvalue

end Elm.Avl
