import Elm.Stree.SegmentLookup

/-!
# `stree::MarkerBuilder`

The builder of `include/elm/stree/MarkerBuilder.h` keeps the markers in a map.  `make` turns two
consecutive markers into a leaf and builds the tree over these leaves.  It has no leaf to build upon
when there are less than two markers.
-/

namespace Elm.Stree

open Elm.Avl Std List

variable {K T : Type*}

section Model

variable (cmp : K → K → Ordering)

/-- `MarkerBuilder`: its member `marks`. -/
structure MarkerBuilder (K T : Type*) where
  marks : Map K T

def MarkerBuilder.new : MarkerBuilder K T := ⟨GenTree.empty⟩

/-- `MarkerBuilder::add`. -/
def MarkerBuilder.add (b : MarkerBuilder K T) (mark : K) (val : T) : MarkerBuilder K T :=
  ⟨Map.put cmp b.marks mark val⟩

/-- The leaves stored by the loop of `make`, `l` being the pair before the iterator. -/
def spans (l : K × T) : List (K × T) → List (Node K T)
  | [] => []
  | u :: us => Node.leaf l.1 u.1 l.2 :: spans u us

/-- `MarkerBuilder::make`, the recursion of `Builder::make` being bounded by `fuel`. -/
def MarkerBuilder.make (fuel : Nat) (b : MarkerBuilder K T) : Option (Tree K T) :=
  match b.marks.pairs with
  | none => none
  -- the iterator has no current pair to read
  | some [] => none
  | some (l :: us) =>
    let nodes := spans l us
    match Stree.make fuel nodes 0 (nodes.length - 1) with
    | none => none
    | some (nodes, root) => some ⟨root, nodes⟩

/-- A builder to which the markers are added in the given order. -/
def MarkerBuilder.ofMarks (marks : List (K × T)) : MarkerBuilder K T :=
  marks.foldl (fun b x => b.add cmp x.1 x.2) .new

end Model

/-! ## What the markers denote -/

section Denotation

variable (cmp : K → K → Ordering)

/-- The key is between the least marker, included, and the greatest one, excluded. -/
def inMarks (key : K) (marks : List (K × T)) : Bool :=
  marks.any (fun x => (cmp x.1 key).isLE) && marks.any fun x => (cmp key x.1).isLT

/-- The marker is the greatest one not above the key. -/
def isFloor (key : K) (marks : List (K × T)) (x : K × T) : Bool :=
  (cmp x.1 key).isLE && marks.all fun y => (cmp y.1 key).isGT || (cmp y.1 x.1).isLE

/-- The value of the greatest marker not above the key, and `dflt` outside the range of the
markers. -/
def marked (dflt : T) (key : K) (marks : List (K × T)) : T :=
  if inMarks cmp key marks then
    match marks.find? (isFloor cmp key marks) with
    | some x => x.2
    | none => dflt
  else
    dflt

/-- The key is the greatest marker. -/
def isGreatest (key : K) (marks : List (K × T)) : Bool :=
  marks.any (fun x => cmp key x.1 == .eq) && marks.all fun x => (cmp x.1 key).isLE

/-- The marker is the greatest one below the key. -/
def isBelow (key : K) (marks : List (K × T)) (x : K × T) : Bool :=
  (cmp x.1 key).isLT && marks.all fun y => (cmp y.1 key).isGE || (cmp y.1 x.1).isLE

end Denotation

/-! ## The leaves -/

/-- A leaf goes from a marker to the next one. -/
theorem mem_spans {n : Node K T} {us : List (K × T)} : ∀ {l : K × T}, n ∈ spans l us →
    ∃ zs a b ws, l :: us = zs ++ a :: b :: ws ∧ n = Node.leaf a.1 b.1 a.2 := by
  induction us with
  | nil => simp [spans]
  | cons u us ih =>
    intro l hn
    rcases mem_cons.mp hn with rfl | hn
    · exact ⟨[], l, u, us, rfl, rfl⟩
    · obtain ⟨zs, a, b, ws, heq, hleaf⟩ := ih hn
      exact ⟨l :: zs, a, b, ws, by rw [heq, cons_append], hleaf⟩

theorem length_spans {us : List (K × T)} : ∀ {l : K × T}, (spans l us).length = us.length := by
  induction us with
  | nil => exact rfl
  | cons u us ih => simp [spans, ih]

/-- Each leaf ends at the marker where the next one starts. -/
theorem isChain_spans {cmp : K → K → Ordering} [ReflCmp cmp] {us : List (K × T)} :
    ∀ {l : K × T}, (spans l us).IsChain fun a b => cmp a.ub b.lb = .eq := by
  induction us with
  | nil => exact .nil
  | cons u us ih =>
    intro l
    cases us with
    | nil => exact .singleton _
    | cons v vs =>
      have hmeet : cmp u.1 u.1 = .eq := ReflCmp.compare_self
      exact .cons_cons hmeet ih

/-- The last leaf goes from the last marker but one to the last marker. -/
theorem getLast?_spans {a b : K × T} {zs us : List (K × T)} : ∀ {l : K × T},
    l :: us = zs ++ [a, b] → (spans l us).getLast? = some (Node.leaf a.1 b.1 a.2) := by
  induction us generalizing zs with
  | nil =>
    intro l heq
    have hlen := congrArg List.length heq
    simp only [length_append, length_cons, length_nil] at hlen
    omega
  | cons u us ih =>
    intro l heq
    cases zs with
    | nil =>
      obtain ⟨rfl, rfl, rfl⟩ : l = a ∧ u = b ∧ us = [] := by simpa using heq
      rfl
    | cons z zs =>
      rw [cons_append] at heq
      obtain ⟨rfl, htail⟩ := cons_eq_cons.mp heq
      have hrest := ih htail
      cases us with
      | nil =>
        have hlen := congrArg List.length htail
        simp only [length_append, length_cons, length_nil] at hlen
        omega
      | cons v vs =>
        simp only [spans, getLast?_cons_cons] at hrest ⊢
        exact hrest

/-! ## The recursion without a leaf -/

/-- Called after the last node, `Builder::make` calls itself with the same bounds. -/
theorem make_after_end (fuel : Nat) : ∀ nodes : List (Node K T), Stree.make fuel nodes 1 0 = none := by
  induction fuel with
  | zero => exact fun _ => rfl
  | succ fuel ih =>
    intro nodes
    simp [Stree.make, ih]

/-- Without a leaf, the call of `Builder::make` does not end. -/
theorem make_no_leaf (fuel : Nat) (nodes : List (Node K T)) : Stree.make fuel nodes 0 (-1) = none := by
  cases fuel with
  | zero => rfl
  | succ fuel =>
    -- the second half is `make(1, -1)`, whose second half is `make(1, 0)`
    have hright : Stree.make fuel nodes 1 (-1) = none := by
      cases fuel with
      | zero => rfl
      | succ fuel => simp [Stree.make, make_after_end]
    cases fuel with
    | zero => rfl
    | succ fuel =>
      have hleft : Stree.make (fuel + 1) nodes 0 0 = some (nodes, 0) := by simp [Stree.make]
      rw [Stree.make]
      simp [hleft, hright]

variable {cmp : K → K → Ordering}

theorem foldl_add_marks (marks : List (K × T)) : ∀ b : MarkerBuilder K T,
    (marks.foldl (fun b x => b.add cmp x.1 x.2) b).marks =
      marks.foldl (fun m x => Map.put cmp m x.1 x.2) b.marks := by
  induction marks with
  | nil => exact fun _ => rfl
  | cons x marks ih => exact fun b => ih _

variable [TransCmp cmp]

/-- The builder holds the markers it was given, sorted. -/
theorem ofMarks_pairs {marks : List (K × T)} (h : marks.Pairwise fun x y => cmp x.1 y.1 ≠ .eq) :
    ∃ ys, (MarkerBuilder.ofMarks cmp marks).marks.pairs = some ys ∧ ys.Perm marks ∧
      ys.Pairwise fun x y => cmp x.1 y.1 = .lt := by
  have hempty : (GenTree.empty : Map K T).Invariant (pairAdapter T cmp) := GenTree.invariant_empty _
  obtain ⟨hinv, hperm⟩ := Map.foldl_put_spec marks GenTree.empty hempty (by simpa [GenTree.empty] using h)
  have hmarks := @foldl_add_marks K T cmp marks .new
  refine ⟨_, GenTree.items_eq _, ?_, ?_⟩
  · rw [MarkerBuilder.ofMarks, hmarks]
    exact hperm
  · rw [MarkerBuilder.ofMarks, hmarks]
    exact hinv.increasing

/-! ## The lookup -/

/-- What is found in the tree of sorted markers: nothing outside the range, the value of the last
marker but one for the last marker, and else the value of the marker before the key. -/
theorem find_marks {b : MarkerBuilder K T} {l x y : K × T} {us zs : List (K × T)}
    (hpairs : b.marks.pairs = some (l :: us)) (hend : l :: us = zs ++ [x, y]) {fuel : Nat}
    (hfuel : us.length ≤ fuel) :
    ∃ built, b.make fuel = some built ∧ ∀ key : K,
      Tree.find cmp built key = some none ∧ ¬ ((cmp l.1 key).isLE ∧ (cmp key y.1).isLE) ∨
      Tree.find cmp built key = some (some x.2) ∧ cmp key y.1 = .eq ∨
      ∃ vs p q ws, l :: us = vs ++ p :: q :: ws ∧ Tree.find cmp built key = some (some p.2) ∧
        (cmp p.1 key).isLE ∧ cmp key q.1 = .lt := by
  cases us with
  | nil =>
    have hlen := congrArg List.length hend
    simp only [length_append, length_cons, length_nil] at hlen
    omega
  | cons u us =>
    obtain ⟨L, hL⟩ : ∃ L, L = spans l (u :: us) := ⟨_, rfl⟩
    have hlen : L.length = us.length + 1 := by rw [hL, length_spans, length_cons]
    have hhead : L.head? = some (Node.leaf l.1 u.1 l.2) := by rw [hL, spans, head?_cons]
    have hlast : L.getLast? = some (Node.leaf x.1 y.1 x.2) := by rw [hL, getLast?_spans hend]
    have hchain : L.IsChain fun a b => cmp a.ub b.lb = .eq := by
      rw [hL]
      exact isChain_spans
    have hleaves : ∀ n ∈ L, n.isLeaf := by
      intro n hn
      rw [hL] at hn
      obtain ⟨_, _, _, _, -, rfl⟩ := mem_spans hn
      exact isLeaf_leaf _ _ _
    have hleaf : ∀ i, 0 ≤ i → i ≤ L.length - 1 → ∃ n, L[i]? = some n ∧ n.isLeaf := by
      intro i _ hi
      have hi' : i < L.length := by omega
      exact ⟨L[i], getElem?_eq_getElem hi', hleaves _ (getElem_mem hi')⟩
    rw [length_cons] at hfuel
    -- the leaves are grouped in a tree, from the least marker to the greatest one
    obtain ⟨nodes, p, hmake, hgrow, hspan, -⟩ :=
      make_spec fuel L 0 (L.length - 1) (Nat.zero_le _) (by omega) hleaf
    have hmake' : Stree.make fuel L 0 ((L.length : Int) - 1) = some (nodes, (p : Int)) := by
      rw [← hmake]
      congr 1
      omega
    refine ⟨⟨p, nodes⟩, by simp [MarkerBuilder.make, hpairs, ← hL, hmake'], ?_⟩
    intro key
    by_cases hin : (cmp l.1 key).isLE ∧ (cmp key y.1).isLE
    · obtain ⟨n, hn, hfind, hlow, hhigh⟩ := find_leaf hgrow hspan hchain hhead hlast hin.1 hin.2
      rcases hhigh with hlt | ⟨rfl, heq⟩
      · rw [hL] at hn
        obtain ⟨vs, p, q, ws, hsplit, rfl⟩ := mem_spans hn
        exact Or.inr (Or.inr ⟨vs, p, q, ws, hsplit, hfind, hlow, hlt⟩)
      · exact Or.inr (Or.inl ⟨hfind, heq⟩)
    · obtain ⟨r, hr, hcontains⟩ :=
        (root_contains key hgrow hspan hhead hlast : ∃ r, _ ∧ (contains cmp r key ↔ _))
      have hout : ¬ contains cmp r key := fun h => hin (hcontains.mp h)
      exact Or.inl ⟨by simp [Tree.find, hr, hout], hin⟩

/-! ## The denoted value -/

omit [TransCmp cmp] in
theorem isFloor_iff {key : K} {marks : List (K × T)} {x : K × T} : isFloor cmp key marks x ↔
    (cmp x.1 key).isLE ∧ ∀ y ∈ marks, (cmp y.1 key).isLE → (cmp y.1 x.1).isLE := by
  simp only [isFloor, Bool.and_eq_true, all_eq_true, Bool.or_eq_true]
  refine and_congr_right fun _ => forall₂_congr fun y _ => ?_
  cases cmp y.1 key <;> simp

omit [TransCmp cmp] in
theorem isBelow_iff {key : K} {marks : List (K × T)} {x : K × T} : isBelow cmp key marks x ↔
    cmp x.1 key = .lt ∧ ∀ y ∈ marks, cmp y.1 key = .lt → (cmp y.1 x.1).isLE := by
  simp only [isBelow, Bool.and_eq_true, all_eq_true, Bool.or_eq_true, Ordering.isLT_iff_eq_lt]
  refine and_congr_right fun _ => forall₂_congr fun y _ => ?_
  cases cmp y.1 key <;> simp

/-- Two markers none of which is above the other one are the same. -/
theorem eq_of_le_of_le {marks : List (K × T)} {x y : K × T}
    (h : marks.Pairwise fun x y => cmp x.1 y.1 ≠ .eq) (hx : x ∈ marks) (hy : y ∈ marks)
    (hxy : (cmp x.1 y.1).isLE) (hyx : (cmp y.1 x.1).isLE) : x = y := by
  by_contra hne
  have hsymm : Std.Symm fun x y : K × T => cmp x.1 y.1 ≠ .eq :=
    ⟨fun _ _ hab hba => hab (OrientedCmp.eq_symm hba)⟩
  exact h.forall hx hy hne (OrientedCmp.isLE_antisymm hxy hyx)

theorem marked_of_floor {dflt : T} {key : K} {marks : List (K × T)} {x : K × T}
    (h : marks.Pairwise fun x y => cmp x.1 y.1 ≠ .eq) (hin : inMarks cmp key marks) (hx : x ∈ marks)
    (hfloor : isFloor cmp key marks x) : marked cmp dflt key marks = x.2 := by
  have hsome : (marks.find? (isFloor cmp key marks)).isSome := find?_isSome.mpr ⟨x, hx, hfloor⟩
  obtain ⟨y, hy⟩ := Option.isSome_iff_exists.mp hsome
  have hymem := mem_of_find?_eq_some hy
  have hyfloor := isFloor_iff.mp (find?_some hy)
  have hxfloor := isFloor_iff.mp hfloor
  obtain rfl := eq_of_le_of_le h hx hymem (hyfloor.2 x hx hxfloor.1) (hxfloor.2 y hymem hyfloor.1)
  rw [marked, if_pos hin, hy]

theorem le_of_increasing {x y : K × T} {xs ys : List (K × T)}
    (h : (xs ++ x :: ys).Pairwise fun x y => cmp x.1 y.1 = .lt) (hy : y ∈ xs ++ x :: ys) :
    (cmp y.1 x.1).isLE ∨ y ∈ ys ∧ cmp x.1 y.1 = .lt := by
  obtain ⟨-, hright, hcross⟩ := pairwise_append.mp h
  rcases mem_append.mp hy with hy | hy
  · have hlt := hcross y hy x (by simp)
    exact Or.inl (by simp [hlt])
  · rcases mem_cons.mp hy with rfl | hy
    · exact Or.inl ReflCmp.isLE_rfl
    · exact Or.inr ⟨hy, (pairwise_cons.mp hright).1 y hy⟩

/-- A key between a marker and the next one has this marker as its floor. -/
theorem isFloor_of_between {key : K} {p q : K × T} {vs ws marks : List (K × T)}
    (hperm : (vs ++ p :: q :: ws).Perm marks)
    (hinc : (vs ++ p :: q :: ws).Pairwise fun x y => cmp x.1 y.1 = .lt)
    (hlow : (cmp p.1 key).isLE) (hhigh : cmp key q.1 = .lt) : isFloor cmp key marks p := by
  refine isFloor_iff.mpr ⟨hlow, ?_⟩
  intro y hy hle
  rcases le_of_increasing hinc (hperm.mem_iff.mpr hy) with h | ⟨hafter, -⟩
  · exact h
  · -- the markers from `q` on are above the key
    have hqy : (cmp q.1 y.1).isLE := by
      rcases mem_cons.mp hafter with rfl | hafter
      · exact ReflCmp.isLE_rfl
      · have hq := (pairwise_append.mp hinc).2.1
        have hlt := (pairwise_cons.mp (pairwise_cons.mp hq).2).1 y hafter
        simp [hlt]
    have habove : cmp key y.1 = .lt := TransCmp.lt_of_lt_of_isLE hhigh hqy
    exact absurd habove (OrientedCmp.not_lt_of_isLE hle)

theorem le_last {x y : K × T} {xs : List (K × T)}
    (h : (xs ++ [y]).Pairwise fun x y => cmp x.1 y.1 = .lt) (hx : x ∈ xs ++ [y]) : (cmp x.1 y.1).isLE :=
  (le_of_increasing h hx).resolve_right fun hmem => not_mem_nil hmem.1

theorem first_le {x l : K × T} {us : List (K × T)}
    (h : (l :: us).Pairwise fun x y => cmp x.1 y.1 = .lt) (hx : x ∈ l :: us) : (cmp l.1 x.1).isLE := by
  rcases mem_cons.mp hx with rfl | hx
  · exact ReflCmp.isLE_rfl
  · have hlt := (pairwise_cons.mp h).1 x hx
    simp [hlt]

/-- The range of sorted markers goes from the first one to the last one. -/
theorem inMarks_iff {key : K} {l y : K × T} {us zs marks : List (K × T)}
    (hperm : (l :: us).Perm marks) (hinc : (l :: us).Pairwise fun x y => cmp x.1 y.1 = .lt)
    (hend : l :: us = zs ++ [y]) : inMarks cmp key marks ↔ (cmp l.1 key).isLE ∧ cmp key y.1 = .lt := by
  simp only [inMarks, Bool.and_eq_true, any_eq_true, ← hperm.mem_iff, Ordering.isLT_iff_eq_lt]
  constructor
  · rintro ⟨⟨a, ha, hlow⟩, b, hb, hhigh⟩
    rw [hend] at hb
    exact ⟨TransCmp.isLE_trans (first_le hinc ha) hlow,
      TransCmp.lt_of_lt_of_isLE hhigh (le_last (hend ▸ hinc) hb)⟩
  · rintro ⟨hlow, hhigh⟩
    exact ⟨⟨l, by simp, hlow⟩, y, by simp [hend], hhigh⟩

/-- The greatest of sorted markers is the last one. -/
theorem isGreatest_iff {key : K} {y : K × T} {zs marks : List (K × T)} (hperm : (zs ++ [y]).Perm marks)
    (hinc : (zs ++ [y]).Pairwise fun x y => cmp x.1 y.1 = .lt) :
    isGreatest cmp key marks ↔ cmp key y.1 = .eq := by
  simp only [isGreatest, Bool.and_eq_true, any_eq_true, all_eq_true, beq_iff_eq, ← hperm.mem_iff]
  constructor
  · rintro ⟨⟨a, ha, heq⟩, hall⟩
    have hle : (cmp key y.1).isLE := TransCmp.isLE_trans (by simp [heq]) (le_last hinc ha)
    exact OrientedCmp.isLE_antisymm hle (hall y (by simp))
  · intro heq
    refine ⟨⟨y, by simp, heq⟩, ?_⟩
    intro x hx
    exact TransCmp.isLE_trans (le_last hinc hx) (by simp [OrientedCmp.eq_symm heq])

/-- The greatest marker below the last one is the one before. -/
theorem isBelow_last {key : K} {x y : K × T} {zs marks : List (K × T)}
    (hperm : (zs ++ [x, y]).Perm marks) (hinc : (zs ++ [x, y]).Pairwise fun x y => cmp x.1 y.1 = .lt)
    (heq : cmp key y.1 = .eq) : isBelow cmp key marks x := by
  have hy := OrientedCmp.eq_symm heq
  have hxy : cmp x.1 y.1 = .lt :=
    (pairwise_cons.mp (pairwise_append.mp hinc).2.1).1 y (by simp)
  refine isBelow_iff.mpr ⟨TransCmp.lt_of_lt_of_eq hxy hy, ?_⟩
  intro z hz hlt
  rcases le_of_increasing hinc (hperm.mem_iff.mpr hz) with hle | ⟨hmem, -⟩
  · exact hle
  · obtain rfl := mem_singleton.mp hmem
    rw [hy] at hlt
    cases hlt

/-! ## The built tree -/

/-- With less than two markers nothing is built. -/
theorem make_eq_none {marks : List (K × T)} (h : marks.Pairwise fun x y => cmp x.1 y.1 ≠ .eq)
    (hlen : marks.length < 2) (fuel : Nat) : (MarkerBuilder.ofMarks cmp marks).make fuel = none := by
  obtain ⟨ys, hpairs, hperm, -⟩ := ofMarks_pairs h
  have hlen' := hperm.length_eq
  match ys with
  | [] => simp only [MarkerBuilder.make, hpairs]
  | [y] => simp [MarkerBuilder.make, hpairs, spans, make_no_leaf]
  | _ :: _ :: _ =>
    simp only [length_cons] at hlen'
    omega

omit [TransCmp cmp] in
theorem exists_append_pair {ys : List (K × T)} (h : 2 ≤ ys.length) : ∃ zs x y, ys = zs ++ [x, y] := by
  rcases eq_nil_or_concat' ys with rfl | ⟨zs, y, rfl⟩
  · simp at h
  · rcases eq_nil_or_concat' zs with rfl | ⟨zs, x, rfl⟩
    · simp at h
    · exact ⟨zs, x, y, by rw [append_assoc, singleton_append]⟩

/-- With at least two markers the tree answers each key as the markers denote, unless the key is the
greatest marker: the answer is then the value of the marker below. -/
theorem get_of_two_le {marks : List (K × T)} (h : marks.Pairwise fun x y => cmp x.1 y.1 ≠ .eq)
    (hlen : 2 ≤ marks.length) {fuel : Nat} (hfuel : marks.length ≤ fuel) :
    ∃ built, (MarkerBuilder.ofMarks cmp marks).make fuel = some built ∧ ∀ (key : K) (dflt : T),
      ∃ v, Tree.get cmp built key dflt = some v ∧
        (v = marked cmp dflt key marks ↔
          (isGreatest cmp key marks → ∀ x ∈ marks, isBelow cmp key marks x → x.2 = dflt)) := by
  obtain ⟨ys, hpairs, hperm, hinc⟩ := ofMarks_pairs h
  obtain ⟨zs, x, y, hend⟩ := exists_append_pair (hperm.length_eq ▸ hlen)
  obtain ⟨l, us, rfl⟩ : ∃ l us, ys = l :: us := exists_cons_of_ne_nil (by simp [hend])
  have hlast : l :: us = (zs ++ [x]) ++ [y] := by rw [hend, append_assoc, singleton_append]
  have hfuel' : us.length ≤ fuel := by
    have hlen' := hperm.length_eq
    rw [length_cons] at hlen'
    omega
  obtain ⟨built, hmake, hfind⟩ :=
    @find_marks K T cmp _ _ _ _ _ _ _ hpairs hend _ hfuel'
  refine ⟨built, hmake, ?_⟩
  intro key dflt
  have hrange : inMarks cmp key marks ↔ (cmp l.1 key).isLE ∧ cmp key y.1 = .lt :=
    inMarks_iff hperm hinc hlast
  have hgreatest : isGreatest cmp key marks ↔ cmp key y.1 = .eq :=
    isGreatest_iff (hlast ▸ hperm) (hlast ▸ hinc)
  rcases hfind key with ⟨hnone, hout⟩ | ⟨hsome, heq⟩ | ⟨vs, p, q, ws, hsplit, hsome, hlow, hhigh⟩
  · -- outside the range, so that the key is not the last marker
    refine ⟨dflt, by simp [Tree.get, hnone], iff_of_true ?_ ?_⟩
    · rw [marked, if_neg]
      intro hin
      exact hout ⟨(hrange.mp hin).1, by simp [(hrange.mp hin).2]⟩
    · intro hmax
      have heq := hgreatest.mp hmax
      have hfirst : (cmp l.1 y.1).isLE := first_le hinc (by simp [hend])
      exact absurd ⟨TransCmp.isLE_trans hfirst (by simp [OrientedCmp.eq_symm heq]), by simp [heq]⟩ hout
  · -- the last marker is out of the range, but the tree gives the value of the leaf that ends there
    refine ⟨x.2, by simp [Tree.get, hsome], ?_⟩
    have hout : ¬ inMarks cmp key marks := by
      rw [hrange, heq]
      simp
    have hbelow := isBelow_last (hend ▸ hperm) (hend ▸ hinc) heq
    have hx : x ∈ marks := hperm.mem_iff.mp (by simp [hend])
    rw [marked, if_neg hout]
    constructor
    · intro hval _ z hz hzbelow
      -- only `x` is the greatest marker below the last one
      have hzx := (isBelow_iff.mp hbelow).2 z hz (isBelow_iff.mp hzbelow).1
      have hxz := (isBelow_iff.mp hzbelow).2 x hx (isBelow_iff.mp hbelow).1
      rw [eq_of_le_of_le h hz hx hzx hxz, hval]
    · intro hall
      exact hall (hgreatest.mpr heq) x hx hbelow
  · -- between two markers
    have hpmem : p ∈ l :: us := by simp [hsplit]
    have hqmem : q ∈ l :: us := by simp [hsplit]
    have hlt : cmp key y.1 = .lt :=
      TransCmp.lt_of_lt_of_isLE hhigh (le_last (hlast ▸ hinc) (hlast ▸ hqmem))
    have hin : inMarks cmp key marks :=
      hrange.mpr ⟨TransCmp.isLE_trans (first_le hinc hpmem) hlow, hlt⟩
    have hfloor := isFloor_of_between (hsplit ▸ hperm) (hsplit ▸ hinc) hlow hhigh
    refine ⟨p.2, by simp [Tree.get, hsome], iff_of_true ?_ ?_⟩
    · exact (marked_of_floor h hin (hperm.mem_iff.mp hpmem) hfloor).symm
    · intro hmax
      rw [hgreatest.mp hmax] at hlt
      cases hlt

/-- The building ends and the lookup of a key is right if and only if there are at least two markers
and the key is not the greatest one, unless the marker below has the default value.  The tree of the markers has at
most 31 levels, for the stacks of 32 entries. -/
theorem markerBuilder_get_iff (marks : List (K × T)) (key : K) (dflt : T)
    (h : marks.Pairwise fun x y => cmp x.1 y.1 ≠ .eq) :
    (∃ enough, ∀ fuel, enough ≤ fuel →
        ∃ built, (MarkerBuilder.ofMarks cmp marks).make fuel = some built ∧
          Tree.get cmp built key dflt = some (marked cmp dflt key marks)) ↔
      2 ≤ marks.length ∧
        (isGreatest cmp key marks → ∀ x ∈ marks, isBelow cmp key marks x → x.2 = dflt) := by
  constructor
  · rintro ⟨enough, hall⟩
    obtain ⟨built, hmake, hget⟩ := hall (max enough marks.length) (le_max_left _ _)
    by_cases hlen : 2 ≤ marks.length
    · obtain ⟨built', hmake', hget'⟩ := get_of_two_le h hlen (le_max_right enough marks.length)
      obtain rfl := Option.some.inj (hmake.symm.trans hmake')
      obtain ⟨v, hv, hiff⟩ := hget' key dflt
      exact ⟨hlen, hiff.mp (Option.some.inj (hv.symm.trans hget))⟩
    · rw [make_eq_none h (by omega)] at hmake
      cases hmake
  · rintro ⟨hlen, hcond⟩
    refine ⟨marks.length, ?_⟩
    intro fuel hfuel
    obtain ⟨built, hmake, hget⟩ := get_of_two_le h hlen hfuel
    obtain ⟨v, hv, hiff⟩ := hget key dflt
    exact ⟨built, hmake, by rw [hv, hiff.mpr hcond]⟩

/-- Three markers in no order. -/
theorem markerBuilder_get_iff_three :
    (∃ enough, ∀ fuel, enough ≤ fuel →
        ∃ built, (MarkerBuilder.ofMarks compare [(4, 8), (9, 5), (1, 7)]).make fuel = some built ∧
          Tree.get compare built 6 0 = some (marked compare 0 6 [(4, 8), (9, 5), (1, 7)])) ↔
      2 ≤ [(4, 8), (9, 5), (1, 7)].length ∧
        (isGreatest compare 6 [(4, 8), (9, 5), (1, 7)] →
          ∀ x ∈ [(4, 8), (9, 5), (1, 7)], isBelow compare 6 [(4, 8), (9, 5), (1, 7)] x → x.2 = 0) :=
  markerBuilder_get_iff [(4, 8), (9, 5), (1, 7)] 6 0 (by decide)

/-- With one marker `Builder::make` calls itself for ever. -/
theorem not_markerBuilder_get : ¬ ∀ (marks : List (Nat × Nat)) (key dflt : Nat),
    marks.Pairwise (fun x y => compare x.1 y.1 ≠ .eq) →
      ∃ enough, ∀ fuel, enough ≤ fuel →
        ∃ built, (MarkerBuilder.ofMarks compare marks).make fuel = some built ∧
          Tree.get compare built key dflt = some (marked compare dflt key marks) := by
  intro hall
  have hone : [(1, 7)].Pairwise fun x y : Nat × Nat => compare x.1 y.1 ≠ .eq := pairwise_singleton _ _
  obtain ⟨enough, hget⟩ := hall [(1, 7)] 1 0 hone
  obtain ⟨built, hmake, -⟩ := hget enough le_rfl
  rw [make_eq_none hone (by decide)] at hmake
  cases hmake

end Elm.Stree
