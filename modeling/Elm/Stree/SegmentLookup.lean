import Elm.Stree.SegmentBuilder

/-!
# Lookups in the tree of a `SegmentBuilder`

`Tree::contains` accepts the upper bound of the tree, although the segments are half-open.  The
lookup of the greatest upper bound therefore gives the value of the segment that ends there; every
other key is answered as the segments denote.
-/

namespace Elm.Stree

open Elm.Avl Std List

variable {K T : Type*} {cmp : K → K → Ordering} [TransCmp cmp]

/-! ## The pairs kept by the builder -/

instance : TransCmp (segCompare cmp) where
  eq_swap {a b} := show cmp a.1 b.1 = (cmp b.1 a.1).swap from OrientedCmp.eq_swap
  isLE_trans {a b c} := show (cmp a.1 b.1).isLE → (cmp b.1 c.1).isLE → (cmp a.1 c.1).isLE from
    TransCmp.isLE_trans

omit [TransCmp cmp] in
theorem foldl_add (xs : List (Entry K T)) : ∀ b : SegmentBuilder K T,
    xs.foldl (fun b x => b.add cmp x.1.1 x.1.2 x.2) b =
      ⟨xs.foldl (fun m x => Map.put (segCompare cmp) m x.1 x.2) b.segs, b.dflt⟩ := by
  induction xs with
  | nil => exact fun _ => rfl
  | cons x xs ih => exact fun b => ih _

theorem Separated.covers_lo {x : Entry K T} {xs : List (Entry K T)} (h : Separated cmp xs)
    (hx : x ∈ xs) : covers cmp x.1.1 x :=
  covers_iff.mpr ⟨ReflCmp.isLE_rfl, h.nonempty x hx⟩

omit [TransCmp cmp] in
theorem Separated.perm {xs ys : List (Entry K T)} (h : Separated cmp xs) (hperm : ys.Perm xs) :
    Separated cmp ys where
  nonempty x hx := h.nonempty x (hperm.mem_iff.mp hx)
  disjoint := h.disjoint.perm hperm.symm fun hab key hba => hab key hba.symm

/-- Disjoint segments have different lower bounds. -/
theorem Separated.lo_ne {xs : List (Entry K T)} (h : Separated cmp xs) :
    xs.Pairwise fun x y => cmp x.1.1 y.1.1 ≠ .eq := by
  refine h.disjoint.imp_of_mem ?_
  intro x y hx hy hdisj heq
  refine hdisj x.1.1 ⟨h.covers_lo hx, covers_iff.mpr ⟨?_, ?_⟩⟩
  · simp [OrientedCmp.eq_symm heq]
  · exact TransCmp.lt_of_eq_of_lt heq (h.nonempty y hy)

theorem Separated.sorted {xs : List (Entry K T)} (h : Separated cmp xs)
    (hinc : xs.Pairwise fun x y => cmp x.1.1 y.1.1 = .lt) : Sorted cmp xs where
  nonempty := h.nonempty
  ordered := by
    refine (h.disjoint.and hinc).imp_of_mem ?_
    rintro x y hx hy ⟨hdisj, hlt⟩
    have hcov := h.covers_lo hy
    have hnot : ¬ covers cmp y.1.1 x := fun hx => hdisj y.1.1 ⟨hx, hcov⟩
    rw [covers_iff, not_and] at hnot
    have hge := hnot (by simp [hlt])
    rw [← OrientedCmp.isGE_iff_isLE]
    exact Ordering.isGE_iff_ne_lt.mpr hge

/-- The builder holds the segments it was given, sorted. -/
theorem ofSegments_pairs (gap : T) {xs : List (Entry K T)} (h : Separated cmp xs) :
    ∃ ys, (SegmentBuilder.ofSegments cmp gap xs).segs.pairs = some ys ∧
      (SegmentBuilder.ofSegments cmp gap xs).dflt = gap ∧ ys.Perm xs ∧ Sorted cmp ys := by
  have hempty : (GenTree.empty : Map (K × K) T).Invariant (pairAdapter T (segCompare cmp)) :=
    GenTree.invariant_empty _
  obtain ⟨hinv, hperm⟩ := Map.foldl_put_spec xs GenTree.empty hempty
    (by simpa [GenTree.empty, segCompare] using h.lo_ne)
  have hperm' : (dataList (SegmentBuilder.ofSegments cmp gap xs).segs.root).Perm xs := by
    unfold SegmentBuilder.ofSegments
    rw [foldl_add]
    exact hperm
  refine ⟨_, GenTree.items_eq _, ?_, hperm', (h.perm hperm').sorted ?_⟩
  · unfold SegmentBuilder.ofSegments
    rw [foldl_add]
    rfl
  · unfold SegmentBuilder.ofSegments
    rw [foldl_add]
    exact hinv.increasing

/-! ## The lookup -/

/-- The bounds tested at the root are those of the first and of the last leaf. -/
theorem root_contains {nodes L : List (Node K T)} {p : Nat} {first last : Node K T} (key : K)
    (hL : L <+: nodes) (hspan : Spans nodes p 0 (L.length - 1))
    (hfirst : L.head? = some first) (hlast : L.getLast? = some last) :
    ∃ r, nodes[p]? = some r ∧
      (contains cmp r key ↔ (cmp first.lb key).isLE ∧ (cmp key last.ub).isLE) := by
  have hhead : L[0]? = some first := by rw [← head?_eq_getElem?]; exact hfirst
  have hend : L[L.length - 1]? = some last := by rw [← getLast?_eq_getElem?]; exact hlast
  obtain ⟨r, nf, nl, hr, hnf, hnl, hlb, hub⟩ := hspan.bounds
  obtain rfl : first = nf := Option.some.inj ((getElem?_of_extends hL hhead).symm.trans hnf)
  obtain rfl : last = nl := Option.some.inj ((getElem?_of_extends hL hend).symm.trans hnl)
  refine ⟨r, hr, ?_⟩
  rw [contains, hlb, hub, Bool.and_eq_true, OrientedCmp.isGE_iff_isLE]

/-- The datum found for a key in the range of the tree is the one of a leaf that contains the key,
or of the last leaf when the key is the greatest upper bound. -/
theorem find_leaf {nodes L : List (Node K T)} {p : Nat} {first last : Node K T} {key : K}
    (hL : L <+: nodes) (hspan : Spans nodes p 0 (L.length - 1))
    (hchain : L.IsChain fun a b => cmp a.ub b.lb = .eq)
    (hfirst : L.head? = some first) (hlast : L.getLast? = some last)
    (hlow : (cmp first.lb key).isLE) (hhigh : (cmp key last.ub).isLE) :
    ∃ n ∈ L, Tree.find cmp ⟨p, nodes⟩ key = n.data.map some ∧ (cmp n.lb key).isLE ∧
      (cmp key n.ub = .lt ∨ n = last ∧ cmp key last.ub = .eq) := by
  obtain ⟨r, hr, hcontains⟩ :=
    (root_contains key hL hspan hfirst hlast : ∃ r, _ ∧ (contains cmp r key ↔ _))
  have hpos : 0 < L.length := by
    cases L with
    | nil => simp at hfirst
    | cons => simp
  have hlen := hL.length_le
  obtain ⟨j, n, -, hj, hn, hrun, hge, hlt⟩ := hspan.find_spec cmp key nodes.length (by omega)
  have hjL : L[j]? = some n := by
    have h := getElem?_eq_getElem (by omega : j < L.length)
    rw [h, ← getElem?_of_extends hL h]
    exact hn
  -- the last leaf contains the keys up to its upper bound
  have hend : j = L.length - 1 → cmp key n.ub = .lt ∨ n = last ∧ cmp key last.ub = .eq := by
    intro hj
    rw [getLast?_eq_getElem?, ← hj, hjL] at hlast
    obtain rfl := Option.some.inj hlast
    rcases Ordering.isLE_iff_eq_lt_or_eq_eq.mp hhigh with h | h
    · exact Or.inl h
    · exact Or.inr ⟨rfl, h⟩
  refine ⟨n, mem_of_getElem? hjL, ?_, ?_, ?_⟩
  · simp [Tree.find, hr, hcontains.mpr ⟨hlow, hhigh⟩, hrun]
  · rcases hge with rfl | hge
    · rw [head?_eq_getElem?, hjL] at hfirst
      obtain rfl := Option.some.inj hfirst
      exact hlow
    · rw [← OrientedCmp.isGE_iff_isLE]
      exact Ordering.isGE_iff_ne_lt.mpr hge
  · -- the upper bound of another leaf is the lower bound of the next one
    rcases hlt with hj | ⟨n', hn', hlt⟩
    · exact hend hj
    · by_cases hnext : j + 1 < L.length
      · have hadj := hchain.getElem j hnext
        have h := getElem?_of_extends hL (getElem?_eq_getElem hnext)
        obtain rfl : n' = L[j + 1] := Option.some.inj (hn'.symm.trans h)
        obtain ⟨-, rfl⟩ := List.getElem?_eq_some_iff.mp hjL
        exact Or.inl (TransCmp.lt_of_lt_of_eq hlt (OrientedCmp.eq_symm hadj))
      · exact hend (by omega)

/-- What is found in the tree of sorted segments: nothing outside the bounds, the value of the last
segment for its upper bound, and else the datum of a leaf that contains the key. -/
theorem find_cases {b : SegmentBuilder K T} {x last : Entry K T} {xs : List (Entry K T)}
    (hpairs : b.segs.pairs = some (x :: xs)) (hsorted : Sorted cmp (x :: xs))
    (hlast : (x :: xs).getLast? = some last) (tree : Tree K T) :
    ∃ built, b.make cmp tree = some built ∧ ∀ key : K,
      Tree.find cmp built key = some none ∧
          ¬ ((cmp x.1.1 key).isLE ∧ (cmp key last.1.2).isLE) ∨
        ∃ v, Tree.find cmp built key = some (some v) ∧
          (v = last.2 ∧ cmp key last.1.2 = .eq ∨
            (cmp x.1.1 key).isLE ∧ ∃ n, LeafOf cmp b.dflt (x :: xs) n ∧ n.data = some v ∧
              (cmp n.lb key).isLE ∧ cmp key n.ub = .lt) := by
  obtain ⟨hleaves, hchain, hfirst, hend⟩ := leaves_spec b.dflt hsorted hlast
  obtain ⟨L, hL⟩ : ∃ L, L = leaves cmp b.dflt (x :: xs) := ⟨_, rfl⟩
  rw [← hL] at hleaves hchain hfirst hend
  have hpos : 0 < L.length := by simp [hL, leaves]
  obtain ⟨nodes, p, hmake, hgrow, hspan, -⟩ := make_spec L.length L 0 (L.length - 1) (by omega)
    (by omega) fun i _ hi => by
      have hi' : i < L.length := by omega
      exact ⟨L[i], getElem?_eq_getElem hi', (hleaves _ (getElem_mem hi')).isLeaf⟩
  have hmake' : Stree.make L.length L 0 ((L.length : Int) - 1) = some (nodes, (p : Int)) := by
    rw [← hmake]
    congr 1
    omega
  refine ⟨⟨p, nodes⟩, by simp [SegmentBuilder.make, hpairs, ← hL, hmake'], ?_⟩
  intro key
  by_cases hin : (cmp x.1.1 key).isLE ∧ (cmp key last.1.2).isLE
  · obtain ⟨n, hn, hfind, hlow, hhigh⟩ := find_leaf hgrow hspan hchain hfirst hend hin.1 hin.2
    have hdata : ∃ v, n.data = some v := by
      rcases hleaves n hn with ⟨y, -, rfl⟩ | ⟨-, hdata, -⟩
      · exact ⟨_, rfl⟩
      · exact ⟨_, hdata⟩
    obtain ⟨v, hv⟩ := hdata
    refine Or.inr ⟨v, by rw [hfind, hv, Option.map_some], ?_⟩
    rcases hhigh with hlt | ⟨rfl, heq⟩
    · exact Or.inr ⟨hin.1, n, hleaves n hn, hv, hlow, hlt⟩
    · exact Or.inl ⟨Option.some.inj (hv.symm.trans (leaf_data _ _ _)), heq⟩
  · obtain ⟨r, hr, hcontains⟩ :=
      (root_contains key hgrow hspan hfirst hend : ∃ r, _ ∧ (contains cmp r key ↔ _))
    have hout : ¬ contains cmp r key := fun h => hin (hcontains.mp h)
    exact Or.inl ⟨by simp [Tree.find, hr, hout], hin⟩

/-! ## The denoted value -/

omit [TransCmp cmp] in
theorem denoted_of_covers {gap dflt : T} {key : K} {x : Entry K T} {xs : List (Entry K T)}
    (h : Separated cmp xs) (hx : x ∈ xs) (hcov : covers cmp key x) :
    denoted cmp gap dflt key xs = x.2 := by
  have hsymm : Std.Symm fun x y : Entry K T => ∀ key, ¬ (covers cmp key x ∧ covers cmp key y) :=
    ⟨fun a b hab key hba => hab key hba.symm⟩
  have hsome : (xs.find? (covers cmp key)).isSome := find?_isSome.mpr ⟨x, hx, hcov⟩
  obtain ⟨y, hy⟩ := Option.isSome_iff_exists.mp hsome
  by_cases hxy : x = y
  · simp [denoted, hy, hxy]
  · exact absurd ⟨hcov, find?_some hy⟩
      (h.disjoint.forall hx (mem_of_find?_eq_some hy) hxy key)

omit [TransCmp cmp] in
theorem denoted_of_gap {gap dflt : T} {key : K} {xs : List (Entry K T)}
    (h : ∀ x ∈ xs, covers cmp key x = false) :
    denoted cmp gap dflt key xs = if inRange cmp key xs then gap else dflt := by
  have hnone : xs.find? (covers cmp key) = none := find?_eq_none.mpr (by simpa using h)
  simp [denoted, hnone]

/-- The range of sorted segments goes from the first lower bound to the last upper bound. -/
theorem inRange_iff {key : K} {x last : Entry K T} {xs segs : List (Entry K T)}
    (hperm : (x :: xs).Perm segs) (hsorted : Sorted cmp (x :: xs))
    (hlast : (x :: xs).getLast? = some last) :
    inRange cmp key segs ↔ (cmp x.1.1 key).isLE ∧ cmp key last.1.2 = .lt := by
  simp only [inRange, Bool.and_eq_true, any_eq_true, ← hperm.mem_iff, Ordering.isLT_iff_eq_lt]
  constructor
  · rintro ⟨⟨y, hy, hlow⟩, z, hz, hhigh⟩
    constructor
    · exact TransCmp.isLE_trans (hsorted.first_le hy) hlow
    · exact TransCmp.lt_of_lt_of_isLE hhigh (hsorted.le_last hlast hz)
  · rintro ⟨hlow, hhigh⟩
    exact ⟨⟨x, by simp, hlow⟩, last, mem_of_getLast? hlast, hhigh⟩

omit [TransCmp cmp] in
/-- A key outside the range denotes the default of the caller. -/
theorem denoted_outside {gap dflt : T} {key : K} {segs : List (Entry K T)}
    (hout : ¬ inRange cmp key segs) : denoted cmp gap dflt key segs = dflt := by
  rw [denoted_of_gap, if_neg hout]
  intro x hx
  rw [Bool.eq_false_iff]
  intro hcov
  rw [covers_iff] at hcov
  apply hout
  simp only [inRange, Bool.and_eq_true, any_eq_true, Ordering.isLT_iff_eq_lt]
  exact ⟨⟨x, hx, hcov.1⟩, x, hx, hcov.2⟩

/-- A key that is the greatest upper bound is the upper bound of the last segment. -/
theorem eq_last_of_greatest {key : K} {x last : Entry K T} {xs : List (Entry K T)}
    (hsorted : Sorted cmp xs) (hlast : xs.getLast? = some last) (hx : x ∈ xs)
    (heq : cmp key x.1.2 = .eq) (hgreatest : ∀ y ∈ xs, (cmp y.1.2 key).isLE) : x = last := by
  have hmem : last ∈ xs := mem_of_getLast? hlast
  rcases hsorted.last_le hlast hx with rfl | hle
  · rfl
  · have hlt : cmp key last.1.2 = .lt :=
      TransCmp.lt_of_eq_of_lt heq (TransCmp.lt_of_isLE_of_lt hle (hsorted.nonempty last hmem))
    exact absurd hlt (OrientedCmp.not_lt_of_isLE (hgreatest last hmem))

/-- A key covered by a segment is found with the value of the segment. -/
theorem find_of_covers (gap : T) (segs : List (Entry K T)) (tree : Tree K T)
    (hne : segs ≠ []) (hsep : Separated cmp segs) :
    ∃ built, (SegmentBuilder.ofSegments cmp gap segs).make cmp tree = some built ∧
      ∀ x ∈ segs, ∀ key, covers cmp key x → Tree.find cmp built key = some (some x.2) := by
  obtain ⟨ys, hpairs, -, hperm, hsorted⟩ := ofSegments_pairs gap hsep
  cases ys with
  | nil => exact absurd hperm.symm.eq_nil hne
  | cons first ys =>
    obtain ⟨last, hlast⟩ : ∃ last, (first :: ys).getLast? = some last :=
      ⟨_, getLast?_eq_some_getLast (by simp)⟩
    obtain ⟨built, hbuilt, hfind⟩ := find_cases hpairs hsorted hlast tree
    refine ⟨built, hbuilt, ?_⟩
    intro x hx key hcov
    have hx' := hperm.mem_iff.mpr hx
    obtain ⟨hlow, hhigh⟩ := covers_iff.mp hcov
    have hlt : cmp key last.1.2 = .lt :=
      TransCmp.lt_of_lt_of_isLE hhigh (hsorted.le_last hlast hx')
    rcases hfind key with ⟨-, hout⟩ | ⟨v, hsome, ⟨-, heq⟩ | ⟨-, n, hn, hdata, hlow', hhigh'⟩⟩
    · exact absurd ⟨TransCmp.isLE_trans (hsorted.first_le hx') hlow, by simp [hlt]⟩ hout
    · rw [hlt] at heq
      cases heq
    · rw [hsome]
      rcases hn with ⟨z, hz, rfl⟩ | ⟨-, -, -, hfree⟩
      · have hz' := hperm.mem_iff.mp hz
        have hden : denoted cmp gap gap key _ = x.2 := denoted_of_covers hsep hx hcov
        have hden' : denoted cmp gap gap key _ = z.2 :=
          denoted_of_covers hsep hz' (covers_iff.mpr ⟨hlow', hhigh'⟩)
        rw [← hden, hden', ← Option.some.inj hdata]
      · have hnot := hfree key hlow' hhigh' x hx'
        simp [hcov] at hnot

/-- The built tree answers each key as the segments denote, except for the greatest upper bound,
where it gives the value of the segment that ends there instead of the default of the caller.  The tree of the
segments has at most 31 levels, for the stacks of 32 entries. -/
theorem segmentBuilder_get_iff (gap : T) (segs : List (Entry K T)) (tree : Tree K T)
    (hne : segs ≠ []) (hsep : Separated cmp segs) :
    ∃ built, (SegmentBuilder.ofSegments cmp gap segs).make cmp tree = some built ∧
      ∀ (key : K) (dflt : T), ∃ v, Tree.get cmp built key dflt = some v ∧
        (v = denoted cmp gap dflt key segs ↔
          ∀ x ∈ segs, cmp key x.1.2 = .eq → (∀ y ∈ segs, (cmp y.1.2 key).isLE) → x.2 = dflt) := by
  obtain ⟨ys, hpairs, hdflt, hperm, hsorted⟩ := ofSegments_pairs gap hsep
  cases ys with
  | nil => exact absurd hperm.symm.eq_nil hne
  | cons first ys =>
    obtain ⟨last, hlast⟩ : ∃ last, (first :: ys).getLast? = some last :=
      ⟨_, getLast?_eq_some_getLast (by simp)⟩
    have hlastmem : last ∈ segs := hperm.mem_iff.mp (mem_of_getLast? hlast)
    obtain ⟨built, hbuilt, hfind⟩ := find_cases hpairs hsorted hlast tree
    refine ⟨built, hbuilt, ?_⟩
    intro key dflt
    have hrange : inRange cmp key segs ↔ _ := inRange_iff hperm hsorted hlast
    -- the exceptional key is the upper bound of the last segment
    have hgreatest : ∀ x ∈ segs, cmp key x.1.2 = .eq → (∀ y ∈ segs, (cmp y.1.2 key).isLE) →
        x = last := fun x hx heq hall => eq_last_of_greatest hsorted hlast (hperm.mem_iff.mpr hx)
      heq fun y hy => hall y (hperm.mem_iff.mp hy)
    rcases hfind key with ⟨hnone, hout⟩ |
      ⟨v, hsome, ⟨rfl, heq⟩ | ⟨hfirst, n, hn, hdata, hlow, hhigh⟩⟩
    · -- outside the bounds
      refine ⟨dflt, by simp [Tree.get, hnone], ?_⟩
      have hden : denoted cmp gap dflt key segs = dflt := by
        apply denoted_outside
        rw [hrange]
        exact fun h => hout ⟨h.1, by simp [h.2]⟩
      rw [hden]
      refine iff_of_true rfl ?_
      intro x hx heq hall
      obtain rfl := hgreatest x hx heq hall
      have hfirst : (cmp first.1.1 key).isLE := by
        have hle := hsorted.first_le (hperm.mem_iff.mpr hx)
        have hlt := TransCmp.lt_of_isLE_of_lt hle (hsep.nonempty x hx)
        simp [TransCmp.lt_of_lt_of_eq hlt (OrientedCmp.eq_symm heq)]
      exact absurd ⟨hfirst, by simp [heq]⟩ hout
    · -- the greatest upper bound
      refine ⟨last.2, by simp [Tree.get, hsome], ?_⟩
      have hden : denoted cmp gap dflt key segs = dflt := by
        apply denoted_outside
        rw [hrange]
        simp [heq]
      rw [hden]
      constructor
      · intro hval x hx heq' hall
        rw [hgreatest x hx heq' hall]
        exact hval
      · intro h
        refine h last hlastmem heq fun y hy => ?_
        have hle := hsorted.le_last hlast (hperm.mem_iff.mpr hy)
        exact TransCmp.isLE_trans hle (by simp [OrientedCmp.eq_symm heq])
    · -- inside a leaf, so that some segment ends after the key
      refine ⟨v, by simp [Tree.get, hsome], ?_⟩
      have hafter : ∃ y ∈ segs, cmp key y.1.2 = .lt := by
        rcases hn with ⟨y, hy, rfl⟩ | ⟨-, -, ⟨y, hy, hub⟩, -⟩
        · exact ⟨y, hperm.mem_iff.mp hy, hhigh⟩
        · have hlt := hsorted.nonempty y hy
          exact ⟨y, hperm.mem_iff.mp hy, TransCmp.lt_trans (hub ▸ hhigh) hlt⟩
      obtain ⟨y, hy, hlt⟩ := hafter
      refine iff_of_true ?_ fun x hx heq hall => ?_
      · rcases hn with ⟨z, hz, rfl⟩ | ⟨-, hgap, -, hfree⟩
        · rw [denoted_of_covers hsep (hperm.mem_iff.mp hz) (covers_iff.mpr ⟨hlow, hhigh⟩)]
          exact (Option.some.inj hdata).symm
        · have hin : inRange cmp key segs := by
            have hlt' := TransCmp.lt_of_lt_of_isLE hlt
              (hsorted.le_last hlast (hperm.mem_iff.mpr hy))
            exact hrange.mpr ⟨hfirst, hlt'⟩
          rw [denoted_of_gap fun z hz => hfree key hlow hhigh z (hperm.mem_iff.mpr hz), if_pos hin,
            ← hdflt]
          exact Option.some.inj (hdata.symm.trans hgap)
      · exact absurd hlt (OrientedCmp.not_lt_of_isLE (hall y hy))

theorem separated_example :
    Separated (compare : Nat → Nat → Ordering) [((3, 5), 8), ((0, 1), 7)] where
  nonempty := by decide
  disjoint := by
    simp only [pairwise_cons, mem_singleton, forall_eq, not_mem_nil, covers_iff,
      Nat.isLE_compare, Nat.compare_eq_lt]
    exact ⟨fun key => by omega, by simp, List.Pairwise.nil⟩

/-- Two segments with a gap, given in decreasing order. -/
theorem segmentBuilder_get_iff_two :
    ∃ built, (SegmentBuilder.ofSegments compare 9 [((3, 5), 8), ((0, 1), 7)]).make compare
        ⟨null, []⟩ = some built ∧
      ∀ (key dflt : Nat), ∃ v, Tree.get compare built key dflt = some v ∧
        (v = denoted compare 9 dflt key [((3, 5), 8), ((0, 1), 7)] ↔
          ∀ x ∈ [((3, 5), 8), ((0, 1), 7)], compare key x.1.2 = .eq →
            (∀ y ∈ [((3, 5), 8), ((0, 1), 7)], (compare y.1.2 key).isLE) → x.2 = dflt) :=
  segmentBuilder_get_iff 9 _ ⟨null, []⟩ (by decide) separated_example

/-- The segment `[0, 1)` with value 7 does not contain the key 1, and yet the lookup of 1 gives 7. -/
theorem segmentBuilder_get_upper_bound :
    ¬ ∀ (gap : Nat) (segs : List (Entry Nat Nat)) (tree : Tree Nat Nat), segs ≠ [] →
      Separated compare segs →
        ∃ built, (SegmentBuilder.ofSegments compare gap segs).make compare tree = some built ∧
          ∀ key dflt : Nat,
            Tree.get compare built key dflt = some (denoted compare gap dflt key segs) := by
  intro h
  have hsep : Separated (compare : Nat → Nat → Ordering) [((0, 1), 7)] :=
    ⟨by decide, pairwise_singleton _ _⟩
  obtain ⟨built, hbuilt, hget⟩ := h 9 [((0, 1), 7)] ⟨null, []⟩ (by decide) hsep
  have hmake : (SegmentBuilder.ofSegments compare 9 [((0, 1), 7)]).make compare ⟨null, []⟩ =
      some ⟨0, [Node.leaf 0 1 7]⟩ := by
    decide
  rw [hmake] at hbuilt
  obtain rfl := Option.some.inj hbuilt
  have hfound := hget 1 0
  revert hfound
  decide

end Elm.Stree
