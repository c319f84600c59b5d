import Elm.Avl.Map
import Elm.Stree.Builder

/-!
# `stree::SegmentBuilder`

The builder of `include/elm/stree/SegmentBuilder.h` keeps the segments in a map ordered by lower
bound.  `make` lays them out as leaves, with a leaf of default data in each gap, and builds the tree
over these leaves.  The lookup in the built tree is then compared with the function that the
segments denote.
-/

namespace Elm.Stree

open Elm.Avl Std List

variable {K T : Type*}

/-- A pair of `map_t`: a `segment_t` and its value. -/
abbrev Entry (K T : Type*) := (K × K) × T

section Model

variable (cmp : K → K → Ordering)

/-- `segment_comparator_t::compare`. -/
def segCompare (v₁ v₂ : K × K) : Ordering := cmp v₁.1 v₂.1

/-- `SegmentBuilder`: its members `segs` and `_def`. -/
structure SegmentBuilder (K T : Type*) where
  segs : Map (K × K) T
  dflt : T

/-- The constructor of `SegmentBuilder`. -/
def SegmentBuilder.new (dflt : T) : SegmentBuilder K T := ⟨GenTree.empty, dflt⟩

/-- `SegmentBuilder::add`. -/
def SegmentBuilder.add (b : SegmentBuilder K T) (low high : K) (val : T) : SegmentBuilder K T :=
  { b with segs := Map.put (segCompare cmp) b.segs (low, high) val }

/-- The leaves that the loop of `make` stores once the iterator stands on `xs`, `p` being the upper
bound of the last one. -/
def leavesFrom (dflt : T) (p : K) : List (Entry K T) → List (Node K T)
  | [] => []
  | x :: xs =>
    (if cmp x.1.1 p ≠ .eq then [Node.leaf p x.1.1 dflt] else []) ++
      Node.leaf x.1.1 x.1.2 x.2 :: leavesFrom dflt x.1.2 xs

/-- All the leaves stored by `make` for the pairs of `segs`. -/
def leaves (dflt : T) : List (Entry K T) → List (Node K T)
  | [] => []
  | x :: xs => Node.leaf x.1.1 x.1.2 x.2 :: leavesFrom cmp dflt x.1.2 xs

/-- `SegmentBuilder::make`; the given tree is left as it is when there is no segment. -/
def SegmentBuilder.make (b : SegmentBuilder K T) (tree : Tree K T) : Option (Tree K T) :=
  match b.segs.pairs with
  | none => none
  | some [] => some tree
  | some (x :: xs) =>
    let nodes := leaves cmp b.dflt (x :: xs)
    match Stree.make nodes.length nodes 0 (nodes.length - 1) with
    | none => none
    | some (nodes, root) => some ⟨root, nodes⟩

/-- A builder to which the segments are added in the given order. -/
def SegmentBuilder.ofSegments (dflt : T) (xs : List (Entry K T)) : SegmentBuilder K T :=
  xs.foldl (fun b x => b.add cmp x.1.1 x.1.2 x.2) (.new dflt)

end Model

/-! ## What the segments denote -/

section Denotation

variable (cmp : K → K → Ordering)

/-- The key lies in the half-open segment. -/
def covers (key : K) (x : Entry K T) : Bool := (cmp x.1.1 key).isLE && (cmp key x.1.2).isLT

/-- The key lies between the least lower bound and the greatest upper bound. -/
def inRange (key : K) (xs : List (Entry K T)) : Bool :=
  xs.any (fun x => (cmp x.1.1 key).isLE) && xs.any fun x => (cmp key x.1.2).isLT

/-- The value of the segment that covers the key, the default value of the builder in a gap and
`dflt` outside the range of the segments. -/
def denoted (gap dflt : T) (key : K) (xs : List (Entry K T)) : T :=
  match xs.find? (covers cmp key) with
  | some x => x.2
  | none => if inRange cmp key xs then gap else dflt

/-- The segments are non-empty and pairwise disjoint. -/
structure Separated (xs : List (Entry K T)) : Prop where
  nonempty : ∀ x ∈ xs, cmp x.1.1 x.1.2 = .lt
  disjoint : xs.Pairwise fun x y => ∀ key, ¬ (covers cmp key x ∧ covers cmp key y)

end Denotation

/-! ## The leaves -/

section Leaves

variable {cmp : K → K → Ordering}

/-- Non-empty disjoint segments in the order of their lower bounds: each one ends before the next
ones start. -/
structure Sorted (cmp : K → K → Ordering) (xs : List (Entry K T)) : Prop where
  nonempty : ∀ x ∈ xs, cmp x.1.1 x.1.2 = .lt
  ordered : xs.Pairwise fun x y => (cmp x.1.2 y.1.1).isLE

theorem Sorted.tail {x : Entry K T} {xs : List (Entry K T)} (h : Sorted cmp (x :: xs)) :
    Sorted cmp xs :=
  ⟨fun y hy => h.nonempty y (by simp [hy]), (pairwise_cons.mp h.ordered).2⟩

theorem Sorted.le_of_mem {x y : Entry K T} {xs : List (Entry K T)} (h : Sorted cmp (x :: xs))
    (hy : y ∈ xs) : (cmp x.1.2 y.1.1).isLE :=
  (pairwise_cons.mp h.ordered).1 y hy

/-- A leaf is the leaf of a segment, or it has the default data, ends where a segment starts and
meets no segment. -/
def LeafOf (cmp : K → K → Ordering) (dflt : T) (xs : List (Entry K T)) (n : Node K T) : Prop :=
  (∃ x ∈ xs, n = Node.leaf x.1.1 x.1.2 x.2) ∨
    (n.isLeaf ∧ n.data = some dflt ∧ (∃ x ∈ xs, n.ub = x.1.1) ∧
      ∀ key, (cmp n.lb key).isLE → cmp key n.ub = .lt → ∀ x ∈ xs, covers cmp key x = false)

theorem LeafOf.isLeaf {dflt : T} {xs : List (Entry K T)} {n : Node K T}
    (h : LeafOf cmp dflt xs n) : n.isLeaf := by
  rcases h with ⟨x, -, rfl⟩ | ⟨hleaf, -⟩
  · rfl
  · exact hleaf

theorem covers_iff {key : K} {x : Entry K T} :
    covers cmp key x ↔ (cmp x.1.1 key).isLE ∧ cmp key x.1.2 = .lt := by
  simp [covers]

variable [TransCmp cmp]

theorem not_covers_of_lt {key : K} {x : Entry K T} (h : cmp key x.1.1 = .lt) :
    covers cmp key x = false := by
  simp [covers, OrientedCmp.gt_of_lt h]

theorem not_covers_of_le {key : K} {x : Entry K T} (h : (cmp x.1.2 key).isLE) :
    covers cmp key x = false := by
  rw [Bool.eq_false_iff]
  intro hcov
  exact OrientedCmp.not_lt_of_isLE h (covers_iff.mp hcov).2

theorem LeafOf.cons {dflt : T} {x : Entry K T} {xs : List (Entry K T)} {n : Node K T}
    (h : LeafOf cmp dflt xs n) (hlb : (cmp x.1.2 n.lb).isLE) : LeafOf cmp dflt (x :: xs) n := by
  rcases h with ⟨y, hy, rfl⟩ | ⟨hleaf, hdata, ⟨z, hz, hub⟩, hfree⟩
  · exact Or.inl ⟨y, by simp [hy], rfl⟩
  · refine Or.inr ⟨hleaf, hdata, ⟨z, by simp [hz], hub⟩, ?_⟩
    intro key hkey hkey' y hy
    rcases mem_cons.mp hy with rfl | hy
    · exact not_covers_of_le (TransCmp.isLE_trans hlb hkey)
    · exact hfree key hkey hkey' y hy

/-- The leaves after the bound `p` start at `p` or above. -/
theorem mem_leavesFrom (dflt : T) {xs : List (Entry K T)} : ∀ {p : K}, Sorted cmp xs →
    (∀ x ∈ xs, (cmp p x.1.1).isLE) → ∀ n ∈ leavesFrom cmp dflt p xs,
      (cmp p n.lb).isLE ∧ LeafOf cmp dflt xs n := by
  induction xs with
  | nil => simp [leavesFrom]
  | cons x xs ih =>
    intro p hxs hp n hn
    have hpx : (cmp p x.1.1).isLE := hp x (by simp)
    have hlt := hxs.nonempty x (by simp)
    simp only [leavesFrom, mem_append, mem_cons] at hn
    rcases hn with hn | rfl | hn
    · -- the gap leaf ends where `x` starts
      split_ifs at hn with hgap
      · obtain rfl : n = Node.leaf p x.1.1 dflt := by simpa using hn
        refine ⟨ReflCmp.isLE_rfl, Or.inr ⟨rfl, rfl, ⟨x, by simp, rfl⟩, ?_⟩⟩
        intro key _ hkey y hy
        apply not_covers_of_lt
        rcases mem_cons.mp hy with rfl | hy
        · exact hkey
        · have hxy : (cmp x.1.1 y.1.1).isLE :=
            TransCmp.isLE_trans (by simp [hlt]) (hxs.le_of_mem hy)
          exact TransCmp.lt_of_lt_of_isLE hkey hxy
      · simp at hn
    · exact ⟨hpx, Or.inl ⟨x, by simp, rfl⟩⟩
    · obtain ⟨hlb, hleaf⟩ := ih hxs.tail (fun y hy => hxs.le_of_mem hy) n hn
      refine ⟨?_, hleaf.cons hlb⟩
      exact TransCmp.isLE_trans hpx (TransCmp.isLE_trans (by simp [hlt]) hlb)

/-- Each leaf ends where the next one starts. -/
theorem isChain_leavesFrom (dflt : T) {xs : List (Entry K T)} : ∀ {n : Node K T},
    (n :: leavesFrom cmp dflt n.ub xs).IsChain fun a b => cmp a.ub b.lb = .eq := by
  induction xs with
  | nil => simp [leavesFrom]
  | cons x xs ih =>
    intro n
    have hrest := ih (n := Node.leaf x.1.1 x.1.2 x.2)
    simp only [leavesFrom]
    split_ifs with hgap
    · have hlast : cmp x.1.1 x.1.1 = .eq := ReflCmp.compare_self
      have hfirst : cmp n.ub n.ub = .eq := ReflCmp.compare_self
      exact .cons_cons hfirst (.cons_cons hlast hrest)
    · exact .cons_cons (OrientedCmp.eq_symm (not_not.mp hgap)) hrest

omit [TransCmp cmp] in
/-- The last leaf is the leaf of the last segment. -/
theorem getLast?_leavesFrom (dflt : T) {xs : List (Entry K T)} : ∀ {n : Node K T} {x : Entry K T},
    n = Node.leaf x.1.1 x.1.2 x.2 →
    (n :: leavesFrom cmp dflt n.ub xs).getLast? =
      ((x :: xs).getLast?).map fun y => Node.leaf y.1.1 y.1.2 y.2 := by
  induction xs with
  | nil =>
    rintro n x rfl
    rfl
  | cons y ys ih =>
    intro n x _
    have hrest := ih (n := Node.leaf y.1.1 y.1.2 y.2) rfl
    rw [leaf_ub] at hrest
    simp only [leavesFrom]
    split_ifs with hgap
    · simpa only [nil_append, cons_append, getLast?_cons_cons] using hrest
    · simpa only [nil_append, cons_append, getLast?_cons_cons] using hrest

/-- The leaves of sorted segments, from the first one to the last one. -/
theorem leaves_spec (dflt : T) {x y : Entry K T} {xs : List (Entry K T)}
    (hsorted : Sorted cmp (x :: xs)) (hlast : (x :: xs).getLast? = some y) :
    (∀ n ∈ leaves cmp dflt (x :: xs), LeafOf cmp dflt (x :: xs) n) ∧
      (leaves cmp dflt (x :: xs)).IsChain (fun a b => cmp a.ub b.lb = .eq) ∧
      (leaves cmp dflt (x :: xs)).head? = some (Node.leaf x.1.1 x.1.2 x.2) ∧
      (leaves cmp dflt (x :: xs)).getLast? = some (Node.leaf y.1.1 y.1.2 y.2) := by
  refine ⟨?_, isChain_leavesFrom dflt, rfl, ?_⟩
  · intro n hn
    rcases mem_cons.mp hn with rfl | hn
    · exact Or.inl ⟨x, by simp, rfl⟩
    · obtain ⟨hlb, hleaf⟩ := mem_leavesFrom dflt hsorted.tail (fun z hz => hsorted.le_of_mem hz) n hn
      exact hleaf.cons hlb
  · have h : (leaves cmp dflt (x :: xs)).getLast? =
        ((x :: xs).getLast?).map fun y => Node.leaf y.1.1 y.1.2 y.2 := getLast?_leavesFrom dflt rfl
    rw [hlast] at h
    exact h

/-- The first segment has the least lower bound. -/
theorem Sorted.first_le {x y : Entry K T} {xs : List (Entry K T)} (h : Sorted cmp (x :: xs))
    (hy : y ∈ x :: xs) : (cmp x.1.1 y.1.1).isLE := by
  rcases mem_cons.mp hy with rfl | hy
  · exact ReflCmp.isLE_rfl
  · have hlt := h.nonempty x (by simp)
    exact TransCmp.isLE_trans (by simp [hlt]) (h.le_of_mem hy)

omit [TransCmp cmp] in
/-- A segment is the last one or ends before the last one starts. -/
theorem Sorted.last_le {x y : Entry K T} {xs : List (Entry K T)} (h : Sorted cmp xs)
    (hlast : xs.getLast? = some y) (hx : x ∈ xs) : x = y ∨ (cmp x.1.2 y.1.1).isLE := by
  obtain ⟨zs, rfl⟩ := getLast?_eq_some_iff.mp hlast
  rcases mem_append.mp hx with hx | hx
  · exact Or.inr ((pairwise_append.mp h.ordered).2.2 x hx y (by simp))
  · exact Or.inl (by simpa using hx)

/-- The last segment has the greatest upper bound. -/
theorem Sorted.le_last {x y : Entry K T} {xs : List (Entry K T)} (h : Sorted cmp xs)
    (hlast : xs.getLast? = some y) (hx : x ∈ xs) : (cmp x.1.2 y.1.2).isLE := by
  have hy : y ∈ xs := mem_of_getLast? hlast
  rcases h.last_le hlast hx with rfl | hle
  · exact ReflCmp.isLE_rfl
  · have hlt := h.nonempty y hy
    exact TransCmp.isLE_trans hle (by simp [hlt])

end Leaves

end Elm.Stree
