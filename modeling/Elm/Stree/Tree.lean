import Elm.Lib.Loop
import Mathlib.Tactic

/-!
# `stree::Tree`

The implicit search tree of `include/elm/stree/Tree.h`: an array of nodes linked by their indices.
Reading outside the array or through an unset datum has no result (`none`).
-/

namespace Elm.Stree

variable {K T : Type*}

/-- `Tree::null`. -/
def null : Int := -1

/-- `Tree::node_t`; the datum is set for leaves only. -/
structure Node (K T : Type*) where
  lb : K
  ub : K
  ll : Int
  rl : Int
  data : Option T
  deriving DecidableEq, Repr

/-- `node_t(lb, ub)` followed by the assignment of `data`. -/
def Node.leaf (lb ub : K) (data : T) : Node K T := ⟨lb, ub, null, null, some data⟩

def Node.isLeaf (n : Node K T) : Bool := n.ll == null

/-- `Tree`: its members `root` and `nodes`. -/
structure Tree (K T : Type*) where
  root : Int
  nodes : List (Node K T)
  deriving DecidableEq, Repr

/-- `nodes[i]`. -/
def nodeAt (nodes : List (Node K T)) (i : Int) : Option (Node K T) :=
  if i < 0 then none else nodes[i.toNat]?

section Lookup

variable (cmp : K → K → Ordering)

/-- The test of `Tree::contains` on the root node. -/
def contains (r : Node K T) (key : K) : Bool := (cmp key r.lb).isGE && (cmp key r.ub).isLE

/-- One turn of the loop of `Tree::find` at index `i`. -/
def findTurn (nodes : List (Node K T)) (key : K) (i : Int) : Int ⊕ Option T :=
  match nodeAt nodes i with
  | none => .inr none
  | some n =>
    if n.isLeaf then
      .inr n.data
    else
      match nodeAt nodes n.rl with
      | none => .inr none
      | some r => .inl (if cmp key r.lb = .lt then n.ll else n.rl)

/-- `Tree::find`; the inner `none` is the null pointer. -/
def Tree.find (t : Tree K T) (key : K) : Option (Option T) :=
  match nodeAt t.nodes t.root with
  | none => none
  | some r =>
    if contains cmp r key then
      (Loop.run (findTurn cmp t.nodes key) t.nodes.length t.root).bind fun data => data.map some
    else
      some none

/-- `Tree::get(key, def)`. -/
def Tree.get (t : Tree K T) (key : K) (dflt : T) : Option T :=
  (Tree.find cmp t key).map fun val => val.getD dflt

/-- `Tree::get(key)`, which asserts that the key is found. -/
def Tree.getRef (t : Tree K T) (key : K) : Option T := (Tree.find cmp t key).join

end Lookup

@[simp] theorem nodeAt_natCast (nodes : List (Node K T)) (i : Nat) :
    nodeAt nodes (i : Int) = nodes[i]? := by
  simp [nodeAt]

@[simp] theorem leaf_ub (lb ub : K) (data : T) : (Node.leaf lb ub data).ub = ub := rfl

@[simp] theorem leaf_data (lb ub : K) (data : T) : (Node.leaf lb ub data).data = some data := rfl

@[simp] theorem isLeaf_leaf (lb ub : K) (data : T) : (Node.leaf lb ub data).isLeaf := rfl

theorem isLeaf_iff {n : Node K T} : n.isLeaf ↔ n.ll = null := by
  simp [Node.isLeaf]

/-- Nodes keep their indices when the array grows. -/
theorem getElem?_of_extends {nodes nodes' : List (Node K T)} (h : nodes <+: nodes') {i : Nat}
    {n : Node K T} (hi : nodes[i]? = some n) : nodes'[i]? = some n := by
  obtain ⟨more, rfl⟩ := h
  rw [List.getElem?_append_left (List.getElem?_eq_some_iff.mp hi).1]
  exact hi

/-! ## The shape of a tree over a range of leaves -/

/-- The node at `p` is the root of a tree over the leaves `s, ..., e`. -/
inductive Spans (nodes : List (Node K T)) : Nat → Nat → Nat → Prop
  | leaf (i : Nat) (n : Node K T) (hn : nodes[i]? = some n) (hleaf : n.isLeaf) : Spans nodes i i i
  | inner (p l u s m e : Nat) (n nl nu : Node K T) (hn : nodes[p]? = some n)
      (hl : nodes[l]? = some nl) (hu : nodes[u]? = some nu)
      (hshape : n = ⟨nl.lb, nu.ub, l, u, none⟩)
      (hleft : Spans nodes l s m) (hright : Spans nodes u (m + 1) e) : Spans nodes p s e

namespace Spans

variable {nodes nodes' : List (Node K T)} {p s e : Nat}

/-- Adding nodes at the end keeps the trees already there. -/
theorem mono (h : Spans nodes p s e) (hgrow : nodes <+: nodes') : Spans nodes' p s e := by
  induction h with
  | leaf i n hn hleaf => exact .leaf i n (getElem?_of_extends hgrow hn) hleaf
  | inner p l u s m e n nl nu hn hl hu hshape _ _ ihl ihr =>
    exact .inner p l u s m e n nl nu (getElem?_of_extends hgrow hn)
      (getElem?_of_extends hgrow hl) (getElem?_of_extends hgrow hu) hshape ihl ihr

theorem le (h : Spans nodes p s e) : s ≤ e := by
  induction h with
  | leaf => exact le_rfl
  | inner => omega

/-- The bounds of the root are the lower bound of the first leaf and the upper bound of the last. -/
theorem bounds (h : Spans nodes p s e) :
    ∃ n ns ne, nodes[p]? = some n ∧ nodes[s]? = some ns ∧ nodes[e]? = some ne ∧
      n.lb = ns.lb ∧ n.ub = ne.ub := by
  induction h with
  | leaf i n hn hleaf => exact ⟨n, n, n, hn, hn, hn, rfl, rfl⟩
  | inner p l u s m e n nl nu hn hl hu hshape _ _ ihl ihr =>
    obtain ⟨nl', ns, -, hl', hs, -, hlb, -⟩ := ihl
    obtain ⟨nu', -, ne, hu', -, he, -, hub⟩ := ihr
    obtain rfl : nl = nl' := Option.some.inj (hl.symm.trans hl')
    obtain rfl : nu = nu' := Option.some.inj (hu.symm.trans hu')
    subst hshape
    exact ⟨_, ns, ne, hn, hs, he, hlb, hub⟩

/-- The descent of `find` ends on the leaf of the range whose lower bound is the last one that does
not exceed the key. -/
theorem find_spec (cmp : K → K → Ordering) (key : K) (h : Spans nodes p s e) :
    ∀ fuel, e - s < fuel → ∃ j n, s ≤ j ∧ j ≤ e ∧ nodes[j]? = some n ∧
      Loop.run (findTurn cmp nodes key) fuel (p : Int) = some n.data ∧
      (j = s ∨ cmp key n.lb ≠ .lt) ∧
      (j = e ∨ ∃ n', nodes[j + 1]? = some n' ∧ cmp key n'.lb = .lt) := by
  induction h with
  | leaf i n hn hleaf =>
    intro fuel hfuel
    obtain ⟨fuel, rfl⟩ : ∃ k, fuel = k + 1 := ⟨fuel - 1, by omega⟩
    refine ⟨i, n, le_rfl, le_rfl, hn, ?_, Or.inl rfl, Or.inl rfl⟩
    apply Loop.run_succ_inr
    simp [findTurn, hn, hleaf]
  | inner p l u s m e n nl nu hn hl hu hshape hleft hright ihl ihr =>
    intro fuel hfuel
    have hsm := hleft.le
    have hme := hright.le
    obtain ⟨fuel, rfl⟩ : ∃ k, fuel = k + 1 := ⟨fuel - 1, by omega⟩
    have hinner : ¬ n.isLeaf := by
      rw [isLeaf_iff, hshape]
      simp only [null]
      omega
    have hturn : findTurn cmp nodes key p =
        .inl (if cmp key nu.lb = .lt then (l : Int) else u) := by
      have hrl : nodeAt nodes n.rl = some nu := by rw [hshape]; simp [hu]
      simp only [findTurn, nodeAt_natCast, hn, hinner, hrl]
      rw [hshape]
      rfl
    rw [Loop.run_succ_inl hturn]
    obtain ⟨nu', nm, -, hu', hm, -, hlb, -⟩ := hright.bounds
    obtain rfl : nu = nu' := Option.some.inj (hu.symm.trans hu')
    by_cases hlt : cmp key nu.lb = .lt
    · rw [if_pos hlt]
      obtain ⟨j, nj, hsj, hjm, hj, hrun, hlow, hhigh⟩ := ihl fuel (by omega)
      refine ⟨j, nj, hsj, by omega, hj, hrun, hlow, Or.inr ?_⟩
      rcases hhigh with rfl | hnext
      · exact ⟨nm, hm, hlb ▸ hlt⟩
      · exact hnext
    · rw [if_neg hlt]
      obtain ⟨j, nj, hsj, hje, hj, hrun, hlow, hhigh⟩ := ihr fuel (by omega)
      refine ⟨j, nj, by omega, hje, hj, hrun, Or.inr ?_, hhigh⟩
      rcases hlow with rfl | hge
      · obtain rfl : nm = nj := Option.some.inj (hm.symm.trans hj)
        exact hlb ▸ hlt
      · exact hge

end Spans

end Elm.Stree
