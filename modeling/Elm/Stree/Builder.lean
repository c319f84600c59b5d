import Elm.Stree.Tree

/-!
# `stree::Builder`

`make` of `include/elm/stree/Builder.h` builds the inner nodes of a tree over the leaves already
stored in the array.  The array is a list that grows by one node at each allocation `nodes[s++]`;
the size given to `allocate` is not part of the list.
-/

namespace Elm.Stree

variable {K T : Type*}

/-- `Builder::make`: the extended array and the index of the root over the nodes `start, ..., stop`.
The recursion of the source is bounded by `fuel`. -/
def make : Nat → List (Node K T) → Int → Int → Option (List (Node K T) × Int)
  | 0, _, _, _ => none
  | fuel + 1, nodes, start, stop =>
    if start = stop then
      some (nodes, start)
    else
      let m := (start + stop).tdiv 2
      match make fuel nodes start m with
      | none => none
      | some (nodes, l) =>
        match make fuel nodes (m + 1) stop with
        | none => none
        | some (nodes, u) =>
          match nodeAt nodes l, nodeAt nodes u with
          | some nl, some nu => some (nodes ++ [⟨nl.lb, nu.ub, l, u, none⟩], nodes.length)
          | _, _ => none

/-- Over leaves, `make` gives the root of a tree that spans them and adds one node for each leaf but
one. -/
theorem make_spec : ∀ (fuel : Nat) (nodes : List (Node K T)) (s e : Nat), s ≤ e → e - s < fuel →
    (∀ i, s ≤ i → i ≤ e → ∃ n, nodes[i]? = some n ∧ n.isLeaf) →
    ∃ (nodes' : List (Node K T)) (p : Nat), make fuel nodes s e = some (nodes', (p : Int)) ∧
      nodes <+: nodes' ∧ Spans nodes' p s e ∧ nodes'.length = nodes.length + (e - s) := by
  intro fuel
  induction fuel with
  | zero => omega
  | succ fuel ih =>
    intro nodes s e hse hfuel hleaves
    by_cases heq : s = e
    · subst heq
      obtain ⟨n, hn, hleaf⟩ := hleaves s le_rfl le_rfl
      exact ⟨nodes, s, by simp [make], List.prefix_rfl, .leaf s n hn hleaf, by omega⟩
    · -- the midpoint of the source stays a natural number
      obtain ⟨m, hm⟩ : ∃ m, m = (s + e) / 2 := ⟨_, rfl⟩
      have hmid : ((s : Int) + e).tdiv 2 = (m : Int) := by
        rw [Int.tdiv_eq_ediv_of_nonneg (by omega)]
        omega
      obtain ⟨nodes₁, l, hleft, hpre₁, hspan₁, hlen₁⟩ := ih nodes s m (by omega) (by omega)
        fun i hi hi' => hleaves i hi (by omega)
      have hleaves₁ : ∀ i, m + 1 ≤ i → i ≤ e → ∃ n, nodes₁[i]? = some n ∧ n.isLeaf := by
        intro i hi hi'
        obtain ⟨n, hn, hleaf⟩ := hleaves i (by omega) hi'
        exact ⟨n, getElem?_of_extends hpre₁ hn, hleaf⟩
      obtain ⟨nodes₂, u, hright, hpre₂, hspan₂, hlen₂⟩ := ih nodes₁ (m + 1) e (by omega)
        (by omega) hleaves₁
      have hspanl := hspan₁.mono hpre₂
      obtain ⟨nl, -, -, hl, -⟩ := hspanl.bounds
      obtain ⟨nu, -, -, hu, -⟩ := hspan₂.bounds
      have hpre : nodes₂ <+: nodes₂ ++ [⟨nl.lb, nu.ub, l, u, none⟩] := List.prefix_append _ _
      refine ⟨nodes₂ ++ [⟨nl.lb, nu.ub, l, u, none⟩], nodes₂.length, ?_,
        hpre₁.trans (hpre₂.trans hpre), ?_, ?_⟩
      · have hne : ¬ (s : Int) = e := by omega
        have hright' : make fuel nodes₁ ((m : Int) + 1) e = some (nodes₂, (u : Int)) := by
          simpa using hright
        simp [make, hne, hmid, hleft, hright', hl, hu]
      · exact .inner _ l u s m e _ nl nu (by simp) (getElem?_of_extends hpre hl)
          (getElem?_of_extends hpre hu) rfl (hspanl.mono hpre) (hspan₂.mono hpre)
      · simp only [List.length_append, List.length_singleton]
        omega

end Elm.Stree
