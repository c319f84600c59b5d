import Elm.Avl.Run

/-!
# `avl::Map`

The map of `include/elm/avl/Map.h` is a tree of pairs ordered by their first component.  `put` is
the `set` of the tree, which keeps the pair already there for an equal key.
-/

namespace Elm.Avl

open BinaryTree Std

variable {K T : Type*}

/-- `avl::Map`: its member `tree`. -/
abbrev Map (K T : Type*) := GenTree (K × T)

/-- `PairAdapter<K, T>` and the comparator of the keys. -/
def pairAdapter (T : Type*) (cmp : K → K → Ordering) : Adapter (K × T) K := ⟨Prod.fst, cmp⟩

/-- `Map::put`. -/
def Map.put (cmp : K → K → Ordering) (m : Map K T) (key : K) (value : T) : Map K T :=
  m.add (pairAdapter T cmp) (key, value)

/-- The pairs given by a `PairIter`. -/
def Map.pairs (m : Map K T) : Option (List (K × T)) := m.items

/-- Putting pairs with pairwise different keys gives the tree of these pairs. -/
theorem Map.foldl_put_spec {cmp : K → K → Ordering} [TransCmp cmp] (xs : List (K × T)) :
    ∀ m : Map K T, m.Invariant (pairAdapter T cmp) →
      (dataList m.root ++ xs).Pairwise (fun x y => cmp x.1 y.1 ≠ .eq) →
      (xs.foldl (fun m x => m.put cmp x.1 x.2) m).Invariant (pairAdapter T cmp) ∧
        (dataList (xs.foldl (fun m x => Map.put cmp m x.1 x.2) m).root).Perm
          (dataList m.root ++ xs) := by
  have : TransCmp (pairAdapter T cmp).compare := inferInstanceAs (TransCmp cmp)
  induction xs with
  | nil =>
    intro m hm _
    exact ⟨hm, by simp⟩
  | cons x xs ih =>
    intro m hm hne
    obtain ⟨hinv, hadd⟩ := hm.add_spec x
    rcases hadd with ⟨ys, zs, hold, -, hnew⟩ | ⟨⟨y, hy, heq⟩, -⟩
    · have hperm : (dataList (m.put cmp x.1 x.2).root ++ xs).Perm (dataList m.root ++ x :: xs) := by
        change (dataList (m.add (pairAdapter T cmp) x).root ++ xs).Perm _
        rw [hnew, hold]
        simp only [List.append_assoc, List.cons_append]
        exact List.perm_middle.symm.append_left ys
      have hne' := hne.perm hperm.symm fun {a b} h hab => h (OrientedCmp.eq_symm hab)
      obtain ⟨hinv', hperm'⟩ := ih _ hinv hne'
      exact ⟨hinv', hperm'.trans hperm⟩
    · -- an equal key in the tree contradicts the hypothesis
      obtain ⟨-, -, hcross⟩ := List.pairwise_append.mp hne
      exact absurd (OrientedCmp.eq_symm heq) (hcross y hy x (by simp))

end Elm.Avl
