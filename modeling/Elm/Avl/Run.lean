import Elm.Avl.Traverse

/-!
# Runs over several `avl::GenTree`s

A program holds any number of trees, all empty at the start, and applies to them any sequence of
the mutating operations; `copy` reads one tree and writes another one, possibly the same.
-/

namespace Elm.Avl

open BinaryTree Std Function

variable {ι T K : Type*} [DecidableEq ι] (A : Adapter T K)

/-- A mutating call on the trees named by `ι`. -/
inductive Op (ι T K : Type*)
  | add (i : ι) (item : T)
  | removeByKey (i : ι) (key : K)
  | remove (i : ι) (x : T)
  | clear (i : ι)
  | copy (i j : ι)

/-- The trees of the program. -/
abbrev Trees (ι T : Type*) := ι → GenTree T

/-- The effect of a call.  `copy` clears its receiver before it reads its argument. -/
def step (ts : Trees ι T) : Op ι T K → Option (Trees ι T)
  | .add i item => some (update ts i ((ts i).add A item))
  | .removeByKey i key => some (update ts i ((ts i).removeByKey A key))
  | .remove i x => some (update ts i ((ts i).remove A x))
  | .clear i => (ts i).clear.map fun (t, _) => update ts i t
  | .copy i j =>
    (ts i).clear.bind fun (t, _) =>
      let ts' := update ts i t
      (ts' j).copyFrom.map (update ts' i)

/-- The search tree property as the comment of `src/avl_GenTree.cpp` states it: below each node the
left data are smaller and the right data are greater. -/
def SearchTree : Node T → Prop
  | nil => True
  | node c l r =>
    (∀ y ∈ dataList l, A.compare (A.key y) (A.key c.data) = .lt) ∧
      (∀ y ∈ dataList r, A.compare (A.key c.data) (A.key y) = .lt) ∧
      SearchTree l ∧ SearchTree r

variable {A}

theorem Increasing.searchTree {n : Node T} (h : Increasing A (dataList n)) : SearchTree A n := by
  induction n with
  | nil => trivial
  | node c l r ihl ihr =>
    rw [dataList_node] at h
    obtain ⟨hl, hr, -⟩ := List.pairwise_append.mp h
    exact ⟨h.around_middle.1, h.around_middle.2, ihl hl, ihr hr.tail⟩

/-- No two elements of an increasing list have equal keys. -/
theorem Increasing.distinct {xs : List T} (h : Increasing A xs) :
    xs.Pairwise fun x y => A.compare (A.key x) (A.key y) ≠ .eq :=
  h.imp fun hlt => by simp [hlt]

theorem GenTree.Invariant.copyFrom_eq {t : GenTree T} (h : t.Invariant A) : t.copyFrom = some t := by
  apply GenTree.copyFrom_eq
  intro hroot
  simp [h.cnt_eq, hroot]

/-- Each call gives a state, in which the invariant holds again. -/
theorem step_invariant [TransCmp A.compare] {ts : Trees ι T} (h : ∀ i, (ts i).Invariant A)
    (op : Op ι T K) : ∃ ts', step A ts op = some ts' ∧ ∀ i, (ts' i).Invariant A := by
  have hupdate : ∀ (us : Trees ι T) (i : ι) (t : GenTree T), (∀ j, (us j).Invariant A) →
      t.Invariant A → ∀ j, (update us i t j).Invariant A := by
    intro us i t hus ht j
    by_cases hj : j = i
    · subst hj
      simpa using ht
    · simpa [hj] using hus j
  cases op with
  | add i item => exact ⟨_, rfl, hupdate ts i _ h ((h i).add_spec item).1⟩
  | removeByKey i key => exact ⟨_, rfl, hupdate ts i _ h ((h i).removeByKey_spec key).1⟩
  | remove i x => exact ⟨_, rfl, hupdate ts i _ h ((h i).removeByKey_spec (A.key x)).1⟩
  | clear i =>
    obtain ⟨freed, hclear, -⟩ := (ts i).clear_spec
    refine ⟨_, ?_, hupdate ts i _ h (GenTree.invariant_empty A)⟩
    simp only [step, hclear, Option.map_some]
  | copy i j =>
    obtain ⟨freed, hclear, -⟩ := (ts i).clear_spec
    have hcleared := hupdate ts i _ h (GenTree.invariant_empty A)
    refine ⟨_, ?_, hupdate _ i _ hcleared (hcleared j)⟩
    simp only [step, hclear, Option.bind_some, (hcleared j).copyFrom_eq, Option.map_some]

/-- After any sequence of calls every tree is a balanced search tree with exact balance factors and
an exact count. -/
theorem genTree_run_invariant [TransCmp A.compare] (ops : List (Op ι T K)) :
    ∃ ts, Run.exec (step A) (fun _ => GenTree.empty) ops = some ts ∧
      ∀ i, SearchTree A (ts i).root ∧
        (dataList (ts i).root).Pairwise (fun x y => A.compare (A.key x) (A.key y) ≠ .eq) ∧
        Balanced (ts i).root ∧
        (ts i).cnt = (ts i).root.numNodes := by
  obtain ⟨ts, hexec, hts⟩ := Run.exists_exec (fun ts : Trees ι T => ∀ i, (ts i).Invariant A)
    (fun _ op h => step_invariant h op) ops _ fun _ => GenTree.invariant_empty A
  exact ⟨ts, hexec, fun i =>
    ⟨(hts i).increasing.searchTree, (hts i).increasing.distinct, (hts i).balanced, (hts i).cnt_eq⟩⟩

/-- Sets of numbers in their natural order. -/
def natAdapter : Adapter Nat Nat := ⟨id, compare⟩

instance : TransCmp natAdapter.compare := inferInstanceAs (TransCmp (compare : Nat → Nat → Ordering))

/-- Two trees of numbers, with a rotation, a removal in the middle and a copy. -/
theorem genTree_run_invariant_nat :
    ∃ ts, Run.exec (step natAdapter) (fun _ : Bool => GenTree.empty)
        [.add true 1, .add true 2, .add true 3, .removeByKey true 2, .copy false true] = some ts ∧
      ∀ i, SearchTree natAdapter (ts i).root ∧
        (dataList (ts i).root).Pairwise
          (fun x y => natAdapter.compare (natAdapter.key x) (natAdapter.key y) ≠ .eq) ∧
        Balanced (ts i).root ∧
        (ts i).cnt = (ts i).root.numNodes :=
  genTree_run_invariant _

end Elm.Avl
