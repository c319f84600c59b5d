import Elm.Imm.List

/-!
# Runs of the clients of `imm::list`

The nodes in use are allocated blocks, and the lists given to the collectors have all their nodes in
use.  A call of `cons` keeps these lists exactly when its collection, if it starts one, marks all
their nodes.
-/

namespace Elm.Imm.Client

open Alloc Chain Util Option

variable {T : Type*} {st st' : Client T}

/-- The invariant of a run in which no collection has lost a node. -/
structure Invariant (st : Client T) : Prop where
  gc : BlockAllocator.Invariant st.heap.gc st.live
  whole : ∀ l ∈ st.roots, st.Whole l

theorem Invariant.inBlocks (h : Invariant st) : st.heap.InBlocks st.roots := by
  intro l hl
  obtain ⟨xs, hlist, hlive⟩ := h.whole l hl
  exact ⟨xs, hlist, fun x hx => h.gc.isBlock _ (hlive x hx)⟩

theorem reachable_iff (h : Invariant st) {a : Nat} :
    st.Reachable a ↔ a ∈ Parking.places (st.roots.map st.heap.nodes) := by
  rw [Parking.mem_places]
  constructor
  · rintro ⟨l, hl, xs, hlist, ha⟩
    obtain ⟨ys, hys, hblock⟩ := h.inBlocks l hl
    obtain rfl := hlist.unique hys
    refine ⟨_, List.mem_map_of_mem hl, ?_⟩
    rwa [Heap.nodes_eq hys hblock]
  · rintro ⟨street, hstreet, ha⟩
    obtain ⟨l, hl, rfl⟩ := List.mem_map.mp hstreet
    obtain ⟨xs, hlist, hblock⟩ := h.inBlocks l hl
    rw [Heap.nodes_eq hlist hblock] at ha
    exact ⟨l, hl, xs, hlist, ha⟩

theorem Invariant.live_of_reachable (h : Invariant st) {a : Nat} (ha : st.Reachable a) :
    a ∈ st.live := by
  obtain ⟨l, hl, xs, hlist, hmem⟩ := ha
  obtain ⟨ys, hys, hlive⟩ := h.whole l hl
  obtain rfl := hlist.unique hys
  obtain ⟨x, hx, rfl⟩ := List.mem_map.mp hmem
  exact hlive x hx

theorem whole_iff {l : Option Nat} :
    st.Whole l ↔ ((toList st.heap.node st.live.length l).any fun xs =>
      xs.all fun x => decide (x.1 ∈ st.live)) = true := by
  simp only [any_eq_true, List.all_eq_true, decide_eq_true_eq, toList_eq_some]
  constructor
  · rintro ⟨xs, hlist, hlive⟩
    have hsub : xs.map Prod.fst ⊆ st.live := by
      intro a ha
      obtain ⟨x, hx, rfl⟩ := List.mem_map.mp ha
      exact hlive x hx
    have hle := (hlist.nodup.subperm hsub).length_le
    exact ⟨xs, ⟨hlist, by simpa using hle⟩, hlive⟩
  · rintro ⟨xs, ⟨hlist, -⟩, hlive⟩
    exact ⟨xs, hlist, hlive⟩

instance (st : Client T) (l : Option Nat) : Decidable (st.Whole l) :=
  decidable_of_iff _ whole_iff.symm

instance (st : Client T) : ∀ op, Decidable (st.Contract op)
  | .cons _ _ chunk _ => inferInstanceAs (Decidable (∀ c ∈ st.heap.gc.chunks,
      c + st.heap.gc.csize ≤ chunk ∨ chunk + st.heap.gc.csize ≤ c))
  | .register roots => inferInstanceAs (Decidable (∀ l ∈ roots, st.Whole l))

/-! ## One call of `cons` -/

theorem totalCount_pos_of_collects (h : Invariant st) (hcollects : st.heap.gc.collects = true) :
    0 < st.heap.gc.totalCount := by
  apply BlockAllocator.totalCount_pos_of_full h.gc.placed
  simp only [BlockAllocator.collects, BlockAllocator.full, Bool.and_eq_true,
    Bool.not_eq_true', decide_eq_false_iff_not] at hcollects
  exact hcollects.1.2

/-- The marks of the collection that a call of `cons` starts. -/
theorem marks_of_collects (h : Invariant st) (hcollects : st.heap.gc.collects = true) :
    ∃ marks, st.heap.marks st.roots = some marks ∧ st.kept = marks ∧
      ∀ a, a ∈ marks ↔ a ∈ Parking.parkAll (st.roots.map st.heap.nodes) := by
  obtain ⟨marks, hmarks, hmem⟩ := Heap.marks_spec h.gc.placed
    (totalCount_pos_of_collects h hcollects) h.inBlocks
  refine ⟨marks, hmarks, ?_, hmem⟩
  simp [kept, hcollects, hmarks]

theorem kept_subset_live (h : Invariant st) {a : Nat} (ha : a ∈ st.kept) : a ∈ st.live := by
  by_cases hcollects : st.heap.gc.collects = true
  · obtain ⟨marks, -, hkept, hmem⟩ := marks_of_collects h hcollects
    rw [hkept, hmem] at ha
    rcases Parking.mem_parkFrom ha with hnil | hplace
    · cases hnil
    · exact h.live_of_reachable ((reachable_iff h).mpr hplace)
  · rwa [kept, if_neg hcollects] at ha

/-- `cons` succeeds, on a block that is not in use, and leaves the nodes in use as they are. -/
theorem cons_spec (h : Invariant st) {hd : T} {tl : Option Nat} {chunk : Nat} {word : Option Nat}
    (hop : st.Contract (.cons hd tl chunk word)) :
    ∃ n h', st.heap.cons st.roots hd tl chunk word = some (n, h') ∧ n ∉ st.kept ∧
      BlockAllocator.Invariant h'.gc (n :: st.kept) ∧ h'.node n = some (tl, hd) ∧
      ∀ a ∈ st.kept, h'.node a = st.heap.node a := by
  have hkept : ∀ a ∈ st.kept, a ∈ st.live := fun a ha => kept_subset_live h ha
  by_cases hcollects : st.heap.gc.collects = true
  · obtain ⟨marks, hmarks, hkeep, -⟩ := marks_of_collects h hcollects
    rw [hkeep] at hkept ⊢
    obtain ⟨n, gc, halloc, hn, hinv⟩ := BlockAllocator.allocate_spec h.gc
      (show BlockAllocator.Contract (st.heap.gc, st.live) (.allocate chunk marks) from ⟨hop, hkept⟩)
    rw [if_pos hcollects] at hn hinv
    have hheap : st.heap.allocate st.roots chunk =
        some (n, { gc := gc, node := st.heap.sweep marks }) := by
      simp [Heap.allocate, hcollects, hmarks, halloc]
    refine ⟨n, _, by rw [Heap.cons, hheap, map_some], hn, ?_, ?_, ?_⟩
    · exact BlockAllocator.write_invariant hinv List.mem_cons_self word
    · exact Function.update_self ..
    · intro a ha
      have hne : a ≠ n := fun heq => hn (heq ▸ ha)
      simp [hne, Heap.sweep, ha]
  · have hkeep : st.kept = st.live := if_neg hcollects
    rw [hkeep]
    obtain ⟨n, gc, halloc, hn, hinv⟩ := BlockAllocator.allocate_spec h.gc
      (show BlockAllocator.Contract (st.heap.gc, st.live) (.allocate chunk []) from ⟨hop, by simp⟩)
    rw [if_neg hcollects] at hn hinv
    have hheap : st.heap.allocate st.roots chunk = some (n, { gc := gc, node := st.heap.node }) := by
      simp [Heap.allocate, hcollects, halloc]
    refine ⟨n, _, by rw [Heap.cons, hheap, map_some], hn, ?_, ?_, ?_⟩
    · exact BlockAllocator.write_invariant hinv List.mem_cons_self word
    · exact Function.update_self ..
    · intro a ha
      have hne : a ≠ n := fun heq => hn (heq ▸ ha)
      simp [hne]

/-! ## The nodes of the collectors -/

/-- A collection marks all the nodes of the collectors exactly when enough lists go through each. -/
theorem reachable_marked_iff (h : Invariant st) (hcollects : st.heap.gc.collects = true) :
    (∀ a, st.Reachable a → a ∈ st.kept) ↔
      Parking.Enough (fun a => st.heap.nodes (some a)) (st.roots.map st.heap.nodes) := by
  obtain ⟨marks, -, hkept, hmem⟩ := marks_of_collects h hcollects
  rw [← Parking.forall_mem_parkAll_iff (Heap.branches h.inBlocks), hkept]
  constructor
  · intro hall v hv
    exact (hmem v).mp (hall v ((reachable_iff h).mpr hv))
  · intro hall a ha
    exact (hmem a).mpr (hall a ((reachable_iff h).mp ha))

theorem reachable_kept (h : Invariant st) {op : Op T} {hd : T} {tl : Option Nat} {chunk : Nat}
    {word : Option Nat} (hop : op = .cons hd tl chunk word) (henough : st.Enough op) {a : Nat}
    (ha : st.Reachable a) : a ∈ st.kept := by
  subst hop
  by_cases hcollects : st.heap.gc.collects = true
  · exact (reachable_marked_iff h hcollects).mpr (henough hcollects) a ha
  · rw [kept, if_neg hcollects]
    exact h.live_of_reachable ha

/-- The lists of the collectors are the same in a memory that has the same nodes in use. -/
theorem isList_of_kept (hreach : ∀ a, st.Reachable a → a ∈ st.kept) {node : Read Nat T}
    (hnode : ∀ a ∈ st.kept, node a = st.heap.node a) {l : Option Nat} (hl : l ∈ st.roots)
    {xs : List (Nat × T)} (hlist : IsList st.heap.node l xs) : IsList node l xs := by
  apply hlist.congr
  intro x hx
  exact hnode x.1 (hreach x.1 ⟨l, hl, xs, hlist, List.mem_map_of_mem hx⟩)

/-- A call keeps the lists of the collectors exactly when enough of them go through each node. -/
theorem keeps_iff_enough (h : Invariant st) {op : Op T} (hop : st.Contract op) :
    st.Keeps op ↔ st.Enough op := by
  cases op with
  | register roots => exact Iff.rfl
  | cons hd tl chunk word =>
    constructor
    · rintro ⟨hmarked, -⟩ hcollects
      obtain ⟨marks, hmarks, hall⟩ := hmarked hcollects
      rw [← reachable_marked_iff h hcollects]
      intro a ha
      rw [kept, if_pos hcollects, hmarks, getD_some]
      exact hall a ha
    · intro henough
      have hreach : ∀ a, st.Reachable a → a ∈ st.kept := fun a ha => reachable_kept h rfl henough ha
      obtain ⟨n, h', hcons, hn, hinv, -, hnode⟩ := cons_spec h hop
      constructor
      · intro hcollects
        obtain ⟨marks, hmarks, hkept, -⟩ := marks_of_collects h hcollects
        exact ⟨marks, hmarks, fun a ha => hkept ▸ hreach a ha⟩
      · refine ⟨n, h', hcons, fun hr => hn (hreach n hr), ?_, ?_⟩
        · obtain ⟨free, hfree, hdead, -⟩ := hinv.free
          exact ⟨free, hfree, fun a ha hr =>
            (hdead a ha).2 (List.mem_cons_of_mem _ (hreach a hr))⟩
        · exact fun l hl xs hlist => isList_of_kept hreach hnode hl hlist

/-! ## Runs -/

theorem invariant_of_new {nodeSize chunk : Nat} {mem : Nat → Option Nat} {heap : Heap T}
    (hnew : Heap.new nodeSize chunk mem = some heap) :
    Invariant { heap := heap, roots := [], live := [] } := by
  obtain ⟨gc, hgc, rfl⟩ := map_eq_some_iff.mp hnew
  have hfit : gc.bsize ≤ gc.csize := by
    unfold BlockAllocator.new at hgc
    split_ifs at hgc with hlt
    obtain rfl := some.inj hgc
    exact max_le hlt.le (show sizeofFree ≤ 2 ^ 20 by decide)
  exact ⟨BlockAllocator.invariant_of_new hgc hfit, by simp⟩

theorem step_invariant (h : Invariant st) {op : Op T} (hop : st.Contract op)
    (henough : st.Enough op) : ∃ st', st.step op = some st' ∧ Invariant st' := by
  cases op with
  | register roots => exact ⟨_, rfl, h.gc, hop⟩
  | cons hd tl chunk word =>
    obtain ⟨n, h', hcons, -, hinv, -, hnode⟩ := cons_spec h hop
    have hreach : ∀ a, st.Reachable a → a ∈ st.kept := fun a ha => reachable_kept h rfl henough ha
    refine ⟨_, by rw [step, hcons, map_some], hinv, ?_⟩
    intro l hl
    obtain ⟨xs, hlist, -⟩ := h.whole l hl
    refine ⟨xs, isList_of_kept hreach hnode hl hlist, ?_⟩
    intro x hx
    have hr : st.Reachable x.1 := ⟨l, hl, xs, hlist, List.mem_map_of_mem hx⟩
    exact List.mem_cons_of_mem _ (hreach x.1 hr)

/-- In a run of calls that meet their contract, every call keeps the lists of the collectors exactly
when, at the start of each collection, enough of these lists go through each of their nodes. -/
theorem run_keeps_iff (nodeSize chunk : Nat) (mem : Nat → Option Nat) (heap : Heap T)
    (ops : List (Op T)) (hnew : Heap.new nodeSize chunk mem = some heap)
    (hops : Run.Meets Contract step { heap := heap, roots := [], live := [] } ops) :
    Run.Meets Keeps step { heap := heap, roots := [], live := [] } ops ↔
      Run.Meets Enough step { heap := heap, roots := [], live := [] } ops := by
  exact Run.meets_iff Invariant (fun _ _ h hop henough => step_invariant h hop henough)
    (fun _ _ h hop => keeps_iff_enough h hop) ops _ (invariant_of_new hnew) hops

/-- A node, a second one in front of it, and a third one: the blocks are half a chunk. -/
def threeNodes : List (Op Nat) :=
  [.cons 1 none 4194304 none, .register [some 1048576], .cons 2 (some 1048576) 4194304 none,
    .register [some 1572864], .cons 3 (some 1572864) 4194304 none]

/-- The lists at the start of this run. -/
def start : Client Nat where
  heap :=
    { gc := ⟨none, 0, false, false, [1048576], 1048576, 2 ^ 19, 2 ^ 20, fun _ => none, by simp⟩
      node := fun _ => none }
  roots := []
  live := []

theorem contract_threeNodes : Run.Meets Contract step start threeNodes := by decide

theorem run_keeps_iff_threeNodes :
    Run.Meets Keeps step start threeNodes ↔ Run.Meets Enough step start threeNodes :=
  run_keeps_iff (2 ^ 19) 1048576 (fun _ => none) _ threeNodes rfl contract_threeNodes

/-- The third call collects, and only the second node is marked. -/
theorem run_loses_node :
    ¬ ∀ (nodeSize chunk : Nat) (mem : Nat → Option Nat) (heap : Heap Nat) (ops : List (Op Nat)),
      Heap.new nodeSize chunk mem = some heap →
      Run.Meets Contract step { heap := heap, roots := [], live := [] } ops →
      Run.Meets Keeps step { heap := heap, roots := [], live := [] } ops := by
  intro h
  have hkeeps : Run.Meets Keeps step start threeNodes :=
    h (2 ^ 19) 1048576 (fun _ => none) _ threeNodes rfl contract_threeNodes
  have hlast := (((hkeeps.2 _ rfl).2 _ rfl).2 _ rfl).2 _ rfl
  obtain ⟨marks, hmarks, hall⟩ := hlast.1.1 rfl
  obtain rfl : [1572864] = marks := some.inj hmarks
  have hlost : 1048576 ∈ [1572864] := by
    apply hall
    exact ⟨some 1572864, List.mem_singleton_self _, [(1572864, 2), (1048576, 1)],
      ⟨rfl, some 1048576, rfl, rfl, none, rfl, rfl⟩, by decide⟩
  exact absurd hlost (by decide)

end Elm.Imm.Client
