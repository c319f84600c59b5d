import Elm.Alloc.BlockGCRun
import Elm.Lib.Parking

/-!
# `imm::list` and its garbage collection

The immutable lists of `include/elm/imm/list.h`.  The nodes are blocks of a block allocator with
garbage collection, which asks the registered collectors for the lists in use when it is full.
`Collector::mark` goes down a list while `gc->mark` answers false, but the allocator answers true
for a block that was not marked yet: each call marks one node at most.
-/

namespace Elm.Imm

open Alloc Chain Util List

/-- The nodes of the lists: the pointer `tl` and the value `hd` at each address, in the blocks of
`list<T>::gc`. -/
structure Heap (T : Type*) where
  gc : BlockAllocator
  node : Read Nat T

/-- A collection in progress: the calls of `gc->mark` so far, and the bits of the blocks. -/
structure Marking where
  calls : List Nat
  coll : BitVector

namespace Heap

variable {T : Type*}

/-- The constructor of `list<T>::gc`, with nodes of `nodeSize` bytes and the default chunks. -/
def new (nodeSize chunk : Nat) (mem : Nat → Option Nat) : Option (Heap T) :=
  (BlockAllocator.new nodeSize (2 ^ 20) chunk mem).map fun gc =>
    { gc := gc, node := fun _ => none }

/-- One turn of the loop of `Collector::mark`, which leaves the loop with the marking, or with
nothing when an assertion fails or a node cannot be read. -/
def markTurn (h : Heap T) (s : Marking × Option Nat) : (Marking × Option Nat) ⊕ Option Marking :=
  match s.2 with
  | none => .inr (some s.1)
  | some n =>
    match h.gc.mark s.1.coll n with
    | none => .inr none
    | some (true, coll) => .inr (some { calls := s.1.calls ++ [n], coll := coll })
    | some (false, coll) =>
      match h.node n with
      | none => .inr none
      | some (tl, _) => .inl ({ calls := s.1.calls ++ [n], coll := coll }, tl)

/-- `Collector::mark`. -/
def mark (h : Heap T) (m : Marking) (l : Option Nat) : Option Marking :=
  (Loop.run h.markTurn (h.gc.totalCount + 1) (m, l)).join

/-- `GC::collect`, where the collectors mark the lists `roots` in this order. -/
def collect (h : Heap T) (m : Marking) (roots : List (Option Nat)) : Option Marking :=
  roots.foldlM h.mark m

/-- The blocks that a collection marks. -/
def marks (h : Heap T) (roots : List (Option Nat)) : Option (List Nat) :=
  match BitVector.new h.gc.totalCount false with
  | none => none
  | some coll => (h.collect { calls := [], coll := coll } roots).map Marking.calls

/-- The nodes after a collection: the first word of a swept block is overwritten. -/
def sweep (h : Heap T) (marks : List Nat) : Read Nat T := fun a =>
  if a ∈ marks then h.node a else none

/-- The allocation of a node; a new chunk would be at address `chunk`. -/
def allocate (h : Heap T) (roots : List (Option Nat)) (chunk : Nat) : Option (Nat × Heap T) :=
  if h.gc.collects then
    match h.marks roots with
    | none => none
    | some marks =>
      (h.gc.allocate chunk marks).map fun r => (r.1, { gc := r.2, node := h.sweep marks })
  else
    (h.gc.allocate chunk []).map fun r => (r.1, { gc := r.2, node := h.node })

/-- `cons`, where the new node is written; its first word reads as the pointer `word`. -/
def cons (h : Heap T) (roots : List (Option Nat)) (hd : T) (tl : Option Nat) (chunk : Nat)
    (word : Option Nat) : Option (Nat × Heap T) :=
  (h.allocate roots chunk).map fun r =>
    (r.1,
      { gc := r.2.gc.write r.1 word
        node := Function.update r.2.node r.1 (some (tl, hd)) })

/-- The addresses of the nodes of a list. -/
def nodes (h : Heap T) (l : Option Nat) : List Nat :=
  ((toList h.node h.gc.totalCount l).getD []).map Prod.fst

end Heap

/-! ## The clients -/

/-- The lists, those that the collectors mark, and the nodes in use: the nodes built or marked since
the start of the last collection. -/
structure Client (T : Type*) where
  heap : Heap T
  roots : List (Option Nat)
  live : List Nat

/-- A list is built, or the lists that the collectors mark change. -/
inductive Op (T : Type*) where
  | cons (hd : T) (tl : Option Nat) (chunk : Nat) (word : Option Nat)
  | register (roots : List (Option Nat))

namespace Client

variable {T : Type*}

/-- The nodes still in use when `cons` has got its block. -/
def kept (st : Client T) : List Nat :=
  if st.heap.gc.collects then (st.heap.marks st.roots).getD [] else st.live

def step (st : Client T) : Op T → Option (Client T)
  | .cons hd tl chunk word =>
    (st.heap.cons st.roots hd tl chunk word).map fun r =>
      { heap := r.2, roots := st.roots, live := r.1 :: st.kept }
  | .register roots => some { heap := st.heap, roots := roots, live := st.live }

/-- All the nodes of a list are in use. -/
def Whole (st : Client T) (l : Option Nat) : Prop :=
  ∃ xs, IsList st.heap.node l xs ∧ ∀ x ∈ xs, x.1 ∈ st.live

/-- The contract of a call: a new chunk is disjoint from the others, and the lists given to the
collectors have lost no node. -/
def Contract (st : Client T) : Op T → Prop
  | .cons _ _ chunk _ =>
    ∀ c ∈ st.heap.gc.chunks, c + st.heap.gc.csize ≤ chunk ∨ chunk + st.heap.gc.csize ≤ c
  | .register roots => ∀ l ∈ roots, st.Whole l

/-- A node of a list that the collectors mark. -/
def Reachable (st : Client T) (a : Nat) : Prop :=
  ∃ l ∈ st.roots, ∃ xs, IsList st.heap.node l xs ∧ a ∈ xs.map Prod.fst

/-- A call keeps the lists of the collectors: if it collects, all their nodes are marked, and
afterwards none of these nodes is in the free list or is the new one, and the lists have the same
elements. -/
def Keeps (st : Client T) : Op T → Prop
  | .cons hd tl chunk word =>
    (st.heap.gc.collects = true →
      ∃ marks, st.heap.marks st.roots = some marks ∧ ∀ a, st.Reachable a → a ∈ marks) ∧
    ∃ n h', st.heap.cons st.roots hd tl chunk word = some (n, h') ∧ ¬ st.Reachable n ∧
      (∃ free : List Nat, IsList h'.gc.read h'.gc.freeList (free.map fun a => (a, ())) ∧
        ∀ a ∈ free, ¬ st.Reachable a) ∧
      ∀ l ∈ st.roots, ∀ xs, IsList st.heap.node l xs → IsList h'.node l xs
  | .register _ => True

/-- When a collection starts, at least as many lists of the collectors go through each of their
nodes as there are nodes of theirs that lead to it. -/
def Enough (st : Client T) : Op T → Prop
  | .cons _ _ _ _ =>
    st.heap.gc.collects = true →
      Parking.Enough (fun a => st.heap.nodes (some a)) (st.roots.map st.heap.nodes)
  | .register _ => True

end Client

/-! ## One collection -/

section Marking

variable {T : Type*} {h : Heap T} {l : Option Nat} {xs : List (Nat × T)} {m : Marking}

/-- One call of `Collector::mark` marks the first node of the list that is not marked. -/
theorem Heap.run_markTurn (hgc : h.gc.Placed) (hlist : IsList h.node l xs)
    (hblock : ∀ x ∈ xs, h.gc.IsBlock x.1) (hm : h.gc.Marked m.calls m.coll) {fuel : Nat}
    (hfuel : xs.length < fuel) :
    ∃ m', Loop.run h.markTurn fuel (m, l) = some (some m') ∧ h.gc.Marked m'.calls m'.coll ∧
      ∀ a, a ∈ m'.calls ↔ a ∈ Parking.park m.calls (xs.map Prod.fst) := by
  induction xs generalizing l m fuel with
  | nil =>
    obtain rfl : l = none := hlist
    obtain ⟨fuel, rfl⟩ : ∃ k, fuel = k + 1 := ⟨fuel - 1, by simp at hfuel; omega⟩
    have hturn : h.markTurn (m, none) = .inr (some m) := rfl
    exact ⟨m, Loop.run_succ_inr hturn fuel, hm, fun a => Iff.rfl⟩
  | cons x xs ih =>
    obtain ⟨n, hd⟩ := x
    obtain ⟨rfl, tl, hread, hrest⟩ := hlist
    obtain ⟨fuel, rfl⟩ : ∃ k, fuel = k + 1 := ⟨fuel - 1, by simp at hfuel; omega⟩
    obtain ⟨coll, hmark, hm'⟩ := BlockAllocator.mark_spec hgc hm (hblock (n, hd) (by simp))
    by_cases hmem : n ∈ m.calls
    · -- the node is marked: the loop goes on
      have hres : h.gc.mark m.coll n = some (false, coll) := by simpa [hmem] using hmark
      have hturn : h.markTurn (m, some n) =
          .inl ({ calls := m.calls ++ [n], coll := coll }, tl) := by
        simp [markTurn, hres, hread]
      obtain ⟨m', hrun, hmarked, hcalls⟩ := ih (m := { calls := m.calls ++ [n], coll := coll })
        hrest (fun x hx => hblock x (by simp [hx])) hm' (Nat.lt_of_succ_lt_succ hfuel)
      refine ⟨m', ?_, hmarked, ?_⟩
      · rw [Loop.run_succ_inl hturn]
        exact hrun
      · intro a
        have hskip : Parking.park m.calls (((n, hd) :: xs).map Prod.fst) =
            Parking.park m.calls (xs.map Prod.fst) := by simp [Parking.park, hmem]
        rw [hskip, hcalls a]
        apply Parking.park_congr
        intro u
        rw [mem_append, mem_singleton]
        constructor
        · rintro (hu | rfl)
          · exact hu
          · exact hmem
        · exact Or.inl
    · -- the node is not marked: the loop stops on it
      have hres : h.gc.mark m.coll n = some (true, coll) := by simpa [hmem] using hmark
      have hturn : h.markTurn (m, some n) =
          .inr (some { calls := m.calls ++ [n], coll := coll }) := by
        simp [markTurn, hres]
      refine ⟨_, Loop.run_succ_inr hturn fuel, hm', ?_⟩
      intro a
      simp [Parking.park, hmem]

/-- The nodes of a list are at most as many as the blocks. -/
theorem Heap.length_le_totalCount (hlist : IsList h.node l xs)
    (hblock : ∀ x ∈ xs, h.gc.IsBlock x.1) : xs.length ≤ h.gc.totalCount := by
  have hsub : xs.map Prod.fst ⊆ (List.range h.gc.totalCount).map h.gc.blockAt := by
    intro a ha
    obtain ⟨x, hx, rfl⟩ := mem_map.mp ha
    obtain ⟨n, hn, heq⟩ := hblock x hx
    exact mem_map.mpr ⟨n, mem_range.mpr hn, heq.symm⟩
  have hle := (hlist.nodup.subperm hsub).length_le
  simpa using hle

theorem Heap.nodes_eq (hlist : IsList h.node l xs) (hblock : ∀ x ∈ xs, h.gc.IsBlock x.1) :
    h.nodes l = xs.map Prod.fst := by
  rw [nodes, toList_eq_some.mpr ⟨hlist, length_le_totalCount hlist hblock⟩, Option.getD_some]

/-- The lists that the collectors mark are made of allocated blocks. -/
def Heap.InBlocks (h : Heap T) (roots : List (Option Nat)) : Prop :=
  ∀ l ∈ roots, ∃ xs, IsList h.node l xs ∧ ∀ x ∈ xs, h.gc.IsBlock x.1

theorem Heap.collect_spec (hgc : h.gc.Placed) {roots : List (Option Nat)} (hroots : h.InBlocks roots)
    {taken : List Nat} (hm : h.gc.Marked m.calls m.coll) (htaken : ∀ a, a ∈ m.calls ↔ a ∈ taken) :
    ∃ m', h.collect m roots = some m' ∧
      ∀ a, a ∈ m'.calls ↔ a ∈ Parking.parkFrom taken (roots.map h.nodes) := by
  induction roots generalizing m taken with
  | nil => exact ⟨m, rfl, htaken⟩
  | cons l roots ih =>
    obtain ⟨xs, hlist, hblock⟩ := hroots l (by simp)
    have hfuel := Nat.lt_succ_of_le (length_le_totalCount hlist hblock)
    obtain ⟨m₁, hrun, hm₁, hcalls⟩ := run_markTurn hgc hlist hblock hm hfuel
    have hmark : h.mark m l = some m₁ := by
      rw [mark, hrun]
      rfl
    have htaken₁ : ∀ a, a ∈ m₁.calls ↔ a ∈ Parking.park taken (h.nodes l) := by
      intro a
      rw [hcalls a, nodes_eq hlist hblock]
      exact Parking.park_congr htaken _ a
    obtain ⟨m', hrest, hm'⟩ := ih (fun k hk => hroots k (by simp [hk])) hm₁ htaken₁
    refine ⟨m', ?_, hm'⟩
    rw [collect] at hrest ⊢
    rw [foldlM_cons, hmark]
    exact hrest

/-- A collection marks the nodes where the cars of the streets `roots.map h.nodes` park. -/
theorem Heap.marks_spec (hgc : h.gc.Placed) (hpos : 0 < h.gc.totalCount)
    {roots : List (Option Nat)} (hroots : h.InBlocks roots) :
    ∃ marks, h.marks roots = some marks ∧
      ∀ a, a ∈ marks ↔ a ∈ Parking.parkAll (roots.map h.nodes) := by
  obtain ⟨coll, hnew, hsize, hview⟩ := BitVector.new_spec hpos false
  have hmarked : h.gc.Marked [] coll := by
    refine ⟨hsize, fun n hn => ?_⟩
    rw [BitVector.bit_eq, hview]
    simp [hn]
  have hnil : ∀ a, a ∈ (Marking.mk [] coll).calls ↔ a ∈ ([] : List Nat) := fun a => Iff.rfl
  obtain ⟨m', hcollect, hcalls⟩ := collect_spec hgc hroots hmarked hnil
  refine ⟨m'.calls, ?_, hcalls⟩
  simp [marks, hnew, hcollect]

/-- The lists of the collectors are branches of a forest. -/
theorem Heap.branches {roots : List (Option Nat)} (hroots : h.InBlocks roots) :
    Parking.Branches (fun a => h.nodes (some a)) (roots.map h.nodes) := by
  intro street hstreet before u after hsplit
  obtain ⟨l, hl, rfl⟩ := mem_map.mp hstreet
  obtain ⟨xs, hlist, hblock⟩ := hroots l hl
  rw [nodes_eq hlist hblock] at hsplit
  obtain ⟨ys, zs, rfl, -, hzs⟩ := map_eq_append_iff.mp hsplit
  obtain ⟨⟨a, v⟩, zs, rfl, rfl, rfl⟩ := map_eq_cons_iff.mp hzs
  obtain ⟨q, -, hq⟩ := seg_append.mp hlist
  obtain rfl : q = some a := hq.1
  exact nodes_eq hq fun x hx => hblock x (mem_append_right _ hx)

end Marking

end Elm.Imm
