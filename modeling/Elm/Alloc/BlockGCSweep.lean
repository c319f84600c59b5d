import Elm.Alloc.BlockAllocatorWithGC

/-!
# Collections of `AbstractBlockAllocatorWithGC`

The blocks allocated so far are numbered from 0 to `totalCount`, chunk by chunk.  A collection marks
the blocks given by the client and chains all the others in front of the free list found at its
start.
-/

namespace Elm.Alloc.BlockAllocator

open Chain Util List

/-! ## Where the blocks are -/

/-- Blocks fit in chunks, chunks do not overlap, and the last one is filled from its start. -/
structure Placed (s : BlockAllocator) : Prop where
  bsize_pos : 0 < s.bsize
  bsize_le : s.bsize ≤ s.csize
  disjoint : s.chunks.Pairwise fun c d => c + s.csize ≤ d ∨ d + s.csize ≤ c
  top_eq : ∃ k ≤ s.perChunk, s.top = s.chunkTop + k * s.bsize

/-- The address of block `n`. -/
def blockAt (s : BlockAllocator) (n : Nat) : Nat :=
  s.chunks.getD (n / s.perChunk) 0 + (n - n / s.perChunk * s.perChunk) * s.bsize

/-- The address of a block allocated so far. -/
def IsBlock (s : BlockAllocator) (a : Nat) : Prop := ∃ n < s.totalCount, a = s.blockAt n

variable {s : BlockAllocator}

theorem Placed.perChunk_pos (h : Placed s) : 0 < s.perChunk :=
  Nat.div_pos h.bsize_le h.bsize_pos

theorem Placed.perChunk_mul_le (s : BlockAllocator) : s.perChunk * s.bsize ≤ s.csize :=
  Nat.div_mul_le_self _ _

theorem Placed.totalCount_eq (h : Placed s) {k : Nat} (hk : s.top = s.chunkTop + k * s.bsize) :
    s.totalCount = s.perChunk * (s.chunks.length - 1) + k := by
  rw [totalCount, hk, Nat.add_sub_cancel_left, Nat.mul_div_cancel _ h.bsize_pos]

theorem length_chunks_pos (s : BlockAllocator) : 0 < s.chunks.length :=
  length_pos_iff.mpr s.chunks_ne_nil

/-- An allocated block is in one of the chunks. -/
theorem Placed.chunk_lt (h : Placed s) {n : Nat} (hn : n < s.totalCount) :
    n / s.perChunk < s.chunks.length := by
  obtain ⟨k, hk, htop⟩ := h.top_eq
  rw [h.totalCount_eq htop] at hn
  rw [Nat.div_lt_iff_lt_mul h.perChunk_pos]
  have hpos := s.length_chunks_pos
  calc n < s.perChunk * (s.chunks.length - 1) + s.perChunk := by omega
    _ = s.chunks.length * s.perChunk := by
      rw [← Nat.mul_succ, Nat.succ_eq_add_one, Nat.sub_add_cancel hpos, Nat.mul_comm]

/-- A block is entirely inside its chunk. -/
theorem Placed.offset_le (h : Placed s) (n : Nat) :
    (n - n / s.perChunk * s.perChunk) * s.bsize + s.bsize ≤ s.csize := by
  have hmod : n - n / s.perChunk * s.perChunk < s.perChunk := by
    rw [← Nat.mod_eq_sub_div_mul]
    exact Nat.mod_lt _ h.perChunk_pos
  calc (n - n / s.perChunk * s.perChunk) * s.bsize + s.bsize
      = (n - n / s.perChunk * s.perChunk + 1) * s.bsize := by ring
    _ ≤ s.perChunk * s.bsize := Nat.mul_le_mul_right _ hmod
    _ ≤ s.csize := Placed.perChunk_mul_le s

/-- `mark` finds the number of a block back from its address. -/
theorem Placed.blockIndex_blockAt (h : Placed s) {n : Nat} (hn : n < s.totalCount) :
    s.blockIndex (s.blockAt n) = some n := by
  have hchunk := h.chunk_lt hn
  have hoffset := h.offset_le n
  have haddr : s.blockAt n =
      s.chunks[n / s.perChunk] + (n - n / s.perChunk * s.perChunk) * s.bsize := by
    simp [blockAt, hchunk]
  have hfind : (s.chunks.findIdx? fun c => c ≤ s.blockAt n && s.blockAt n < c + s.csize) =
      some (n / s.perChunk) := by
    rw [findIdx?_eq_some_iff_getElem]
    refine ⟨hchunk, ?_, ?_⟩
    · have hpos := h.bsize_pos
      simp only [haddr, Bool.and_eq_true, decide_eq_true_eq]
      omega
    · intro j hj
      have hdisj := (pairwise_iff_getElem.mp h.disjoint) j _ (by omega) hchunk hj
      have hpos := h.bsize_pos
      simp only [haddr, Bool.and_eq_true, decide_eq_true_eq]
      omega
  have hbase : s.chunks.getD (n / s.perChunk) 0 = s.chunks[n / s.perChunk] := by simp [hchunk]
  rw [blockIndex, hfind, Option.map_some, hbase, haddr, Nat.add_sub_cancel_left, Nat.mul_div_cancel _ h.bsize_pos,
    Nat.sub_add_cancel (Nat.div_mul_le_self n s.perChunk)]

theorem Placed.blockAt_inj (h : Placed s) {n m : Nat} (hn : n < s.totalCount)
    (hm : m < s.totalCount) (heq : s.blockAt n = s.blockAt m) : n = m := by
  have hindex := h.blockIndex_blockAt hn
  rw [heq, h.blockIndex_blockAt hm] at hindex
  exact (Option.some.inj hindex).symm

/-! ## Marking -/

/-- The bits set so far are those of the marked blocks. -/
def Marked (s : BlockAllocator) (marks : List Nat) (coll : BitVector) : Prop :=
  coll.size = s.totalCount ∧
    ∀ n < s.totalCount, coll.bit n = some (decide (s.blockAt n ∈ marks))

/-- `mark` says whether the block was not marked yet. -/
theorem mark_spec (h : Placed s) {marks : List Nat} {coll : BitVector} (hcoll : Marked s marks coll)
    {ptr : Nat} (hptr : s.IsBlock ptr) :
    ∃ coll', s.mark coll ptr = some (decide (ptr ∉ marks), coll') ∧
      Marked s (marks ++ [ptr]) coll' := by
  obtain ⟨n, hn, rfl⟩ := hptr
  obtain ⟨hsize, hbits⟩ := hcoll
  have hindex := h.blockIndex_blockAt hn
  by_cases hmem : s.blockAt n ∈ marks
  · refine ⟨coll, ?_, hsize, ?_⟩
    · simp [mark, hindex, hbits n hn, hmem]
    · intro m hm
      rw [hbits m hm]
      by_cases heq : s.blockAt m = s.blockAt n
      · simp [heq, hmem]
      · simp [heq]
  · obtain ⟨coll', hset, hsize', hview, -⟩ := BitVector.set_spec (b := coll) (hsize ▸ hn)
    refine ⟨coll', ?_, hsize'.trans hsize, ?_⟩
    · simp [mark, hindex, hbits n hn, hmem, hset]
    · intro m hm
      have hold := hbits m hm
      rw [BitVector.bit_eq] at hold ⊢
      rw [hview, getElem?_set]
      by_cases hmn : n = m
      · subst hmn
        simp [hsize, hn]
      · have hne : s.blockAt m ≠ s.blockAt n := fun heq => hmn (h.blockAt_inj hm hn heq).symm
        simp [hmn, hold, hne]

theorem collect_spec (h : Placed s) (marks : List Nat) (hmarks : ∀ p ∈ marks, s.IsBlock p) :
    ∀ {done : List Nat} {coll : BitVector}, Marked s done coll →
      ∃ coll', s.collect coll marks = some coll' ∧ Marked s (done ++ marks) coll' := by
  induction marks with
  | nil =>
    intro done coll hcoll
    exact ⟨coll, rfl, by simpa using hcoll⟩
  | cons ptr marks ih =>
    intro done coll hcoll
    obtain ⟨coll₁, hmark, hcoll₁⟩ := mark_spec h hcoll (hmarks ptr (by simp))
    obtain ⟨coll', hrest, hcoll'⟩ := ih (fun p hp => hmarks p (by simp [hp])) hcoll₁
    refine ⟨coll', ?_, by simpa using hcoll'⟩
    rw [collect] at hrest
    simp [collect, hmark, hrest]

/-- The blocks that are not marked, in the order of the sweep. -/
def unmarked (s : BlockAllocator) (marks : List Nat) : List Nat :=
  (List.range s.totalCount).filter fun n => decide (s.blockAt n ∉ marks)

theorem zeroes_eq_unmarked {marks : List Nat} {coll : BitVector} (hcoll : Marked s marks coll) :
    coll.zeroes = s.unmarked marks := by
  obtain ⟨hsize, hbits⟩ := hcoll
  rw [BitVector.zeroes_eq, hsize, unmarked]
  apply filter_congr
  intro n hn
  rw [hbits n (mem_range.mp hn)]
  simp

/-! ## Sweeping -/

/-- What the sweep does not change. -/
structure SameChunks (s s' : BlockAllocator) : Prop where
  sync : s'.sync = s.sync
  chunks : s'.chunks = s.chunks
  top : s'.top = s.top
  bsize : s'.bsize = s.bsize
  csize : s'.csize = s.csize

theorem SameChunks.perChunk_eq {s s' : BlockAllocator} (h : SameChunks s s') :
    s'.perChunk = s.perChunk := by
  rw [perChunk, perChunk, h.bsize, h.csize]

theorem SameChunks.chunkTop_eq {s s' : BlockAllocator} (h : SameChunks s s') :
    s'.chunkTop = s.chunkTop := by
  simp only [chunkTop, h.chunks]

theorem SameChunks.totalCount_eq {s s' : BlockAllocator} (h : SameChunks s s') :
    s'.totalCount = s.totalCount := by
  rw [totalCount, totalCount, h.perChunk_eq, h.chunks, h.top, h.bsize, h.chunkTop_eq]

theorem SameChunks.blockAt_eq {s s' : BlockAllocator} (h : SameChunks s s') :
    s'.blockAt = s.blockAt := by
  funext n
  rw [blockAt, blockAt, h.perChunk_eq, h.chunks, h.bsize]

theorem SameChunks.placed {s s' : BlockAllocator} (h : SameChunks s s') (hs : Placed s) :
    Placed s' where
  bsize_pos := h.bsize ▸ hs.bsize_pos
  bsize_le := by
    rw [h.bsize, h.csize]
    exact hs.bsize_le
  disjoint := by
    rw [h.chunks, h.csize]
    exact hs.disjoint
  top_eq := by
    rw [h.perChunk_eq, h.top, h.chunkTop_eq, h.bsize]
    exact hs.top_eq

/-- One block is put in front of the free list. -/
theorem sweepBlock_eq (h : Placed s) {n : Nat} (hn : n < s.totalCount) :
    s.sweepBlock n = some
      { s with
        mem := Function.update s.mem (s.blockAt n) s.freeList
        freeList := some (s.blockAt n)
        freeCnt := s.freeCnt + 1 } := by
  have hper := h.perChunk_pos.ne'
  have hchunk := h.chunk_lt hn
  simp [sweepBlock, hper, blockAt, hchunk]

/-- The swept blocks are chained, the last one first, in front of the free list. -/
theorem sweep_spec (h : Placed s) (ns : List Nat) (hns : ∀ n ∈ ns, n < s.totalCount)
    (hnodup : ns.Nodup) : ∀ t, SameChunks s t →
      ∃ t', ns.foldlM sweepBlock t = some t' ∧ SameChunks s t' ∧
        t'.freeCnt = t.freeCnt + ns.length ∧
        Seg t'.read t'.freeList ((ns.map s.blockAt).reverse.map fun a => (a, ())) t.freeList ∧
        ∀ a, a ∉ ns.map s.blockAt → t'.mem a = t.mem a := by
  induction ns with
  | nil => exact fun t ht => ⟨t, rfl, ht, by simp, rfl, fun _ _ => rfl⟩
  | cons n ns ih =>
    intro t ht
    obtain ⟨hnot, hnodup⟩ := nodup_cons.mp hnodup
    have hn : n < s.totalCount := hns n (by simp)
    obtain ⟨t₁, ht₁⟩ : ∃ t₁ : BlockAllocator, t₁ =
        { t with
          mem := Function.update t.mem (s.blockAt n) t.freeList
          freeList := some (s.blockAt n)
          freeCnt := t.freeCnt + 1 } := ⟨_, rfl⟩
    have hstep : t.sweepBlock n = some t₁ := by
      rw [sweepBlock_eq (ht.placed h) (ht.totalCount_eq ▸ hn), ht.blockAt_eq, ht₁]
    have hsame : SameChunks s t₁ := by
      rw [ht₁]
      exact ⟨ht.sync, ht.chunks, ht.top, ht.bsize, ht.csize⟩
    obtain ⟨t', hrest, hsame', hcnt, hseg, hmem⟩ :=
      ih (fun m hm => hns m (by simp [hm])) hnodup t₁ hsame
    -- the block just swept is not written again
    have hnot' : s.blockAt n ∉ ns.map s.blockAt := by
      intro hmap
      obtain ⟨m, hm, heq⟩ := mem_map.mp hmap
      rw [h.blockAt_inj (hns m (by simp [hm])) hn heq] at hm
      exact hnot hm
    refine ⟨t', by simp [hstep, hrest], hsame', ?_, ?_, ?_⟩
    · rw [hcnt, ht₁, length_cons]
      push_cast
      ring
    · rw [map_cons, reverse_cons, map_append, seg_append]
      refine ⟨t₁.freeList, hseg, ?_⟩
      have hread : t'.mem (s.blockAt n) = t.freeList := by
        rw [hmem _ hnot', ht₁]
        simp
      have hfree : t₁.freeList = some (s.blockAt n) := by rw [ht₁]
      exact ⟨hfree, t.freeList, by rw [read, hread], rfl⟩
    · intro a ha
      rw [map_cons, mem_cons, not_or] at ha
      rw [hmem a ha.2, ht₁]
      simp [ha.1]

theorem unmarked_lt {marks : List Nat} {n : Nat} (hn : n ∈ s.unmarked marks) : n < s.totalCount := by
  have h := (mem_filter.mp hn).1
  exact mem_range.mp h

theorem nodup_unmarked (s : BlockAllocator) (marks : List Nat) : (s.unmarked marks).Nodup :=
  nodup_range.filter _

/-- The blocks freed by a collection, the first one of the free list first. -/
def freed (s : BlockAllocator) (marks : List Nat) : List Nat :=
  ((s.unmarked marks).map s.blockAt).reverse

theorem mem_freed {marks : List Nat} {a : Nat} : a ∈ s.freed marks ↔ s.IsBlock a ∧ a ∉ marks := by
  simp only [freed, unmarked, mem_reverse, mem_map, mem_filter, mem_range,
    decide_eq_true_eq, IsBlock]
  constructor
  · rintro ⟨n, ⟨hn, hmarks⟩, rfl⟩
    exact ⟨⟨n, hn, rfl⟩, hmarks⟩
  · rintro ⟨⟨n, hn, rfl⟩, hmarks⟩
    exact ⟨n, ⟨hn, hmarks⟩, rfl⟩

/-- A collection chains the unmarked blocks in front of the free list it found. -/
theorem collectGarbage_spec (h : Placed s) (hpos : 0 < s.totalCount) {marks : List Nat}
    (hmarks : ∀ p ∈ marks, s.IsBlock p) :
    ∃ s', s.collectGarbage marks = some s' ∧ SameChunks s s' ∧
      s'.freeCnt = (s.freed marks).length ∧
      Seg s'.read s'.freeList ((s.freed marks).map fun a => (a, ())) s.freeList := by
  obtain ⟨coll, hnew, hsize, hview⟩ := BitVector.new_spec hpos false
  have hmarked : Marked s [] coll := by
    refine ⟨hsize, fun n hn => ?_⟩
    rw [BitVector.bit_eq, hview]
    simp [hn]
  obtain ⟨coll', hcollect, hmarked'⟩ := collect_spec h marks hmarks hmarked
  have hsame : SameChunks s { s with freeCnt := 0 } := ⟨rfl, rfl, rfl, rfl, rfl⟩
  obtain ⟨t, hsweep, hsame', hcnt, hseg, -⟩ := sweep_spec h (s.unmarked marks)
    (fun n hn => unmarked_lt hn) (s.nodup_unmarked marks) _ hsame
  refine ⟨{ t with need := false }, ?_, ⟨hsame'.sync, hsame'.chunks, hsame'.top, hsame'.bsize,
    hsame'.csize⟩, ?_, hseg⟩
  · rw [collectGarbage, hnew]
    simp only [hcollect, zeroes_eq_unmarked hmarked', nil_append, hsweep, Option.map_some]
  · simpa [freed] using hcnt

end Elm.Alloc.BlockAllocator
