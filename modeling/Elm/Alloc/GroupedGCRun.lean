import Elm.Alloc.GroupedGCSweep

/-!
# Runs of `GroupedGC`

The client owns live blocks, given by their address and size.  It allocates blocks, abandons some of
them, writes in those it keeps and marks exactly these during each collection.  A live block lies in
the part of its chunk that is already allocated and starts at no other live block; the free lists are
made of blocks of full chunks where no live block starts.
-/

namespace Elm.Alloc.GroupedGC

open Chain Runs Option Function List

/-- The live blocks are allocated blocks, at different addresses. -/
structure LiveOk (s : GroupedGC) (live : List (Nat × Nat)) : Prop where
  isBlock : ∀ b ∈ live, ∃ c ∈ s.chunks, ∃ i < c.blockCount, b.1 = c.blockAt i ∧ b.2 ≤ c.blockSize ∧
    c.size ≤ i * c.blockSize
  starts : (live.map Prod.fst).Nodup

/-- A block of a full chunk of this index where no live block starts. -/
def IsFree (s : GroupedGC) (live : List (Nat × Nat)) (index a : Nat) : Prop :=
  ∃ c ∈ s.chunks, c.index = index ∧ c.init = false ∧ ∃ i < c.blockCount, a = c.blockAt i ∧
    a ∉ live.map Prod.fst

/-- What every call keeps. -/
structure Invariant (s : GroupedGC) (live : List (Nat × Nat)) : Prop where
  chunksOk : Chunks s
  current : ∀ index p, s.chunkList index = some p →
    ∃ c ∈ s.chunks, c.buffer = p ∧ c.index = index ∧ c.init = true
  liveOk : LiveOk s live
  freeOk : ∃ free, Lists s free ∧ ∀ index a, free index a → IsFree s live index a

variable {s t : GroupedGC} {live : List (Nat × Nat)} {c d : GroupChunk}

/-! ## Blocks do not overlap -/

theorem LiveOk.apart (h : LiveOk s live) (hchunks : Chunks s) :
    live.Pairwise fun b b' => Apart b.1 b.2 b'.1 b'.2 := by
  have hstarts := h.starts
  rw [Nodup, pairwise_map] at hstarts
  refine List.Pairwise.imp_of_mem ?_ hstarts
  intro b b' hb hb' hne
  obtain ⟨c, hc, i, hi, ha, hsize, -⟩ := h.isBlock b hb
  obtain ⟨d, hd, j, hj, ha', hsize', -⟩ := h.isBlock b' hb'
  have hapart := hchunks.apart hc hd hi hj (ha ▸ ha' ▸ hne)
  rw [ha, ha']
  exact ((hapart.mono le_rfl (by omega)).symm.mono le_rfl (by omega)).symm

/-- A free block overlaps no live block. -/
theorem IsFree.apart {index a : Nat} (hfree : IsFree s live index a) (hlive : LiveOk s live)
    (hchunks : Chunks s) {b : Nat × Nat} (hb : b ∈ live) :
    Apart a (sizeofBlock * index) b.1 b.2 := by
  obtain ⟨c, hc, rfl, -, i, hi, rfl, hnot⟩ := hfree
  obtain ⟨d, hd, j, hj, ha, hsize, -⟩ := hlive.isBlock b hb
  have hne : c.blockAt i ≠ d.blockAt j := by
    rw [← ha]
    intro heq
    exact hnot (heq ▸ List.mem_map_of_mem hb)
  have hapart := hchunks.apart hc hd hi hj hne
  rw [ha]
  exact (hapart.symm.mono le_rfl (by omega)).symm

theorem IsFree.inChunk {index a : Nat} (hfree : IsFree s live index a) (hchunks : Chunks s) :
    ∃ c ∈ s.chunks, c.buffer ≤ a ∧ a + sizeofBlock * index ≤ c.buffer + s.csize := by
  obtain ⟨c, hc, rfl, -, i, hi, rfl, -⟩ := hfree
  exact ⟨c, hc, (hchunks.ok c hc).blockAt_le hi⟩

/-! ## The current chunk of an index -/

@[simp] theorem taken_buffer (size : Nat) (init : Bool) : (c.taken size init).buffer = c.buffer := rfl
@[simp] theorem taken_blockCount (size : Nat) (init : Bool) :
    (c.taken size init).blockCount = c.blockCount := rfl
@[simp] theorem taken_index (size : Nat) (init : Bool) : (c.taken size init).index = c.index := rfl
@[simp] theorem taken_size (size : Nat) (init : Bool) : (c.taken size init).size = size := rfl
@[simp] theorem taken_init (size : Nat) (init : Bool) : (c.taken size init).init = init := rfl
@[simp] theorem taken_blockSize (size : Nat) (init : Bool) :
    (c.taken size init).blockSize = c.blockSize := rfl
@[simp] theorem taken_blockAt (size : Nat) (init : Bool) (i : Nat) :
    (c.taken size init).blockAt i = c.blockAt i := rfl

theorem mem_setChunk (h : Chunks s) (hc : c ∈ s.chunks) {size : Nat} {init : Bool} :
    d ∈ s.setChunk c.buffer size init ↔ d = c.taken size init ∨ d ∈ s.chunks ∧ d ≠ c := by
  simp only [setChunk, List.mem_map]
  constructor
  · rintro ⟨e, he, rfl⟩
    by_cases hec : e.buffer = c.buffer
    · rw [if_pos hec, h.eq_of_buffer he hc hec]
      exact Or.inl rfl
    · rw [if_neg hec]
      right
      refine ⟨he, ?_⟩
      rintro rfl
      exact hec rfl
  · rintro (rfl | ⟨hd, hne⟩)
    · exact ⟨c, hc, if_pos rfl⟩
    · exact ⟨d, hd, if_neg fun heq => hne (h.eq_of_buffer hd hc heq)⟩

/-- The chunk `c` after the allocation of its block `k`: the first `k` blocks remain. -/
structure TakesFrom (s t : GroupedGC) (c : GroupChunk) (k : Nat) : Prop where
  csize : t.csize = s.csize
  chunks : t.chunks = s.setChunk c.buffer (k * c.blockSize) (decide (0 < k))
  freeList : t.freeList = s.freeList
  mem : t.mem = s.mem
  current : t.chunkList = if 0 < k then s.chunkList else Function.update s.chunkList c.index none

theorem TakesFrom.chunksOk {k : Nat} (ht : TakesFrom s t c k) (h : Chunks s) (hc : c ∈ s.chunks)
    (hk : k < c.blockCount) : Chunks t := by
  constructor
  · intro d hd
    rw [ht.chunks, mem_setChunk h hc] at hd
    rw [ht.csize]
    rcases hd with rfl | ⟨hd, -⟩
    · have hok := h.ok c hc
      exact ⟨hok.index_pos, hok.fits, hok.blockCount_eq, k, hk.le, rfl, by simp⟩
    · exact h.ok d hd
  · rw [ht.chunks, ht.csize, setChunk, pairwise_map]
    refine h.disjoint.imp ?_
    intro d e hdisj
    split_ifs
    · exact hdisj
    · exact hdisj
    · exact hdisj
    · exact hdisj

/-- The last of the remaining blocks of the current chunk becomes live. -/
theorem TakesFrom.invariant {k n : Nat} (ht : TakesFrom s t c k) (h : Invariant s live)
    (hc : c ∈ s.chunks) (hinit : c.init = true) (hk : c.size = (k + 1) * c.blockSize)
    (hlt : k < c.blockCount) (hn : n ≤ c.blockSize) :
    Invariant t ((c.blockAt k, n) :: live) := by
  have hchunks := ht.chunksOk h.chunksOk hc hlt
  have hmem : ∀ {d}, d ∈ t.chunks ↔
      d = c.taken (k * c.blockSize) (decide (0 < k)) ∨ d ∈ s.chunks ∧ d ≠ c := by
    intro d
    rw [ht.chunks]
    exact mem_setChunk h.chunksOk hc
  -- the block was not allocated yet
  have hnew : ∀ b ∈ live, b.1 ≠ c.blockAt k := by
    intro b hb heq
    obtain ⟨d, hd, i, hi, ha, -, hsize⟩ := h.liveOk.isBlock b hb
    obtain ⟨rfl, rfl⟩ := h.chunksOk.blockAt_inj hd hc hi hlt (ha.symm.trans heq)
    rw [hk] at hsize
    have hle := Nat.le_of_mul_le_mul_right hsize (h.chunksOk.ok d hc).blockSize_pos
    omega
  refine ⟨hchunks, ?_, ⟨?_, ?_⟩, ?_⟩
  · intro index p hp
    rw [ht.current] at hp
    by_cases hk0 : 0 < k
    · rw [if_pos hk0] at hp
      obtain ⟨d, hd, rfl, rfl, hdinit⟩ := h.current index p hp
      by_cases hdc : d = c
      · subst hdc
        exact ⟨_, hmem.mpr (Or.inl rfl), rfl, rfl, by simpa using hk0⟩
      · exact ⟨d, hmem.mpr (Or.inr ⟨hd, hdc⟩), rfl, rfl, hdinit⟩
    · rw [if_neg hk0, update_apply] at hp
      split_ifs at hp with hindex
      obtain ⟨d, hd, rfl, rfl, hdinit⟩ := h.current index p hp
      have hdc : d ≠ c := by
        rintro rfl
        exact hindex rfl
      exact ⟨d, hmem.mpr (Or.inr ⟨hd, hdc⟩), rfl, rfl, hdinit⟩
  · intro b hb
    rcases mem_cons.mp hb with rfl | hb
    · exact ⟨_, hmem.mpr (Or.inl rfl), k, hlt, rfl, hn, le_rfl⟩
    · obtain ⟨d, hd, i, hi, ha, hsize, hused⟩ := h.liveOk.isBlock b hb
      by_cases hdc : d = c
      · subst hdc
        refine ⟨_, hmem.mpr (Or.inl rfl), i, hi, ha, hsize, ?_⟩
        rw [hk, Nat.succ_mul] at hused
        simp only [taken_size, taken_blockSize]
        omega
      · exact ⟨d, hmem.mpr (Or.inr ⟨hd, hdc⟩), i, hi, ha, hsize, hused⟩
  · rw [map_cons, nodup_cons]
    refine ⟨?_, h.liveOk.starts⟩
    intro hmap
    obtain ⟨b, hb, heq⟩ := List.mem_map.mp hmap
    exact hnew b hb heq
  · obtain ⟨free, hlists, hfree⟩ := h.freeOk
    refine ⟨free, ?_, ?_⟩
    · intro index
      obtain ⟨xs, hlist, hxs⟩ := hlists index
      refine ⟨xs, ?_, hxs⟩
      have hread : t.read = s.read := by
        funext a
        rw [read, read, ht.mem]
      rw [hread, ht.freeList]
      exact hlist
    · intro index a ha
      obtain ⟨d, hd, hindex, hfull, i, hi, rfl, hnot⟩ := hfree index a ha
      have hdc : d ≠ c := by
        rintro rfl
        rw [hinit] at hfull
        cases hfull
      refine ⟨d, hmem.mpr (Or.inr ⟨hd, hdc⟩), hindex, hfull, i, hi, rfl, ?_⟩
      rw [map_cons, mem_cons, not_or]
      exact ⟨fun heq => hdc (h.chunksOk.blockAt_inj hd hc hi hlt heq).1, hnot⟩

/-! ## Allocations -/

/-- The first block of a free list becomes live. -/
theorem popFree_invariant (h : Invariant s live) {index res n : Nat}
    (hres : s.freeList index = some res) (hn : n ≤ sizeofBlock * index) :
    Invariant (s.pop index res) ((res, n) :: live) := by
  obtain ⟨free, hlists, hfree⟩ := h.freeOk
  obtain ⟨xs, hlist, hxs⟩ := hlists index
  cases xs with
  | nil =>
    rw [hres] at hlist
    cases hlist
  | cons a xs =>
    have hnodup := hlist.nodup
    obtain ⟨ha, next, hread, hrest⟩ := hlist
    rw [hres] at ha
    obtain rfl := some.inj ha
    obtain rfl : s.mem res = next := (Prod.mk.inj (some.inj hread)).1
    obtain ⟨c, hc, rfl, hfull, i, hi, rfl, hnot⟩ := hfree index res ((hxs res).mp (by simp))
    have hsize : c.size ≤ i * c.blockSize := by
      obtain ⟨k, -, hk, hiff⟩ := (h.chunksOk.ok c hc).size_eq
      have hk0 : k = 0 := by
        by_contra hne
        rw [hiff.mpr (by omega)] at hfull
        cases hfull
      rw [hk, hk0, Nat.zero_mul]
      exact Nat.zero_le _
    refine ⟨⟨h.chunksOk.ok, h.chunksOk.disjoint⟩, h.current, ⟨?_, ?_⟩,
      fun j b => free j b ∧ b ≠ c.blockAt i, ?_, ?_⟩
    · intro b hb
      rcases mem_cons.mp hb with rfl | hb
      · exact ⟨c, hc, i, hi, rfl, hn, hsize⟩
      · exact h.liveOk.isBlock b hb
    · rw [map_cons, nodup_cons]
      exact ⟨hnot, h.liveOk.starts⟩
    · intro j
      by_cases hj : j = c.index
      · subst hj
        refine ⟨xs, ?_, ?_⟩
        · have hpop : (s.pop c.index (c.blockAt i)).freeList c.index = s.mem (c.blockAt i) :=
            update_self ..
          rw [hpop]
          exact hrest
        · intro b
          change _ ↔ free c.index b ∧ b ≠ c.blockAt i
          rw [← hxs b, mem_cons]
          constructor
          · intro hb
            refine ⟨Or.inr hb, ?_⟩
            rintro rfl
            simp only [map_cons, nodup_cons, List.map_map] at hnodup
            exact hnodup.1 (List.mem_map.mpr ⟨_, hb, rfl⟩)
          · rintro ⟨rfl | hb, hne⟩
            · exact absurd rfl hne
            · exact hb
      · obtain ⟨ys, hys, hmem⟩ := hlists j
        refine ⟨ys, ?_, ?_⟩
        · have hpop : (s.pop c.index (c.blockAt i)).freeList j = s.freeList j :=
            update_of_ne hj ..
          rw [hpop]
          exact hys
        · intro b
          change _ ↔ free j b ∧ b ≠ c.blockAt i
          rw [hmem b]
          constructor
          · intro hb
            refine ⟨hb, ?_⟩
            rintro rfl
            -- the block is in the list of its own index only
            obtain ⟨d, hd, rfl, -, k, hk, heq, -⟩ := hfree j _ hb
            exact hj (congrArg GroupChunk.index (h.chunksOk.blockAt_inj hc hd hi hk heq).1).symm
          · exact fun hb => hb.1
    · rintro j b ⟨hb, hne⟩
      obtain ⟨d, hd, hindex, hdfull, k, hk, rfl, hdead⟩ := hfree j b hb
      refine ⟨d, hd, hindex, hdfull, k, hk, rfl, ?_⟩
      rw [map_cons, mem_cons, not_or]
      exact ⟨hne, hdead⟩

/-- `allocFromFreeList` finds no block or gives one that is not live. -/
theorem allocFromFreeList_spec (h : Invariant s live) {index n : Nat}
    (hindex : index < maxAllocatableIndex) (hn : n ≤ sizeofBlock * index) :
    ∃ r, s.allocFromFreeList (sizeofBlock * index) index = some r ∧
      (r = (none, s) ∧ s.freeList index = none ∧ s.chunkList index = none ∨
        ∃ a, r.1 = some a ∧ r.2.csize = s.csize ∧ Invariant r.2 ((a, n) :: live)) := by
  have hrange : ¬ maxAllocatableIndex ≤ index := by omega
  cases hfree : s.freeList index with
  | some res =>
    refine ⟨_, by simp only [allocFromFreeList, if_neg hrange, hfree]; rfl, Or.inr ⟨res, rfl, rfl, ?_⟩⟩
    exact popFree_invariant h hfree hn
  | none =>
    cases hlist : s.chunkList index with
    | none => exact ⟨(none, s), by simp [allocFromFreeList, hrange, hfree, hlist], Or.inl ⟨rfl, rfl, rfl⟩⟩
    | some p =>
      obtain ⟨c, hc, rfl, rfl, hinit⟩ := h.current index p hlist
      have hok := h.chunksOk.ok c hc
      obtain ⟨k, hk, hsize, hiff⟩ := hok.size_eq
      obtain ⟨k, rfl⟩ : ∃ j, k = j + 1 := ⟨k - 1, by have := hiff.mp hinit; omega⟩
      have hnew : c.size - sizeofBlock * c.index = k * c.blockSize := by
        rw [hsize, Nat.succ_mul, GroupChunk.blockSize, Nat.add_sub_cancel]
      by_cases hmore : 0 < k
      · have hroom : sizeofBlock * c.index ≤ k * c.blockSize :=
          Nat.le_mul_of_pos_left _ hmore
        refine ⟨(some (c.blockAt k),
            { s with chunks := s.setChunk c.buffer (k * c.blockSize) true }), ?_,
          Or.inr ⟨_, rfl, rfl, ?_⟩⟩
        · simp only [allocFromFreeList, if_neg hrange, hfree, hlist, h.chunksOk.chunkAt_eq hc, hnew,
            hinit, Bool.not_true, Bool.false_eq_true, if_false, if_pos hroom, GroupChunk.blockAt]
        · have ht : TakesFrom s
              { s with chunks := s.setChunk c.buffer (k * c.blockSize) true } c k :=
            ⟨rfl, by simp [hmore], rfl, rfl, by simp [hmore]⟩
          exact ht.invariant h hc hinit hsize hk hn
      · obtain rfl : k = 0 := by omega
        have hpos : 0 < sizeofBlock * c.index := hok.blockSize_pos
        have hroom : ¬ sizeofBlock * c.index ≤ 0 := by omega
        refine ⟨(some (c.blockAt 0),
            { s with
              chunks := s.setChunk c.buffer (0 * c.blockSize) false
              chunkList := Function.update s.chunkList c.index none }), ?_,
          Or.inr ⟨_, rfl, rfl, ?_⟩⟩
        · simp only [allocFromFreeList, if_neg hrange, hfree, hlist, h.chunksOk.chunkAt_eq hc, hnew,
            hinit, Bool.not_true, Bool.false_eq_true, if_false, if_neg hroom, Nat.zero_mul,
            if_true, GroupChunk.blockAt]
        · have ht : TakesFrom s
              { s with
                chunks := s.setChunk c.buffer (0 * c.blockSize) false
                chunkList := Function.update s.chunkList c.index none } c 0 :=
            ⟨rfl, by simp, rfl, rfl, by simp⟩
          exact ht.invariant h hc hinit hsize hk hn

/-- A new chunk has its blocks in no free list and no live block. -/
theorem newChunk_invariant (h : Invariant s live) {index p : Nat} (hpos : 0 < index)
    (hfits : sizeofBlock * index ≤ s.csize) (hnone : s.chunkList index = none)
    (hp : ∀ d ∈ s.chunks, d.buffer + s.csize ≤ p ∨ p + s.csize ≤ d.buffer) :
    ∃ t, s.newChunk index p = some t ∧ t.csize = s.csize ∧ t.chunkList index = some p ∧
      t.freeList = s.freeList ∧ Invariant t live := by
  refine ⟨s.withChunk index p, by rw [newChunk, if_pos ⟨hnone, by omega⟩], rfl,
    update_self .., rfl, ?_⟩
  have hbs : 0 < sizeofBlock * index := Nat.mul_pos (by decide) hpos
  refine ⟨⟨?_, ?_⟩, ?_, ⟨?_, h.liveOk.starts⟩, ?_⟩
  · intro d hd
    rcases mem_cons.mp hd with rfl | hd
    · refine ⟨hpos, hfits, rfl, s.csize / (sizeofBlock * index), le_rfl, ?_, ?_⟩
      · have hdiv := Nat.div_add_mod s.csize (sizeofBlock * index)
        simp only [GroupChunk.blockSize]
        rw [Nat.mul_comm] at hdiv
        omega
      · simp only [true_iff]
        exact Nat.div_pos hfits hbs
    · exact h.chunksOk.ok d hd
  · refine pairwise_cons.mpr ⟨?_, h.chunksOk.disjoint⟩
    intro d hd
    exact (hp d hd).symm
  · intro j q hq
    have hq' : Function.update s.chunkList index (some p) j = some q := hq
    rw [update_apply] at hq'
    split_ifs at hq' with hj
    · obtain rfl := some.inj hq'
      exact ⟨_, mem_cons_self, rfl, hj.symm, rfl⟩
    · obtain ⟨c, hc, hrest⟩ := h.current j q hq'
      exact ⟨c, mem_cons_of_mem _ hc, hrest⟩
  · intro b hb
    obtain ⟨c, hc, hrest⟩ := h.liveOk.isBlock b hb
    exact ⟨c, mem_cons_of_mem _ hc, hrest⟩
  · obtain ⟨free, hlists, hfree⟩ := h.freeOk
    refine ⟨free, hlists, ?_⟩
    intro j a ha
    obtain ⟨c, hc, hrest⟩ := hfree j a ha
    exact ⟨c, mem_cons_of_mem _ hc, hrest⟩

theorem addChunk_invariant (h : Invariant s live) {index p : Nat} (hpos : 0 < index)
    (hfits : sizeofBlock * index ≤ s.csize) (hnone : s.chunkList index = none)
    (hp : ∀ d ∈ s.chunks, d.buffer + s.csize ≤ p ∨ p + s.csize ≤ d.buffer) :
    ∃ t, s.addChunk index p = some t ∧ t.csize = s.csize ∧ t.chunkList index = some p ∧
      Invariant t live := by
  by_cases hinit : s.chunkInit index = true
  · have h' : Invariant { s with chunkInit := Function.update s.chunkInit index false } live :=
      ⟨⟨h.chunksOk.ok, h.chunksOk.disjoint⟩, h.current, ⟨h.liveOk.isBlock, h.liveOk.starts⟩, h.freeOk⟩
    obtain ⟨t, hnew, hcsize, hlist, -, hinv⟩ := newChunk_invariant h' hpos hfits hnone hp
    exact ⟨t, by rw [addChunk, if_pos hinit, hnew], hcsize, hlist, hinv⟩
  · obtain ⟨t, hnew, hcsize, hlist, -, hinv⟩ := newChunk_invariant h hpos hfits hnone hp
    refine ⟨{ t with needGC := true }, by rw [addChunk, if_neg hinit, hnew, map_some], hcsize,
      hlist, ?_⟩
    exact ⟨⟨hinv.chunksOk.ok, hinv.chunksOk.disjoint⟩, hinv.current,
      ⟨hinv.liveOk.isBlock, hinv.liveOk.starts⟩, hinv.freeOk⟩

/-- The index of a request. -/
def indexOf (size : Nat) : Nat := round size / sizeofBlock

theorem round_eq_indexOf (size : Nat) : round size = sizeofBlock * indexOf size := by
  unfold indexOf
  simp only [SimpleGC.round_eq, sizeofBlock]
  omega

theorem indexOf_pos {size : Nat} (hsize : 0 < size) : 0 < indexOf size := by
  unfold indexOf
  simp only [SimpleGC.round_eq, sizeofBlock]
  omega

/-- A request that `allocate` serves: the block is not empty, smaller than a chunk, and its index is
in the tables. -/
def Served (csize size : Nat) : Prop :=
  0 < size ∧ size < csize ∧ indexOf size < maxAllocatableIndex

theorem fits_of_lt (hround : sizeofBlock ∣ s.csize) {size : Nat} (hsize : size < s.csize) :
    sizeofBlock * indexOf size ≤ s.csize := by
  obtain ⟨k, hk⟩ := hround
  rw [← round_eq_indexOf, SimpleGC.round_eq]
  simp only [sizeofBlock] at hk
  omega

/-- `allocate` finds no block for the request in the chunks that it has. -/
def Needs (s : GroupedGC) (size : Nat) : Prop :=
  s.freeList (indexOf size) = none ∧ s.chunkList (indexOf size) = none

/-- `allocate` serves such a request with a block that becomes live. -/
theorem allocate_of_served (h : Invariant s live) (hround : sizeofBlock ∣ s.csize) {size p : Nat}
    (hserved : Served s.csize size)
    (hp : s.Needs size → ∀ d ∈ s.chunks, d.buffer + s.csize ≤ p ∨ p + s.csize ≤ d.buffer) (q : Nat) :
    ∃ a t, s.allocate size p q = some (a, t) ∧ t.csize = s.csize ∧
      Invariant t ((a, size) :: live) := by
  obtain ⟨hpos, hsize, hindex⟩ := hserved
  have hn : size ≤ sizeofBlock * indexOf size := by
    rw [← round_eq_indexOf]
    exact SimpleGC.le_round size
  obtain ⟨⟨res, s₁⟩, halloc, ⟨hnone, hfree, hlist⟩ | ⟨a, hres, hcsize, hinv⟩⟩ :=
    allocFromFreeList_spec h hindex hn
  · -- no block: a new chunk, which gives one
    obtain ⟨rfl, rfl⟩ := Prod.mk.inj hnone
    obtain ⟨s₂, hadd, hcsize₂, hlist₂, hinv₂⟩ := addChunk_invariant h (indexOf_pos hpos)
      (fits_of_lt hround hsize) hlist (hp ⟨hfree, hlist⟩)
    obtain ⟨⟨res₂, s₃⟩, halloc₂, ⟨-, -, hlist₃⟩ | ⟨a, hres, hcsize, hinv⟩⟩ :=
      allocFromFreeList_spec hinv₂ hindex hn
    · rw [hlist₂] at hlist₃
      cases hlist₃
    · obtain rfl : res₂ = some a := hres
      refine ⟨a, s₃, ?_, hcsize.trans hcsize₂, hinv⟩
      rw [← round_eq_indexOf] at halloc halloc₂
      simp only [allocate, if_pos hsize]
      rw [← indexOf]
      simp only [halloc, hadd, halloc₂]
  · obtain rfl : res = some a := hres
    refine ⟨a, s₁, ?_, hcsize, hinv⟩
    rw [← round_eq_indexOf] at halloc
    simp only [allocate, if_pos hsize]
    rw [← indexOf, halloc]

/-- The other requests have no result. -/
theorem served_of_allocate (h : Invariant s live) {size p q : Nat} {r : Nat × GroupedGC}
    (hr : s.allocate size p q = some r) : Served s.csize size := by
  unfold allocate at hr
  split_ifs at hr with hsize
  rw [← indexOf] at hr
  have hindex : indexOf size < maxAllocatableIndex := by
    by_contra hout
    have hfail : s.allocFromFreeList (round size) (indexOf size) = none := by
      rw [allocFromFreeList, if_pos (by omega)]
    simp only [hfail] at hr
    cases hr
  rcases Nat.eq_zero_or_pos size with rfl | hpos
  · -- no chunk has the index 0, and none is created
    exfalso
    have hzero : indexOf 0 = 0 := rfl
    rw [hzero] at hr
    have hfree : s.freeList 0 = none := by
      by_contra hsome
      obtain ⟨res, hres⟩ := ne_none_iff_exists'.mp hsome
      obtain ⟨free, hlists, hfree⟩ := h.freeOk
      obtain ⟨xs, hlist, hxs⟩ := hlists 0
      cases xs with
      | nil =>
        rw [hres] at hlist
        cases hlist
      | cons a xs =>
        obtain ⟨c, hc, hindex0, -⟩ := hfree 0 a ((hxs a).mp (by simp))
        have hcpos := (h.chunksOk.ok c hc).index_pos
        omega
    have hlist : s.chunkList 0 = none := by
      by_contra hsome
      obtain ⟨b, hb⟩ := ne_none_iff_exists'.mp hsome
      obtain ⟨c, hc, -, hindex0, -⟩ := h.current 0 b hb
      have hcpos := (h.chunksOk.ok c hc).index_pos
      omega
    have halloc : s.allocFromFreeList (round 0) 0 = some (none, s) := by
      simp [allocFromFreeList, hfree, hlist, maxAllocatableIndex]
    have hadd : s.addChunk 0 p = none := by simp [addChunk, newChunk]
    simp only [halloc, hadd] at hr
    cases hr
  · exact ⟨hpos, hsize, hindex⟩

/-- A successful `allocate` gives a block that becomes live. -/
theorem allocate_spec (h : Invariant s live) (hround : sizeofBlock ∣ s.csize) {size p q : Nat}
    (hp : ∀ d ∈ s.chunks, d.buffer + s.csize ≤ p ∨ p + s.csize ≤ d.buffer)
    {r : Nat × GroupedGC} (hr : s.allocate size p q = some r) :
    r.2.csize = s.csize ∧ Invariant r.2 ((r.1, size) :: live) := by
  obtain ⟨a, t, halloc, hcsize, hinv⟩ :=
    allocate_of_served h hround (served_of_allocate h hr) (fun _ => hp) q
  obtain rfl := some.inj (halloc.symm.trans hr)
  exact ⟨hcsize, hinv⟩

/-! ## Collections -/

/-- A free block of the sweep is a block of a full chunk where no marked block starts. -/
theorem isFree_of_freed {marks : List (Nat × Nat)} {index a : Nat}
    (hfreed : Freed marks (sweptBlocks s.chunks) index a)
    (hmarks : ∀ b ∈ live, b ∈ marks) : IsFree s live index a := by
  obtain ⟨c, i, hmem, hindex, ha, hnot⟩ := hfreed
  obtain ⟨hc, hinit, hi⟩ := mem_sweptBlocks.mp hmem
  refine ⟨c, hc, hindex, hinit, i, hi, ha, ?_⟩
  intro hlive
  obtain ⟨b, hb, rfl⟩ := List.mem_map.mp hlive
  exact hnot (List.mem_map_of_mem (hmarks b hb))

/-- A collection in which exactly the live blocks are marked. -/
theorem doGC_invariant (h : Invariant s live) {marks : List (Nat × Nat)}
    (hmarks : ∀ b, b ∈ marks ↔ b ∈ live) :
    ∃ t, s.doGC marks = some t ∧ t.csize = s.csize ∧ Invariant t live ∧
      (s.needGC = true → Swept t marks) ∧ t.chunks = s.chunks := by
  by_cases hneed : s.needGC = true
  · have hin : ∀ b ∈ marks, s.IsBlock b.1 := by
      intro b hb
      obtain ⟨c, hc, i, hi, ha, -⟩ := h.liveOk.isBlock b ((hmarks b).mp hb)
      exact ⟨c, hc, i, hi, ha⟩
    obtain ⟨t, hgc, hsame, -, hswept⟩ := doGC_spec h.chunksOk hin hneed
    refine ⟨t, hgc, hsame.csize, ⟨⟨?_, ?_⟩, ?_, ⟨?_, h.liveOk.starts⟩, _, hswept, ?_⟩, fun _ => hswept,
      hsame.chunks⟩
    · rw [hsame.chunks, hsame.csize]
      exact h.chunksOk.ok
    · rw [hsame.chunks, hsame.csize]
      exact h.chunksOk.disjoint
    · rw [hsame.chunkList, hsame.chunks]
      exact h.current
    · rw [hsame.chunks]
      exact h.liveOk.isBlock
    · exact fun index a ha => isFree_of_freed ha fun b hb => (hmarks b).mpr hb
  · exact ⟨s, by rw [doGC, if_neg hneed], rfl, h, fun hn => absurd hn hneed, rfl⟩

/-- The client writes inside a live block only, where no free block starts. -/
theorem write_invariant (h : Invariant s live) {a : Nat} (ha : SimpleGC.Covered live a)
    (v : Option Nat) : Invariant (s.write a v) live := by
  obtain ⟨free, hlists, hfree⟩ := h.freeOk
  refine ⟨⟨h.chunksOk.ok, h.chunksOk.disjoint⟩, h.current, ⟨h.liveOk.isBlock, h.liveOk.starts⟩,
    free, ?_, hfree⟩
  intro index
  obtain ⟨xs, hlist, hxs⟩ := hlists index
  refine ⟨xs, hlist.congr ?_, hxs⟩
  intro x hx
  obtain ⟨y, hy, rfl⟩ := List.mem_map.mp hx
  obtain ⟨b, hb, hlow, hhigh⟩ := ha
  have hf := hfree index y ((hxs y).mp hy)
  have hapart := hf.apart h.liveOk h.chunksOk hb
  have hpos : 0 < sizeofBlock * index := by
    obtain ⟨c, hc, rfl, -⟩ := hf
    exact (h.chunksOk.ok c hc).blockSize_pos
  have hne : y ≠ a := by
    unfold Apart at hapart
    omega
  simp [read, write, hne]

/-! ## Runs -/

/-- The calls of the client. -/
inductive Op
  /-- `allocate`; new chunks would be at `p` and `q`. -/
  | allocate (size p q : Nat)
  /-- `doGC`, during which the client marks `marks`. -/
  | doGC (marks : List (Nat × Nat))
  /-- Keep the blocks of `kept` only. -/
  | abandon (kept : List (Nat × Nat))
  /-- Write the word at `a`. -/
  | write (a : Nat) (v : Option Nat)

/-- A call on a heap and the list of the live blocks. -/
def step (st : GroupedGC × List (Nat × Nat)) : Op → Option (GroupedGC × List (Nat × Nat))
  | .allocate size p q => (st.1.allocate size p q).map fun r => (r.2, (r.1, size) :: st.2)
  | .doGC marks => (st.1.doGC marks).map fun s => (s, st.2)
  | .abandon kept => some (st.1, kept)
  | .write a v => some (st.1.write a v, st.2)

/-- What the client and the system ensure: a new chunk is apart from the others, a collection marks
exactly the live blocks, and the client writes in its live blocks only. -/
def Contract (st : GroupedGC × List (Nat × Nat)) : Op → Prop
  | .allocate _ p _ => ∀ d ∈ st.1.chunks, d.buffer + st.1.csize ≤ p ∨ p + st.1.csize ≤ d.buffer
  | .doGC marks => ∀ b, b ∈ marks ↔ b ∈ st.2
  | .abandon kept => kept.Sublist st.2
  | .write a _ => SimpleGC.Covered st.2 a

/-- The call is not a request that `allocate` cannot serve. -/
def Op.Served (csize : Nat) : Op → Prop
  | .allocate size _ _ => GroupedGC.Served csize size
  | _ => True

/-- The invariant of a run that starts with chunks of `csize` bytes. -/
structure RunInvariant (csize : Nat) (st : GroupedGC × List (Nat × Nat)) : Prop where
  csize_eq : st.1.csize = csize
  dvd : sizeofBlock ∣ csize
  invariant : Invariant st.1 st.2

theorem abandon_invariant (h : Invariant s live) {kept : List (Nat × Nat)}
    (hkept : kept.Sublist live) : Invariant s kept := by
  obtain ⟨free, hlists, hfree⟩ := h.freeOk
  refine ⟨h.chunksOk, h.current, ⟨fun b hb => h.liveOk.isBlock b (hkept.subset hb), ?_⟩, free, hlists, ?_⟩
  · exact h.liveOk.starts.sublist (hkept.map Prod.fst)
  · intro index a ha
    obtain ⟨c, hc, hindex, hfull, i, hi, heq, hnot⟩ := hfree index a ha
    exact ⟨c, hc, hindex, hfull, i, hi, heq, fun hmem => hnot ((hkept.map Prod.fst).subset hmem)⟩

theorem step_invariant {csize : Nat} {st st' : GroupedGC × List (Nat × Nat)} {op : Op}
    (h : RunInvariant csize st) (hop : Contract st op) (hst : step st op = some st') :
    RunInvariant csize st' := by
  obtain ⟨hcsize, hdvd, hinv⟩ := h
  cases op with
  | allocate size p q =>
    obtain ⟨r, halloc, rfl⟩ := map_eq_some_iff.mp hst
    obtain ⟨hcsize', hinv'⟩ := allocate_spec hinv (hcsize.symm ▸ hdvd) hop halloc
    exact ⟨hcsize'.trans hcsize, hdvd, hinv'⟩
  | doGC marks =>
    obtain ⟨t, hgc, hcsize', hinv', -⟩ := doGC_invariant hinv hop
    obtain ⟨t', hgc', rfl⟩ := map_eq_some_iff.mp hst
    obtain rfl := some.inj (hgc.symm.trans hgc')
    exact ⟨hcsize'.trans hcsize, hdvd, hinv'⟩
  | abandon kept =>
    obtain rfl := some.inj hst
    exact ⟨hcsize, hdvd, abandon_invariant hinv hop⟩
  | write a v =>
    obtain rfl := some.inj hst
    exact ⟨hcsize, hdvd, write_invariant hinv hop v⟩

/-- A call fails only when it is a request that `allocate` cannot serve. -/
theorem step_succeeds {csize : Nat} {st : GroupedGC × List (Nat × Nat)} {op : Op}
    (h : RunInvariant csize st) (hop : Contract st op) (hserved : op.Served csize) :
    ∃ st', step st op = some st' ∧ RunInvariant csize st' := by
  have hsome : ∃ st', step st op = some st' := by
    obtain ⟨hcsize, hdvd, hinv⟩ := h
    cases op with
    | allocate size p q =>
      obtain ⟨a, t, halloc, -⟩ := allocate_of_served hinv (hcsize.symm ▸ hdvd)
        (hcsize.symm ▸ hserved) (fun _ => hop) q
      exact ⟨(t, (a, size) :: st.2), by rw [step, halloc, map_some]⟩
    | doGC marks =>
      obtain ⟨t, hgc, -⟩ := doGC_invariant hinv hop
      exact ⟨(t, st.2), by rw [step, hgc, map_some]⟩
    | abandon kept => exact ⟨_, rfl⟩
    | write a v => exact ⟨_, rfl⟩
  obtain ⟨st', hst⟩ := hsome
  exact ⟨st', hst, step_invariant h hop hst⟩

theorem runInvariant_new (size : Nat) (mem : Nat → Option Nat) :
    RunInvariant (round size) (new size mem, []) where
  csize_eq := rfl
  dvd := Nat.dvd_mul_left _ _
  invariant :=
    { chunksOk := ⟨by simp [new], List.Pairwise.nil⟩
      current := by simp [new]
      liveOk := ⟨by simp, nodup_nil⟩
      freeOk := ⟨fun _ _ => False, fun _ => ⟨[], rfl, by simp⟩, fun _ _ h => h.elim⟩ }

/-- The live blocks do not overlap, the free blocks overlap no live block, and after a collection
they are blocks of their chunks that overlap no marked block. -/
structure Safe (s : GroupedGC) (live : List (Nat × Nat)) : Prop where
  apart : live.Pairwise fun b b' => Apart b.1 b.2 b'.1 b'.2
  free : ∀ index, ∃ xs : List Nat, IsList s.read (s.freeList index) (xs.map fun a => (a, ())) ∧
    ∀ a ∈ xs, ∀ b ∈ live, Apart a (sizeofBlock * index) b.1 b.2
  doGC : ∀ marks, Contract (s, live) (.doGC marks) → ∃ t, s.doGC marks = some t ∧
    (s.needGC = true → ∀ index, ∃ xs : List Nat,
      IsList t.read (t.freeList index) (xs.map fun a => (a, ())) ∧
        ∀ a ∈ xs,
          (∃ c ∈ t.chunks, c.buffer ≤ a ∧ a + sizeofBlock * index ≤ c.buffer + t.csize) ∧
            ∀ b ∈ marks, Apart a (sizeofBlock * index) b.1 b.2)

theorem Invariant.safe (h : Invariant s live) : Safe s live := by
  refine ⟨h.liveOk.apart h.chunksOk, ?_, ?_⟩
  · intro index
    obtain ⟨free, hlists, hfree⟩ := h.freeOk
    obtain ⟨xs, hlist, hxs⟩ := hlists index
    refine ⟨xs, hlist, ?_⟩
    intro a ha b hb
    exact (hfree index a ((hxs a).mp ha)).apart h.liveOk h.chunksOk hb
  · intro marks hmarks
    obtain ⟨t, hgc, -, hinv, hswept, -⟩ := doGC_invariant h hmarks
    refine ⟨t, hgc, ?_⟩
    intro hneed index
    obtain ⟨xs, hlist, hxs⟩ := hswept hneed index
    refine ⟨xs, hlist, ?_⟩
    intro a ha
    have hfree : IsFree t live index a :=
      isFree_of_freed ((hxs a).mp ha) fun b hb => (hmarks b).mpr hb
    refine ⟨hfree.inChunk hinv.chunksOk, ?_⟩
    intro b hb
    exact hfree.apart hinv.liveOk hinv.chunksOk ((hmarks b).mp hb)

/-- Every run of calls that meet their contract reaches safe states only, and the only calls that may
fail are the requests that `allocate` cannot serve. -/
theorem groupedGC_run (size : Nat) (mem : Nat → Option Nat) (ops : List Op)
    (hops : Run.Meets Contract step (new size mem, []) ops) :
    (∀ s live, Run.exec step (new size mem, []) ops = some (s, live) → Safe s live) ∧
      ((∀ op ∈ ops, op.Served (round size)) → (Run.exec step (new size mem, []) ops).isSome) := by
  constructor
  · intro s live hexec
    have hinv := Run.exec_invariant (RunInvariant (round size))
      (fun _ _ _ h hop hstep => step_invariant h hop hstep) ops _ _ (runInvariant_new size mem) hops
      hexec
    exact hinv.invariant.safe
  · intro hserved
    obtain ⟨st, hexec, -⟩ := Run.exists_exec_of_meets (RunInvariant (round size))
      (fun _ _ h hop => step_succeeds h hop.1 hop.2) ops _ (runInvariant_new size mem)
      (Run.meets_and hops hserved)
    exact isSome_iff_exists.mpr ⟨st, hexec⟩

/-- Three blocks of 16 bytes in chunks of 32 bytes, the first one abandoned, and a collection. -/
def threeBlocks : List Op :=
  [.allocate 16 64 64, .allocate 16 128 128, .allocate 16 128 128, .abandon [(144, 16), (64, 16)],
    .doGC [(144, 16), (64, 16)]]

theorem groupedGC_run_three :
    (∀ s live, Run.exec step (new 32 fun _ => none, []) threeBlocks = some (s, live) → Safe s live) ∧
      ((∀ op ∈ threeBlocks, op.Served (round 32)) →
        (Run.exec step (new 32 fun _ => none, []) threeBlocks).isSome) := by
  refine groupedGC_run 32 (fun _ => none) threeBlocks ⟨?_, fun s₁ h₁ => ?_⟩
  · intro d hd
    cases hd
  obtain rfl := some.inj h₁
  refine ⟨?_, fun s₂ h₂ => ?_⟩
  · intro d hd
    obtain rfl := mem_singleton.mp hd
    decide
  obtain rfl := some.inj h₂
  refine ⟨?_, fun s₃ h₃ => ?_⟩
  · intro d hd
    obtain rfl := mem_singleton.mp hd
    decide
  obtain rfl := some.inj h₃
  refine ⟨sublist_append_left [(144, 16), (64, 16)] [(80, 16)], fun s₄ h₄ => ?_⟩
  obtain rfl := some.inj h₄
  exact ⟨fun b => Iff.rfl, fun _ _ => trivial⟩

end Elm.Alloc.GroupedGC
