import Elm.Alloc.GroupedGC
import Elm.Alloc.SimpleGCSweep

/-!
# Collections of `GroupedGC`

A collection sets one bit for each marked block and then rebuilds every free list from the unmarked
blocks of the full chunks of its index.
-/

namespace Elm.Alloc.GroupedGC

open Chain Util Stree Runs Function List

/-! ## Where the blocks are -/

/-- The blocks of a chunk fit in its buffer, and those that are not allocated yet are the first
ones. -/
structure ChunkOk (csize : Nat) (c : GroupChunk) : Prop where
  index_pos : 0 < c.index
  fits : c.blockSize ≤ csize
  blockCount_eq : c.blockCount = csize / c.blockSize
  size_eq : ∃ k ≤ c.blockCount, c.size = k * c.blockSize ∧ (c.init = true ↔ 0 < k)

/-- The chunks are made of blocks and do not overlap. -/
structure Chunks (s : GroupedGC) : Prop where
  ok : ∀ c ∈ s.chunks, ChunkOk s.csize c
  disjoint : s.chunks.Pairwise fun c d =>
    c.buffer + s.csize ≤ d.buffer ∨ d.buffer + s.csize ≤ c.buffer

variable {s t : GroupedGC} {csize : Nat} {c d : GroupChunk} {i j : Nat}

theorem ChunkOk.blockSize_pos (h : ChunkOk csize c) : 0 < c.blockSize :=
  Nat.mul_pos (by decide) h.index_pos

theorem ChunkOk.blockCount_pos (h : ChunkOk csize c) : 0 < c.blockCount := by
  rw [h.blockCount_eq]
  exact Nat.div_pos h.fits h.blockSize_pos

/-- A block is inside the buffer of its chunk. -/
theorem ChunkOk.blockAt_le (h : ChunkOk csize c) (hi : i < c.blockCount) :
    c.buffer ≤ c.blockAt i ∧ c.blockAt i + c.blockSize ≤ c.buffer + csize := by
  have hmul : (i + 1) * c.blockSize ≤ csize := by
    rw [h.blockCount_eq] at hi
    exact (Nat.le_div_iff_mul_le h.blockSize_pos).mp hi
  rw [Nat.add_mul, Nat.one_mul] at hmul
  unfold GroupChunk.blockAt
  constructor
  · exact Nat.le_add_right _ _
  · omega

theorem ChunkOk.blockAt_lt (h : ChunkOk csize c) (hi : i < c.blockCount) :
    c.blockAt i < c.buffer + csize := by
  have hle := (h.blockAt_le hi).2
  have hpos := h.blockSize_pos
  omega

/-- The number of a block is found back from its address. -/
theorem ChunkOk.div_blockSize (h : ChunkOk csize c) (i : Nat) :
    (c.blockAt i - c.buffer) / c.blockSize = i := by
  rw [GroupChunk.blockAt, Nat.add_sub_cancel_left, Nat.mul_div_cancel _ h.blockSize_pos]

/-- Two blocks of a chunk at different addresses do not overlap. -/
theorem apart_of_ne (c : GroupChunk) (hij : i ≠ j) :
    Apart (c.blockAt i) c.blockSize (c.blockAt j) c.blockSize := by
  unfold Apart GroupChunk.blockAt
  rcases Nat.lt_or_gt_of_ne hij with hlt | hlt
  · have hmul := Nat.mul_le_mul_right c.blockSize (Nat.succ_le_of_lt hlt)
    rw [Nat.succ_mul] at hmul
    omega
  · have hmul := Nat.mul_le_mul_right c.blockSize (Nat.succ_le_of_lt hlt)
    rw [Nat.succ_mul] at hmul
    omega

theorem Chunks.csize_pos (h : Chunks s) (hc : c ∈ s.chunks) : 0 < s.csize :=
  Nat.lt_of_lt_of_le (h.ok c hc).blockSize_pos (h.ok c hc).fits

theorem Chunks.disjoint_of_mem (h : Chunks s) (hc : c ∈ s.chunks) (hd : d ∈ s.chunks) (hne : c ≠ d) :
    c.buffer + s.csize ≤ d.buffer ∨ d.buffer + s.csize ≤ c.buffer := by
  have hsymm : Std.Symm fun c d : GroupChunk =>
      c.buffer + s.csize ≤ d.buffer ∨ d.buffer + s.csize ≤ c.buffer := ⟨fun _ _ h => h.symm⟩
  exact h.disjoint.forall hc hd hne

/-- A chunk is known by the address of its buffer. -/
theorem Chunks.eq_of_buffer (h : Chunks s) (hc : c ∈ s.chunks) (hd : d ∈ s.chunks)
    (heq : c.buffer = d.buffer) : c = d := by
  by_contra hne
  have hdisj := h.disjoint_of_mem hc hd hne
  have hpos := h.csize_pos hc
  omega

theorem Chunks.chunkAt_eq (h : Chunks s) (hc : c ∈ s.chunks) : s.chunkAt c.buffer = some c := by
  cases hfind : s.chunkAt c.buffer with
  | none =>
    have hnone := find?_eq_none.mp hfind c hc
    simp at hnone
  | some d =>
    have hd := mem_of_find?_eq_some hfind
    have hbuffer := find?_some hfind
    rw [decide_eq_true_eq] at hbuffer
    rw [h.eq_of_buffer hd hc hbuffer]

/-- Blocks at different addresses do not overlap. -/
theorem Chunks.apart (h : Chunks s) (hc : c ∈ s.chunks) (hd : d ∈ s.chunks) (hi : i < c.blockCount)
    (hj : j < d.blockCount) (hne : c.blockAt i ≠ d.blockAt j) :
    Apart (c.blockAt i) c.blockSize (d.blockAt j) d.blockSize := by
  by_cases hcd : c = d
  · subst hcd
    exact apart_of_ne c fun hij => hne (congrArg _ hij)
  · have hdisj := h.disjoint_of_mem hc hd hcd
    have hci := (h.ok c hc).blockAt_le hi
    have hdj := (h.ok d hd).blockAt_le hj
    unfold Apart
    omega

/-- The address of a block determines its chunk and its number. -/
theorem Chunks.blockAt_inj (h : Chunks s) (hc : c ∈ s.chunks) (hd : d ∈ s.chunks)
    (hi : i < c.blockCount) (hj : j < d.blockCount) (heq : c.blockAt i = d.blockAt j) :
    c = d ∧ i = j := by
  have hcd : c = d := by
    by_contra hne
    have hdisj := h.disjoint_of_mem hc hd hne
    have hci := (h.ok c hc).blockAt_le hi
    have hclt := (h.ok c hc).blockAt_lt hi
    have hdj := (h.ok d hd).blockAt_le hj
    have hdlt := (h.ok d hd).blockAt_lt hj
    omega
  subst hcd
  refine ⟨rfl, ?_⟩
  rw [← (h.ok c hc).div_blockSize i, heq, (h.ok c hc).div_blockSize j]

/-! ## The start of a collection -/

/-- The chunk found for an address of its buffer. -/
def Finds (s : GroupedGC) (st : Tree Nat (Option Nat)) : Prop :=
  ∀ c ∈ s.chunks, ∀ x, c.buffer ≤ x → x < c.buffer + s.csize →
    Tree.getRef compare st x = some (some c.buffer)

/-- The bits set so far are those of the marked blocks. -/
def Marked (s : GroupedGC) (marks : List (Nat × Nat)) (coll : Collection) : Prop :=
  ∀ c ∈ s.chunks, (coll.bits c.buffer).size = c.blockCount ∧
    ∀ i < c.blockCount,
      (coll.bits c.buffer).bit i = some (decide (c.blockAt i ∈ marks.map Prod.fst))

/-- A collection starts with a search tree for the chunks and no bit set. -/
theorem beginGC_spec (h : Chunks s) :
    ∃ coll, s.beginGC = some coll ∧ Finds s coll.st ∧ Marked s [] coll := by
  have hentry : ∀ c ∈ s.chunks, ∃ b, BitVector.new (s.csize / (sizeofBlock * c.index)) false = some b ∧
      b.size = c.blockCount ∧ b.view = replicate c.blockCount false := by
    intro c hc
    have hpos := (h.ok c hc).blockCount_pos
    have hcount : c.blockCount = s.csize / (sizeofBlock * c.index) := (h.ok c hc).blockCount_eq
    rw [← hcount]
    exact BitVector.new_spec hpos false
  obtain ⟨bits, hfold, hbits, -⟩ := Loop.exists_foldlM_update GroupChunk.buffer
    (fun c => BitVector.new (s.csize / (sizeofBlock * c.index)) false)
    (fun c b => b.size = c.blockCount ∧ b.view = replicate c.blockCount false) s.chunks hentry
    (fun c hc d hd heq => h.eq_of_buffer hc hd heq) fun _ => BitVector.empty
  have hpos : ∀ p ∈ s.chunks.map GroupChunk.buffer, 0 < s.csize := by
    intro p hp
    obtain ⟨c, hc, rfl⟩ := mem_map.mp hp
    exact h.csize_pos hc
  obtain ⟨st, hmake, hfind⟩ := SimpleGC.exists_tree hpos (pairwise_map.mpr h.disjoint)
  rw [map_map] at hmake
  refine ⟨⟨bits, st⟩, ?_, ?_, ?_⟩
  · have hmake' : (SegmentBuilder.ofSegments compare none
        (s.chunks.map fun c => ((c.buffer, c.buffer + s.csize), some c.buffer))).make compare
          ⟨null, []⟩ = some st := hmake
    rw [beginGC, hmake', hfold]
  · exact fun c hc => hfind c.buffer (mem_map_of_mem hc)
  · intro c hc
    obtain ⟨hsize, hview⟩ := hbits c hc
    refine ⟨hsize, fun i hi => ?_⟩
    rw [BitVector.bit_eq, hview]
    simp [hi]

/-! ## Marking -/

/-- Marking a block sets its bit; the answer says whether it was already marked. -/
theorem mark_spec (h : Chunks s) {marks : List (Nat × Nat)} {coll : Collection}
    (hfinds : Finds s coll.st) (hmarked : Marked s marks coll) (hc : c ∈ s.chunks)
    (hi : i < c.blockCount) (n : Nat) :
    ∃ coll', s.mark coll (c.blockAt i) n =
        some (decide (c.blockAt i ∈ marks.map Prod.fst), coll') ∧ coll'.st = coll.st ∧
      Marked s (marks ++ [(c.blockAt i, n)]) coll' := by
  obtain ⟨hsize, hbits⟩ := hmarked c hc
  have hok := h.ok c hc
  have hget := hfinds c hc _ (hok.blockAt_le hi).1 (hok.blockAt_lt hi)
  have hindex : (c.blockAt i - c.buffer) / (sizeofBlock * c.index) = i := hok.div_blockSize i
  by_cases hmem : c.blockAt i ∈ marks.map Prod.fst
  · refine ⟨coll, ?_, rfl, ?_⟩
    · simp only [mark, hget, h.chunkAt_eq hc, hindex, hbits i hi, hmem, decide_true]
    · intro d hd
      obtain ⟨hsized, hbitsd⟩ := hmarked d hd
      refine ⟨hsized, fun j hj => ?_⟩
      rw [hbitsd j hj]
      by_cases heq : d.blockAt j = c.blockAt i
      · simp only [heq, hmem, map_append, mem_append, true_or]
      · simp [heq]
  · obtain ⟨bits', hset, hsize', hview, -⟩ := BitVector.set_spec (b := coll.bits c.buffer)
      (hsize.symm ▸ hi)
    refine ⟨{ coll with bits := update coll.bits c.buffer bits' }, ?_, rfl, ?_⟩
    · simp only [mark, hget, h.chunkAt_eq hc, hindex, hbits i hi, hmem, decide_false, hset,
        Option.map_some]
    · intro d hd
      obtain ⟨hsized, hbitsd⟩ := hmarked d hd
      by_cases hdc : d = c
      · subst hdc
        simp only [update_self]
        refine ⟨hsize'.trans hsize, fun j hj => ?_⟩
        have hold := hbits j hj
        rw [BitVector.bit_eq] at hold ⊢
        rw [hview, getElem?_set]
        by_cases hij : i = j
        · subst hij
          simp [hsize, hi]
        · have hne : d.blockAt j ≠ d.blockAt i := fun heq =>
            hij (h.blockAt_inj hd hd hj hi heq).2.symm
          simp only [if_neg hij, hold, map_append, mem_append, map_cons,
            map_nil, mem_singleton, hne, or_false]
      · have hbuffer : d.buffer ≠ c.buffer := fun heq => hdc (h.eq_of_buffer hd hc heq)
        simp only [update_of_ne hbuffer]
        refine ⟨hsized, fun j hj => ?_⟩
        have hne : d.blockAt j ≠ c.blockAt i := fun heq => hdc (h.blockAt_inj hd hc hj hi heq).1
        rw [hbitsd j hj]
        simp [hne]

/-- The address of a block of one of the chunks. -/
def IsBlock (s : GroupedGC) (a : Nat) : Prop :=
  ∃ c ∈ s.chunks, ∃ i < c.blockCount, a = c.blockAt i

theorem collect_spec (h : Chunks s) (marks : List (Nat × Nat)) (hin : ∀ b ∈ marks, s.IsBlock b.1) :
    ∀ {before : List (Nat × Nat)} {coll : Collection}, Finds s coll.st → Marked s before coll →
      ∃ coll', s.collect coll marks = some coll' ∧ Marked s (before ++ marks) coll' := by
  induction marks with
  | nil =>
    intro before coll _ hmarked
    exact ⟨coll, rfl, by simpa using hmarked⟩
  | cons b marks ih =>
    intro before coll hfinds hmarked
    obtain ⟨a, n⟩ := b
    obtain ⟨c, hc, i, hi, ha⟩ := hin (a, n) mem_cons_self
    simp only at ha
    subst ha
    obtain ⟨coll₁, hmark, hst, hmarked₁⟩ := mark_spec h hfinds hmarked hc hi n
    obtain ⟨coll', hrest, hmarked'⟩ := ih (fun b hb => hin b (mem_cons_of_mem _ hb))
      (hst ▸ hfinds) hmarked₁
    refine ⟨coll', ?_, by simpa using hmarked'⟩
    rw [collect] at hrest ⊢
    rw [foldlM_cons, hmark]
    exact hrest

/-! ## The sweep -/

/-- What the sweep does not change. -/
structure SameChunks (s t : GroupedGC) : Prop where
  csize : t.csize = s.csize
  chunks : t.chunks = s.chunks
  chunkList : t.chunkList = s.chunkList
  chunkInit : t.chunkInit = s.chunkInit

theorem SameChunks.trans {u : GroupedGC} (h : SameChunks s t) (h' : SameChunks t u) :
    SameChunks s u :=
  ⟨h'.csize.trans h.csize, h'.chunks.trans h.chunks, h'.chunkList.trans h.chunkList,
    h'.chunkInit.trans h.chunkInit⟩

/-- The free list of each index is made of the addresses that `free` tells. -/
def Lists (s : GroupedGC) (free : Nat → Nat → Prop) : Prop :=
  ∀ index, ∃ xs : List Nat, IsList s.read (s.freeList index) (xs.map fun a => (a, ())) ∧
    ∀ a, a ∈ xs ↔ free index a

theorem Lists.congr {free free' : Nat → Nat → Prop} (h : Lists s free)
    (hfree : ∀ index a, free index a ↔ free' index a) : Lists s free' := by
  intro index
  obtain ⟨xs, hlist, hxs⟩ := h index
  exact ⟨xs, hlist, fun a => (hxs a).trans (hfree index a)⟩

/-- A block in no free list is put in front of one. -/
theorem Lists.push {free : Nat → Nat → Prop} (h : Lists s free) {a : Nat}
    (ha : ∀ index, ¬ free index a) (i : Nat) :
    Lists (s.push i a) fun index b => free index b ∨ index = i ∧ b = a := by
  intro index
  obtain ⟨xs, hlist, hxs⟩ := h index
  have hnot : ∀ x ∈ xs, x ≠ a := by
    intro x hx heq
    exact ha index ((hxs a).mp (heq ▸ hx))
  -- the blocks of the list are not written
  have hsame : ∀ {p : Option Nat}, IsList s.read p (xs.map fun a => (a, ())) →
      IsList (s.push i a).read p (xs.map fun a => (a, ())) := by
    intro p hp
    apply hp.congr
    intro x hx
    obtain ⟨b, hb, rfl⟩ := mem_map.mp hx
    simp [read, GroupedGC.push, hnot b hb]
  by_cases hi : index = i
  · subst hi
    refine ⟨a :: xs, ⟨?_, s.freeList index, ?_, hsame hlist⟩, ?_⟩
    · simp [GroupedGC.push]
    · simp [read, GroupedGC.push]
    · intro b
      rw [mem_cons, hxs b]
      constructor
      · rintro (rfl | hb)
        · exact Or.inr ⟨rfl, rfl⟩
        · exact Or.inl hb
      · rintro (hb | ⟨-, rfl⟩)
        · exact Or.inr hb
        · exact Or.inl rfl
  · refine ⟨xs, ?_, ?_⟩
    · have hfree : (s.push i a).freeList index = s.freeList index := by
        simp [GroupedGC.push, hi]
      rw [hfree]
      exact hsame hlist
    · intro b
      rw [hxs b]
      simp [hi]

/-- The blocks that the sweep looks at, chunk by chunk. -/
def sweptBlocks (chunks : List GroupChunk) : List (GroupChunk × Nat) :=
  chunks.flatMap fun c => if c.init then [] else (List.range c.blockCount).map fun i => (c, i)

theorem mem_sweptBlocks {chunks : List GroupChunk} :
    (c, i) ∈ sweptBlocks chunks ↔ c ∈ chunks ∧ c.init = false ∧ i < c.blockCount := by
  simp only [sweptBlocks, mem_flatMap]
  constructor
  · rintro ⟨d, hd, hmem⟩
    by_cases hinit : d.init = true
    · simp [hinit] at hmem
    · rw [if_neg hinit, mem_map] at hmem
      obtain ⟨j, hj, heq⟩ := hmem
      obtain ⟨rfl, rfl⟩ := Prod.mk.inj heq
      exact ⟨hd, by simpa using hinit, mem_range.mp hj⟩
  · rintro ⟨hc, hinit, hi⟩
    refine ⟨c, hc, ?_⟩
    rw [hinit, if_neg (by decide), mem_map]
    exact ⟨i, mem_range.mpr hi, rfl⟩

/-- The two loops of `endGC` are one loop over these blocks. -/
theorem foldlM_sweepChunk (coll : Collection) (chunks : List GroupChunk) (s : GroupedGC) :
    chunks.foldlM (sweepChunk coll) s =
      (sweptBlocks chunks).foldlM (fun s b => sweepBlock coll b.1 s b.2) s := by
  induction chunks generalizing s with
  | nil => rfl
  | cons c chunks ih =>
    have hcons : sweptBlocks (c :: chunks) =
        (if c.init then [] else (List.range c.blockCount).map fun i => (c, i)) ++
          sweptBlocks chunks := by simp [sweptBlocks]
    rw [hcons, foldlM_append, foldlM_cons, sweepChunk]
    by_cases hinit : c.init = true
    · rw [if_pos hinit, if_pos hinit]
      exact ih s
    · rw [if_neg hinit, if_neg hinit, foldlM_map]
      congr 1
      funext t
      exact ih t

/-- The blocks that a collection frees, by index. -/
def Freed (marks : List (Nat × Nat)) (blocks : List (GroupChunk × Nat)) (index a : Nat) : Prop :=
  ∃ c i, (c, i) ∈ blocks ∧ c.index = index ∧ a = c.blockAt i ∧ a ∉ marks.map Prod.fst

theorem nodup_sweptBlocks (h : Chunks s) : (sweptBlocks s.chunks).Nodup := by
  have hnodup : s.chunks.Pairwise fun c d => c ≠ d := by
    refine List.Pairwise.imp_of_mem ?_ h.disjoint
    intro c d hc _ hdisj heq
    have hpos := h.csize_pos hc
    rw [heq] at hdisj
    omega
  unfold sweptBlocks
  rw [nodup_flatMap]
  constructor
  · intro c _
    split_ifs
    · exact nodup_nil
    · apply Nodup.map _ nodup_range
      intro i j hij
      exact (Prod.mk.inj hij).2
  · refine hnodup.imp ?_
    intro c d hne b hb hb'
    simp only at hb hb'
    split_ifs at hb hb'
    · exact absurd hb (by simp)
    · exact absurd hb (by simp)
    · exact absurd hb' (by simp)
    · obtain ⟨i, -, rfl⟩ := mem_map.mp hb
      obtain ⟨j, -, heq⟩ := mem_map.mp hb'
      exact hne (Prod.mk.inj heq).1.symm

/-- The sweep of `blocks`, none of which is freed yet. -/
theorem sweep_spec (h : Chunks s) {marks : List (Nat × Nat)} {coll : Collection}
    (hmarked : Marked s marks coll) (blocks : List (GroupChunk × Nat)) :
    ∀ (before : List (GroupChunk × Nat)) (t : GroupedGC),
      (∀ b ∈ before ++ blocks, b.1 ∈ s.chunks ∧ b.2 < b.1.blockCount) → (before ++ blocks).Nodup →
      SameChunks s t → t.needGC = s.needGC → Lists t (Freed marks before) →
      ∃ t', blocks.foldlM (fun s b => sweepBlock coll b.1 s b.2) t = some t' ∧ SameChunks s t' ∧
        t'.needGC = s.needGC ∧ Lists t' (Freed marks (before ++ blocks)) := by
  induction blocks with
  | nil =>
    intro before t _ _ hsame hneed hlists
    exact ⟨t, rfl, hsame, hneed, by simpa using hlists⟩
  | cons b blocks ih =>
    intro before t hin hnodup hsame hneed hlists
    obtain ⟨c, i⟩ := b
    obtain ⟨hc, hi⟩ := hin (c, i) (by simp)
    have hbit := (hmarked c hc).2 i hi
    -- the block is in none of the lists
    have hnew : ∀ index, ¬ Freed marks before index (c.blockAt i) := by
      rintro index ⟨d, j, hmem, -, heq, -⟩
      obtain ⟨hd, hj⟩ := hin (d, j) (by simp [hmem])
      obtain ⟨rfl, rfl⟩ := h.blockAt_inj hc hd hi hj heq
      exact (nodup_append.mp hnodup).2.2 _ hmem _ mem_cons_self rfl
    obtain ⟨t₁, hstep, hsame₁, hneed₁, hlists₁⟩ : ∃ t₁, sweepBlock coll c t i = some t₁ ∧
        SameChunks s t₁ ∧ t₁.needGC = s.needGC ∧ Lists t₁ (Freed marks (before ++ [(c, i)])) := by
      by_cases hmem : c.blockAt i ∈ marks.map Prod.fst
      · refine ⟨t, by simp [sweepBlock, hbit, hmem], hsame, hneed, hlists.congr ?_⟩
        intro index a
        constructor
        · rintro ⟨d, j, hd, hrest⟩
          exact ⟨d, j, mem_append_left _ hd, hrest⟩
        · rintro ⟨d, j, hd, hindex, ha, hnot⟩
          rcases mem_append.mp hd with hd | hd
          · exact ⟨d, j, hd, hindex, ha, hnot⟩
          · obtain ⟨rfl, rfl⟩ := Prod.mk.inj (mem_singleton.mp hd)
            exact absurd hmem (ha ▸ hnot)
      · have hres : sweepBlock coll c t i = some (t.push c.index (c.blockAt i)) := by
          simp only [sweepBlock, hbit, hmem, decide_false, Option.map_some]
          rfl
        refine ⟨_, hres, hsame.trans ⟨rfl, rfl, rfl, rfl⟩, hneed, (hlists.push hnew _).congr ?_⟩
        intro index a
        constructor
        · rintro (⟨d, j, hd, hrest⟩ | ⟨rfl, rfl⟩)
          · exact ⟨d, j, mem_append_left _ hd, hrest⟩
          · exact ⟨c, i, by simp, rfl, rfl, hmem⟩
        · rintro ⟨d, j, hd, hindex, ha, hnot⟩
          rcases mem_append.mp hd with hd | hd
          · exact Or.inl ⟨d, j, hd, hindex, ha, hnot⟩
          · obtain ⟨rfl, rfl⟩ := Prod.mk.inj (mem_singleton.mp hd)
            exact Or.inr ⟨hindex.symm, ha⟩
    obtain ⟨t', hrest, hsame', hneed', hlists'⟩ := ih (before ++ [(c, i)]) t₁ (by simpa using hin)
      (by simpa using hnodup) hsame₁ hneed₁ hlists₁
    refine ⟨t', ?_, hsame', hneed', by simpa using hlists'⟩
    rw [foldlM_cons, hstep]
    exact hrest

/-- The free lists are made of the unmarked blocks of the full chunks. -/
def Swept (s : GroupedGC) (marks : List (Nat × Nat)) : Prop :=
  Lists s (Freed marks (sweptBlocks s.chunks))

/-- A collection that is needed rebuilds the free lists. -/
theorem doGC_spec (h : Chunks s) {marks : List (Nat × Nat)} (hin : ∀ b ∈ marks, s.IsBlock b.1)
    (hneed : s.needGC = true) :
    ∃ t, s.doGC marks = some t ∧ SameChunks s t ∧ t.needGC = false ∧ Swept t marks := by
  have h' : Chunks { s with needGC := false } := ⟨h.ok, h.disjoint⟩
  obtain ⟨coll, hbegin, hfinds, hmarked⟩ := beginGC_spec h'
  obtain ⟨coll', hcollect, hmarked'⟩ := collect_spec h' marks hin hfinds hmarked
  obtain ⟨t, hsweep, hsame, hneed', hlists⟩ := sweep_spec h' hmarked' (sweptBlocks s.chunks) []
    { s with needGC := false, freeList := fun _ => none }
    (by
      rintro ⟨c, i⟩ hb
      obtain ⟨hc, -, hi⟩ := mem_sweptBlocks.mp hb
      exact ⟨hc, hi⟩)
    (nodup_sweptBlocks h) ⟨rfl, rfl, rfl, rfl⟩ rfl
    (fun _ => ⟨[], rfl, by simp [Freed]⟩)
  refine ⟨t, ?_, ⟨hsame.csize, hsame.chunks, hsame.chunkList, hsame.chunkInit⟩, hneed', ?_⟩
  · simp only [doGC, hneed, if_true, hbegin, hcollect, endGC, foldlM_sweepChunk]
    exact hsweep
  · rw [Swept, hsame.chunks]
    simpa using hlists

end Elm.Alloc.GroupedGC
