import Elm.Alloc.BlockGCSweep

/-!
# Runs of `AbstractBlockAllocatorWithGC`

A client allocates blocks, writes to the blocks that are live and marks some of them at each
collection; the marked blocks and those allocated since are the live ones.  As `collectGarbage` does
not reset the free list, the list it builds is acyclic exactly when the free list was empty at its
start.  `allocate` only collects in this situation.
-/

namespace Elm.Alloc.BlockAllocator

open Chain Util List Option

/-- The calls of a client.  `chunk` is the address of the chunk that the system would give and
`marks` the blocks that the client would mark. -/
inductive Op where
  | allocate (chunk : Nat) (marks : List Nat)
  | collectGarbage (marks : List Nat)
  | setSync (sync : Bool)
  | write (a : Nat) (v : Option Nat)

/-- `allocate` starts a collection. -/
def collects (s : BlockAllocator) : Bool := s.full && !s.sync

/-- A call, and the blocks that are live after it. -/
def step (st : BlockAllocator × List Nat) : Op → Option (BlockAllocator × List Nat)
  | .allocate chunk marks =>
    (st.1.allocate chunk marks).map fun res =>
      (res.2, res.1 :: if st.1.collects then marks else st.2)
  | .collectGarbage marks => (st.1.collectGarbage marks).map fun s => (s, marks)
  | .setSync sync => some (st.1.setSync sync, st.2)
  | .write a v => some (st.1.write a v, st.2)

/-- The contract of a call: a new chunk is disjoint from the others, and only live blocks are marked
or written. -/
def Contract (st : BlockAllocator × List Nat) : Op → Prop
  | .allocate chunk marks =>
    (∀ c ∈ st.1.chunks, c + st.1.csize ≤ chunk ∨ chunk + st.1.csize ≤ c) ∧ ∀ p ∈ marks, p ∈ st.2
  | .collectGarbage marks => ∀ p ∈ marks, p ∈ st.2
  | .setSync _ => True
  | .write a _ => a ∈ st.2

/-- The client starts a collection only when no free block remains and some block is allocated. -/
def StartsEmpty (st : BlockAllocator × List Nat) : Op → Prop
  | .collectGarbage _ => st.1.freeList = none ∧ 0 < st.1.totalCount
  | _ => True

/-- The free list is acyclic and without duplicates, has no live block, and has the length
`freeCount`. -/
def FreeListOk (s : BlockAllocator) (live : List Nat) : Prop :=
  ∃ xs : List Nat, IsList s.read s.freeList (xs.map fun a => (a, ())) ∧ xs.Nodup ∧
    (∀ a ∈ xs, a ∉ live) ∧ s.freeCnt = xs.length

/-! ## The invariant -/

/-- The free list holds blocks that are not live, and as many as the counter says. -/
def Free (s : BlockAllocator) (live : List Nat) : Prop :=
  ∃ xs : List Nat, IsList s.read s.freeList (xs.map fun a => (a, ())) ∧
    (∀ a ∈ xs, s.IsBlock a ∧ a ∉ live) ∧ s.freeCnt = xs.length

/-- The invariant of a run. -/
structure Invariant (s : BlockAllocator) (live : List Nat) : Prop where
  placed : Placed s
  isBlock : ∀ a ∈ live, s.IsBlock a
  free : Free s live

variable {s : BlockAllocator} {live : List Nat}

theorem nodup_of_isList {xs : List Nat} {p : Option Nat}
    (h : IsList s.read p (xs.map fun a => (a, ()))) : xs.Nodup := by
  have hmap : ((xs.map fun a => (a, ())).map Prod.fst) = xs := by simp [Function.comp_def]
  rw [← hmap]
  exact h.nodup

theorem Free.ok (h : Free s live) : FreeListOk s live := by
  obtain ⟨xs, hlist, hxs, hcnt⟩ := h
  exact ⟨xs, hlist, nodup_of_isList hlist, fun a ha => (hxs a ha).2, hcnt⟩

theorem free_of_none (hnone : s.freeList = none) (hcnt : s.freeCnt = 0) : Free s live :=
  ⟨[], hnone, by simp, by simpa using hcnt⟩

theorem Free.eq_zero (h : Free s live) (hnone : s.freeList = none) : s.freeCnt = 0 := by
  obtain ⟨xs, hlist, -, hcnt⟩ := h
  rw [hnone] at hlist
  have hnil := hlist.unique (show IsList _ none [] from rfl)
  simpa [List.map_eq_nil_iff.mp hnil] using hcnt

/-- A block in front of the free list becomes live. -/
theorem popFree_invariant {r : Nat} (h : Invariant s live) (hr : s.freeList = some r) :
    r ∉ live ∧ Invariant (s.popFree r).2 (r :: live) := by
  obtain ⟨xs, hlist, hxs, hcnt⟩ := h.free
  have hnodup := nodup_of_isList hlist
  cases xs with
  | nil =>
    rw [hr] at hlist
    cases hlist
  | cons b xs =>
    obtain ⟨hb, next, hread, hrest⟩ := hlist
    rw [hr] at hb
    obtain rfl := some.inj hb
    obtain rfl : s.mem r = next := (Prod.mk.inj (some.inj hread)).1
    obtain ⟨hnot, -⟩ := nodup_cons.mp hnodup
    have hsame : SameChunks s (s.popFree r).2 := ⟨rfl, rfl, rfl, rfl, rfl⟩
    have hblock : ∀ a, s.IsBlock a → (s.popFree r).2.IsBlock a := fun a ha => ha
    refine ⟨(hxs r (by simp)).2, hsame.placed h.placed, ?_, xs, hrest, ?_, ?_⟩
    · intro a ha
      rcases mem_cons.mp ha with rfl | ha
      · exact hblock a (hxs a (by simp)).1
      · exact hblock a (h.isBlock a ha)
    · intro a ha
      obtain ⟨hblk, hlive⟩ := hxs a (by simp [ha])
      refine ⟨hblock a hblk, ?_⟩
      rw [mem_cons, not_or]
      exact ⟨fun heq => hnot (heq ▸ ha), hlive⟩
    · rw [length_cons] at hcnt
      simp only [popFree]
      omega

/-- A larger allocated part keeps the blocks and has one more. -/
structure Extends (s s' : BlockAllocator) (r : Nat) : Prop where
  placed : Placed s'
  total : s.totalCount < s'.totalCount
  blockAt_eq : ∀ n < s.totalCount, s'.blockAt n = s.blockAt n
  blockAt_new : s'.blockAt s.totalCount = r

theorem Extends.isBlock {s' : BlockAllocator} {r a : Nat} (h : Extends s s' r) (ha : s.IsBlock a) :
    s'.IsBlock a := by
  obtain ⟨n, hn, rfl⟩ := ha
  exact ⟨n, hn.trans h.total, (h.blockAt_eq n hn).symm⟩

theorem Extends.not_isBlock {s' : BlockAllocator} {r : Nat} (h : Extends s s' r) :
    ¬ s.IsBlock r := by
  rintro ⟨n, hn, heq⟩
  have hinj := h.placed.blockAt_inj (hn.trans h.total) h.total
    ((h.blockAt_eq n hn).trans (heq.symm.trans h.blockAt_new.symm))
  omega

/-- A block that was never allocated becomes live, the free list being empty. -/
theorem Extends.invariant {s' : BlockAllocator} {r : Nat} (h : Extends s s' r)
    (hlive : ∀ a ∈ live, s.IsBlock a) (hnone : s'.freeList = none) (hcnt : s'.freeCnt = 0) :
    r ∉ live ∧ Invariant s' (r :: live) := by
  refine ⟨fun hr => h.not_isBlock (hlive r hr), h.placed, ?_, free_of_none hnone hcnt⟩
  intro a ha
  rcases mem_cons.mp ha with rfl | ha
  · exact ⟨_, h.total, h.blockAt_new.symm⟩
  · exact h.isBlock (hlive a ha)

theorem blockAt_of_lt (i : Nat) {r : Nat} (hr : r < s.perChunk) :
    s.blockAt (s.perChunk * i + r) = s.chunks.getD i 0 + r * s.bsize := by
  have hdiv : (s.perChunk * i + r) / s.perChunk = i := by
    rw [Nat.mul_add_div (by omega), Nat.div_eq_of_lt hr, Nat.add_zero]
  rw [blockAt, hdiv, Nat.mul_comm i, Nat.add_sub_cancel_left]

theorem getD_chunkTop (s : BlockAllocator) : s.chunks.getD (s.chunks.length - 1) 0 = s.chunkTop := by
  have hpos := s.length_chunks_pos
  rw [chunkTop, getLast_eq_getElem, getD_eq_getElem?_getD,
    getElem?_eq_getElem (by omega), getD_some]

/-- The next block of the last chunk. -/
theorem extends_top (h : Placed s) (hroom : s.top + s.bsize ≤ s.chunkTop + s.csize) :
    Extends s { s with top := s.top + s.bsize } s.top := by
  obtain ⟨k, hk, htop⟩ := h.top_eq
  have hk' : k + 1 ≤ s.perChunk := by
    rw [perChunk, Nat.le_div_iff_mul_le h.bsize_pos, Nat.add_mul, Nat.one_mul]
    omega
  have htop' : s.top + s.bsize = s.chunkTop + (k + 1) * s.bsize := by
    rw [htop]
    ring
  have hplaced : Placed { s with top := s.top + s.bsize } :=
    ⟨h.bsize_pos, h.bsize_le, h.disjoint, k + 1, hk', htop'⟩
  have htotal := h.totalCount_eq htop
  have htotal' : ({ s with top := s.top + s.bsize } : BlockAllocator).totalCount =
      s.perChunk * (s.chunks.length - 1) + (k + 1) := hplaced.totalCount_eq htop'
  refine ⟨hplaced, by omega, fun _ _ => rfl, ?_⟩
  rw [htotal, htop, ← getD_chunkTop]
  exact blockAt_of_lt _ hk'

/-- The first block of a new chunk. -/
theorem extends_newChunk (h : Placed s) (hroom : ¬ s.top + s.bsize ≤ s.chunkTop + s.csize)
    {chunk : Nat} (hchunk : ∀ c ∈ s.chunks, c + s.csize ≤ chunk ∨ chunk + s.csize ≤ c) :
    Extends s (s.newChunk chunk).2 chunk := by
  obtain ⟨k, hk, htop⟩ := h.top_eq
  have hper := h.perChunk_pos
  have hfull : k = s.perChunk := by
    by_contra hne
    have hmul := Nat.mul_le_mul_right s.bsize (by omega : k + 1 ≤ s.perChunk)
    have hle := Placed.perChunk_mul_le s
    rw [Nat.add_mul, Nat.one_mul] at hmul
    omega
  have htotal : s.totalCount = s.perChunk * s.chunks.length := by
    rw [h.totalCount_eq htop, hfull, ← Nat.mul_succ, Nat.succ_eq_add_one,
      Nat.sub_add_cancel s.length_chunks_pos]
  have hlast : (s.newChunk chunk).2.chunkTop = chunk := by simp [newChunk, chunkTop]
  have htop' : (s.newChunk chunk).2.top =
      (s.newChunk chunk).2.chunkTop + 1 * (s.newChunk chunk).2.bsize := by
    rw [hlast, Nat.one_mul]
    rfl
  have hplaced : Placed (s.newChunk chunk).2 := by
    refine ⟨h.bsize_pos, h.bsize_le, ?_, 1, hper, htop'⟩
    refine pairwise_append.mpr ⟨h.disjoint, pairwise_singleton _ _, ?_⟩
    intro c hc d hd
    rw [mem_singleton.mp hd]
    exact hchunk c hc
  have htotal' : (s.newChunk chunk).2.totalCount = s.perChunk * s.chunks.length + 1 := by
    rw [hplaced.totalCount_eq htop']
    simp [newChunk, perChunk]
  refine ⟨hplaced, by omega, ?_, ?_⟩
  · intro n hn
    have hlt := h.chunk_lt hn
    have hget : (s.chunks ++ [chunk]).getD (n / s.perChunk) 0 =
        s.chunks.getD (n / s.perChunk) 0 := by
      simp [getD_eq_getElem?_getD, getElem?_append_left hlt]
    change (s.chunks ++ [chunk]).getD (n / s.perChunk) 0 + _ = _
    rw [hget]
    rfl
  · have hnew := blockAt_of_lt (s := (s.newChunk chunk).2) s.chunks.length (r := 0) hper
    rw [htotal]
    refine hnew.trans ?_
    simp [newChunk]

/-! ## The calls -/

theorem invariant_of_new {blockSize chunkSize chunk : Nat} {mem : Nat → Option Nat}
    (hnew : new blockSize chunkSize chunk mem = some s) (hfit : s.bsize ≤ s.csize) :
    Invariant s [] := by
  unfold new at hnew
  split_ifs at hnew with hlt
  obtain rfl := some.inj hnew
  refine ⟨⟨?_, hfit, pairwise_singleton _ _, 0, Nat.zero_le _, ?_⟩, by simp, free_of_none rfl rfl⟩
  · exact Nat.lt_of_lt_of_le (by decide) (Nat.le_max_right _ _)
  · simp [chunkTop]

/-- A collection started with an empty free list. -/
theorem collectGarbage_invariant (h : Invariant s live) {marks : List Nat}
    (hmarks : ∀ p ∈ marks, p ∈ live) (hnone : s.freeList = none) (hpos : 0 < s.totalCount) :
    ∃ s', s.collectGarbage marks = some s' ∧ SameChunks s s' ∧ Invariant s' marks := by
  obtain ⟨s', hcollect, hsame, hcnt, hseg⟩ := collectGarbage_spec h.placed hpos
    fun p hp => h.isBlock p (hmarks p hp)
  have hblock : ∀ a, s.IsBlock a → s'.IsBlock a := by
    rintro a ⟨n, hn, rfl⟩
    exact ⟨n, hsame.totalCount_eq ▸ hn, by rw [hsame.blockAt_eq]⟩
  rw [hnone] at hseg
  refine ⟨s', hcollect, hsame, hsame.placed h.placed, ?_, s.freed marks, hseg, ?_, hcnt⟩
  · exact fun a ha => hblock a (h.isBlock a (hmarks a ha))
  · intro a ha
    obtain ⟨hblk, hnot⟩ := mem_freed.mp ha
    exact ⟨hblock a hblk, hnot⟩

/-- A collection gives an acyclic list exactly when it starts with an empty free list. -/
theorem collectGarbage_acyclic_iff (h : Invariant s live) {marks : List Nat}
    (hmarks : ∀ p ∈ marks, p ∈ live) (hpos : 0 < s.totalCount) :
    ∃ s', s.collectGarbage marks = some s' ∧
      ((∃ xs, IsList s'.read s'.freeList xs) ↔ s.freeList = none) := by
  obtain ⟨s', hcollect, -, -, hseg⟩ := collectGarbage_spec h.placed hpos
    fun p hp => h.isBlock p (hmarks p hp)
  refine ⟨s', hcollect, ?_, fun hnone => ⟨_, hnone ▸ hseg⟩⟩
  rintro ⟨xs, hxs⟩
  by_contra hsome
  obtain ⟨r, hr⟩ := ne_none_iff_exists'.mp hsome
  -- the old first block is swept, so the new list comes back to it
  obtain ⟨old, hold, hfree, -⟩ := h.free
  obtain ⟨ys, hys⟩ : ∃ ys, old = r :: ys := by
    rw [hr] at hold
    cases old with
    | nil => cases hold
    | cons b ys =>
      obtain rfl := some.inj hold.1
      exact ⟨ys, rfl⟩
  obtain ⟨hblock, hlive⟩ := hfree r (by simp [hys])
  have hfreed : (r, ()) ∈ (s.freed marks).map fun a => (a, ()) :=
    mem_map_of_mem (mem_freed.mpr ⟨hblock, fun hm => hlive (hmarks r hm)⟩)
  obtain ⟨zs, rfl, hzs⟩ := hxs.append_of_seg hseg
  rw [hr] at hzs
  cases zs with
  | nil => cases hzs
  | cons z zs =>
    obtain ⟨b, u⟩ := z
    obtain rfl := some.inj hzs.1
    have hnodup := hxs.nodup'
    exact (nodup_append.mp hnodup).2.2 _ hfreed _ (by simp) rfl

theorem totalCount_pos_of_full (h : Placed s) (hroom : ¬ s.top + s.bsize ≤ s.chunkTop + s.csize) :
    0 < s.totalCount := by
  obtain ⟨k, hk, htop⟩ := h.top_eq
  have hfit := h.bsize_le
  rw [h.totalCount_eq htop]
  have hk0 : k ≠ 0 := by
    rintro rfl
    omega
  omega

/-- `allocate` succeeds, gives a block that is not live and keeps the invariant. -/
theorem allocate_spec (h : Invariant s live) {chunk : Nat} {marks : List Nat}
    (hop : Contract (s, live) (.allocate chunk marks)) :
    ∃ r s', s.allocate chunk marks = some (r, s') ∧
      r ∉ (if s.collects then marks else live) ∧
      Invariant s' (r :: if s.collects then marks else live) := by
  obtain ⟨hchunk, hmarks⟩ := hop
  cases hfree : s.freeList with
  | some r =>
    have hcollects : s.collects = false := by simp [collects, full, hfree]
    refine ⟨r, (s.popFree r).2, by simp [allocate, hfree, popFree], ?_⟩
    simpa [hcollects] using popFree_invariant h hfree
  | none =>
    by_cases hroom : s.top + s.bsize ≤ s.chunkTop + s.csize
    · have hcollects : s.collects = false := by simp [collects, full, hroom]
      refine ⟨s.top, { s with top := s.top + s.bsize }, by simp [allocate, hfree, hroom], ?_⟩
      simpa [hcollects] using
        (extends_top h.placed hroom).invariant h.isBlock hfree (h.free.eq_zero hfree)
    · by_cases hsync : s.sync
      · -- synchronous: a new chunk
        have hcollects : s.collects = false := by simp [collects, hsync]
        refine ⟨chunk, ({ s with need := true }.newChunk chunk).2,
          by simp [allocate, hfree, hroom, hsync, newChunk], ?_⟩
        have hsame : SameChunks s { s with need := true } := ⟨rfl, rfl, rfl, rfl, rfl⟩
        have hext := extends_newChunk (hsame.placed h.placed) hroom hchunk
        simpa [hcollects] using hext.invariant h.isBlock hfree (h.free.eq_zero hfree)
      · -- asynchronous: a collection, and a new chunk if it frees nothing
        have hcollects : s.collects = true := by simp [collects, full, hfree, hroom, hsync]
        obtain ⟨t, hcollect, hsame, ht⟩ := collectGarbage_invariant h hmarks hfree
          (totalCount_pos_of_full h.placed hroom)
        rw [hcollects, if_pos rfl]
        cases hfreet : t.freeList with
        | some r =>
          refine ⟨r, (t.popFree r).2, ?_, popFree_invariant ht hfreet⟩
          simp [allocate, hfree, hroom, hsync, hcollect, hfreet, popFree]
        | none =>
          refine ⟨chunk, (t.newChunk chunk).2, ?_, ?_⟩
          · simp [allocate, hfree, hroom, hsync, hcollect, hfreet, newChunk]
          · have hroom' : ¬ t.top + t.bsize ≤ t.chunkTop + t.csize := by
              rw [hsame.top, hsame.bsize, hsame.chunkTop_eq, hsame.csize]
              exact hroom
            have hchunk' : ∀ c ∈ t.chunks, c + t.csize ≤ chunk ∨ chunk + t.csize ≤ c := by
              rw [hsame.chunks, hsame.csize]
              exact hchunk
            exact (extends_newChunk ht.placed hroom' hchunk').invariant ht.isBlock hfreet
              (ht.free.eq_zero hfreet)

theorem write_invariant (h : Invariant s live) {a : Nat} (ha : a ∈ live) (v : Option Nat) :
    Invariant (s.write a v) live := by
  have hsame : SameChunks s (s.write a v) := ⟨rfl, rfl, rfl, rfl, rfl⟩
  obtain ⟨xs, hlist, hxs, hcnt⟩ := h.free
  refine ⟨hsame.placed h.placed, h.isBlock, xs, hlist.congr ?_, hxs, hcnt⟩
  intro x hx
  obtain ⟨b, hb, rfl⟩ := mem_map.mp hx
  have hne : b ≠ a := by
    rintro rfl
    exact (hxs b hb).2 ha
  simp [read, write, hne]

/-- A call that meets its contract and starts no collection over a free list keeps the
invariant. -/
theorem step_invariant (h : Invariant s live) {op : Op} (hop : Contract (s, live) op)
    (hempty : StartsEmpty (s, live) op) :
    ∃ st', step (s, live) op = some st' ∧ Invariant st'.1 st'.2 := by
  cases op with
  | allocate chunk marks =>
    obtain ⟨r, s', halloc, -, hinv⟩ := allocate_spec h hop
    exact ⟨(s', _), by simp [step, halloc], hinv⟩
  | collectGarbage marks =>
    obtain ⟨s', hcollect, -, hinv⟩ := collectGarbage_invariant h hop hempty.1 hempty.2
    exact ⟨(s', marks), by simp [step, hcollect], hinv⟩
  | setSync sync =>
    have hplaced : Placed (s.setSync sync) :=
      ⟨h.placed.bsize_pos, h.placed.bsize_le, h.placed.disjoint, h.placed.top_eq⟩
    exact ⟨(s.setSync sync, live), rfl, hplaced, h.isBlock, h.free⟩
  | write a v => exact ⟨(s.write a v, live), rfl, write_invariant h hop v⟩

/-- In every run whose calls meet their contract and start no collection over a free list, the free
list is acyclic, without duplicates nor live blocks and of length `freeCount`, and the next
allocation succeeds with a block that is not live. -/
theorem blockGC_run (blockSize chunkSize chunk : Nat) (mem : Nat → Option Nat)
    (s₀ : BlockAllocator) (ops : List Op)
    (hnew : new blockSize chunkSize chunk mem = some s₀) (hfit : s₀.bsize ≤ s₀.csize)
    (hops : Run.Meets (fun st op => Contract st op ∧ StartsEmpty st op) step (s₀, []) ops) :
    ∃ s live, Run.exec step (s₀, []) ops = some (s, live) ∧ FreeListOk s live ∧
      ∀ chunk marks, Contract (s, live) (.allocate chunk marks) →
        ∃ r s', s.allocate chunk marks = some (r, s') ∧
          r ∉ if s.collects then marks else live := by
  obtain ⟨⟨s, live⟩, hexec, hinv⟩ := Run.exists_exec_of_meets
    (fun st : BlockAllocator × List Nat => Invariant st.1 st.2)
    (fun _ _ hst hop => step_invariant hst hop.1 hop.2) ops _ (invariant_of_new hnew hfit) hops
  refine ⟨s, live, hexec, hinv.free.ok, ?_⟩
  intro chunk marks hop
  obtain ⟨r, s', halloc, hr, -⟩ := allocate_spec hinv hop
  exact ⟨r, s', halloc, hr⟩

/-- Blocks of 8 bytes in chunks of 32: an allocation and a collection. -/
theorem blockGC_run_one :
    ∃ s live, Run.exec step
        (⟨none, 0, false, false, [64], 64, 8, 32, fun _ => none, by simp⟩, [])
        [.allocate 96 [], .collectGarbage []] = some (s, live) ∧ FreeListOk s live ∧
      ∀ chunk marks, Contract (s, live) (.allocate chunk marks) →
        ∃ r s', s.allocate chunk marks = some (r, s') ∧
          r ∉ if s.collects then marks else live := by
  refine blockGC_run 8 32 64 (fun _ => none) _ _ rfl (by decide) ⟨⟨?_, trivial⟩, ?_⟩
  · simp [Contract]
  · intro st hst
    obtain rfl := some.inj hst
    exact ⟨⟨by simp [Contract], rfl, by decide⟩, fun _ _ => trivial⟩

/-- One block allocated and two collections in a row: the block is freed twice. -/
theorem blockGC_two_collections :
    ¬ ∀ (blockSize chunkSize chunk : Nat) (mem : Nat → Option Nat) (s₀ : BlockAllocator)
      (ops : List Op), new blockSize chunkSize chunk mem = some s₀ → s₀.bsize ≤ s₀.csize →
      Run.Meets Contract step (s₀, []) ops →
      ∀ s live, Run.exec step (s₀, []) ops = some (s, live) → FreeListOk s live := by
  intro h
  have hrun : ∃ s live, Run.exec step
      (⟨none, 0, false, false, [64], 64, 8, 32, fun _ => none, by simp⟩, [])
      [.allocate 96 [], .collectGarbage [], .collectGarbage []] = some (s, live) ∧
      s.freeList = some 64 ∧ s.mem 64 = some 64 :=
    ⟨_, _, rfl, rfl, rfl⟩
  obtain ⟨s, live, hexec, hfree, hmem⟩ := hrun
  have hcontract : Run.Meets Contract step
      (⟨none, 0, false, false, [64], 64, 8, 32, fun _ => none, by simp⟩, [])
      [.allocate 96 [], .collectGarbage [], .collectGarbage []] :=
    ⟨by simp [Contract], fun _ _ => ⟨by simp [Contract], fun _ _ =>
      ⟨by simp [Contract], fun _ _ => trivial⟩⟩⟩
  obtain ⟨xs, hlist, hnodup, -⟩ := h 8 32 64 (fun _ => none) _ _ rfl (by decide) hcontract s live hexec
  rw [hfree] at hlist
  cases xs with
  | nil => cases hlist
  | cons a xs =>
    have hall := hlist
    obtain ⟨ha, next, hread, hrest⟩ := hlist
    obtain rfl := some.inj ha
    obtain rfl : s.mem 64 = next := (Prod.mk.inj (some.inj hread)).1
    rw [hmem] at hrest
    have hlen := congrArg List.length (hall.unique hrest)
    simp at hlen

end Elm.Alloc.BlockAllocator
