import Elm.Alloc.SimpleGCSweep

/-!
# Runs of `SimpleGC`

The client owns live blocks, given by their address and size.  It allocates blocks, abandons some of
them, writes in those it keeps and marks exactly these when a collection starts.  The free blocks are
made of whole cells that no live block covers, which the collections and the allocations keep.
-/

namespace Elm.Alloc.SimpleGC

open Chain Runs Function List Option

/-- The live blocks lie in the chunks and do not overlap. -/
structure LiveOk (s : SimpleGC) (live : List (Nat × Nat)) : Prop where
  inChunk : ∀ b ∈ live, 0 < b.2 → InChunk s b.1 b.2
  apart : live.Pairwise fun b c => Apart b.1 b.2 c.1 c.2

/-- A free block is made of cells of a chunk that no live block covers. -/
structure IsFree (s : SimpleGC) (live : List (Nat × Nat)) (x : Nat × Nat) : Prop where
  pos : 0 < x.2
  dvd : sizeofBlock ∣ x.2
  inChunk : InChunk s x.1 x.2
  apart : ∀ b ∈ live, Apart x.1 x.2 b.1 b.2

/-- The free list is made of free blocks that do not overlap. -/
def FreeOk (s : SimpleGC) (live : List (Nat × Nat)) : Prop :=
  ∃ xs, IsList s.read s.freeList xs ∧ (∀ x ∈ xs, IsFree s live x) ∧
    xs.Pairwise fun x y => Apart x.1 x.2 y.1 y.2

/-- What every call keeps. -/
structure Invariant (s : SimpleGC) (live : List (Nat × Nat)) : Prop where
  chunksOk : Chunks s
  liveOk : LiveOk s live
  freeOk : FreeOk s live

variable {s t : SimpleGC} {live : List (Nat × Nat)}

theorem SameChunks.inChunk (h : SameChunks s t) {a n : Nat} (hin : InChunk s a n) :
    InChunk t a n := by
  obtain ⟨c, hc, p, ha, hend⟩ := hin
  exact ⟨c, h.chunks ▸ hc, p, ha, h.csize ▸ hend⟩

theorem SameChunks.chunksOk (h : SameChunks s t) (hs : Chunks s) : Chunks t := by
  refine ⟨?_, ?_, ?_⟩
  · rw [h.csize, h.cells, hs.csize_eq]
  · intro c hc
    rw [h.cells]
    exact hs.pos c (h.chunks ▸ hc)
  · rw [h.chunks, h.csize]
    exact hs.disjoint

theorem SameChunks.liveOk (h : SameChunks s t) (hs : LiveOk s live) : LiveOk t live :=
  ⟨fun b hb hpos => h.inChunk (hs.inChunk b hb hpos), hs.apart⟩

theorem SameChunks.isFree (h : SameChunks s t) {x : Nat × Nat} (hx : IsFree s live x) :
    IsFree t live x :=
  ⟨hx.pos, hx.dvd, h.inChunk hx.inChunk, hx.apart⟩

/-! ## After a collection -/

/-- A free run is made of whole cells of a chunk. -/
theorem IsFreeRun.inChunk {marks : List (Nat × Nat)} {x : Nat × Nat} (h : Chunks s)
    (hx : IsFreeRun s marks s.chunks x) : 0 < x.2 ∧ sizeofBlock ∣ x.2 ∧ InChunk s x.1 x.2 := by
  obtain ⟨c, hc, b, e, hrun, rfl⟩ := hx
  have hlt := hrun.lt
  have hle := hrun.le
  have hcsize := h.csize_eq
  refine ⟨?_, Nat.dvd_mul_left _ _, c, hc, b, rfl, ?_⟩
  · simp only [sizeofBlock]
    omega
  · simp only [sizeofBlock] at hcsize ⊢
    omega

/-- A marked block covers no cell of a free run. -/
theorem IsFreeRun.apart {marks : List (Nat × Nat)} {x b : Nat × Nat} (h : Chunks s)
    (hx : IsFreeRun s marks s.chunks x) (hb : b ∈ marks) (hin : 0 < b.2 → InChunk s b.1 b.2) :
    Apart x.1 x.2 b.1 b.2 := by
  obtain ⟨a, n⟩ := b
  rcases Nat.eq_zero_or_pos n with rfl | hn
  · exact Or.inr (Or.inl rfl)
  obtain ⟨c, hc, i, e, hrun, rfl⟩ := hx
  obtain ⟨d, hd, p, ha, hend⟩ := hin hn
  simp only at ha hend
  have hlt := hrun.lt
  have hle := hrun.le
  have hcsize := h.csize_eq
  by_contra hmeet
  -- a byte in common is in a cell of the run that starts in the marked block
  obtain ⟨y, ⟨hy, hye⟩, hya, hyn⟩ : ∃ y, (c + i * sizeofBlock ≤ y ∧
      y < c + i * sizeofBlock + (e - i) * sizeofBlock) ∧ a ≤ y ∧ y < a + n := by
    by_contra hnone
    exact hmeet (apart_iff.mpr fun y hy => hnone ⟨y, hy⟩)
  simp only [sizeofBlock] at *
  obtain rfl : c = d := h.eq_of_mem (x := y) hc hd ⟨by omega, by omega⟩ ⟨by omega, by omega⟩
  have hunmarked := hrun.inside ((y - c) / 16) (by omega) (by omega)
  exact hunmarked ⟨(a, n), hb, by simp only [sizeofBlock]; omega, by simp only [sizeofBlock]; omega⟩

/-- Two free runs do not overlap. -/
theorem IsFreeRun.apart_of_ne {marks : List (Nat × Nat)} {x y : Nat × Nat} (h : Chunks s)
    (hx : IsFreeRun s marks s.chunks x) (hy : IsFreeRun s marks s.chunks y) (hne : x ≠ y) :
    Apart x.1 x.2 y.1 y.2 := by
  obtain ⟨c, hc, b, e, hrun, rfl⟩ := hx
  obtain ⟨d, hd, b', e', hrun', rfl⟩ := hy
  have hlt := hrun.lt
  have hlt' := hrun'.lt
  have hle := hrun.le
  have hle' := hrun'.le
  have hcsize := h.csize_eq
  unfold Apart
  simp only [sizeofBlock] at *
  by_cases hcd : c = d
  · subst hcd
    rcases hrun.eq_or_disjoint hrun' with ⟨rfl, rfl⟩ | hdisj
    · exact absurd rfl hne
    · omega
  · have hdisj := h.disjoint_of_mem hc hd hcd
    omega

/-- A collection in which exactly the live blocks are marked. -/
theorem invariant_of_swept {marks : List (Nat × Nat)} (hchunks : Chunks s) (hlive : LiveOk s live)
    (hmarks : ∀ b, b ∈ marks ↔ b ∈ live) (hswept : Swept s marks) : Invariant s live := by
  obtain ⟨xs, hlist, hxs⟩ := hswept
  refine ⟨hchunks, hlive, xs, hlist, ?_, ?_⟩
  · intro x hx
    have hrun := (hxs x).mp hx
    obtain ⟨hpos, hdvd, hin⟩ := hrun.inChunk hchunks
    exact ⟨hpos, hdvd, hin, fun b hb =>
      hrun.apart hchunks ((hmarks b).mpr hb) (hlive.inChunk b hb)⟩
  · exact hlist.nodup'.pairwise_of_forall_ne fun x hx y hy hne =>
      ((hxs x).mp hx).apart_of_ne hchunks ((hxs y).mp hy) hne

theorem doGC_invariant (hchunks : Chunks s) (hlive : LiveOk s live) {marks : List (Nat × Nat)}
    (hmarks : ∀ b, b ∈ marks ↔ b ∈ live) :
    ((∀ b ∈ live, 0 < b.2) → (s.doGC marks).isSome) ∧
      ∀ t, s.doGC marks = some t → SameChunks s t ∧ Swept t marks ∧ Invariant t live := by
  obtain ⟨hsome, hgc⟩ := doGC_spec hchunks fun b hb => hlive.inChunk b ((hmarks b).mp hb)
  refine ⟨fun hpos => hsome fun b hb => hpos b ((hmarks b).mp hb), fun t ht => ?_⟩
  obtain ⟨hsame, hswept⟩ := hgc t ht
  exact ⟨hsame, hswept,
    invariant_of_swept (hsame.chunksOk hchunks) (hsame.liveOk hlive) hmarks hswept⟩

/-! ## First fit -/

/-- The addresses of all cells. -/
def addresses (s : SimpleGC) : List Nat :=
  s.chunks.flatMap fun c => (List.range s.cells).map fun p => c + p * sizeofBlock

theorem length_addresses (s : SimpleGC) : s.addresses.length = s.chunks.length * s.cells := by
  simp [addresses, length_flatMap]

/-- There are at most as many free blocks as cells. -/
theorem length_le_cells (hchunks : Chunks s) {xs : List (Nat × Nat)}
    (hlist : IsList s.read s.freeList xs) (hxs : ∀ x ∈ xs, IsFree s live x) :
    xs.length ≤ s.chunks.length * s.cells := by
  have hsub : xs.map Prod.fst ⊆ s.addresses := by
    intro a ha
    obtain ⟨x, hx, rfl⟩ := List.mem_map.mp ha
    obtain ⟨c, hc, p, hp, hend⟩ := (hxs x hx).inChunk
    have hpos := (hxs x hx).pos
    have hcsize := hchunks.csize_eq
    have hlt : p < s.cells := by
      simp only [sizeofBlock] at hp hcsize
      omega
    exact mem_flatMap.mpr ⟨c, hc, List.mem_map.mpr ⟨p, mem_range.mpr hlt, hp.symm⟩⟩
  have hle := (hlist.nodup.subperm hsub).length_le
  rw [length_map, length_addresses] at hle
  exact hle

/-- The block `a` behind the blocks `us` is unlinked. -/
theorem setPrev_unlink {us vs : List (Nat × Nat)} {a n : Nat} {next : Option Nat}
    (hlist : IsList s.read s.freeList (us ++ (a, n) :: vs)) (hcell : s.mem a = (next, n)) :
    IsList (s.setPrev (us.getLast?.map Prod.fst) next).read
      (s.setPrev (us.getLast?.map Prod.fst) next).freeList (us ++ vs) := by
  have hread : s.read a = some (next, n) := by rw [read, hcell]
  rcases eq_nil_or_concat us with rfl | ⟨us, ⟨b, w⟩, rfl⟩
  · exact (hlist.next_of_append hread).2
  · have hmid : IsList s.read s.freeList (us ++ (b, w) :: (a, n) :: vs) := by simpa using hlist
    have hb : (s.mem b).2 = w := by
      obtain ⟨next', hread'⟩ := Seg.read_of_mem hmid (a := b) (v := w) (by simp)
      rw [some.inj hread']
    have hread' : (s.setPrev (some b) next).read = update s.read b (some (next, w)) := by
      funext x
      by_cases hx : x = b
      · subst hx
        simp [read, setPrev, hb]
      · simp [read, setPrev, hx]
    have hunlink := hmid.unlink hread
    rw [← hread'] at hunlink
    have hfree : (s.setPrev (some b) next).freeList = s.freeList := rfl
    simpa [hfree] using hunlink

/-- The free list after `k` bytes are taken from its block of `n` bytes at `a`. -/
def remainder (us : List (Nat × Nat)) (a n k : Nat) (vs : List (Nat × Nat)) : List (Nat × Nat) :=
  if n - k = 0 then us ++ vs else us ++ (a, n - k) :: vs

/-- The result of `allocFromFreeList`: the end of the first block that is large enough. -/
def Allocated (s : SimpleGC) (xs : List (Nat × Nat)) (k : Nat) (r : Option Nat × SimpleGC) : Prop :=
  (r = (none, s) ∧ ∀ x ∈ xs, x.2 < k) ∨
    ∃ us a n vs, xs = us ++ (a, n) :: vs ∧ k ≤ n ∧ r.1 = some (a + n - k) ∧ SameChunks s r.2 ∧
      IsList r.2.read r.2.freeList (remainder us a n k vs)

theorem allocTurn_spec {xs us ys : List (Nat × Nat)} {x : Nat × Nat} {p : Option Nat} {k : Nat}
    (hxs : xs = us ++ x :: ys) (hlist : IsList s.read s.freeList xs)
    (hrest : IsList s.read p (x :: ys)) :
    (x.2 < k ∧ ∃ q, allocTurn s k (p, us.getLast?.map Prod.fst) = .inl (q, some x.1) ∧
        IsList s.read q ys) ∨
      ∃ r, allocTurn s k (p, us.getLast?.map Prod.fst) = .inr r ∧ Allocated s xs k r := by
  obtain ⟨a, n⟩ := x
  obtain ⟨rfl, next, hread, hys⟩ := hrest
  have hcell : s.mem a = (next, n) := some.inj hread
  by_cases hfit : k ≤ n
  · right
    subst hxs
    have hnot : a ∉ ys.map Prod.fst := by
      have hnodup := hlist.nodup
      rw [map_append, map_cons, nodup_middle, nodup_cons] at hnodup
      exact fun hmem => hnodup.1 (mem_append_right _ hmem)
    -- the block keeps what is not taken
    have hshrunk := hlist.splice hys hnot (n - k)
    have hread' : ({ s with mem := update s.mem a (next, n - k) } : SimpleGC).read =
        update s.read a (some (next, n - k)) := by
      funext y
      by_cases hy : y = a
      · subst hy
        simp [read]
      · simp [read, hy]
    rw [← hread'] at hshrunk
    refine ⟨_, by simp only [allocTurn, hcell, if_pos hfit]; rfl, Or.inr ⟨us, a, n, ys, rfl, hfit, rfl,
      ?_, ?_⟩⟩
    · split_ifs
      · cases us.getLast?.map Prod.fst <;> exact ⟨rfl, rfl⟩
      · exact ⟨rfl, rfl⟩
    · unfold remainder
      split_ifs with hzero
      · exact setPrev_unlink hshrunk (by simp)
      · exact hshrunk
  · left
    refine ⟨by simp only; omega, next, ?_, hys⟩
    simp only [allocTurn, hcell, if_neg hfit]

theorem allocFromFreeList_spec {xs : List (Nat × Nat)} (hlist : IsList s.read s.freeList xs)
    (hlen : xs.length ≤ s.chunks.length * s.cells) (k : Nat) :
    ∃ r, s.allocFromFreeList k = some r ∧ Allocated s xs k r := by
  refine Loop.exists_run_of_list (allocTurn s k)
    (fun ys st => IsList s.read st.1 ys ∧ ∃ us, xs = us ++ ys ∧ (∀ x ∈ us, x.2 < k) ∧
      st.2 = us.getLast?.map Prod.fst)
    (Allocated s xs k) ?_ ?_ ⟨hlist, [], rfl, by simp, rfl⟩ (by omega)
  · rintro x ys ⟨p, prev⟩ ⟨hrest, us, hxs, hsmall, hprev⟩
    simp only at hrest hprev
    subst hprev
    rcases allocTurn_spec (k := k) hxs hlist hrest with ⟨hlt, q, hturn, hys⟩ | ⟨r, hturn, hr⟩
    · refine Or.inl ⟨(q, some x.1), hturn, hys, us ++ [x], by simp [hxs], ?_, by simp⟩
      intro y hy
      rcases mem_append.mp hy with hy | hy
      · exact hsmall y hy
      · rw [mem_singleton.mp hy]
        exact hlt
    · exact Or.inr ⟨r, hturn, hr⟩
  · rintro ⟨p, prev⟩ ⟨hnull, us, hxs, hsmall, -⟩
    obtain rfl : p = none := hnull
    refine ⟨(none, s), rfl, Or.inl ⟨rfl, ?_⟩⟩
    rw [hxs, append_nil]
    exact hsmall

/-! ## Allocations -/

theorem round_le_csize (hchunks : Chunks s) {size : Nat} (hsize : size < s.csize) :
    round size ≤ s.csize := by
  have hcsize := hchunks.csize_eq
  rw [round_eq]
  simp only [sizeofBlock] at hcsize
  omega

/-- A block taken at the end of a free block is apart from the live blocks, and what remains is still
free. -/
theorem isFree_of_taken {a n size : Nat} (hx : IsFree s live (a, n)) (hfit : round size ≤ n) :
    (0 < size → InChunk s (a + n - round size) size) ∧
      (∀ b ∈ live, Apart (a + n - round size) (round size) b.1 b.2) ∧
      (n - round size ≠ 0 → IsFree s ((a + n - round size, size) :: live) (a, n - round size)) := by
  obtain ⟨q, hq⟩ := hx.dvd
  obtain ⟨c, hc, p, hp, hend⟩ := hx.inChunk
  have hle := le_round size
  have hround := round_eq size
  simp only [sizeofBlock] at hq hp hend
  refine ⟨fun hpos => ⟨c, hc, p + (n - round size) / 16, ?_, by omega⟩, ?_, fun hne => ⟨?_, ?_, ?_, ?_⟩⟩
  · simp only [sizeofBlock]
    omega
  · exact fun b hb => (hx.apart b hb).mono (by omega) (by simp only; omega)
  · simp only
    omega
  · exact ⟨q - (size + 15) / 16, by simp only [sizeofBlock]; omega⟩
  · exact ⟨c, hc, p, by simp only [sizeofBlock]; omega, by simp only; omega⟩
  · intro b hb
    rcases mem_cons.mp hb with rfl | hb
    · unfold Apart
      simp only
      omega
    · exact (hx.apart b hb).mono le_rfl (by simp only; omega)

/-- A free block that is not the one taken stays free. -/
theorem IsFree.cons {x y : Nat × Nat} {size : Nat} (hy : IsFree s live y)
    (hapart : Apart x.1 x.2 y.1 y.2) (hfit : round size ≤ x.2) :
    IsFree s ((x.1 + x.2 - round size, size) :: live) y := by
  refine ⟨hy.pos, hy.dvd, hy.inChunk, fun b hb => ?_⟩
  rcases mem_cons.mp hb with rfl | hb
  · have hle := le_round size
    exact (hapart.mono (by omega) (by omega)).symm
  · exact hy.apart b hb

/-- The state after a successful allocation. -/
theorem invariant_of_allocated (h : Invariant s live) {us vs : List (Nat × Nat)} {a n size : Nat}
    (hxs : ∀ x ∈ us ++ (a, n) :: vs, IsFree s live x)
    (hapart : (us ++ (a, n) :: vs).Pairwise fun x y => Apart x.1 x.2 y.1 y.2)
    (hfit : round size ≤ n) (hsame : SameChunks s t)
    (hlist : IsList t.read t.freeList (remainder us a n (round size) vs)) :
    Invariant t ((a + n - round size, size) :: live) := by
  obtain ⟨hin, hnew, hrest⟩ := isFree_of_taken (hxs (a, n) (by simp)) hfit
  rw [pairwise_append, pairwise_cons] at hapart
  obtain ⟨hus, ⟨hvs, hvvs⟩, huvs⟩ := hapart
  have hothers : ∀ y ∈ us ++ vs, IsFree t ((a + n - round size, size) :: live) y := by
    intro y hy
    rcases mem_append.mp hy with hu | hv
    · exact hsame.isFree ((hxs y (by simp [hu])).cons (x := (a, n))
        (huvs y hu (a, n) (by simp)).symm hfit)
    · exact hsame.isFree ((hxs y (by simp [hv])).cons (x := (a, n)) (hvs y hv) hfit)
  refine ⟨hsame.chunksOk h.chunksOk, hsame.liveOk ⟨?_, ?_⟩, _, hlist, ?_, ?_⟩
  · intro b hb hpos
    rcases mem_cons.mp hb with rfl | hb
    · exact hin hpos
    · exact h.liveOk.inChunk b hb hpos
  · refine pairwise_cons.mpr ⟨fun b hb => ?_, h.liveOk.apart⟩
    exact (hnew b hb).mono le_rfl (by have hle := le_round size; omega)
  · intro y hy
    unfold remainder at hy
    split_ifs at hy with hzero
    · exact hothers y hy
    · rcases mem_append.mp hy with hu | hv
      · exact hothers y (mem_append_left _ hu)
      · rcases mem_cons.mp hv with rfl | hv
        · exact hsame.isFree (hrest hzero)
        · exact hothers y (mem_append_right _ hv)
  · unfold remainder
    split_ifs
    · exact pairwise_append.mpr ⟨hus, hvvs, fun u hu v hv => huvs u hu v (by simp [hv])⟩
    · -- the remainder is a part of the block it comes from
      refine pairwise_append.mpr ⟨hus, pairwise_cons.mpr ⟨fun v hv => ?_, hvvs⟩, ?_⟩
      · exact (hvs v hv).mono le_rfl (by simp only; omega)
      · intro u hu v hv
        rcases mem_cons.mp hv with rfl | hv
        · exact ((huvs u hu (a, n) (by simp)).symm.mono le_rfl (by simp only; omega)).symm
        · exact huvs u hu v (by simp [hv])

/-- `allocFromFreeList` leaves the heap as it is or gives a block apart from the live ones. -/
theorem allocFromFreeList_invariant (h : Invariant s live) (size : Nat) :
    ∃ r, s.allocFromFreeList (round size) = some r ∧
      ((r = (none, s) ∧ ∀ xs, IsList s.read s.freeList xs → ∀ x ∈ xs, x.2 < round size) ∨
        ∃ a, r.1 = some a ∧ SameChunks s r.2 ∧ (∀ b ∈ live, Apart a (round size) b.1 b.2) ∧
          Invariant r.2 ((a, size) :: live)) := by
  obtain ⟨xs, hlist, hfree, hapart⟩ := h.freeOk
  obtain ⟨r, halloc, hr⟩ := allocFromFreeList_spec hlist (length_le_cells h.chunksOk hlist hfree)
    (round size)
  refine ⟨r, halloc, ?_⟩
  rcases hr with ⟨hnone, hsmall⟩ | ⟨us, a, n, vs, rfl, hfit, hres, hsame, hlist'⟩
  · exact Or.inl ⟨hnone, fun ys hys => hys.unique hlist ▸ hsmall⟩
  · obtain ⟨-, hnew, -⟩ := isFree_of_taken (hfree (a, n) (by simp)) hfit
    exact Or.inr ⟨_, hres, hsame, hnew, invariant_of_allocated h hfree hapart hfit hsame hlist'⟩

/-- A new chunk is one more free block, put first. -/
theorem newChunk_invariant (h : Invariant s live) {c : Nat} (hpos : 0 < s.csize)
    (hc : ∀ d ∈ s.chunks, d + s.csize ≤ c ∨ c + s.csize ≤ d) :
    Invariant (s.newChunk c) live ∧
      ∃ xs, IsList (s.newChunk c).read (s.newChunk c).freeList ((c, s.csize) :: xs) := by
  have hcsize := h.chunksOk.csize_eq
  obtain ⟨xs, hlist, hfree, hapart⟩ := h.freeOk
  have hgrow : ∀ {a n : Nat}, InChunk s a n → InChunk (s.newChunk c) a n := by
    rintro a n ⟨d, hd, p, ha, hend⟩
    exact ⟨d, mem_cons_of_mem _ hd, p, ha, hend⟩
  -- what lies in the older chunks is apart from the new one
  have hout : ∀ {a n : Nat}, InChunk s a n → Apart c s.csize a n := by
    rintro a n ⟨d, hd, p, ha, hend⟩
    have hdisj := hc d hd
    unfold Apart
    omega
  have hnot : c ∉ xs.map Prod.fst := by
    intro hmem
    obtain ⟨x, hx, hxc⟩ := List.mem_map.mp hmem
    have hx0 := (hfree x hx).pos
    have hsep := hout (hfree x hx).inChunk
    unfold Apart at hsep
    omega
  have hread : (s.newChunk c).read = update s.read c (some (s.freeList, s.csize)) := by
    funext y
    by_cases hy : y = c
    · subst hy
      simp [read, newChunk]
    · simp [read, newChunk, hy]
  have hpush : IsList (s.newChunk c).read (s.newChunk c).freeList ((c, s.csize) :: xs) := by
    rw [hread]
    exact hlist.push hnot s.csize
  refine ⟨⟨⟨hcsize, ?_, ?_⟩, ⟨?_, h.liveOk.apart⟩, _, hpush, ?_, ?_⟩, xs, hpush⟩
  · intro d _
    change 0 < s.cells
    simp only [sizeofBlock] at hcsize
    omega
  · exact pairwise_cons.mpr ⟨fun d hd => (hc d hd).symm, h.chunksOk.disjoint⟩
  · exact fun b hb hb0 => hgrow (h.liveOk.inChunk b hb hb0)
  · intro x hx
    rcases mem_cons.mp hx with rfl | hx
    · refine ⟨hpos, ⟨s.cells, by rw [hcsize, Nat.mul_comm]⟩, ⟨c, by simp [newChunk], 0, by simp,
        le_rfl⟩, fun b hb => ?_⟩
      rcases Nat.eq_zero_or_pos b.2 with hb0 | hb0
      · exact Or.inr (Or.inl hb0)
      · exact hout (h.liveOk.inChunk b hb hb0)
    · exact ⟨(hfree x hx).pos, (hfree x hx).dvd, hgrow (hfree x hx).inChunk, (hfree x hx).apart⟩
  · exact pairwise_cons.mpr ⟨fun x hx => hout (hfree x hx).inChunk, hapart⟩

/-- `allocate` gives a block apart from the live ones; it succeeds when these are not empty. -/
theorem allocate_spec (h : Invariant s live) {size c : Nat} {marks : List (Nat × Nat)}
    (hsize : size < s.csize) (hmarks : ∀ b, b ∈ marks ↔ b ∈ live)
    (hc : ∀ d ∈ s.chunks, d + s.csize ≤ c ∨ c + s.csize ≤ d) :
    ((∀ b ∈ live, 0 < b.2) → (s.allocate size marks c).isSome) ∧
      ∀ r, s.allocate size marks c = some r →
        ∃ a, r.1 = some a ∧ (∀ b ∈ live, Apart a (round size) b.1 b.2) ∧
          Invariant r.2 ((a, size) :: live) := by
  obtain ⟨⟨res, s₁⟩, halloc, ⟨hnone, -⟩ | ⟨a, hres, -, hapart, hinv⟩⟩ :=
    allocFromFreeList_invariant h size
  · -- no free block is large enough: a collection
    obtain ⟨rfl, rfl⟩ := Prod.mk.inj hnone
    obtain ⟨hsome, hgc⟩ := doGC_invariant h.chunksOk h.liveOk hmarks
    cases hcollect : s₁.doGC marks with
    | none =>
      rw [hcollect] at hsome
      have hfail : s₁.allocate size marks c = none := by
        simp only [allocate, if_pos hsize, halloc, hcollect]
      rw [hfail]
      exact ⟨fun hpos => by simpa using hsome hpos, fun r hr => by cases hr⟩
    | some s₂ =>
      obtain ⟨hsame, -, hinv₂⟩ := hgc s₂ hcollect
      obtain ⟨⟨res₂, s₃⟩, halloc₂, ⟨hnone₂, -⟩ | ⟨a, hres, -, hapart, hinv⟩⟩ :=
        allocFromFreeList_invariant hinv₂ size
      · -- nor after it: a new chunk, whose block is large enough
        obtain ⟨rfl, rfl⟩ := Prod.mk.inj hnone₂
        have hpos : 0 < s₃.csize := by
          rw [hsame.csize]
          omega
        obtain ⟨hinv₄, xs, hlist⟩ := newChunk_invariant (c := c) hinv₂ hpos
          (by rw [hsame.csize, hsame.chunks]; exact hc)
        obtain ⟨⟨res₅, s₅⟩, halloc₅, ⟨-, hsmall⟩ | ⟨a, hres, -, hapart, hinv⟩⟩ :=
          allocFromFreeList_invariant hinv₄ size
        · have hlt := hsmall _ hlist (c, s₃.csize) (by simp)
          have hle := round_le_csize h.chunksOk hsize
          rw [← hsame.csize] at hle
          simp only at hlt
          omega
        · have hrun : s₁.allocate size marks c = some (res₅, s₅) := by
            simp only [allocate, if_pos hsize, halloc, hcollect, halloc₂, halloc₅]
          rw [hrun]
          refine ⟨fun _ => rfl, fun r hr => ?_⟩
          obtain rfl := some.inj hr
          exact ⟨a, hres, hapart, hinv⟩
      · obtain rfl : res₂ = some a := hres
        have hrun : s₁.allocate size marks c = some (some a, s₃) := by
          simp only [allocate, if_pos hsize, halloc, hcollect, halloc₂]
        rw [hrun]
        refine ⟨fun _ => rfl, fun r hr => ?_⟩
        obtain rfl := some.inj hr
        exact ⟨a, rfl, hapart, hinv⟩
  · obtain rfl : res = some a := hres
    have hrun : s.allocate size marks c = some (some a, s₁) := by
      simp only [allocate, if_pos hsize, halloc]
    rw [hrun]
    refine ⟨fun _ => rfl, fun r hr => ?_⟩
    obtain rfl := some.inj hr
    exact ⟨a, rfl, hapart, hinv⟩

/-- A live block covers no cell where a free block starts. -/
theorem write_invariant (h : Invariant s live) {a : Nat} (ha : Covered live a)
    (cell : Option Nat × Nat) : Invariant (s.write a cell) live := by
  have hsame : SameChunks s (s.write a cell) := ⟨rfl, rfl⟩
  obtain ⟨xs, hlist, hfree, hapart⟩ := h.freeOk
  refine ⟨hsame.chunksOk h.chunksOk, hsame.liveOk h.liveOk, xs, hlist.congr ?_,
    fun x hx => hsame.isFree (hfree x hx), hapart⟩
  intro x hx
  obtain ⟨b, hb, hlow, hhigh⟩ := ha
  have hpos := (hfree x hx).pos
  have hsep := (hfree x hx).apart b hb
  have hne : x.1 ≠ a := by
    unfold Apart at hsep
    omega
  simp only [read, write, update_of_ne hne]

/-! ## Runs -/

/-- The calls of the client. -/
inductive Op
  /-- `allocate`; a collection would mark `marks` and a new chunk would be at `c`. -/
  | allocate (size : Nat) (marks : List (Nat × Nat)) (c : Nat)
  /-- `doGC`, during which the client marks `marks`. -/
  | doGC (marks : List (Nat × Nat))
  /-- Keep the blocks of `kept` only. -/
  | abandon (kept : List (Nat × Nat))
  /-- Write the cell at `a`. -/
  | write (a : Nat) (cell : Option Nat × Nat)

/-- A call on a heap and the list of the live blocks. -/
def step (st : SimpleGC × List (Nat × Nat)) : Op → Option (SimpleGC × List (Nat × Nat))
  | .allocate size marks c =>
    (st.1.allocate size marks c).map fun r =>
      match r.1 with
      | some a => (r.2, (a, size) :: st.2)
      | none => (r.2, st.2)
  | .doGC marks => (st.1.doGC marks).map fun s => (s, st.2)
  | .abandon kept => some (st.1, kept)
  | .write a cell => some (st.1.write a cell, st.2)

/-- What the client and the system ensure: a block is smaller than a chunk, a collection marks exactly
the live blocks with their sizes, a new chunk is apart from the others, and the client writes in its
live blocks only. -/
def Contract (st : SimpleGC × List (Nat × Nat)) : Op → Prop
  | .allocate size marks c =>
    size < st.1.csize ∧ (∀ b, b ∈ marks ↔ b ∈ st.2) ∧
      ∀ d ∈ st.1.chunks, d + st.1.csize ≤ c ∨ c + st.1.csize ≤ d
  | .doGC marks => ∀ b, b ∈ marks ↔ b ∈ st.2
  | .abandon kept => kept.Sublist st.2
  | .write a _ => Covered st.2 a

/-- The call does not allocate an empty block. -/
def Op.NotEmpty : Op → Prop
  | .allocate size _ _ => 0 < size
  | _ => True

theorem step_invariant (h : Invariant s live) {op : Op} (hop : Contract (s, live) op)
    {st : SimpleGC × List (Nat × Nat)} (hst : step (s, live) op = some st) :
    Invariant st.1 st.2 := by
  cases op with
  | allocate size marks c =>
    obtain ⟨r, halloc, rfl⟩ := map_eq_some_iff.mp hst
    obtain ⟨a, hres, -, hinv⟩ := (allocate_spec h hop.1 hop.2.1 hop.2.2).2 r halloc
    simpa only [hres] using hinv
  | doGC marks =>
    obtain ⟨t, hgc, rfl⟩ := map_eq_some_iff.mp hst
    exact ((doGC_invariant h.chunksOk h.liveOk hop).2 t hgc).2.2
  | abandon kept =>
    obtain rfl := some.inj hst
    have hsub : kept.Sublist live := hop
    obtain ⟨xs, hlist, hfree, hapart⟩ := h.freeOk
    refine ⟨h.chunksOk, ⟨fun b hb => h.liveOk.inChunk b (hsub.subset hb), h.liveOk.apart.sublist hsub⟩,
      xs, hlist, fun x hx => ?_, hapart⟩
    obtain ⟨hpos, hdvd, hin, hsep⟩ := hfree x hx
    exact ⟨hpos, hdvd, hin, fun b hb => hsep b (hsub.subset hb)⟩
  | write a cell =>
    obtain rfl := some.inj hst
    exact write_invariant h hop cell

/-- Without empty blocks no call fails. -/
theorem step_succeeds (h : Invariant s live) (hpos : ∀ b ∈ live, 0 < b.2) {op : Op}
    (hop : Contract (s, live) op) (hne : op.NotEmpty) :
    ∃ st, step (s, live) op = some st ∧ Invariant st.1 st.2 ∧ ∀ b ∈ st.2, 0 < b.2 := by
  cases op with
  | allocate size marks c =>
    obtain ⟨hsome, hall⟩ := allocate_spec h hop.1 hop.2.1 hop.2.2
    obtain ⟨r, halloc⟩ := isSome_iff_exists.mp (hsome hpos)
    obtain ⟨a, hres, -, hinv⟩ := hall r halloc
    refine ⟨(r.2, (a, size) :: live), by simp [step, halloc, hres], hinv, fun b hb => ?_⟩
    rcases mem_cons.mp hb with rfl | hb
    · exact hne
    · exact hpos b hb
  | doGC marks =>
    obtain ⟨hsome, hall⟩ := doGC_invariant h.chunksOk h.liveOk hop
    obtain ⟨t, hgc⟩ := isSome_iff_exists.mp (hsome hpos)
    exact ⟨(t, live), by simp [step, hgc], (hall t hgc).2.2, hpos⟩
  | abandon kept =>
    have hsub : kept.Sublist live := hop
    exact ⟨(s, kept), rfl, step_invariant h hop rfl, fun b hb => hpos b (hsub.subset hb)⟩
  | write a cell => exact ⟨(s.write a cell, live), rfl, write_invariant h hop cell, hpos⟩

/-- The live blocks do not overlap, `allocate` gives a block that overlaps none of them and the free
blocks rebuilt by a collection are exactly the maximal runs of unmarked cells of each chunk. -/
structure Safe (s : SimpleGC) (live : List (Nat × Nat)) : Prop where
  apart : live.Pairwise fun b c => Apart b.1 b.2 c.1 c.2
  allocate : ∀ size marks c, Contract (s, live) (.allocate size marks c) →
    ∀ r, s.allocate size marks c = some r →
      ∃ a, r.1 = some a ∧ ∀ b ∈ live, Apart a (round size) b.1 b.2
  doGC : ∀ marks, Contract (s, live) (.doGC marks) → ∀ t, s.doGC marks = some t → Swept t marks

theorem Invariant.safe (h : Invariant s live) : Safe s live := by
  refine ⟨h.liveOk.apart, ?_, ?_⟩
  · intro size marks c hop r hr
    obtain ⟨a, hres, hapart, -⟩ := (allocate_spec h hop.1 hop.2.1 hop.2.2).2 r hr
    exact ⟨a, hres, hapart⟩
  · exact fun marks hop t ht => ((doGC_invariant h.chunksOk h.liveOk hop).2 t ht).2.1

/-- A collection in which the client marks the live blocks frees exactly the other cells, and every
later run of allocations and collections is safe.  Nothing fails if no block is empty. -/
theorem simpleGC_run (s : SimpleGC) (live marks : List (Nat × Nat)) (hchunks : Chunks s)
    (hlive : LiveOk s live) (hmarks : ∀ b, b ∈ marks ↔ b ∈ live) :
    ((∀ b ∈ live, 0 < b.2) → (s.doGC marks).isSome) ∧
      ∀ s₁, s.doGC marks = some s₁ → Swept s₁ marks ∧
        ∀ ops, Run.Meets Contract step (s₁, live) ops →
          (∀ t live', Run.exec step (s₁, live) ops = some (t, live') → Safe t live') ∧
          ((∀ b ∈ live, 0 < b.2) → (∀ op ∈ ops, op.NotEmpty) →
            (Run.exec step (s₁, live) ops).isSome) := by
  obtain ⟨hsome, hgc⟩ := doGC_invariant hchunks hlive hmarks
  refine ⟨hsome, fun s₁ hs₁ => ?_⟩
  obtain ⟨-, hswept, hinv⟩ := hgc s₁ hs₁
  refine ⟨hswept, fun ops hops => ⟨fun t live' hexec => ?_, fun hpos hne => ?_⟩⟩
  · have hinv' := Run.exec_invariant (fun st : SimpleGC × List (Nat × Nat) => Invariant st.1 st.2)
      (fun _ _ _ hst hop hstep => step_invariant hst hop hstep) ops _ _ hinv hops hexec
    exact hinv'.safe
  · obtain ⟨st, hexec, -⟩ := Run.exists_exec_of_meets 
      (fun st : SimpleGC × List (Nat × Nat) => Invariant st.1 st.2 ∧ ∀ b ∈ st.2, 0 < b.2)
      (fun st _ hst hop => by
        obtain ⟨st', hstep, hst'⟩ := step_succeeds hst.1 hst.2 hop.1 hop.2
        exact ⟨st', hstep, hst'⟩)
      ops (s₁, live) ⟨hinv, hpos⟩ (Run.meets_and hops hne)
    exact isSome_iff_exists.mpr ⟨st, hexec⟩

/-- One chunk of two cells, one live block of 8 bytes in the first one, and an allocation. -/
theorem simpleGC_run_two :
    ((∀ b ∈ [(64, 8)], 0 < b.2) → (doGC ⟨32, [64], none, fun _ => (none, 0)⟩ [(64, 8)]).isSome) ∧
      ∀ s₁, doGC ⟨32, [64], none, fun _ => (none, 0)⟩ [(64, 8)] = some s₁ → Swept s₁ [(64, 8)] ∧
        ∀ ops, Run.Meets Contract step (s₁, [(64, 8)]) ops →
          (∀ t live', Run.exec step (s₁, [(64, 8)]) ops = some (t, live') → Safe t live') ∧
          ((∀ b ∈ [(64, 8)], 0 < b.2) → (∀ op ∈ ops, op.NotEmpty) →
            (Run.exec step (s₁, [(64, 8)]) ops).isSome) := by
  refine simpleGC_run _ _ _ ⟨rfl, by decide, pairwise_singleton _ _⟩ ⟨?_, pairwise_singleton _ _⟩
    fun b => Iff.rfl
  intro b hb _
  obtain rfl := mem_singleton.mp hb
  exact ⟨64, by simp, 0, rfl, by decide⟩

end Elm.Alloc.SimpleGC
