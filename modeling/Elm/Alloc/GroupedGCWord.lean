import Elm.Alloc.GroupedGCRun

/-!
# `GroupedGC` on machine words

The sizes of `GroupedGC` are words of 64 bits (`t::size`, `t::intptr`), the index of a request is an
`unsigned int` and the blocks of a collected chunk are counted in an `int`.  A request that is not
empty and whose index is in the tables is served as it is on unbounded integers.  The other requests
divide by zero, go out of the tables or get an index that is not theirs.
-/

namespace Elm.Alloc.GroupedGC

open Chain Runs Function Option Nat

/-- `sizeof(chunk_t)`, the header in front of the buffer. -/
def sizeofChunk : Nat := 40

/-- `round`. -/
def round64 (size : Nat) : Nat := (size + sizeofBlock - 1) % 2 ^ 64 / sizeofBlock * sizeofBlock

/-- `unsigned int index = size >> shiftToIndex`, on the rounded size. -/
def index32 (size : Nat) : Nat := round64 size / sizeofBlock % 2 ^ 32

/-- A difference of words. -/
def sub64 (x y : Nat) : Nat := (x + (2 ^ 64 - y)) % 2 ^ 64

/-- What `new char[sizeof(chunk_t) + csize]` gives after the header. -/
def bufferSize (csize : Nat) : Nat := (sizeofChunk + csize) % 2 ^ 64 - sizeofChunk

/-- The constructor. -/
def new64 (size : Nat) (mem : Nat → Option Nat) : GroupedGC := { new size mem with csize := round64 size }

/-- `allocFromFreeList`. -/
def allocFromFreeList64 (s : GroupedGC) (size index : Nat) : Option (Option Nat × GroupedGC) :=
  if maxAllocatableIndex ≤ index then
    none
  else
    match s.freeList index with
    | some res => some (some res, s.pop index res)
    | none =>
      match s.chunkList index with
      | none => some (none, s)
      | some p =>
        match s.chunkAt p with
        | none => none
        | some currChunk =>
          let newSize := sub64 currChunk.size size
          let res := (p + newSize) % 2 ^ 64
          if !currChunk.init then
            none
          else if size ≤ newSize then
            some (some res, { s with chunks := s.setChunk p newSize true })
          else if newSize = 0 then
            some
              (some res,
                { s with
                  chunks := s.setChunk p newSize false
                  chunkList := update s.chunkList index none })
          else
            none

/-- `allocate`; new chunks would have their buffers at `p` and `q`. -/
def allocate64 (s : GroupedGC) (size p q : Nat) : Option (Nat × GroupedGC) :=
  if size < s.csize then
    let index := index32 size
    match s.allocFromFreeList64 (round64 size) index with
    | none => none
    | some (some res, s) => some (res, s)
    | some (none, s) =>
      match s.addChunk index p with
      | none => none
      | some s =>
        match s.allocFromFreeList64 (round64 size) index with
        | none => none
        | some (some res, s) => some (res, s)
        | some (none, s) =>
          match s.newChunk index q with
          | none => none
          | some s =>
            match s.allocFromFreeList64 (round64 size) index with
            | some (some res, s) => some (res, s)
            | _ => none
  else
    none

/-- The chunk sizes and the requests that the words and the tables are made for. -/
structure Fits (csize size : Nat) : Prop where
  chunk : sizeofChunk + csize < 2 ^ 64
  pos : 0 < size
  index : round64 size / sizeofBlock < maxAllocatableIndex

/-- The block at `a` lies inside the buffer of a chunk. -/
def InChunk (csize : Nat) (s : GroupedGC) (a size : Nat) : Prop :=
  ∃ c ∈ s.chunks, c.buffer ≤ a ∧ a + size ≤ c.buffer + bufferSize csize

variable {s t : GroupedGC} {live : List (Nat × Nat)} {c d : GroupChunk} {csize size : Nat}

/-! ## Words in range -/

theorem round64_dvd (size : Nat) : sizeofBlock ∣ round64 size := Nat.dvd_mul_left _ _

theorem round64_lt (size : Nat) : round64 size < 2 ^ 64 := by
  have hdiv := div_mul_le_self ((size + sizeofBlock - 1) % 2 ^ 64) sizeofBlock
  have hmod := mod_lt (size + sizeofBlock - 1) (show 0 < 2 ^ 64 by decide)
  unfold round64
  omega

/-- The rounding of a request does not overflow, since the request is smaller than a chunk. -/
theorem round64_eq (hsize : size < round64 csize) : round64 size = round size := by
  obtain ⟨k, hk⟩ := round64_dvd csize
  have hlt := round64_lt csize
  have hmod : (size + sizeofBlock - 1) % 2 ^ 64 = size + sizeofBlock - 1 := by
    apply mod_eq_of_lt
    simp only [sizeofBlock] at hk ⊢
    omega
  rw [round64, hmod, round]

theorem sub64_of_le {x y : Nat} (hle : y ≤ x) (hx : x < 2 ^ 64) : sub64 x y = x - y := by
  unfold sub64
  omega

theorem sub64_of_lt {x y : Nat} (hlt : x < y) (hy : y < 2 ^ 64) : sub64 x y = 2 ^ 64 + x - y := by
  unfold sub64
  omega

theorem bufferSize_eq (hchunk : sizeofChunk + csize < 2 ^ 64) : bufferSize csize = csize := by
  rw [bufferSize, mod_eq_of_lt hchunk, Nat.add_sub_cancel_left]

theorem Fits.index32_eq {n : Nat} (hfits : Fits csize size) (hsize : size < round64 n) :
    index32 size = indexOf size := by
  have hindex := hfits.index
  rw [index32, indexOf, ← round64_eq hsize]
  apply mod_eq_of_lt
  exact hindex.trans (by decide)

theorem Fits.served {n : Nat} (hfits : Fits (round64 n) size) (hsize : size < round64 n) :
    Served (round64 n) size := by
  refine ⟨hfits.pos, hsize, ?_⟩
  rw [indexOf, ← round64_eq hsize]
  exact hfits.index

/-! ## Requests that fit -/

theorem ChunkOk.size_le (h : ChunkOk csize c) : c.size ≤ csize := by
  obtain ⟨k, hk, hsize, -⟩ := h.size_eq
  rw [h.blockCount_eq] at hk
  rw [hsize]
  exact (Nat.le_div_iff_mul_le h.blockSize_pos).mp hk

/-- The buffers of `n` bytes of the chunks are in memory. -/
def InMemory (s : GroupedGC) (n : Nat) : Prop := ∀ c ∈ s.chunks, c.buffer + n ≤ 2 ^ 64

/-- A chunk is filled as it is on unbounded integers. -/
theorem allocFromFreeList64_eq (h : Invariant s live) (hchunk : sizeofChunk + s.csize < 2 ^ 64)
    (hmem : s.InMemory s.csize) (index : Nat) :
    s.allocFromFreeList64 (sizeofBlock * index) index = s.allocFromFreeList (sizeofBlock * index) index := by
  unfold allocFromFreeList64 allocFromFreeList
  cases hfree : s.freeList index with
  | some res => rfl
  | none =>
    cases hlist : s.chunkList index with
    | none => rfl
    | some p =>
      obtain ⟨c, hc, rfl, rfl, hinit⟩ := h.current index p hlist
      have hok := h.chunksOk.ok c hc
      obtain ⟨k, -, hsize, hiff⟩ := hok.size_eq
      have hblock : sizeofBlock * c.index ≤ c.size := by
        rw [hsize]
        exact Nat.le_mul_of_pos_left _ (hiff.mp hinit)
      have hle := hok.size_le
      have hpos := hok.blockSize_pos
      have hin := hmem c hc
      have hnew : sub64 c.size (sizeofBlock * c.index) = c.size - sizeofBlock * c.index :=
        sub64_of_le hblock (by omega)
      have hres : (c.buffer + (c.size - sizeofBlock * c.index)) % 2 ^ 64 =
          c.buffer + (c.size - sizeofBlock * c.index) := by
        apply mod_eq_of_lt
        unfold GroupChunk.blockSize at hpos
        omega
      simp only [h.chunksOk.chunkAt_eq hc, hnew, hres]

theorem InMemory.withChunk {n p : Nat} (h : s.InMemory n) (index : Nat) (hp : p + n ≤ 2 ^ 64) :
    (s.withChunk index p).InMemory n := by
  intro c hc
  rcases List.mem_cons.mp hc with rfl | hc
  · exact hp
  · exact h c hc

theorem InMemory.addChunk {n index p : Nat} (h : s.InMemory n) (hp : p + n ≤ 2 ^ 64)
    (hadd : s.addChunk index p = some t) : t.InMemory n := by
  unfold GroupedGC.addChunk newChunk at hadd
  split_ifs at hadd
  · obtain rfl := some.inj hadd
    exact h.withChunk index hp
  · obtain rfl := some.inj hadd
    exact h.withChunk index hp
  · cases hadd

theorem InMemory.setChunk {n : Nat} (h : s.InMemory n) {p : Nat} {init : Bool}
    (ht : t.chunks = s.setChunk p size init) : t.InMemory n := by
  intro c hc
  rw [ht] at hc
  obtain ⟨d, hd, rfl⟩ := List.mem_map.mp hc
  split_ifs
  · exact h d hd
  · exact h d hd

theorem InMemory.allocFromFreeList {n m index : Nat} {r : Option Nat × GroupedGC} (h : s.InMemory n)
    (hr : s.allocFromFreeList m index = some r) : r.2.InMemory n := by
  simp only [GroupedGC.allocFromFreeList] at hr
  split_ifs at hr
  split at hr
  · obtain rfl := some.inj hr
    exact h
  · split at hr
    · obtain rfl := some.inj hr
      exact h
    · split at hr
      · cases hr
      · split_ifs at hr
        · obtain rfl := some.inj hr
          exact h.setChunk rfl
        · obtain rfl := some.inj hr
          exact h.setChunk rfl

/-! ## Requests -/

/-- `allocate` finds no block for the request in the chunks that it has. -/
def Needs64 (s : GroupedGC) (size : Nat) : Prop :=
  s.freeList (index32 size) = none ∧ s.chunkList (index32 size) = none

/-- Where a new chunk may be: after its header, in memory and apart from the other chunks. -/
structure NewBuffer (s : GroupedGC) (p : Nat) : Prop where
  header : sizeofChunk < p
  inMemory : p + bufferSize s.csize ≤ 2 ^ 64
  apart : ∀ d ∈ s.chunks, d.buffer + bufferSize s.csize ≤ p ∨ p + bufferSize s.csize ≤ d.buffer

/-- The invariant of a run on words. -/
structure Invariant64 (csize : Nat) (st : GroupedGC × List (Nat × Nat)) : Prop where
  run : RunInvariant csize st
  fits : sizeofChunk + csize < 2 ^ 64
  inMemory : st.1.InMemory csize

/-- A request that fits gets a block that becomes live. -/
theorem allocate64_of_fits {n p : Nat} (h : Invariant64 (round64 n) (s, live))
    (hsize : size < round64 n) (hfits : Fits (round64 n) size) (hp : s.Needs64 size → s.NewBuffer p)
    (q : Nat) :
    ∃ a t, s.allocate64 size p q = some (a, t) ∧ Invariant64 (round64 n) (t, (a, size) :: live) := by
  obtain ⟨⟨hcsize, hdvd, hinv⟩, hchunk, hmem⟩ := h
  have hcsize : s.csize = round64 n := hcsize
  have hindex : index32 size = indexOf size := hfits.index32_eq hsize
  have hround : round64 size = sizeofBlock * indexOf size := by
    rw [round64_eq hsize, round_eq_indexOf]
  obtain ⟨hpos, -, hlt⟩ := hfits.served hsize
  have hn : size ≤ sizeofBlock * indexOf size := by
    rw [← round_eq_indexOf]
    exact SimpleGC.le_round size
  rw [← hcsize] at hsize hchunk hmem hdvd
  have heq := allocFromFreeList64_eq hinv hchunk hmem (indexOf size)
  obtain ⟨⟨res, s₁⟩, halloc, ⟨hnone, hfree, hlist⟩ | ⟨a, hres, hcsize₁, hinv₁⟩⟩ :=
    allocFromFreeList_spec hinv hlt hn
  · rw [hnone] at halloc
    have hneeds : s.Needs64 size := by
      rw [Needs64, hindex]
      exact ⟨hfree, hlist⟩
    obtain ⟨-, hin, hapart⟩ := hp hneeds
    rw [bufferSize_eq hchunk] at hin hapart
    obtain ⟨s₂, hadd, hcsize₂, hlist₂, hinv₂⟩ := addChunk_invariant hinv (indexOf_pos hpos)
      (fits_of_lt hdvd hsize) hlist hapart
    have hmem₂ := hmem.addChunk hin hadd
    have heq₂ := allocFromFreeList64_eq hinv₂ (hcsize₂ ▸ hchunk) (hcsize₂ ▸ hmem₂) (indexOf size)
    obtain ⟨⟨res₂, s₃⟩, halloc₂, ⟨-, -, hlist₃⟩ | ⟨a, hres, hcsize₃, hinv₃⟩⟩ :=
      allocFromFreeList_spec hinv₂ hlt hn
    · rw [hlist₂] at hlist₃
      cases hlist₃
    · obtain rfl : res₂ = some a := hres
      have hmem₃ := hmem₂.allocFromFreeList halloc₂
      have hc : s₃.csize = round64 n := hcsize₃.trans (hcsize₂.trans hcsize)
      refine ⟨a, s₃, ?_, ⟨hc, hcsize ▸ hdvd, hinv₃⟩, hcsize ▸ hchunk, hcsize ▸ hmem₃⟩
      simp only [allocate64, if_pos hsize, hindex, hround, heq, halloc, hadd, heq₂, halloc₂]
  · obtain rfl : res = some a := hres
    have hmem₁ := hmem.allocFromFreeList halloc
    refine ⟨a, s₁, ?_, ⟨hcsize₁.trans hcsize, hcsize ▸ hdvd, hinv₁⟩, hcsize ▸ hchunk, hcsize ▸ hmem₁⟩
    simp only [allocate64, if_pos hsize, hindex, hround, heq, halloc]

/-- A live block lies inside a chunk. -/
theorem Invariant64.inChunk {a : Nat} (h : Invariant64 csize (s, (a, size) :: live)) :
    InChunk csize s a size := by
  obtain ⟨⟨hcsize, -, hinv⟩, hchunk, -⟩ := h
  obtain ⟨c, hc, i, hi, ha, hle, -⟩ := hinv.liveOk.isBlock (a, size) List.mem_cons_self
  have ha : a = c.blockAt i := ha
  have hle : size ≤ c.blockSize := hle
  have hin := (hinv.chunksOk.ok c hc).blockAt_le hi
  have hcsize : s.csize = csize := hcsize
  refine ⟨c, hc, ?_⟩
  rw [bufferSize_eq hchunk, ha]
  rw [hcsize] at hin
  omega

/-! ## Runs -/

/-- A call; the blocks of a chunk are counted in an `int` by a collection. -/
def step64 (st : GroupedGC × List (Nat × Nat)) : Op → Option (GroupedGC × List (Nat × Nat))
  | .allocate size p q => (st.1.allocate64 size p q).map fun r => (r.2, (r.1, size) :: st.2)
  | .doGC marks =>
    if st.1.chunks.all fun c => decide (c.blockCount < 2 ^ 31) then step st (.doGC marks) else none
  | op => step st op

/-- The contract, where the system gives a chunk when one is asked for only. -/
def Contract64 (st : GroupedGC × List (Nat × Nat)) : Op → Prop
  | .allocate size p _ => st.1.Needs64 size → st.1.NewBuffer p
  | op => Contract st op

/-- The call is no request, or one that fits. -/
def Op.Fits (csize : Nat) : Op → Prop
  | .allocate size _ _ => size < csize ∧ GroupedGC.Fits csize size
  | _ => True

theorem step64_invariant {n : Nat} {st st' : GroupedGC × List (Nat × Nat)} {op : Op}
    (h : Invariant64 (round64 n) st) (hop : Contract64 st op ∧ op.Fits (round64 n))
    (hst : step64 st op = some st') : Invariant64 (round64 n) st' := by
  obtain ⟨hcontract, hfits⟩ := hop
  cases op with
  | allocate size p q =>
    obtain ⟨hsize, hfits⟩ := hfits
    obtain ⟨a, t, halloc, h'⟩ := allocate64_of_fits (s := st.1) h hsize hfits hcontract q
    rw [step64, halloc, map_some] at hst
    obtain rfl := some.inj hst
    exact h'
  | doGC marks =>
    have hcontract : Contract st (.doGC marks) := hcontract
    rw [step64] at hst
    split_ifs at hst
    obtain ⟨t, hgc, -, -, -, hchunks⟩ := doGC_invariant h.run.invariant hcontract
    refine ⟨step_invariant h.run hcontract hst, h.fits, ?_⟩
    rw [step, hgc, map_some] at hst
    obtain rfl := some.inj hst
    rw [InMemory, hchunks]
    exact h.inMemory
  | abandon kept =>
    have hcontract : Contract st (.abandon kept) := hcontract
    refine ⟨step_invariant h.run hcontract hst, h.fits, ?_⟩
    obtain rfl := some.inj hst
    exact h.inMemory
  | write a v =>
    have hcontract : Contract st (.write a v) := hcontract
    refine ⟨step_invariant h.run hcontract hst, h.fits, ?_⟩
    obtain rfl := some.inj hst
    exact h.inMemory

theorem invariant64_new (n : Nat) (mem : Nat → Option Nat) (hchunk : sizeofChunk + round64 n < 2 ^ 64) :
    Invariant64 (round64 n) (new64 n mem, []) := by
  refine ⟨⟨rfl, round64_dvd n, ?_⟩, hchunk, by simp [InMemory, new64, new]⟩
  have h := (runInvariant_new n mem).invariant
  exact ⟨⟨by simp [new64, new], List.Pairwise.nil⟩, h.current, ⟨by simp, List.nodup_nil⟩, h.freeOk⟩

/-- In every state that a run of calls that fit reaches, a request of `size` bytes has a result, a
block that lies inside a chunk. -/
def Serves (n : Nat) (mem : Nat → Option Nat) (size : Nat) : Prop :=
  ∀ ops s live,
    Run.Meets (fun st op => Contract64 st op ∧ op.Fits (round64 n)) step64 (new64 n mem, []) ops →
      Run.exec step64 (new64 n mem, []) ops = some (s, live) →
        ∀ p q, (s.Needs64 size → s.NewBuffer p) →
          ∃ a t, s.allocate64 size p q = some (a, t) ∧ InChunk (round64 n) t a size

/-! ## Requests that do not fit -/

/-- No request has a result when its index is out of the tables. -/
theorem allocate64_out (s : GroupedGC) {p q : Nat} (hindex : maxAllocatableIndex ≤ index32 size) :
    s.allocate64 size p q = none := by
  have hfail : s.allocFromFreeList64 (round64 size) (index32 size) = none := by
    rw [allocFromFreeList64, if_pos hindex]
  simp only [allocate64, hfail]
  split_ifs <;> rfl

/-- The first request of index 0 divides by zero. -/
theorem allocate64_new_zero {n p q : Nat} {mem : Nat → Option Nat} (hindex : index32 size = 0) :
    (new64 n mem).allocate64 size p q = none := by
  simp [allocate64, hindex, allocFromFreeList64, addChunk, newChunk, new64, new, maxAllocatableIndex]

/-- The chunks are one chunk of this index, with `k` blocks that are not allocated yet. -/
structure OneChunk (s : GroupedGC) (csize index p k : Nat) : Prop where
  csize_eq : s.csize = csize
  free : s.freeList index = none
  current : s.chunkList index = some p
  chunk : ∃ c, s.chunks = [c] ∧ c.buffer = p ∧ c.size = k * (sizeofBlock * index) ∧ c.init = true

section OneChunk

variable {index p k : Nat}

theorem OneChunk.allocFromFreeList64_eq (h : OneChunk s csize index p k)
    (hindex : index < maxAllocatableIndex) {newSize : Nat}
    (hnew : sub64 (k * (sizeofBlock * index)) size = newSize) (hzero : newSize ≠ 0) :
    s.allocFromFreeList64 size index =
      if size ≤ newSize then
        some (some ((p + newSize) % 2 ^ 64), { s with chunks := s.setChunk p newSize true })
      else
        none := by
  obtain ⟨c, hchunks, rfl, hsize, hinit⟩ := h.chunk
  have hc : s.chunkAt c.buffer = some c := by simp [chunkAt, hchunks]
  rw [← hsize] at hnew
  have hrange : ¬ maxAllocatableIndex ≤ index := by omega
  simp only [allocFromFreeList64, if_neg hrange, h.free, h.current, hc, hnew, hinit, Bool.not_true,
    Bool.false_eq_true, if_false, if_neg hzero]

/-- The size of the blocks of this index rounds to itself. -/
theorem round64_block (hindex : index < maxAllocatableIndex) :
    round64 (sizeofBlock * index) = sizeofBlock * index ∧ index32 (sizeofBlock * index) = index := by
  have hdiv : (sizeofBlock * index + sizeofBlock - 1) % 2 ^ 64 / sizeofBlock = index := by
    simp only [sizeofBlock, maxAllocatableIndex] at hindex ⊢
    omega
  have hround : round64 (sizeofBlock * index) = sizeofBlock * index := by
    rw [round64, hdiv, Nat.mul_comm]
  refine ⟨hround, ?_⟩
  rw [index32, hround, Nat.mul_div_cancel_left _ (by decide)]
  apply mod_eq_of_lt
  exact hindex.trans (by decide)

/-- One more block of the chunk is allocated. -/
theorem OneChunk.take (h : OneChunk s csize index p (k + 2)) (hpos : 0 < index)
    (hindex : index < maxAllocatableIndex) (hle : (k + 2) * (sizeofBlock * index) ≤ csize)
    (hcsize : csize < 2 ^ 64) :
    ∃ a t, s.allocFromFreeList64 (sizeofBlock * index) index = some (some a, t) ∧
      OneChunk t csize index p (k + 1) := by
  obtain ⟨c, hchunks, hbuffer, hsize, hinit⟩ := h.chunk
  have hbs : 0 < sizeofBlock * index := Nat.mul_pos (by decide) hpos
  have hmul : (k + 2) * (sizeofBlock * index) = (k + 1) * (sizeofBlock * index) + sizeofBlock * index := by
    ring
  have hmore : sizeofBlock * index ≤ (k + 1) * (sizeofBlock * index) :=
    Nat.le_mul_of_pos_left _ (succ_pos k)
  have hnew : sub64 ((k + 2) * (sizeofBlock * index)) (sizeofBlock * index) =
      (k + 1) * (sizeofBlock * index) := by
    rw [sub64_of_le (by omega) (by omega), hmul, Nat.add_sub_cancel]
  have halloc := h.allocFromFreeList64_eq hindex hnew (by omega)
  rw [if_pos hmore] at halloc
  refine ⟨_, _, halloc, h.csize_eq, h.free, h.current, c.taken ((k + 1) * (sizeofBlock * index)) true, ?_,
    hbuffer, rfl, rfl⟩
  simp [setChunk, hchunks, hbuffer]

theorem OneChunk.allocate64 (h : OneChunk s csize index p (k + 2)) (hpos : 0 < index)
    (hindex : index < maxAllocatableIndex) (hle : (k + 2) * (sizeofBlock * index) ≤ csize)
    (hcsize : csize < 2 ^ 64) (p' q : Nat) :
    ∃ a t, s.allocate64 (sizeofBlock * index) p' q = some (a, t) ∧ OneChunk t csize index p (k + 1) := by
  obtain ⟨hround, hidx⟩ := round64_block hindex
  obtain ⟨a, t, halloc, ht⟩ := h.take hpos hindex hle hcsize
  have hbs : 0 < sizeofBlock * index := Nat.mul_pos (by decide) hpos
  have hlt : sizeofBlock * index < s.csize := by
    have hmul : (k + 2) * (sizeofBlock * index) = k * (sizeofBlock * index) + 2 * (sizeofBlock * index) := by
      ring
    rw [h.csize_eq]
    omega
  exact ⟨a, t, by simp only [GroupedGC.allocate64, if_pos hlt, hidx, hround, halloc], ht⟩

/-- The first request of an index makes a chunk of it. -/
theorem exists_oneChunk {n : Nat} (mem : Nat → Option Nat) (hpos : 0 < index)
    (hindex : index < maxAllocatableIndex) (hfits : (k + 2) * (sizeofBlock * index) ≤ round64 n)
    (hfull : round64 n - round64 n % (sizeofBlock * index) = (k + 2) * (sizeofBlock * index)) (p q : Nat) :
    ∃ a t, (new64 n mem).allocate64 (sizeofBlock * index) p q = some (a, t) ∧
      OneChunk t (round64 n) index p (k + 1) := by
  obtain ⟨hround, hidx⟩ := round64_block hindex
  have hbs : 0 < sizeofBlock * index := Nat.mul_pos (by decide) hpos
  have hlt : sizeofBlock * index < round64 n := by
    have hmul : (k + 2) * (sizeofBlock * index) = k * (sizeofBlock * index) + 2 * (sizeofBlock * index) := by
      ring
    omega
  have hrange : ¬ maxAllocatableIndex ≤ index := by omega
  have hnone : (new64 n mem).allocFromFreeList64 (sizeofBlock * index) index =
      some (none, new64 n mem) := by
    rw [allocFromFreeList64, if_neg hrange]
    rfl
  have hadd : (new64 n mem).addChunk index p =
      some ({ new64 n mem with
        chunkInit := update (new64 n mem).chunkInit index false }.withChunk index p) := by
    have hinit : (new64 n mem).chunkInit index = true := rfl
    rw [addChunk, if_pos hinit, newChunk, if_pos ⟨rfl, hpos.ne'⟩]
  have hone : OneChunk ({ new64 n mem with
      chunkInit := update (new64 n mem).chunkInit index false }.withChunk index p) (round64 n)
      index p (k + 2) :=
    ⟨rfl, rfl, update_self .., _, rfl, rfl, hfull, rfl⟩
  obtain ⟨a, t, halloc, ht⟩ := hone.take hpos hindex hfits (round64_lt n)
  refine ⟨a, t, ?_, ht⟩
  have hlt' : sizeofBlock * index < (new64 n mem).csize := hlt
  simp only [allocate64, if_pos hlt', hidx, hround, hnone, hadd, halloc]

theorem fits_block {n : Nat} (hpos : 0 < index) (hindex : index < maxAllocatableIndex)
    (hchunk : sizeofChunk + round64 n < 2 ^ 64) : Fits (round64 n) (sizeofBlock * index) := by
  refine ⟨hchunk, Nat.mul_pos (by decide) hpos, ?_⟩
  rw [(round64_block hindex).1, Nat.mul_div_cancel_left _ (by decide)]
  exact hindex

/-- All blocks of the chunk but one are allocated. -/
theorem OneChunk.exists_run {n : Nat} (hpos : 0 < index) (hindex : index < maxAllocatableIndex)
    (hchunk : sizeofChunk + round64 n < 2 ^ 64) :
    ∀ (k : Nat) (s : GroupedGC) (live : List (Nat × Nat)), OneChunk s (round64 n) index p (k + 1) →
      (k + 1) * (sizeofBlock * index) ≤ round64 n →
        ∃ ops t live', Run.Meets (fun st op => Contract64 st op ∧ op.Fits (round64 n)) step64 (s, live) ops ∧
          Run.exec step64 (s, live) ops = some (t, live') ∧ OneChunk t (round64 n) index p 1 := by
  intro k
  induction k with
  | zero => exact fun s live h _ => ⟨[], s, live, trivial, rfl, h⟩
  | succ k ih =>
    intro s live h hle
    have hmul : (k + 1 + 1) * (sizeofBlock * index) =
        (k + 1) * (sizeofBlock * index) + sizeofBlock * index := succ_mul ..
    have hbs : 0 < sizeofBlock * index := Nat.mul_pos (by decide) hpos
    have hmore : sizeofBlock * index ≤ (k + 1) * (sizeofBlock * index) :=
      Nat.le_mul_of_pos_left _ (succ_pos k)
    obtain ⟨a, t, halloc, ht⟩ := h.allocate64 hpos hindex hle (round64_lt n) 0 0
    have hstep : step64 (s, live) (.allocate (sizeofBlock * index) 0 0) =
        some (t, (a, sizeofBlock * index) :: live) := by
      rw [step64, halloc, map_some]
    obtain ⟨ops, t', live', hmeets, hexec, ht'⟩ := ih t ((a, sizeofBlock * index) :: live) ht (by omega)
    refine ⟨.allocate (sizeofBlock * index) 0 0 :: ops, t', live', ⟨⟨?_, ?_⟩, ?_⟩, ?_, ht'⟩
    · -- no chunk is asked for
      rintro ⟨-, hnone⟩
      rw [(round64_block hindex).2, h.current] at hnone
      cases hnone
    · exact ⟨by omega, fits_block hpos hindex hchunk⟩
    · intro st hst
      obtain rfl := some.inj (hstep.symm.trans hst)
      exact hmeets
    · exact Run.exec_cons_eq_some.mpr ⟨_, hstep, hexec⟩

/-- The block for a request that has the index of a smaller size lies outside the chunk. -/
theorem OneChunk.not_inChunk (h : OneChunk s csize index p 1) (hindex : index < maxAllocatableIndex)
    (hidx : index32 size = index) (hlarge : sizeofBlock * index < round64 size)
    (hround : round64 size < size + sizeofBlock) (hsize : size < csize) (hpos : 0 < index)
    (hchunk : sizeofChunk + csize < 2 ^ 64) (p' q : Nat) :
    ¬ ∃ a t, s.allocate64 size p' q = some (a, t) ∧ InChunk csize t a size := by
  rintro ⟨a, t, halloc, d, hd, hlow, hhigh⟩
  obtain ⟨c, hchunks, hbuffer, -⟩ := h.chunk
  rw [bufferSize_eq hchunk] at hhigh
  have hlt : round64 size < 2 ^ 64 := round64_lt size
  have hblock : sizeofBlock ≤ sizeofBlock * index := Nat.le_mul_of_pos_right _ hpos
  have hnew : sub64 (1 * (sizeofBlock * index)) (round64 size) =
      2 ^ 64 + sizeofBlock * index - round64 size := by
    rw [Nat.one_mul, sub64_of_lt hlarge hlt]
  have hfree := h.allocFromFreeList64_eq hindex hnew (by omega)
  have hsize' : size < s.csize := h.csize_eq ▸ hsize
  simp only [GroupedGC.allocate64, if_pos hsize', hidx, hfree] at halloc
  by_cases hroom : round64 size ≤ 2 ^ 64 + sizeofBlock * index - round64 size
  · simp only [if_pos hroom, some.injEq, Prod.mk.injEq] at halloc
    obtain ⟨rfl, rfl⟩ := halloc
    have hbuffer' : d.buffer = p := by
      rw [setChunk, hchunks, List.map_singleton, List.mem_singleton, if_pos hbuffer] at hd
      rw [hd]
      exact hbuffer
    rw [hbuffer'] at hlow hhigh
    omega
  · simp only [if_neg hroom] at halloc
    cases halloc

end OneChunk

/-- The first chunk may be at this address, whatever its size. -/
theorem newBuffer_new64 (n : Nat) (mem : Nat → Option Nat) : NewBuffer (new64 n mem) 48 := by
  refine ⟨by decide, ?_, ?_⟩
  · obtain ⟨k, hk⟩ := round64_dvd n
    have hn := round64_lt n
    change 48 + bufferSize (round64 n) ≤ 2 ^ 64
    simp only [bufferSize, sizeofChunk, sizeofBlock] at hk ⊢
    omega
  · intro d hd
    cases hd

/-- A run that fills the first chunk but for one block. -/
theorem exists_run_oneChunk {n index : Nat} (mem : Nat → Option Nat) (hpos : 0 < index)
    (hindex : index < maxAllocatableIndex) (hchunk : sizeofChunk + round64 n < 2 ^ 64)
    (htwo : 2 * (sizeofBlock * index) ≤ round64 n) :
    ∃ ops t live,
      Run.Meets (fun st op => Contract64 st op ∧ op.Fits (round64 n)) step64 (new64 n mem, []) ops ∧
        Run.exec step64 (new64 n mem, []) ops = some (t, live) ∧ OneChunk t (round64 n) index 48 1 := by
  have hbs : 0 < sizeofBlock * index := Nat.mul_pos (by decide) hpos
  obtain ⟨k, hk⟩ : ∃ k, round64 n / (sizeofBlock * index) = k + 2 := by
    have hdiv := (Nat.le_div_iff_mul_le hbs).mpr htwo
    exact ⟨round64 n / (sizeofBlock * index) - 2, by omega⟩
  have hdiv := div_add_mod (round64 n) (sizeofBlock * index)
  rw [hk, Nat.mul_comm] at hdiv
  obtain ⟨a, s, hnew, hone⟩ := exists_oneChunk mem hpos hindex (k := k) (n := n) (by omega) (by omega) 48 48
  have hstep : step64 (new64 n mem, []) (.allocate (sizeofBlock * index) 48 48) =
      some (s, [(a, sizeofBlock * index)]) := by
    rw [step64, hnew, map_some]
  obtain ⟨ops, t, live, hmeets, hexec, ht⟩ := hone.exists_run hpos hindex hchunk k _
    [(a, sizeofBlock * index)] (by rw [succ_mul] at hdiv; omega)
  refine ⟨.allocate (sizeofBlock * index) 48 48 :: ops, t, live, ⟨⟨fun _ => newBuffer_new64 n mem, ?_⟩, ?_⟩,
    Run.exec_cons_eq_some.mpr ⟨_, hstep, hexec⟩, ht⟩
  · exact ⟨by omega, fits_block hpos hindex hchunk⟩
  · intro st hst
    obtain rfl := some.inj (hstep.symm.trans hst)
    exact hmeets

theorem Serves.fits {n : Nat} {mem : Nat → Option Nat} (h : Serves n mem size)
    (hsize : size < round64 n) : Fits (round64 n) size := by
  have hround : round64 size < size + sizeofBlock := by
    rw [round64_eq hsize, SimpleGC.round_eq]
    simp only [sizeofBlock]
    omega
  -- the first call of a run
  obtain ⟨a, t, halloc, c, hc, hlow, hhigh⟩ := h [] _ _ trivial rfl 48 48 fun _ => newBuffer_new64 n mem
  have hzero : index32 size ≠ 0 := by
    intro hzero
    rw [allocate64_new_zero hzero] at halloc
    cases halloc
  have hpos : 0 < size := by
    rcases Nat.eq_zero_or_pos size with rfl | hpos
    · exact absurd rfl hzero
    · exact hpos
  have hchunk : sizeofChunk + round64 n < 2 ^ 64 := by
    by_contra hover
    have hn := round64_lt n
    have hempty : bufferSize (round64 n) = 0 := by
      simp only [bufferSize, sizeofChunk] at hover ⊢
      omega
    rw [hempty] at hhigh
    omega
  refine ⟨hchunk, hpos, ?_⟩
  by_contra hlarge
  have hindex : index32 size < maxAllocatableIndex := by
    by_contra hout
    rw [allocate64_out _ (by omega)] at halloc
    cases halloc
  -- the index of the request is the one of a smaller size
  obtain ⟨index, hidx⟩ : ∃ index, index32 size = index := ⟨_, rfl⟩
  rw [hidx] at hindex hzero
  have hblock : sizeofBlock * index < round64 size := by
    simp only [sizeofBlock, maxAllocatableIndex] at hlarge hindex ⊢
    omega
  have htwo : 2 * (sizeofBlock * index) ≤ round64 n := by
    unfold index32 at hidx
    simp only [sizeofBlock, maxAllocatableIndex] at hlarge hidx hindex hround ⊢
    omega
  have hpos' : 0 < index := Nat.pos_of_ne_zero hzero
  obtain ⟨ops, s, live, hmeets, hexec, hs⟩ := exists_run_oneChunk mem hpos' hindex hchunk htwo
  refine hs.not_inChunk hindex hidx hblock hround hsize hpos' hchunk 48 48
    (h ops s live hmeets hexec 48 48 ?_)
  -- the chunk of the index is not full
  rintro ⟨-, hnone⟩
  rw [hidx, hs.current] at hnone
  cases hnone

/-- A request smaller than a chunk is served in every reachable state exactly when it fits. -/
theorem serves_iff_fits (n : Nat) (mem : Nat → Option Nat) (size : Nat) (hsize : size < round64 n) :
    Serves n mem size ↔ Fits (round64 n) size := by
  constructor
  · exact fun h => h.fits hsize
  · intro hfits ops s live hops hexec p q hp
    have hinv := Run.exec_invariant (Invariant64 (round64 n)) (fun _ _ _ h hop => step64_invariant h hop)
      ops _ _ (invariant64_new n mem hfits.chunk) hops hexec
    obtain ⟨a, t, halloc, hinv'⟩ := allocate64_of_fits hinv hsize hfits hp q
    exact ⟨a, t, halloc, hinv'.inChunk⟩

theorem serves_iff_fits_small : Serves 4096 (fun _ => none) 24 ↔ Fits (round64 4096) 24 :=
  serves_iff_fits 4096 (fun _ => none) 24 (by decide)

/-- The empty request divides by zero. -/
theorem not_serves :
    ¬ ∀ (n : Nat) (mem : Nat → Option Nat) (size : Nat), size < round64 n → Serves n mem size := by
  intro h
  obtain ⟨a, t, halloc, -⟩ := h 4096 (fun _ => none) 0 (by decide) [] _ _ trivial rfl 48 48 fun _ =>
    newBuffer_new64 4096 _
  rw [allocate64_new_zero rfl] at halloc
  cases halloc

end Elm.Alloc.GroupedGC
