import Elm.Alloc.RawBlockAllocator

/-!
# Runs of `BlockAllocator`

The blocks that the stack allocator gave are the live ones and those of the free list.  When an element
has room for a link, the link of a freed block lies in this block, so that nobody writes to it, and the
free list can be followed; the stack allocator then gives blocks that do not overlap.
-/

namespace Elm.Alloc.RawBlockAllocator

open Runs Function List Option

/-- A pointer to a block; 0 is null. -/
def pointer (p : Nat) : Option Nat := if p = 0 then none else some p

/-- The memory of the free list. -/
def read (mem : Nat → UInt8) : Chain.Read Nat Unit := fun p => some (pointer (next mem p), ())

/-- What every call keeps: `carved` are the blocks of the stack allocator, `frees` those of the free
list. -/
structure Holds (sizeofT : Nat) (s : RawBlockAllocator) (live carved frees : List Nat) : Prop where
  stack : StackAllocator.Invariant s.alloc ⟨carved.map fun p => (p, sizeofT), []⟩
  perm : carved.Perm (live ++ frees)
  links : Chain.IsList (read s.mem) (pointer s.list) (frees.map fun p => (p, ()))
  limit : ∀ c ∈ s.alloc.chunks.head?, s.alloc.max = c + s.alloc.size
  placed : ∀ c ∈ s.alloc.chunks, sizeofChunk ≤ c ∧ c + s.alloc.size ≤ 2 ^ 64

variable {sizeofT : Nat} {s : RawBlockAllocator} {live carved frees : List Nat}

theorem pointer_of_ne {p : Nat} (hp : p ≠ 0) : pointer p = some p := if_neg hp

theorem eq_of_pointer {p q : Nat} (h : pointer p = some q) : p = q ∧ q ≠ 0 := by
  unfold pointer at h
  split_ifs at h with hp
  obtain rfl := some.inj h
  exact ⟨rfl, hp⟩

theorem extent_of_le (hT : sizeofBlockT ≤ sizeofT) : extent sizeofT = sizeofT := max_eq_left hT

theorem Holds.mem_carved (h : Holds sizeofT s live carved frees) {p : Nat} :
    p ∈ carved ↔ p ∈ live ∨ p ∈ frees := by
  rw [h.perm.mem_iff, mem_append]

theorem Holds.owned (h : Holds sizeofT s live carved frees) {p : Nat} (hp : p ∈ carved) :
    s.alloc.Owned (p, sizeofT) :=
  h.stack.safe.owned _ (mem_map.mpr ⟨p, hp, rfl⟩)

/-- A block is in the memory, and is not at the null address. -/
theorem Holds.bounds (h : Holds sizeofT s live carved frees) {p : Nat} (hp : p ∈ carved) :
    p ≠ 0 ∧ p + sizeofT ≤ 2 ^ 64 := by
  obtain ⟨c, hc, hlow, hhigh⟩ := h.owned hp
  obtain ⟨hfirst, hlast⟩ := h.placed c hc
  unfold sizeofChunk at hfirst
  simp only at hlow hhigh
  omega

theorem Holds.pairwise (h : Holds sizeofT s live carved frees) :
    (live ++ frees).Pairwise fun p q => Apart p sizeofT q sizeofT :=
  h.perm.pairwise (pairwise_map.mp h.stack.safe.apart) Apart.symm

/-- The blocks of the free list are apart from the live ones. -/
theorem Holds.apart (h : Holds sizeofT s live carved frees) {p q : Nat} (hp : p ∈ live)
    (hq : q ∈ frees) : Apart p sizeofT q sizeofT :=
  (pairwise_append.mp h.pairwise).2.2 p hp q hq

theorem Holds.safe (hT : sizeofBlockT ≤ sizeofT) (h : Holds sizeofT s live carved frees) :
    Safe sizeofT s live := by
  constructor
  · intro p hp
    rw [extent_of_le hT]
    exact h.owned (h.mem_carved.mpr (Or.inl hp))
  · rw [extent_of_le hT]
    exact (pairwise_append.mp h.pairwise).1

/-- The first pointer of the free list is in the memory. -/
theorem Holds.list_lt (hT : sizeofBlockT ≤ sizeofT) (h : Holds sizeofT s live carved frees) :
    s.list < 2 ^ 64 := by
  by_cases hzero : s.list = 0
  · omega
  · cases frees with
    | nil =>
      have hnull : pointer s.list = none := h.links
      rw [pointer_of_ne hzero] at hnull
      cases hnull
    | cons p frees =>
      obtain ⟨heq, -⟩ := eq_of_pointer h.links.1
      have hbounds := h.bounds (p := p) (h.mem_carved.mpr (by simp))
      unfold sizeofBlockT at hT
      omega

/-! ## The calls -/

/-- A block taken from the free list. -/
theorem Holds.pop (h : Holds sizeofT s live carved frees) (hlist : s.list ≠ 0) :
    ∃ frees', Holds sizeofT { s with list := next s.mem s.list } (s.list :: live) carved frees' := by
  have hlinks := h.links
  rw [pointer_of_ne hlist] at hlinks
  cases frees with
  | nil => cases hlinks
  | cons p frees =>
    obtain ⟨heq, q, hread, hrest⟩ := hlinks
    obtain rfl := some.inj heq
    obtain ⟨rfl, -⟩ := Prod.mk.inj (some.inj hread)
    exact ⟨frees, h.stack, h.perm.trans perm_middle, hrest, h.limit, h.placed⟩

/-- The limit of the current chunk is its end, so that the stack allocator meets no defect. -/
theorem Holds.sound (h : Holds sizeofT s live carved frees) (c : Nat) :
    StackAllocator.Sound (s.alloc, ⟨carved.map fun p => (p, sizeofT), []⟩) (.allocate sizeofT c) := by
  intro d hd
  obtain ⟨ds, hds⟩ := head?_eq_some_iff.mp hd
  obtain ⟨-, htop, -⟩ := h.stack.liveAt.cons d ds hds
  have hmax := h.limit d hd
  have hroom : s.alloc.room = d + s.alloc.size - s.alloc.top := by
    rw [StackAllocator.room, if_pos (by omega), hmax]
  simp only
  omega

theorem allocate_none {a : StackAllocator} {n : Nat} (hn : ¬ n ≤ a.size) (c : Nat) :
    a.allocate n c = none := by
  have hturn : StackAllocator.allocateTurn n c a = .inr none := if_neg hn
  rw [StackAllocator.allocate, Loop.run_succ_inr hturn]
  rfl

/-- What the stack allocator changes: its top, and the chunks with the limit. -/
theorem allocate_chunks {a t : StackAllocator} {n c r : Nat} (h : a.allocate n c = some (r, t)) :
    t.size = a.size ∧ ((t.chunks = a.chunks ∧ t.max = a.max) ∨
      (t.chunks = c :: a.chunks ∧ t.max = c + a.size)) := by
  by_cases hn : n ≤ a.size
  · rw [StackAllocator.allocate_eq hn] at h
    split_ifs at h with hfilled
    · obtain ⟨-, rfl⟩ := Prod.mk.inj (some.inj h)
      exact ⟨rfl, Or.inr ⟨rfl, rfl⟩⟩
    · obtain ⟨-, rfl⟩ := Prod.mk.inj (some.inj h)
      exact ⟨rfl, Or.inl ⟨rfl, rfl⟩⟩
  · rw [allocate_none hn] at h
    cases h

/-- A block carved by the stack allocator. -/
theorem Holds.carve (h : Holds sizeofT s live carved frees) {c r : Nat} {t : StackAllocator}
    (hop : Contract sizeofT (s, live) (.allocate c)) (halloc : s.alloc.allocate sizeofT c = some (r, t)) :
    Holds sizeofT { s with alloc := t } (r :: live) (r :: carved) frees := by
  have hn : sizeofT ≤ s.alloc.size := by
    by_contra hn
    rw [allocate_none hn] at halloc
    cases halloc
  obtain ⟨hfirst, hlast, hspaced⟩ := hop
  obtain ⟨r', t', heq, hgood, -⟩ := StackAllocator.allocate_spec h.stack (n := sizeofT) (c := c) ⟨hn, hspaced⟩
  obtain ⟨rfl, rfl⟩ := Prod.mk.inj (some.inj (heq.symm.trans halloc))
  obtain ⟨hsize, hchunks⟩ := allocate_chunks halloc
  refine ⟨hgood (h.sound c), h.perm.cons r', h.links, ?_, ?_⟩
  -- the current chunk is the same, or the new one, whose limit is its end
  · intro d hd
    rcases hchunks with ⟨hsame, hmax⟩ | ⟨hnew, hmax⟩
    · simp only [hsame] at hd
      simp only [hmax, hsize]
      exact h.limit d hd
    · simp only [hnew, head?_cons, mem_some_iff] at hd
      simp only [hmax, hsize, hd]
  · intro d hd
    simp only at hd
    rw [hsize]
    rcases hchunks with ⟨hsame, -⟩ | ⟨hnew, -⟩
    · rw [hsame] at hd
      exact h.placed d hd
    · rw [hnew] at hd
      rcases mem_cons.mp hd with rfl | hd
      · exact ⟨hfirst, hlast⟩
      · exact h.placed d hd

/-- A live block put on the free list; its link lies in it. -/
theorem Holds.push (hT : sizeofBlockT ≤ sizeofT) (h : Holds sizeofT s live carved frees) {p : Nat}
    (hp : p ∈ live) : Holds sizeofT (s.free p) (live.erase p) carved (p :: frees) := by
  have hcarved : carved.Perm (live.erase p ++ p :: frees) :=
    h.perm.trans (((perm_cons_erase hp).append_right frees).trans perm_middle.symm)
  have hnext : next (s.free p).mem p = s.list := by
    rw [next, free, Memory.load_store]
    exact Nat.mod_eq_of_lt (h.list_lt hT)
  -- the link is not written over the other free blocks
  have hread : ∀ q ∈ frees, read (s.free p).mem q = read s.mem q := by
    intro q hq
    have hsame : next (s.free p).mem q = next s.mem q := by
      refine Memory.load_store_of_apart ?_
      have hapart := h.apart hp hq
      unfold Apart at hapart
      unfold sizeofBlockT at hT ⊢
      omega
    rw [read, read, hsame]
  refine ⟨h.stack, hcarved, ?_, h.limit, h.placed⟩
  refine ⟨pointer_of_ne (h.bounds (h.mem_carved.mpr (Or.inl hp))).1, pointer s.list, ?_, ?_⟩
  · rw [read, hnext]
  · refine h.links.congr fun x hx => ?_
    obtain ⟨q, hq, rfl⟩ := mem_map.mp hx
    exact hread q hq

/-- The free blocks are not written to. -/
theorem Holds.write (hT : sizeofBlockT ≤ sizeofT) (h : Holds sizeofT s live carved frees) {a : Nat}
    {v : UInt8} (hop : Contract sizeofT (s, live) (.write a v)) :
    Holds sizeofT { s with mem := update s.mem a v } live carved frees := by
  have hout : ∀ q ∈ frees, ¬ (q ≤ a ∧ a < q + sizeofT) := by
    intro q hq
    rcases hop with ⟨p, hp, hin⟩ | hchunks
    · have hapart := h.apart hp hq
      unfold Apart at hapart
      omega
    · obtain ⟨c, hc, hlow, hhigh⟩ := h.owned (h.mem_carved.mpr (Or.inr hq))
      have hnot := hchunks c hc
      simp only at hlow hhigh hnot
      omega
  refine ⟨h.stack, h.perm, h.links.congr fun x hx => ?_, h.limit, h.placed⟩
  obtain ⟨q, hq, rfl⟩ := mem_map.mp hx
  have hsame : next (update s.mem a v) q = next s.mem q := by
    refine Memory.load_congr fun x hlow hhigh => update_of_ne ?_ _ _
    have hnot := hout q hq
    unfold sizeofBlockT at hT hhigh
    omega
  rw [read, read, hsame]

/-- Every call keeps the invariant. -/
theorem Holds.step (hT : sizeofBlockT ≤ sizeofT) (h : Holds sizeofT s live carved frees) {op : Op}
    {st : RawBlockAllocator × List Nat} (hop : Contract sizeofT (s, live) op)
    (hst : step sizeofT (s, live) op = some st) : ∃ carved' frees', Holds sizeofT st.1 st.2 carved' frees' := by
  cases op with
  | allocate c =>
    obtain ⟨⟨r, t⟩, halloc, rfl⟩ := map_eq_some_iff.mp hst
    by_cases hlist : s.list ≠ 0
    · -- the first free block is used again
      simp only [allocate, if_pos hlist] at halloc
      obtain ⟨rfl, rfl⟩ := Prod.mk.inj (some.inj halloc)
      exact ⟨carved, h.pop hlist⟩
    · simp only [allocate, if_neg hlist] at halloc
      obtain ⟨⟨r', a⟩, hcarve, heq⟩ := map_eq_some_iff.mp halloc
      obtain ⟨rfl, rfl⟩ := Prod.mk.inj heq
      exact ⟨r' :: carved, frees, h.carve hop hcarve⟩
  | free p =>
    obtain rfl := some.inj hst
    exact ⟨carved, p :: frees, h.push hT hop⟩
  | write a v =>
    obtain rfl := some.inj hst
    exact ⟨carved, frees, h.write hT hop⟩

/-! ## Elements smaller than a link -/

/-- The allocator before the first call, with chunks of `n` bytes. -/
def start (n : Nat) (mem : Nat → UInt8) : RawBlockAllocator := ⟨⟨[], 0, 0, n⟩, 0, mem⟩

theorem new_eq {blockPerChunk : Int} (mem : Nat → UInt8) (hT : 0 < sizeofT) (hone : 1 ≤ blockPerChunk)
    (hint : blockPerChunk < 2 ^ 31) :
    ∃ n : Nat, new sizeofT blockPerChunk mem = some (start n mem) ∧
      (n : Int) = (min sizeofT sizeofBlockT : Nat) * blockPerChunk ∧ 0 < n := by
  have hmin : 1 ≤ min sizeofT sizeofBlockT ∧ min sizeofT sizeofBlockT ≤ 8 :=
    ⟨le_min hT (by decide), min_le_right _ _⟩
  -- the product has no overflow
  have hlow : (1 : Int) ≤ (min sizeofT sizeofBlockT : Nat) * blockPerChunk := by
    have hmul := Int.mul_le_mul (by omega : (1 : Int) ≤ (min sizeofT sizeofBlockT : Nat)) hone
      (by decide) (by omega)
    omega
  have hhigh : ((min sizeofT sizeofBlockT : Nat) : Int) * blockPerChunk ≤ 8 * 2 ^ 31 :=
    Int.mul_le_mul (by omega) hint.le (by omega) (by decide)
  have hsize : (chunkSize sizeofT blockPerChunk : Int) =
      (min sizeofT sizeofBlockT : Nat) * blockPerChunk := by
    rw [chunkSize, Int.emod_eq_of_lt (by omega) (by omega), Int.toNat_of_nonneg (by omega)]
  have hpos : chunkSize sizeofT blockPerChunk ≠ 0 := by omega
  refine ⟨chunkSize sizeofT blockPerChunk, ?_, hsize, by omega⟩
  rw [new, StackAllocator.new, if_pos hpos]
  rfl

/-- The first block, at the start of the first chunk. -/
theorem step_first {n : Nat} (mem : Nat → UInt8) (hn : sizeofT ≤ n) (c : Nat) :
    step sizeofT (start n mem, []) (.allocate c) =
      some (⟨⟨[c], c + n, c + sizeofT, n⟩, 0, mem⟩, [c]) := by
  have halloc := StackAllocator.allocate_eq (s := ⟨[], 0, 0, n⟩) hn c
  simp only [true_or, if_true] at halloc
  simp only [step, allocate, start, ne_eq, not_true_eq_false, if_false, halloc]
  rfl

/-- The second block follows the first one. -/
theorem step_second {n c : Nat} (mem : Nat → UInt8) (hn : sizeofT + sizeofT ≤ n) (d : Nat) :
    step sizeofT (⟨⟨[c], c + n, c + sizeofT, n⟩, 0, mem⟩, [c]) (.allocate d) =
      some (⟨⟨[c], c + n, c + sizeofT + sizeofT, n⟩, 0, mem⟩, [c + sizeofT, c]) := by
  have hsize : sizeofT ≤ n := by omega
  have halloc := StackAllocator.allocate_eq (s := ⟨[c], c + n, c + sizeofT, n⟩) hsize d
  have hroom : ¬ (([c] : List Nat) = [] ∨ StackAllocator.room ⟨[c], c + n, c + sizeofT, n⟩ < sizeofT) := by
    rw [StackAllocator.room, if_pos (by simp only; omega)]
    simp only [cons_ne_nil, false_or]
    omega
  rw [if_neg hroom] at halloc
  simp only [step, allocate, ne_eq, not_true_eq_false, if_false, halloc]
  rfl

/-- A first block with room for a link needs a chunk of this size, and the second block must then
start after the link of the first one. -/
theorem sizeof_le_of_safe {n : Nat} {blockPerChunk : Int} (mem : Nat → UInt8) (hT : 0 < sizeofT)
    (hone : 1 ≤ blockPerChunk) (hint : blockPerChunk < 2 ^ 31)
    (hn : (n : Int) = (min sizeofT sizeofBlockT : Nat) * blockPerChunk)
    (hsafe : ∀ ops s live, Run.Meets (Contract sizeofT) (step sizeofT) (start n mem, []) ops →
      Run.exec (step sizeofT) (start n mem, []) ops = some (s, live) → Safe sizeofT s live) :
    sizeofBlockT ≤ sizeofT := by
  by_contra hsmall
  have hmin : min sizeofT sizeofBlockT = sizeofT := min_eq_left (by omega)
  have hextent : extent sizeofT = sizeofBlockT := max_eq_right (by omega)
  have hlimit : sizeofBlockT = 8 := rfl
  rw [hmin] at hn
  have hbound : (n : Int) ≤ 8 * 2 ^ 31 :=
    hn ▸ Int.mul_le_mul (by omega) hint.le (by omega) (by decide)
  have hle : sizeofT ≤ n := by
    have hmul := Int.mul_le_mul_of_nonneg_left hone (by omega : (0 : Int) ≤ sizeofT)
    omega
  have hcontract : Contract sizeofT (start n mem, []) (.allocate 8) :=
    ⟨le_rfl, by simp only [start]; omega, by simp [start]⟩
  have hfirst := step_first mem hle 8
  -- the first block has room for a link, so that the chunk has at least two elements
  have hone' := hsafe [.allocate 8] _ _ (Run.meets_cons hcontract hfirst trivial)
    (Run.exec_cons_eq_some.mpr ⟨_, hfirst, rfl⟩)
  have hchunk : sizeofBlockT ≤ n := by
    obtain ⟨c, hc, hin⟩ := hone'.owned 8 (by simp)
    obtain rfl := mem_singleton.mp hc
    rw [hextent] at hin
    simp only at hin
    omega
  have htwo : sizeofT + sizeofT ≤ n := by
    have hcount : 2 ≤ blockPerChunk := by
      by_contra hlt
      obtain rfl : blockPerChunk = 1 := by omega
      omega
    have hmul := Int.mul_le_mul_of_nonneg_left hcount (by omega : (0 : Int) ≤ sizeofT)
    omega
  have hsecond := step_second (c := 8) mem htwo (8 + n + 8)
  have hspaced : Contract sizeofT (⟨⟨[8], 8 + n, 8 + sizeofT, n⟩, 0, mem⟩, [8])
      (.allocate (8 + n + 8)) := by
    refine ⟨by unfold sizeofChunk; omega, by simp only; omega, fun d hd => Or.inr ?_⟩
    obtain rfl := mem_singleton.mp hd
    exact le_rfl
  have htwo' := hsafe [.allocate 8, .allocate (8 + n + 8)] _ _
    (Run.meets_cons hcontract hfirst (Run.meets_cons hspaced hsecond trivial))
    (Run.exec_cons_eq_some.mpr ⟨_, hfirst, Run.exec_cons_eq_some.mpr ⟨_, hsecond, rfl⟩⟩)
  have hapart := (pairwise_cons.mp htwo'.apart).1 8 (by simp)
  rw [hextent] at hapart
  unfold Apart at hapart
  omega

/-! ## The runs -/

/-- An element not larger than a chunk is always given a block. -/
theorem step_isSome {st : RawBlockAllocator × List Nat} (hn : sizeofT ≤ st.1.alloc.size) (op : Op) :
    ∃ st', step sizeofT st op = some st' ∧ sizeofT ≤ st'.1.alloc.size := by
  cases op with
  | allocate c =>
    by_cases hlist : st.1.list ≠ 0
    · refine ⟨_, by simp only [step, allocate, if_pos hlist]; rfl, ?_⟩
      exact hn
    · have halloc := StackAllocator.allocate_eq hn c
      obtain ⟨hsize, -⟩ := allocate_chunks halloc
      refine ⟨_, by simp only [step, allocate, if_neg hlist, halloc]; rfl, ?_⟩
      exact hn.trans hsize.ge
  | free p => exact ⟨_, rfl, hn⟩
  | write a v => exact ⟨_, rfl, hn⟩

/-- In every state of every run, the live blocks lie in the chunks and do not overlap, with room for an
element and for a link, if and only if an element is at least as large as a link; no assertion fails if
and only if an element is not larger than `block_per_chunk` links. -/
theorem blocks_iff (sizeofT : Nat) (blockPerChunk : Int) (mem : Nat → UInt8) (hT : 0 < sizeofT)
    (hone : 1 ≤ blockPerChunk) (hint : blockPerChunk < 2 ^ 31) :
    ∃ s₀, new sizeofT blockPerChunk mem = some s₀ ∧
      ((∀ ops s live, Run.Meets (Contract sizeofT) (step sizeofT) (s₀, []) ops →
          Run.exec (step sizeofT) (s₀, []) ops = some (s, live) → Safe sizeofT s live) ↔
        sizeofBlockT ≤ sizeofT) ∧
      ((∀ ops, Run.Meets (Contract sizeofT) (step sizeofT) (s₀, []) ops →
          (Run.exec (step sizeofT) (s₀, []) ops).isSome) ↔
        (sizeofT : Int) ≤ sizeofBlockT * blockPerChunk) := by
  obtain ⟨n, hnew, hn, hpos⟩ := new_eq mem hT hone hint
  refine ⟨_, hnew, ⟨sizeof_le_of_safe mem hT hone hint hn, fun hlink => ?_⟩, ?_⟩
  · intro ops s live hmeets hexec
    have hstart : ∃ carved frees, Holds sizeofT (start n mem) [] carved frees := by
      have hstack : StackAllocator.new n = some ⟨[], 0, 0, n⟩ := if_pos hpos.ne'
      refine ⟨[], [], StackAllocator.invariant_of_new hstack, Perm.refl _, rfl, ?_, ?_⟩
      · simp [start]
      · simp [start]
    obtain ⟨carved, frees, hholds⟩ := Run.exec_invariant
      (fun st : RawBlockAllocator × List Nat => ∃ carved frees, Holds sizeofT st.1 st.2 carved frees)
      (fun st op st' ⟨_, _, hst⟩ hop hstep => hst.step hlink hop hstep) ops _ _ hstart hmeets hexec
    exact hholds.safe hlink
  · have hsize : (sizeofT : Int) ≤ sizeofBlockT * blockPerChunk ↔ sizeofT ≤ n := by
      rcases le_total sizeofT sizeofBlockT with hle | hle
      · rw [min_eq_left hle] at hn
        have hself := Int.mul_le_mul_of_nonneg_left hone (by omega : (0 : Int) ≤ sizeofT)
        have hmul := Int.mul_le_mul_of_nonneg_right (by omega : (sizeofT : Int) ≤ sizeofBlockT)
          (by omega : 0 ≤ blockPerChunk)
        omega
      · rw [min_eq_right hle] at hn
        omega
    rw [hsize]
    constructor
    · intro hruns
      by_contra hlarge
      have hcontract : Contract sizeofT (start n mem, []) (.allocate 8) := by
        refine ⟨le_rfl, ?_, by simp [start]⟩
        have hbound : (n : Int) ≤ 8 * 2 ^ 31 :=
          hn ▸ Int.mul_le_mul (Int.ofNat_le.mpr (min_le_right _ _)) hint.le (by omega) (by decide)
        simp only [start]
        omega
      have hnone : step sizeofT (start n mem, []) (.allocate 8) = none := by
        have halloc := allocate_none (a := ⟨[], 0, 0, n⟩) hlarge 8
        simp [step, allocate, start, halloc]
      have hsome := hruns [.allocate 8] ⟨hcontract, fun s' hs' => by simp [hnone] at hs'⟩
      simp [Run.exec, hnone] at hsome
    · intro hle ops hmeets
      obtain ⟨st, hexec, -⟩ := Run.exists_exec_of_meets
        (fun st : RawBlockAllocator × List Nat => sizeofT ≤ st.1.alloc.size)
        (fun _ op hst _ => step_isSome hst op) ops _ hle hmeets
      rw [hexec]
      rfl

/-- Elements of 24 bytes in chunks of 32 links. -/
theorem blocks_iff_default :
    ∃ s₀, new 24 32 (fun _ => 0) = some s₀ ∧
      ((∀ ops s live, Run.Meets (Contract 24) (step 24) (s₀, []) ops →
          Run.exec (step 24) (s₀, []) ops = some (s, live) → Safe 24 s live) ↔ sizeofBlockT ≤ 24) ∧
      ((∀ ops, Run.Meets (Contract 24) (step 24) (s₀, []) ops →
          (Run.exec (step 24) (s₀, []) ops).isSome) ↔ ((24 : Nat) : Int) ≤ sizeofBlockT * 32) :=
  blocks_iff 24 32 (fun _ => 0) (by decide) (by decide) (by decide)

/-- Elements of 4 bytes: the link of the first block goes over the second one. -/
theorem not_blocks :
    ¬ ∀ (sizeofT : Nat) (blockPerChunk : Int) (mem : Nat → UInt8) (s₀ s : RawBlockAllocator)
        (ops : List Op) (live : List Nat), 0 < sizeofT → 1 ≤ blockPerChunk → blockPerChunk < 2 ^ 31 →
      new sizeofT blockPerChunk mem = some s₀ →
      Run.Meets (Contract sizeofT) (step sizeofT) (s₀, []) ops →
      Run.exec (step sizeofT) (s₀, []) ops = some (s, live) → Safe sizeofT s live := by
  intro h
  have hfirst : step 4 (⟨⟨[], 0, 0, 8⟩, 0, fun _ => 0⟩, []) (.allocate 16) =
      some (⟨⟨[16], 24, 20, 8⟩, 0, fun _ => 0⟩, [16]) := rfl
  have hsecond : step 4 (⟨⟨[16], 24, 20, 8⟩, 0, fun _ => 0⟩, [16]) (.allocate 32) =
      some (⟨⟨[16], 24, 24, 8⟩, 0, fun _ => 0⟩, [20, 16]) := rfl
  have hsafe := h 4 2 (fun _ => 0) ⟨⟨[], 0, 0, 8⟩, 0, fun _ => 0⟩ _ [.allocate 16, .allocate 32] _
    (by decide) (by decide) (by decide) rfl
    (Run.meets_cons ⟨by decide, by decide, by simp⟩ hfirst
      (Run.meets_cons ⟨by decide, by decide, by simp [StackAllocator.Spaced, sizeofChunk]⟩ hsecond trivial))
    (Run.exec_cons_eq_some.mpr ⟨_, hfirst, Run.exec_cons_eq_some.mpr ⟨_, hsecond, rfl⟩⟩)
  have hapart := (pairwise_cons.mp hsafe.apart).1 16 (by simp)
  simp [Apart, extent, sizeofBlockT] at hapart

end Elm.Alloc.RawBlockAllocator
