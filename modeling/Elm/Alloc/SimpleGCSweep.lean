import Elm.Alloc.SimpleGC
import Elm.Lib.Runs

/-!
# Collections of `SimpleGC`

A collection sets the bits of the cells covered by the marked blocks and then rebuilds the free list
from the maximal runs of zeroes of each chunk.
-/

namespace Elm.Alloc.SimpleGC

open Chain Util Stree Runs Function List

/-! ## Where the blocks are -/

/-- The chunks are made of cells and do not overlap. -/
structure Chunks (s : SimpleGC) : Prop where
  csize_eq : s.csize = s.cells * sizeofBlock
  pos : ∀ c ∈ s.chunks, 0 < s.cells
  disjoint : s.chunks.Pairwise fun c d => c + s.csize ≤ d ∨ d + s.csize ≤ c

/-- A block of `n` bytes at `a` is made of cells of one chunk. -/
def InChunk (s : SimpleGC) (a n : Nat) : Prop :=
  ∃ c ∈ s.chunks, ∃ p, a = c + p * sizeofBlock ∧ a + n ≤ c + s.csize

/-- The cell at `x` is covered by one of the marked blocks. -/
def Covered (marks : List (Nat × Nat)) (x : Nat) : Prop := ∃ b ∈ marks, b.1 ≤ x ∧ x < b.1 + b.2

instance (marks : List (Nat × Nat)) (x : Nat) : Decidable (Covered marks x) :=
  inferInstanceAs (Decidable (∃ b ∈ marks, _))

theorem round_eq (n : Nat) : round n = (n + 15) / 16 * 16 := rfl

theorem le_round (n : Nat) : n ≤ round n := by
  rw [round_eq]
  omega

variable {s : SimpleGC}

theorem Chunks.disjoint_of_mem (h : Chunks s) {c d : Nat} (hc : c ∈ s.chunks) (hd : d ∈ s.chunks)
    (hne : c ≠ d) : c + s.csize ≤ d ∨ d + s.csize ≤ c := by
  have hsymm : Std.Symm fun c d : Nat => c + s.csize ≤ d ∨ d + s.csize ≤ c :=
    ⟨fun _ _ h => h.symm⟩
  exact h.disjoint.forall hc hd hne

/-- The chunk of an address is unique. -/
theorem Chunks.eq_of_mem (h : Chunks s) {c d x : Nat} (hc : c ∈ s.chunks) (hd : d ∈ s.chunks)
    (hxc : c ≤ x ∧ x < c + s.csize) (hxd : d ≤ x ∧ x < d + s.csize) : c = d := by
  by_contra hne
  have hdisj := h.disjoint_of_mem hc hd hne
  omega

theorem Chunks.csize_pos (h : Chunks s) {c : Nat} (hc : c ∈ s.chunks) : 0 < s.csize := by
  have hpos := h.pos c hc
  rw [h.csize_eq, sizeofBlock]
  omega

/-! ## The start of a collection -/

/-- The chunk found for an address of its buffer. -/
def Finds (s : SimpleGC) (st : Tree Nat (Option Nat)) : Prop :=
  ∀ c ∈ s.chunks, ∀ x, c ≤ x → x < c + s.csize → Tree.getRef compare st x = some (some c)

/-- The bits set so far are those of the cells covered by the marked blocks. -/
def Marked (s : SimpleGC) (marks : List (Nat × Nat)) (coll : Collection) : Prop :=
  ∀ c ∈ s.chunks, (coll.bits c).size = s.cells ∧
    ∀ i < s.cells, (coll.bits c).bit i = some (decide (Covered marks (c + i * sizeofBlock)))

theorem separated_of_disjoint {cs : List Nat} {n : Nat} (hn : 0 < n)
    (hdisj : cs.Pairwise fun c d => c + n ≤ d ∨ d + n ≤ c) :
    Separated (compare : Nat → Nat → Ordering) (cs.map fun c => ((c, c + n), some c)) where
  nonempty := by
    intro x hx
    obtain ⟨c, -, rfl⟩ := mem_map.mp hx
    exact Nat.compare_eq_lt.mpr (Nat.lt_add_of_pos_right hn)
  disjoint := by
    refine pairwise_map.mpr (hdisj.imp ?_)
    rintro c d hdisj key ⟨hc, hd⟩
    simp only [covers_iff, Nat.isLE_compare, Nat.compare_eq_lt] at hc hd
    omega

/-- The search tree built for buffers of `n` bytes finds the buffer of an address. -/
theorem exists_tree {cs : List Nat} {n : Nat} (hn : ∀ c ∈ cs, 0 < n)
    (hdisj : cs.Pairwise fun c d => c + n ≤ d ∨ d + n ≤ c) :
    ∃ st, (SegmentBuilder.ofSegments compare none (cs.map fun c => ((c, c + n), some c))).make
        compare ⟨null, []⟩ = some st ∧
      ∀ c ∈ cs, ∀ x, c ≤ x → x < c + n → Tree.getRef compare st x = some (some c) := by
  by_cases hnil : cs = []
  · -- no chunk: the tree is left unset
    subst hnil
    exact ⟨⟨null, []⟩, rfl, by simp⟩
  · obtain ⟨d, hd⟩ := exists_mem_of_ne_nil cs hnil
    obtain ⟨st, hmake, hfind⟩ := find_of_covers (none : Option Nat) _ ⟨null, []⟩
      (by simpa using hnil) (separated_of_disjoint (hn d hd) hdisj)
    refine ⟨st, hmake, ?_⟩
    intro c hc x hlow hhigh
    have hx := hfind ((c, c + n), some c) (mem_map.mpr ⟨c, hc, rfl⟩) x
      (covers_iff.mpr ⟨Nat.isLE_compare.mpr hlow, Nat.compare_eq_lt.mpr hhigh⟩)
    rw [Tree.getRef, hx]
    rfl

/-- Each chunk gets a bit vector of its own, without a bit set. -/
theorem bits_spec (cs : List Nat) (hcs : ∀ c ∈ cs, 0 < s.cells) (bits₀ : Nat → BitVector) :
    ∃ bits, cs.foldlM
        (fun bits c => (BitVector.new s.cells false).map fun b => update bits c b) bits₀ =
          some bits ∧
      ∀ c ∈ cs, (bits c).size = s.cells ∧ (bits c).view = replicate s.cells false := by
  obtain ⟨bits, hfold, hbits, -⟩ := Loop.exists_foldlM_update (fun c : Nat => c)
    (fun _ => BitVector.new s.cells false)
    (fun _ b => b.size = s.cells ∧ b.view = replicate s.cells false) cs
    (fun c hc => BitVector.new_spec (hcs c hc) false) (fun _ _ _ _ h => h) bits₀
  exact ⟨bits, hfold, hbits⟩

/-- A collection starts with a search tree for the chunks and no bit set. -/
theorem beginGC_spec (h : Chunks s) :
    ∃ coll, s.beginGC = some coll ∧ Finds s coll.st ∧ Marked s [] coll := by
  obtain ⟨bits, hfold, hbits⟩ := bits_spec s.chunks h.pos fun _ => BitVector.empty
  obtain ⟨st, hmake, hfind⟩ := exists_tree (fun c hc => h.csize_pos hc) h.disjoint
  refine ⟨⟨bits, st⟩, by rw [beginGC, hmake, hfold], hfind, ?_⟩
  intro c hc
  obtain ⟨hsize, hview⟩ := hbits c hc
  refine ⟨hsize, fun i hi => ?_⟩
  rw [BitVector.bit_eq, hview]
  simp [hi, Covered]

/-! ## Marking -/

theorem markCells_spec (k : Nat) : ∀ (i : Nat) (res : Bool) (bits : BitVector),
    i + k ≤ bits.size → ∃ res' bits', markCells k i res bits = some (res', bits') ∧
      bits'.size = bits.size ∧
      ∀ j, bits'.bit j = if i ≤ j ∧ j < i + k then some true else bits.bit j := by
  induction k with
  | zero =>
    intro i res bits _
    refine ⟨res, bits, rfl, rfl, fun j => ?_⟩
    rw [if_neg (by omega)]
  | succ k ih =>
    intro i res bits hik
    have hi : i < bits.size := by omega
    obtain ⟨value, hbit⟩ := BitVector.bit_eq_some hi
    cases value with
    | true =>
      obtain ⟨res', bits', hmark, hsize, hbits⟩ := ih (i + 1) res bits (by omega)
      refine ⟨res', bits', by simp [markCells, hbit, hmark], hsize, fun j => ?_⟩
      rw [hbits j]
      by_cases hji : j = i
      · subst hji
        simp [hbit]
      · have hiff : (i + 1 ≤ j ∧ j < i + 1 + k) ↔ (i ≤ j ∧ j < i + (k + 1)) := by omega
        simp only [hiff]
    | false =>
      obtain ⟨bits₁, hset, hsize₁, hview, -⟩ := BitVector.set_spec hi
      obtain ⟨res', bits', hmark, hsize, hbits⟩ := ih (i + 1) false bits₁ (by omega)
      refine ⟨res', bits', by simp [markCells, hbit, hset, hmark], by omega, fun j => ?_⟩
      rw [hbits j, BitVector.bit_eq, BitVector.bit_eq, hview, getElem?_set]
      by_cases hji : i = j
      · subst hji
        simp [hi]
      · have hiff : (i + 1 ≤ j ∧ j < i + 1 + k) ↔ (i ≤ j ∧ j < i + (k + 1)) := by omega
        simp only [hiff, hji, if_false]

/-- Marking a block of the heap sets the bits of its cells. -/
theorem mark_of_inChunk (h : Chunks s) {marks : List (Nat × Nat)} {coll : Collection}
    (hfinds : Finds s coll.st) (hmarked : Marked s marks coll) {a n : Nat} (hn : 0 < n)
    (hin : InChunk s a n) :
    ∃ res coll', mark coll a n = some (res, coll') ∧ coll'.st = coll.st ∧
      Marked s (marks ++ [(a, n)]) coll' := by
  obtain ⟨c, hc, p, rfl, hend⟩ := hin
  obtain ⟨hsize, hbits⟩ := hmarked c hc
  have hcsize := h.csize_eq
  simp only [sizeofBlock] at hend hcsize
  have hget := hfinds c hc (c + p * sizeofBlock) (by simp only [sizeofBlock]; omega)
    (by simp only [sizeofBlock]; omega)
  have hindex : (c + p * sizeofBlock - c) / sizeofBlock = p := by
    simp only [sizeofBlock]
    omega
  obtain ⟨res, bits', hmark, hsize', hbits'⟩ := markCells_spec ((n + sizeofBlock - 1) / sizeofBlock) p
    true (coll.bits c) (by simp only [sizeofBlock]; omega)
  refine ⟨res, { coll with bits := update coll.bits c bits' }, ?_, rfl, ?_⟩
  · simp only [mark, hget, hindex, hmark]
    rfl
  · intro d hd
    -- a mark more matters for the cells that it covers only
    have hmore : ∀ x, Covered (marks ++ [(c + p * sizeofBlock, n)]) x ↔
        Covered marks x ∨ (c + p * sizeofBlock ≤ x ∧ x < c + p * sizeofBlock + n) := by
      intro x
      simp only [Covered, mem_append, mem_singleton, or_and_right, exists_or,
        exists_eq_left]
    by_cases hdc : d = c
    · subst hdc
      simp only [update_self]
      refine ⟨hsize'.trans hsize, fun i hi => ?_⟩
      have hcell : (p ≤ i ∧ i < p + (n + sizeofBlock - 1) / sizeofBlock) ↔
          (d + p * sizeofBlock ≤ d + i * sizeofBlock ∧
            d + i * sizeofBlock < d + p * sizeofBlock + n) := by
        simp only [sizeofBlock]
        omega
      rw [hbits' i]
      by_cases hcov : p ≤ i ∧ i < p + (n + sizeofBlock - 1) / sizeofBlock
      · rw [if_pos hcov, decide_eq_true ((hmore _).mpr (Or.inr (hcell.mp hcov)))]
      · have hnot := mt hcell.mpr hcov
        rw [if_neg hcov, hbits i hi]
        simp only [hmore, hnot, or_false]
    · simp only [update_of_ne hdc]
      obtain ⟨hsized, hbitsd⟩ := hmarked d hd
      refine ⟨hsized, fun i hi => ?_⟩
      have hdisj := h.disjoint_of_mem hc hd (Ne.symm hdc)
      have hnot : ¬ (c + p * sizeofBlock ≤ d + i * sizeofBlock ∧
          d + i * sizeofBlock < c + p * sizeofBlock + n) := by
        simp only [sizeofBlock]
        omega
      rw [hbitsd i hi]
      simp only [hmore, hnot, or_false]

/-- Marking a block of no byte sets no bit. -/
theorem mark_zero {coll coll' : Collection} {a : Nat} {res : Bool}
    (hmark : mark coll a 0 = some (res, coll')) : coll' = coll := by
  unfold mark at hmark
  split at hmark
  · have hcoll : _ = coll' := congrArg Prod.snd (Option.some.inj hmark)
    rw [← hcoll]
    simp
  · cases hmark

theorem mark_spec (h : Chunks s) {marks : List (Nat × Nat)} {coll : Collection}
    (hfinds : Finds s coll.st) (hmarked : Marked s marks coll) {a n : Nat}
    (hin : 0 < n → InChunk s a n) :
    (0 < n → (mark coll a n).isSome) ∧ ∀ res coll', mark coll a n = some (res, coll') →
      Finds s coll'.st ∧ Marked s (marks ++ [(a, n)]) coll' := by
  rcases Nat.eq_zero_or_pos n with rfl | hn
  · refine ⟨fun hpos => absurd hpos (lt_irrefl 0), fun res coll' hmark => ?_⟩
    obtain rfl := mark_zero hmark
    refine ⟨hfinds, fun c hc => ⟨(hmarked c hc).1, fun i hi => ?_⟩⟩
    rw [(hmarked c hc).2 i hi]
    have hiff : ∀ x, Covered (marks ++ [(a, 0)]) x ↔ Covered marks x := by
      intro x
      have hnot : ¬ (a ≤ x ∧ x < a + 0) := by omega
      simp only [Covered, mem_append, mem_singleton, or_and_right, exists_or,
        exists_eq_left, hnot, or_false]
    simp only [hiff]
  · obtain ⟨res, coll', hmark, hst, hmarked'⟩ := mark_of_inChunk h hfinds hmarked hn (hin hn)
    refine ⟨fun _ => by rw [hmark]; rfl, fun res₁ coll₁ hmark₁ => ?_⟩
    obtain ⟨-, rfl⟩ := Prod.mk.inj (Option.some.inj (hmark.symm.trans hmark₁))
    exact ⟨hst ▸ hfinds, hmarked'⟩

/-- The calls of `mark` set the bits of the cells of the marked blocks. -/
theorem collect_spec (h : Chunks s) (marks : List (Nat × Nat)) :
    ∀ (before : List (Nat × Nat)) (coll : Collection), Finds s coll.st → Marked s before coll →
      (∀ b ∈ marks, 0 < b.2 → InChunk s b.1 b.2) →
      ((∀ b ∈ marks, 0 < b.2) → (collect coll marks).isSome) ∧
        ∀ coll', collect coll marks = some coll' → Marked s (before ++ marks) coll' := by
  induction marks with
  | nil =>
    intro before coll _ hmarked _
    refine ⟨fun _ => rfl, fun coll' hcollect => ?_⟩
    obtain rfl := Option.some.inj hcollect
    simpa using hmarked
  | cons b marks ih =>
    intro before coll hfinds hmarked hin
    obtain ⟨hsome, hnext⟩ := mark_spec h hfinds hmarked (hin b (by simp))
    cases hmark : mark coll b.1 b.2 with
    | none =>
      rw [hmark] at hsome
      have hfail : collect coll (b :: marks) = none := by
        rw [collect, foldlM_cons, hmark]
        rfl
      rw [hfail]
      refine ⟨fun hpos => ?_, fun coll' hcollect => by cases hcollect⟩
      exact absurd (hsome (hpos b (by simp))) (by simp)
    | some res =>
      obtain ⟨hfinds', hmarked'⟩ := hnext res.1 res.2 hmark
      have hstep : collect coll (b :: marks) = collect res.2 marks := by
        rw [collect, foldlM_cons, hmark]
        rfl
      rw [hstep]
      have hrest := ih (before ++ [b]) res.2 hfinds' hmarked' fun b' hb' =>
        hin b' (mem_cons_of_mem _ hb')
      rw [append_assoc, singleton_append] at hrest
      exact ⟨fun hpos => hrest.1 fun b' hb' => hpos b' (mem_cons_of_mem _ hb'), hrest.2⟩

/-! ## The sweep -/

/-- The cell `i` of the chunk `c` is covered by no marked block. -/
def Unmarked (marks : List (Nat × Nat)) (c i : Nat) : Prop := ¬ Covered marks (c + i * sizeofBlock)

/-- The free blocks made of the runs `rs` of the chunk `c`, the last one first. -/
def freeBlocks (c : Nat) (rs : List (Nat × Nat)) : List (Nat × Nat) :=
  rs.reverse.map fun r => (c + r.1 * sizeofBlock, (r.2 - r.1) * sizeofBlock)

theorem freeBlocks_append (c : Nat) (rs : List (Nat × Nat)) (r : Nat × Nat) :
    freeBlocks c (rs ++ [r]) =
      (c + r.1 * sizeofBlock, (r.2 - r.1) * sizeofBlock) :: freeBlocks c rs := by
  simp [freeBlocks]

theorem mem_freeBlocks {c : Nat} {rs : List (Nat × Nat)} {x : Nat × Nat} :
    x ∈ freeBlocks c rs ↔
      ∃ b e, (b, e) ∈ rs ∧ x = (c + b * sizeofBlock, (e - b) * sizeofBlock) := by
  simp only [freeBlocks, mem_map, mem_reverse, Prod.exists, eq_comm]

/-- The two heaps have the same chunks. -/
structure SameChunks (s t : SimpleGC) : Prop where
  csize : t.csize = s.csize
  chunks : t.chunks = s.chunks

theorem SameChunks.refl (s : SimpleGC) : SameChunks s s := ⟨rfl, rfl⟩

theorem SameChunks.trans {t u : SimpleGC} (h : SameChunks s t) (h' : SameChunks t u) :
    SameChunks s u :=
  ⟨h'.csize.trans h.csize, h'.chunks.trans h.chunks⟩

theorem SameChunks.cells {t : SimpleGC} (h : SameChunks s t) : t.cells = s.cells := by
  rw [SimpleGC.cells, h.csize, SimpleGC.cells]

/-- The state of the loop of `endGC` in a chunk: the runs up to the cell `i` are chained before the
free blocks of the chunks swept earlier. -/
structure SweptUpTo (s : SimpleGC) (marks : List (Nat × Nat)) (c i : Nat) (t : SimpleGC) : Prop where
  same : SameChunks s t
  le : i ≤ s.cells
  boundary : Boundary (Unmarked marks c) s.cells i
  runs : ∃ rs, Collected (Unmarked marks c) s.cells i rs ∧
    Seg t.read t.freeList (freeBlocks c rs) s.freeList
  frame : ∀ a, (∀ j < s.cells, a ≠ c + j * sizeofBlock) → t.mem a = s.mem a

/-- The bits of a chunk tell which of its cells are covered. -/
structure Bitmap (s : SimpleGC) (marks : List (Nat × Nat)) (c : Nat) (bits : BitVector) : Prop where
  size : bits.size = s.cells
  bit : ∀ i < s.cells, bits.bit i = some (decide (Covered marks (c + i * sizeofBlock)))

theorem Bitmap.unmarked_iff {marks : List (Nat × Nat)} {c : Nat} {bits : BitVector}
    (h : Bitmap s marks c bits) {i : Nat} (hi : i < s.cells) (skip : Bool) :
    bits.bit i = some skip ↔ (Unmarked marks c i ↔ skip = false) := by
  rw [h.bit i hi, Option.some.injEq, Unmarked]
  cases skip <;> simp

theorem sweepTurn_spec {marks : List (Nat × Nat)} {c : Nat} {bits : BitVector}
    (hbits : Bitmap s marks c bits) {t : SimpleGC} {i : Nat} (ht : SweptUpTo s marks c i t)
    (hi : i < s.cells) :
    ∃ t' i', sweepTurn bits s.cells c (t, i) = .inl (t', i') ∧ i < i' ∧
      SweptUpTo s marks c i' t' := by
  obtain ⟨rs, hrs, hseg⟩ := ht.runs
  have hsize := hbits.size
  obtain ⟨hle, hskip⟩ := bits.seek_skips true (i := i) (by omega)
  obtain ⟨-, hge, hstop⟩ := bits.seek_spec true i
  have hmarked : ∀ j, i ≤ j → j < bits.seek true i → ¬ Unmarked marks c j := by
    intro j hij hj hun
    have hiff := (hbits.unmarked_iff (by omega) true).mp (hskip j hij hj)
    exact absurd (hiff.mp hun) (by decide)
  by_cases hb : bits.seek true i < s.cells
  · -- a run starts at `b` and ends at `e`
    obtain ⟨hle', hskip'⟩ := bits.seek_skips false (i := bits.seek true i + 1) (by omega)
    obtain ⟨-, hge', hstop'⟩ := bits.seek_spec false (bits.seek true i + 1)
    generalize hbeq : bits.seek true i = b at *
    generalize heeq : bits.seek false (b + 1) = e at *
    have hrun : IsRun (Unmarked marks c) s.cells b e := by
      refine isRun_next ht.boundary hge hmarked (by omega) (by omega) ?_ ?_
      · intro j hbj hje
        by_cases hj : j = b
        · subst hj
          exact ((hbits.unmarked_iff hb false).mp (hstop (by omega))).mpr rfl
        · exact ((hbits.unmarked_iff (by omega) false).mp (hskip' j (by omega) hje)).mpr rfl
      · by_cases he : e < bits.size
        · right
          intro hun
          have hiff := (hbits.unmarked_iff (by omega) true).mp (hstop' he)
          exact absurd (hiff.mp hun) (by decide)
        · exact Or.inl (by omega)
    have hlt := hrun.lt
    refine ⟨{ t with
        mem := update t.mem (c + b * sizeofBlock) (t.freeList, (e - b) * sizeofBlock)
        freeList := some (c + b * sizeofBlock) }, e, ?_, by omega, ?_⟩
    · simp only [sweepTurn, if_pos hi, hbeq, if_pos hb, heeq]
    · refine ⟨ht.same.trans ⟨rfl, rfl⟩, hrun.le, ?_,
        ⟨rs ++ [(b, e)], collected_next hrs ht.boundary hge hmarked hrun, ?_⟩, ?_⟩
      · exact Or.inr (hrun.right.imp (fun heq => heq.ge) id)
      · rw [freeBlocks_append]
        refine ⟨rfl, t.freeList, by simp [read], hseg.congr fun x hx => ?_⟩
        -- the runs chained earlier end before `b`
        obtain ⟨b', e', hmem, rfl⟩ := mem_freeBlocks.mp hx
        obtain ⟨hrun', hle⟩ := (hrs b' e').mp hmem
        have hlt' := hrun'.lt
        have hne : c + b' * sizeofBlock ≠ c + b * sizeofBlock := by
          simp only [sizeofBlock]
          omega
        simp only [read, update_of_ne hne]
      · intro a ha
        have hne := ha b hb
        simp only [update_of_ne hne]
        exact ht.frame a ha
  · -- no run is left
    refine ⟨t, bits.seek true i, ?_, by omega, ht.same, by omega, Or.inr (Or.inl (by omega)),
      ⟨rs, ?_, hseg⟩, ht.frame⟩
    · simp only [sweepTurn, if_pos hi, if_neg hb]
    · have hall := collected_end hrs ht.boundary fun j hij hj => hmarked j hij (by omega)
      intro b e
      rw [hall b e]
      constructor
      · intro hrun
        have hen := hrun.le
        exact ⟨hrun, by omega⟩
      · exact fun hrun => hrun.1

/-- The sweep of a chunk chains its maximal runs of unmarked cells before the free list. -/
theorem sweepChunk_spec {marks : List (Nat × Nat)} {coll : Collection} {c : Nat}
    (hbits : Bitmap s marks c (coll.bits c)) :
    ∃ t, sweepChunk coll s c = some t ∧ SweptUpTo s marks c s.cells t := by
  refine Loop.exists_run_eq_some (sweepTurn (coll.bits c) s.cells c)
    (fun k st => st.2 + k = s.cells ∧ SweptUpTo s marks c st.2 st.1)
    (SweptUpTo s marks c s.cells) ?_ (s.cells + 1) s.cells (s, 0) ⟨by simp, ?_⟩ (by omega)
  · rintro k ⟨t, i⟩ ⟨hik, ht⟩
    simp only at hik ht
    by_cases hi : i < s.cells
    · obtain ⟨t', i', hturn, hlt, ht'⟩ := sweepTurn_spec hbits ht hi
      have hle := ht'.le
      exact Or.inl ⟨(t', i'), s.cells - i', hturn, by omega, by simp only; omega, ht'⟩
    · have hend : i = s.cells := by omega
      refine Or.inr ⟨t, ?_, hend ▸ ht⟩
      simp only [sweepTurn, if_neg hi]
  · exact ⟨SameChunks.refl s, Nat.zero_le _, Or.inl rfl, ⟨[], collected_zero, rfl⟩,
      fun _ _ => rfl⟩

/-- The block `x` is a maximal run of unmarked cells of one of the chunks. -/
def IsFreeRun (s : SimpleGC) (marks : List (Nat × Nat)) (chunks : List Nat) (x : Nat × Nat) : Prop :=
  ∃ c ∈ chunks, ∃ b e, IsRun (Unmarked marks c) s.cells b e ∧
    x = (c + b * sizeofBlock, (e - b) * sizeofBlock)

/-- The free blocks are exactly the maximal runs of unmarked cells of each chunk. -/
def Swept (s : SimpleGC) (marks : List (Nat × Nat)) : Prop :=
  ∃ xs, IsList s.read s.freeList xs ∧ ∀ x, x ∈ xs ↔ IsFreeRun s marks s.chunks x

/-- The sweep of the chunks `cs`, after the ones of `before`. -/
theorem sweepChunks_spec (h : Chunks s) {marks : List (Nat × Nat)} {coll : Collection}
    (hbits : ∀ c ∈ s.chunks, Bitmap s marks c (coll.bits c)) (cs : List Nat) :
    ∀ (before : List Nat) (t : SimpleGC), before ++ cs = s.chunks → SameChunks s t →
      (∃ xs, IsList t.read t.freeList xs ∧ ∀ x, x ∈ xs ↔ IsFreeRun s marks before x) →
      ∃ t', cs.foldlM (sweepChunk coll) t = some t' ∧ SameChunks s t' ∧
        ∃ xs, IsList t'.read t'.freeList xs ∧ ∀ x, x ∈ xs ↔ IsFreeRun s marks s.chunks x := by
  induction cs with
  | nil =>
    intro before t hbefore hsame hlist
    rw [append_nil] at hbefore
    exact ⟨t, rfl, hsame, hbefore ▸ hlist⟩
  | cons c cs ih =>
    rintro before t hbefore hsame ⟨xs, hlist, hxs⟩
    have hc : c ∈ s.chunks := by simp [← hbefore]
    have hbitmap : Bitmap t marks c (coll.bits c) :=
      ⟨(hbits c hc).size.trans hsame.cells.symm, fun i hi => (hbits c hc).bit i (hsame.cells ▸ hi)⟩
    obtain ⟨t', hsweep, hswept⟩ := sweepChunk_spec hbitmap
    obtain ⟨rs, hrs, hseg⟩ := hswept.runs
    have hsame' := hsame.trans hswept.same
    have hlist' : IsList t'.read t'.freeList (freeBlocks c rs ++ xs) := by
      refine seg_append.mpr ⟨t.freeList, hseg, hlist.congr fun x hx => ?_⟩
      -- the blocks of the other chunks are left as they are
      obtain ⟨d, hd, b, e, hrun, rfl⟩ := (hxs x).mp hx
      have hdisj := h.disjoint
      rw [← hbefore, pairwise_append] at hdisj
      have hapart := hdisj.2.2 d hd c (by simp)
      have hframe := hswept.frame (d + b * sizeofBlock) ?_
      · simp only [read, hframe]
      · intro j hj
        have hlt := hrun.lt
        have hle := hrun.le
        have hcsize := h.csize_eq
        rw [hsame.cells] at hj
        simp only [sizeofBlock] at hcsize ⊢
        omega
    have hmem : ∀ x, x ∈ freeBlocks c rs ++ xs ↔ IsFreeRun s marks (before ++ [c]) x := by
      intro x
      have hruns : x ∈ freeBlocks c rs ↔ IsFreeRun s marks [c] x := by
        rw [mem_freeBlocks]
        constructor
        · rintro ⟨b, e, hbe, rfl⟩
          exact ⟨c, by simp, b, e, hsame.cells ▸ ((hrs b e).mp hbe).1, rfl⟩
        · rintro ⟨d, hd, b, e, hrun, rfl⟩
          obtain rfl := mem_singleton.mp hd
          rw [← hsame.cells] at hrun
          exact ⟨b, e, (hrs b e).mpr ⟨hrun, hrun.le⟩, rfl⟩
      rw [mem_append, hruns, hxs x]
      simp only [IsFreeRun, mem_append, or_and_right, exists_or]
      exact or_comm
    obtain ⟨t'', hfold, hrest⟩ := ih (before ++ [c]) t' (by simpa using hbefore) hsame'
      ⟨_, hlist', hmem⟩
    refine ⟨t'', ?_, hrest⟩
    rw [foldlM_cons, hsweep]
    exact hfold

/-! ## A whole collection -/

/-- After a collection the free blocks are the maximal runs of unmarked cells; it succeeds when the
marked blocks are not empty. -/
theorem doGC_spec (h : Chunks s) {marks : List (Nat × Nat)}
    (hin : ∀ b ∈ marks, 0 < b.2 → InChunk s b.1 b.2) :
    ((∀ b ∈ marks, 0 < b.2) → (s.doGC marks).isSome) ∧
      ∀ t, s.doGC marks = some t → SameChunks s t ∧ Swept t marks := by
  obtain ⟨coll, hbegin, hfinds, hmarked⟩ := beginGC_spec h
  obtain ⟨hsome, hcollect⟩ := collect_spec h marks [] coll hfinds hmarked hin
  rw [nil_append] at hcollect
  cases hcoll : collect coll marks with
  | none =>
    rw [hcoll] at hsome
    have hfail : s.doGC marks = none := by simp only [doGC, hbegin, hcoll]
    rw [hfail]
    exact ⟨fun hpos => hsome hpos, fun t ht => by cases ht⟩
  | some coll' =>
    have hbits : ∀ c ∈ s.chunks, Bitmap s marks c (coll'.bits c) := by
      intro c hc
      obtain ⟨hsize, hbit⟩ := hcollect coll' hcoll c hc
      exact ⟨hsize, hbit⟩
    obtain ⟨t, hsweep, hsame, xs, hlist, hxs⟩ := sweepChunks_spec h hbits s.chunks []
      { s with freeList := none } rfl ⟨rfl, rfl⟩ ⟨[], rfl, by simp [IsFreeRun]⟩
    have hgc : s.doGC marks = some t := by
      simp only [doGC, hbegin, hcoll]
      exact hsweep
    rw [hgc]
    refine ⟨fun _ => rfl, fun t' ht' => ?_⟩
    obtain rfl := Option.some.inj ht'
    refine ⟨hsame, xs, hlist, fun x => ?_⟩
    rw [hxs x, IsFreeRun, IsFreeRun, hsame.cells, hsame.chunks]

end Elm.Alloc.SimpleGC
