import Elm.Util.WAHVectorHistory

/-!
# The observers of `WAHVector`

Two vectors of one array have the same words, since the words are canonical.  `isEmpty` and `isFull` look at the
first word as if it was a fill.
-/

namespace Elm.Util.Wah

open RunLength List

variable {n : Nat} {f g : Fin n → Bool} {u v : WAHVector}

/-! ## `equals` -/

/-- The array gives all the bits of the blocks, the ones behind the end included. -/
theorem Encodes.getLsbD {p : Bool} (h : Encodes n u f) (hpad : n % 31 ≠ 0 → Pad n (blocks u.words) p) {k j : Nat}
    {x : Word} (hx : (blocks u.words)[k]? = some x) (hj : j < 31) :
    x.getLsbD j = if hi : 31 * k + j < n then f ⟨31 * k + j, hi⟩ else p := by
  have hlen := h.packs.length
  have hk : k < (blocks u.words).length := (List.getElem?_eq_some_iff.mp hx).1
  split_ifs with hi
  · have hbit := h.packs.bits ⟨31 * k + j, hi⟩
    have hdiv : (31 * k + j) / 31 = k := by omega
    have hmod : (31 * k + j) % 31 = j := by omega
    simp only [hdiv, hmod, hx, Option.map_some, Option.some.injEq] at hbit
    exact hbit
  · obtain rfl : k = n / 31 := by omega
    exact hpad (by omega) x hx j hj (by omega)

/-- The bits behind the end, whatever the size. -/
theorem Encodes.exists_pad (h : Encodes n u f) :
    ∃ p, (n % 31 ≠ 0 → Pad n (blocks u.words) p) ∧ (n % 31 ≠ 0 → (p = true ↔ LastAll f true)) := by
  by_cases hrem : n % 31 = 0
  · exact ⟨false, fun hne => absurd hrem hne, fun hne => absurd hrem hne⟩
  · obtain ⟨p, hpad, hall⟩ := h.pad hrem
    exact ⟨p, fun _ => hpad, fun _ => hall⟩

/-- The array determines the words. -/
theorem Encodes.unique (hu : Encodes n u f) (hv : Encodes n v f) : u.words = v.words := by
  have hblocks : blocks u.words = blocks v.words := by
    obtain ⟨p, hpad, hall⟩ := hu.exists_pad
    obtain ⟨q, hpad', hall'⟩ := hv.exists_pad
    have hpq : n % 31 ≠ 0 → q = p := by
      intro hne
      rw [Bool.eq_iff_iff, hall hne, hall' hne]
    have hpad'' : n % 31 ≠ 0 → Pad n (blocks v.words) p := fun hne => hpq hne ▸ hpad' hne
    have hlen : (blocks u.words).length = (blocks v.words).length := hu.packs.length.trans hv.packs.length.symm
    refine ext_getElem? fun k => ?_
    by_cases hk : k < (blocks u.words).length
    · have hx := getElem?_eq_getElem hk
      have hy := getElem?_eq_getElem (hlen ▸ hk)
      rw [hx, hy]
      congr 1
      apply BitVec.eq_of_getLsbD_eq
      intro j _
      by_cases hj : j = 31
      · rw [hj, ← isFill_eq_getLsbD, ← isFill_eq_getLsbD, hu.packs.lite _ (getElem_mem hk),
          hv.packs.lite _ (getElem_mem (hlen ▸ hk))]
      · rw [hu.getLsbD hpad hx (show j < 31 by omega), hv.getLsbD hpad'' hy (show j < 31 by omega)]
    · rw [getElem?_eq_none (by omega), getElem?_eq_none (by omega)]
  have hruns := hu.canonical.eq_of_expand hv.canonical hblocks
  exact map_injective_iff.mpr view_injective hruns

theorem equals_encodes (hu : Encodes n u f) (hv : Encodes n v g) : u.equals v = decide (f = g) := by
  unfold WAHVector.equals
  rw [decide_eq_decide]
  constructor
  · intro hwords
    funext i
    have hf := hu.packs.bits i
    have hg := hv.packs.bits i
    rw [hwords, hg] at hf
    exact (Option.some.inj hf).symm
  · rintro rfl
    exact hu.unique hv

/-! ## `isEmpty` and `isFull` -/

/-- All the bits are equal if and only if the vector is a fill. -/
theorem words_eq_iff (hn : 0 < n) (hlt : n < 4638219) (h : Encodes n u f) (init : Bool) :
    u.words = [fill ((n + 30) / 31 : Nat) init] ↔ ∀ i, f i = init := by
  have hnew := new_encodes hn hlt init
  have hwords : (WAHVector.new n init).words = [fill ((n + 30) / 31 : Nat) init] := by
    rw [new_eq hlt init]
  rw [← hwords]
  constructor
  · intro heq i
    have hf := h.packs.bits i
    have hg := hnew.packs.bits i
    rw [heq, hg] at hf
    exact (Option.some.inj hf).symm
  · intro hall
    obtain rfl : f = fun _ => init := funext hall
    exact h.unique hnew

/-- The last word is neither the literal `0` nor the literal of `isFull`. -/
theorem Encodes.words_ne (h : Encodes n u f) (w : Word) : u.words ≠ [w, 0] ∧ u.words ≠ [w, mask u.rem] := by
  have hzero : u.words ≠ [w, 0] := by
    intro hwords
    have hcanon := h.canonical
    rw [hwords] at hcanon
    have hview : view 0 = .lit 0 := view_lite rfl
    have hgood := hcanon.good (view 0) (mem_map_of_mem (by simp))
    rw [hview] at hgood
    exact hgood (Or.inl rfl)
  refine ⟨hzero, fun hwords => ?_⟩
  by_cases hrem : n % 31 = 0
  · have hmask : mask u.rem = 0 := by
      rw [h.rem, hrem]
      rfl
    exact hzero (hmask ▸ hwords)
  · have hmod : n % 31 < 31 := Nat.mod_lt _ (by decide)
    have hlite : isFill (mask (n % 31)) = false := by
      have hlite := isFill_and_mask hmod (mask (n % 31))
      rwa [BitVec.and_self] at hlite
    rw [h.rem] at hwords
    have hblocks : blocks u.words = (view w).expand ++ [mask (n % 31)] := by
      rw [hwords, Iter.blocks_cons, Iter.blocks_cons, view_lite hlite]
      rfl
    have hlen := h.packs.length
    rw [hblocks, length_append, length_singleton] at hlen
    have hlast : (blocks u.words)[n / 31]? = some (mask (n % 31)) := by
      have hq : n / 31 = (view w).expand.length := by omega
      rw [hblocks, hq, getElem?_concat_length]
    have hnorm := h.last hrem _ hlast
    rw [norm, BitVec.and_self, if_neg (mask_ne_zero (Nat.pos_of_ne_zero hrem) hmod), if_pos rfl] at hnorm
    have hbit := (eq_ALL_ONES_iff hlite).mp hnorm.symm 30 (by decide)
    rw [getLsbD_mask (by omega), decide_eq_true_eq] at hbit
    omega

/-- What `isEmpty` and `isFull` look at. -/
theorem isEmpty_eq (h : Encodes n u f) {w : Word} {rest : List Word} (hwords : u.words = w :: rest) :
    u.isEmpty = some (decide (rest = [] ∧ isZeroes w)) ∧ u.isFull = some (decide (rest = [] ∧ isOnes w)) := by
  obtain ⟨hzero, hmask⟩ := h.words_ne w
  rw [hwords] at hzero hmask
  have hzero' : ¬ rest = [0#32] := fun heq => hzero (by rw [heq]; rfl)
  have hmask' : rest ≠ [mask u.rem] := fun heq => hmask (by rw [heq])
  unfold WAHVector.isEmpty WAHVector.isFull
  rw [hwords]
  by_cases hrest : rest = []
  · subst hrest
    cases hones : isOnes w <;> simp [isZeroes_eq, hones]
  · cases hones : isOnes w <;> simp [isZeroes_eq, hones, hrest, hzero', hmask']

/-- The array has one value. -/
def Constant (f : Fin n → Bool) : Prop := ∃ init, ∀ i, f i = init

/-- `isEmpty` and `isFull` are right, both. -/
theorem isEmpty_isFull_iff (hn : 0 < n) (hlt : n < 4638219) (h : Encodes n u f) :
    u.isEmpty = some (decide (∀ i, f i = false)) ∧ u.isFull = some (decide (∀ i, f i = true)) ↔
      31 < n ∨ Constant f := by
  have hlen := h.packs.length
  have hfill := words_eq_iff hn hlt h
  obtain ⟨w, rest, hwords⟩ : ∃ w rest, u.words = w :: rest := by
    refine exists_cons_of_ne_nil fun hnil => ?_
    rw [hnil] at hlen
    change 0 = _ at hlen
    omega
  obtain ⟨hempty, hfull⟩ := isEmpty_eq h hwords
  rw [hempty, hfull]
  by_cases hconst : Constant f
  · refine iff_of_true ?_ (Or.inr hconst)
    obtain ⟨init, hall⟩ := hconst
    have hw := (hfill init).mpr hall
    rw [hwords] at hw
    obtain ⟨rfl, rfl⟩ := List.cons.inj hw
    have hones : isOnes (fill ((n + 30) / 31 : Nat) init) = init := by
      have hview : view (fill ((n + 30) / 31 : Nat) init) = .fill ((n + 30) / 31) (uniform init) :=
        view_fill (by omega) init
      unfold view at hview
      split_ifs at hview
      injection hview with _ hinit
      exact uniform_inj hinit
    have hi : ∀ b, (∀ i, f i = b) ↔ init = b := by
      intro b
      constructor
      · intro hb
        rw [← hall ⟨0, hn⟩, hb]
      · rintro rfl
        exact hall
    simp only [hi, isZeroes_eq, hones, true_and]
    cases init <;> simp
  · have hno : ∀ b, ¬ ∀ i, f i = b := fun b hb => hconst ⟨b, hb⟩
    simp only [hno, hconst, or_false, decide_false, Option.some.injEq, decide_eq_false_iff_not]
    constructor
    · intro hright
      -- a single word is a literal, that one of them takes for a fill
      have hrest : rest ≠ [] := by
        intro hnil
        cases hones : isOnes w
        · exact hright.1 ⟨hnil, by rw [isZeroes_eq, hones]; rfl⟩
        · exact hright.2 ⟨hnil, hones⟩
      obtain ⟨w', rest', rfl⟩ := exists_cons_of_ne_nil hrest
      have hcanon := h.canonical
      rw [hwords] at hcanon
      have hpos : ∀ x ∈ [w, w'], 0 < (view x).expand.length := by
        intro x hx
        refine length_pos_iff.mpr (hcanon.good (view x) ?_).expand_ne_nil
        exact mem_map_of_mem (mem_of_mem_take (i := 2) hx)
      have h₁ := hpos w (by simp)
      have h₂ := hpos w' (by simp)
      rw [hwords, Iter.blocks_cons, Iter.blocks_cons, length_append, length_append] at hlen
      omega
    · intro hlarge
      have hrest : rest ≠ [] := by
        rintro rfl
        rw [hwords] at hlen
        by_cases hwfill : isFill w = true
        · -- a fill has one value
          have hview : view w = .fill (fillCount w).toNat (uniform (isOnes w)) := if_pos hwfill
          rw [Iter.blocks_cons, hview] at hlen
          have hcount : (fillCount w).toNat = (n + 30) / 31 := by
            rw [← hlen]
            simp [blocks, runs, Run.expand]
          refine hconst ⟨isOnes w, (hfill (isOnes w)).mp ?_⟩
          rw [hwords, ← hcount, ← eq_fill hwfill]
        · rw [Iter.blocks_cons, view_lite (by simpa using hwfill)] at hlen
          change 1 = _ at hlen
          omega
      exact ⟨fun hand => hrest hand.1, fun hand => hrest hand.1⟩

/-! ## `includes` -/

/-- The bits of `y` that `x` does not have. -/
def missing (x y : Word) : Word := ~~~x &&& y

/-- The blocks that are left to compare decide the answer `t`. -/
structure Comparing (t : Prop) (k : Nat) (s : Iter × Iter) : Prop where
  good1 : s.1.Good
  good2 : s.2.Good
  left : s.1.rest.length = k
  same : s.2.rest.length = k
  answer : t ↔ ∀ z ∈ List.zipWith missing s.1.rest s.2.rest, z = 0

/-- `c` blocks of both iterators. -/
theorem Comparing.turn {t : Prop} {k c : Nat} {i j : Iter} (h : Comparing t k (i, j)) (hc : 0 < c)
    (hi : i.ended = false) (hj : j.ended = false) (hci : c ≤ i.cnt) (hcj : c ≤ j.cnt) :
    (missing i.val j.val ≠ 0 → ¬ t) ∧
      (missing i.val j.val = 0 → ∃ k', k' < k ∧ Comparing t k' (i.consume c, j.consume c)) := by
  have hgood1 : i.Good := h.good1
  have hgood2 : j.Good := h.good2
  have hleft : i.rest.length = k := h.left
  have hsame : j.rest.length = k := h.same
  have hanswer : t ↔ ∀ z ∈ List.zipWith missing i.rest j.rest, z = 0 := h.answer
  obtain ⟨hgood1', hrest1⟩ := hgood1.consume_spec hi hci
  obtain ⟨hgood2', hrest2⟩ := hgood2.consume_spec hj hcj
  rw [hrest1, length_append, length_replicate] at hleft
  rw [hrest2, length_append, length_replicate] at hsame
  rw [hrest1, hrest2, zipWith_append (by simp), zipWith_replicate', forall_mem_append] at hanswer
  have hone : (∀ z ∈ replicate c (missing i.val j.val), z = 0) ↔ missing i.val j.val = 0 := by
    constructor
    · intro hall
      exact hall _ (mem_replicate.mpr ⟨by omega, rfl⟩)
    · intro hzero z hz
      rw [eq_of_mem_replicate hz, hzero]
  rw [hone] at hanswer
  constructor
  · intro hne ht
    exact hne (hanswer.mp ht).1
  · intro hzero
    have hlen : (j.consume c).rest.length = (i.consume c).rest.length := by omega
    refine ⟨(i.consume c).rest.length, by omega, hgood1', hgood2', rfl, hlen, ?_⟩
    rw [hanswer]
    exact and_iff_right hzero

theorem includesTurn_spec {t : Prop} [Decidable t] {k : Nat} {s : Iter × Iter} (h : Comparing t k s) :
    (∃ s' k', WAHVector.includesTurn s = .inl s' ∧ k' < k ∧ Comparing t k' s') ∨
      ∃ r, WAHVector.includesTurn s = .inr r ∧ r = some (decide t) := by
  obtain ⟨i, j⟩ := s
  have hended : j.ended = i.ended := by
    rw [Bool.eq_iff_iff, Iter.rest_eq_nil h.good2, Iter.rest_eq_nil h.good1, ← length_eq_zero_iff,
      ← length_eq_zero_iff, h.left, h.same]
  unfold WAHVector.includesTurn
  simp only [hended]
  by_cases hi : i.ended = true
  · right
    have hnil : i.rest = [] := (Iter.rest_eq_nil h.good1).mp hi
    have ht : t := by
      rw [h.answer]
      change ∀ z ∈ List.zipWith missing i.rest j.rest, z = 0
      rw [hnil]
      simp
    exact ⟨some true, by simp [hi], by rw [decide_eq_true ht]⟩
  · have hi1 : i.ended = false := by simpa using hi
    have hj1 : j.ended = false := hended.trans hi1
    have hposi : 0 < i.cnt := h.good1.pos fun hnil => hi (by rw [Iter.ended, hnil]; rfl)
    have hposj : 0 < j.cnt := h.good2.pos fun hnil => absurd hj1 (by rw [Iter.ended, hnil]; decide)
    rw [if_pos ⟨hi, hi⟩]
    by_cases hfills : i.isFill = true ∧ j.isFill = true
    · rw [if_pos hfills]
      obtain ⟨hstop, hgo⟩ := h.turn (c := min i.cnt j.cnt) (by omega) hi1 hj1 (Nat.min_le_left _ _)
        (Nat.min_le_right _ _)
      have hmissing : i.val = 0 ∧ j.val ≠ 0 ↔ missing i.val j.val ≠ 0 := by
        have hu := h.good1.uniform hfills.1
        have hv := h.good2.uniform hfills.2
        simp only at hu hv
        rcases hu with hu | hu <;> rcases hv with hv | hv <;> rw [hu, hv] <;> decide
      by_cases hne : missing i.val j.val = 0
      · obtain ⟨k', hlt, hcomparing⟩ := hgo hne
        rw [if_neg (fun hand => hmissing.mp hand hne)]
        exact Or.inl ⟨_, k', rfl, hlt, hcomparing⟩
      · rw [if_pos (hmissing.mpr hne)]
        exact Or.inr ⟨_, rfl, by rw [decide_eq_false (hstop hne)]⟩
    · rw [if_neg hfills]
      obtain ⟨hstop, hgo⟩ := h.turn Nat.one_pos hi1 hj1 hposi hposj
      by_cases hne : missing i.val j.val = 0
      · obtain ⟨k', hlt, hcomparing⟩ := hgo hne
        have hif : ¬ ~~~i.val &&& j.val ≠ 0 := fun hbad => hbad hne
        rw [if_neg hif]
        exact Or.inl ⟨_, k', rfl, hlt, hcomparing⟩
      · have hif : ~~~i.val &&& j.val ≠ 0 := hne
        rw [if_pos hif]
        exact Or.inr ⟨_, rfl, by rw [decide_eq_false (hstop hne)]⟩

/-- The blocks miss no bit if and only if the arrays do. -/
theorem missing_iff (hu : Encodes n u f) (hv : Encodes n v g) :
    (∀ z ∈ List.zipWith missing (blocks u.words) (blocks v.words), z = 0) ↔ ∀ i, g i = true → f i = true := by
  have hbit : ∀ x y : Word, ∀ j < 32, (missing x y).getLsbD j = (!x.getLsbD j && y.getLsbD j) := by
    intro x y j hj
    rw [missing, BitVec.getLsbD_and, BitVec.getLsbD_not, decide_eq_true hj, Bool.true_and]
  constructor
  · intro hall i hg
    obtain ⟨x, hx, -, hf⟩ := hu.packs.getElem i
    obtain ⟨y, hy, -, hg'⟩ := hv.packs.getElem i
    have hzero := hall _ (mem_iff_getElem?.mpr ⟨_, getElem?_zipWith_eq_some.mpr ⟨x, y, hx, hy, rfl⟩⟩)
    have hbit' := hbit x y (i.val % 31) (by omega)
    have hclear : (0 : Word).getLsbD (i.val % 31) = false := BitVec.getLsbD_zero
    rw [hzero, hclear, hf, hg', hg, Bool.and_true] at hbit'
    simpa using hbit'
  · intro hall z hz
    obtain ⟨k, hk⟩ := mem_iff_getElem?.mp hz
    obtain ⟨x, y, hx, hy, rfl⟩ := getElem?_zipWith_eq_some.mp hk
    obtain ⟨p, hpad, hpall⟩ := hu.exists_pad
    obtain ⟨q, hqad, hqall⟩ := hv.exists_pad
    apply BitVec.eq_of_getLsbD_eq
    intro j hj
    rw [hbit x y j hj]
    have hzero : (0#32).getLsbD j = false := BitVec.getLsbD_zero
    change _ = (0#32).getLsbD j
    rw [hzero]
    by_cases hlast : j = 31
    · rw [hlast, ← isFill_eq_getLsbD y, hv.packs.lite y (mem_of_getElem? hy), Bool.and_false]
    · rw [hu.getLsbD hpad hx (show j < 31 by omega), hv.getLsbD hqad hy (show j < 31 by omega)]
      split_ifs with hi
      · cases hgi : g ⟨31 * k + j, hi⟩ with
        | false => rw [Bool.and_false]
        | true => rw [hall _ hgi]; rfl
      · -- behind the end
        have hlen := hu.packs.length
        have hk' : k < (blocks u.words).length := (List.getElem?_eq_some_iff.mp hx).1
        have hrem : n % 31 ≠ 0 := by omega
        cases hq : q with
        | false => rw [Bool.and_false]
        | true =>
          have hlast : LastAll f true := fun i hi' => hall i ((hqall hrem).mp hq i hi')
          rw [(hpall hrem).mpr hlast]
          rfl

theorem includes_encodes (hu : Encodes n u f) (hv : Encodes n v g) :
    u.includes v = some (decide (∀ i, g i = true → f i = true)) := by
  have hgood : ∀ {ws : List Word}, Canonical Uniform (runs ws) → ∀ w ∈ ws, (view w).Good Uniform :=
    fun h w hw => h.good _ (mem_map_of_mem hw)
  obtain ⟨hstart1, hrest1⟩ := Iter.start_spec (hgood hu.canonical)
  obtain ⟨hstart2, hrest2⟩ := Iter.start_spec (hgood hv.canonical)
  have hsame : (blocks v.words).length = (blocks u.words).length := hv.packs.length.trans hu.packs.length.symm
  have hstart : Comparing (∀ i, g i = true → f i = true) (blocks u.words).length
      (Iter.start u.words, Iter.start v.words) := by
    refine ⟨hstart1, hstart2, congrArg List.length hrest1, (congrArg List.length hrest2).trans hsame, ?_⟩
    change _ ↔ ∀ z ∈ List.zipWith missing (Iter.start u.words).rest (Iter.start v.words).rest, z = 0
    rw [hrest1, hrest2]
    exact (missing_iff hu hv).symm
  obtain ⟨r, hrun, rfl⟩ := Loop.exists_run_eq_some WAHVector.includesTurn _ _
    (fun k s h => includesTurn_spec h) _ _ _ hstart (length_lt_fuel u.words)
  unfold WAHVector.includes
  rw [hrun]
  rfl

/-! ## `countOnes` -/

/-- The body of the loop of `countOnes`. -/
def countTurn (rem : Nat) (r : Int) (it : Iter) : Int :=
  if it.isFill then
    if it.val ≠ 0 then
      let r := r + times it.cnt
      if rem ≠ 0 ∧ it.isLast then (r - (31 - rem)).bmod (2 ^ 32) else r
    else r
  else
    r + Bits.ones (if rem ≠ 0 ∧ it.isLast then it.val &&& mask rem else it.val)

/-- The ones of the blocks. -/
def onesOf (bs : List Word) : Nat := (bs.map Bits.ones).sum

theorem onesOf_append (as bs : List Word) : onesOf (as ++ bs) = onesOf as + onesOf bs := by
  rw [onesOf, map_append, sum_append]
  rfl

theorem onesOf_replicate (m : Nat) (init : Bool) :
    onesOf (replicate m (uniform init)) = if init then 31 * m else 0 := by
  have hones : Bits.ones (uniform init) = if init then 31 else 0 := by cases init <;> decide
  rw [onesOf, map_replicate, sum_replicate, hones, smul_eq_mul]
  split_ifs <;> omega

/-- What is counted too much for the last block. -/
def excess (rem : Nat) (bs : List Word) : Nat := if rem ≠ 0 ∧ bs.getLast? = some ALL_ONES then 31 - rem else 0

theorem countTurn_last {rem : Nat} (hrem : rem < 31) {w : Word} (hw : (view w).Good Uniform)
    (hlast : rem ≠ 0 → ∀ x ∈ (view w).expand.getLast?, norm rem x = x) {r : Int} (hr : 0 ≤ r)
    (hlt : r + 31 * (view w).expand.length < 2 ^ 31) (ii : Nat) :
    countTurn rem r (Iter.step ii w []) = r + onesOf (view w).expand - excess rem (view w).expand := by
  rw [Iter.step_eq]
  cases hview : view w with
  | lit x =>
    rw [hview] at hw hlast
    have hones : x ≠ ALL_ONES := fun heq => hw (Or.inr heq)
    have hexcess : excess rem (Run.lit x).expand = 0 := if_neg fun hand => hones (Option.some.inj hand.2)
    have hone : onesOf (Run.lit x).expand = Bits.ones x := Nat.add_zero _
    have hmask : (if rem ≠ 0 ∧ True then x &&& mask rem else x) = x := by
      split_ifs with hand
      · exact (norm_cases (hlast hand.1 x rfl)).resolve_left hones
      · rfl
    rw [hexcess, hone]
    unfold countTurn
    rw [if_neg (by simp)]
    simp only [Iter.isLast, length_singleton, decide_eq_true_eq, hmask]
    omega
  | fill m x =>
    rw [hview] at hw hlt
    obtain ⟨init, -, rfl, -⟩ := view_eq_fill hview
    have hpos : 0 < m := hw.1
    simp only [Run.expand, length_replicate] at hlt
    have hget : (replicate m (uniform init)).getLast? = some (uniform init) := by
      rw [getLast?_replicate, if_neg (by omega)]
    unfold countTurn
    rw [if_pos rfl, Run.expand, onesOf_replicate, excess, hget]
    simp only [Iter.isLast, length_singleton, decide_true, times_eq, and_true]
    cases init with
    | false =>
      have hzero : uniform false = 0 := rfl
      have hne : ¬ (rem ≠ 0 ∧ some (0 : Word) = some ALL_ONES) := fun hand => absurd hand.2 (by decide)
      rw [hzero, if_neg (by simp), if_neg hne]
      simp
    | true =>
      have hones : uniform true = ALL_ONES := rfl
      rw [hones, if_pos (by decide)]
      by_cases hzero : rem = 0
      · simp [hzero]
      · have hbmod : (r + (31 * m : Nat) - (31 - rem)).bmod (2 ^ 32) = r + (31 * m : Nat) - (31 - rem) :=
          Int.bmod_eq_of_le (by omega) (by omega)
        simp only [ne_eq, hzero, not_false_eq_true, if_true, hbmod, true_and]
        omega

theorem countTurn_inner (rem : Nat) (w : Word) {words : List Word} (hne : words ≠ []) (r : Int) (ii : Nat) :
    countTurn rem r (Iter.step ii w words) = r + onesOf (view w).expand := by
  have hlen : words.length ≠ 0 := fun hzero => hne (length_eq_zero_iff.mp hzero)
  rw [Iter.step_eq]
  cases hview : view w with
  | lit x =>
    have hone : onesOf (Run.lit x).expand = Bits.ones x := Nat.add_zero _
    rw [hone]
    simp [countTurn, Iter.isLast, hne]
  | fill m x =>
    obtain ⟨init, -, rfl, -⟩ := view_eq_fill hview
    rw [Run.expand, onesOf_replicate]
    cases init with
    | false => simp [countTurn, uniform, ALL_ZEROES]
    | true =>
      have hones : ¬ uniform true = 0#32 := by decide
      simp [countTurn, hones, Iter.isLast, hne, times_eq]

/-- The loop of `countOnes`. -/
theorem foldl_countTurn {rem : Nat} (hrem : rem < 31) {words : List Word}
    (hgood : ∀ w ∈ words, (view w).Good Uniform)
    (hlast : rem ≠ 0 → ∀ x ∈ (blocks words).getLast?, norm rem x = x) {r : Int} (hr : 0 ≤ r)
    (hlt : r + 31 * (blocks words).length < 2 ^ 31) (ii : Nat) :
    (Iter.visits ii words).foldl (countTurn rem) r = r + onesOf (blocks words) - excess rem (blocks words) := by
  induction words generalizing r ii with
  | nil =>
    change r = r + (0 : Nat) - ((if rem ≠ 0 ∧ none = some ALL_ONES then 31 - rem else 0 : Nat) : Int)
    rw [if_neg (by simp)]
    simp
  | cons w words ih =>
    obtain ⟨hw, hwords⟩ := forall_mem_cons.mp hgood
    rw [Iter.visits, foldl_cons]
    by_cases hne : words = []
    · subst hne
      have hblocks : blocks [w] = (view w).expand := append_nil _
      rw [hblocks] at hlast hlt ⊢
      exact countTurn_last hrem hw hlast hr hlt ii
    · have hblocks : blocks words ≠ [] := by
        obtain ⟨w', words', rfl⟩ := exists_cons_of_ne_nil hne
        rw [Iter.blocks_cons]
        exact fun hnil => (hwords w' mem_cons_self).expand_ne_nil (append_eq_nil_iff.mp hnil).1
      have hget : (blocks (w :: words)).getLast? = (blocks words).getLast? := by
        rw [Iter.blocks_cons, getLast?_append_of_ne_nil _ hblocks]
      have hexcess : excess rem (blocks (w :: words)) = excess rem (blocks words) := by
        rw [excess, excess, hget]
      have hlen : (onesOf (view w).expand : Int) ≤ 31 * (view w).expand.length := by
        cases hview : view w with
        | lit x =>
          have hlite : isFill x = false := by
            obtain ⟨rfl, hlit⟩ := view_eq_lit hview
            exact hlit
          have hone : onesOf (Run.lit x).expand = Bits.ones x := Nat.add_zero _
          have hle : Bits.ones x ≤ 31 := by
            have hsplit : Bits.ofWord x = (List.range 31).map x.getLsbD ++ [x.getLsbD 31] := by
              rw [Bits.ofWord, range_succ, map_append, map_singleton]
            rw [Bits.ones, hsplit, ← isFill_eq_getLsbD, hlite, count_append]
            have hcount := count_le_length (a := true) (l := (List.range 31).map x.getLsbD)
            rw [length_map, length_range] at hcount
            simpa using hcount
          rw [hone]
          simp only [Run.expand, length_singleton]
          omega
        | fill m x =>
          obtain ⟨init, -, rfl, -⟩ := view_eq_fill hview
          rw [Run.expand, onesOf_replicate, length_replicate]
          split_ifs <;> omega
      rw [hget] at hlast
      rw [Iter.blocks_cons, length_append] at hlt
      rw [countTurn_inner rem w hne r ii, ih hwords hlast (by omega) (by omega), hexcess, Iter.blocks_cons,
        onesOf_append]
      omega

/-- The ones of the blocks are those of the array and those behind the end. -/
theorem onesOf_blocks (h : Encodes n u f) {p : Bool} (hpad : n % 31 ≠ 0 → Pad n (blocks u.words) p) :
    onesOf (blocks u.words) = (ofFn f).count true + if p then 31 * ((n + 30) / 31) - n else 0 := by
  have hlen := h.packs.length
  -- the bits of the blocks, without the bit that tells a fill
  let cut : Word → BitVec 31 := fun x => x.setWidth 31
  have hcut : ∀ x ∈ blocks u.words, Bits.ones x = Bits.ones (cut x) := by
    intro x hx
    have hsplit : Bits.ofWord x = Bits.ofWord (cut x) ++ [x.getLsbD 31] := by
      rw [Bits.ofWord, range_succ, map_append, map_singleton, Bits.ofWord]
      congr 1
      refine map_congr_left fun j hj => ?_
      have hj' : j < 31 := mem_range.mp hj
      rw [BitVec.getLsbD_setWidth, decide_eq_true hj', Bool.true_and]
    rw [Bits.ones, hsplit, ← isFill_eq_getLsbD, h.packs.lite x hx, count_append]
    rfl
  have hbits : Bits.ofWords ((blocks u.words).map cut) =
      ofFn f ++ replicate (31 * ((n + 30) / 31) - n) p := by
    refine ext_getElem? fun i => ?_
    by_cases hi : i < ((blocks u.words).map cut).length * 31
    · have hi' : i / 31 < (blocks u.words).length := by
        rw [length_map] at hi
        omega
      have hx := getElem?_eq_getElem hi'
      have hj : i % 31 < 31 := Nat.mod_lt _ (by decide)
      rw [Bits.getElem?_ofWords _ i hi, getElem?_map, hx, Option.map_some, Option.map_some,
        BitVec.getLsbD_setWidth, decide_eq_true hj, Bool.true_and, h.getLsbD hpad hx hj]
      have hdiv : 31 * (i / 31) + i % 31 = i := Nat.div_add_mod i 31
      rw [length_map] at hi
      simp only [hdiv]
      by_cases hin : i < n
      · rw [getElem?_append_left (by rw [length_ofFn]; exact hin), dif_pos hin, List.getElem?_ofFn,
          dif_pos hin]
      · rw [getElem?_append_right (by rw [length_ofFn]; omega), dif_neg hin, length_ofFn,
          getElem?_replicate, if_pos (by omega)]
    · rw [length_map] at hi
      rw [getElem?_eq_none (by rw [Bits.length_ofWords, length_map]; omega),
        getElem?_eq_none (by rw [length_append, length_ofFn, length_replicate]; omega)]
  have hsum : onesOf (blocks u.words) = (((blocks u.words).map cut).map Bits.ones).sum := by
    rw [onesOf, map_map]
    exact congrArg List.sum (map_congr_left hcut)
  rw [hsum, Bits.sum_ones, hbits, count_append, count_replicate]
  simp

theorem countOnes_encodes (hn : 0 < n) (hlt : n < 4638219) (h : Encodes n u f) :
    u.countOnes = (ofFn f).count true := by
  have hlen := h.packs.length
  have hmod : n % 31 < 31 := Nat.mod_lt _ (by decide)
  have hget : (blocks u.words).getLast? = (blocks u.words)[(n - 1) / 31]? := by
    rw [getLast?_eq_getElem?]
    congr 1
    omega
  have hq : n % 31 ≠ 0 → (n - 1) / 31 = n / 31 := by omega
  have hlast : n % 31 ≠ 0 → ∀ x ∈ (blocks u.words).getLast?, norm (n % 31) x = x := by
    intro hrem x hx
    rw [hget, hq hrem] at hx
    exact h.last hrem x hx
  have hfold := foldl_countTurn hmod (fun w hw => h.canonical.good _ (mem_map_of_mem hw)) hlast
    (Int.le_refl 0) (by omega) 0
  have hcount : u.countOnes = (Iter.visits 0 u.words).foldl (countTurn (n % 31)) 0 := by
    rw [← h.rem]
    rfl
  obtain ⟨p, hpad, hpall⟩ := h.exists_pad
  have hones := onesOf_blocks h hpad
  have hexcess : n % 31 ≠ 0 → excess (n % 31) (blocks u.words) = if p then 31 - n % 31 else 0 := by
    intro hrem
    have hx := getElem?_eq_getElem (show n / 31 < (blocks u.words).length by omega)
    have hiff : (blocks u.words).getLast? = some ALL_ONES ↔ p = true := by
      rw [hget, hq hrem, hx, hpall hrem, h.packs.lastAll_iff hx true,
        ← norm_eq_uniform_iff (Nat.pos_of_ne_zero hrem) hmod (h.last hrem _ hx) true]
      exact Option.some_inj
    unfold excess
    simp only [hiff, hrem, ne_eq, not_false_eq_true, true_and]
  rw [hcount, hfold, hones]
  by_cases hrem : n % 31 = 0
  · have hzero : excess (n % 31) (blocks u.words) = 0 := if_neg (by simp [hrem])
    have hfull : 31 * ((n + 30) / 31) - n = 0 := by omega
    rw [hzero, hfull]
    simp
  · rw [hexcess hrem]
    split_ifs <;> omega

/-! ## Histories -/

/-- The observers of `u` agree with the array `f`, and those of `u` and `v` with `f` and `g`. -/
structure Agree (u v : WAHVector) (f g : Fin n → Bool) : Prop where
  isEmpty : u.isEmpty = some (decide (∀ i, f i = false))
  isFull : u.isFull = some (decide (∀ i, f i = true))
  countOnes : u.countOnes = (ofFn f).count true
  equals : u.equals v = decide (f = g)
  includes : u.includes v = some (decide (∀ i, g i = true → f i = true))

namespace History

/-- The vectors that two histories give have observers that agree with the arrays. -/
def Observed (h h' : History n) : Prop := ∃ u v, h.eval = some u ∧ h'.eval = some v ∧ Agree u v h.bits h'.bits

/-- A vector of no bit is a fill, that is not empty and full. -/
theorem not_observed_zero (h h' : History 0) : ¬ h.Observed h' := by
  rintro ⟨u, v, heval, -, hagree⟩
  obtain ⟨init, heval'⟩ := eval_zero h
  obtain rfl := Option.some.inj (heval.symm.trans heval')
  have hempty := hagree.isEmpty
  have hfull := hagree.isFull
  have hall : ∀ b, decide (∀ i : Fin 0, h.bits i = b) = true := fun b => decide_eq_true fun i => i.elim0
  rw [hall] at hempty hfull
  cases init
  · exact absurd hfull (by decide)
  · exact absurd hempty (by decide)

/-- The observers are right for the vectors of more than one block, and for those with one value. -/
theorem observed_iff {n : Nat} {h h' : History n} (hmeets : h.Meets) (hmeets' : h'.Meets) :
    h.Observed h' ↔ 31 < n ∨ 0 < n ∧ Constant h.bits := by
  by_cases hn : n = 0
  · subst hn
    refine iff_of_false (not_observed_zero h h') ?_
    omega
  · have hpos : 0 < n := Nat.pos_of_ne_zero hn
    have hlt := hmeets.lt
    obtain ⟨u, heval, hu⟩ := eval_encodes hpos hmeets
    obtain ⟨v, heval', hv⟩ := eval_encodes hpos hmeets'
    have hiff := isEmpty_isFull_iff hpos hlt hu
    constructor
    · rintro ⟨u', v', heval₁, heval₁', hagree⟩
      obtain rfl := Option.some.inj (heval.symm.trans heval₁)
      exact (hiff.mp ⟨hagree.isEmpty, hagree.isFull⟩).imp_right fun hconst => ⟨hpos, hconst⟩
    · intro hcond
      obtain ⟨hempty, hfull⟩ := hiff.mpr (hcond.imp_right And.right)
      exact ⟨u, v, heval, heval', hempty, hfull, countOnes_encodes hpos hlt hu, equals_encodes hu hv,
        includes_encodes hu hv⟩

theorem observed_iff_large :
    (Observed (n := 40) (.set (.new false) 3) (.new true) ↔
      31 < 40 ∨ 0 < 40 ∧ Constant (bits (n := 40) (.set (.new false) 3))) :=
  observed_iff (by decide) (by decide)

/-- One bit of five. -/
theorem not_observed : ¬ ∀ (n : Nat) (h h' : History n), h.Observed h' := by
  intro hall
  obtain ⟨u, v, heval, -, hagree⟩ := hall 5 (.set (.new false) 0) (.new false)
  have hwords : eval (n := 5) (.set (.new false) 0) = some { rem := 5, words := [1] } := by decide
  obtain rfl := Option.some.inj (heval.symm.trans hwords)
  exact absurd hagree.isEmpty (by decide)

end History

end Elm.Util.Wah
