import Elm.Lib.RunLength
import Elm.Util.WAHVector

/-!
# The words of a `WAHVector` as runs

A word is a literal or a repetition of a literal whose bits are all equal.  The builder pushes runs in front
of the ones that it has, and `fix` changes the last literal.
-/

namespace Elm.Util.Wah

open RunLength Nat List

/-! ## The parts of a word -/

theorem and_twoPow_ne_zero (w : Word) {i : Nat} (hi : BitVec.twoPow 32 i ≠ 0) :
    w &&& BitVec.twoPow 32 i ≠ 0 ↔ w.toNat / 2 ^ i % 2 = 1 := by
  have hbit : w.getLsbD i = true ↔ w.toNat / 2 ^ i % 2 = 1 := by
    rw [BitVec.getLsbD, testBit_eq_decide_div_mod_eq, decide_eq_true_eq]
  rw [← hbit, BitVec.and_twoPow]
  split_ifs with h
  · exact iff_of_true hi h
  · exact iff_of_false (fun hne => hne rfl) h

theorem isFill_eq (w : Word) : isFill w = decide (2 ^ 31 ≤ w.toNat) := by
  have hiff : isFill w = true ↔ w.toNat / 2 ^ 31 % 2 = 1 := by
    rw [isFill, decide_eq_true_eq]
    exact @and_twoPow_ne_zero w 31 (by decide)
  have hlt := w.isLt
  rw [Bool.eq_iff_iff, hiff, decide_eq_true_eq]
  omega

theorem isFill_eq_getLsbD (w : Word) : isFill w = w.getLsbD 31 := by
  have hlt := w.isLt
  rw [isFill_eq, BitVec.getLsbD, testBit_eq_decide_div_mod_eq, decide_eq_decide]
  omega

theorem isOnes_eq (w : Word) : isOnes w = decide (w.toNat / 2 ^ 30 % 2 = 1) := by
  rw [Bool.eq_iff_iff, isOnes, decide_eq_true_eq, decide_eq_true_eq]
  exact @and_twoPow_ne_zero w 30 (by decide)

theorem isLite_eq (w : Word) : isLite w = !isFill w := by
  simp [isLite, isFill]

theorem isZeroes_eq (w : Word) : isZeroes w = !isOnes w := by
  simp [isZeroes, isOnes]

theorem toNat_fillCount (w : Word) : (fillCount w).toNat = w.toNat % 2 ^ 30 := by
  have hmask : ~~~(FILL ||| ONES) = BitVec.ofNat 32 (2 ^ 30 - 1) := rfl
  unfold fillCount
  rw [hmask, BitVec.toNat_and, BitVec.toNat_ofNat, mod_eq_of_lt (by decide), and_two_pow_sub_one_eq_mod]

theorem toNat_fill {n : Nat} (hn : n < 2 ^ 30) (init : Bool) :
    (fill n init).toNat = 2 ^ 31 + (if init then 2 ^ 30 else 0) + n := by
  have hint : BitVec.ofInt 32 (n : Int) = BitVec.ofNat 32 n := BitVec.ofInt_natCast 32 n
  have hmod : n % 2 ^ 32 = n := mod_eq_of_lt (by omega)
  unfold fill
  rw [hint, BitVec.toNat_or, BitVec.toNat_ofNat, hmod]
  cases init with
  | true =>
    have h := two_pow_add_eq_or_of_lt hn 3
    have h31 : (FILL ||| if true = true then ONES else 0).toNat = 2 ^ 30 * 3 := rfl
    rw [h31, ← h]
    simp only [if_true]
    omega
  | false =>
    have h := two_pow_add_eq_or_of_lt hn 2
    have h31 : (FILL ||| if false = true then ONES else 0).toNat = 2 ^ 30 * 2 := rfl
    rw [h31, ← h]
    simp only [Bool.false_eq_true, if_false]
    omega

/-- The two high bits of a word. -/
theorem toNat_high (w : Word) : (w &&& (FILL ||| ONES)).toNat = w.toNat / 2 ^ 30 * 2 ^ 30 := by
  have hand : (w &&& (FILL ||| ONES)) &&& (w &&& ~~~(FILL ||| ONES)) = 0 := by
    have hzero : (FILL ||| ONES) &&& ~~~(FILL ||| ONES) = 0#32 := rfl
    rw [BitVec.and_assoc, BitVec.and_comm w (~~~(FILL ||| ONES)), ← BitVec.and_assoc (FILL ||| ONES), hzero,
      BitVec.zero_and]
    exact BitVec.and_zero
  have hor : (w &&& (FILL ||| ONES)) ||| (w &&& ~~~(FILL ||| ONES)) = w := by
    have hall : (FILL ||| ONES) ||| ~~~(FILL ||| ONES) = BitVec.allOnes 32 := rfl
    rw [← BitVec.and_or_distrib_left, hall, BitVec.and_allOnes]
  have hsum := BitVec.add_eq_or_of_and_eq_zero _ _ hand
  rw [hor] at hsum
  have hnat := congrArg BitVec.toNat hsum
  rw [BitVec.toNat_add] at hnat
  have hcount : (w &&& ~~~(FILL ||| ONES)).toNat = w.toNat % 2 ^ 30 := toNat_fillCount w
  have hle : (w &&& (FILL ||| ONES)).toNat ≤ 2 ^ 32 - 2 ^ 30 := by
    rw [BitVec.toNat_and]
    exact and_le_right
  rw [hcount] at hnat
  omega

theorem high_eq_iff (w w' : Word) :
    w &&& (FILL ||| ONES) = w' &&& (FILL ||| ONES) ↔ w.toNat / 2 ^ 30 = w'.toNat / 2 ^ 30 := by
  rw [← BitVec.toNat_inj, toNat_high, toNat_high]
  omega

/-! ## Runs of blocks -/

/-- The literal whose 31 bits are equal to `init`. -/
def uniform (init : Bool) : Word := if init then ALL_ONES else ALL_ZEROES

def Uniform (x : Word) : Prop := x = 0 ∨ x = ALL_ONES

instance : DecidablePred Uniform := fun x => inferInstanceAs (Decidable (x = 0 ∨ x = ALL_ONES))

theorem uniform_Uniform (init : Bool) : Uniform (uniform init) := by
  cases init
  · exact Or.inl rfl
  · exact Or.inr rfl

theorem eq_uniform {x : Word} (h : Uniform x) : x = uniform (x ≠ 0) := by
  rcases h with rfl | rfl <;> rfl

theorem uniform_inj {init init' : Bool} (h : uniform init = uniform init') : init = init' := by
  revert h
  cases init <;> cases init' <;> decide

/-- The run of a word. -/
def view (w : Word) : Run Word :=
  if isFill w then .fill (fillCount w).toNat (uniform (isOnes w)) else .lit w

def runs (ws : List Word) : List (Run Word) := ws.map view

/-- The literals that the words stand for. -/
def blocks (ws : List Word) : List Word := expand (runs ws)

theorem view_fill {n : Nat} (hn : n < 2 ^ 30) (init : Bool) : view (fill n init) = .fill n (uniform init) := by
  have hnat := toNat_fill hn init
  have hfill : isFill (fill n init) = true := by
    rw [isFill_eq]
    simp only [decide_eq_true_eq]
    omega
  have hones : isOnes (fill n init) = init := by
    rw [isOnes_eq, hnat]
    cases init
    · simp only [Bool.false_eq_true, if_false, decide_eq_false_iff_not]
      omega
    · simp only [if_true, decide_eq_true_eq]
      omega
  have hcount : (fillCount (fill n init)).toNat = n := by
    rw [toNat_fillCount, hnat]
    cases init
    · simp only [Bool.false_eq_true, if_false]
      omega
    · simp only [if_true]
      omega
  rw [view, if_pos hfill, hones, hcount]

theorem view_lite {w : Word} (hw : isFill w = false) : view w = .lit w := by
  rw [view, if_neg (by simp [hw])]

theorem eq_fill {w : Word} (hw : isFill w = true) : w = fill (fillCount w).toNat (isOnes w) := by
  have hlt : (fillCount w).toNat < 2 ^ 30 := by
    rw [toNat_fillCount]
    exact mod_lt _ (by decide)
  apply BitVec.eq_of_toNat_eq
  rw [toNat_fill hlt, toNat_fillCount, isOnes_eq]
  rw [isFill_eq, decide_eq_true_eq] at hw
  have hw32 := w.isLt
  by_cases hones : w.toNat / 2 ^ 30 % 2 = 1
  · simp only [hones, decide_true, if_true]
    omega
  · simp only [hones, decide_false, Bool.false_eq_true, if_false]
    omega

theorem view_injective : Function.Injective view := by
  intro w w' h
  unfold view at h
  split_ifs at h with hw hw' hw'
  · injection h with hcount hinit
    rw [eq_fill hw, eq_fill hw', hcount, uniform_inj hinit]
  · injection h

/-- A word that is a run of the builder. -/
theorem view_eq_fill {w : Word} {n : Nat} {x : Word} (h : view w = .fill n x) :
    ∃ init, w = fill n init ∧ x = uniform init ∧ n < 2 ^ 30 := by
  unfold view at h
  split_ifs at h with hw
  injection h with hcount hinit
  refine ⟨isOnes w, ?_, hinit.symm, ?_⟩
  · rw [← hcount]
    exact eq_fill hw
  · rw [← hcount, toNat_fillCount]
    exact mod_lt _ (by decide)

theorem view_eq_lit {w x : Word} (h : view w = .lit x) : w = x ∧ isFill w = false := by
  unfold view at h
  split_ifs at h with hw
  injection h with hx
  exact ⟨hx, by simpa using hw⟩

/-! ## The builder -/

namespace Builder

/-- The number of literals that a builder stands for. -/
def total (b : Builder) : Nat := (blocks b).length

theorem total_cons (w : Word) (b : Builder) : total (w :: b) = (view w).expand.length + total b := by
  simp [total, blocks, runs]

theorem runs_pushFill {b : Builder} {n : Nat} {init : Bool} (hlt : total b + n < 2 ^ 30) :
    runs (b.pushFill (fill n init)) = RunLength.pushFill n (uniform init) (runs b) := by
  have hn : n < 2 ^ 30 := by omega
  cases b with
  | nil => rw [pushFill, runs, map_singleton, view_fill hn]; rfl
  | cons last b =>
    have hnat := toNat_fill hn init
    have hcount : (fillCount (fill n init)).toNat = n := by
      rw [toNat_fillCount, hnat]
      cases init
      · simp only [Bool.false_eq_true, if_false]
        omega
      · simp only [if_true]
        omega
    rw [pushFill]
    simp only [high_eq_iff, hnat]
    change _ = RunLength.pushFill n (uniform init) (view last :: runs b)
    cases hview : view last with
    | lit x =>
      obtain ⟨rfl, hlit⟩ := view_eq_lit hview
      rw [isFill_eq, decide_eq_false_iff_not] at hlit
      rw [if_neg]
      · simp only [runs, map_cons, view_fill hn, hview]
        rfl
      · cases init
        · simp only [Bool.false_eq_true, if_false]
          omega
        · simp only [if_true]
          omega
    | fill m x =>
      obtain ⟨init', rfl, rfl, hm⟩ := view_eq_fill hview
      have hnat' := toNat_fill hm init'
      rw [total_cons, hview] at hlt
      simp only [Run.expand, length_replicate] at hlt
      rw [RunLength.pushFill, hnat']
      by_cases hinit : init' = init
      · subst hinit
        have hsum : fill m init' + fillCount (fill n init') = fill ((m + n : Nat) : Int) init' := by
          apply BitVec.eq_of_toNat_eq
          rw [BitVec.toNat_add, hnat', hcount, toNat_fill (by omega)]
          split_ifs <;> omega
        rw [if_pos (by split_ifs <;> omega), if_pos rfl, hsum]
        simp only [runs, map_cons, view_fill (show m + n < 2 ^ 30 by omega)]
      · rw [if_neg, if_neg fun heq => hinit (uniform_inj heq)]
        · simp only [runs, map_cons, view_fill hn, view_fill hm]
        · cases init <;> cases init' <;> first | exact absurd rfl hinit | skip
          · simp only [Bool.false_eq_true, if_false, if_true]
            omega
          · simp only [Bool.false_eq_true, if_false, if_true]
            omega

theorem runs_pushLite {b : Builder} {w : Word} (hw : isFill w = false) (hlt : total b + 1 < 2 ^ 30) :
    runs (b.pushLite w) = RunLength.push Uniform w (runs b) := by
  unfold pushLite
  split_ifs with hzero hones
  · have huniform : Uniform w := Or.inl hzero
    rw [RunLength.push, if_pos huniform, hzero]
    exact runs_pushFill (n := 1) hlt
  · have huniform : Uniform w := Or.inr hones
    rw [RunLength.push, if_pos huniform, hones]
    exact runs_pushFill (n := 1) hlt
  · have huniform : ¬ Uniform w := not_or.mpr ⟨hzero, hones⟩
    rw [RunLength.push, if_neg huniform, pushRaw, runs, map_cons, view_lite hw]
    rfl

theorem runs_push {b : Builder} {w : Word} (hgood : (view w).Good Uniform)
    (hlt : total b + (view w).expand.length < 2 ^ 30) : runs (b.push w) = pushRun (view w) (runs b) := by
  unfold push
  cases hview : view w with
  | lit x =>
    obtain ⟨rfl, hlit⟩ := view_eq_lit hview
    rw [hview] at hgood hlt
    have hnot : ¬ w &&& FILL ≠ 0 := by simpa [isFill] using hlit
    rw [if_neg hnot, runs_pushLite hlit hlt, RunLength.push, if_neg hgood]
    rfl
  | fill n x =>
    obtain ⟨init, rfl, rfl, hn⟩ := view_eq_fill hview
    rw [hview] at hlt
    simp only [Run.expand, length_replicate] at hlt
    have hfill : fill n init &&& FILL ≠ 0 := by
      have hisFill : isFill (fill n init) = true := by
        by_contra hlit
        rw [view_lite (by simpa using hlit)] at hview
        cases hview
      simpa [isFill] using hisFill
    rw [if_pos hfill]
    exact runs_pushFill hlt

theorem runs_copy (b : Builder) (words : List Word) : runs (b.copy words) = (runs words).reverse ++ runs b := by
  simp [copy, runs]

end Builder

/-! ## The end of the last block -/

section Fix

variable {rem : Nat}

theorem toNat_mask (hrem : rem < 32) : (mask rem).toNat = 2 ^ rem - 1 := by
  have hpow : 2 ^ rem < 2 ^ 32 := Nat.pow_lt_pow_right (by decide) hrem
  have hone : 1 ≤ 2 ^ rem := Nat.one_le_two_pow
  unfold mask
  have hshift : ((1 : Word) <<< rem).toNat = 2 ^ rem := by
    rw [BitVec.toNat_shiftLeft, shiftLeft_eq]
    change 1 * 2 ^ rem % 2 ^ 32 = 2 ^ rem
    rw [Nat.one_mul, mod_eq_of_lt hpow]
  rw [BitVec.toNat_sub, hshift]
  change (2 ^ 32 - 1 + 2 ^ rem) % 2 ^ 32 = 2 ^ rem - 1
  omega

theorem getLsbD_mask (hrem : rem < 32) (i : Nat) : (mask rem).getLsbD i = decide (i < rem) := by
  rw [BitVec.getLsbD, toNat_mask hrem, testBit_two_pow_sub_one]

theorem ALL_ONES_eq : ALL_ONES = mask 31 := rfl

theorem toNat_and_mask (hrem : rem < 32) (w : Word) : (w &&& mask rem).toNat = w.toNat % 2 ^ rem := by
  rw [BitVec.toNat_and, toNat_mask hrem, and_two_pow_sub_one_eq_mod]

/-- The last block as `fix` leaves it. -/
def norm (rem : Nat) (w : Word) : Word :=
  if w &&& mask rem = 0 then 0 else if w &&& mask rem = mask rem then ALL_ONES else w &&& mask rem

theorem mask_ne_zero (hpos : 0 < rem) (hrem : rem < 31) : mask rem ≠ 0 := by
  intro hzero
  have hnat := congrArg BitVec.toNat hzero
  rw [toNat_mask (by omega)] at hnat
  have hpow : 2 ^ 1 ≤ 2 ^ rem := Nat.pow_le_pow_right (by decide) hpos
  change 2 ^ rem - 1 = 0 at hnat
  omega

theorem norm_uniform (hpos : 0 < rem) (hrem : rem < 31) {w : Word} (hw : Uniform w) : norm rem w = w := by
  unfold norm
  rcases hw with rfl | rfl
  · rw [if_pos]
    exact BitVec.zero_and
  · have hmask : ALL_ONES &&& mask rem = mask rem := by
      apply BitVec.eq_of_getLsbD_eq
      intro i _
      rw [BitVec.getLsbD_and, ALL_ONES_eq, getLsbD_mask (by decide), getLsbD_mask (by omega)]
      by_cases hi : i < rem
      · simp [hi, show i < 31 by omega]
      · simp [hi]
    rw [hmask, if_neg (mask_ne_zero hpos hrem), if_pos rfl]

/-- `fix` takes the last block into the block before it, a literal, because of the first bit of this
literal. -/
def Swallows (rem : Nat) (last prev : Word) : Prop :=
  ¬ Uniform last ∧ ¬ Uniform prev ∧
    (last &&& mask rem = 0 ∧ isZeroes prev ∨ last &&& mask rem = mask rem ∧ isOnes prev)

theorem isFill_and_mask (hrem : rem < 31) (w : Word) : isFill (w &&& mask rem) = false := by
  have hpow : 2 ^ rem ≤ 2 ^ 31 := Nat.pow_le_pow_right (by decide) (by omega)
  have hlt : w.toNat % 2 ^ rem < 2 ^ rem := mod_lt _ (Nat.two_pow_pos rem)
  rw [isFill_eq, decide_eq_false_iff_not, toNat_and_mask (by omega)]
  omega

theorem not_uniform_and_mask (hrem : rem < 31) {w : Word} (hzero : w &&& mask rem ≠ 0) :
    ¬ Uniform (w &&& mask rem) := by
  rintro (h | h)
  · exact hzero h
  · have hnat := congrArg BitVec.toNat h
    have hpow : 2 ^ rem ≤ 2 ^ 30 := Nat.pow_le_pow_right (by decide) (by omega)
    have hlt : w.toNat % 2 ^ rem < 2 ^ rem := mod_lt _ (Nat.two_pow_pos rem)
    rw [toNat_and_mask (by omega)] at hnat
    change _ = 2 ^ 31 - 1 at hnat
    omega

/-- A fill of one word is pushed if the word before it is looked at as the right fill. -/
theorem settle_eq {same : Word → Bool} {init : Bool} {b : Builder}
    (h : ∀ prev ∈ b.head?, same prev = decide (2 + (if init then 1 else 0) = prev.toNat / 2 ^ 30)) :
    Builder.settle same init b = b.pushFill (fill 1 init) := by
  cases b with
  | nil => rfl
  | cons prev b =>
    have hone : fillCount (fill 1 init) = 1 := by cases init <;> rfl
    have hhigh : (fill 1 init).toNat / 2 ^ 30 = 2 + if init then 1 else 0 := by cases init <;> rfl
    rw [Builder.settle, h prev rfl, Builder.pushFill, hone]
    simp only [high_eq_iff, hhigh, decide_eq_true_eq]

/-- What `settle` sees of the word before the last one. -/
theorem settle_cases (b : Builder) (hgood : ∀ r ∈ runs b, r.Good Uniform) {init : Bool}
    (hprev : ∀ prev ∈ (blocks b).head?, ¬ Uniform prev → isOnes prev ≠ init) :
    ∀ prev ∈ b.head?, (isOnes prev = init) = (2 + (if init then 1 else 0) = prev.toNat / 2 ^ 30) := by
  intro prev hmem
  cases b with
  | nil => cases hmem
  | cons w b =>
    cases hmem
    have hlt := prev.isLt
    by_cases hfill : isFill prev = true
    · rw [isFill_eq, decide_eq_true_eq] at hfill
      rw [isOnes_eq]
      cases init
      · simp only [decide_eq_false_iff_not, Bool.false_eq_true, if_false, eq_iff_iff]
        omega
      · simp only [decide_eq_true_eq, if_true, eq_iff_iff]
        omega
    · have hlit : isFill prev = false := by simpa using hfill
      have huniform : ¬ Uniform prev := by
        have hgood' := hgood (view prev) (mem_map_of_mem mem_cons_self)
        rw [view_lite hlit] at hgood'
        exact hgood'
      have hne := hprev prev (by simp [blocks, runs, view_lite hlit, Run.expand]) huniform
      rw [isFill_eq, decide_eq_false_iff_not] at hlit
      simp only [hne, eq_iff_iff, false_iff]
      split_ifs <;> omega

theorem reverse_spec {ws : List Word} (hcanon : Canonical Uniform (runs ws)) {bs : List Word}
    (hblocks : blocks ws = bs) : Canonical Uniform (runs ws.reverse) ∧ blocks ws.reverse = bs.reverse := by
  have hruns : runs ws.reverse = (runs ws).reverse := map_reverse
  constructor
  · rw [hruns]
    exact hcanon.reverse
  · rw [blocks, hruns, expand_reverse, ← hblocks]
    rfl

/-- A fill of one word, in front of a builder whose first block is not taken for the same fill. -/
theorem settle_spec {b : Builder} (hcanon : Canonical Uniform (runs b)) (htotal : b.total + 1 < 2 ^ 30)
    {same : Word → Bool} {init : Bool} (hsame : ∀ w, same w = decide (isOnes w = init))
    (hprev : ∀ prev ∈ (blocks b).head?, ¬ Uniform prev → isOnes prev ≠ init) :
    Canonical Uniform (runs (Builder.settle same init b)) ∧
      blocks (Builder.settle same init b) = uniform init :: blocks b := by
  have hsettle : Builder.settle same init b = b.pushFill (fill 1 init) := by
    refine settle_eq fun prev hmem => ?_
    rw [hsame]
    simp only [settle_cases b hcanon.good hprev prev hmem]
  have hruns := @Builder.runs_pushFill b 1 init htotal
  rw [hsettle, blocks]
  change runs (b.pushFill (fill 1 init)) = _ at hruns
  rw [hruns]
  constructor
  · exact hcanon.pushFill Nat.one_pos (uniform_Uniform init)
  · rw [expand_pushFill]
    rfl

/-- `fix` changes the last block only. -/
theorem fix_spec {b : Builder} (hpos : 0 < rem) (hrem : rem < 31) (hcanon : Canonical Uniform (runs b))
    (htotal : b.total < 2 ^ 30) {last : Word} {bs : List Word} (hblocks : blocks b = last :: bs)
    (hprev : ∀ prev ∈ bs.head?, ¬ Swallows rem last prev) :
    Canonical Uniform (runs (b.fix rem)) ∧ blocks (b.fix rem) = (norm rem last :: bs).reverse := by
  cases b with
  | nil => cases hblocks
  | cons w b =>
    obtain ⟨hgood, -, hcanon'⟩ := canonical_cons.mp hcanon
    cases hview : view w with
    | fill n x =>
      -- the last block is uniform
      rw [hview] at hgood
      obtain ⟨k, rfl⟩ := exists_eq_succ_of_ne_zero (Nat.pos_iff_ne_zero.mp hgood.1)
      have hhead : last = x := by
        rw [blocks, runs, map_cons, hview] at hblocks
        exact (List.cons.inj hblocks).1.symm
      have hfix : Builder.fix (w :: b) rem = (w :: b).reverse := by
        obtain ⟨init, hw, -, -⟩ := view_eq_fill hview
        have hlite : isLite w = false := by
          rw [isLite_eq, Bool.not_eq_false']
          by_contra hlit
          rw [view_lite (by simpa using hlit)] at hview
          cases hview
        rw [Builder.fix, if_neg (by simp [hlite])]
      rw [hfix, hhead, norm_uniform hpos hrem hgood.2, ← hhead]
      exact reverse_spec hcanon hblocks
    | lit x =>
      obtain ⟨rfl, hlit⟩ := view_eq_lit hview
      rw [hview] at hgood
      have hcons : w = last ∧ blocks b = bs := by
        rw [blocks, runs, map_cons, hview] at hblocks
        exact List.cons.inj hblocks
      obtain ⟨rfl, rfl⟩ := hcons
      have htotal' : Builder.total b + 1 < 2 ^ 30 := by
        rw [Builder.total_cons, hview] at htotal
        simp only [Run.expand, length_singleton] at htotal
        omega
      have hlite : isLite w = true := by rw [isLite_eq, hlit]; rfl
      rw [Builder.fix, if_pos ⟨Nat.pos_iff_ne_zero.mp hpos, hlite⟩]
      simp only
      unfold norm
      split_ifs with hzero hones
      · have hsettle := @settle_spec b hcanon' htotal' isZeroes false
          (fun w => by rw [isZeroes_eq]; cases isOnes w <;> rfl)
          (fun prev hmem hnot hone => hprev prev hmem
            ⟨hgood, hnot, Or.inl ⟨hzero, by rw [isZeroes_eq, hone]; rfl⟩⟩)
        exact reverse_spec hsettle.1 hsettle.2
      · have hsettle := @settle_spec b hcanon' htotal' isOnes true
          (fun w => by cases isOnes w <;> rfl)
          (fun prev hmem hnot hone => hprev prev hmem ⟨hgood, hnot, Or.inr ⟨hones, hone⟩⟩)
        exact reverse_spec hsettle.1 hsettle.2
      · have hview' := view_lite (isFill_and_mask hrem w)
        refine reverse_spec ?_ ?_
        · rw [runs, map_cons, hview']
          exact hcanon'.pushRun (r := .lit _) (not_uniform_and_mask hrem hzero)
        · rw [blocks, runs, map_cons, hview']
          rfl

end Fix

end Elm.Util.Wah
