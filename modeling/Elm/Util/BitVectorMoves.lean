import Elm.Util.BitVectorRotateRight

/-!
# Shifts and rotations together

The counts for which all the operations are right, on all the vectors of a size whose padding has no
one, and a rotation to the right undoes a rotation to the left.  They are those of `RightFits`: a
vector of full words is never rotated to the right, but by 0 bits in place.  With ones in the padding,
the operations are right if those that come to the bits of the vector fall on ones.
-/

namespace Elm.Util.BitVector

open Bits Arrays List Option

variable {size n k q : Nat} {a : Arrays} {b : BitVector} {words : Nat → Word}
  {op op' : BitVector → Nat → Option BitVector} {spec : List Bool → Nat → Nat → Bool}

/-- The operations `op` and `op'` have results with the same bits. -/
def Agree (op op' : BitVector → Nat → Option BitVector) (b : BitVector) (k : Nat) : Prop :=
  (op b k).map view = (op' b k).map view

/-- The operation `right` brings back the bits of the vector after the operation `left`. -/
def Undoes (left right : BitVector → Nat → Option BitVector) (b : BitVector) (k : Nat) : Prop :=
  ((left b k).bind fun r => right r k).map view = some b.view

/-- The operations on the vector `b` with the count `k` are right. -/
structure Correct (b : BitVector) (k : Nat) : Prop where
  shiftLeft : Moves shiftLeft shiftedLeft b k
  shiftRight : Moves shiftRight shiftedRight b k
  rotateLeft : Moves rotateLeft rotatedLeft b k
  rotateRight : Moves rotateRight rotatedRight b k
  agreeShiftLeft : Agree BitVector.shiftLeft makeShiftLeft b k
  agreeShiftRight : Agree BitVector.shiftRight makeShiftRight b k
  agreeRotateLeft : Agree BitVector.rotateLeft makeRotateLeft b k
  agreeRotateRight : Agree BitVector.rotateRight makeRotateRight b k
  undo : Undoes BitVector.rotateLeft BitVector.rotateRight b k
  makeUndo : Undoes makeRotateLeft makeRotateRight b k

theorem Moves.agree (h : Moves op spec b k) (h' : Moves op' spec b k) : Agree op op' b k := by
  obtain ⟨r, hr, hview⟩ := h
  obtain ⟨r', hr', hview'⟩ := h'
  rw [Agree, hr, hr', map_some, map_some, hview, hview']

theorem Moves.of_agree (h : Moves op spec b k) (hagree : Agree op op' b k) : Moves op' spec b k := by
  obtain ⟨r, hr, hview⟩ := h
  rw [Agree, hr, map_some] at hagree
  obtain ⟨r', hr', hsame⟩ := map_eq_some_iff.mp hagree.symm
  exact ⟨r', hr', hsame.trans hview⟩

/-! ## Right after left -/

theorem size_of_moves (h : Moves op spec b k) {r : BitVector} (hr : op b k = some r) : r.size = b.size := by
  obtain ⟨r', hr', hview⟩ := h
  obtain rfl := some.inj (hr.symm.trans hr')
  have hlen := congrArg List.length hview
  rwa [length_view, length_map, length_range] at hlen

theorem view_of_moves (h : Moves op spec b k) {r : BitVector} (hr : op b k = some r) :
    r.view = (List.range b.size).map (spec b.view k) := by
  obtain ⟨r', hr', hview⟩ := h
  obtain rfl := some.inj (hr.symm.trans hr')
  exact hview

/-- The rotations of bits are the inverses of each other. -/
theorem rotatedRight_rotatedLeft (xs : List Bool) (hk : k ≤ xs.length) :
    (List.range xs.length).map (rotatedRight ((List.range xs.length).map (rotatedLeft xs k)) k) = xs := by
  apply ext_getElem (by simp)
  intro i hi _
  have hlt : i < xs.length := by simpa using hi
  have hmod : (i + k) % xs.length < xs.length := Nat.mod_lt _ (by omega)
  have hback : ((i + k) % xs.length + (xs.length - k)) % xs.length = i := by
    rw [Nat.mod_add_mod, Nat.add_assoc, Nat.add_sub_cancel' hk, Nat.add_mod_right, Nat.mod_eq_of_lt hlt]
  rw [getElem_map, getElem_range, rotatedRight, length_map, length_range,
    getD_eq_getElem _ _ (by simpa using hmod), getElem_map, getElem_range, rotatedLeft, hback,
    getD_eq_getElem _ _ hlt]

theorem bitAt_of_maskWords (h : bitAt (maskWords size words) q = true) : bitAt words q = true := by
  unfold maskWords at h
  split_ifs at h
  · by_cases hlast : q / 8 = inWords size - 1
    · rw [bitAt, hlast, Function.update_self, BitVec.getLsbD_and, Bool.and_eq_true] at h
      rw [bitAt, hlast, h.1]
    · rwa [bitAt, Function.update_of_ne hlast] at h
  · exact h

theorem bitAt_of_mask (h : bitAt (a.mask size).tbits q = true) : bitAt a.tbits q = true := by
  unfold Arrays.mask at h
  split_ifs at h
  · exact bitAt_of_maskWords h
  · exact h

/-- The padding after a rotation to the left of more than one word, if it is not masked, continues the
last bits. -/
theorem padding_leftResult (hfits : LeftFits b.size k) (hcount : a.count = inWords b.size)
    (hsource : a.source = b.wordAt) {m : Nat} (hmore : 8 ≤ b.size + m) (hin : b.size + m < 8 * inWords b.size)
    (hpad : bitAt (leftResult b.size k a).tbits (b.size + m) = true) :
    bitAt b.wordAt (b.size + m - k) = true := by
  have hlt := hfits.2.1
  have hwindex : windex k = 0 := by
    rw [windex_eq]
    omega
  have hword : (b.size + m) / 8 ≠ 0 := by omega
  -- the last word is one of the loop, which may be masked
  rw [bitAt, leftResult, tbits_fill_of_not_mem (by simp [hwindex, hword]), ← bitAt] at hpad
  have hmoved := bitAt_of_mask hpad
  rw [bitAt, tbits_fill_of_mem (by simp only [mem_reverse, mem_range'_1]; omega), ← bitAt, hsource,
    bitAt_movedLeft k b.wordAt (by omega)] at hmoved
  exact hmoved

/-- In a single word, the padding is rotated with the bits. -/
theorem padding_leftResult_single (hle : k ≤ b.size) (hfits : LeftFits b.size k) (hsource : a.source = b.wordAt)
    {m : Nat} (hone : b.size + m < 8) : bitAt (leftResult b.size k a).tbits (b.size + m) =
      (bitAt b.wordAt (b.size + m - k) || b.padding.getD (b.size + m - k) false) := by
  have hwindex : windex k = 0 := by
    rw [windex_eq]
    omega
  have hword : (b.size + m) / 8 = 0 := by omega
  have hmod : (b.size + m) % 8 = b.size + m := by omega
  have hout : b.size + (b.size + m) - k = b.size + (b.size + m - k) := by omega
  rw [bitAt, leftResult, tbits_fill_of_mem (by simp [hword]), hword, hwindex, if_neg (lt_irrefl 0), hsource, hmod,
    getLsbD_limitValue hle hfits (by omega), if_neg (by omega), hout, getD_padding]

/-- The ones of the padding of a word fall on ones, also when the bits are rotated back. -/
def BothClear (b : BitVector) (k : Nat) : Prop :=
  ∀ m < b.size, k + m < 8 → b.padding.getD m false = true → b.view.getD m false = true

/-- After a rotation to the left, when the padding is right for the rotation back. -/
theorem rightClear_ofTarget_iff (hle : k ≤ b.size) (hfits : RightFits b.size k) (hclear : LeftClear b k)
    (hcount : a.count = inWords b.size) (hsource : a.source = b.wordAt)
    (hview : (ofTarget b.size (leftResult b.size k a)).view = (List.range b.size).map (rotatedLeft b.view k)) :
    RightClear (ofTarget b.size (leftResult b.size k a)) k ↔ BothClear b k := by
  have hB := inWords_eq b.size
  have hpadding : ∀ m, b.size + m < 8 * inWords b.size →
      (ofTarget b.size (leftResult b.size k a)).padding.getD m false =
        bitAt (leftResult b.size k a).tbits (b.size + m) := by
    intro m hin
    have hword : (b.size + m) / 8 < inWords b.size := by omega
    rw [getD_padding]
    change bitAt _ (b.size + m) = _
    rw [bitAt, bitAt, wordAt, getD_eq_getElem?_getD]
    simp [ofTarget, hword]
  have hfirst : ∀ m < k, (ofTarget b.size (leftResult b.size k a)).view.getD m false =
      bitAt b.wordAt (b.size + m - k) := by
    intro m hm
    have hdiff : b.size - k + m = b.size + m - k := by omega
    rw [hview, getD_eq_getElem _ _ (by simp; omega), getElem_map, getElem_range,
      rotatedLeft_eq hle (by omega), if_pos hm, hdiff]
  constructor
  · intro h m hm hlt hpad
    by_cases hleft : k + m < min 8 b.size
    · exact hclear m hleft hpad
    · -- a single word: the bit of the padding comes to the padding, and is expected with the first bits
      have hlarge : ¬ inWords b.size = 8 ∧ ¬ 8 ≤ inWords b.size := by omega
      have hless : k < b.size % 8 := by
        have hcases := hfits.2.2.2
        omega
      have hsum : b.size + (k + m - b.size) - k = m := by omega
      have hbit := h (k + m - b.size) (by change _ < if k < b.size % 8 then k else k - b.size % 8; split_ifs; omega)
      rw [hpadding _ (by omega), padding_leftResult_single hle hfits.leftFits hsource (by omega),
        hfirst _ (by omega), hsum, hpad, Bool.or_true] at hbit
      rw [getD_view_of_lt hm]
      exact hbit rfl
  · intro h m hm hpad
    have hmk : m < k := by
      change m < if k < b.size % 8 then k else k - b.size % 8 at hm
      split_ifs at hm <;> omega
    by_cases hin : b.size + m < 8 * inWords b.size
    · rw [hpadding m hin] at hpad
      rw [hfirst m hmk]
      by_cases hone : b.size + m < 8
      · rw [padding_leftResult_single hle hfits.leftFits hsource hone, Bool.or_eq_true] at hpad
        rcases hpad with hbit | hbit
        · exact hbit
        · rw [← getD_view_of_lt (by omega)]
          exact h _ (by omega) (by omega) hbit
      · exact padding_leftResult hfits.leftFits hcount hsource (by omega) hin hpad
    · -- there is no bit after the last word
      rw [getD_padding, bitAt_wordAt_of_ge (by change inWords b.size * 8 ≤ b.size + m; omega)] at hpad
      cases hpad

theorem undoes_iff {left right : BitVector → Nat → Option BitVector} {r : BitVector} (hle : k ≤ b.size)
    (hr : left b k = some r) (hleft : Moves left rotatedLeft b k) :
    Undoes left right b k ↔ Moves right rotatedRight r k := by
  have hback := rotatedRight_rotatedLeft (k := k) b.view (by rwa [length_view])
  rw [length_view, ← view_of_moves hleft hr, ← size_of_moves hleft hr] at hback
  rw [Undoes, hr, bind_some, map_eq_some_iff, Moves, hback]

theorem undoes_iff_of_fits (hle : k ≤ b.size) (hfits : RightFits b.size k) (hclear : LeftClear b k) :
    (Undoes rotateLeft rotateRight b k ↔ BothClear b k) ∧
      (Undoes makeRotateLeft makeRotateRight b k ↔ BothClear b k) := by
  have hpos := hfits.1
  have hwindex : windex k < inWords b.size := by
    have hlt := hfits.2.1
    rw [windex_eq, inWords_eq]
    omega
  have hresult : ∀ a : Arrays, a.count = inWords b.size →
      doRotateLeft b.size k a = some (leftResult b.size k a) := fun a hcount =>
    doRotateLeft_eq hcount hpos.ne' hle hwindex
  obtain ⟨hplace, hnew⟩ := rotateLeft_of_fits hle hfits.leftFits
  have hplace := hplace.mpr hclear
  have hnew := hnew.mpr hclear
  constructor
  · have hr : rotateLeft b k = some (ofTarget b.size (leftResult b.size k b.inPlace)) := by
      rw [rotateLeft, update, hresult _ b.count_inPlace]
      rfl
    rw [undoes_iff hle hr hplace, (rotateRight_of_fits (b := ofTarget b.size _) hle hfits).1]
    exact rightClear_ofTarget_iff hle hfits hclear b.count_inPlace b.source_inPlace (view_of_moves hplace hr)
  · have hr : makeRotateLeft b k = some (ofTarget b.size (leftResult b.size k b.inNew)) := by
      rw [makeRotateLeft, make, new, if_pos (by omega), bind_some, hresult _ b.count_inNew]
      rfl
    rw [undoes_iff hle hr hnew, (rotateRight_of_fits (b := ofTarget b.size _) hle hfits).2]
    exact rightClear_ofTarget_iff hle hfits hclear b.count_inNew b.source_inNew (view_of_moves hnew hr)

/-! ## All the operations -/

theorem correct_iff_of_fits (hle : k ≤ b.size) (hfits : RightFits b.size k) :
    Correct b k ↔ NoBit (b.padding.take k) ∧ BothClear b k := by
  have hpos := hfits.1
  have hrest := hfits.2.2.1
  have hfull : ¬ FullWords b.size k := fun h => hrest h.2.2
  have hzero : k = 0 → NoBit b.view := fun h => absurd h hpos.ne'
  obtain ⟨hshiftLeft, hmakeLeft⟩ := shiftLeft_iff hle
  obtain ⟨hshiftRight, hmakeRight⟩ := shiftRight_iff hle
  obtain ⟨hrotateLeft, hturnLeft⟩ := rotateLeft_of_fits hle hfits.leftFits
  obtain ⟨hrotateRight, hturnRight⟩ := rotateRight_of_fits hle hfits
  constructor
  · intro h
    have hclear := hrotateLeft.mp h.rotateLeft
    exact ⟨(hshiftRight.mp h.shiftRight).2, (undoes_iff_of_fits hle hfits hclear).1.mp h.undo⟩
  · rintro ⟨hpad, hboth⟩
    have hleftClear : LeftClear b k := fun m hm => hboth m (by omega) (by omega)
    have hrightClear : RightClear b k := by
      intro m hm hbit
      rw [noBit_take_iff.mp hpad m (by split_ifs at hm <;> omega)] at hbit
      cases hbit
    obtain ⟨hundo, hmakeUndo⟩ := undoes_iff_of_fits hle hfits hleftClear
    have hshiftLeft := hshiftLeft.mpr hfull
    have hshiftRight := hshiftRight.mpr ⟨hfull, hpad⟩
    have hrotateLeft := hrotateLeft.mpr hleftClear
    have hrotateRight := hrotateRight.mpr hrightClear
    exact {
      shiftLeft := hshiftLeft
      shiftRight := hshiftRight
      rotateLeft := hrotateLeft
      rotateRight := hrotateRight
      agreeShiftLeft := hshiftLeft.agree (hmakeLeft.mpr ⟨by omega, hzero, hfull⟩)
      agreeShiftRight := hshiftRight.agree (hmakeRight.mpr ⟨by omega, hzero, hfull, hpad⟩)
      agreeRotateLeft := hrotateLeft.agree (hturnLeft.mpr hleftClear)
      agreeRotateRight := hrotateRight.agree (hturnRight.mpr hrightClear)
      undo := hundo.mpr hboth
      makeUndo := hmakeUndo.mpr hboth }

theorem Clean.bothClear (h : b.Clean) : BothClear b k := by
  intro m _ _ hpad
  rw [noBit_iff_getD.mp h m] at hpad
  cases hpad

/-- When the shifts and the rotations of a vector by at most its size are right: each shift; each rotation
with a count for which it writes the right words; each rotation on all the vectors of a size; and all the
operations, on a vector with such a count and on all the vectors of a size. -/
theorem moves_iff (b : BitVector) (k : Nat) (hk : k ≤ b.size) :
    ((Moves shiftLeft shiftedLeft b k ↔ ¬ FullWords b.size k) ∧
      (Moves makeShiftLeft shiftedLeft b k ↔
        0 < b.size ∧ (k = 0 → NoBit b.view) ∧ ¬ FullWords b.size k)) ∧
    ((Moves shiftRight shiftedRight b k ↔ ¬ FullWords b.size k ∧ NoBit (b.padding.take k)) ∧
      (Moves makeShiftRight shiftedRight b k ↔
        0 < b.size ∧ (k = 0 → NoBit b.view) ∧ ¬ FullWords b.size k ∧ NoBit (b.padding.take k))) ∧
    (LeftFits b.size k →
      (Moves rotateLeft rotatedLeft b k ↔ LeftClear b k) ∧
        (Moves makeRotateLeft rotatedLeft b k ↔ LeftClear b k)) ∧
    (RightFits b.size k →
      (Moves rotateRight rotatedRight b k ↔ RightClear b k) ∧
        (Moves makeRotateRight rotatedRight b k ↔ RightClear b k)) ∧
    ((∀ c : BitVector, c.size = b.size → c.Clean → Moves rotateLeft rotatedLeft c k) ↔
      k = 0 ∨ LeftFits b.size k) ∧
    ((∀ c : BitVector, c.size = b.size → c.Clean → Moves makeRotateLeft rotatedLeft c k) ↔
      LeftFits b.size k) ∧
    ((∀ c : BitVector, c.size = b.size → c.Clean → Moves rotateRight rotatedRight c k) ↔
      k = 0 ∨ RightFits b.size k) ∧
    ((∀ c : BitVector, c.size = b.size → c.Clean → Moves makeRotateRight rotatedRight c k) ↔
      RightFits b.size k) ∧
    (RightFits b.size k → (Correct b k ↔ NoBit (b.padding.take k) ∧ BothClear b k)) ∧
    ((∀ c : BitVector, c.size = b.size → c.Clean → Correct c k) ↔ RightFits b.size k) := by
  obtain ⟨hleft, hmakeLeft⟩ := rotateLeft_iff hk
  obtain ⟨hright, hmakeRight⟩ := rotateRight_iff hk
  refine ⟨shiftLeft_iff hk, shiftRight_iff hk, rotateLeft_of_fits hk, rotateRight_of_fits hk, hleft, hmakeLeft,
    hright, hmakeRight, correct_iff_of_fits hk, fun h => ?_, fun hfits c hsize hclean => ?_⟩
  · -- the new vector agrees, and is right
    exact hmakeRight.mp fun c hsize hclean =>
      (h c hsize hclean).rotateRight.of_agree (h c hsize hclean).agreeRotateRight
  · rw [← hsize] at hk hfits
    refine (correct_iff_of_fits hk hfits).mpr ⟨?_, hclean.bothClear⟩
    exact fun x hx => hclean x (mem_of_mem_take hx)

theorem moves_iff_five :
    3 ≤ (single 5 0).size ∧ ∀ c : BitVector, c.size = 5 → c.Clean → Correct c 3 :=
  ⟨by decide, (moves_iff (single 5 0) 3 (by decide)).2.2.2.2.2.2.2.2.2.mpr (by decide)⟩

/-- The rotation of `1000000000000000` by 1 loses the one. -/
theorem not_moves : ¬ ∀ (b : BitVector) (k : Nat), k ≤ b.size → Correct b k := by
  intro h
  exact absurd (h (single 16 0) 1 (by decide)).rotateLeft (by decide)

end Elm.Util.BitVector
