import Elm.Util.BitVectorShiftRun
import Mathlib.Data.List.GetD

/-!
# The shifts of a `BitVector`

When the result of a shift is the vector defined bit by bit.  A shift by the whole vector, when it ends
with a full word, writes outside the array; a new vector is left with zeroes by a shift of 0 bits; the
shift to the right moves the padding into the vector.
-/

namespace Elm.Util.BitVector

open Bits Arrays List Option

variable {b : BitVector} {k : Nat} {f : Nat → Nat → Arrays → Option Arrays}
  {spec : List Bool → Nat → Nat → Bool}

/-! ## The bits of a vector -/

theorem view_ofTarget (size : Nat) (a : Arrays) :
    (ofTarget size a).view = (List.range size).map (bitAt a.tbits) := by
  apply ext_getElem?
  intro i
  by_cases hi : i < size
  · rw [getElem?_view _ (show i < (ofTarget size a).size from hi)]
    have hword := windex_lt_inWords hi
    rw [windex_eq] at hword
    simp [ofTarget, hi, hword, bitAt]
  · rw [getElem?_eq_none (by rw [length_view]; exact Nat.le_of_not_lt hi),
      getElem?_eq_none (by simp; omega)]

/-- A bit of the vector, read in its word. -/
theorem getD_view (b : BitVector) (q : Nat) :
    b.view.getD q false = (decide (q < b.size) && bitAt b.wordAt q) := by
  by_cases hq : q < b.size
  · have hword : q / 8 < b.bits.length := by
      rw [← windex_eq]
      exact windex_lt hq
    rw [getD_eq_getElem?_getD, getElem?_view b hq, bitAt, wordAt, getD_eq_getElem?_getD]
    simp [hq, hword]
  · rw [getD_eq_default _ _ (by rw [length_view]; omega)]
    simp [hq]

/-- A bit of the padding, read in the last word. -/
theorem getD_padding (b : BitVector) (m : Nat) : b.padding.getD m false = bitAt b.wordAt (b.size + m) := by
  have hlen := b.size_view_padding
  by_cases hm : m < b.padding.length
  · have hin : b.size + m < b.bits.length * 8 := by
      rw [b.length_bits]
      omega
    have hword : (b.size + m) / 8 < b.bits.length := by omega
    rw [getD_eq_getElem?_getD, padding, getElem?_drop, getElem?_ofWords _ _ hin, bitAt, wordAt,
      getD_eq_getElem?_getD]
    simp [hword]
  · have hout : b.bits.length ≤ (b.size + m) / 8 := by
      rw [b.length_bits]
      omega
    rw [getD_eq_default _ _ (by omega), bitAt, wordAt, getD_eq_default _ _ hout]
    simp

theorem noBit_iff_getD {xs : List Bool} : NoBit xs ↔ ∀ i, xs.getD i false = false := by
  constructor
  · intro h i
    by_cases hi : i < xs.length
    · rw [getD_eq_getElem _ _ hi]
      exact h _ (getElem_mem hi)
    · exact getD_eq_default _ _ (by omega)
  · intro h x hx
    obtain ⟨i, hi, rfl⟩ := getElem_of_mem hx
    rw [← getD_eq_getElem _ false hi]
    exact h i

theorem noBit_take_iff {xs : List Bool} {n : Nat} :
    NoBit (xs.take n) ↔ ∀ i < n, xs.getD i false = false := by
  rw [noBit_iff_getD]
  constructor
  · intro h i hi
    have hget := h i
    rwa [getD_eq_getElem?_getD, getElem?_take_of_lt hi, ← getD_eq_getElem?_getD] at hget
  · intro h i
    by_cases hi : i < n
    · rw [getD_eq_getElem?_getD, getElem?_take_of_lt hi, ← getD_eq_getElem?_getD]
      exact h i hi
    · exact getD_eq_default _ _ (by rw [length_take]; omega)

/-! ## Operations in place and in a new vector -/

theorem view_ofTarget_eq_iff {size : Nat} {a : Arrays} {g : Nat → Bool} :
    (ofTarget size a).view = (List.range size).map g ↔ ∀ q < size, bitAt a.tbits q = g q := by
  rw [view_ofTarget, map_inj_left]
  simp only [mem_range]

theorem moves_update_iff :
    Moves (update f) spec b k ↔
      ∃ a, f b.size k b.inPlace = some a ∧ ∀ q < b.size, bitAt a.tbits q = spec b.view k q := by
  constructor
  · rintro ⟨r, hr, hview⟩
    obtain ⟨a, ha, rfl⟩ := map_eq_some_iff.mp hr
    exact ⟨a, ha, view_ofTarget_eq_iff.mp hview⟩
  · rintro ⟨a, ha, hbits⟩
    exact ⟨_, by rw [update, ha]; rfl, view_ofTarget_eq_iff.mpr hbits⟩

theorem moves_make_iff :
    Moves (make f) spec b k ↔ 0 < b.size ∧
      ∃ a, f b.size k b.inNew = some a ∧ ∀ q < b.size, bitAt a.tbits q = spec b.view k q := by
  constructor
  · rintro ⟨r, hr, hview⟩
    obtain ⟨z, hnew, hr⟩ := bind_eq_some_iff.mp hr
    obtain ⟨a, ha, rfl⟩ := map_eq_some_iff.mp hr
    refine ⟨?_, a, ha, view_ofTarget_eq_iff.mp hview⟩
    by_contra hpos
    rw [new, if_neg hpos] at hnew
    cases hnew
  · rintro ⟨hpos, a, ha, hbits⟩
    refine ⟨_, ?_, view_ofTarget_eq_iff.mpr hbits⟩
    rw [make, new, if_pos hpos, bind_some, ha]
    rfl

theorem count_inPlace (b : BitVector) : b.inPlace.count = inWords b.size := rfl

theorem count_inNew (b : BitVector) : b.inNew.count = inWords b.size := rfl

theorem source_inPlace (b : BitVector) : b.inPlace.source = b.wordAt := rfl

theorem source_inNew (b : BitVector) : b.inNew.source = b.wordAt := rfl

/-- An operation whose result has the bits `g`, which may be other ones in place (`shared`) and in a new
vector. -/
theorem moves_of_spec (spec : List Bool → Nat → Nat → Bool) (g : Bool → Nat → Bool)
    (hspec : ∀ a : Arrays, a.count = inWords b.size → a.source = b.wordAt →
      ∃ a', f b.size k a = some a' ∧ ∀ q < b.size, bitAt a'.tbits q = g a.shared q) :
    (Moves (update f) spec b k ↔ ∀ q < b.size, g true q = spec b.view k q) ∧
      (Moves (make f) spec b k ↔ 0 < b.size ∧ ∀ q < b.size, g false q = spec b.view k q) := by
  have hiff : ∀ a : Arrays, a.count = inWords b.size → a.source = b.wordAt →
      ((∃ a', f b.size k a = some a' ∧ ∀ q < b.size, bitAt a'.tbits q = spec b.view k q) ↔
        ∀ q < b.size, g a.shared q = spec b.view k q) := by
    intro a hcount hsource
    obtain ⟨a', ha, hbits⟩ := hspec a hcount hsource
    constructor
    · rintro ⟨a'', ha', hspec'⟩ q hq
      obtain rfl := some.inj (ha.symm.trans ha')
      rw [← hbits q hq, hspec' q hq]
    · intro h
      exact ⟨a', ha, fun q hq => (hbits q hq).trans (h q hq)⟩
  rw [moves_update_iff, moves_make_iff, hiff _ b.count_inPlace b.source_inPlace,
    hiff _ b.count_inNew b.source_inNew]
  exact ⟨Iff.rfl, Iff.rfl⟩

theorem not_moves_of_none (spec : List Bool → Nat → Nat → Bool)
    (hnone : ∀ a : Arrays, a.count = inWords b.size → a.source = b.wordAt → f b.size k a = none) :
    ¬ Moves (update f) spec b k ∧ ¬ Moves (make f) spec b k := by
  rw [moves_update_iff, moves_make_iff, hnone _ b.count_inPlace b.source_inPlace,
    hnone _ b.count_inNew b.source_inNew]
  simp

/-- An operation that does nothing is right in place if it should do nothing, and leaves zeroes in a new
vector. -/
theorem moves_of_same (spec : List Bool → Nat → Nat → Bool) (hf : ∀ a, f b.size k a = some a)
    (hspec : ∀ q < b.size, spec b.view k q = b.view.getD q false) :
    Moves (update f) spec b k ∧ (Moves (make f) spec b k ↔ 0 < b.size ∧ NoBit b.view) := by
  rw [moves_update_iff, moves_make_iff, hf, hf]
  constructor
  · refine ⟨_, rfl, fun q hq => ?_⟩
    rw [hspec q hq, getD_view, decide_eq_true hq, Bool.true_and]
    rfl
  · -- the constructor has left zeroes, and nothing is written
    have hzero : ∀ q, bitAt b.inNew.tbits q = false := fun q => by simp [inNew, bitAt]
    rw [noBit_iff_getD, and_congr_right_iff]
    intro hpos
    constructor
    · rintro ⟨a, ha, hbits⟩ q
      obtain rfl := some.inj ha
      by_cases hq : q < b.size
      · rw [← hspec q hq, ← hbits q hq, hzero]
      · exact getD_eq_default _ _ (by rw [length_view]; omega)
    · intro hnone
      exact ⟨_, rfl, fun q hq => by rw [hzero, hspec q hq, hnone]⟩

/-! ## The shifts -/

/-- A shift by the whole vector, which ends with a full word. -/
def FullWords (n k : Nat) : Prop := k = n ∧ 0 < k ∧ n % 8 = 0

instance (n k : Nat) : Decidable (FullWords n k) := inferInstanceAs (Decidable (_ ∧ _))

theorem windex_lt_inWords_iff {n : Nat} (hk : k ≤ n) (hpos : k ≠ 0) :
    windex k < inWords n ↔ ¬ FullWords n k := by
  rw [windex_eq, inWords_eq, FullWords]
  omega

theorem shiftLeft_iff (hk : k ≤ b.size) :
    (Moves shiftLeft shiftedLeft b k ↔ ¬ FullWords b.size k) ∧
      (Moves makeShiftLeft shiftedLeft b k ↔
        0 < b.size ∧ (k = 0 → NoBit b.view) ∧ ¬ FullWords b.size k) := by
  unfold shiftLeft makeShiftLeft
  by_cases hzero : k = 0
  · subst hzero
    obtain ⟨hplace, hnew⟩ := moves_of_same shiftedLeft (f := doShiftLeft) (b := b) (k := 0)
      (fun a => if_pos rfl) (fun q _ => by simp [shiftedLeft])
    refine ⟨iff_of_true hplace fun h => absurd h.2.1 (lt_irrefl 0), hnew.trans ?_⟩
    simp [FullWords]
  · by_cases hwords : windex k < inWords b.size
    · obtain ⟨hplace, hnew⟩ := moves_of_spec shiftedLeft (f := doShiftLeft) (b := b) (k := k)
        (fun _ q => if q < k then false else bitAt b.wordAt (q - k)) fun a hcount hsource => by
          obtain ⟨a', ha, hbits⟩ := doShiftLeft_spec hcount hzero hwords
          rw [hsource] at hbits
          exact ⟨a', ha, hbits⟩
      have hall : ∀ q < b.size, (if q < k then false else bitAt b.wordAt (q - k)) = shiftedLeft b.view k q := by
        intro q hq
        unfold shiftedLeft
        split_ifs
        · rfl
        · rw [getD_view, decide_eq_true (by omega), Bool.true_and]
      have hfull := (windex_lt_inWords_iff hk hzero).mp hwords
      exact ⟨iff_of_true (hplace.mpr hall) hfull,
        iff_of_true (hnew.mpr ⟨by omega, hall⟩) ⟨by omega, fun h => absurd h hzero, hfull⟩⟩
    · have hfull : FullWords b.size k := by
        by_contra hnot
        exact hwords ((windex_lt_inWords_iff hk hzero).mpr hnot)
      obtain ⟨hplace, hnew⟩ := not_moves_of_none shiftedLeft (f := doShiftLeft) (b := b) (k := k)
        fun a hcount _ => doShiftLeft_none hcount hzero (Nat.le_of_not_lt hwords)
      exact ⟨iff_of_false hplace fun h => h hfull, iff_of_false hnew fun h => h.2.2 hfull⟩

/-- The padding is seen by the bits that come from after the end. -/
theorem shiftedRight_iff (hk : k ≤ b.size) :
    (∀ q < b.size, (decide (q + k < inWords b.size * 8) && bitAt b.wordAt (q + k)) = shiftedRight b.view k q) ↔
      NoBit (b.padding.take k) := by
  have hsize := size_le_inWords b.size
  have hout : ∀ m, inWords b.size * 8 ≤ b.size + m → b.padding.getD m false = false := by
    intro m hm
    have hlen := b.size_view_padding
    exact getD_eq_default _ _ (by omega)
  rw [noBit_take_iff]
  constructor
  · intro h m hm
    by_cases hin : b.size + m < inWords b.size * 8
    · have hbit := h (b.size + m - k) (by omega)
      rw [Nat.sub_add_cancel (by omega), decide_eq_true hin, Bool.true_and, shiftedRight,
        Nat.sub_add_cancel (by omega), getD_view, decide_eq_false (by omega), Bool.false_and] at hbit
      rw [getD_padding, hbit]
    · exact hout m (by omega)
  · intro h q hq
    rw [shiftedRight, getD_view]
    by_cases hend : q + k < b.size
    · rw [decide_eq_true hend, decide_eq_true (by omega)]
    · have hpad := h (q + k - b.size) (by omega)
      rw [getD_padding, Nat.add_sub_cancel' (by omega)] at hpad
      rw [decide_eq_false hend, hpad]
      simp

theorem shiftRight_iff (hk : k ≤ b.size) :
    (Moves shiftRight shiftedRight b k ↔ ¬ FullWords b.size k ∧ NoBit (b.padding.take k)) ∧
      (Moves makeShiftRight shiftedRight b k ↔
        0 < b.size ∧ (k = 0 → NoBit b.view) ∧ ¬ FullWords b.size k ∧ NoBit (b.padding.take k)) := by
  unfold shiftRight makeShiftRight
  by_cases hzero : k = 0
  · subst hzero
    obtain ⟨hplace, hnew⟩ := moves_of_same shiftedRight (f := doShiftRight) (b := b) (k := 0)
      (fun a => if_pos rfl) (fun q _ => by simp [shiftedRight])
    have hnil : NoBit (b.padding.take 0) := by simp [NoBit]
    refine ⟨iff_of_true hplace ⟨fun h => absurd h.2.1 (lt_irrefl 0), hnil⟩, hnew.trans ?_⟩
    constructor
    · rintro ⟨hpos, hzero⟩
      exact ⟨hpos, fun _ => hzero, fun h => absurd h.2.1 (lt_irrefl 0), hnil⟩
    · rintro ⟨hpos, hzero, -⟩
      exact ⟨hpos, hzero rfl⟩
  · by_cases hwords : windex k < inWords b.size
    · obtain ⟨hplace, hnew⟩ := moves_of_spec shiftedRight (f := doShiftRight) (b := b) (k := k)
        (fun _ q => decide (q + k < inWords b.size * 8) && bitAt b.wordAt (q + k)) fun a hcount hsource => by
          obtain ⟨a', ha, hbits⟩ := doShiftRight_spec hcount hzero hwords
          rw [hsource] at hbits
          exact ⟨a', ha, hbits⟩
      have hfull := (windex_lt_inWords_iff hk hzero).mp hwords
      rw [hplace, hnew, shiftedRight_iff hk]
      exact ⟨(and_iff_right hfull).symm, by
        rw [and_iff_right hfull, and_iff_right (fun h => absurd h hzero)]⟩
    · have hfull : FullWords b.size k := by
        by_contra hnot
        exact hwords ((windex_lt_inWords_iff hk hzero).mpr hnot)
      obtain ⟨hplace, hnew⟩ := not_moves_of_none shiftedRight (f := doShiftRight) (b := b) (k := k)
        fun a hcount _ => doShiftRight_none hcount hzero (Nat.le_of_not_lt hwords)
      exact ⟨iff_of_false hplace fun h => h.1 hfull, iff_of_false hnew fun h => h.2.2.1 hfull⟩

end Elm.Util.BitVector
