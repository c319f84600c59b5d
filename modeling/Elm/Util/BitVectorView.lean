import Elm.Util.BitVector

/-!
# The bits of a `BitVector`

A vector stands for the list of its first `size` bits.  The bits of the last word from `size` on are
padding: `applyNot`, `makeNot` and the constructor that sets the bits leave ones there, and only the
observers that call `mask` clear them, in the vector they are called on.
-/

namespace Elm.Util.BitVector

open Bits List Nat

/-- The boolean array that the vector stands for. -/
def view (b : BitVector) : List Bool := (ofWords b.bits).take b.size

/-- The bits of the last word that are not part of the array. -/
def padding (b : BitVector) : List Bool := (ofWords b.bits).drop b.size

/-- No padding bit is set. -/
def Clean (b : BitVector) : Prop := ∀ p ∈ b.padding, p = false

instance (b : BitVector) : Decidable b.Clean := inferInstanceAs (Decidable (∀ p ∈ _, _))

theorem inWords_eq (s : Nat) : inWords s = (s + 7) / 8 := by
  simp [inWords, wsize, wshift, shiftRight_eq_div_pow]

theorem windex_eq (i : Nat) : windex i = i / 8 := by
  simp [windex, wshift, shiftRight_eq_div_pow]

theorem bindex_eq (i : Nat) : bindex i = i % 8 := by
  simpa [bindex, wsize] using and_two_pow_sub_one_eq_mod i 3

theorem length_ofWords_bits (b : BitVector) : (ofWords b.bits).length = inWords b.size * 8 := by
  rw [length_ofWords, b.length_bits]

theorem size_le_length (b : BitVector) : b.size ≤ (ofWords b.bits).length := by
  rw [length_ofWords_bits, inWords_eq]
  omega

@[simp] theorem length_view (b : BitVector) : b.view.length = b.size := by
  simpa [view] using b.size_le_length

theorem view_append_padding (b : BitVector) : b.view ++ b.padding = ofWords b.bits :=
  take_append_drop _ _

/-- The constructor gives all the bits of the array the same value. -/
theorem new_spec {size : Nat} (hsize : 0 < size) (value : Bool) :
    ∃ b, new size value = some b ∧ b.size = size ∧ b.view = replicate size value := by
  refine ⟨_, if_pos hsize, rfl, ?_⟩
  have hword : ofWord (if value then 0xff else 0 : Word) = replicate 8 value := by
    cases value <;> decide
  have hle : size ≤ inWords size * 8 := by
    rw [inWords_eq]
    omega
  simp only [view, ofWords_replicate hword, take_replicate, Nat.min_eq_left hle]

/-! ## The mask -/

theorem maskWord_eq_zero_iff (size : Nat) : maskWord size = 0 ↔ size % 8 = 0 := by
  have h : ∀ r < 8, BitVec.ofNat 8 (255 >>> (8 - r)) = 0 ↔ r = 0 := by decide
  simpa [maskWord, wsize, bindex_eq] using h (size % 8) (mod_lt _ (by decide))

theorem getLsbD_maskWord {size : Nat} (i : Nat) (hi : i < 8) :
    (maskWord size).getLsbD i = decide (i < size % 8) := by
  have h : ∀ r < 8, ∀ i < 8, (BitVec.ofNat 8 (255 >>> (8 - r))).getLsbD i = decide (i < r) := by
    decide
  simpa [maskWord, wsize, bindex_eq] using h (size % 8) (mod_lt _ (by decide)) i hi

theorem size_view_padding (b : BitVector) : b.size + b.padding.length = inWords b.size * 8 := by
  rw [← length_ofWords_bits, ← view_append_padding, length_append, length_view]

/-- A bit of the array, read in its word. -/
theorem getElem?_view (b : BitVector) {i : Nat} (hi : i < b.size) :
    b.view[i]? = (b.bits[i / 8]?).map fun x => x.getLsbD (i % 8) := by
  have hlen := b.size_le_length
  rw [view, getElem?_take_of_lt hi, getElem?_ofWords]
  simp only [length_ofWords] at hlen
  omega

/-- `bit` reads the array. -/
theorem bit_eq (b : BitVector) (i : Nat) : b.bit i = b.view[i]? := by
  unfold bit
  split_ifs with hi
  · have hword : i / 8 < b.bits.length := by
      rw [b.length_bits, inWords_eq]
      omega
    rw [getElem?_view b hi, windex_eq, bindex_eq, getD_eq_getElem?_getD,
      getElem?_eq_getElem hword, Option.getD_some, Option.map_some]
    exact congrArg some (test_bit _ (mod_lt i (by decide)))
  · rw [getElem?_eq_none (by simpa using hi)]

/-- Masking the last word keeps the bits of the array and clears the padding. -/
theorem ofWords_mask (b : BitVector) :
    ofWords b.mask.bits = b.view ++ replicate b.padding.length false := by
  have hlen := b.size_view_padding
  rw [inWords_eq] at hlen
  unfold mask
  split_ifs with hmask
  · rw [ne_eq, maskWord_eq_zero_iff] at hmask
    apply ext_getElem?
    intro i
    by_cases hi : i < b.bits.length * 8
    · have hi' := hi
      rw [b.length_bits, inWords_eq] at hi'
      have hword : i / 8 < b.bits.length := by omega
      rw [mapWords, getElem?_ofWords_modify _ _ _ i hi, wcount, inWords_eq]
      by_cases hsize : i < b.size
      · -- a bit of the array
        rw [getElem?_append_left (by simpa using hsize), getElem?_view b hsize]
        split_ifs with hlast
        · have hbit : i % 8 < b.size % 8 := by omega
          simp [← hlast, hword, getLsbD_maskWord _ (mod_lt i (by decide)), hbit]
        · exact getElem?_ofWords b.bits i hi
      · -- a bit of the padding
        rw [getElem?_append_right (by simpa using hsize)]
        have hlast : i / 8 = (b.size + 7) / 8 - 1 := by omega
        have hbit : ¬ i % 8 < b.size % 8 := by omega
        have hrest : i - b.size < b.padding.length := by omega
        simp [← hlast, hword, getLsbD_maskWord _ (mod_lt i (by decide)), hbit, hrest]
    · rw [getElem?_eq_none (by simpa [mapWords] using hi), getElem?_eq_none]
      rw [b.length_bits, inWords_eq] at hi
      simp only [length_append, length_view, length_replicate]
      omega
  · rw [ne_eq, not_not, maskWord_eq_zero_iff] at hmask
    have hnil : b.padding.length = 0 := by omega
    rw [← view_append_padding, length_eq_zero_iff.mp hnil]
    simp

@[simp] theorem size_mask (b : BitVector) : b.mask.size = b.size := by
  unfold mask
  split_ifs <;> rfl

@[simp] theorem view_mask (b : BitVector) : b.mask.view = b.view := by
  rw [view, ofWords_mask, size_mask, take_left' b.length_view]

/-! ## The mutators on the array -/

/-- Writing one bit of the array leaves the padding alone. -/
theorem view_padding_of_set {b b' : BitVector} {i : Nat} {value : Bool} (hi : i < b.size)
    (hsize : b'.size = b.size) (hbits : ofWords b'.bits = (ofWords b.bits).set i value) :
    b'.view = b.view.set i value ∧ b'.padding = b.padding := by
  constructor
  · rw [view, hbits, hsize, view, take_set]
  · rw [padding, hbits, hsize, padding, drop_set_of_lt hi]

theorem windex_bindex (i : Nat) : windex i * 8 + bindex i = i := by
  rw [windex_eq, bindex_eq]
  omega

theorem windex_lt {b : BitVector} {i : Nat} (hi : i < b.size) : windex i < b.bits.length := by
  rw [b.length_bits, inWords_eq, windex_eq]
  omega

theorem set_spec {b : BitVector} {i : Nat} (hi : i < b.size) :
    ∃ b', b.set i = some b' ∧ b'.size = b.size ∧ b'.view = b.view.set i true ∧
      b'.padding = b.padding := by
  have hr : bindex i < 8 := by
    rw [bindex_eq]
    omega
  refine ⟨_, if_pos hi, rfl, view_padding_of_set hi rfl ?_⟩
  have h := ofWords_modify_bit b.bits (windex_lt hi) hr fun x j _ => getLsbD_set_bit x (i := j) hr
  rw [windex_bindex] at h
  exact h

end Elm.Util.BitVector
