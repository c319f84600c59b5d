import Elm.Util.BitVectorObservers

/-!
# Sizes of a `BitVector`

`resize`, the constructor with a new size and the assignment.  `resize` keeps the block when the number
of words is the same, so that bits of the padding become bits of the array, and leaves the words that it
adds as the system gave them; the constructor copies as many *bytes* as the old vector has bits; the
assignment compares the numbers of words, where `copy` asserts that the sizes are equal, and does not
change the size when its argument has no block.
-/

namespace Elm.Util.BitVector

open Bits List

/-- `resize`; `fresh` is the content of a new block. -/
def resize (b : BitVector) (newSize : Nat) (fresh : Nat → Word) : BitVector :=
  if h : b.wcount = inWords newSize then
    ⟨newSize, b.bits, b.length_bits.trans h⟩
  else
    ⟨newSize, b.bits.take (min b.wcount (inWords newSize)) ++
        (List.range' b.wcount (inWords newSize - b.wcount)).map fresh, by
      simp only [length_append, length_take, length_map, length_range',
        b.length_bits, wcount]
      omega⟩

/-- An object of the class: a vector, and whether its pointer `bits` is null. -/
structure Object where
  vec : BitVector
  null : Bool
  null_size : null = true → vec.size = 0

/-- `operator=`.  A vector that keeps its size without a block has no result. -/
def Object.assign (o vec : Object) : Option Object :=
  if o.vec.wcount ≠ 0 ∧ o.vec.wcount = vec.vec.wcount then
    (o.vec.copy vec.vec).map fun b => ⟨b, false, fun h => nomatch h⟩
  else if vec.null = true then
    if h : o.vec.size = 0 then some ⟨o.vec, true, fun _ => h⟩ else none
  else
    some ⟨copyOf vec.vec, false, fun h => nomatch h⟩

/-- The array `xs` extended with zeroes or reduced to `n` bits. -/
def fit (xs : List Bool) (n : Nat) : List Bool := (List.range n).map fun i => xs.getD i false

/-- `resize` to `n` keeps the size or reduces it, or finds zeroes in the padding of the same words. -/
def ResizeFits (b : BitVector) (n : Nat) : Prop :=
  n ≤ b.size ∨ (b.wcount = inWords n ∧ NoBit (b.padding.take (n - b.size)))

/-- The constructor reduces the size, or copies no byte, or copies one byte with zeroes in the part of
the padding that is in the new array. -/
def ResizedFits (b : BitVector) (n : Nat) : Prop :=
  0 < n ∧ (n < b.size ∨ b.size = 0 ∨ (b.size = 1 ∧ NoBit (b.padding.take (n - 1))))

/-- A null argument is assigned to an empty vector, and the sizes are equal when the numbers of words
are. -/
def AssignFits (o vec : Object) : Prop :=
  (vec.null = true → o.vec.size = 0) ∧ (o.vec.wcount = vec.vec.wcount → o.vec.size = vec.vec.size)

instance (b : BitVector) (n : Nat) : Decidable (b.ResizeFits n) := inferInstanceAs (Decidable (_ ∨ _))

instance (b : BitVector) (n : Nat) : Decidable (b.ResizedFits n) := inferInstanceAs (Decidable (_ ∧ _))

variable {b : BitVector} {n : Nat}

/-! ## Arrays -/

theorem fit_eq (xs : List Bool) (n : Nat) :
    fit xs n = xs.take n ++ replicate (n - xs.length) false := by
  apply ext_getElem?
  intro i
  by_cases hi : i < n
  · by_cases hlen : i < xs.length
    · simp [fit, hi, hlen, getElem?_append_left]
    · have hpad : i - min n xs.length < n - xs.length := by omega
      rw [getElem?_append_right (by simp; omega)]
      simp [fit, hi, hlen, hpad]
  · rw [getElem?_eq_none (by simp [fit]; omega), getElem?_eq_none (by simp; omega)]

theorem fit_of_le {xs : List Bool} (h : n ≤ xs.length) : fit xs n = xs.take n := by
  simp [fit_eq, Nat.sub_eq_zero_of_le h]

/-- An array followed by other bits, read on `n` bits. -/
theorem take_append_eq_fit_iff {xs ys : List Bool} (hlen : n ≤ xs.length + ys.length) :
    (xs ++ ys).take n = fit xs n ↔ NoBit (ys.take (n - xs.length)) := by
  have htake : (ys.take (n - xs.length)).length = n - xs.length := by
    rw [length_take]
    omega
  rw [fit_eq, take_append, append_cancel_left_eq, noBit_iff_eq_replicate, htake]

theorem ofWords_take (ws : List Word) (k : Nat) : ofWords (ws.take k) = (ofWords ws).take (k * 8) := by
  have happend : ofWords ws = ofWords (ws.take k) ++ ofWords (ws.drop k) := by
    rw [← ofWords_append, take_append_drop]
  by_cases hk : k ≤ ws.length
  · rw [happend, take_left' (by rw [length_ofWords, length_take, Nat.min_eq_left hk])]
  · have hlen : ws.length ≤ k := by omega
    rw [take_of_length_le hlen, take_of_length_le (by rw [length_ofWords]; omega)]

theorem size_le_inWords (n : Nat) : n ≤ inWords n * 8 := by
  rw [inWords_eq]
  omega

/-- The first words have the first bits. -/
theorem take_ofWords_take (b : BitVector) (h : n ≤ b.size) :
    (ofWords (b.bits.take (inWords n))).take n = fit b.view n := by
  rw [ofWords_take, take_take, Nat.min_eq_left (size_le_inWords n), fit_of_le (by simpa using h), view,
    take_take, Nat.min_eq_left h]

/-! ## `resize` -/

@[simp] theorem size_resize (b : BitVector) (n : Nat) (fresh : Nat → Word) :
    (b.resize n fresh).size = n := by
  unfold resize
  split_ifs <;> rfl

/-- A kept block shows its padding. -/
theorem view_resize_same (h : b.wcount = inWords n) (fresh : Nat → Word) :
    (b.resize n fresh).view = fit b.view n ↔ NoBit (b.padding.take (n - b.size)) := by
  have hbits : (b.resize n fresh).view = (b.view ++ b.padding).take n := by
    rw [view_append_padding, resize, dif_pos h]
    rfl
  have hlen := b.size_view_padding
  have hsize := size_le_inWords n
  rw [← h] at hsize
  rw [hbits, take_append_eq_fit_iff (by rw [length_view]; unfold wcount at hsize; omega), length_view]

theorem view_resize_less (hne : b.wcount ≠ inWords n) (hle : n ≤ b.size) (fresh : Nat → Word) :
    (b.resize n fresh).view = fit b.view n := by
  have hwords : inWords n ≤ b.wcount := by
    simp only [wcount, inWords_eq]
    omega
  have hbits : (b.resize n fresh).bits = b.bits.take (inWords n) := by
    rw [resize, dif_neg hne]
    simp [Nat.min_eq_right hwords, Nat.sub_eq_zero_of_le hwords]
  rw [view, hbits, size_resize, take_ofWords_take b hle]

/-- A new block that is larger shows what the system left in it. -/
theorem view_resize_more (hne : b.wcount ≠ inWords n) (hlt : b.size < n) :
    (b.resize n fun _ => 0xff).view ≠ fit b.view n := by
  have hwords : b.wcount < inWords n := by
    simp only [wcount, inWords_eq] at hne ⊢
    omega
  have hbit : b.wcount * 8 < n := by
    simp only [wcount, inWords_eq] at hne ⊢
    omega
  have hsize : b.size ≤ b.wcount * 8 := size_le_inWords b.size
  intro heq
  -- the first bit of the first new word
  have hget := congrArg (fun xs : List Bool => xs[b.wcount * 8]?) heq
  have hword : (b.resize n fun _ => 0xff).bits[b.wcount]? = some 0xff := by
    have hlen : (b.bits.take (min b.wcount (inWords n))).length = b.wcount := by
      rw [length_take, b.length_bits]
      unfold wcount at hwords ⊢
      omega
    rw [resize, dif_neg hne, getElem?_append_right hlen.le, hlen, Nat.sub_self]
    simp [hwords]
  have hview := getElem?_view (b.resize n fun _ => 0xff) (i := b.wcount * 8) (by rw [size_resize]; exact hbit)
  rw [Nat.mul_div_cancel _ (by decide), Nat.mul_mod_left, hword] at hview
  simp only [hview] at hget
  simp [fit, hbit, hsize] at hget

theorem resize_iff (b : BitVector) (n : Nat) :
    (∀ fresh, (b.resize n fresh).size = n ∧ (b.resize n fresh).view = fit b.view n) ↔ b.ResizeFits n := by
  unfold ResizeFits
  by_cases hsame : b.wcount = inWords n
  · constructor
    · intro h
      exact Or.inr ⟨hsame, (view_resize_same hsame fun _ => 0).mp (h _).2⟩
    · rintro (hle | ⟨-, hzero⟩) fresh
      · refine ⟨size_resize b n fresh, (view_resize_same hsame fresh).mpr ?_⟩
        simp [Nat.sub_eq_zero_of_le hle, NoBit]
      · exact ⟨size_resize b n fresh, (view_resize_same hsame fresh).mpr hzero⟩
  · constructor
    · intro h
      by_contra hnot
      exact view_resize_more hsame (by omega) (h _).2
    · rintro (hle | ⟨heq, -⟩) fresh
      · exact ⟨size_resize b n fresh, view_resize_less hsame hle fresh⟩
      · exact absurd heq hsame

/-! ## The constructor -/

/-- One byte at most is copied; it is followed by zeroes. -/
theorem resized_extend (hn : 0 < n) (hle : b.size ≤ n) (hcopy : b.size ≤ b.wcount) :
    ∃ r, b.resized n = some r ∧ r.size = n ∧
      (r.view = fit b.view n ↔ NoBit (b.padding.take (n - b.size))) := by
  have hsome := b.size_view_padding
  have hsize := size_le_inWords n
  have hmono : inWords b.size ≤ inWords n := by
    simp only [inWords_eq]
    omega
  refine ⟨_, by rw [resized, if_neg hn.ne', dif_pos hle, if_pos hcopy], rfl, ?_⟩
  have hzero : ofWords (replicate (inWords n - b.wcount) (0 : Word)) =
      replicate ((inWords n - b.wcount) * 8) false := ofWords_replicate ofWord_zero _
  rw [view, ofWords_append, ← view_append_padding, hzero, append_assoc, take_append_eq_fit_iff,
    length_view, take_append, noBit_append, take_replicate]
  · exact and_iff_left (noBit_replicate _)
  · simp only [length_view, length_append, length_replicate, wcount]
    omega

theorem resized_reduce (hn : 0 < n) (hlt : n < b.size) :
    ∃ r, b.resized n = some r ∧ r.size = n ∧ r.view = fit b.view n := by
  refine ⟨_, by rw [resized, if_neg hn.ne', dif_neg (by omega)], size_mask _, ?_⟩
  rw [view_mask]
  exact take_ofWords_take b hlt.le

theorem resized_iff (b : BitVector) (n : Nat) :
    (∃ r, b.resized n = some r ∧ r.size = n ∧ r.view = fit b.view n) ↔ b.ResizedFits n := by
  unfold ResizedFits
  by_cases hn : 0 < n
  · by_cases hlt : n < b.size
    · exact iff_of_true (resized_reduce hn hlt) ⟨hn, Or.inl hlt⟩
    · by_cases hcopy : b.size ≤ b.wcount
      · -- the number of bits is a number of bytes inside the block for one bit at most
        obtain ⟨r, hr, hsize, hview⟩ := resized_extend hn (by omega) hcopy
        have hsmall : b.size = 0 ∨ b.size = 1 := by
          simp only [wcount, inWords_eq] at hcopy
          omega
        have hresult : (∃ r, b.resized n = some r ∧ r.size = n ∧ r.view = fit b.view n) ↔
            NoBit (b.padding.take (n - b.size)) := by
          rw [← hview, hr]
          exact ⟨fun ⟨_, heq, _, hr'⟩ => Option.some.inj heq ▸ hr', fun h => ⟨r, rfl, hsize, h⟩⟩
        rw [hresult]
        rcases hsmall with hzero | hone
        · have hpad := b.size_view_padding
          rw [hzero, inWords_eq] at hpad
          have hnil : b.padding = [] := length_eq_zero_iff.mp (by omega)
          exact iff_of_true (by simp [hnil, NoBit]) ⟨hn, Or.inr (Or.inl hzero)⟩
        · simp [hone, hn]
          omega
      · -- the bytes after the block would be copied
        have hlarge : 2 ≤ b.size := by
          simp only [wcount, inWords_eq] at hcopy
          omega
        refine iff_of_false ?_ (by omega)
        rintro ⟨r, hr, -⟩
        rw [resized, if_neg hn.ne', dif_pos (by omega), if_neg hcopy] at hr
        cases hr
  · refine iff_of_false ?_ fun h => hn h.1
    rintro ⟨r, hr, -⟩
    rw [resized, if_pos (by omega)] at hr
    cases hr

/-! ## The assignment -/

theorem wcount_eq_zero_iff (b : BitVector) : b.wcount = 0 ↔ b.size = 0 := by
  simp only [wcount, inWords_eq]
  omega

theorem copy_spec {b vec : BitVector} (hsize : b.size = vec.size) : b.copy vec = some vec := by
  rw [copy, combine, dif_pos hsize, Option.some.injEq]
  ext1
  · exact hsize
  · have hlen : b.bits.length = vec.bits.length := by rw [b.length_bits, vec.length_bits, hsize]
    change List.zipWith (fun _ y => y) b.bits vec.bits = vec.bits
    rw [← map_uncurry_zip_eq_zipWith]
    exact map_snd_zip hlen.ge

theorem assign_iff (o vec : Object) :
    (∃ r, o.assign vec = some r ∧ r.vec.size = vec.vec.size ∧ r.vec.view = vec.vec.view) ↔
      AssignFits o vec := by
  unfold AssignFits Object.assign
  split_ifs with hwords hnull hzero
  · -- `copy`
    have hblock : vec.null ≠ true := by
      intro hnull
      have hsize := vec.null_size hnull
      rw [← wcount_eq_zero_iff, ← hwords.2] at hsize
      exact hwords.1 hsize
    constructor
    · rintro ⟨r, hr, -⟩
      refine ⟨fun hnull => absurd hnull hblock, fun _ => ?_⟩
      by_contra hne
      rw [copy, combine, dif_neg hne] at hr
      cases hr
    · rintro ⟨-, hsize⟩
      rw [copy_spec (hsize hwords.2)]
      exact ⟨_, rfl, rfl, rfl⟩
  · -- no block on both sides
    have hsize := vec.null_size hnull
    refine iff_of_true ⟨_, rfl, by rw [hzero, hsize], ?_⟩ ⟨fun _ => hzero, fun _ => by rw [hzero, hsize]⟩
    have hview := length_view o.vec
    have hview' := length_view vec.vec
    rw [hzero] at hview
    rw [hsize] at hview'
    rw [length_eq_zero_iff.mp hview, length_eq_zero_iff.mp hview']
  · -- the size stays, without words
    refine iff_of_false ?_ fun h => hzero (h.1 hnull)
    rintro ⟨r, hr, -⟩
    cases hr
  · -- a new block
    refine iff_of_true ⟨_, rfl, rfl, rfl⟩ ⟨fun h => absurd h hnull, fun heq => ?_⟩
    have hnone : o.vec.wcount = 0 := by
      by_contra hne
      exact hwords ⟨hne, heq⟩
    rw [(wcount_eq_zero_iff _).mp hnone, (wcount_eq_zero_iff _).mp (heq.symm.trans hnone)]

/-- For each operation, when the result has the size that is asked for, the bits that both arrays have,
and zeroes after them, whatever the system leaves in a new block. -/
theorem sizes_iff (o vec : Object) (n : Nat) :
    ((∀ fresh, (o.vec.resize n fresh).size = n ∧ (o.vec.resize n fresh).view = fit o.vec.view n) ↔
        o.vec.ResizeFits n) ∧
      ((∃ r, o.vec.resized n = some r ∧ r.size = n ∧ r.view = fit o.vec.view n) ↔ o.vec.ResizedFits n) ∧
      ((∃ r, o.assign vec = some r ∧ r.vec.size = vec.vec.size ∧ r.vec.view = vec.vec.view) ↔
        AssignFits o vec) :=
  ⟨resize_iff o.vec n, resized_iff o.vec n, assign_iff o vec⟩

/-- Five bits set by the constructor: `resize` to 8 adds three ones. -/
theorem not_sizes :
    ¬ ∀ (o vec : Object) (n : Nat), Reachable o.vec → Reachable vec.vec → 0 < n →
      (∀ fresh, (o.vec.resize n fresh).size = n ∧ (o.vec.resize n fresh).view = fit o.vec.view n) ∧
        (∃ r, o.vec.resized n = some r ∧ r.size = n ∧ r.view = fit o.vec.view n) ∧
        (∃ r, o.assign vec = some r ∧ r.vec.size = vec.vec.size ∧ r.vec.view = vec.vec.view) := by
  intro h
  have hreach : Reachable ⟨5, [0xff], rfl⟩ := .new (show new 5 true = _ from rfl)
  have hview := ((h ⟨_, false, fun h => nomatch h⟩ ⟨_, false, fun h => nomatch h⟩ 8 hreach hreach
    (by decide)).1 fun _ => 0).2
  revert hview
  decide

end Elm.Util.BitVector
