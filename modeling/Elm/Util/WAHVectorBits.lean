import Elm.Util.WAHVectorUpdate

/-!
# The bits of a `WAHVector`

A vector stands for an array of booleans when its blocks have them, its words are canonical and the block that
the array does not fill has the form that `fix` gives to it.
-/

namespace Elm.Util.Wah

open RunLength List Option

variable {n : Nat}

/-! ## Bits of one block -/

theorem eq_zero_iff {x : Word} (hx : isFill x = false) : x = 0 ↔ ∀ j < 31, x.getLsbD j = false := by
  constructor
  · rintro rfl j -
    exact BitVec.getLsbD_zero
  · intro h
    apply BitVec.eq_of_getLsbD_eq
    intro j hj
    have hzero : (0 : Word).getLsbD j = false := BitVec.getLsbD_zero
    rw [hzero]
    by_cases hlast : j = 31
    · rw [hlast, ← isFill_eq_getLsbD, hx]
    · exact h j (by omega)

theorem eq_ALL_ONES_iff {x : Word} (hx : isFill x = false) : x = ALL_ONES ↔ ∀ j < 31, x.getLsbD j = true := by
  have hones : ∀ j, ALL_ONES.getLsbD j = decide (j < 31) := by
    intro j
    rw [ALL_ONES_eq, getLsbD_mask (by decide)]
  constructor
  · rintro rfl j hj
    rw [hones, decide_eq_true hj]
  · intro h
    apply BitVec.eq_of_getLsbD_eq
    intro j hj
    rw [hones]
    by_cases hlast : j = 31
    · rw [hlast, ← isFill_eq_getLsbD, hx]
      rfl
    · rw [h j (by omega), decide_eq_true (by omega)]

theorem eq_uniform_iff {x : Word} (hx : isFill x = false) (init : Bool) :
    x = uniform init ↔ ∀ j < 31, x.getLsbD j = init := by
  cases init
  · exact eq_zero_iff hx
  · exact eq_ALL_ONES_iff hx

theorem isOnes_eq_getLsbD (w : Word) : isOnes w = w.getLsbD 30 := by
  rw [isOnes_eq, BitVec.getLsbD, Nat.testBit_eq_decide_div_mod_eq]

section Mask

variable {rem : Nat} {x : Word}

theorem and_mask_eq_zero_iff (hrem : rem < 31) : x &&& mask rem = 0 ↔ ∀ j < rem, x.getLsbD j = false := by
  have hlite := isFill_and_mask hrem x
  rw [eq_zero_iff hlite]
  constructor
  · intro h j hj
    have hbit := h j (by omega)
    rw [BitVec.getLsbD_and, getLsbD_mask (by omega), decide_eq_true hj, Bool.and_true] at hbit
    exact hbit
  · intro h j _
    rw [BitVec.getLsbD_and, getLsbD_mask (by omega)]
    by_cases hj : j < rem
    · rw [h j hj, Bool.false_and]
    · rw [decide_eq_false hj, Bool.and_false]

theorem and_mask_eq_mask_iff (hrem : rem < 31) : x &&& mask rem = mask rem ↔ ∀ j < rem, x.getLsbD j = true := by
  constructor
  · intro h j hj
    have hbit := congrArg (fun w => w.getLsbD j) h
    simp only [BitVec.getLsbD_and, getLsbD_mask (show rem < 32 by omega), decide_eq_true hj, Bool.and_true] at hbit
    exact hbit
  · intro h
    apply BitVec.eq_of_getLsbD_eq
    intro j _
    rw [BitVec.getLsbD_and, getLsbD_mask (by omega)]
    by_cases hj : j < rem
    · rw [h j hj, Bool.true_and]
    · rw [decide_eq_false hj, Bool.and_false]

theorem getLsbD_norm (hrem : rem < 31) {j : Nat} (hj : j < rem) : (norm rem x).getLsbD j = x.getLsbD j := by
  unfold norm
  split_ifs with hzero hones
  · rw [(and_mask_eq_zero_iff hrem).mp hzero j hj]
    exact BitVec.getLsbD_zero
  · rw [(and_mask_eq_mask_iff hrem).mp hones j hj, ALL_ONES_eq, getLsbD_mask (by decide), decide_eq_true (by omega)]
  · rw [BitVec.getLsbD_and, getLsbD_mask (by omega), decide_eq_true hj, Bool.and_true]

theorem isFill_norm (hrem : rem < 31) (x : Word) : isFill (norm rem x) = false := by
  unfold norm
  split_ifs
  · rfl
  · rfl
  · exact isFill_and_mask hrem x

theorem and_mask_idem (x : Word) : x &&& mask rem &&& mask rem = x &&& mask rem := by
  rw [BitVec.and_assoc, BitVec.and_self]

theorem norm_norm (hpos : 0 < rem) (hrem : rem < 31) (x : Word) : norm rem (norm rem x) = norm rem x := by
  by_cases huniform : Uniform (norm rem x)
  · exact norm_uniform hpos hrem huniform
  · have heq : norm rem x = x &&& mask rem := by
      unfold norm at huniform ⊢
      split_ifs at huniform ⊢ with hzero hones
      · exact absurd (Or.inl rfl) huniform
      · exact absurd (Or.inr rfl) huniform
      · rfl
    have hzero : x &&& mask rem ≠ 0 := fun hzero => huniform (heq ▸ Or.inl hzero)
    have hones : x &&& mask rem ≠ mask rem := by
      intro hones
      rw [norm, if_neg hzero, if_pos hones] at huniform
      exact huniform (Or.inr rfl)
    rw [heq, norm, and_mask_idem, if_neg hzero, if_neg hones]

/-- The form of the last block: its bits behind the end are zeroes, unless all the bits are ones. -/
theorem norm_cases (h : norm rem x = x) : x = ALL_ONES ∨ x &&& mask rem = x := by
  unfold norm at h
  split_ifs at h with hzero hones
  · rw [← h]
    exact Or.inr BitVec.zero_and
  · exact Or.inl h.symm
  · exact Or.inr h

/-- All the bits in front of the end are equal if and only if the block is uniform. -/
theorem norm_eq_uniform_iff (hpos : 0 < rem) (hrem : rem < 31) (h : norm rem x = x) (init : Bool) :
    x = uniform init ↔ ∀ j < rem, x.getLsbD j = init := by
  constructor
  · rintro rfl j hj
    cases init
    · exact BitVec.getLsbD_zero
    · change ALL_ONES.getLsbD j = true
      rw [ALL_ONES_eq, getLsbD_mask (by decide), decide_eq_true (by omega)]
  · intro hbits
    rw [← h]
    cases init
    · rw [norm, if_pos ((and_mask_eq_zero_iff hrem).mpr hbits)]
      rfl
    · have hones := (and_mask_eq_mask_iff hrem).mpr hbits
      have hne : x &&& mask rem ≠ 0 := by
        rw [hones]
        exact mask_ne_zero hpos hrem
      rw [norm, if_neg hne, if_pos hones]
      rfl

end Mask

/-! ## Blocks of an array -/

/-- The blocks have the bits of the array. -/
structure Packs (n : Nat) (bs : List Word) (f : Fin n → Bool) : Prop where
  length : bs.length = (n + 30) / 31
  lite : ∀ x ∈ bs, isFill x = false
  bits : ∀ i : Fin n, bs[i.val / 31]?.map (fun x => x.getLsbD (i.val % 31)) = some (f i)

section Packs

variable {bs bs' : List Word} {f g : Fin n → Bool}

theorem Packs.getElem (h : Packs n bs f) (i : Fin n) :
    ∃ x, bs[i.val / 31]? = some x ∧ isFill x = false ∧ x.getLsbD (i.val % 31) = f i := by
  obtain ⟨x, hx, hbit⟩ := map_eq_some_iff.mp (h.bits i)
  exact ⟨x, hx, h.lite x (mem_of_getElem? hx), hbit⟩

theorem Packs.map (h : Packs n bs f) {op : Word → Word} {g : Bool → Bool}
    (hlite : ∀ x, isFill x = false → isFill (op x) = false)
    (hbit : ∀ x, ∀ j < 31, (op x).getLsbD j = g (x.getLsbD j)) : Packs n (bs.map op) fun i => g (f i) where
  length := by rw [length_map, h.length]
  lite x hx := by
    obtain ⟨y, hy, rfl⟩ := List.mem_map.mp hx
    exact hlite y (h.lite y hy)
  bits i := by
    obtain ⟨x, hx, -, hi⟩ := h.getElem i
    rw [getElem?_map, hx]
    simp only [map_some, hbit x _ (Nat.mod_lt _ (by decide)), hi]

theorem Packs.zipWith (hf : Packs n bs f) (hg : Packs n bs' g) {op : Word → Word → Word} {o : Bool → Bool → Bool}
    (hlite : ∀ x y, isFill x = false → isFill y = false → isFill (op x y) = false)
    (hbit : ∀ x y, ∀ j < 31, (op x y).getLsbD j = o (x.getLsbD j) (y.getLsbD j)) :
    Packs n (List.zipWith op bs bs') fun i => o (f i) (g i) where
  length := by rw [length_zipWith, hf.length, hg.length, Nat.min_self]
  lite z hz := by
    obtain ⟨k, hk⟩ := mem_iff_getElem?.mp hz
    obtain ⟨x, y, hx, hy, rfl⟩ := getElem?_zipWith_eq_some.mp hk
    exact hlite x y (hf.lite x (mem_of_getElem? hx)) (hg.lite y (mem_of_getElem? hy))
  bits i := by
    obtain ⟨x, hx, -, hfi⟩ := hf.getElem i
    obtain ⟨y, hy, -, hgi⟩ := hg.getElem i
    rw [getElem?_zipWith, hx, hy]
    simp only [map_some, hbit x y _ (Nat.mod_lt _ (by decide)), hfi, hgi]

theorem Packs.modify (h : Packs n bs f) (i : Fin n) {op : Word → Word} {b : Bool}
    (hlite : ∀ x, isFill x = false → isFill (op x) = false)
    (hbit : ∀ x, ∀ j < 31, (op x).getLsbD j = if j = i.val % 31 then b else x.getLsbD j) :
    Packs n (bs.modify (i.val / 31) op) (Function.update f i b) where
  length := by rw [length_modify, h.length]
  lite x hx := by
    obtain ⟨k, hk⟩ := mem_iff_getElem?.mp hx
    rw [getElem?_modify] at hk
    obtain ⟨y, hy, rfl⟩ := map_eq_some_iff.mp hk
    have hy' := h.lite y (mem_of_getElem? hy)
    split_ifs
    · exact hlite y hy'
    · exact hy'
  bits k := by
    obtain ⟨x, hx, -, hk⟩ := h.getElem k
    rw [getElem?_modify, hx]
    by_cases hki : k = i
    · subst hki
      simp [hbit x _ (Nat.mod_lt _ (by decide))]
    · rw [Function.update_of_ne hki]
      have hne : k.val ≠ i.val := fun heq => hki (Fin.ext heq)
      by_cases hblock : i.val / 31 = k.val / 31
      · have hmod : k.val % 31 ≠ i.val % 31 := by omega
        simp [hblock, hbit x _ (Nat.mod_lt _ (by decide)), hmod, hk]
      · simp [hblock, hk]

end Packs

end Elm.Util.Wah
