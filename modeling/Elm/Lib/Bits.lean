import Mathlib.Tactic

/-!
# Words as lists of bits

The bits stored in a list of words, least significant bit first.  A bitwise operation on the words
is the same operation on the lists of bits, and counting or comparing the words is counting or
comparing the bits.
-/

namespace Bits

open List Nat

variable {w : Nat}

/-- The bits of a word, least significant first. -/
def ofWord (x : BitVec w) : List Bool := (List.range w).map x.getLsbD

/-- The bits of a list of words, in the order of the words. -/
def ofWords (xs : List (BitVec w)) : List Bool := xs.flatMap ofWord

/-- The number of ones of a word. -/
def ones (x : BitVec w) : Nat := (ofWord x).count true

@[simp] theorem length_ofWord (x : BitVec w) : (ofWord x).length = w := by
  simp [ofWord]

@[simp] theorem getElem_ofWord (x : BitVec w) (i : Nat) (h : i < (ofWord x).length) :
    (ofWord x)[i] = x.getLsbD i := by
  simp [ofWord]

@[simp] theorem ofWords_nil : ofWords ([] : List (BitVec w)) = [] := rfl

@[simp] theorem ofWords_cons (x : BitVec w) (xs : List (BitVec w)) :
    ofWords (x :: xs) = ofWord x ++ ofWords xs := rfl

@[simp] theorem ofWords_append (xs ys : List (BitVec w)) :
    ofWords (xs ++ ys) = ofWords xs ++ ofWords ys := by
  simp [ofWords]

@[simp] theorem length_ofWords (xs : List (BitVec w)) :
    (ofWords xs).length = xs.length * w := by
  induction xs with
  | nil => simp
  | cons x xs ih =>
    simp only [ofWords_cons, length_append, length_ofWord, ih, length_cons]
    ring

theorem ofWord_inj {x y : BitVec w} : ofWord x = ofWord y ↔ x = y := by
  constructor
  · intro h
    apply BitVec.eq_of_getLsbD_eq
    intro i hi
    have hi' : i < (ofWord x).length := by simpa using hi
    rw [← getElem_ofWord x i hi', ← getElem_ofWord y i (by simpa using hi)]
    simp [h]
  · exact congrArg ofWord

theorem ofWords_inj {xs ys : List (BitVec w)} (hlen : xs.length = ys.length) :
    ofWords xs = ofWords ys ↔ xs = ys := by
  constructor
  · intro h
    induction xs generalizing ys with
    | nil => exact (length_eq_zero_iff.mp hlen.symm).symm
    | cons x xs ih =>
      cases ys with
      | nil => simp at hlen
      | cons y ys =>
        obtain ⟨hword, hwords⟩ := append_inj h (by simp)
        rw [ofWord_inj.mp hword, ih (by simpa using hlen) hwords]
  · exact congrArg ofWords

/-- Bit `i` of the list is bit `i % w` of word `i / w`. -/
theorem getElem?_ofWords (xs : List (BitVec w)) (i : Nat) (hi : i < xs.length * w) :
    (ofWords xs)[i]? = (xs[i / w]?).map fun x => x.getLsbD (i % w) := by
  induction xs generalizing i with
  | nil => simp at hi
  | cons x xs ih =>
    have hw : 0 < w := by
      by_contra h
      obtain rfl : w = 0 := by omega
      simp at hi
    by_cases hlt : i < w
    · rw [ofWords_cons, getElem?_append_left (by simpa using hlt)]
      simp [div_eq_of_lt hlt, mod_eq_of_lt hlt, ofWord, hlt]
    · rw [ofWords_cons, getElem?_append_right (by simpa using hlt), length_ofWord]
      obtain ⟨j, rfl⟩ : ∃ j, i = j + w := ⟨i - w, by omega⟩
      simp only [length_cons, Nat.add_mul, Nat.one_mul, Nat.add_lt_add_iff_right] at hi
      rw [Nat.add_sub_cancel, ih j hi, add_div_right _ hw, add_mod_right,
        getElem?_cons_succ]

/-- A change of one word only changes the bits of that word. -/
theorem getElem?_ofWords_modify (xs : List (BitVec w)) (k : Nat) (f : BitVec w → BitVec w) (i : Nat)
    (hi : i < xs.length * w) :
    (ofWords (xs.modify k f))[i]? =
      if i / w = k then (xs[k]?).map fun x => (f x).getLsbD (i % w) else (ofWords xs)[i]? := by
  rw [getElem?_ofWords _ i (by simpa using hi), getElem?_ofWords xs i hi, getElem?_modify]
  by_cases hk : i / w = k
  · subst hk
    simp [Function.comp_def]
  · have hk' : ¬ k = i / w := fun h => hk h.symm
    simp [hk, hk']

/-- Words whose bits are all the same. -/
theorem ofWords_replicate {x : BitVec w} {b : Bool} (h : ofWord x = replicate w b) (n : Nat) :
    ofWords (replicate n x) = replicate (n * w) b := by
  induction n with
  | zero => simp
  | succ n ih =>
    rw [replicate_succ, ofWords_cons, ih, h, replicate_append_replicate]
    congr 1
    ring

/-! ## One bit -/

theorem test_bit (x : BitVec w) {r : Nat} (hr : r < w) :
    (x &&& 1#w <<< r != 0#w) = x.getLsbD r := by
  rw [← BitVec.twoPow_eq, BitVec.and_twoPow]
  split_ifs with h
  · rw [h, bne_iff_ne]
    intro h0
    have hbit := congrArg (fun y => y.getLsbD r) h0
    simp [hr] at hbit
  · simpa using h

theorem getLsbD_set_bit (x : BitVec w) {r i : Nat} (hr : r < w) :
    (x ||| 1#w <<< r).getLsbD i = if i = r then true else x.getLsbD i := by
  rw [← BitVec.twoPow_eq, BitVec.getLsbD_or, BitVec.getLsbD_twoPow]
  split_ifs with h
  · simp [h, hr]
  · simp [Ne.symm h]

theorem getLsbD_clear_bit (x : BitVec w) {r i : Nat} (hi : i < w) :
    (x &&& ~~~(1#w <<< r)).getLsbD i = if i = r then false else x.getLsbD i := by
  rw [← BitVec.twoPow_eq, BitVec.getLsbD_and, BitVec.getLsbD_not, BitVec.getLsbD_twoPow]
  split_ifs with h
  · simp [← h, hi]
  · simp [hi, Ne.symm h]

/-- Changing bit `r` of word `k` changes one bit of the list. -/
theorem ofWords_modify_bit (xs : List (BitVec w)) {k r : Nat} {f : BitVec w → BitVec w} {b : Bool}
    (hk : k < xs.length) (hr : r < w)
    (hf : ∀ x, ∀ i < w, (f x).getLsbD i = if i = r then b else x.getLsbD i) :
    ofWords (xs.modify k f) = (ofWords xs).set (k * w + r) b := by
  have hpos : k * w + r < xs.length * w := by
    have h := Nat.mul_le_mul_right w (succ_le_of_lt hk)
    rw [succ_mul] at h
    omega
  apply ext_getElem?
  intro i
  by_cases hi : i < xs.length * w
  · have hmod : i % w < w := mod_lt i (by omega)
    have hdiv := div_add_mod' i w
    rw [getElem?_ofWords_modify xs k f i hi, getElem?_set]
    by_cases hword : i / w = k
    · subst hword
      rw [if_pos rfl, getElem?_eq_getElem hk, Option.map_some, hf _ _ hmod]
      by_cases hbit : i % w = r
      · have hsame : i / w * w + r = i := by omega
        simp [hbit, hsame, hi]
      · have hother : ¬ i / w * w + r = i := by omega
        rw [if_neg hbit, if_neg hother, getElem?_ofWords xs i hi, getElem?_eq_getElem hk,
          Option.map_some]
    · have hother : ¬ k * w + r = i := by
        rintro rfl
        apply hword
        rw [Nat.mul_comm, mul_add_div (by omega), div_eq_of_lt hr, Nat.add_zero]
      rw [if_neg hword, if_neg hother]
  · rw [getElem?_eq_none (by simpa using hi), getElem?_eq_none (by simpa using hi)]

/-! ## Bitwise operations -/

theorem ofWord_zipWith {f : BitVec w → BitVec w → BitVec w} {g : Bool → Bool → Bool}
    (h : ∀ x y, ∀ i < w, (f x y).getLsbD i = g (x.getLsbD i) (y.getLsbD i)) (x y : BitVec w) :
    ofWord (f x y) = List.zipWith g (ofWord x) (ofWord y) := by
  simp only [ofWord, zipWith_map, zipWith_self]
  apply map_congr_left
  intro i hi
  exact h x y i (mem_range.mp hi)

theorem ofWords_zipWith {f : BitVec w → BitVec w → BitVec w} {g : Bool → Bool → Bool}
    (h : ∀ x y, ∀ i < w, (f x y).getLsbD i = g (x.getLsbD i) (y.getLsbD i))
    (xs ys : List (BitVec w)) :
    ofWords (List.zipWith f xs ys) = List.zipWith g (ofWords xs) (ofWords ys) := by
  induction xs generalizing ys with
  | nil => rfl
  | cons x xs ih =>
    cases ys with
    | nil => simp
    | cons y ys =>
      rw [ofWords_cons, ofWords_cons, zipWith_append (by simp)]
      simp [ih, ofWord_zipWith h]

/-! ## Counting and comparing -/

theorem sum_ones (xs : List (BitVec w)) : (xs.map ones).sum = (ofWords xs).count true := by
  induction xs with
  | nil => rfl
  | cons x xs ih => simp [ih, ones]

theorem ofWord_zero : ofWord (0 : BitVec w) = replicate w false := by
  rw [eq_replicate_iff]
  simp [ofWord]

theorem eq_zero_iff {x : BitVec w} : x = 0 ↔ ∀ b ∈ ofWord x, b = false := by
  rw [← ofWord_inj, ofWord_zero, eq_replicate_iff]
  simp

theorem all_eq_zero_iff {xs : List (BitVec w)} :
    (∀ x ∈ xs, x = 0) ↔ ∀ b ∈ ofWords xs, b = false := by
  simp only [ofWords, mem_flatMap, eq_zero_iff]
  exact ⟨fun h b ⟨x, hx, hb⟩ => h x hx b hb, fun h x hx b hb => h b ⟨x, hx, hb⟩⟩

end Bits
