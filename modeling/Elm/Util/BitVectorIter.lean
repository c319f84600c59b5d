import Elm.Lib.Cursor
import Elm.Util.BitVectorView

/-!
# `BitVector::OneIterator` and `BitVector::ZeroIterator`

Both iterators go forward to the next bit of their kind; they differ in the kind of bit they skip.
-/

namespace Elm.Util.BitVector

open List

/-- The loop `while(i < size() && bit(i) == skip) i++`, with at most `k` turns. -/
def seekFrom (b : BitVector) (skip : Bool) : Nat → Nat → Nat
  | 0, i => i
  | k + 1, i => if b.bit i = some skip then seekFrom b skip k (i + 1) else i

/-- The part of `next` that follows the first `i++`. -/
def seek (b : BitVector) (skip : Bool) (i : Nat) : Nat := b.seekFrom skip (b.size - i) i

/-- The positions given by an iterator that stands on `i`, for at most `k` turns. -/
def positionsFrom (b : BitVector) (skip : Bool) : Nat → Nat → List Nat
  | 0, _ => []
  | k + 1, i => if i < b.size then i :: positionsFrom b skip k (b.seek skip (i + 1)) else []

/-- The positions given by a `ZeroIterator`. -/
def zeroes (b : BitVector) : List Nat := b.positionsFrom true b.size (b.seek true 0)

variable (b : BitVector) (skip : Bool)

/-- The positions from `i` on whose bit is not skipped. -/
def wanted (i : Nat) : List Nat :=
  (List.range' i (b.size - i)).filter fun j => b.bit j = some !skip

theorem bit_eq_some {b : BitVector} {i : Nat} (hi : i < b.size) : ∃ value, b.bit i = some value := by
  rw [bit_eq]
  have hlen : i < b.view.length := by simpa using hi
  exact ⟨b.view[i], getElem?_eq_getElem hlen⟩

theorem wanted_of_le {i : Nat} (hi : b.size ≤ i) : b.wanted skip i = [] := by
  simp [wanted, Nat.sub_eq_zero_of_le hi]

theorem wanted_of_lt {i : Nat} (hi : i < b.size) :
    b.wanted skip i =
      if b.bit i = some !skip then i :: b.wanted skip (i + 1) else b.wanted skip (i + 1) := by
  obtain ⟨k, hk⟩ : ∃ k, b.size - i = k + 1 := ⟨b.size - i - 1, by omega⟩
  have hk' : b.size - (i + 1) = k := by omega
  simp only [wanted, hk, hk', range'_succ, filter_cons, decide_eq_true_eq]

/-- The search stops on the next wanted position or at the end. -/
theorem seekFrom_spec (k : Nat) : ∀ i, i + k = b.size →
    b.wanted skip (b.seekFrom skip k i) = b.wanted skip i ∧ i ≤ b.seekFrom skip k i ∧
      (b.seekFrom skip k i < b.size → b.bit (b.seekFrom skip k i) = some !skip) := by
  induction k with
  | zero =>
    intro i hi
    refine ⟨rfl, le_rfl, fun hlt => ?_⟩
    simp only [seekFrom] at hlt
    omega
  | succ k ih =>
    intro i hi
    have hlt : i < b.size := by omega
    obtain ⟨value, hbit⟩ := bit_eq_some hlt
    by_cases hskip : value = skip
    · subst hskip
      obtain ⟨hwanted, hle, hstop⟩ := ih (i + 1) (by omega)
      have hstep : b.seekFrom value (k + 1) i = b.seekFrom value k (i + 1) := by
        simp [seekFrom, hbit]
      have hnot : b.bit i ≠ some !value := by simp [hbit]
      rw [hstep, hwanted, b.wanted_of_lt value hlt, if_neg hnot]
      exact ⟨rfl, by omega, hstop⟩
    · have hstep : b.seekFrom skip (k + 1) i = i := by simp [seekFrom, hbit, hskip]
      rw [hstep]
      refine ⟨rfl, le_rfl, fun _ => ?_⟩
      rw [hbit]
      cases value <;> cases skip <;> simp_all

theorem seek_spec (i : Nat) :
    b.wanted skip (b.seek skip i) = b.wanted skip i ∧ i ≤ b.seek skip i ∧
      (b.seek skip i < b.size → b.bit (b.seek skip i) = some !skip) := by
  by_cases hi : i ≤ b.size
  · exact b.seekFrom_spec skip _ i (by omega)
  · have hzero : b.size - i = 0 := by omega
    rw [seek, hzero]
    refine ⟨rfl, le_rfl, fun hlt => ?_⟩
    simp only [seekFrom] at hlt
    omega

/-- The search goes over skipped positions only. -/
theorem seekFrom_skips (k : Nat) : ∀ i, i + k = b.size →
    b.seekFrom skip k i ≤ b.size ∧
      ∀ j, i ≤ j → j < b.seekFrom skip k i → b.bit j = some skip := by
  induction k with
  | zero =>
    intro i hi
    refine ⟨by simp only [seekFrom]; omega, fun j hij hj => ?_⟩
    simp only [seekFrom] at hj
    omega
  | succ k ih =>
    intro i hi
    by_cases hskip : b.bit i = some skip
    · obtain ⟨hle, hbits⟩ := ih (i + 1) (by omega)
      simp only [seekFrom, hskip, if_true]
      refine ⟨hle, fun j hij hj => ?_⟩
      by_cases hji : j = i
      · rw [hji, hskip]
      · exact hbits j (by omega) hj
    · simp only [seekFrom, hskip, if_false]
      exact ⟨by omega, fun j hij hj => by omega⟩

theorem seek_skips {i : Nat} (hi : i ≤ b.size) :
    b.seek skip i ≤ b.size ∧ ∀ j, i ≤ j → j < b.seek skip i → b.bit j = some skip :=
  b.seekFrom_skips skip _ i (by omega)

theorem positionsFrom_spec (k : Nat) : ∀ i, b.size ≤ i + k →
    (i < b.size → b.bit i = some !skip) → b.positionsFrom skip k i = b.wanted skip i := by
  induction k with
  | zero =>
    intro i hi _
    rw [b.wanted_of_le skip (by omega)]
    rfl
  | succ k ih =>
    intro i hi hbit
    by_cases hlt : i < b.size
    · obtain ⟨hwanted, hle, hstop⟩ := b.seek_spec skip (i + 1)
      rw [b.wanted_of_lt skip hlt, if_pos (hbit hlt), positionsFrom, if_pos hlt,
        ih _ (by omega) hstop, hwanted]
    · rw [b.wanted_of_le skip (by omega), positionsFrom, if_neg hlt]

theorem positions_eq :
    b.positionsFrom skip b.size (b.seek skip 0) =
      (List.range b.size).filter fun i => b.bit i = some !skip := by
  obtain ⟨hwanted, -, hstop⟩ := b.seek_spec skip 0
  rw [b.positionsFrom_spec skip b.size _ (by omega) hstop, hwanted, wanted, Nat.sub_zero,
    range_eq_range']

/-- A `ZeroIterator` gives the positions of the zeroes in ascending order. -/
theorem zeroes_eq : b.zeroes = (List.range b.size).filter fun i => b.bit i = some false :=
  b.positions_eq true

/-! ## Loops over the iterators -/

/-- The bound on the turns of the search is never met: it goes on as the loop `while(i < size() && bit(i) == skip)`
does. -/
theorem seek_eq (i : Nat) :
    b.seek skip i = if i < b.size ∧ b.bit i = some skip then b.seek skip (i + 1) else i := by
  by_cases hi : i < b.size
  · obtain ⟨k, hk⟩ : ∃ k, b.size - i = k + 1 := ⟨b.size - i - 1, by omega⟩
    have hk' : b.size - (i + 1) = k := by omega
    rw [seek, seek, hk, hk', seekFrom]
    simp only [hi, true_and]
  · have hzero : b.size - i = 0 := by omega
    rw [seek, hzero, if_neg (fun h => hi h.1)]
    rfl

/-- `Iter::ended`, with `item` and `next` of the iterator that goes over the positions of the bits `skip`. -/
def cursor : Cursor Nat Nat where
  ended i := decide (b.size ≤ i)
  item i := some i
  next i := some (b.seek skip (i + 1))

/-- `OneIterator`. -/
def oneIterator : Cursor Nat Nat := b.cursor false

/-- `ZeroIterator`. -/
def zeroIterator : Cursor Nat Nat := b.cursor true

/-- The constructor of `OneIterator`, at the position `ii`. -/
def oneStart (ii : Nat) : Nat := b.seek false ii

/-- The constructor of `ZeroIterator`. -/
def zeroStart : Nat := b.seek true 0

/-- `begin`. -/
def begin : Nat := b.oneStart 0

/-- `end`. -/
def endIter : Nat := b.oneStart b.size

/-- The loop `for(auto i: v)`, which compares the iterator with `end()`. -/
def rangeFor : Cursor Nat Nat := { b.oneIterator with ended := fun i => decide (i = b.endIter) }

/-- The loop that starts in `s` gives the positions that meet `p`, each one once and in ascending order, and
ends. -/
def Enumerates (c : Cursor Nat Nat) (s : Nat) (p : Nat → Prop) : Prop :=
  ∃ xs, c.Visits s xs ∧ xs.Pairwise (· < ·) ∧ ∀ i, i ∈ xs ↔ p i

/-- A cursor that ends where `cursor` does, on the positions up to the size. -/
theorem visits_wanted {c : Cursor Nat Nat} (hitem : ∀ i, c.item i = some i)
    (hnext : ∀ i, c.next i = some (b.seek skip (i + 1)))
    (hended : ∀ i ≤ b.size, c.ended i = decide (b.size ≤ i)) {i : Nat} (hi : i ≤ b.size) :
    c.Visits (b.seek skip i) (b.wanted skip i) := by
  -- the induction is on the positions that are left
  induction hleft : b.size - i using Nat.strong_induction_on generalizing i with
  | _ left ih =>
    obtain ⟨hwanted, hle, hstop⟩ := b.seek_spec skip i
    obtain ⟨hsize, -⟩ := b.seek_skips skip hi
    rw [← hwanted]
    generalize b.seek skip i = j at hle hstop hsize ⊢
    by_cases hj : j < b.size
    · rw [b.wanted_of_lt skip hj, if_pos (hstop hj)]
      refine .turn ?_ (hitem j) (hnext j) (ih (b.size - (j + 1)) (by omega) (by omega) rfl)
      rw [hended j hsize]
      simpa using hj
    · rw [b.wanted_of_le skip (Nat.le_of_not_lt hj)]
      refine .done ?_
      rw [hended j hsize]
      simpa using hj

theorem enumerates {c : Cursor Nat Nat} (hitem : ∀ i, c.item i = some i)
    (hnext : ∀ i, c.next i = some (b.seek skip (i + 1)))
    (hended : ∀ i ≤ b.size, c.ended i = decide (b.size ≤ i)) :
    Enumerates c (b.seek skip 0) fun i => b.view[i]? = some !skip := by
  refine ⟨b.wanted skip 0, b.visits_wanted skip hitem hnext hended (Nat.zero_le _), ?_, fun i => ?_⟩
  · exact (pairwise_lt_range' 1).filter _
  · simp only [wanted, mem_filter, mem_range'_1, ← bit_eq, decide_eq_true_eq, Nat.zero_le, true_and,
      Nat.zero_add, Nat.sub_zero]
    refine ⟨fun h => h.2, fun h => ⟨?_, h⟩⟩
    by_contra hi
    rw [bit, if_neg hi] at h
    cases h

theorem endIter_eq : b.endIter = b.size := by
  rw [endIter, oneStart, seek_eq, if_neg (fun h => Nat.lt_irrefl _ h.1)]

/-- The iterators enumerate the ones and the zeroes of every vector, whatever its padding is. -/
theorem iterators_enumerate (b : BitVector) :
    Enumerates b.oneIterator (b.oneStart 0) (fun i => b.view[i]? = some true) ∧
      Enumerates b.zeroIterator b.zeroStart (fun i => b.view[i]? = some false) ∧
      Enumerates b.rangeFor b.begin fun i => b.view[i]? = some true := by
  refine ⟨?_, ?_, ?_⟩
  · exact b.enumerates false (fun _ => rfl) (fun _ => rfl) fun _ _ => rfl
  · exact b.enumerates true (fun _ => rfl) (fun _ => rfl) fun _ _ => rfl
  · refine b.enumerates false (fun _ => rfl) (fun _ => rfl) fun i hi => ?_
    change decide (i = b.endIter) = decide (b.size ≤ i)
    rw [endIter_eq, decide_eq_decide]
    omega

/-- Ten bits, with ones in the padding. -/
example : (oneIterator ⟨10, [0x11, 0xfd], rfl⟩).Visits 0 [0, 4, 8] :=
  Cursor.visits_of_collect (show Cursor.collect _ 9 0 = some [0, 4, 8] by decide)

end Elm.Util.BitVector
