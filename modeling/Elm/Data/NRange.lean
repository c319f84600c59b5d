import Elm.Lib.Cursor
import Elm.Lib.IntType

/-!
# `nrange`

The numeric ranges of `include/elm/data/util.h`, over any integer type.  A `NumRange` keeps the bounds
and the step as `int`, whatever the type is, and a loop over it stops when the number *equals* the upper
bound plus 1.  It gives the terms when this number is the one that follows the last term, and when the
conversions keep the bounds and the step.
-/

namespace Elm.Data

open IntType

/-- `NumIter<T>`. -/
structure NumIter (t : IntType) where
  i : t.Value
  j : t.Value
  s : t.Value

namespace NumIter

variable {t : IntType}

/-- `item`. -/
def item (it : NumIter t) : t.Value := it.i

/-- `next`. -/
def next (it : NumIter t) : Option (NumIter t) := (t.add it.i it.s).map fun i => { it with i := i }

/-- `equals`. -/
def equals (it other : NumIter t) : Bool := it.i.val = other.i.val

/-- `ended`, which only a loop on `operator bool` calls. -/
def ended (it : NumIter t) : Bool := it.i.val ≤ it.j.val

/-- `for(auto x: ...)`, which compares the iterator with the one of the end. -/
def rangeFor (stop : NumIter t) : Cursor (NumIter t) t.Value where
  ended it := it.equals stop
  item it := some it.item
  next := next

/-- `for(auto it = ...; it; it++)`. -/
def loop (t : IntType) : Cursor (NumIter t) t.Value where
  ended := ended
  item it := some it.item
  next := next

end NumIter

/-- `NumRange<T>`. -/
structure NumRange (t : IntType) where
  i : int.Value
  j : int.Value
  s : int.Value

/-- `nrange`. -/
def nrange {t : IntType} (i j s : t.Value) : NumRange t := ⟨int.wrap i.val, int.wrap j.val, int.wrap s.val⟩

namespace NumRange

variable {t : IntType}

/-- `begin`. -/
def beginIter (r : NumRange t) : NumIter t := ⟨t.wrap r.i.val, t.wrap r.j.val, t.wrap r.s.val⟩

/-- `end`; the sum `_j + 1` of two `int` may overflow. -/
def endIter (r : NumRange t) : Option (NumIter t) :=
  (int.add r.j (int.wrap 1)).map fun e => ⟨t.wrap e.val, t.wrap r.j.val, t.wrap r.s.val⟩

/-! ## The terms -/

/-- The number of terms. -/
def count (i j s : Int) : Nat := ((j - i) / s + 1).toNat

/-- The terms `i`, `i + s`, ... that are not greater than `j`. -/
def terms (i j s : Int) : List Int := (List.range (count i j s)).map fun k : Nat => i + k * s

/-- The loop over the range ends, after the terms. -/
def Yields (i j s : t.Value) : Prop :=
  ∃ stop xs, (nrange i j s).endIter = some stop ∧
    (NumIter.rangeFor stop).Visits (nrange i j s).beginIter xs ∧
    xs.map Value.val = terms i.val j.val s.val

/-- A number converted to `int`, and back to the type. -/
def kept (t : IntType) (x : Int) : Int := (t.wrap (int.wrap x).val).val

/-- The condition, for no term, one term and more: the end is the number after the last term, and the
loop does not start on it. -/
def Fits (i j s : t.Value) : Prop :=
  (int.wrap j.val).val ≠ 2 ^ 31 - 1 ∧
    if j.val < i.val then
      t.span ∣ kept t i.val - (kept t j.val + 1)
    else if j.val < i.val + s.val then
      kept t i.val = i.val ∧ t.span ∣ i.val + kept t s.val - (kept t j.val + 1) ∧
        ¬ t.span ∣ i.val - (kept t j.val + 1)
    else
      kept t i.val = i.val ∧ kept t j.val = j.val ∧ kept t s.val = s.val ∧
        s.val ∣ j.val + 1 - i.val ∧ j.val + 1 - i.val < t.span

variable {i j s : t.Value}

theorem count_of_lt (hs : 1 ≤ s.val) (h : j.val < i.val) : count i.val j.val s.val = 0 := by
  have hneg := Int.ediv_neg_of_neg_of_pos (by omega : j.val - i.val < 0) (by omega : 0 < s.val)
  unfold count
  omega

/-- The last term is not greater than `j`, and the next number is. -/
theorem count_of_le (hs : 1 ≤ s.val) (h : i.val ≤ j.val) :
    ∃ n : Nat, count i.val j.val s.val = n + 1 ∧ i.val + n * s.val ≤ j.val ∧
      j.val < i.val + (n + 1) * s.val := by
  obtain ⟨n, hn⟩ := Int.eq_ofNat_of_zero_le (Int.ediv_nonneg (by omega : 0 ≤ j.val - i.val) (by omega : 0 ≤ s.val))
  have hdiv := Int.mul_ediv_add_emod (j.val - i.val) s.val
  have hnonneg := Int.emod_nonneg (j.val - i.val) (by omega : s.val ≠ 0)
  have hlt := Int.emod_lt_of_pos (j.val - i.val) (by omega : 0 < s.val)
  rw [hn, mul_comm] at hdiv
  refine ⟨n, ?_, by omega, ?_⟩
  · unfold count
    omega
  · rw [add_mul, one_mul]
    omega

theorem mem_terms (hs : 1 ≤ s.val) {x : Int} :
    x ∈ terms i.val j.val s.val ↔ ∃ k : Nat, x = i.val + k * s.val ∧ x ≤ j.val := by
  rw [terms, List.mem_map]
  rcases lt_or_ge j.val i.val with hlt | hle
  · rw [count_of_lt hs hlt]
    constructor
    · rintro ⟨k, hk, -⟩
      simp at hk
    · rintro ⟨k, rfl, hle⟩
      have hmul : 0 ≤ (k : Int) * s.val := Int.mul_nonneg (by omega) (by omega)
      omega
  · obtain ⟨n, hcount, hlast, hnext⟩ := count_of_le hs hle
    rw [hcount]
    constructor
    · rintro ⟨k, hk, rfl⟩
      have hmul := Int.mul_le_mul_of_nonneg_right (by simp at hk; omega : (k : Int) ≤ n) (by omega : 0 ≤ s.val)
      exact ⟨k, rfl, by omega⟩
    · rintro ⟨k, rfl, hk⟩
      refine ⟨k, ?_, rfl⟩
      have hlt : (k : Int) < n + 1 :=
        lt_of_mul_lt_mul_right (by omega : (k : Int) * s.val < (n + 1) * s.val) (by omega)
      simp
      omega

/-! ## The states of the loop -/

theorem kept_of_le (hwidth : t.width ≤ 32) (x : t.Value) : kept t x.val = x.val := by
  have hwrap := wrap_wrap_of_le (t := t) (u := int) hwidth x.val
  rw [kept, hwrap, wrap_val x.has]

@[simp] theorem wrap_kept (x : Int) : (t.wrap (kept t x)).val = kept t x := by
  rw [kept, wrap_self]

/-- The iterator that stands on the number `x`. -/
def standing (j s : t.Value) (x : Int) : NumIter t :=
  ⟨t.wrap x, t.wrap (int.wrap j.val).val, t.wrap (int.wrap s.val).val⟩

theorem beginIter_eq : (nrange i j s).beginIter = standing j s (kept t i.val) := by
  rw [standing, kept, wrap_self]
  rfl

theorem has_int_succ (y : int.Value) : int.Has (y.val + 1) ↔ y.val ≠ 2 ^ 31 - 1 := by
  have hbounds := int_bounds y
  unfold Has
  rw [span_int, low_int]
  omega

theorem endIter_eq_some {stop : NumIter t} : (nrange i j s).endIter = some stop ↔
    (int.wrap j.val).val ≠ 2 ^ 31 - 1 ∧ stop = standing j s (kept t j.val + 1) := by
  have hone : (int.wrap 1).val = 1 := rfl
  have hprom : int.promoted = int := rfl
  rw [← has_int_succ]
  by_cases hhas : int.Has ((int.wrap j.val).val + 1)
  · have hadd : int.add (int.wrap j.val) (int.wrap 1) = some (int.wrap ((int.wrap j.val).val + 1)) :=
      add_of_has fun _ => by rw [hone, hprom]; exact hhas
    have hnum : t.wrap (int.wrap ((int.wrap j.val).val + 1)).val = t.wrap (kept t j.val + 1) := by
      rw [wrap_val hhas, wrap_eq_wrap_iff, add_sub_add_right_eq_sub, ← Int.neg_sub]
      exact (t.wrap_dvd _).neg_right
    simp only [endIter, nrange, hadd, Option.map_some, Option.some.injEq, hnum, hhas, true_and]
    exact eq_comm
  · have hadd : int.add (int.wrap j.val) (int.wrap 1) = none := by
      unfold add
      rw [hone, hprom, if_pos ⟨rfl, hhas⟩]
    simp [endIter, nrange, hadd, hhas]

end NumRange

end Elm.Data
