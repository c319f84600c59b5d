import Mathlib.Tactic

/-!
# Machine integers

The values of an integer type, signed or not, of any width.  A conversion keeps a number modulo the
span of the type; the sum of two values is computed in the promoted type, where a signed overflow has
no result.
-/

/-- An integer type. -/
structure IntType where
  width : Nat
  signed : Bool
  width_pos : 0 < width

namespace IntType

/-- The number of values. -/
def span (t : IntType) : Int := 2 ^ t.width

/-- The smallest value. -/
def low (t : IntType) : Int := if t.signed then -2 ^ (t.width - 1) else 0

/-- The number is a value of the type. -/
def Has (t : IntType) (x : Int) : Prop := t.low ≤ x ∧ x < t.low + t.span

instance (t : IntType) (x : Int) : Decidable (t.Has x) := inferInstanceAs (Decidable (_ ∧ _))

theorem span_pos (t : IntType) : 0 < t.span := by
  unfold span
  positivity

/-- The values of a type. -/
structure Value (t : IntType) where
  val : Int
  has : t.Has val

theorem has_wrap (t : IntType) (x : Int) : t.Has ((x - t.low) % t.span + t.low) := by
  have hpos := t.span_pos
  have hnonneg := Int.emod_nonneg (x - t.low) hpos.ne'
  have hlt := Int.emod_lt_of_pos (x - t.low) hpos
  unfold Has
  omega

/-- The conversion of a number to the type. -/
def wrap (t : IntType) (x : Int) : t.Value := ⟨(x - t.low) % t.span + t.low, t.has_wrap x⟩

/-- The type `int`. -/
def int : IntType := ⟨32, true, by decide⟩

/-- The result of an operation on a signed type: an overflow has none. -/
def checked (t : IntType) (x : Int) : Option Int := if t.Has x then some x else none

/-- The type in which a sum is computed. -/
def promoted (t : IntType) : IntType := if t.width < int.width then int else t

/-- `a + b`, converted to the type. -/
def add (t : IntType) (a b : t.Value) : Option t.Value :=
  if t.promoted.signed ∧ ¬ t.promoted.Has (a.val + b.val) then none
  else some (t.wrap (t.promoted.wrap (a.val + b.val)).val)

variable {t : IntType}

@[ext] theorem Value.ext' {a b : t.Value} (h : a.val = b.val) : a = b := by
  cases a
  cases b
  simpa using h

theorem low_eq (t : IntType) : (t.signed = false ∧ t.low = 0) ∨ (t.signed = true ∧ 2 * t.low = -t.span) := by
  cases hsigned : t.signed with
  | false => exact Or.inl ⟨rfl, by simp [low, hsigned]⟩
  | true =>
    right
    obtain ⟨w, hw⟩ : ∃ w, t.width = w + 1 := ⟨t.width - 1, by have := t.width_pos; omega⟩
    refine ⟨rfl, ?_⟩
    simp only [low, hsigned, span, hw, if_true, Nat.add_sub_cancel, pow_succ]
    ring

theorem low_of_unsigned (h : t.signed = false) : t.low = 0 := by
  simp [low, h]

theorem low_of_signed (h : t.signed = true) : 2 * t.low = -t.span := by
  rcases t.low_eq with ⟨hunsigned, -⟩ | ⟨-, heq⟩
  · rw [h] at hunsigned
    cases hunsigned
  · exact heq

theorem low_nonpos (t : IntType) : t.low ≤ 0 := by
  have hpos := t.span_pos
  rcases t.low_eq with ⟨-, heq⟩ | ⟨-, heq⟩ <;> omega

/-- A type that is larger than `int`. -/
theorem le_span_of_wide (h : 32 < t.width) : 2 ^ 33 ≤ t.span :=
  Int.le_of_dvd t.span_pos (pow_dvd_pow 2 h)

/-- A larger type has a multiple of the span. -/
theorem span_dvd {u : IntType} (h : t.width ≤ u.width) : t.span ∣ u.span := pow_dvd_pow 2 h

@[simp] theorem span_int : int.span = 2 ^ 32 := rfl

@[simp] theorem low_int : int.low = -2 ^ 31 := rfl

/-- An operation whose result is a number that an `int` holds. -/
theorem checked_int {x : Int} (hlow : 0 ≤ x) (hhigh : x < 2 ^ 31) : int.checked x = some x := by
  refine if_pos ?_
  unfold Has
  rw [span_int, low_int]
  omega

theorem checked_eq_some {x y : Int} : t.checked x = some y ↔ t.Has x ∧ x = y := by
  simp [checked]

theorem int_bounds (y : int.Value) : -2 ^ 31 ≤ y.val ∧ y.val < 2 ^ 31 := by
  have h := y.has
  unfold Has at h
  rw [span_int, low_int] at h
  omega

theorem wrap_dvd (t : IntType) (x : Int) : t.span ∣ (t.wrap x).val - x := by
  have hdvd := Int.dvd_self_sub_of_emod_eq (rfl : (x - t.low) % t.span = _)
  have heq : (t.wrap x).val - x = -(x - t.low - (x - t.low) % t.span) := by
    simp only [wrap]
    ring
  rw [heq]
  exact hdvd.neg_right

/-- A multiple of the span that is closer to 0 than the span. -/
theorem eq_zero_of_dvd {x : Int} (h : t.span ∣ x) (hlow : -t.span < x) (hhigh : x < t.span) : x = 0 :=
  Int.eq_zero_of_abs_lt_dvd h (abs_lt.mpr ⟨hlow, hhigh⟩)

/-- Two values that differ by a multiple of the span are equal. -/
theorem Value.eq_of_dvd {a b : t.Value} (h : t.span ∣ a.val - b.val) : a = b := by
  obtain ⟨ha₁, ha₂⟩ := a.has
  obtain ⟨hb₁, hb₂⟩ := b.has
  have hzero := eq_zero_of_dvd h (by omega) (by omega)
  ext
  omega

theorem wrap_eq_iff {x : Int} {a : t.Value} : t.wrap x = a ↔ t.span ∣ x - a.val := by
  have hwrap := t.wrap_dvd x
  constructor
  · rintro rfl
    rw [← Int.neg_sub]
    exact hwrap.neg_right
  · intro h
    refine Value.eq_of_dvd ?_
    have hsum : (t.wrap x).val - a.val = ((t.wrap x).val - x) + (x - a.val) := by ring
    rw [hsum]
    exact hwrap.add h

theorem wrap_eq_wrap_iff {x y : Int} : t.wrap x = t.wrap y ↔ t.span ∣ x - y := by
  have hy := t.wrap_dvd y
  rw [wrap_eq_iff]
  have hsum : x - y = (x - (t.wrap y).val) + ((t.wrap y).val - y) := by ring
  rw [hsum]
  exact (dvd_add_left hy).symm

theorem wrap_val {x : Int} (h : t.Has x) : (t.wrap x).val = x := by
  have heq : t.wrap x = ⟨x, h⟩ := by
    rw [wrap_eq_iff]
    simp
  rw [heq]

@[simp] theorem wrap_self (a : t.Value) : t.wrap a.val = a :=
  wrap_eq_iff.mpr (by simp)

/-- A conversion to a type at least as large comes back. -/
theorem wrap_wrap_of_le {u : IntType} (h : t.width ≤ u.width) (x : Int) :
    t.wrap (u.wrap x).val = t.wrap x :=
  wrap_eq_wrap_iff.mpr ((span_dvd h).trans (u.wrap_dvd x))

theorem width_le_promoted (t : IntType) : t.width ≤ t.promoted.width := by
  unfold promoted
  split_ifs with h
  · exact h.le
  · exact le_rfl

/-- A sum that has a result is right modulo the span. -/
theorem add_eq_some {a b c : t.Value} (h : t.add a b = some c) : t.wrap (a.val + b.val) = c := by
  unfold add at h
  split_ifs at h
  rw [← Option.some.inj h, wrap_wrap_of_le t.width_le_promoted]

theorem add_of_has {a b : t.Value} (h : t.promoted.signed = true → t.promoted.Has (a.val + b.val)) :
    t.add a b = some (t.wrap (a.val + b.val)) := by
  rw [add, if_neg (fun hover => hover.2 (h hover.1)), wrap_wrap_of_le t.width_le_promoted]

theorem has_promoted {x : Int} (h : t.Has x) : t.promoted.Has x := by
  unfold promoted
  split_ifs with hlt
  · have hspan : t.span ∣ 2 ^ 31 := pow_dvd_pow 2 (Nat.le_of_lt_succ hlt)
    have hle := Int.le_of_dvd (by decide) hspan
    obtain ⟨hlow, hhigh⟩ := h
    have hpos := t.span_pos
    unfold Has
    rw [span_int, low_int]
    rcases t.low_eq with ⟨-, heq⟩ | ⟨-, heq⟩ <;> omega
  · exact h

end IntType
