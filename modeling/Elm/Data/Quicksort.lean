import Elm.Data.Array
import Mathlib.Tactic

/-!
# `quicksort`

The sort of `include/elm/data/quicksort.h`.  An array is the list of its slots; an access outside of the array or of
the stack of ranges has no result.  The array has a hole where the pivot was taken from: the value of the slot that the
hole is moved to goes into the slot that it leaves.
-/

namespace Elm.Data.Quicksort

open List Option

variable {T : Type}

/-! ## The code -/

/-- `max`, the size of `beg` and of `end`. -/
def max : Nat := 300

/-- The variables of the loop that moves the values around the pivot. -/
structure Split (T : Type) where
  array : List T
  L : Nat
  R : Nat

/-- The variables of `quicksort`: the `i + 1` first slots of `beg` and `end`, the last one first. -/
structure State (T : Type) where
  array : List T
  ranges : List (Nat × Nat)

section Code

variable (compare : T → T → Ordering)

/-- `while(c.doCompare(array[R], piv) >= 0 && L < R) R--`. -/
def moveR (piv : T) (array : List T) (L R : Nat) : Option Nat :=
  match array[R]? with
  | none => none
  | some x => if _h : (compare x piv).isGE ∧ L < R then moveR piv array L (R - 1) else some R
termination_by R

/-- `while(c.doCompare(array[L], piv) <= 0 && L < R) L++`. -/
def moveL (piv : T) (array : List T) (L R : Nat) : Option Nat :=
  match array[L]? with
  | none => none
  | some x => if _h : (compare x piv).isLE ∧ L < R then moveL piv array (L + 1) R else some L
termination_by R - L

/-- The first half of a turn: a value below the pivot goes to the left. -/
def fromRight (piv : T) (s : Split T) : Option (Split T) := do
  let R ← moveR compare piv s.array s.L s.R
  if s.L < R then
    let x ← s.array[R]?
    let array ← array.assign s.array s.L x
    return ⟨array, s.L + 1, R⟩
  else
    return ⟨s.array, s.L, R⟩

/-- The second half of a turn: a value above the pivot goes to the right. -/
def fromLeft (piv : T) (s : Split T) : Option (Split T) := do
  let L ← moveL compare piv s.array s.L s.R
  if L < s.R then
    let x ← s.array[L]?
    let array ← array.assign s.array s.R x
    return ⟨array, L, s.R - 1⟩
  else
    return ⟨s.array, L, s.R⟩

/-- The loop `while(L < R)`. -/
def splitTurn (piv : T) (s : Split T) : Option (Split T ⊕ Split T) :=
  if s.L < s.R then (fromRight compare piv s).bind fun s => (fromLeft compare piv s).map .inl
  else some (.inr s)

/-- The number of slots of a range. -/
def size (r : Nat × Nat) : Nat := r.2 - r.1

/-- The two parts go on the stack, the smaller one at its top. -/
def push (i : Nat) (lower upper : Nat × Nat) (ranges : List (Nat × Nat)) : Option (List (Nat × Nat)) :=
  if i + 1 < max then
    some (if size upper > size lower then lower :: upper :: ranges else upper :: lower :: ranges)
  else
    none

/-- The loop `while(i >= 0)`. -/
def turn (fuel : Nat) (s : State T) : Option (State T ⊕ List T) :=
  match s.ranges with
  | [] => some (.inr s.array)
  | (beg, stop) :: ranges =>
    if beg < stop - 1 then do
      let piv ← s.array[beg]?
      let s ← Loop.attempt (splitTurn compare piv) fuel ⟨s.array, beg, stop - 1⟩
      let array ← array.assign s.array s.L piv
      let ranges ← push ranges.length (beg, s.L) (s.L + 1, stop) ranges
      return .inl ⟨array, ranges⟩
    else
      -- `i--`
      some (.inl ⟨s.array, ranges⟩)

/-- The state before the loop. -/
def start (array : List T) : State T := ⟨array, [(0, array.length)]⟩

/-- `quicksort`. -/
def quicksort (fuel : Nat) (array : List T) : Option (List T) :=
  Loop.attempt (turn compare fuel) fuel (start array)

end Code

/-! ## The hole -/

/-- The array `t` where the values of the slots from `lo` to `hi` have been moved, with a hole in the slot `h`. -/
structure Holed (a : List T) (piv : T) (lo hi : Nat) (t : List T) (h : Nat) : Prop where
  low : lo ≤ h
  high : h < hi
  bound : hi ≤ t.length
  perm : (t.set h piv).Perm a
  outside : ∀ j, j < lo ∨ hi ≤ j → t[j]? = a[j]?
  inside : ∀ j, lo ≤ j → j < hi → ∃ j', lo ≤ j' ∧ j' < hi ∧ (t.set h piv)[j]? = a[j']?

/-- The pivot is taken. -/
theorem Holed.take {a : List T} {piv : T} {lo hi : Nat} (hlt : lo < hi) (hhi : hi ≤ a.length)
    (hpiv : a[lo]? = some piv) : Holed a piv lo hi a lo where
  low := le_rfl
  high := hlt
  bound := hhi
  perm := by
    obtain ⟨hlo, rfl⟩ := List.getElem?_eq_some_iff.mp hpiv
    rw [set_getElem_self]
  outside _ _ := rfl
  inside j hlow hhigh := by
    refine ⟨j, hlow, hhigh, ?_⟩
    obtain ⟨hlo, rfl⟩ := List.getElem?_eq_some_iff.mp hpiv
    rw [set_getElem_self]

/-- The value of the slot `k` goes into the hole. -/
theorem Holed.move {a t : List T} {piv x : T} {lo hi h k : Nat} (hh : Holed a piv lo hi t h) (hlow : lo ≤ k)
    (hhigh : k < hi) (hne : k ≠ h) (hx : t[k]? = some x) : Holed a piv lo hi (t.set h x) k := by
  have hk : k < t.length := lt_of_lt_of_le hhigh hh.bound
  have hh' : h < t.length := lt_of_lt_of_le hh.high hh.bound
  obtain ⟨-, rfl⟩ := List.getElem?_eq_some_iff.mp hx
  refine ⟨hlow, hhigh, ?_, ?_, ?_, ?_⟩
  · rw [length_set]
    exact hh.bound
  · -- the two slots are exchanged
    have hswap := @set_set_perm T (t.set h piv) h k (by rwa [length_set]) (by rwa [length_set])
    rw [getElem_set_self, getElem_set_ne hne.symm, set_set] at hswap
    exact hswap.trans hh.perm
  · intro j hj
    rw [getElem?_set_ne, hh.outside j hj]
    have hlow' := hh.low
    have hhigh' := hh.high
    omega
  · intro j hjlow hjhigh
    by_cases hjk : j = k
    · -- the hole is the new place of the pivot, and stands for the one that it had in the old hole
      subst hjk
      obtain ⟨j', hlow', hhigh', heq⟩ := hh.inside h hh.low hh.high
      refine ⟨j', hlow', hhigh', ?_⟩
      rw [← heq, getElem?_set_self (by rwa [length_set]), getElem?_set_self hh']
    · by_cases hjh : j = h
      · subst hjh
        obtain ⟨j', hlow', hhigh', heq⟩ := hh.inside k hlow hhigh
        refine ⟨j', hlow', hhigh', ?_⟩
        rw [← heq, getElem?_set_ne (Ne.symm hjk), getElem?_set_self hh', getElem?_set_ne hne.symm,
          getElem?_eq_getElem hk]
      · obtain ⟨j', hlow', hhigh', heq⟩ := hh.inside j hjlow hjhigh
        refine ⟨j', hlow', hhigh', ?_⟩
        rw [← heq, getElem?_set_ne (Ne.symm hjk), getElem?_set_ne (Ne.symm hjh),
          getElem?_set_ne (Ne.symm hjh)]

/-! ## The values around the pivot -/

section Split

variable {compare : T → T → Ordering}

/-- `R` is moved down to `L`, or to a value below the pivot. -/
theorem moveR_spec (piv : T) {array : List T} {L R : Nat} (hle : L ≤ R) (hR : R < array.length) :
    ∃ R', moveR compare piv array L R = some R' ∧ L ≤ R' ∧ R' ≤ R ∧
      (∀ j x, R' < j → j ≤ R → array[j]? = some x → (compare x piv).isGE) ∧
        (L < R' → ∀ x, array[R']? = some x → (compare x piv).isLE) := by
  -- the condition reads the slot before it compares the indices: `L` is a slot, so that `R` stays one
  induction R using Nat.strong_induction_on with
  | _ R ih =>
    have hget : array[R]? = some array[R] := getElem?_eq_getElem hR
    rw [moveR, hget]
    by_cases hturn : (compare array[R] piv).isGE ∧ L < R
    · obtain ⟨R', hrun, hlow, hhigh, hpassed, hstop⟩ := ih (R - 1) (by omega) (by omega) (by omega)
      refine ⟨R', ?_, hlow, by omega, ?_, hstop⟩
      · simp only [dif_pos hturn, hrun]
      · intro j x hj hjR hx
        by_cases hlast : j = R
        · subst hlast
          obtain rfl := some.inj (hget.symm.trans hx)
          exact hturn.1
        · exact hpassed j x hj (by omega) hx
    · refine ⟨R, ?_, hle, le_rfl, fun j x hj hjR => absurd hj (by omega), ?_⟩
      · simp only [dif_neg hturn]
      · intro hlt x hx
        obtain rfl := some.inj (hget.symm.trans hx)
        have hnot : ¬(compare array[R] piv).isGE := fun h => hturn ⟨h, hlt⟩
        cases hcompare : compare array[R] piv <;> simp [hcompare] at hnot ⊢

/-- `L` is moved up to `R`, or to a value above the pivot. -/
theorem moveL_spec (piv : T) {array : List T} {L R : Nat} (hle : L ≤ R) (hR : R < array.length) :
    ∃ L', moveL compare piv array L R = some L' ∧ L ≤ L' ∧ L' ≤ R ∧
      (∀ j x, L ≤ j → j < L' → array[j]? = some x → (compare x piv).isLE) ∧
        (L' < R → ∀ x, array[L']? = some x → (compare x piv).isGE) := by
  induction hk : R - L using Nat.strong_induction_on generalizing L with
  | _ k ih =>
    have hget : array[L]? = some array[L] := getElem?_eq_getElem (by omega)
    rw [moveL, hget]
    by_cases hturn : (compare array[L] piv).isLE ∧ L < R
    · obtain ⟨L', hrun, hlow, hhigh, hpassed, hstop⟩ := ih (R - (L + 1)) (by omega) (by omega) rfl
      refine ⟨L', ?_, by omega, hhigh, ?_, hstop⟩
      · simp only [dif_pos hturn, hrun]
      · intro j x hj hjL hx
        by_cases hfirst : j = L
        · subst hfirst
          obtain rfl := some.inj (hget.symm.trans hx)
          exact hturn.1
        · exact hpassed j x (by omega) hjL hx
    · refine ⟨L, ?_, le_rfl, hle, fun j x hj hjL => absurd hj (by omega), ?_⟩
      · simp only [dif_neg hturn]
      · intro hlt x hx
        obtain rfl := some.inj (hget.symm.trans hx)
        have hnot : ¬(compare array[L] piv).isLE := fun h => hturn ⟨h, hlt⟩
        cases hcompare : compare array[L] piv <;> simp [hcompare] at hnot ⊢

/-- The values that have been passed are on their side of the pivot, and the hole is at `h`. -/
structure Splitting (compare : T → T → Ordering) (a : List T) (piv : T) (lo hi : Nat) (s : Split T) (h : Nat) :
    Prop where
  holed : Holed a piv lo hi s.array h
  low : lo ≤ s.L
  le : s.L ≤ s.R
  high : s.R < hi
  lower : ∀ j x, lo ≤ j → j < s.L → s.array[j]? = some x → (compare x piv).isLE
  upper : ∀ j x, s.R < j → j < hi → s.array[j]? = some x → (compare x piv).isGE

theorem Splitting.bound {a : List T} {piv : T} {lo hi h : Nat} {s : Split T}
    (hs : Splitting compare a piv lo hi s h) : s.R < s.array.length := lt_of_lt_of_le hs.high hs.holed.bound

/-- The first half moves the hole from `L` to `R`. -/
theorem Splitting.fromRight {a : List T} {piv : T} {lo hi : Nat} {s : Split T}
    (hs : Splitting compare a piv lo hi s s.L) :
    ∃ s', Quicksort.fromRight compare piv s = some s' ∧ Splitting compare a piv lo hi s' s'.R ∧
      s'.R - s'.L ≤ s.R - s.L ∧ (s.L < s.R → s'.R - s'.L < s.R - s.L) := by
  obtain ⟨R, hrun, hlow, hhigh, hpassed, hstop⟩ := @moveR_spec _ compare piv _ _ _ hs.le hs.bound
  have hbound := hs.bound
  have hhi := hs.high
  have hlo := hs.low
  by_cases hlt : s.L < R
  · have hget : s.array[R]? = some s.array[R] := getElem?_eq_getElem (by omega)
    have hholed : Holed a piv lo hi (s.array.set s.L s.array[R]) R :=
      hs.holed.move (by omega) (by omega) (by omega) hget
    refine ⟨⟨s.array.set s.L s.array[R], s.L + 1, R⟩, ?_, ?_, ?_, ?_⟩
    · simp only [Quicksort.fromRight, hrun, hget, array.assign_eq (show s.L < s.array.length by omega),
        bind_eq_bind, bind_some, if_pos hlt, Option.pure_def]
    · refine ⟨hholed, by show lo ≤ s.L + 1; omega, hlt, by show R < hi; omega, ?_, ?_⟩
      · -- the slot that `L` leaves has the value where `R` has stopped
        intro j x hj hjL hx
        by_cases hlast : j = s.L
        · subst hlast
          rw [getElem?_set_self (by omega)] at hx
          obtain rfl := some.inj hx
          exact hstop hlt _ hget
        · rw [getElem?_set_ne (Ne.symm hlast)] at hx
          exact hs.lower j x hj (by change j < s.L + 1 at hjL; omega) hx
      · intro j x hj hjhi hx
        change R < j at hj
        rw [getElem?_set_ne (by omega)] at hx
        by_cases hold : s.R < j
        · exact hs.upper j x hold hjhi hx
        · exact hpassed j x hj (by omega) hx
    · show R - (s.L + 1) ≤ s.R - s.L
      omega
    · show s.L < s.R → R - (s.L + 1) < s.R - s.L
      omega
  · obtain rfl : R = s.L := by omega
    refine ⟨⟨s.array, s.L, s.L⟩, ?_, ?_, ?_, ?_⟩
    · simp only [Quicksort.fromRight, hrun, bind_eq_bind, bind_some, if_neg hlt, Option.pure_def]
    · refine ⟨hs.holed, hlo, le_rfl, by show s.L < hi; omega, hs.lower, ?_⟩
      intro j x hj hjhi hx
      by_cases hold : s.R < j
      · exact hs.upper j x hold hjhi hx
      · exact hpassed j x hj (by omega) hx
    · show s.L - s.L ≤ s.R - s.L
      omega
    · show s.L < s.R → s.L - s.L < s.R - s.L
      omega

/-- The second half moves the hole from `R` to `L`. -/
theorem Splitting.fromLeft {a : List T} {piv : T} {lo hi : Nat} {s : Split T}
    (hs : Splitting compare a piv lo hi s s.R) :
    ∃ s', Quicksort.fromLeft compare piv s = some s' ∧ Splitting compare a piv lo hi s' s'.L ∧
      s'.R - s'.L ≤ s.R - s.L := by
  obtain ⟨L, hrun, hlow, hhigh, hpassed, hstop⟩ := @moveL_spec _ compare piv _ _ _ hs.le hs.bound
  have hbound := hs.bound
  have hhi := hs.high
  have hlo := hs.low
  by_cases hlt : L < s.R
  · have hget : s.array[L]? = some s.array[L] := getElem?_eq_getElem (by omega)
    have hholed : Holed a piv lo hi (s.array.set s.R s.array[L]) L :=
      hs.holed.move (by omega) (by omega) (by omega) hget
    refine ⟨⟨s.array.set s.R s.array[L], L, s.R - 1⟩, ?_, ?_, ?_⟩
    · simp only [Quicksort.fromLeft, hrun, hget, array.assign_eq hbound, bind_eq_bind, bind_some,
        if_pos hlt, Option.pure_def]
    · refine ⟨hholed, by show lo ≤ L; omega, by show L ≤ s.R - 1; omega, by show s.R - 1 < hi; omega, ?_, ?_⟩
      · intro j x hj hjL hx
        change j < L at hjL
        rw [getElem?_set_ne (by omega)] at hx
        by_cases hold : j < s.L
        · exact hs.lower j x hj hold hx
        · exact hpassed j x (by omega) hjL hx
      · intro j x hj hjhi hx
        change s.R - 1 < j at hj
        by_cases hlast : j = s.R
        · -- the slot that `R` leaves has the value where `L` has stopped
          subst hlast
          rw [getElem?_set_self hbound] at hx
          obtain rfl := some.inj hx
          exact hstop hlt _ hget
        · rw [getElem?_set_ne (Ne.symm hlast)] at hx
          exact hs.upper j x (by omega) hjhi hx
    · show s.R - 1 - L ≤ s.R - s.L
      omega
  · obtain rfl : L = s.R := by omega
    refine ⟨⟨s.array, s.R, s.R⟩, ?_, ?_, ?_⟩
    · simp only [Quicksort.fromLeft, hrun, bind_eq_bind, bind_some, if_neg hlt, Option.pure_def]
    · refine ⟨hs.holed, by show lo ≤ s.R; omega, le_rfl, hhi, ?_, hs.upper⟩
      intro j x hj hjL hx
      by_cases hold : j < s.L
      · exact hs.lower j x hj hold hx
      · exact hpassed j x (by omega) hjL hx
    · show s.R - s.R ≤ s.R - s.L
      omega

/-- The array around the pivot, which is put back in the hole. -/
structure IsSplit (compare : T → T → Ordering) (a : List T) (piv : T) (lo hi m : Nat) (t : List T) : Prop where
  low : lo ≤ m
  high : m < hi
  perm : t.Perm a
  pivot : t[m]? = some piv
  outside : ∀ j, j < lo ∨ hi ≤ j → t[j]? = a[j]?
  inside : ∀ j, lo ≤ j → j < hi → ∃ j', lo ≤ j' ∧ j' < hi ∧ t[j]? = a[j']?
  lower : ∀ j x, lo ≤ j → j < m → t[j]? = some x → (compare x piv).isLE
  upper : ∀ j x, m < j → j < hi → t[j]? = some x → (compare x piv).isGE

/-- The range from `lo` to `hi` is split. -/
theorem split_spec {a : List T} {piv : T} {lo hi fuel : Nat} (hlt : lo < hi) (hhi : hi ≤ a.length)
    (hpiv : a[lo]? = some piv) (hfuel : hi - lo ≤ fuel) :
    ∃ s, Loop.attempt (splitTurn compare piv) fuel ⟨a, lo, hi - 1⟩ = some s ∧
      s.L < s.array.length ∧ IsSplit compare a piv lo hi s.L (s.array.set s.L piv) := by
  have hinit : Splitting compare a piv lo hi ⟨a, lo, hi - 1⟩ lo :=
    ⟨Holed.take hlt hhi hpiv, le_rfl, by show lo ≤ hi - 1; omega, by show hi - 1 < hi; omega,
      fun j x hj hjL => absurd hj (not_le.mpr hjL), fun j x hj hjhi => by change hi - 1 < j at hj; omega⟩
  obtain ⟨s, hrun, h, hend⟩ := Loop.exists_attempt_eq_some (splitTurn compare piv)
    (fun k s => k = s.R - s.L ∧ Splitting compare a piv lo hi s s.L)
    (fun s => Splitting compare a piv lo hi s s.L ∧ s.L = s.R)
    (by
      rintro k s ⟨rfl, hs⟩
      by_cases hturn : s.L < s.R
      · -- the first half leaves fewer slots between `L` and `R`, the second one not more
        left
        obtain ⟨s₁, hright, hs₁, -, hless⟩ := hs.fromRight
        obtain ⟨s₂, hleft, hs₂, hle⟩ := hs₁.fromLeft
        refine ⟨s₂, s₂.R - s₂.L, ?_, lt_of_le_of_lt hle (hless hturn), rfl, hs₂⟩
        simp only [splitTurn, if_pos hturn, hright, hleft, bind_some, map_some]
      · right
        exact ⟨s, if_neg hturn, hs, Nat.le_antisymm hs.le (not_lt.mp hturn)⟩)
    (k := hi - 1 - lo) ⟨rfl, hinit⟩ (show hi - 1 - lo < fuel by omega)
  have hlength : s.L < s.array.length := by
    rw [hend]
    exact h.bound
  refine ⟨s, hrun, hlength, h.low, lt_of_le_of_lt h.le h.high, h.holed.perm, getElem?_set_self hlength, ?_,
    h.holed.inside, ?_, ?_⟩
  · intro j hj
    have hlow := h.low
    have hle := h.le
    have hhigh := h.high
    rw [getElem?_set_ne (by omega)]
    exact h.holed.outside j hj
  · intro j x hj hjL hx
    rw [getElem?_set_ne (by omega)] at hx
    exact h.lower j x hj hjL hx
  · intro j x hj hjhi hx
    rw [getElem?_set_ne (by omega)] at hx
    exact h.upper j x (by omega) hjhi hx

end Split

end Elm.Data.Quicksort
