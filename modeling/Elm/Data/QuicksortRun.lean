import Elm.Data.Quicksort

/-!
# The runs of `quicksort`

Outside of the ranges that are still on the stack, the array is sorted.  The range at the index `i` of the stack has
at most one slot out of `2 ^ i`, because the smaller part is on the top.
-/

namespace Elm.Data.Quicksort

open List

open Std (TransCmp ReflCmp OrientedCmp)

variable {T : Type} {compare : T → T → Ordering}

/-! ## The stack -/

/-- Two ranges without a common slot. -/
def Disjoint (r r' : Nat × Nat) : Prop := r.2 ≤ r'.1 ∨ r'.2 ≤ r.1

theorem Disjoint.symm {r r' : Nat × Nat} (h : Disjoint r r') : Disjoint r' r := Or.symm h

/-- Each range has at most half of the slots of the one below. -/
def Halved (n : Nat) : List (Nat × Nat) → Prop
  | [] => True
  | r :: ranges => size r * 2 ^ ranges.length ≤ n ∧ Halved n ranges

/-- A bound of the number of turns that are left. -/
def weight : List (Nat × Nat) → Nat
  | [] => 0
  | r :: ranges => 2 * size r + 1 + weight ranges

/-- The smaller one of two parts. -/
theorem push_eq {i : Nat} (lower upper : Nat × Nat) (ranges : List (Nat × Nat)) (hi : i + 1 < max) :
    ∃ small big, push i lower upper ranges = some (small :: big :: ranges) ∧ size small ≤ size big ∧
      (small = lower ∧ big = upper ∨ small = upper ∧ big = lower) := by
  rw [push, if_pos hi]
  by_cases hswap : size upper > size lower
  · rw [if_pos hswap]
    exact ⟨lower, upper, rfl, le_of_lt hswap, .inl ⟨rfl, rfl⟩⟩
  · rw [if_neg hswap]
    exact ⟨upper, lower, rfl, not_lt.mp hswap, .inr ⟨rfl, rfl⟩⟩

/-- The index of a range that is split is below the logarithm of the length. -/
theorem Halved.length_lt {n : Nat} {r : Nat × Nat} {ranges : List (Nat × Nat)} (h : Halved n (r :: ranges))
    (hsize : 2 ≤ size r) : ranges.length + 1 ≤ n.log2 := by
  have hpow : 2 ^ (ranges.length + 1) ≤ n := by
    calc
      2 ^ (ranges.length + 1) = 2 * 2 ^ ranges.length := by rw [Nat.pow_succ, Nat.mul_comm]
      _ ≤ size r * 2 ^ ranges.length := Nat.mul_le_mul_right _ hsize
      _ ≤ n := h.1
  have hpos : n ≠ 0 := by
    have hone := Nat.two_pow_pos (ranges.length + 1)
    omega
  exact (Nat.le_log2 hpos).mpr hpow

theorem Halved.push {n : Nat} {r small big : Nat × Nat} {ranges : List (Nat × Nat)} (h : Halved n (r :: ranges))
    (hle : size small ≤ size big) (hsum : size small + size big < size r) : Halved n (small :: big :: ranges) := by
  have hbig : size big * 2 ^ ranges.length ≤ n := by
    calc
      size big * 2 ^ ranges.length ≤ size r * 2 ^ ranges.length := Nat.mul_le_mul_right _ (by omega)
      _ ≤ n := h.1
  refine ⟨?_, hbig, h.2⟩
  calc
    size small * 2 ^ (big :: ranges).length = size small * 2 * 2 ^ ranges.length := by
      rw [length_cons, Nat.pow_succ, Nat.mul_comm (2 ^ ranges.length), Nat.mul_assoc]
    _ ≤ size r * 2 ^ ranges.length := Nat.mul_le_mul_right _ (by omega)
    _ ≤ n := h.1

/-! ## The invariant -/

/-- Two values are in order if they are not in the same range of the stack. -/
structure Sorting (compare : T → T → Ordering) (a : List T) (s : State T) : Prop where
  perm : s.array.Perm a
  bounds : ∀ r ∈ s.ranges, r.1 ≤ r.2 ∧ r.2 ≤ s.array.length
  disjoint : s.ranges.Pairwise Disjoint
  sorted : ∀ i j x y, i < j → s.array[i]? = some x → s.array[j]? = some y →
    (∀ r ∈ s.ranges, r.1 ≤ i → r.2 ≤ j) → (compare x y).isLE
  halved : Halved a.length s.ranges
  depth : s.ranges.length ≤ a.length.log2 + 1

theorem Sorting.start (compare : T → T → Ordering) (a : List T) : Sorting compare a (start a) where
  perm := .refl a
  bounds := forall_mem_singleton.mpr ⟨Nat.zero_le _, le_rfl⟩
  disjoint := pairwise_singleton _ _
  sorted i j x y hij hx hy hranges := by
    obtain ⟨hj, -⟩ := List.getElem?_eq_some_iff.mp hy
    have hout := hranges (0, a.length) (mem_singleton_self _) (Nat.zero_le i)
    exact absurd hj (not_lt.mpr hout)
  halved := ⟨by show (a.length - 0) * 2 ^ 0 ≤ a.length; omega, trivial⟩
  depth := Nat.le_add_left 1 _

/-- A range of at most one slot leaves the stack. -/
theorem Sorting.pop {a t : List T} {r : Nat × Nat} {ranges : List (Nat × Nat)}
    (h : Sorting compare a ⟨t, r :: ranges⟩) (hsmall : r.2 ≤ r.1 + 1) : Sorting compare a ⟨t, ranges⟩ where
  perm := h.perm
  bounds := (forall_mem_cons.mp h.bounds).2
  disjoint := (pairwise_cons.mp h.disjoint).2
  sorted i j x y hij hx hy hranges := by
    refine h.sorted i j x y hij hx hy (forall_mem_cons.mpr ⟨?_, hranges⟩)
    intro hbeg
    omega
  halved := h.halved.2
  depth := Nat.le_of_succ_le h.depth

section Order

variable [TransCmp compare]

/-- Around the pivot, two values are in order unless they are in the same part. -/
theorem IsSplit.isLE {a t : List T} {piv x y : T} {lo hi m i j : Nat} (h : IsSplit compare a piv lo hi m t)
    (hij : i < j) (hlow : lo ≤ i) (hm : i ≤ m) (hm' : m ≤ j) (hhigh : j < hi) (hx : t[i]? = some x)
    (hy : t[j]? = some y) : (compare x y).isLE := by
  have hleft : (compare x piv).isLE := by
    rcases Nat.lt_or_eq_of_le hm with hlt | rfl
    · exact h.lower i x hlow hlt hx
    · obtain rfl := Option.some.inj (h.pivot.symm.trans hx)
      exact ReflCmp.isLE_rfl
  have hright : (compare piv y).isLE := by
    rcases Nat.lt_or_eq_of_le hm' with hlt | rfl
    · exact OrientedCmp.isLE_of_isGE (h.upper j y hlt hhigh hy)
    · obtain rfl := Option.some.inj (h.pivot.symm.trans hy)
      exact ReflCmp.isLE_rfl
  exact TransCmp.isLE_trans hleft hright

/-- The range on the top of the stack is replaced by its two parts, in any order. -/
theorem Sorting.split {a t t' : List T} {piv : T} {beg stop m : Nat} {small big : Nat × Nat}
    {ranges : List (Nat × Nat)} (h : Sorting compare a ⟨t, (beg, stop) :: ranges⟩)
    (hsplit : IsSplit compare t piv beg stop m t') (hle : size small ≤ size big)
    (hparts : small = (beg, m) ∧ big = (m + 1, stop) ∨ small = (m + 1, stop) ∧ big = (beg, m))
    (hlt : beg + 1 < stop) :
    Sorting compare a ⟨t', small :: big :: ranges⟩ ∧
      weight (small :: big :: ranges) < weight ((beg, stop) :: ranges) := by
  have hlow := hsplit.low
  have hhigh := hsplit.high
  obtain ⟨⟨-, hin⟩, hbounds⟩ := forall_mem_cons.mp h.bounds
  have hstop : stop ≤ t.length := hin
  obtain ⟨hdisjoint, hrest⟩ := pairwise_cons.mp h.disjoint
  have hlength : t'.length = t.length := hsplit.perm.length_eq
  -- the parts are in the range, on both sides of the pivot
  have hsum : size small + size big + 1 = size (beg, stop) := by
    rcases hparts with ⟨rfl, rfl⟩ | ⟨rfl, rfl⟩ <;> simp only [size] <;> omega
  have hmem : ∀ {p : Nat × Nat → Prop},
      (∀ r ∈ small :: big :: ranges, p r) ↔ p (beg, m) ∧ p (m + 1, stop) ∧ ∀ r ∈ ranges, p r := by
    intro p
    rw [forall_mem_cons, forall_mem_cons]
    rcases hparts with ⟨rfl, rfl⟩ | ⟨rfl, rfl⟩
    · rfl
    · exact and_left_comm
  refine ⟨⟨hsplit.perm.trans h.perm, ?_, ?_, ?_, h.halved.push hle (by omega), ?_⟩, ?_⟩
  · rw [hmem]
    refine ⟨⟨hlow, ?_⟩, ⟨hhigh, ?_⟩, ?_⟩
    · show m ≤ t'.length
      omega
    · show stop ≤ t'.length
      omega
    · intro r hr
      rw [hlength]
      exact hbounds r hr
  · have hparts' : List.Pairwise Disjoint ((beg, m) :: (m + 1, stop) :: ranges) := by
      refine pairwise_cons.mpr ⟨?_, pairwise_cons.mpr ⟨?_, hrest⟩⟩
      · rintro r (_ | ⟨_, hr⟩)
        · exact .inl (Nat.le_succ m)
        · have hr' := hdisjoint r hr
          simp only [Disjoint] at hr' ⊢
          omega
      · intro r hr
        have hr' := hdisjoint r hr
        simp only [Disjoint] at hr' ⊢
        omega
    rcases hparts with ⟨rfl, rfl⟩ | ⟨rfl, rfl⟩
    · exact hparts'
    · exact (Perm.swap _ _ _).pairwise hparts' fun h => h.symm
  · intro i j x y hij hx hy hranges
    rw [hmem] at hranges
    obtain ⟨hlower, hupper, hothers⟩ := hranges
    by_cases hi : beg ≤ i ∧ i < stop
    · by_cases hj : j < stop
      · -- both are in the range, and not in the same part
        have hm' : m ≤ j := hlower hi.1
        have hm : i ≤ m := by
          by_contra hnot
          have hout : stop ≤ j := hupper (by show m + 1 ≤ i; omega)
          omega
        exact hsplit.isLE hij hi.1 hm hm' hj hx hy
      · -- the value on the left was in the range
        obtain ⟨i', hlow', hhigh', heq⟩ := hsplit.inside i hi.1 hi.2
        rw [hsplit.outside j (.inr (not_lt.mp hj))] at hy
        refine h.sorted i' j x y (by omega) (heq ▸ hx) hy (forall_mem_cons.mpr ⟨fun _ => not_lt.mp hj, ?_⟩)
        intro r hr hbeg
        have hr' : stop ≤ r.1 ∨ r.2 ≤ beg := hdisjoint r hr
        omega
    · rw [hsplit.outside i (by omega)] at hx
      by_cases hj : beg ≤ j ∧ j < stop
      · -- the value on the right was in the range
        obtain ⟨j', hlow', hhigh', heq⟩ := hsplit.inside j hj.1 hj.2
        refine h.sorted i j' x y (by omega) hx (heq ▸ hy) (forall_mem_cons.mpr ⟨?_, ?_⟩)
        · intro hbeg
          have hbeg' : beg ≤ i := hbeg
          omega
        · intro r hr hbeg
          have hr' : stop ≤ r.1 ∨ r.2 ≤ beg := hdisjoint r hr
          omega
      · rw [hsplit.outside j (by omega)] at hy
        refine h.sorted i j x y hij hx hy (forall_mem_cons.mpr ⟨?_, hothers⟩)
        intro hbeg
        have hbeg' : beg ≤ i := hbeg
        show stop ≤ j
        omega
  · have hlog := h.halved.length_lt (show 2 ≤ stop - beg by omega)
    simp only [length_cons]
    omega
  · simp only [weight]
    omega

/-- One turn with a range on the stack: no access is out of bounds. -/
theorem Sorting.turn {a : List T} {s : State T} {fuel : Nat} (h : Sorting compare a s) (hmax : a.length < 2 ^ max)
    (hfuel : a.length ≤ fuel) (hne : s.ranges ≠ []) :
    ∃ s', Quicksort.turn compare fuel s = some (.inl s') ∧ Sorting compare a s' ∧
      weight s'.ranges < weight s.ranges := by
  obtain ⟨t, ranges⟩ := s
  cases ranges with
  | nil => exact absurd rfl hne
  | cons r ranges =>
    obtain ⟨beg, stop⟩ := r
    by_cases hlt : beg < stop - 1
    · have hbounds : beg ≤ stop ∧ stop ≤ t.length := h.bounds (beg, stop) mem_cons_self
      have hlength : t.length = a.length := h.perm.length_eq
      have hget : t[beg]? = some t[beg] := getElem?_eq_getElem (by omega)
      obtain ⟨s, hrun, hL, hsplit⟩ :=
        @split_spec _ compare t t[beg] beg stop fuel (by omega) hbounds.2 hget (by omega)
      -- the next index of the stack
      have hindex : ranges.length + 1 < max := by
        have hlog := h.halved.length_lt (show 2 ≤ stop - beg by omega)
        have hpos : a.length ≠ 0 := by omega
        exact lt_of_le_of_lt hlog ((Nat.log2_lt hpos).mpr hmax)
      obtain ⟨small, big, hpush, hle, hparts⟩ := push_eq (beg, s.L) (s.L + 1, stop) ranges hindex
      obtain ⟨hsorting, hweight⟩ := h.split hsplit hle hparts (by omega)
      refine ⟨⟨s.array.set s.L t[beg], small :: big :: ranges⟩, ?_, hsorting, hweight⟩
      simp only [Quicksort.turn, if_pos hlt, hget, hrun, array.assign_eq hL, hpush, Option.bind_eq_bind,
        Option.bind_some, Option.pure_def]
    · refine ⟨⟨t, ranges⟩, if_neg hlt, h.pop (by show stop ≤ beg + 1; omega), ?_⟩
      simp only [weight]
      omega

/-- The states of the run. -/
theorem Sorting.reached {a : List T} {s : State T} {fuel : Nat} (hmax : a.length < 2 ^ max) (hfuel : a.length ≤ fuel)
    (h : Loop.Reached (Loop.failing (Quicksort.turn compare fuel)) (Quicksort.start a) s) : Sorting compare a s := by
  induction h with
  | refl => exact Sorting.start compare a
  | @turn s s' hreached hstep ih =>
    by_cases hne : s.ranges = []
    · have hturn : Quicksort.turn compare fuel s = some (.inr s.array) := by
        simp only [Quicksort.turn, hne]
      rw [Loop.failing, hturn] at hstep
      cases hstep
    · obtain ⟨s₁, hturn, hsorting, -⟩ := ih.turn hmax hfuel hne
      rw [Loop.failing, hturn] at hstep
      obtain rfl := Sum.inl.inj hstep
      exact hsorting

/-- `quicksort` ends with the values of the array in order, and the depth of its stack is at most logarithmic.  The
count of the array is an `int`. -/
theorem quicksort_spec (a : List T) (hcount : a.length < 2 ^ 31) :
    ∃ fuel b, quicksort compare fuel a = some b ∧ b.Perm a ∧ (b.Pairwise fun x y => (compare x y).isLE) ∧
      ∀ s, Loop.Reached (Loop.failing (turn compare fuel)) (start a) s → s.ranges.length ≤ a.length.log2 + 1 := by
  have hmax : a.length < 2 ^ max := lt_of_lt_of_le hcount (Nat.pow_le_pow_right (by omega) (by decide))
  obtain ⟨b, hrun, hperm, hsorted⟩ := Loop.exists_attempt_eq_some (turn compare (2 * a.length + 2))
    (fun k s => k = weight s.ranges ∧ Sorting compare a s)
    (fun b => b.Perm a ∧ b.Pairwise fun x y => (compare x y).isLE)
    (by
      rintro k s ⟨rfl, hs⟩
      by_cases hne : s.ranges = []
      · -- two values without a range around them are in order
        right
        refine ⟨s.array, by simp only [turn, hne], hs.perm, pairwise_iff_getElem.mpr ?_⟩
        intro i j hi hj hij
        apply hs.sorted i j _ _ hij (getElem?_eq_getElem hi) (getElem?_eq_getElem hj)
        rw [hne]
        exact forall_mem_nil _
      · left
        obtain ⟨s', hturn, hs', hless⟩ := hs.turn hmax (show a.length ≤ 2 * a.length + 2 by omega) hne
        exact ⟨s', weight s'.ranges, hturn, hless, rfl, hs'⟩)
    (k := weight (start a).ranges) ⟨rfl, Sorting.start compare a⟩
    (show 2 * (a.length - 0) + 1 + 0 < 2 * a.length + 2 by omega)
  refine ⟨2 * a.length + 2, b, hrun, hperm, hsorted, ?_⟩
  intro s hreached
  exact (Sorting.reached hmax (by omega) hreached).depth

theorem quicksort_spec_four :
    ∃ fuel b, quicksort (@Ord.compare Nat _) fuel [3, 1, 3, 2] = some b ∧ b.Perm [3, 1, 3, 2] ∧
      (b.Pairwise fun x y => (Ord.compare x y).isLE) ∧
        ∀ s, Loop.Reached (Loop.failing (turn (@Ord.compare Nat _) fuel)) (start [3, 1, 3, 2]) s →
          s.ranges.length ≤ [3, 1, 3, 2].length.log2 + 1 :=
  quicksort_spec [3, 1, 3, 2] (by decide)

end Order

end Elm.Data.Quicksort
