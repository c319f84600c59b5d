import Elm.Data.NRange

/-!
# Loops over `nrange`

The loop stands on the numbers `i + k * s`, modulo the span of the type.  It gives the terms if and only
if the number after the last term is the end, and the first one is not.
-/

namespace Elm.Data.NumRange

open IntType NumIter Option

variable {t : IntType} {i j s : t.Value}

/-- What the loop needs to give `n` terms, no sum having an overflow. -/
structure Reaches (i j s : t.Value) (n : Nat) : Prop where
  top : (int.wrap j.val).val ≠ 2 ^ 31 - 1
  last : t.span ∣ kept t i.val + n * kept t s.val - (kept t j.val + 1)
  first : 1 ≤ n → kept t i.val = i.val ∧ ¬ t.span ∣ i.val - (kept t j.val + 1)
  step : 2 ≤ n → kept t s.val = s.val

/-! ## From the loop to the numbers -/

theorem equals_standing {x y : Int} : (standing j s x).equals (standing j s y) = true ↔ t.span ∣ x - y := by
  rw [equals, decide_eq_true_eq, ← wrap_eq_wrap_iff]
  exact ⟨fun h => Value.ext' h, fun h => congrArg Value.val h⟩

theorem next_standing {x : Int} {u : NumIter t} (h : (standing j s x).next = some u) :
    u = standing j s (x + kept t s.val) := by
  obtain ⟨y, hadd, rfl⟩ := map_eq_some_iff.mp h
  have hy := add_eq_some hadd
  have hsum : t.wrap (x + kept t s.val) = y := by
    rw [← hy, wrap_eq_wrap_iff]
    have hx := t.wrap_dvd x
    have heq : x + kept t s.val - ((standing j s x).i.val + (standing j s x).s.val) =
        -((t.wrap x).val - x) := by
      simp only [standing, kept]
      ring
    rw [heq]
    exact hx.neg_right
  rw [standing, standing, hsum]

theorem advance_standing (stop : NumIter t) {k : Nat} : ∀ {x : Int} {u : NumIter t},
    (rangeFor stop).advance k (standing j s x) = some u → u = standing j s (x + k * kept t s.val) := by
  induction k with
  | zero =>
    intro x u h
    simpa using (some.inj h).symm
  | succ k ih =>
    intro x u h
    obtain ⟨v, hnext, hrest⟩ := bind_eq_some_iff.mp h
    obtain rfl := next_standing hnext
    rw [ih hrest]
    push_cast
    ring_nf

theorem reaches_of_yields (h : Yields i j s) : Reaches i j s (count i.val j.val s.val) := by
  obtain ⟨stop, xs, hstop, hvisits, hmap⟩ := h
  obtain ⟨htop, rfl⟩ := endIter_eq_some.mp hstop
  have hlen : xs.length = count i.val j.val s.val := by
    have hlens := congrArg List.length hmap
    simpa [terms] using hlens
  have hitem : ∀ {k : Nat} {x : t.Value}, xs[k]? = some x → x.val = i.val + k * s.val := by
    intro k x hx
    have hget := congrArg (fun ys : List Int => ys[k]?) hmap
    simp only [List.getElem?_map, hx, map_some, terms] at hget
    obtain ⟨k', hk', heq⟩ := map_eq_some_iff.mp hget.symm
    obtain ⟨_, hget'⟩ := List.getElem?_eq_some_iff.mp hk'
    rw [List.getElem_range] at hget'
    rw [← heq, hget']
  rw [beginIter_eq] at hvisits
  obtain ⟨⟨u, hlast, hended⟩, hall⟩ := hvisits.advance
  rw [hlen] at hlast hall
  obtain rfl := advance_standing _ hlast
  -- the number of the loop at the term `k`
  have hturn : ∀ k < count i.val j.val s.val,
      ¬ t.span ∣ kept t i.val + k * kept t s.val - (kept t j.val + 1) ∧
        (t.wrap (kept t i.val + k * kept t s.val)).val = i.val + k * s.val := by
    intro k hk
    obtain ⟨u, hadv, hgoes, hx⟩ := hall k hk
    obtain rfl := advance_standing _ hadv
    refine ⟨fun hdvd => ?_, hitem hx.symm⟩
    rw [show (rangeFor _).ended _ = true from equals_standing.mpr hdvd] at hgoes
    cases hgoes
  refine ⟨htop, equals_standing.mp hended, fun hn => ?_, fun hn => ?_⟩
  · obtain ⟨hgoes, hval⟩ := hturn 0 hn
    simp only [Nat.cast_zero, zero_mul, add_zero, wrap_kept] at hgoes hval
    exact ⟨hval, hval ▸ hgoes⟩
  · obtain ⟨-, hfirst⟩ := hturn 0 (by omega)
    obtain ⟨-, hsecond⟩ := hturn 1 (by omega)
    simp only [Nat.cast_zero, zero_mul, add_zero, Nat.cast_one, one_mul, wrap_kept] at hfirst hsecond
    have hdvd := t.wrap_dvd (kept t i.val + kept t s.val)
    rw [hsecond, hfirst] at hdvd
    have heq : s = t.wrap (int.wrap s.val).val := by
      refine Value.eq_of_dvd ?_
      have hdiff : i.val + s.val - (i.val + kept t s.val) = s.val - (t.wrap (int.wrap s.val).val).val := by
        rw [kept]
        ring
      rwa [hdiff] at hdvd
    rw [kept, ← heq]

/-! ## From the numbers to the loop -/

/-- A term is not greater than `j`. -/
theorem term_le (hs : 1 ≤ s.val) {k : Nat} (hk : k < count i.val j.val s.val) :
    i.val + k * s.val ≤ j.val := by
  have hmem : i.val + k * s.val ∈ terms i.val j.val s.val :=
    List.mem_map.mpr ⟨k, List.mem_range.mpr hk, rfl⟩
  obtain ⟨k', heq, hle⟩ := (mem_terms hs).mp hmem
  exact hle

theorem has_term (hs : 1 ≤ s.val) {k : Nat} (hk : k < count i.val j.val s.val) :
    t.Has (i.val + k * s.val) := by
  have hle := term_le hs hk
  have hmul : 0 ≤ (k : Int) * s.val := Int.mul_nonneg (by omega) (by omega)
  obtain ⟨hlow, -⟩ := i.has
  obtain ⟨-, hhigh⟩ := j.has
  constructor <;> omega

/-- A loop that reaches its end gives the terms, if no sum has an overflow. -/
theorem Reaches.yields (hs : 1 ≤ s.val) (h : Reaches i j s (count i.val j.val s.val))
    (hroom : ∀ k < count i.val j.val s.val, t.promoted.signed = true →
      t.promoted.Has (i.val + k * s.val + kept t s.val)) : Yields i j s := by
  have hle := fun (k : Nat) hk => term_le (k := k) (i := i) (j := j) hs hk
  have hhas := fun (k : Nat) hk => has_term (k := k) (i := i) (j := j) hs hk
  obtain ⟨htop, hlast, hfirst, hstep⟩ := h
  have hterms : terms i.val j.val s.val =
      (List.range (count i.val j.val s.val)).map fun k : Nat => i.val + k * s.val := rfl
  generalize count i.val j.val s.val = n at hlast hfirst hstep hroom hle hhas hterms
  have hnum : ∀ k < n, kept t i.val + k * kept t s.val = i.val + k * s.val := by
    intro k hk
    rw [(hfirst (by omega)).1]
    cases k with
    | zero => simp
    | succ k => rw [hstep (by omega)]
  have hval : ∀ k < n, (t.wrap (kept t i.val + k * kept t s.val)).val = i.val + k * s.val := by
    intro k hk
    rw [hnum k hk, wrap_val (hhas k hk)]
  -- two numbers of the loop that are equal modulo the span are too far from each other
  have hgoes : ∀ k < n, ¬ t.span ∣ kept t i.val + k * kept t s.val - (kept t j.val + 1) := by
    intro k hk hdvd
    rw [hnum k hk] at hdvd
    cases k with
    | zero => exact (hfirst (by omega)).2 (by simpa using hdvd)
    | succ k =>
      rw [hstep (by omega), (hfirst (by omega)).1] at hlast
      obtain ⟨m, rfl⟩ : ∃ m, n = k + 1 + (m + 1) := ⟨n - k - 2, by omega⟩
      have hdiff := dvd_sub hlast hdvd
      have heq : i.val + ((k + 1 + (m + 1) : Nat) : Int) * s.val - (kept t j.val + 1) -
          (i.val + ((k + 1 : Nat) : Int) * s.val - (kept t j.val + 1)) = (m + 1 : Int) * s.val := by
        push_cast
        ring
      rw [heq] at hdiff
      have hpos : 0 < (m + 1 : Int) * s.val := Int.mul_pos (by omega) (by omega)
      have hspan := Int.le_of_dvd hpos hdiff
      have hlast' := hle (m + 1) (by omega)
      push_cast at hlast'
      obtain ⟨hlow, -⟩ := i.has
      obtain ⟨-, hhigh⟩ := j.has
      omega
  have hnext : ∀ k < n, (standing j s (kept t i.val + k * kept t s.val)).next =
      some (standing j s (kept t i.val + ((k + 1 : Nat) : Int) * kept t s.val)) := by
    intro k hk
    have hadd : t.add (t.wrap (kept t i.val + k * kept t s.val)) (t.wrap (int.wrap s.val).val) =
        some (t.wrap (i.val + k * s.val + kept t s.val)) := by
      have hsum := hroom k hk
      rw [← hval k hk] at hsum ⊢
      exact add_of_has hsum
    have hsucc : i.val + k * s.val + kept t s.val = kept t i.val + ((k + 1 : Nat) : Int) * kept t s.val := by
      rw [← hnum k hk]
      push_cast
      ring
    simp only [next, standing, hadd, map_some, hsucc]
  refine ⟨_, (List.range n).map fun k : Nat => t.wrap (kept t i.val + k * kept t s.val),
    endIter_eq_some.mpr ⟨htop, rfl⟩, ?_, ?_⟩
  · have hvisits := @Cursor.visits_of_states _ _ (rangeFor (standing j s (kept t j.val + 1)))
      (fun k : Nat => standing j s (kept t i.val + k * kept t s.val))
      (fun k : Nat => t.wrap (kept t i.val + k * kept t s.val)) n
      (fun k hk => ⟨?_, rfl, hnext k hk⟩) (equals_standing.mpr hlast)
    · simpa [beginIter_eq] using hvisits
    · exact Bool.eq_false_iff.mpr fun hended => hgoes k hk (equals_standing.mp hended)
  · rw [hterms, List.map_map]
    exact List.map_congr_left fun k hk => hval k (List.mem_range.mp hk)

/-! ## The condition -/

/-- A value of `int` that is a value of a larger type, too, is kept. -/
theorem wrap_int_val (hwide : 32 < t.width) {y : int.Value} (h : t.signed = true ∨ 0 ≤ y.val) :
    (t.wrap y.val).val = y.val := by
  have hspan := le_span_of_wide hwide
  have hbounds := int_bounds y
  refine wrap_val ⟨?_, ?_⟩
  · rcases t.low_eq with ⟨hsigned, heq⟩ | ⟨hsigned, heq⟩
    · rw [hsigned] at h
      simp at h
      omega
    · omega
  · rcases t.low_eq with ⟨-, heq⟩ | ⟨-, heq⟩ <;> omega

/-- A step that is kept although its `int` is negative is larger than half of the values. -/
theorem eq_add_span (hwide : 32 < t.width) (hunsigned : t.signed = false)
    (hneg : (int.wrap s.val).val < 0) (hkept : kept t s.val = s.val) :
    s.val = (int.wrap s.val).val + t.span := by
  have hspan := le_span_of_wide hwide
  have hlow := low_of_unsigned hunsigned
  have hdvd := t.wrap_dvd (int.wrap s.val).val
  rw [show (t.wrap (int.wrap s.val).val).val = s.val from hkept] at hdvd
  obtain ⟨hs₁, hs₂⟩ := s.has
  have hbounds := int_bounds (int.wrap s.val)
  have hzero := eq_zero_of_dvd (dvd_sub hdvd (dvd_refl t.span)) (by omega) (by omega)
  omega

/-- After at least two terms: the end is `j + 1`, which is the next number. -/
theorem Reaches.exact (hs : 1 ≤ s.val) {n : Nat} (h : Reaches i j s (n + 2))
    (hle : i.val + ((n : Int) + 1) * s.val ≤ j.val) (hlt : j.val < i.val + ((n : Int) + 2) * s.val) :
    kept t j.val = j.val ∧ j.val + 1 = i.val + ((n : Int) + 2) * s.val := by
  have hlast := h.last
  have hcast : ((n + 2 : Nat) : Int) = (n : Int) + 2 := by push_cast; ring
  rw [(h.first (by omega)).1, h.step (by omega), hcast] at hlast
  have hsucc : ((n : Int) + 2) * s.val = ((n : Int) + 1) * s.val + s.val := by ring
  obtain ⟨hi₁, hi₂⟩ := i.has
  obtain ⟨hj₁, hj₂⟩ := j.has
  obtain ⟨hs₁, hs₂⟩ := s.has
  have hlow := t.low_nonpos
  rcases le_or_gt t.width 32 with hnarrow | hwide
  · -- both numbers are values of the type, or one after
    have hj := kept_of_le hnarrow j
    rw [hj] at hlast
    have hzero := eq_zero_of_dvd hlast (by omega) (by omega)
    exact ⟨hj, by omega⟩
  · have hspan := le_span_of_wide hwide
    have hword : (2 ^ 32 : Int) ∣ t.span := pow_dvd_pow 2 hwide.le
    have hkept := t.wrap_dvd (int.wrap j.val).val
    have hint := int.wrap_dvd j.val
    rw [span_int] at hint
    have hsum : t.span ∣ i.val + ((n : Int) + 2) * s.val - 1 - (int.wrap j.val).val := by
      have hadd := dvd_add hlast hkept
      have heq : i.val + ((n : Int) + 2) * s.val - 1 - (int.wrap j.val).val =
          i.val + ((n : Int) + 2) * s.val - (kept t j.val + 1) +
            ((t.wrap (int.wrap j.val).val).val - (int.wrap j.val).val) := by
        rw [kept]
        ring
      rwa [heq]
    have hys := int_bounds (int.wrap s.val)
    have hyj := int_bounds (int.wrap j.val)
    by_cases hnonneg : t.signed = true ∨ 0 ≤ (int.wrap s.val).val
    · -- the step is an `int`, so that the next number is too close to `j` for another `int`
      have hstep : s.val = (int.wrap s.val).val := by
        rw [← wrap_int_val hwide hnonneg]
        exact (h.step (by omega)).symm
      have hmod := hword.trans hsum
      have hnext : j.val + 1 = i.val + ((n : Int) + 2) * s.val := by omega
      refine ⟨?_, hnext⟩
      rw [← hnext, add_sub_cancel_right] at hsum
      have hwrap : t.wrap (int.wrap j.val).val = j :=
        wrap_eq_iff.mpr (by rw [← Int.neg_sub]; exact hsum.neg_right)
      rw [kept, hwrap]
    · -- there would be two terms only, and the end would not be reached
      obtain ⟨hunsigned, hneg⟩ := not_or.mp hnonneg
      have hunsigned' : t.signed = false := by simpa using hunsigned
      have hzero := low_of_unsigned hunsigned'
      have hlarge := eq_add_span hwide hunsigned' (by omega) (h.step (by omega))
      have htwo : n = 0 := by
        by_contra hne
        have hmul := Int.mul_le_mul_of_nonneg_right (by omega : (2 : Int) ≤ (n : Int) + 1) (by omega : 0 ≤ s.val)
        omega
      subst htwo
      simp only [Nat.cast_zero, zero_add, one_mul] at hle hsum
      have hj : (int.wrap j.val).val = j.val - t.span := by
        have hdvd := dvd_add hint hword
        omega
      have hend : i.val + 2 * (int.wrap s.val).val - 1 - (int.wrap j.val).val = 0 := by
        have hdvd := dvd_sub hsum (dvd_mul_left t.span 2)
        rw [hlarge] at hdvd
        refine eq_zero_of_dvd (t := t) ?_ (by omega) (by omega)
        have heq : i.val + 2 * (int.wrap s.val).val - 1 - (int.wrap j.val).val =
            i.val + 2 * ((int.wrap s.val).val + t.span) - 1 - (int.wrap j.val).val - 2 * t.span := by ring
        rwa [heq]
      omega

theorem Reaches.fits (hs : 1 ≤ s.val) (h : Reaches i j s (count i.val j.val s.val)) : Fits i j s := by
  refine ⟨h.top, ?_⟩
  split_ifs with hnone hone
  · have hlast := h.last
    rw [count_of_lt hs hnone] at hlast
    simpa using hlast
  · obtain ⟨n, hcount, hle, -⟩ := count_of_le hs (by omega : i.val ≤ j.val)
    rw [hcount] at h
    obtain rfl : n = 0 := by
      by_contra hne
      have hmul := Int.mul_le_mul_of_nonneg_right (by omega : (1 : Int) ≤ n) (by omega : 0 ≤ s.val)
      omega
    obtain ⟨hkept, hgoes⟩ := h.first le_rfl
    have hlast := h.last
    simp only [zero_add, Nat.cast_one, one_mul, hkept] at hlast
    exact ⟨hkept, hlast, hgoes⟩
  · obtain ⟨n, hcount, hle, hlt⟩ := count_of_le hs (by omega : i.val ≤ j.val)
    rw [hcount] at h
    obtain ⟨m, rfl⟩ : ∃ m, n = m + 1 := by
      cases n with
      | zero => simp at hlt; omega
      | succ m => exact ⟨m, rfl⟩
    push_cast at hle hlt
    rw [add_assoc] at hlt
    obtain ⟨hj, hnext⟩ := h.exact hs hle hlt
    obtain ⟨hi, hgoes⟩ := h.first (by omega)
    refine ⟨hi, hj, h.step (by omega), ⟨(m : Int) + 2, by rw [hnext]; ring⟩, ?_⟩
    rw [hj] at hgoes
    by_contra hge
    obtain ⟨hi₁, -⟩ := i.has
    obtain ⟨-, hj₂⟩ := j.has
    refine hgoes ⟨-1, ?_⟩
    omega

/-- The number after `j` has a place in the type of the sums. -/
theorem has_succ (htop : (int.wrap j.val).val ≠ 2 ^ 31 - 1) (hj : kept t j.val = j.val)
    (hsigned : t.promoted.signed = true) : t.promoted.Has (j.val + 1) := by
  rcases lt_or_ge t.width 32 with hlt | hge
  · have hprom : t.promoted = int := if_pos hlt
    have hhas : int.Has j.val := hprom ▸ has_promoted j.has
    rw [hprom, ← wrap_val hhas]
    exact (has_int_succ _).mpr htop
  · have hprom : t.promoted = t := if_neg (by simpa [int] using hge)
    rw [hprom] at hsigned ⊢
    obtain ⟨hj₁, hj₂⟩ := j.has
    refine ⟨by omega, ?_⟩
    have hlow := low_of_signed hsigned
    rcases Nat.eq_or_lt_of_le hge with heq | hwide
    · have hspan : t.span = 2 ^ 32 := by rw [span, ← heq]
      have hhas : int.Has j.val := by
        unfold Has
        rw [span_int, low_int]
        omega
      rw [wrap_val hhas] at htop
      omega
    · have hspan := le_span_of_wide hwide
      have hint := int_bounds (int.wrap j.val)
      rw [kept, wrap_int_val hwide (Or.inl hsigned)] at hj
      omega

/-- The number after the only term has a place in the type of the sums. -/
theorem has_single (htop : (int.wrap j.val).val ≠ 2 ^ 31 - 1) (hle : i.val ≤ j.val)
    (hlt : j.val < i.val + s.val) (hi : kept t i.val = i.val)
    (hlast : t.span ∣ i.val + kept t s.val - (kept t j.val + 1)) (hsigned : t.promoted.signed = true) :
    t.promoted.Has (i.val + kept t s.val) := by
  rcases le_or_gt t.width 32 with hnarrow | hwide
  · have hj := kept_of_le hnarrow j
    rw [kept_of_le hnarrow s, hj] at hlast
    rw [kept_of_le hnarrow s]
    obtain ⟨hi₁, hi₂⟩ := i.has
    obtain ⟨hj₁, hj₂⟩ := j.has
    obtain ⟨hs₁, hs₂⟩ := s.has
    have hlow := t.low_nonpos
    have hzero := eq_zero_of_dvd hlast (by omega) (by omega)
    have hnext : i.val + s.val = j.val + 1 := by omega
    rw [hnext]
    exact has_succ htop hj hsigned
  · have hprom : t.promoted = t := if_neg (by simp [int]; omega)
    rw [hprom] at hsigned ⊢
    have hspan := le_span_of_wide hwide
    have hint := int_bounds (int.wrap i.val)
    have hint' := int_bounds (int.wrap s.val)
    have hlow := low_of_signed hsigned
    rw [kept, wrap_int_val hwide (Or.inl hsigned)] at hi ⊢
    constructor <;> omega

theorem Fits.yields (hs : 1 ≤ s.val) (h : Fits i j s) : Yields i j s := by
  obtain ⟨htop, h⟩ := h
  split_ifs at h with hnone hone
  · have hcount := count_of_lt hs hnone
    refine Reaches.yields hs ?_ ?_
    · rw [hcount]
      exact ⟨htop, by simpa using h, fun hn => absurd hn (by decide), fun hn => absurd hn (by decide)⟩
    · rw [hcount]
      exact fun k hk => absurd hk (Nat.not_lt_zero k)
  · obtain ⟨hi, hlast, hgoes⟩ := h
    have hcount : count i.val j.val s.val = 1 := by
      obtain ⟨n, hcount, hle, -⟩ := count_of_le hs (by omega : i.val ≤ j.val)
      cases n with
      | zero => exact hcount
      | succ n =>
        have hmul : 0 ≤ (n : Int) * s.val := Int.mul_nonneg (by omega) (by omega)
        push_cast at hle
        rw [add_mul, one_mul] at hle
        omega
    refine Reaches.yields hs ?_ ?_
    · rw [hcount]
      exact ⟨htop, by simpa [hi] using hlast, fun _ => ⟨hi, hgoes⟩, fun hn => absurd hn (by decide)⟩
    · rw [hcount]
      intro k hk hsigned
      obtain rfl : k = 0 := by omega
      simpa using has_single htop (by omega) hone hi hlast hsigned
  · obtain ⟨hi, hj, hkept, ⟨m, hm⟩, hspan⟩ := h
    obtain ⟨n, hcount, hle, hlt⟩ := count_of_le hs (by omega : i.val ≤ j.val)
    -- the next number is `j + 1`
    have hnext : i.val + ((n : Int) + 1) * s.val = j.val + 1 := by
      have heq : j.val + 1 = i.val + m * s.val := by
        rw [mul_comm]
        omega
      have hlow : (n : Int) < m := lt_of_mul_lt_mul_right (by omega : (n : Int) * s.val < m * s.val) (by omega)
      have hmul := Int.mul_le_mul_of_nonneg_right (by omega : (n : Int) + 1 ≤ m) (by omega : 0 ≤ s.val)
      omega
    refine Reaches.yields hs ⟨htop, ?_, fun _ => ⟨hi, ?_⟩, fun _ => hkept⟩ ?_
    · rw [hcount, hi, hj, hkept]
      push_cast
      rw [hnext, sub_self]
      exact dvd_zero _
    · rw [hj]
      intro hdvd
      have hzero := eq_zero_of_dvd hdvd (by omega) (by have := t.span_pos; omega)
      omega
    · intro k hk hsigned
      have hsucc : i.val + k * s.val + kept t s.val = i.val + ((k + 1 : Nat) : Int) * s.val := by
        rw [hkept]
        push_cast
        ring
      rw [hsucc]
      by_cases hlast : k + 1 < count i.val j.val s.val
      · exact has_promoted (has_term hs hlast)
      · obtain rfl : k = n := by omega
        push_cast
        rw [hnext]
        exact has_succ htop hj hsigned

/-- The condition for the types that are not larger than `int`, which keep the bounds and the step. -/
theorem fits_iff_of_le (hnarrow : t.width ≤ 32) :
    Fits i j s ↔ (int.wrap j.val).val ≠ 2 ^ 31 - 1 ∧ i.val ≤ j.val + 1 ∧
      s.val ∣ j.val + 1 - i.val ∧ j.val + 1 - i.val < t.span := by
  obtain ⟨hi₁, hi₂⟩ := i.has
  obtain ⟨hj₁, hj₂⟩ := j.has
  obtain ⟨hs₁, hs₂⟩ := s.has
  have hpos := t.span_pos
  have hlow := t.low_nonpos
  rw [Fits, kept_of_le hnarrow i, kept_of_le hnarrow j, kept_of_le hnarrow s, and_congr_right_iff]
  intro htop
  split_ifs with hnone hone
  · constructor
    · intro hdvd
      have hzero := eq_zero_of_dvd hdvd (by omega) (by omega)
      have hempty : j.val + 1 - i.val = 0 := by omega
      exact ⟨by omega, hempty ▸ dvd_zero _, by omega⟩
    · rintro ⟨hle, -, -⟩
      have hempty : i.val - (j.val + 1) = 0 := by omega
      rw [hempty]
      exact dvd_zero _
  · constructor
    · rintro ⟨-, hlast, hgoes⟩
      have hzero := eq_zero_of_dvd hlast (by omega) (by omega)
      refine ⟨by omega, ⟨1, by omega⟩, ?_⟩
      by_contra hge
      exact hgoes ⟨-1, by omega⟩
    · rintro ⟨-, hdvd, hspan⟩
      have hle := Int.le_of_dvd (by omega) hdvd
      have hlast : i.val + s.val - (j.val + 1) = 0 := by omega
      refine ⟨rfl, hlast ▸ dvd_zero _, fun hstart => ?_⟩
      have hzero := eq_zero_of_dvd hstart (by omega) (by omega)
      omega
  · constructor
    · rintro ⟨-, -, -, hdvd, hspan⟩
      exact ⟨by omega, hdvd, hspan⟩
    · rintro ⟨-, hdvd, hspan⟩
      exact ⟨rfl, rfl, rfl, hdvd, hspan⟩

/-- The loop over `nrange(i, j, s)` ends and gives the terms if and only if the end follows the last
term and the conversions keep what they need to keep; for the types that are not larger than `int`, if
and only if the step divides the distance from `i` to `j + 1`, which is not the whole span, and
`j + 1` has no overflow. -/
theorem nrange_iff (t : IntType) (i j s : t.Value) (hs : 1 ≤ s.val) :
    (Yields i j s ↔ Fits i j s) ∧
      (t.width ≤ 32 →
        (Yields i j s ↔ (int.wrap j.val).val ≠ 2 ^ 31 - 1 ∧ i.val ≤ j.val + 1 ∧
          s.val ∣ j.val + 1 - i.val ∧ j.val + 1 - i.val < t.span)) := by
  have hiff : Yields i j s ↔ Fits i j s :=
    ⟨fun h => (reaches_of_yields h).fits hs, fun h => h.yields hs⟩
  exact ⟨hiff, fun hnarrow => hiff.trans (fits_iff_of_le hnarrow)⟩

/-- The range from 0 to 9 of `int`. -/
theorem nrange_iff_nine :
    (Yields (int.wrap 0) (int.wrap 9) (int.wrap 1) ↔ Fits (int.wrap 0) (int.wrap 9) (int.wrap 1)) ∧
      (int.width ≤ 32 →
        (Yields (int.wrap 0) (int.wrap 9) (int.wrap 1) ↔
          (int.wrap (int.wrap 9).val).val ≠ 2 ^ 31 - 1 ∧ (int.wrap 0).val ≤ (int.wrap 9).val + 1 ∧
            (int.wrap 1).val ∣ (int.wrap 9).val + 1 - (int.wrap 0).val ∧
            (int.wrap 9).val + 1 - (int.wrap 0).val < int.span)) :=
  nrange_iff int (int.wrap 0) (int.wrap 9) (int.wrap 1) (by decide)

/-- The range from 0 to 10 of `int`, with a step of 3: the loop goes from 9 to 12, over its end. -/
theorem not_nrange : ¬ ∀ (t : IntType) (i j s : t.Value), 1 ≤ s.val → Yields i j s := by
  intro h
  have hfits := (reaches_of_yields (h int (int.wrap 0) (int.wrap 10) (int.wrap 3) (by decide))).last
  revert hfits
  decide

end Elm.Data.NumRange
