import Mathlib.Tactic

/-!
# Intervals

Intervals of numbers that do not meet.  The maximal intervals of `0, ..., n - 1` on which a predicate
holds, and a scan that collects them from left to right.
-/

namespace Runs

/-- The `n` numbers from `a` on and the `m` numbers from `b` on have none in common. -/
def Apart (a n b m : Nat) : Prop := n = 0 ∨ m = 0 ∨ a + n ≤ b ∨ b + m ≤ a

theorem apart_iff {a n b m : Nat} :
    Apart a n b m ↔ ∀ x, ¬ ((a ≤ x ∧ x < a + n) ∧ b ≤ x ∧ x < b + m) := by
  unfold Apart
  constructor
  · intro h x
    omega
  · intro h
    have ha := h a
    have hb := h b
    omega

theorem Apart.symm {a n b m : Nat} (h : Apart a n b m) : Apart b m a n := by
  unfold Apart at h ⊢
  omega

/-- A part of an interval is apart from what the interval is apart from. -/
theorem Apart.mono {a n b m a' n' : Nat} (h : Apart a n b m) (hlow : a ≤ a')
    (hhigh : a' + n' ≤ a + n) : Apart a' n' b m := by
  unfold Apart at h ⊢
  omega

/-! ## Maximal runs -/

variable {p : Nat → Prop} {n : Nat}

/-- The predicate holds on `[b, e)`, which cannot be extended inside `[0, n)`. -/
structure IsRun (p : Nat → Prop) (n b e : Nat) : Prop where
  lt : b < e
  le : e ≤ n
  inside : ∀ j, b ≤ j → j < e → p j
  left : b = 0 ∨ ¬ p (b - 1)
  right : e = n ∨ ¬ p e

/-- A position that no run goes over. -/
def Boundary (p : Nat → Prop) (n i : Nat) : Prop := i = 0 ∨ n ≤ i ∨ ¬ p i

theorem IsRun.le_or_le {b e i : Nat} (h : IsRun p n b e) (hi : Boundary p n i) : e ≤ i ∨ i ≤ b := by
  by_contra hcross
  rcases hi with rfl | hi | hi
  · omega
  · have hle := h.le
    omega
  · exact hi (h.inside i (by omega) (by omega))

/-- Two runs are equal or do not meet. -/
theorem IsRun.eq_or_disjoint {b e b' e' : Nat} (h : IsRun p n b e) (h' : IsRun p n b' e') :
    (b = b' ∧ e = e') ∨ e ≤ b' ∨ e' ≤ b := by
  have hlt := h.lt
  have hlt' := h'.lt
  -- both ends of a run are boundaries
  have hend : Boundary p n e' := Or.inr (h'.right.imp (fun heq => heq.ge) id)
  have hend' : Boundary p n e := Or.inr (h.right.imp (fun heq => heq.ge) id)
  by_contra hmeet
  have hstop : e = e' := by
    rcases h.le_or_le hend with hle | hle
    · rcases h'.le_or_le hend' with hle' | hle' <;> omega
    · omega
  have hstart : b = b' := by
    by_contra hne
    rcases Nat.lt_or_gt_of_ne hne with hb | hb
    · rcases h'.left with hzero | hnot
      · omega
      · exact hnot (h.inside (b' - 1) (by omega) (by omega))
    · rcases h.left with hzero | hnot
      · omega
      · exact hnot (h'.inside (b - 1) (by omega) (by omega))
  exact hmeet (Or.inl ⟨hstart, hstop⟩)

/-- The runs that end at `i` or before. -/
def Collected (p : Nat → Prop) (n i : Nat) (rs : List (Nat × Nat)) : Prop :=
  ∀ b e, (b, e) ∈ rs ↔ IsRun p n b e ∧ e ≤ i

theorem collected_zero : Collected p n 0 [] := by
  intro b e
  simp only [List.not_mem_nil, false_iff, not_and]
  intro h
  have hlt := h.lt
  omega

variable {i b e : Nat} {rs : List (Nat × Nat)}

/-- From a boundary, the next run starts at the first position where the predicate holds and ends
at the first one after it where it does not. -/
theorem isRun_next (hi : Boundary p n i) (hib : i ≤ b) (hskip : ∀ j, i ≤ j → j < b → ¬ p j)
    (hbe : b < e) (hen : e ≤ n) (hrun : ∀ j, b ≤ j → j < e → p j) (hend : e = n ∨ ¬ p e) :
    IsRun p n b e := by
  refine ⟨hbe, hen, hrun, ?_, hend⟩
  by_cases heq : i = b
  · subst heq
    rcases hi with hi | hi | hi
    · exact Or.inl hi
    · omega
    · exact absurd (hrun i le_rfl hbe) hi
  · exact Or.inr (hskip (b - 1) (by omega) (by omega))

/-- The scan collects one more run. -/
theorem collected_next (h : Collected p n i rs) (hi : Boundary p n i) (hib : i ≤ b)
    (hskip : ∀ j, i ≤ j → j < b → ¬ p j) (hrun : IsRun p n b e) :
    Collected p n e (rs ++ [(b, e)]) := by
  intro b' e'
  rw [List.mem_append, List.mem_singleton, h b' e', Prod.mk.injEq]
  constructor
  · rintro (⟨hrun', hle⟩ | ⟨rfl, rfl⟩)
    · have hlt := hrun.lt
      exact ⟨hrun', by omega⟩
    · exact ⟨hrun, le_rfl⟩
  · rintro ⟨hrun', hle⟩
    rcases hrun'.le_or_le hi with hbefore | hafter
    · exact Or.inl ⟨hrun', hbefore⟩
    · right
      have hlt := hrun.lt
      have hlt' := hrun'.lt
      -- a run after the boundary starts at `b`
      have hstart : b ≤ b' := by
        by_contra hlow
        exact hskip b' hafter (by omega) (hrun'.inside b' le_rfl hlt')
      have hb : b' = b := by
        rcases hrun'.left with h0 | hleft
        · omega
        · by_contra hne
          exact hleft (hrun.inside (b' - 1) (by omega) (by omega))
      have he : e' = e := by
        rcases hrun'.right with hn | hright
        · have hen := hrun.le
          omega
        · by_contra hne
          exact hright (hrun.inside e' (by omega) (by omega))
      exact ⟨hb, he⟩

/-- The scan is over when the predicate holds nowhere from the boundary on. -/
theorem collected_end (h : Collected p n i rs) (hi : Boundary p n i)
    (hskip : ∀ j, i ≤ j → j < n → ¬ p j) : ∀ b e, (b, e) ∈ rs ↔ IsRun p n b e := by
  intro b e
  rw [h b e]
  constructor
  · exact fun hrun => hrun.1
  · intro hrun
    refine ⟨hrun, ?_⟩
    rcases hrun.le_or_le hi with hle | hle
    · exact hle
    · have hlt := hrun.lt
      have hen := hrun.le
      exact absurd (hrun.inside b le_rfl hlt) (hskip b hle (by omega))

end Runs
