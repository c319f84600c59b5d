import Mathlib.Tactic

/-!
# Cars that park on a forest

Each car drives down its street and parks at the first free place, if there is one.  The streets
are branches of a forest: from any place, every street goes down the same way.  Every place of the
streets ends up taken exactly when, for each place `v`, at least as many streets go through `v` as
there are places from which one comes to `v`.
-/

namespace Parking

open List

variable {N : Type*} [DecidableEq N]

/-- One car parks at the first free place of its street. -/
def park (taken street : List N) : List N :=
  match street.find? fun u => decide (u ∉ taken) with
  | some u => taken ++ [u]
  | none => taken

/-- The cars park one after the other. -/
def parkFrom (taken : List N) (streets : List (List N)) : List N := streets.foldl park taken

/-- The places taken in the end. -/
def parkAll (streets : List (List N)) : List N := parkFrom [] streets

/-- The places of the streets, each of them once. -/
def places (streets : List (List N)) : List N := streets.flatten.dedup

/-- From the place `u`, every street goes on with `down u`. -/
def Branches (down : N → List N) (streets : List (List N)) : Prop :=
  ∀ street ∈ streets, ∀ before u after, street = before ++ u :: after → down u = u :: after

/-- At least as many streets go through each place as there are places above it, itself
included. -/
def Enough (down : N → List N) (streets : List (List N)) : Prop :=
  ∀ v ∈ places streets,
    (places streets).countP (fun u => decide (v ∈ down u)) ≤
      streets.countP (fun street => decide (v ∈ street))

instance (down : N → List N) (streets : List (List N)) : Decidable (Enough down streets) := by
  unfold Enough
  infer_instance

variable {down : N → List N} {taken street : List N} {streets : List (List N)} {u v : N}

theorem mem_places : v ∈ places streets ↔ ∃ street ∈ streets, v ∈ street := by
  simp [places]

/-! ## One car -/

theorem park_eq_or (taken street : List N) :
    park taken street = taken ∧ (∀ u ∈ street, u ∈ taken) ∨
      ∃ before u after, street = before ++ u :: after ∧ u ∉ taken ∧ (∀ w ∈ before, w ∈ taken) ∧
        park taken street = taken ++ [u] := by
  cases hfind : street.find? fun u => decide (u ∉ taken) with
  | none =>
    left
    constructor
    · rw [park, hfind]
    · intro u hu
      have hnone := find?_eq_none.mp hfind u hu
      simpa using hnone
  | some u =>
    right
    obtain ⟨hfree, before, after, hsplit, hbefore⟩ := find?_eq_some_iff_append.mp hfind
    refine ⟨before, u, after, hsplit, by simpa using hfree, ?_, by rw [park, hfind]⟩
    intro w hw
    simpa using hbefore w hw

theorem subset_park (taken street : List N) : taken ⊆ park taken street := by
  rcases park_eq_or taken street with ⟨heq, -⟩ | ⟨before, u, after, -, -, -, heq⟩
  · rw [heq]
    exact List.Subset.refl _
  · rw [heq]
    exact subset_append_left _ _

theorem subset_parkFrom (taken : List N) (streets : List (List N)) :
    taken ⊆ parkFrom taken streets := by
  induction streets generalizing taken with
  | nil => exact List.Subset.refl _
  | cons street streets ih => exact List.Subset.trans (subset_park taken street) (ih _)

theorem nodup_park (h : taken.Nodup) (street : List N) : (park taken street).Nodup := by
  rcases park_eq_or taken street with ⟨heq, -⟩ | ⟨before, u, after, -, hfree, -, heq⟩
  · rwa [heq]
  · rw [heq, ← concat_eq_append]
    exact h.concat hfree

theorem nodup_parkFrom (h : taken.Nodup) (streets : List (List N)) :
    (parkFrom taken streets).Nodup := by
  induction streets generalizing taken with
  | nil => exact h
  | cons street streets ih => exact ih (nodup_park h street)

/-- A place is taken from the start or by a car whose street goes through it. -/
theorem mem_parkFrom (hmem : u ∈ parkFrom taken streets) :
    u ∈ taken ∨ u ∈ places streets := by
  induction streets generalizing taken with
  | nil => exact Or.inl hmem
  | cons street streets ih =>
    rcases ih hmem with hpark | hrest
    · rcases park_eq_or taken street with ⟨heq, -⟩ | ⟨before, w, after, hsplit, -, -, heq⟩
      · rw [heq] at hpark
        exact Or.inl hpark
      · rw [heq, mem_append, mem_singleton] at hpark
        rcases hpark with hold | rfl
        · exact Or.inl hold
        · right
          rw [mem_places]
          exact ⟨street, mem_cons_self, by simp [hsplit]⟩
    · right
      rw [mem_places] at hrest ⊢
      obtain ⟨s, hs, hu⟩ := hrest
      exact ⟨s, mem_cons_of_mem _ hs, hu⟩

/-! ## Counting the cars -/

/-- A car that parks above `v` has `v` on its street, so the places taken above `v` are at most as
many as the streets through `v`. -/
theorem countP_parkFrom_le (hbranches : Branches down streets) (v : N) :
    (parkFrom taken streets).countP (fun u => decide (v ∈ down u)) ≤
      taken.countP (fun u => decide (v ∈ down u)) +
        streets.countP (fun street => decide (v ∈ street)) := by
  induction streets generalizing taken with
  | nil => exact Nat.le_add_right _ _
  | cons street streets ih =>
    have hrest : Branches down streets := fun s hs => hbranches s (mem_cons_of_mem _ hs)
    have hle : (parkFrom (park taken street) streets).countP (fun u => decide (v ∈ down u)) ≤ _ :=
      ih hrest
    have hone : (park taken street).countP (fun u => decide (v ∈ down u)) ≤
        taken.countP (fun u => decide (v ∈ down u)) + if v ∈ street then 1 else 0 := by
      rcases park_eq_or taken street with ⟨heq, -⟩ | ⟨before, u, after, hsplit, -, -, heq⟩
      · rw [heq]
        omega
      · have hdown := hbranches street mem_cons_self before u after hsplit
        rw [heq, countP_append, countP_singleton, hdown]
        by_cases hv : v ∈ u :: after
        · have hstreet : v ∈ street := by
            rw [hsplit]
            exact mem_append_right _ hv
          simp [hv, hstreet]
        · simp [hv]
    have hstep : parkFrom taken (street :: streets) = parkFrom (park taken street) streets := rfl
    rw [hstep, countP_cons]
    simp only [decide_eq_true_eq]
    omega

/-- While `v` is free, every car whose street goes through `v` parks above it. -/
theorem countP_le_of_free (hbranches : Branches down streets) (hfree : v ∉ parkFrom taken streets) :
    taken.countP (fun u => decide (v ∈ down u)) +
        streets.countP (fun street => decide (v ∈ street)) ≤
      (parkFrom taken streets).countP (fun u => decide (v ∈ down u)) := by
  induction streets generalizing taken with
  | nil => exact Nat.le_refl _
  | cons street streets ih =>
    have hrest : Branches down streets := fun s hs => hbranches s (mem_cons_of_mem _ hs)
    have hstep : parkFrom taken (street :: streets) = parkFrom (park taken street) streets := rfl
    rw [hstep] at hfree ⊢
    have hle := ih hrest hfree
    have hpark : v ∉ park taken street := fun hmem => hfree (subset_parkFrom _ _ hmem)
    have hone : taken.countP (fun u => decide (v ∈ down u)) + (if v ∈ street then 1 else 0) ≤
        (park taken street).countP (fun u => decide (v ∈ down u)) := by
      rcases park_eq_or taken street with ⟨heq, hall⟩ | ⟨before, u, after, hsplit, -, hbefore, heq⟩
      · -- the whole street is taken, so `v` is not on it
        have hnot : v ∉ street := fun hv => hpark (subset_park _ _ (hall v hv))
        simp [heq, hnot]
      · have hdown := hbranches street mem_cons_self before u after hsplit
        have hnot : v ∉ before := fun hv => hpark (subset_park _ _ (hbefore v hv))
        rw [heq, countP_append, countP_singleton, hdown]
        by_cases hv : v ∈ u :: after
        · simp only [hv, decide_true, if_true]
          split_ifs <;> omega
        · have hstreet : v ∉ street := by
            rw [hsplit, mem_append, not_or]
            exact ⟨hnot, hv⟩
          simp [hstreet]
    rw [countP_cons]
    simp only [decide_eq_true_eq]
    omega

/-! ## All the places -/

theorem mem_down (hbranches : Branches down streets) (hv : v ∈ places streets) : v ∈ down v := by
  obtain ⟨street, hstreet, hmem⟩ := mem_places.mp hv
  obtain ⟨before, after, hsplit⟩ := append_of_mem hmem
  rw [hbranches street hstreet before v after hsplit]
  exact mem_cons_self

/-- The cars take all the places of their streets exactly when enough of them go through each. -/
theorem forall_mem_parkAll_iff (hbranches : Branches down streets) :
    (∀ v ∈ places streets, v ∈ parkAll streets) ↔ Enough down streets := by
  have hnodup : (parkAll streets).Nodup := nodup_parkFrom nodup_nil streets
  constructor
  · intro hall v _
    have hsub : (places streets).Subperm (parkAll streets) :=
      (nodup_dedup _).subperm fun u hu => hall u hu
    have hle := @countP_parkFrom_le N _ down [] streets hbranches v
    rw [countP_nil, Nat.zero_add] at hle
    exact (hsub.countP_le _).trans hle
  · intro henough v hv
    by_contra hfree
    have hle := @countP_le_of_free N _ down [] streets v hbranches hfree
    rw [countP_nil, Nat.zero_add] at hle
    -- the places taken and `v` are different places of the streets
    have hsub : (parkAll streets ++ [v]).Subperm (places streets) := by
      apply Nodup.subperm
      · rw [← concat_eq_append]
        exact hnodup.concat hfree
      · intro u hu
        rw [mem_append, mem_singleton] at hu
        rcases hu with hu | rfl
        · have hplace := mem_parkFrom hu
          simpa using hplace
        · exact hv
    have hcount := hsub.countP_le fun u => decide (v ∈ down u)
    rw [countP_append, countP_singleton, if_pos] at hcount
    · have hbound := henough v hv
      have hparked : (parkFrom [] streets).countP (fun u => decide (v ∈ down u)) =
          (parkAll streets).countP (fun u => decide (v ∈ down u)) := rfl
      omega
    · simpa using mem_down hbranches hv

/-- Marks made one by one are those of the cars, whatever is marked twice. -/
theorem park_congr {taken' : List N} (h : ∀ u, u ∈ taken ↔ u ∈ taken') (street : List N) (u : N) :
    u ∈ park taken street ↔ u ∈ park taken' street := by
  have hfind : (street.find? fun u => decide (u ∉ taken)) =
      street.find? fun u => decide (u ∉ taken') := by
    congr 1
    funext w
    simp [h w]
  unfold park
  rw [hfind]
  cases street.find? fun u => decide (u ∉ taken') with
  | none => exact h u
  | some w => simp [h u]

end Parking
