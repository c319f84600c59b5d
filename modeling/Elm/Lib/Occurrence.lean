import Mathlib.Tactic

/-!
# Occurrences of a pattern in a list

An occurrence is inside the text.  `Cuts` gives the parts of a text between its leftmost occurrences that do not
overlap: they are unique, and joined with the pattern they give the text back.
-/

namespace Elm.Occurrence

open List Option

variable {α : Type*} {pat text : List α} {i j pos : Nat}

/-- The pattern is in the text at the index `i`. -/
def OccursAt (pat text : List α) (i : Nat) : Prop := pat <+: text.drop i

instance [DecidableEq α] (pat text : List α) (i : Nat) : Decidable (OccursAt pat text i) :=
  inferInstanceAs (Decidable (pat <+: text.drop i))

theorem occursAt_iff : OccursAt pat text i ↔ (text.drop i).take pat.length = pat := by
  unfold OccursAt
  rw [prefix_iff_eq_take]
  exact eq_comm

theorem OccursAt.le (h : OccursAt pat text i) (hpat : pat ≠ []) : i + pat.length ≤ text.length := by
  have hle := h.length_le
  have hpos := length_pos_iff.mpr hpat
  rw [length_drop] at hle
  omega

theorem occursAt_drop : OccursAt pat (text.drop j) i ↔ OccursAt pat text (j + i) := by
  unfold OccursAt
  rw [drop_drop]

/-- A list at the first occurrence of an element. -/
theorem takeWhile_ne [DecidableEq α] {x : α} {front : List α} (hfront : x ∉ front) (back : List α) :
    (front ++ x :: back).takeWhile (· ≠ x) = front ∧ (front ++ x :: back).dropWhile (· ≠ x) = x :: back := by
  have hall : ∀ y ∈ front, decide (y ≠ x) = true := fun y hy => decide_eq_true (ne_of_mem_of_not_mem hy hfront)
  constructor
  · rw [takeWhile_append_of_pos hall, takeWhile_cons_of_neg (by simp), append_nil]
  · rw [dropWhile_append_of_pos hall, dropWhile_cons_of_neg (by simp)]

/-- No occurrence from the index `pos` on. -/
def Absent (pat text : List α) (pos : Nat) : Prop := ∀ j, pos ≤ j → ¬ OccursAt pat text j

/-- The first occurrence from the index `pos` on. -/
structure First (pat text : List α) (pos i : Nat) : Prop where
  le : pos ≤ i
  occurs : OccursAt pat text i
  least : ∀ j, pos ≤ j → j < i → ¬ OccursAt pat text j

/-- The last occurrence. -/
structure Last (pat text : List α) (i : Nat) : Prop where
  occurs : OccursAt pat text i
  greatest : ∀ j, i < j → ¬ OccursAt pat text j

theorem First.unique (h : First pat text pos i) (h' : First pat text pos j) : i = j := by
  rcases Nat.lt_trichotomy i j with hlt | heq | hlt
  · exact absurd h.occurs (h'.least i h.le hlt)
  · exact heq
  · exact absurd h'.occurs (h.least j h'.le hlt)

theorem First.not_absent (h : First pat text pos i) : ¬ Absent pat text pos := fun habsent => habsent i h.le h.occurs

theorem exists_first_or_absent (pat text : List α) (pos : Nat) :
    (∃ i, First pat text pos i) ∨ Absent pat text pos := by
  classical
  by_cases h : ∃ i, pos ≤ i ∧ OccursAt pat text i
  · refine Or.inl ⟨Nat.find h, (Nat.find_spec h).1, (Nat.find_spec h).2, fun j hle hlt hoccurs => ?_⟩
    exact Nat.find_min h hlt ⟨hle, hoccurs⟩
  · exact Or.inr fun j hle hoccurs => h ⟨j, hle, hoccurs⟩

/-! ## The parts between occurrences -/

/-- The parts of the text, cut at the leftmost occurrences that do not overlap. -/
inductive Cuts (pat : List α) : List α → List (List α) → Prop
  | last {text : List α} (habsent : Absent pat text 0) : Cuts pat text [text]
  | cut {text : List α} {i : Nat} {parts : List (List α)} (hfirst : First pat text 0 i)
      (hrest : Cuts pat (text.drop (i + pat.length)) parts) : Cuts pat text (text.take i :: parts)

theorem Cuts.ne_nil {parts : List (List α)} (h : Cuts pat text parts) : parts ≠ [] := by
  cases h <;> exact cons_ne_nil _ _

theorem Cuts.unique {parts parts' : List (List α)} (h : Cuts pat text parts) (h' : Cuts pat text parts') :
    parts = parts' := by
  induction h generalizing parts' with
  | last habsent =>
    cases h' with
    | last => rfl
    | cut hfirst => exact absurd habsent hfirst.not_absent
  | cut hfirst _ ih =>
    cases h' with
    | last habsent => exact absurd habsent hfirst.not_absent
    | cut hfirst' hrest' =>
      obtain rfl := hfirst.unique hfirst'
      rw [ih hrest']

theorem exists_cuts (hpat : pat ≠ []) (text : List α) : ∃ parts, Cuts pat text parts := by
  induction hlen : text.length using Nat.strong_induction_on generalizing text with
  | _ n ih =>
    rcases exists_first_or_absent pat text 0 with ⟨i, hfirst⟩ | habsent
    · have hle := hfirst.occurs.le hpat
      have hpos := length_pos_iff.mpr hpat
      obtain ⟨parts, hrest⟩ := ih (text.drop (i + pat.length)).length (by rw [length_drop]; omega) _ rfl
      exact ⟨_, .cut hfirst hrest⟩
    · exact ⟨_, .last habsent⟩

/-- What the parts leave is the occurrences. -/
theorem Cuts.length {parts : List (List α)} (h : Cuts pat text parts) (hpat : pat ≠ []) :
    (parts.map List.length).sum + (parts.length - 1) * pat.length = text.length := by
  induction h with
  | last => simp
  | @cut text i parts hfirst hrest ih =>
    have hle := hfirst.occurs.le hpat
    have hpos := length_pos_iff.mpr hrest.ne_nil
    rw [length_drop] at ih
    obtain ⟨k, hk⟩ := Nat.exists_eq_succ_of_ne_zero (Nat.pos_iff_ne_zero.mp hpos)
    rw [hk, Nat.succ_sub_one] at ih
    rw [map_cons, sum_cons, length_take, length_cons, hk, Nat.add_sub_cancel, Nat.succ_mul]
    omega

/-- The last part is not longer than the text. -/
theorem Cuts.getLastD_length_le {parts : List (List α)} (h : Cuts pat text parts) :
    (parts.getLastD []).length ≤ text.length := by
  induction h with
  | last => exact Nat.le_refl _
  | @cut text i parts _ hrest ih =>
    obtain ⟨part, parts, rfl⟩ := exists_cons_of_ne_nil hrest.ne_nil
    rw [length_drop] at ih
    exact ih.trans (Nat.sub_le _ _)

/-! ## Candidates -/

section Scan

variable {ι : Type*} {f : ι → Option Bool} {js : List ι}

/-- The first candidate that passes a test; there is no result if the test of a candidate has none. -/
def scan (f : ι → Option Bool) : List ι → Option (Option ι)
  | [] => some none
  | j :: js => (f j).bind fun found => if found then some (some j) else scan f js

theorem scan_found {j : ι} (h : scan f js = some (some j)) : j ∈ js ∧ f j = some true := by
  induction js with
  | nil => cases h
  | cons x js ih =>
    rw [scan] at h
    obtain ⟨found, hx, h⟩ := bind_eq_some_iff.mp h
    split_ifs at h with hfound
    · obtain rfl := some.inj (some.inj h)
      rw [hx, hfound]
      exact ⟨mem_cons_self, rfl⟩
    · obtain ⟨hmem, hj⟩ := ih h
      exact ⟨mem_cons_of_mem x hmem, hj⟩

theorem scan_none (h : scan f js = some none) : ∀ j ∈ js, f j = some false := by
  induction js with
  | nil => simp
  | cons x js ih =>
    rw [scan] at h
    obtain ⟨found, hx, h⟩ := bind_eq_some_iff.mp h
    split_ifs at h with hfound
    · exact absurd (some.inj h) (some_ne_none x)
    · rw [Bool.not_eq_true] at hfound
      rw [hfound] at hx
      exact forall_mem_cons.mpr ⟨hx, ih h⟩

/-- The result that the candidates in the order `r` should give. -/
def Leads (r : ι → ι → Prop) (good : ι → Prop) (js : List ι) (res : Option ι) : Prop :=
  (∃ j ∈ js, res = some j ∧ good j ∧ ∀ k ∈ js, r k j → ¬ good k) ∨ (res = none ∧ ∀ k ∈ js, ¬ good k)

section Head

variable {r : ι → ι → Prop} {good : ι → Prop} {x : ι}

/-- A good head, which is before the others, is what should be found. -/
theorem leads_of_good (hfirst : ∀ k ∈ x :: js, ¬ r k x) (hothers : ∀ j ∈ js, r x j) (hgood : good x)
    {res : Option ι} : Leads r good (x :: js) res ↔ res = some x := by
  constructor
  · rintro (⟨j, hj, rfl, -, hall⟩ | ⟨-, hnone⟩)
    · rcases mem_cons.mp hj with rfl | hmem
      · rfl
      · exact absurd hgood (hall x mem_cons_self (hothers j hmem))
    · exact absurd hgood (hnone x mem_cons_self)
  · rintro rfl
    exact Or.inl ⟨x, mem_cons_self, rfl, hgood, fun k hk hkx => absurd hkx (hfirst k hk)⟩

theorem forall_before_cons (hgood : ¬ good x) (j : ι) :
    (∀ k ∈ x :: js, r k j → ¬ good k) ↔ ∀ k ∈ js, r k j → ¬ good k := by
  rw [forall_mem_cons]
  exact and_iff_right fun _ => hgood

/-- A head that is not good changes nothing. -/
theorem leads_of_not_good (hgood : ¬ good x) {res : Option ι} :
    Leads r good (x :: js) res ↔ Leads r good js res := by
  constructor
  · rintro (⟨j, hj, rfl, hj', hall⟩ | ⟨rfl, hnone⟩)
    · rcases mem_cons.mp hj with rfl | hmem
      · exact absurd hj' hgood
      · exact Or.inl ⟨j, hmem, rfl, hj', (forall_before_cons hgood j).mp hall⟩
    · exact Or.inr ⟨rfl, fun k hk => hnone k (mem_cons_of_mem x hk)⟩
  · rintro (⟨j, hj, rfl, hj', hall⟩ | ⟨rfl, hnone⟩)
    · exact Or.inl ⟨j, mem_cons_of_mem x hj, rfl, hj', (forall_before_cons hgood j).mpr hall⟩
    · exact Or.inr ⟨rfl, forall_mem_cons.mpr ⟨hgood, hnone⟩⟩

end Head

/-- The scan gives the first good candidate if and only if the test tells the good ones, up to the first of them. -/
theorem scan_iff {r : ι → ι → Prop} (hasymm : ∀ j k, r j k → ¬ r k j) {good : ι → Prop} [DecidablePred good]
    (hsorted : js.Pairwise r) : (∃ res, scan f js = some res ∧ Leads r good js res) ↔
      ∀ j ∈ js, (∀ k ∈ js, r k j → ¬ good k) → f j = some (decide (good j)) := by
  induction js with
  | nil => exact iff_of_true ⟨none, rfl, Or.inr ⟨rfl, by simp⟩⟩ (by simp)
  | cons x js ih =>
    obtain ⟨hx, hsorted'⟩ := pairwise_cons.mp hsorted
    -- nothing is before the head, and the head is before the others
    have hhead : ∀ k ∈ x :: js, ¬ r k x := by
      rintro k hk hkx
      rcases mem_cons.mp hk with rfl | hmem
      · exact hasymm _ _ hkx hkx
      · exact hasymm _ _ hkx (hx k hmem)
    have hheadFirst : ∀ k ∈ x :: js, r k x → ¬ good k := fun k hk hkx => absurd hkx (hhead k hk)
    rw [scan]
    by_cases hgood : good x
    · simp only [leads_of_good hhead hx hgood, exists_eq_right]
      constructor
      · intro hscan j hj hall
        rcases mem_cons.mp hj with rfl | hmem
        · cases hf : f j with
          | none =>
            rw [hf] at hscan
            cases hscan
          | some found =>
            rw [hf, bind_some] at hscan
            cases found with
            | true => rw [decide_eq_true hgood]
            | false =>
              -- the scan of the others does not find the head
              rw [if_neg Bool.false_ne_true] at hscan
              exact absurd (hx j (scan_found hscan).1) (hhead j mem_cons_self)
        · exact absurd hgood (hall x mem_cons_self (hx j hmem))
      · intro hall
        rw [hall x mem_cons_self hheadFirst, decide_eq_true hgood]
        rfl
    · have hright : (∀ j ∈ x :: js, (∀ k ∈ x :: js, r k j → ¬ good k) → f j = some (decide (good j))) ↔
          f x = some false ∧ ∀ j ∈ js, (∀ k ∈ js, r k j → ¬ good k) → f j = some (decide (good j)) := by
        rw [forall_mem_cons, decide_eq_false hgood]
        exact and_congr ⟨fun h => h hheadFirst, fun h _ => h⟩
          (forall₂_congr fun j _ => by rw [forall_before_cons hgood j])
      simp only [leads_of_not_good hgood]
      rw [hright]
      cases hf : f x with
      | none => simp
      | some found =>
        cases found with
        | true =>
          -- the head is found, but should not be
          refine iff_of_false ?_ fun hall => by cases hall.1
          rintro ⟨res, hres, hlead⟩
          rw [bind_some, if_pos rfl] at hres
          obtain rfl := some.inj hres
          rcases hlead with ⟨j, hj, heq, hj', -⟩ | ⟨hnone, -⟩
          · obtain rfl := some.inj heq
            exact hgood hj'
          · cases hnone
        | false =>
          rw [bind_some, if_neg Bool.false_ne_true, ih hsorted']
          exact (and_iff_right rfl).symm

end Scan

end Elm.Occurrence
