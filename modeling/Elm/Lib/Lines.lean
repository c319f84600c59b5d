import Mathlib.Tactic

/-!
# Lines

A text cut after each occurrence of a separator.  Each piece but the last ends with its only separator; the last one
is empty when the text is empty or ends with a separator.
-/

namespace Lines

open List

variable {α : Type*} {d : α}

/-- A text is a last piece, or a piece that a separator ends before another text. -/
@[elab_as_elim]
theorem lines_induction {motive : List α → Prop} (last : ∀ l, d ∉ l → motive l)
    (line : ∀ l text, d ∉ l → motive text → motive (l ++ d :: text)) (text : List α) : motive text := by
  generalize hn : text.length = n
  induction n using Nat.strong_induction_on generalizing text with
  | _ n ih =>
    by_cases hmem : d ∈ text
    · obtain ⟨l, rest, rfl, hl⟩ := eq_append_cons_of_mem hmem
      have hlt : rest.length < n := by
        rw [← hn, length_append, length_cons]
        omega
      exact line l rest hl (ih rest.length hlt rest rfl)
    · exact last text hmem

variable [DecidableEq α]

/-- The pieces of a text: each one but the last ends with the separator `d`. -/
def pieces (d : α) : List α → List (List α)
  | [] => [[]]
  | c :: text =>
    if c = d then [c] :: pieces d text
    else match pieces d text with
      | [] => [[c]]
      | l :: ls => (c :: l) :: ls

theorem pieces_of_not_mem {l : List α} (h : d ∉ l) : pieces d l = [l] := by
  induction l with
  | nil => rfl
  | cons c l ih =>
    obtain ⟨hc, hl⟩ := not_or.mp (fun hor => h (mem_cons.mpr hor))
    rw [pieces, if_neg (Ne.symm hc), ih hl]

theorem pieces_append_cons {l : List α} (h : d ∉ l) (text : List α) :
    pieces d (l ++ d :: text) = (l ++ [d]) :: pieces d text := by
  induction l with
  | nil => rw [nil_append, pieces, if_pos rfl, nil_append]
  | cons c l ih =>
    obtain ⟨hc, hl⟩ := not_or.mp (fun hor => h (mem_cons.mpr hor))
    rw [cons_append, pieces, if_neg (Ne.symm hc), ih hl, cons_append]

theorem pieces_ne_nil (d : α) (text : List α) : pieces d text ≠ [] := by
  induction text using lines_induction (d := d) with
  | last l hl =>
    rw [pieces_of_not_mem hl]
    exact cons_ne_nil _ _
  | line l text hl _ =>
    rw [pieces_append_cons hl]
    exact cons_ne_nil _ _

@[simp] theorem flatten_pieces (d : α) (text : List α) : (pieces d text).flatten = text := by
  induction text using lines_induction (d := d) with
  | last l hl => rw [pieces_of_not_mem hl, flatten_singleton]
  | line l text hl ih => rw [pieces_append_cons hl, flatten_cons, ih, append_assoc, singleton_append]

theorem length_pieces (d : α) (text : List α) : (pieces d text).length = text.count d + 1 := by
  induction text using lines_induction (d := d) with
  | last l hl => rw [pieces_of_not_mem hl, length_singleton, count_eq_zero.mpr hl]
  | line l text hl ih =>
    rw [pieces_append_cons hl, length_cons, ih, count_append, count_eq_zero.mpr hl,
      count_cons_self, Nat.zero_add]

/-- The pieces but the last one are closed. -/
theorem closed_of_mem_dropLast {text x : List α} (hx : x ∈ (pieces d text).dropLast) :
    ∃ l, d ∉ l ∧ x = l ++ [d] := by
  induction text using lines_induction (d := d) with
  | last l hl =>
    rw [pieces_of_not_mem hl] at hx
    cases hx
  | line l text hl ih =>
    rw [pieces_append_cons hl, dropLast_cons_of_ne_nil (pieces_ne_nil d text), mem_cons] at hx
    rcases hx with rfl | hx
    · exact ⟨l, hl, rfl⟩
    · exact ih hx

/-- The last piece is empty when nothing follows the last separator. -/
theorem nil_mem_pieces_iff {text : List α} : [] ∈ pieces d text ↔ text = [] ∨ text.getLast? = some d := by
  induction text using lines_induction (d := d) with
  | last l hl =>
    rw [pieces_of_not_mem hl, mem_singleton]
    constructor
    · rintro rfl
      exact Or.inl rfl
    · rintro (rfl | hlast)
      · rfl
      · exact absurd (mem_of_getLast? hlast) hl
  | line l text hl ih =>
    rw [pieces_append_cons hl, mem_cons, ih, getLast?_append]
    cases text with
    | nil => simp
    | cons c text => simp [getLast?_cons]

end Lines
