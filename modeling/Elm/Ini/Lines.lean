import Elm.Io.LineIter
import Mathlib.Data.List.DropRight

/-!
# The lines of an INI file

What the text of an INI file means, without the program that reads it.  A line loses its line ends, and goes on with
the next line of the text as long as it ends with a backslash.  A line is empty, a comment, a section header, a key
with its value, or it is wrong.
-/

namespace Elm.Ini

open Io.Swallow Lines List

/-- The characters that end a line. -/
def isLineEnd (c : UInt8) : Bool := c = newline || c = 13

/-- The character that a continued line ends with. -/
def backslash : UInt8 := 92

/-! ## Lines that are continued -/

/-- A line without its line ends. -/
def strip (line : List UInt8) : List UInt8 := line.rdropWhile isLineEnd

/-- The next line of the text belongs to this one. -/
def Continued (line : List UInt8) : Prop := line.getLast? = some backslash

instance (line : List UInt8) : Decidable (Continued line) := inferInstanceAs (Decidable (_ = _))

theorem strip_initial (line : List UInt8) : strip line <+: line := rdropWhile_prefix _ _

theorem length_strip_le (line : List UInt8) : (strip line).length ≤ line.length := (strip_initial line).length_le

theorem Continued.ne_nil {line : List UInt8} (h : Continued line) : line ≠ [] := by
  rintro rfl
  cases h

/-- A line that goes on has lost its backslash. -/
theorem length_dropLast_lt {line : List UInt8} (h : Continued (strip line)) :
    (strip line).dropLast.length < line.length := by
  have hpos := length_pos_iff.mpr h.ne_nil
  have hle := length_strip_le line
  rw [length_dropLast]
  omega

/-- The lines that start with `acc` and go on with the pieces of a text.  After the last piece, the text goes on with
empty ones. -/
def lines (acc : List UInt8) : List (List UInt8) → List (List UInt8)
  | [] =>
    if acc = [] then []
    else if Continued (strip acc) then lines (strip acc).dropLast []
    else [strip acc]
  | p :: ps =>
    if Continued (strip (acc ++ p)) then lines (strip (acc ++ p)).dropLast ps
    else strip (acc ++ p) :: lines [] ps
termination_by ps => (ps.length, acc.length)
decreasing_by
  · exact Prod.Lex.right _ (length_dropLast_lt (by assumption))
  · exact Prod.Lex.left _ _ (Nat.lt_succ_self _)
  · exact Prod.Lex.left _ _ (Nat.lt_succ_self _)

/-- The texts that `lines` strips, but at the end. -/
def drafts (acc : List UInt8) : List (List UInt8) → List (List UInt8)
  | [] => []
  | p :: ps =>
    (acc ++ p) ::
      if Continued (strip (acc ++ p)) then drafts (strip (acc ++ p)).dropLast ps else drafts [] ps

/-- The pieces of a text that have characters. -/
def physical (text : List UInt8) : List (List UInt8) := (pieces newline text).filter (· ≠ [])

/-- The lines of a text. -/
def logical (text : List UInt8) : List (List UInt8) := lines [] (physical text)

theorem physical_last {line : List UInt8} (h : newline ∉ line) :
    physical line = if line = [] then [] else [line] := by
  rw [physical, pieces_of_not_mem h]
  split_ifs with hnil
  · rw [hnil]
    rfl
  · rw [filter_cons_of_pos (by simpa using hnil), filter_nil]

theorem physical_line {line : List UInt8} (h : newline ∉ line) (text : List UInt8) :
    physical (line ++ newline :: text) = (line ++ [newline]) :: physical text := by
  rw [physical, pieces_append_cons h, filter_cons_of_pos (by simp), physical]

/-! ## What a line means -/

/-- The lines of an INI file. -/
inductive Line
  | blank
  | comment
  | header (name : List UInt8)
  | pair (key value : List UInt8)
  | malformed
  | garbage
  deriving DecidableEq

/-- The meaning of a line. -/
def classify : List UInt8 → Line
  | [] => .blank
  | c :: line =>
    if c = 59 then .comment
    else if c = 91 then
      if (c :: line).getLast? = some 93 then .header line.dropLast else .malformed
    else if 61 ∈ c :: line then
      .pair ((c :: line).takeWhile (· ≠ 61)) ((c :: line).dropWhile (· ≠ 61)).tail
    else .garbage

/-- The key and the value of a line. -/
theorem exists_split {line : List UInt8} (h : 61 ∈ line) : ∃ key value, line = key ++ 61 :: value ∧ 61 ∉ key ∧
    line.takeWhile (· ≠ 61) = key ∧ (line.dropWhile (· ≠ 61)).tail = value := by
  obtain ⟨key, value, rfl, hkey⟩ := eq_append_cons_of_mem h
  obtain ⟨htake, hdrop⟩ := Occurrence.takeWhile_ne hkey value
  exact ⟨key, value, rfl, hkey, htake, by rw [hdrop, tail_cons]⟩

/-- The lines that are rejected. -/
def Line.Wrong (l : Line) : Prop := l = .malformed ∨ l = .garbage

instance (l : Line) : Decidable l.Wrong := inferInstanceAs (Decidable (_ ∨ _))

/-- The value that is written for a key in a section, by the last of the lines that write one; `cur` is the section
in which the lines start. -/
def written (name key : List UInt8) : List UInt8 → List (List UInt8) → Option (List UInt8)
  | _, [] => none
  | cur, l :: ls =>
    match classify l with
    | .header n => written name key n ls
    | .pair k v => (written name key cur ls).or (if cur = name ∧ k = key then some v else none)
    | _ => written name key cur ls

/-- A section of the lines; the lines before the first header are in a section without name. -/
def IsSection (name : List UInt8) (ls : List (List UInt8)) : Prop := name = [] ∨ ∃ l ∈ ls, classify l = .header name

/-- No line is wrong. -/
def WellFormed (ls : List (List UInt8)) : Prop := ∀ l ∈ ls, ¬ (classify l).Wrong

/-- No line is empty, before the first one that is wrong. -/
def NoBlank (ls : List (List UInt8)) : Prop := [] ∉ ls.takeWhile fun l => ¬ (classify l).Wrong

/-- No value is written before a header of its section, unless it is written again after it. -/
def Kept (ls : List (List UInt8)) : Prop :=
  ∀ before h after name key v, ls = before ++ h :: after → classify h = .header name →
    written name key [] before = some v → v ≠ [] → written name key name after ≠ none

theorem noBlank_cons {l : List UInt8} {ls : List (List UInt8)} :
    NoBlank (l :: ls) ↔ (classify l).Wrong ∨ (l ≠ [] ∧ NoBlank ls) := by
  unfold NoBlank
  by_cases hwrong : (classify l).Wrong
  · rw [takeWhile_cons_of_neg (by simpa using hwrong)]
    exact iff_of_true not_mem_nil (Or.inl hwrong)
  · rw [takeWhile_cons_of_pos (by simpa using hwrong), mem_cons, not_or, or_iff_right hwrong, ne_comm]

theorem wellFormed_cons {l : List UInt8} {ls : List (List UInt8)} :
    WellFormed (l :: ls) ↔ ¬ (classify l).Wrong ∧ WellFormed ls := forall_mem_cons

/-- Nothing is written in a section without a header. -/
theorem written_eq_none {name key : List UInt8} {ls : List (List UInt8)} (hls : ∀ l ∈ ls, classify l ≠ .header name)
    {cur : List UInt8} (hcur : cur ≠ name) : written name key cur ls = none := by
  induction ls generalizing cur with
  | nil => rfl
  | cons l ls ih =>
    have hrest := @ih fun l' hl' => hls l' (mem_cons_of_mem l hl')
    rw [written]
    cases hline : classify l with
    | header n => exact hrest fun heq => hls l mem_cons_self (heq ▸ hline)
    | pair k v => simp only [hrest hcur, if_neg fun h => hcur (And.left h), Option.or_none]
    | blank => exact hrest hcur
    | comment => exact hrest hcur
    | malformed => exact hrest hcur
    | garbage => exact hrest hcur

/-- What is written before a header and after it. -/
theorem written_append {name key n h : List UInt8} (hh : classify h = .header n) (after : List (List UInt8)) :
    ∀ (cur : List UInt8) (before : List (List UInt8)), written name key cur (before ++ h :: after) =
      (written name key n after).or (written name key cur before) := by
  intro cur before
  induction before generalizing cur with
  | nil => rw [nil_append, written, written, hh, Option.or_none]
  | cons l before ih =>
    rw [cons_append, written, written]
    cases classify l with
    | header n' => exact ih n'
    | pair k v => simp only [ih cur, Option.or_assoc]
    | blank => exact ih cur
    | comment => exact ih cur
    | malformed => exact ih cur
    | garbage => exact ih cur

end Elm.Ini
