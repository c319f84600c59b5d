import Elm.Io.Input
import Mathlib.Data.List.AList

/-!
# `io::VarExpander`

The expander of variables of `include/elm/io/VarExpander.h` and `src/io_VarExpander.cpp`.  A string is the
list of its characters, the map of the values that are known is a finite map, and the output stream accepts
all that is written; `resolve` gives the value of a name and whether it may be recorded.  The length of a
`String` has 16 bits: a `StringBuffer` of more characters gives only some of them to its string.

The state is kept from a call to the next one, also after an escape character.
-/

namespace Elm.Io

open List

/-- `state`. -/
inductive ExpanderState
  | copy | esc | «open»
  deriving DecidableEq

/-- `VarExpander`, with the text that its output has received. -/
structure VarExpander where
  esc : Char
  opens : List Char
  close : List Char
  map : AList fun _ : List Char => List Char
  state : ExpanderState
  expected : Char
  name : List Char
  out : List Char

/-- `resolve`: the value of a name and the final value of `record`. -/
abbrev Resolver := List Char → List Char × Bool

namespace VarExpander

/-- The constructor. -/
def new : VarExpander := ⟨'$', "\x7b(".toList, "\x7d)".toList, ∅, .copy, '\x00', [], []⟩

/-- `_out->write`. -/
def emit (s : VarExpander) (text : List Char) : VarExpander := { s with out := s.out ++ text }

/-- The value of a variable, from `map` or from `resolve`. -/
def valueOf (resolve : Resolver) (s : VarExpander) : List Char × VarExpander :=
  let n := StringBuffer.toString s.name
  match s.map.lookup n with
  | some x => (x, s)
  | none =>
    let (x, record) := resolve n
    (x, if record then { s with map := s.map.insert n x } else s)

/-- `write`, of a character. -/
def writeChar (resolve : Resolver) (s : VarExpander) (byte : Char) : VarExpander :=
  match s.state with
  | .copy => if byte = s.esc then { s with state := .esc } else s.emit [byte]
  | .esc =>
    -- the state stays the same after an escape character
    if byte = s.esc then s.emit [s.esc]
    else match s.opens.idxOf? byte with
      | none => { s with state := .copy }.emit [byte]
      | some p => { s with state := .open, name := [], expected := s.close.getD p '\x00' }
  | .open =>
    if byte ≠ s.expected then { s with name := s.name ++ [byte] }
    else
      let (x, s) := s.valueOf resolve
      { s with state := .copy }.emit x

/-- `write`. -/
def write (resolve : Resolver) (s : VarExpander) (buffer : List Char) : VarExpander :=
  buffer.foldl (writeChar resolve) s

/-- `expand`, which writes in a buffer of its own. -/
def expand (resolve : Resolver) (s : VarExpander) (str : List Char) : List Char × VarExpander :=
  let s' := write resolve { s with out := [] } str
  (StringBuffer.toString s'.out, { s' with out := s.out })

end VarExpander

/-! ## The expansion of a text -/

namespace Expansion

/-- The close brace of an open brace. -/
def closing (c : Char) : Option Char :=
  if c = '{' then some '}' else if c = '(' then some ')' else none

/-- What follows the first `c`. -/
def after (c : Char) (text : List Char) : List Char := (text.dropWhile (· ≠ c)).tail

theorem after_length (c : Char) (text : List Char) : (after c text).length ≤ text.length := by
  unfold after
  rw [length_tail]
  exact (Nat.sub_le _ _).trans (dropWhile_sublist _).length_le

/-- The expansion of a text, for the values of the names. -/
def expansion (value : List Char → List Char) : List Char → List Char
  | '$' :: '$' :: text => '$' :: expansion value text
  | '$' :: o :: text =>
    match closing o with
    | some c =>
      if c ∈ text then value (text.takeWhile (· ≠ c)) ++ expansion value (after c text)
      else '$' :: expansion value (o :: text)
    | none => '$' :: expansion value (o :: text)
  | x :: text => x :: expansion value text
  | [] => []
termination_by text => text.length
decreasing_by
  all_goals have := after_length
  all_goals grind

/-! ## The machine -/

/-- What an expander is doing: copying, after an escape character, or in a name that ends at `c`. -/
inductive Mode
  | copy
  | esc
  | name (n : List Char) (c : Char)
  deriving DecidableEq

/-- What a character writes, and what the expander does then. -/
def step (value : List Char → List Char) : Mode → Char → List Char × Mode
  | .copy, x => if x = '$' then ([], .esc) else ([x], .copy)
  | .esc, x =>
    if x = '$' then (['$'], .esc)
    else match closing x with
      | none => ([x], .copy)
      | some c => ([], .name [] c)
  | .name n c, x => if x ≠ c then ([], .name (n ++ [x]) c) else (value (StringBuffer.toString n), .copy)

/-- The text that is written. -/
def written (value : List Char → List Char) : Mode → List Char → List Char
  | _, [] => []
  | m, x :: text => (step value m x).1 ++ written value (step value m x).2 text

/-- What the expander does after a text. -/
def mode (value : List Char → List Char) (m : Mode) (text : List Char) : Mode :=
  text.foldl (fun m x => (step value m x).2) m

variable (value : List Char → List Char)

/-- The texts that are expanded well when `n` escape characters have just been read: one must open a variable
that is closed, with a name that a string can have, two or three must not be followed by an open brace, and
there are no more of them. -/
def fits : Nat → List Char → Bool
  | n, [] => n ≠ 1
  | n, x :: text =>
    if x = '$' then n < 3 && fits (n + 1) text
    else match closing x with
      | none => n ≠ 1 && fits 0 text
      | some c =>
        if n = 0 then fits 0 text
        else if n = 1 ∧ c ∈ text ∧ (text.takeWhile (· ≠ c)).length < 2 ^ 16 then fits 0 (after c text)
        else false
termination_by _ text => text.length
decreasing_by
  all_goals have := after_length
  all_goals grind

/-- What is written after `n` escape characters, with what the first ones have written, against the
expansion. -/
def Agrees (n : Nat) (text : List Char) : Prop :=
  match n with
  | 0 => written value .copy text = expansion value text
  | 1 => written value .esc text = expansion value ('$' :: text)
  | 2 => written value .esc text = expansion value text
  | _ => '$' :: written value .esc text = expansion value ('$' :: text)

/-- The number of escape characters at the start of a text. -/
def lead (text : List Char) : Nat := (text.takeWhile (· = '$')).length

/-- A value that is not taken for something else, and that tells the names that a string cannot have. -/
def mark (name : List Char) : List Char := if name.length < 2 ^ 16 then ['a'] else ['z']

theorem mark_eq (name : List Char) : ∃ x, mark name = [x] ∧ x ≠ '$' := by
  unfold mark
  split_ifs
  · exact ⟨'a', rfl, by decide⟩
  · exact ⟨'z', rfl, by decide⟩

/-- The number of escape characters that count after a text. -/
def leaves (n : Nat) (text : List Char) : Nat :=
  if text = [] then n else if text.getLast? = some '$' then 2 else 0

end Expansion

/-! ## The expander and the machine -/

namespace VarExpander

open Expansion

/-- The value of a name. -/
def values (resolve : Resolver) (name : List Char) : List Char := (resolve name).1

/-- An expander with the usual braces, whose map has values of `resolve`. -/
structure Ready (resolve : Resolver) (s : VarExpander) : Prop where
  esc : s.esc = '$'
  opens : s.opens = ['{', '(']
  close : s.close = ['}', ')']
  known : ∀ n x, s.map.lookup n = some x → x = (resolve n).1

variable {resolve : Resolver} {s : VarExpander}

theorem Ready.valueOf (h : Ready resolve s) :
    ∃ map, s.valueOf resolve = ((resolve (StringBuffer.toString s.name)).1, { s with map }) ∧ Ready resolve { s with map } := by
  unfold VarExpander.valueOf
  simp only
  cases hlookup : s.map.lookup (StringBuffer.toString s.name) with
  | some x =>
    refine ⟨s.map, ?_, h⟩
    rw [h.known _ _ hlookup]
  | none =>
    simp only
    split_ifs
    · refine ⟨_, rfl, h.esc, h.opens, h.close, fun n x hn => ?_⟩
      by_cases hname : n = StringBuffer.toString s.name
      · subst hname
        rw [AList.lookup_insert] at hn
        exact (Option.some.inj hn).symm
      · rw [AList.lookup_insert_ne hname] at hn
        exact h.known n x hn
    · exact ⟨s.map, rfl, h⟩

/-- The expansions of the strings are those of strings. -/
def Short (resolve : Resolver) (strs : List (List Char)) : Prop :=
  ∀ str ∈ strs, (expansion (values resolve) str).length < 2 ^ 16

/-- The text of a new expander that receives a string in pieces. -/
def output (resolve : Resolver) (pieces : List (List Char)) : List Char :=
  (pieces.foldl (write resolve) new).out

end VarExpander

end Elm.Io
