import Elm.Io.Swallow
import Elm.Lib.Cursor
import Elm.Lib.Lines
import Elm.Strings.Replace

/-!
# `Input::LineIter`

`scanLine` of `src/io_Input.cpp` and the iterator of `include/elm/io/Input.h` over the lines of an input that does
not fail.  The iterator asks the input for its end before it scans a line, and the input only knows its end when a
scan has met it: after a last newline, one more line is scanned, which is empty.
-/

namespace Elm.Io.Swallow

open Elm.Strings Lines List

/-- The character `'\n'`. -/
def newline : UInt8 := 10

/-- A turn of the loop of `scanLine`: the characters of the buffer, the character that was read, and the input. -/
def lineTurn (st : List UInt8 × Int × Input) : (List UInt8 × Int × Input) ⊕ (List UInt8 × Input) :=
  let (buf, chr, s) := st
  if chr ≥ 0 then
    let buf := buf ++ [UInt8.ofNat chr.toNat]
    if chr = code newline then .inr (buf, s) else .inl (buf, s.get)
  else .inr (buf, s)

/-- `scanLine`; the loop reads each character of the stream once at most. -/
def Input.scanLine (s : Input) : Option (Text × Input) :=
  (Loop.run lineTurn (s.strm.length + 3) ([], s.get)).map fun (buf, s) => (Text.toString buf, s)

/-- `LineIter`. -/
structure LineIter where
  input : Input
  e : Bool
  l : Text

namespace LineIter

/-- `next`. -/
def next (it : LineIter) : Option LineIter :=
  if it.input.ended then some { it with e := true }
  else it.input.scanLine.map fun (l, input) => { it with input, l }

/-- The constructor; `l` is the empty string. -/
def start (input : Input) : Option LineIter := next { input, e := false, l := Text.toString [] }

/-- A loop over `lines()`. -/
def cursor : Cursor LineIter (List UInt8) := { ended := LineIter.e, item := fun it => it.l.chars, next }

end LineIter

/-! ## One line -/

section ScanLine

variable {l strm buf : List UInt8} {ended : Bool} {fuel : Nat}

theorem get_cons (byte : UInt8) : Input.get ⟨byte :: strm, -1, ended⟩ = (code byte, ⟨strm, -1, ended⟩) := rfl

theorem get_nil : Input.get ⟨[], -1, ended⟩ = (ENDED, ⟨[], -1, true⟩) := rfl

theorem ofNat_code (byte : UInt8) : UInt8.ofNat (code byte).toNat = byte := by
  rw [code, Int.toNat_natCast, UInt8.ofNat_toNat]

theorem code_inj {a b : UInt8} : code a = code b ↔ a = b := by
  rw [code, code, Nat.cast_inj, UInt8.toNat_inj]

theorem lineTurn_cons {byte : UInt8} (hne : byte ≠ newline) (s : Input) :
    lineTurn (buf, code byte, s) = .inl (buf ++ [byte], s.get) := by
  have hpos : code byte ≥ 0 := Int.natCast_nonneg _
  simp [lineTurn, hpos, ofNat_code, code_inj, hne]

theorem lineTurn_newline (s : Input) : lineTurn (buf, code newline, s) = .inr (buf ++ [newline], s) := rfl

theorem lineTurn_ended (s : Input) : lineTurn (buf, ENDED, s) = .inr (buf, s) := rfl

/-- The characters of a line are put in the buffer one after the other. -/
theorem run_lineTurn (hl : newline ∉ l) :
    Loop.run lineTurn (l.length + fuel) (buf, Input.get ⟨l ++ strm, -1, ended⟩) =
      Loop.run lineTurn fuel (buf ++ l, Input.get ⟨strm, -1, ended⟩) := by
  induction l generalizing buf with
  | nil => simp
  | cons byte l ih =>
    obtain ⟨hne, hl'⟩ := not_or.mp (fun hor => hl (mem_cons.mpr hor))
    rw [cons_append, get_cons, length_cons, Nat.add_right_comm,
      Loop.run_succ_inl (lineTurn_cons (Ne.symm hne) _), ih hl', append_assoc, singleton_append]

/-- A line with its newline, which the end of the stream may follow. -/
theorem scanLine_line (hl : newline ∉ l) : Input.scanLine ⟨l ++ newline :: strm, -1, ended⟩ =
    some (Text.toString (l ++ [newline]), ⟨strm, -1, ended⟩) := by
  have hfuel : (l ++ newline :: strm).length + 3 = l.length + (strm.length + 3 + 1) := by
    rw [length_append, length_cons]
    omega
  rw [Input.scanLine, hfuel, run_lineTurn hl, get_cons, Loop.run_succ_inr (lineTurn_newline _)]
  rfl

/-- A line that the end of the stream closes. -/
theorem scanLine_last (hl : newline ∉ l) :
    Input.scanLine ⟨l, -1, ended⟩ = some (Text.toString l, ⟨[], -1, true⟩) := by
  have hrun : Loop.run lineTurn (l.length + 3) ([], Input.get ⟨l ++ [], -1, ended⟩) = _ := run_lineTurn hl
  rw [append_nil, get_nil, Loop.run_succ_inr (lineTurn_ended _)] at hrun
  rw [Input.scanLine, hrun]
  rfl

end ScanLine

/-! ## The items -/

/-- An input that has the text to give. -/
def Input.ofText (text : List UInt8) : Input := ⟨text, -1, false⟩

namespace LineIter

/-- The characters that a string of the library has, of those that are put in it. -/
def kept (line : List UInt8) : List UInt8 := line.take (line.length % 2 ^ 16)

theorem next_of_scanLine {s s' : Input} {l l' : Text} (hended : s.ended = false)
    (hscan : s.scanLine = some (l', s')) : next ⟨s, false, l⟩ = some ⟨s', false, l'⟩ := by
  rw [next, if_neg (by rw [hended]; decide), hscan, Option.map_some]

/-- The items are all the pieces of the text between newlines, the last one too when it is empty. -/
theorem visits_pieces (text : List UInt8) : ∀ l, ∃ it, next ⟨Input.ofText text, false, l⟩ = some it ∧
    cursor.Visits it ((pieces newline text).map kept) := by
  induction text using lines_induction (d := newline) with
  | last line hline =>
    intro l
    have hscan : Input.scanLine ⟨line, -1, false⟩ = _ := scanLine_last hline
    refine ⟨⟨⟨[], -1, true⟩, false, Text.toString line⟩, next_of_scanLine rfl hscan, ?_⟩
    have hend : next ⟨⟨[], -1, true⟩, false, Text.toString line⟩ =
        some ⟨⟨[], -1, true⟩, true, Text.toString line⟩ := by rw [next, if_pos rfl]
    rw [pieces_of_not_mem hline]
    exact .turn rfl (Text.toString_chars line) hend (.done rfl)
  | line line text hline ih =>
    intro l
    have hscan : Input.scanLine ⟨line ++ newline :: text, -1, false⟩ = _ := scanLine_line hline
    obtain ⟨it, hnext, hvisits⟩ := ih (Text.toString (line ++ [newline]))
    refine ⟨⟨Input.ofText text, false, Text.toString (line ++ [newline])⟩, next_of_scanLine rfl hscan, ?_⟩
    rw [pieces_append_cons hline]
    exact .turn rfl (Text.toString_chars _) hnext hvisits

/-- What the items of a text have to be. -/
structure LineByLine (text : List UInt8) (items : List (List UInt8)) : Prop where
  joined : items.flatten = text
  closed : ∀ x ∈ items.dropLast, ∃ l, newline ∉ l ∧ x = l ++ [newline]
  nonempty : [] ∉ items
  length : items.length =
    text.count newline + if text ≠ [] ∧ text.getLast? ≠ some newline then 1 else 0

/-- The loop over the lines of a text ends, and its items are right. -/
def Iterates (text : List UInt8) : Prop :=
  ∃ it items, start (Input.ofText text) = some it ∧ cursor.Visits it items ∧ LineByLine text items

/-- A list of pieces loses characters unless each of them is short. -/
theorem flatten_kept {ls : List (List UInt8)} (h : (ls.map kept).flatten = ls.flatten) :
    ∀ l ∈ ls, l.length < 2 ^ 16 := by
  have hle : ∀ l : List UInt8, (kept l).length ≤ l.length := fun l => length_take_le' _ _
  induction ls with
  | nil => exact fun l hl => absurd hl not_mem_nil
  | cons l ls ih =>
    have hlen := congrArg List.length h
    have hrest : ((ls.map kept).flatten).length ≤ ls.flatten.length := by
      rw [length_flatten, length_flatten, map_map]
      exact sum_le_sum fun x _ => hle x
    rw [map_cons, flatten_cons, flatten_cons] at h
    rw [map_cons, flatten_cons, flatten_cons, length_append, length_append] at hlen
    have hsame : (kept l).length = l.length := by
      have hle' := hle l
      omega
    obtain ⟨-, hls⟩ := append_inj h hsame
    intro x hx
    rcases mem_cons.mp hx with rfl | hx
    · rw [kept, length_take] at hsame
      omega
    · exact ih hls x hx

theorem kept_of_lt {l : List UInt8} (h : l.length < 2 ^ 16) : kept l = l := by
  rw [kept, Nat.mod_eq_of_lt h, take_length]

/-- The pieces of a text are its lines when the last one is not empty. -/
theorem lineByLine_pieces {text : List UInt8} (hnonempty : [] ∉ pieces newline text) :
    LineByLine text (pieces newline text) := by
  have hclosed := fun hor => hnonempty (nil_mem_pieces_iff.mpr hor)
  refine ⟨flatten_pieces _ _, fun x hx => closed_of_mem_dropLast hx, hnonempty, ?_⟩
  rw [length_pieces, if_pos (not_or.mp hclosed)]

/-- The lines of a text are iterated over as they should be when the text has a last line that no newline ends, and
each of its lines is short enough for a string. -/
theorem iterates_iff (text : List UInt8) : Iterates text ↔
    text ≠ [] ∧ text.getLast? ≠ some newline ∧ ∀ l ∈ pieces newline text, l.length < 2 ^ 16 := by
  obtain ⟨it, hstart, hvisits⟩ := visits_pieces text (Text.toString [])
  constructor
  · rintro ⟨it', items, hstart', hvisits', hright⟩
    obtain rfl := Option.some.inj (hstart.symm.trans hstart')
    obtain rfl := hvisits.unique hvisits'
    have hshort : ∀ l ∈ pieces newline text, l.length < 2 ^ 16 :=
      flatten_kept (hright.joined.trans (flatten_pieces newline text).symm)
    -- an empty piece is an empty item
    have hclosed : ¬ (text = [] ∨ text.getLast? = some newline) := fun hor =>
      hright.nonempty (mem_map.mpr ⟨[], nil_mem_pieces_iff.mpr hor, rfl⟩)
    exact ⟨fun hnil => hclosed (Or.inl hnil), fun hlast => hclosed (Or.inr hlast), hshort⟩
  · rintro ⟨hnil, hlast, hshort⟩
    have hsame : (pieces newline text).map kept = pieces newline text :=
      (map_congr_left fun l hl => kept_of_lt (hshort l hl)).trans (map_id' _)
    refine ⟨it, _, hstart, hvisits, ?_⟩
    rw [hsame]
    exact lineByLine_pieces fun hmem => not_or.mpr ⟨hnil, hlast⟩ (nil_mem_pieces_iff.mp hmem)

/-- A line with its newline, and nothing after it. -/
theorem not_iterates : ¬ Iterates [97, newline] := by
  rw [iterates_iff]
  exact fun h => h.2.1 rfl

end LineIter

end Elm.Io.Swallow
