import Elm.Ini.File

/-!
# `ini::File::load`

The reading of an INI file, of `src/ini.cpp`.  The line ends are removed from a line without a look at its length, and
so is the test of a backslash made: in an empty line the byte before its first character is read.
-/

namespace Elm.Strings.Text

open Option

/-- `operator+`: the characters of both strings, in a new buffer. -/
def concat (s t : Text) : Option Text :=
  s.chars.bind fun a => t.chars.map fun b =>
    { buf := 1 :: 0 :: (a ++ b ++ [0]), off := 2, len := (s.len + t.len) % 2 ^ 16 }

/-- `operator[]`, with any index. -/
def nth (s : Text) (index : Int) : Option UInt8 :=
  if 0 ≤ s.off + index then s.buf[(s.off + index).toNat]? else none

end Elm.Strings.Text

namespace Elm.Ini

open Io.Swallow Lines Strings List Option

/-! ## The program -/

/-- `Exception`. -/
structure Exception where
  message : String

/-- The variables with which `load` reads a line; `outside` tells whether a character outside the line was read. -/
structure Reader where
  line : Text
  num : Int
  outside : Bool
  input : Input

namespace Reader

/-- `line[index]`. -/
def look (r : Reader) (index : Int) : Option (UInt8 × Reader) :=
  (r.line.nth index).map fun c =>
    (c, { r with outside := r.outside || decide (index < 0 ∨ r.line.len ≤ index) })

/-- The line without its last character. -/
def shorten (r : Reader) : Reader := { r with line := r.line.substring 0 (r.line.len - 1) }

/-- A turn of the loop that removes the line ends. -/
def stripTurn (r : Reader) : Option (Reader ⊕ Reader) := do
  let (c, r) ← r.look (r.line.len - 1)
  if isLineEnd c then some (.inl r.shorten) else some (.inr r)

/-- A turn of the loop that reads a line; its result tells whether the file is ended. -/
def scanTurn (r : Reader) : Option (Reader ⊕ Reader × Bool) := do
  let (scan, input) ← r.input.scanLine
  let line ← r.line.concat scan
  let r := { r with line, num := r.num + 1, input }
  if r.line.len = 0 then some (.inr (r, true))
  else
    let r ← Loop.attempt stripTurn (r.line.len + 1) r
    let (c, r) ← r.look (r.line.len - 1)
    if c ≠ backslash then some (.inr (r, false)) else some (.inl r.shorten)

/-- The loop that reads a line; each turn but the last takes a character of the file or of the line. -/
def read (r : Reader) : Option (Reader × Bool) := Loop.attempt scanTurn (r.line.len + r.input.strm.length + 1) r

end Reader

/-- The variables of `load`. -/
structure Loader where
  file : File
  sect : Nat
  num : Int
  outside : Bool
  input : Input

/-- What `load` leaves. -/
structure Loaded where
  result : Except Exception File
  outside : Bool

namespace Loader

/-- `continue`, after a line was read. -/
def next (s : Loader) (r : Reader) : Loader := { s with num := r.num, outside := r.outside, input := r.input }

/-- An exception is thrown. -/
def throw (r : Reader) (text : String) : Loader ⊕ Loaded := .inr ⟨.error ⟨toString r.num ++ text⟩, r.outside⟩

/-- What is done with a line. -/
def parse (s : Loader) (r : Reader) : Option (Loader ⊕ Loaded) := do
  if r.line.len = 0 then some (.inl (s.next r))
  else
    let (c, r) ← r.look 0
    if c = 59 then some (.inl (s.next r))
    else if c = 91 then
      let (last, r) ← r.look (r.line.len - 1)
      if last ≠ 93 then some (throw r ": malformed section name")
      else
        let name ← (r.line.substring 1 (r.line.len - 2)).chars
        let (file, sect) ← s.file.putSection name
        some (.inl { s.next r with file, sect })
    else
      let p ← r.line.indexOfChar 61 0
      if p ≥ 0 then
        let key ← (r.line.substring 0 p).chars
        let value ← (r.line.substringFrom (p + 1)).chars
        let file ← s.file.putValue s.sect key value
        some (.inl { s.next r with file })
      else some (throw r ": garbage here")

/-- A turn of the loop of `load`. -/
def turn (s : Loader) : Option (Loader ⊕ Loaded) := do
  let (r, ended) ← Reader.read ⟨Text.toString [], s.num, s.outside, s.input⟩
  if ended then some (.inr ⟨.ok s.file, r.outside⟩) else s.parse r

end Loader

/-- `load`, on a file with a text. -/
def File.load (fuel : Nat) (text : List UInt8) : Option Loaded :=
  File.new.bind fun file => Loop.attempt Loader.turn fuel ⟨file, 0, 1, false, Input.ofText text⟩

/-! ## Strings that are lines -/

/-- The string is a line, in a buffer of its own. -/
structure IsLine (t : Text) (l : List UInt8) : Prop where
  off : t.off = 2
  len : t.len = l.length
  short : l.length < 2 ^ 16
  buf : ∃ rest, t.buf = 1 :: 0 :: (l ++ rest)

namespace IsLine

variable {t : Text} {l : List UInt8}

theorem valid (h : IsLine t l) : t.Valid := by
  obtain ⟨rest, hbuf⟩ := h.buf
  have hoff := h.off
  have hlen := h.len
  have hshort := h.short
  refine ⟨by omega, by omega, ?_⟩
  rw [hbuf]
  simp only [length_cons, length_append]
  omega

theorem view (h : IsLine t l) : t.view = l := by
  obtain ⟨rest, hbuf⟩ := h.buf
  rw [Text.view, h.off, h.len, hbuf]
  exact take_left

/-- A character of the line. -/
theorem nth_eq (h : IsLine t l) {i : Nat} (hi : i < l.length) : t.nth i = l[i]? := by
  obtain ⟨rest, hbuf⟩ := h.buf
  have hoff := h.off
  have hindex : ((t.off : Int) + i).toNat = i + 2 := by omega
  rw [Text.nth, if_pos (by omega), hindex, hbuf, getElem?_cons_succ, getElem?_cons_succ,
    getElem?_append_left hi]

/-- The last character of the line. -/
theorem nth_last (h : IsLine t l) (hl : l ≠ []) : t.nth (t.len - 1) = l.getLast? := by
  have hpos := length_pos_iff.mpr hl
  have hindex : (t.len : Int) - 1 = (l.length - 1 : Nat) := by
    have hlen := h.len
    omega
  rw [hindex, h.nth_eq (by omega), getLast?_eq_getElem?]

/-- Before an empty line, the high byte of the counter of the buffer is read. -/
theorem nth_before (h : IsLine t []) : t.nth (t.len - 1) = some 0 := by
  obtain ⟨rest, hbuf⟩ := h.buf
  have hoff := h.off
  have hlen := h.len
  rw [length_nil] at hlen
  have hindex : ((t.off : Int) + (t.len - 1)).toNat = 1 := by omega
  rw [Text.nth, if_pos (by omega), hindex, hbuf]
  rfl

theorem dropLast (h : IsLine t l) (hl : l ≠ []) : IsLine (t.substring 0 (t.len - 1)) l.dropLast := by
  obtain ⟨rest, hbuf⟩ := h.buf
  have hpos := length_pos_iff.mpr hl
  have hoff := h.off
  have hlen := h.len
  have hshort := h.short
  refine ⟨?_, ?_, ?_, [l.getLast hl] ++ rest, ?_⟩
  · simp only [Text.substring]
    omega
  · simp only [Text.substring, length_dropLast]
    omega
  · rw [length_dropLast]
    omega
  · rw [← append_assoc, dropLast_concat_getLast hl]
    exact hbuf

theorem empty : IsLine (Text.toString []) [] := ⟨rfl, rfl, by decide, [0], rfl⟩

/-- A piece of the text is added to the line. -/
theorem concat (h : IsLine t l) {p : List UInt8} (hshort : (l ++ p).length < 2 ^ 16) :
    ∃ t', t.concat (Text.toString p) = some t' ∧ IsLine t' (l ++ p) := by
  rw [length_append] at hshort
  have hp : (Text.toString p).chars = some p := (Text.toString_chars_iff p).mpr (by omega)
  refine ⟨_, by rw [Text.concat, h.valid.chars, h.view, hp]; rfl, rfl, ?_, ?_, [0], rfl⟩
  · have hlen := h.len
    simp only [Text.toString, length_append]
    omega
  · rw [length_append]
    exact hshort

/-- The characters between the first one and the last one. -/
theorem middle_chars {c : UInt8} (h : IsLine t (c :: l)) (hl : l ≠ []) :
    (t.substring 1 (t.len - 2)).chars = some l.dropLast := by
  obtain ⟨rest, hbuf⟩ := h.buf
  have hpos := length_pos_iff.mpr hl
  have hoff := h.off
  have hlen := h.len
  have hshort := h.short
  rw [length_cons] at hlen hshort
  have hoff' : (t.substring 1 (t.len - 2)).off = 3 := by
    simp only [Text.substring]
    omega
  have hlen' : (t.substring 1 (t.len - 2)).len = l.length - 1 := by
    simp only [Text.substring]
    omega
  have hbuf' : (t.substring 1 (t.len - 2)).buf = 1 :: 0 :: c :: (l ++ rest) := hbuf
  rw [Text.chars, Text.read, hoff', hlen', hbuf', if_pos, dropLast_eq_take, Nat.add_zero]
  · simp only [drop_succ_cons, drop_zero, some.injEq]
    rw [take_append_of_le_length (Nat.sub_le _ _)]
  · simp only [length_cons, length_append]
    omega

/-- The characters before an index, and after it when the offset of what follows does not wrap. -/
theorem split_chars {a b : List UInt8} {c : UInt8} (h : IsLine t (a ++ c :: b))
    (hb : b ≠ [] → a.length + 3 < 2 ^ 16) :
    (t.substring 0 (a.length : Nat)).chars = some a ∧
      (t.substringFrom ((a.length : Nat) + 1)).chars = some b := by
  obtain ⟨rest, hbuf⟩ := h.buf
  have hoff := h.off
  have hlen := h.len
  have hshort := h.short
  rw [length_append, length_cons] at hlen hshort
  constructor
  · rw [h.valid.substring_chars (by omega), h.view, take_left]
  · have hlen' : (t.substringFrom ((a.length : Nat) + 1)).len = b.length := by
      simp only [Text.substringFrom, Text.substring]
      omega
    have hbuf' : (t.substringFrom ((a.length : Nat) + 1)).buf = 1 :: 0 :: (a ++ c :: b ++ rest) := hbuf
    by_cases hnil : b = []
    · have hoff' : (t.substringFrom ((a.length : Nat) + 1)).off ≤ a.length + 3 := by
        simp only [Text.substringFrom, Text.substring]
        omega
      rw [Text.chars, Text.read, hlen', hbuf', hnil, length_nil, take_zero, if_pos]
      simp only [length_cons, length_append, length_nil]
      omega
    · have hlt := hb hnil
      have hoff' : (t.substringFrom ((a.length : Nat) + 1)).off = a.length + 3 := by
        simp only [Text.substringFrom, Text.substring]
        omega
      have hdrop : (1 :: 0 :: (a ++ c :: b ++ rest) : List UInt8).drop (a.length + 3) = b ++ rest := by
        rw [show a.length + 3 = (a.length + 1) + 1 + 1 from rfl, drop_succ_cons, drop_succ_cons,
          append_assoc, ← drop_drop, drop_left]
        rfl
      rw [Text.chars, Text.read, hoff', hlen', hbuf', Nat.add_zero, hdrop, if_pos, take_left]
      simp only [length_cons, length_append]
      omega

end IsLine

/-! ## The reading of a line -/

namespace Reader

section Strip

variable {r : Reader} {l : List UInt8}

theorem look_inside (h : IsLine r.line l) {i : Nat} (hi : i < l.length) : r.look i = some (l[i], r) := by
  have hlen := h.len
  have hout : decide ((i : Int) < 0 ∨ (r.line.len : Int) ≤ i) = false := decide_eq_false (by omega)
  rw [look, h.nth_eq hi, getElem?_eq_getElem hi, map_some, hout, Bool.or_false]

theorem look_last (h : IsLine r.line l) (hl : l ≠ []) : r.look (r.line.len - 1) = some (l.getLast hl, r) := by
  have hpos := length_pos_iff.mpr hl
  have hlen := h.len
  have hout : decide ((r.line.len : Int) - 1 < 0 ∨ (r.line.len : Int) ≤ r.line.len - 1) = false :=
    decide_eq_false (by omega)
  rw [look, h.nth_last hl, getLast?_eq_some_getLast hl, map_some, hout, Bool.or_false]

theorem look_before (h : IsLine r.line []) :
    r.look (r.line.len - 1) = some (0, { r with outside := true }) := by
  have hlen := h.len
  rw [length_nil] at hlen
  have hout : decide ((r.line.len : Int) - 1 < 0 ∨ (r.line.len : Int) ≤ r.line.len - 1) = true :=
    decide_eq_true (by omega)
  rw [look, h.nth_before, map_some, hout, Bool.or_true]

theorem strip_concat {c : UInt8} : strip (l ++ [c]) = if isLineEnd c then strip l else l ++ [c] := by
  unfold strip
  rw [rdropWhile_concat]

/-- The loop that removes the line ends, which looks before a line that it has emptied. -/
theorem attempt_stripTurn (h : IsLine r.line l) {fuel : Nat} (hfuel : l.length < fuel) :
    ∃ t, Loop.attempt stripTurn fuel r = some { r with line := t, outside := r.outside || (strip l).isEmpty } ∧
      IsLine t (strip l) := by
  obtain ⟨fuel, rfl⟩ : ∃ k, fuel = k + 1 := ⟨fuel - 1, by omega⟩
  induction l using reverseRecOn generalizing r fuel with
  | nil =>
    have hturn : stripTurn r = some (.inr { r with outside := true }) := by
      rw [stripTurn, look_before h]
      rfl
    refine ⟨r.line, ?_, h⟩
    rw [Loop.attempt_succ_inr hturn]
    simp [strip]
  | append_singleton l c ih =>
    have hne : l ++ [c] ≠ [] := append_ne_nil_of_right_ne_nil l (cons_ne_nil c [])
    have hlook := look_last h hne
    rw [getLast_concat] at hlook
    rw [strip_concat]
    by_cases hc : isLineEnd c = true
    · have hturn : stripTurn r = some (.inl r.shorten) := by
        simp only [stripTurn, hlook, bind_eq_bind, bind_some, if_pos hc]
      rw [length_append, length_singleton] at hfuel
      obtain ⟨fuel, rfl⟩ : ∃ k, fuel = k + 1 := ⟨fuel - 1, by omega⟩
      have hline : IsLine r.shorten.line l := by
        have hdrop := h.dropLast hne
        rwa [dropLast_concat] at hdrop
      obtain ⟨t, hrun, ht⟩ := ih hline fuel (by omega)
      rw [Loop.attempt_succ_inl hturn, if_pos hc]
      exact ⟨t, hrun, ht⟩
    · have hturn : stripTurn r = some (.inr r) := by
        simp only [stripTurn, hlook, bind_eq_bind, bind_some, if_neg hc]
      rw [Loop.attempt_succ_inr hturn, if_neg hc]
      refine ⟨r.line, ?_, h⟩
      rw [isEmpty_eq_false_iff.mpr hne, Bool.or_false]

end Strip

section Scan

variable {r : Reader} {acc p : List UInt8} {input : Input}

/-- The file ends before a line. -/
theorem scanTurn_ended (h : IsLine r.line []) (hscan : r.input.scanLine = some (Text.toString [], input)) :
    ∃ t, scanTurn r = some (.inr ({ r with line := t, num := r.num + 1, input }, true)) := by
  obtain ⟨t, hconcat, ht⟩ := h.concat (p := []) (by decide)
  have hlen : t.len = 0 := ht.len
  refine ⟨t, ?_⟩
  simp only [scanTurn, hscan, hconcat, bind_eq_bind, bind_some, if_pos hlen]

/-- A piece of the text is added to a line. -/
theorem scanTurn_draft (h : IsLine r.line acc) (hscan : r.input.scanLine = some (Text.toString p, input))
    (hne : acc ++ p ≠ []) (hshort : (acc ++ p).length < 2 ^ 16) :
    ∃ r', r'.outside = (r.outside || (strip (acc ++ p)).isEmpty) ∧ r'.input = input ∧
      scanTurn r = some (if Continued (strip (acc ++ p)) then .inl r' else .inr (r', false)) ∧
      IsLine r'.line (if Continued (strip (acc ++ p)) then (strip (acc ++ p)).dropLast else strip (acc ++ p)) := by
  obtain ⟨t, hconcat, ht⟩ := h.concat hshort
  have hlen : ¬ t.len = 0 := by
    rw [ht.len]
    exact (length_pos_iff.mpr hne).ne'
  have hread : IsLine ({ line := t, num := r.num + 1, outside := r.outside, input : Reader }).line (acc ++ p) := ht
  obtain ⟨t', hstrip, ht'⟩ := attempt_stripTurn hread (Nat.lt_succ_self _)
  rw [← ht.len] at hstrip
  by_cases hnil : strip (acc ++ p) = []
  · -- the look before the line finds no backslash
    rw [hnil] at ht'
    have hlook := @look_before ⟨t', r.num + 1, r.outside || (strip (acc ++ p)).isEmpty, input⟩ ht'
    have hout : (r.outside || (strip (acc ++ p)).isEmpty) = true := by
      rw [hnil, isEmpty_nil, Bool.or_true]
    have hcont : ¬ Continued (strip (acc ++ p)) := fun hcont => hcont.ne_nil hnil
    refine ⟨⟨t', r.num + 1, true, input⟩, hout.symm, rfl, ?_, ?_⟩
    · rw [if_neg hcont]
      have hzero : (0 : UInt8) ≠ backslash := by decide
      simp only [scanTurn, hscan, hconcat, bind_eq_bind, bind_some, if_neg hlen, hstrip, hlook,
        if_pos hzero]
    · rw [if_neg hcont, hnil]
      exact ht'
  · have hlook := @look_last ⟨t', r.num + 1, r.outside || (strip (acc ++ p)).isEmpty, input⟩ _ ht' hnil
    have hiff : Continued (strip (acc ++ p)) ↔ (strip (acc ++ p)).getLast hnil = backslash := by
      rw [Continued, getLast?_eq_some_getLast hnil, some.injEq]
    by_cases hcont : Continued (strip (acc ++ p))
    · have hlast := not_not_intro (hiff.mp hcont)
      refine ⟨Reader.shorten ⟨t', r.num + 1, r.outside || (strip (acc ++ p)).isEmpty, input⟩, rfl, rfl, ?_, ?_⟩
      · simp only [scanTurn, hscan, hconcat, bind_eq_bind, bind_some, if_neg hlen, hstrip, hlook,
          if_neg hlast, if_pos hcont]
      · rw [if_pos hcont]
        exact ht'.dropLast hnil
    · have hlast := mt hiff.mpr hcont
      refine ⟨⟨t', r.num + 1, r.outside || (strip (acc ++ p)).isEmpty, input⟩, rfl, rfl, ?_, ?_⟩
      · simp only [scanTurn, hscan, hconcat, bind_eq_bind, bind_some, if_neg hlen, hstrip, hlook,
          ne_eq, hlast, not_false_eq_true, if_true, if_neg hcont]
      · rw [if_neg hcont]
        exact ht'

end Scan

/-- The drafts of the lines that start with `acc` are short. -/
def ShortFrom (acc : List UInt8) (ps : List (List UInt8)) : Prop := ∀ d ∈ drafts acc ps, d.length < 2 ^ 16

/-- The line that starts with `acc` goes on with a piece; `ps'` are the pieces after it. -/
def Takes (acc p : List UInt8) (ps ps' : List (List UInt8)) : Prop :=
  (acc ++ p).length < 2 ^ 16 ∧
    if acc ++ p = [] then lines acc ps = []
    else if Continued (strip (acc ++ p)) then
      lines acc ps = lines (strip (acc ++ p)).dropLast ps' ∧ ShortFrom (strip (acc ++ p)).dropLast ps'
    else lines acc ps = strip (acc ++ p) :: lines [] ps' ∧ ShortFrom [] ps'

theorem takes_cons {acc p : List UInt8} {ps : List (List UInt8)} (hp : p ≠ []) (hshort : ShortFrom acc (p :: ps)) :
    Takes acc p (p :: ps) ps := by
  rw [ShortFrom, drafts] at hshort
  refine ⟨hshort _ mem_cons_self, ?_⟩
  rw [if_neg (append_ne_nil_of_right_ne_nil acc hp), lines]
  split_ifs with hcont
  · exact ⟨rfl, fun d hd => hshort d (mem_cons_of_mem _ (by rw [if_pos hcont]; exact hd))⟩
  · exact ⟨rfl, fun d hd => hshort d (mem_cons_of_mem _ (by rw [if_neg hcont]; exact hd))⟩

/-- After the last piece, the line goes on with an empty one. -/
theorem takes_nil {acc : List UInt8} (hacc : acc.length < 2 ^ 16) : Takes acc [] [] [] := by
  rw [Takes, append_nil, lines]
  refine ⟨hacc, ?_⟩
  split_ifs with hnil hcont
  · rfl
  · exact ⟨rfl, fun d hd => absurd hd not_mem_nil⟩
  · refine ⟨?_, fun d hd => absurd hd not_mem_nil⟩
    rw [lines, if_pos rfl]

/-- What is scanned from a text, and the line that goes on with it. -/
theorem exists_piece {acc strm : List UInt8} (ended : Bool) (hacc : acc.length < 2 ^ 16)
    (hshort : ShortFrom acc (physical strm)) : ∃ p strm' ended', strm = p ++ strm' ∧
      Input.scanLine ⟨strm, -1, ended⟩ = some (Text.toString p, ⟨strm', -1, ended'⟩) ∧
      Takes acc p (physical strm) (physical strm') := by
  by_cases hmem : newline ∈ strm
  · obtain ⟨line, rest, rfl, hline⟩ := eq_append_cons_of_mem hmem
    rw [physical_line hline] at hshort ⊢
    exact ⟨line ++ [newline], rest, ended, by rw [append_assoc]; rfl, scanLine_line hline,
      takes_cons (append_ne_nil_of_right_ne_nil line (cons_ne_nil _ _)) hshort⟩
  · refine ⟨strm, [], true, (append_nil _).symm, scanLine_last hmem, ?_⟩
    rw [physical_last hmem] at hshort ⊢
    by_cases hstrm : strm = []
    · rw [if_pos hstrm, hstrm]
      exact takes_nil hacc
    · rw [if_neg hstrm] at hshort ⊢
      exact takes_cons hstrm hshort

/-- The reading of a line: the end of the file, or the next line with what is left of the text. -/
theorem attempt_scanTurn {r : Reader} {acc strm : List UInt8} {ended : Bool} (h : IsLine r.line acc)
    (hinput : r.input = ⟨strm, -1, ended⟩) (hshort : ShortFrom acc (physical strm)) {fuel : Nat}
    (hfuel : acc.length + strm.length < fuel) :
    (lines acc (physical strm) = [] ∧ ∃ r', Loop.attempt scanTurn fuel r = some (r', true) ∧ r'.outside = r.outside) ∨
    ∃ l strm' ended' r', lines acc (physical strm) = l :: lines [] (physical strm') ∧ ShortFrom [] (physical strm') ∧
      Loop.attempt scanTurn fuel r = some (r', false) ∧ r'.outside = (r.outside || l.isEmpty) ∧
      r'.input = ⟨strm', -1, ended'⟩ ∧ IsLine r'.line l := by
  induction fuel generalizing r acc strm ended with
  | zero => omega
  | succ fuel ih =>
    obtain ⟨p, strm', ended', hstrm, hscan, hlen, hlines⟩ := exists_piece ended h.short hshort
    rw [← hinput] at hscan
    by_cases hnil : acc ++ p = []
    · obtain ⟨rfl, rfl⟩ := append_eq_nil_iff.mp hnil
      rw [if_pos hnil] at hlines
      obtain ⟨t, hturn⟩ := scanTurn_ended h hscan
      exact Or.inl ⟨hlines, _, Loop.attempt_succ_inr hturn fuel, rfl⟩
    · rw [if_neg hnil] at hlines
      obtain ⟨r', hout, hinput', hturn, hline⟩ := scanTurn_draft h hscan hnil hlen
      by_cases hcont : Continued (strip (acc ++ p))
      · rw [if_pos hcont] at hlines hturn hline
        have hlt := length_dropLast_lt hcont
        have hempty : (strip (acc ++ p)).isEmpty = false := isEmpty_eq_false_iff.mpr hcont.ne_nil
        rw [hempty, Bool.or_false] at hout
        rw [hlines.1, Loop.attempt_succ_inl hturn, ← hout]
        refine ih hline hinput' hlines.2 ?_
        rw [hstrm, length_append] at hfuel
        rw [length_append] at hlt
        omega
      · rw [if_neg hcont] at hlines hturn hline
        exact Or.inr ⟨_, strm', ended', r', hlines.1, hlines.2, Loop.attempt_succ_inr hturn fuel, hout, hinput',
          hline⟩

end Reader

/-! ## What is done with a line -/

/-- The value of a pair starts at an offset that a string can have. -/
def Reachable (l : List UInt8) : Prop :=
  ∀ key value, classify l = .pair key value → value ≠ [] → key.length + 3 < 2 ^ 16

namespace Loader

section Parse

variable {s : Loader} {r : Reader} {l : List UInt8} {map : List UInt8 → Option Nat} {st : Store}

/-- The line was read, and the file is the one after it. -/
def Reads (s : Loader) (r : Reader) (st : Store) : Prop :=
  ∃ s' map, s.parse r = some (.inl s') ∧ s'.outside = r.outside ∧ s'.input = r.input ∧
    File.Holds map s'.file s'.sect st

/-- The line is rejected. -/
def Rejects (s : Loader) (r : Reader) : Prop := ∃ e, s.parse r = some (.inr ⟨.error e, r.outside⟩)

theorem parse_blank (h : IsLine r.line []) (hholds : File.Holds map s.file s.sect st) : Reads s r st := by
  have hlen : r.line.len = 0 := h.len
  exact ⟨s.next r, map, by rw [parse, if_pos hlen], rfl, rfl, hholds⟩

section Cons

variable {c : UInt8} (h : IsLine r.line (c :: l))

include h

theorem len_ne_zero : ¬ r.line.len = 0 := by
  rw [h.len]
  exact Nat.succ_ne_zero _

theorem look_first : r.look 0 = some (c, r) := Reader.look_inside h (Nat.succ_pos l.length)

theorem parse_comment (hc : c = 59) (hholds : File.Holds map s.file s.sect st) : Reads s r st := by
  refine ⟨s.next r, map, ?_, rfl, rfl, hholds⟩
  simp only [parse, if_neg (len_ne_zero h), look_first h, bind_eq_bind, bind_some, if_pos hc]

theorem parse_malformed (hc : c = 91) (hlast : (c :: l).getLast? ≠ some 93) : Rejects s r := by
  have hne : c ≠ 59 := by
    rw [hc]
    decide
  have hlook := Reader.look_last h (cons_ne_nil c l)
  have hlast' : (c :: l).getLast (cons_ne_nil c l) ≠ 93 := by
    rw [getLast?_eq_some_getLast (cons_ne_nil c l)] at hlast
    exact fun heq => hlast (congrArg some heq)
  refine ⟨⟨toString r.num ++ ": malformed section name"⟩, ?_⟩
  simp only [parse, if_neg (len_ne_zero h), look_first h, bind_eq_bind, bind_some, if_neg hne,
    if_pos hc, hlook, if_pos hlast', throw]

theorem parse_header (hc : c = 91) (hlast : (c :: l).getLast? = some 93)
    (hholds : File.Holds map s.file s.sect st) : Reads s r (st.header l.dropLast) := by
  have hne : c ≠ 59 := by
    rw [hc]
    decide
  have hl : l ≠ [] := by
    rintro rfl
    have heq : c = 93 := some.inj hlast
    rw [hc] at heq
    exact absurd heq (by decide)
  have hlook := Reader.look_last h (cons_ne_nil c l)
  have hlast' : ¬ (c :: l).getLast (cons_ne_nil c l) ≠ 93 := by
    rw [getLast?_eq_some_getLast (cons_ne_nil c l), some.injEq] at hlast
    exact not_not_intro hlast
  obtain ⟨file, map', hput, hholds'⟩ := hholds.putSection l.dropLast
  refine ⟨{ s.next r with file, sect := s.file.sections.length }, map', ?_, rfl, rfl, hholds'⟩
  simp only [parse, if_neg (len_ne_zero h), look_first h, bind_eq_bind, bind_some, if_neg hne,
    if_pos hc, hlook, if_neg hlast', h.middle_chars hl, hput]

theorem parse_pair {key value : List UInt8} (hc : c ≠ 59) (hc' : c ≠ 91) (hsplit : c :: l = key ++ 61 :: value)
    (hkey : 61 ∉ key) (hvalue : value ≠ [] → key.length + 3 < 2 ^ 16) (hholds : File.Holds map s.file s.sect st) :
    Reads s r (st.pair key value) := by
  obtain ⟨file, hput, hholds'⟩ := hholds.putValue key value
  have hview : r.line.view.drop 0 = key ++ 61 :: value := h.view.trans hsplit
  have hfind : r.line.indexOfChar 61 0 = some ((key.length : Nat) : Int) := by
    rw [h.valid.indexOfChar_found hkey hview, Nat.zero_add]
  have hpos : ((key.length : Nat) : Int) ≥ 0 := Int.natCast_nonneg _
  have hline : IsLine r.line (key ++ 61 :: value) := hsplit ▸ h
  obtain ⟨hchars, hchars'⟩ := hline.split_chars hvalue
  refine ⟨{ s.next r with file }, map, ?_, rfl, rfl, hholds'⟩
  simp only [parse, if_neg (len_ne_zero h), look_first h, bind_eq_bind, bind_some, if_neg hc,
    if_neg hc', hfind, if_pos hpos, hchars, hchars', hput]

theorem parse_garbage (hc : c ≠ 59) (hc' : c ≠ 91) (hnone : 61 ∉ c :: l) : Rejects s r := by
  have hfind : r.line.indexOfChar 61 0 = some (-1) :=
    h.valid.indexOfChar_none (by rw [drop_zero, h.view]; exact hnone)
  have hneg : ¬ (-1 : Int) ≥ 0 := by decide
  refine ⟨⟨toString r.num ++ ": garbage here"⟩, ?_⟩
  simp only [parse, if_neg (len_ne_zero h), look_first h, bind_eq_bind, bind_some, if_neg hc,
    if_neg hc', hfind, if_neg hneg, throw]

end Cons

/-- A line is read if it is not wrong, and it is rejected if it is. -/
theorem parse_spec (h : IsLine r.line l) (hreach : Reachable l) (hholds : File.Holds map s.file s.sect st) :
    (¬ (classify l).Wrong → Reads s r (st.read l)) ∧ ((classify l).Wrong → Rejects s r) := by
  cases l with
  | nil => exact ⟨fun _ => parse_blank h hholds, fun hwrong => absurd hwrong (by decide)⟩
  | cons c l =>
    unfold Reachable at hreach
    unfold Store.read
    rw [classify] at hreach ⊢
    split_ifs at hreach ⊢ with hc hc' hlast hmem
    · exact ⟨fun _ => parse_comment h hc hholds, fun hwrong => absurd hwrong (by decide)⟩
    · refine ⟨fun _ => parse_header h hc' hlast hholds, fun hwrong => ?_⟩
      rcases hwrong with hwrong | hwrong <;> cases hwrong
    · exact ⟨fun hwrong => absurd (Or.inl rfl) hwrong, fun _ => parse_malformed h hc' hlast⟩
    · obtain ⟨key, value, hsplit, hkey, htake, hdrop⟩ := exists_split hmem
      rw [htake, hdrop] at hreach ⊢
      refine ⟨fun _ => parse_pair h hc hc' hsplit hkey (hreach key value rfl) hholds, fun hwrong => ?_⟩
      rcases hwrong with hwrong | hwrong <;> cases hwrong
    · exact ⟨fun hwrong => absurd (Or.inr rfl) hwrong, fun _ => parse_garbage h hc hc' hmem⟩

end Parse

/-! ## The runs -/

section Run

variable {s : Loader} {strm : List UInt8} {ended : Bool} {map : List UInt8 → Option Nat} {st : Store}

/-- What the loop leaves for some lines. -/
structure Leaves (st : Store) (ls : List (List UInt8)) (outside : Bool) (r : Loaded) : Prop where
  outside : r.outside = false ↔ outside = false ∧ NoBlank ls
  ok : WellFormed ls → ∃ f map sect, r.result = .ok f ∧ File.Holds map f sect (ls.foldl Store.read st)
  error : ¬ WellFormed ls → ∃ e, r.result = .error e

/-- A turn of the loop: the file ends, or a line is read or rejected. -/
theorem turn_spec (hinput : s.input = ⟨strm, -1, ended⟩)
    (hshort : Reader.ShortFrom [] (physical strm)) :
    (lines [] (physical strm) = [] ∧ turn s = some (.inr ⟨.ok s.file, s.outside⟩)) ∨
    ∃ l strm' ended' r, lines [] (physical strm) = l :: lines [] (physical strm') ∧
      Reader.ShortFrom [] (physical strm') ∧ r.outside = (s.outside || l.isEmpty) ∧ r.input = ⟨strm', -1, ended'⟩ ∧
      IsLine r.line l ∧ turn s = s.parse r := by
  have hline : IsLine (Reader.mk (Text.toString []) s.num s.outside s.input).line [] := IsLine.empty
  have hfuel : ([] : List UInt8).length + strm.length < (Text.toString []).len + s.input.strm.length + 1 := by
    rw [hinput]
    exact Nat.lt_succ_self _
  rcases Reader.attempt_scanTurn hline hinput hshort hfuel with ⟨hlines, r, hread, hout⟩ |
    ⟨l, strm', ended', r, hlines, hshort', hread, hout, hinput', hl⟩
  · refine Or.inl ⟨hlines, ?_⟩
    simp only [turn, Reader.read, hread, bind_eq_bind, bind_some, if_true, hout]
  · refine Or.inr ⟨l, strm', ended', r, hlines, hshort', hout, hinput', hl, ?_⟩
    simp only [turn, Reader.read, hread, bind_eq_bind, bind_some, Bool.false_eq_true, if_false]

/-- The loop ends, after a turn for each line. -/
theorem attempt_turn {ls : List (List UInt8)} (hholds : File.Holds map s.file s.sect st)
    (hinput : s.input = ⟨strm, -1, ended⟩) (hshort : Reader.ShortFrom [] (physical strm))
    (hls : lines [] (physical strm) = ls) (hreach : ∀ l ∈ ls, Reachable l) {fuel : Nat} (hfuel : ls.length < fuel) :
    ∃ r, Loop.attempt turn fuel s = some r ∧ Leaves st ls s.outside r := by
  induction ls generalizing s strm ended map st fuel with
  | nil =>
    obtain ⟨fuel, rfl⟩ : ∃ k, fuel = k + 1 := ⟨fuel - 1, by omega⟩
    rcases turn_spec hinput hshort with ⟨-, hturn⟩ | ⟨l, strm', -, -, hlines, -⟩
    · refine ⟨_, Loop.attempt_succ_inr hturn fuel, ?_, fun _ => ⟨s.file, map, s.sect, rfl, hholds⟩, fun hnot => ?_⟩
      · exact (and_iff_left not_mem_nil).symm
      · exact absurd (fun l hl => absurd hl not_mem_nil) hnot
    · rw [hls] at hlines
      cases hlines
  | cons l ls ih =>
    obtain ⟨fuel, rfl⟩ : ∃ k, fuel = k + 1 := ⟨fuel - 1, by omega⟩
    rw [length_cons] at hfuel
    rcases turn_spec hinput hshort with ⟨hlines, -⟩ |
      ⟨l', strm', ended', r, hlines, hshort', hout, hinput', hl, hturn⟩
    · rw [hls] at hlines
      cases hlines
    · obtain ⟨rfl, hls'⟩ := List.cons.inj (hls.symm.trans hlines)
      obtain ⟨hreads, hrejects⟩ := @parse_spec s r l map st hl (hreach l mem_cons_self) hholds
      have hempty : r.outside = false ↔ s.outside = false ∧ l ≠ [] := by
        rw [hout, Bool.or_eq_false_iff, isEmpty_eq_false_iff]
      by_cases hwrong : (classify l).Wrong
      · obtain ⟨e, hparse⟩ := hrejects hwrong
        rw [hparse] at hturn
        have hne : l ≠ [] := by
          rintro rfl
          exact absurd hwrong (by decide)
        refine ⟨_, Loop.attempt_succ_inr hturn fuel, ?_, fun hwell => ?_, fun _ => ⟨e, rfl⟩⟩
        · rw [noBlank_cons, or_iff_left_of_imp fun _ => hwrong]
          exact hempty.trans (and_congr_right fun _ => iff_of_true hne hwrong)
        · exact absurd hwrong (wellFormed_cons.mp hwell).1
      · obtain ⟨s', map', hparse, hout', hinput'', hholds'⟩ := hreads hwrong
        rw [hparse] at hturn
        obtain ⟨r', hrun, hleaves⟩ :=
          ih hholds' (hinput''.trans hinput') hshort' hls'.symm
            (fun l hl => hreach l (mem_cons_of_mem _ hl)) (by omega : ls.length < fuel)
        refine ⟨r', (Loop.attempt_succ_inl hturn fuel).trans hrun, ?_, fun hwell => ?_, fun hnot => ?_⟩
        · rw [hleaves.outside, hout', hempty, noBlank_cons, or_iff_right hwrong, and_assoc]
        · exact hleaves.ok (wellFormed_cons.mp hwell).2
        · exact hleaves.error fun hwell => hnot (wellFormed_cons.mpr ⟨hwrong, hwell⟩)

end Run

end Loader

/-- The file answers what was written. -/
def File.Answers (f : File) (ls : List (List UInt8)) : Prop :=
  ∀ name key, (IsSection name ls → f.getValue name key = some (some ((written name key [] ls).getD []))) ∧
    (¬ IsSection name ls → f.getValue name key = some none)

/-- The call ends without a look outside a line; the file of a well formed text has what was written, and another
text is rejected. -/
def Loads (text : List UInt8) : Prop :=
  ∃ fuel r, File.load fuel text = some r ∧ r.outside = false ∧
    (WellFormed (logical text) → ∃ f, r.result = .ok f ∧ f.Answers (logical text)) ∧
    (¬ WellFormed (logical text) → ∃ e, r.result = .error e)

/-- The strings of `load` can hold the lines of the text. -/
def Short (text : List UInt8) : Prop :=
  (∀ d ∈ drafts [] (physical text), d.length < 2 ^ 16) ∧ ∀ l ∈ logical text, Reachable l

/-- The condition on a text with short lines. -/
def Clean (text : List UInt8) : Prop :=
  NoBlank (logical text) ∧ (WellFormed (logical text) → Kept (logical text))

/-- A file that holds what the lines make of it answers right exactly if no value is lost. -/
theorem answers_iff {map : List UInt8 → Option Nat} {f : File} {sect : Nat} {ls : List (List UInt8)}
    (h : File.Holds map f sect (ls.foldl Store.read Store.start)) : f.Answers ls ↔ Kept ls := by
  have hopened : ∀ name, name ∈ (ls.foldl Store.read Store.start).opened ↔ IsSection name ls :=
    fun name => Store.mem_opened_foldl
  rw [← Store.kept_iff]
  constructor
  · intro hanswers name key
    by_cases hname : IsSection name ls
    · have hvalue := (h.getValue name key).1 ((hopened name).mpr hname)
      rw [(hanswers name key).1 hname] at hvalue
      exact (some.inj (some.inj hvalue)).symm
    · obtain ⟨hne, hnone⟩ := not_or.mp hname
      have hwritten : written name key [] ls = none :=
        written_eq_none (fun l hl hline => hnone ⟨l, hl, hline⟩) (Ne.symm hne)
      rw [hwritten, Store.foldl_read_none rfl hwritten]
  · intro hkept name key
    refine ⟨fun hname => ?_, fun hname => ?_⟩
    · rw [(h.getValue name key).1 ((hopened name).mpr hname), hkept]
    · exact (h.getValue name key).2 fun hmem => hname ((hopened name).mp hmem)

/-- What the loading of a text with short lines leaves. -/
theorem load_spec {text : List UInt8} (hshort : Short text) :
    ∃ fuel r, File.load fuel text = some r ∧ Loader.Leaves Store.start (logical text) false r := by
  obtain ⟨file, map, hnew, hholds⟩ := File.exists_new
  obtain ⟨r, hrun, hleaves⟩ := @Loader.attempt_turn ⟨file, 0, 1, false, Input.ofText text⟩ text false map Store.start
    (logical text) hholds rfl hshort.1 rfl hshort.2 _ (Nat.lt_succ_self _)
  exact ⟨_, r, by rw [File.load, hnew, bind_some]; exact hrun, hleaves⟩

theorem load_unique {text : List UInt8} {n m : Nat} {r r' : Loaded} (h : File.load n text = some r)
    (h' : File.load m text = some r') : r = r' := by
  obtain ⟨file, hnew, hrun⟩ := bind_eq_some_iff.mp h
  obtain ⟨file', hnew', hrun'⟩ := bind_eq_some_iff.mp h'
  obtain rfl := some.inj (hnew.symm.trans hnew')
  exact Loop.attempt_unique hrun hrun'

/-- A text with short lines is loaded right if no line is empty and no value is lost, and only then. -/
theorem loads_iff (text : List UInt8) : (Short text ∧ Clean text → Loads text) ∧
    (Short text → Loads text → Clean text) := by
  constructor
  · rintro ⟨hshort, hblank, hkept⟩
    obtain ⟨fuel, r, hrun, hleaves⟩ := load_spec hshort
    refine ⟨fuel, r, hrun, hleaves.outside.mpr ⟨rfl, hblank⟩, fun hwell => ?_, hleaves.error⟩
    obtain ⟨f, map, sect, hresult, hholds⟩ := hleaves.ok hwell
    exact ⟨f, hresult, (answers_iff hholds).mpr (hkept hwell)⟩
  · rintro hshort ⟨fuel, r, hrun, hout, hok, -⟩
    obtain ⟨fuel', r', hrun', hleaves⟩ := load_spec hshort
    obtain rfl := load_unique hrun hrun'
    refine ⟨(hleaves.outside.mp hout).2, fun hwell => ?_⟩
    obtain ⟨f, hresult, hanswers⟩ := hok hwell
    obtain ⟨f', map, sect, hresult', hholds⟩ := hleaves.ok hwell
    obtain rfl := Except.ok.inj (hresult.symm.trans hresult')
    exact (answers_iff hholds).mp hanswers

/-- An empty line before a key. -/
theorem not_loads : ¬ Loads [10, 97, 61, 98, 10] := by
  have hphysical : physical [10, 97, 61, 98, 10] = [[10], [97, 61, 98, 10]] := by decide
  have hblank : strip [10] = [] := by decide
  have hpair : strip [97, 61, 98, 10] = [97, 61, 98] := by decide
  have hlogical : logical [10, 97, 61, 98, 10] = [[], [97, 61, 98]] := by
    rw [logical, hphysical, lines, nil_append, hblank, if_neg (by decide), lines, nil_append, hpair,
      if_neg (by decide), lines, if_pos rfl]
  have hshort : Short [10, 97, 61, 98, 10] := by
    refine ⟨by rw [hphysical]; decide, ?_⟩
    rw [hlogical]
    intro l hl key value hline _
    rcases mem_cons.mp hl with rfl | hl
    · cases hline
    · obtain rfl := mem_singleton.mp hl
      have hclass : classify [97, 61, 98] = .pair [97] [98] := by decide
      cases hclass.symm.trans hline
      decide
  intro hloads
  have hclean := (loads_iff _).2 hshort hloads
  rw [Clean, hlogical] at hclean
  exact absurd hclean.1 (by unfold NoBlank; decide)

end Elm.Ini
