import Elm.Io.InStream
import Elm.Lib.Loop

/-!
# `Formatter`

`format` of `src/util_Formatter.cpp` copies an input stream to an output stream, and gives what follows an escape
character to `process`.  It is compared with a formatter that has a mode for each of its three levels.  The loop of
the code is only left at the end of the stream: an error is taken for a character.  `CONTINUE` falls through to the
answers that end the formatting, and an error that `process` answers is dropped.
-/

namespace Elm.Strings

open Io Io.Swallow List

/-- What `process` answers; an error is a negative code. -/
inductive Answer
  | DONE
  | CONTINUE
  | REJECT
  | error
  deriving DecidableEq

/-- The output stream and the subclass of `Formatter`, with states `E`: the results of `write(char)`, and those of
`process`, which may write too. -/
structure Client (E : Type*) where
  write : E → UInt8 → Int × E
  process : E → UInt8 → Answer × E

/-- What a formatter asks of the output stream and of the subclass. -/
inductive Event
  | write (chr : UInt8)
  | process (chr : UInt8)
  deriving DecidableEq

/-- What a call to `format` leaves: its result, what it asked, and the stream. -/
structure Formatted (E : Type*) where
  res : Int
  events : List Event
  env : E
  input : InStream UInt8

namespace Formatter

variable {E : Type*}

/-- The conversion of an `int` to `char`. -/
def toChar (chr : Int) : UInt8 := UInt8.ofNat (chr % 256).toNat

/-- The variables of `format`, with what was asked before. -/
structure State (E : Type*) where
  chr : Int
  res : Int
  events : List Event
  env : E
  input : InStream UInt8

/-- The call returns. -/
def State.leave (s : State E) (res : Int) : Formatted E := ⟨res, s.events, s.env, s.input⟩

/-- `chr = in.read()`. -/
def State.next (s : State E) : State E :=
  let (chr, input) := s.input.readByte
  { s with chr, input }

/-- `res = out.write(chr)`. -/
def State.write (s : State E) (c : Client E) : State E :=
  let (res, env) := c.write s.env (toChar s.chr)
  { s with res, env, events := s.events ++ [.write (toChar s.chr)] }

/-- The value after the loop. -/
def ending (chr : Int) : Int := if chr = FAILED then -1 else 0

/-- The end of a turn of the loop. -/
def State.again (s : State E) : State E ⊕ Formatted E :=
  if s.res < 0 then .inr (s.leave s.res) else .inl s.next

/-- The loop over `process`, of which every answer leaves the first turn. -/
def State.work (s : State E) (c : Client E) : State E ⊕ Formatted E :=
  let (answer, env) := c.process s.env (toChar s.chr)
  let s : State E := { s with env, events := s.events ++ [.process (toChar s.chr)] }
  match answer with
  | .DONE | .REJECT => s.again
  | .CONTINUE =>
    let s : State E := s.next
    -- no break: the formatting ends here
    if s.chr < 0 then .inr (s.leave (ending s.chr)) else .inr (s.leave s.res)
  | .error => .inr (s.leave s.res)

/-- A turn of the loop of `format`. -/
def turn (esc : UInt8) (c : Client E) (s : State E) : State E ⊕ Formatted E :=
  if s.chr = ENDED then .inr (s.leave (ending s.chr))
  else if s.chr ≠ char esc then (s.write c).again
  else
    let s := s.next
    if s.chr < 0 then .inr (s.leave (ending s.chr))
    else if s.chr = char esc then (s.write c).again
    else s.work c

/-- `format`. -/
def format (fuel : Nat) (esc : UInt8) (c : Client E) (env : E) (input : InStream UInt8) : Option (Formatted E) :=
  Loop.run (turn esc c) fuel (State.next ⟨0, 0, [], env, input⟩)

/-! ## What formatting is -/

/-- Where a formatter stands: on the text, after an escape character, or in an escape that `process` continues. -/
inductive Mode
  | copy
  | escaped
  | inside
  deriving DecidableEq

/-- What formatting a text has to do: `failed` is for an error of the input, of the output or of `process`. -/
structure Spec (E : Type*) where
  failed : Bool
  events : List Event
  env : E
  rest : List UInt8

/-- One event more in front. -/
def Spec.ask (sp : Spec E) (event : Event) : Spec E := { sp with events := event :: sp.events }

/-- The formatting of a text, of which a byte is read with the call of number `n`. -/
def spec (esc : UInt8) (c : Client E) (answers : Nat → Chunk) : List UInt8 → Nat → Mode → E → Spec E
  | [], n, _, env => ⟨decide (answers n = .fail), [], env, []⟩
  | chr :: text, n, mode, env =>
    if answers n = .fail then ⟨true, [], env, chr :: text⟩
    else if mode = .copy ∧ chr = esc then spec esc c answers text (n + 1) .escaped env
    else if mode = .copy ∨ (mode = .escaped ∧ chr = esc) then
      let (res, env) := c.write env chr
      (if res < 0 then ⟨true, [], env, text⟩ else spec esc c answers text (n + 1) .copy env).ask (.write chr)
    else
      let (answer, env) := c.process env chr
      (match answer with
        | .DONE | .REJECT => spec esc c answers text (n + 1) .copy env
        | .CONTINUE => spec esc c answers text (n + 1) .inside env
        | .error => ⟨true, [], env, text⟩).ask (.process chr)

/-- What was asked, after `events`, what is left and the sign of the result are those of the specification. -/
def Agrees (events : List Event) (sp : Spec E) (r : Formatted E) : Prop :=
  r.events = events ++ sp.events ∧ r.env = sp.env ∧ r.input.rest = sp.rest ∧ (r.res < 0 ↔ sp.failed = true)

/-- The call to `format` ends, does what formatting is, and returns a negative value in case of an error. -/
def Formats (esc : UInt8) (c : Client E) (env : E) (input : InStream UInt8) : Prop :=
  ∃ fuel r, format fuel esc c env input = some r ∧
    Agrees [] (spec esc c input.answers input.rest input.calls .copy env) r

/-- The condition under which the call is right, from a place of the text on.  The stream does not fail where a
character to copy is read, or it fails twice and the escape character has the code of the error.  An escape character
that is met is a positive `char`, `process` answers no error, and it only continues when no character follows. -/
def Clean (esc : UInt8) (c : Client E) (answers : Nat → Chunk) : List UInt8 → Nat → Mode → E → Prop
  | [], n, mode, _ => answers n = .fail → mode = .copy → esc = 255 ∧ answers (n + 1) = .fail
  | chr :: text, n, mode, env =>
    if answers n = .fail then mode = .copy → esc = 255 ∧ answers (n + 1) = .fail
    else if mode = .copy ∧ chr = esc then esc < 128 ∧ Clean esc c answers text (n + 1) .escaped env
    else if mode = .copy ∨ (mode = .escaped ∧ chr = esc) then
      (c.write env chr).1 ≥ 0 → Clean esc c answers text (n + 1) .copy (c.write env chr).2
    else match (c.process env chr).1 with
      | .DONE | .REJECT => Clean esc c answers text (n + 1) .copy (c.process env chr).2
      | .CONTINUE => InStream.Stops ⟨text, n + 1, answers⟩
      | .error => False

/-! ## Characters -/

theorem toChar_code (chr : UInt8) : toChar (code chr) = chr := by
  have hlt := chr.toNat_lt
  rw [toChar, code, Int.emod_eq_of_lt (Int.natCast_nonneg _) (by omega), Int.toNat_natCast, UInt8.ofNat_toNat]

theorem code_nonneg (chr : UInt8) : 0 ≤ code chr := Int.natCast_nonneg _

theorem char_eq (esc : UInt8) : char esc = if esc.toNat < 128 then (esc.toNat : Int) else esc.toNat - 256 := by
  have hint : char esc = esc.toBitVec.toInt := rfl
  have hlt := esc.toNat_lt
  rw [hint, BitVec.toInt_eq_toNat_cond]
  simp only [UInt8.toNat_toBitVec]
  split_ifs <;> omega

/-- A character that is read is the escape character when they are the same and it is positive. -/
theorem code_eq_char {chr esc : UInt8} : code chr = char esc ↔ chr = esc ∧ esc < 128 := by
  have hlt := chr.toNat_lt
  have hlt' := esc.toNat_lt
  have hesc : esc < 128 ↔ esc.toNat < 128 := UInt8.lt_iff_toNat_lt
  rw [char_eq, code, hesc, ← UInt8.toNat_inj]
  split_ifs with h <;> omega

/-- The code of an error is an escape character too. -/
theorem failed_eq_char {esc : UInt8} : FAILED = char esc ↔ esc = 255 := by
  have hlt := esc.toNat_lt
  have h255 : esc = 255 ↔ esc.toNat = 255 := by rw [← UInt8.toNat_inj]; rfl
  rw [char_eq, h255, FAILED]
  by_cases h : esc.toNat < 128
  · rw [if_pos h]
    omega
  · rw [if_neg h]
    omega

/-! ## Turns -/

section Turns

variable {esc chr : UInt8} {c : Client E} {answers : Nat → Chunk} {text : List UInt8} {n : Nat} {events : List Event}
  {env : E} {res : Int}

/-- The state in which a turn begins: a character was read with the call `n`. -/
def head (answers : Nat → Chunk) (text : List UInt8) (n : Nat) (res : Int) (events : List Event) (env : E) :
    State E :=
  State.next ⟨0, res, events, env, ⟨text, n, answers⟩⟩

theorem head_cons (hok : answers n ≠ .fail) : head answers (chr :: text) n res events env =
    ⟨code chr, res, events, env, ⟨text, n + 1, answers⟩⟩ := by
  rw [head, State.next, InStream.readByte_cons chr hok]

theorem head_stop (hstop : InStream.Stops ⟨text, n, answers⟩) : head answers text n res events env =
    ⟨if answers n = .fail then FAILED else ENDED, res, events, env, ⟨text, n + 1, answers⟩⟩ := by
  rw [head, State.next, InStream.readByte_stop hstop]

/-- A turn that writes a character. -/
def wrote (c : Client E) (answers : Nat → Chunk) (chr : UInt8) (text : List UInt8) (n : Nat) (events : List Event)
    (env : E) : State E ⊕ Formatted E :=
  if (c.write env chr).1 < 0 then
    .inr ⟨(c.write env chr).1, events ++ [.write chr], (c.write env chr).2, ⟨text, n, answers⟩⟩
  else .inl (head answers text n (c.write env chr).1 (events ++ [.write chr]) (c.write env chr).2)

theorem write_again {x : Int} : (State.write ⟨x, res, events, env, ⟨text, n, answers⟩⟩ c).again =
    wrote c answers (toChar x) text n events env := rfl

/-- A character that is not taken for an escape is copied. -/
theorem turn_copy (hok : answers n ≠ .fail) (h : chr = esc → ¬ esc < 128) :
    turn esc c (head answers (chr :: text) n res events env) = wrote c answers chr text (n + 1) events env := by
  have hne : code chr ≠ char esc := fun heq => h (code_eq_char.mp heq).1 (code_eq_char.mp heq).2
  have hpos := code_nonneg chr
  rw [turn, head_cons hok, if_neg (by unfold ENDED; simp only; omega), if_pos hne, write_again, toChar_code]

/-- The end of the stream. -/
theorem turn_ended (hok : answers n ≠ .fail) : turn esc c (head answers [] n res events env) =
    .inr ⟨0, events, env, ⟨[], n + 1, answers⟩⟩ := by
  rw [turn, head_stop (Or.inl rfl), if_neg hok, if_pos rfl]
  rfl

/-- An error is copied. -/
theorem turn_failed (hfail : answers n = .fail) (hesc : esc ≠ 255) :
    turn esc c (head answers text n res events env) = wrote c answers 255 text (n + 1) events env := by
  have hne : FAILED ≠ char esc := fun heq => hesc (failed_eq_char.mp heq)
  have hended : FAILED ≠ ENDED := by decide
  rw [turn, head_stop (Or.inr hfail), if_pos hfail, if_neg hended, if_pos hne]
  exact write_again

/-- What a turn does with what follows an escape character. -/
def follow (esc : UInt8) (c : Client E) (s : State E) : State E ⊕ Formatted E :=
  if s.chr < 0 then .inr (s.leave (ending s.chr))
  else if s.chr = char esc then (s.write c).again
  else s.work c

/-- The turn of an escape character. -/
theorem turn_escape (hok : answers n ≠ .fail) (hesc : esc < 128) :
    turn esc c (head answers (esc :: text) n res events env) =
      follow esc c (head answers text (n + 1) res events env) := by
  have heq : code esc = char esc := code_eq_char.mpr ⟨rfl, hesc⟩
  have hpos := code_nonneg esc
  rw [turn, head_cons hok, if_neg (by unfold ENDED; simp only; omega), if_neg (not_not_intro heq)]
  rfl

/-- An error that is taken for an escape character. -/
theorem turn_failed_escape (hfail : answers n = .fail) : turn 255 c (head answers text n res events env) =
    follow 255 c (head answers text (n + 1) res events env) := by
  have hended : FAILED ≠ ENDED := by decide
  have heq : ¬ FAILED ≠ char 255 := by decide
  rw [turn, head_stop (Or.inr hfail), if_pos hfail, if_neg hended, if_neg heq]
  rfl

/-- Nothing follows the escape character. -/
theorem follow_stop (hstop : InStream.Stops ⟨text, n, answers⟩) :
    follow esc c (head answers text n res events env) =
      .inr ⟨if answers n = .fail then -1 else 0, events, env, ⟨text, n + 1, answers⟩⟩ := by
  rw [head_stop hstop]
  by_cases hfail : answers n = .fail
  · rw [if_pos hfail, if_pos hfail]
    rfl
  · rw [if_neg hfail, if_neg hfail]
    rfl

/-- Two escape characters are one. -/
theorem follow_escape (hok : answers n ≠ .fail) (hesc : esc < 128) :
    follow esc c (head answers (esc :: text) n res events env) = wrote c answers esc text (n + 1) events env := by
  have hpos := code_nonneg esc
  rw [follow, head_cons hok, if_neg (by simp only; omega), if_pos (code_eq_char.mpr ⟨rfl, hesc⟩), write_again,
    toChar_code]

/-- A character that is not an escape character is given to `process`. -/
theorem follow_process (hok : answers n ≠ .fail) (h : chr = esc → ¬ esc < 128) :
    follow esc c (head answers (chr :: text) n res events env) =
      State.work ⟨code chr, res, events, env, ⟨text, n + 1, answers⟩⟩ c := by
  have hne : code chr ≠ char esc := fun heq => h (code_eq_char.mp heq).1 (code_eq_char.mp heq).2
  have hpos := code_nonneg chr
  rw [follow, head_cons hok, if_neg (by simp only; omega), if_neg hne]

/-! ## What is asked -/

/-- What was asked at the end of a turn. -/
def asked : State E ⊕ Formatted E → List Event := Sum.elim State.events Formatted.events

theorem asked_again (s : State E) : asked s.again = s.events := by
  unfold State.again
  split_ifs <;> rfl

theorem asked_write (s : State E) : asked (s.write c).again = s.events ++ [.write (toChar s.chr)] :=
  asked_again _

theorem asked_wrote : asked (wrote c answers chr text n events env) = events ++ [.write chr] := by
  unfold wrote
  split_ifs <;> rfl

theorem asked_work (s : State E) : asked (s.work c) = s.events ++ [.process (toChar s.chr)] := by
  unfold State.work
  cases hanswer : (c.process s.env (toChar s.chr)).1 with
  | DONE => simp only [hanswer, asked_again]
  | REJECT => simp only [hanswer, asked_again]
  | CONTINUE =>
    simp only [hanswer]
    split_ifs <;> rfl
  | error =>
    simp only [hanswer]
    rfl

theorem length_asked_follow (s : State E) : s.events.length ≤ (asked (follow esc c s)).length := by
  unfold follow
  split_ifs
  · exact le_rfl
  · rw [asked_write, length_append]
    exact Nat.le_add_right _ _
  · rw [asked_work, length_append]
    exact Nat.le_add_right _ _

/-- A turn forgets nothing of what was asked. -/
theorem length_asked_turn (s : State E) : s.events.length ≤ (asked (turn esc c s)).length := by
  unfold turn
  split_ifs with hended hcopy
  · exact le_rfl
  · rw [asked_write, length_append]
    exact Nat.le_add_right _ _
  · exact length_asked_follow s.next

theorem length_le_of_run {fuel : Nat} {s : State E} {r : Formatted E}
    (hrun : Loop.run (turn esc c) fuel s = some r) : (asked (turn esc c s)).length ≤ r.events.length := by
  induction fuel generalizing s with
  | zero => cases hrun
  | succ fuel ih =>
    cases hturn : turn esc c s with
    | inl s' =>
      rw [Loop.run_succ_inl hturn] at hrun
      exact (length_asked_turn s').trans (ih hrun)
    | inr r' =>
      rw [Loop.run_succ_inr hturn] at hrun
      obtain rfl := Option.some.inj hrun
      exact le_rfl

/-! ## The runs -/

/-- The calls with results that agree with the specification. -/
def Right (esc : UInt8) (c : Client E) (events : List Event) (sp : Spec E) (s : State E) : Prop :=
  Loop.Ends (turn esc c) (Agrees events sp) s

theorem agrees_ask (sp : Spec E) (event : Event) :
    Agrees events (sp.ask event) = Agrees (events ++ [event]) sp := by
  ext r
  rw [Agrees, Agrees, append_assoc, singleton_append]
  rfl

/-- What is asked cannot be what is not asked. -/
theorem not_right_of_lt {sp : Spec E} {s : State E}
    (h : events.length + sp.events.length < (asked (turn esc c s)).length) : ¬ Right esc c events sp s := by
  rintro ⟨fuel, r, hrun, hevents, -⟩
  have hle := length_le_of_run hrun
  rw [hevents, length_append] at hle
  omega

/-- A turn that writes a character as the specification does. -/
theorem right_wrote {s : State E} (hturn : turn esc c s = wrote c answers chr text n events env) :
    Right esc c events
        ((if (c.write env chr).1 < 0 then ⟨true, [], (c.write env chr).2, text⟩
          else spec esc c answers text n .copy (c.write env chr).2).ask (.write chr)) s ↔
      ((c.write env chr).1 ≥ 0 → Right esc c (events ++ [.write chr])
        (spec esc c answers text n .copy (c.write env chr).2)
        (head answers text n (c.write env chr).1 (events ++ [.write chr]) (c.write env chr).2)) := by
  unfold wrote at hturn
  rw [Right, agrees_ask]
  split_ifs at hturn ⊢ with hneg
  · rw [Loop.ends_inr hturn]
    refine iff_of_true ⟨by rw [append_nil], rfl, rfl, iff_of_true hneg rfl⟩ fun hpos => ?_
    omega
  · rw [Loop.ends_inl hturn]
    exact ⟨fun h _ => h, fun h => h (by omega)⟩

/-! ## The specification -/

theorem spec_stop {mode : Mode} (hstop : InStream.Stops ⟨text, n, answers⟩) :
    spec esc c answers text n mode env = ⟨decide (answers n = .fail), [], env, text⟩ := by
  cases text with
  | nil => rfl
  | cons chr text =>
    have hfail : answers n = .fail := hstop.resolve_left (cons_ne_nil _ _)
    rw [spec, if_pos hfail]
    simp only [hfail, decide_true]

theorem spec_escape (hok : answers n ≠ .fail) :
    spec esc c answers (esc :: text) n .copy env = spec esc c answers text (n + 1) .escaped env := by
  rw [spec, if_neg hok, if_pos ⟨rfl, rfl⟩]

theorem spec_copy (hok : answers n ≠ .fail) (hne : chr ≠ esc) : spec esc c answers (chr :: text) n .copy env =
    (if (c.write env chr).1 < 0 then ⟨true, [], (c.write env chr).2, text⟩
      else spec esc c answers text (n + 1) .copy (c.write env chr).2).ask (.write chr) := by
  rw [spec, if_neg hok, if_neg (fun h => hne h.2), if_pos (Or.inl rfl)]

theorem spec_escaped_escape (hok : answers n ≠ .fail) : spec esc c answers (esc :: text) n .escaped env =
    (if (c.write env esc).1 < 0 then ⟨true, [], (c.write env esc).2, text⟩
      else spec esc c answers text (n + 1) .copy (c.write env esc).2).ask (.write esc) := by
  rw [spec, if_neg hok, if_neg (fun h => by cases h.1), if_pos (Or.inr ⟨rfl, rfl⟩)]

/-- What follows the answer of `process`. -/
def answered (esc : UInt8) (c : Client E) (answers : Nat → Chunk) (chr : UInt8) (text : List UInt8) (n : Nat)
    (env : E) : Spec E :=
  match (c.process env chr).1 with
  | .DONE | .REJECT => spec esc c answers text n .copy (c.process env chr).2
  | .CONTINUE => spec esc c answers text n .inside (c.process env chr).2
  | .error => ⟨true, [], (c.process env chr).2, text⟩

theorem spec_process {mode : Mode} (hok : answers n ≠ .fail)
    (hmode : mode = .escaped ∧ chr ≠ esc ∨ mode = .inside) : spec esc c answers (chr :: text) n mode env =
      (answered esc c answers chr text (n + 1) env).ask (.process chr) := by
  have hcopy : mode ≠ .copy := by
    rcases hmode with ⟨rfl, -⟩ | rfl <;> decide
  have hescape : ¬ (mode = .escaped ∧ chr = esc) := by
    rcases hmode with ⟨rfl, hne⟩ | rfl
    · exact fun h => hne h.2
    · exact fun h => by cases h.1
  rw [spec, if_neg hok, if_neg (fun h => hcopy h.1), if_neg (not_or.mpr ⟨hcopy, hescape⟩)]
  rfl

/-- What is left when the stream first stops. -/
def left (answers : Nat → Chunk) : List UInt8 → Nat → List UInt8
  | [], _ => []
  | chr :: text, n => if answers n = .fail then chr :: text else left answers text (n + 1)

theorem left_stop (hstop : InStream.Stops ⟨text, n, answers⟩) : left answers text n = text := by
  cases text with
  | nil => rfl
  | cons chr text =>
    have hfail : answers n = .fail := hstop.resolve_left (cons_ne_nil _ _)
    rw [left, if_pos hfail]

theorem left_cons (hok : answers n ≠ .fail) : left answers (chr :: text) n = left answers text (n + 1) := by
  rw [left, if_neg hok]

theorem length_left_le (text : List UInt8) (n : Nat) : (left answers text n).length ≤ text.length := by
  induction text generalizing n with
  | nil => exact le_rfl
  | cons chr text ih =>
    by_cases hfail : answers n = .fail
    · rw [left_stop (Or.inr hfail)]
    · rw [left_cons hfail]
      exact (ih (n + 1)).trans (Nat.le_succ _)

/-- A specification goes no further than the stream, and asks for one character at most for each one that it takes. -/
def Bounded (answers : Nat → Chunk) (text : List UInt8) (n : Nat) (sp : Spec E) : Prop :=
  (left answers text n).length ≤ sp.rest.length ∧ sp.events.length + sp.rest.length ≤ text.length

theorem bounded_end (b : Bool) : Bounded answers text n ⟨b, [], env, text⟩ :=
  ⟨length_left_le text n, (Nat.zero_add _).le⟩

theorem Bounded.skip {sp : Spec E} (h : Bounded answers text (n + 1) sp) (hok : answers n ≠ .fail) :
    Bounded answers (chr :: text) n sp := by
  rw [Bounded, left_cons hok]
  exact ⟨h.1, h.2.trans (Nat.le_succ _)⟩

theorem Bounded.ask {sp : Spec E} (h : Bounded answers text (n + 1) sp) (hok : answers n ≠ .fail) (event : Event) :
    Bounded answers (chr :: text) n (sp.ask event) := by
  rw [Bounded, left_cons hok]
  refine ⟨h.1, ?_⟩
  have hle := h.2
  simp only [Spec.ask, length_cons]
  omega

theorem bounded_spec (text : List UInt8) (n : Nat) (mode : Mode) (env : E) :
    Bounded answers text n (spec esc c answers text n mode env) := by
  induction text generalizing n mode env with
  | nil => exact bounded_end _
  | cons chr text ih =>
    by_cases hfail : answers n = .fail
    · rw [spec_stop (Or.inr hfail)]
      exact bounded_end _
    · by_cases hescape : mode = .copy ∧ chr = esc
      · obtain ⟨rfl, rfl⟩ := hescape
        rw [spec_escape hfail]
        exact (ih _ _ _).skip hfail
      · by_cases hwrite : mode = .copy ∨ (mode = .escaped ∧ chr = esc)
        · rw [spec, if_neg hfail, if_neg hescape, if_pos hwrite]
          refine Bounded.ask ?_ hfail _
          split_ifs
          · exact bounded_end _
          · exact ih _ _ _
        · have hmode : mode = .escaped ∧ chr ≠ esc ∨ mode = .inside := by
            cases mode with
            | copy => exact absurd (Or.inl rfl) hwrite
            | escaped => exact Or.inl ⟨rfl, fun heq => hwrite (Or.inr ⟨rfl, heq⟩)⟩
            | inside => exact Or.inr rfl
          rw [spec_process hfail hmode]
          refine Bounded.ask ?_ hfail _
          unfold answered
          cases (c.process env chr).1 with
          | DONE => exact ih _ _ _
          | CONTINUE => exact ih _ _ _
          | REJECT => exact ih _ _ _
          | error => exact bounded_end _

/-! ## Where the code goes wrong -/

/-- An error that is not the escape character is copied. -/
theorem not_right_failed (hfail : answers n = .fail) (hesc : esc ≠ 255) : ¬ Right esc c events
    (spec esc c answers text n .copy env) (head answers text n res events env) := by
  apply not_right_of_lt
  rw [spec_stop (Or.inr hfail), turn_failed hfail hesc, asked_wrote, length_append]
  exact Nat.lt_succ_self _

/-- An error that is taken for an escape character, when the next reading does not fail. -/
theorem not_right_recovered (hfail : answers n = .fail) (hok : answers (n + 1) ≠ .fail) : ¬ Right 255 c events
    (spec 255 c answers text n .copy env) (head answers text n res events env) := by
  have hturn := @turn_failed_escape _ c answers text n events env res hfail
  cases text with
  | nil =>
    rw [follow_stop (Or.inl rfl), if_neg hok] at hturn
    rw [Right, Loop.ends_inr hturn, spec_stop (Or.inl rfl)]
    rintro ⟨-, -, -, hres⟩
    exact absurd (hres.mpr (decide_eq_true hfail)) (lt_irrefl _)
  | cons chr text =>
    apply not_right_of_lt
    rw [hturn, follow_process hok (fun _ => by decide), asked_work, spec_stop (Or.inr hfail), length_append]
    exact Nat.lt_succ_self _

/-- With a negative escape character, a character is asked for each one that is read before the stream stops. -/
theorem length_le_of_run_negative (hesc : ¬ esc < 128) {fuel : Nat} {r : Formatted E} {k : Nat}
    (hrun : Loop.run (turn esc c) fuel (head answers text n res events env) = some r)
    (hrest : r.input.rest.length ≤ k) (hleft : (left answers text n).length ≤ k) :
    events.length + text.length ≤ r.events.length + k := by
  induction text generalizing fuel n res events env with
  | nil =>
    have hle := (length_asked_turn _).trans (length_le_of_run hrun)
    exact hle.trans (Nat.le_add_right _ _)
  | cons chr text ih =>
    by_cases hfail : answers n = .fail
    · rw [left_stop (Or.inr hfail)] at hleft
      have hle := (length_asked_turn _).trans (length_le_of_run hrun)
      exact Nat.add_le_add hle hleft
    · have hturn : turn esc c (head answers (chr :: text) n res events env) =
          wrote c answers chr text (n + 1) events env := turn_copy hfail fun _ => hesc
      rw [left_cons hfail] at hleft
      unfold wrote at hturn
      cases fuel with
      | zero => cases hrun
      | succ fuel =>
        split_ifs at hturn
        · rw [Loop.run_succ_inr hturn] at hrun
          obtain rfl := Option.some.inj hrun
          simp only [length_append, length_cons, length_nil] at hrest ⊢
          omega
        · rw [Loop.run_succ_inl hturn] at hrun
          have hle := ih hrun hleft
          rw [length_append, length_singleton] at hle
          rw [length_cons]
          omega

/-- With a negative escape character, an escape is copied. -/
theorem not_right_negative (hok : answers n ≠ .fail) (hesc : ¬ esc < 128) : ¬ Right esc c events
    (spec esc c answers (esc :: text) n .copy env) (head answers (esc :: text) n res events env) := by
  rintro ⟨fuel, r, hrun, hevents, -, hrest, -⟩
  obtain ⟨hleft, hspec⟩ := @bounded_spec _ esc c answers text (n + 1) .escaped env
  rw [spec_escape hok] at hevents hrest
  have hle := length_le_of_run_negative hesc hrun (congrArg List.length hrest).le
    (by rw [left_cons hok]; exact hleft)
  rw [hevents, length_append, length_cons] at hle
  omega

/-! ## The condition -/

theorem clean_stop {mode : Mode} (hstop : InStream.Stops ⟨text, n, answers⟩) :
    Clean esc c answers text n mode env ↔
      (answers n = .fail → mode = .copy → esc = 255 ∧ answers (n + 1) = .fail) := by
  cases text with
  | nil => rfl
  | cons chr text =>
    have hfail : answers n = .fail := hstop.resolve_left (cons_ne_nil _ _)
    rw [Clean, if_pos hfail]
    exact ⟨fun h _ => h, fun h => h hfail⟩

/-- The stream stops where a character to copy is read. -/
theorem right_stop (hstop : InStream.Stops ⟨text, n, answers⟩) :
    Right esc c events (spec esc c answers text n .copy env) (head answers text n res events env) ↔
      Clean esc c answers text n .copy env := by
  rw [clean_stop hstop]
  by_cases hfail : answers n = .fail
  · by_cases hesc : esc = 255
    · subst hesc
      by_cases hagain : answers (n + 1) = .fail
      · have hturn := @turn_failed_escape _ c answers text n events env res hfail
        rw [follow_stop (Or.inr hagain), if_pos hagain] at hturn
        rw [Right, Loop.ends_inr hturn, spec_stop hstop]
        refine iff_of_true ⟨(append_nil _).symm, rfl, rfl, ?_⟩ (fun _ _ => ⟨rfl, hagain⟩)
        exact iff_of_true neg_one_lt_zero (decide_eq_true hfail)
      · exact iff_of_false (not_right_recovered hfail hagain) (fun h => hagain (h hfail rfl).2)
    · exact iff_of_false (not_right_failed hfail hesc) (fun h => hesc (h hfail rfl).1)
  · obtain rfl : text = [] := hstop.resolve_right hfail
    rw [Right, Loop.ends_inr (turn_ended hfail), spec_stop hstop]
    refine iff_of_true ⟨(append_nil _).symm, rfl, rfl, ?_⟩ (fun h => absurd h hfail)
    exact iff_of_false (lt_irrefl _) (fun h => hfail (of_decide_eq_true h))

/-- The stream stops after an escape character. -/
theorem right_escape_stop (hok : answers n ≠ .fail) (hesc : esc < 128)
    (hstop : InStream.Stops ⟨text, n + 1, answers⟩) : Right esc c events
      (spec esc c answers (esc :: text) n .copy env) (head answers (esc :: text) n res events env) := by
  rw [Right, Loop.ends_inr ((turn_escape hok hesc).trans (follow_stop hstop)), spec_escape hok, spec_stop hstop]
  refine ⟨(append_nil _).symm, rfl, rfl, ?_⟩
  by_cases hfail : answers (n + 1) = .fail
  · rw [if_pos hfail]
    exact iff_of_true neg_one_lt_zero (decide_eq_true hfail)
  · rw [if_neg hfail]
    exact iff_of_false (lt_irrefl _) (fun h => hfail (of_decide_eq_true h))

/-- The answers of `process` that end an escape. -/
theorem work_answered {x : Int} {answer : Answer} (hres : 0 ≤ res) (hanswer : (c.process env chr).1 = answer)
    (hend : answer = .DONE ∨ answer = .REJECT) (hchr : toChar x = chr) :
    State.work ⟨x, res, events, env, ⟨text, n, answers⟩⟩ c =
      .inl (head answers text n res (events ++ [.process chr]) (c.process env chr).2) := by
  subst hchr
  have hnot : ¬ res < 0 := by omega
  rcases hend with rfl | rfl
  · simp only [State.work, hanswer, State.again, if_neg hnot]
    rfl
  · simp only [State.work, hanswer, State.again, if_neg hnot]
    rfl

theorem work_error {x : Int} (hanswer : (c.process env chr).1 = .error) (hchr : toChar x = chr) :
    State.work ⟨x, res, events, env, ⟨text, n, answers⟩⟩ c =
      .inr ⟨res, events ++ [.process chr], (c.process env chr).2, ⟨text, n, answers⟩⟩ := by
  subst hchr
  simp only [State.work, hanswer, State.leave]

theorem work_continue {x : Int} (hanswer : (c.process env chr).1 = .CONTINUE) (hchr : toChar x = chr) :
    State.work ⟨x, res, events, env, ⟨text, n, answers⟩⟩ c =
      let s := head answers text n res (events ++ [.process chr]) (c.process env chr).2
      .inr (s.leave (if s.chr < 0 then ending s.chr else res)) := by
  subst hchr
  simp only [State.work, hanswer]
  split_ifs with hneg hneg' hneg'
  · rfl
  · exact absurd hneg hneg'
  · exact absurd hneg' hneg
  · rfl

/-- The stream stops in an escape that `process` continues. -/
theorem agrees_stop {mode : Mode} (hstop : InStream.Stops ⟨text, n, answers⟩) :
    Agrees events (spec esc c answers text n mode env)
      ((head answers text n res events env).leave (if (head answers text n res events env).chr < 0 then
        ending (head answers text n res events env).chr else res)) := by
  rw [spec_stop hstop, head_stop hstop]
  by_cases hfail : answers n = .fail
  · rw [if_pos hfail]
    exact ⟨(append_nil _).symm, rfl, rfl, iff_of_true neg_one_lt_zero (decide_eq_true hfail)⟩
  · rw [if_neg hfail]
    exact ⟨(append_nil _).symm, rfl, rfl,
      iff_of_false (lt_irrefl _) (fun h => hfail (of_decide_eq_true h))⟩

/-- A character after an escape character, and the answer of `process`. -/
theorem right_process (hok : answers n ≠ .fail) (hok' : answers (n + 1) ≠ .fail) (hesc : esc < 128) (hne : chr ≠ esc)
    (hres : 0 ≤ res) (ih : ∀ events env, Right esc c events (spec esc c answers text (n + 1 + 1) .copy env)
      (head answers text (n + 1 + 1) res events env) ↔ Clean esc c answers text (n + 1 + 1) .copy env) :
    Right esc c events (spec esc c answers (esc :: chr :: text) n .copy env)
      (head answers (esc :: chr :: text) n res events env) ↔
        Clean esc c answers (chr :: text) (n + 1) .escaped env := by
  have hturn := (@turn_escape _ esc c answers (chr :: text) n events env res hok hesc).trans
    (follow_process hok' fun heq => absurd heq hne)
  have hclean : Clean esc c answers (chr :: text) (n + 1) .escaped env ↔ match (c.process env chr).1 with
      | .DONE | .REJECT => Clean esc c answers text (n + 1 + 1) .copy (c.process env chr).2
      | .CONTINUE => InStream.Stops ⟨text, n + 1 + 1, answers⟩
      | .error => False := by
    rw [Clean, if_neg hok', if_neg (fun h => by cases h.1),
      if_neg (fun h => by rcases h with h | h; cases h; exact hne h.2)]
  rw [hclean, spec_escape hok, spec_process hok' (Or.inl ⟨rfl, hne⟩), Right, agrees_ask, answered]
  cases hanswer : (c.process env chr).1 with
  | DONE =>
    rw [work_answered hres hanswer (Or.inl rfl) (toChar_code chr)] at hturn
    rw [Loop.ends_inl hturn]
    exact ih _ _
  | REJECT =>
    rw [work_answered hres hanswer (Or.inr rfl) (toChar_code chr)] at hturn
    rw [Loop.ends_inl hturn]
    exact ih _ _
  | CONTINUE =>
    rw [work_continue hanswer (toChar_code chr)] at hturn
    rw [Loop.ends_inr hturn]
    by_cases hstop : InStream.Stops ⟨text, n + 1 + 1, answers⟩
    · exact iff_of_true (agrees_stop hstop) hstop
    · refine iff_of_false (fun hagrees => ?_) hstop
      rw [InStream.Stops, not_or] at hstop
      cases text with
      | nil => exact hstop.1 rfl
      | cons chr' text =>
        -- the next character is read, but `process` is not asked again
        have hlen := congrArg List.length hagrees.1
        rw [spec_process hstop.2 (Or.inr rfl), head_cons hstop.2] at hlen
        simp only [State.leave, Spec.ask, length_append, length_cons] at hlen
        omega
  | error =>
    rw [work_error hanswer (toChar_code chr)] at hturn
    rw [Loop.ends_inr hturn]
    refine iff_of_false (fun hagrees => ?_) id
    have hneg := hagrees.2.2.2.mpr rfl
    simp only at hneg
    omega

/-- A text that starts with a character to write, after those that were read before it. -/
theorem right_write {s : State E} {sp : Spec E} (hturn : turn esc c s = wrote c answers chr text n events env)
    (hsp : sp = (if (c.write env chr).1 < 0 then ⟨true, [], (c.write env chr).2, text⟩
      else spec esc c answers text n .copy (c.write env chr).2 : Spec E).ask (.write chr))
    (ih : ∀ res ≥ 0, ∀ events env, Right esc c events (spec esc c answers text n .copy env)
      (head answers text n res events env) ↔ Clean esc c answers text n .copy env) :
    Right esc c events sp s ↔
      ((c.write env chr).1 ≥ 0 → Clean esc c answers text n .copy (c.write env chr).2) := by
  rw [hsp, right_wrote hturn]
  exact forall_congr' fun hpos => ih _ hpos _ _

/-- The call is right exactly if it meets the condition. -/
theorem right_iff (hres : 0 ≤ res) : Right esc c events (spec esc c answers text n .copy env)
    (head answers text n res events env) ↔ Clean esc c answers text n .copy env := by
  generalize hlen : text.length = k
  induction k using Nat.strong_induction_on generalizing text n res events env with
  | _ k ih =>
    subst hlen
    by_cases hstop : InStream.Stops ⟨text, n, answers⟩
    · exact right_stop hstop
    · obtain ⟨hcons, hok⟩ := not_or.mp hstop
      obtain ⟨chr, text, rfl⟩ := exists_cons_of_ne_nil hcons
      by_cases heq : chr = esc
      · subst heq
        by_cases hesc : chr < 128
        · have hclean : Clean chr c answers (chr :: text) n .copy env ↔
              Clean chr c answers text (n + 1) .escaped env := by
            rw [Clean, if_neg hok, if_pos ⟨rfl, rfl⟩]
            exact and_iff_right hesc
          rw [hclean]
          by_cases hstop' : InStream.Stops ⟨text, n + 1, answers⟩
          · refine iff_of_true (right_escape_stop hok hesc hstop') ((clean_stop hstop').mpr fun _ h => ?_)
            cases h
          · obtain ⟨hcons', hok'⟩ := not_or.mp hstop'
            obtain ⟨chr', text, rfl⟩ := exists_cons_of_ne_nil hcons'
            have ih' : ∀ res ≥ 0, ∀ events env, Right chr c events (spec chr c answers text (n + 1 + 1) .copy env)
                (head answers text (n + 1 + 1) res events env) ↔ Clean chr c answers text (n + 1 + 1) .copy env :=
              fun res hres events env => ih _ (by simp only [length_cons]; omega) hres rfl
            by_cases heq' : chr' = chr
            · subst heq'
              rw [right_write ((turn_escape hok hesc).trans (follow_escape hok' hesc))
                ((spec_escape hok).trans (spec_escaped_escape hok')) ih', Clean, if_neg hok',
                if_neg (fun h => by cases h.1), if_pos (Or.inr ⟨rfl, rfl⟩)]
            · exact right_process hok hok' hesc heq' hres (ih' res hres)
        · refine iff_of_false (not_right_negative hok hesc) fun hclean => ?_
          rw [Clean, if_neg hok, if_pos ⟨rfl, rfl⟩] at hclean
          exact hesc hclean.1
      · rw [right_write (turn_copy hok fun h => absurd h heq) (spec_copy hok heq)
            (fun res hres events env => ih _ (Nat.lt_succ_self _) hres rfl), Clean, if_neg hok,
          if_neg (fun h => heq h.2), if_pos (Or.inl rfl)]

end Turns

/-- Formatting is right exactly for the streams and the clients that meet the condition. -/
theorem formats_iff (esc : UInt8) (c : Client E) (env : E) (input : InStream UInt8) :
    Formats esc c env input ↔ Clean esc c input.answers input.rest input.calls .copy env :=
  right_iff le_rfl

/-- A client that writes what it is given, and whose `process` continues once. -/
def twice : Client (List UInt8 × Bool) where
  write := fun env chr => (1, (env.1 ++ [chr], env.2))
  process := fun env _ => (if env.2 then .DONE else .CONTINUE, (env.1, true))

/-- An escape of two characters. -/
theorem not_formats : ¬ Formats 37 twice ([], false) ⟨[37, 97, 98], 0, fun _ => .bytes 1⟩ := by
  rw [formats_iff]
  intro hclean
  have hescaped : Clean 37 twice (fun _ => .bytes 1) [97, 98] 1 .escaped ([], false) := hclean.2
  have hstop : InStream.Stops ⟨[98], 2, fun _ => .bytes 1⟩ := hescaped
  rcases hstop with hnil | hfail
  · cases hnil
  · cases hfail

end Formatter

end Elm.Strings
