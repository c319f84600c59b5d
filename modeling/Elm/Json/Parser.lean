import Elm.Io.ScanDouble

/-!
# `json::Parser`

The parser of `src/json_Parser.cpp`.  The bytes of the input are read one after the other; a `char` is
the character of the same code and `'\0'` also stands for the end of the input.  Loops and recursive
calls that never end have no result (`none`); an exception of the parser or of the maker is an error.  The
floating values are rational numbers, as those of `io::Input`.
-/

namespace Elm.Json

open Io

/-- `Parser::token_t`. -/
inductive Token
  | lbrace | rbrace | lbrack | rbrack | nullToken | true | false | int | float | string | comma | colon
  deriving DecidableEq, Repr

/-- What stops the parser: a `json::Exception` with its message, or a failed `ASSERT`. -/
inductive Exn
  | exception (message : String)
  | assertion
  deriving DecidableEq

/-- The outcome of a call. -/
abbrev Result (α : Type) := ExceptT Exn Option α

/-- The members of `Parser` but the maker, and the bytes of the stream left to read. -/
structure Parser where
  line : Nat
  col : Nat
  text : List Char
  prev : Char
  input : List UInt8

/-- `text >> d`. -/
def scanDouble (text : List Char) : ℚ := (⟨text, false, false⟩ : Input).scanDouble.1

/-- `Maker`: its methods change its state or throw.  `Parser` never calls `endObject` nor
`endArray`. -/
structure Maker (μ : Type) where
  beginObject : μ → Except String μ := fun _ => .error "unexpected object"
  endObject : μ → Except String μ := fun m => .ok m
  beginArray : μ → Except String μ := fun _ => .error "unexpected array"
  endArray : μ → Except String μ := fun m => .ok m
  onField : List Char → μ → Except String μ := fun _ _ => .error "unexpected field"
  onNull : μ → Except String μ := fun _ => .error "unexpected null"
  onBool : Bool → μ → Except String μ := fun _ _ => .error "unexpected boolean value"
  onInt : Int → μ → Except String μ := fun _ _ => .error "unexpected integer value"
  onFloat : ℚ → μ → Except String μ := fun _ _ => .error "unexpected float value"
  onString : List Char → μ → Except String μ := fun _ _ => .error "unexpected string value"

namespace Parser

/-- `error`. -/
def error (s : Parser) (message : String) : Exn := .exception s!"{s.line}:{s.col}: {message}"

/-- `nextChar`; a byte sequence has no read error. -/
def nextChar (s : Parser) : Char × Parser :=
  if s.prev ≠ '\x00' then (s.prev, { s with prev := '\x00' })
  else match s.input with
    | [] => ('\x00', s)
    | b :: input =>
      let c := Char.ofUInt8 b
      (c, if c = '\n' then { s with line := s.line + 1, col := 0, input } else { s with input })

/-- `pushBack`. -/
def pushBack (s : Parser) (c : Char) : Except Exn Parser :=
  if s.prev ≠ '\x00' then .error .assertion else .ok { s with prev := c }

/-- `isNumber`. -/
def isNumber (c : Char) : Bool := '0' ≤ c && c ≤ '9' || c = '.' || c = 'e' || c = 'E'

/-- `int(c)`, for a signed `char`. -/
def code (c : Char) : Int := if c.toNat < 128 then c.toNat else (c.toNat : Int) - 256

/-! ## The lexer -/

/-- `dec_base`, `hex_base` and `bin_base` of `parseNumber`. -/
def baseChars (base : Nat) : List Char :=
  if base = 10 then "0123456789+-.eE".toList
  else if base = 2 then "01".toList
  else "0123456789abcdefABCEDEF".toList

/-- What `parseNumber` puts in `buf` before the number. -/
def basePrefix (base : Nat) : List Char :=
  if base = 10 then [] else if base = 2 then "0b".toList else "0x".toList

/-- `float_chars` of `parseNumber`. -/
def floatChars : List Char := ".eE".toList

/-- The loop of `parseNumber` on `c`, `buf` and `t`. -/
def scanNumber (chars : List Char) (c : Char) (buf : List Char) (t : Token) (s : Parser) :
    Option (Except Exn (Token × Parser)) :=
  if c ∈ chars then
    let s := { s with col := s.col + 1 }
    let t := if c ∈ floatChars then .float else t
    let (c', s) := s.nextChar
    s |>.scanNumber chars c' (buf ++ [c]) t
  else
    some (do
      let s ← s.pushBack c
      return (t, { s with text := StringBuffer.toString buf }))
partial_fixpoint

/-- `parseNumber`. -/
def parseNumber (s : Parser) (c : Char) (base : Nat) : Result (Token × Parser) :=
  scanNumber (baseChars base) c (basePrefix base) .int s

/-- `escapes` of `parseString`. -/
def escapes : List Char := "\"'\\/bfnrt".toList

/-- `Char::asHex`. -/
def asHex (c : Char) : Option Nat :=
  if '0' ≤ c ∧ c ≤ '9' then some (c.toNat - '0'.toNat)
  else if 'a' ≤ c ∧ c ≤ 'f' then some (c.toNat - 'a'.toNat + 10)
  else if 'A' ≤ c ∧ c ≤ 'F' then some (c.toNat - 'A'.toNat + 10)
  else none

/-- `utf16::Char::toUTF8`. -/
def toUTF8 (c : Nat) : List Char :=
  if c ≤ 0x7F then [Char.ofNat c]
  else if c ≤ 0x7FF then [Char.ofNat (0xC0 ||| c >>> 6), Char.ofNat (0x80 ||| c &&& 0x3F)]
  else [Char.ofNat (0xE0 ||| c >>> 12), Char.ofNat (0x80 ||| c >>> 6 &&& 0x3F),
    Char.ofNat (0x80 ||| c &&& 0x3F)]

/-- The loop over the `k` digits of an escape `\u`; the character read so far is put in `buf` at each
turn. -/
def scanHex : Nat → Nat → List Char → Parser → Except Exn (List Char × Parser)
  | 0, _, buf, s => .ok (buf, s)
  | k + 1, wc, buf, s =>
    let (c, s) := s.nextChar
    match asHex c with
    | none => .error (s.error "hex digit expected here")
    | some d =>
      let wc := wc <<< 4 ||| d
      scanHex k wc (buf ++ toUTF8 (wc % 2 ^ 16)) s

/-- The loop of `parseString` on `c` and `buf`. -/
def scanString (q c : Char) (buf : List Char) (s : Parser) : Option (Except Exn Parser) :=
  if c = q then some (.ok { s with text := StringBuffer.toString buf })
  else if c ≠ '\\' then
    let (c', s) := s.nextChar
    s |>.scanString q c' (buf ++ [c])
  else
    let (c, s) := s.nextChar
    if c ∈ escapes then
      -- `text << c` builds a new string, which is dropped
      let (c', s) := s.nextChar
      s |>.scanString q c' buf
    else if c ≠ 'u' then some (.error (s.error "bad escape in string"))
    else match scanHex 4 0 buf s with
      | .error e => some (.error e)
      | .ok (buf, s) =>
        let (c', s) := s.nextChar
        s |>.scanString q c' buf
partial_fixpoint

/-- `parseString`. -/
def parseString (s : Parser) (q : Char) : Result Parser :=
  let (c, s) := s.nextChar
  scanString q c [] s

/-- `parseLitt`, on the characters that follow the first one. -/
def parseLitt : List Char → Parser → Except Exn Parser
  | [], s => .ok s
  | l :: litt, s =>
    let (c, s) := s.nextChar
    if c ≠ l then .error (s.error "unknown identifier") else parseLitt litt s

/-- `while(c != '\n') c = nextChar(in)`. -/
def skipLine (c : Char) (s : Parser) : Option Parser :=
  if c ≠ '\n' then
    let (c, s) := s.nextChar
    s |>.skipLine c
  else
    some s
partial_fixpoint

/-- `while(nextChar(in) != '*')`. -/
def skipToStar (s : Parser) : Option Parser :=
  let (c, s) := s.nextChar
  if c ≠ '*' then s |>.skipToStar else some s
partial_fixpoint

/-- The loop of `parseComment` over the body of a block comment. -/
def skipBlock (s : Parser) : Option Parser := do
  let s ← skipToStar s
  let (c, s) := s.nextChar
  if c = '/' then some s else s |>.skipBlock
partial_fixpoint

/-- `parseComment`. -/
def parseComment (s : Parser) : Result Parser :=
  let (c, s) := s.nextChar
  if c = '/' then (skipLine c s).map .ok
  else if c = '*' then (skipBlock s).map .ok
  else throw (s.error "bad character")

/-- `parseBasedNumber`. -/
def parseBasedNumber (s : Parser) : Result (Token × Parser) :=
  let (c, s) := s.nextChar
  if c = 'x' ∨ c = 'X' then
    let (c, s) := s.nextChar
    s.parseNumber c 16
  else if c = 'b' ∨ c = 'B' then
    let (c, s) := s.nextChar
    s.parseNumber c 2
  else if isNumber c then s.parseNumber c 10
  else some (do
    let s ← s.pushBack c
    return (.int, { s with text := ['0'] }))

/-- The tokens of one character. -/
def symbol : Char → Option Token
  | '{' => some .lbrace
  | '}' => some .rbrace
  | '[' => some .lbrack
  | ']' => some .rbrack
  | ':' => some .colon
  | ',' => some .comma
  | _ => none

/-- The literals, by their first character. -/
def literal : Char → Option (List Char × Token)
  | 'n' => some ("ull".toList, .nullToken)
  | 't' => some ("rue".toList, .true)
  | 'f' => some ("alse".toList, .false)
  | _ => none

/-- `next`. -/
def next (s : Parser) : Result (Token × Parser) := do
  let (c, s) := s.nextChar
  if let some t := symbol c then
    return (t, s)
  else if c = '\'' ∨ c = '"' then
    let s ← s.parseString c
    return (.string, s)
  else if c = '\n' ∨ c = '\t' ∨ c = '\r' ∨ c = ' ' then
    s |>.next
  else if c = '+' ∨ c = '-' then
    s.parseNumber c 10
  else if let some (litt, t) := literal c then
    let s ← liftExcept (parseLitt litt s)
    return (t, s)
  else if c = '/' then
    let s ← s.parseComment
    s |>.next
  else if c = '0' then
    s.parseBasedNumber
  else if isNumber c then
    s.parseNumber c 10
  else
    throw (s.error s!"bad character '{c}' (code = {code c})")
partial_fixpoint

/-! ## The parser -/

variable {μ : Type}

/-- A call of a method of the maker. -/
def make (call : Except String μ) : Result μ :=
  match call with
  | .ok m => pure m
  | .error message => throw (.exception message)

mutual

/-- `parseValue` on the token `t`. -/
def parseValue (mk : Maker μ) (t : Token) (m : μ) (s : Parser) : Result (μ × Parser) := do
  match t with
  | .lbrace =>
    let m ← make (mk.beginObject m)
    s |>.parseObject mk m
  | .lbrack =>
    let m ← make (mk.beginArray m)
    s |>.parseArray mk m
  | .nullToken => return (← make (mk.onNull m), s)
  | .true => return (← make (mk.onBool Bool.true m), s)
  | .false => return (← make (mk.onBool Bool.false m), s)
  | .int => return (← make (mk.onInt (scanLong s.text) m), s)
  | .float => return (← make (mk.onFloat (scanDouble s.text) m), s)
  | .string => return (← make (mk.onString s.text m), s)
  | _ => throw (s.error "unexpected symbol")
partial_fixpoint

/-- `parseArray`. -/
def parseArray (mk : Maker μ) (m : μ) (s : Parser) : Result (μ × Parser) := do
  let (t, s) ← s.next
  s |>.parseItems mk t m
partial_fixpoint

/-- The loop of `parseArray` on the token `t`. -/
def parseItems (mk : Maker μ) (t : Token) (m : μ) (s : Parser) : Result (μ × Parser) := do
  if t ≠ .rbrack then
    let (m, s) ← (s |>.parseValue mk t m)
    let (t, s) ← s.next
    if t = .comma then
      let (t, s) ← s.next
      s |>.parseItems mk t m
    else if t ≠ .rbrack then
      throw (s.error "unexpected symbol")
    else
      s |>.parseItems mk t m
  else
    return (m, s)
partial_fixpoint

/-- `parseObject`. -/
def parseObject (mk : Maker μ) (m : μ) (s : Parser) : Result (μ × Parser) := do
  let (t, s) ← s.next
  s |>.parseFields mk t m
partial_fixpoint

/-- The loop of `parseObject` on the token `t`. -/
def parseFields (mk : Maker μ) (t : Token) (m : μ) (s : Parser) : Result (μ × Parser) := do
  if t ≠ .rbrace then
    if t ≠ .string then
      throw (s.error "expected field name here")
    let m ← make (mk.onField s.text m)
    let (t, s) ← s.next
    if t ≠ .colon then
      throw (s.error "':' expected here")
    let (t, s) ← s.next
    let (m, s) ← (s |>.parseValue mk t m)
    let (t, s) ← s.next
    if t = .comma then
      let (t, s) ← s.next
      s |>.parseFields mk t m
    else if t ≠ .rbrace then
      throw (s.error "',' or '\x7d' expected here")
    else
      s |>.parseFields mk t m
  else
    return (m, s)
partial_fixpoint

end

/-- `doParsing`, on the members left by an earlier parse and a new stream. -/
def doParsing (mk : Maker μ) (m : μ) (s : Parser) (input : List UInt8) : Result (μ × Parser) := do
  let s := { s with line := 1, col := 0, prev := '\x00', input }
  let (t, s) ← s.next
  parseValue mk t m s

end Parser

end Elm.Json
