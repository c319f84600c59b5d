import Elm.Io.Output
import Elm.Io.Utf8

/-!
# `json::Saver`

The saver of `src/json.cpp`.  A call whose `ASSERTP` fails, or which throws an `utf8::Exception`, has no
result.  A byte that is printed is the character of the same code.
-/

namespace Elm.Json

open Io

/-- The integer types that `write` takes. -/
inductive IntType
  | schar | uchar | short | ushort | int | uint | long | ulong | longLong | ulongLong
  deriving DecidableEq

namespace IntType

def sign : IntType → Bool
  | schar | short | int | long | longLong => true
  | uchar | ushort | uint | ulong | ulongLong => false

def size : IntType → Nat
  | schar | uchar => 1
  | short | ushort => 2
  | int | uint => 4
  | long | ulong | longLong | ulongLong => 8

/-- The values of the type. -/
def Holds (t : IntType) (x : Int) : Prop :=
  if t.sign then -2 ^ (8 * t.size - 1) ≤ x ∧ x < 2 ^ (8 * t.size - 1) else 0 ≤ x ∧ x < 2 ^ (8 * t.size)

/-- `_out << x`.  There is an operator for `t::int64`, which is `long`, and `long long` takes the one of
the types that cannot be printed. -/
def print (t : IntType) (x : Int) : List Char :=
  match t with
  | longLong | ulongLong => "<not printable>".toList
  | _ => IntFormat.print { val := x, sign := t.sign, size := t.size }

end IntType

/-- A `string`: its characters, and the byte behind them in its buffer. -/
structure StringArg where
  chars : List UInt8
  behind : UInt8

/-- The bytes that `utf8::Iter(string)` reads.  The constructor works on a copy of the string, and where no null
character ends it, `toCString` gives the copy a buffer of its own, which is freed as the constructor ends: only the
first character is read before, and the next ones are what the memory then contains. -/
def StringArg.read (str : StringArg) (freed : Nat → UInt8) : List UInt8 :=
  if str.behind = 0 then str.chars
  else match Utf8.parse str.chars with
    | none => str.chars
    | some (_, rest) =>
      str.chars.take (str.chars.length - rest.length) ++ (List.range rest.length).map freed

/-- The values of `put` and `write`, but the floating-point ones.  A string is what its `utf8::Iter` reads: its bytes
for a `cstring`, `StringArg.read` for a `string`. -/
inductive Operand
  | null
  | bool (val : Bool)
  | char (c : UInt8)
  | string (str : List UInt8)
  | int (t : IntType) (x : Int) (hx : t.Holds x)

/-- `Saver::state_t`. -/
inductive SaverState
  | BEGIN | OBJECT | IN_OBJECT | FIELD | ARRAY | IN_ARRAY | END
  deriving DecidableEq

/-- The members of `Saver`, and what has been printed on `_out`. -/
structure Saver where
  state : SaverState := .BEGIN
  stack : List SaverState := []
  readable : Bool := false
  indent : List Char := ['\t']
  out : List Char := []

namespace Saver

/-- `_out <<`. -/
def print (s : Saver) (text : List Char) : Saver := { s with out := s.out ++ text }

/-- `stack.push`. -/
def push (s : Saver) (state : SaverState) : Saver := { s with stack := state :: s.stack }

/-- `stack.pop`. -/
def pop (s : Saver) : Option (SaverState × Saver) :=
  match s.stack with
  | [] => none
  | state :: stack => some (state, { s with stack })

/-- `doIndent`. -/
def doIndent (s : Saver) (close : Bool) : Saver :=
  let s := if ¬ close ∧ (s.state = .IN_ARRAY ∨ s.state = .IN_OBJECT) then s.print [','] else s
  if s.readable ∧ s.state ≠ .FIELD then
    s.print ('\n' :: (List.replicate s.stack.length s.indent).flatten)
  else
    s

/-- `next`. -/
def next (s : SaverState) : SaverState :=
  if s = .OBJECT then .IN_OBJECT else if s = .ARRAY then .IN_ARRAY else s

/-- `isObject`. -/
def isObject (s : SaverState) : Bool := s = .OBJECT ∨ s = .IN_OBJECT

/-- `isArray`. -/
def isArray (s : SaverState) : Bool := s = .ARRAY ∨ s = .IN_ARRAY

/-- `beginMap`. -/
def beginMap (s : Saver) : Option Saver :=
  if s.state ≠ .END ∧ ¬ isObject s.state then
    let s := (s.doIndent false).print ['{']
    let s := if isArray s.state then s.push s.state else s
    some { s with state := .OBJECT }
  else
    none

/-- `endMap`. -/
def endMap (s : Saver) : Option Saver :=
  if isObject s.state then do
    let s ← if s.stack = [] then some { s with state := .END } else do
      let (state, s) ← s.pop
      some { s with state := next state }
    some ((s.doIndent true).print ['}'])
  else
    none

/-- `beginList`. -/
def beginList (s : Saver) : Option Saver :=
  if s.state ≠ .END ∧ (s.state = .FIELD ∨ isArray s.state) then
    let s := (s.doIndent false).print ['[']
    let s := if s.state ≠ .FIELD then s.push s.state else s
    some { s with state := .ARRAY }
  else
    none

/-- `endList`. -/
def endList (s : Saver) : Option Saver :=
  if isArray s.state then do
    let (state, s) ← s.pop
    let s := ({ s with state := .ARRAY }.doIndent true).print [']']
    some { s with state := next state }
  else
    none

/-- `\\u` and the code of a character. -/
def unicodeEscape (c : Nat) : List Char :=
  '\\' :: 'u' :: IntFormat.print
    { val := c, base := 16, width := 4, pad := '0', align := .right, sign := false, size := 4 }

/-- `escape`, on a `utf8::char_t`. -/
def escape (c : Nat) : List Char :=
  if c = '"'.toNat then ['\\', '"']
  else if c = '\\'.toNat then ['\\', '\\']
  else if c = 8 then ['\\', 'b']
  else if c = 12 then ['\\', 'f']
  else if c = '\n'.toNat then ['\\', 'n']
  else if c = '\r'.toNat then ['\\', 'r']
  else if c = '\t'.toNat then ['\\', 't']
  else if c ≥ 32 ∧ c < 128 then [Char.ofNat c]
  else unicodeEscape c

/-- A string between quotes. -/
def quote (codes : List Nat) : List Char := '"' :: (codes.flatMap escape ++ ['"'])

/-- `key`, on what its `utf8::Iter` reads. -/
def key (s : Saver) (id : List UInt8) : Option Saver :=
  if isObject s.state then do
    let codes ← Utf8.chars id
    let s := (s.doIndent false).print (quote codes)
    let s := s.print (if s.readable then [':', ' '] else [':'])
    some { s.push s.state with state := .FIELD }
  else
    none

/-- The value of a `char` as a `utf8::char_t`: the bytes from 128 on are negative. -/
def charCode (c : UInt8) : Nat := if c < 128 then c.toNat else 2 ^ 32 - 256 + c.toNat

/-- The end of `put` and `write`. -/
def putNext (s : Saver) : Option Saver := do
  let s ← if s.state = .FIELD then do
      let (state, s) ← s.pop
      some { s with state }
    else some s
  some { s with state := next s.state }

/-- `nextByValue`. -/
def nextByValue (s : Saver) : Option Saver :=
  match s.state with
  | .BEGIN => some { s with state := .END }
  | .OBJECT | .IN_OBJECT => none
  | .FIELD => do
    let (_, s) ← s.pop
    some { s with state := .IN_OBJECT }
  | .ARRAY => some { s with state := .IN_ARRAY }
  | .IN_ARRAY => some s
  | .END => none

/-- `put` and `write`, on a text that is not the one of a number. -/
def putText (s : Saver) (text : List Char) : Option Saver :=
  if s.state = .FIELD ∨ isArray s.state then ((s.doIndent false).print text).putNext else none

/-- `put` and `write`. -/
def write (s : Saver) : Operand → Option Saver
  | .null => s.putText "null".toList
  | .bool val => s.putText (if val then "true".toList else "false".toList)
  | .char c => s.putText (quote [charCode c])
  | .string str => do s.putText (quote (← Utf8.chars str))
  | .int t x _ => do
    let s ← (s.doIndent false).nextByValue
    some (s.print (t.print x))

/-- A call. -/
inductive Op
  | beginMap
  | endMap
  | beginList
  | endList
  | key (id : List UInt8)
  | write (v : Operand)

def step (s : Saver) : Op → Option Saver
  | .beginMap => s.beginMap
  | .endMap => s.endMap
  | .beginList => s.beginList
  | .endList => s.endList
  | .key id => s.key id
  | .write v => s.write v

/-- A saver before its first call. -/
def start (readable : Bool) (indent : List Char) : Saver := { readable, indent }

/-- The calls one after the other. -/
def run (s : Saver) (ops : List Op) : Option Saver := ops.foldlM step s

end Saver

end Elm.Json
