import Mathlib.Tactic

/-!
# `io::Input`

The scanners of `src/io_Input.cpp` that read an integer from a text.  A scanner that fails gives zero;
what it leaves in the stream and the state of the stream are not used.
-/

namespace Elm.Io

/-- A statement about the characters of a list is decided on the list, not on all the characters. -/
instance (priority := high) decidableForallMem {p : Char → Prop} [DecidablePred p] (l : List Char) :
    Decidable (∀ c ∈ l, p c) :=
  List.decidableBAll p l

/-- `StringBuffer::toString`: the length of a `String` has 16 bits. -/
def StringBuffer.toString {α : Type} (text : List α) : List α := text.take (text.length % 2 ^ 16)

theorem StringBuffer.toString_of_lt {α : Type} {text : List α} (h : text.length < 2 ^ 16) :
    toString text = text := by
  rw [toString, Nat.mod_eq_of_lt h, List.take_length]

theorem StringBuffer.toString_length {α : Type} (text : List α) :
    (toString text).length = text.length % 2 ^ 16 := by
  rw [toString, List.length_take]
  exact Nat.min_eq_left (Nat.mod_le _ _)

theorem StringBuffer.toString_length_lt {α : Type} (text : List α) : (toString text).length < 2 ^ 16 := by
  rw [toString_length]
  exact Nat.mod_lt _ (by decide)

/-- `isspace`. -/
def isSpace (c : Char) : Bool :=
  c = ' ' || c = '\t' || c = '\n' || c = '\r' || c.toNat = 11 || c.toNat = 12

/-- `skip`. -/
def skip (text : List Char) : List Char := text.dropWhile isSpace

/-- `test_base`. -/
def testBase (chr : Char) (base : Nat) : Option Nat :=
  if base < 10 then
    if '0' ≤ chr ∧ chr.toNat < '0'.toNat + base then some (chr.toNat - '0'.toNat) else none
  else if '0' ≤ chr ∧ chr ≤ '9' then some (chr.toNat - '0'.toNat)
  else if 'a' ≤ chr ∧ chr.toNat < 'a'.toNat + base - 10 then some (chr.toNat - 'a'.toNat + 10)
  else if 'A' ≤ chr ∧ chr.toNat < 'A'.toNat + base - 10 then some (chr.toNat - 'A'.toNat + 10)
  else none

/-- The loop of `scanULong` over the digits; a sum that wraps is a failure. -/
def scanDigits (base : Nat) : List Char → UInt32 → UInt32
  | [], val => val
  | chr :: text, val =>
    match testBase chr base with
    | none => val
    | some digit =>
      let next := val * UInt32.ofNat base + UInt32.ofNat digit
      if next < val then 0 else scanDigits base text next

/-- `scanULong`, which finds the base. -/
def scanULong (text : List Char) : UInt32 :=
  match skip text with
  | '0' :: chr :: text =>
    if chr = 'x' ∨ chr = 'X' then scanDigits 16 text 0
    else if chr = 'b' ∨ chr = 'B' then scanDigits 2 text 0
    else scanDigits 8 (chr :: text) 0
  | text => scanDigits 10 text 0

/-- `scanLong`. -/
def scanLong (text : List Char) : Int :=
  let neg := (skip text).head? = some '-'
  let val := match skip text with
    | '-' :: text | '+' :: text => scanULong text
    | text => scanULong text
  if val.toNat ≥ 2 ^ 31 then 0
  else if neg then -(val.toNat : Int)
  else val.toNat

example : scanLong "-0x1f".toList = -31 := by decide

end Elm.Io
