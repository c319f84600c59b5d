import Elm.Lib.RefCount

/-!
# `String`

The strings of `include/elm/string/String.h` and `src/string_String.cpp`.  Their characters are in buffers
that they share: a buffer has a 16-bit counter of its strings, then the characters.  A buffer that has been
freed cannot be read, written, locked nor unlocked: there is no result.
-/

namespace Elm.Strings

open RefCount Function

/-- `empty_buf`. -/
def emptyBuf : Nat := 0

/-- `zero_off`: the size of the counter. -/
def zeroOff : Nat := 2

/-- A `buffer_t`: its counter `use` and its characters `buf`. -/
abbrev Buffer := Cell (List UInt8)

/-- The bytes of a buffer, the low byte of the counter first. -/
def bytes (b : Buffer) : List UInt8 := UInt8.ofNat b.use :: UInt8.ofNat (b.use / 256) :: b.val

/-- The members of a `String`; `off` and `len` have 16 bits. -/
structure StringObj where
  buf : Nat
  off : Nat
  len : Nat
  deriving DecidableEq

/-- The buffers, the address of the next one, and the strings. -/
structure World where
  heap : Heap (List UInt8)
  next : Nat
  strings : List (Option StringObj)

/-- A pointer to characters that end with a zero: they are constant, or at an offset in a buffer. -/
inductive Chars
  | const (str : List UInt8)
  | inside (buf off : Nat)

namespace World

/-- Before the first string. -/
def start : World :=
  { heap := update (fun _ => none) emptyBuf (some ⟨1, [0]⟩), next := 1, strings := [] }

/-- `new char[]`, with the counter and the characters that are then written. -/
def new (w : World) (use : Nat) (buf : List UInt8) : World :=
  { w with heap := update w.heap w.next (some ⟨use, buf⟩), next := w.next + 1 }

/-- `lock`. -/
def lock (w : World) (buf : Nat) : Option World :=
  (retain (2 ^ 16) w.heap buf).map fun heap => { w with heap }

/-- `unlock`. -/
def unlock (w : World) (buf : Nat) : Option World :=
  (release (2 ^ 16) (· == emptyBuf) w.heap buf).map fun heap => { w with heap }

/-- The `n` bytes at an offset of a buffer. -/
def read (w : World) (buf off n : Nat) : Option (List UInt8) :=
  (w.heap buf).bind fun b =>
    if off + n ≤ (bytes b).length then some (((bytes b).drop off).take n) else none

/-- The characters of a string: `length` bytes from `chars`. -/
def chars (w : World) (s : StringObj) : Option (List UInt8) := w.read s.buf s.off s.len

/-- The characters up to the first zero. -/
def cstring (w : World) : Chars → Option (List UInt8)
  | .const str => some (str.takeWhile (· ≠ 0))
  | .inside buf off => (w.heap buf).bind fun b =>
    if 0 ∈ (bytes b).drop off then some (((bytes b).drop off).takeWhile (· ≠ 0)) else none

/-- `copy`. -/
def copy (w : World) (str : List UInt8) : Option (World × StringObj) :=
  if str.length = 0 then
    (w.lock emptyBuf).map fun w => (w, ⟨emptyBuf, zeroOff, 0⟩)
  else
    some (w.new 1 (str ++ [0]), ⟨w.next, zeroOff, str.length % 2 ^ 16⟩)

/-- The constructor with a buffer, an offset and a length. -/
def share (w : World) (buf off len : Nat) : Option (World × StringObj) :=
  (w.lock buf).map fun w => (w, ⟨buf, off % 2 ^ 16, len % 2 ^ 16⟩)

/-- `concat`, on the characters. -/
def concat (w : World) (s1 s2 : List UInt8) : Option (World × StringObj) :=
  (w.new 0 (s1 ++ s2 ++ [0])).share w.next zeroOff (s1.length + s2.length)

/-- `toc`. -/
def toc (w : World) (s : StringObj) : Option (World × StringObj) := do
  let b ← w.heap s.buf
  if b.use ≤ 1 then
    if s.len < b.val.length then
      some ({ w with heap := update w.heap s.buf (some { b with val := b.val.set s.len 0 }) }, s)
    else
      none
  else
    let str ← w.chars s
    let w' ← (w.new 1 (str ++ [0])).unlock s.buf
    some (w', ⟨w.next, zeroOff, s.len⟩)

/-- A new string. -/
def add (r : World × StringObj) : World := { r.1 with strings := r.1.strings ++ [some r.2] }

/-- The members of a string change. -/
def put (x : Nat) (r : World × StringObj) : World := { r.1 with strings := r.1.strings.set x (some r.2) }

/-- `toCString`: the string may move, and the pointer is to its characters. -/
def toCString (w : World) (x : Nat) : Option (World × Chars) := do
  let s ← slot w.strings x
  let last ← w.read s.buf (s.off + s.len) 1
  let (w, s) ← if last = [0] then some (w, s) else w.toc s
  some (put x (w, s), .inside s.buf s.off)

end World

/-- An argument of type `CString`: constant characters, or the result of `toCString` on a string. -/
inductive Arg
  | const (str : List UInt8)
  | toCString (z : Nat)

/-- The value of an argument. -/
def World.arg (w : World) : Arg → Option (World × Chars)
  | .const str => some (w, .const str)
  | .toCString z => w.toCString z

inductive Op
  | default
  | make (str : List UInt8)
  | makeC (c : Arg)
  | copy (y : Nat)
  | substring (y off len : Nat)
  | concat (y z : Nat)
  | concatC (y : Nat) (c : Arg)
  | assign (x y : Nat)
  | assignC (x : Nat) (c : Arg)
  | toCString (x : Nat)
  | destroy (x : Nat)

namespace World

/-- One operation: the strings are numbered as they are built.  `toCString` tells the bytes at the pointer
that it returns, one more than the length of the string. -/
def step (w : World) : Op → Option (World × List (List UInt8))
  | .default => do
    let r ← w.share emptyBuf zeroOff 0
    some (add r, [])
  | .make str => do
    let r ← w.copy str
    some (add r, [])
  | .makeC c => do
    let (w, p) ← w.arg c
    let r ← w.copy (← w.cstring p)
    some (add r, [])
  | .copy y => do
    let s ← slot w.strings y
    let w ← w.lock s.buf
    some (add (w, s), [])
  | .substring y off len => do
    let s ← slot w.strings y
    let r ← w.share s.buf (s.off + off) len
    some (add r, [])
  | .concat y z => do
    let s ← slot w.strings y
    let t ← slot w.strings z
    let r ← w.concat (← w.chars s) (← w.chars t)
    some (add r, [])
  | .concatC y c => do
    let (w, p) ← w.arg c
    let s ← slot w.strings y
    let r ← w.concat (← w.chars s) (← w.cstring p)
    some (add r, [])
  | .assign x y => do
    let s ← slot w.strings x
    let t ← slot w.strings y
    let w ← w.lock t.buf
    let w ← w.unlock s.buf
    some (put x (w, t), [])
  | .assignC x c => do
    let (w, p) ← w.arg c
    let s ← slot w.strings x
    let w ← w.unlock s.buf
    let r ← w.copy (← w.cstring p)
    some (put x r, [])
  | .toCString x => do
    let (w, p) ← w.toCString x
    let s ← slot w.strings x
    match p with
    | .const _ => none
    | .inside buf off => some (w, [← w.read buf off (s.len + 1)])
  | .destroy x => do
    let s ← slot w.strings x
    let w ← w.unlock s.buf
    some ({ w with strings := w.strings.set x none }, [])

/-- The operations one after the other, with what they tell. -/
def run (w : World) : List Op → Option (World × List (List UInt8))
  | [] => some (w, [])
  | op :: ops => do
    let (w, told) ← w.step op
    let (w, more) ← w.run ops
    some (w, told ++ more)

/-- The characters of the strings. -/
def contents (w : World) : List (Option (List UInt8)) := w.strings.map fun o => o.bind w.chars

end World

end Elm.Strings
