import Elm.Lib.Loop
import Elm.Lib.Md5

/-!
# `checksum::MD5`

The checksum of `include/elm/checksum/MD5.h` and `src/checksum_MD5.cpp`.  A buffer is the list of its
bytes; a copy out of the bounds of a buffer, a failed assertion and a loop that does not end have no
result.

`put` of a block that does not fit calls `update` but neither counts the bytes that it has copied nor
goes forward in the block.
-/

namespace Elm.Checksum

/-- `MD5_BUFFER`. -/
def md5Buffer : Nat := 1024

/-- `MD5_PADDING`. -/
def md5Padding : List UInt8 := 0x80 :: List.replicate 63 0

/-- `memcpy(dst + off, src, n)`, inside the bounds. -/
def memcpy (dst : List UInt8) (off : Nat) (src : List UInt8) (n : Nat) : Option (List UInt8) :=
  if off + n ≤ dst.length ∧ n ≤ src.length then
    some (dst.take off ++ src.take n ++ dst.drop (off + n))
  else
    none

/-! ## The rounds -/

/-- `FF`, `GG`, `HH` and `II`. -/
inductive Macro
  | ff | gg | hh | ii
  deriving DecidableEq

/-- `F`, `G`, `H` and `I`. -/
def Macro.fn : Macro → BitVec 32 → BitVec 32 → BitVec 32 → BitVec 32
  | .ff, x, y, z => (x &&& y) ||| (~~~x &&& z)
  | .gg, x, y, z => (x &&& z) ||| (~~~z &&& y)
  | .hh, x, y, z => x ^^^ y ^^^ z
  | .ii, x, y, z => y ^^^ (x ||| ~~~z)

/-- The registers given to a macro, the one it assigns first. -/
inductive Roles
  | abcd | dabc | cdab | bcda
  deriving DecidableEq

/-- `ROTATE_LEFT`. -/
def rotateLeft (w : BitVec 32) (s : Nat) : BitVec 32 := w <<< s ||| (w &&& 0xFFFFFFFF#32) >>> (32 - s)

/-- A call of a macro in `encode`, on the word `x[k]`. -/
structure Call where
  fn : Macro
  roles : Roles
  k : Nat
  s : Nat
  t : BitVec 32
  deriving DecidableEq

def Call.run (x : Nat → BitVec 32) (r : Md5.Regs) (f : Call) : Md5.Regs :=
  match f.roles with
  | .abcd => { r with a := r.b + rotateLeft (r.a + f.fn.fn r.b r.c r.d + x f.k + f.t) f.s }
  | .dabc => { r with d := r.a + rotateLeft (r.d + f.fn.fn r.a r.b r.c + x f.k + f.t) f.s }
  | .cdab => { r with c := r.d + rotateLeft (r.c + f.fn.fn r.d r.a r.b + x f.k + f.t) f.s }
  | .bcda => { r with b := r.c + rotateLeft (r.b + f.fn.fn r.c r.d r.a + x f.k + f.t) f.s }

/-- `S11` to `S44`. -/
def s11 : Nat := 7
def s12 : Nat := 12
def s13 : Nat := 17
def s14 : Nat := 22
def s21 : Nat := 5
def s22 : Nat := 9
def s23 : Nat := 14
def s24 : Nat := 20
def s31 : Nat := 4
def s32 : Nat := 11
def s33 : Nat := 16
def s34 : Nat := 23
def s41 : Nat := 6
def s42 : Nat := 10
def s43 : Nat := 15
def s44 : Nat := 21

/-- The 64 calls of `encode`. -/
def calls : List Call := [
  ⟨.ff, .abcd, 0, s11, 0xd76aa478⟩, ⟨.ff, .dabc, 1, s12, 0xe8c7b756⟩,
  ⟨.ff, .cdab, 2, s13, 0x242070db⟩, ⟨.ff, .bcda, 3, s14, 0xc1bdceee⟩,
  ⟨.ff, .abcd, 4, s11, 0xf57c0faf⟩, ⟨.ff, .dabc, 5, s12, 0x4787c62a⟩,
  ⟨.ff, .cdab, 6, s13, 0xa8304613⟩, ⟨.ff, .bcda, 7, s14, 0xfd469501⟩,
  ⟨.ff, .abcd, 8, s11, 0x698098d8⟩, ⟨.ff, .dabc, 9, s12, 0x8b44f7af⟩,
  ⟨.ff, .cdab, 10, s13, 0xffff5bb1⟩, ⟨.ff, .bcda, 11, s14, 0x895cd7be⟩,
  ⟨.ff, .abcd, 12, s11, 0x6b901122⟩, ⟨.ff, .dabc, 13, s12, 0xfd987193⟩,
  ⟨.ff, .cdab, 14, s13, 0xa679438e⟩, ⟨.ff, .bcda, 15, s14, 0x49b40821⟩,
  ⟨.gg, .abcd, 1, s21, 0xf61e2562⟩, ⟨.gg, .dabc, 6, s22, 0xc040b340⟩,
  ⟨.gg, .cdab, 11, s23, 0x265e5a51⟩, ⟨.gg, .bcda, 0, s24, 0xe9b6c7aa⟩,
  ⟨.gg, .abcd, 5, s21, 0xd62f105d⟩, ⟨.gg, .dabc, 10, s22, 0x2441453⟩,
  ⟨.gg, .cdab, 15, s23, 0xd8a1e681⟩, ⟨.gg, .bcda, 4, s24, 0xe7d3fbc8⟩,
  ⟨.gg, .abcd, 9, s21, 0x21e1cde6⟩, ⟨.gg, .dabc, 14, s22, 0xc33707d6⟩,
  ⟨.gg, .cdab, 3, s23, 0xf4d50d87⟩, ⟨.gg, .bcda, 8, s24, 0x455a14ed⟩,
  ⟨.gg, .abcd, 13, s21, 0xa9e3e905⟩, ⟨.gg, .dabc, 2, s22, 0xfcefa3f8⟩,
  ⟨.gg, .cdab, 7, s23, 0x676f02d9⟩, ⟨.gg, .bcda, 12, s24, 0x8d2a4c8a⟩,
  ⟨.hh, .abcd, 5, s31, 0xfffa3942⟩, ⟨.hh, .dabc, 8, s32, 0x8771f681⟩,
  ⟨.hh, .cdab, 11, s33, 0x6d9d6122⟩, ⟨.hh, .bcda, 14, s34, 0xfde5380c⟩,
  ⟨.hh, .abcd, 1, s31, 0xa4beea44⟩, ⟨.hh, .dabc, 4, s32, 0x4bdecfa9⟩,
  ⟨.hh, .cdab, 7, s33, 0xf6bb4b60⟩, ⟨.hh, .bcda, 10, s34, 0xbebfbc70⟩,
  ⟨.hh, .abcd, 13, s31, 0x289b7ec6⟩, ⟨.hh, .dabc, 0, s32, 0xeaa127fa⟩,
  ⟨.hh, .cdab, 3, s33, 0xd4ef3085⟩, ⟨.hh, .bcda, 6, s34, 0x4881d05⟩,
  ⟨.hh, .abcd, 9, s31, 0xd9d4d039⟩, ⟨.hh, .dabc, 12, s32, 0xe6db99e5⟩,
  ⟨.hh, .cdab, 15, s33, 0x1fa27cf8⟩, ⟨.hh, .bcda, 2, s34, 0xc4ac5665⟩,
  ⟨.ii, .abcd, 0, s41, 0xf4292244⟩, ⟨.ii, .dabc, 7, s42, 0x432aff97⟩,
  ⟨.ii, .cdab, 14, s43, 0xab9423a7⟩, ⟨.ii, .bcda, 5, s44, 0xfc93a039⟩,
  ⟨.ii, .abcd, 12, s41, 0x655b59c3⟩, ⟨.ii, .dabc, 3, s42, 0x8f0ccc92⟩,
  ⟨.ii, .cdab, 10, s43, 0xffeff47d⟩, ⟨.ii, .bcda, 1, s44, 0x85845dd1⟩,
  ⟨.ii, .abcd, 8, s41, 0x6fa87e4f⟩, ⟨.ii, .dabc, 15, s42, 0xfe2ce6e0⟩,
  ⟨.ii, .cdab, 6, s43, 0xa3014314⟩, ⟨.ii, .bcda, 13, s44, 0x4e0811a1⟩,
  ⟨.ii, .abcd, 4, s41, 0xf7537e82⟩, ⟨.ii, .dabc, 11, s42, 0xbd3af235⟩,
  ⟨.ii, .cdab, 2, s43, 0x2ad7d2bb⟩, ⟨.ii, .bcda, 9, s44, 0xeb86d391⟩]

/-- `GET_UINT32`. -/
def getUInt32 (b : List UInt8) (i : Nat) : BitVec 32 :=
  (b.getD i 0).toBitVec.setWidth 32 ||| (b.getD (i + 1) 0).toBitVec.setWidth 32 <<< 8 |||
    (b.getD (i + 2) 0).toBitVec.setWidth 32 <<< 16 ||| (b.getD (i + 3) 0).toBitVec.setWidth 32 <<< 24

/-- `encode`. -/
def encode (regs : Md5.Regs) (buffer : List UInt8) : Md5.Regs :=
  let r := calls.foldl (Call.run fun k => getUInt32 buffer (4 * k)) regs
  ⟨regs.a + r.a, regs.b + r.b, regs.c + r.c, regs.d + r.d⟩

/-! ## The checksum -/

/-- `MD5`; `size` and `bits` are `uint32`. -/
structure MD5 where
  finalized : Bool
  regs : Md5.Regs
  buf : List UInt8
  size : Nat
  bits : Nat
  digest : List UInt8

namespace MD5

/-- The constructor; `_digest` is not set. -/
def new : MD5 :=
  ⟨false, ⟨0x67452301#32, 0xefcdab89#32, 0x98badcfe#32, 0x10325476#32⟩, List.replicate md5Buffer 0,
    0, 0, []⟩

/-- One turn of the loop of `update`. -/
def updateTurn (st : MD5 × Nat) : (MD5 × Nat) ⊕ (MD5 × Nat) :=
  let (s, i) := st
  if s.size - i > 63 then
    let buffer := (s.buf.drop i).take 64
    .inl ({ s with regs := encode s.regs buffer, bits := (s.bits + 64) % 2 ^ 32 }, i + 64)
  else
    .inr st

/-- `update`. -/
def update (s : MD5) : Option MD5 := do
  if s.finalized then none
  let (s, i) ← Loop.run updateTurn (s.size / 64 + 1) (s, 0)
  let buffer ← memcpy (List.replicate 64 0) 0 (s.buf.drop i) (s.size - i)
  let buf ← memcpy s.buf 0 buffer (s.size - i)
  return { s with buf, size := s.size - i }

/-- One turn of the loop of `put`, whose `length` is a `uint32`. -/
def putTurn (block : List UInt8) (s : MD5) : MD5 ⊕ Option MD5 :=
  if (block.length + s.size) % 2 ^ 32 > md5Buffer then
    let copied := do
      let buf ← memcpy s.buf s.size block (min block.length (md5Buffer - s.size))
      update { s with buf }
    match copied with
    | some s => .inl s
    | none => .inr none
  else
    .inr ((memcpy s.buf s.size block block.length).map fun buf =>
      { s with buf, size := s.size + block.length })

/-- `put` of a block, with at most `fuel` turns. -/
def put (fuel : Nat) (s : MD5) (block : List UInt8) : Option MD5 :=
  (Loop.run (putTurn block) fuel s).join

/-- An `InStream`, by the bytes that each read finds; a read gives the first ones. -/
abbrev InStream := List (List UInt8)

/-- `InStream::read` of at most `n` bytes; no byte is the end of the stream. -/
def read (n : Nat) : InStream → List UInt8 × InStream
  | [] => ([], [])
  | chunk :: chunks =>
    if n < chunk.length then (chunk.take n, chunk.drop n :: chunks) else (chunk, chunks)

/-- The body of the loops over a stream, which reads at most `n` bytes in the buffer. -/
def readUpdate (s : MD5) (n : Nat) (input : InStream) : Option (Nat × MD5 × InStream) := do
  let (bytes, input) := read n input
  let buf ← memcpy s.buf s.size bytes bytes.length
  let s ← update { s with buf, size := s.size + bytes.length }
  return (bytes.length, s, input)

/-- One turn of the loop of `put` of a stream. -/
def putStreamTurn (st : MD5 × InStream) : (MD5 × InStream) ⊕ Option (MD5 × InStream) :=
  match readUpdate st.1 (md5Buffer - st.1.size) st.2 with
  | none => .inr none
  | some (r, st) => if r ≠ 0 then .inl st else .inr (some st)

/-- `put` of a stream, with at most `fuel` turns. -/
def putStream (fuel : Nat) (s : MD5) (input : InStream) : Option (MD5 × InStream) :=
  (Loop.run putStreamTurn fuel (s, input)).join

/-- One turn of the loop of `put` of at most `l` bytes of a stream. -/
def putLengthTurn (st : MD5 × InStream × Nat) : (MD5 × InStream × Nat) ⊕ Option (MD5 × InStream) :=
  match readUpdate st.1 (min st.2.2 (md5Buffer - st.1.size)) st.2.1 with
  | none => .inr none
  | some (r, s, input) =>
    let l := st.2.2 - r
    if r = 0 ∧ l ≠ 0 then .inl (s, input, l) else .inr (some (s, input))

/-- `put` of at most `length` bytes of a stream, with at most `fuel` turns. -/
def putLength (fuel : Nat) (s : MD5) (input : InStream) (length : Nat) : Option (MD5 × InStream) :=
  (Loop.run putLengthTurn fuel (s, input, length)).join

/-- `addsize`; `oldlen` is a `uint32`. -/
def addsize (m : List UInt8) (index oldlen : Nat) : Option (List UInt8) :=
  if index * 8 % 512 = 448 then
    memcpy m index [UInt8.ofNat (oldlen <<< 3), UInt8.ofNat (oldlen >>> 5), UInt8.ofNat (oldlen >>> 13),
      UInt8.ofNat (oldlen >>> 21), 0, 0, 0, 0] 8
  else
    none

/-- The bytes of the registers, the low one of each first. -/
def digestBytes (r : Md5.Regs) : List UInt8 :=
  [r.a, r.b, r.c, r.d].flatMap fun (w : BitVec 32) =>
    (List.range 4).map fun i => UInt8.ofBitVec ((w >>> (i * 8)).setWidth 8)

/-- `finalize`. -/
def finalize (s : MD5) : Option MD5 := do
  let buffer ← memcpy (List.replicate 64 0) 0 s.buf s.size
  let bits := (s.bits + s.size) % 2 ^ 32
  if s.size + 1 > 56 then
    let buffer ← memcpy buffer s.size md5Padding (64 - s.size)
    let regs := encode s.regs buffer
    let buffer ← memcpy buffer 0 (List.replicate 56 0) 56
    let buffer ← addsize buffer 56 bits
    let regs := encode regs buffer
    return { s with regs, bits, size := 0, digest := digestBytes regs, finalized := true }
  else
    let buffer ← memcpy buffer s.size md5Padding (56 - s.size)
    let buffer ← addsize buffer 56 bits
    let regs := encode s.regs buffer
    return { s with regs, bits, digest := digestBytes regs, finalized := true }

/-- `digest`. -/
def getDigest (s : MD5) : Option (List UInt8) :=
  if s.finalized then some s.digest else s.finalize.map MD5.digest

end MD5

end Elm.Checksum
