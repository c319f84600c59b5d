import Mathlib.Tactic

/-!
# The MD5 digest

The message-digest algorithm, on lists of bytes: a message is padded to blocks of 64 bytes,
which are mixed one after the other in four registers.
-/

namespace Md5

open List

/-- The four registers. -/
structure Regs where
  a : BitVec 32
  b : BitVec 32
  c : BitVec 32
  d : BitVec 32
  deriving DecidableEq

/-- The registers at the start. -/
def init : Regs := ⟨0x67452301#32, 0xefcdab89#32, 0x98badcfe#32, 0x10325476#32⟩

/-- The integer part of `2 ^ 32 * |sin (i + 1)|`. -/
def table : List (BitVec 32) := [
    0xd76aa478, 0xe8c7b756, 0x242070db, 0xc1bdceee,
    0xf57c0faf, 0x4787c62a, 0xa8304613, 0xfd469501,
    0x698098d8, 0x8b44f7af, 0xffff5bb1, 0x895cd7be,
    0x6b901122, 0xfd987193, 0xa679438e, 0x49b40821,
    0xf61e2562, 0xc040b340, 0x265e5a51, 0xe9b6c7aa,
    0xd62f105d, 0x02441453, 0xd8a1e681, 0xe7d3fbc8,
    0x21e1cde6, 0xc33707d6, 0xf4d50d87, 0x455a14ed,
    0xa9e3e905, 0xfcefa3f8, 0x676f02d9, 0x8d2a4c8a,
    0xfffa3942, 0x8771f681, 0x6d9d6122, 0xfde5380c,
    0xa4beea44, 0x4bdecfa9, 0xf6bb4b60, 0xbebfbc70,
    0x289b7ec6, 0xeaa127fa, 0xd4ef3085, 0x04881d05,
    0xd9d4d039, 0xe6db99e5, 0x1fa27cf8, 0xc4ac5665,
    0xf4292244, 0x432aff97, 0xab9423a7, 0xfc93a039,
    0x655b59c3, 0x8f0ccc92, 0xffeff47d, 0x85845dd1,
    0x6fa87e4f, 0xfe2ce6e0, 0xa3014314, 0x4e0811a1,
    0xf7537e82, 0xbd3af235, 0x2ad7d2bb, 0xeb86d391]

/-- The index of the word of the block used by the operation `i`. -/
def index (i : Nat) : Nat :=
  if i < 16 then i
  else if i < 32 then (5 * i + 1) % 16
  else if i < 48 then (3 * i + 5) % 16
  else 7 * i % 16

/-- The rotation of the operation `i`. -/
def shift (i : Nat) : Nat :=
  ([[7, 12, 17, 22], [5, 9, 14, 20], [4, 11, 16, 23], [6, 10, 15, 21]].getD (i / 16) []).getD (i % 4) 0

/-- The auxiliary function of the operation `i`. -/
def mix (i : Nat) (x y z : BitVec 32) : BitVec 32 :=
  if i < 16 then x &&& y ||| ~~~x &&& z
  else if i < 32 then x &&& z ||| y &&& ~~~z
  else if i < 48 then x ^^^ y ^^^ z
  else y ^^^ (x ||| ~~~z)

/-- The operation `i`, after which the registers change places. -/
def operation (x : Nat → BitVec 32) (r : Regs) (i : Nat) : Regs :=
  ⟨r.d, r.b + (r.a + mix i r.b r.c r.d + x (index i) + table.getD i 0).rotateLeft (shift i), r.b, r.c⟩

/-- The word `k` of a block, its low byte first. -/
def word (block : List UInt8) (k : Nat) : BitVec 32 :=
  let byte (j : Nat) : BitVec 32 := (block.getD (4 * k + j) 0).toBitVec.setWidth 32
  byte 0 ||| byte 1 <<< 8 ||| byte 2 <<< 16 ||| byte 3 <<< 24

/-- A block is mixed in the registers. -/
def compress (r : Regs) (block : List UInt8) : Regs :=
  let t := (List.range 64).foldl (operation (word block)) r
  ⟨r.a + t.a, r.b + t.b, r.c + t.c, r.d + t.d⟩

/-- The first `n` blocks of a text. -/
def process : Nat → Regs → List UInt8 → Regs
  | 0, r, _ => r
  | n + 1, r, text => process n (compress r (text.take 64)) (text.drop 64)

/-- The length in bits of `n` bytes, on 64 bits, its low byte first. -/
def lengthBytes (n : Nat) : List UInt8 := (List.range 8).map fun k => UInt8.ofNat (8 * n / 256 ^ k)

/-- The padding of a message of `n` bytes. -/
def padding (n : Nat) : List UInt8 :=
  0x80 :: (replicate ((119 - n % 64) % 64) 0 ++ lengthBytes n)

/-- The bytes of a word, the low one first. -/
def wordBytes (w : BitVec 32) : List UInt8 :=
  (List.range 4).map fun k => UInt8.ofBitVec ((w >>> (8 * k)).setWidth 8)

/-- The digest given by the registers. -/
def output (r : Regs) : List UInt8 := wordBytes r.a ++ wordBytes r.b ++ wordBytes r.c ++ wordBytes r.d

/-- The digest of a message. -/
def digest (message : List UInt8) : List UInt8 :=
  let text := message ++ padding message.length
  output (process (text.length / 64) init text)

example : digest "abc".toUTF8.toList =
    [0x90, 0x01, 0x50, 0x98, 0x3c, 0xd2, 0x4f, 0xb0, 0xd6, 0x96, 0x3f, 0x7d, 0x28, 0xe1, 0x7f, 0x72] := by
  decide +kernel

@[simp] theorem length_lengthBytes (n : Nat) : (lengthBytes n).length = 8 := by
  simp [lengthBytes]

/-- Whole blocks are mixed in one after the other. -/
theorem process_append (n k : Nat) (r : Regs) {xs : List UInt8} (hxs : xs.length = 64 * n)
    (ys : List UInt8) : process (n + k) r (xs ++ ys) = process k (process n r xs) ys := by
  induction n generalizing r xs with
  | zero =>
    have hnil : xs = [] := eq_nil_of_length_eq_zero (by omega)
    rw [hnil, Nat.zero_add, nil_append]
    rfl
  | succ n ih =>
    have htake : (xs ++ ys).take 64 = xs.take 64 := take_append_of_le_length (by omega)
    have hdrop : (xs ++ ys).drop 64 = xs.drop 64 ++ ys := drop_append_of_le_length (by omega)
    have hlen : (xs.drop 64).length = 64 * n := by
      rw [length_drop]
      omega
    rw [Nat.succ_add_eq_add_succ, Nat.add_succ, process, htake, hdrop, ih _ hlen]
    rfl

/-- The text of whole blocks only. -/
theorem process_blocks (n : Nat) (r : Regs) {xs : List UInt8} (hxs : xs.length = 64 * n) {m : Nat}
    (ys : List UInt8) (hm : m = n + ys.length / 64) :
    process m r (xs ++ ys) = process (ys.length / 64) (process n r xs) ys := by
  rw [hm, process_append n _ r hxs]

theorem process_one (r : Regs) {block : List UInt8} (h : block.length = 64) :
    process 1 r block = compress r block := by
  show compress r (block.take 64) = compress r block
  rw [take_of_length_le (Nat.le_of_eq h)]

end Md5
