import Elm.Lib.Bits

/-!
# `BitVector`

The bit vector of `include/elm/util/BitVector.h` and `src/util_BitVector.cpp`: `size` bits stored in
bytes.  A failed `ASSERTP` and a copy outside a block have no result (`none`).  The observers that
call `mask` write to the vector although they are `const`, so they also return the vector they
leave.
-/

namespace Elm.Util

open List

/-- `word_t`. -/
abbrev Word := BitVec 8

/-- `BitVector::wsize`. -/
def wsize : Nat := 8

/-- `BitVector::wshift`. -/
def wshift : Nat := 3

/-- `BitVector::inWords`. -/
def inWords (s : Nat) : Nat := (s + wsize - 1) >>> wshift

/-- `BitVector::windex`. -/
def windex (index : Nat) : Nat := index >>> wshift

/-- `BitVector::bindex`. -/
def bindex (index : Nat) : Nat := index &&& (wsize - 1)

/-- `BitVector`: its members `_size` and `bits`, the block having `wcount` words. -/
@[ext]
structure BitVector where
  size : Nat
  bits : List Word
  length_bits : bits.length = inWords size
  deriving DecidableEq

namespace BitVector

/-- `BitVector::BitVector(void)`. -/
def empty : BitVector := ⟨0, [], rfl⟩

/-- `BitVector::wcount`. -/
def wcount (b : BitVector) : Nat := inWords b.size

/-- A vector of the same size whose words are computed from those of `b`. -/
def mapWords (b : BitVector) (f : List Word → List Word) (hf : ∀ ws, (f ws).length = ws.length) :
    BitVector :=
  ⟨b.size, f b.bits, (hf b.bits).trans b.length_bits⟩

/-- The word computed by `BitVector::mask`. -/
def maskWord (size : Nat) : Word := BitVec.ofNat 8 (255 >>> (wsize - bindex size))

/-- `BitVector::mask`. -/
def mask (b : BitVector) : BitVector :=
  if maskWord b.size ≠ 0 then
    b.mapWords (fun ws => ws.modify (b.wcount - 1) (· &&& maskWord b.size)) (by simp)
  else
    b

/-- `BitVector::bit`. -/
def bit (b : BitVector) (i : Nat) : Option Bool :=
  if i < b.size then
    some ((b.bits.getD (windex i) 0 &&& ((1 : Word) <<< bindex i)) != 0)
  else
    none

/-! ## Constructors -/

/-- `BitVector::BitVector(int size, bool set)`. -/
def new (size : Nat) (set : Bool) : Option BitVector :=
  if 0 < size then
    some ⟨size, replicate (inWords size) (if set then 0xff else 0), by simp⟩
  else
    none

/-- `BitVector::BitVector(const BitVector& vec)`. -/
def copyOf (vec : BitVector) : BitVector := ⟨vec.size, vec.bits, vec.length_bits⟩

/-- The copy of `BitVector::BitVector(const BitVector& vec, int new_size)`.  The first `memcpy` is
given the size of `vec` in bits, which must not exceed its size in bytes. -/
def resized (vec : BitVector) (newSize : Nat) : Option BitVector :=
  if newSize = 0 then
    none
  else if h : vec.size ≤ newSize then
    if vec.size ≤ vec.wcount then
      some ⟨newSize, vec.bits ++ replicate (inWords newSize - vec.wcount) 0, by
        have hle : inWords vec.size ≤ inWords newSize := by
          simp only [inWords, wsize, wshift, Nat.shiftRight_eq_div_pow]
          omega
        simp only [length_append, length_replicate, vec.length_bits, wcount]
        omega⟩
    else
      none
  else
    some (mask ⟨newSize, vec.bits.take (inWords newSize), by
      simp only [length_take, vec.length_bits, inWords, wsize, wshift,
        Nat.shiftRight_eq_div_pow]
      omega⟩)

/-! ## Mutators -/

/-- `BitVector::set(int index)`. -/
def set (b : BitVector) (index : Nat) : Option BitVector :=
  if index < b.size then
    some (b.mapWords (·.modify (windex index) (· ||| ((1 : Word) <<< bindex index))) (by simp))
  else
    none

/-- `BitVector::clear(int index)`. -/
def clear (b : BitVector) (index : Nat) : Option BitVector :=
  if index < b.size then
    some (b.mapWords (·.modify (windex index) (· &&& ~~~((1 : Word) <<< bindex index))) (by simp))
  else
    none

/-- `BitVector::set(int index, bool value)`. -/
def setTo (b : BitVector) (index : Nat) (value : Bool) : Option BitVector :=
  if value then b.set index else b.clear index

/-- `BitVector::set(void)`. -/
def setAll (b : BitVector) : BitVector :=
  mask (b.mapWords (fun ws => replicate ws.length 0xff) (by simp))

/-- `BitVector::clear(void)`. -/
def clearAll (b : BitVector) : BitVector :=
  b.mapWords (fun ws => replicate ws.length 0) (by simp)

/-- The words of two vectors combined one by one; the sizes are asserted to be equal. -/
def combine (f : Word → Word → Word) (b vec : BitVector) : Option BitVector :=
  if h : b.size = vec.size then
    some ⟨b.size, List.zipWith f b.bits vec.bits, by
      simp [b.length_bits, vec.length_bits, h]⟩
  else
    none

/-- `BitVector::copy`. -/
def copy (b vec : BitVector) : Option BitVector := combine (fun _ y => y) b vec

/-- `BitVector::applyNot`. -/
def applyNot (b : BitVector) : BitVector := b.mapWords (·.map (~~~ ·)) (by simp)

/-- `BitVector::applyOr`. -/
def applyOr (b vec : BitVector) : Option BitVector := combine (· ||| ·) b vec

/-- `BitVector::applyAnd`. -/
def applyAnd (b vec : BitVector) : Option BitVector := combine (· &&& ·) b vec

/-- `BitVector::applyReset`. -/
def applyReset (b vec : BitVector) : Option BitVector :=
  (combine (fun x y => x &&& ~~~ y) b vec).map mask

/-- `BitVector::makeNot`; the constructor of the result asserts that the size is positive. -/
def makeNot (b : BitVector) : Option BitVector :=
  (new b.size false).map fun _ => b.mapWords (·.map (~~~ ·)) (by simp)

/-- The loop of the functions `make*` with two operands. -/
def makeWith (f : Word → Word → Word) (b vec : BitVector) : Option BitVector :=
  (new b.size false).bind fun _ => combine f b vec

/-- `BitVector::makeOr`. -/
def makeOr (b vec : BitVector) : Option BitVector := makeWith (· ||| ·) b vec

/-- `BitVector::makeAnd`. -/
def makeAnd (b vec : BitVector) : Option BitVector := makeWith (· &&& ·) b vec

/-- `BitVector::makeReset`. -/
def makeReset (b vec : BitVector) : Option BitVector := makeWith (fun x y => x &&& ~~~ y) b vec

/-! ## Observers -/

/-- `BitVector::isEmpty`. -/
def isEmpty (b : BitVector) : Bool × BitVector := (b.mask.bits.all (· == 0), b.mask)

/-- An observer that compares the words of the masked vector with those of a second one. -/
def compareWords (test : List Word → List Word → Bool) (b vec : BitVector) :
    Option (Bool × BitVector) :=
  if b.size = vec.size then some (test b.mask.bits vec.bits, b.mask) else none

/-- The loop of `BitVector::includes`. -/
def includesWords : List Word → List Word → Bool
  | x :: xs, y :: ys => if ~~~ x &&& y ≠ 0 then false else includesWords xs ys
  | _, _ => true

/-- `BitVector::includes`. -/
def includes (b vec : BitVector) : Option (Bool × BitVector) := compareWords includesWords b vec

/-- The loop of `BitVector::includesStrictly`. -/
def includesStrictlyWords (equal : Bool) : List Word → List Word → Bool
  | x :: xs, y :: ys =>
    if ~~~ x &&& y ≠ 0 then
      false
    else
      includesStrictlyWords (if x ≠ y then false else equal) xs ys
  | _, _ => !equal

/-- `BitVector::includesStrictly`. -/
def includesStrictly (b vec : BitVector) : Option (Bool × BitVector) :=
  compareWords (includesStrictlyWords true) b vec

/-- The loop of `BitVector::equals`. -/
def equalsWords : List Word → List Word → Bool
  | x :: xs, y :: ys => if x ≠ y then false else equalsWords xs ys
  | _, _ => true

/-- `BitVector::equals`. -/
def equals (b vec : BitVector) : Option (Bool × BitVector) := compareWords equalsWords b vec

/-- The loop of `BitVector::meets`, over the words that both vectors have. -/
def meetsWords : List Word → List Word → Bool
  | x :: xs, y :: ys => if x &&& y ≠ 0 then true else meetsWords xs ys
  | _, _ => false

/-- `BitVector::meets`. -/
def meets (b vec : BitVector) : Bool := meetsWords b.bits vec.bits

/-- `BitVector::countBits`. -/
def countBits (b : BitVector) : Nat := b.bits.foldl (fun result x => result + Bits.ones x) 0

/-- `BitVector::countOnes`. -/
def countOnes (b : BitVector) : Nat := b.bits.foldl (fun cnt x => cnt + Bits.ones x) 0

/-- `BitVector::countZeroes`. -/
def countZeroes (b : BitVector) : Int := b.countBits - b.countOnes

end BitVector

end Elm.Util
