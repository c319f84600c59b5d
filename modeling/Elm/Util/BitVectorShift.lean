import Elm.Util.BitVectorObservers

/-!
# Shifts and rotations of a `BitVector`

The operations that `src/util_BitVector.cpp` compiles with `EXPERIMENTAL`.  Each one reads the words of
the vector and writes those of an array `tbits`, which are the same words when the operation works in
place.  An access outside an array, and a shift of an `int` by a negative number or by 32 or more, have no
result; the bits shifted over the end of a word are lost when it is written.

The second part defines the results bit by bit.
-/

namespace Elm.Util.BitVector

/-- The arrays `bits` and `tbits`, which are one array when `shared` is set. -/
structure Arrays where
  count : Nat
  shared : Bool
  bits : Nat → Word
  tbits : Nat → Word

namespace Arrays

/-- The words of `bits`. -/
def source (a : Arrays) : Nat → Word := if a.shared then a.tbits else a.bits

/-- `bits[i]`. -/
def get (a : Arrays) (i : Int) : Option Word :=
  if 0 ≤ i ∧ i < a.count then some (a.source i.toNat) else none

/-- `tbits[i]`. -/
def getTarget (a : Arrays) (i : Int) : Option Word :=
  if 0 ≤ i ∧ i < a.count then some (a.tbits i.toNat) else none

/-- `tbits[i] = x`. -/
def put (a : Arrays) (i : Int) (x : Word) : Option Arrays :=
  if 0 ≤ i ∧ i < a.count then some { a with tbits := Function.update a.tbits i.toNat x } else none

/-- The words masked by `mask`. -/
def maskWords (size : Nat) (words : Nat → Word) : Nat → Word :=
  if maskWord size ≠ 0 then
    Function.update words (inWords size - 1) (words (inWords size - 1) &&& maskWord size)
  else
    words

/-- `mask(tbits)`. -/
def maskTarget (size : Nat) (a : Arrays) : Arrays := { a with tbits := maskWords size a.tbits }

/-- `mask()`, which is `mask(bits)`. -/
def mask (size : Nat) (a : Arrays) : Arrays :=
  if a.shared then a.maskTarget size else { a with bits := maskWords size a.bits }

/-- `swap(a[i], a[j])`. -/
def swap (words : Nat → Word) (i j : Nat) : Nat → Word :=
  Function.update (Function.update words i (words j)) j (words i)

/-- `array::reverse(a, n)`, on the words from `start` on. -/
def reverse (words : Nat → Word) (start n : Nat) : Nat → Word :=
  (List.range (n / 2)).foldl (fun words i => swap words (start + i) (start + (n - 1 - i))) words

end Arrays

open Arrays

/-! ## The operations -/

/-- A turn of the loops that move the words to the left. -/
def leftTurn (bs Bs : Nat) (a : Arrays) (i : Nat) : Option Arrays := do
  let x ← a.get (i - Bs)
  let y ← a.get (i - Bs - 1)
  a.put i (x <<< bs ||| y >>> (wsize - bs))

/-- A turn of the loops that move the words to the right. -/
def rightTurn (bs Bs : Nat) (a : Arrays) (i : Nat) : Option Arrays := do
  let x ← a.get (i + Bs)
  let y ← a.get (i + Bs + 1)
  a.put i (x >>> bs ||| y <<< (wsize - bs))

/-- `doShiftLeft`. -/
def doShiftLeft (size n : Nat) (a : Arrays) : Option Arrays :=
  if n = 0 then
    some a
  else do
    let B := inWords size
    let bs := bindex n
    let Bs := windex n
    let a ← (List.range' (Bs + 1) (B - 1 - Bs)).reverse.foldlM (leftTurn bs Bs) a
    let x ← a.get 0
    let a ← a.put Bs (x <<< bs)
    let a ← (List.range Bs).foldlM (fun a (i : Nat) => a.put i 0) a
    return a.maskTarget size

/-- `doShiftRight`. -/
def doShiftRight (size n : Nat) (a : Arrays) : Option Arrays :=
  if n = 0 then
    some a
  else do
    let B := inWords size
    let bs := bindex n
    let Bs := windex n
    let a ← (List.range (B - Bs - 1)).foldlM (rightTurn bs Bs) a
    let x ← a.get ((B : Int) - 1)
    let a ← a.put ((B : Int) - Bs - 1) (x >>> bs)
    (List.range' (B - Bs) Bs).reverse.foldlM (fun a (i : Nat) => a.put i 0) a

/-- The count of a rotation, reduced when it is larger than the vector. -/
def reduceCount (size n : Nat) : Option Nat :=
  if size < n then if size = 0 then none else some (n % size) else some n

/-- The word `S[Bs]` of `doRotateLeft`, at the limit of the vector. -/
def limitWord (size n : Nat) (a : Arrays) : Option Word := do
  let B := inWords size
  let bs := bindex n
  let eb := bindex size
  if eb = 0 then
    let x ← a.get ((B : Int) - 1)
    let y ← a.get 0
    return x <<< bs ||| y >>> (wsize - bs)
  else if bs ≤ eb then
    let x ← a.get 0
    let y ← a.get ((B : Int) - 1)
    return x <<< bs ||| y >>> (eb - bs)
  else
    let x ← a.get 0
    let y ← a.get ((B : Int) - 1)
    let z ← a.get ((B : Int) - 2)
    return x <<< bs ||| y <<< (bs - eb) ||| z >>> (wsize - (bs - eb))

/-- The words `S[i]` of `doRotateLeft`, for `i < Bs`. -/
def headerWord (size n : Nat) (a : Arrays) (i : Nat) : Option Word := do
  let B := inWords size
  let bs := bindex n
  let Bs := windex n
  let x ← a.get ((B : Int) - Bs + i - 1)
  let y ← a.get ((B : Int) - i - 1)
  return x <<< bs ||| y >>> (wsize - bs)

/-- `doRotateLeft`. -/
def doRotateLeft (size n : Nat) (a : Arrays) : Option Arrays := do
  let n ← reduceCount size n
  if n = 0 then
    return a
  else
    let B := inWords size
    let bs := bindex n
    let Bs := windex n
    let limit ← limitWord size n a
    let headers ← (List.range Bs).mapM (headerWord size n a)
    let a ← (List.range' (Bs + 1) (B - 1 - Bs)).reverse.foldlM (leftTurn bs Bs) a
    let a := a.mask size
    let a ← (List.range (Bs + 1)).foldlM (fun a (i : Nat) => a.put i ((headers ++ [limit]).getD i 0)) a
    if bindex size ≠ 0 then a.put Bs limit else return a

/-- The last word or words of `doRotateRight`. -/
def rotateEnd (size n : Nat) (first : Word) (a : Arrays) : Option Arrays := do
  let B := inWords size
  let bs := bindex n
  let eb := bindex size
  if bs < eb then
    let x ← a.get ((B : Int) - 1)
    a.put ((B : Int) - 1) (x >>> bs ||| first <<< (eb - bs))
  else
    let y ← a.getTarget ((B : Int) - 2)
    let s : Int := B - (bs - eb : Nat)
    if 0 ≤ s ∧ s < 32 then
      let a ← a.put ((B : Int) - 2) (y ||| first <<< s.toNat)
      a.put ((B : Int) - 1) (first >>> (bs - eb))
    else
      none

/-- The reversals of `doRotateRight`, which rotate the words. -/
def rotateWords (size n : Nat) (a : Arrays) : Arrays :=
  let B := inWords size
  let Bs := windex n
  if Bs ≠ 0 then
    { a with tbits := reverse (reverse (reverse a.tbits 0 B) 0 (B - Bs)) (B - Bs) Bs }
  else
    a

/-- `doRotateRight`. -/
def doRotateRight (size n : Nat) (a : Arrays) : Option Arrays := do
  let n ← reduceCount size n
  if n = 0 then
    return a
  else
    let B := inWords size
    let bs := bindex n
    let first ← a.get 0
    let a ← (List.range (B - 1)).foldlM (rightTurn bs 0) a
    let a ← rotateEnd size n first a
    return rotateWords size n (a.mask size)

/-! ## In place, and in a new vector -/

/-- The word `i` of the vector. -/
def wordAt (b : BitVector) (i : Nat) : Word := b.bits.getD i 0

/-- The arrays of an operation in place. -/
def inPlace (b : BitVector) : Arrays := ⟨b.wcount, true, b.wordAt, b.wordAt⟩

/-- The arrays of an operation whose result is a new vector of zeroes. -/
def inNew (b : BitVector) : Arrays := ⟨b.wcount, false, b.wordAt, fun _ => 0⟩

/-- The vector whose words are those of `tbits`. -/
def ofTarget (size : Nat) (a : Arrays) : BitVector :=
  ⟨size, (List.range (inWords size)).map a.tbits, by simp⟩

/-- An operation in place. -/
def update (f : Nat → Nat → Arrays → Option Arrays) (b : BitVector) (n : Nat) : Option BitVector :=
  (f b.size n b.inPlace).map (ofTarget b.size)

/-- An operation `make*`; the constructor of the result asserts that the size is positive. -/
def make (f : Nat → Nat → Arrays → Option Arrays) (b : BitVector) (n : Nat) : Option BitVector :=
  (new b.size false).bind fun _ => (f b.size n b.inNew).map (ofTarget b.size)

/-- `shiftLeft`. -/
def shiftLeft : BitVector → Nat → Option BitVector := update doShiftLeft

/-- `shiftRight`. -/
def shiftRight : BitVector → Nat → Option BitVector := update doShiftRight

/-- `rotateLeft`. -/
def rotateLeft : BitVector → Nat → Option BitVector := update doRotateLeft

/-- `rotateRight`. -/
def rotateRight : BitVector → Nat → Option BitVector := update doRotateRight

/-- `makeShiftLeft`. -/
def makeShiftLeft : BitVector → Nat → Option BitVector := make doShiftLeft

/-- `makeShiftRight`. -/
def makeShiftRight : BitVector → Nat → Option BitVector := make doShiftRight

/-- `makeRotateLeft`, without the padding of the operand, which `mask` clears. -/
def makeRotateLeft : BitVector → Nat → Option BitVector := make doRotateLeft

/-- `makeRotateRight`, without the padding of the operand, which `mask` clears. -/
def makeRotateRight : BitVector → Nat → Option BitVector := make doRotateRight

/-! ## The results, bit by bit -/

/-- Shifted to the left: the bit `i` goes to `i + k`. -/
def shiftedLeft (xs : List Bool) (k i : Nat) : Bool := if i < k then false else xs.getD (i - k) false

/-- Shifted to the right: the bit `i + k` goes to `i`. -/
def shiftedRight (xs : List Bool) (k i : Nat) : Bool := xs.getD (i + k) false

/-- Rotated to the left. -/
def rotatedLeft (xs : List Bool) (k i : Nat) : Bool :=
  xs.getD ((i + (xs.length - k)) % xs.length) false

/-- Rotated to the right. -/
def rotatedRight (xs : List Bool) (k i : Nat) : Bool := xs.getD ((i + k) % xs.length) false

/-- The operation has a result, whose bits are those of `spec`. -/
def Moves (op : BitVector → Nat → Option BitVector) (spec : List Bool → Nat → Nat → Bool) (b : BitVector)
    (k : Nat) : Prop :=
  ∃ r, op b k = some r ∧ r.view = (List.range b.size).map (spec b.view k)

instance (op : BitVector → Nat → Option BitVector) (spec : List Bool → Nat → Nat → Bool) (b : BitVector)
    (k : Nat) : Decidable (Moves op spec b k) :=
  match h : op b k with
  | none => .isFalse fun ⟨_, hr, _⟩ => nomatch h.symm.trans hr
  | some r => decidable_of_iff (r.view = (List.range b.size).map (spec b.view k))
      ⟨fun hview => ⟨r, h, hview⟩, fun ⟨_, hr, hview⟩ => Option.some.inj (h.symm.trans hr) ▸ hview⟩

end Elm.Util.BitVector
