import Elm.Lib.Bits
import Elm.Lib.Loop

/-!
# `WAHVector`

The compressed bit vector of `include/elm/util/WAHVector.h` and `src/util_WAHVector.cpp`.  Its words are
literals, with 31 bits, or fills, with a number of equal literals.  A builder has its words in the reverse
order, the last one first.  A failed assertion and a shift by a negative number have no result.
-/

namespace Elm.Util.Wah

/-- `word_t`. -/
abbrev Word := BitVec 32

def FILL : Word := 0x80000000
def ONES : Word := 0x40000000
def ALL_ONES : Word := 0x7fffffff
def ALL_ZEROES : Word := 0x00000000

def isFill (w : Word) : Bool := w &&& FILL ≠ 0
def isLite (w : Word) : Bool := w &&& FILL = 0
def isOnes (w : Word) : Bool := w &&& ONES ≠ 0
def isZeroes (w : Word) : Bool := w &&& ONES = 0
def fillCount (w : Word) : Word := w &&& ~~~(FILL ||| ONES)
def mask (n : Nat) : Word := ((1 : Word) <<< n) - 1
def fill (size : Int) (init : Bool) : Word := FILL ||| (if init then ONES else 0) ||| BitVec.ofInt 32 size

def times (v : Nat) : Nat := 32 * v - v
def div (v : Nat) : Nat := ((2 ^ 32 / 31 + 30) * v) / 2 ^ 32
def mod (v : Nat) : Int := v - times (div v)

/-- `1 << mod(index)`. -/
def shift (index : Nat) : Option Word :=
  if 0 ≤ mod index then some ((1 : Word) <<< (mod index).toNat) else none

/-! ## `builder` -/

abbrev Builder := List Word

namespace Builder

/-- `pushRaw` and `copy`. -/
def pushRaw (b : Builder) (w : Word) : Builder := w :: b

/-- `pushFill`. -/
def pushFill : Builder → Word → Builder
  | [], w => [w]
  | last :: b, w =>
    if w &&& (FILL ||| ONES) = last &&& (FILL ||| ONES) then (last + fillCount w) :: b
    else w :: last :: b

/-- `pushLite`. -/
def pushLite (b : Builder) (w : Word) : Builder :=
  if w = 0 then b.pushFill (fill 1 false)
  else if w = ALL_ONES then b.pushFill (fill 1 true)
  else b.pushRaw w

/-- `push`. -/
def push (b : Builder) (w : Word) : Builder := if w &&& FILL ≠ 0 then b.pushFill w else b.pushLite w

/-- `copy`, on an array of words. -/
def copy (b : Builder) (words : List Word) : Builder := words.reverse ++ b

/-- The end of `fix`, where the last word is a fill of one word: the word before it takes it if `same`. -/
def settle (same : Word → Bool) (init : Bool) : Builder → Builder
  | [] => [fill 1 init]
  | prev :: b => if same prev then (prev + 1) :: b else fill 1 init :: prev :: b

/-- `fix`: the words in their order. -/
def fix (b : Builder) (rem : Nat) : List Word :=
  match b with
  | [] => []
  | last :: b =>
    if rem ≠ 0 ∧ isLite last then
      let last := last &&& mask rem
      if last = 0 then (settle isZeroes false b).reverse
      else if last = mask rem then (settle isOnes true b).reverse
      else (last :: b).reverse
    else
      (last :: b).reverse

end Builder

/-! ## `iter` -/

/-- The members of an `iter`; `cur` has the words from the current one on. -/
structure Iter where
  isFill : Bool
  val : Word
  cnt : Nat
  i : Nat
  ii : Nat
  cur : List Word

namespace Iter

/-- `step`, on the word `w` at the index `ii`. -/
def step (ii : Nat) (w : Word) (words : List Word) : Iter :=
  if Wah.isFill w then
    { isFill := true
      val := if isOnes w then ALL_ONES else ALL_ZEROES
      cnt := (fillCount w).toNat
      i := ii
      ii := ii + times (fillCount w).toNat
      cur := w :: words }
  else
    { isFill := false, val := w, cnt := 1, i := ii, ii := ii + times 1, cur := w :: words }

/-- The constructor. -/
def start : List Word → Iter
  | [] => { isFill := false, val := 0, cnt := 0, i := 0, ii := 0, cur := [] }
  | w :: words => step 0 w words

/-- `ended`. -/
def ended (it : Iter) : Bool := it.cur.isEmpty

/-- `next`. -/
def next (it : Iter) : Iter :=
  match it.cur with
  | [] | [_] => { it with cur := [] }
  | _ :: w :: words => step it.ii w words

/-- `consume`. -/
def consume (it : Iter) (c : Nat) : Iter :=
  let it := { it with cnt := it.cnt - c, i := it.i + times c }
  if it.cnt = 0 then it.next else it

/-- `isLast`. -/
def isLast (it : Iter) : Bool := it.cur.length = 1

/-- `copy`. -/
def copy (it : Iter) (b : Builder) : Builder := b.copy (it.cur.take 1)

/-- `pushTail`. -/
def pushTail (it : Iter) (b : Builder) : Builder :=
  match it.cur with
  | [] | [_] => b
  | _ :: w :: words => (b.push w).copy words

/-- The iterator at each of the words. -/
def visits (ii : Nat) : List Word → List Iter
  | [] => []
  | w :: words => step ii w words :: visits (step ii w words).ii words

end Iter

/-! ## `WAHVector` -/

/-- The members of a `WAHVector`; `_size` is the number of words. -/
structure WAHVector where
  rem : Nat
  words : List Word
  deriving DecidableEq

namespace WAHVector

/-- The constructor without argument. -/
def default : WAHVector := { rem := 0, words := [] }

/-- The constructor with a size. -/
def new (size : Nat) (init : Bool) : WAHVector :=
  let rem := (mod size % 2 ^ 32).toNat
  { rem, words := [fill (div size + if rem ≠ 0 then 1 else 0) init] }

/-- `bit`. -/
def bit (v : WAHVector) (index : Nat) : Option Bool := do
  let it ← (Iter.visits 0 v.words).find? fun it => it.i ≤ index ∧ index < it.ii
  let m ← shift index
  some (it.val &&& m ≠ 0)

/-- `isEmpty`. -/
def isEmpty (v : WAHVector) : Option Bool :=
  match v.words with
  | [] => none
  | w :: words =>
    if ¬ isZeroes w then some false
    else if words = [] then some true
    else some (words = [0])

/-- `isFull`. -/
def isFull (v : WAHVector) : Option Bool :=
  match v.words with
  | [] => none
  | w :: words =>
    if ¬ isOnes w then some false
    else if words = [] then some true
    else some (words = [mask v.rem])

/-- `equals`. -/
def equals (v vec : WAHVector) : Bool := v.words = vec.words

/-- One turn of the loop of `includes`. -/
def includesTurn (s : Iter × Iter) : (Iter × Iter) ⊕ Option Bool :=
  let (i, j) := s
  if ¬ i.ended ∧ ¬ j.ended then
    if i.isFill ∧ j.isFill then
      if i.val = 0 ∧ j.val ≠ 0 then .inr (some false)
      else
        let m := min i.cnt j.cnt
        .inl (i.consume m, j.consume m)
    else if ~~~i.val &&& j.val ≠ 0 then .inr (some false)
    else .inl (i.consume 1, j.consume 1)
  else if i.ended ∧ j.ended then .inr (some true)
  else .inr none

/-- More turns than a loop on the words can make. -/
def fuel (words : List Word) : Nat := (words.map fun w => (fillCount w).toNat + 1).sum + 1

/-- `includes`. -/
def includes (v vec : WAHVector) : Option Bool :=
  (Loop.run includesTurn (fuel v.words) (Iter.start v.words, Iter.start vec.words)).join

/-- `size`. -/
def size (v : WAHVector) : Int :=
  let r := (Iter.visits 0 v.words).foldl (fun r it => r + it.cnt) 0
  if v.rem ≠ 0 then ((times r : Int) - (31 - v.rem)).bmod (2 ^ 32) else times r

/-- `countOnes`. -/
def countOnes (v : WAHVector) : Int :=
  (Iter.visits 0 v.words).foldl (fun r it =>
    if it.isFill then
      if it.val ≠ 0 then
        let r := r + times it.cnt
        if v.rem ≠ 0 ∧ it.isLast then (r - (31 - v.rem)).bmod (2 ^ 32) else r
      else r
    else
      r + Bits.ones (if v.rem ≠ 0 ∧ it.isLast then it.val &&& mask v.rem else it.val)) 0

/-- What `set` and `clear` push for the word that has the bit: `change` is done on the literal of the bit,
and the fills for which `done` holds have the bit already. -/
def updateWord (change : Word → Word → Word) (done : Word → Bool) (index : Nat) (b : Builder) (it : Iter) :
    Option Builder :=
  if ¬ it.isFill then (shift index).map fun m => b.pushLite (change it.val m)
  else if done it.val then some (it.copy b)
  else
    let before := div (index - it.i)
    let after : Int := it.cnt - before - 1
    (shift index).map fun m =>
      let b := if before ≠ 0 then b.pushRaw (fill before (it.val ≠ 0)) else b
      let b := b.pushLite (change it.val m)
      if after ≠ 0 then b.pushRaw (fill after (it.val ≠ 0)) else b

/-- The loop of `set` and `clear`. -/
def updateFrom (change : Word → Word → Word) (done : Word → Bool) (index rem : Nat) (b : Builder) :
    List Iter → Option (List Word)
  | [] => none
  | it :: its =>
    if index < it.i ∨ it.ii ≤ index then
      updateFrom change done index rem (it.copy b) its
    else
      (updateWord change done index b it).map fun b => (it.pushTail b).fix rem

/-- `set` and `clear`. -/
def update (change : Word → Word → Word) (done : Word → Bool) (v : WAHVector) (index : Nat) :
    Option WAHVector :=
  (updateFrom change done index v.rem [] (Iter.visits 0 v.words)).map fun words => { v with words }

/-- `set`. -/
def set (v : WAHVector) (index : Nat) : Option WAHVector :=
  update (fun val m => val ||| m) (fun val => val ≠ 0) v index

/-- `clear`. -/
def clear (v : WAHVector) (index : Nat) : Option WAHVector :=
  update (fun val m => val &&& ~~~m) (fun val => val = 0) v index

/-- One turn of the loop of `doAnd`, `doOr` and `doReset`. -/
def combineTurn (op : Word → Word → Word) (s : Iter × Iter × Builder) :
    (Iter × Iter × Builder) ⊕ Option Builder :=
  let (i1, i2, b) := s
  if i1.ended then .inr (some b)
  else if i2.ended then .inr none
  else if i1.isFill ∧ i2.isFill then
    let n := min i1.cnt i2.cnt
    .inl (i1.consume n, i2.consume n, b.pushFill (fill n (op i1.val i2.val ≠ 0)))
  else
    .inl (i1.consume 1, i2.consume 1, b.pushLite (op i1.val i2.val))

/-- `doAnd`, `doOr` and `doReset`, in the vector `r`. -/
def combine (op : Word → Word → Word) (r v1 v2 : WAHVector) : Option WAHVector :=
  (Loop.run (combineTurn op) (fuel v1.words) (Iter.start v1.words, Iter.start v2.words, [])).join.map
    fun b => { r with words := b.fix v1.rem }

/-- `doAnd`. -/
def doAnd (r v1 v2 : WAHVector) : Option WAHVector := combine (· &&& ·) r v1 v2

/-- `doOr`. -/
def doOr (r v1 v2 : WAHVector) : Option WAHVector := combine (· ||| ·) r v1 v2

/-- `doReset`. -/
def doReset (r v1 v2 : WAHVector) : Option WAHVector := combine (fun x y => x &&& ~~~y) r v1 v2

/-- `doNot`. -/
def doNot (r v : WAHVector) : WAHVector :=
  let b := (Iter.visits 0 v.words).foldl (fun (b : Builder) it =>
    if it.isFill then b.pushFill (fill it.cnt (it.val = 0)) else b.pushLite (~~~it.val &&& ALL_ONES)) []
  { r with words := b.fix v.rem }

end WAHVector

end Elm.Util.Wah
