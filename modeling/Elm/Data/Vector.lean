import Elm.Data.Array

/-!
# `Vector`

The vector of `include/elm/data/Vector.h`.  The array `tab` is the list of its slots, whose value is
`none` until it is assigned; a null `tab` has no slot.  A failed assertion, an `int` overflow and a
write out of the array have no result.

`detach` leaves `cap` as it is, and a vector of capacity 0 does not grow.
-/

namespace Elm.Data

/-- An `int` computation. -/
def int (n : Nat) : Option Nat := if n < 2 ^ 31 then some n else none

/-- `Vector`. -/
structure Vector (T : Type) where
  tab : Option (List (Option T))
  cap : Nat
  cnt : Nat

namespace Vector

variable {T : Type}

/-- `newVec`. -/
def newVec (size : Nat) : List (Option T) := List.replicate size none

/-- The slots of `tab`. -/
def slots (v : Vector T) : List (Option T) := v.tab.getD []

/-- The constructor of a capacity. -/
def new (cap : Nat) : Vector T := ⟨some (newVec cap), cap, 0⟩

/-- `detach`: the array of the content, and the vector. -/
def detach (v : Vector T) : List (Option T) × Vector T :=
  (v.slots.take v.cnt, { v with tab := none, cnt := 0 })

/-- `grow`. -/
def grow (v : Vector T) (newCap : Nat) : Option (Vector T) :=
  if newCap ≥ v.cap then
    (array.copy (newVec newCap) v.slots v.cnt).map fun newTab => { v with tab := some newTab, cap := newCap }
  else
    none

/-- The growth of `add`, `addNew` and `insert`. -/
def makeRoom (v : Vector T) : Option (Vector T) :=
  if v.cnt ≥ v.cap then (int (v.cap * 2)).bind v.grow else some v

/-- One turn of the loop of `setLength`. -/
def lengthTurn (newLength newCap : Nat) : Nat ⊕ Option Nat :=
  if newCap < newLength then
    match int (newCap * 2) with
    | some newCap => .inl newCap
    | none => .inr none
  else
    .inr (some newCap)

/-- `setLength`; the capacity of its loop is below `2 ^ 31`. -/
def setLength (v : Vector T) (newLength : Nat) : Option (Vector T) := do
  let newCap ← (Loop.run (lengthTurn newLength) 32 1).join
  let v ← if newCap > v.cap then v.grow newCap else some v
  return { v with cnt := newLength }

/-- `tab[i] = v`. -/
def assign (v : Vector T) (i : Nat) (x : T) : Option (Vector T) :=
  (array.assign v.slots i (some x)).map fun tab => { v with tab := some tab }

/-- `addNew`: the position of the new slot, and the vector. -/
def addNew (v : Vector T) : Option (Nat × Vector T) :=
  v.makeRoom.map fun v => (v.cnt, { v with cnt := v.cnt + 1 })

/-- `add`. -/
def add (v : Vector T) (x : T) : Option (Vector T) := do
  let v ← v.makeRoom
  let v ← v.assign v.cnt x
  return { v with cnt := v.cnt + 1 }

/-- `clear`. -/
def clear (v : Vector T) : Vector T := { v with cnt := 0 }

/-- `shrink`. -/
def shrink (v : Vector T) (l : Nat) : Option (Vector T) :=
  if l ≤ v.cnt then some { v with cnt := l } else none

/-- `set`. -/
def set (v : Vector T) (i : Nat) (x : T) : Option (Vector T) :=
  if i < v.cnt then v.assign i x else none

/-- `insert`. -/
def insert (v : Vector T) (i : Nat) (x : T) : Option (Vector T) := do
  if v.cnt < i then none
  let v ← v.makeRoom
  let tab ← array.move v.slots (i + 1) i (v.cnt - i)
  let v ← { v with tab := some tab }.assign i x
  return { v with cnt := v.cnt + 1 }

/-- `removeAt`, which also accepts `i = cnt`. -/
def removeAt (v : Vector T) (i : Nat) : Option (Vector T) := do
  if v.cnt < i then none
  let tab ← array.move v.slots i (i + 1) (v.cnt - i - 1)
  return { v with tab := some tab, cnt := v.cnt - 1 }

/-- The loop of `indexOf` on `n` slots from `i` on. -/
def indexFrom (isEqual : T → T → Bool) (tab : List (Option T)) (x : T) : Nat → Nat → Option (Option Nat)
  | 0, _ => some none
  | n + 1, i =>
    match tab[i]? with
    | some (some y) => if isEqual x y then some (some i) else indexFrom isEqual tab x n (i + 1)
    | _ => none

/-- `indexOf`; `none` is -1. -/
def indexOf (isEqual : T → T → Bool) (v : Vector T) (x : T) : Option (Option Nat) :=
  indexFrom isEqual v.slots x v.cnt 0

/-- `remove` of a value. -/
def remove (isEqual : T → T → Bool) (v : Vector T) (x : T) : Option (Vector T) := do
  match ← v.indexOf isEqual x with
  | some i => v.removeAt i
  | none => some v

/-- `pop`: the value, and the vector. -/
def pop (v : Vector T) : Option (Option T × Vector T) :=
  if v.cnt > 0 then
    (v.slots[v.cnt - 1]?).map fun x => (x, { v with cnt := v.cnt - 1 })
  else
    none

/-- `copy`. -/
def copy (v vec : Vector T) : Option (Vector T) :=
  let v := if v.tab.isNone ∨ vec.cnt > v.cap then { v with cap := vec.cap, tab := some (newVec vec.cap) } else v
  (array.copy v.slots vec.slots vec.cnt).map fun tab => { v with tab := some tab, cnt := vec.cnt }

/-- The copy constructor. -/
def copyOf (vec : Vector T) : Option (Vector T) := copy ⟨none, 0, 0⟩ vec

/-! ## Runs -/

/-- The calls that change one vector. -/
inductive Mutator (T : Type)
  | add (x : T)
  /-- `addNew`, and `x` is assigned to the slot. -/
  | addNew (x : T)
  | insert (i : Nat) (x : T)
  | removeAt (i : Nat)
  | remove (x : T)
  | set (i : Nat) (x : T)
  | pop
  | shrink (l : Nat)
  | setLength (l : Nat)
  | clear
  | detach

variable (isEqual : T → T → Bool)

/-- A call on a vector. -/
def Mutator.run (v : Vector T) : Mutator T → Option (Vector T)
  | .add x => v.add x
  | .addNew x => v.addNew.bind fun r => r.2.assign r.1 x
  | .insert i x => v.insert i x
  | .removeAt i => v.removeAt i
  | .remove x => v.remove isEqual x
  | .set i x => v.set i x
  | .pop => v.pop.map Prod.snd
  | .shrink l => v.shrink l
  | .setLength l => v.setLength l
  | .clear => some v.clear
  | .detach => some v.detach.2

/-- The same call on a list. -/
def Mutator.apply (xs : List T) : Mutator T → List T
  | .add x => xs ++ [x]
  | .addNew x => xs ++ [x]
  | .insert i x => xs.insertIdx i x
  | .removeAt i => xs.eraseIdx i
  | .remove x => xs.eraseP (isEqual x)
  | .set i x => xs.set i x
  | .pop => xs.dropLast
  | .shrink l => xs.take l
  | .setLength l => xs.take l
  | .clear => []
  | .detach => []

/-- The calls on a set of vectors. -/
inductive Op (T : Type)
  | new (cap : Nat)
  | copyOf (i : Nat)
  | copy (i j : Nat)
  | mutate (i : Nat) (m : Mutator T)

/-- A call on the vectors and the same one on the lists. -/
def step (st : List (Vector T) × List (List T)) : Op T → Option (List (Vector T) × List (List T))
  | .new cap => some (st.1 ++ [new cap], st.2 ++ [[]])
  | .copyOf i => do
    let v ← (← st.1[i]?).copyOf
    let xs ← st.2[i]?
    return (st.1 ++ [v], st.2 ++ [xs])
  | .copy i j => do
    let v ← (← st.1[i]?).copy (← st.1[j]?)
    let xs ← st.2[j]?
    return (st.1.set i v, st.2.set i xs)
  | .mutate i m => do
    let v ← m.run isEqual (← st.1[i]?)
    let xs ← st.2[i]?
    return (st.1.set i v, st.2.set i (m.apply isEqual xs))

/-- The vector holds the list, in an array of at least `cap` slots. -/
structure Holds (v : Vector T) (xs : List T) : Prop where
  cnt_eq : v.cnt = xs.length
  cnt_le : v.cnt ≤ v.cap
  cap_le : v.cap ≤ v.slots.length
  content : ∀ i < xs.length, v.slots[i]? = some xs[i]?

/-- Each vector holds its list. -/
structure Safe (st : List (Vector T) × List (List T)) : Prop where
  length_eq : st.1.length = st.2.length
  holds : ∀ (i : Nat) (v : Vector T) (xs : List T), st.1[i]? = some v → st.2[i]? = some xs → v.Holds xs

/-- A call is made inside the list: a position, a number of elements to remove or to keep. -/
def Mutator.Contract (xs : List T) : Mutator T → Prop
  | .insert i _ => i ≤ xs.length
  | .removeAt i => i < xs.length
  | .set i _ => i < xs.length
  | .pop => xs ≠ []
  | .shrink l => l ≤ xs.length
  | .setLength l => l ≤ xs.length
  | _ => True

/-- The vectors of a call exist. -/
def Contract (st : List (Vector T) × List (List T)) : Op T → Prop
  | .new cap => cap < 2 ^ 31
  | .copyOf i => i < st.1.length
  | .copy i j => i < st.1.length ∧ j < st.1.length
  | .mutate i m => i < st.1.length ∧ ∀ xs ∈ st.2[i]?, m.Contract xs

/-- There is a free slot or the vector can grow. -/
def HasRoom (v : Vector T) : Prop := v.cnt < v.cap ∨ 0 < v.cap ∧ v.cap * 2 < 2 ^ 31

/-- The call does not meet a defect of the growth, nor the one of `detach`. -/
def Mutator.Sound (v : Vector T) : Mutator T → Prop
  | .add _ => v.HasRoom
  | .addNew _ => v.HasRoom
  | .insert _ _ => v.HasRoom
  | .setLength l => l ≤ 2 ^ 30
  | .detach => v.cap = 0
  | _ => True

/-- The call does not meet a defect. -/
def Sound (st : List (Vector T) × List (List T)) : Op T → Prop
  | .mutate i m => ∀ v ∈ st.1[i]?, m.Sound v
  | _ => True

end Vector

end Elm.Data
