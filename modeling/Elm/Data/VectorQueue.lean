import Elm.Data.Vector

/-!
# `VectorQueue`

The queue of `include/elm/data/VectorQueue.h`, in a circular buffer whose size is a power of two.  A failed
assertion, an `int` overflow and an access out of the buffer have no result.
-/

namespace Elm.Data

/-- `VectorQueue`. -/
structure VectorQueue (T : Type) where
  hd : Nat
  tl : Nat
  cap : Nat
  buffer : List (Option T)

namespace VectorQueue

variable {T : Type}

/-- The constructor of a capacity. -/
def new (capacity : Nat) : Option (VectorQueue T) :=
  (int (1 <<< capacity)).map fun cap => ⟨0, 0, cap, Vector.newVec cap⟩

/-- The loops of `enlarge`: `size` slots of `source` from `i` on are copied in `target` from `off` on. -/
def copySlots (target source : List (Option T)) (off i size : Nat) : Option (List (Option T)) :=
  (List.range size).foldlM (fun t k => (source[i + k]?).bind (array.assign t (off + k))) target

/-- `enlarge`. -/
def enlarge (q : VectorQueue T) : Option (VectorQueue T) := do
  let newCap ← int (q.cap * 2)
  let newBuffer := Vector.newVec newCap
  if q.hd > q.tl then
    let off := q.cap - q.hd
    let newBuffer ← copySlots newBuffer q.buffer 0 q.hd off
    let newBuffer ← copySlots newBuffer q.buffer off 0 q.tl
    return ⟨0, off + q.tl, newCap, newBuffer⟩
  else
    let newBuffer ← copySlots newBuffer q.buffer 0 q.hd (q.tl - q.hd)
    return ⟨q.hd, q.tl - q.hd, newCap, newBuffer⟩

/-- `size`. -/
def size (q : VectorQueue T) : Nat :=
  if q.hd < q.tl then q.tl - q.hd else q.cap - q.hd + q.tl

/-- `isEmpty`. -/
def isEmpty (q : VectorQueue T) : Bool := q.hd = q.tl

/-- The slot after `i`. -/
def after (q : VectorQueue T) (i : Nat) : Nat := (i + 1) &&& (q.cap - 1)

/-- One turn of the loop of `contains`, at the slot `i`. -/
def containsTurn (isEqual : T → T → Bool) (q : VectorQueue T) (val : T) (i : Nat) : Nat ⊕ Option Bool :=
  if i ≠ q.tl then
    match q.buffer[i]? with
    | some (some x) => if isEqual x val then .inr (some true) else .inl (q.after i)
    | _ => .inr none
  else
    .inr (some false)

/-- `contains`. -/
def contains (isEqual : T → T → Bool) (q : VectorQueue T) (val : T) : Option Bool :=
  (Loop.run (containsTurn isEqual q val) (q.cap + 1) q.hd).join

/-- `put`. -/
def put (q : VectorQueue T) (value : T) : Option (VectorQueue T) := do
  let newTl := q.after q.tl
  if newTl = q.hd then
    let q ← q.enlarge
    let newTl := q.tl + 1
    let buffer ← array.assign q.buffer q.tl (some value)
    return { q with tl := newTl, buffer }
  else
    let buffer ← array.assign q.buffer q.tl (some value)
    return { q with tl := newTl, buffer }

/-- `get`: the value, and the queue. -/
def get (q : VectorQueue T) : Option (T × VectorQueue T) :=
  if q.hd ≠ q.tl then
    (q.buffer[q.hd]?).join.map fun x => (x, { q with hd := q.after q.hd })
  else
    none

/-- `head`. -/
def head (q : VectorQueue T) : Option T := if q.hd ≠ q.tl then (q.buffer[q.hd]?).join else none

/-- `reset`. -/
def reset (q : VectorQueue T) : VectorQueue T := { q with hd := 0, tl := 0 }

/-! ## Runs -/

inductive Op (T : Type)
  | put (value : T)
  | get
  | reset

/-- A queue and a list, with what each of them gave. -/
structure Pair (T : Type) where
  queue : VectorQueue T
  got : List T
  list : List T
  out : List T

/-- A call on the queue and the same one on the list. -/
def step (s : Pair T) : Op T → Option (Pair T)
  | .put value => (s.queue.put value).map fun queue => { s with queue, list := s.list ++ [value] }
  | .get => do
    let (x, queue) ← s.queue.get
    let (y, list) ← s.list.head?.map fun y => (y, s.list.tail)
    return ⟨queue, s.got ++ [x], list, s.out ++ [y]⟩
  | .reset => some { s with queue := s.queue.reset, list := [] }

/-- A value is taken from a list that has one, and the buffer of a list that grows is below `2 ^ 30` slots. -/
def Allowed (s : Pair T) : Op T → Prop
  | .put _ => s.list.length + 1 < 2 ^ 30
  | .get => s.list ≠ []
  | .reset => True

/-- The queue gives the values in their order, and its observers agree with the list. -/
structure Pair.Agrees (isEqual : T → T → Bool) (s : Pair T) : Prop where
  got : s.got = s.out
  head : s.queue.head = s.list.head?
  isEmpty : s.queue.isEmpty = s.list.isEmpty
  contains : ∀ val, s.queue.contains isEqual val = some (s.list.any fun x => isEqual x val)
  size : s.queue.size = s.list.length

end VectorQueue

end Elm.Data
