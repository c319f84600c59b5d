import Elm.Lib.Loop
import Mathlib.Tactic

/-!
# `FragTable`

A table of `include/elm/data/FragTable.h` is a vector of pages of `2 ^ shf` slots, with the number of the slots used
in the last page.  This number can be negative, hence it is an integer; the indices and the counts that a caller
gives are natural numbers.  An access outside a page, or an assertion that fails, gives no result.
-/

namespace Elm.Data

/-- The fields of a table; the mask `msk` is `size - 1`. -/
structure FragTable (T : Type) where
  tab : List (List T)
  size : Nat
  shf : Nat
  used : Int

namespace FragTable

variable {T : Type}

/-- The constructor `FragTable(size_pow)`. -/
def new (sizePow : Nat) : FragTable T := ⟨[], 1 <<< sizePow, sizePow, 1 <<< sizePow⟩

/-- `length`: a shift to the left is a product with a power of two. -/
def length (t : FragTable T) : Int := ((t.tab.length : Int) - 1) * 2 ^ t.shf + t.used

/-- `isEmpty`. -/
def isEmpty (t : FragTable T) : Bool := t.tab.length = 0

/-- `tab[index >> shf][index & msk]`. -/
def slot (t : FragTable T) (index : Nat) : Option T :=
  (t.tab[index >>> t.shf]?).bind fun page => page[index &&& (t.size - 1)]?

/-- `tab[k][j] = value`. -/
def assign (t : FragTable T) (k : Nat) (j : Int) (value : T) : Option (FragTable T) :=
  (t.tab[k]?).bind fun page =>
    if 0 ≤ j ∧ j < page.length then some { t with tab := t.tab.set k (page.set j.toNat value) } else none

/-- `get`. -/
def get (t : FragTable T) (index : Nat) : Option T := if (index : Int) < t.length then t.slot index else none

/-- `set`. -/
def set (t : FragTable T) (index : Nat) (value : T) : Option (FragTable T) :=
  if (index : Int) < t.length then t.assign (index >>> t.shf) ((index &&& (t.size - 1) : Nat) : Int) value else none

/-- `clear`. -/
def clear (t : FragTable T) : FragTable T := { t with tab := [], used := t.size }

section Pages

-- what the slot `j` of the page number `k` contains when the page has just been allocated
variable (fresh : Nat → Nat → T)

/-- `tab.add(new T[size])`, `used = 0`. -/
def addPage (t : FragTable T) : FragTable T :=
  { t with tab := t.tab ++ [(List.range t.size).map (fresh t.tab.length)], used := 0 }

/-- `add`. -/
def add (t : FragTable T) (value : T) : Option (FragTable T) :=
  let t' := if t.used ≥ t.size then t.addPage fresh else t
  (t'.assign (t'.tab.length - 1) t'.used value).map fun t'' => { t'' with used := t''.used + 1 }

/-- One turn of the loop of `alloc`. -/
def allocTurn (state : FragTable T × Int) : (FragTable T × Int) ⊕ FragTable T :=
  let (t, count) := state
  if count ≥ t.size - t.used then .inl (t.addPage fresh, count - (t.size - t.used))
  else .inr { t with used := t.used + count }

/-- `alloc`. -/
def alloc (t : FragTable T) (count : Nat) : Option (FragTable T) :=
  Loop.run (allocTurn fresh) (count + 2) (t, (count : Int))

/-- `insert`: one slot more at the end, the elements from the index on moved by one, the last one first. -/
def insert (t : FragTable T) (index : Nat) (item : T) : Option (FragTable T) :=
  let len := t.length.toNat
  -- `ASSERTP(index >= 0 && index <= length(), ...)`
  if (index : Int) ≤ t.length then
    (t.alloc fresh 1).bind fun t' =>
      ((List.range (len - index)).foldlM (fun (t : FragTable T) k =>
        (t.get (len - 1 - k)).bind fun value => t.set (len - 1 - k + 1) value) t').bind fun t'' =>
          t''.set index item
  else none

end Pages

/-- `shrink`. -/
def shrink (t : FragTable T) (length : Nat) : Option (FragTable T) :=
  -- `ASSERTP(length < this->length(), ...)`
  if (length : Int) < t.length then
    let nl := (length + (t.size - 1)) >>> t.shf
    let used := length &&& (t.size - 1)
    some { t with tab := t.tab.take nl, used := if used = 0 then t.size else used }
  else none

/-- `removeAt`: it does not look whether there is an element. -/
def removeAt (t : FragTable T) (index : Nat) : Option (FragTable T) :=
  let len := t.length.toNat
  ((List.range (len - (index + 1))).foldlM (fun (t : FragTable T) k =>
    (t.get (index + 1 + k)).bind fun value => t.set (index + k) value) t).map fun t' =>
      if t'.used - 1 = 0 then { t' with tab := t'.tab.take (t'.tab.length - 1), used := t'.size }
      else { t' with used := t'.used - 1 }

section Equivalence

variable (isEqual : T → T → Bool)

/-- The loop of `contains`. -/
def containsLoop (t : FragTable T) (v : T) : List Nat → Option Bool
  | [] => some false
  | i :: rest => (t.get i).bind fun x => if isEqual x v then some true else containsLoop t v rest

/-- `contains`. -/
def contains (t : FragTable T) (v : T) : Option Bool := containsLoop isEqual t v (List.range t.length.toNat)

/-- `containsAll`, where `c` has the elements that the iterator of the collection gives. -/
def containsAll (t : FragTable T) : List T → Option Bool
  | [] => some false
  | x :: c => (contains isEqual t x).bind fun found => if found then containsAll t c else some false

end Equivalence

/-- The elements that an iteration gives. -/
def items (t : FragTable T) : Option (List T) := (List.range t.length.toNat).mapM t.get

/-! ## The operations on lists -/

/-- A call. -/
inductive Op (T : Type)
  | add (value : T)
  | alloc (count : Nat)
  | set (index : Nat) (value : T)
  | insert (index : Nat) (item : T)
  | removeAt (index : Nat)
  | shrink (length : Nat)
  | clear

/-- The table and the list under the same calls. -/
structure Pair (T : Type) where
  table : FragTable T
  list : List T

/-- The elements that an allocation has added to a list of length `len`: whatever the new slots contain. -/
def allocated (t : FragTable T) (len count : Nat) : List T := (List.range count).filterMap fun k => t.slot (len + k)

def step (fresh : Nat → Nat → T) (s : Pair T) : Op T → Option (Pair T)
  | .add value => (s.table.add fresh value).map fun t => ⟨t, s.list ++ [value]⟩
  | .alloc count => (s.table.alloc fresh count).map fun t => ⟨t, s.list ++ t.allocated s.list.length count⟩
  | .set index value => (s.table.set index value).map fun t => ⟨t, s.list.set index value⟩
  | .insert index item => (s.table.insert fresh index item).map fun t => ⟨t, s.list.insertIdx index item⟩
  | .removeAt index => (s.table.removeAt index).map fun t => ⟨t, s.list.eraseIdx index⟩
  | .shrink length => (s.table.shrink length).map fun t => ⟨t, s.list.take length⟩
  | .clear => some ⟨s.table.clear, []⟩

/-- What a caller has to respect: indices in the list, and a shorter length. -/
def Valid (s : Pair T) : Op T → Prop
  | .set index _ => index < s.list.length
  | .insert index _ => index ≤ s.list.length
  | .removeAt index => index < s.list.length
  | .shrink length => length < s.list.length
  | _ => True

/-- The table answers as the list, also when it is asked for the elements of `c`. -/
structure Agrees (isEqual : T → T → Bool) (c : List T) (s : Pair T) : Prop where
  length : s.table.length = s.list.length
  get : ∀ i < s.list.length, s.table.get i = s.list[i]?
  isEmpty : s.table.isEmpty = s.list.isEmpty
  contains : ∀ v, s.table.contains isEqual v = some (s.list.any fun x => isEqual x v)
  containsAll : s.table.containsAll isEqual c = some (c.all fun v => s.list.any fun x => isEqual x v)
  items : s.table.items = some s.list

/-- `add` finds the first free slot of the last page, which is not before the page. -/
def InPage (s : Pair T) : Op T → Prop
  | .add _ => 0 ≤ s.table.used
  | _ => True

instance (s : Pair T) : (op : Op T) → Decidable (Valid s op)
  | .set index _ => inferInstanceAs (Decidable (index < s.list.length))
  | .insert index _ => inferInstanceAs (Decidable (index ≤ s.list.length))
  | .removeAt index => inferInstanceAs (Decidable (index < s.list.length))
  | .shrink length => inferInstanceAs (Decidable (length < s.list.length))
  | .add _ | .alloc _ | .clear => inferInstanceAs (Decidable True)

instance (s : Pair T) : (op : Op T) → Decidable (InPage s op)
  | .add _ => inferInstanceAs (Decidable (0 ≤ s.table.used))
  | .alloc _ | .set .. | .insert .. | .removeAt _ | .shrink _ | .clear => inferInstanceAs (Decidable True)

end FragTable

end Elm.Data
