import Elm.Lib.Chain
import Elm.Lib.Loop

/-!
# `inhstruct::Tree`

The trees of `include/elm/inhstruct/Tree.h` and `src/inhstruct_Tree.cpp`: a tree has a pointer to its first child and
a pointer to its next sibling.  The link to the next sibling is a member of the child and survives its removal.  A
tree is named by its number in the order in which the trees have been made; a loop over the children is given the
number of trees as a bound.
-/

namespace Elm.Inhstruct.Tree

open Chain Function

/-- `Tree`: its members `_children` and `_sibling`. -/
structure Node where
  children : Option Nat
  sibling : Option Nat

/-- The trees that have been made. -/
structure Forest where
  node : Nat → Node
  made : Nat

namespace Forest

/-- No tree. -/
def empty : Forest := ⟨fun _ => ⟨none, none⟩, 0⟩

/-- `Tree()`. -/
def new (f : Forest) : Forest := ⟨update f.node f.made ⟨none, none⟩, f.made + 1⟩

/-- `_children`. -/
def children (f : Forest) (t : Nat) : Option Nat := (f.node t).children

/-- `_sibling`. -/
def sibling (f : Forest) (t : Nat) : Option Nat := (f.node t).sibling

/-- `t->_children = p`. -/
def setChildren (f : Forest) (t : Nat) (p : Option Nat) : Forest :=
  { f with node := update f.node t { f.node t with children := p } }

/-- `t->_sibling = p`. -/
def setSibling (f : Forest) (t : Nat) (p : Option Nat) : Forest :=
  { f with node := update f.node t { f.node t with sibling := p } }

/-- What a loop over the siblings reads. -/
def read (f : Forest) : Read Nat Unit := fun t => if t < f.made then some (f.sibling t, ()) else none

/-- A loop `for(Iter cur(this); cur; cur++)` that is left at the first child that passes a test. -/
def find {ρ : Type} (f : Forest) (t : Nat) (stop : Nat → Prop) [DecidablePred stop] (g : Nat → ρ) (exit : Unit → ρ) :
    Option ρ :=
  walk f.read (fun _ cur _ => if stop cur then .inr (g cur) else .inl ()) exit f.made (f.children t) ()

/-- The children that an `Iter` gives. -/
def items (f : Forest) (t : Nat) : Option (List Nat) :=
  (toList f.read f.made (f.children t)).map fun cells => cells.map Prod.fst

/-- `hasChild`, which does not look at its argument. -/
def hasChild (f : Forest) (t _tree : Nat) : Bool := (f.children t).isSome

/-- `prependChild`. -/
def prependChild (f : Forest) (t child : Nat) : Forest :=
  (f.setSibling child (f.children t)).setChildren t (some child)

/-- `appendChild`: the sibling of the child stays as it is. -/
def appendChild (f : Forest) (t child : Nat) : Option Forest :=
  if f.children t = none then
    some (f.setChildren t (some child))
  else
    f.find t (fun cur => f.sibling cur = none) (fun cur => f.setSibling cur (some child)) fun _ => f

/-- `removeChild`: there is no result when the assertion "child not in this tree" fails. -/
def removeChild (f : Forest) (t child : Nat) : Option Forest :=
  if f.children t = some child then
    some (f.setChildren t (f.sibling child))
  else
    (f.find t (fun cur => f.sibling cur = some child) (fun cur => some (f.setSibling cur (f.sibling child)))
      fun _ => none).join

end Forest

/-! ## Programs -/

/-- A call. -/
inductive Op
  | new
  | prependChild (t child : Nat)
  | appendChild (t child : Nat)
  | removeChild (t child : Nat)
  | hasChild (t tree : Nat)

/-- The trees, the list of the children that each one should have, and what `hasChild` has answered and should have
answered. -/
structure State where
  forest : Forest
  lists : Nat → List Nat
  answers : List Bool
  expected : List Bool

def State.init : State := ⟨.empty, fun _ => [], [], []⟩

def step (s : State) : Op → Option State
  | .new => some { s with forest := s.forest.new }
  | .prependChild t child => some { s with
      forest := s.forest.prependChild t child
      lists := update s.lists t (child :: s.lists t) }
  | .appendChild t child => (s.forest.appendChild t child).map fun forest => { s with
      forest
      lists := update s.lists t (s.lists t ++ [child]) }
  | .removeChild t child => (s.forest.removeChild t child).map fun forest => { s with
      forest
      lists := update s.lists t ((s.lists t).erase child) }
  | .hasChild t tree => some { s with
      answers := s.answers ++ [s.forest.hasChild t tree]
      expected := s.expected ++ [decide (tree ∈ s.lists t)] }

/-- The answers were right, and the children of each tree are its list. -/
structure Agrees (s : State) : Prop where
  answers : s.answers = s.expected
  items : ∀ t < s.forest.made, s.forest.items t = some (s.lists t)

/-- A child that may be added: it has been made and it is not the child of any tree. -/
def Free (s : State) (child : Nat) : Prop := child < s.forest.made ∧ ∀ t < s.forest.made, child ∉ s.lists t

instance (s : State) (child : Nat) : Decidable (Free s child) :=
  inferInstanceAs (Decidable (child < s.forest.made ∧ ∀ t < s.forest.made, child ∉ s.lists t))

/-- The calls are on trees that have been made, and what is added is not the child of any tree. -/
def Valid (s : State) : Op → Prop
  | .new => True
  | .prependChild t child => t < s.forest.made ∧ Free s child
  | .appendChild t child => t < s.forest.made ∧ Free s child
  | .removeChild t child => t < s.forest.made ∧ child < s.forest.made
  | .hasChild t tree => t < s.forest.made ∧ tree < s.forest.made

instance (s : State) : (op : Op) → Decidable (Valid s op)
  | .new => inferInstanceAs (Decidable True)
  | .prependChild t child => inferInstanceAs (Decidable (t < s.forest.made ∧ Free s child))
  | .appendChild t child => inferInstanceAs (Decidable (t < s.forest.made ∧ Free s child))
  | .removeChild t child => inferInstanceAs (Decidable (t < s.forest.made ∧ child < s.forest.made))
  | .hasChild t tree => inferInstanceAs (Decidable (t < s.forest.made ∧ tree < s.forest.made))

/-- What is appended has no sibling from an earlier list, what is removed is there, and a tree with children is asked
for one of them. -/
def Allowed (s : State) : Op → Prop
  | .new => True
  | .prependChild _ _ => True
  | .appendChild _ child => s.forest.sibling child = none
  | .removeChild t child => child ∈ s.lists t
  | .hasChild t tree => s.lists t = [] ∨ tree ∈ s.lists t

instance (s : State) : (op : Op) → Decidable (Allowed s op)
  | .new => inferInstanceAs (Decidable True)
  | .prependChild _ _ => inferInstanceAs (Decidable True)
  | .appendChild _ child => inferInstanceAs (Decidable (s.forest.sibling child = none))
  | .removeChild t child => inferInstanceAs (Decidable (child ∈ s.lists t))
  | .hasChild t tree => inferInstanceAs (Decidable (s.lists t = [] ∨ tree ∈ s.lists t))

end Elm.Inhstruct.Tree
