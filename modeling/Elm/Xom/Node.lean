import Mathlib.Algebra.GroupWithZero.Nat
import Mathlib.Data.List.Basic

/-!
# XML trees

The nodes of `elm::xom`.  A text is the list of its characters; what is neither an element nor a text
(a comment, a processing instruction) is only known to be there.
-/

namespace Elm.Xom

open List

/-- `xom::Node`. -/
inductive Node
  | element (name : List Char) (attributes : List (List Char × List Char)) (children : List Node)
  | text (text : List Char)
  | other

namespace Node

/-- `Element::getAttributeValue`. -/
def getAttributeValue : Node → List Char → Option (List Char)
  | .element _ attributes _, name => attributes.lookup name
  | _, _ => none

/-- The nodes that `getChild` gives. -/
def children : Node → List Node
  | .element _ _ children => children
  | _ => []

/-- Whether `kind` is `ELEMENT`. -/
def isElement : Node → Bool
  | .element .. => true
  | _ => false

/-- An element with this local name. -/
def hasName (name : List Char) : Node → Bool
  | .element n _ _ => n = name
  | _ => false

mutual

/-- `getValue`: the texts of a node. -/
def getValue : Node → List Char
  | .element _ _ children => getValues children
  | .text s => s
  | .other => []

def getValues : List Node → List Char
  | [] => []
  | c :: children => getValue c ++ getValues children

end

mutual

/-- A node and the nodes below it. -/
def descendants : Node → List Node
  | .element name attributes children => .element name attributes children :: descendantsOf children
  | .text s => [.text s]
  | .other => [.other]

def descendantsOf : List Node → List Node
  | [] => []
  | c :: children => descendants c ++ descendantsOf children

end

theorem mem_descendants_self (e : Node) : e ∈ e.descendants := by
  cases e with
  | element name attributes children => exact mem_cons_self
  | text s => exact mem_singleton_self _
  | other => exact mem_singleton_self _

theorem mem_descendantsOf {d : Node} {children : List Node} :
    d ∈ descendantsOf children ↔ ∃ c ∈ children, d ∈ c.descendants := by
  induction children with
  | nil => simp [descendantsOf]
  | cons c children ih => simp [descendantsOf, ih]

theorem mem_descendants {d e : Node} : d ∈ e.descendants ↔ d = e ∨ ∃ c ∈ e.children, d ∈ c.descendants := by
  cases e with
  | element name attributes nodes => rw [descendants, mem_cons, mem_descendantsOf, children]
  | text s => simp [descendants, children]
  | other => simp [descendants, children]

mutual

theorem mem_descendants_trans : ∀ (root : Node) {d e : Node}, e ∈ root.descendants → d ∈ e.descendants →
    d ∈ root.descendants
  | .element _ _ nodes, d, e, he, hd => by
    rcases mem_cons.mp he with rfl | he
    · exact hd
    · exact mem_cons_of_mem _ (mem_descendantsOf_trans nodes he hd)
  | .text s, d, e, he, hd => by
    rw [mem_singleton.mp he] at hd
    exact hd
  | .other, d, e, he, hd => by
    rw [mem_singleton.mp he] at hd
    exact hd

theorem mem_descendantsOf_trans : ∀ (nodes : List Node) {d e : Node}, e ∈ descendantsOf nodes → d ∈ e.descendants →
    d ∈ descendantsOf nodes
  | [], _, _, he, _ => nomatch he
  | c :: nodes, d, e, he, hd => by
    rw [descendantsOf, mem_append] at he ⊢
    exact he.imp (fun he => mem_descendants_trans c he hd) fun he => mem_descendantsOf_trans nodes he hd

end

theorem length_descendants (e : Node) : e.descendants.length = (descendantsOf e.children).length + 1 := by
  cases e <;> rfl

theorem length_descendantsOf (children : List Node) :
    (descendantsOf children).length = (children.map fun c => c.descendants.length).sum := by
  induction children with
  | nil => rfl
  | cons c children ih => rw [descendantsOf, length_append, ih, map_cons, sum_cons]

theorem length_descendants_le {c : Node} {children : List Node} (h : c ∈ children) :
    c.descendants.length ≤ (descendantsOf children).length := by
  induction children with
  | nil => cases h
  | cons c' children ih =>
    rw [descendantsOf, length_append]
    rcases mem_cons.mp h with rfl | h
    · exact Nat.le_add_right _ _
    · exact Nat.le_add_left_of_le (ih h)

end Node

end Elm.Xom
