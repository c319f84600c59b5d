import Elm.Lib.Loop
import Elm.Serial.Compound
import Mathlib.Data.List.Forall2

/-!
# Writing and reading collections

An array is read back when it has an item and the context where it is written has its member `firstItem` clear, or no
more than two items.  A collection is never read back: its items are all read from the first one, and a context is
left on the stack.
-/

namespace Elm.Serial.Compound

open Elm.Xom List

variable {α : Type}

/-! ## What is written -/

/-- The items of a compound with the member `firstItem` of the contexts where they are written. -/
def flagged {β : Type} (firstItem : Bool) : List β → List (Bool × β)
  | [] => []
  | item :: items => (false, item) :: items.map fun item => (firstItem, item)

/-- The number of elements for a number of items. -/
def elementCount (firstItem : Bool) (n : Nat) : Nat := if firstItem then 1 + n / 2 else max 1 n

/-- The items are in elements of their own. -/
def Separate {β : Type} (firstItem : Bool) (items : List β) : Prop :=
  items ≠ [] ∧ (firstItem = true → items.length ≤ 2)

/-- The elements of a compound. -/
def HoldsItems {β : Type} (holds : Bool → β → Node → Prop) (firstItem : Bool) (items : List β) (e : Node) : Prop :=
  (∀ c ∈ e.children, c.isElement) ∧ e.children.length = elementCount firstItem items.length ∧
    (Separate firstItem items → List.Forall₂ (fun p c => holds p.1 p.2 c) (flagged firstItem items) e.children)

/-- An element where a value has been written from a context with this member `firstItem`. -/
def Holds (codec : Codec α) : (t : Shape) → Bool → Stored α t → Node → Prop
  | .value, _, a, e => ∃ name, e = (codec.write a (Elem.new name)).node
  | .array t, firstItem, v, e => HoldsItems (Holds codec t) firstItem v.2 e
  | .collection t, firstItem, v, e => HoldsItems (Holds codec t) firstItem v.2 e

/-- What a serialization does: the context and the stack are the same, but the element, where the value is when the
element was new. -/
def Writes {β : Type} (holds : Bool → β → Node → Prop) (write : β → Writer → Option Writer) : Prop :=
  ∀ v s, ∃ elem ids, write v s = some ⟨⟨elem, s.ctx.firstItem⟩, s.stack, ids⟩ ∧
    ∀ name, s.ctx.elem = Elem.new name → holds s.ctx.firstItem v elem.node

theorem Elem.isElement_cons (e : Elem) {es : List Node} (h : ∀ c ∈ es, c.isElement) :
    ∀ c ∈ e.node :: es, c.isElement :=
  forall_mem_cons.mpr ⟨rfl, h⟩

theorem Elem.addAttribute_children (e : Elem) (name value : List Char) :
    (e.addAttribute name value).children = e.children := by
  rw [Elem.addAttribute]
  split_ifs <;> rfl

section Items

variable {β : Type} {holds : Bool → β → Node → Prop} {write : β → Writer → Option Writer}

/-- One turn of the loop on the items. -/
def itemTurn (write : β → Writer → Option Writer) (s : Writer) (item : β) : Option Writer := do
  write item (← s.onItem)

/-- An item for which there is an element already. -/
theorem itemTurn_first (h : Writes holds write) (elem : Elem) (stack : List WriteContext) (ids : Ids) (item : β) :
    ∃ elem' ids', itemTurn write ⟨⟨elem, true⟩, stack, ids⟩ item = some ⟨⟨elem', false⟩, stack, ids'⟩ ∧
      ∀ name, elem = Elem.new name → holds false item elem'.node := by
  obtain ⟨elem', ids', hwrite, hholds⟩ := h item ⟨⟨elem, false⟩, stack, ids⟩
  exact ⟨elem', ids', hwrite, hholds⟩

/-- An item that gets a new element. -/
theorem itemTurn_next (h : Writes holds write) (elem parent : Elem) (firstItem : Bool) (stack : List WriteContext)
    (ids : Ids) (item : β) :
    ∃ elem' ids', itemTurn write ⟨⟨elem, false⟩, ⟨parent, firstItem⟩ :: stack, ids⟩ item =
        some ⟨⟨elem', firstItem⟩, ⟨parent.appendChild elem.node, firstItem⟩ :: stack, ids'⟩ ∧
      holds firstItem item elem'.node := by
  obtain ⟨elem', ids', hwrite, hholds⟩ := h item
    ⟨⟨Elem.new itemName, firstItem⟩, ⟨parent.appendChild elem.node, firstItem⟩ :: stack, ids⟩
  exact ⟨elem', ids', hwrite, hholds itemName rfl⟩

/-- The items that follow, when the context of the compound has its member `firstItem` clear: each one has an
element. -/
theorem items_clear (h : Writes holds write) (items : List β) (elem parent : Elem) (stack : List WriteContext)
    (ids : Ids) :
    ∃ elem' parent' ids' es,
      items.foldlM (itemTurn write) ⟨⟨elem, false⟩, ⟨parent, false⟩ :: stack, ids⟩ =
        some ⟨⟨elem', false⟩, ⟨parent', false⟩ :: stack, ids'⟩ ∧
      parent'.children ++ [elem'.node] = parent.children ++ elem.node :: es ∧ (∀ c ∈ es, c.isElement) ∧
        List.Forall₂ (holds false) items es := by
  induction items generalizing elem parent ids with
  | nil => exact ⟨elem, parent, ids, [], rfl, rfl, forall_mem_nil _, .nil⟩
  | cons item items ih =>
    obtain ⟨elem₁, ids₁, hturn, hholds⟩ := itemTurn_next h elem parent false stack ids item
    obtain ⟨elem', parent', ids', es, hrun, hchildren, hes, hall⟩ := ih elem₁ (parent.appendChild elem.node) ids₁
    refine ⟨elem', parent', ids', elem₁.node :: es, ?_, ?_, elem₁.isElement_cons hes, .cons hholds hall⟩
    · rw [foldlM_cons, hturn]
      exact hrun
    · rw [hchildren, Elem.appendChild, append_assoc]
      rfl

/-- When the context of the compound has its member `firstItem` set, the items share elements by two. -/
theorem items_set (h : Writes holds write) (items : List β) (elem parent : Elem) (firstItem : Bool)
    (stack : List WriteContext) (ids : Ids) :
    ∃ elem' parent' firstItem' ids' c es,
      items.foldlM (itemTurn write) ⟨⟨elem, firstItem⟩, ⟨parent, true⟩ :: stack, ids⟩ =
        some ⟨⟨elem', firstItem'⟩, ⟨parent', true⟩ :: stack, ids'⟩ ∧
      parent'.children ++ [elem'.node] = parent.children ++ c :: es ∧ (∀ e ∈ c :: es, e.isElement) ∧
        es.length = (items.length + if firstItem then 0 else 1) / 2 := by
  induction items generalizing elem parent firstItem ids with
  | nil =>
    refine ⟨elem, parent, firstItem, ids, elem.node, [], rfl, rfl, elem.isElement_cons (forall_mem_nil _), ?_⟩
    cases firstItem <;> simp
  | cons item items ih =>
    cases firstItem with
    | true =>
      obtain ⟨elem₁, ids₁, hturn, -⟩ := itemTurn_first h elem (⟨parent, true⟩ :: stack) ids item
      obtain ⟨elem', parent', firstItem', ids', c, es, hrun, hchildren, hes, hlength⟩ :=
        ih elem₁ parent false ids₁
      refine ⟨elem', parent', firstItem', ids', c, es, ?_, hchildren, hes, hlength⟩
      rw [foldlM_cons, hturn]
      exact hrun
    | false =>
      obtain ⟨elem₁, ids₁, hturn, -⟩ := itemTurn_next h elem parent true stack ids item
      obtain ⟨elem', parent', firstItem', ids', c, es, hrun, hchildren, hes, hlength⟩ :=
        ih elem₁ (parent.appendChild elem.node) true ids₁
      refine ⟨elem', parent', firstItem', ids', elem.node, c :: es, ?_, ?_, elem.isElement_cons hes, ?_⟩
      · rw [foldlM_cons, hturn]
        exact hrun
      · rw [hchildren, Elem.appendChild, append_assoc]
        rfl
      · rw [length_cons, length_cons, hlength, if_pos rfl, if_neg (by decide)]
        omega

theorem begin_spec (object : Addr) (elem : Elem) (firstItem : Bool) (stack : List WriteContext) (ids : Ids) :
    ∃ elem' ids', Writer.beginCompound ⟨⟨elem, firstItem⟩, stack, ids⟩ object =
        ⟨⟨Elem.new itemName, true⟩, ⟨elem', firstItem⟩ :: stack, ids'⟩ ∧ elem'.children = elem.children :=
  ⟨_, _, rfl, elem.addAttribute_children _ _⟩

theorem serializeItems_eq {object : Addr} {items : List β} {s : Writer} {elem parent : Elem} {firstItem first : Bool}
    {stack : List WriteContext} {ids : Ids}
    (h : items.foldlM (itemTurn write) (s.beginCompound object) =
      some ⟨⟨elem, first⟩, ⟨parent, firstItem⟩ :: stack, ids⟩) :
    serializeItems write object items s = some ⟨⟨parent.appendChild elem.node, firstItem⟩, stack, ids⟩ := by
  have hrun : serializeItems write object items s =
      (items.foldlM (itemTurn write) (s.beginCompound object)).bind Writer.endCompound := rfl
  rw [hrun, h]
  rfl

/-- The serialization of a compound. -/
theorem writes_items (h : Writes holds write) (object : Addr) (items : List β) (s : Writer) :
    ∃ elem ids, serializeItems write object items s = some ⟨⟨elem, s.ctx.firstItem⟩, s.stack, ids⟩ ∧
      ∀ name, s.ctx.elem = Elem.new name → HoldsItems holds s.ctx.firstItem items elem.node := by
  obtain ⟨⟨elem, firstItem⟩, stack, ids⟩ := s
  obtain ⟨parent, ids₁, hbegin, hparent⟩ := begin_spec object elem firstItem stack ids
  have hnew : ∀ name, elem = Elem.new name → parent.children = [] := by
    rintro name rfl
    exact hparent
  cases items with
  | nil =>
    -- the element that `beginCompound` has made stays empty
    refine ⟨_, ids₁, serializeItems_eq (congrArg some hbegin), fun name heq => ?_⟩
    have hchildren : (parent.appendChild (Elem.new itemName).node).node.children = [(Elem.new itemName).node] :=
      congrArg (· ++ [_]) (hnew name heq)
    rw [HoldsItems, hchildren]
    refine ⟨Elem.isElement_cons _ (forall_mem_nil _), ?_, fun hsep => absurd rfl hsep.1⟩
    cases firstItem <;> simp [elementCount]
  | cons item items =>
    obtain ⟨elem₁, ids₂, hfirst, hholds⟩ :=
      itemTurn_first h (Elem.new itemName) (⟨parent, firstItem⟩ :: stack) ids₁ item
    have hrun : ∀ {s}, items.foldlM (itemTurn write) ⟨⟨elem₁, false⟩, ⟨parent, firstItem⟩ :: stack, ids₂⟩ = some s →
        (item :: items).foldlM (itemTurn write) (Writer.beginCompound ⟨⟨elem, firstItem⟩, stack, ids⟩ object) =
          some s := by
      intro s hs
      rw [foldlM_cons, hbegin, hfirst]
      exact hs
    cases firstItem with
    | false =>
      obtain ⟨elem', parent', ids', es, hitems, hchildren, hes, hall⟩ :=
        items_clear h items elem₁ parent stack ids₂
      refine ⟨_, ids', serializeItems_eq (hrun hitems), fun name heq => ?_⟩
      rw [hnew name heq, nil_append] at hchildren
      have hnode : (parent'.appendChild elem'.node).node.children = elem₁.node :: es := hchildren
      rw [HoldsItems, hnode]
      refine ⟨elem₁.isElement_cons hes, ?_, fun _ => .cons (hholds itemName rfl) ?_⟩
      · rw [length_cons, length_cons, ← hall.length_eq]
        exact (Nat.max_eq_right (Nat.le_add_left 1 _)).symm
      · exact forall₂_map_left_iff.mpr hall
    | true =>
      match items with
      | [] =>
        refine ⟨_, ids₂, serializeItems_eq (hrun rfl), fun name heq => ?_⟩
        have hchildren : (parent.appendChild elem₁.node).node.children = [elem₁.node] :=
          congrArg (· ++ [_]) (hnew name heq)
        rw [HoldsItems, hchildren]
        exact ⟨elem₁.isElement_cons (forall_mem_nil _), by simp [elementCount],
          fun _ => .cons (hholds itemName rfl) .nil⟩
      | [item'] =>
        obtain ⟨elem₂, ids₃, hnext, hholds₂⟩ := itemTurn_next h elem₁ parent true stack ids₂ item'
        refine ⟨_, ids₃, serializeItems_eq (hrun (by rw [foldlM_cons, hnext]; rfl)), fun name heq => ?_⟩
        have hchildren : ((parent.appendChild elem₁.node).appendChild elem₂.node).node.children =
            [elem₁.node, elem₂.node] :=
          congrArg (fun children => (children ++ [_]) ++ [_]) (hnew name heq)
        rw [HoldsItems, hchildren]
        exact ⟨elem₁.isElement_cons (elem₂.isElement_cons (forall_mem_nil _)), by simp [elementCount],
          fun _ => .cons (hholds itemName rfl) (.cons hholds₂ .nil)⟩
      | item₂ :: item₃ :: items =>
        obtain ⟨elem', parent', firstItem', ids', c, es, hitems, hchildren, hes, hlength⟩ :=
          items_set h (item₂ :: item₃ :: items) elem₁ parent false stack ids₂
        refine ⟨_, ids', serializeItems_eq (hrun hitems), fun name heq => ?_⟩
        rw [hnew name heq, nil_append] at hchildren
        have hnode : (parent'.appendChild elem'.node).node.children = c :: es := hchildren
        rw [HoldsItems, hnode]
        refine ⟨hes, ?_, fun hsep => absurd (hsep.2 rfl) (by simp)⟩
        rw [length_cons, hlength, if_neg (by decide), elementCount, if_pos rfl]
        simp only [length_cons]
        omega

end Items

/-- Every value is written, and its element holds it. -/
theorem writes_serialize (codec : Codec α) (t : Shape) : Writes (Holds codec t) (serialize codec t) := by
  induction t with
  | value =>
    intro a s
    refine ⟨codec.write a s.ctx.elem, s.ids, rfl, fun name heq => ⟨name, ?_⟩⟩
    rw [heq]
  | array t ih => exact fun v s => writes_items ih v.1 v.2 s
  | collection t ih => exact fun v s => writes_items ih v.1 v.2 s

/-! ## The contexts of the reading -/

section Reading

/-- The stack is kept, with contexts above it. -/
def Keeps {β : Type} (read : Reader → Except Failure (β × Reader)) : Prop :=
  ∀ s d s', read s = .ok (d, s') → s.stack <:+ s'.stack

/-- The children of an element from an index on. -/
def elementsFrom (e : Node) (i : Nat) : Nat := (e.children.drop i).countP Node.isElement

/-- The first place where a list has an element with a property. -/
theorem findIdx_cases {β : Type} (p : β → Bool) (l : List β) :
    (∃ a, l[l.findIdx p]? = some a ∧ l.countP p = (l.drop (l.findIdx p + 1)).countP p + 1) ∨
      l[l.findIdx p]? = none ∧ l.countP p = 0 := by
  induction l with
  | nil => exact .inr ⟨rfl, rfl⟩
  | cons a l ih =>
    rw [findIdx_cons]
    cases ha : p a with
    | true =>
      left
      refine ⟨a, rfl, ?_⟩
      rw [countP_cons_of_pos ha]
      rfl
    | false =>
      rw [countP_cons_of_neg (by simpa using ha)]
      exact ih

/-- A child is entered, or there is none. -/
theorem enterFrom_cases (s : Reader) (i : Nat) :
    (∃ j node, s.enterFrom i = (true, ⟨⟨j, node⟩, ⟨j, s.ctx.elem⟩ :: s.stack⟩) ∧
        elementsFrom s.ctx.elem i = elementsFrom s.ctx.elem (j + 1) + 1) ∨
      ∃ j, s.enterFrom i = (false, ⟨⟨j, s.ctx.elem⟩, s.stack⟩) ∧ elementsFrom s.ctx.elem i = 0 := by
  unfold Reader.enterFrom elementsFrom
  rcases findIdx_cases Node.isElement (s.ctx.elem.children.drop i) with ⟨node, hget, hcount⟩ | ⟨hget, hcount⟩
  · left
    rw [getElem?_drop] at hget
    rw [drop_drop] at hcount
    refine ⟨i + (s.ctx.elem.children.drop i).findIdx Node.isElement, node, ?_, hcount⟩
    simp only [hget]
  · right
    rw [getElem?_drop] at hget
    refine ⟨i + (s.ctx.elem.children.drop i).findIdx Node.isElement, ?_, hcount⟩
    simp only [hget]

section Loops

variable {β : Type} {read : Reader → Except Failure (β × Reader)}

theorem readArray_succ {n : Nat} {s s' : Reader} {items : List β} (h : readArray read (n + 1) s = .ok (items, s')) :
    ∃ item s₁ found s₂ items', read s = .ok (item, s₁) ∧ s₁.nextItem = .ok (found, s₂) ∧
      readArray read n s₂ = .ok (items', s') ∧ items = item :: items' := by
  obtain ⟨⟨item, s₁⟩, hitem, h⟩ := Run.exists_of_bind_eq_ok h
  obtain ⟨⟨found, s₂⟩, hnext, h⟩ := Run.exists_of_bind_eq_ok h
  obtain ⟨⟨items', s₃⟩, hrest, h⟩ := Run.exists_of_bind_eq_ok h
  cases h
  exact ⟨item, s₁, found, s₂, items', hitem, hnext, hrest, rfl⟩

theorem readCollection_succ {n : Nat} {s s' : Reader} {items : List β}
    (h : readCollection read (n + 1) s = .ok (items, s')) :
    ∃ item s₁ items', read s = .ok (item, s₁) ∧ readCollection read n s₁ = .ok (items', s') ∧
      items = item :: items' := by
  obtain ⟨⟨item, s₁⟩, hitem, h⟩ := Run.exists_of_bind_eq_ok h
  obtain ⟨⟨items', s₂⟩, hrest, h⟩ := Run.exists_of_bind_eq_ok h
  cases h
  exact ⟨item, s₁, items', hitem, hrest, rfl⟩

theorem nextItem_ok {s s' : Reader} {found : Bool} (h : s.nextItem = .ok (found, s')) :
    ∃ c stack, s.stack = c :: stack ∧ Reader.enterFrom ⟨c, stack⟩ (c.i + 1) = (found, s') := by
  unfold Reader.nextItem at h
  cases hstack : s.stack with
  | nil =>
    rw [hstack] at h
    cases h
  | cons c stack =>
    rw [hstack] at h
    exact ⟨c, stack, rfl, Except.ok.inj h⟩

theorem length_readArray {n : Nat} {s s' : Reader} {items : List β} (h : readArray read n s = .ok (items, s')) :
    items.length = n := by
  induction n generalizing s items with
  | zero =>
    cases h
    rfl
  | succ n ih =>
    obtain ⟨item, s₁, found, s₂, items', -, -, hrest, rfl⟩ := readArray_succ h
    rw [length_cons, ih hrest]

/-- Without `nextItem`, no context is left. -/
theorem readCollection_keeps (h : Keeps read) {n : Nat} {s s' : Reader} {items : List β}
    (hread : readCollection read n s = .ok (items, s')) : s.stack <:+ s'.stack := by
  induction n generalizing s items with
  | zero =>
    cases hread
    exact suffix_rfl
  | succ n ih =>
    obtain ⟨item, s₁, items', hitem, hrest, -⟩ := readCollection_succ hread
    exact (h _ _ _ hitem).trans (ih hrest)

/-- In the loop on an array, a context of its element `e` is on the stack, below those that its items have left. -/
def Inside (e : Node) (stack : List ReadContext) (j : Nat) (s : Reader) : Prop := ⟨j, e⟩ :: stack <:+ s.stack

/-- The context of the array is not popped when there is another one above it. -/
theorem inside_nextItem {e : Node} {stack above : List ReadContext} {c : ReadContext} {j : Nat} {s s' : Reader}
    {found : Bool} (hstack : s.stack = c :: above ++ ⟨j, e⟩ :: stack) (hnext : s.nextItem = .ok (found, s')) :
    Inside e stack j s' := by
  obtain ⟨c', rest, hstack', henter⟩ := nextItem_ok hnext
  obtain ⟨rfl, rfl⟩ := List.cons.inj (hstack'.symm.trans hstack)
  rcases enterFrom_cases ⟨c', above ++ ⟨j, e⟩ :: stack⟩ (c'.i + 1) with ⟨j', node, hfound, -⟩ | ⟨j', hnone, -⟩
  · obtain ⟨-, rfl⟩ := Prod.mk.inj (hfound.symm.trans henter)
    exact (suffix_append _ _).trans (suffix_cons _ _)
  · obtain ⟨-, rfl⟩ := Prod.mk.inj (hnone.symm.trans henter)
    exact suffix_append _ _

/-- The loop comes back to the stack at the beginning when each item has been balanced, and not otherwise. -/
theorem readArray_inside (h : Keeps read) {e : Node} {stack : List ReadContext} {n j : Nat} {s s' : Reader}
    {items : List β} (hread : readArray read n s = .ok (items, s')) (hs : Inside e stack j s)
    (hn : n ≤ elementsFrom e (j + 1) + 1) :
    (∃ j', Inside e stack j' s') ∨ n = elementsFrom e (j + 1) + 1 ∧ s'.stack = stack := by
  induction n generalizing s j items with
  | zero =>
    cases hread
    exact .inl ⟨j, hs⟩
  | succ n ih =>
    obtain ⟨item, s₁, found, s₂, items', hitem, hnext, hrest, -⟩ := readArray_succ hread
    obtain ⟨above, habove⟩ := hs.trans (h _ _ _ hitem)
    obtain ⟨c, rest, hstack, hseek⟩ := nextItem_ok hnext
    rw [hstack] at habove
    cases above with
    | nil =>
      -- the items are balanced: the context that is popped is the one of the array
      obtain ⟨rfl, rfl⟩ := List.cons.inj habove
      rcases enterFrom_cases ⟨⟨j, e⟩, stack⟩ (j + 1) with ⟨j', node, henter, hcount⟩ | ⟨j', henter, hcount⟩
      · rw [henter] at hseek
        cases hseek
        have hcount' : elementsFrom e (j + 1) = elementsFrom e (j' + 1) + 1 := hcount
        rcases ih hrest suffix_rfl (by omega) with hin | ⟨hlast, hend⟩
        · exact .inl hin
        · exact .inr ⟨by omega, hend⟩
      · rw [henter] at hseek
        cases hseek
        have hcount' : elementsFrom e (j + 1) = 0 := hcount
        obtain rfl : n = 0 := by omega
        cases hrest
        exact .inr ⟨by omega, rfl⟩
    | cons c' above =>
      -- a context that an item has left is popped
      have hin := inside_nextItem (hstack.trans habove.symm) hnext
      rcases ih hrest hin (by omega) with hin' | ⟨hlast, -⟩
      · exact .inl hin'
      · omega

/-- A compound is entered when it has an element. -/
theorem unserializeArray_ok {s s' : Reader} {items : List β} (h : unserializeArray read s = .ok (items, s')) :
    s.countItems = 0 ∧ s' = s ∨ ∃ j node, s.countItems = elementsFrom s.ctx.elem (j + 1) + 1 ∧
      readArray read s.countItems ⟨⟨j, node⟩, ⟨j, s.ctx.elem⟩ :: s.stack⟩ = .ok (items, s') := by
  unfold unserializeArray Reader.beginCompound at h
  dsimp only at h
  by_cases hcount : s.countItems = 0
  · rw [if_neg (not_not.mpr hcount)] at h
    cases h
    exact .inl ⟨hcount, rfl⟩
  · right
    rw [if_pos hcount] at h
    rcases enterFrom_cases s 0 with ⟨j, node, henter, helements⟩ | ⟨j, henter, helements⟩
    · rw [henter] at h
      obtain ⟨⟨items', s₁⟩, hloop, h⟩ := Run.exists_of_bind_eq_ok h
      cases h
      exact ⟨j, node, helements, hloop⟩
    · exact absurd helements hcount

/-- Reading an array keeps the stack. -/
theorem unserializeArray_keeps (h : Keeps read) : Keeps (unserializeArray read) := by
  intro s items s' hread
  rcases unserializeArray_ok hread with ⟨-, rfl⟩ | ⟨j, node, hcount, hloop⟩
  · exact suffix_rfl
  · rcases readArray_inside h hloop suffix_rfl hcount.le with ⟨j', hin⟩ | ⟨-, hend⟩
    · exact (suffix_cons _ _).trans hin
    · rw [hend]

/-- Reading a collection keeps the stack, and leaves a context on it when there is an element. -/
theorem unserializeCollection_grows (h : Keeps read) {s s' : Reader} {items : List β}
    (hread : unserializeCollection read s = .ok (items, s')) :
    s.stack <:+ s'.stack ∧ (s.countItems ≠ 0 → s'.stack ≠ s.stack) := by
  obtain ⟨⟨items', s₁⟩, hloop, hread⟩ := Run.exists_of_bind_eq_ok hread
  cases hread
  have hkeeps := readCollection_keeps h hloop
  unfold Reader.beginCompound at hkeeps
  rcases enterFrom_cases s 0 with ⟨j, node, henter, -⟩ | ⟨j, henter, helements⟩
  · rw [henter] at hkeeps
    refine ⟨(suffix_cons _ _).trans hkeeps, fun _ heq => ?_⟩
    have hlength := hkeeps.length_le
    rw [show s₁.stack = s.stack from heq, length_cons] at hlength
    omega
  · rw [henter] at hkeeps
    exact ⟨hkeeps, fun hcount => absurd helements hcount⟩

end Loops

theorem unserialize_keeps (codec : Codec α) (t : Shape) : Keeps (unserialize codec t) := by
  induction t with
  | value =>
    intro s a s' hread
    obtain ⟨a', -, hread⟩ := Run.exists_of_bind_eq_ok hread
    cases hread
    exact suffix_rfl
  | array t ih => exact unserializeArray_keeps ih
  | collection t ih => exact fun s items s' hread => (unserializeCollection_grows ih hread).1

/-! ## What is read back -/

theorem enterFrom_of_drop {e c : Node} {cs : List Node} {k : Nat} (h : e.children.drop k = c :: cs) (hc : c.isElement)
    (i : Nat) (stack : List ReadContext) :
    Reader.enterFrom ⟨⟨i, e⟩, stack⟩ k = (true, ⟨⟨k, c⟩, ⟨k, e⟩ :: stack⟩) := by
  have hget : e.children[k]? = some c := by
    rw [← Nat.add_zero k, ← getElem?_drop, h]
    rfl
  have hfirst : (c :: cs).findIdx Node.isElement = 0 := by rw [findIdx_cons, hc]; rfl
  unfold Reader.enterFrom
  simp only [h, hfirst, Nat.add_zero, hget]

section Aligned

variable {β γ : Type} {read : Reader → Except Failure (β × Reader)} {value : γ → β} {sound : γ → Prop}
  {holds : γ → Node → Prop}

/-- The element of an item is read with the value of the item, and the same stack, exactly when it is sound. -/
def ReadsBack (read : Reader → Except Failure (β × Reader)) (value : γ → β) (sound : γ → Prop)
    (holds : γ → Node → Prop) : Prop :=
  ∀ p e, holds p e → ∀ i stack, (∃ s', read ⟨⟨i, e⟩, stack⟩ = .ok (value p, s') ∧ s'.stack = stack) ↔ sound p

theorem drop_succ {e c : Node} {cs : List Node} {j : Nat} (h : e.children.drop j = c :: cs) :
    e.children.drop (j + 1) = cs := by
  rw [← drop_drop, h]
  rfl

/-- The first turn of a loop that comes back to the stack: the item is balanced, thus it is sound. -/
theorem readArray_first (hkeeps : Keeps read) (h : ReadsBack read value sound holds) {e c : Node} {cs : List Node}
    {p : γ} {j : Nat} {stack : List ReadContext} {items : List β} {s' : Reader}
    (hdrop : e.children.drop j = c :: cs) (hp : holds p c) (helements : ∀ c ∈ cs, c.isElement)
    (hread : readArray read (cs.length + 1) ⟨⟨j, c⟩, ⟨j, e⟩ :: stack⟩ = .ok (value p :: items, s'))
    (hend : s'.stack = stack) :
    sound p ∧
      ∃ s, (Reader.enterFrom ⟨⟨j, e⟩, stack⟩ (j + 1)).2 = s ∧ readArray read cs.length s = .ok (items, s') := by
  obtain ⟨item, s₁, found, s₂, items', hitem, hnext, hrest, heq⟩ := readArray_succ hread
  obtain ⟨rfl, rfl⟩ := List.cons.inj heq
  have hcount : elementsFrom e (j + 1) = cs.length := by
    rw [elementsFrom, drop_succ hdrop]
    exact countP_eq_length.mpr helements
  obtain ⟨above, habove⟩ := hkeeps _ _ _ hitem
  cases above with
  | nil =>
    have hstack : s₁.stack = ⟨j, e⟩ :: stack := habove.symm
    refine ⟨(h p c hp _ _).mp ⟨s₁, hitem, hstack⟩, ?_⟩
    obtain ⟨c', rest, hstack', henter⟩ := nextItem_ok hnext
    obtain ⟨rfl, rfl⟩ := List.cons.inj (hstack'.symm.trans hstack)
    exact ⟨s₂, congrArg Prod.snd henter, hrest⟩
  | cons c' above =>
    -- there are not enough turns left to come back
    have hin := inside_nextItem habove.symm hnext
    rcases readArray_inside hkeeps hrest hin (by omega) with ⟨j', hin'⟩ | ⟨hlast, -⟩
    · have hlength := hin'.length_le
      rw [hend, length_cons] at hlength
      omega
    · omega

theorem readArray_of {n j : Nat} {e : Node} {stack : List ReadContext} {s s₁ s' : Reader} {item : β} {items : List β}
    (hitem : read s = .ok (item, s₁)) (hstack : s₁.stack = ⟨j, e⟩ :: stack)
    (hrest : readArray read n (Reader.enterFrom ⟨⟨j, e⟩, stack⟩ (j + 1)).2 = .ok (items, s')) :
    readArray read (n + 1) s = .ok (item :: items, s') := by
  have hnext : s₁.nextItem = .ok (Reader.enterFrom ⟨⟨j, e⟩, stack⟩ (j + 1)) := by
    unfold Reader.nextItem
    rw [hstack]
  rw [readArray, hitem]
  simp only [bind, Except.bind, hnext, hrest, pure, Except.pure]

/-- The loop on an array from one of its elements on. -/
theorem readArray_iff (hkeeps : Keeps read) (h : ReadsBack read value sound holds) {e c : Node} {cs : List Node}
    {ps : List γ} {j : Nat} {stack : List ReadContext} (hdrop : e.children.drop j = c :: cs)
    (hall : List.Forall₂ holds ps (c :: cs)) (helements : ∀ c ∈ cs, c.isElement) :
    (∃ s', readArray read ps.length ⟨⟨j, c⟩, ⟨j, e⟩ :: stack⟩ = .ok (ps.map value, s') ∧ s'.stack = stack) ↔
      ∀ p ∈ ps, sound p := by
  induction cs generalizing c ps j with
  | nil =>
    obtain ⟨p, ps, hp, hnil, rfl⟩ := forall₂_cons_right_iff.mp hall
    obtain rfl := forall₂_nil_right_iff.mp hnil
    rw [forall_mem_singleton]
    constructor
    · rintro ⟨s', hread, hend⟩
      exact (readArray_first hkeeps h hdrop hp helements hread hend).1
    · intro hsound
      obtain ⟨s₁, hitem, hstack⟩ := (h p c hp j (⟨j, e⟩ :: stack)).mpr hsound
      have hcount : elementsFrom e (j + 1) = 0 := by
        rw [elementsFrom, drop_succ hdrop]
        rfl
      rcases enterFrom_cases ⟨⟨j, e⟩, stack⟩ (j + 1) with ⟨j', node, -, helement⟩ | ⟨j', hnone, -⟩
      · exact absurd (hcount.symm.trans helement) (Nat.succ_ne_zero _).symm
      · refine ⟨⟨⟨j', e⟩, stack⟩, readArray_of hitem hstack ?_, rfl⟩
        rw [hnone]
        rfl
  | cons c' cs ih =>
    obtain ⟨p, ps, hp, hps, rfl⟩ := forall₂_cons_right_iff.mp hall
    rw [forall_mem_cons]
    rw [forall_mem_cons] at helements
    have henter := enterFrom_of_drop (drop_succ hdrop) helements.1 j stack
    have hlength : ps.length = (c' :: cs).length := hps.length_eq
    have hrest := ih (drop_succ hdrop) hps helements.2
    constructor
    · rintro ⟨s', hread, hend⟩
      rw [length_cons, hlength] at hread
      obtain ⟨hsound, s, hs, hread'⟩ :=
        readArray_first hkeeps h hdrop hp (forall_mem_cons.mpr helements) hread hend
      rw [henter] at hs
      rw [← hs, ← hlength] at hread'
      exact ⟨hsound, hrest.mp ⟨s', hread', hend⟩⟩
    · rintro ⟨hsound, hall'⟩
      obtain ⟨s₁, hitem, hstack⟩ := (h p c hp j (⟨j, e⟩ :: stack)).mpr hsound
      obtain ⟨s', hread', hend⟩ := hrest.mpr hall'
      refine ⟨s', readArray_of hitem hstack ?_, hend⟩
      rw [henter]
      exact hread'

/-- An array that has elements is entered at the first one. -/
theorem unserializeArray_eq {e c : Node} {cs : List Node} (hchildren : e.children = c :: cs)
    (helements : ∀ c ∈ e.children, c.isElement) (i : Nat) (stack : List ReadContext) :
    unserializeArray read ⟨⟨i, e⟩, stack⟩ = readArray read (cs.length + 1) ⟨⟨0, c⟩, ⟨0, e⟩ :: stack⟩ := by
  have hcount : Reader.countItems ⟨⟨i, e⟩, stack⟩ = cs.length + 1 := by
    have hlength := countP_eq_length.mpr helements
    rwa [hchildren, length_cons, ← hchildren] at hlength
  have hc : c.isElement := helements c (by rw [hchildren]; exact mem_cons_self)
  unfold unserializeArray Reader.beginCompound
  rw [hcount, enterFrom_of_drop (by rw [drop_zero, hchildren]) hc]
  simp only [ne_eq, Nat.succ_ne_zero, not_false_eq_true, if_true, Bool.not_true, Bool.false_eq_true, if_false]
  cases readArray read (cs.length + 1) ⟨⟨0, c⟩, ⟨0, e⟩ :: stack⟩ <;> rfl

end Aligned

end Reading

/-- What is read back: arrays whose items are in elements of their own. -/
def Sound : (t : Shape) → Bool → Stored α t → Prop
  | .value, _, _ => True
  | .array t, firstItem, v => Separate firstItem v.2 ∧ ∀ p ∈ flagged firstItem v.2, Sound t p.1 p.2
  | .collection _, _, _ => False

theorem elementCount_pos (firstItem : Bool) (n : Nat) : 0 < elementCount firstItem n := by
  cases firstItem <;> simp [elementCount]

theorem elementCount_eq_iff {β : Type} (firstItem : Bool) (items : List β) :
    elementCount firstItem items.length = items.length ↔ Separate firstItem items := by
  rw [Separate, ← length_pos_iff]
  cases firstItem <;> simp [elementCount] <;> omega

theorem length_flagged {β : Type} (firstItem : Bool) (items : List β) :
    (flagged firstItem items).length = items.length := by
  cases items <;> simp [flagged]

theorem map_flagged {β γ : Type} (firstItem : Bool) (f : β → γ) (items : List β) :
    (flagged firstItem items).map (fun p => f p.2) = items.map f := by
  cases items <;> simp [flagged]

/-- The elements of a compound are its children. -/
theorem countItems_eq {β : Type} {holds : Bool → β → Node → Prop} {firstItem : Bool} {items : List β} {e : Node}
    (h : HoldsItems holds firstItem items e) (i : Nat) (stack : List ReadContext) :
    Reader.countItems ⟨⟨i, e⟩, stack⟩ = elementCount firstItem items.length :=
  (countP_eq_length.mpr h.1).trans h.2.1

/-- The element of a value is read back exactly when the value is sound. -/
theorem readsBack_unserialize {codec : Codec α} (hcodec : codec.Faithful) (t : Shape) :
    ReadsBack (unserialize codec t) (fun p : Bool × Stored α t => p.2.data t) (fun p => Sound t p.1 p.2)
      fun p e => Holds codec t p.1 p.2 e := by
  induction t with
  | value =>
    rintro ⟨firstItem, a⟩ e ⟨name, rfl⟩ i stack
    refine iff_of_true ⟨⟨⟨i, (codec.write a (Elem.new name)).node⟩, stack⟩, ?_, rfl⟩ trivial
    rw [unserialize, hcodec a name]
    rfl
  | collection t ih =>
    rintro ⟨firstItem, v⟩ e hholds i stack
    refine iff_of_false ?_ id
    rintro ⟨s', hread, hend⟩
    have hcount := countItems_eq hholds i stack
    have hpos := elementCount_pos firstItem v.2.length
    exact (unserializeCollection_grows (unserialize_keeps codec t) hread).2 (hcount.trans_ne hpos.ne') hend
  | array t ih =>
    rintro ⟨firstItem, v⟩ e hholds i stack
    obtain ⟨helements, hlength, hall⟩ := hholds
    change e.children.length = elementCount firstItem v.2.length at hlength
    show (∃ s', unserializeArray (unserialize codec t) ⟨⟨i, e⟩, stack⟩ = .ok (v.2.map (Stored.data t), s') ∧
      s'.stack = stack) ↔ Separate firstItem v.2 ∧ ∀ p ∈ flagged firstItem v.2, Sound t p.1 p.2
    cases hchildren : e.children with
    | nil =>
      have hpos := elementCount_pos firstItem v.2.length
      rw [← hlength, hchildren] at hpos
      exact absurd hpos (lt_irrefl 0)
    | cons c cs =>
      rw [unserializeArray_eq hchildren helements, ← map_flagged firstItem]
      have hloop : Separate firstItem v.2 → ((∃ s', readArray (unserialize codec t) (cs.length + 1)
          ⟨⟨0, c⟩, ⟨0, e⟩ :: stack⟩ = .ok ((flagged firstItem v.2).map fun p => p.2.data t, s') ∧
            s'.stack = stack) ↔ ∀ p ∈ flagged firstItem v.2, Sound t p.1 p.2) := by
        intro hsep
        have hitems := hall hsep
        rw [hchildren] at hitems
        have hcs : ∀ c ∈ cs, c.isElement := by
          intro c' hc'
          apply helements
          rw [hchildren]
          exact mem_cons_of_mem c hc'
        have hiff := @readArray_iff _ _ _ _ _ _ (unserialize_keeps codec t) ih e c cs (flagged firstItem v.2) 0
          stack (by rw [drop_zero, hchildren]) hitems hcs
        rwa [hitems.length_eq] at hiff
      constructor
      · intro hread
        -- as many items are read as there are elements
        obtain ⟨s', hitems, -⟩ := id hread
        have hcount := length_readArray hitems
        rw [length_map, length_flagged] at hcount
        have hsep : Separate firstItem v.2 := by
          rw [← elementCount_eq_iff, ← hlength, hchildren, hcount]
          rfl
        exact ⟨hsep, (hloop hsep).mp hread⟩
      · rintro ⟨hsep, hsound⟩
        exact (hloop hsep).mpr hsound

/-! ## The round trip -/

/-- The value is written in a new element and read back from it, with the same stack. -/
def RoundTrips (codec : Codec α) (t : Shape) (v : Stored α t) (w : Writer) (i : Nat) (stack : List ReadContext) :
    Prop :=
  ∃ w' s', serialize codec t v w = some w' ∧ w'.stack = w.stack ∧
    unserialize codec t ⟨⟨i, w'.ctx.elem.node⟩, stack⟩ = .ok (v.data t, s') ∧ s'.stack = stack

/-- A value is rebuilt, and the contexts are the same, exactly when it is made of arrays of which none is empty, and of
at most two items where the context of the serializer has its member `firstItem` set. -/
theorem rebuilds_iff {codec : Codec α} (hcodec : codec.Faithful) (t : Shape) (v : Stored α t) (name : List Char)
    (firstItem : Bool) (below : List WriteContext) (ids : Ids) (i : Nat) (stack : List ReadContext) :
    RoundTrips codec t v ⟨⟨Elem.new name, firstItem⟩, below, ids⟩ i stack ↔ Sound t firstItem v := by
  obtain ⟨elem, ids', hwrite, hholds⟩ := writes_serialize codec t v ⟨⟨Elem.new name, firstItem⟩, below, ids⟩
  have hread := readsBack_unserialize hcodec t (firstItem, v) elem.node (hholds name rfl) i stack
  refine Iff.trans ?_ hread
  constructor
  · rintro ⟨w', s', hw, -, hs, hend⟩
    obtain rfl := Option.some.inj (hwrite.symm.trans hw)
    exact ⟨s', hs, hend⟩
  · rintro ⟨s', hs, hend⟩
    exact ⟨_, s', hwrite, rfl, hs, hend⟩

/-- Texts as values. -/
def texts : Codec (List Char) where
  write text e := e.appendChild (.text text)
  read node := .ok node.getValue

theorem faithful_texts : texts.Faithful := by
  intro text name
  show Except.ok (text ++ []) = Except.ok text
  rw [append_nil]

/-- A serializer with one element. -/
def onRoot : Writer := ⟨⟨Elem.new ['r'], false⟩, [], ⟨fun _ => none, 0⟩⟩

theorem rebuilds_iff_array :
    RoundTrips texts (.array .value) (0, [['a'], ['b'], ['a']]) onRoot 0 [] ↔
      Sound (α := List Char) (.array .value) false (0, [['a'], ['b'], ['a']]) :=
  rebuilds_iff faithful_texts (.array .value) (0, [['a'], ['b'], ['a']]) ['r'] false [] ⟨fun _ => none, 0⟩ 0 []

/-- After a collection of one item, a context is left on the stack; an empty array is read back with an item. -/
theorem not_rebuilds :
    ¬RoundTrips texts (.collection .value) (0, [['a']]) onRoot 0 [] ∧
      ¬RoundTrips texts (.array .value) (0, []) onRoot 0 [] := by
  constructor
  · rintro ⟨w', s', hw, -, hs, hend⟩
    cases hw
    cases hs
    cases hend
  · rintro ⟨w', s', hw, -, hs, -⟩
    cases hw
    cases hs

end Elm.Serial.Compound
