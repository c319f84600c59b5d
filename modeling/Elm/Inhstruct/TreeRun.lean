import Elm.Inhstruct.Tree

/-!
# The children of an `inhstruct::Tree`

What a call does to the links, seen from the lists of children.  In every run the children of the trees are the lists
of the same operations, if and only if a child that is appended has no sibling, a child that is removed is there, and
`hasChild` is asked about a child or on a tree without children.
-/

namespace Elm.Inhstruct.Tree

open Chain Forest List Option Function

variable {f : Forest} {p : Option Nat} {xs ys : List Nat} {t a b child : Nat}

/-- The cells of a list of siblings. -/
def cells (xs : List Nat) : List (Nat × Unit) := xs.map fun a => (a, ())

theorem cells_append (xs ys : List Nat) : cells (xs ++ ys) = cells xs ++ cells ys := map_append

@[simp] theorem cells_cons (a : Nat) (xs : List Nat) : cells (a :: xs) = (a, ()) :: cells xs := rfl

@[simp] theorem map_cells (xs : List Nat) : (cells xs).map Prod.fst = xs := by
  rw [cells, List.map_map]
  exact List.map_id xs

/-- The list is the one of all cells that have its addresses. -/
theorem eq_cells (zs : List (Nat × Unit)) : zs = cells (zs.map Prod.fst) := by
  rw [cells, List.map_map]
  exact (List.map_id zs).symm

/-- The trees of a list are linked from `p` on. -/
def Linked (f : Forest) (p : Option Nat) (xs : List Nat) : Prop := IsList f.read p (cells xs)

/-! ## Links -/

theorem read_eq_some (ha : a < f.made) : f.read a = some (f.sibling a, ()) := if_pos ha

theorem lt_of_read {c : Option Nat × Unit} (h : f.read a = some c) : a < f.made := by
  by_contra hge
  rw [Forest.read, if_neg hge] at h
  cases h

theorem Linked.lt (h : Linked f p xs) (ha : a ∈ xs) : a < f.made := by
  obtain ⟨q, hread⟩ := Seg.read_of_mem h (a := a) (v := ()) (List.mem_map_of_mem ha)
  exact lt_of_read hread

theorem Linked.nodup (h : Linked f p xs) : xs.Nodup := by
  have hnodup := IsList.nodup h
  rwa [map_cells] at hnodup

theorem Linked.length_le (h : Linked f p xs) : (cells xs).length ≤ f.made := by
  have hall : ∀ a, (f.read a).isSome → a ∈ List.range f.made := by
    intro a ha
    obtain ⟨c, hc⟩ := isSome_iff_exists.mp ha
    exact mem_range.mpr (lt_of_read hc)
  have hle := IsList.length_le h hall
  rwa [length_range] at hle

/-- What is behind a tree of the list. -/
theorem Linked.behind (h : Linked f p (xs ++ a :: ys)) : Linked f (f.sibling a) ys := by
  have ha : a < f.made := h.lt (by simp)
  rw [Linked, cells_append, cells_cons] at h
  exact (IsList.next_of_append h (read_eq_some ha)).2

theorem Linked.head (h : Linked f p xs) : p = xs.head? := by
  cases xs with
  | nil => exact h
  | cons x xs => exact h.1

/-- The sibling of a tree of the list is the next one. -/
theorem Linked.sibling_eq (h : Linked f p (xs ++ a :: ys)) : f.sibling a = ys.head? := h.behind.head

theorem items_eq_some : f.items t = some xs ↔ Linked f (f.children t) xs := by
  constructor
  · intro hitems
    obtain ⟨zs, hzs, rfl⟩ := map_eq_some_iff.mp hitems
    rw [Linked, ← eq_cells]
    exact (toList_eq_some.mp hzs).1
  · intro h
    rw [items, toList_eq_some.mpr ⟨h, h.length_le⟩, map_some, map_cells]

/-- Where the loop over the children stops. -/
theorem find_stop {ρ : Type} {stop : Nat → Prop} [DecidablePred stop] (g : Nat → ρ) (exit : Unit → ρ)
    (h : Linked f (f.children t) (xs ++ a :: ys)) (hxs : ∀ x ∈ xs, ¬ stop x) (ha : stop a) :
    f.find t stop g exit = some (g a) := by
  rw [find, IsList.walk_eq h _ _ h.length_le, cells_append, cells_cons, visit_stop g exit ?_ ha]
  intro x hx
  obtain ⟨y, hy, rfl⟩ := List.mem_map.mp hx
  exact hxs y hy

theorem find_exit {ρ : Type} {stop : Nat → Prop} [DecidablePred stop] (g : Nat → ρ) (exit : Unit → ρ)
    (h : Linked f (f.children t) xs) (hxs : ∀ x ∈ xs, ¬ stop x) : f.find t stop g exit = some (exit ()) := by
  rw [find, IsList.walk_eq h _ _ h.length_le, visit_exit g exit]
  intro x hx
  obtain ⟨y, hy, rfl⟩ := List.mem_map.mp hx
  exact hxs y hy

/-! ## Changes of a link -/

@[simp] theorem made_setSibling (f : Forest) (a : Nat) (q : Option Nat) : (f.setSibling a q).made = f.made := rfl

@[simp] theorem made_setChildren (f : Forest) (a : Nat) (q : Option Nat) : (f.setChildren a q).made = f.made := rfl

@[simp] theorem children_setSibling (f : Forest) (a : Nat) (q : Option Nat) (t : Nat) :
    (f.setSibling a q).children t = f.children t := by
  by_cases ht : t = a
  · subst ht
    simp [setSibling, Forest.children]
  · simp [setSibling, Forest.children, ht]

@[simp] theorem sibling_setChildren (f : Forest) (a : Nat) (q : Option Nat) (t : Nat) :
    (f.setChildren a q).sibling t = f.sibling t := by
  by_cases ht : t = a
  · subst ht
    simp [setChildren, Forest.sibling]
  · simp [setChildren, Forest.sibling, ht]

@[simp] theorem children_setChildren_self (f : Forest) (t : Nat) (q : Option Nat) :
    (f.setChildren t q).children t = q := by
  simp [setChildren, Forest.children]

theorem children_setChildren_ne (f : Forest) (q : Option Nat) {t u : Nat} (hu : u ≠ t) :
    (f.setChildren t q).children u = f.children u := by
  simp [setChildren, Forest.children, hu]

theorem sibling_setSibling_ne (f : Forest) (q : Option Nat) (hb : b ≠ a) :
    (f.setSibling a q).sibling b = f.sibling b := by
  simp [setSibling, Forest.sibling, hb]

@[simp] theorem read_setChildren (f : Forest) (t : Nat) (q : Option Nat) : (f.setChildren t q).read = f.read := by
  funext b
  simp [Forest.read]

theorem read_setSibling (ha : a < f.made) (q : Option Nat) :
    (f.setSibling a q).read = Function.update f.read a (some (q, ())) := by
  funext b
  by_cases hb : b = a
  · subst hb
    rw [update_self, read_eq_some (by simpa using ha)]
    simp [setSibling, Forest.sibling]
  · rw [update_of_ne hb]
    simp [Forest.read, sibling_setSibling_ne f q hb]

/-- A list that does not have the changed tree. -/
theorem Linked.setSibling (h : Linked f p xs) (ha : a < f.made) (hnot : a ∉ xs) (q : Option Nat) :
    Linked (f.setSibling a q) p xs := by
  rw [Linked, read_setSibling ha]
  exact IsList.update h (by rwa [map_cells]) _

theorem linked_setChildren {q : Option Nat} : Linked (f.setChildren t q) p xs ↔ Linked f p xs := by
  rw [Linked, read_setChildren, Linked]

/-- Behind a tree of the list come other trees. -/
theorem Linked.splice {q : Option Nat} {zs : List Nat} (h : Linked f p (xs ++ a :: ys)) (hzs : Linked f q zs)
    (ha : a ∉ zs) : Linked (f.setSibling a q) p (xs ++ a :: zs) := by
  have hlt : a < f.made := h.lt (by simp)
  rw [Linked, cells_append, cells_cons] at h ⊢
  rw [read_setSibling hlt]
  exact IsList.splice h hzs (by rwa [map_cells]) ()

/-! ## The invariant -/

variable {s s' : State} {op : Op}

/-- The children of each tree are linked, and no tree is in two lists. -/
structure Inv (s : State) : Prop where
  answers : s.answers = s.expected
  linked : ∀ t < s.forest.made, Linked s.forest (s.forest.children t) (s.lists t)
  apart : ∀ t u a, a ∈ s.lists t → a ∈ s.lists u → t = u
  unmade : ∀ t, s.forest.made ≤ t → s.lists t = []

theorem inv_init : Inv State.init :=
  ⟨rfl, fun t ht => absurd ht (Nat.not_lt_zero t), fun _ _ _ ha => absurd ha not_mem_nil, fun _ _ => rfl⟩

theorem Inv.agrees (h : Inv s) : Agrees s := ⟨h.answers, fun t ht => items_eq_some.mpr (h.linked t ht)⟩

theorem Inv.not_mem_of_ne (h : Inv s) {t u : Nat} (ha : a ∈ s.lists t) (hu : u ≠ t) : a ∉ s.lists u :=
  fun hmem => hu (h.apart u t a hmem ha)

theorem Free.not_mem (hchild : Free s child) (h : Inv s) (t : Nat) : child ∉ s.lists t := by
  by_cases ht : t < s.forest.made
  · exact hchild.2 t ht
  · rw [h.unmade t (Nat.le_of_not_lt ht)]
    exact not_mem_nil

/-- One list changes: its trees were in it before, or they are free, and the other lists stay linked. -/
theorem Inv.update (h : Inv s) (ht : t < s.forest.made) {g : Forest} (hmade : g.made = s.forest.made)
    (hlinked : Linked g (g.children t) xs)
    (hother : ∀ u < s.forest.made, u ≠ t → Linked g (g.children u) (s.lists u))
    (hmem : ∀ a ∈ xs, a ∈ s.lists t ∨ ∀ u, a ∉ s.lists u) :
    Inv { s with forest := g, lists := Function.update s.lists t xs } := by
  have hapart : ∀ u a, u ≠ t → a ∈ xs → a ∉ s.lists u := by
    intro u a hu ha
    rcases hmem a ha with hold | hfree
    · exact h.not_mem_of_ne hold hu
    · exact hfree u
  refine ⟨h.answers, fun u hu => ?_, fun u v a hau hav => ?_, fun u hu => ?_⟩
  -- the lists are linked in the new forest
  · by_cases hut : u = t
    · subst hut
      simpa using hlinked
    · simp only [update_of_ne hut]
      exact hother u (hmade ▸ hu) hut
  -- no tree is in two of them
  · by_cases hut : u = t
    · by_cases hvt : v = t
      · rw [hut, hvt]
      · simp only [hut, update_self, update_of_ne hvt] at hau hav
        exact absurd hav (hapart v a hvt hau)
    · by_cases hvt : v = t
      · simp only [hvt, update_self, update_of_ne hut] at hau hav
        exact absurd hau (hapart u a hut hav)
      · simp only [update_of_ne hut, update_of_ne hvt] at hau hav
        exact h.apart u v a hau hav
  · simp only at hu
    have hut : u ≠ t := by omega
    simp only [update_of_ne hut]
    exact h.unmade u (by omega)

/-! ## The calls -/

/-- A tree that has no children yet. -/
theorem Inv.new (h : Inv s) : Inv { s with forest := s.forest.new } := by
  have hread : ∀ a < s.forest.made, s.forest.new.read a = s.forest.read a := by
    intro a ha
    rw [read_eq_some ha, read_eq_some (Nat.lt_succ_of_lt ha)]
    simp [Forest.new, Forest.sibling, update_of_ne ha.ne]
  refine ⟨h.answers, fun t ht => ?_, h.apart, fun t ht => h.unmade t (Nat.le_of_succ_le ht)⟩
  by_cases hlast : t = s.forest.made
  · -- the new tree
    subst hlast
    simp only [h.unmade _ (Nat.le_refl _)]
    simp [Forest.new, Forest.children, Linked, cells, IsList]
  · have hlt : t < s.forest.made := by
      have : t < s.forest.made + 1 := ht
      omega
    have hchildren : s.forest.new.children t = s.forest.children t := by
      simp [Forest.new, Forest.children, update_of_ne hlast]
    simp only [hchildren]
    refine IsList.congr (h.linked t hlt) fun x hx => hread x.1 ?_
    obtain ⟨a, ha, rfl⟩ := List.mem_map.mp hx
    exact (h.linked t hlt).lt ha

theorem Inv.prependChild (h : Inv s) (ht : t < s.forest.made) (hchild : Free s child) :
    Inv { s with
      forest := s.forest.prependChild t child
      lists := Function.update s.lists t (child :: s.lists t) } := by
  refine h.update ht rfl ?_ (fun u hu hut => ?_) fun a ha => ?_
  · rw [Forest.prependChild, children_setChildren_self, linked_setChildren, Linked, read_setSibling hchild.1]
    exact IsList.push (h.linked t ht) (by rw [map_cells]; exact hchild.not_mem h t) ()
  · rw [Forest.prependChild, children_setChildren_ne _ _ hut, linked_setChildren, children_setSibling]
    exact (h.linked u hu).setSibling hchild.1 (hchild.not_mem h u) _
  · rcases mem_cons.mp ha with rfl | ha
    · exact Or.inr fun u => hchild.not_mem h u
    · exact Or.inl ha

/-- The last child gets a sibling, or the tree its first child; nothing else changes. -/
theorem appendChild_spec (h : Inv s) (ht : t < s.forest.made) (hchild : Free s child) :
    ∃ g, s.forest.appendChild t child = some g ∧ g.made = s.forest.made ∧ g.sibling child = s.forest.sibling child ∧
      (∀ u < s.forest.made, u ≠ t → Linked g (g.children u) (s.lists u)) ∧
      (s.forest.sibling child = none → Linked g (g.children t) (s.lists t ++ [child])) := by
  have hlist := h.linked t ht
  have hlast : s.forest.sibling child = none → Linked s.forest (some child) [child] := fun hnone =>
    ⟨rfl, none, by rw [read_eq_some hchild.1, hnone], rfl⟩
  rcases eq_nil_or_concat (s.lists t) with hnil | ⟨xs, b, hxs⟩
  · -- the first child
    rw [hnil] at hlist ⊢
    have hnone : s.forest.children t = none := hlist
    refine ⟨s.forest.setChildren t (some child), ?_, rfl, sibling_setChildren .., fun u hu hut => ?_, fun hsib => ?_⟩
    · rw [Forest.appendChild, if_pos hnone]
    · rw [children_setChildren_ne _ _ hut, linked_setChildren]
      exact h.linked u hu
    · rw [children_setChildren_self, linked_setChildren]
      exact hlast hsib
  · rw [concat_eq_append] at hxs
    rw [hxs] at hlist ⊢
    have hb : b ∈ s.lists t := by simp [hxs]
    have hne : child ≠ b := by
      rintro rfl
      exact hchild.not_mem h t hb
    have hsome : s.forest.children t ≠ none := by
      rw [hlist.head]
      simp
    -- the loop stops at the last child
    have hstop : s.forest.sibling b = none := hlist.sibling_eq
    have hgo : ∀ x ∈ xs, ¬ s.forest.sibling x = none := by
      intro x hx
      obtain ⟨zs, ws, rfl⟩ := append_of_mem hx
      have hsplit : Linked s.forest (s.forest.children t) (zs ++ x :: (ws ++ [b])) := by simpa using hlist
      rw [hsplit.sibling_eq]
      simp
    refine ⟨s.forest.setSibling b (some child), ?_, rfl, sibling_setSibling_ne _ _ hne, fun u hu hut => ?_,
      fun hsib => ?_⟩
    · rw [Forest.appendChild, if_neg hsome]
      exact find_stop _ _ hlist hgo hstop
    · rw [children_setSibling]
      exact (h.linked u hu).setSibling (hlist.lt (by simp)) (h.not_mem_of_ne hb hut) _
    · rw [children_setSibling]
      have hsplice := hlist.splice (hlast hsib) (by simpa using hne.symm)
      simpa using hsplice

/-- The first item of a list is one of those up to `b`. -/
theorem mem_of_head?_append (h : (xs ++ b :: ys).head? = some a) : a ∈ xs ++ [b] := by
  cases xs with
  | nil =>
    obtain rfl : b = a := some.inj h
    exact mem_singleton_self b
  | cons x xs =>
    obtain rfl : x = a := some.inj h
    exact mem_cons_self

/-- The link to a child now leads to the sibling of the child. -/
theorem removeChild_spec (h : Inv s) (ht : t < s.forest.made) (hchild : child ∈ s.lists t) :
    ∃ g, s.forest.removeChild t child = some g ∧
      Inv { s with forest := g, lists := Function.update s.lists t ((s.lists t).erase child) } := by
  have hlist := h.linked t ht
  have hnodup := hlist.nodup
  have hmem : ∀ a ∈ (s.lists t).erase child, a ∈ s.lists t ∨ ∀ u, a ∉ s.lists u := fun a ha =>
    Or.inl (mem_of_mem_erase ha)
  obtain ⟨xs, ys, hxs⟩ := append_of_mem hchild
  rcases eq_nil_or_concat xs with rfl | ⟨zs, b, rfl⟩
  · -- the first child
    have herase : (s.lists t).erase child = ys := by rw [hxs]; simp
    rw [hxs] at hlist
    refine ⟨s.forest.setChildren t (s.forest.sibling child), ?_, h.update ht rfl ?_ (fun u hu hut => ?_) hmem⟩
    · have hfirst : s.forest.children t = some child := hlist.head
      rw [Forest.removeChild, if_pos hfirst]
    · rw [children_setChildren_self, linked_setChildren, herase]
      exact hlist.behind
    · rw [children_setChildren_ne _ _ hut, linked_setChildren]
      exact h.linked u hu
  · -- behind the child `b`, where the loop stops
    rw [concat_eq_append] at hxs
    rw [hxs] at hlist hnodup
    have hsplit : Linked s.forest (s.forest.children t) (zs ++ b :: (child :: ys)) := by simpa using hlist
    have hnot : child ∉ zs ++ [b] := by
      rw [nodup_middle, nodup_cons] at hnodup
      exact fun hin => hnodup.1 (mem_append_left _ hin)
    have herase : (s.lists t).erase child = zs ++ b :: ys := by
      rw [hxs, erase_append_right _ hnot]
      simp
    have hb : b ∈ s.lists t := by simp [hxs]
    have hfirst : ¬ s.forest.children t = some child := by
      rw [hsplit.head]
      exact fun heq => hnot (mem_of_head?_append heq)
    -- the child is the sibling of no other tree of the list
    have hgo : ∀ x ∈ zs, ¬ s.forest.sibling x = some child := by
      intro x hx heq
      obtain ⟨vs, ws, rfl⟩ := append_of_mem hx
      have hx' : Linked s.forest (s.forest.children t) (vs ++ x :: (ws ++ b :: (child :: ys))) := by simpa using hsplit
      rw [hx'.sibling_eq] at heq
      have hmem := mem_of_head?_append heq
      rw [append_assoc, cons_append] at hnot
      exact hnot (mem_append_right vs (mem_cons_of_mem x hmem))
    have hbnot : b ∉ ys := by
      intro hin
      rw [append_assoc] at hnodup
      exact (nodup_cons.mp (nodup_append.mp hnodup).2.1).1 (mem_cons_of_mem child hin)
    refine ⟨s.forest.setSibling b (s.forest.sibling child), ?_, h.update ht rfl ?_ (fun u hu hut => ?_) hmem⟩
    · rw [Forest.removeChild, if_neg hfirst, find_stop _ _ hsplit hgo hsplit.sibling_eq]
      rfl
    · rw [children_setSibling, herase]
      exact hsplit.splice hlist.behind hbnot
    · rw [children_setSibling]
      exact (h.linked u hu).setSibling (hsplit.lt (by simp)) (h.not_mem_of_ne hb hut) _

/-- The assertion of `removeChild` fails for what is not a child. -/
theorem removeChild_eq_none (h : Inv s) (ht : t < s.forest.made) (hchild : child ∉ s.lists t) :
    s.forest.removeChild t child = none := by
  have hlist := h.linked t ht
  have hfirst : ¬ s.forest.children t = some child := by
    intro heq
    rw [hlist.head] at heq
    exact hchild (mem_of_head? heq)
  have hgo : ∀ x ∈ s.lists t, ¬ s.forest.sibling x = some child := by
    intro x hx heq
    obtain ⟨xs, ys, hxs⟩ := append_of_mem hx
    rw [hxs] at hlist hchild
    rw [hlist.sibling_eq] at heq
    exact hchild (by simp [mem_of_head? heq])
  rw [Forest.removeChild, if_neg hfirst, find_exit _ _ hlist hgo]
  rfl

/-- `hasChild` tells whether there is any child. -/
theorem hasChild_eq (h : Inv s) (ht : t < s.forest.made) (tree : Nat) :
    s.forest.hasChild t tree = decide (tree ∈ s.lists t) ↔ s.lists t = [] ∨ tree ∈ s.lists t := by
  rw [Forest.hasChild, (h.linked t ht).head]
  cases s.lists t with
  | nil => simp
  | cons x xs =>
    rw [head?_cons, isSome_some, @eq_comm _ true, decide_eq_true_eq]
    exact (or_iff_right (cons_ne_nil x xs)).symm

/-! ## Runs -/

/-- An allowed call keeps the invariant. -/
theorem step_inv (h : Inv s) (hop : Valid s op) (hallowed : Allowed s op) : ∃ s', step s op = some s' ∧ Inv s' := by
  cases op with
  | new => exact ⟨_, rfl, h.new⟩
  | prependChild t child => exact ⟨_, rfl, h.prependChild hop.1 hop.2⟩
  | appendChild t child =>
    obtain ⟨g, happend, hmade, -, hother, hlinked⟩ := appendChild_spec h hop.1 hop.2
    refine ⟨_, by simp only [step, happend, map_some], h.update hop.1 hmade (hlinked hallowed) hother ?_⟩
    intro a ha
    rcases mem_append.mp ha with ha | ha
    · exact Or.inl ha
    · obtain rfl := mem_singleton.mp ha
      exact Or.inr fun u => hop.2.not_mem h u
  | removeChild t child =>
    obtain ⟨g, hremove, hinv⟩ := removeChild_spec h hop.1 hallowed
    exact ⟨_, by simp only [step, hremove, map_some], hinv⟩
  | hasChild t tree =>
    refine ⟨_, rfl, ?_, h.linked, h.apart, h.unmade⟩
    have hanswer := (hasChild_eq h hop.1 tree).mpr hallowed
    simp only [hanswer, h.answers]

/-- After a call that is not allowed the children are not the list, or the answer was wrong. -/
theorem not_agrees (h : Inv s) (hop : Valid s op) (hnot : ¬ Allowed s op) (hstep : step s op = some s') :
    ¬ Agrees s' := by
  intro hagrees
  cases op with
  | new => exact hnot trivial
  | prependChild t child => exact hnot trivial
  | appendChild t child =>
    obtain ⟨g, happend, hmade, hsibling, -⟩ := appendChild_spec h hop.1 hop.2
    obtain ⟨g', hg', rfl⟩ := map_eq_some_iff.mp hstep
    obtain rfl := some.inj (happend.symm.trans hg')
    -- the list would end with the child, whose sibling is not null
    have hitems := hagrees.items t (hmade ▸ hop.1)
    simp only [update_self] at hitems
    have hlinked := items_eq_some.mp hitems
    rw [show s.lists t ++ [child] = s.lists t ++ child :: [] from rfl] at hlinked
    exact hnot (hsibling.symm.trans hlinked.sibling_eq)
  | removeChild t child =>
    simp only [step, removeChild_eq_none h hop.1 hnot, map_none] at hstep
    cases hstep
  | hasChild t tree =>
    obtain rfl := some.inj hstep
    have hanswers := hagrees.answers
    simp only [h.answers, append_cancel_left_eq, List.cons.injEq, and_true] at hanswers
    exact hnot ((hasChild_eq h hop.1 tree).mp hanswers)

/-- In a run that adds free children only, the children of the trees are the lists of the same operations and
`hasChild` answers by membership, if and only if what is appended has no sibling, what is removed is a child, and a
tree with children is asked for one of them. -/
theorem inhTree_run_iff (ops : List Op) (hops : Run.Meets Valid step State.init ops) :
    Run.Meets Allowed step State.init ops ↔
      ∀ k, ∃ s, Run.exec step State.init (ops.take k) = some s ∧ Agrees s :=
  Run.meets_iff_forall_exists_exec Inv Agrees (fun _ h => h.agrees) (fun _ _ h hop hallowed => step_inv h hop hallowed)
    (fun _ _ _ h hop hnot hstep => not_agrees h hop hnot hstep) ops State.init inv_init hops

/-- A child goes from one tree to another one. -/
def moves : List Op :=
  [.new, .new, .new, .new, .prependChild 0 2, .appendChild 0 3, .removeChild 0 3, .appendChild 1 3, .hasChild 1 3,
    .removeChild 0 2, .prependChild 1 2, .hasChild 0 2]

theorem inhTree_run_iff_moves :
    Run.Meets Allowed step State.init moves ↔
      ∀ k, ∃ s, Run.exec step State.init (moves.take k) = some s ∧ Agrees s :=
  inhTree_run_iff moves (by decide)

/-- The child 2 is removed from the tree 0 while 3 is its sibling; appended to the tree 1 it brings 3 with it.  A tree
with a child has any tree as a child. -/
theorem not_inhTree_run : ¬ ∀ ops : List Op, Run.Meets Valid step State.init ops →
    ∀ k, ∃ s, Run.exec step State.init (ops.take k) = some s ∧ Agrees s := by
  intro hall
  obtain ⟨s, hexec, hagrees⟩ :=
    hall [.new, .new, .new, .new, .prependChild 0 3, .prependChild 0 2, .removeChild 0 2, .appendChild 1 2]
      (by decide) 8
  obtain rfl := some.inj hexec
  exact absurd (hagrees.items 1 (by decide)) (by decide)

end Elm.Inhstruct.Tree
