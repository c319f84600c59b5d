import Elm.Data.ListSet

/-!
# `SortedList`

The sorted lists of `include/elm/data/SortedList.h`, over the singly linked lists.  `addAll` is left to the linked
list, which adds each item at the front.  In every run the lists stay sorted and have the elements that were added
and not removed, if and only if the items given to `addAll` come in decreasing order before the elements of the list
and a list that has elements is neither copied to itself nor removed from itself.
-/

namespace Elm.Data.SortedList

open LinkedList Chain Std Function List Option Multiset

variable {T : Type} (cmp : T → T → Ordering)

/-! ## The program -/

/-- `CompareEquiv::isEqual`. -/
def isEqual (v₁ v₂ : T) : Bool := cmp v₁ v₂ == .eq

/-- The items given to `addAll` and `removeAll`: those of another collection, or of a sorted list. -/
inductive Items (T : Type)
  | values (c : List T)
  | list (src : Nat)

/-- The loop over the nodes of a sorted list, `p` being the node of the iterator. -/
def eachNode (f : SLList T → T → Option (SLList T)) : Nat → SLList T → Option Nat → Option (SLList T)
  | _, s, none => some s
  | 0, _, some _ => none
  | fuel + 1, s, some a => do
    let s ← f s (← s.mem.val a)
    eachNode f fuel s (← s.mem.nxt a)

/-- `f` is done for each item; `fst` gives the member `fst` of the lists. -/
def each (f : SLList T → T → Option (SLList T)) (fst : Nat → Option Nat) (s : SLList T) :
    Items T → Option (SLList T)
  | .values c => c.foldlM f s
  | .list src => eachNode f s.mem.next s (fst src)

/-- `addAll`. -/
def addAll (fst : Nat → Option Nat) (s : SLList T) (c : Items T) : Option (SLList T) := each SLList.addFirst fst s c

/-- `remove`. -/
def remove (s : SLList T) (item : T) : Option (SLList T) := s.remove (isEqual cmp) item

/-- `removeAll`. -/
def removeAll (fst : Nat → Option Nat) (s : SLList T) (c : Items T) : Option (SLList T) :=
  each (remove cmp) fst s c

/-- What is done to a list. -/
inductive Act (T : Type)
  | add (v : T)
  | addAll (c : Items T)
  | remove (v : T)
  | removeAll (c : Items T)
  | copy (src : Nat)
  | clear

/-- An action on the list `l`. -/
structure Op (T : Type) where
  l : Nat
  act : Act T

/-- One action on the list `l`; `fst` gives the member `fst` of the lists. -/
def perform (fst : Nat → Option Nat) (l : Nat) (s : SLList T) : Act T → Option (SLList T)
  | .add v => ListSet.add cmp s v
  | .addAll c => addAll fst s c
  | .remove v => remove cmp s v
  | .removeAll c => removeAll cmp fst s c
  | .copy src => s.copy fun s => if src = l then s.fst else fst src
  | .clear => s.clear

/-- One operation. -/
def step (t : State T) (op : Op T) : Option (State T) :=
  (perform cmp t.fst op.l (t.list op.l) op.act).map (t.put op.l)

/-! ## The multisets -/

section Spec

variable [DecidableEq T]

/-- The items of a collection, `bags` being the elements of the lists. -/
def Items.elements (bags : Nat → Multiset T) : Items T → Multiset T
  | .values c => c
  | .list src => bags src

/-- One action on the elements that have been added and not removed. -/
def act (bags : Nat → Multiset T) (m : Multiset T) : Act T → Multiset T
  | .add v => v ::ₘ m
  | .addAll c => c.elements bags + m
  | .remove v => m.erase v
  | .removeAll c => m - c.elements bags
  | .copy src => bags src
  | .clear => 0

/-- One operation. -/
def specStep (bags : Nat → Multiset T) (op : Op T) : Option (Nat → Multiset T) :=
  some (update bags op.l (act bags (bags op.l) op.act))

/-- The program beside the multisets. -/
def both : (Nat → Multiset T) × State T → Op T → Option ((Nat → Multiset T) × State T) :=
  Run.beside specStep (step cmp)

/-- The lists are empty. -/
def start : (Nat → Multiset T) × State T := (fun _ => 0, .start)

end Spec

/-- Each value is not above those that come after it. -/
def Ordered (xs : List T) : Prop := xs.Pairwise fun a b => (cmp a b).isLE

instance : DecidablePred (Ordered cmp) := fun xs => inferInstanceAs (Decidable (List.Pairwise _ xs))

/-- The list is sorted and has the elements `m`; `find` and `contains` tell if a value is one of them. -/
structure Agrees (m : Multiset T) (s : SLList T) : Prop where
  items : ∃ cells, s.items = some cells ∧ Ordered cmp (cells.map Prod.snd) ∧ (cells.map Prod.snd : Multiset T) = m
  find : ∀ x, ∃ r, ListSet.find cmp s x = some r ∧ (r.isSome ↔ x ∈ m) ∧ ∀ a, r = some a → s.mem.val a = some x
  contains : ∀ x, ∃ b, ListSet.contains cmp s x = some b ∧ (b ↔ x ∈ m)

/-- The items can be added at the front, each one before those added so far. -/
def Prepends (bags : Nat → Multiset T) (m : Multiset T) : Items T → Prop
  | .values c => (c.Pairwise fun a b => (cmp b a).isLE) ∧ ∀ a ∈ c, ∀ b ∈ m, (cmp a b).isLE
  | .list src => (∀ a ∈ bags src, ∀ b ∈ bags src, a = b) ∧ ∀ a ∈ bags src, ∀ b ∈ m, (cmp a b).isLE

/-- What is added at once comes before the elements of the list; a list that has elements is neither copied to
itself nor removed from itself. -/
def Allowed (bags : Nat → Multiset T) (op : Op T) : Prop :=
  match op.act with
  | .addAll c => Prepends cmp bags (bags op.l) c
  | .removeAll (.list src) => src = op.l → bags src = 0
  | .copy src => src = op.l → bags src = 0
  | _ => True

/-! ## Sorted lists -/

variable {cmp} {s s' : SLList T} {cells cells' xs ys : List (Nat × T)} {p : Option Nat} {a : Nat} {v : T}

theorem ordered_append {as bs : List T} :
    Ordered cmp (as ++ bs) ↔ Ordered cmp as ∧ Ordered cmp bs ∧ ∀ a ∈ as, ∀ b ∈ bs, (cmp a b).isLE :=
  pairwise_append

theorem ordered_cons {b : T} {bs : List T} :
    Ordered cmp (b :: bs) ↔ (∀ c ∈ bs, (cmp b c).isLE) ∧ Ordered cmp bs :=
  pairwise_cons

/-- In a sorted list, the items above a value are behind the others. -/
theorem exists_split [TransCmp cmp] (v : T) : ∀ {cells : List (Nat × T)}, Ordered cmp (cells.map Prod.snd) →
    ∃ xs ys, cells = xs ++ ys ∧ (∀ u ∈ xs.map Prod.snd, ¬ cmp v u = .lt) ∧ ∀ u ∈ ys.map Prod.snd, cmp v u = .lt := by
  intro cells hordered
  induction cells with
  | nil => exact ⟨[], [], rfl, by simp, by simp⟩
  | cons x cells ih =>
    obtain ⟨hfirst, hrest⟩ := ordered_cons.mp hordered
    by_cases hlt : cmp v x.2 = .lt
    · refine ⟨[], x :: cells, rfl, by simp, ?_⟩
      intro u hu
      rcases List.mem_cons.mp hu with rfl | hu
      · exact hlt
      · exact TransCmp.lt_of_lt_of_isLE hlt (hfirst u hu)
    · obtain ⟨xs, ys, rfl, hxs, hys⟩ := ih hrest
      refine ⟨x :: xs, ys, rfl, ?_, hys⟩
      intro u hu
      rcases List.mem_cons.mp hu with rfl | hu
      · exact hlt
      · exact hxs u hu

/-- A value between those not above it and those above it. -/
theorem Ordered.insert [TransCmp cmp] {as bs : List T} (h : Ordered cmp (as ++ bs)) (has : ∀ u ∈ as, ¬ cmp v u = .lt)
    (hbs : ∀ u ∈ bs, cmp v u = .lt) : Ordered cmp (as ++ v :: bs) := by
  obtain ⟨hleft, hright, hcross⟩ := ordered_append.mp h
  refine ordered_append.mpr ⟨hleft, ordered_cons.mpr ⟨fun b hb => by simp [hbs b hb], hright⟩, ?_⟩
  intro a ha b hb
  rcases List.mem_cons.mp hb with rfl | hb
  · exact OrientedCmp.isGE_iff_isLE.mp (Ordering.isGE_iff_ne_lt.mpr (has a ha))
  · exact hcross a ha b hb

/-- `find` stops at the first item that is not below the value, and this is the value if the list has it. -/
theorem find_eq [TransCmp cmp] (h : s.Holds cells) (hordered : Ordered cmp (cells.map Prod.snd)) (x : T) :
    ListSet.find cmp s x = some ((cells.find? fun c => cmp x c.2 == .eq).map Prod.fst) := by
  rw [ListSet.find, loop_eq h h.list]
  congr 1
  clear h
  induction cells with
  | nil => rfl
  | cons c cells ih =>
    obtain ⟨hfirst, hrest⟩ := ordered_cons.mp hordered
    cases hcmp : cmp x c.2 with
    | gt =>
      rw [find?_cons_of_neg (by simp [hcmp]), ← ih hrest]
      simp only [visit, hcmp]
    | eq =>
      rw [find?_cons_of_pos (by simp [hcmp])]
      simp only [visit, hcmp, map_some]
    | lt =>
      -- the items behind are above the value
      have hnone : (c :: cells).find? (fun c => cmp x c.2 == .eq) = none := by
        rw [find?_eq_none]
        intro d hd
        have hlt : cmp x d.2 = .lt := by
          rcases List.mem_cons.mp hd with rfl | hd
          · exact hcmp
          · exact TransCmp.lt_of_lt_of_isLE hcmp (hfirst d.2 (List.mem_map_of_mem hd))
        simp [hlt]
      rw [hnone]
      simp only [visit, hcmp, map_none]

/-- A sorted list agrees with the multiset of its values. -/
theorem agrees_of_holds [TransCmp cmp] [LawfulEqCmp cmp] (h : s.Holds cells)
    (hordered : Ordered cmp (cells.map Prod.snd)) : Agrees cmp (cells.map Prod.snd : Multiset T) s := by
  have hfind : ∀ x, ∃ r, ListSet.find cmp s x = some r ∧ (r.isSome ↔ x ∈ cells.map Prod.snd) ∧
      ∀ a, r = some a → s.mem.val a = some x := by
    intro x
    refine ⟨_, find_eq h hordered x, ?_, ?_⟩
    · rw [isSome_map, find?_isSome, List.mem_map]
      simp only [beq_iff_eq, LawfulEqCmp.compare_eq_iff_eq, @eq_comm _ x]
    · intro a ha
      obtain ⟨c, hc, rfl⟩ := map_eq_some_iff.mp ha
      have hcmp := List.find?_some hc
      have heq : x = c.2 := LawfulEqCmp.compare_eq_iff_eq.mp (beq_iff_eq.mp hcmp)
      obtain ⟨q, hread⟩ := Seg.read_of_mem h.list (mem_of_find?_eq_some hc)
      rw [Memory.val, hread, heq]
      rfl
  refine ⟨⟨cells, h.items_eq, hordered, rfl⟩, hfind, ?_⟩
  intro x
  obtain ⟨r, hr, hiff, -⟩ := hfind x
  exact ⟨r.isSome, by rw [ListSet.contains, hr, map_some], hiff⟩

/-! ## The operations on a list -/

/-- A value added to a sorted list. -/
theorem add_spec [TransCmp cmp] (h : s.Holds cells) (hordered : Ordered cmp (cells.map Prod.snd)) (v : T) :
    ∃ s' cells', ListSet.add cmp s v = some s' ∧ Change s s' cells cells' ∧ Ordered cmp (cells'.map Prod.snd) ∧
      (cells'.map Prod.snd).Perm (v :: cells.map Prod.snd) := by
  obtain ⟨xs, ys, rfl, hxs, hys⟩ := exists_split v hordered
  obtain ⟨s', hadd, hchange⟩ := ListSet.add_spec h hxs hys
  rw [map_append] at hordered
  refine ⟨s', _, hadd, hchange, ?_, ?_⟩
  · rw [map_append, List.map_cons]
    exact hordered.insert hxs hys
  · rw [map_append, List.map_cons, map_append]
    exact perm_middle

/-- `addFirst` links the new node only. -/
theorem nodes_addFirst (hadd : s.addFirst v = some s') {a : Nat} (ha : a < s.mem.next) :
    s'.mem.nodes a = s.mem.nodes a := by
  have hne : a ≠ s.mem.next := Nat.ne_of_lt ha
  simp only [SLList.addFirst, SLList.link, Memory.setNxt, Memory.new, update_self, map_some,
    bind_eq_bind, bind_some, some.injEq] at hadd
  subst hadd
  simp only [update_of_ne hne]

/-- The items of a list, added in turn at the front of a list that may be the same. -/
theorem eachNode_addFirst {fuel : Nat} (h : s.Holds cells) (hp : IsList s.mem.nodes p ys) (hfuel : ys.length ≤ fuel) :
    ∃ s' cells', eachNode SLList.addFirst fuel s p = some s' ∧ Change s s' cells cells' ∧
      cells'.map Prod.snd = (ys.map Prod.snd).reverse ++ cells.map Prod.snd := by
  induction ys generalizing s cells p fuel with
  | nil =>
    obtain rfl : p = none := hp
    exact ⟨s, cells, by unfold eachNode; rfl, Change.refl h, rfl⟩
  | cons y ys ih =>
    obtain ⟨b, w⟩ := y
    obtain ⟨rfl, q, hread, hq⟩ := hp
    obtain ⟨fuel, rfl⟩ : ∃ n, fuel = n + 1 := ⟨fuel - 1, by simp only [length_cons] at hfuel; omega⟩
    obtain ⟨s₁, hadd, hchange⟩ := addFirst_spec h w
    -- the nodes that are still to come have kept their links
    have hread₁ : s₁.mem.nodes b = some (q, w) := by rw [nodes_addFirst hadd (h.lt_of_read hread), hread]
    have hq₁ : IsList s₁.mem.nodes q ys := by
      refine hq.congr fun x hx => nodes_addFirst hadd ?_
      exact SLList.Holds.lt_of_mem (s := ⟨s.mem, q⟩) ⟨hq, h.fresh⟩ (List.mem_map_of_mem hx)
    obtain ⟨s', cells', heach, hchange', hvalues⟩ := ih hchange.holds hq₁ (Nat.le_of_succ_le_succ hfuel)
    refine ⟨s', cells', ?_, hchange.trans hchange', ?_⟩
    · have hval : s.mem.val b = some w := by rw [Memory.val, hread]; rfl
      have hnxt : s₁.mem.nxt b = some q := by rw [Memory.nxt, hread₁]; rfl
      simp only [eachNode, hval, hadd, hnxt, heach, bind_eq_bind, bind_some]
    · rw [hvalues]
      simp

/-- The items of another list, removed in turn. -/
theorem eachNode_remove (cmp : T → T → Ordering) {fuel : Nat} (h : s.Holds cells)
    (hright : ListSet.Beside s cells p ys) (hfuel : ys.length ≤ fuel) :
    ∃ s' cells', eachNode (remove cmp) fuel s p = some s' ∧ Change s s' cells cells' ∧
      cells'.map Prod.snd =
        (ys.map Prod.snd).foldl (fun vs w => vs.eraseP fun v => isEqual cmp v w) (cells.map Prod.snd) := by
  induction ys generalizing s cells p fuel with
  | nil =>
    obtain rfl : p = none := hright.list
    exact ⟨s, cells, by unfold eachNode; rfl, Change.refl h, rfl⟩
  | cons y ys ih =>
    obtain ⟨b, w⟩ := y
    obtain ⟨fuel, rfl⟩ : ∃ n, fuel = n + 1 := ⟨fuel - 1, by simp only [length_cons] at hfuel; omega⟩
    obtain ⟨s₁, cells₁, hremove, hchange, hcells₁⟩ := LinkedList.remove_spec (isEqual cmp) h w
    have hright₁ := hright.change h hchange
    obtain ⟨hp, q, hread₁, hq₁⟩ := hright₁.list
    subst hp
    have hval : s.mem.val b = some w :=
      SLList.Holds.val_head (s := ⟨s.mem, some b⟩) ⟨hright.list, h.fresh⟩
    have hrest : ListSet.Beside s₁ cells₁ q ys :=
      ⟨hq₁, fun c hc => hright₁.disj c (List.mem_cons_of_mem _ hc)⟩
    obtain ⟨s', cells', heach, hchange', hvalues⟩ := ih hchange.holds hrest (Nat.le_of_succ_le_succ hfuel)
    refine ⟨s', cells', ?_, hchange.trans hchange', ?_⟩
    · have hnxt : s₁.mem.nxt b = some q := by rw [Memory.nxt, hread₁]; rfl
      have hremove' : remove cmp s w = some s₁ := hremove
      simp only [eachNode, hval, hremove', hnxt, heach, bind_eq_bind, bind_some]
    · rw [hvalues, hcells₁]
      rfl

/-- The items of another collection, done in turn. -/
theorem foldlM_spec {f : SLList T → T → Option (SLList T)} {g : List T → T → List T}
    (hf : ∀ s cells v, s.Holds cells → ∃ s' cells', f s v = some s' ∧ Change s s' cells cells' ∧
      cells'.map Prod.snd = g (cells.map Prod.snd) v) (c : List T) (h : s.Holds cells) :
    ∃ s' cells', c.foldlM f s = some s' ∧ Change s s' cells cells' ∧
      cells'.map Prod.snd = c.foldl g (cells.map Prod.snd) := by
  induction c generalizing s cells with
  | nil => exact ⟨s, cells, rfl, Change.refl h, rfl⟩
  | cons v c ih =>
    obtain ⟨s₁, cells₁, hv, hchange, hcells₁⟩ := hf s cells v h
    obtain ⟨s', cells', hrest, hchange', hvalues⟩ := ih hchange.holds
    refine ⟨s', cells', ?_, hchange.trans hchange', by rw [hvalues, hcells₁]; rfl⟩
    rw [foldlM_cons, hv]
    exact hrest

theorem foldl_cons (c bs : List T) : c.foldl (fun vs v => v :: vs) bs = c.reverse ++ bs := by
  induction c generalizing bs with
  | nil => rfl
  | cons v c ih => simp [ih]

theorem eraseP_isEqual [LawfulEqCmp cmp] [DecidableEq T] (vs : List T) (w : T) :
    vs.eraseP (fun v => isEqual cmp v w) = vs.erase w := by
  rw [erase_eq_eraseP']
  congr 1
  funext v
  rw [isEqual, Bool.eq_iff_iff, beq_iff_eq, beq_iff_eq, LawfulEqCmp.compare_eq_iff_eq]

/-- The values erased in turn. -/
theorem foldl_eraseP [LawfulEqCmp cmp] [DecidableEq T] (c vs : List T) :
    c.foldl (fun vs w => vs.eraseP fun v => isEqual cmp v w) vs = vs.diff c := by
  induction c generalizing vs with
  | nil => rfl
  | cons w c ih => rw [List.foldl_cons, eraseP_isEqual, ih, diff_cons]

/-- `removeFirst` frees the first node. -/
theorem nodes_removeFirst (h : s.Holds ((a, v) :: ys)) (hremove : s.removeFirst = some s') :
    s'.mem.nodes a = none := by
  obtain ⟨hfst, p, hread, -⟩ := h.list
  simp only [SLList.removeFirst, SLList.unlink, Memory.nxt, Memory.free, hfst, hread, map_some,
    bind_eq_bind, bind_some, some.injEq] at hremove
  subst hremove
  simp only [update_self]

/-- The first item that is removed is in the node of the iterator. -/
theorem eachNode_remove_self [ReflCmp cmp] (fuel : Nat) (h : s.Holds ((a, v) :: ys)) :
    eachNode (remove cmp) fuel s s.fst = none := by
  have hfst : s.fst = some a := h.list.1
  rw [hfst]
  cases fuel with
  | zero => rfl
  | succ fuel =>
    obtain ⟨s₁, hremove, -⟩ := removeFirst_spec h
    have hself : isEqual cmp v v := by simp [isEqual, ReflCmp.compare_self]
    have hremove' : remove cmp s v = some s₁ := by
      simp only [remove, SLList.remove, hfst, h.val_head, bind_eq_bind, bind_some, hself, if_true,
        hremove]
    have hnxt : s₁.mem.nxt a = none := by
      rw [Memory.nxt, nodes_removeFirst h hremove]
      rfl
    simp only [eachNode, h.val_head, hremove', hnxt, bind_eq_bind, bind_some, bind_none]

/-! ## The steps -/

/-- The items of a collection, `lists` being the nodes of the lists. -/
def Items.toList (lists : Nat → List (Nat × T)) : Items T → List T
  | .values c => c
  | .list src => (lists src).map Prod.snd

variable {lists : Nat → List (Nat × T)} {spec : Nat → Spec T} {t : State T} {l : Nat}

theorem addAll_spec (h : LinkedList.Inv lists spec t) (l : Nat) (c : Items T) :
    ∃ s' cells', addAll t.fst (t.list l) c = some s' ∧ Change (t.list l) s' (lists l) cells' ∧
      cells'.map Prod.snd = (c.toList lists).reverse ++ (lists l).map Prod.snd := by
  have hl := h.holds l
  cases c with
  | values c =>
    obtain ⟨s', cells', hs', hchange, hvalues⟩ := foldlM_spec (f := SLList.addFirst) (g := fun vs v => v :: vs)
      (fun s cells v hs => by
        obtain ⟨s', hadd, hchange⟩ := addFirst_spec hs v
        exact ⟨s', _, hadd, hchange, rfl⟩) c hl
    exact ⟨s', cells', hs', hchange, by rw [hvalues, foldl_cons]; rfl⟩
  | list src =>
    have hsrc := h.holds src
    exact eachNode_addFirst hl hsrc.list hsrc.length_le

theorem removeAll_spec (cmp : T → T → Ordering) [LawfulEqCmp cmp] [DecidableEq T] (h : LinkedList.Inv lists spec t)
    (l : Nat) (c : Items T) (hself : ∀ src, c = .list src → src = l → lists src = []) :
    ∃ s' cells', removeAll cmp t.fst (t.list l) c = some s' ∧ Change (t.list l) s' (lists l) cells' ∧
      cells'.map Prod.snd = ((lists l).map Prod.snd).diff (c.toList lists) := by
  have hl := h.holds l
  cases c with
  | values c =>
    obtain ⟨s', cells', hs', hchange, hvalues⟩ := foldlM_spec (f := remove cmp)
      (g := fun vs w => vs.eraseP fun v => isEqual cmp v w)
      (fun s cells v hs => LinkedList.remove_spec (isEqual cmp) hs v) c hl
    exact ⟨s', cells', hs', hchange, by rw [hvalues, foldl_eraseP]; rfl⟩
  | list src =>
    have hsrc := h.holds src
    by_cases heq : src = l
    · subst heq
      have hnil := hself src rfl rfl
      have hfst : t.fst src = none := by
        have hfirst := hsrc.fst_eq
        rw [hnil] at hfirst
        exact hfirst
      refine ⟨t.list src, lists src, ?_, Change.refl hl, ?_⟩
      · rw [removeAll, each, hfst]
        unfold eachNode
        rfl
      · simp [Items.toList, hnil]
    · -- the two lists have no common node
      have hright : ListSet.Beside (t.list l) (lists l) (t.fst src) (lists src) :=
        ⟨hsrc.list, h.disj src l heq⟩
      obtain ⟨s', cells', hs', hchange, hvalues⟩ := eachNode_remove cmp hl hright hsrc.length_le
      exact ⟨s', cells', hs', hchange, by rw [hvalues, foldl_eraseP]; rfl⟩

theorem ordered_reverse_append {as bs : List T} (hbs : Ordered cmp bs) : Ordered cmp (as.reverse ++ bs) ↔
    (as.Pairwise fun a b => (cmp b a).isLE) ∧ ∀ a ∈ as, ∀ b ∈ bs, (cmp a b).isLE := by
  rw [ordered_append, Ordered, pairwise_reverse]
  simp only [mem_reverse, hbs, true_and]

/-- The values of a sorted list come in decreasing order only if they are equal. -/
theorem pairwise_ge_iff [TransCmp cmp] [LawfulEqCmp cmp] {as : List T} (h : Ordered cmp as) :
    (as.Pairwise fun a b => (cmp b a).isLE) ↔ ∀ a ∈ as, ∀ b ∈ as, a = b := by
  constructor
  · intro hge a ha b hb
    by_contra hne
    have heq : as.Pairwise fun a b => a = b :=
      (List.Pairwise.and h hge).imp fun hab => LawfulEqCmp.compare_eq_iff_eq.mp (OrientedCmp.isLE_antisymm hab.1 hab.2)
    exact hne (heq.forall ha hb hne)
  · intro hall
    refine pairwise_of_forall_mem_list fun a ha b hb => ?_
    rw [hall a ha b hb]
    exact ReflCmp.isLE_rfl

/-! ## Runs -/

section Runs

variable {bags : Nat → Multiset T}

/-- The nodes of the lists are `lists`, sorted, with the elements `bags`. -/
structure Inv (cmp : T → T → Ordering) (bags : Nat → Multiset T) (t : State T) (lists : Nat → List (Nat × T)) :
    Prop where
  nodes : LinkedList.Inv lists (fun l => ⟨(lists l).map Prod.snd, none⟩) t
  ordered : ∀ l, Ordered cmp ((lists l).map Prod.snd)
  bag : ∀ l, ((lists l).map Prod.snd : Multiset T) = bags l

theorem inv_start : Inv cmp start.1 (start : (Nat → Multiset T) × State T).2 fun _ => [] :=
  ⟨start_inv, fun _ => List.Pairwise.nil, fun _ => rfl⟩

theorem Inv.agrees [TransCmp cmp] [LawfulEqCmp cmp] (h : Inv cmp bags t lists) (l : Nat) :
    Agrees cmp (bags l) (t.list l) :=
  h.bag l ▸ agrees_of_holds (h.nodes.holds l) (h.ordered l)

theorem nil_of_bag (h : Inv cmp bags t lists) (hl : bags l = 0) : lists l = [] := by
  rw [← h.bag l, coe_eq_zero, List.map_eq_nil_iff] at hl
  exact hl

theorem elements_eq (h : Inv cmp bags t lists) (c : Items T) : c.elements bags = (c.toList lists : Multiset T) := by
  cases c with
  | values c => rfl
  | list src => exact (h.bag src).symm

/-- When the list is sorted after `addAll`. -/
theorem prepends_iff [TransCmp cmp] [LawfulEqCmp cmp] (h : Inv cmp bags t lists) (c : Items T) :
    Prepends cmp bags (bags l) c ↔ ((c.toList lists).Pairwise fun a b => (cmp b a).isLE) ∧
      ∀ a ∈ c.toList lists, ∀ b ∈ (lists l).map Prod.snd, (cmp a b).isLE := by
  rw [← h.bag l]
  cases c with
  | values c => exact Iff.rfl
  | list src =>
    rw [Prepends, ← h.bag src]
    exact and_congr_left fun _ => (pairwise_ge_iff (h.ordered src)).symm

/-- A list is changed. -/
theorem Inv.put (h : Inv cmp bags t lists) {r : SLList T} (hchange : Change (t.list l) r (lists l) cells)
    (hordered : Ordered cmp (cells.map Prod.snd)) :
    Inv cmp (update bags l (cells.map Prod.snd : Multiset T)) (t.put l r) (update lists l cells) := by
  have hiter : ∀ k, none = some k → ∃ xs ys, cells = xs ++ ys ∧ xs.length = k ∧ (t.iter l).At xs ys :=
    fun _ hk => by cases hk
  have hput := h.nodes.put_list hchange rfl hiter
  refine ⟨?_, ?_, ?_⟩
  · convert hput using 1
    funext l'
    by_cases hl : l' = l
    · subst hl
      simp
    · simp [hl]
  · intro l'
    by_cases hl : l' = l
    · subst hl
      simpa using hordered
    · simpa [hl] using h.ordered l'
  · intro l'
    by_cases hl : l' = l
    · subst hl
      simp
    · simpa [hl] using h.bag l'

variable [DecidableEq T]

/-- What an allowed action does to its list. -/
theorem perform_spec [TransCmp cmp] [LawfulEqCmp cmp] (h : Inv cmp bags t lists) (op : Op T)
    (hallowed : Allowed cmp bags op) :
    ∃ r cells, perform cmp t.fst op.l (t.list op.l) op.act = some r ∧ Change (t.list op.l) r (lists op.l) cells ∧
      Ordered cmp (cells.map Prod.snd) ∧ (cells.map Prod.snd : Multiset T) = act bags (bags op.l) op.act := by
  obtain ⟨l, action⟩ := op
  have hl := h.nodes.holds l
  have hordered := h.ordered l
  have hbag := h.bag l
  cases action with
  | add v =>
    obtain ⟨r, cells, hr, hchange, hsorted, hperm⟩ := add_spec hl hordered v
    refine ⟨r, cells, hr, hchange, hsorted, ?_⟩
    rw [act, ← hbag, coe_eq_coe.mpr hperm, cons_coe]
  | addAll c =>
    obtain ⟨r, cells, hr, hchange, hvalues⟩ := addAll_spec h.nodes l c
    refine ⟨r, cells, hr, hchange, ?_, ?_⟩
    · rw [hvalues, ordered_reverse_append hordered]
      exact (prepends_iff h c).mp hallowed
    · rw [hvalues, act, ← hbag, ← coe_add, coe_reverse, elements_eq h]
  | remove v =>
    obtain ⟨r, cells, hr, hchange, hvalues⟩ := LinkedList.remove_spec (isEqual cmp) hl v
    rw [eraseP_isEqual] at hvalues
    refine ⟨r, cells, hr, hchange, ?_, ?_⟩
    · rw [hvalues]
      exact hordered.sublist erase_sublist
    · rw [hvalues, act, ← hbag, coe_erase]
  | removeAll c =>
    have hself : ∀ src, c = .list src → src = l → lists src = [] := by
      rintro src rfl hsrc
      exact nil_of_bag h (hallowed hsrc)
    obtain ⟨r, cells, hr, hchange, hvalues⟩ := removeAll_spec cmp h.nodes l c hself
    refine ⟨r, cells, hr, hchange, ?_, ?_⟩
    · rw [hvalues]
      exact hordered.sublist (List.diff_sublist _ _)
    · rw [hvalues, act, ← hbag, ← coe_sub, elements_eq h]
  | copy src =>
    by_cases hsrc : src = l
    · subst hsrc
      obtain ⟨r, hr, hchange⟩ := copy_self hl
      have hzero : bags src = 0 := hallowed rfl
      exact ⟨r, [], by simp only [perform, if_true, hr], hchange, List.Pairwise.nil, by rw [act, hzero]; rfl⟩
    · obtain ⟨r, cells, hr, hchange, hvalues⟩ :=
        copy_spec hl (h.nodes.holds src).list (h.nodes.disj src l hsrc)
      refine ⟨r, cells, ?_, hchange, ?_, ?_⟩
      · simp only [perform, if_neg hsrc]
        exact hr
      · rw [hvalues]
        exact h.ordered src
      · rw [hvalues, act, h.bag src]
  | clear =>
    obtain ⟨r, hr, hchange⟩ := clear_spec hl
    exact ⟨r, [], hr, hchange, List.Pairwise.nil, rfl⟩

theorem step_inv [TransCmp cmp] [LawfulEqCmp cmp] (h : Inv cmp bags t lists) {op : Op T}
    (hallowed : Allowed cmp bags op) :
    ∃ u lists', both cmp (bags, t) op = some u ∧ Inv cmp u.1 u.2 lists' := by
  obtain ⟨r, cells, hr, hchange, hordered, hbag⟩ := perform_spec h op hallowed
  have hput := h.put hchange hordered
  rw [hbag] at hput
  refine ⟨(_, t.put op.l r), _, Run.beside_eq_some.mpr ⟨rfl, ?_⟩, hput⟩
  rw [step, hr, map_some]

/-- After an action that is not allowed there is no result, or a list that is not the sorted list of its elements. -/
theorem not_agrees [TransCmp cmp] [LawfulEqCmp cmp] (h : Inv cmp bags t lists) {op : Op T}
    (hnot : ¬ Allowed cmp bags op) {u : (Nat → Multiset T) × State T} (hstep : both cmp (bags, t) op = some u) :
    ¬ ∀ l, Agrees cmp (u.1 l) (u.2.list l) := by
  intro hall
  obtain ⟨l, action⟩ := op
  obtain ⟨hspec, hprogram⟩ := Run.beside_eq_some.mp hstep
  obtain ⟨r, hr, hu⟩ := map_eq_some_iff.mp hprogram
  have hl := h.nodes.holds l
  have hagrees := hall l
  obtain ⟨bags', t'⟩ := u
  obtain rfl := some.inj hspec
  subst hu
  have hlist : (t.put l r).list l = r := by simp only [State.put, State.list, update_self]
  simp only [update_self, hlist] at hagrees
  cases action with
  | addAll c =>
    -- the items are in front of the list, in the other order
    obtain ⟨r', cells, hr', hchange, hvalues⟩ := addAll_spec h.nodes l c
    obtain rfl := some.inj (hr.symm.trans hr')
    obtain ⟨cells', hitems, hordered, -⟩ := hagrees.items
    rw [hchange.holds.items_eq] at hitems
    obtain rfl := some.inj hitems
    rw [hvalues, ordered_reverse_append (h.ordered l)] at hordered
    exact hnot ((prepends_iff h c).mpr hordered)
  | removeAll c =>
    cases c with
    | values c => exact hnot trivial
    | list src =>
      obtain ⟨hsrc, hne⟩ := Classical.not_imp.mp hnot
      subst hsrc
      cases hcells : lists src with
      | nil =>
        rw [← h.bag src, hcells] at hne
        exact hne rfl
      | cons x xs =>
        -- the iterator stands on the node that is freed
        rw [hcells] at hl
        have hnone : eachNode (remove cmp) (t.list src).mem.next (t.list src) (t.list src).fst = none :=
          eachNode_remove_self _ hl
        simp only [perform, removeAll, each] at hr
        rw [show t.fst src = (t.list src).fst from rfl, hnone] at hr
        cases hr
  | copy src =>
    obtain ⟨hsrc, hne⟩ := Classical.not_imp.mp hnot
    subst hsrc
    -- the list is cleared before it is read
    obtain ⟨r', hr', hchange⟩ := copy_self hl
    simp only [perform, if_true] at hr
    obtain rfl := some.inj (hr.symm.trans hr')
    obtain ⟨cells', hitems, -, hbag⟩ := hagrees.items
    rw [hchange.holds.items_eq] at hitems
    obtain rfl := some.inj hitems
    exact hne hbag.symm
  | _ => exact hnot trivial

/-- In every run, the lists are sorted and have the elements that were added and not removed, and `find` and
`contains` tell whether a value is one of them, if and only if every operation is allowed. -/
theorem sortedList_run_iff [TransCmp cmp] [LawfulEqCmp cmp] (ops : List (Op T)) :
    (∀ k, ∃ u, Run.exec (both cmp) start (ops.take k) = some u ∧ ∀ l, Agrees cmp (u.1 l) (u.2.list l)) ↔
      Run.Meets (fun u op => Allowed cmp u.1 op) (both cmp) start ops := by
  have hany : Run.Meets (fun _ _ => True) (both cmp) start ops := Run.meets_of_forall (fun _ _ => trivial) ops _
  refine (Run.meets_iff_forall_exists_exec (fun u => ∃ lists, Inv cmp u.1 u.2 lists) _ ?_ ?_ ?_ ops _
    ⟨_, inv_start⟩ hany).symm
  · rintro u ⟨lists, h⟩ l
    exact h.agrees l
  · rintro u op ⟨lists, h⟩ - hallowed
    obtain ⟨u', lists', hu', h'⟩ := step_inv h hallowed
    exact ⟨u', hu', lists', h'⟩
  · rintro u op u' ⟨lists, h⟩ - hnot hstep
    exact not_agrees h hnot hstep

/-- Two lists: the second one is copied from the first one, and removed from it. -/
def twoLists : List (Op Nat) :=
  [⟨0, .add 5⟩, ⟨0, .add 7⟩, ⟨0, .add 5⟩, ⟨0, .addAll (.values [4, 2])⟩, ⟨1, .copy 0⟩, ⟨1, .remove 5⟩, ⟨1, .remove 3⟩,
    ⟨0, .removeAll (.list 1)⟩, ⟨1, .clear⟩, ⟨1, .addAll (.list 0)⟩]

theorem sortedList_run_iff_twoLists :
    (∀ k, ∃ u, Run.exec (both compare) start (twoLists.take k) = some u ∧
      ∀ l, Agrees compare (u.1 l) (u.2.list l)) ↔
        Run.Meets (fun u op => Allowed compare u.1 op) (both compare) start twoLists :=
  sortedList_run_iff twoLists

/-- The items 1 and 2 are added at the front in this order: the list is 2, 1. -/
theorem not_sortedList_run : ¬ ∀ (ops : List (Op Nat)) (k : Nat),
    ∃ u, Run.exec (both compare) start (ops.take k) = some u ∧ ∀ l, Agrees compare (u.1 l) (u.2.list l) := by
  intro hall
  obtain ⟨u, hu, hagrees⟩ := hall [⟨0, .addAll (.values [1, 2])⟩] 1
  obtain rfl := some.inj hu
  obtain ⟨b, hb, hiff⟩ := (hagrees 0).contains 1
  have hfalse : b = false := some.inj (hb.symm.trans (by decide))
  subst hfalse
  exact absurd (hiff.mpr (by decide)) (by decide)

end Runs

end Elm.Data.SortedList
