import Elm.Data.DLList

/-!
# The operations of `DLList`

What each operation does to the nodes of its list, the other lists being left as they are.  In every run the links
are mutually inverse, and the lists are the mathematical lists of the same operations, if and only if no list that
has nodes is copied.
-/

namespace Elm.Data.DLList

open DoubleChain Addr Function List Option

variable {T : Type} {m m' : Memory T} {l l' n p : Nat} {xs ys zs ws : List Nat} {a b this : Addr}

/-! ## Positions -/

/-- The address before the nodes that follow `ys`. -/
def before (l : Nat) (ys : List Nat) : Addr := (ys.map node).getLastD (hd l)

/-- The address behind the nodes that precede `zs`. -/
def behind (l : Nat) (zs : List Nat) : Addr := (zs.map node).headD (tl l)

@[simp] theorem before_nil (l : Nat) : before l [] = hd l := rfl

@[simp] theorem behind_nil (l : Nat) : behind l [] = tl l := rfl

@[simp] theorem before_concat (l : Nat) (ys : List Nat) (n : Nat) : before l (ys ++ [n]) = node n := by
  simp [before, getLastD_eq_getLast?]

@[simp] theorem behind_cons (l n : Nat) (zs : List Nat) : behind l (n :: zs) = node n := rfl

theorem before_ne_tl : before l ys ≠ tl l' := by
  rcases eq_nil_or_concat ys with rfl | ⟨ys, n, rfl⟩
  · exact fun h => nomatch h
  · rw [concat_eq_append, before_concat]
    exact fun h => nomatch h

theorem behind_ne_hd : behind l zs ≠ hd l' := by
  cases zs with
  | nil => exact fun h => nomatch h
  | cons z zs => exact fun h => nomatch h

/-- The path around a position. -/
theorem path_split (l : Nat) (ys zs : List Nat) : ∃ X Y, ∀ ws : List Nat,
    path l (ys ++ ws ++ zs) = X ++ before l ys :: (ws.map node ++ behind l zs :: Y) := by
  have hleft : ∃ X, hd l :: ys.map node = X ++ [before l ys] := by
    rcases eq_nil_or_concat ys with rfl | ⟨ys, n, rfl⟩
    · exact ⟨[], rfl⟩
    · exact ⟨hd l :: ys.map node, by simp⟩
  have hright : ∃ Y, zs.map node ++ [tl l] = behind l zs :: Y := by
    cases zs with
    | nil => exact ⟨[], rfl⟩
    | cons z zs => exact ⟨zs.map node ++ [tl l], rfl⟩
  obtain ⟨X, hX⟩ := hleft
  obtain ⟨Y, hY⟩ := hright
  refine ⟨X, Y, fun ws => ?_⟩
  have hpath : path l (ys ++ ws ++ zs) = (hd l :: ys.map node) ++ (ws.map node ++ (zs.map node ++ [tl l])) := by
    simp [path]
  rw [hpath, hX, hY]
  simp

theorem nodup_path (hxs : xs.Nodup) : (path l xs).Nodup := by
  have hinj : Function.Injective node := fun _ _ h => Addr.node.inj h
  have hmap : (xs.map node).Nodup := hxs.map hinj
  simp [path, nodup_append, hmap]

theorem mem_path : a ∈ path l xs ↔ a = hd l ∨ (∃ n ∈ xs, a = node n) ∨ a = tl l := by
  simp [path, eq_comm]

theorem before_ne_node (hn : n ∉ ys) : before l ys ≠ node n := by
  rcases eq_nil_or_concat ys with rfl | ⟨ys, k, rfl⟩
  · exact fun h => nomatch h
  · rw [concat_eq_append] at hn ⊢
    rw [before_concat]
    rintro h
    exact hn (Addr.node.inj h ▸ mem_append_right _ (mem_singleton_self _))

theorem behind_ne_node (hn : n ∉ zs) : behind l zs ≠ node n := by
  cases zs with
  | nil => exact fun h => nomatch h
  | cons z zs =>
    rw [behind_cons]
    rintro h
    exact hn (Addr.node.inj h ▸ mem_cons_self)

theorem before_mem : before l ys ∈ path l (ys ++ zs) := by
  obtain ⟨X, Y, hpath⟩ := path_split l ys zs
  have hempty := hpath []
  rw [append_nil] at hempty
  rw [hempty]
  simp

theorem behind_mem : behind l zs ∈ path l (ys ++ zs) := by
  obtain ⟨X, Y, hpath⟩ := path_split l ys zs
  have hempty := hpath []
  rw [append_nil] at hempty
  rw [hempty]
  simp

/-! ## Reading -/

/-- Every node of the path exists. -/
theorem Holds.isSome (h : Holds m l xs) (ha : a ∈ path l xs) : (m.cell a).isSome := by
  rcases mem_path.mp ha with rfl | ⟨n, hn, rfl⟩ | rfl
  · exact isSome_of_eq_some h.cell_hd
  · exact h.cell n hn
  · exact isSome_of_eq_some h.cell_tl

theorem Holds.isSome_before (h : Holds m l (ys ++ zs)) : (m.cell (before l ys)).isSome := h.isSome before_mem

theorem Holds.isSome_behind (h : Holds m l (ys ++ zs)) : (m.cell (behind l zs)).isSome := h.isSome behind_mem

theorem Holds.joined (h : Holds m l (ys ++ zs)) : Joined m.links (before l ys) (behind l zs) := by
  obtain ⟨X, Y, hpath⟩ := path_split l ys zs
  have hempty := hpath []
  rw [append_nil] at hempty
  have hlinked := h.linked
  rw [hempty] at hlinked
  exact (linked_append.mp hlinked).2.1

/-- The links around a node. -/
theorem Holds.joined_node (h : Holds m l (ys ++ n :: zs)) :
    Joined m.links (before l ys) (node n) ∧ Joined m.links (node n) (behind l zs) := by
  have happ : Holds m l ((ys ++ [n]) ++ zs) := by simpa using h
  have hnext := happ.joined
  rw [before_concat] at hnext
  exact ⟨h.joined, hnext⟩

/-! ## Changes -/

/-- A node takes the place of the nodes `ws`. -/
theorem put_change (h : Holds m l (ys ++ ws ++ zs)) (hn : n ∉ ys ++ zs) (hcell : (m.cell (node n)).isSome) :
    Change m { m with links := join (join m.links (node n) (behind l zs)) (before l ys) (node n) } l (ys ++ ws ++ zs)
      (ys ++ n :: zs) [n] := by
  obtain ⟨X, Y, hpath⟩ := path_split l ys zs
  have hlinked := h.linked
  rw [hpath ws] at hlinked
  have hl : Linked m.links (X ++ [before l ys]) := (linked_split.mp hlinked).1
  have hr : Linked m.links (behind l zs :: Y) := by
    have hlast := (linked_split.mp hlinked).2
    rw [← cons_append] at hlast
    exact (linked_split.mp hlast).2
  have hnew : (ys ++ n :: zs).Nodup := by
    have hold := h.nodup
    rw [append_assoc, nodup_append] at hold
    rw [nodup_middle, nodup_cons, nodup_append]
    refine ⟨hn, hold.1, hold.2.1.of_append_right, fun a ha b hb => ?_⟩
    exact hold.2.2 a ha b (mem_append_right _ hb)
  have hpathn := hpath [n]
  rw [append_assoc, singleton_append, map_singleton, singleton_append] at hpathn
  have hsub : ys ++ n :: zs ⊆ ys ++ ws ++ zs ++ [n] := by
    intro k
    simp only [mem_append, mem_cons, not_mem_nil, or_false]
    tauto
  refine ⟨⟨?_, hnew, ?_, ?_, h.cell_hd, h.cell_tl, fun k hk => ?_⟩, hsub, rfl, fun a ha => ?_⟩
  · rw [hpathn]
    refine hl.bridge hr ?_
    rw [← hpathn]
    exact nodup_path hnew
  · have hnode : tl l ≠ node n := fun heq => nomatch heq
    have hbefore : tl l ≠ before l ys := Ne.symm before_ne_tl
    rw [join_nxt_of_ne _ _ hbefore, join_nxt_of_ne _ _ hnode, h.nxt_tl]
  · have hnode : hd l ≠ node n := fun heq => nomatch heq
    have hbehind : hd l ≠ behind l zs := Ne.symm behind_ne_hd
    rw [join_prv_of_ne _ _ hnode, join_prv_of_ne _ _ hbehind, h.prv_hd]
  · have hkeep : ∀ k ∈ ys ++ zs, (m.cell (node k)).isSome := by
      intro k hk
      refine h.cell k ?_
      rw [append_assoc]
      rcases mem_append.mp hk with hk | hk
      · exact mem_append_left _ hk
      · exact mem_append_right _ (mem_append_right _ hk)
    rw [mem_append, mem_cons] at hk
    rcases hk with hk | rfl | hk
    · exact hkeep k (mem_append_left _ hk)
    · exact hcell
    · exact hkeep k (mem_append_right _ hk)
  · have hbefore : a ≠ before l ys := by
      rintro rfl
      apply ha
      rw [append_assoc, append_assoc]
      exact before_mem
    have hnode : a ≠ node n := by
      rintro rfl
      exact ha (mem_path.mpr (Or.inr (Or.inl ⟨n, by simp, rfl⟩)))
    have hbehind : a ≠ behind l zs := by
      rintro rfl
      have hmem : behind l zs ∈ path l ((ys ++ ws) ++ zs) := behind_mem
      rcases mem_path.mp hmem with heq | ⟨k, hk, heq⟩ | heq
      · exact behind_ne_hd heq
      · exact ha (mem_path.mpr (Or.inr (Or.inl ⟨k, mem_append_left _ hk, heq⟩)))
      · exact ha (mem_path.mpr (Or.inr (Or.inr heq)))
    refine ⟨?_, ?_⟩
    · exact (join_nxt_of_ne _ _ hbefore).trans (join_nxt_of_ne _ _ hnode)
    · exact (join_prv_of_ne _ _ hnode).trans (join_prv_of_ne _ _ hbehind)

/-- The nodes `ws` are taken out. -/
theorem erase_change (h : Holds m l (ys ++ ws ++ zs)) :
    Change m { m with links := join m.links (before l ys) (behind l zs) } l (ys ++ ws ++ zs) (ys ++ zs) [] := by
  obtain ⟨X, Y, hpath⟩ := path_split l ys zs
  have hlinked := h.linked
  rw [hpath ws] at hlinked
  have hl : Linked m.links (X ++ [before l ys]) := (linked_split.mp hlinked).1
  have hr : Linked m.links (behind l zs :: Y) := by
    have hlast := (linked_split.mp hlinked).2
    rw [← cons_append] at hlast
    exact (linked_split.mp hlast).2
  have hsub : (ys ++ zs).Sublist (ys ++ ws ++ zs) := by
    rw [append_assoc]
    exact (sublist_append_right ws zs).append_left ys
  have hpathn := hpath []
  rw [append_nil, map_nil, nil_append] at hpathn
  refine ⟨⟨?_, h.nodup.sublist hsub, ?_, ?_, h.cell_hd, h.cell_tl, fun k hk => h.cell k (hsub.subset hk)⟩,
    fun k hk => mem_append_left _ (hsub.subset hk), rfl, fun a ha => ?_⟩
  · rw [hpathn]
    refine hl.join hr ?_
    rw [← hpathn]
    exact nodup_path (h.nodup.sublist hsub)
  · exact (join_nxt_of_ne _ _ (Ne.symm before_ne_tl)).trans h.nxt_tl
  · exact (join_prv_of_ne _ _ (Ne.symm behind_ne_hd)).trans h.prv_hd
  · rw [append_nil] at ha
    have hbefore : a ≠ before l ys := by
      rintro rfl
      apply ha
      rw [append_assoc]
      exact before_mem
    have hbehind : a ≠ behind l zs := by
      rintro rfl
      exact ha behind_mem
    exact ⟨join_nxt_of_ne _ _ hbefore, join_prv_of_ne _ _ hbehind⟩

/-! ## The operations of a node -/

theorem nxt_eq (ha : (m.cell a).isSome) : m.nxt a = some (m.links.nxt a) := by
  obtain ⟨v, hv⟩ := isSome_iff_exists.mp ha
  rw [Memory.nxt, hv]
  rfl

theorem prv_eq (ha : (m.cell a).isSome) : m.prv a = some (m.links.prv a) := by
  obtain ⟨v, hv⟩ := isSome_iff_exists.mp ha
  rw [Memory.prv, hv]
  rfl

theorem setNxt_eq (ha : (m.cell a).isSome) (q : Option Addr) :
    m.setNxt a q = some { m with links := { m.links with nxt := update m.links.nxt a q } } := by
  obtain ⟨v, hv⟩ := isSome_iff_exists.mp ha
  rw [Memory.setNxt, hv]
  rfl

theorem setPrv_eq (ha : (m.cell a).isSome) (q : Option Addr) :
    m.setPrv a q = some { m with links := { m.links with prv := update m.links.prv a q } } := by
  obtain ⟨v, hv⟩ := isSome_iff_exists.mp ha
  rw [Memory.setPrv, hv]
  rfl

section Nodes

variable {c : Addr} (ha : (m.cell a).isSome) (hb : (m.cell b).isSome) (hc : (m.cell c).isSome)

include ha hb hc

theorem insertAfter_eq (hab : Joined m.links a b) :
    m.insertAfter a c = some { m with links := join (join m.links c b) a c } := by
  simp only [Memory.insertAfter, nxt_eq, setNxt_eq, setPrv_eq, ha, hb, hc, hab.1, bind_eq_bind,
    bind_some]
  rfl

theorem insertBefore_eq (hab : Joined m.links a b) (hac : a ≠ c) (hcb : c ≠ b) :
    m.insertBefore b c = some { m with links := join (join m.links c b) a c } := by
  rw [← join_comm m.links hac hcb]
  simp only [Memory.insertBefore, prv_eq, setNxt_eq, setPrv_eq, ha, hb, hc, hab.2, bind_eq_bind,
    bind_some]
  rfl

/-- The node `c` between `a` and `b` is taken out. -/
theorem remove_eq (hac : Joined m.links a c) (hcb : Joined m.links c b) (hne : c ≠ a) :
    m.remove c = some { m with links := join m.links a b } := by
  simp only [Memory.remove, nxt_eq, prv_eq, setNxt_eq, setPrv_eq, ha, hb, hc, hac.2, hcb.1, bind_eq_bind,
    bind_some, update_of_ne hne]
  rfl

/-- The node `d` takes the place of `c` between `a` and `b`. -/
theorem replace_eq {d : Addr} (hd : (m.cell d).isSome) (hac : Joined m.links a c) (hcb : Joined m.links c b)
    (hne : c ≠ b) : m.replace c d = some { m with links := join (join m.links d b) a d } := by
  simp only [Memory.replace, nxt_eq, prv_eq, setNxt_eq, setPrv_eq, ha, hb, hc, hd, hac.2, hcb.1,
    bind_eq_bind, bind_some, update_of_ne hne]
  rfl

end Nodes

/-! ## The operations on a list -/

/-- A node is inserted after the nodes `ys`. -/
theorem insertAfter_spec (h : Holds m l (ys ++ zs)) (hn : n ∉ ys ++ zs) (hcell : (m.cell (node n)).isSome) :
    ∃ m', m.insertAfter (before l ys) (node n) = some m' ∧ Change m m' l (ys ++ zs) (ys ++ n :: zs) [n] := by
  have hempty : Holds m l (ys ++ [] ++ zs) := by rwa [append_nil]
  have hchange := put_change hempty hn hcell
  rw [append_nil] at hchange
  exact ⟨_, insertAfter_eq h.isSome_before h.isSome_behind hcell h.joined, hchange⟩

/-- A node is inserted before the nodes `zs`. -/
theorem insertBefore_spec (h : Holds m l (ys ++ zs)) (hn : n ∉ ys ++ zs) (hcell : (m.cell (node n)).isSome) :
    ∃ m', m.insertBefore (behind l zs) (node n) = some m' ∧ Change m m' l (ys ++ zs) (ys ++ n :: zs) [n] := by
  have hempty : Holds m l (ys ++ [] ++ zs) := by rwa [append_nil]
  have hchange := put_change hempty hn hcell
  rw [append_nil] at hchange
  have hbefore : before l ys ≠ node n := before_ne_node fun hmem => hn (mem_append_left _ hmem)
  have hbehind : behind l zs ≠ node n := behind_ne_node fun hmem => hn (mem_append_right _ hmem)
  exact ⟨_, insertBefore_eq h.isSome_before h.isSome_behind hcell h.joined hbefore hbehind.symm, hchange⟩

/-- The node `p` is one of no other position. -/
theorem Holds.not_mem (h : Holds m l (ys ++ p :: zs)) : p ∉ ys ∧ p ∉ zs := by
  have hnodup := h.nodup
  rw [nodup_middle, nodup_cons, mem_append, not_or] at hnodup
  exact hnodup.1

/-- A node takes the place of the node `p`. -/
theorem replace_spec (h : Holds m l (ys ++ p :: zs)) (hn : n ∉ ys ++ zs) (hcell : (m.cell (node n)).isSome) :
    ∃ m', m.replace (node p) (node n) = some m' ∧ Change m m' l (ys ++ p :: zs) (ys ++ n :: zs) [n] := by
  have hone : Holds m l (ys ++ [p] ++ zs) := by rwa [append_assoc]
  have hchange := put_change hone hn hcell
  rw [append_assoc] at hchange
  obtain ⟨hprev, hnext⟩ := h.joined_node
  have hp : (m.cell (node p)).isSome := h.cell p (by simp)
  have hbehind : behind l zs ≠ node p := behind_ne_node h.not_mem.2
  refine ⟨_, replace_eq h.isSome_before ?_ hp hcell hprev hnext hbehind.symm, hchange⟩
  exact hone.isSome_behind

/-- The node `p` is taken out. -/
theorem remove_spec (h : Holds m l (ys ++ p :: zs)) :
    ∃ m', m.remove (node p) = some m' ∧ Change m m' l (ys ++ p :: zs) (ys ++ zs) [] := by
  have hone : Holds m l (ys ++ [p] ++ zs) := by rwa [append_assoc]
  have hchange := erase_change hone
  rw [append_assoc] at hchange
  obtain ⟨hprev, hnext⟩ := h.joined_node
  have hp : (m.cell (node p)).isSome := h.cell p (by simp)
  have hbefore : before l ys ≠ node p := before_ne_node h.not_mem.1
  exact ⟨_, remove_eq h.isSome_before hone.isSome_behind hp hprev hnext hbefore.symm, hchange⟩

theorem removeNext_spec (h : Holds m l (ys ++ p :: zs)) :
    ∃ m', m.removeNext (before l ys) = some m' ∧ Change m m' l (ys ++ p :: zs) (ys ++ zs) [] := by
  obtain ⟨m', hremove, hchange⟩ := remove_spec h
  obtain ⟨hprev, hnext⟩ := h.joined_node
  have hp : (m.cell (node p)).isSome := h.cell p (by simp)
  refine ⟨m', ?_, hchange⟩
  simp only [Memory.removeNext, Memory.atEnd, nxt_eq h.isSome_before, hprev.1, nxt_eq hp, hnext.1, hremove,
    bind_eq_bind, bind_some, map_some, isNone_some, Bool.false_eq_true, if_false]

theorem removePrevious_spec (h : Holds m l (ys ++ p :: zs)) :
    ∃ m', m.removePrevious (behind l zs) = some m' ∧ Change m m' l (ys ++ p :: zs) (ys ++ zs) [] := by
  have hone : Holds m l (ys ++ [p] ++ zs) := by rwa [append_assoc]
  obtain ⟨m', hremove, hchange⟩ := remove_spec h
  obtain ⟨hprev, hnext⟩ := h.joined_node
  have hp : (m.cell (node p)).isSome := h.cell p (by simp)
  refine ⟨m', ?_, hchange⟩
  simp only [Memory.removePrevious, Memory.atBegin, prv_eq hone.isSome_behind, hnext.2, prv_eq hp, hprev.2, hremove,
    bind_eq_bind, bind_some, map_some, isNone_some, Bool.false_eq_true, if_false]

theorem first_eq (h : Holds m l xs) : m.first l = some (some (behind l xs)) := by
  have hjoined : Joined m.links (before l []) (behind l xs) := Holds.joined h
  rw [Memory.first, nxt_eq (isSome_of_eq_some h.cell_hd)]
  exact congrArg some hjoined.1

theorem last_eq (h : Holds m l xs) : m.last l = some (some (before l xs)) := by
  have happ : Holds m l (xs ++ []) := by rwa [append_nil]
  rw [Memory.last, prv_eq (isSome_of_eq_some h.cell_tl)]
  exact congrArg some happ.joined.2

theorem isEmpty_eq (h : Holds m l xs) : m.isEmpty l = some xs.isEmpty := by
  rw [Memory.isEmpty, first_eq h]
  cases xs with
  | nil => simp
  | cons x xs => simp

theorem addFirst_spec (h : Holds m l xs) (hn : n ∉ xs) (hcell : (m.cell (node n)).isSome) :
    ∃ m', m.addFirst l (node n) = some m' ∧ Change m m' l xs (n :: xs) [n] :=
  @insertAfter_spec T m l n [] xs h hn hcell

theorem addLast_spec (h : Holds m l xs) (hn : n ∉ xs) (hcell : (m.cell (node n)).isSome) :
    ∃ m', m.addLast l (node n) = some m' ∧ Change m m' l xs (xs ++ [n]) [n] := by
  have happ : Holds m l (xs ++ []) := by rwa [append_nil]
  have hspec := insertBefore_spec happ (by rwa [append_nil]) hcell
  rwa [append_nil] at hspec

theorem removeFirst_spec (h : Holds m l (p :: xs)) :
    ∃ m', m.removeFirst l = some m' ∧ Change m m' l (p :: xs) xs [] := by
  obtain ⟨m', hremove, hchange⟩ := @removeNext_spec T m l p [] xs h
  refine ⟨m', ?_, hchange⟩
  rw [before_nil] at hremove
  simp only [Memory.removeFirst, isEmpty_eq h, hremove, isEmpty_cons, bind_eq_bind, bind_some,
    Bool.false_eq_true, if_false]

theorem removeLast_spec (h : Holds m l (xs ++ [p])) :
    ∃ m', m.removeLast l = some m' ∧ Change m m' l (xs ++ [p]) xs [] := by
  obtain ⟨m', hremove, hchange⟩ := removePrevious_spec h
  rw [append_nil] at hchange
  refine ⟨m', ?_, hchange⟩
  rw [behind_nil] at hremove
  have hne : (xs ++ [p]).isEmpty = false := by simp
  simp only [Memory.removeLast, isEmpty_eq h, hremove, hne, bind_eq_bind, bind_some,
    Bool.false_eq_true, if_false]

/-! ## Iteration -/

/-- The addresses and the values of nodes. -/
def cells (m : Memory T) (xs : List Nat) : List (Addr × Option T) := xs.map fun n => (node n, (m.cell (node n)).join)

theorem map_fst_cells (m : Memory T) (xs : List Nat) : (cells m xs).map Prod.fst = xs.map node := by
  simp [cells, comp_def]

theorem reads_nxt (h : Holds m l (ys ++ zs)) : Reads m.readNxt (tl l) (cells m zs) := by
  induction zs generalizing ys with
  | nil => exact ⟨none, by rw [Memory.readNxt, h.cell_tl, map_some, h.nxt_tl]⟩
  | cons z zs ih =>
    have happ : Holds m l ((ys ++ [z]) ++ zs) := by simpa using h
    obtain ⟨v, hv⟩ := isSome_iff_exists.mp (h.cell z (by simp))
    refine ⟨?_, ih happ⟩
    change _ = some (some (((cells m zs).map Prod.fst).headD (tl l)), (m.cell (node z)).join)
    rw [Memory.readNxt, hv, map_some, h.joined_node.2.1, map_fst_cells]
    rfl

theorem before_reverse (l : Nat) (xs : List Nat) : before l xs.reverse = (xs.map node).headD (hd l) := by
  rw [before, map_reverse, getLastD_eq_getLast?, getLast?_reverse, headD_eq_head?_getD]

theorem reads_prv (h : Holds m l (ys.reverse ++ zs)) : Reads m.readPrv (hd l) (cells m ys) := by
  induction ys generalizing zs with
  | nil => exact ⟨none, by rw [Memory.readPrv, h.cell_hd, map_some, h.prv_hd]⟩
  | cons y ys ih =>
    have happ : Holds m l (ys.reverse ++ y :: zs) := by simpa using h
    obtain ⟨v, hv⟩ := isSome_iff_exists.mp (happ.cell y (by simp))
    refine ⟨?_, ih happ⟩
    change _ = some (some (((cells m ys).map Prod.fst).headD (hd l)), (m.cell (node y)).join)
    rw [Memory.readPrv, hv, map_some, happ.joined_node.1.2, map_fst_cells, before_reverse]
    rfl

theorem visit_collect {V : Type} (last : Addr) (xs seen : List (Addr × V)) :
    visit (fun seen a v => .inl (seen ++ [(a, v)])) (fun seen _ => seen) last xs seen = seen ++ xs := by
  induction xs generalizing seen with
  | nil => simp [visit]
  | cons x xs ih => simp [visit, ih]

/-- The forward iteration goes through the nodes. -/
theorem forward_eq (h : Holds m l xs) {fuel : Nat} (hfuel : xs.length < fuel) :
    m.forward fuel l = some (cells m xs) := by
  have hreads : Reads m.readNxt (tl l) (cells m xs) := @reads_nxt T m l [] xs h
  have hwalk := walk_eq hreads (fun seen a v => .inl (seen ++ [(a, v)])) (fun seen _ => seen)
    (by simpa [cells] using hfuel) []
  rw [map_fst_cells, visit_collect, nil_append] at hwalk
  rw [Memory.forward, first_eq h]
  exact hwalk

/-- The backward iteration goes through the nodes in the reverse order. -/
theorem backward_eq (h : Holds m l xs) {fuel : Nat} (hfuel : xs.length < fuel) :
    m.backward fuel l = some (cells m xs.reverse) := by
  have happ : Holds m l (xs.reverse.reverse ++ []) := by simpa using h
  have hwalk := walk_eq (reads_prv happ) (fun seen a v => .inl (seen ++ [(a, v)])) (fun seen _ => seen)
    (by simpa [cells] using hfuel) []
  rw [map_fst_cells, visit_collect, nil_append, ← before_reverse, reverse_reverse] at hwalk
  rw [Memory.backward, last_eq h]
  exact hwalk

theorem countLoop_eq (h : Holds m l (ys ++ zs)) {fuel : Nat} (hfuel : zs.length < fuel) (cnt : Nat) :
    m.countLoop l fuel (behind l zs) cnt = some (cnt + zs.length) := by
  induction zs generalizing ys fuel cnt with
  | nil =>
    cases fuel with
    | zero => exact absurd hfuel (Nat.not_lt_zero _)
    | succ fuel =>
      rw [behind_nil, Memory.countLoop, if_pos rfl]
      rfl
  | cons z zs ih =>
    have happ : Holds m l ((ys ++ [z]) ++ zs) := by simpa using h
    have hne : node z ≠ tl l := fun heq => nomatch heq
    cases fuel with
    | zero => exact absurd hfuel (Nat.not_lt_zero _)
    | succ fuel =>
      rw [behind_cons, Memory.countLoop, if_neg hne, nxt_eq (h.cell z (by simp)), h.joined_node.2.1]
      simp only [bind_eq_bind, bind_some]
      rw [ih happ (Nat.lt_of_succ_lt_succ hfuel), length_cons]
      congr 1
      omega

theorem count_eq (h : Holds m l xs) {fuel : Nat} (hfuel : xs.length < fuel) :
    m.count fuel l = some xs.length := by
  have hloop := @countLoop_eq T m l [] xs h fuel hfuel 0
  rw [Nat.zero_add] at hloop
  rw [Memory.count, first_eq h]
  exact hloop

/-! ## Lists beside each other -/

/-- Only the pointers and the cells of the list matter. -/
theorem Holds.congr (h : Holds m l xs)
    (hlinks : ∀ a ∈ path l xs, m'.links.nxt a = m.links.nxt a ∧ m'.links.prv a = m.links.prv a)
    (hcell : ∀ a ∈ path l xs, m'.cell a = m.cell a) : Holds m' l xs := by
  have hhd : hd l ∈ path l xs := mem_path.mpr (Or.inl rfl)
  have htl : tl l ∈ path l xs := mem_path.mpr (Or.inr (Or.inr rfl))
  refine ⟨h.linked.congr ?_ ?_, h.nodup, ?_, ?_, ?_, ?_, fun n hn => ?_⟩
  · exact fun a ha => (hlinks a (mem_of_mem_dropLast ha)).1
  · exact fun a ha => (hlinks a (mem_of_mem_tail ha)).2
  · rw [(hlinks _ htl).1, h.nxt_tl]
  · rw [(hlinks _ hhd).2, h.prv_hd]
  · rw [hcell _ hhd, h.cell_hd]
  · rw [hcell _ htl, h.cell_tl]
  · rw [hcell _ (mem_path.mpr (Or.inr (Or.inl ⟨n, hn, rfl⟩)))]
    exact h.cell n hn

/-- Another list is left as it is. -/
theorem Change.other {xs' ns : List Nat} (h : Change m m' l xs xs' ns) (hother : Holds m l' zs) (hne : l' ≠ l)
    (hdisj : ∀ n ∈ zs, n ∉ xs ++ ns) : Holds m' l' zs := by
  refine hother.congr (fun a ha => h.frame a fun hmem => ?_) fun a _ => congrFun h.cell a
  rcases mem_path.mp ha with rfl | ⟨n, hn, rfl⟩ | rfl
  · simp [mem_path, hne] at hmem
  · rcases mem_path.mp hmem with heq | ⟨k, hk, heq⟩ | heq
    · cases heq
    · exact hdisj n hn (Addr.node.inj heq ▸ hk)
    · cases heq
  · simp [mem_path, hne] at hmem

/-! ## Runs -/

variable {spec spec' : List (List Nat)} {t t' : State T}

/-- The list `l` is the mathematical list `xs`. -/
structure Agrees (m : Memory T) (l : Nat) (xs : List Nat) : Prop where
  linked : Linked m.links (path l xs)
  atBegin : m.atBegin (hd l) = some true
  atEnd : m.atEnd (tl l) = some true
  first : m.first l = some (some (behind l xs))
  last : m.last l = some (some (before l xs))
  isEmpty : m.isEmpty l = some xs.isEmpty
  count : ∀ fuel, xs.length < fuel → m.count fuel l = some xs.length
  forward : ∀ fuel, xs.length < fuel → (m.forward fuel l).map (List.map Prod.fst) = some (xs.map node)
  backward : ∀ fuel, xs.length < fuel → (m.backward fuel l).map (List.map Prod.fst) = some (xs.reverse.map node)

theorem Holds.agrees (h : Holds m l xs) : Agrees m l xs := by
  refine ⟨h.linked, ?_, ?_, first_eq h, last_eq h, isEmpty_eq h, fun fuel hfuel => count_eq h hfuel,
    fun fuel hfuel => ?_, fun fuel hfuel => ?_⟩
  · rw [Memory.atBegin, prv_eq (isSome_of_eq_some h.cell_hd), h.prv_hd]
    rfl
  · rw [Memory.atEnd, nxt_eq (isSome_of_eq_some h.cell_tl), h.nxt_tl]
    rfl
  · rw [forward_eq h hfuel, map_some, map_fst_cells]
  · rw [backward_eq h hfuel, map_some, map_fst_cells]

/-- All the lists, which have no common node. -/
structure Inv (spec : List (List Nat)) (t : State T) : Prop where
  lists : t.lists = spec.length
  holds : ∀ l xs, spec[l]? = some xs → Holds t.mem l xs
  disj : ∀ (i j : Nat) (xs ys : List Nat), i ≠ j → spec[i]? = some xs → spec[j]? = some ys → xs.Disjoint ys
  cell : ∀ n, (t.mem.cell (node n)).isSome

/-- The nodes before and after a node. -/
theorem exists_position (hp : p ∈ xs) : ∃ ys zs, xs = ys ++ p :: zs ∧ xs.idxOf p = ys.length := by
  obtain ⟨ys, zs, rfl, hnot⟩ := eq_append_cons_of_mem hp
  refine ⟨ys, zs, rfl, ?_⟩
  rw [idxOf_append_of_notMem hnot, idxOf_cons_self]
  rfl

theorem insertIdx_succ (ys zs : List Nat) (p n : Nat) :
    (ys ++ p :: zs).insertIdx (ys.length + 1) n = ys ++ p :: n :: zs := by
  have hins := Chain.insertIdx_append (ys ++ [p]) zs n
  simpa using hins

/-- What an operation does to its list. -/
theorem act_spec (h : Holds m l xs) (hcell : ∀ n, (m.cell (node n)).isSome) (hmem : xs ∈ spec) {act : Act}
    (hact : act.apply spec xs = some ys) :
    ∃ m' ns, act.perform m l = some m' ∧ Change m m' l xs ys ns ∧ ∀ n ∈ ns, ∀ zs ∈ spec, n ∉ zs := by
  have hnone : ∀ n ∈ ([] : List Nat), ∀ zs ∈ spec, n ∉ zs := fun n hn => (not_mem_nil hn).elim
  have hone : ∀ {n}, (∀ zs ∈ spec, n ∉ zs) → ∀ k ∈ [n], ∀ zs ∈ spec, k ∉ zs := by
    intro n hn k hk
    obtain rfl := mem_singleton.mp hk
    exact hn
  cases act with
  | addFirst n =>
    obtain ⟨hn, hact⟩ := ite_none_right_eq_some.mp hact
    obtain rfl := some.inj hact
    obtain ⟨m', hm', hchange⟩ := addFirst_spec h (hn xs hmem) (hcell n)
    exact ⟨m', [n], hm', hchange, hone hn⟩
  | addLast n =>
    obtain ⟨hn, hact⟩ := ite_none_right_eq_some.mp hact
    obtain rfl := some.inj hact
    obtain ⟨m', hm', hchange⟩ := addLast_spec h (hn xs hmem) (hcell n)
    exact ⟨m', [n], hm', hchange, hone hn⟩
  | removeFirst =>
    obtain ⟨hne, hact⟩ := ite_none_left_eq_some.mp hact
    obtain rfl := some.inj hact
    cases xs with
    | nil => exact absurd rfl hne
    | cons x xs =>
      obtain ⟨m', hm', hchange⟩ := removeFirst_spec h
      exact ⟨m', [], hm', hchange, hnone⟩
  | removeLast =>
    obtain ⟨hne, hact⟩ := ite_none_left_eq_some.mp hact
    obtain rfl := some.inj hact
    rcases eq_nil_or_concat xs with rfl | ⟨xs, x, rfl⟩
    · exact absurd rfl hne
    · rw [concat_eq_append] at h ⊢
      obtain ⟨m', hm', hchange⟩ := removeLast_spec h
      rw [dropLast_concat]
      exact ⟨m', [], hm', hchange, hnone⟩
  | insertAfter p n =>
    obtain ⟨⟨hp, hn⟩, hact⟩ := ite_none_right_eq_some.mp hact
    obtain rfl := some.inj hact
    obtain ⟨ys, zs, rfl, hidx⟩ := exists_position hp
    rw [hidx, insertIdx_succ]
    have happ : ys ++ p :: zs = (ys ++ [p]) ++ zs := by simp
    have hnot := hn _ hmem
    rw [happ] at h hnot
    obtain ⟨m', hm', hchange⟩ := insertAfter_spec h hnot (hcell n)
    rw [before_concat] at hm'
    rw [append_assoc, append_assoc] at hchange
    exact ⟨m', [n], hm', hchange, hone hn⟩
  | insertBefore p n =>
    obtain ⟨⟨hp, hn⟩, hact⟩ := ite_none_right_eq_some.mp hact
    obtain rfl := some.inj hact
    obtain ⟨ys, zs, rfl, hidx⟩ := exists_position hp
    rw [hidx, Chain.insertIdx_append]
    obtain ⟨m', hm', hchange⟩ := insertBefore_spec h (hn _ hmem) (hcell n)
    exact ⟨m', [n], hm', hchange, hone hn⟩
  | replace p n =>
    obtain ⟨⟨hp, hn⟩, hact⟩ := ite_none_right_eq_some.mp hact
    obtain rfl := some.inj hact
    obtain ⟨ys, zs, rfl, hidx⟩ := exists_position hp
    have hnot : n ∉ ys ++ zs := by
      have hall := hn _ hmem
      rw [mem_append, mem_cons] at hall
      rw [mem_append]
      tauto
    have hset : (ys ++ p :: zs).set ys.length n = ys ++ n :: zs := by simp
    rw [hidx, hset]
    obtain ⟨m', hm', hchange⟩ := replace_spec h hnot (hcell n)
    exact ⟨m', [n], hm', hchange, hone hn⟩
  | remove p =>
    obtain ⟨hp, hact⟩ := ite_none_right_eq_some.mp hact
    obtain rfl := some.inj hact
    obtain ⟨ys, zs, rfl, hidx⟩ := exists_position hp
    rw [hidx, Chain.eraseIdx_append]
    obtain ⟨m', hm', hchange⟩ := remove_spec h
    exact ⟨m', [], hm', hchange, hnone⟩
  | removeNext p =>
    obtain ⟨⟨hp, hlt⟩, hact⟩ := ite_none_right_eq_some.mp hact
    obtain rfl := some.inj hact
    obtain ⟨ys, zs, rfl, hidx⟩ := exists_position hp
    rw [hidx] at hlt ⊢
    cases zs with
    | nil => simp at hlt
    | cons q zs =>
      have happ : ys ++ p :: q :: zs = (ys ++ [p]) ++ q :: zs := by simp
      rw [happ] at h ⊢
      obtain ⟨m', hm', hchange⟩ := removeNext_spec h
      rw [before_concat] at hm'
      have herase := Chain.eraseIdx_append (ys ++ [p]) zs q
      rw [length_append, length_singleton] at herase
      rw [herase]
      exact ⟨m', [], hm', hchange, hnone⟩
  | removePrevious p =>
    obtain ⟨⟨hp, hlt⟩, hact⟩ := ite_none_right_eq_some.mp hact
    obtain rfl := some.inj hact
    obtain ⟨ys, zs, rfl, hidx⟩ := exists_position hp
    rw [hidx] at hlt ⊢
    rcases eq_nil_or_concat ys with rfl | ⟨ys, q, rfl⟩
    · simp at hlt
    · have happ : ys.concat q ++ p :: zs = ys ++ q :: p :: zs := by simp
      rw [happ] at h ⊢
      obtain ⟨m', hm', hchange⟩ := removePrevious_spec h
      rw [length_concat, Nat.add_sub_cancel, Chain.eraseIdx_append]
      exact ⟨m', [], hm', hchange, hnone⟩

/-- A list is changed. -/
theorem Inv.put (h : Inv spec t) {ns : List Nat} (hxs : spec[l]? = some xs) (hchange : Change t.mem m l xs ys ns)
    (hfresh : ∀ n ∈ ns, ∀ zs ∈ spec, n ∉ zs) : Inv (spec.set l ys) { t with mem := m } := by
  obtain ⟨hlt, -⟩ := List.getElem?_eq_some_iff.mp hxs
  have hdisj : ∀ l' zs, l' ≠ l → spec[l']? = some zs → ∀ n ∈ zs, n ∉ xs ++ ns := by
    intro l' zs hne hzs n hn hmem
    rcases mem_append.mp hmem with hmem | hmem
    · exact h.disj l' l zs xs hne hzs hxs hn hmem
    · exact hfresh n hmem zs (mem_of_getElem? hzs) hn
  have hnew : ∀ l' zs, l' ≠ l → spec[l']? = some zs → zs.Disjoint ys :=
    fun l' zs hne hzs n hn hmem => hdisj l' zs hne hzs n hn (hchange.nodes hmem)
  refine ⟨?_, fun l' zs hzs => ?_, fun i j zs ws hij hzs hws => ?_, fun n => ?_⟩
  · rw [length_set]
    exact h.lists
  · by_cases hl : l' = l
    · subst hl
      rw [getElem?_set_self hlt] at hzs
      obtain rfl := some.inj hzs
      exact hchange.holds
    · rw [getElem?_set_ne (Ne.symm hl)] at hzs
      exact hchange.other (h.holds l' zs hzs) hl (hdisj l' zs hl hzs)
  · by_cases hi : i = l
    · subst hi
      rw [getElem?_set_self hlt] at hzs
      rw [getElem?_set_ne hij] at hws
      obtain rfl := some.inj hzs
      exact (hnew j ws hij.symm hws).symm
    · rw [getElem?_set_ne (Ne.symm hi)] at hzs
      by_cases hj : j = l
      · subst hj
        rw [getElem?_set_self hlt] at hws
        obtain rfl := some.inj hws
        exact hnew i zs hi hzs
      · rw [getElem?_set_ne (Ne.symm hj)] at hws
        exact h.disj i j zs ws hij hzs hws
  · change (m.cell (node n)).isSome
    rw [hchange.cell]
    exact h.cell n

/-- The list `l` is made empty. -/
def emptied (m : Memory T) (l : Nat) : Memory T :=
  { m with
    links :=
      { nxt := update (update m.links.nxt (hd l) (some (tl l))) (tl l) none
        prv := update (update m.links.prv (hd l) none) (tl l) (some (hd l)) } }

theorem construct_eq (hhd : (m.cell (hd l)).isSome) (htl : (m.cell (tl l)).isSome) :
    m.construct l = some (emptied m l) := by
  simp only [Memory.construct, setNxt_eq, setPrv_eq, hhd, htl, bind_eq_bind, bind_some]
  rfl

/-- The copy of an empty list. -/
theorem constructCopy_nil (h : Holds m l' []) (hhd : (m.cell (hd l)).isSome)
    (htl : (m.cell (tl l)).isSome) : m.constructCopy l l' = some (emptied m l) := by
  have hcell : (m.cell (hd l')).isSome := isSome_of_eq_some h.cell_hd
  have hjoined : Joined m.links (before l' []) (behind l' []) := Holds.joined h
  have hcomm : ∀ k, hd k ≠ tl l := fun k heq => nomatch heq
  have hnxt : update m.links.nxt (tl l) none (hd l') = some (tl l') :=
    (update_of_ne (hcomm l') _ _).trans hjoined.1
  simp only [Memory.constructCopy, Memory.isEmpty, Memory.first, nxt_eq, setNxt_eq, setPrv_eq, hhd, htl, hcell, hnxt,
    bind_eq_bind, bind_some, map_some, decide_true, if_true]
  rw [emptied, update_comm (hcomm l), update_comm (hcomm l)]

/-- The copy of a list that has nodes leaves the copied list without first node. -/
theorem constructCopy_cons (h : Holds m l' (p :: xs)) (hne : l' ≠ l) (hhd : (m.cell (hd l)).isSome)
    (htl : (m.cell (tl l)).isSome) (hcopy : m.constructCopy l l' = some m') : m'.links.nxt (hd l') = none := by
  have hjoined : Joined m.links (before l' []) (behind l' (p :: xs)) := Holds.joined h
  obtain ⟨q, hq, hlast⟩ : ∃ q ∈ p :: xs, m.links.prv (tl l') = some (node q) := by
    have happ : Holds m l' ((p :: xs) ++ []) := by rwa [append_nil]
    rcases eq_nil_or_concat (p :: xs) with hnil | ⟨ys, q, hlast⟩
    · cases hnil
    · have hprv := happ.joined.2
      rw [hlast, concat_eq_append, before_concat] at hprv
      exact ⟨q, by rw [hlast]; simp, hprv⟩
  have hfirst : m.links.nxt (hd l') = some (node p) := hjoined.1
  have hhd' : (m.cell (hd l')).isSome := isSome_of_eq_some h.cell_hd
  have htl' : (m.cell (tl l')).isSome := isSome_of_eq_some h.cell_tl
  have hp : (m.cell (node p)).isSome := h.cell p (by simp)
  have hcellq : (m.cell (node q)).isSome := h.cell q hq
  simp [Memory.constructCopy, Memory.isEmpty, Memory.first, nxt_eq, prv_eq, setNxt_eq, setPrv_eq, hhd, htl, hhd', htl',
    hp, hcellq, hfirst, hlast, hne.symm] at hcopy
  rw [← hcopy]
  simp

/-- The list `l` is a new empty list. -/
theorem emptied_holds (hhd : m.cell (hd l) = some none) (htl : m.cell (tl l) = some none) :
    Holds (emptied m l) l [] := by
  have hjoined : Joined (emptied m l).links (hd l) (tl l) := ⟨by simp [emptied], by simp [emptied]⟩
  refine ⟨linked_cons_cons.mpr ⟨hjoined, linked_singleton _⟩, nodup_nil, ?_, ?_, hhd, htl, fun n hn => ?_⟩
  · simp [emptied]
  · simp [emptied]
  · exact (not_mem_nil hn).elim

theorem declare_hd (t : State T) : t.declare.cell (hd t.lists) = some none := by
  simp [State.declare]

theorem declare_tl (t : State T) : t.declare.cell (tl t.lists) = some none := update_self ..

/-- The markers of a new list do not touch another list. -/
theorem declare_holds (h : Holds t.mem l xs) (hne : l ≠ t.lists) : Holds t.declare l xs := by
  refine h.congr (fun _ _ => ⟨rfl, rfl⟩) fun a ha => ?_
  have hhd : a ≠ hd t.lists := by
    rintro rfl
    simp [mem_path, Ne.symm hne] at ha
  have htl : a ≠ tl t.lists := by
    rintro rfl
    simp [mem_path, Ne.symm hne] at ha
  exact (update_of_ne htl _ _).trans (update_of_ne hhd _ _)

theorem emptied_other (h : Holds m l' xs) (hne : l' ≠ l) : Holds (emptied m l) l' xs := by
  refine h.congr (fun a ha => ?_) fun _ _ => rfl
  have hhd : a ≠ hd l := by
    rintro rfl
    simp [mem_path, hne.symm] at ha
  have htl : a ≠ tl l := by
    rintro rfl
    simp [mem_path, hne.symm] at ha
  refine ⟨?_, ?_⟩
  · exact (update_of_ne htl _ _).trans (update_of_ne hhd _ _)
  · exact (update_of_ne htl _ _).trans (update_of_ne hhd _ _)

/-- A new empty list. -/
theorem Inv.grow (h : Inv spec t) : Inv (spec ++ [[]]) ⟨emptied t.declare t.lists, t.lists + 1⟩ := by
  have hcases : ∀ {l : Nat} {xs : List Nat}, (spec ++ [[]])[l]? = some xs →
      (l ≠ t.lists ∧ spec[l]? = some xs) ∨ (l = t.lists ∧ xs = []) := by
    intro l xs hxs
    rw [h.lists]
    rcases Nat.lt_trichotomy l spec.length with hlt | rfl | hgt
    · rw [getElem?_append_left hlt] at hxs
      exact Or.inl ⟨hlt.ne, hxs⟩
    · rw [getElem?_concat_length] at hxs
      exact Or.inr ⟨rfl, (some.inj hxs).symm⟩
    · rw [getElem?_eq_none (by simpa using hgt)] at hxs
      cases hxs
  refine ⟨by simpa using h.lists, fun l xs hxs => ?_, fun i j xs ys hij hxs hys => ?_, fun n => ?_⟩
  · rcases hcases hxs with ⟨hne, hxs⟩ | ⟨rfl, rfl⟩
    · exact emptied_other (declare_holds (h.holds l xs hxs) hne) hne
    · exact emptied_holds (declare_hd t) (declare_tl t)
  · rcases hcases hxs with ⟨hi, hxs⟩ | ⟨hi, rfl⟩
    · rcases hcases hys with ⟨hj, hys⟩ | ⟨hj, rfl⟩
      · exact h.disj i j xs ys hij hxs hys
      · exact disjoint_nil_right xs
    · exact disjoint_nil_left ys
  · change (t.declare.cell (node n)).isSome
    have hcell : t.declare.cell (node n) = t.mem.cell (node n) := by simp [State.declare]
    rw [hcell]
    exact h.cell n

theorem start_inv (garbage : Links Addr) : Inv [] (State.start garbage : State T) :=
  ⟨rfl, fun _ _ hxs => (nomatch hxs), fun _ _ _ _ _ hxs => (nomatch hxs), fun _ => rfl⟩

/-- One operation. -/
theorem step_inv (h : Inv spec t) {op : Op} (hop : specStep spec op = some spec') (hcopy : CopiesEmpty spec op) :
    ∃ t', t.step op = some t' ∧ Inv spec' t' := by
  have hhd : (t.declare.cell (hd t.lists)).isSome := isSome_of_eq_some (declare_hd t)
  have htl : (t.declare.cell (tl t.lists)).isSome := isSome_of_eq_some (declare_tl t)
  cases op with
  | make =>
    obtain rfl := some.inj hop
    exact ⟨_, by rw [State.step, construct_eq hhd htl, map_some], h.grow⟩
  | copy src =>
    change spec[src]? = some [] at hcopy
    obtain ⟨xs, hxs, rfl⟩ := map_eq_some_iff.mp hop
    obtain rfl := some.inj (hcopy.symm.trans hxs)
    obtain ⟨hlt, hget⟩ := List.getElem?_eq_some_iff.mp hxs
    have hne : src ≠ t.lists := by
      rw [h.lists]
      exact hlt.ne
    have hset : spec.set src [] = spec := by
      rw [← hget]
      exact set_getElem_self hlt
    rw [hset]
    have hsrc := declare_holds (h.holds src [] hxs) hne
    exact ⟨_, by rw [State.step, constructCopy_nil hsrc hhd htl, map_some], h.grow⟩
  | edit l act =>
    obtain ⟨xs, hxs, hmap⟩ := bind_eq_some_iff.mp hop
    obtain ⟨ys, hact, rfl⟩ := map_eq_some_iff.mp hmap
    obtain ⟨m, ns, hm, hchange, hfresh⟩ := act_spec (h.holds l xs hxs) h.cell (mem_of_getElem? hxs) hact
    exact ⟨_, by rw [State.step, hm, map_some], h.put hxs hchange hfresh⟩

/-- The copy of a list that has nodes. -/
theorem not_agrees_copy (h : Inv spec t) {op : Op} (hop : specStep spec op = some spec')
    (hcopy : ¬ CopiesEmpty spec op) (hstep : t.step op = some t') :
    ¬ ∀ (l : Nat) (xs : List Nat), spec'[l]? = some xs → Agrees t'.mem l xs := by
  cases op with
  | make => exact absurd trivial hcopy
  | edit l act => exact absurd trivial hcopy
  | copy src =>
    intro hall
    change ¬ spec[src]? = some [] at hcopy
    obtain ⟨xs, hxs, rfl⟩ := map_eq_some_iff.mp hop
    obtain ⟨m, hm, rfl⟩ := map_eq_some_iff.mp hstep
    obtain ⟨hlt, -⟩ := List.getElem?_eq_some_iff.mp hxs
    have hne : src ≠ t.lists := by
      rw [h.lists]
      exact hlt.ne
    cases xs with
    | nil => exact hcopy hxs
    | cons x xs =>
      have hhd : (t.declare.cell (hd t.lists)).isSome := isSome_of_eq_some (declare_hd t)
      have htl : (t.declare.cell (tl t.lists)).isSome := isSome_of_eq_some (declare_tl t)
      have hnone := constructCopy_cons (declare_holds (h.holds src _ hxs) hne) hne hhd htl hm
      have hget : (spec.set src [] ++ [x :: xs])[src]? = some [] := by
        rw [getElem?_append_left (by simpa using hlt), getElem?_set_self hlt]
      -- the copied list is not linked any more
      have hlinked := (hall src [] hget).linked
      have hjoined : Joined m.links (hd src) (tl src) := (linked_cons_cons.mp hlinked).1
      exact nomatch hnone.symm.trans hjoined.1

/-- In every run, the lists agree with the mathematical lists all along if and only if no list that has nodes is
copied. -/
theorem run_iff (garbage : Links Addr) {ops : List Op} (hops : Run.exec specStep [] ops = some spec) :
    (∀ k, ∃ t, Run.exec both ([], (State.start garbage : State T)) (ops.take k) = some t ∧
      ∀ (l : Nat) (xs : List Nat), t.1[l]? = some xs → Agrees t.2.mem l xs) ↔
    Run.Meets (fun t op => CopiesEmpty t.1 op) both ([], (State.start garbage : State T)) ops := by
  have hallowed := (Run.meets_isSome hops).beside State.step (State.start garbage : State T)
  refine (Run.meets_iff_forall_exists_exec (fun t => Inv t.1 t.2) _ ?_ ?_ ?_ ops _
    (start_inv garbage) hallowed).symm
  · exact fun t h l xs hxs => (h.holds l xs hxs).agrees
  · intro t op h hop hcopy
    obtain ⟨spec', hspec'⟩ := isSome_iff_exists.mp hop
    obtain ⟨t', ht', hinv⟩ := step_inv h hspec' hcopy
    exact ⟨(spec', t'), Run.beside_eq_some.mpr ⟨hspec', ht'⟩, hinv⟩
  · intro t op t' h _ hcopy hstep
    obtain ⟨hspec', ht'⟩ := Run.beside_eq_some.mp hstep
    exact not_agrees_copy h hspec' hcopy ht'

end Elm.Data.DLList
