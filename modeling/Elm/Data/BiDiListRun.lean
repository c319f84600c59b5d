import Elm.Data.BiDiList

/-!
# The operations of `BiDiList`

What an operation does to the nodes of its list, the other lists being left as they are.  In every run the lists of
`DLList` and of `BiDiList` agree with mathematical lists that undergo the same operations, exactly under the
conditions that are given for them.
-/

namespace Elm.Data.BiDiList

open DoubleChain Function List
open DLList (Addr Memory path before behind mem_path)
open DLList.Addr

variable {T : Type} {h h' h'' : Heap T} {l l' a b n : Nat} {v w : T} {cells cells' cells'' xs ys zs : List (Nat × T)}

/-! ## The nodes of a list -/

/-- The nodes of a list with their values; no node has been made after the last one. -/
structure Stores (h : Heap T) (l : Nat) (cells : List (Nat × T)) : Prop where
  holds : DLList.Holds h.mem l (cells.map Prod.fst)
  val : ∀ c ∈ cells, h.mem.cell (node c.1) = some (some c.2)
  fresh : ∀ n, h.next ≤ n → h.mem.cell (node n) = none

/-- An operation on a list: it leaves the other nodes, and adds new nodes only. -/
structure Edit (h h' : Heap T) (l : Nat) (cells cells' : List (Nat × T)) : Prop where
  stores : Stores h' l cells'
  frame : ∀ a, a ∉ path l (cells.map Prod.fst) → (∀ n, h.next ≤ n → a ≠ node n) →
    (h'.mem.links.nxt a = h.mem.links.nxt a ∧ h'.mem.links.prv a = h.mem.links.prv a) ∧ h'.mem.cell a = h.mem.cell a
  next : h.next ≤ h'.next
  nodes : ∀ n ∈ cells'.map Prod.fst, n ∈ cells.map Prod.fst ∨ h.next ≤ n

theorem Stores.lt_of_isSome (hs : Stores h l cells) (hn : (h.mem.cell (node n)).isSome) : n < h.next := by
  by_contra hge
  rw [hs.fresh n (Nat.le_of_not_lt hge)] at hn
  cases hn

theorem Stores.lt_of_mem (hs : Stores h l cells) (hn : n ∈ cells.map Prod.fst) : n < h.next :=
  hs.lt_of_isSome (hs.holds.cell n hn)

theorem Stores.next_not_mem (hs : Stores h l cells) : h.next ∉ cells.map Prod.fst :=
  fun hmem => absurd (hs.lt_of_mem hmem) (Nat.lt_irrefl _)

/-- A loop over the list ends. -/
theorem Stores.length_le (hs : Stores h l cells) : cells.length ≤ h.next := by
  have hsub : cells.map Prod.fst ⊆ List.range h.next := fun n hn => mem_range.mpr (hs.lt_of_mem hn)
  have hle := (hs.holds.nodup.subperm hsub).length_le
  rwa [length_map, length_range] at hle

theorem Stores.val_eq (hs : Stores h l (xs ++ (a, v) :: ys)) : h.val (node a) = some v := by
  rw [Heap.val, hs.val (a, v) (by simp)]
  rfl

theorem Edit.refl (hs : Stores h l cells) : Edit h h l cells cells :=
  ⟨hs, fun _ _ _ => ⟨⟨rfl, rfl⟩, rfl⟩, Nat.le_refl _, fun _ hn => Or.inl hn⟩

theorem Edit.trans (h₁ : Edit h h' l cells cells') (h₂ : Edit h' h'' l cells' cells'') :
    Edit h h'' l cells cells'' := by
  refine ⟨h₂.stores, fun a ha hnew => ?_, h₁.next.trans h₂.next, fun n hn => ?_⟩
  · have hnot : a ∉ path l (cells'.map Prod.fst) := by
      intro hmem
      rcases mem_path.mp hmem with rfl | ⟨n, hn, rfl⟩ | rfl
      · exact ha (mem_path.mpr (Or.inl rfl))
      · rcases h₁.nodes n hn with hin | hge
        · exact ha (mem_path.mpr (Or.inr (Or.inl ⟨n, hin, rfl⟩)))
        · exact hnew n hge rfl
      · exact ha (mem_path.mpr (Or.inr (Or.inr rfl)))
    have hfirst := h₁.frame a ha hnew
    have hsecond := h₂.frame a hnot fun n hge => hnew n (h₁.next.trans hge)
    exact ⟨⟨hsecond.1.1.trans hfirst.1.1, hsecond.1.2.trans hfirst.1.2⟩, hsecond.2.trans hfirst.2⟩
  · rcases h₂.nodes n hn with hin | hge
    · exact h₁.nodes n hin
    · exact Or.inr (h₁.next.trans hge)

/-- Another list of the same heap. -/
theorem Edit.other (hedit : Edit h h' l cells cells') (hs : Stores h l' xs) (hne : l' ≠ l)
    (hdisj : ∀ n ∈ xs.map Prod.fst, n ∉ cells.map Prod.fst) : Stores h' l' xs := by
  have hframe : ∀ a ∈ path l' (xs.map Prod.fst),
      (h'.mem.links.nxt a = h.mem.links.nxt a ∧ h'.mem.links.prv a = h.mem.links.prv a) ∧
        h'.mem.cell a = h.mem.cell a := by
    intro a ha
    refine hedit.frame a (fun hmem => ?_) fun n hge => ?_
    · rcases mem_path.mp ha with rfl | ⟨n, hn, rfl⟩ | rfl
      · simp [mem_path, hne] at hmem
      · rcases mem_path.mp hmem with heq | ⟨k, hk, heq⟩ | heq
        · cases heq
        · exact hdisj n hn (Addr.node.inj heq ▸ hk)
        · cases heq
      · simp [mem_path, hne] at hmem
    · rintro rfl
      rcases mem_path.mp ha with heq | ⟨k, hk, heq⟩ | heq
      · cases heq
      · obtain rfl := Addr.node.inj heq
        exact absurd (hs.lt_of_mem hk) (Nat.not_lt.mpr hge)
      · cases heq
  refine ⟨hs.holds.congr (fun a ha => (hframe a ha).1) fun a ha => (hframe a ha).2, fun c hc => ?_,
    hedit.stores.fresh⟩
  rw [(hframe _ (mem_path.mpr (Or.inr (Or.inl ⟨c.1, mem_map_of_mem hc, rfl⟩)))).2]
  exact hs.val c hc

/-! ## Nodes that are made and freed -/

/-- A node is made. -/
theorem new_stores (hs : Stores h l cells) (v : T) : Stores (h.new v) l cells := by
  have hkeep : ∀ a, a ≠ node h.next → (h.new v).mem.cell a = h.mem.cell a := fun a ha => update_of_ne ha _ _
  refine ⟨hs.holds.congr (fun _ _ => ⟨rfl, rfl⟩) fun a ha => hkeep a ?_, fun c hc => ?_, fun n hge => ?_⟩
  · rintro rfl
    rcases mem_path.mp ha with heq | ⟨k, hk, heq⟩ | heq
    · cases heq
    · obtain rfl := Addr.node.inj heq
      exact hs.next_not_mem hk
    · cases heq
  · rw [hkeep _ ?_]
    · exact hs.val c hc
    · rintro heq
      exact hs.next_not_mem (Addr.node.inj heq ▸ mem_map_of_mem hc)
  · change h.next + 1 ≤ n at hge
    rw [hkeep _ ?_]
    · exact hs.fresh n (by omega)
    · rintro heq
      have hn := Addr.node.inj heq
      omega

theorem new_cell (h : Heap T) (v : T) : (h.new v).mem.cell (node h.next) = some (some v) := update_self ..

/-- A node is made, then linked. -/
theorem link_edit (hs : Stores h l cells) {m : Memory T}
    (hchange : DLList.Change (h.new v).mem m l (cells.map Prod.fst) (cells'.map Prod.fst) [h.next])
    (hcells : ∀ c ∈ cells', c ∈ cells ∨ c = (h.next, v)) :
    Edit h { h.new v with mem := m } l cells cells' := by
  have hnew := new_stores hs v
  refine ⟨⟨hchange.holds, fun c hc => ?_, fun n hge => ?_⟩, fun a ha hold => ?_, Nat.le_succ _, fun n hn => ?_⟩
  · change m.cell (node c.1) = _
    rw [hchange.cell]
    rcases hcells c hc with hin | rfl
    · exact hnew.val c hin
    · exact new_cell h v
  · change m.cell (node n) = none
    rw [hchange.cell]
    exact hnew.fresh n hge
  · have hne : a ≠ node h.next := hold h.next (Nat.le_refl _)
    refine ⟨hchange.frame a fun hmem => ?_, ?_⟩
    · rcases mem_path.mp hmem with rfl | ⟨n, hn, rfl⟩ | rfl
      · exact ha (mem_path.mpr (Or.inl rfl))
      · rcases mem_append.mp hn with hn | hn
        · exact ha (mem_path.mpr (Or.inr (Or.inl ⟨n, hn, rfl⟩)))
        · exact hne (mem_singleton.mp hn ▸ rfl)
      · exact ha (mem_path.mpr (Or.inr (Or.inr rfl)))
    · change m.cell a = _
      rw [hchange.cell]
      exact update_of_ne hne _ _
  · obtain ⟨c, hc, rfl⟩ := mem_map.mp hn
    rcases hcells c hc with hin | rfl
    · exact Or.inl (mem_map_of_mem hin)
    · exact Or.inr (Nat.le_refl _)

/-- A node is taken out. -/
theorem unlink_edit (hs : Stores h l cells) {m : Memory T}
    (hchange : DLList.Change h.mem m l (cells.map Prod.fst) (cells'.map Prod.fst) []) (hcells : cells' ⊆ cells) :
    Edit h { h with mem := m } l cells cells' := by
  refine ⟨⟨hchange.holds, fun c hc => ?_, fun n hge => ?_⟩, fun a ha _ => ⟨hchange.frame a ?_, ?_⟩, Nat.le_refl _,
    fun n hn => Or.inl (map_subset _ hcells hn)⟩
  · change m.cell (node c.1) = _
    rw [hchange.cell]
    exact hs.val c (hcells hc)
  · change m.cell (node n) = none
    rw [hchange.cell]
    exact hs.fresh n hge
  · rwa [append_nil]
  · exact congrFun hchange.cell a

/-- A node that the list does not have any more is freed. -/
theorem free_edit (hedit : Edit h h' l cells cells') (ha : a ∈ cells.map Prod.fst) (ha' : a ∉ cells'.map Prod.fst)
    (hcell : (h'.mem.cell (node a)).isSome) :
    ∃ h'', h'.free (node a) = some h'' ∧ Edit h h'' l cells cells' := by
  obtain ⟨c, hc⟩ := Option.isSome_iff_exists.mp hcell
  have hs := hedit.stores
  have hkeep : ∀ b, b ≠ node a → update h'.mem.cell (node a) none b = h'.mem.cell b :=
    fun b hb => update_of_ne hb _ _
  refine ⟨{ h' with mem := { h'.mem with cell := update h'.mem.cell (node a) none } }, ?_,
    ⟨⟨?_, fun c hc => ?_, fun n hge => ?_⟩, fun b hb hnew => ?_, hedit.next, hedit.nodes⟩⟩
  · rw [Heap.free, hc]
    rfl
  · refine hs.holds.congr (fun _ _ => ⟨rfl, rfl⟩) fun b hb => hkeep b ?_
    rintro rfl
    rcases mem_path.mp hb with heq | ⟨k, hk, heq⟩ | heq
    · cases heq
    · exact ha' (Addr.node.inj heq ▸ hk)
    · cases heq
  · refine (hkeep _ fun heq => ?_).trans (hs.val c hc)
    exact ha' (Addr.node.inj heq ▸ mem_map_of_mem hc)
  · by_cases hna : node n = node a
    · rw [hna]
      exact update_self ..
    · exact (hkeep _ hna).trans (hs.fresh n hge)
  · obtain ⟨hlinks, hsame⟩ := hedit.frame b hb hnew
    refine ⟨hlinks, (hkeep b ?_).trans hsame⟩
    rintro rfl
    exact hb (mem_path.mpr (Or.inr (Or.inl ⟨a, ha, rfl⟩)))

/-! ## The changes -/

theorem not_mem_of_nodup (hs : Stores h l (xs ++ (a, v) :: ys)) : a ∉ (xs ++ ys).map Prod.fst := by
  have hnodup := hs.holds.nodup
  rw [map_append, map_cons, nodup_middle, nodup_cons] at hnodup
  rw [map_append]
  exact hnodup.1

/-- A position is at the end of the list, or at a node. -/
theorem ended_eq (hs : Stores h l (xs ++ ys)) : h.ended (behind l (ys.map Prod.fst)) = some ys.isEmpty := by
  have hholds := hs.holds
  rw [map_append] at hholds
  cases ys with
  | nil =>
    have htl : h.mem.nxt (tl l) = some none := by
      rw [DLList.nxt_eq (Option.isSome_of_eq_some hholds.cell_tl), hholds.nxt_tl]
    change (h.mem.nxt (tl l)).map _ = _
    rw [htl]
    rfl
  | cons y ys =>
    have hnode : (h.mem.cell (node y.1)).isSome := hholds.cell y.1 (by simp)
    change (h.mem.nxt (node y.1)).map _ = _
    rw [map_cons] at hholds
    rw [DLList.nxt_eq hnode, hholds.joined_node.2.1]
    rfl

theorem addFirst_spec (hs : Stores h l cells) (v : T) :
    ∃ h', h.addFirst l v = some h' ∧ Edit h h' l cells ((h.next, v) :: cells) := by
  obtain ⟨m, hm, hchange⟩ := DLList.addFirst_spec (new_stores hs v).holds hs.next_not_mem
    (Option.isSome_of_eq_some (new_cell h v))
  refine ⟨{ h.new v with mem := m }, ?_, link_edit hs hchange fun c hc => (mem_cons.mp hc).symm⟩
  rw [Heap.addFirst, hm]
  rfl

theorem addLast_spec (hs : Stores h l cells) (v : T) :
    ∃ h', h.addLast l v = some h' ∧ Edit h h' l cells (cells ++ [(h.next, v)]) := by
  obtain ⟨m, hm, hchange⟩ := DLList.addLast_spec (new_stores hs v).holds hs.next_not_mem
    (Option.isSome_of_eq_some (new_cell h v))
  have hmap : cells.map Prod.fst ++ [h.next] = (cells ++ [(h.next, v)]).map Prod.fst := by simp
  rw [hmap] at hchange
  refine ⟨{ h.new v with mem := m }, ?_, link_edit hs hchange fun c hc => by simpa using hc⟩
  rw [Heap.addLast, hm]
  rfl

theorem addAfter_spec (hs : Stores h l (xs ++ (b, w) :: ys)) (v : T) :
    ∃ h', h.addAfter (node b) v = some h' ∧
      Edit h h' l (xs ++ (b, w) :: ys) (xs ++ (b, w) :: (h.next, v) :: ys) := by
  have hended : h.ended (node b) = some false := ended_eq hs
  have hholds := (new_stores hs v).holds
  have hfresh := hs.next_not_mem
  have hmap : (xs ++ (b, w) :: ys).map Prod.fst = (xs.map Prod.fst ++ [b]) ++ ys.map Prod.fst := by simp
  rw [hmap] at hholds hfresh
  obtain ⟨m, hm, hchange⟩ := DLList.insertAfter_spec hholds hfresh (Option.isSome_of_eq_some (new_cell h v))
  have hmap' : (xs.map Prod.fst ++ [b]) ++ h.next :: ys.map Prod.fst =
      (xs ++ (b, w) :: (h.next, v) :: ys).map Prod.fst := by simp
  rw [DLList.before_concat] at hm
  rw [← hmap, hmap'] at hchange
  refine ⟨{ h.new v with mem := m }, ?_, link_edit hs hchange fun c hc => ?_⟩
  · simp only [Heap.addAfter, hended, hm, Option.bind_eq_bind, Option.bind_some, Bool.false_eq_true, if_false]
    rfl
  · simp only [mem_append, mem_cons] at hc ⊢
    tauto

theorem addBefore_spec (hs : Stores h l (xs ++ (b, w) :: ys)) (v : T) :
    ∃ h', h.addBefore (node b) v = some h' ∧
      Edit h h' l (xs ++ (b, w) :: ys) (xs ++ (h.next, v) :: (b, w) :: ys) := by
  have hended : h.ended (node b) = some false := ended_eq hs
  have hholds := (new_stores hs v).holds
  have hfresh := hs.next_not_mem
  rw [map_append] at hholds hfresh
  obtain ⟨m, hm, hchange⟩ := DLList.insertBefore_spec hholds hfresh (Option.isSome_of_eq_some (new_cell h v))
  have hmap' : xs.map Prod.fst ++ h.next :: ((b, w) :: ys).map Prod.fst =
      (xs ++ (h.next, v) :: (b, w) :: ys).map Prod.fst := by simp
  rw [map_cons, DLList.behind_cons] at hm
  rw [← map_append, hmap'] at hchange
  refine ⟨{ h.new v with mem := m }, ?_, link_edit hs hchange fun c hc => ?_⟩
  · simp only [Heap.addBefore, hended, hm, Option.bind_eq_bind, Option.bind_some, Bool.false_eq_true, if_false]
    rfl
  · simp only [mem_append, mem_cons] at hc ⊢
    tauto

/-- A node is taken out, then freed. -/
theorem take_edit (hs : Stores h l (xs ++ (a, v) :: ys)) {m : Memory T}
    (hchange : DLList.Change h.mem m l ((xs ++ (a, v) :: ys).map Prod.fst) ((xs ++ ys).map Prod.fst) []) :
    ∃ h', Heap.free { h with mem := m } (node a) = some h' ∧ Edit h h' l (xs ++ (a, v) :: ys) (xs ++ ys) := by
  have hsub : xs ++ ys ⊆ xs ++ (a, v) :: ys := by
    intro c hc
    simp only [mem_append, mem_cons] at hc ⊢
    tauto
  refine free_edit (unlink_edit hs hchange hsub) (by simp) (not_mem_of_nodup hs) ?_
  change (m.cell (node a)).isSome
  rw [hchange.cell]
  exact Option.isSome_of_eq_some (hs.val (a, v) (by simp))

theorem removeFirst_spec (hs : Stores h l ((a, v) :: ys)) :
    ∃ h', h.removeFirst l = some h' ∧ Edit h h' l ((a, v) :: ys) ys := by
  have hholds : DLList.Holds h.mem l (a :: ys.map Prod.fst) := hs.holds
  obtain ⟨m, hm, hchange⟩ := DLList.removeFirst_spec hholds
  obtain ⟨h', hfree, hedit⟩ := @take_edit T h l a v [] ys hs m hchange
  refine ⟨h', ?_, hedit⟩
  rw [Heap.removeFirst, DLList.first_eq hholds, hm]
  exact hfree

theorem removeLast_spec (hs : Stores h l (xs ++ [(a, v)])) :
    ∃ h', h.removeLast l = some h' ∧ Edit h h' l (xs ++ [(a, v)]) xs := by
  have hholds := hs.holds
  rw [map_append, map_singleton] at hholds
  obtain ⟨m, hm, hchange⟩ := DLList.removeLast_spec hholds
  have hmap : xs.map Prod.fst ++ [a] = (xs ++ [(a, v)]).map Prod.fst := by simp
  have hnil : xs.map Prod.fst = (xs ++ []).map Prod.fst := by simp
  rw [hmap, hnil] at hchange
  obtain ⟨h', hfree, hedit⟩ := take_edit hs hchange
  rw [append_nil] at hedit
  refine ⟨h', ?_, hedit⟩
  rw [Heap.removeLast, DLList.last_eq hholds, hm, DLList.before_concat]
  exact hfree

/-- The node before a position goes. -/
theorem removeBefore_spec (hs : Stores h l (xs ++ (a, v) :: ys)) :
    ∃ h', h.removeBefore (behind l (ys.map Prod.fst)) = some h' ∧ Edit h h' l (xs ++ (a, v) :: ys) (xs ++ ys) := by
  have hholds := hs.holds
  rw [map_append, map_cons] at hholds
  obtain ⟨m, hm, hchange⟩ := DLList.removePrevious_spec hholds
  have hmap : xs.map Prod.fst ++ a :: ys.map Prod.fst = (xs ++ (a, v) :: ys).map Prod.fst := by simp
  rw [hmap, ← map_append] at hchange
  obtain ⟨h', hfree, hedit⟩ := take_edit hs hchange
  refine ⟨h', ?_, hedit⟩
  have hone : DLList.Holds h.mem l ((xs.map Prod.fst ++ [a]) ++ ys.map Prod.fst) := by simpa using hholds
  rw [Heap.removeBefore, DLList.prv_eq hone.isSome_behind, hholds.joined_node.2.2, hm]
  exact hfree

/-- The node after another one goes. -/
theorem removeAfter_spec (hs : Stores h l (xs ++ (b, w) :: (a, v) :: ys)) :
    ∃ h', h.removeAfter (node b) = some h' ∧
      Edit h h' l (xs ++ (b, w) :: (a, v) :: ys) (xs ++ (b, w) :: ys) := by
  have happ : xs ++ (b, w) :: (a, v) :: ys = (xs ++ [(b, w)]) ++ (a, v) :: ys := by simp
  have happ' : xs ++ (b, w) :: ys = (xs ++ [(b, w)]) ++ ys := by simp
  rw [happ] at hs
  have hholds := hs.holds
  have hmap : ((xs ++ [(b, w)]) ++ (a, v) :: ys).map Prod.fst =
      (xs.map Prod.fst ++ [b]) ++ a :: ys.map Prod.fst := by simp
  have hmap' : ((xs ++ [(b, w)]) ++ ys).map Prod.fst = (xs.map Prod.fst ++ [b]) ++ ys.map Prod.fst := by simp
  rw [hmap] at hholds
  obtain ⟨m, hm, hchange⟩ := DLList.removeNext_spec hholds
  rw [← hmap, ← hmap'] at hchange
  obtain ⟨h', hfree, hedit⟩ := take_edit hs hchange
  rw [← happ, ← happ'] at hedit
  refine ⟨h', ?_, hedit⟩
  have hnext := hholds.joined_node.1.1
  rw [DLList.before_concat] at hm hnext
  have hnode : (h.mem.cell (node b)).isSome := hholds.cell b (by simp)
  rw [Heap.removeAfter, DLList.nxt_eq hnode, hnext, hm]
  exact hfree

/-- The node at a position goes, and is not freed. -/
theorem remove_spec (hs : Stores h l (xs ++ (a, v) :: ys)) :
    ∃ h', h.remove (node a) = some h' ∧ Edit h h' l (xs ++ (a, v) :: ys) (xs ++ ys) := by
  have hended : h.ended (node a) = some false := ended_eq hs
  have hholds := hs.holds
  rw [map_append, map_cons] at hholds
  obtain ⟨m, hm, hchange⟩ := DLList.remove_spec hholds
  have hmap : xs.map Prod.fst ++ a :: ys.map Prod.fst = (xs ++ (a, v) :: ys).map Prod.fst := by simp
  rw [hmap, ← map_append] at hchange
  have hsub : xs ++ ys ⊆ xs ++ (a, v) :: ys := by
    intro c hc
    simp only [mem_append, mem_cons] at hc ⊢
    tauto
  refine ⟨{ h with mem := m }, ?_, unlink_edit hs hchange hsub⟩
  simp only [Heap.remove, hended, hm, Option.bind_eq_bind, Option.bind_some, Bool.false_eq_true, if_false]
  rfl

/-- The node at an iterator goes, and the iterator is at the following one. -/
theorem removeAt_spec (hs : Stores h l (xs ++ (a, v) :: ys)) :
    ∃ h', h.removeAt (node a) = some (h', behind l (ys.map Prod.fst)) ∧
      Edit h h' l (xs ++ (a, v) :: ys) (xs ++ ys) := by
  obtain ⟨h', hremove, hedit⟩ := remove_spec hs
  have hended : h.ended (node a) = some false := ended_eq hs
  have hholds := hs.holds
  rw [map_append, map_cons] at hholds
  have hnode : (h.mem.cell (node a)).isSome := hholds.cell a (by simp)
  simp only [Heap.remove, hended, Option.bind_eq_bind, Option.bind_some, Bool.false_eq_true, if_false] at hremove
  refine ⟨h', ?_, hedit⟩
  simp only [Heap.removeAt, hended, DLList.nxt_eq hnode, hholds.joined_node.2.1, hremove, Option.bind_eq_bind,
    Option.bind_some, Bool.false_eq_true, if_false]

/-- The value of a node changes. -/
theorem set_spec (hs : Stores h l (xs ++ (a, v) :: ys)) (w : T) :
    ∃ h', h.set (node a) w = some h' ∧ Edit h h' l (xs ++ (a, v) :: ys) (xs ++ (a, w) :: ys) := by
  have hended : h.ended (node a) = some false := ended_eq hs
  have hkeep : ∀ b, b ≠ node a → update h.mem.cell (node a) (some (some w)) b = h.mem.cell b :=
    fun b hb => update_of_ne hb _ _
  have hmap : (xs ++ (a, v) :: ys).map Prod.fst = (xs ++ (a, w) :: ys).map Prod.fst := by simp
  have hnot := not_mem_of_nodup hs
  refine ⟨{ h with mem := { h.mem with cell := update h.mem.cell (node a) (some (some w)) } }, ?_,
    ⟨⟨?_, fun c hc => ?_, fun n hge => ?_⟩, fun b hb hnew => ⟨⟨rfl, rfl⟩, hkeep b ?_⟩, Nat.le_refl _,
      fun n hn => Or.inl (hmap ▸ hn)⟩⟩
  · simp only [Heap.set, Heap.setVal, hended, hs.val_eq, Option.bind_eq_bind, Option.bind_some, Bool.false_eq_true,
      if_false]
    rfl
  · have hold := hs.holds
    rw [hmap] at hold
    refine ⟨hold.linked, hold.nodup, hold.nxt_tl, hold.prv_hd, ?_, ?_, fun n hn => ?_⟩
    · exact (hkeep (hd l) fun heq => nomatch heq).trans hold.cell_hd
    · exact (hkeep (tl l) fun heq => nomatch heq).trans hold.cell_tl
    · change (update h.mem.cell (node a) (some (some w)) (node n)).isSome
      by_cases hna : node n = node a
      · rw [hna, update_self]
        rfl
      · rw [hkeep _ hna]
        exact hold.cell n hn
  · by_cases hca : c.1 = a
    · have hcw : c = (a, w) := by
        rw [mem_append, mem_cons] at hc
        rcases hc with hc | hc | hc
        · exact absurd (hca ▸ mem_map_of_mem (mem_append_left ys hc)) hnot
        · exact hc
        · exact absurd (hca ▸ mem_map_of_mem (mem_append_right xs hc)) hnot
      rw [hcw]
      exact update_self ..
    · refine (hkeep _ fun heq => hca (Addr.node.inj heq)).trans (hs.val c ?_)
      simp only [mem_append, mem_cons] at hc ⊢
      rcases hc with hc | rfl | hc
      · exact Or.inl hc
      · exact absurd rfl hca
      · exact Or.inr (Or.inr hc)
  · have hlt := hs.lt_of_mem (n := a) (by simp)
    refine (hkeep _ fun heq => ?_).trans (hs.fresh n hge)
    obtain rfl := Addr.node.inj heq
    exact absurd hlt (Nat.not_lt.mpr hge)
  · rintro rfl
    exact hb (mem_path.mpr (Or.inr (Or.inl ⟨a, by simp, rfl⟩)))

/-! ## Loops -/

/-- The addresses and the values, as a loop reads them. -/
theorem cells_eq (hs : Stores h l cells) (hsub : ys ⊆ cells) :
    DLList.cells h.mem (ys.map Prod.fst) = ys.map fun c => (node c.1, some c.2) := by
  rw [DLList.cells, map_map]
  refine map_congr_left fun c hc => ?_
  change (node c.1, (h.mem.cell (node c.1)).join) = _
  rw [hs.val c (hsub hc)]
  rfl

section Loops

variable {σ ρ : Type}

/-- The loop, on the nodes that follow a position. -/
def scan (body : σ → Addr → T → σ ⊕ ρ) (exit : σ → Addr → Option ρ) (last : Addr) :
    List (Nat × T) → σ → Option ρ
  | [], s => exit s last
  | (a, v) :: xs, s =>
    match body s (node a) v with
    | .inl s' => scan body exit last xs s'
    | .inr r => some r

theorem visit_scan (body : σ → Addr → T → σ ⊕ ρ) (exit : σ → Addr → Option ρ) (last : Addr) (init : σ) :
    visit (Heap.onValue body) exit last (xs.map fun c => (node c.1, some c.2)) init =
      scan body exit last xs init := by
  induction xs generalizing init with
  | nil => rfl
  | cons x xs ih =>
    obtain ⟨a, v⟩ := x
    simp only [map_cons, visit, scan, Heap.onValue]
    cases body init (node a) v with
    | inl s => exact ih s
    | inr r => rfl

theorem loop_eq (hs : Stores h l (xs ++ ys)) (body : σ → Addr → T → σ ⊕ ρ) (exit : σ → Addr → Option ρ) (init : σ) :
    h.loop body exit (behind l (ys.map Prod.fst)) init = scan body exit (tl l) ys init := by
  have hholds := hs.holds
  rw [map_append] at hholds
  have hlen := hs.length_le
  rw [length_append] at hlen
  have hreads := DLList.reads_nxt hholds
  rw [cells_eq hs (subset_append_right xs ys)] at hreads
  have hfuel : (ys.map fun c => (node c.1, some c.2)).length < h.next + 1 := by
    rw [length_map]
    omega
  have hwalk := walk_eq hreads (Heap.onValue body) exit hfuel init
  rw [visit_scan] at hwalk
  have hmap : (ys.map fun c => (node c.1, some c.2)).map Prod.fst = (ys.map Prod.fst).map node := by
    simp [comp_def]
  rw [hmap] at hwalk
  rw [Heap.loop, DLList.behind, hwalk]
  rfl

theorem scan_contains (f : T → Bool) (last : Addr) :
    scan (fun _ _ v => if f v then .inr true else .inl ()) (fun _ _ => some false) last cells () =
      some ((cells.map Prod.snd).any f) := by
  induction cells with
  | nil => rfl
  | cons x xs ih =>
    obtain ⟨a, v⟩ := x
    cases hf : f v with
    | true => simp [scan, hf]
    | false => simpa [scan, hf] using ih

theorem scan_find (f : T → Bool) (last : Addr) :
    scan (fun _ a v => if f v then .inr a else .inl ()) (fun _ a => some a) last cells () =
      ((cells.map Prod.fst).map node ++ [last])[(cells.map Prod.snd).findIdx f]? := by
  induction cells with
  | nil => rfl
  | cons x xs ih =>
    obtain ⟨a, v⟩ := x
    cases hf : f v with
    | true => simp [scan, hf, findIdx_cons]
    | false =>
      simp only [scan, hf, Bool.false_eq_true, if_false, map_cons, findIdx_cons, cond_false]
      exact ih

theorem scan_nth (n : Int) (last : Addr) :
    scan (fun (n : Int) a (_ : T) => if n = 0 then .inr a else .inl (n - 1)) (fun _ _ => none) last cells n =
      if 0 ≤ n then ((cells.map Prod.fst).map node)[n.toNat]? else none := by
  induction cells generalizing n with
  | nil => simp [scan]
  | cons x xs ih =>
    obtain ⟨a, v⟩ := x
    by_cases hzero : n = 0
    · simp [scan, hzero]
    · simp only [scan, if_neg hzero]
      rw [ih]
      by_cases hn : 0 ≤ n
      · have hnat : n.toNat = (n - 1).toNat + 1 := by omega
        rw [if_pos hn, if_pos (by omega), hnat]
        rfl
      · rw [if_neg hn, if_neg (by omega)]

end Loops

theorem begin_eq (hs : Stores h l cells) : h.begin l = some (behind l (cells.map Prod.fst)) := by
  rw [Heap.begin, DLList.first_eq hs.holds]
  rfl

theorem find_eq (isEqual : T → T → Bool) (hs : Stores h l cells) (v : T) :
    h.find isEqual l v = ((cells.map Prod.fst).map node ++ [tl l])[(cells.map Prod.snd).findIdx (isEqual v)]? := by
  have hloop := @loop_eq T h l [] cells Unit Addr hs (fun _ a x => if isEqual v x then .inr a else .inl ())
    (fun _ a => some a) ()
  rw [scan_find] at hloop
  rw [Heap.find, begin_eq hs]
  exact hloop

/-- The first element that is found. -/
theorem exists_split (f : T → Bool) (hany : ∃ x ∈ cells, f x.2) :
    ∃ xs x ys, cells = xs ++ x :: ys ∧ (∀ y ∈ xs.map Prod.snd, ¬ f y) ∧ f x.2 := by
  induction cells with
  | nil =>
    obtain ⟨x, hx, -⟩ := hany
    cases hx
  | cons y ys ih =>
    by_cases hy : f y.2
    · exact ⟨[], y, ys, rfl, fun _ hmem => (nomatch hmem), hy⟩
    · have hrest : ∃ x ∈ ys, f x.2 := by
        obtain ⟨x, hx, hf⟩ := hany
        rcases mem_cons.mp hx with rfl | hx
        · exact absurd hf hy
        · exact ⟨x, hx, hf⟩
      obtain ⟨xs, x, zs, rfl, hxs, hx⟩ := ih hrest
      refine ⟨y :: xs, x, zs, rfl, fun z hz => ?_, hx⟩
      rcases mem_cons.mp hz with rfl | hz
      · exact hy
      · exact hxs z hz

/-- The first node with a value goes, if there is one. -/
theorem removeValue_spec (isEqual : T → T → Bool) (hs : Stores h l cells) (v : T) :
    ∃ h' cells', h.removeValue isEqual l v = some h' ∧ Edit h h' l cells cells' ∧
      cells'.map Prod.snd = (cells.map Prod.snd).eraseP (isEqual v) := by
  have hfind := find_eq isEqual hs v
  by_cases hany : ∃ x ∈ cells, isEqual v x.2
  · obtain ⟨x, hx, hvx⟩ := hany
    obtain ⟨xs, ⟨a, w⟩, ys, rfl, hxs, hw⟩ := exists_split (isEqual v) ⟨x, hx, hvx⟩
    change isEqual v w = true at hw
    have hidx : ((xs ++ (a, w) :: ys).map Prod.snd).findIdx (isEqual v) = xs.length := by
      have hnone : ¬ (xs.map Prod.snd).findIdx (isEqual v) < (xs.map Prod.snd).length := by
        rw [findIdx_lt_length]
        exact fun ⟨y, hy, hvy⟩ => hxs y hy hvy
      rw [map_append, findIdx_append, if_neg hnone, map_cons, findIdx_cons, hw, cond_true,
        Nat.zero_add, length_map]
    have hget : ((xs ++ (a, w) :: ys).map Prod.fst).map node ++ [tl l] =
        (xs.map Prod.fst).map node ++ node a :: ((ys.map Prod.fst).map node ++ [tl l]) := by simp
    rw [hidx, hget, getElem?_append_right (by simp)] at hfind
    simp only [length_map, Nat.sub_self, getElem?_cons_zero] at hfind
    obtain ⟨h', hremove, hedit⟩ := removeAt_spec hs
    have hended : h.ended (node a) = some false := ended_eq hs
    refine ⟨h', xs ++ ys, ?_, hedit, ?_⟩
    · simp only [Heap.removeValue, hfind, hended, hremove, Option.bind_eq_bind, Option.bind_some, Option.map_some,
        Bool.false_eq_true, if_false]
    · rw [map_append, map_append, eraseP_append_right _ hxs, map_cons, eraseP_cons_of_pos hw]
  · have hnot : ∀ y ∈ cells.map Prod.snd, ¬ isEqual v y := by
      intro y hy hvy
      obtain ⟨x, hx, rfl⟩ := mem_map.mp hy
      exact hany ⟨x, hx, hvy⟩
    have hidx : (cells.map Prod.snd).findIdx (isEqual v) = cells.length := by
      rw [findIdx_eq_length_of_false (by simpa using hnot), length_map]
    have happ : Stores h l (cells ++ []) := by rwa [append_nil]
    have hended : h.ended (tl l) = some true := ended_eq happ
    refine ⟨h, cells, ?_, Edit.refl hs, (eraseP_of_forall_not hnot).symm⟩
    rw [hidx] at hfind
    have hlast : ((cells.map Prod.fst).map node ++ [tl l])[cells.length]? = some (tl l) := by simp
    rw [hlast] at hfind
    simp only [Heap.removeValue, hfind, hended, Option.bind_eq_bind, Option.bind_some, if_true]

theorem clearLoop_spec {fuel : Nat} (hs : Stores h l cells) (hfuel : cells.length < fuel) :
    ∃ h', Heap.clearLoop fuel h l = some h' ∧ Edit h h' l cells [] := by
  induction cells generalizing h fuel with
  | nil =>
    cases fuel with
    | zero => exact absurd hfuel (Nat.not_lt_zero _)
    | succ fuel =>
      refine ⟨h, ?_, Edit.refl hs⟩
      simp only [Heap.clearLoop, Heap.isEmpty, DLList.isEmpty_eq hs.holds]
      rfl
  | cons x xs ih =>
    obtain ⟨a, v⟩ := x
    cases fuel with
    | zero => exact absurd hfuel (Nat.not_lt_zero _)
    | succ fuel =>
      obtain ⟨h₁, hremove, hedit₁⟩ := removeFirst_spec hs
      obtain ⟨h', hclear, hedit⟩ := ih hedit₁.stores (Nat.lt_of_succ_lt_succ hfuel)
      refine ⟨h', ?_, hedit₁.trans hedit⟩
      simp only [Heap.clearLoop, Heap.isEmpty, DLList.isEmpty_eq hs.holds, map_cons, isEmpty_cons,
        hremove, Option.bind_eq_bind, Option.bind_some, Bool.false_eq_true, if_false]
      exact hclear

theorem clear_spec (hs : Stores h l cells) : ∃ h', h.clear l = some h' ∧ Edit h h' l cells [] :=
  clearLoop_spec hs (Nat.lt_succ_of_le hs.length_le)

/-- The loop of `copy`: the elements of the other list are added behind those of this one. -/
theorem copyLoop_spec {fuel : Nat} (hne : l' ≠ l) (hs : Stores h l cells) (hsrc : Stores h l' (xs ++ ys))
    (hdisj : ∀ n ∈ (xs ++ ys).map Prod.fst, n ∉ cells.map Prod.fst) (hfuel : ys.length < fuel) :
    ∃ h' cells', Heap.copyLoop fuel h l (behind l' (ys.map Prod.fst)) = some h' ∧ Edit h h' l cells cells' ∧
      cells'.map Prod.snd = cells.map Prod.snd ++ ys.map Prod.snd := by
  induction ys generalizing h cells xs fuel with
  | nil =>
    cases fuel with
    | zero => exact absurd hfuel (Nat.not_lt_zero _)
    | succ fuel =>
      refine ⟨h, cells, ?_, Edit.refl hs, by simp⟩
      simp only [Heap.copyLoop, ended_eq hsrc]
      rfl
  | cons y ys ih =>
    obtain ⟨a, v⟩ := y
    cases fuel with
    | zero => exact absurd hfuel (Nat.not_lt_zero _)
    | succ fuel =>
      obtain ⟨h₁, hadd, hedit₁⟩ := addLast_spec hs v
      have hsrc₁ := hedit₁.other hsrc hne hdisj
      have happ : xs ++ (a, v) :: ys = (xs ++ [(a, v)]) ++ ys := by simp
      have hholds := hsrc₁.holds
      rw [map_append, map_cons] at hholds
      have hforward : h₁.forward (node a) = some (behind l' (ys.map Prod.fst)) := by
        rw [Heap.forward, DLList.nxt_eq (hholds.cell a (by simp)), hholds.joined_node.2.1]
        rfl
      have hended : h.ended (node a) = some false := ended_eq hsrc
      have hdisj₁ : ∀ n ∈ ((xs ++ [(a, v)]) ++ ys).map Prod.fst,
          n ∉ (cells ++ [(h.next, v)]).map Prod.fst := by
        intro n hn hmem
        rw [← happ] at hn
        rw [map_append, mem_append] at hmem
        rcases hmem with hold | hnew
        · exact hdisj n hn hold
        · rw [mem_singleton.mp hnew] at hn
          exact hsrc.next_not_mem hn
      rw [happ] at hsrc₁
      obtain ⟨h', cells', hloop, hedit, hcells⟩ :=
        ih hedit₁.stores hsrc₁ hdisj₁ (Nat.lt_of_succ_lt_succ hfuel)
      refine ⟨h', cells', ?_, hedit₁.trans hedit, by rw [hcells]; simp⟩
      simp only [Heap.copyLoop, map_cons, DLList.behind_cons, hended, hsrc.val_eq, hadd, hforward,
        Option.bind_eq_bind, Option.bind_some, Bool.false_eq_true, if_false]
      exact hloop

/-- The copy of another list. -/
theorem copy_spec (hne : l' ≠ l) (hs : Stores h l cells) (hsrc : Stores h l' xs)
    (hdisj : ∀ n ∈ xs.map Prod.fst, n ∉ cells.map Prod.fst) :
    ∃ h' cells', h.copy l l' = some h' ∧ Edit h h' l cells cells' ∧ cells'.map Prod.snd = xs.map Prod.snd := by
  obtain ⟨h₁, hclear, hedit₁⟩ := clear_spec hs
  have hsrc₁ : Stores h₁ l' ([] ++ xs) := hedit₁.other hsrc hne hdisj
  obtain ⟨h', cells', hloop, hedit, hcells⟩ := copyLoop_spec hne hedit₁.stores hsrc₁
    (fun _ _ hmem => nomatch hmem) (Nat.lt_succ_of_le hsrc₁.length_le)
  refine ⟨h', cells', ?_, hedit₁.trans hedit, hcells⟩
  simp only [Heap.copy, hclear, begin_eq hsrc₁, Option.bind_eq_bind, Option.bind_some]
  exact hloop

/-- The copy of a list to itself is empty. -/
theorem copy_self (hs : Stores h l cells) : ∃ h', h.copy l l = some h' ∧ Edit h h' l cells [] := by
  obtain ⟨h₁, hclear, hedit⟩ := clear_spec hs
  have hempty : Stores h₁ l ([] ++ []) := hedit.stores
  have hended : h₁.ended (tl l) = some true := ended_eq hempty
  have hbegin : h₁.begin l = some (tl l) := begin_eq hempty
  refine ⟨h₁, ?_, hedit⟩
  simp only [Heap.copy, hclear, hbegin, Heap.copyLoop, hended, Option.bind_eq_bind, Option.bind_some, if_true]

/-! ## Runs -/

variable {isEqual : T → T → Bool} {spec spec' : Specs T} {t t' : State T} {lists : Nat → List (Nat × T)} {i : Addr}
  {cursor : Option Nat}

/-- The iterator is between the nodes before the position `k` and the others. -/
def At (l : Nat) (cells : List (Nat × T)) (cursor : Option Nat) (i : Addr) : Prop :=
  ∀ k, cursor = some k → ∃ xs ys, cells = xs ++ ys ∧ xs.length = k ∧ i = behind l (ys.map Prod.fst)

theorem at_none (l : Nat) (cells : List (Nat × T)) (i : Addr) : At l cells none i := fun _ hk => nomatch hk

theorem at_some (l : Nat) (xs ys : List (Nat × T)) : At l (xs ++ ys) (some xs.length) (behind l (ys.map Prod.fst)) :=
  fun _ hk => ⟨xs, ys, rfl, Option.some.inj hk, rfl⟩

/-- The invariant of the runs: the nodes of the lists are different. -/
structure Inv (lists : Nat → List (Nat × T)) (spec : Specs T) (t : State T) : Prop where
  stores : ∀ l, Stores t.heap l (lists l)
  disj : ∀ l l', l ≠ l' → ∀ n ∈ (lists l).map Prod.fst, n ∉ (lists l').map Prod.fst
  elements : ∀ l, (spec.lists l).elements = (lists l).map Prod.snd
  iter : ∀ l, At l (lists l) (spec.lists l).cursor (t.iter l)
  answers : spec.answers = t.answers

theorem start_inv (garbage : Links Addr) : Inv (fun _ => []) Specs.start (State.start garbage : State T) := by
  refine ⟨fun l => ⟨⟨?_, nodup_nil, rfl, rfl, rfl, rfl, fun n hn => (not_mem_nil hn).elim⟩, ?_, fun _ _ => rfl⟩,
    fun _ _ _ _ hn => (not_mem_nil hn).elim, fun _ => rfl, fun l => at_none l _ _, rfl⟩
  · exact linked_cons_cons.mpr ⟨⟨rfl, rfl⟩, linked_singleton _⟩
  · exact fun c hc => (not_mem_nil hc).elim

/-- The values that an iteration reads are those of the cells. -/
theorem zip_eq (cells : List (Nat × T)) : ((cells.map Prod.fst).map node).zip ((cells.map Prod.snd).map some) =
    cells.map fun c => (node c.1, some c.2) := by
  rw [map_map, map_map, zip_map']
  rfl

theorem Stores.agrees (isEqual : T → T → Bool) (hs : Stores h l cells) (hat : At l cells cursor i) :
    Agrees isEqual ⟨cells.map Prod.snd, cursor⟩ h l i (cells.map Prod.fst) := by
  have hfuel : (cells.map Prod.fst).length < h.next + 1 := by
    rw [length_map]
    exact Nat.lt_succ_of_le hs.length_le
  have hfirst : h.first l = (cells.map Prod.snd).head? := by
    rw [Heap.first, DLList.first_eq hs.holds]
    cases cells with
    | nil =>
      change h.val (tl l) = none
      rw [Heap.val, hs.holds.cell_tl]
      rfl
    | cons c cells =>
      have happ : Stores h l ([] ++ (c.1, c.2) :: cells) := hs
      exact happ.val_eq
  refine ⟨hs.holds.agrees, by simp, ?_, ?_, ?_, ?_, fun v => ?_, find_eq isEqual hs, fun k n v hk => ?_, fun n => ?_,
    hfirst, ?_, hfirst, fun k hk => ?_⟩
  · rw [Heap.items, DLList.forward_eq hs.holds hfuel, cells_eq hs (List.Subset.refl _), zip_eq]
  · have hsub : cells.reverse ⊆ cells := fun c hc => mem_reverse.mp hc
    rw [Heap.backItems, DLList.backward_eq hs.holds hfuel, ← map_reverse, cells_eq hs hsub, zip_eq,
      map_reverse]
  · rw [Heap.count, DLList.count_eq hs.holds hfuel, length_map, length_map]
  · rw [Heap.isEmpty, DLList.isEmpty_eq hs.holds]
    cases cells <;> rfl
  · have hloop := @loop_eq T h l [] cells Unit Bool hs (fun _ _ x => if isEqual v x then .inr true else .inl ())
      (fun _ _ => some false) ()
    rw [scan_contains] at hloop
    rw [Heap.contains, begin_eq hs]
    exact hloop
  · rw [getElem?_map, Option.map_eq_some_iff] at hk
    obtain ⟨c, hc, rfl⟩ := hk
    obtain ⟨hlt, hget⟩ := List.getElem?_eq_some_iff.mp hc
    have hsplit : cells = (cells.take k ++ [c]) ++ cells.drop (k + 1) := by
      rw [← hget]
      simp
    have hs' := hs
    rw [hsplit] at hs'
    have hholds := hs'.holds
    rw [map_append, map_append, map_singleton, append_assoc] at hholds
    have hforward : h.forward (node c.1) = some (behind l ((cells.drop (k + 1)).map Prod.fst)) := by
      rw [Heap.forward, DLList.nxt_eq (hholds.cell c.1 (by simp)), hholds.joined_node.2.1]
      rfl
    have hloop := loop_eq hs' (fun _ a x => if isEqual v x then .inr a else .inl ()) (fun _ a => some a) ()
    rw [scan_find] at hloop
    rw [Heap.findAfter, hforward, ← map_drop, ← map_drop]
    exact hloop
  · have hloop := @loop_eq T h l [] cells Int Addr hs (fun n a _ => if n = 0 then .inr a else .inl (n - 1))
      (fun _ _ => none) n
    rw [scan_nth] at hloop
    rw [Heap.nth, begin_eq hs]
    exact hloop
  · rw [Heap.last, DLList.last_eq hs.holds]
    rcases eq_nil_or_concat cells with rfl | ⟨xs, c, rfl⟩
    · change h.val (hd l) = none
      rw [Heap.val, hs.holds.cell_hd]
      rfl
    · rw [concat_eq_append] at hs ⊢
      have happ : Stores h l (xs ++ (c.1, c.2) :: []) := hs
      rw [map_append, map_singleton, DLList.before_concat, map_append, map_singleton,
        getLast?_concat]
      exact happ.val_eq
  · obtain ⟨xs, ys, rfl, rfl, rfl⟩ := hat k hk
    rw [map_append, map_append, append_assoc, getElem?_append_right (by simp), length_map,
      length_map, Nat.sub_self]
    cases ys <;> rfl

theorem Inv.agrees (hinv : Inv lists spec t) (isEqual : T → T → Bool) (l : Nat) :
    Agrees isEqual (spec.lists l) t.heap l (t.iter l) ((lists l).map Prod.fst) := by
  have hagrees := (hinv.stores l).agrees isEqual (hinv.iter l)
  rwa [← hinv.elements l] at hagrees

/-- A list is changed, and its iterator. -/
theorem Inv.put (hinv : Inv lists spec t) (hedit : Edit t.heap h' l (lists l) cells) {elements : List T}
    (hel : cells.map Prod.snd = elements) (hat : At l cells cursor i) :
    Inv (update lists l cells) { spec with lists := update spec.lists l ⟨elements, cursor⟩ }
      ({ t with heap := h' }.putIter l i) := by
  have hother : ∀ l', l' ≠ l → ∀ n ∈ (lists l').map Prod.fst, n ∉ cells.map Prod.fst := by
    intro l' hne n hn hmem
    rcases hedit.nodes n hmem with hin | hge
    · exact hinv.disj l' l hne n hn hin
    · exact absurd ((hinv.stores l').lt_of_mem hn) (Nat.not_lt.mpr hge)
  refine ⟨fun l' => ?_, fun l₁ l₂ hne n hn => ?_, fun l' => ?_, fun l' => ?_, hinv.answers⟩
  · by_cases hl : l' = l
    · subst hl
      rw [update_self]
      exact hedit.stores
    · rw [update_of_ne hl]
      exact hedit.other (hinv.stores l') hl (hinv.disj l' l hl)
  · by_cases h₁ : l₁ = l
    · subst h₁
      rw [update_self] at hn
      rw [update_of_ne hne.symm]
      exact fun hmem => hother l₂ hne.symm n hmem hn
    · rw [update_of_ne h₁] at hn
      by_cases h₂ : l₂ = l
      · subst h₂
        rw [update_self]
        exact hother l₁ h₁ n hn
      · rw [update_of_ne h₂]
        exact hinv.disj l₁ l₂ hne n hn
  · change (update spec.lists l _ l').elements = _
    by_cases hl : l' = l
    · subst hl
      rw [update_self, update_self]
      exact hel.symm
    · rw [update_of_ne hl, update_of_ne hl]
      exact hinv.elements l'
  · change At l' _ (update spec.lists l _ l').cursor (update t.iter l i l')
    by_cases hl : l' = l
    · subst hl
      rw [update_self, update_self, update_self]
      exact hat
    · rw [update_of_ne hl, update_of_ne hl, update_of_ne hl]
      exact hinv.iter l'

/-- A list is changed, and its iterator is no longer used or is still where it was. -/
theorem Inv.put_heap (hinv : Inv lists spec t) (hedit : Edit t.heap h' l (lists l) cells) {elements : List T}
    (hel : cells.map Prod.snd = elements) (hat : At l cells cursor (t.iter l)) :
    Inv (update lists l cells) { spec with lists := update spec.lists l ⟨elements, cursor⟩ }
      { t with heap := h' } := by
  have hput := hinv.put hedit hel hat
  have hsame : ({ t with heap := h' }.putIter l (t.iter l) : State T) = { t with heap := h' } := by
    unfold State.putIter
    rw [update_eq_self]
  rwa [hsame] at hput

/-- The iterator of a list goes to another position. -/
theorem Inv.put_iter (hinv : Inv lists spec t) (hat : At l (lists l) cursor i) :
    Inv lists { spec with lists := update spec.lists l ⟨(spec.lists l).elements, cursor⟩ }
      (t.putIter l i) := by
  have hput := hinv.put (Edit.refl (hinv.stores l)) (hinv.elements l).symm hat
  rwa [update_eq_self] at hput

/-- The nodes before and after the position of the iterator. -/
theorem Inv.position (hinv : Inv lists spec t) {k : Nat} (hk : (spec.lists l).cursor = some k)
    (hlt : k < (spec.lists l).elements.length) :
    ∃ xs a v ys, lists l = xs ++ (a, v) :: ys ∧ xs.length = k ∧ t.iter l = node a := by
  obtain ⟨xs, ys, hcells, hlen, hi⟩ := hinv.iter l k hk
  rw [hinv.elements, length_map, hcells, length_append] at hlt
  cases ys with
  | nil =>
    rw [length_nil] at hlt
    omega
  | cons y ys => exact ⟨xs, y.1, y.2, ys, hcells, hlen, hi⟩

/-- An action that needs an element at the position of the iterator. -/
theorem Inv.at_position (hinv : Inv lists spec t) {g : Nat → Spec T} {m : Spec T}
    (hact : ((spec.lists l).cursor.bind fun k =>
      if k < (spec.lists l).elements.length then some (g k) else none) = some m) :
    ∃ xs a v ys, lists l = xs ++ (a, v) :: ys ∧ (spec.lists l).elements = (xs ++ (a, v) :: ys).map Prod.snd ∧
      Stores t.heap l (xs ++ (a, v) :: ys) ∧ t.iter l = node a ∧ g xs.length = m := by
  obtain ⟨k, hk, hact⟩ := Option.bind_eq_some_iff.mp hact
  obtain ⟨hlt, hact⟩ := Option.ite_none_right_eq_some.mp hact
  obtain ⟨xs, a, v, ys, hcells, rfl, hi⟩ := hinv.position hk hlt
  have hel := hinv.elements l
  have hs := hinv.stores l
  rw [hcells] at hel hs
  exact ⟨xs, a, v, ys, hcells, hel, hs, hi, Option.some.inj hact⟩

/-- What one action makes of its list. -/
def Acts (isEqual : T → T → Bool) (spec : Specs T) (t : State T) (l : Nat) (a : Act T) (m : Spec T) : Prop :=
  ∃ t' lists', t.act isEqual l a = some t' ∧ Inv lists' { spec with lists := update spec.lists l m } t'

theorem Inv.addAfter (hinv : Inv lists spec t) {v : T} {m : Spec T}
    (hact : (spec.lists l).act isEqual spec.lists (.addAfter v) = some m) :
    Acts isEqual spec t l (.addAfter v) m := by
  obtain ⟨xs, b, w, ys, hcells, hel, hs, hi, rfl⟩ := hinv.at_position hact
  obtain ⟨h', hh', hedit⟩ := addAfter_spec hs v
  refine ⟨_, _, by rw [State.act, hi, hh']; rfl, hinv.put_heap (hcells ▸ hedit) ?_ ?_⟩
  · have hins := Chain.insertIdx_map_append Prod.snd (xs ++ [(b, w)]) ys (t.heap.next, v)
    rw [hel]
    simpa using hins.symm
  · rw [hi]
    exact at_some l xs ((b, w) :: (t.heap.next, v) :: ys)

theorem Inv.addBefore (hinv : Inv lists spec t) {v : T} {m : Spec T}
    (hact : (spec.lists l).act isEqual spec.lists (.addBefore v) = some m) :
    Acts isEqual spec t l (.addBefore v) m := by
  obtain ⟨xs, b, w, ys, hcells, hel, hs, hi, rfl⟩ := hinv.at_position hact
  obtain ⟨h', hh', hedit⟩ := addBefore_spec hs v
  refine ⟨_, _, by rw [State.act, hi, hh']; rfl, hinv.put_heap (hcells ▸ hedit) ?_ ?_⟩
  · have hins := Chain.insertIdx_map_append Prod.snd xs ((b, w) :: ys) (t.heap.next, v)
    rw [hel]
    exact hins.symm
  · -- the iterator stays on its element, which has another one before it
    have hpos := at_some l (xs ++ [(t.heap.next, v)]) ((b, w) :: ys)
    rw [length_append, length_singleton, append_assoc] at hpos
    rw [hi]
    exact hpos

theorem Inv.removeFirst (hinv : Inv lists spec t) {m : Spec T}
    (hact : (spec.lists l).act isEqual spec.lists .removeFirst = some m) :
    Acts isEqual spec t l .removeFirst m := by
  have hs := hinv.stores l
  have hel := hinv.elements l
  obtain ⟨hne, hact⟩ := Option.ite_none_left_eq_some.mp hact
  obtain rfl := Option.some.inj hact
  rw [hel] at hne ⊢
  cases hcells : lists l with
  | nil => simp [hcells] at hne
  | cons x xs =>
    rw [hcells] at hs
    obtain ⟨h', hh', hedit⟩ := removeFirst_spec hs
    exact ⟨_, _, by rw [State.act, hh']; rfl, hinv.put_heap (hcells ▸ hedit) rfl (at_none l _ _)⟩

theorem Inv.removeLast (hinv : Inv lists spec t) {m : Spec T}
    (hact : (spec.lists l).act isEqual spec.lists .removeLast = some m) :
    Acts isEqual spec t l .removeLast m := by
  have hs := hinv.stores l
  have hel := hinv.elements l
  obtain ⟨hne, hact⟩ := Option.ite_none_left_eq_some.mp hact
  obtain rfl := Option.some.inj hact
  rw [hel] at hne ⊢
  rcases eq_nil_or_concat (lists l) with hnil | ⟨xs, x, hcells⟩
  · simp [hnil] at hne
  · rw [concat_eq_append] at hcells
    rw [hcells] at hs
    obtain ⟨h', hh', hedit⟩ := removeLast_spec hs
    exact ⟨_, _, by rw [State.act, hh']; rfl,
      hinv.put_heap (hcells ▸ hedit) (by simp [hcells]) (at_none l _ _)⟩

theorem Inv.removeBefore (hinv : Inv lists spec t) {m : Spec T}
    (hact : (spec.lists l).act isEqual spec.lists .removeBefore = some m) :
    Acts isEqual spec t l .removeBefore m := by
  have hs := hinv.stores l
  have hel := hinv.elements l
  obtain ⟨k, hk, hact⟩ := Option.bind_eq_some_iff.mp hact
  obtain ⟨hpos, hact⟩ := Option.ite_none_right_eq_some.mp hact
  obtain rfl := Option.some.inj hact
  obtain ⟨xs, ys, hcells, rfl, hi⟩ := hinv.iter l k hk
  rcases eq_nil_or_concat xs with rfl | ⟨xs, x, rfl⟩
  · exact absurd hpos (Nat.lt_irrefl _)
  · have happ : xs.concat x ++ ys = xs ++ (x.1, x.2) :: ys := by simp
    rw [happ] at hcells
    rw [hcells] at hs hel
    obtain ⟨h', hh', hedit⟩ := removeBefore_spec hs
    rw [length_concat, Nat.add_sub_cancel]
    refine ⟨_, _, by rw [State.act, hi, hh']; rfl, hinv.put_heap (hcells ▸ hedit) ?_ ?_⟩
    · rw [hel, Chain.eraseIdx_map_append]
    · rw [hi]
      exact at_some l xs ys

theorem Inv.removeAfter (hinv : Inv lists spec t) {m : Spec T}
    (hact : (spec.lists l).act isEqual spec.lists .removeAfter = some m) :
    Acts isEqual spec t l .removeAfter m := by
  have hs := hinv.stores l
  have hel := hinv.elements l
  obtain ⟨k, hk, hact⟩ := Option.bind_eq_some_iff.mp hact
  obtain ⟨hlt, hact⟩ := Option.ite_none_right_eq_some.mp hact
  obtain rfl := Option.some.inj hact
  obtain ⟨xs, b, w, ys, hcells, rfl, hi⟩ := hinv.position hk (by omega)
  rw [hcells] at hs hel
  cases ys with
  | nil =>
    rw [hel] at hlt
    simp at hlt
  | cons y ys =>
    obtain ⟨h', hh', hedit⟩ := removeAfter_spec hs
    refine ⟨_, _, by rw [State.act, hi, hh']; rfl, hinv.put_heap (hcells ▸ hedit) ?_ ?_⟩
    · have herase := Chain.eraseIdx_map_append Prod.snd (xs ++ [(b, w)]) ys y
      rw [hel]
      simpa using herase.symm
    · rw [hi]
      exact at_some l xs ((b, w) :: ys)

theorem Inv.copy (hinv : Inv lists spec t) {src : Nat} (hfits : Fits spec (.act l (.copy src))) :
    Acts isEqual spec t l (.copy src) ⟨(spec.lists src).elements, none⟩ := by
  have hs := hinv.stores l
  by_cases hsrc : src = l
  · subst hsrc
    obtain ⟨h', hh', hedit⟩ := copy_self hs
    have hempty : (spec.lists src).elements = [] := isEmpty_iff.mp (hfits rfl)
    exact ⟨_, _, by rw [State.act, hh']; rfl, hinv.put_heap hedit hempty.symm (at_none src _ _)⟩
  · obtain ⟨h', cells', hh', hedit, hcells⟩ := copy_spec hsrc hs (hinv.stores src) (hinv.disj src l hsrc)
    exact ⟨_, _, by rw [State.act, hh']; rfl,
      hinv.put_heap hedit (by rw [hcells, hinv.elements src]) (at_none l _ _)⟩

theorem Inv.next (hinv : Inv lists spec t) {m : Spec T}
    (hact : (spec.lists l).act isEqual spec.lists .next = some m) : Acts isEqual spec t l .next m := by
  obtain ⟨xs, b, w, ys, hcells, -, hs, hi, rfl⟩ := hinv.at_position hact
  have hholds := hs.holds
  rw [map_append, map_cons] at hholds
  have hforward : t.heap.forward (node b) = some (behind l (ys.map Prod.fst)) := by
    rw [Heap.forward, DLList.nxt_eq (hholds.cell b (by simp)), hholds.joined_node.2.1]
    rfl
  have hpos := at_some l (xs ++ [(b, w)]) ys
  rw [length_append, length_singleton, append_assoc, singleton_append, ← hcells] at hpos
  exact ⟨_, _, by rw [State.act, hi, hforward]; rfl, hinv.put_iter hpos⟩

/-- One action. -/
theorem act_inv (hinv : Inv lists spec t) {a : Act T} {m : Spec T}
    (hact : (spec.lists l).act isEqual spec.lists a = some m) (hfits : Fits spec (.act l a)) :
    Acts isEqual spec t l a m := by
  have hs := hinv.stores l
  have hel := hinv.elements l
  cases a with
  | addFirst v =>
    obtain rfl := Option.some.inj hact
    obtain ⟨h', hh', hedit⟩ := addFirst_spec hs v
    exact ⟨_, _, by rw [State.act, hh']; rfl, hinv.put_heap hedit (by rw [hel]; rfl) (at_none l _ _)⟩
  | addLast v =>
    obtain rfl := Option.some.inj hact
    obtain ⟨h', hh', hedit⟩ := addLast_spec hs v
    exact ⟨_, _, by rw [State.act, hh']; rfl, hinv.put_heap hedit (by rw [hel]; simp) (at_none l _ _)⟩
  | addAfter v => exact hinv.addAfter hact
  | addBefore v => exact hinv.addBefore hact
  | removeFirst => exact hinv.removeFirst hact
  | removeLast => exact hinv.removeLast hact
  | removeBefore => exact hinv.removeBefore hact
  | removeAfter => exact hinv.removeAfter hact
  | remove v =>
    obtain rfl := Option.some.inj hact
    obtain ⟨h', cells', hh', hedit, hcells⟩ := removeValue_spec isEqual hs v
    exact ⟨_, _, by rw [State.act, hh']; rfl, hinv.put_heap hedit (by rw [hcells, hel]) (at_none l _ _)⟩
  | removeAt =>
    obtain ⟨xs, b, w, ys, hcells, hel, hs, hi, rfl⟩ := hinv.at_position hact
    obtain ⟨h', hh', hedit⟩ := removeAt_spec hs
    refine ⟨_, _, by rw [State.act, hi, hh']; rfl, hinv.put (hcells ▸ hedit) ?_ (at_some l xs ys)⟩
    rw [hel, Chain.eraseIdx_map_append]
  | removeConst =>
    obtain ⟨xs, b, w, ys, hcells, hel, hs, hi, rfl⟩ := hinv.at_position hact
    obtain ⟨h', hh', hedit⟩ := remove_spec hs
    refine ⟨_, _, by rw [State.act, hi, hh']; rfl, hinv.put_heap (hcells ▸ hedit) ?_ (at_none l _ _)⟩
    rw [hel, Chain.eraseIdx_map_append]
  | set v =>
    obtain ⟨xs, b, w, ys, hcells, hel, hs, hi, rfl⟩ := hinv.at_position hact
    obtain ⟨h', hh', hedit⟩ := set_spec hs v
    refine ⟨_, _, by rw [State.act, hi, hh']; rfl, hinv.put_heap (hcells ▸ hedit) ?_ ?_⟩
    · rw [hel]
      simp
    · rw [hi]
      exact at_some l xs ((b, v) :: ys)
  | copy src =>
    obtain rfl := Option.some.inj hact
    exact hinv.copy hfits
  | clear =>
    obtain rfl := Option.some.inj hact
    obtain ⟨h', hh', hedit⟩ := clear_spec hs
    exact ⟨_, _, by rw [State.act, hh']; rfl, hinv.put_heap hedit rfl (at_none l _ _)⟩
  | begin =>
    obtain rfl := Option.some.inj hact
    exact ⟨_, _, by rw [State.act, begin_eq hs]; rfl, hinv.put_iter (at_some l [] (lists l))⟩
  | next => exact hinv.next hact

/-- One operation. -/
theorem step_inv (hinv : Inv lists spec t) {op : Op T} (hop : spec.step isEqual op = some spec')
    (hfits : Fits spec op) : ∃ t' lists', t.step isEqual op = some t' ∧ Inv lists' spec' t' := by
  cases op with
  | act l a =>
    obtain ⟨m, hm, rfl⟩ := Option.map_eq_some_iff.mp hop
    exact act_inv hinv hm hfits
  | first l =>
    obtain ⟨v, hv, rfl⟩ := Option.map_eq_some_iff.mp hop
    have hfirst := (hinv.agrees isEqual l).firstMut
    rw [hv] at hfirst
    refine ⟨{ t with answers := t.answers ++ [v] }, lists, by rw [State.step, hfirst]; rfl,
      ⟨hinv.stores, hinv.disj, hinv.elements, hinv.iter, ?_⟩⟩
    rw [hinv.answers]
  | last l =>
    obtain ⟨v, hv, rfl⟩ := Option.map_eq_some_iff.mp hop
    have hlast : t.heap.lastMut l = some v := by
      have hfirst := (hinv.agrees isEqual l).firstMut
      change (spec.lists l).elements.head? = _ at hfits
      rwa [hfits, hv] at hfirst
    refine ⟨{ t with answers := t.answers ++ [v] }, lists, by rw [State.step, hlast]; rfl,
      ⟨hinv.stores, hinv.disj, hinv.elements, hinv.iter, ?_⟩⟩
    rw [hinv.answers]

/-- The operations that do not fit. -/
theorem not_agrees_step (hinv : Inv lists spec t) {op : Op T} (hop : spec.step isEqual op = some spec')
    (hfits : ¬ Fits spec op) (hstep : t.step isEqual op = some t') :
    ¬ ((∀ l, ∃ nodes, Agrees isEqual (spec'.lists l) t'.heap l (t'.iter l) nodes) ∧ spec'.answers = t'.answers) := by
  rintro ⟨hall, hanswers⟩
  cases op with
  | first l => exact hfits trivial
  | last l =>
    obtain ⟨v, hv, rfl⟩ := Option.map_eq_some_iff.mp hop
    obtain ⟨w, hw, rfl⟩ := Option.map_eq_some_iff.mp hstep
    have hfirst := (hinv.agrees isEqual l).firstMut
    change t.heap.lastMut l = _ at hfirst
    -- the answer is the first element
    obtain rfl : v = w := by
      have happ : t.answers ++ [v] = t.answers ++ [w] := by
        rw [← hinv.answers] at hanswers ⊢
        exact hanswers
      exact singleton_inj.mp (append_cancel_left happ)
    exact hfits (hfirst.symm.trans (hw.trans hv.symm))
  | act l a =>
    obtain ⟨m, hact, rfl⟩ := Option.map_eq_some_iff.mp hop
    cases a with
    | copy src =>
      obtain ⟨hsrc, hne⟩ := Classical.not_imp.mp hfits
      subst hsrc
      obtain rfl := Option.some.inj hact
      obtain ⟨h', hh', hedit⟩ := copy_self (hinv.stores src)
      simp only [State.step, State.act, hh', State.withHeap, Option.map_some] at hstep
      obtain rfl := Option.some.inj hstep
      obtain ⟨nodes, hagrees⟩ := hall src
      have hempty := hagrees.isEmpty
      simp only [update_self] at hempty
      rw [Heap.isEmpty, DLList.isEmpty_eq hedit.stores.holds] at hempty
      exact hne (Option.some.inj hempty).symm
    | _ => exact hfits trivial

/-- In every run, the lists, their observers and the answers of `first` and `last` agree with the mathematical lists
all along if and only if the operations fit. -/
theorem run_iff (isEqual : T → T → Bool) (garbage : Links Addr) {ops : List (Op T)}
    (hops : Run.exec (Specs.step isEqual) Specs.start ops = some spec) :
    (∀ k, ∃ t, Run.exec (both isEqual) (Specs.start, .start garbage) (ops.take k) = some t ∧
      (∀ l, ∃ nodes, Agrees isEqual (t.1.lists l) t.2.heap l (t.2.iter l) nodes) ∧ t.1.answers = t.2.answers) ↔
    Run.Meets (fun t op => Fits t.1 op) (both isEqual) (Specs.start, .start garbage) ops := by
  have hallowed := (Run.meets_isSome hops).beside (State.step isEqual) (State.start garbage)
  refine (Run.meets_iff_forall_exists_exec (fun t => ∃ lists, Inv lists t.1 t.2) _ ?_ ?_ ?_ ops _
    ⟨_, start_inv garbage⟩ hallowed).symm
  · rintro t ⟨lists, hinv⟩
    exact ⟨fun l => ⟨_, hinv.agrees isEqual l⟩, hinv.answers⟩
  · rintro t op ⟨lists, hinv⟩ hop hfits
    obtain ⟨spec', hspec'⟩ := Option.isSome_iff_exists.mp hop
    obtain ⟨t', lists', ht', hinv'⟩ := step_inv hinv hspec' hfits
    exact ⟨(spec', t'), Run.beside_eq_some.mpr ⟨hspec', ht'⟩, lists', hinv'⟩
  · rintro t op t' ⟨lists, hinv⟩ - hfits hstep
    obtain ⟨hspec', ht'⟩ := Run.beside_eq_some.mp hstep
    exact not_agrees_step hinv hspec' hfits ht'

/-- `DLList` and `BiDiList`: in every run, the lists agree with the mathematical lists all along if and only if the
operations fit. -/
theorem lists_run_iff (isEqual : T → T → Bool) (garbage : Links Addr) {dlops : List DLList.Op}
    {dlspec : List (List Nat)} (hdl : Run.exec DLList.specStep [] dlops = some dlspec) {ops : List (Op T)}
    {spec : Specs T} (hops : Run.exec (Specs.step isEqual) Specs.start ops = some spec) :
    ((∀ k, ∃ t, Run.exec DLList.both ([], (DLList.State.start garbage : DLList.State T)) (dlops.take k) = some t ∧
        ∀ (l : Nat) (xs : List Nat), t.1[l]? = some xs → DLList.Agrees t.2.mem l xs) ↔
      Run.Meets (fun t op => DLList.CopiesEmpty t.1 op) DLList.both
        ([], (DLList.State.start garbage : DLList.State T)) dlops) ∧
    ((∀ k, ∃ t, Run.exec (both isEqual) (Specs.start, .start garbage) (ops.take k) = some t ∧
        (∀ l, ∃ nodes, Agrees isEqual (t.1.lists l) t.2.heap l (t.2.iter l) nodes) ∧ t.1.answers = t.2.answers) ↔
      Run.Meets (fun t op => Fits t.1 op) (both isEqual) (Specs.start, .start garbage) ops) :=
  ⟨DLList.run_iff garbage hdl, run_iff isEqual garbage hops⟩

/-- The nodes of two lists: an empty list is copied. -/
def nodesRun : List DLList.Op :=
  [.make, .edit 0 (.addFirst 5), .edit 0 (.addLast 6), .edit 0 (.insertAfter 5 7), .edit 0 (.insertBefore 5 8),
    .edit 0 (.removeNext 7), .edit 0 (.replace 7 9), .edit 0 .removeFirst, .edit 0 (.remove 9),
    .edit 0 .removeLast, .copy 0, .edit 1 (.addFirst 5), .edit 1 (.addFirst 6), .edit 1 (.removePrevious 5)]

/-- Two lists: the first one is changed at an iterator, then copied to the other one. -/
def valuesRun : List (Op Nat) :=
  [.act 0 (.addFirst 2), .act 0 (.addLast 3), .act 0 .begin, .act 0 (.addBefore 1), .act 0 (.addAfter 4),
    .act 0 .removeBefore, .act 0 .removeAfter, .first 0, .act 0 .next, .act 0 .removeAt, .last 0, .act 1 (.copy 0),
    .act 1 (.remove 2), .act 0 .removeLast, .act 1 .clear]

/-- No pointer is set in the nodes that are made. -/
def unset : Links Addr := ⟨fun _ => none, fun _ => none⟩

theorem lists_run_iff_twoLists :
    (∀ k, ∃ t, Run.exec DLList.both ([], (DLList.State.start unset : DLList.State Nat)) (nodesRun.take k) = some t ∧
      ∀ (l : Nat) (xs : List Nat), t.1[l]? = some xs → DLList.Agrees t.2.mem l xs) ∧
    ∀ k, ∃ t, Run.exec (both fun x y : Nat => x == y) (Specs.start, .start unset) (valuesRun.take k) = some t ∧
      (∀ l, ∃ nodes, Agrees (fun x y => x == y) (t.1.lists l) t.2.heap l (t.2.iter l) nodes) ∧
      t.1.answers = t.2.answers :=
  have hiff := @lists_run_iff Nat (fun x y => x == y) unset nodesRun _ rfl valuesRun _ rfl
  ⟨hiff.1.mpr (by decide), hiff.2.mpr (by decide)⟩

theorem not_lists_run :
    (¬ ∀ (ops : List DLList.Op) (spec : List (List Nat)), Run.exec DLList.specStep [] ops = some spec →
      ∀ k, ∃ t, Run.exec DLList.both ([], (DLList.State.start unset : DLList.State Nat)) (ops.take k) = some t ∧
        ∀ (l : Nat) (xs : List Nat), t.1[l]? = some xs → DLList.Agrees t.2.mem l xs) ∧
    ¬ ∀ (ops : List (Op Nat)) (spec : Specs Nat), Run.exec (Specs.step fun x y : Nat => x == y) Specs.start ops =
        some spec →
      ∀ k, ∃ t, Run.exec (both fun x y : Nat => x == y) (Specs.start, .start unset) (ops.take k) = some t ∧
        (∀ l, ∃ nodes, Agrees (fun x y => x == y) (t.1.lists l) t.2.heap l (t.2.iter l) nodes) ∧
        t.1.answers = t.2.answers := by
  constructor
  · intro hall
    obtain ⟨t, ht, hagrees⟩ := hall [.make, .edit 0 (.addFirst 5), .copy 0] _ rfl 3
    obtain rfl := Option.some.inj ht
    exact absurd (hagrees 0 [] rfl).isEmpty (by decide)
  · intro hall
    obtain ⟨t, ht, -, hanswers⟩ := hall [.act 0 (.addLast 1), .act 0 (.addLast 2), .last 0] _ rfl 3
    obtain rfl := Option.some.inj ht
    exact absurd hanswers (by decide)

end Elm.Data.BiDiList
