import Elm.Data.HashTableBuckets

/-!
# Traversals of a `HashTable`

`clear`, `count` and the iterator go through the buckets in order and through each bucket from its
head, so they meet exactly the nodes of the table.
-/

namespace Elm.Data.HashTable

open Chain List

variable {A T : Type*} [DecidableEq A] {H : Manager T} {st st' : HashTable A T}
  {bs : Nat → List (A × T)}

/-- The nodes of the buckets from `i` on. -/
def nodesFrom (bs : Nat → List (A × T)) (size i : Nat) : List (A × T) :=
  (List.range' i (size - i)).flatMap bs

/-- All the nodes of a table. -/
def allNodes (bs : Nat → List (A × T)) (size : Nat) : List (A × T) := nodesFrom bs size 0

omit [DecidableEq A] in
theorem nodesFrom_eq_nil (bs : Nat → List (A × T)) {size i : Nat} (hi : size ≤ i) :
    nodesFrom bs size i = [] := by
  simp [nodesFrom, Nat.sub_eq_zero_of_le hi]

omit [DecidableEq A] in
theorem nodesFrom_eq_append (bs : Nat → List (A × T)) {size i : Nat} (hi : i < size) :
    nodesFrom bs size i = bs i ++ nodesFrom bs size (i + 1) := by
  obtain ⟨k, hk⟩ : ∃ k, size - i = k + 1 := ⟨size - i - 1, by omega⟩
  have hk' : size - (i + 1) = k := by omega
  simp [nodesFrom, hk, hk', range'_succ]

omit [DecidableEq A] in
theorem mem_allNodes {bs : Nat → List (A × T)} {size : Nat} {x : A × T} :
    x ∈ allNodes bs size ↔ ∃ i < size, x ∈ bs i := by
  simp [allNodes, nodesFrom, mem_range'_1]

/-! ## Clearing -/

/-- What the inner loop of `clear` has done to the nodes `ys` of the bucket. -/
structure Freed (st : HashTable A T) (ys : List (A × T)) (s : HashTable A T) : Prop where
  tab : s.tab = st.tab
  read : ∀ a, a ∉ ys.map Prod.fst → s.read a = st.read a
  mem : ∀ a ∈ s.nodes, a ∈ st.nodes ∧ a ∉ ys.map Prod.fst

theorem clearBucket_spec (h : Rep H st bs) {i : Nat} (hi : i < st.size) :
    ∃ st', st.clearBucket i = some st' ∧ st'.size = st.size ∧
      Rep H st' (Function.update bs i []) := by
  let inv : List (A × T) → Option A × HashTable A T → Prop := fun zs s =>
    ∃ ys, bs i = ys ++ zs ∧ IsList s.2.read s.1 zs ∧ Freed st ys s.2
  let post : Option (HashTable A T) → Prop := fun r => ∃ s, r = some s ∧ Freed st (bs i) s
  have hrun : ∃ r, Loop.run clearTurn (st.nodes.keys.length + 1) (st.entry i, st) = some r ∧
      post r := by
    refine Loop.exists_run_of_list clearTurn inv post ?_ ?_
      ⟨[], rfl, h.chain i hi, rfl, fun _ _ => rfl, by simp⟩ (length_lt_fuel (h.chain i hi))
    · rintro ⟨a, d⟩ zs ⟨cur, s⟩ ⟨ys, hbucket, hlist, hfreed⟩
      have hnot := (nodup_cons.mp hlist.nodup).1
      obtain ⟨rfl, next, hread, hrest⟩ := hlist
      refine Or.inl ⟨(next, s.free a), ?_, ys ++ [(a, d)], by simpa using hbucket, ?_, ?_⟩
      · simp [clearTurn, read_eq_some.mp hread]
      · rw [read_free]
        exact IsList.update hrest hnot _
      · refine ⟨hfreed.tab, ?_, ?_⟩
        · intro c hc
          have hca : c ≠ a := by
            rintro rfl
            simp at hc
          rw [read_free, Function.update_of_ne hca]
          exact hfreed.read c fun hmem => hc (by simp [hmem])
        · intro c hc
          obtain ⟨hca, hc⟩ := mem_free.mp hc
          obtain ⟨hold, hys⟩ := hfreed.mem c hc
          refine ⟨hold, ?_⟩
          rw [map_append, mem_append]
          rintro (hmem | hmem)
          · exact hys hmem
          · exact hca (by simpa using hmem)
    · rintro ⟨cur, s⟩ ⟨ys, hbucket, hlist, hfreed⟩
      obtain rfl : cur = none := hlist
      rw [append_nil] at hbucket
      exact ⟨some s, rfl, s, rfl, hbucket ▸ hfreed⟩
  obtain ⟨r, hr, s, rfl, hfreed⟩ := hrun
  have hsize : s.size = st.size := by rw [size, size, hfreed.tab]
  have hentry : s.entry = st.entry := by
    funext j
    rw [entry, entry, hfreed.tab]
  refine ⟨s.setEntry i none, by simp [clearBucket, hr], by simp [hsize], ?_⟩
  refine h.update hi (by simp [hsize]) ?_ ?_ ?_ (by simp) (by simp) ?_
  · intro j hj
    rw [entry_setEntry_ne _ hj, hentry]
  · intro c _ hc
    rw [read_setEntry, hfreed.read c hc]
  · rw [entry_setEntry_self (by omega)]
    rfl
  · intro c hc
    exact Or.inr (hfreed.mem c hc)

/-- `clear` leaves no node. -/
theorem clear_spec (h : Rep H st bs) :
    ∃ st', st.clear = some st' ∧ st'.size = st.size ∧ Rep H st' fun _ => [] := by
  have hloop : ∃ s', (List.range st.size).foldlM clearBucket st = some s' ∧ s'.size = st.size ∧
      Rep H s' fun j => if j < st.size then [] else bs j :=
    Loop.exists_foldlM_range
      (fun k s => s.size = st.size ∧ Rep H s fun j => if j < k then [] else bs j)
      ⟨rfl, by simpa using h⟩ (by
      rintro k s hk ⟨hsize, hrep⟩
      obtain ⟨s', hclear, hsize', hrep'⟩ := clearBucket_spec hrep (hsize ▸ hk)
      refine ⟨s', hclear, hsize'.trans hsize, ?_⟩
      convert hrep' using 1
      funext j
      by_cases hj : j = k
      · simp [hj]
      · have hiff : j < k + 1 ↔ j < k := by omega
        simp [hj, hiff])
  obtain ⟨st', hrun, hsize, hrep⟩ := hloop
  refine ⟨st', hrun, hsize, ?_⟩
  have hempty : ∀ j < st'.size, (if j < st.size then [] else bs j) = [] := by
    intro j hj
    rw [if_pos (hsize ▸ hj)]
  refine ⟨?_, by simp, by simp, ?_⟩
  · intro j hj
    rw [← hempty j hj]
    exact hrep.chain j hj
  · intro a ha
    obtain ⟨j, hj, hmem⟩ := hrep.live a ha
    rw [hempty j hj] at hmem
    exact ⟨j, hj, hmem⟩

/-! ## Counting -/

omit [DecidableEq A] in
theorem length_nodesFrom_zero_succ (bs : Nat → List (A × T)) (k : Nat) :
    (allNodes bs (k + 1)).length = (allNodes bs k).length + (bs k).length := by
  simp [allNodes, nodesFrom, range'_concat]

/-- `count` is the number of nodes. -/
theorem count_spec (h : Rep H st bs) : st.count = some (allNodes bs st.size).length := by
  let body (cnt i : Nat) : Option Nat :=
    (Loop.run (countTurn st) (st.nodes.keys.length + 1) (st.entry i, cnt)).join
  obtain ⟨cnt, hrun, hcnt⟩ := @Loop.exists_foldlM_range Nat body
    (fun k cnt => cnt = (allNodes bs k).length) st.size 0 rfl (by
      rintro k _ hk rfl
      refine ⟨_, ?_, rfl⟩
      have hturns : ∃ r, Loop.run (countTurn st) (st.nodes.keys.length + 1)
          (st.entry k, (allNodes bs k).length) = some r ∧ r = some (allNodes bs (k + 1)).length := by
        refine Loop.exists_run_of_list (countTurn st)
          (fun zs s => IsList st.read s.1 zs ∧ s.2 + zs.length = (allNodes bs (k + 1)).length)
          (fun r => r = some (allNodes bs (k + 1)).length) ?_ ?_
          ⟨h.chain k hk, (length_nodesFrom_zero_succ bs k).symm⟩ (length_lt_fuel (h.chain k hk))
        · rintro ⟨a, d⟩ zs ⟨cur, cnt⟩ ⟨⟨hcur, next, hread, hrest⟩, hcnt⟩
          refine Or.inl ⟨(next, cnt + 1), ?_, hrest, ?_⟩
          · simp only at hcur
            simp [countTurn, hcur, read_eq_some.mp hread]
          · simp only [length_cons] at hcnt
            simp only
            omega
        · rintro ⟨cur, cnt⟩ ⟨hcur, hcnt⟩
          obtain rfl : cur = none := hcur
          refine ⟨some cnt, rfl, ?_⟩
          simpa using hcnt
      obtain ⟨r, hr, rfl⟩ := hturns
      simp [body, hr])
  rw [hcnt] at hrun
  exact hrun

/-! ## Iterating -/

/-- The iterator stands on the first of the nodes `rest`. -/
def IterAt (st : HashTable A T) (bs : Nat → List (A × T)) (it : Iter A) (rest : List (A × T)) : Prop :=
  st.size ≤ it.i ∧ rest = [] ∨
    it.i < st.size ∧ ∃ ys x zs, bs it.i = ys ++ x :: zs ∧ IsList st.read it.node (x :: zs) ∧
      rest = x :: zs ++ nodesFrom bs st.size (it.i + 1)

/-- `step` goes to the first node of the next bucket that is not empty. -/
theorem stepFrom_spec (h : Rep H st bs) (k : Nat) : ∀ i, i + k = st.size →
    IterAt st bs (st.stepFrom k ⟨none, i⟩) (nodesFrom bs st.size i) := by
  induction k with
  | zero =>
    intro i hi
    exact Or.inl ⟨by simp [stepFrom, ← hi], nodesFrom_eq_nil bs (by omega)⟩
  | succ k ih =>
    intro i hi
    have hlt : i < st.size := by omega
    have hlist := h.chain i hlt
    rw [nodesFrom_eq_append bs hlt]
    cases hentry : st.entry i with
    | none =>
      have hnil : bs i = [] := by
        rw [hentry] at hlist
        exact IsList.unique hlist rfl
      simpa [stepFrom, hentry, hnil] using ih (i + 1) (by omega)
    | some a =>
      rw [hentry] at hlist
      cases hbucket : bs i with
      | nil =>
        rw [hbucket] at hlist
        cases hlist
      | cons x zs =>
        refine Or.inr ⟨?_, [], x, zs, ?_, ?_, ?_⟩
        · simpa [stepFrom, hentry] using hlt
        · simp [stepFrom, hentry, hbucket]
        · simpa [stepFrom, hentry, hbucket] using hlist
        · simp [stepFrom, hentry]

theorem begin_spec (h : Rep H st bs) : IterAt st bs st.begin (allNodes bs st.size) :=
  stepFrom_spec h _ 0 (by simp)

/-- On a node, the iterator gives its datum and goes to the next node. -/
theorem next_spec (h : Rep H st bs) {it : Iter A} {x : A × T} {rest : List (A × T)}
    (hat : IterAt st bs it (x :: rest)) :
    st.ended it = false ∧ st.item it = some x.2 ∧
      ∃ it', st.next it = some it' ∧ IterAt st bs it' rest := by
  rcases hat with ⟨-, hnil⟩ | ⟨hi, ys, ⟨a, d⟩, zs, hbucket, hlist, hrest⟩
  · cases hnil
  · obtain ⟨rfl, rfl⟩ := List.cons.inj hrest
    obtain ⟨hnode, next, hread, htail⟩ := hlist
    have hlookup := read_eq_some.mp hread
    refine ⟨by simpa [ended] using hi, by simp [item, hnode, hlookup], ?_⟩
    cases zs with
    | nil =>
      obtain rfl : next = none := htail
      refine ⟨st.step ⟨none, it.i + 1⟩, by simp [HashTable.next, hnode, hlookup], ?_⟩
      exact stepFrom_spec h _ (it.i + 1) (by simp only; omega)
    | cons y zs =>
      obtain ⟨b, e⟩ := y
      obtain rfl : next = some b := htail.1
      refine ⟨⟨some b, it.i⟩, by simp [HashTable.next, hnode, hlookup], ?_⟩
      exact Or.inr ⟨hi, ys ++ [(a, d)], (b, e), zs, by simpa using hbucket, htail, rfl⟩

/-- No node is in the table twice. -/
theorem nodup_allNodes (h : Rep H st bs) : ((allNodes bs st.size).map Prod.fst).Nodup := by
  rw [allNodes, nodesFrom, map_flatMap, nodup_flatMap]
  constructor
  · intro i hi
    have hi' : i < st.size := by simpa [mem_range'_1] using hi
    exact (h.chain i hi').nodup
  · have hnodup : (List.range' 0 (st.size - 0)).Nodup := nodup_range'
    refine hnodup.imp_of_mem ?_
    intro i j hi hj hij a hai haj
    have hi' : i < st.size := by simpa [mem_range'_1] using hi
    have hj' : j < st.size := by simpa [mem_range'_1] using hj
    exact hij (h.bucket_unique hi' hj' hai haj)

/-- No two nodes of the table hold equal keys. -/
theorem pairwise_allNodes (h : Rep H st bs) (hH : H.Lawful) :
    (allNodes bs st.size).Pairwise fun x y => H.isEqual x.2 y.2 = false := by
  rw [allNodes, nodesFrom, pairwise_flatMap]
  constructor
  · intro i hi
    exact h.distinct i (by simpa [mem_range'_1] using hi)
  · have hnodup : (List.range' 0 (st.size - 0)).Nodup := nodup_range'
    refine hnodup.imp_of_mem ?_
    intro i j hi hj hij x hx y hy
    have hi' : i < st.size := by simpa [mem_range'_1] using hi
    have hj' : j < st.size := by simpa [mem_range'_1] using hj
    rw [Bool.eq_false_iff]
    intro hequal
    apply hij
    rw [← h.placed i hi' x hx, ← h.placed j hj' y hy, index, index, hH.hash_eq _ _ hequal]

theorem length_allNodes_le (h : Rep H st bs) :
    (allNodes bs st.size).length ≤ st.nodes.keys.length := by
  have hsub : (allNodes bs st.size).map Prod.fst ⊆ st.nodes.keys := by
    intro a ha
    obtain ⟨x, hx, rfl⟩ := mem_map.mp ha
    obtain ⟨i, hi, hx⟩ := mem_allNodes.mp hx
    exact h.mem_nodes hi (mem_map_of_mem hx)
  simpa using ((nodup_allNodes h).subperm hsub).length_le

omit [DecidableEq A] in
theorem sublist_nodesFrom (bs : Nat → List (A × T)) (size i : Nat) :
    (nodesFrom bs size i).Sublist (allNodes bs size) := by
  induction i with
  | zero => exact Sublist.refl _
  | succ i ih =>
    by_cases hi : i < size
    · rw [nodesFrom_eq_append bs hi] at ih
      exact (sublist_append_right _ _).trans ih
    · rw [nodesFrom_eq_nil bs (by omega)]
      exact nil_sublist _

theorem IterAt.sublist {it : Iter A} {rest : List (A × T)} (hat : IterAt st bs it rest) :
    rest.Sublist (allNodes bs st.size) := by
  rcases hat with ⟨-, rfl⟩ | ⟨hi, ys, x, zs, hbucket, -, rfl⟩
  · exact nil_sublist _
  · have hsub : (x :: zs ++ nodesFrom bs st.size (it.i + 1)).Sublist (nodesFrom bs st.size it.i) := by
      rw [nodesFrom_eq_append bs hi, hbucket]
      exact (sublist_append_right ys (x :: zs)).append_right _
    exact hsub.trans (sublist_nodesFrom bs st.size it.i)

theorem ended_of_nil {it : Iter A} (hat : IterAt st bs it []) : st.ended it := by
  rcases hat with ⟨hi, -⟩ | ⟨-, ys, x, zs, -, -, hrest⟩
  · simpa [ended] using hi
  · cases hrest

/-- A loop over the items gives those from the iterator on. -/
theorem itemsTurn_spec (h : Rep H st bs) {it : Iter A} {rest : List (A × T)}
    (hat : IterAt st bs it rest) :
    (Loop.run (itemsTurn st) (st.nodes.keys.length + 1) (it, [])).join =
      some (rest.map Prod.snd) := by
  have hlen := hat.sublist.length_le.trans (length_allNodes_le h)
  have hrun : ∃ r, Loop.run (itemsTurn st) (st.nodes.keys.length + 1) (it, []) = some r ∧
      r = some (rest.map Prod.snd) := by
    refine Loop.exists_run_of_list (itemsTurn st)
      (fun rest' s => IterAt st bs s.1 rest' ∧
        s.2.reverse ++ rest'.map Prod.snd = rest.map Prod.snd)
      (fun r => r = some (rest.map Prod.snd)) ?_ ?_ ⟨hat, rfl⟩ (Nat.lt_succ_of_le hlen)
    · rintro x rest' ⟨it, acc⟩ ⟨hat, hacc⟩
      obtain ⟨hended, hitem, it', hnext, hat'⟩ := next_spec h hat
      refine Or.inl ⟨(it', x.2 :: acc), ?_, hat', by simpa using hacc⟩
      simp [itemsTurn, hended, hitem, hnext]
    · rintro ⟨it, acc⟩ ⟨hat, hacc⟩
      refine ⟨some acc.reverse, by simp [itemsTurn, ended_of_nil hat], ?_⟩
      simpa using hacc
  obtain ⟨r, hr, rfl⟩ := hrun
  simp [hr]

/-- An iteration gives the datum of each node once. -/
theorem items_spec (h : Rep H st bs) : st.items = some ((allNodes bs st.size).map Prod.snd) :=
  itemsTurn_spec h (begin_spec h)

end Elm.Data.HashTable
