import Elm.Data.HashTableTraverse

/-!
# Runs of a `HashTable`

A table is compared with a finite map keyed by `isEqual`: each operation on the table is the
operation of the map that it denotes, and after any run the lookups, the count and the iteration
answer as the map does.
-/

namespace Elm.Data.HashTable

open Chain List Function Option

variable {A T : Type*} [DecidableEq A]

/-! ## Finite maps -/

/-- A finite map keyed by `isEqual`: the datum stored for each key. -/
abbrev KeyMap (T : Type*) := T → Option T

/-- The operations on a finite map. -/
inductive MapOp (T : Type*) where
  | put (data : T)
  | remove (key : T)
  | clear
  | lookup

/-- The effect of an operation on a finite map. -/
def KeyMap.apply (H : Manager T) (m : KeyMap T) : MapOp T → KeyMap T
  | .put data => fun key => if H.isEqual data key then some data else m key
  | .remove key => fun key' => if H.isEqual key key' then none else m key'
  | .clear => fun _ => none
  | .lookup => m

section Apply

variable {T : Type*} {H : Manager T} {m : KeyMap T} {data key key' : T}

theorem apply_put_self (h : H.isEqual data key) : m.apply H (.put data) key = some data := if_pos h

theorem apply_put_of_ne (h : ¬ H.isEqual data key) : m.apply H (.put data) key = m key := if_neg h

theorem apply_remove_self (h : H.isEqual key key') : m.apply H (.remove key) key' = none := if_pos h

theorem apply_remove_of_ne (h : ¬ H.isEqual key key') : m.apply H (.remove key) key' = m key' :=
  if_neg h

end Apply

/-! ## Calls on a table -/

/-- A call on a table; `put` comes with the address that the allocator gives if it is asked for a
node. -/
inductive Op (A T : Type*) where
  | put (data : T) (fresh : A)
  | remove (key : T)
  | removeIter (it : Iter A)
  | clear
  | get (key : T)
  | hasKey (key : T)
  | contains (x : T)

/-- The table after a call. -/
def call (H : Manager T) (st : HashTable A T) : Op A T → Option (HashTable A T)
  | .put data fresh => st.put H data fresh
  | .remove key => st.remove H key
  | .removeIter it => st.removeIter it
  | .clear => st.clear
  | .get key => (st.get H key).map Prod.snd
  | .hasKey key => (st.hasKey H key).map Prod.snd
  | .contains x => (st.contains H x).map Prod.snd

/-- The operation on the map that a call denotes. -/
def denote (st : HashTable A T) : Op A T → MapOp T
  | .put data _ => .put data
  | .remove key => .remove key
  | .removeIter it =>
    match st.item it with
    | some data => .remove data
    | none => .lookup
  | .clear => .clear
  | .get _ => .lookup
  | .hasKey _ => .lookup
  | .contains _ => .lookup

/-- The contract of a call: the allocator gives an address that is not in use, and an iterator
given to `remove` stands on a node of the table, in its bucket. -/
def Allowed (H : Manager T) (st : HashTable A T) : Op A T → Prop
  | .put _ fresh => fresh ∉ st.nodes
  | .removeIter it => ∃ d, st.item it = some d ∧ it.i = st.index H d
  | _ => True

instance (H : Manager T) (st : HashTable A T) (op : Op A T) : Decidable (Allowed H st op) :=
  match op with
  | .put _ fresh => inferInstanceAs (Decidable (fresh ∉ st.nodes))
  | .removeIter it =>
    match h : st.item it with
    | some d => decidable_of_iff (it.i = st.index H d) (by simp [Allowed, h])
    | none => .isFalse (by simp [Allowed, h])
  | .remove _ | .clear | .get _ | .hasKey _ | .contains _ => .isTrue trivial

/-- A call on a table, and what it denotes on the map beside it. -/
def stepBoth (H : Manager T) (s : HashTable A T × KeyMap T) (op : Op A T) :
    Option (HashTable A T × KeyMap T) :=
  (call H s.1 op).map fun st => (st, s.2.apply H (denote s.1 op))

/-! ## The simulation -/

variable {H : Manager T} {st st' : HashTable A T} {bs : Nat → List (A × T)} {m : KeyMap T}

/-- The map holds the data of the nodes. -/
def Denotes (H : Manager T) (st : HashTable A T) (bs : Nat → List (A × T)) (m : KeyMap T) : Prop :=
  ∀ key d, m key = some d ↔ (∃ a, (a, d) ∈ bs (st.index H key)) ∧ H.isEqual d key

/-- The table is well formed and holds the data of the map. -/
def Refines (H : Manager T) (st : HashTable A T) (m : KeyMap T) : Prop :=
  ∃ bs, Rep H st bs ∧ Denotes H st bs m

omit [DecidableEq A] in
theorem index_congr (hsize : st'.size = st.size) (key : T) : st'.index H key = st.index H key := by
  rw [index, index, hsize]

omit [DecidableEq A] in
/-- A change of one bucket only concerns the keys of this bucket. -/
theorem Denotes.update (h : Denotes H st bs m) (hsize : st'.size = st.size) {i : Nat}
    {xs : List (A × T)} {m' : KeyMap T}
    (hin : ∀ key, st.index H key = i → ∀ d, m' key = some d ↔
      (∃ a, (a, d) ∈ xs) ∧ H.isEqual d key)
    (hout : ∀ key, st.index H key ≠ i → m' key = m key) :
    Denotes H st' (Function.update bs i xs) m' := by
  intro key d
  rw [index_congr hsize]
  by_cases hi : st.index H key = i
  · rw [hin key hi, hi, update_self]
  · rw [hout key hi, h key d, update_of_ne hi]

omit [DecidableEq A] in
theorem Denotes.reorder (h : Denotes H st bs m) (hsize : st'.size = st.size) {i : Nat}
    {xs : List (A × T)} (hperm : xs.Perm (bs i)) :
    Denotes H st' (Function.update bs i xs) m := by
  refine h.update hsize ?_ fun _ _ => rfl
  rintro key rfl d
  rw [h key d]
  simp only [hperm.mem_iff]

omit [DecidableEq A] in
/-- The keys equal to `key` are in its bucket. -/
theorem index_eq_of_isEqual (hH : H.Lawful) (st : HashTable A T) {key key' : T}
    (h : H.isEqual key key') : st.index H key = st.index H key' := by
  rw [index, index, hH.hash_eq _ _ h]

/-- Two nodes of a bucket with equal keys are at the same place. -/
theorem Rep.isEqual_middle (h : Rep H st bs) (hH : H.Lawful) {i : Nat} (hi : i < st.size)
    {ys zs : List (A × T)} {x : A × T} (hxs : bs i = ys ++ x :: zs) {y : A × T} (hy : y ∈ ys ++ zs) :
    ¬ H.isEqual y.2 x.2 := by
  have hdistinct := hxs ▸ h.distinct i hi
  obtain ⟨-, hright, hcross⟩ := pairwise_append.mp hdistinct
  intro hequal
  rcases mem_append.mp hy with hy | hy
  · exact Bool.eq_false_iff.mp (hcross y hy x (by simp)) hequal
  · exact Bool.eq_false_iff.mp ((pairwise_cons.mp hright).1 y hy) (hH.equivalence.symm hequal)

/-- Taking the node of a key out of its bucket removes the key from the map. -/
theorem Denotes.remove (h : Denotes H st bs m) (hrep : Rep H st bs) (hH : H.Lawful)
    (hsize : st'.size = st.size) {key : T} {ys zs : List (A × T)} {a : A} {d : T}
    (hxs : bs (st.index H key) = ys ++ (a, d) :: zs) (hequal : H.isEqual d key) :
    Denotes H st' (Function.update bs (st.index H key) (ys ++ zs)) (m.apply H (.remove key)) := by
  refine h.update hsize ?_ ?_
  · intro key' hindex d'
    have hold := h key' d'
    rw [hindex, hxs] at hold
    by_cases hkey : H.isEqual key key'
    · -- the key was only that of the node
      rw [apply_remove_self hkey]
      simp only [reduceCtorEq, false_iff, not_and]
      rintro ⟨a', hmem⟩ hequal'
      have hd : H.isEqual d' d := hH.equivalence.trans hequal'
        (hH.equivalence.trans (hH.equivalence.symm hkey) (hH.equivalence.symm hequal))
      exact hrep.isEqual_middle hH (st.index_lt key) hxs hmem hd
    · have hmid : ¬ H.isEqual d key' := fun hd =>
        hkey (hH.equivalence.trans (hH.equivalence.symm hequal) hd)
      rw [apply_remove_of_ne hkey, hold]
      constructor
      · rintro ⟨⟨a', hmem⟩, hequal'⟩
        refine ⟨⟨a', ?_⟩, hequal'⟩
        have hne : (a', d') ≠ (a, d) := by
          rintro ⟨⟩
          exact hmid hequal'
        simpa [hne] using hmem
      · rintro ⟨⟨a', hmem⟩, hequal'⟩
        refine ⟨⟨a', ?_⟩, hequal'⟩
        rcases mem_append.mp hmem with hmem | hmem
        · simp [hmem]
        · simp [hmem]
  · intro key' hindex
    have hkey : ¬ H.isEqual key key' := fun hk => hindex (index_eq_of_isEqual hH st hk).symm
    exact apply_remove_of_ne hkey

omit [DecidableEq A] in
/-- A new node adds its datum to the map. -/
theorem Denotes.add (h : Denotes H st bs m) (hH : H.Lawful) (hsize : st'.size = st.size) {data : T}
    {a : A} (hnone : ∀ x ∈ bs (st.index H data), H.isEqual x.2 data = false) :
    Denotes H st' (Function.update bs (st.index H data) ((a, data) :: bs (st.index H data)))
      (m.apply H (.put data)) := by
  refine h.update hsize ?_ ?_
  · intro key hindex d
    have hold := h key d
    rw [hindex] at hold
    by_cases hkey : H.isEqual data key
    · rw [apply_put_self hkey, some.injEq]
      constructor
      · rintro rfl
        exact ⟨⟨a, by simp⟩, hkey⟩
      · rintro ⟨⟨b, hmem⟩, hequal⟩
        rcases mem_cons.mp hmem with heq | hmem
        · exact (Prod.mk.inj heq).2.symm
        · have hd := hH.equivalence.trans hequal (hH.equivalence.symm hkey)
          exact absurd hd (Bool.eq_false_iff.mp (hnone _ hmem))
    · rw [apply_put_of_ne hkey, hold]
      constructor
      · rintro ⟨⟨b, hmem⟩, hequal⟩
        exact ⟨⟨b, by simp [hmem]⟩, hequal⟩
      · rintro ⟨⟨b, hmem⟩, hequal⟩
        rcases mem_cons.mp hmem with heq | hmem
        · rw [(Prod.mk.inj heq).2] at hequal
          exact absurd hequal hkey
        · exact ⟨⟨b, hmem⟩, hequal⟩
  · intro key hindex
    have hkey : ¬ H.isEqual data key := fun hk => hindex (index_eq_of_isEqual hH st hk).symm
    exact apply_put_of_ne hkey

/-- New data in a node replace the datum of its key in the map. -/
theorem Denotes.replace (h : Denotes H st bs m) (hrep : Rep H st bs) (hH : H.Lawful)
    (hsize : st'.size = st.size) {data : T} {ys zs : List (A × T)} {a : A} {d : T}
    (hxs : bs (st.index H data) = ys ++ (a, d) :: zs) (hequal : H.isEqual d data) :
    Denotes H st' (Function.update bs (st.index H data) (ys ++ (a, data) :: zs))
      (m.apply H (.put data)) := by
  refine h.update hsize ?_ ?_
  · intro key hindex d'
    have hold := h key d'
    rw [hindex, hxs] at hold
    by_cases hkey : H.isEqual data key
    · rw [apply_put_self hkey, some.injEq]
      constructor
      · rintro rfl
        exact ⟨⟨a, by simp⟩, hkey⟩
      · rintro ⟨⟨b, hmem⟩, hequal'⟩
        have hd : H.isEqual d' d := hH.equivalence.trans hequal'
          (hH.equivalence.trans (hH.equivalence.symm hkey) (hH.equivalence.symm hequal))
        by_cases hmid : (b, d') = (a, data)
        · exact (Prod.mk.inj hmid).2.symm
        · have hother : (b, d') ∈ ys ++ zs := by simpa [hmid] using hmem
          exact absurd hd (hrep.isEqual_middle hH (st.index_lt data) hxs hother)
    · have hmid : ¬ H.isEqual d key := fun hd =>
        hkey (hH.equivalence.trans (hH.equivalence.symm hequal) hd)
      rw [apply_put_of_ne hkey, hold]
      constructor
      · rintro ⟨⟨b, hmem⟩, hequal'⟩
        have hne : (b, d') ≠ (a, d) := by
          rintro ⟨⟩
          exact hmid hequal'
        exact ⟨⟨b, by simpa [hne] using Or.imp_right Or.inr (by simpa [hne] using hmem)⟩, hequal'⟩
      · rintro ⟨⟨b, hmem⟩, hequal'⟩
        have hne : (b, d') ≠ (a, data) := by
          rintro ⟨⟩
          exact hkey hequal'
        exact ⟨⟨b, by simpa [hne] using Or.imp_right Or.inr (by simpa [hne] using hmem)⟩, hequal'⟩
  · intro key hindex
    have hkey : ¬ H.isEqual data key := fun hk => hindex (index_eq_of_isEqual hH st hk).symm
    exact apply_put_of_ne hkey

/-! ## The calls -/

/-- `find` leaves the map as it is and answers with the node of the key. -/
theorem find_refines (hH : H.Lawful) (h : Rep H st bs) (hm : Denotes H st bs m) (key : T) :
    ∃ found st' bs', st.find H key = some (found, st') ∧ st'.size = st.size ∧ Rep H st' bs' ∧
      Denotes H st' bs' m ∧ (∀ a, a ∈ st'.nodes ↔ a ∈ st.nodes) ∧
      (found = none ∧ m key = none ∧ (∀ x ∈ bs' (st'.index H key), H.isEqual x.2 key = false) ∨
        ∃ a d, found = some a ∧ m key = some d ∧ (a, d) ∈ bs' (st'.index H key) ∧
          H.isEqual d key) := by
  obtain ⟨found, st', xs, hfind, hsize, hrep, hperm, hnodes, hfound⟩ := h.find_spec hH.symmetric key
  refine ⟨found, st', _, hfind, hsize, hrep, hm.reorder hsize hperm, hnodes, ?_⟩
  rw [index_congr hsize, update_self]
  rcases hfound with ⟨rfl, hnone⟩ | ⟨a, d, rfl, hmem, hequal⟩
  · refine Or.inl ⟨rfl, ?_, fun x hx => hnone x (hperm.mem_iff.mp hx)⟩
    rw [eq_none_iff_forall_ne_some]
    intro d hd
    obtain ⟨⟨a, hmem⟩, hequal⟩ := (hm key d).mp hd
    exact Bool.eq_false_iff.mp (hnone _ hmem) hequal
  · exact Or.inr ⟨a, d, rfl, (hm key d).mpr ⟨⟨a, hmem⟩, hequal⟩, hperm.mem_iff.mpr hmem, hequal⟩

theorem get_refines (hH : H.Lawful) (h : Refines H st m) (key : T) :
    ∃ st', st.get H key = some (m key, st') ∧ st'.size = st.size ∧ Refines H st' m := by
  obtain ⟨bs, hrep, hm⟩ := h
  obtain ⟨found, st', bs', hfind, hsize, hrep', hm', -, hfound⟩ := find_refines hH hrep hm key
  refine ⟨st', ?_, hsize, bs', hrep', hm'⟩
  rcases hfound with ⟨rfl, hnone, -⟩ | ⟨a, d, rfl, hsome, hmem, -⟩
  · simp [get, hfind, deref, hnone]
  · obtain ⟨next, hread⟩ := hrep'.read_of_mem (st'.index_lt key) hmem
    simp [get, hfind, deref, read_eq_some.mp hread, hsome]

theorem hasKey_refines (hH : H.Lawful) (h : Refines H st m) (key : T) :
    ∃ st', st.hasKey H key = some ((m key).isSome, st') ∧ st'.size = st.size ∧ Refines H st' m := by
  obtain ⟨bs, hrep, hm⟩ := h
  obtain ⟨found, st', bs', hfind, hsize, hrep', hm', -, hfound⟩ := find_refines hH hrep hm key
  refine ⟨st', ?_, hsize, bs', hrep', hm'⟩
  rcases hfound with ⟨rfl, hnone, -⟩ | ⟨a, d, rfl, hsome, -⟩
  · simp [hasKey, hfind, hnone]
  · simp [hasKey, hfind, hsome]

theorem put_refines (hH : H.Lawful) (h : Refines H st m) (data : T) {fresh : A}
    (hfresh : fresh ∉ st.nodes) :
    ∃ st', st.put H data fresh = some st' ∧ st'.size = st.size ∧
      Refines H st' (m.apply H (.put data)) := by
  obtain ⟨bs, hrep, hm⟩ := h
  obtain ⟨found, st₁, bs₁, hfind, hsize, hrep₁, hm₁, hnodes, hfound⟩ :=
    find_refines hH hrep hm data
  rcases hfound with ⟨rfl, -, hnone⟩ | ⟨a, d, rfl, -, hmem, hequal⟩
  · refine ⟨st₁.add H data fresh, by simp [put, hfind], ?_, _, hrep₁.add_spec ?_ ?_,
      hm₁.add hH ?_ hnone⟩
    · simp [add, hsize]
    · exact fun hmem => hfresh ((hnodes fresh).mp hmem)
    · intro x hx
      rw [Bool.eq_false_iff]
      intro hequal
      exact Bool.eq_false_iff.mp (hnone x hx) (hH.equivalence.symm hequal)
    · simp [add]
  · have hi := st₁.index_lt (H := H) data
    obtain ⟨next, hread⟩ := hrep₁.read_of_mem hi hmem
    obtain ⟨ys, zs, hxs⟩ := append_of_mem hmem
    refine ⟨st₁.store a ⟨next, data⟩, ?_, hsize, _, hrep₁.replace_spec hi hxs hread rfl (hH.isEqual_congr hequal),
      hm₁.replace hrep₁ hH rfl hxs hequal⟩
    simp [put, hfind, read_eq_some.mp hread]

theorem remove_refines (hH : H.Lawful) (h : Refines H st m) (key : T) :
    ∃ st', st.remove H key = some st' ∧ st'.size = st.size ∧
      Refines H st' (m.apply H (.remove key)) := by
  obtain ⟨bs, hrep, hm⟩ := h
  have hi := st.index_lt (H := H) key
  rcases scan_spec (fun _ d => H.isEqual d key) (hrep.chain _ hi) with
    ⟨hscan, hnone⟩ | ⟨ys, a, d, zs, next, hxs, hequal, -, hread, hscan⟩
  · refine ⟨st, by simp [remove, hscan], rfl, bs, hrep, ?_⟩
    intro key' d
    by_cases hkey : H.isEqual key key'
    · -- the map has no such key either
      rw [apply_remove_self hkey, ← index_eq_of_isEqual hH st hkey]
      simp only [reduceCtorEq, false_iff, not_and]
      rintro ⟨a, hmem⟩ hequal
      have hd := hH.equivalence.trans hequal (hH.equivalence.symm hkey)
      exact Bool.eq_false_iff.mp (hnone _ hmem) hd
    · rw [apply_remove_of_ne hkey]
      exact hm key' d
  · obtain ⟨st', hunlink, hsize, hrep'⟩ := hrep.unlink_spec hi hxs hread
    refine ⟨st', ?_, hsize, _, hrep', hm.remove hrep hH hsize hxs hequal⟩
    simpa [remove, hscan] using hunlink

/-- `remove` of an iterator takes out the node it stands on. -/
theorem Rep.removeIter_spec (h : Rep H st bs) {it : Iter A} {d : T} (hitem : st.item it = some d)
    (hindex : it.i = st.index H d) :
    ∃ ys a zs st', bs (st.index H d) = ys ++ (a, d) :: zs ∧ st.removeIter it = some st' ∧ st'.size = st.size ∧
      Rep H st' (Function.update bs (st.index H d) (ys ++ zs)) := by
  have hi := st.index_lt (H := H) d
  -- the node of the iterator is in the bucket of its datum
  obtain ⟨a, hnode, hmem⟩ : ∃ a, it.node = some a ∧ (a, d) ∈ bs (st.index H d) := by
    obtain ⟨n, hn, rfl⟩ := map_eq_some_iff.mp hitem
    obtain ⟨a, hnode, hlookup⟩ := bind_eq_some_iff.mp hn
    have hread : st.read a = some (n.next, n.data) := read_eq_some.mpr hlookup
    obtain ⟨j, hj, hmem⟩ := h.live a (mem_of_read (by simp [hread]))
    obtain ⟨⟨a', d'⟩, hcell, rfl⟩ := mem_map.mp hmem
    obtain ⟨next, hread'⟩ := h.read_of_mem hj hcell
    obtain ⟨-, rfl⟩ := Prod.mk.inj (some.inj (hread.symm.trans hread'))
    rw [h.placed j hj _ hcell]
    exact ⟨_, hnode, hcell⟩
  rcases scan_spec (fun a _ => it.node = some a) (h.chain _ hi) with
    ⟨-, hnone⟩ | ⟨ys, b, e, zs, next, hxs, hfound, -, hread, hscan⟩
  · have htest := hnone _ hmem
    simp [hnode] at htest
  · obtain rfl : a = b := by simpa [hnode] using hfound
    obtain ⟨next', hread'⟩ := h.read_of_mem hi hmem
    obtain ⟨rfl, rfl⟩ := Prod.mk.inj (some.inj (hread.symm.trans hread'))
    obtain ⟨st', hunlink, hsize, h'⟩ := h.unlink_spec hi hxs hread
    refine ⟨ys, a, zs, st', hxs, ?_, hsize, h'⟩
    rw [removeIter, hindex, hscan]
    exact hunlink

theorem removeIter_refines (hH : H.Lawful) (h : Refines H st m) {it : Iter A} {d : T}
    (hitem : st.item it = some d) (hindex : it.i = st.index H d) :
    ∃ st', st.removeIter it = some st' ∧ st'.size = st.size ∧
      Refines H st' (m.apply H (.remove d)) := by
  obtain ⟨bs, hrep, hm⟩ := h
  obtain ⟨ys, a, zs, st', hxs, hremove, hsize, hrep'⟩ := hrep.removeIter_spec hitem hindex
  exact ⟨st', hremove, hsize, _, hrep', hm.remove hrep hH hsize hxs (hH.equivalence.refl d)⟩

theorem clear_refines (h : Refines H st m) :
    ∃ st', st.clear = some st' ∧ st'.size = st.size ∧ Refines H st' (m.apply H .clear) := by
  obtain ⟨bs, hrep, hm⟩ := h
  obtain ⟨st', hclear, hsize, hrep'⟩ := clear_spec hrep
  exact ⟨st', hclear, hsize, _, hrep', fun key d => by simp [KeyMap.apply]⟩

/-- Each allowed call succeeds and simulates the operation of the map that it denotes. -/
theorem call_refines (hH : H.Lawful) (h : Refines H st m) {op : Op A T} (hop : Allowed H st op) :
    ∃ st', call H st op = some st' ∧ st'.size = st.size ∧
      Refines H st' (m.apply H (denote st op)) := by
  cases op with
  | put data fresh => exact put_refines hH h data hop
  | remove key => exact remove_refines hH h key
  | removeIter it =>
    obtain ⟨d, hitem, hindex⟩ := hop
    obtain ⟨st', hcall, hsize, hrefines⟩ := removeIter_refines hH h hitem hindex
    refine ⟨st', hcall, hsize, ?_⟩
    simpa [denote, hitem] using hrefines
  | clear => exact clear_refines h
  | get key =>
    obtain ⟨st', hget, hsize, hrefines⟩ := get_refines hH h key
    exact ⟨st', by simp [call, hget], hsize, hrefines⟩
  | hasKey key =>
    obtain ⟨st', hget, hsize, hrefines⟩ := hasKey_refines hH h key
    exact ⟨st', by simp [call, hget], hsize, hrefines⟩
  | contains x =>
    obtain ⟨st', hget, hsize, hrefines⟩ := hasKey_refines hH h x
    refine ⟨st', ?_, hsize, hrefines⟩
    have hcontains : st.contains H x = st.hasKey H x := rfl
    simp [call, hcontains, hget]

theorem refines_new (H : Manager T) (size : Nat) (hsize : 0 < size) :
    Refines H (new size hsize : HashTable A T) fun _ => none := by
  refine ⟨fun _ => [], ⟨?_, by simp, by simp, ?_⟩, fun _ _ => by simp⟩
  · intro i _
    have hentry : (new size hsize : HashTable A T).entry i = none := by
      simp only [entry, new, getD_eq_getElem?_getD, getElem?_replicate]
      split_ifs <;> rfl
    exact hentry
  · intro a ha
    simp [new] at ha

/-- After any run of allowed calls on an empty table, every node is in the bucket of its hash, no two
nodes hold equal keys, no node is lost or linked twice, and the table answers as the finite map
that has undergone the same operations. -/
theorem hashTable_run (H : Manager T) (hH : H.Lawful) (size : Nat) (hsize : 0 < size)
    (ops : List (Op A T))
    (hops : Run.Meets (fun s op => Allowed H s.1 op) (stepBoth H) (new size hsize, fun _ => none)
      ops) :
    ∃ st m, Run.exec (stepBoth H) (new size hsize, fun _ => none) ops = some (st, m) ∧
      ∃ bs : Nat → List (A × T),
        (∀ i < size, IsList st.read (st.entry i) (bs i) ∧
          ∀ x ∈ bs i, H.computeHash x.2 % size = i) ∧
        (allNodes bs size).Pairwise (fun x y => H.isEqual x.2 y.2 = false) ∧
        ((allNodes bs size).map Prod.fst).Nodup ∧
        (∀ a, a ∈ st.nodes ↔ a ∈ (allNodes bs size).map Prod.fst) ∧
        st.count = some (allNodes bs size).length ∧
        st.items = some ((allNodes bs size).map Prod.snd) ∧
        (∀ d, d ∈ (allNodes bs size).map Prod.snd ↔ m d = some d) ∧
        ∀ key, (∃ st', st.get H key = some (m key, st')) ∧
          (∃ st', st.hasKey H key = some ((m key).isSome, st')) ∧
          ∃ st', st.contains H key = some ((m key).isSome, st') := by
  obtain ⟨⟨st, m⟩, hexec, hsz, hrefines⟩ := Run.exists_exec_of_meets
    (fun s : HashTable A T × KeyMap T => s.1.size = size ∧ Refines H s.1 s.2)
    (by
      rintro ⟨st, m⟩ op ⟨hsz, hrefines⟩ hop
      obtain ⟨st', hcall, hsize', hrefines'⟩ := call_refines hH hrefines hop
      exact ⟨(st', m.apply H (denote st op)), by simp [stepBoth, hcall], hsize'.trans hsz, hrefines'⟩)
    ops _ ⟨by simp [HashTable.size, new], refines_new H size hsize⟩ hops
  have hall := hrefines
  obtain ⟨bs, hrep, hm⟩ := hrefines
  simp only at hsz hrep hm hall
  subst hsz
  refine ⟨st, m, hexec, bs, fun i hi => ⟨hrep.chain i hi, hrep.placed i hi⟩,
    pairwise_allNodes hrep hH, nodup_allNodes hrep, ?_, count_spec hrep, items_spec hrep, ?_, ?_⟩
  · intro a
    constructor
    · intro ha
      obtain ⟨i, hi, hmem⟩ := hrep.live a ha
      obtain ⟨x, hx, rfl⟩ := mem_map.mp hmem
      exact mem_map_of_mem (mem_allNodes.mpr ⟨i, hi, hx⟩)
    · intro ha
      obtain ⟨x, hx, rfl⟩ := mem_map.mp ha
      obtain ⟨i, hi, hx⟩ := mem_allNodes.mp hx
      exact hrep.mem_nodes hi (mem_map_of_mem hx)
  · intro d
    rw [hm d d]
    constructor
    · intro hd
      obtain ⟨⟨a, d⟩, hx, rfl⟩ := mem_map.mp hd
      obtain ⟨i, hi, hx⟩ := mem_allNodes.mp hx
      have hplaced := hrep.placed i hi _ hx
      exact ⟨⟨a, hplaced ▸ hx⟩, hH.equivalence.refl d⟩
    · rintro ⟨⟨a, hmem⟩, -⟩
      exact mem_map.mpr ⟨(a, d), mem_allNodes.mpr ⟨_, st.index_lt d, hmem⟩, rfl⟩
  · intro key
    obtain ⟨st₁, hget, -⟩ := get_refines hH hall key
    obtain ⟨st₂, hhas, -⟩ := hasKey_refines hH hall key
    exact ⟨⟨st₁, hget⟩, ⟨st₂, hhas⟩, st₂, hhas⟩

/-- Numbers hashed by themselves. -/
def natManager : Manager Nat := ⟨id, fun a b => a == b⟩

theorem lawful_natManager : natManager.Lawful where
  equivalence := ⟨by simp [natManager], by simp [natManager], by simp [natManager]⟩
  hash_eq := by simp [natManager]

/-- A table of two buckets after an insertion, a lookup and a removal. -/
theorem hashTable_run_nat :
    ∃ st m, Run.exec (stepBoth natManager) (new 2 (by decide), fun _ => none)
        [.put 3 (0 : Nat), .get 5, .remove 3, .contains 3] = some (st, m) ∧
      ∃ bs : Nat → List (Nat × Nat),
        (∀ i < 2, IsList st.read (st.entry i) (bs i) ∧
          ∀ x ∈ bs i, natManager.computeHash x.2 % 2 = i) ∧
        (allNodes bs 2).Pairwise (fun x y => natManager.isEqual x.2 y.2 = false) ∧
        ((allNodes bs 2).map Prod.fst).Nodup ∧
        (∀ a, a ∈ st.nodes ↔ a ∈ (allNodes bs 2).map Prod.fst) ∧
        st.count = some (allNodes bs 2).length ∧
        st.items = some ((allNodes bs 2).map Prod.snd) ∧
        (∀ d, d ∈ (allNodes bs 2).map Prod.snd ↔ m d = some d) ∧
        ∀ key, (∃ st', st.get natManager key = some (m key, st')) ∧
          (∃ st', st.hasKey natManager key = some ((m key).isSome, st')) ∧
          ∃ st', st.contains natManager key = some ((m key).isSome, st') :=
  hashTable_run natManager lawful_natManager 2 (by decide) _
    ⟨by simp [Allowed, new], fun _ _ => ⟨trivial, fun _ _ => ⟨trivial, fun _ _ =>
      ⟨trivial, fun _ _ => trivial⟩⟩⟩⟩

end Elm.Data.HashTable
