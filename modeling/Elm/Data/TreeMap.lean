import Elm.Data.TreeBagRun

/-!
# `TreeMap`

The map of `include/elm/data/TreeMap.h`: a `TreeBag` of pairs that are compared by their keys.  `put` is the `add`
of the bag, so a second pair is added for a key that is there already, behind the first one.
-/

namespace Elm.Data

open List hiding nil
open BinaryTree Std Function Option

variable {K V : Type*}

/-- `AssocComparator::compare`. -/
def assocCompare (cmp : K → K → Ordering) (v1 v2 : K × V) : Ordering := cmp v1.1 v2.1

instance {cmp : K → K → Ordering} [TransCmp cmp] : TransCmp (@assocCompare K V cmp) where
  eq_swap {a b} := show cmp a.1 b.1 = (cmp b.1 a.1).swap from OrientedCmp.eq_swap
  isLE_trans {a b c} := show (cmp a.1 b.1).isLE → (cmp b.1 c.1).isLE → (cmp a.1 c.1).isLE from
    TransCmp.isLE_trans

/-- `TreeMap`: its member `tree`. -/
abbrev TreeMap (K V : Type*) := TreeBag (K × V)

namespace TreeMap

/-! ## The calls -/

section Calls

variable (cmp : K → K → Ordering)

/-- `put`. -/
def put (m : TreeMap K V) (key : K) (value : V) : Option (TreeMap K V) := m.add (assocCompare cmp) (key, value)

variable [Inhabited V]

/-- `key`: the pair that is looked for, with the value `T()`. -/
def key (k : K) : K × V := (k, default)

/-- `remove`. -/
def remove (m : TreeMap K V) (k : K) : Option (TreeMap K V) := TreeBag.remove (assocCompare cmp) (key k) m

/-- `get(key)`. -/
def get (m : TreeMap K V) (k : K) : Option (Option V) :=
  (m.find (assocCompare cmp) (key k)).map fun res => res.map Prod.snd

/-- `get(key, def)`. -/
def getDef (m : TreeMap K V) (k : K) (dflt : V) : Option V :=
  (m.find (assocCompare cmp) (key k)).map fun val => (val.map Prod.snd).getD dflt

/-- `hasKey`. -/
def hasKey (m : TreeMap K V) (k : K) : Option Bool := m.contains (assocCompare cmp) (key k)

end Calls

/-- The keys that a `KeyIter` gives. -/
def keys (m : TreeMap K V) : Option (List K) := m.items.map fun pairs => pairs.map Prod.fst

/-! ## Programs -/

/-- A call that changes the map. -/
inductive Op (K V : Type*)
  | put (key : K) (value : V)
  | remove (key : K)

/-- The map, and the value of the last `put` on each key that has not been removed. -/
structure State (K V : Type*) where
  map : TreeMap K V
  last : K → Option V

/-- An empty map. -/
def State.init : State K V := ⟨TreeBag.new, fun _ => none⟩

variable [Inhabited V] [DecidableEq K]

def step (cmp : K → K → Ordering) (s : State K V) : Op K V → Option (State K V)
  | .put key value => (put cmp s.map key value).map fun m => ⟨m, update s.last key (some value)⟩
  | .remove key => (remove cmp s.map key).map fun m => ⟨m, update s.last key none⟩

/-- The lookups give what was put last, and an iteration gives each key once. -/
structure Agrees (cmp : K → K → Ordering) (s : State K V) : Prop where
  get : ∀ k, get cmp s.map k = some (s.last k)
  getDef : ∀ k dflt, getDef cmp s.map k dflt = some ((s.last k).getD dflt)
  hasKey : ∀ k, hasKey cmp s.map k = some (s.last k).isSome
  keys : ∃ ks, s.map.keys = some ks ∧ ks.Nodup ∧ ∀ k, k ∈ ks ↔ (s.last k).isSome

/-- `put` is on a key that is not there, and `remove` on one that is. -/
def Allowed (s : State K V) : Op K V → Prop
  | .put key _ => s.last key = none
  | .remove key => (s.last key).isSome

instance (s : State K V) : (op : Op K V) → Decidable (Allowed s op)
  | .put key _ => decidable_of_iff ((s.last key).isNone = true) isNone_iff_eq_none
  | .remove key => inferInstanceAs (Decidable ((s.last key).isSome = true))

/-! ## The pairs of the map -/

omit [Inhabited V] in
/-- The pairs are in a search tree, one for each key that has been put and not removed. -/
structure Holds (cmp : K → K → Ordering) (s : State K V) (root : BinaryTree (K × V)) : Prop where
  map : s.map = .nodes root
  searchTree : TreeBag.SearchTree (assocCompare cmp) root
  nodup : (root.toList.map Prod.fst).Nodup
  last : ∀ k v, (k, v) ∈ root.toList ↔ s.last k = some v

variable {cmp : K → K → Ordering} {s s' : State K V} {root : BinaryTree (K × V)}

omit [DecidableEq K] in
/-- The lookup of a key finds the pair of this key. -/
theorem Holds.find_eq [TransCmp cmp] [LawfulEqCmp cmp] (h : Holds cmp s root) (k : K) :
    s.map.find (assocCompare cmp) (key k) = some ((s.last k).map fun v => (k, v)) := by
  rw [h.map]
  show some (TreeBag.findNode (assocCompare cmp) (key k) root) = _
  rcases TreeBag.findNode_spec h.searchTree (key k) with ⟨⟨k', v⟩, hmem, hfind, heq⟩ | ⟨hfind, hnone⟩
  · obtain rfl : k = k' := LawfulEqCmp.compare_eq_iff_eq.mp heq
    rw [hfind, (h.last k v).mp hmem]
    rfl
  · rw [hfind]
    cases hlast : s.last k with
    | none => rfl
    | some v => exact absurd ReflCmp.compare_self (hnone (k, v) ((h.last k v).mpr hlast))

omit [DecidableEq K] in
theorem Holds.agrees [TransCmp cmp] [LawfulEqCmp cmp] (h : Holds cmp s root) : Agrees cmp s where
  get k := by
    rw [get, h.find_eq]
    cases s.last k <;> rfl
  getDef k dflt := by
    rw [getDef, h.find_eq]
    cases s.last k <;> rfl
  hasKey k := by
    rw [hasKey, TreeBag.contains, h.find_eq]
    cases s.last k <;> rfl
  keys := by
    refine ⟨root.toList.map Prod.fst, ?_, h.nodup, fun k => ?_⟩
    · rw [h.map, keys, TreeBag.items_eq]
      rfl
    · rw [List.mem_map, isSome_iff_exists]
      constructor
      · rintro ⟨⟨k, v⟩, hmem, rfl⟩
        exact ⟨v, (h.last k v).mp hmem⟩
      · rintro ⟨v, hv⟩
        exact ⟨(k, v), (h.last k v).mpr hv, rfl⟩

omit [DecidableEq K] [Inhabited V] in
theorem holds_init : Holds cmp (State.init : State K V) nil :=
  ⟨rfl, trivial, nodup_nil, fun _ _ => iff_of_false nofun nofun⟩

/-! ## Runs -/

/-- A new pair for a key that is not there. -/
theorem Holds.put [TransCmp cmp] (h : Holds cmp s root) {key : K} (value : V) (hkey : s.last key = none) :
    ∃ s' root', step cmp s (.put key value) = some s' ∧ Holds cmp s' root' := by
  have hperm := @TreeBag.perm_insert _ (assocCompare cmp) (key, value) root
  have hnot : ∀ v, (key, v) ∉ root.toList := by
    intro v hmem
    rw [h.last, hkey] at hmem
    cases hmem
  refine ⟨⟨.nodes (TreeBag.insert (assocCompare cmp) (key, value) root), update s.last key (some value)⟩, _,
    ?_, rfl, h.searchTree.insert (key, value), ?_, fun k v => ?_⟩
  · simp only [step, TreeMap.put, h.map, TreeBag.add, map_some]
  -- the key is not in the tree yet
  · rw [(hperm.map Prod.fst).nodup_iff, map_cons, nodup_cons]
    refine ⟨fun hmem => ?_, h.nodup⟩
    obtain ⟨⟨k, v⟩, hpair, hk⟩ := List.mem_map.mp hmem
    obtain rfl : k = key := hk
    exact hnot v hpair
  · rw [hperm.mem_iff, mem_cons, Prod.mk.injEq]
    by_cases hk : k = key
    · subst hk
      simp [hnot, eq_comm]
    · simp [hk, h.last]

/-- A second pair for a key that is there. -/
theorem Holds.put_twice (h : Holds cmp s root) {key : K} {value : V} (hkey : s.last key ≠ none)
    (hstep : step cmp s (.put key value) = some s') : ¬ Agrees cmp s' := by
  obtain ⟨m, hput, rfl⟩ := map_eq_some_iff.mp hstep
  rw [TreeMap.put, h.map] at hput
  obtain rfl := some.inj hput
  obtain ⟨v, hv⟩ := ne_none_iff_exists'.mp hkey
  intro hagrees
  obtain ⟨ks, hkeys, hnodup, -⟩ := hagrees.keys
  rw [keys, TreeBag.items_eq] at hkeys
  obtain rfl := some.inj hkeys
  -- the old pair of the key and the new one
  have hperm := @TreeBag.perm_insert _ (assocCompare cmp) (key, value) root
  rw [(hperm.map Prod.fst).nodup_iff, map_cons, nodup_cons] at hnodup
  exact hnodup.1 (List.mem_map.mpr ⟨(key, v), (h.last key v).mpr hv, rfl⟩)

/-- The pair of a key goes. -/
theorem Holds.remove [TransCmp cmp] [LawfulEqCmp cmp] (h : Holds cmp s root) {k : K} (hk : (s.last k).isSome) :
    ∃ s' root', step cmp s (.remove k) = some s' ∧ Holds cmp s' root' := by
  obtain ⟨v, hv⟩ := isSome_iff_exists.mp hk
  obtain ⟨root', ys, ⟨k', w⟩, zs, hremove, hsearch, hlist, hlist', heq⟩ :=
    TreeBag.removeNode_split h.searchTree (x := key k) ⟨(k, v), (h.last k v).mpr hv, ReflCmp.compare_self⟩
  obtain rfl : k = k' := LawfulEqCmp.compare_eq_iff_eq.mp heq
  have hnodup := h.nodup
  rw [hlist, map_append, map_cons, nodup_middle, ← map_append, nodup_cons] at hnodup
  obtain ⟨hnot, hnodup⟩ := hnodup
  refine ⟨⟨.nodes root', update s.last k none⟩, root', ?_, rfl, hsearch, hlist' ▸ hnodup, fun j u => ?_⟩
  · simp only [step, TreeMap.remove, h.map, TreeBag.remove, hremove, map_some]
  · rw [hlist']
    by_cases hj : j = k
    · subst hj
      simp only [update_self]
      have hgone : (j, u) ∉ ys ++ zs := fun hmem => hnot (List.mem_map.mpr ⟨(j, u), hmem, rfl⟩)
      exact iff_of_false hgone (some_ne_none u).symm
    · simp only [update_of_ne hj]
      rw [← h.last j u, hlist]
      simp [hj]

theorem Holds.remove_absent [LawfulEqCmp cmp] (h : Holds cmp s root) {k : K} (hk : ¬ (s.last k).isSome) :
    step cmp s (.remove k) = none := by
  have hnone : ∀ y ∈ root.toList, assocCompare cmp (key k) y ≠ .eq := by
    rintro ⟨k', v⟩ hmem heq
    obtain rfl : k = k' := LawfulEqCmp.compare_eq_iff_eq.mp heq
    exact hk (isSome_of_eq_some ((h.last k v).mp hmem))
  simp only [step, TreeMap.remove, h.map, TreeBag.remove, TreeBag.removeNode_eq_none hnone, map_none]

/-- In a run the map gives the last values put and each key once, in every state, if and only if no key is put that is
there already and no key is removed that is not there. -/
theorem treeMap_run_iff [TransCmp cmp] [LawfulEqCmp cmp] (ops : List (Op K V)) :
    Run.Meets Allowed (step cmp) State.init ops ↔
      ∀ k, ∃ s, Run.exec (step cmp) State.init (ops.take k) = some s ∧ Agrees cmp s := by
  refine Run.meets_iff_forall_exists_exec (fun s => ∃ root, Holds cmp s root) (Agrees cmp) ?_ ?_ ?_ ops State.init
    ⟨nil, holds_init⟩ (Run.meets_of_forall (fun _ _ => trivial) ops _)
  · rintro s ⟨root, h⟩
    exact h.agrees
  · rintro s op ⟨root, h⟩ - hallowed
    cases op with
    | put key value =>
      obtain ⟨s', root', hstep, h'⟩ := h.put value hallowed
      exact ⟨s', hstep, root', h'⟩
    | remove key =>
      obtain ⟨s', root', hstep, h'⟩ := h.remove hallowed
      exact ⟨s', hstep, root', h'⟩
  · rintro s op s' ⟨root, h⟩ - hnot hstep
    cases op with
    | put key value => exact h.put_twice hnot hstep
    | remove key =>
      rw [h.remove_absent hnot] at hstep
      cases hstep

/-- A key is put again after it has been removed. -/
def putAgain : List (Op Nat Nat) := [.put 5 10, .put 3 11, .put 8 12, .remove 5, .put 5 13]

theorem treeMap_run_iff_putAgain :
    Run.Meets Allowed (step (Ord.compare : Nat → Nat → Ordering)) State.init putAgain ∧
      ∀ k, ∃ s, Run.exec (step (Ord.compare : Nat → Nat → Ordering)) State.init (putAgain.take k) = some s ∧
        Agrees Ord.compare s := by
  have hallowed : Run.Meets Allowed (step (Ord.compare : Nat → Nat → Ordering)) State.init putAgain := by decide
  exact ⟨hallowed, (treeMap_run_iff putAgain).mp hallowed⟩

/-- The value of the second `put` on a key is not the one that is found. -/
theorem not_treeMap_run : ¬ ∀ (ops : List (Op Nat Nat)) k,
    ∃ s, Run.exec (step (Ord.compare : Nat → Nat → Ordering)) State.init (ops.take k) = some s ∧
      Agrees Ord.compare s := by
  intro hall
  obtain ⟨s, hexec, hagrees⟩ := hall [.put 5 10, .put 5 11] 2
  obtain rfl := some.inj hexec
  exact absurd (hagrees.get 5) (by decide)

end TreeMap

end Elm.Data
