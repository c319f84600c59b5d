import Elm.Data.LinkedListRun

/-!
# `ListMap`

The maps of `include/elm/data/ListMap.h`: a list of pairs that `include/elm/data/SortedList.h` keeps sorted, over
the singly linked lists.  In every run the list is strictly sorted by the keys, and the map is the finite map that
undergoes the same operations.
-/

namespace Elm.Data.ListMap

open LinkedList Chain Std List Option

variable {K V : Type} (compare : K → K → Ordering)

/-! ## The program -/

/-- `SortedList::add`: the loop keeps the node before the current one, as `PrecIter` does. -/
def add (s : SLList (K × V)) (value : K × V) : Option (SLList (K × V)) := do
  let current ← s.loop
    (fun prev a v => if compare value.1 v.1 = .lt then .inr (some ⟨some a, prev⟩) else .inl (some a))
    (fun _ => (none : Option PrecIter)) s.fst none
  match current with
  | some current => (s.addBefore current value).map Prod.fst
  | none => s.addLast value

/-- `lookup`. -/
def lookup (s : SLList (K × V)) (k : K) : Option (Option Nat) :=
  s.loop
    (fun _ a v =>
      match compare k v.1 with
      | .eq => .inr (some a)
      | .lt => .inr none
      | .gt => .inl ())
    (fun _ => none) s.fst ()

/-- `get`. -/
def get (s : SLList (K × V)) (k : K) : Option (Option V) := do
  match ← lookup compare s k with
  | some a => some (some (← s.mem.val a).2)
  | none => some none

/-- `get`, with a default value. -/
def getDefault (s : SLList (K × V)) (k : K) (d : V) : Option V := do
  match ← lookup compare s k with
  | some a => some (← s.mem.val a).2
  | none => some d

/-- `hasKey`. -/
def hasKey (s : SLList (K × V)) (k : K) : Option Bool := (lookup compare s k).map Option.isSome

/-- The pairs that the iterators go through. -/
def pairs (s : SLList (K × V)) : Option (List (K × V)) := s.items.map (List.map Prod.snd)

/-- `put`. -/
def put (s : SLList (K × V)) (k : K) (v : V) : Option (SLList (K × V)) := do
  match ← lookup compare s k with
  | some a => s.set (some a) (k, v)
  | none => add compare s (k, v)

/-- `remove`: the pair that has been found is removed by its value. -/
def remove (s : SLList (K × V)) (k : K) : Option (SLList (K × V)) := do
  match ← lookup compare s k with
  | some a => s.remove (fun p q => compare p.1 q.1 = .eq) (← s.mem.val a)
  | none => some s

inductive Op (K V : Type)
  | put (k : K) (v : V)
  | remove (k : K)
  | get (k : K)

/-- Before the first operation. -/
def start : SLList (K × V) := ⟨.start, none⟩

def step (s : SLList (K × V)) : Op K V → Option (SLList (K × V))
  | .put k v => put compare s k v
  | .remove k => remove compare s k
  | .get k => (get compare s k).map fun _ => s

/-! ## Finite maps -/

/-- What an operation does to a map: keys that are equal for the comparator are the same key. -/
def update (m : K → Option V) : Op K V → K → Option V
  | .put k v => fun x => if compare x k = .eq then some v else m x
  | .remove k => fun x => if compare x k = .eq then none else m x
  | .get _ => m

theorem update_put (m : K → Option V) (k : K) (v : V) (x : K) :
    update compare m (.put k v) x = if compare x k = .eq then some v else m x := rfl

theorem update_remove (m : K → Option V) (k x : K) :
    update compare m (.remove k) x = if compare x k = .eq then none else m x := rfl

/-- The map after some operations. -/
def history (ops : List (Op K V)) : K → Option V := ops.foldl (update compare) fun _ => none

/-- The list is strictly sorted and has the pairs of the map, and the functions answer as the map. -/
structure Agrees (m : K → Option V) (s : SLList (K × V)) (ps : List (K × V)) : Prop where
  pairs : pairs s = some ps
  sorted : ps.Pairwise fun p q => compare p.1 q.1 = .lt
  entries : ∀ k v, m k = some v ↔ ∃ p ∈ ps, compare k p.1 = .eq ∧ p.2 = v
  get : ∀ k, get compare s k = some (m k)
  getDefault : ∀ k d, getDefault compare s k d = some ((m k).getD d)
  hasKey : ∀ k, hasKey compare s k = some (m k).isSome
  count : s.count = some ps.length

/-! ## Sorted lists -/

section Sorted

variable {compare} {xs ys ps : List (K × V)} {p : K × V} {k : K} {v : V} {m : K → Option V}

/-- The pairs of a map. -/
structure Entries (compare : K → K → Ordering) (m : K → Option V) (ps : List (K × V)) : Prop where
  sorted : ps.Pairwise fun p q => compare p.1 q.1 = .lt
  entries : ∀ k v, m k = some v ↔ ∃ p ∈ ps, compare k p.1 = .eq ∧ p.2 = v

/-- The pairs before a key, its own pair, and the pairs after. -/
theorem find_key [TransCmp compare] (k : K) (hps : ps.Pairwise fun p q => compare p.1 q.1 = .lt) :
    ∃ xs ys, (∀ q ∈ xs, compare k q.1 = .gt) ∧ (∀ q ∈ ys, compare k q.1 = .lt) ∧
      (ps = xs ++ ys ∨ ∃ p, compare k p.1 = .eq ∧ ps = xs ++ p :: ys) := by
  induction ps with
  | nil => exact ⟨[], [], fun _ hq => (nomatch hq), fun _ hq => (nomatch hq), Or.inl rfl⟩
  | cons p ps ih =>
    rw [pairwise_cons] at hps
    obtain ⟨hp, hps⟩ := hps
    cases hcmp : compare k p.1 with
    | lt =>
      refine ⟨[], p :: ps, fun _ hq => (nomatch hq), fun q hq => ?_, Or.inl rfl⟩
      rcases mem_cons.mp hq with rfl | hq
      · exact hcmp
      · exact TransCmp.lt_trans hcmp (hp q hq)
    | eq =>
      refine ⟨[], ps, fun _ hq => (nomatch hq), fun q hq => ?_, Or.inr ⟨p, hcmp, rfl⟩⟩
      exact TransCmp.lt_of_eq_of_lt hcmp (hp q hq)
    | gt =>
      obtain ⟨xs, ys, hxs, hys, hsplit⟩ := ih hps
      refine ⟨p :: xs, ys, fun q hq => ?_, hys, ?_⟩
      · rcases mem_cons.mp hq with rfl | hq
        · exact hcmp
        · exact hxs q hq
      · rcases hsplit with rfl | ⟨q, hq, rfl⟩
        · exact Or.inl rfl
        · exact Or.inr ⟨q, hq, rfl⟩

/-- A pair between the pairs before its key and the pairs after it. -/
theorem sorted_insert [TransCmp compare] (hps : (xs ++ ys).Pairwise fun p q => compare p.1 q.1 = .lt)
    (hxs : ∀ q ∈ xs, compare k q.1 = .gt) (hys : ∀ q ∈ ys, compare k q.1 = .lt) (v : V) :
    (xs ++ (k, v) :: ys).Pairwise fun p q => compare p.1 q.1 = .lt := by
  rw [pairwise_append] at hps ⊢
  obtain ⟨hsx, hsy, hxy⟩ := hps
  refine ⟨hsx, pairwise_cons.mpr ⟨hys, hsy⟩, fun q hq r hr => ?_⟩
  rcases mem_cons.mp hr with rfl | hr
  · exact OrientedCmp.lt_of_gt (hxs q hq)
  · exact hxy q hq r hr

/-- The pairs of the map, but the one of the key `k`. -/
def Others (compare : K → K → Ordering) (m : K → Option V) (k : K) (xs ys : List (K × V)) : Prop :=
  ∀ x v, compare x k ≠ .eq → (m x = some v ↔ ∃ p ∈ xs ++ ys, compare x p.1 = .eq ∧ p.2 = v)

theorem Entries.others_of_mem [TransCmp compare] (h : Entries compare m (xs ++ p :: ys))
    (hp : compare k p.1 = .eq) : Others compare m k xs ys := by
  intro x v hx
  rw [h.entries]
  simp only [mem_append, mem_cons]
  constructor
  · rintro ⟨q, hq | rfl | hq, heq, hv⟩
    · exact ⟨q, Or.inl hq, heq, hv⟩
    · exact absurd (TransCmp.eq_trans heq (OrientedCmp.eq_symm hp)) hx
    · exact ⟨q, Or.inr hq, heq, hv⟩
  · rintro ⟨q, hq | hq, heq, hv⟩
    · exact ⟨q, Or.inl hq, heq, hv⟩
    · exact ⟨q, Or.inr (Or.inr hq), heq, hv⟩

theorem Entries.others (h : Entries compare m (xs ++ ys)) (k : K) : Others compare m k xs ys :=
  fun x v _ => h.entries x v

/-- No other pair has the key. -/
theorem no_other [TransCmp compare] (hxs : ∀ q ∈ xs, compare k q.1 = .gt) (hys : ∀ q ∈ ys, compare k q.1 = .lt)
    {x : K} (hx : compare x k = .eq) : ∀ q ∈ xs ++ ys, compare x q.1 ≠ .eq := by
  intro q hq
  rw [TransCmp.congr_left hx]
  rcases mem_append.mp hq with hq | hq
  · rw [hxs q hq]
    exact Ordering.noConfusion
  · rw [hys q hq]
    exact Ordering.noConfusion

theorem entries_put [TransCmp compare] (hps : (xs ++ ys).Pairwise fun p q => compare p.1 q.1 = .lt)
    (hxs : ∀ q ∈ xs, compare k q.1 = .gt) (hys : ∀ q ∈ ys, compare k q.1 = .lt)
    (hothers : Others compare m k xs ys) (v : V) :
    Entries compare (update compare m (.put k v)) (xs ++ (k, v) :: ys) := by
  refine ⟨sorted_insert hps hxs hys v, fun x w => ?_⟩
  have hsplit : (∃ p ∈ xs ++ (k, v) :: ys, compare x p.1 = .eq ∧ p.2 = w) ↔
      (compare x k = .eq ∧ v = w) ∨ ∃ p ∈ xs ++ ys, compare x p.1 = .eq ∧ p.2 = w := by
    simp only [mem_append, mem_cons]
    constructor
    · rintro ⟨q, hq | rfl | hq, heq⟩
      · exact Or.inr ⟨q, Or.inl hq, heq⟩
      · exact Or.inl heq
      · exact Or.inr ⟨q, Or.inr hq, heq⟩
    · rintro (heq | ⟨q, hq | hq, heq⟩)
      · exact ⟨(k, v), Or.inr (Or.inl rfl), heq⟩
      · exact ⟨q, Or.inl hq, heq⟩
      · exact ⟨q, Or.inr (Or.inr hq), heq⟩
  rw [hsplit, update_put]
  by_cases hx : compare x k = .eq
  · rw [if_pos hx, some.injEq]
    constructor
    · exact fun hv => Or.inl ⟨hx, hv⟩
    · rintro (⟨-, hv⟩ | ⟨q, hq, heq, -⟩)
      · exact hv
      · exact absurd heq (no_other hxs hys hx q hq)
  · rw [if_neg hx, hothers x w hx]
    constructor
    · exact Or.inr
    · rintro (⟨heq, -⟩ | hother)
      · exact absurd heq hx
      · exact hother

theorem entries_remove [TransCmp compare] (hps : (xs ++ ys).Pairwise fun p q => compare p.1 q.1 = .lt)
    (hxs : ∀ q ∈ xs, compare k q.1 = .gt) (hys : ∀ q ∈ ys, compare k q.1 = .lt)
    (hothers : Others compare m k xs ys) : Entries compare (update compare m (.remove k)) (xs ++ ys) := by
  refine ⟨hps, fun x w => ?_⟩
  rw [update_remove]
  by_cases hx : compare x k = .eq
  · rw [if_pos hx]
    constructor
    · rintro ⟨⟩
    · rintro ⟨q, hq, heq, -⟩
      exact absurd heq (no_other hxs hys hx q hq)
  · rw [if_neg hx]
    exact hothers x w hx

/-- What the map gives for a key. -/
theorem Entries.get_some (h : Entries compare m (xs ++ p :: ys)) (hp : compare k p.1 = .eq) : m k = some p.2 :=
  (h.entries k p.2).mpr ⟨p, by simp, hp, rfl⟩

theorem Entries.get_none [TransCmp compare] (h : Entries compare m (xs ++ ys))
    (hxs : ∀ q ∈ xs, compare k q.1 = .gt) (hys : ∀ q ∈ ys, compare k q.1 = .lt) : m k = none := by
  cases hm : m k with
  | none => rfl
  | some v =>
    obtain ⟨q, hq, heq, -⟩ := (h.entries k v).mp hm
    exact absurd heq (no_other hxs hys ReflCmp.compare_self q hq)

end Sorted

/-! ## The functions -/

section Functions

variable {compare} {s s' : SLList (K × V)} {cells xs ys : List (Nat × (K × V))} {a : Nat} {p : K × V} {k : K}
  {v : V} {m : K → Option V}

/-- The invariant of the runs. -/
structure Inv (compare : K → K → Ordering) (m : K → Option V) (s : SLList (K × V))
    (cells : List (Nat × (K × V))) : Prop where
  holds : s.Holds cells
  entries : Entries compare m (cells.map Prod.snd)

/-- The nodes before a key, its own node, and the nodes after. -/
theorem find_node [TransCmp compare] (k : K)
    (hps : (cells.map Prod.snd).Pairwise fun p q => compare p.1 q.1 = .lt) :
    ∃ xs ys, (∀ q ∈ xs.map Prod.snd, compare k q.1 = .gt) ∧ (∀ q ∈ ys.map Prod.snd, compare k q.1 = .lt) ∧
      (cells = xs ++ ys ∨ ∃ a p, compare k p.1 = .eq ∧ cells = xs ++ (a, p) :: ys) := by
  obtain ⟨ps, qs, hxs, hys, hsplit | ⟨p, hp, hsplit⟩⟩ := find_key k hps
  · obtain ⟨xs, ys, rfl, rfl, rfl⟩ := map_eq_append_iff.mp hsplit
    exact ⟨xs, ys, hxs, hys, Or.inl rfl⟩
  · obtain ⟨xs, zs, rfl, rfl, hzs⟩ := map_eq_append_iff.mp hsplit
    obtain ⟨⟨a, q⟩, ys, rfl, rfl, rfl⟩ := map_eq_cons_iff.mp hzs
    exact ⟨xs, ys, hxs, hys, Or.inr ⟨a, q, hp, rfl⟩⟩

theorem lookup_found (h : s.Holds (xs ++ (a, p) :: ys)) (hxs : ∀ q ∈ xs.map Prod.snd, compare k q.1 = .gt)
    (hp : compare k p.1 = .eq) : lookup compare s k = some (some a) := by
  rw [lookup, loop_eq h h.list, visit_skip _ fun x hx => by rw [hxs x.2 (List.mem_map_of_mem hx)]]
  simp [visit, hp]

theorem lookup_missing (h : s.Holds (xs ++ ys)) (hxs : ∀ q ∈ xs.map Prod.snd, compare k q.1 = .gt)
    (hys : ∀ q ∈ ys.map Prod.snd, compare k q.1 = .lt) : lookup compare s k = some none := by
  rw [lookup, loop_eq h h.list, visit_skip _ fun x hx => by rw [hxs x.2 (List.mem_map_of_mem hx)]]
  cases ys with
  | nil => rfl
  | cons y ys =>
    obtain ⟨a, q⟩ := y
    simp [visit, hys q (by simp)]

theorem add_spec (h : s.Holds (xs ++ ys)) (hxs : ∀ q ∈ xs.map Prod.snd, compare p.1 q.1 = .gt)
    (hys : ∀ q ∈ ys.map Prod.snd, compare p.1 q.1 = .lt) :
    ∃ s', add compare s p = some s' ∧ s'.Holds (xs ++ (s.mem.next, p) :: ys) := by
  have hless : ∀ q ∈ xs.map Prod.snd, ¬ compare p.1 q.1 = .lt := by
    intro q hq hlt
    rw [hxs q hq] at hlt
    cases hlt
  obtain ⟨s', hchange, ⟨hloop, hadd⟩ | ⟨i, hloop, hadd⟩⟩ := addBefore_first h hless hys p
  · exact ⟨s', by rw [add, hloop]; exact hadd, hchange.holds⟩
  · exact ⟨s', by rw [add, hloop]; exact hadd, hchange.holds⟩

theorem put_inv [TransCmp compare] (h : Inv compare m s cells) (k : K) (v : V) :
    ∃ s' cells', put compare s k v = some s' ∧ Inv compare (update compare m (.put k v)) s' cells' := by
  obtain ⟨hholds, hentries⟩ := h
  obtain ⟨xs, ys, hxs, hys, rfl | ⟨a, p, hp, rfl⟩⟩ := find_node k hentries.sorted
  · obtain ⟨s', hs', hholds'⟩ := add_spec (p := (k, v)) hholds hxs hys
    rw [map_append] at hentries
    refine ⟨s', _, ?_, hholds', ?_⟩
    · simp only [put, lookup_missing hholds hxs hys, bind_eq_bind, bind_some, hs']
    · rw [map_append, map_cons]
      exact entries_put hentries.sorted hxs hys (hentries.others k) v
  · obtain ⟨s', hs', hchange⟩ := set_spec hholds (k, v)
    rw [map_append, map_cons] at hentries
    have hrest := hentries.sorted.sublist ((sublist_cons_self p (ys.map Prod.snd)).append_left _)
    refine ⟨s', _, ?_, hchange.holds, ?_⟩
    · simp only [put, lookup_found hholds hxs hp, bind_eq_bind, bind_some, hs']
    · rw [map_append, map_cons]
      exact entries_put hrest hxs hys (hentries.others_of_mem hp) v

/-- The first pair with the key is the only one. -/
theorem eraseP_key [TransCmp compare] {ps qs : List (K × V)}
    (hps : (ps ++ p :: qs).Pairwise fun p q => compare p.1 q.1 = .lt) :
    (ps ++ p :: qs).eraseP (fun q => compare q.1 p.1 = .eq) = ps ++ qs := by
  rw [pairwise_append] at hps
  have hnot : ∀ q ∈ ps, ¬ decide (compare q.1 p.1 = .eq) = true := by
    intro q hq
    rw [hps.2.2 q hq p mem_cons_self]
    simp
  rw [eraseP_append_right _ hnot, eraseP_cons_of_pos (by simp [ReflCmp.compare_self])]

theorem remove_inv [TransCmp compare] (h : Inv compare m s cells) (k : K) :
    ∃ s' cells', remove compare s k = some s' ∧ Inv compare (update compare m (.remove k)) s' cells' := by
  obtain ⟨hholds, hentries⟩ := h
  obtain ⟨xs, ys, hxs, hys, rfl | ⟨a, p, hp, rfl⟩⟩ := find_node k hentries.sorted
  · rw [map_append] at hentries
    refine ⟨s, _, ?_, hholds, ?_⟩
    · simp only [remove, lookup_missing hholds hxs hys, bind_eq_bind, bind_some]
    · rw [map_append]
      exact entries_remove hentries.sorted hxs hys (hentries.others k)
  · obtain ⟨s', cells', hs', hchange, hcells⟩ := remove_spec (fun p q => compare p.1 q.1 = .eq) hholds p
    rw [map_append, map_cons] at hentries hcells
    rw [eraseP_key hentries.sorted] at hcells
    have hrest := hentries.sorted.sublist ((sublist_cons_self p (ys.map Prod.snd)).append_left _)
    refine ⟨s', cells', ?_, hchange.holds, ?_⟩
    · simp only [remove, lookup_found hholds hxs hp, bind_eq_bind, bind_some, hholds.val_eq, hs']
    · rw [hcells]
      exact entries_remove hrest hxs hys (hentries.others_of_mem hp)

theorem get_eq [TransCmp compare] (h : Inv compare m s cells) (k : K) :
    get compare s k = some (m k) ∧ (∀ d, getDefault compare s k d = some ((m k).getD d)) ∧
      hasKey compare s k = some (m k).isSome := by
  obtain ⟨hholds, hentries⟩ := h
  obtain ⟨xs, ys, hxs, hys, rfl | ⟨a, p, hp, rfl⟩⟩ := find_node k hentries.sorted
  · rw [map_append] at hentries
    have hlookup := lookup_missing hholds hxs hys
    rw [hentries.get_none hxs hys]
    simp only [get, getDefault, hasKey, hlookup, bind_eq_bind, bind_some]
    exact ⟨trivial, fun _ => rfl, rfl⟩
  · rw [map_append, map_cons] at hentries
    have hlookup := lookup_found hholds hxs hp
    rw [hentries.get_some hp]
    simp only [get, getDefault, hasKey, hlookup, bind_eq_bind, bind_some, hholds.val_eq]
    exact ⟨trivial, fun _ => rfl, rfl⟩

theorem Inv.agrees [TransCmp compare] (h : Inv compare m s cells) :
    Agrees compare m s (cells.map Prod.snd) := by
  refine ⟨?_, h.entries.sorted, h.entries.entries, fun k => (get_eq h k).1, fun k => (get_eq h k).2.1,
    fun k => (get_eq h k).2.2, ?_⟩
  · rw [pairs, h.holds.items_eq]
    rfl
  · rw [SLList.count, loop_eq h.holds h.holds.list, visit_count, Nat.zero_add, length_map]

theorem start_inv : Inv compare (fun _ => none) (start : SLList (K × V)) [] := by
  refine ⟨⟨rfl, fun _ _ => rfl⟩, List.Pairwise.nil, fun k v => ?_⟩
  simp

theorem step_inv [TransCmp compare] (h : Inv compare m s cells) (op : Op K V) :
    ∃ s' cells', step compare s op = some s' ∧ Inv compare (update compare m op) s' cells' := by
  cases op with
  | put k v => exact put_inv h k v
  | remove k => exact remove_inv h k
  | get k =>
    refine ⟨s, cells, ?_, h⟩
    rw [step, (get_eq h k).1, map_some]

end Functions

/-- In every run the list is strictly sorted, and the map answers as the finite map. -/
theorem listMap_run [TransCmp compare] (ops : List (Op K V)) :
    ∃ s ps, Run.exec (step compare) start ops = some s ∧ Agrees compare (history compare ops) s ps := by
  have hrun : ∀ (ops : List (Op K V)) m s cells, Inv compare m s cells →
      ∃ s' cells', Run.exec (step compare) s ops = some s' ∧
        Inv compare (ops.foldl (update compare) m) s' cells' := by
    intro ops
    induction ops with
    | nil => exact fun m s cells h => ⟨s, cells, rfl, h⟩
    | cons op ops ih =>
      intro m s cells h
      obtain ⟨s₁, cells₁, hs₁, h₁⟩ := step_inv h op
      obtain ⟨s', cells', hs', h'⟩ := ih _ s₁ cells₁ h₁
      exact ⟨s', cells', Run.exec_cons_eq_some.mpr ⟨s₁, hs₁, hs'⟩, h'⟩
  obtain ⟨s, cells, hs, h⟩ := hrun ops _ _ _ start_inv
  exact ⟨s, _, hs, h.agrees⟩

/-- A key before the first one, one after the last, a value that is replaced and a key that is removed. -/
def someOps : List (Op Nat Char) := [.put 5 'a', .put 2 'b', .put 9 'c', .put 5 'd', .remove 2, .get 5]

theorem listMap_run_someOps : ∃ s ps, Run.exec (step (@Ord.compare Nat _)) start someOps = some s ∧
    Agrees Ord.compare (history Ord.compare someOps) s ps :=
  listMap_run Ord.compare someOps

end Elm.Data.ListMap
