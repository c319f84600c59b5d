import Elm.Data.HashTableLookups

/-!
# `HashTable::copy`

Copies of a table, after any operations on any tables, `add` included, which puts a datum beside an
equal one.  A table of the same size is copied bucket by bucket, in the same order; else each datum
is put again, so that equal data are merged.
-/

namespace Elm.Data.HashTable

open Chain List Option Function

variable {A T : Type*} [DecidableEq A]

/-! ## The program -/

section Model

variable (H : Manager T) (alloc : HashTable A T → A)

/-- `putAll`; `alloc` gives the address of a new node. -/
def putAll (st : HashTable A T) (xs : List T) : Option (HashTable A T) :=
  xs.foldlM (fun st x => st.put H x (alloc st)) st

/-- One turn of `while(q->next != nullptr)`, on `p`, `q` and the table that is written; `t` is the
table that is read. -/
def copyTurn (t : HashTable A T) (s : A × A × HashTable A T) :
    Option ((A × A × HashTable A T) ⊕ HashTable A T) :=
  (t.nodes.lookup s.2.1).bind fun n =>
    match n.next with
    | none => some (.inr s.2.2)
    | some q => (t.nodes.lookup q).bind fun n =>
      let a := alloc s.2.2
      ((s.2.2.store a ⟨none, n.data⟩).setNext s.1 (some a)).map fun st => .inl (a, q, st)

/-- The body of the loop of `copy` on bucket `i`. -/
def copyBucket (t st : HashTable A T) (i : Nat) : Option (HashTable A T) :=
  match t.entry i with
  | none => some st
  | some q => (t.nodes.lookup q).bind fun n =>
    let p := alloc st
    Loop.attempt (copyTurn alloc t) (t.nodes.keys.length + 1)
      (p, q, (st.store p ⟨none, n.data⟩).setEntry i (some p))

/-- `HashTable::copy`: `t` is the other table, or this one once it is cleared. -/
def copy (st : HashTable A T) (t : HashTable A T → HashTable A T) : Option (HashTable A T) :=
  st.clear.bind fun st =>
    let t := t st
    if st.size ≠ t.size then
      t.items.bind (putAll H alloc st)
    else
      (List.range st.size).foldlM (copyBucket alloc t) st

/-- `HashTable(const self_t& h)`. -/
def construct (h : HashTable A T) : Option (HashTable A T) :=
  h.items.bind (putAll H alloc (new h.size h.size_pos))

end Model

/-! ## The copy of a bucket -/

variable {H : Manager T} {alloc : HashTable A T → A} {st st' t : HashTable A T}
  {bs ts : Nat → List (A × T)}

/-- A new node behind the last one of a bucket. -/
theorem Rep.append_spec (h : Rep H st bs) {i : Nat} (hi : i < st.size) {ys : List (A × T)} {a b : A} {d e : T}
    (hxs : bs i = ys ++ [(b, e)]) (ha : a ∉ st.nodes) (hplaced : st.index H d = i)
    (hnew : ∀ x ∈ bs i, H.isEqual x.2 d = false) :
    ∃ st', (st.store a ⟨none, d⟩).setNext b (some a) = some st' ∧ st'.size = st.size ∧
      Rep H st' (Function.update bs i (ys ++ [(b, e)] ++ [(a, d)])) := by
  have hlist : IsList st.read (st.entry i) (ys ++ [(b, e)]) := hxs ▸ h.chain i hi
  have hfresh : a ∉ (ys ++ [(b, e)]).map Prod.fst := fun hmem => ha (h.mem_nodes hi (hxs ▸ hmem))
  have hab : b ≠ a := by
    rintro rfl
    simp at hfresh
  obtain ⟨next, hread⟩ := Seg.read_of_mem hlist (a := b) (v := e) (by simp)
  have hread' : (st.store a ⟨none, d⟩).read b = some (next, e) := by
    rw [read_store, update_of_ne hab, hread]
  refine ⟨(st.store a ⟨none, d⟩).store b ⟨some a, e⟩, setNext_eq _ hread', rfl, ?_⟩
  refine h.update hi rfl (fun _ _ => rfl) ?_ ?_ ?_ ?_ ?_
  · intro c hc hcb
    have hca : c ≠ a := by
      rintro rfl
      exact ha hc
    have hne : c ≠ b := by
      rintro rfl
      simp [hxs] at hcb
    rw [read_store, update_of_ne hne, read_store, update_of_ne hca]
  · have hnew : IsList (st.store a ⟨none, d⟩).read (some a) [(a, d)] :=
      ⟨rfl, none, by rw [read_store, update_self], rfl⟩
    have hold : IsList (st.store a ⟨none, d⟩).read (st.entry i) (ys ++ [(b, e)]) := by
      rw [read_store]
      exact hlist.update hfresh _
    rw [read_store, append_assoc]
    exact hold.splice hnew (by simpa using hab) e
  · intro x hx
    rcases mem_append.mp hx with hx | hx
    · exact h.placed i hi x (hxs ▸ hx)
    · obtain rfl := mem_singleton.mp hx
      exact hplaced
  · rw [← hxs]
    refine pairwise_append.mpr ⟨h.distinct i hi, pairwise_singleton _ _, ?_⟩
    intro x hx y hy
    obtain rfl := mem_singleton.mp hy
    exact hnew x hx
  · intro c hc
    have hcases : c = b ∨ c = a ∨ c ∈ st.nodes := by
      rcases mem_store.mp hc with rfl | hc
      · exact Or.inl rfl
      · exact Or.inr (mem_store.mp hc)
    by_cases hmem : c ∈ (bs i).map Prod.fst
    · left
      rw [map_append, mem_append, ← hxs]
      exact Or.inl hmem
    · rcases hcases with rfl | rfl | hc
      · simp
      · simp
      · exact Or.inr ⟨hc, hmem⟩

/-- The loop copies the nodes behind `q`. -/
theorem copyLoop_spec (halloc : ∀ st : HashTable A T, alloc st ∉ st.nodes) (ht : Rep H t ts) {i : Nat}
    (hit : i < t.size) (hindex : ∀ x ∈ ts i, st.index H x.2 = i) (hi : i < st.size) {p q : A} {d : T}
    {rest : List (A × T)} (hts : ts i = (q, d) :: rest) (h : Rep H st (Function.update bs i [(p, d)])) :
    ∃ st', Loop.attempt (copyTurn alloc t) (t.nodes.keys.length + 1) (p, q, st) = some st' ∧ st'.size = st.size ∧
      ∃ ys, Rep H st' (Function.update bs i ys) ∧ ys.map Prod.snd = (ts i).map Prod.snd := by
  have hlist := ht.chain i hit
  have hdistinct : ((ts i).map Prod.snd).Pairwise fun x y => H.isEqual x y = false :=
    pairwise_map.mpr (ht.distinct i hit)
  have hfuel : rest.length < t.nodes.keys.length + 1 := by
    have hlen := length_lt_fuel hlist
    rw [hts, length_cons] at hlen
    omega
  refine Loop.exists_attempt_eq_some (copyTurn alloc t)
    (fun k s => ∃ done d rest ys, ts i = done ++ (s.2.1, d) :: rest ∧ rest.length = k ∧ s.2.2.size = st.size ∧
      Rep H s.2.2 (Function.update bs i (ys ++ [(s.1, d)])) ∧ ys.map Prod.snd = done.map Prod.snd)
    (fun st' => st'.size = st.size ∧ ∃ ys, Rep H st' (Function.update bs i ys) ∧
      ys.map Prod.snd = (ts i).map Prod.snd) ?_ ⟨[], d, rest, [], hts, rfl, rfl, h, rfl⟩ hfuel
  rintro k ⟨p, q, s⟩ ⟨done, d, rest, ys, hsplit, rfl, hsize, hrep, hdone⟩
  obtain ⟨next, hread⟩ := ht.read_of_mem hit (show (q, d) ∈ ts i by simp [hsplit])
  have hlookup := read_eq_some.mp hread
  have hbehind := (IsList.next_of_append (hsplit ▸ hlist) hread).2
  cases rest with
  | nil =>
    obtain rfl : next = none := hbehind
    refine Or.inr ⟨s, by simp [copyTurn, hlookup], hsize, ys ++ [(p, d)], hrep, ?_⟩
    rw [hsplit, map_append, map_append, hdone]
    rfl
  | cons x rest =>
    obtain ⟨q', d'⟩ := x
    obtain ⟨rfl, next', hread', -⟩ := hbehind
    have hdata : (ts i).map Prod.snd = (ys ++ [(p, d)]).map Prod.snd ++ d' :: rest.map Prod.snd := by
      rw [hsplit, map_append, map_append, hdone]
      simp
    have hnew : ∀ x ∈ ys ++ [(p, d)], H.isEqual x.2 d' = false := by
      intro x hx
      rw [hdata] at hdistinct
      exact (pairwise_append.mp hdistinct).2.2 x.2 (List.mem_map_of_mem hx) d' (by simp)
    have hplaced : s.index H d' = i := by
      rw [index_congr hsize]
      exact hindex (q', d') (by simp [hsplit])
    have hnew' : ∀ x ∈ Function.update bs i (ys ++ [(p, d)]) i, H.isEqual x.2 d' = false := by
      rw [update_self]
      exact hnew
    obtain ⟨s', hnext, hsize', hrep'⟩ :=
      hrep.append_spec (hsize ▸ hi) (update_self ..) (halloc s) hplaced hnew'
    rw [update_idem] at hrep'
    refine Or.inl ⟨(alloc s, q', s'), rest.length, ?_, Nat.lt_succ_self _, done ++ [(q, d)], d', rest, _,
      by simp [hsplit], rfl, hsize'.trans hsize, hrep', ?_⟩
    · simp [copyTurn, hlookup, read_eq_some.mp hread', hnext]
    · rw [map_append, map_append, hdone]
      rfl

/-- The data of a bucket are copied in their order. -/
theorem copyBucket_spec (halloc : ∀ st : HashTable A T, alloc st ∉ st.nodes) (h : Rep H st bs) (ht : Rep H t ts)
    (hsize : st.size = t.size) {i : Nat} (hi : i < st.size) (hnil : bs i = []) :
    ∃ st', copyBucket alloc t st i = some st' ∧ st'.size = st.size ∧
      ∃ ys, Rep H st' (Function.update bs i ys) ∧ ys.map Prod.snd = (ts i).map Prod.snd := by
  have hit : i < t.size := hsize ▸ hi
  have hlist := ht.chain i hit
  have hplaced : ∀ x ∈ ts i, st.index H x.2 = i := by
    intro x hx
    rw [index_congr hsize]
    exact ht.placed i hit x hx
  have hentry : st.entry i = none := by
    have hempty := h.chain i hi
    rw [hnil] at hempty
    exact hempty
  cases hts : ts i with
  | nil =>
    rw [hts] at hlist
    have hnone : t.entry i = none := hlist
    refine ⟨st, by simp only [copyBucket, hnone], rfl, [], ?_, rfl⟩
    rwa [← hnil, update_eq_self]
  | cons x xs =>
    obtain ⟨q, d⟩ := x
    have hall := hlist
    rw [hts] at hall
    obtain ⟨hq, next, hread, -⟩ := hall
    have hi' : st.index H d = i := hplaced (q, d) (by simp [hts])
    -- the first node is the one that `add` makes in an empty bucket
    have hfirst : (st.store (alloc st) ⟨none, d⟩).setEntry i (some (alloc st)) = st.add H d (alloc st) := by
      rw [add, hi', hentry]
    have hnew : ∀ x ∈ bs (st.index H d), H.isEqual d x.2 = false := by
      rw [hi', hnil]
      simp
    have hrep := h.add_spec (halloc st) hnew
    rw [hi', hnil] at hrep
    have hsame : (st.add H d (alloc st)).size = st.size := by simp [add]
    obtain ⟨st', hloop, hsize', ys, hrep', hdata⟩ := copyLoop_spec halloc ht hit
      (fun x hx => (index_congr hsame x.2).trans (hplaced x hx)) (hsame ▸ hi) hts hrep
    refine ⟨st', ?_, hsize'.trans hsame, ys, hrep', hts ▸ hdata⟩
    simp only [copyBucket, hq, read_eq_some.mp hread, bind_some, hfirst, hloop]

/-- The buckets of an empty table, copied from a table of the same size. -/
theorem copyBuckets_spec (halloc : ∀ st : HashTable A T, alloc st ∉ st.nodes) (h : Rep H st fun _ => [])
    (ht : Rep H t ts) (hsize : st.size = t.size) :
    ∃ st' bs, (List.range st.size).foldlM (copyBucket alloc t) st = some st' ∧ st'.size = t.size ∧ Rep H st' bs ∧
      (allNodes bs st'.size).map Prod.snd = (allNodes ts t.size).map Prod.snd := by
  obtain ⟨st', hloop, hsize', bs, hrep, hdone, -⟩ := Loop.exists_foldlM_range (n := st.size)
    (fun k s => s.size = t.size ∧ ∃ bs, Rep H s bs ∧ (∀ j < k, (bs j).map Prod.snd = (ts j).map Prod.snd) ∧
      ∀ j, k ≤ j → bs j = [])
    ⟨hsize, _, h, by simp, by simp⟩ (by
    rintro k s hk ⟨hs, bs, hrep, hdone, hrest⟩
    have hks : k < s.size := by omega
    obtain ⟨s', hcopy, hs', ys, hrep', hdata⟩ := copyBucket_spec halloc hrep ht hs hks (hrest k le_rfl)
    refine ⟨s', hcopy, hs'.trans hs, _, hrep', ?_, ?_⟩
    · intro j hj
      by_cases hjk : j = k
      · rw [hjk, update_self, hdata]
      · rw [update_of_ne hjk]
        exact hdone j (by omega)
    · intro j hj
      rw [update_of_ne (by omega)]
      exact hrest j (by omega))
  refine ⟨st', bs, hloop, hsize', hrep, ?_⟩
  rw [allNodes, allNodes, nodesFrom, nodesFrom, map_flatMap, map_flatMap, hsize']
  refine flatMap_congr fun j hj => ?_
  rw [mem_range'_1] at hj
  exact hdone j (by omega)

/-! ## The data put again -/

variable {m : KeyMap T} {xs : List T}

/-- The items of a table that holds a map. -/
theorem items_of_refines (hH : H.Lawful) (h : Refines H st m) :
    ∃ xs, st.items = some xs ∧ xs.Pairwise (fun x y => H.isEqual x y = false) ∧
      ∀ key d, m key = some d ↔ d ∈ xs ∧ H.isEqual d key := by
  obtain ⟨bs, hrep, hm⟩ := h
  refine ⟨_, items_spec hrep, pairwise_map.mpr (pairwise_allNodes hrep hH), ?_⟩
  intro key d
  rw [hm key d]
  refine and_congr_left fun hequal => ?_
  have hindex : st.index H d = st.index H key := index_eq_of_isEqual hH st hequal
  constructor
  · rintro ⟨a, ha⟩
    exact List.mem_map_of_mem (mem_allNodes.mpr ⟨_, st.index_lt key, ha⟩)
  · intro hd
    obtain ⟨⟨a, d⟩, hx, rfl⟩ := List.mem_map.mp hd
    obtain ⟨i, hi, hx⟩ := mem_allNodes.mp hx
    have hplaced : st.index H d = i := hrep.placed i hi _ hx
    exact ⟨a, by rwa [← hindex, hplaced]⟩

theorem putAll_refines (hH : H.Lawful) (halloc : ∀ st : HashTable A T, alloc st ∉ st.nodes) (xs : List T)
    (h : Refines H st m) : ∃ st', putAll H alloc st xs = some st' ∧ st'.size = st.size ∧
      Refines H st' (xs.foldl (fun m x => m.apply H (.put x)) m) := by
  induction xs generalizing st m with
  | nil => exact ⟨st, rfl, rfl, h⟩
  | cons x xs ih =>
    obtain ⟨st₁, hput, hsize, h₁⟩ := put_refines hH h x (halloc st)
    obtain ⟨st', hall, hsize', h'⟩ := ih h₁
    refine ⟨st', ?_, hsize'.trans hsize, h'⟩
    rw [putAll, foldlM_cons, hput]
    exact hall

/-- Different data put in turn are all kept. -/
theorem foldl_put_iff (hH : H.Lawful) (hxs : xs.Pairwise fun x y => H.isEqual x y = false) (m : KeyMap T)
    (key d : T) : xs.foldl (fun m x => m.apply H (.put x)) m key = some d ↔
      d ∈ xs ∧ H.isEqual d key ∨ m key = some d ∧ ∀ x ∈ xs, H.isEqual x key = false := by
  induction xs generalizing m with
  | nil => simp
  | cons x xs ih =>
    obtain ⟨hx, hrest⟩ := pairwise_cons.mp hxs
    rw [List.foldl_cons, ih hrest]
    by_cases hkey : H.isEqual x key
    · -- no other item has this key
      have hnone : ∀ y ∈ xs, H.isEqual y key = false := by
        intro y hy
        rw [Bool.eq_false_iff]
        intro hyk
        have hxy := hH.equivalence.trans hkey (hH.equivalence.symm hyk)
        exact Bool.eq_false_iff.mp (hx y hy) hxy
      rw [apply_put_self hkey]
      constructor
      · rintro (⟨hd, hdk⟩ | ⟨hd, -⟩)
        · exact Or.inl ⟨mem_cons_of_mem _ hd, hdk⟩
        · obtain rfl := some.inj hd
          exact Or.inl ⟨mem_cons_self, hkey⟩
      · rintro (⟨hd, hdk⟩ | ⟨-, hall⟩)
        · rcases mem_cons.mp hd with rfl | hd
          · exact Or.inr ⟨rfl, hnone⟩
          · exact Or.inl ⟨hd, hdk⟩
        · exact absurd hkey (Bool.eq_false_iff.mp (hall x mem_cons_self))
    · rw [apply_put_of_ne hkey]
      constructor
      · rintro (⟨hd, hdk⟩ | ⟨hd, hall⟩)
        · exact Or.inl ⟨mem_cons_of_mem _ hd, hdk⟩
        · exact Or.inr ⟨hd, forall_mem_cons.mpr ⟨Bool.eq_false_iff.mpr hkey, hall⟩⟩
      · rintro (⟨hd, hdk⟩ | ⟨hd, hall⟩)
        · rcases mem_cons.mp hd with rfl | hd
          · exact absurd hdk hkey
          · exact Or.inl ⟨hd, hdk⟩
        · exact Or.inr ⟨hd, fun y hy => hall y (mem_cons_of_mem _ hy)⟩

/-- Data without two equal ones are the same as data that have the same members and no two equal ones. -/
theorem nodup_of_pairwise (hH : H.Lawful) (h : xs.Pairwise fun x y => H.isEqual x y = false) : xs.Nodup := by
  refine h.imp ?_
  rintro x _ hxy rfl
  exact Bool.eq_false_iff.mp hxy (hH.equivalence.refl x)

/-- Data put in an empty table are its items if and only if no two of them are equal. -/
theorem putAll_spec (hH : H.Lawful) (halloc : ∀ st : HashTable A T, alloc st ∉ st.nodes) (xs : List T)
    (h : Refines H st fun _ => none) :
    ∃ st' bs ys, putAll H alloc st xs = some st' ∧ st'.size = st.size ∧ Rep H st' bs ∧ st'.items = some ys ∧
      (ys.Perm xs ↔ xs.Pairwise fun x y => H.isEqual x y = false) := by
  obtain ⟨st', hall, hsize, h'⟩ := putAll_refines hH halloc xs h
  obtain ⟨ys, hitems, hys, hmem⟩ := items_of_refines hH h'
  obtain ⟨bs, hrep, -⟩ := h'
  refine ⟨st', bs, ys, hall, hsize, hrep, hitems, ?_⟩
  constructor
  · intro hperm
    exact hys.perm hperm fun {x y} hxy => hH.symmetric x y hxy
  · intro hxs
    rw [perm_ext_iff_of_nodup (nodup_of_pairwise hH hys) (nodup_of_pairwise hH hxs)]
    intro d
    have hd := hmem d d
    rw [foldl_put_iff hH hxs] at hd
    simp only [hH.equivalence.refl d, and_true, reduceCtorEq, false_and, or_false] at hd
    exact hd.symm

/-! ## Tables that hold equal data -/

/-- The hash of a manager alone: the nodes of a bucket may hold equal data. -/
def loose (H : Manager T) : Manager T := ⟨H.computeHash, fun _ _ => false⟩

theorem symmetric_loose (H : Manager T) : (loose H).Symmetric := fun _ _ h => h

omit [DecidableEq A] in
theorem pairwise_loose (zs : List (A × T)) : zs.Pairwise fun x y => (loose H).isEqual x.2 y.2 = false :=
  pairwise_of_forall fun _ _ => rfl

theorem Rep.forget (h : Rep H st bs) : Rep (loose H) st bs :=
  ⟨h.chain, h.placed, fun i _ => pairwise_loose (bs i), h.live⟩

theorem add_loose (h : Rep (loose H) st bs) (data : T) {a : A} (ha : a ∉ st.nodes) :
    ∃ bs', Rep (loose H) (st.add H data a) bs' :=
  ⟨_, h.add_spec ha fun _ _ => rfl⟩

theorem find_loose (h : Rep (loose H) st bs) (key : T) :
    ∃ found st' bs', st.find H key = some (found, st') ∧ st'.size = st.size ∧ Rep (loose H) st' bs' ∧
      (∀ a, a ∈ st'.nodes ↔ a ∈ st.nodes) ∧
      ∀ a, found = some a → ∃ d, (a, d) ∈ bs' (st'.index H key) ∧ H.isEqual d key := by
  obtain ⟨found, st', xs, hfind, hsize, hrep, hperm, hnodes, hfound⟩ := h.find_spec (symmetric_loose H) key
  refine ⟨found, st', _, hfind, hsize, hrep, hnodes, ?_⟩
  rintro a rfl
  rcases hfound with ⟨hnone, -⟩ | ⟨b, d, hb, hmem, hequal⟩
  · cases hnone
  · obtain rfl := some.inj hb
    refine ⟨d, ?_, hequal⟩
    rw [index_congr hsize, update_self]
    exact hperm.mem_iff.mpr hmem

theorem put_loose (h : Rep (loose H) st bs) (data : T) {fresh : A} (ha : fresh ∉ st.nodes) :
    ∃ st' bs', st.put H data fresh = some st' ∧ st'.size = st.size ∧ Rep (loose H) st' bs' := by
  obtain ⟨found, st₁, bs₁, hfind, hsize, h₁, hnodes, hfound⟩ := find_loose h data
  cases found with
  | none =>
    obtain ⟨bs', h'⟩ := add_loose h₁ data (a := fresh) fun hmem => ha ((hnodes fresh).mp hmem)
    exact ⟨_, bs', by simp [put, hfind], by simp [add, hsize], h'⟩
  | some a =>
    obtain ⟨d, hmem, hequal⟩ := hfound a rfl
    have hi := st₁.index_lt (H := H) data
    obtain ⟨next, hread⟩ := h₁.read_of_mem hi hmem
    obtain ⟨ys, zs, hxs⟩ := append_of_mem hmem
    refine ⟨st₁.store a ⟨next, data⟩, _, ?_, hsize, h₁.replace_spec hi hxs hread rfl fun _ => ⟨rfl, rfl⟩⟩
    simp [put, hfind, read_eq_some.mp hread]

theorem remove_loose (h : Rep (loose H) st bs) (key : T) :
    ∃ st' bs', st.remove H key = some st' ∧ st'.size = st.size ∧ Rep (loose H) st' bs' := by
  have hi := st.index_lt (H := H) key
  rcases scan_spec (fun _ d => H.isEqual d key) (h.chain _ hi) with
    ⟨hscan, -⟩ | ⟨ys, a, d, zs, next, hxs, -, -, hread, hscan⟩
  · exact ⟨st, bs, by simp [remove, hscan], rfl, h⟩
  · obtain ⟨st', hunlink, hsize, h'⟩ := h.unlink_spec hi hxs hread
    exact ⟨st', _, by simp [remove, hscan, hunlink], hsize, h'⟩

theorem removeIter_loose (h : Rep (loose H) st bs) {it : Iter A} {d : T} (hitem : st.item it = some d)
    (hindex : it.i = st.index H d) :
    ∃ st' bs', st.removeIter it = some st' ∧ st'.size = st.size ∧ Rep (loose H) st' bs' := by
  obtain ⟨ys, a, zs, st', -, hremove, hsize, h'⟩ := h.removeIter_spec hitem hindex
  exact ⟨st', _, hremove, hsize, h'⟩

/-- A call keeps the nodes of the table in the buckets of their hash. -/
theorem call_loose (h : Rep (loose H) st bs) {op : Op A T} (hop : Allowed H st op) :
    ∃ st' bs', call H st op = some st' ∧ st'.size = st.size ∧ Rep (loose H) st' bs' := by
  cases op with
  | put data fresh => exact put_loose h data hop
  | remove key => exact remove_loose h key
  | removeIter it =>
    obtain ⟨d, hitem, hindex⟩ := hop
    exact removeIter_loose h hitem hindex
  | clear =>
    obtain ⟨st', hclear, hsize, h'⟩ := clear_spec h
    exact ⟨st', _, hclear, hsize, h'⟩
  | get key =>
    obtain ⟨found, st', bs', hfind, hsize, h', -, hfound⟩ := find_loose h key
    refine ⟨st', bs', ?_, hsize, h'⟩
    cases found with
    | none => simp [call, get, hfind, deref]
    | some a =>
      obtain ⟨d, hmem, -⟩ := hfound a rfl
      obtain ⟨next, hread⟩ := h'.read_of_mem (st'.index_lt key) hmem
      simp [call, get, hfind, deref, read_eq_some.mp hread]
  | hasKey key =>
    obtain ⟨found, st', bs', hfind, hsize, h', -⟩ := find_loose h key
    exact ⟨st', bs', by simp [call, hasKey, hfind], hsize, h'⟩
  | contains x =>
    obtain ⟨found, st', bs', hfind, hsize, h', -⟩ := find_loose h x
    exact ⟨st', bs', by simp [call, HashTable.contains, hfind], hsize, h'⟩

/-! ## A copy -/

/-- A table cleared of equal data holds no data. -/
theorem clear_loose (h : Rep (loose H) st bs) : ∃ st', st.clear = some st' ∧ st'.size = st.size ∧
    Rep (loose H) st' (fun _ => []) ∧ Refines H st' fun _ => none := by
  obtain ⟨st', hclear, hsize, h'⟩ := clear_spec h
  exact ⟨st', hclear, hsize, h', fun _ => [], ⟨h'.chain, h'.placed, by simp, h'.live⟩, fun _ _ => by simp⟩

/-- A copy of another table has its data if the sizes are the same or no two data are equal. -/
theorem copy_loose (hH : H.Lawful) (halloc : ∀ st : HashTable A T, alloc st ∉ st.nodes)
    (h : Rep (loose H) st bs) (ht : Rep (loose H) t ts) :
    ∃ st' bs' xs ys, copy H alloc st (fun _ => t) = some st' ∧ Rep (loose H) st' bs' ∧ t.items = some xs ∧
      st'.items = some ys ∧
      (ys.Perm xs ↔ st.size = t.size ∨ xs.Pairwise fun x y => H.isEqual x y = false) := by
  obtain ⟨st₁, hclear, hsize, h₁, hempty⟩ := clear_loose h
  have hitems := items_spec ht
  by_cases hsame : st₁.size = t.size
  · obtain ⟨st', bs', hcopy, -, h', hdata⟩ := copyBuckets_spec halloc h₁ ht hsame
    refine ⟨st', bs', _, _, ?_, h', hitems, items_spec h', ?_⟩
    · simp [copy, hclear, hsame, ← hcopy]
    · rw [hdata]
      exact iff_of_true (Perm.refl _) (Or.inl (hsize.symm.trans hsame))
  · obtain ⟨st', bs', ys, hall, -, h', hys, hiff⟩ :=
      putAll_spec hH halloc ((allNodes ts t.size).map Prod.snd) hempty
    refine ⟨st', bs', _, ys, ?_, h'.forget, hitems, hys, ?_⟩
    · simp [copy, hclear, hsame, hitems, hall]
    · rw [hiff, ← hsize, or_iff_right hsame]

/-- A table copied to itself is cleared. -/
theorem copy_self_loose (halloc : ∀ st : HashTable A T, alloc st ∉ st.nodes) (h : Rep (loose H) st bs) :
    ∃ st' bs', copy H alloc st (fun st => st) = some st' ∧ Rep (loose H) st' bs' ∧ st'.items = some [] := by
  obtain ⟨st₁, hclear, -, h₁, -⟩ := clear_loose h
  obtain ⟨st', bs', hcopy, -, h', hdata⟩ := copyBuckets_spec halloc h₁ h₁ rfl
  refine ⟨st', bs', by simp [copy, hclear, hcopy], h', ?_⟩
  rw [items_spec h', hdata]
  simp [allNodes, nodesFrom]

/-- A constructed copy has the data of the table if no two of them are equal. -/
theorem construct_loose (hH : H.Lawful) (halloc : ∀ st : HashTable A T, alloc st ∉ st.nodes)
    (ht : Rep (loose H) t ts) :
    ∃ st' bs' xs ys, construct H alloc t = some st' ∧ Rep (loose H) st' bs' ∧ t.items = some xs ∧
      st'.items = some ys ∧ (ys.Perm xs ↔ xs.Pairwise fun x y => H.isEqual x y = false) := by
  have hitems := items_spec ht
  obtain ⟨st', bs', ys, hall, -, h', hys, hiff⟩ :=
    putAll_spec hH halloc ((allNodes ts t.size).map Prod.snd) (refines_new H t.size t.size_pos)
  exact ⟨st', bs', _, ys, by simp [construct, hitems, hall], h'.forget, hitems, hys, hiff⟩

/-! ## Programs over several tables -/

/-- What is done to a table; `copy` is also the assignment. -/
inductive Act (A T ι : Type*)
  | call (op : Op A T)
  | add (data : T)
  | copy (src : ι)
  | construct (src : ι)

variable {ι : Type*} [DecidableEq ι]

section Program

variable (H : Manager T) (alloc : HashTable A T → A)

/-- The table `d` after an action. -/
def perform (tables : ι → HashTable A T) (d : ι) : Act A T ι → Option (HashTable A T)
  | .call op => call H (tables d) op
  | .add data => some ((tables d).add H data (alloc (tables d)))
  | .copy src => copy H alloc (tables d) fun st => if src = d then st else tables src
  | .construct src => construct H alloc (tables src)

/-- An action on the table `op.1`. -/
def performAt (tables : ι → HashTable A T) (op : ι × Act A T ι) : Option (ι → HashTable A T) :=
  (perform H alloc tables op.1 op.2).map (Function.update tables op.1)

/-- The contract of a call. -/
def Valid (tables : ι → HashTable A T) (op : ι × Act A T ι) : Prop :=
  match op.2 with
  | .call c => Allowed H (tables op.1) c
  | _ => True

end Program

/-- Tables without nodes. -/
def newTables (A T : Type*) [DecidableEq A] (sizes : ι → Nat) (hsizes : ∀ d, 0 < sizes d) : ι → HashTable A T :=
  fun d => new (sizes d) (hsizes d)

/-- The two tables have the same data, with the same multiplicities. -/
def Same (t t' : HashTable A T) : Prop := ∃ xs ys, t.items = some xs ∧ t'.items = some ys ∧ ys.Perm xs

/-- No two data of the table are equal. -/
def Different (H : Manager T) (t : HashTable A T) : Prop :=
  ∃ xs, t.items = some xs ∧ xs.Pairwise fun x y => H.isEqual x y = false

/-- After the action on `d`, this table has the data of `s`, which has kept them. -/
def Copies (H : Manager T) (alloc : HashTable A T → A) (tables : ι → HashTable A T) (d s : ι) (act : Act A T ι) :
    Prop :=
  ∃ tables', performAt H alloc tables (d, act) = some tables' ∧ Same (tables s) (tables' d) ∧
    Same (tables s) (tables' s)

variable {tables : ι → HashTable A T}

theorem perform_loose (hH : H.Lawful) (halloc : ∀ st : HashTable A T, alloc st ∉ st.nodes)
    (h : ∀ d, ∃ bs, Rep (loose H) (tables d) bs) {d : ι} {act : Act A T ι} (hvalid : Valid H tables (d, act)) :
    ∃ st' bs', perform H alloc tables d act = some st' ∧ Rep (loose H) st' bs' := by
  obtain ⟨bs, hd⟩ := h d
  cases act with
  | call op =>
    obtain ⟨st', bs', hcall, -, h'⟩ := call_loose hd hvalid
    exact ⟨st', bs', hcall, h'⟩
  | add data =>
    obtain ⟨bs', h'⟩ := add_loose hd data (halloc (tables d))
    exact ⟨_, bs', rfl, h'⟩
  | copy src =>
    by_cases hsrc : src = d
    · obtain ⟨st', bs', hcopy, h', -⟩ := copy_self_loose halloc hd
      exact ⟨st', bs', by simpa only [perform, if_pos hsrc] using hcopy, h'⟩
    · obtain ⟨ts, hs⟩ := h src
      obtain ⟨st', bs', -, -, hcopy, h', -⟩ := copy_loose hH halloc hd hs
      exact ⟨st', bs', by simpa only [perform, if_neg hsrc] using hcopy, h'⟩
  | construct src =>
    obtain ⟨ts, hs⟩ := h src
    obtain ⟨st', bs', -, -, hcopy, h', -⟩ := construct_loose hH halloc hs
    exact ⟨st', bs', hcopy, h'⟩

/-- Whatever is done to the tables, their nodes are in the buckets of their hash. -/
theorem exec_loose (hH : H.Lawful) (halloc : ∀ st : HashTable A T, alloc st ∉ st.nodes) {sizes : ι → Nat}
    {hsizes : ∀ d, 0 < sizes d} {ops : List (ι × Act A T ι)}
    (hops : Run.Meets (Valid H) (performAt H alloc) (newTables A T sizes hsizes) ops) :
    ∃ tables, Run.exec (performAt H alloc) (newTables A T sizes hsizes) ops = some tables ∧
      ∀ d, ∃ bs, Rep (loose H) (tables d) bs := by
  refine Run.exists_exec_of_meets (fun tables => ∀ d, ∃ bs, Rep (loose H) (tables d) bs) ?_ ops _ ?_ hops
  · rintro tables ⟨d, act⟩ h hvalid
    obtain ⟨st', bs', hperform, h'⟩ := perform_loose hH halloc h hvalid
    refine ⟨Function.update tables d st', by simp only [performAt, hperform, map_some], ?_⟩
    intro d'
    by_cases hd : d' = d
    · subst hd
      rw [update_self]
      exact ⟨bs', h'⟩
    · rw [update_of_ne hd]
      exact h d'
  · intro d
    obtain ⟨bs, hrep, -⟩ := refines_new (A := A) H (sizes d) (hsizes d)
    exact ⟨bs, hrep.forget⟩

theorem same_self (h : Rep H t ts) : Same t t := ⟨_, _, items_spec h, items_spec h, Perm.refl _⟩

theorem same_iff {xs ys : List T} (hxs : t.items = some xs) (hys : st.items = some ys) : Same t st ↔ ys.Perm xs := by
  constructor
  · rintro ⟨xs', ys', hxs', hys', hperm⟩
    obtain rfl := some.inj (hxs.symm.trans hxs')
    obtain rfl := some.inj (hys.symm.trans hys')
    exact hperm
  · exact fun hperm => ⟨xs, ys, hxs, hys, hperm⟩

theorem different_iff (H : Manager T) {xs : List T} (hxs : t.items = some xs) :
    Different H t ↔ xs.Pairwise fun x y => H.isEqual x y = false := by
  constructor
  · rintro ⟨xs', hxs', h⟩
    obtain rfl := some.inj (hxs.symm.trans hxs')
    exact h
  · exact fun h => ⟨xs, hxs, h⟩

/-- An action that makes a table from another one. -/
theorem copies_perform_iff {d s : ι} (hne : d ≠ s) {act : Act A T ι} (hperform : perform H alloc tables d act = some st)
    (hs : Rep (loose H) (tables s) ts) : Copies H alloc tables d s act ↔ Same (tables s) st := by
  have hat : performAt H alloc tables (d, act) = some (Function.update tables d st) := by
    simp only [performAt, hperform, map_some]
  constructor
  · rintro ⟨tables', htables, hsame, -⟩
    obtain rfl := some.inj (hat.symm.trans htables)
    rwa [update_self] at hsame
  · intro hsame
    refine ⟨_, hat, by rwa [update_self], ?_⟩
    rw [update_of_ne hne.symm]
    exact same_self hs

/-- After any operations on any tables, `copy` and the assignment give a table with the data of the source, which
keeps them, if and only if the source is another table or has no data, and has the size of the copy or no two equal
data; a copy is constructed if and only if no two data are equal. -/
theorem hashTable_copy_iff (hH : H.Lawful) (halloc : ∀ st : HashTable A T, alloc st ∉ st.nodes) (sizes : ι → Nat)
    (hsizes : ∀ d, 0 < sizes d) (ops : List (ι × Act A T ι))
    (hops : Run.Meets (Valid H) (performAt H alloc) (newTables A T sizes hsizes) ops) :
    ∃ tables, Run.exec (performAt H alloc) (newTables A T sizes hsizes) ops = some tables ∧ ∀ d s,
      (Copies H alloc tables d s (.copy s) ↔
        (d = s → (tables s).items = some []) ∧ ((tables d).size = (tables s).size ∨ Different H (tables s))) ∧
      (d ≠ s → (Copies H alloc tables d s (.construct s) ↔ Different H (tables s))) := by
  obtain ⟨tables, hexec, hall⟩ := exec_loose hH halloc hops
  refine ⟨tables, hexec, ?_⟩
  intro d s
  obtain ⟨bs, hd⟩ := hall d
  obtain ⟨ts, hs⟩ := hall s
  constructor
  · by_cases hds : d = s
    · -- the table is cleared before its data are read
      subst hds
      obtain ⟨st', bs', hcopy, h', hnil⟩ := copy_self_loose halloc hd
      have hat : performAt H alloc tables (d, .copy d) = some (Function.update tables d st') := by
        simp only [performAt, perform, if_true, hcopy, map_some]
      have hitems := items_spec hd
      constructor
      · rintro ⟨tables', htables, hsame, -⟩
        obtain rfl := some.inj (hat.symm.trans htables)
        rw [update_self, same_iff hitems hnil] at hsame
        exact ⟨fun _ => by rw [hitems, hsame.symm.eq_nil], Or.inl rfl⟩
      · rintro ⟨hempty, -⟩
        have hsame : Same (tables d) (Function.update tables d st' d) := by
          rw [update_self]
          exact (same_iff (hempty rfl) hnil).mpr (Perm.refl _)
        exact ⟨_, hat, hsame, hsame⟩
    · obtain ⟨st', bs', xs, ys, hcopy, -, hxs, hys, hiff⟩ := copy_loose hH halloc hd hs
      have hperform : perform H alloc tables d (.copy s) = some st' := by
        simpa only [perform, if_neg (Ne.symm hds)] using hcopy
      rw [copies_perform_iff hds hperform hs, same_iff hxs hys, hiff, different_iff H hxs]
      exact ⟨fun h => ⟨fun heq => absurd heq hds, h⟩, fun h => h.2⟩
  · intro hds
    obtain ⟨st', bs', xs, ys, hcopy, -, hxs, hys, hiff⟩ := construct_loose hH halloc hs
    have hperform : perform H alloc tables d (.construct s) = some st' := hcopy
    rw [copies_perform_iff hds hperform hs, same_iff hxs hys, hiff, different_iff H hxs]

/-- An address that is not in use. -/
def unusedAddress {T : Type*} (st : HashTable Nat T) : Nat := st.nodes.keys.sum + 1

theorem unusedAddress_not_mem {T : Type*} (st : HashTable Nat T) : unusedAddress st ∉ st.nodes := by
  intro hmem
  have hle : unusedAddress st ≤ st.nodes.keys.sum := le_sum_of_mem hmem
  exact absurd hle (Nat.not_succ_le_self _)

/-- A table of two buckets with two equal data, and a table of three buckets. -/
theorem hashTable_copy_iff_twoTables :
    ∃ tables, Run.exec (performAt natManager unusedAddress)
        (newTables Nat Nat (fun b : Bool => if b then 2 else 3) (by decide))
        [(true, .call (.put 5 0)), (true, .add 5), (false, .add 1), (true, .call (.contains 5))] = some tables ∧
      ∀ d s,
        (Copies natManager unusedAddress tables d s (.copy s) ↔
          (d = s → (tables s).items = some []) ∧
            ((tables d).size = (tables s).size ∨ Different natManager (tables s))) ∧
        (d ≠ s → (Copies natManager unusedAddress tables d s (.construct s) ↔ Different natManager (tables s))) :=
  hashTable_copy_iff lawful_natManager unusedAddress_not_mem _ _ _
    ⟨by simp [Valid, Allowed, newTables, new], fun _ _ => ⟨trivial, fun _ _ => ⟨trivial, fun _ _ =>
      ⟨trivial, fun _ _ => trivial⟩⟩⟩⟩

/-- A table that is assigned to itself has no data any more. -/
theorem not_hashTable_copy : ¬ ∀ (sizes : Bool → Nat) (hsizes : ∀ d, 0 < sizes d)
    (ops : List (Bool × Act Nat Nat Bool)),
    Run.Meets (Valid natManager) (performAt natManager unusedAddress) (newTables Nat Nat sizes hsizes) ops →
      ∃ tables, Run.exec (performAt natManager unusedAddress) (newTables Nat Nat sizes hsizes) ops = some tables ∧
        ∀ d s, Copies natManager unusedAddress tables d s (.copy s) := by
  intro hall
  obtain ⟨tables, hexec, hcopies⟩ := hall (fun _ => 2) (by decide) [(true, .add 5)] ⟨trivial, fun _ _ => trivial⟩
  obtain rfl := some.inj hexec
  obtain ⟨tables', hcopy, ⟨xs, ys, hxs, hys, hperm⟩, -⟩ := hcopies true true
  obtain rfl := some.inj hcopy
  have hfive : xs = [5] := some.inj (hxs.symm.trans (by decide))
  have hnil : ys = [] := some.inj (hys.symm.trans (by decide))
  rw [hfive, hnil] at hperm
  cases hperm.length_eq

end Elm.Data.HashTable
