import Elm.Data.HashTable

/-!
# The buckets of a `HashTable`

`Rep` gives the contents of a table bucket by bucket: each list of nodes is complete, its data hash
to the bucket, no two of them are equal, and no node is left outside the buckets.  Each function of
the table rewrites one bucket and is described by what it does to that bucket.
-/

namespace Elm.Data

open Chain List Function

/-- The contract of a hash manager: `isEqual` is an equivalence and equal keys have the same
hash. -/
structure Manager.Lawful {T : Type*} (H : Manager T) : Prop where
  equivalence : Equivalence fun a b => H.isEqual a b = true
  hash_eq : ∀ a b, H.isEqual a b → H.computeHash a = H.computeHash b

/-- Two keys are not made different by their order. -/
def Manager.Symmetric {T : Type*} (H : Manager T) : Prop := ∀ x y, H.isEqual x y = false → H.isEqual y x = false

theorem Manager.Lawful.symmetric {T : Type*} {H : Manager T} (hH : H.Lawful) : H.Symmetric := by
  intro x y hxy
  rw [Bool.eq_false_iff] at hxy ⊢
  exact fun hyx => hxy (hH.equivalence.symm hyx)

/-- Equal keys are equal to the same keys. -/
theorem Manager.Lawful.isEqual_congr {T : Type*} {H : Manager T} (hH : H.Lawful) {d e : T} (hequal : H.isEqual d e)
    (x : T) : H.isEqual d x = H.isEqual e x ∧ H.isEqual x d = H.isEqual x e := by
  constructor
  · rw [Bool.eq_iff_iff]
    exact ⟨hH.equivalence.trans (hH.equivalence.symm hequal), hH.equivalence.trans hequal⟩
  · rw [Bool.eq_iff_iff]
    exact ⟨fun hx => hH.equivalence.trans hx hequal,
      fun hx => hH.equivalence.trans hx (hH.equivalence.symm hequal)⟩

namespace HashTable

variable {A T : Type*} [DecidableEq A]

/-! ## Reads after writes -/

omit [DecidableEq A] in
@[simp] theorem size_setEntry (st : HashTable A T) (i : Nat) (p : Option A) :
    (st.setEntry i p).size = st.size := by
  simp [size, setEntry]

@[simp] theorem size_store (st : HashTable A T) (a : A) (n : Node A T) :
    (st.store a n).size = st.size := rfl

@[simp] theorem size_free (st : HashTable A T) (a : A) : (st.free a).size = st.size := rfl

@[simp] theorem read_setEntry (st : HashTable A T) (i : Nat) (p : Option A) :
    (st.setEntry i p).read = st.read := rfl

@[simp] theorem entry_store (st : HashTable A T) (a : A) (n : Node A T) :
    (st.store a n).entry = st.entry := rfl

@[simp] theorem entry_free (st : HashTable A T) (a : A) : (st.free a).entry = st.entry := rfl

omit [DecidableEq A] in
theorem entry_setEntry_self {st : HashTable A T} {i : Nat} (hi : i < st.size) (p : Option A) :
    (st.setEntry i p).entry i = p := by
  have hi' : i < st.tab.length := hi
  simp [entry, setEntry, hi']

omit [DecidableEq A] in
theorem entry_setEntry_ne (st : HashTable A T) {i j : Nat} (hij : j ≠ i) (p : Option A) :
    (st.setEntry i p).entry j = st.entry j := by
  simp [entry, setEntry, getElem?_set_ne hij.symm]

theorem read_store (st : HashTable A T) (a : A) (n : Node A T) :
    (st.store a n).read = Function.update st.read a (some (n.next, n.data)) := by
  ext b : 1
  by_cases hb : b = a
  · subst hb
    simp [read, store]
  · simp [read, store, hb, AList.lookup_insert_ne hb]

theorem read_free (st : HashTable A T) (a : A) :
    (st.free a).read = Function.update st.read a none := by
  ext b : 1
  by_cases hb : b = a
  · subst hb
    simp [read, free]
  · simp [read, free, hb, AList.lookup_erase_ne hb]

theorem read_eq_some {st : HashTable A T} {a : A} {next : Option A} {d : T} :
    st.read a = some (next, d) ↔ st.nodes.lookup a = some ⟨next, d⟩ := by
  unfold read
  constructor
  · intro h
    obtain ⟨⟨next', d'⟩, hn, heq⟩ := Option.map_eq_some_iff.mp h
    obtain ⟨rfl, rfl⟩ := Prod.mk.inj heq
    exact hn
  · intro h
    simp [h]

theorem setNext_eq {st : HashTable A T} {b : A} {next : Option A} {d : T} (p : Option A)
    (hread : st.read b = some (next, d)) : st.setNext b p = some (st.store b ⟨p, d⟩) := by
  simp [setNext, read_eq_some.mp hread]

theorem mem_of_read {st : HashTable A T} {a : A} (h : (st.read a).isSome) : a ∈ st.nodes.keys := by
  rw [read, Option.isSome_map] at h
  exact AList.lookup_isSome.mp h

theorem mem_store {st : HashTable A T} {a b : A} {n : Node A T} :
    b ∈ (st.store a n).nodes ↔ b = a ∨ b ∈ st.nodes := by
  simp [store]

theorem mem_free {st : HashTable A T} {a b : A} : b ∈ (st.free a).nodes ↔ b ≠ a ∧ b ∈ st.nodes := by
  simp [free]

/-! ## The loop over a bucket -/

theorem length_lt_fuel {st : HashTable A T} {p : Option A} {xs : List (A × T)}
    (h : IsList st.read p xs) : xs.length < st.nodes.keys.length + 1 :=
  Nat.lt_succ_of_le (h.length_le fun _ ha => mem_of_read ha)

/-- The loop over a bucket stops at the first node that passes the test, with the node before it,
or at the end. -/
theorem scan_spec {st : HashTable A T} {i : Nat} {xs : List (A × T)} (test : A → T → Bool)
    (h : IsList st.read (st.entry i) xs) :
    st.scan test i = some none ∧ (∀ x ∈ xs, test x.1 x.2 = false) ∨
      ∃ ys a d zs next, xs = ys ++ (a, d) :: zs ∧ test a d ∧ (∀ y ∈ ys, test y.1 y.2 = false) ∧
        st.read a = some (next, d) ∧
        st.scan test i = some (some (a, ⟨next, d⟩, ys.getLast?.map Prod.fst)) := by
  let inv : List (A × T) → Option A × Option A → Prop := fun zs s =>
    ∃ ys, xs = ys ++ zs ∧ (∀ y ∈ ys, test y.1 y.2 = false) ∧ IsList st.read s.1 zs ∧
      s.2 = ys.getLast?.map Prod.fst
  let post : Option (Option (A × Node A T × Option A)) → Prop := fun r =>
    r = some none ∧ (∀ x ∈ xs, test x.1 x.2 = false) ∨
      ∃ ys a d zs next, xs = ys ++ (a, d) :: zs ∧ test a d ∧ (∀ y ∈ ys, test y.1 y.2 = false) ∧
        st.read a = some (next, d) ∧ r = some (some (a, ⟨next, d⟩, ys.getLast?.map Prod.fst))
  have hrun : ∃ r, Loop.run (scanTurn st test) (st.nodes.keys.length + 1) (st.entry i, none) =
      some r ∧ post r := by
    refine Loop.exists_run_of_list (scanTurn st test) inv post ?_ ?_ ⟨[], rfl, by simp, h, rfl⟩
      (length_lt_fuel h)
    · rintro ⟨a, d⟩ zs ⟨node, prev⟩ ⟨ys, hxs, hys, hlist, rfl⟩
      obtain ⟨rfl, next, hread, hrest⟩ := hlist
      have hlookup := read_eq_some.mp hread
      by_cases htest : test a d
      · -- the loop stops here
        refine Or.inr ⟨some (some (a, ⟨next, d⟩, ys.getLast?.map Prod.fst)), ?_, Or.inr ?_⟩
        · simp [scanTurn, hlookup, htest]
        · exact ⟨ys, a, d, zs, next, hxs, htest, hys, hread, rfl⟩
      · refine Or.inl ⟨(next, some a), ?_, ys ++ [(a, d)], by simpa using hxs, ?_, hrest, by simp⟩
        · simp [scanTurn, hlookup, htest]
        · intro y hy
          rcases mem_append.mp hy with hy | hy
          · exact hys y hy
          · obtain rfl := mem_singleton.mp hy
            simpa using htest
    · rintro ⟨node, prev⟩ ⟨ys, hxs, hys, hlist, -⟩
      obtain rfl : node = none := hlist
      refine ⟨some none, rfl, Or.inl ⟨rfl, ?_⟩⟩
      simpa [hxs] using hys
  obtain ⟨r, hr, hpost⟩ := hrun
  have hscan : st.scan test i = r := by simp [scan, hr]
  rw [hscan]
  exact hpost

/-! ## The contents of a table -/

variable (H : Manager T)

/-- The nodes of the table, bucket by bucket. -/
structure Rep (st : HashTable A T) (bs : Nat → List (A × T)) : Prop where
  chain : ∀ i < st.size, IsList st.read (st.entry i) (bs i)
  placed : ∀ i < st.size, ∀ x ∈ bs i, st.index H x.2 = i
  distinct : ∀ i < st.size, (bs i).Pairwise fun x y => H.isEqual x.2 y.2 = false
  live : ∀ a ∈ st.nodes, ∃ i < st.size, a ∈ (bs i).map Prod.fst

variable {H} {st st' : HashTable A T} {bs : Nat → List (A × T)}

omit [DecidableEq A] in
theorem index_lt (st : HashTable A T) (key : T) : st.index H key < st.size :=
  Nat.mod_lt _ st.size_pos

theorem Rep.read_of_mem (h : Rep H st bs) {i : Nat} (hi : i < st.size) {a : A} {d : T}
    (ha : (a, d) ∈ bs i) : ∃ next, st.read a = some (next, d) :=
  Seg.read_of_mem (h.chain i hi) ha

/-- A node is in one bucket only. -/
theorem Rep.bucket_unique (h : Rep H st bs) {i j : Nat} (hi : i < st.size) (hj : j < st.size) {a : A}
    (hai : a ∈ (bs i).map Prod.fst) (haj : a ∈ (bs j).map Prod.fst) : i = j := by
  obtain ⟨⟨a, d⟩, hd, rfl⟩ := mem_map.mp hai
  obtain ⟨⟨b, e⟩, he, rfl⟩ := mem_map.mp haj
  obtain ⟨next, hread⟩ := h.read_of_mem hi hd
  obtain ⟨next', hread'⟩ := h.read_of_mem hj he
  obtain ⟨-, rfl⟩ := Prod.mk.inj (Option.some.inj (hread.symm.trans hread'))
  rw [← h.placed i hi _ hd, ← h.placed j hj _ he]

theorem Rep.mem_nodes (h : Rep H st bs) {i : Nat} (hi : i < st.size) {a : A}
    (ha : a ∈ (bs i).map Prod.fst) : a ∈ st.nodes := by
  obtain ⟨⟨a, d⟩, hd, rfl⟩ := mem_map.mp ha
  obtain ⟨next, hread⟩ := h.read_of_mem hi hd
  exact mem_of_read (by simp [hread])

/-- A change confined to one bucket: the other pointers of the table and the other nodes are left
alone, and the new nodes of the bucket satisfy the invariant. -/
theorem Rep.update (h : Rep H st bs) {i : Nat} (hi : i < st.size) {xs : List (A × T)}
    (hsize : st'.size = st.size) (hentry : ∀ j, j ≠ i → st'.entry j = st.entry j)
    (hread : ∀ a ∈ st.nodes, a ∉ (bs i).map Prod.fst → st'.read a = st.read a)
    (hlist : IsList st'.read (st'.entry i) xs) (hplaced : ∀ x ∈ xs, st.index H x.2 = i)
    (hdistinct : xs.Pairwise fun x y => H.isEqual x.2 y.2 = false)
    (hlive : ∀ a ∈ st'.nodes, a ∈ xs.map Prod.fst ∨ a ∈ st.nodes ∧ a ∉ (bs i).map Prod.fst) :
    Rep H st' (Function.update bs i xs) := by
  have hindex : ∀ x, st'.index H x = st.index H x := fun x => by rw [index, index, hsize]
  refine ⟨?_, ?_, ?_, ?_⟩
  · intro j hj
    rw [hsize] at hj
    by_cases hji : j = i
    · subst hji
      simpa using hlist
    · rw [update_of_ne hji, hentry j hji]
      apply (h.chain j hj).congr
      intro x hx
      have hxj : x.1 ∈ (bs j).map Prod.fst := mem_map_of_mem hx
      exact hread x.1 (h.mem_nodes hj hxj) fun hxi => hji (h.bucket_unique hj hi hxj hxi)
  · intro j hj x hx
    rw [hindex]
    by_cases hji : j = i
    · subst hji
      exact hplaced x (by simpa using hx)
    · exact h.placed j (hsize ▸ hj) x (by simpa [hji] using hx)
  · intro j hj
    by_cases hji : j = i
    · subst hji
      simpa using hdistinct
    · simpa [hji] using h.distinct j (hsize ▸ hj)
  · intro a ha
    rw [hsize]
    rcases hlive a ha with hxs | ⟨hold, hnot⟩
    · exact ⟨i, hi, by simpa using hxs⟩
    · obtain ⟨j, hj, haj⟩ := h.live a hold
      have hji : j ≠ i := by
        rintro rfl
        exact hnot haj
      exact ⟨j, hj, by simpa [hji] using haj⟩

/-- A bucket that keeps its nodes in another order. -/
theorem Rep.reorder (h : Rep H st bs) (hH : H.Symmetric) {i : Nat} (hi : i < st.size)
    {xs : List (A × T)} (hsize : st'.size = st.size)
    (hentry : ∀ j, j ≠ i → st'.entry j = st.entry j)
    (hread : ∀ a ∈ st.nodes, a ∉ (bs i).map Prod.fst → st'.read a = st.read a)
    (hlist : IsList st'.read (st'.entry i) xs) (hperm : xs.Perm (bs i))
    (hlive : ∀ a ∈ st'.nodes, a ∈ (bs i).map Prod.fst ∨ a ∈ st.nodes) :
    Rep H st' (Function.update bs i xs) := by
  refine h.update hi hsize hentry hread hlist ?_ ?_ ?_
  · intro x hx
    exact h.placed i hi x (hperm.mem_iff.mp hx)
  · exact (h.distinct i hi).perm hperm.symm fun {x y} hxy => hH x.2 y.2 hxy
  · intro a ha
    by_cases hmem : a ∈ (bs i).map Prod.fst
    · exact Or.inl ((hperm.map Prod.fst).mem_iff.mpr hmem)
    · exact Or.inr ⟨(hlive a ha).resolve_left hmem, hmem⟩

theorem eq_nil_or_append {α : Type*} (ys : List α) : ys = [] ∨ ∃ zs y, ys = zs ++ [y] := by
  rcases eq_nil_or_concat ys with h | ⟨zs, y, h⟩
  · exact Or.inl h
  · exact Or.inr ⟨zs, y, by simpa using h⟩

theorem perm_front {α : Type*} (ys zs : List α) (y x : α) :
    (x :: (ys ++ y :: zs)).Perm (ys ++ [y] ++ x :: zs) := by
  have h : (ys ++ [y] ++ x :: zs).Perm (x :: (ys ++ [y] ++ zs)) := perm_middle
  simpa using h.symm

/-- Moving a node to the front of its bucket. -/
theorem Rep.relink (h : Rep H st bs) (hH : H.Symmetric) {i : Nat} (hi : i < st.size)
    {ys zs : List (A × T)} {a b : A} {d e : T} {next : Option A}
    (hxs : bs i = ys ++ [(b, e)] ++ (a, d) :: zs) (hread : st.read a = some (next, d)) :
    ∃ st', ((st.setNext b next).bind fun st => (st.setNext a (st.entry i)).map fun st =>
        (some a, st.setEntry i (some a))) = some (some a, st') ∧ st'.size = st.size ∧
      Rep H st' (Function.update bs i ((a, d) :: (ys ++ (b, e) :: zs))) ∧
      ∀ c, c ∈ st'.nodes ↔ c ∈ st.nodes := by
  have hlist : IsList st.read (st.entry i) (ys ++ (b, e) :: (a, d) :: zs) := by
    simpa [hxs] using h.chain i hi
  have hab : a ≠ b := by
    rintro rfl
    have hnodup := hlist.nodup
    simp [nodup_append] at hnodup
  obtain ⟨nextb, hreadb⟩ := Seg.read_of_mem hlist (a := b) (v := e) (by simp)
  have hread' : (st.store b ⟨next, e⟩).read a = some (next, d) := by
    rw [read_store, update_of_ne hab, hread]
  have hmem : ∀ c, c ∈ (((st.store b ⟨next, e⟩).store a ⟨st.entry i, d⟩).setEntry i
      (some a)).nodes ↔ c ∈ st.nodes := by
    intro c
    have ha : a ∈ st.nodes := mem_of_read (by simp [hread])
    have hb : b ∈ st.nodes := mem_of_read (by simp [hreadb])
    refine (mem_store.trans (or_congr_right mem_store)).trans ?_
    constructor
    · rintro (rfl | rfl | hc)
      · exact ha
      · exact hb
      · exact hc
    · exact fun hc => Or.inr (Or.inr hc)
  refine ⟨((st.store b ⟨next, e⟩).store a ⟨st.entry i, d⟩).setEntry i (some a), ?_, by simp, ?_,
    hmem⟩
  · simp [setNext_eq _ hreadb, setNext_eq _ hread']
  · refine h.reorder hH hi (by simp) ?_ ?_ ?_ (hxs ▸ perm_front ys zs (b, e) (a, d)) ?_
    · intro j hj
      rw [entry_setEntry_ne _ hj]
      rfl
    · intro c _ hc
      have hca : c ≠ a := by
        rintro rfl
        simp [hxs] at hc
      have hcb : c ≠ b := by
        rintro rfl
        simp [hxs] at hc
      rw [read_setEntry, read_store, update_of_ne hca, read_store,
        update_of_ne hcb]
    · rw [entry_setEntry_self (by simpa using hi), read_setEntry, read_store, read_store]
      exact hlist.moveToFront hread
    · exact fun c hc => Or.inr ((hmem c).mp hc)

/-- `find` reorders the bucket of the key and answers with its node, if any; the nodes of a bucket are
different for `e`, which may not be the equality that is looked for. -/
theorem Rep.find_spec {e : T → T → Bool} (h : Rep ⟨H.computeHash, e⟩ st bs)
    (he : Manager.Symmetric ⟨H.computeHash, e⟩) (key : T) :
    ∃ found st' xs, st.find H key = some (found, st') ∧ st'.size = st.size ∧
      Rep ⟨H.computeHash, e⟩ st' (Function.update bs (st.index H key) xs) ∧ xs.Perm (bs (st.index H key)) ∧
      (∀ a, a ∈ st'.nodes ↔ a ∈ st.nodes) ∧
      (found = none ∧ (∀ x ∈ bs (st.index H key), H.isEqual x.2 key = false) ∨
        ∃ a d, found = some a ∧ (a, d) ∈ bs (st.index H key) ∧ H.isEqual d key) := by
  have hi := st.index_lt (H := H) key
  obtain ⟨i, hindex⟩ : ∃ i, i = st.index H key := ⟨_, rfl⟩
  rw [← hindex] at hi ⊢
  have hsame : Rep ⟨H.computeHash, e⟩ st (Function.update bs i (bs i)) := by simpa using h
  rcases scan_spec (fun _ d => H.isEqual d key) (h.chain i hi) with
    ⟨hscan, hnone⟩ | ⟨ys, a, d, zs, next, hxs, hequal, -, hread, hscan⟩
  · refine ⟨none, st, bs i, ?_, rfl, hsame, Perm.refl _, fun _ => Iff.rfl, Or.inl ⟨rfl, hnone⟩⟩
    simp [find, ← hindex, hscan]
  · have hfound : (a, d) ∈ bs i := by simp [hxs]
    rcases eq_nil_or_append ys with rfl | ⟨ys, ⟨b, c⟩, rfl⟩
    · -- at the head of the bucket
      refine ⟨some a, st, bs i, ?_, rfl, hsame, Perm.refl _, fun _ => Iff.rfl,
        Or.inr ⟨a, d, rfl, hfound, hequal⟩⟩
      simp [find, ← hindex, hscan]
    · -- behind the node `b`
      obtain ⟨st', hlink, hsize, hrep, hnodes⟩ := h.relink he hi hxs hread
      refine ⟨some a, st', _, ?_, hsize, hrep, hxs ▸ perm_front ys zs (b, c) (a, d), hnodes,
        Or.inr ⟨a, d, rfl, hfound, hequal⟩⟩
      rw [← hlink]
      simp [find, ← hindex, hscan]

/-- A node with new data in front of its bucket. -/
theorem Rep.add_spec (h : Rep H st bs) {data : T} {a : A} (ha : a ∉ st.nodes)
    (hnew : ∀ x ∈ bs (st.index H data), H.isEqual data x.2 = false) :
    Rep H (st.add H data a)
      (Function.update bs (st.index H data) ((a, data) :: bs (st.index H data))) := by
  have hi := st.index_lt (H := H) data
  obtain ⟨i, hindex⟩ : ∃ i, i = st.index H data := ⟨_, rfl⟩
  rw [← hindex] at hi hnew ⊢
  have hnot : a ∉ (bs i).map Prod.fst := fun hmem => ha (h.mem_nodes hi hmem)
  have hadd : st.add H data a = (st.store a ⟨st.entry i, data⟩).setEntry i (some a) := by
    rw [add, ← hindex]
  rw [hadd]
  refine h.update hi (by simp) ?_ ?_ ?_ ?_ ?_ ?_
  · intro j hj
    rw [entry_setEntry_ne _ hj]
    rfl
  · intro c hc _
    have hca : c ≠ a := by
      rintro rfl
      exact ha hc
    rw [read_setEntry, read_store, update_of_ne hca]
  · rw [entry_setEntry_self (by simpa using hi), read_setEntry, read_store]
    exact (h.chain i hi).push hnot data
  · intro x hx
    rcases mem_cons.mp hx with rfl | hx
    · exact hindex.symm
    · exact h.placed i hi x hx
  · exact pairwise_cons.mpr ⟨hnew, h.distinct i hi⟩
  · intro c hc
    rcases mem_store.mp hc with rfl | hc
    · exact Or.inl (by simp)
    · by_cases hmem : c ∈ (bs i).map Prod.fst
      · exact Or.inl (by simp [hmem])
      · exact Or.inr ⟨hc, hmem⟩

/-- A node whose data are replaced by equal ones. -/
theorem Rep.replace_spec (h : Rep H st bs) {i : Nat} (hi : i < st.size)
    {ys zs : List (A × T)} {a : A} {d data : T} {next : Option A}
    (hxs : bs i = ys ++ (a, d) :: zs) (hread : st.read a = some (next, d)) (hindex : st.index H data = i)
    (hsame : ∀ x, H.isEqual d x = H.isEqual data x ∧ H.isEqual x d = H.isEqual x data) :
    Rep H (st.store a ⟨next, data⟩) (Function.update bs i (ys ++ (a, data) :: zs)) := by
  have hlist := hxs ▸ h.chain i hi
  have hzs := (hlist.next_of_append hread).2
  have hnot : a ∉ zs.map Prod.fst := by
    have hnodup := hlist.nodup
    rw [map_append, map_cons, nodup_middle, nodup_cons] at hnodup
    exact fun hmem => hnodup.1 (mem_append_right _ hmem)
  refine h.update hi (by simp) (fun _ _ => rfl) ?_ ?_ ?_ ?_ ?_
  · intro c _ hc
    have hca : c ≠ a := by
      rintro rfl
      simp [hxs] at hc
    rw [read_store, update_of_ne hca]
  · rw [entry_store, read_store]
    exact hlist.splice hzs hnot data
  · intro x hx
    have hold : ∀ x ∈ ys ++ (a, d) :: zs, st.index H x.2 = i := hxs ▸ h.placed i hi
    rcases mem_append.mp hx with hx | hx
    · exact hold x (by simp [hx])
    · rcases mem_cons.mp hx with rfl | hx
      · exact hindex
      · exact hold x (by simp [hx])
  · have hold := h.distinct i hi
    rw [hxs] at hold
    simpa [pairwise_append, pairwise_cons, hsame] using hold
  · intro c hc
    rcases mem_store.mp hc with rfl | hc
    · exact Or.inl (by simp)
    · by_cases hmem : c ∈ (bs i).map Prod.fst
      · exact Or.inl (by simpa [hxs] using hmem)
      · exact Or.inr ⟨hc, hmem⟩

/-- Both `remove` take one node out of its bucket. -/
theorem Rep.unlink_spec (h : Rep H st bs) {i : Nat} (hi : i < st.size) {ys zs : List (A × T)} {a : A}
    {d : T} {next : Option A} (hxs : bs i = ys ++ (a, d) :: zs)
    (hread : st.read a = some (next, d)) :
    ∃ st', st.unlink i a ⟨next, d⟩ (ys.getLast?.map Prod.fst) = some st' ∧ st'.size = st.size ∧
      Rep H st' (Function.update bs i (ys ++ zs)) := by
  have hlist := hxs ▸ h.chain i hi
  have hzs := (hlist.next_of_append hread).2
  have hnot : a ∉ (ys ++ zs).map Prod.fst := by
    have hnodup := hlist.nodup
    rw [map_append, map_cons, nodup_middle, nodup_cons] at hnodup
    simpa using hnodup.1
  have hplaced : ∀ x ∈ ys ++ zs, st.index H x.2 = i := by
    intro x hx
    apply h.placed i hi x
    rw [hxs]
    rcases mem_append.mp hx with hx | hx
    · simp [hx]
    · simp [hx]
  have hdistinct : (ys ++ zs).Pairwise fun x y => H.isEqual x.2 y.2 = false := by
    refine List.Pairwise.sublist ?_ (hxs ▸ h.distinct i hi)
    simp
  have hlive : ∀ c ∈ st.nodes, c ≠ a →
      c ∈ (ys ++ zs).map Prod.fst ∨ c ∈ st.nodes ∧ c ∉ (bs i).map Prod.fst := by
    intro c hc hca
    by_cases hmem : c ∈ (bs i).map Prod.fst
    · left
      simpa [hxs, hca] using hmem
    · exact Or.inr ⟨hc, hmem⟩
  rcases eq_nil_or_append ys with rfl | ⟨ys, ⟨b, e⟩, rfl⟩
  · -- at the head of the bucket
    refine ⟨(st.setEntry i next).free a, rfl, by simp, ?_⟩
    refine h.update hi (by simp) ?_ ?_ ?_ hplaced hdistinct ?_
    · intro j hj
      rw [entry_free, entry_setEntry_ne _ hj]
    · intro c _ hc
      have hca : c ≠ a := by
        rintro rfl
        simp [hxs] at hc
      rw [read_free, update_of_ne hca, read_setEntry]
    · rw [entry_free, entry_setEntry_self hi, read_free, read_setEntry]
      exact hzs.update (by simpa using hnot) _
    · intro c hc
      obtain ⟨hca, hc⟩ := mem_free.mp hc
      exact hlive c hc hca
  · -- behind the node `b`
    have hlist' : IsList st.read (st.entry i) (ys ++ (b, e) :: (a, d) :: zs) := by simpa using hlist
    obtain ⟨nextb, hreadb⟩ := Seg.read_of_mem hlist' (a := b) (v := e) (by simp)
    refine ⟨(st.store b ⟨next, e⟩).free a, ?_, by simp, ?_⟩
    · simp [unlink, setNext_eq _ hreadb]
    refine h.update hi (by simp) (fun _ _ => rfl) ?_ ?_ hplaced hdistinct ?_
    · intro c _ hc
      have hca : c ≠ a := by
        rintro rfl
        simp [hxs] at hc
      have hcb : c ≠ b := by
        rintro rfl
        simp [hxs] at hc
      rw [read_free, update_of_ne hca, read_store, update_of_ne hcb]
    · rw [entry_free, entry_store, read_free, read_store]
      have hunlinked : IsList (Function.update st.read b (some (next, e))) (st.entry i)
          (ys ++ [(b, e)] ++ zs) := by
        simpa using hlist'.unlink hread
      exact hunlinked.update hnot _
    · intro c hc
      obtain ⟨hca, hc⟩ := mem_free.mp hc
      rcases mem_store.mp hc with rfl | hc
      · exact Or.inl (by simp)
      · exact hlive c hc hca

end HashTable

end Elm.Data
