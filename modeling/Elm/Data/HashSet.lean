import Elm.Data.HashTableCopy

/-!
# `HashSet`

The sets of `include/elm/data/HashSet.h`, over a hash table.  `join`, `diff` and `subsetOf` go over
one table while they put in, remove from or look up in another one; `meet` first collects what the
other set lacks, then removes it.
-/

namespace Elm.Data.HashSet

open HashTable Option List

variable {A T : Type*} [DecidableEq A]

/-! ## The program -/

section Model

variable (H : Manager T) (alloc : HashTable A T → A)

/-- `insert`; `alloc` gives the address of a new node. -/
def insert (st : HashTable A T) (val : T) : Option (HashTable A T) := st.put H val (alloc st)

/-- `remove`. -/
def remove (st : HashTable A T) (val : T) : Option (HashTable A T) := HashTable.remove H st val

/-- The loop of `subsetOf`; the lookups are made in the other set `s`. -/
def included (s : HashTable A T) : List T → Option (Bool × HashTable A T)
  | [] => some (true, s)
  | x :: xs => (s.hasKey H x).bind fun r => if r.1 then included r.2 xs else some (false, r.2)

/-- `subsetOf`. -/
def subsetOf (st s : HashTable A T) : Option (Bool × HashTable A T) := st.items.bind (included H s)

/-- `join`. -/
def join (st c : HashTable A T) : Option (HashTable A T) :=
  c.items.bind fun xs => xs.foldlM (insert H alloc) st

/-- `diff`. -/
def diff (st c : HashTable A T) : Option (HashTable A T) :=
  c.items.bind fun xs => xs.foldlM (remove H) st

/-- The first loop of `meet`: the items that `c` does not contain are added to the list `l`, at the
front. -/
def missing (c : HashTable A T) (l : List T) : List T → Option (List T × HashTable A T)
  | [] => some (l, c)
  | x :: xs => (c.hasKey H x).bind fun r => missing r.2 (if r.1 then l else x :: l) xs

/-- `meet`: this set, and the other one whose buckets the lookups have reordered. -/
def meet (st c : HashTable A T) : Option (HashTable A T × HashTable A T) :=
  st.items.bind fun xs => (missing H c [] xs).bind fun r =>
    (r.1.foldlM (remove H) st).map fun st => (st, r.2)

end Model

/-! ## Programs over several sets -/

/-- A call on the set `s`. -/
inductive Call (T ι : Type*)
  | insert (s : ι) (val : T)
  | remove (s : ι) (val : T)
  | contains (s : ι) (val : T)
  | clear (s : ι)
  | copy (s c : ι)
  | join (s c : ι)
  | diff (s c : ι)
  | meet (s c : ι)
  | subsetOf (s c : ι)

variable {ι : Type*} [DecidableEq ι]

/-- The two sets of a call are distinct. -/
def Call.Distinct : Call T ι → Prop
  | .copy s c | .join s c | .diff s c | .meet s c | .subsetOf s c => s ≠ c
  | _ => True

section Program

variable (H : Manager T) (alloc : HashTable A T → A)

/-- The tables of the sets after a call. -/
def step (sets : ι → HashTable A T) : Call T ι → Option (ι → HashTable A T)
  | .insert s val => (insert H alloc (sets s) val).map (Function.update sets s)
  | .remove s val => (remove H (sets s) val).map (Function.update sets s)
  | .contains s val => ((sets s).hasKey H val).map fun r => Function.update sets s r.2
  | .clear s => (sets s).clear.map (Function.update sets s)
  | .copy s c => (copy H alloc (sets s) fun st => if c = s then st else sets c).map (Function.update sets s)
  | .join s c => (join H alloc (sets s) (sets c)).map (Function.update sets s)
  | .diff s c => (diff H (sets s) (sets c)).map (Function.update sets s)
  | .meet s c => (meet H (sets s) (sets c)).map fun r => Function.update (Function.update sets c r.2) s r.1
  | .subsetOf s c => (subsetOf H (sets s) (sets c)).map fun r => Function.update sets c r.2

/-- The elements equal to `val`. -/
def equalTo (val : T) : Set T := {x | H.isEqual val x}

/-- The sets of elements after a call. -/
def specStep (S : ι → Set T) : Call T ι → ι → Set T
  | .insert s val => Function.update S s (S s ∪ equalTo H val)
  | .remove s val => Function.update S s (S s \ equalTo H val)
  | .contains _ _ => S
  | .clear s => Function.update S s ∅
  | .copy s c => Function.update S s (S c)
  | .join s c => Function.update S s (S s ∪ S c)
  | .diff s c => Function.update S s (S s \ S c)
  | .meet s c => Function.update S s (S s ∩ S c)
  | .subsetOf _ _ => S

/-- The sets of elements and the tables. -/
def both (u : (ι → Set T) × (ι → HashTable A T)) (call : Call T ι) : Option ((ι → Set T) × (ι → HashTable A T)) :=
  (step H alloc u.2 call).map fun sets => (specStep H u.1 call, sets)

/-- The items of the table are the elements of the set, each one once. -/
def Agrees (S : Set T) (st : HashTable A T) : Prop :=
  ∃ xs, st.items = some xs ∧ xs.Pairwise (fun x y => H.isEqual x y = false) ∧
    ∀ x, x ∈ S ↔ ∃ y ∈ xs, H.isEqual y x

end Program

/-! ## The loops -/

variable {H : Manager T} {alloc : HashTable A T → A} {st c : HashTable A T} {S C : Set T}

/-- The table holds the elements of the set. -/
def Holds (H : Manager T) (S : Set T) (st : HashTable A T) : Prop :=
  ∃ m, Refines H st m ∧ ∀ x, x ∈ S ↔ (m x).isSome

/-- The elements equal to an item. -/
def closure (H : Manager T) (xs : List T) : Set T := {x | ∃ y ∈ xs, H.isEqual y x}

theorem closure_cons (y : T) (xs : List T) : closure H (y :: xs) = equalTo H y ∪ closure H xs := by
  ext x
  simp only [closure, equalTo, Set.mem_union, Set.mem_ofPred_eq, mem_cons, exists_eq_or_imp]

theorem Holds.agrees (hH : H.Lawful) (h : Holds H S st) : Agrees H S st := by
  obtain ⟨m, hm, hS⟩ := h
  obtain ⟨xs, hitems, hxs, hmem⟩ := items_of_refines hH hm
  refine ⟨xs, hitems, hxs, ?_⟩
  intro x
  rw [hS, isSome_iff_exists]
  exact exists_congr fun d => hmem x d

theorem Holds.closed (hH : H.Lawful) (h : Holds H S st) {x y : T} (hx : x ∈ S) (hxy : H.isEqual x y) : y ∈ S := by
  obtain ⟨xs, -, -, hmem⟩ := h.agrees hH
  obtain ⟨z, hz, hzx⟩ := (hmem x).mp hx
  exact (hmem y).mpr ⟨z, hz, hH.equivalence.trans hzx hxy⟩

theorem insert_spec (hH : H.Lawful) (halloc : ∀ st : HashTable A T, alloc st ∉ st.nodes) (h : Holds H S st)
    (val : T) : ∃ st', insert H alloc st val = some st' ∧ Holds H (S ∪ equalTo H val) st' := by
  obtain ⟨m, hm, hS⟩ := h
  obtain ⟨st', hput, -, hm'⟩ := put_refines hH hm val (halloc st)
  refine ⟨st', hput, _, hm', ?_⟩
  intro x
  rw [Set.mem_union, hS]
  by_cases hx : H.isEqual val x
  · rw [apply_put_self hx]
    exact iff_of_true (Or.inr hx) rfl
  · rw [apply_put_of_ne hx]
    exact or_iff_left hx

theorem remove_spec (hH : H.Lawful) (h : Holds H S st) (val : T) :
    ∃ st', remove H st val = some st' ∧ Holds H (S \ equalTo H val) st' := by
  obtain ⟨m, hm, hS⟩ := h
  obtain ⟨st', hremove, -, hm'⟩ := remove_refines hH hm val
  refine ⟨st', hremove, _, hm', ?_⟩
  intro x
  rw [Set.mem_sdiff, hS]
  by_cases hx : H.isEqual val x
  · rw [apply_remove_self hx]
    exact iff_of_false (fun hmem => hmem.2 hx) Bool.false_ne_true
  · rw [apply_remove_of_ne hx]
    exact and_iff_left hx

theorem hasKey_spec (hH : H.Lawful) (h : Holds H S st) (val : T) :
    ∃ b st', st.hasKey H val = some (b, st') ∧ (b ↔ val ∈ S) ∧ Holds H S st' := by
  obtain ⟨m, hm, hS⟩ := h
  obtain ⟨st', hhas, -, hm'⟩ := hasKey_refines hH hm val
  exact ⟨_, st', hhas, (hS val).symm, m, hm', hS⟩

/-- The items are inserted in turn. -/
theorem foldlM_insert (hH : H.Lawful) (halloc : ∀ st : HashTable A T, alloc st ∉ st.nodes) (xs : List T)
    (h : Holds H S st) : ∃ st', xs.foldlM (insert H alloc) st = some st' ∧ Holds H (S ∪ closure H xs) st' := by
  induction xs generalizing st S with
  | nil =>
    refine ⟨st, rfl, ?_⟩
    have hnil : closure H ([] : List T) = ∅ := by simp [closure]
    rwa [hnil, Set.union_empty]
  | cons x xs ih =>
    obtain ⟨st₁, hinsert, h₁⟩ := insert_spec hH halloc h x
    obtain ⟨st', hfold, h'⟩ := ih h₁
    rw [Set.union_assoc, ← closure_cons] at h'
    refine ⟨st', ?_, h'⟩
    rw [foldlM_cons, hinsert]
    exact hfold

/-- The items are removed in turn. -/
theorem foldlM_remove (hH : H.Lawful) (xs : List T) (h : Holds H S st) :
    ∃ st', xs.foldlM (remove H) st = some st' ∧ Holds H (S \ closure H xs) st' := by
  induction xs generalizing st S with
  | nil =>
    refine ⟨st, rfl, ?_⟩
    have hnil : closure H ([] : List T) = ∅ := by simp [closure]
    rwa [hnil, Set.sdiff_empty]
  | cons x xs ih =>
    obtain ⟨st₁, hremove, h₁⟩ := remove_spec hH h x
    obtain ⟨st', hfold, h'⟩ := ih h₁
    rw [Set.sdiff_sdiff, ← closure_cons] at h'
    refine ⟨st', ?_, h'⟩
    rw [foldlM_cons, hremove]
    exact hfold

/-- The items that the other set lacks. -/
theorem missing_spec (hH : H.Lawful) (xs l : List T) (h : Holds H C c) :
    ∃ l' c', missing H c l xs = some (l', c') ∧ Holds H C c' ∧ ∀ y, y ∈ l' ↔ y ∈ l ∨ y ∈ xs ∧ y ∉ C := by
  induction xs generalizing c l with
  | nil => exact ⟨l, c, rfl, h, by simp⟩
  | cons x xs ih =>
    obtain ⟨b, c₁, hhas, hb, h₁⟩ := hasKey_spec hH h x
    obtain ⟨l', c', hmissing, h', hmem⟩ := ih (if b then l else x :: l) h₁
    refine ⟨l', c', ?_, h', ?_⟩
    · simp only [missing, hhas, bind_some]
      exact hmissing
    · intro y
      rw [hmem]
      cases b with
      | true =>
        -- the item stays in the set
        have hx : x ∈ C := hb.mp rfl
        simp only [if_true, mem_cons]
        constructor
        · rintro (hy | ⟨hy, hnot⟩)
          · exact Or.inl hy
          · exact Or.inr ⟨Or.inr hy, hnot⟩
        · rintro (hy | ⟨rfl | hy, hnot⟩)
          · exact Or.inl hy
          · exact absurd hx hnot
          · exact Or.inr ⟨hy, hnot⟩
      | false =>
        -- the item is one of those to remove
        have hx : x ∉ C := fun hx => Bool.false_ne_true (hb.mpr hx)
        simp only [Bool.false_eq_true, if_false, mem_cons]
        constructor
        · rintro ((rfl | hy) | ⟨hy, hnot⟩)
          · exact Or.inr ⟨Or.inl rfl, hx⟩
          · exact Or.inl hy
          · exact Or.inr ⟨Or.inr hy, hnot⟩
        · rintro (hy | ⟨rfl | hy, hnot⟩)
          · exact Or.inl (Or.inr hy)
          · exact Or.inl (Or.inl rfl)
          · exact Or.inr ⟨hy, hnot⟩

theorem included_spec (hH : H.Lawful) (xs : List T) (h : Holds H C c) :
    ∃ b c', included H c xs = some (b, c') ∧ Holds H C c' ∧ (b ↔ ∀ x ∈ xs, x ∈ C) := by
  induction xs generalizing c with
  | nil => exact ⟨true, c, rfl, h, by simp⟩
  | cons x xs ih =>
    obtain ⟨b, c₁, hhas, hb, h₁⟩ := hasKey_spec hH h x
    cases b with
    | true =>
      obtain ⟨b, c', hincluded, h', hiff⟩ := ih h₁
      refine ⟨b, c', ?_, h', ?_⟩
      · simp only [included, hhas, bind_some, if_true]
        exact hincluded
      · rw [hiff, forall_mem_cons]
        exact (and_iff_right (hb.mp rfl)).symm
    | false =>
      refine ⟨false, c₁, ?_, h₁, ?_⟩
      · simp only [included, hhas, bind_some, Bool.false_eq_true, if_false]
      · refine iff_of_false Bool.false_ne_true fun hall => ?_
        exact Bool.false_ne_true (hb.mpr (hall x mem_cons_self))

/-! ## The operations -/

theorem join_spec (hH : H.Lawful) (halloc : ∀ st : HashTable A T, alloc st ∉ st.nodes) (h : Holds H S st)
    (hc : Holds H C c) : ∃ st', join H alloc st c = some st' ∧ Holds H (S ∪ C) st' := by
  obtain ⟨xs, hitems, -, hmem⟩ := hc.agrees hH
  obtain ⟨st', hfold, h'⟩ := foldlM_insert hH halloc xs h
  have hC : closure H xs = C := Set.ext fun x => (hmem x).symm
  exact ⟨st', by rw [join, hitems, bind_some, hfold], hC ▸ h'⟩

theorem diff_spec (hH : H.Lawful) (h : Holds H S st) (hc : Holds H C c) :
    ∃ st', diff H st c = some st' ∧ Holds H (S \ C) st' := by
  obtain ⟨xs, hitems, -, hmem⟩ := hc.agrees hH
  obtain ⟨st', hfold, h'⟩ := foldlM_remove hH xs h
  have hC : closure H xs = C := Set.ext fun x => (hmem x).symm
  exact ⟨st', by rw [diff, hitems, bind_some, hfold], hC ▸ h'⟩

theorem meet_spec (hH : H.Lawful) (h : Holds H S st) (hc : Holds H C c) :
    ∃ st' c', meet H st c = some (st', c') ∧ Holds H (S ∩ C) st' ∧ Holds H C c' := by
  obtain ⟨xs, hitems, -, hmem⟩ := h.agrees hH
  obtain ⟨l, c', hmissing, hc', hl⟩ := missing_spec hH xs [] hc
  obtain ⟨st', hfold, h'⟩ := foldlM_remove hH l h
  refine ⟨st', c', by simp only [meet, hitems, hmissing, hfold, bind_some, map_some], ?_, hc'⟩
  have hset : S \ closure H l = S ∩ C := by
    ext x
    simp only [closure, Set.mem_sdiff, Set.mem_inter_iff, Set.mem_ofPred_eq, hl, not_mem_nil, false_or]
    refine and_congr_right fun hx => ?_
    constructor
    · -- an equal item of this set is one of those that the other set lacks
      intro hnot
      by_contra hxC
      obtain ⟨y, hy, hyx⟩ := (hmem x).mp hx
      exact hnot ⟨y, ⟨hy, fun hyC => hxC (hc.closed hH hyC hyx)⟩, hyx⟩
    · rintro hxC ⟨y, ⟨-, hyC⟩, hyx⟩
      exact hyC (hc.closed hH hxC (hH.equivalence.symm hyx))
  exact hset ▸ h'

theorem subsetOf_spec (hH : H.Lawful) (h : Holds H S st) (hc : Holds H C c) :
    ∃ b c', subsetOf H st c = some (b, c') ∧ (b ↔ S ⊆ C) ∧ Holds H C c' := by
  obtain ⟨xs, hitems, -, hmem⟩ := h.agrees hH
  obtain ⟨b, c', hincluded, hc', hb⟩ := included_spec hH xs hc
  refine ⟨b, c', by rw [subsetOf, hitems, bind_some, hincluded], ?_, hc'⟩
  rw [hb]
  constructor
  · intro hall x hx
    obtain ⟨y, hy, hyx⟩ := (hmem x).mp hx
    exact hc.closed hH (hall y hy) hyx
  · intro hsub x hx
    exact hsub ((hmem x).mpr ⟨x, hx, hH.equivalence.refl x⟩)

/-- The map that the nodes of a table hold. -/
theorem exists_refines (hH : H.Lawful) {bs : Nat → List (A × T)} (h : Rep H st bs) : ∃ m, Refines H st m := by
  refine ⟨fun key => ((bs (st.index H key)).find? fun x => H.isEqual x.2 key).map Prod.snd, bs, h, ?_⟩
  intro key d
  rw [map_eq_some_iff]
  constructor
  · rintro ⟨⟨a, d⟩, hfind, rfl⟩
    have hequal := find?_some hfind
    exact ⟨⟨a, mem_of_find?_eq_some hfind⟩, hequal⟩
  · rintro ⟨⟨a, hmem⟩, hequal⟩
    have hsome : ((bs (st.index H key)).find? fun x => H.isEqual x.2 key).isSome :=
      find?_isSome.mpr ⟨(a, d), hmem, hequal⟩
    obtain ⟨y, hy⟩ := isSome_iff_exists.mp hsome
    refine ⟨y, hy, ?_⟩
    have hyequal := find?_some hy
    -- another node of the bucket would hold an equal key
    obtain ⟨ys, zs, hsplit⟩ := append_of_mem hmem
    by_cases hya : y = (a, d)
    · rw [hya]
    · have hother : y ∈ ys ++ zs := by
        have hin := mem_of_find?_eq_some hy
        rw [hsplit] at hin
        simpa [hya] using hin
      exact absurd (hH.equivalence.trans hyequal (hH.equivalence.symm hequal))
        (h.isEqual_middle hH (st.index_lt key) hsplit hother)

theorem holds_of_items (hH : H.Lawful) {bs : Nat → List (A × T)} (h : Rep H st bs) {xs ys : List T}
    (hitems : st.items = some ys) (hperm : ys.Perm xs) (hS : ∀ x, x ∈ S ↔ ∃ y ∈ xs, H.isEqual y x) : Holds H S st := by
  obtain ⟨m, hm⟩ := exists_refines hH h
  obtain ⟨ys', hitems', -, hmem⟩ := items_of_refines hH hm
  obtain rfl := some.inj (hitems.symm.trans hitems')
  refine ⟨m, hm, ?_⟩
  intro x
  rw [hS, isSome_iff_exists]
  refine exists_congr fun d => ?_
  rw [hmem, hperm.mem_iff]

theorem clear_holds (h : Holds H S st) : ∃ st', st.clear = some st' ∧ Holds H ∅ st' := by
  obtain ⟨m, hm, -⟩ := h
  obtain ⟨st', hclear, -, hm'⟩ := clear_refines hm
  exact ⟨st', hclear, _, hm', fun x => by simp [KeyMap.apply]⟩

/-- A copy of a set, whose items are different. -/
theorem copy_spec (hH : H.Lawful) (halloc : ∀ st : HashTable A T, alloc st ∉ st.nodes) (h : Holds H S st)
    (hc : Holds H C c) : ∃ st', copy H alloc st (fun _ => c) = some st' ∧ Holds H C st' := by
  obtain ⟨xs, hitems, hxs, hmem⟩ := hc.agrees hH
  obtain ⟨m, ⟨bs, hrep, -⟩, -⟩ := h
  obtain ⟨mc, ⟨cs, hcrep, -⟩, -⟩ := hc
  obtain ⟨st₁, hclear, hsize, h₁⟩ := clear_spec hrep
  obtain rfl := some.inj (hitems.symm.trans (items_spec hcrep))
  by_cases hsame : st₁.size = c.size
  -- bucket by bucket, or one item after the other
  · obtain ⟨st', bs', hcopy, -, h', hdata⟩ := copyBuckets_spec halloc h₁ hcrep hsame
    refine ⟨st', ?_, holds_of_items hH h' (items_spec h') (hdata ▸ Perm.refl _) hmem⟩
    simp [copy, hclear, hsame, ← hcopy]
  · obtain ⟨st', bs', ys, hall, -, h', hys, hiff⟩ :=
      putAll_spec hH halloc ((allNodes cs c.size).map Prod.snd) ⟨_, h₁, fun _ _ => by simp⟩
    refine ⟨st', ?_, holds_of_items hH h' hys (hiff.mpr hxs) hmem⟩
    simp [copy, hclear, hsame, hitems, hall]

/-! ## Runs -/

/-- Each table holds the elements of its set. -/
def Inv (H : Manager T) (u : (ι → Set T) × (ι → HashTable A T)) : Prop := ∀ s, Holds H (u.1 s) (u.2 s)

variable {u : (ι → Set T) × (ι → HashTable A T)}

/-- One set is changed. -/
theorem Inv.update (h : Inv H u) (s : ι) (hst : Holds H S st) :
    Inv H (Function.update u.1 s S, Function.update u.2 s st) := by
  intro s'
  by_cases hs : s' = s
  · subst hs
    simpa using hst
  · simpa [hs] using h s'

/-- The buckets of one set are reordered. -/
theorem Inv.relink (h : Inv H u) (s : ι) (hst : Holds H (u.1 s) st) : Inv H (u.1, Function.update u.2 s st) := by
  have hupdate := h.update s hst
  rwa [Function.update_eq_self] at hupdate

theorem step_inv (hH : H.Lawful) (halloc : ∀ st : HashTable A T, alloc st ∉ st.nodes) (h : Inv H u)
    {call : Call T ι} (hcall : call.Distinct) : ∃ u', both H alloc u call = some u' ∧ Inv H u' := by
  cases call with
  | insert s val =>
    obtain ⟨st', hinsert, h'⟩ := insert_spec hH halloc (h s) val
    exact ⟨_, by simp only [both, step, hinsert, map_some]; rfl, h.update s h'⟩
  | remove s val =>
    obtain ⟨st', hremove, h'⟩ := remove_spec hH (h s) val
    exact ⟨_, by simp only [both, step, hremove, map_some]; rfl, h.update s h'⟩
  | contains s val =>
    obtain ⟨b, st', hhas, -, h'⟩ := hasKey_spec hH (h s) val
    exact ⟨_, by simp only [both, step, hhas, map_some]; rfl, h.relink s h'⟩
  | clear s =>
    obtain ⟨st', hclear, h'⟩ := clear_holds (h s)
    exact ⟨_, by simp only [both, step, hclear, map_some]; rfl, h.update s h'⟩
  | copy s c =>
    obtain ⟨st', hcopy, h'⟩ := copy_spec hH halloc (h s) (h c)
    refine ⟨_, ?_, h.update s h'⟩
    simp only [both, step, if_neg (Ne.symm hcall), hcopy, map_some]
    rfl
  | join s c =>
    obtain ⟨st', hjoin, h'⟩ := join_spec hH halloc (h s) (h c)
    exact ⟨_, by simp only [both, step, hjoin, map_some]; rfl, h.update s h'⟩
  | diff s c =>
    obtain ⟨st', hdiff, h'⟩ := diff_spec hH (h s) (h c)
    exact ⟨_, by simp only [both, step, hdiff, map_some]; rfl, h.update s h'⟩
  | meet s c =>
    obtain ⟨st', c', hmeet, h', hc'⟩ := meet_spec hH (h s) (h c)
    exact ⟨_, by simp only [both, step, hmeet, map_some]; rfl, (h.relink c hc').update s h'⟩
  | subsetOf s c =>
    obtain ⟨b, c', hsubset, -, hc'⟩ := subsetOf_spec hH (h s) (h c)
    exact ⟨_, by simp only [both, step, hsubset, map_some]; rfl, h.relink c hc'⟩

omit [DecidableEq ι] in
theorem inv_start (H : Manager T) (sizes : ι → Nat) (hsizes : ∀ d, 0 < sizes d) :
    Inv H (fun _ => ∅, newTables A T sizes hsizes) :=
  fun s => ⟨_, refines_new H (sizes s) (hsizes s), fun x => by simp⟩

/-- In every run, each set has its elements once and no others, `join`, `diff` and `meet` of two distinct sets giving
their union, their difference and their intersection, and `subsetOf` tells the inclusion. -/
theorem hashSet_run (hH : H.Lawful) (halloc : ∀ st : HashTable A T, alloc st ∉ st.nodes) (sizes : ι → Nat)
    (hsizes : ∀ d, 0 < sizes d) (calls : List (Call T ι)) (hcalls : ∀ call ∈ calls, call.Distinct) :
    ∃ u, Run.exec (both H alloc) (fun _ => ∅, newTables A T sizes hsizes) calls = some u ∧
      (∀ s, Agrees H (u.1 s) (u.2 s)) ∧
      ∀ s c, s ≠ c → ∃ b t, subsetOf H (u.2 s) (u.2 c) = some (b, t) ∧ (b ↔ u.1 s ⊆ u.1 c) ∧ Agrees H (u.1 c) t := by
  obtain ⟨u, hexec, h⟩ := Run.exists_exec_of_meets (Inv H)
    (fun u call hu hcall => step_inv hH halloc hu hcall) calls _ (inv_start H sizes hsizes)
    (Run.meets_of_mem (fun call hmem _ => hcalls call hmem) _)
  refine ⟨u, hexec, fun s => (h s).agrees hH, ?_⟩
  intro s c _
  obtain ⟨b, t, hsubset, hb, ht⟩ := subsetOf_spec hH (h s) (h c)
  exact ⟨b, t, hsubset, hb, ht.agrees hH⟩

/-- Two sets, of two and three buckets. -/
def calls : List (Call Nat Bool) :=
  [.insert true 1, .insert true 3, .insert false 3, .insert false 4, .join true false, .meet false true,
    .remove false 4, .diff true false, .subsetOf false true]

theorem hashSet_run_calls :
    ∃ u, Run.exec (both natManager unusedAddress)
        (fun _ => ∅, newTables Nat Nat (fun b : Bool => if b then 2 else 3) (by decide)) calls = some u ∧
      (∀ s, Agrees natManager (u.1 s) (u.2 s)) ∧
      ∀ s c, s ≠ c → ∃ b t, subsetOf natManager (u.2 s) (u.2 c) = some (b, t) ∧ (b ↔ u.1 s ⊆ u.1 c) ∧
        Agrees natManager (u.1 c) t :=
  hashSet_run lawful_natManager unusedAddress_not_mem _ _ calls (by simp [calls, Call.Distinct])

end Elm.Data.HashSet
