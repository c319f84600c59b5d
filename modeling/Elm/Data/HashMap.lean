import Elm.Data.HashTableCopy

/-!
# `HashMap`

The maps of `include/elm/data/HashMap.h`, over a hash table of pairs.  As a collection a map is its
values: `containsAll` looks for the items of a collection among them, and `equals` is made of two
such calls, so that the keys are not compared.  The loop of `containsAll` tests the collection in
place of its iterator: on a collection that is not empty it only stops at a value that is missing.
-/

namespace Elm.Data.HashMap

open HashTable Option

variable {A K V I : Type*} [DecidableEq A]

/-! ## The program -/

/-- `AssocHashKey`: a pair has the hash of its key, and is equal to the pairs of this key. -/
def assocHashKey (H : Manager K) : Manager (K × V) :=
  ⟨fun k => H.computeHash k.1, fun k₁ k₂ => H.isEqual k₁.1 k₂.1⟩

/-- The collection concept, as `containsAll` uses it.  An iterator past the last item has no item. -/
structure Collection (I V : Type*) where
  begin : I
  item : I → Option V
  next : I → Option I
  /-- `operator bool`. -/
  toBool : Bool

/-- A map as a collection: `HashMap::Iter` and its `operator bool`. -/
def values (t : HashTable A (K × V)) : Collection (Iter A) V where
  begin := t.begin
  item it := (t.item it).map Prod.snd
  next := t.next
  toBool := !t.isEmpty

section Model

variable (eqv : V → V → Bool)

/-- `HashMap::contains`; `eqv` is the operator `==` of the values. -/
def contains (t : HashTable A (K × V)) (item : V) : Option Bool :=
  t.items.map fun ps => ps.any fun p => eqv p.2 item

/-- One turn of `for(typename C::Iter i(c); c; i++)`. -/
def containsAllTurn (t : HashTable A (K × V)) (c : Collection I V) (i : I) : Option (I ⊕ Bool) :=
  if c.toBool then
    (c.item i).bind fun x => (contains eqv t x).bind fun found =>
      if found then (c.next i).map .inl else some (.inr false)
  else
    some (.inr true)

/-- `HashMap::containsAll`, with at most `fuel` turns. -/
def containsAll (t : HashTable A (K × V)) (c : Collection I V) (fuel : Nat) : Option Bool :=
  Loop.attempt (containsAllTurn eqv t c) fuel c.begin

/-- `HashMap::equals`. -/
def equals (st t : HashTable A (K × V)) (fuel : Nat) : Option Bool :=
  (containsAll eqv st (values t) fuel).bind fun b =>
    if b then containsAll eqv t (values st) fuel else some false

end Model

theorem lawful_assocHashKey {H : Manager K} (hH : H.Lawful) : (assocHashKey H : Manager (K × V)).Lawful where
  equivalence := ⟨fun p => hH.equivalence.refl p.1, hH.equivalence.symm, hH.equivalence.trans⟩
  hash_eq p q hpq := hH.hash_eq p.1 q.1 hpq

/-! ## The specification -/

/-- From the iterator `i` on, the collection gives these items. -/
def Gives (c : Collection I V) (i : I) : List V → Prop
  | [] => c.item i = none
  | x :: xs => c.item i = some x ∧ ∃ i', c.next i = some i' ∧ Gives c i' xs

/-- The items of the collection, which is true if it has some. -/
structure Has (c : Collection I V) (xs : List V) : Prop where
  gives : Gives c c.begin xs
  toBool : c.toBool = !xs.isEmpty

/-- The item is a value of a map of these pairs. -/
def IsValue (eqv : V → V → Bool) (ps : List (K × V)) (item : V) : Prop := ∃ p ∈ ps, eqv p.2 item

/-- The same keys are associated with equal values. -/
def SamePairs (H : Manager K) (eqv : V → V → Bool) (ps qs : List (K × V)) : Prop :=
  (∀ q ∈ qs, ∃ p ∈ ps, H.isEqual p.1 q.1 ∧ eqv p.2 q.2) ∧ ∀ p ∈ ps, ∃ q ∈ qs, H.isEqual q.1 p.1 ∧ eqv q.2 p.2

/-- A call that ends, given enough turns, and answers whether `good` holds. -/
def Answers (call : Nat → Option Bool) (good : Prop) : Prop :=
  ∃ b, (∃ enough, ∀ fuel ≥ enough, call fuel = some b) ∧ (b ↔ good)

theorem Answers.of_forall {call : Nat → Option Bool} {good : Prop} (b : Bool) (enough : Nat)
    (h : ∀ fuel ≥ enough, call fuel = some b) (hb : b ↔ good) : Answers call good :=
  ⟨b, ⟨enough, h⟩, hb⟩

theorem not_answers {call : Nat → Option Bool} {good : Prop} (enough : Nat)
    (h : ∀ fuel ≥ enough, call fuel = none) : ¬ Answers call good := by
  rintro ⟨b, ⟨enough', h'⟩, -⟩
  have hnone := h (max enough enough') (le_max_left _ _)
  rw [h' _ (le_max_right _ _)] at hnone
  cases hnone

/-! ## A map as a collection -/

section Values

variable {H : Manager (K × V)} {t : HashTable A (K × V)} {bs : Nat → List (A × (K × V))}

omit [DecidableEq A] in
/-- `step` gives an iterator without a node if it finds none. -/
theorem node_stepFrom {T : Type*} (t : HashTable A T) (k i : Nat) :
    (t.stepFrom k ⟨none, i⟩).node = none ∨ (t.stepFrom k ⟨none, i⟩).i < i + k := by
  induction k generalizing i with
  | zero => exact Or.inl rfl
  | succ k ih =>
    cases hentry : t.entry i with
    | some a =>
      right
      simp only [stepFrom, hentry]
      omega
    | none =>
      have hnext := ih (i + 1)
      simp only [stepFrom, hentry]
      rwa [Nat.add_assoc, Nat.add_comm 1 k] at hnext

theorem item_step_of_nil {i : Nat} (hi : i ≤ t.size) (hat : IterAt t bs (t.step ⟨none, i⟩) []) :
    t.item (t.step ⟨none, i⟩) = none := by
  have hended : t.size ≤ (t.step ⟨none, i⟩).i := by simpa only [ended, decide_eq_true_eq] using ended_of_nil hat
  rcases node_stepFrom t (t.size - i) i with hnode | hlt
  · have hnone : (t.step ⟨none, i⟩).node = none := hnode
    simp only [HashTable.item, hnone, bind_none, map_none]
  · have hlast : (t.step ⟨none, i⟩).i < i + (t.size - i) := hlt
    omega

/-- The iterator that leaves the last node has no item. -/
theorem item_next_of_nil {it it' : Iter A} (hlt : it.i < t.size) (hnext : t.next it = some it')
    (hat : IterAt t bs it' []) : t.item it' = none := by
  obtain ⟨n, -, rfl⟩ := map_eq_some_iff.mp hnext
  have hended := ended_of_nil hat
  cases hlink : n.next with
  | none =>
    -- `step` has found no other bucket
    rw [hlink] at hat
    exact item_step_of_nil hlt hat
  | some b =>
    rw [hlink] at hended
    simp only [ended, decide_eq_true_eq] at hended
    omega

/-- The iterator gives the values of its nodes. -/
theorem gives_values (h : Rep H t bs) {rest : List (A × (K × V))} {it : Iter A} (hat : IterAt t bs it rest)
    (hlast : rest = [] → t.item it = none) : Gives (values t) it (rest.map fun x => x.2.2) := by
  induction rest generalizing it with
  | nil =>
    have hnone := hlast rfl
    simp only [List.map_nil, Gives, values, hnone, map_none]
  | cons x rest ih =>
    obtain ⟨hended, hitem, it', hnext, hat'⟩ := next_spec h hat
    have hlt : it.i < t.size := by simpa only [ended, decide_eq_false_iff_not, not_le] using hended
    refine ⟨?_, it', hnext, ih hat' ?_⟩
    · simp only [values, hitem, map_some]
    · rintro rfl
      exact item_next_of_nil hlt hnext hat'

omit [DecidableEq A] in
theorem entry_eq_getElem {i : Nat} (hi : i < t.tab.length) : t.entry i = t.tab[i] := by
  rw [entry, List.getD_eq_getElem?_getD, List.getElem?_eq_getElem hi, getD_some]

theorem isEmpty_eq (h : Rep H t bs) : t.isEmpty = (allNodes bs t.size).isEmpty := by
  rw [Bool.eq_iff_iff, List.isEmpty_iff, List.eq_nil_iff_forall_not_mem]
  constructor
  · intro hempty x hx
    obtain ⟨i, hi, hx⟩ := mem_allNodes.mp hx
    have hentry : t.entry i = none := by
      simp only [isEmpty, List.all_eq_true, isNone_iff_eq_none] at hempty
      rw [entry_eq_getElem hi]
      exact hempty _ (List.getElem_mem hi)
    have hlist := h.chain i hi
    rw [hentry] at hlist
    have hnil : bs i = [] := Chain.IsList.unique hlist rfl
    rw [hnil] at hx
    cases hx
  · intro hnone
    simp only [isEmpty, List.all_eq_true, isNone_iff_eq_none]
    intro p hp
    obtain ⟨i, hi, rfl⟩ := List.getElem_of_mem hp
    have hnil : bs i = [] := List.eq_nil_iff_forall_not_mem.mpr fun x hx => hnone x (mem_allNodes.mpr ⟨i, hi, hx⟩)
    have hlist := h.chain i hi
    rw [hnil, entry_eq_getElem hi] at hlist
    exact hlist

/-- The items of a map are its values. -/
theorem has_values (h : Rep H t bs) {ps : List (K × V)} (hps : t.items = some ps) :
    Has (values t) (ps.map Prod.snd) := by
  obtain rfl := some.inj ((items_spec h).symm.trans hps)
  constructor
  · rw [List.map_map]
    refine gives_values h (begin_spec h) ?_
    intro hnil
    exact item_step_of_nil (Nat.zero_le _) (hnil ▸ begin_spec h)
  · rw [values, isEmpty_eq h]
    simp only [List.isEmpty_map]

end Values

/-! ## `containsAll` and `equals` -/

variable {eqv : V → V → Bool} {st t : HashTable A (K × V)} {c : Collection I V} {ps qs : List (K × V)}
  {xs : List V}

theorem contains_spec (eqv : V → V → Bool) (hps : t.items = some ps) (item : V) :
    ∃ b, contains eqv t item = some b ∧ (b ↔ IsValue eqv ps item) := by
  refine ⟨ps.any fun p => eqv p.2 item, by rw [contains, hps, map_some], ?_⟩
  rw [List.any_eq_true]
  rfl

/-- The loop on a collection that is not empty: it stops at the first item that is no value, and
goes past the last item if there is none. -/
theorem containsAllLoop_spec (hps : t.items = some ps) (hc : c.toBool) {i : I} (h : Gives c i xs) {fuel : Nat}
    (hfuel : xs.length < fuel) :
    ((∀ x ∈ xs, IsValue eqv ps x) → Loop.attempt (containsAllTurn eqv t c) fuel i = none) ∧
    ((∃ x ∈ xs, ¬ IsValue eqv ps x) → Loop.attempt (containsAllTurn eqv t c) fuel i = some false) := by
  induction fuel generalizing i xs with
  | zero => exact absurd hfuel (Nat.not_lt_zero _)
  | succ fuel ih =>
    cases xs with
    | nil =>
      constructor
      · -- the condition is still true past the last item
        intro _
        apply Loop.attempt_succ_none
        have hnone : c.item i = none := h
        simp only [containsAllTurn, hc, if_true, hnone, bind_none]
      · rintro ⟨x, hx, -⟩
        cases hx
    | cons x xs =>
      obtain ⟨hitem, i', hnext, h'⟩ := h
      obtain ⟨b, hcontains, hb⟩ := contains_spec eqv hps x
      have hrest := ih h' (Nat.lt_of_succ_lt_succ hfuel)
      cases b with
      | false =>
        -- the loop is left at this item
        have hnot : ¬ IsValue eqv ps x := fun hx => absurd (hb.mpr hx) Bool.false_ne_true
        have hturn : containsAllTurn eqv t c i = some (.inr false) := by
          simp [containsAllTurn, hc, hitem, hcontains]
        constructor
        · intro hall
          exact absurd (hall x List.mem_cons_self) hnot
        · intro _
          exact Loop.attempt_succ_inr hturn fuel
      | true =>
        have hx : IsValue eqv ps x := hb.mp rfl
        have hturn : containsAllTurn eqv t c i = some (.inl i') := by
          simp [containsAllTurn, hc, hitem, hcontains, hnext]
        rw [Loop.attempt_succ_inl hturn fuel]
        constructor
        · intro hall
          exact hrest.1 fun y hy => hall y (List.mem_cons_of_mem x hy)
        · rintro ⟨y, hy, hnot⟩
          have hy' : y ∈ xs := List.mem_of_ne_of_mem (fun heq => hnot (heq ▸ hx)) hy
          exact hrest.2 ⟨y, hy', hnot⟩

/-- `containsAll` on a collection without items. -/
theorem containsAll_nil (h : Has c []) {fuel : Nat} (hfuel : 0 < fuel) : containsAll eqv t c fuel = some true := by
  obtain ⟨fuel, rfl⟩ := Nat.exists_eq_succ_of_ne_zero hfuel.ne'
  have hc : c.toBool = false := h.toBool
  apply Loop.attempt_succ_inr
  simp only [containsAllTurn, hc, Bool.false_eq_true, if_false]

theorem Has.toBool_of_ne_nil (h : Has c xs) (hne : xs ≠ []) : c.toBool := by
  rw [h.toBool]
  simpa using hne

/-- `containsAll` on a collection with an item that is no value. -/
theorem containsAll_missing (hps : t.items = some ps) (h : Has c xs) (hmissing : ∃ x ∈ xs, ¬ IsValue eqv ps x)
    {fuel : Nat} (hfuel : xs.length < fuel) : containsAll eqv t c fuel = some false := by
  have hne : xs ≠ [] := by
    rintro rfl
    obtain ⟨x, hx, -⟩ := hmissing
    cases hx
  exact (containsAllLoop_spec hps (h.toBool_of_ne_nil hne) h.gives hfuel).2 hmissing

/-- `containsAll` on other collections reads an item past the last one. -/
theorem containsAll_included (hps : t.items = some ps) (h : Has c xs) (hne : xs ≠ [])
    (hall : ∀ x ∈ xs, IsValue eqv ps x) {fuel : Nat} (hfuel : xs.length < fuel) :
    containsAll eqv t c fuel = none :=
  (containsAllLoop_spec hps (h.toBool_of_ne_nil hne) h.gives hfuel).1 hall

theorem containsAll_iff (hps : t.items = some ps) (h : Has c xs) :
    Answers (containsAll eqv t c) (∀ x ∈ xs, IsValue eqv ps x) ↔ xs = [] ∨ ∃ x ∈ xs, ¬ IsValue eqv ps x := by
  constructor
  · intro hanswers
    by_contra hbad
    push Not at hbad
    obtain ⟨hne, hall⟩ := hbad
    exact not_answers (xs.length + 1) (fun fuel hfuel => containsAll_included hps h hne hall hfuel) hanswers
  · rintro (rfl | hmissing)
    · exact Answers.of_forall true 1 (fun fuel hfuel => containsAll_nil h hfuel) (by simp)
    · refine Answers.of_forall false (xs.length + 1) ?_ ?_
      · exact fun fuel hfuel => containsAll_missing hps h hmissing hfuel
      · simpa using hmissing

/-- `equals` ends if the argument has no pair, or a value that this map has not. -/
theorem equals_iff {H : Manager K} {M M' : Manager (K × V)} {bs ts : Nat → List (A × (K × V))} (hst : Rep M st bs)
    (ht : Rep M' t ts) (hps : st.items = some ps) (hqs : t.items = some qs) :
    Answers (equals eqv st t) (SamePairs H eqv ps qs) ↔ qs = [] ∨ ∃ q ∈ qs, ¬ IsValue eqv ps q.2 := by
  have hvalues := has_values ht hqs
  constructor
  · intro hanswers
    by_contra hbad
    push Not at hbad
    obtain ⟨hne, hall⟩ := hbad
    refine not_answers (qs.length + 1) ?_ hanswers
    intro fuel hfuel
    have hnone : containsAll eqv st (values t) fuel = none := by
      apply containsAll_included hps hvalues (by simpa using hne) ?_ (by simpa using hfuel)
      intro x hx
      obtain ⟨q, hq, rfl⟩ := List.mem_map.mp hx
      exact hall q hq
    rw [equals, hnone, bind_none]
  · rintro (rfl | ⟨q, hq, hnot⟩)
    -- the argument is empty: the second call decides
    · have hfirst : ∀ fuel > 0, containsAll eqv st (values t) fuel = some true := fun fuel hfuel =>
        containsAll_nil hvalues hfuel
      by_cases hempty : ps = []
      · subst hempty
        refine Answers.of_forall true 1 ?_ (by simp [SamePairs])
        intro fuel hfuel
        rw [equals, hfirst fuel hfuel, bind_some, if_pos rfl]
        exact containsAll_nil (has_values hst hps) hfuel
      · -- each value of this map is missing in the argument
        obtain ⟨p, hp⟩ := List.exists_mem_of_ne_nil ps hempty
        refine Answers.of_forall false (ps.length + 1) ?_ ?_
        · intro fuel hfuel
          rw [equals, hfirst fuel (Nat.zero_lt_of_lt hfuel), bind_some, if_pos rfl]
          refine containsAll_missing hqs (has_values hst hps) ⟨p.2, List.mem_map_of_mem hp, ?_⟩ ?_
          · rintro ⟨q, hq, -⟩
            cases hq
          · simpa using hfuel
        · constructor
          · exact fun hfalse => absurd hfalse Bool.false_ne_true
          · rintro ⟨-, hback⟩
            obtain ⟨q, hq, -⟩ := hback p hp
            cases hq
    · refine Answers.of_forall false (qs.length + 1) ?_ ?_
      · intro fuel hfuel
        have hmissing : ∃ x ∈ qs.map Prod.snd, ¬ IsValue eqv ps x := ⟨q.2, List.mem_map_of_mem hq, hnot⟩
        have hfalse : containsAll eqv st (values t) fuel = some false :=
          containsAll_missing hps hvalues hmissing (by simpa using hfuel)
        rw [equals, hfalse, bind_some]
        rfl
      · constructor
        · exact fun hfalse => absurd hfalse Bool.false_ne_true
        · rintro ⟨hforth, -⟩
          obtain ⟨p, hp, -, hequal⟩ := hforth q hq
          exact absurd ⟨p, hp, hequal⟩ hnot

variable {ι : Type*} [DecidableEq ι]

/-- After any operations on any maps, `containsAll` ends with the right answer exactly if the collection
is empty or has an item that is no value of the map, and `equals` exactly if its argument is empty or has
a value that is no value of this map. -/
theorem hashMap_equals_iff {H : Manager K} (hH : H.Lawful) {alloc : HashTable A (K × V) → A}
    (halloc : ∀ st : HashTable A (K × V), alloc st ∉ st.nodes) (eqv : V → V → Bool) (sizes : ι → Nat)
    (hsizes : ∀ d, 0 < sizes d) (ops : List (ι × Act A (K × V) ι))
    (hops : Run.Meets (Valid (assocHashKey H)) (performAt (assocHashKey H) alloc)
      (newTables A (K × V) sizes hsizes) ops) :
    ∃ (maps : ι → HashTable A (K × V)) (pairs : ι → List (K × V)),
      Run.exec (performAt (assocHashKey H) alloc) (newTables A (K × V) sizes hsizes) ops = some maps ∧
      (∀ d, (maps d).items = some (pairs d)) ∧ ∀ d,
        (∀ (I : Type*) (c : Collection I V) (xs : List V), Has c xs →
          (Answers (containsAll eqv (maps d) c) (∀ x ∈ xs, IsValue eqv (pairs d) x) ↔
            xs = [] ∨ ∃ x ∈ xs, ¬ IsValue eqv (pairs d) x)) ∧
        ∀ s, Answers (equals eqv (maps d) (maps s)) (SamePairs H eqv (pairs d) (pairs s)) ↔
          pairs s = [] ∨ ∃ q ∈ pairs s, ¬ IsValue eqv (pairs d) q.2 := by
  obtain ⟨maps, hexec, hall⟩ := exec_loose (lawful_assocHashKey hH) halloc hops
  choose bs hreps using hall
  have hitems : ∀ d, (maps d).items = some ((allNodes (bs d) (maps d).size).map Prod.snd) := fun d =>
    items_spec (hreps d)
  refine ⟨maps, fun d => (allNodes (bs d) (maps d).size).map Prod.snd, hexec, hitems, ?_⟩
  intro d
  constructor
  · intro I c xs hc
    exact containsAll_iff (hitems d) hc
  · intro s
    exact equals_iff (hreps d) (hreps s) (hitems d) (hitems s)

/-- Two maps that give the key 1 different values, and a collection of one value. -/
theorem hashMap_equals_iff_twoMaps :
    ∃ (maps : Bool → HashTable Nat (Nat × Nat)) (pairs : Bool → List (Nat × Nat)),
      Run.exec (performAt (assocHashKey natManager) unusedAddress)
        (newTables Nat (Nat × Nat) (fun _ : Bool => 2) (by decide))
        [(true, .call (.put (1, 2) 0)), (false, .call (.put (1, 3) 0))] = some maps ∧
      (∀ d, (maps d).items = some (pairs d)) ∧ ∀ d,
        (∀ (I : Type) (c : Collection I Nat) (xs : List Nat), Has c xs →
          (Answers (containsAll (· == ·) (maps d) c) (∀ x ∈ xs, IsValue (· == ·) (pairs d) x) ↔
            xs = [] ∨ ∃ x ∈ xs, ¬ IsValue (· == ·) (pairs d) x)) ∧
        ∀ s, Answers (equals (· == ·) (maps d) (maps s)) (SamePairs natManager (· == ·) (pairs d) (pairs s)) ↔
          pairs s = [] ∨ ∃ q ∈ pairs s, ¬ IsValue (· == ·) (pairs d) q.2 :=
  hashMap_equals_iff lawful_natManager unusedAddress_not_mem _ _ _ _
    ⟨by simp [Valid, Allowed, newTables, new], fun _ hstep => by
      obtain rfl := some.inj hstep
      exact ⟨by simp [Valid, Allowed, newTables, new], fun _ _ => trivial⟩⟩

/-- A map that is compared with a map of the same pair. -/
theorem not_hashMap_equals : ¬ ∀ (sizes : Bool → Nat) (hsizes : ∀ d, 0 < sizes d)
    (ops : List (Bool × Act Nat (Nat × Nat) Bool)),
    Run.Meets (Valid (assocHashKey natManager)) (performAt (assocHashKey natManager) unusedAddress)
        (newTables Nat (Nat × Nat) sizes hsizes) ops →
      ∃ (maps : Bool → HashTable Nat (Nat × Nat)) (pairs : Bool → List (Nat × Nat)),
        Run.exec (performAt (assocHashKey natManager) unusedAddress) (newTables Nat (Nat × Nat) sizes hsizes) ops =
          some maps ∧
        (∀ d, (maps d).items = some (pairs d)) ∧
        ∀ d s, Answers (equals (· == ·) (maps d) (maps s)) (SamePairs natManager (· == ·) (pairs d) (pairs s)) := by
  intro hall
  have hops : Run.Meets (Valid (assocHashKey natManager)) (performAt (assocHashKey natManager) unusedAddress)
      (newTables Nat (Nat × Nat) (fun _ : Bool => 2) (by decide)) [(true, .add (1, 2)), (false, .add (1, 2))] :=
    ⟨trivial, fun _ _ => ⟨trivial, fun _ _ => trivial⟩⟩
  obtain ⟨maps, hexec, hreps⟩ := exec_loose (lawful_assocHashKey lawful_natManager) unusedAddress_not_mem hops
  obtain ⟨maps', pairs, hexec', hitems, hanswers⟩ := hall _ _ _ hops
  obtain rfl := some.inj (hexec.symm.trans hexec')
  have hanswer := hanswers true false
  obtain ⟨bs, hrep⟩ := hreps true
  obtain ⟨ts, hrep'⟩ := hreps false
  rw [equals_iff hrep hrep' (hitems true) (hitems false)] at hanswer
  obtain rfl := some.inj hexec
  have htrue : pairs true = [(1, 2)] := some.inj ((hitems true).symm.trans (by decide))
  have hfalse : pairs false = [(1, 2)] := some.inj ((hitems false).symm.trans (by decide))
  rw [htrue, hfalse] at hanswer
  simp [IsValue] at hanswer

end Elm.Data.HashMap
