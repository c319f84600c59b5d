import Elm.Serial.References

/-!
# `XOMUnserializer::flush` does its work

Reading an element follows the plan that `parts` gives, and keeps the invariant of the references.  Each turn of the
loop takes a reference away, and a reference is pushed once: so the loop ends, whatever the document is.
-/

namespace Elm.Serial

open Elm.Xom Function List Option

variable {T : Type} {w : World T} {s s' : State T} {id : Id} {l a : Addr} {r : Ref T} {t : T} {e : Node}
  {hole : Id → Prop} {known : Finset Id}

/-! ## The reading of an element -/

open Planned

/-- The identifiers that an element refers to are known. -/
def Covers (known : Finset Id) (e : Node) : Prop :=
  ∀ d ∈ e.descendants, ∀ id, d.getAttributeValue refTag = some id → id ∈ known

theorem Covers.child {name : List Char} {attributes : List (List Char × List Char)} {children : List Node} {c : Node}
    (h : Covers known (.element name attributes children)) (hc : c ∈ children) : Covers known c :=
  fun d hd => h d (mem_cons_of_mem _ (Node.mem_descendantsOf.mpr ⟨c, hc, hd⟩))

/-- `beginObject` fails if the object is built a second time. -/
theorem lookupID_follows (hs : Inv hole s) (e : Node) (t : T) (a : Addr) :
    Follows (frame hole known) (some (e.getAttributeValue idTag).toList) s ((s.note e a).lookupID e t a) := by
  have hnote := hs.note e a
  have hids := ids_note s e a
  cases hid : e.getAttributeValue idTag with
  | none =>
    rw [hid] at hids
    simp only [State.lookupID, hid]
    exact .ok hnote (Keeps.same rfl rfl rfl) hids
  | some id =>
    rw [hid] at hids
    have hbuilt : (id, a) ∈ (s.note e a).built := by simp [State.note, hid]
    have hrefs : (s.note e a).refs = s.refs := rfl
    simp only [State.lookupID, hid, hrefs]
    cases hr : s.refs id with
    | none =>
      have hkeeps : Keeps known s (s.setRef id (Ref.record ⟨t, none, []⟩ a s.mem)) := by
        refine Keeps.setRef (fun r' a' hr' _ => ?_) _
        rw [hr] at hr'
        cases hr'
      exact .ok (hnote.record (r := ⟨t, none, []⟩) (Or.inr ⟨hr, rfl⟩) hbuilt fun _ _ h => h)
        ⟨hkeeps.refs, hkeeps.asked, hkeeps.load⟩ hids
    | some r =>
      cases hptr : r.ptr with
      | some a' =>
        simp only [Ref.isRecorded, hptr, isSome_some, if_true]
        refine .again _ (List.mem_map.mpr ⟨_, (hs.recorded id r a' hr hptr).1, rfl⟩) fun ks hks => ?_
        rw [← some.inj hks]
        exact mem_singleton_self id
      | none =>
        simp only [Ref.isRecorded, hptr, isSome_none, Bool.false_eq_true, if_false]
        have hkeeps : Keeps known s (s.setRef id (r.record a s.mem)) := by
          refine Keeps.setRef (fun r' a' hr' ha' => ?_) _
          obtain rfl := some.inj (hr.symm.trans hr')
          rw [hptr] at ha'
          cases ha'
        exact .ok (hnote.record (Or.inl ⟨hr, hptr⟩) hbuilt fun _ _ h => h)
          ⟨hkeeps.refs, hkeeps.asked, hkeeps.load⟩ hids

section Fields

variable {read : Reader T} {plan : T → Option (List Id)}

theorem embed_follows (hread : ∀ u a s, Inv hole s → Follows (frame hole known) (plan u) s (read u a s))
    (hs : Inv hole s) (hl : ∀ i, (i, l) ∉ s.asked) (w : World T) (e : Node) (t : T) :
    Follows (frame hole known) (embedParts w plan e t) s ((embed w read e t l s).map Prod.fst) := by
  unfold embed embedParts
  cases hclass : findClass w e t with
  | error x => exact .fail x
  | ok u =>
    by_cases hserial : (w.info u).isSerial
    · simp only [hserial, if_true]
      have hstore := hs.alloc.store hl (some s.next)
      have hsame : Keeps known s (s.alloc.store l (some s.next)) := Keeps.same rfl rfl rfl
      have hres : Follows (frame hole known) (plan u) s (read u s.next (s.alloc.store l (some s.next))) :=
        .after hsame rfl (hread u s.next _ hstore)
      cases hr : read u s.next (s.alloc.store l (some s.next)) with
      | error x => rwa [hr] at hres
      | ok s' => rwa [hr] at hres
    · simp only [hserial]
      exact .fail _

theorem field_follows (hread : ∀ u a s, Inv hole s → Follows (frame hole known) (plan u) s (read u a s))
    (hs : Inv hole s) (w : World T) (hcov : Covers known e) (f : Field T) :
    Follows (frame hole known) (f.parts w plan e) s (f.unserialize w read e s) := by
  have halloc : Keeps known s s.alloc := Keeps.same rfl rfl rfl
  unfold Field.parts Field.unserialize
  by_cases hp : f.pointer
  · rw [if_pos hp, if_pos hp]
    unfold onPointer
    cases href : e.getAttributeValue refTag with
    | some id =>
      by_cases hnull : id = nullTag
      · simp only [hnull, if_true]
        exact .ok (hs.alloc.store hs.next_fresh none) (Keeps.same rfl rfl rfl) (append_nil _).symm
      · simp only [hnull, if_false]
        have hid : id ∈ known := hcov e (Node.mem_descendants_self e) id href
        refine .ok (hs.alloc.refer hs.next_fresh (Nat.lt_succ_self _) f.type id)
          (halloc.trans (Keeps.refer hid f.type s.next s.alloc)) ?_
        exact (congrArg (List.map Prod.fst) (refer_built s.alloc f.type id s.next)).trans (append_nil _).symm
    | none => exact .after halloc rfl (embed_follows hread hs.alloc hs.next_fresh w e f.type)
  · rw [if_neg hp, if_neg hp]
    cases hcontent : (w.info f.type).content with
    | value reads =>
      by_cases hreads : reads e.getValue
      · simp only [hreads, if_true]
        exact .ok hs (Keeps.refl known s) (append_nil _).symm
      · simp only [hreads]
        exact .fail _
    | object fields => exact .after halloc rfl (hread f.type s.next s.alloc hs.alloc)

end Fields

mutual

/-- Reading an element follows its plan. -/
theorem unserialize_follows (w : World T) : ∀ (e : Node), Covers known e → ∀ (t : T) (a : Addr) (s : State T),
    Inv hole s → Follows (frame hole known) (parts w e t) s (unserialize w e t a s)
  | .element name attributes children, hcov, t, a, s, hs => by
    have hbegin : Follows (frame hole known) (some (attributes.lookup idTag).toList) s _ :=
      lookupID_follows hs (.element name attributes children) t a
    rw [parts, unserialize]
    cases hcontent : (w.info t).content with
    | value reads =>
      by_cases hreads : reads (Node.getValues children)
      · simp only [hreads, if_true]
        exact .ok (hs.note _ a) (Keeps.same rfl rfl rfl) (ids_note s _ a)
      · simp only [hreads]
        exact .fail _
    | object fields =>
      refine .bind hbegin fun s' hs' => .foldlM (fun f _ s hs => ?_) hs'
      exact readField_follows w children (fun c hc => hcov.child hc) f s hs
  | .text _, _, _, _, s, hs => .ok hs (Keeps.refl known s) (append_nil _).symm
  | .other, _, _, _, s, hs => .ok hs (Keeps.refl known s) (append_nil _).symm

theorem readField_follows (w : World T) : ∀ (children : List Node), (∀ c ∈ children, Covers known c) →
    ∀ (f : Field T) (s : State T), Inv hole s →
      Follows (frame hole known) (fieldParts w children f) s (readField w children f s)
  | [], _, f, s, hs => .ok hs (Keeps.refl known s) (append_nil _).symm
  | c :: children, hcov, f, s, hs => by
    have hcc := hcov c mem_cons_self
    rw [fieldParts, readField]
    by_cases hname : c.hasName f.name
    · rw [if_pos hname, if_pos hname]
      exact field_follows (unserialize_follows w c hcc) hs w hcc f
    · rw [if_neg hname, if_neg hname]
      exact readField_follows w children (fun d hd => hcov d (mem_cons_of_mem c hd)) f s hs

end

/-! ## The object of an element -/

theorem lookupID_refs (hid : e.getAttributeValue idTag = some id) (h : s.lookupID e t a = .ok s') :
    ∃ r, s'.refs id = some r ∧ r.ptr = some a := by
  simp only [State.lookupID, hid] at h
  cases hr : s.refs id with
  | none =>
    simp only [hr] at h
    obtain rfl := Except.ok.inj h
    exact ⟨_, update_self .., rfl⟩
  | some r =>
    simp only [hr] at h
    by_cases hrec : r.isRecorded
    · rw [if_pos hrec] at h
      cases h
    · rw [if_neg hrec] at h
      obtain rfl := Except.ok.inj h
      exact ⟨_, update_self .., rfl⟩

/-- The object that is read is recorded under the identifier of its element, if it is an object of a class. -/
theorem unserialize_root (hs : Inv hole s) (hcov : Covers known e) (hid : e.getAttributeValue idTag = some id)
    (h : unserialize w e t a s = .ok s') :
    s'.refs = s.refs ∧ (id, a) ∈ s'.built ∨ ∃ r, s'.refs id = some r ∧ r.ptr = some a := by
  cases e with
  | text _ => cases hid
  | other => cases hid
  | element name attributes children =>
    rw [unserialize] at h
    cases hcontent : (w.info t).content with
    | value reads =>
      simp only [hcontent] at h
      by_cases hreads : reads (Node.getValues children)
      · rw [if_pos hreads] at h
        obtain rfl := Except.ok.inj h
        exact Or.inl ⟨rfl, by simp [State.note, hid]⟩
      · rw [if_neg hreads] at h
        cases h
    | object fields =>
      simp only [hcontent] at h
      have hbegin : Follows (frame hole known) (some (attributes.lookup idTag).toList) s _ :=
        lookupID_follows hs (.element name attributes children) t a
      cases hres : (s.note (.element name attributes children) a).lookupID (.element name attributes children)
          t a with
      | error x =>
        rw [hres] at h
        cases h
      | ok s₁ =>
        rw [hres] at h hbegin
        obtain ⟨r, hr, ha⟩ := lookupID_refs hid hres
        have hfields : Follows (frame hole known) (concat (fieldParts w children) fields) s₁
            (fields.foldlM (fun s f => readField w children f s) s₁) :=
          .foldlM (fun f _ s hs => readField_follows w children (fun c hc => hcov.child hc) f s hs) hbegin.1
        change fields.foldlM (fun s f => readField w children f s) s₁ = .ok s' at h
        rw [h] at hfields
        exact Or.inr ⟨r, hfields.2.1.refs id r a hr ha, ha⟩

/-- What `embed` does when it goes through. -/
theorem embed_eq_ok {read : Reader T} {obj : Addr} (h : embed w read e t l s = .ok (s', obj)) :
    ∃ u, obj = s.next ∧ read u s.next (s.alloc.store l (some s.next)) = .ok s' := by
  unfold embed at h
  cases hclass : findClass w e t with
  | error x =>
    rw [hclass] at h
    cases h
  | ok u =>
    simp only [hclass] at h
    by_cases hserial : (w.info u).isSerial
    · rw [if_pos hserial] at h
      cases hread : read u s.next (s.alloc.store l (some s.next)) with
      | error x =>
        rw [hread] at h
        cases h
      | ok s₁ =>
        rw [hread] at h
        obtain ⟨rfl, rfl⟩ := Prod.mk.inj (Except.ok.inj h)
        exact ⟨u, rfl, hread⟩
    · rw [if_neg hserial] at h
      cases h

/-! ## The dictionary -/

theorem collect_eq_some {fuel : Nat} {todo : List Node} {elems : Id → Option Node}
    (h : collect fuel todo elems id = some e) :
    elems id = some e ∨ e.getAttributeValue idTag = some id ∧ ∃ d ∈ todo, e ∈ d.descendants := by
  induction fuel generalizing todo elems with
  | zero => exact Or.inl h
  | succ fuel ih =>
    cases todo with
    | nil => exact Or.inl h
    | cons d todo =>
      rw [collect] at h
      rcases ih h with helems | ⟨hid, c, hc, hmem⟩
      · cases hd : d.getAttributeValue idTag with
        | none =>
          rw [hd] at helems
          exact Or.inl helems
        | some i =>
          simp only [hd] at helems
          by_cases hi : id = i
          · subst hi
            rw [update_self] at helems
            obtain rfl := some.inj helems
            exact Or.inr ⟨hd, d, mem_cons_self, Node.mem_descendants_self d⟩
          · rw [update_of_ne hi] at helems
            exact Or.inl helems
      · refine Or.inr ⟨hid, ?_⟩
        rcases mem_append.mp hc with hc | hc
        · have hchild : c ∈ d.children := (mem_filter.mp (mem_reverse.mp hc)).1
          exact ⟨d, mem_cons_self, Node.mem_descendants.mpr (Or.inr ⟨c, hchild, hmem⟩)⟩
        · exact ⟨c, mem_cons_of_mem d hc, hmem⟩

theorem getAttributeValue_of_not_isElement (h : ¬ e.isElement) (name : List Char) :
    e.getAttributeValue name = none := by
  cases e with
  | element _ _ _ => exact absurd rfl h
  | text _ => rfl
  | other => rfl

theorem not_isElement_of_mem {d : Node} (h : ¬ e.isElement) (hd : d ∈ e.descendants) : ¬ d.isElement := by
  cases e with
  | element _ _ _ => exact absurd rfl h
  | text _ => rw [mem_singleton.mp hd]; exact h
  | other => rw [mem_singleton.mp hd]; exact h

/-- The elements that are pushed on `todo` are not more than the children. -/
theorem length_elements_le (children : List Node) :
    (Node.descendantsOf (children.filter Node.isElement).reverse).length ≤ (Node.descendantsOf children).length := by
  rw [Node.length_descendantsOf, Node.length_descendantsOf, map_reverse, sum_reverse]
  exact (filter_sublist.map _).sum_le_sum fun _ _ => Nat.zero_le _

/-- With enough turns, every identifier of the elements of `todo` is found. -/
theorem collect_eq_none {fuel : Nat} {todo : List Node} {elems : Id → Option Node}
    (hfuel : (Node.descendantsOf todo).length ≤ fuel) (h : collect fuel todo elems id = none) :
    elems id = none ∧ ∀ d ∈ Node.descendantsOf todo, d.getAttributeValue idTag ≠ some id := by
  induction fuel generalizing todo elems with
  | zero =>
    rw [eq_nil_of_length_eq_zero (Nat.le_zero.mp hfuel)]
    exact ⟨h, fun d hd => absurd hd not_mem_nil⟩
  | succ fuel ih =>
    cases todo with
    | nil => exact ⟨h, fun d hd => absurd hd not_mem_nil⟩
    | cons d todo =>
      have hlen : (Node.descendantsOf ((d.children.filter Node.isElement).reverse ++ todo)).length ≤ fuel := by
        have hchildren := length_elements_le d.children
        have hd := Node.length_descendants d
        rw [Node.length_descendantsOf, map_append, sum_append, ← Node.length_descendantsOf,
          ← Node.length_descendantsOf]
        rw [Node.descendantsOf, length_append] at hfuel
        omega
      obtain ⟨helems, hbelow⟩ := ih hlen h
      have hd : d.getAttributeValue idTag ≠ some id ∧ elems id = none := by
        cases hd : d.getAttributeValue idTag with
        | none =>
          rw [hd] at helems
          exact ⟨(some_ne_none id).symm, helems⟩
        | some i =>
          simp only [hd] at helems
          by_cases hi : id = i
          · subst hi
            rw [update_self] at helems
            cases helems
          · rw [update_of_ne hi] at helems
            exact ⟨fun heq => hi (some.inj heq).symm, helems⟩
      refine ⟨hd.2, fun x hx => ?_⟩
      rcases mem_append.mp hx with hx | hx
      · rcases Node.mem_descendants.mp hx with rfl | ⟨c, hc, hxc⟩
        · exact hd.1
        · by_cases helem : c.isElement
          · have hpushed : c ∈ (d.children.filter Node.isElement).reverse ++ todo :=
              mem_append_left _ (mem_reverse.mpr (mem_filter.mpr ⟨hc, helem⟩))
            exact hbelow x (Node.mem_descendantsOf.mpr ⟨c, hpushed, hxc⟩)
          · rw [getAttributeValue_of_not_isElement (not_isElement_of_mem helem hxc)]
            exact (some_ne_none id).symm
      · obtain ⟨c, hc, hxc⟩ := Node.mem_descendantsOf.mp hx
        exact hbelow x (Node.mem_descendantsOf.mpr ⟨c, mem_append_right _ hc, hxc⟩)

theorem dictionary_eq_some {root : Node} (h : dictionary root id = some e) :
    e ∈ root.descendants ∧ e.getAttributeValue idTag = some id := by
  rcases collect_eq_some h with h | ⟨hid, d, hd, he⟩
  · cases h
  · rw [mem_singleton.mp hd] at he
    exact ⟨he, hid⟩

theorem dictionary_eq_none {root : Node} (h : dictionary root id = none) : ¬ Carried root id := by
  rintro ⟨d, hd, hid⟩
  have hlen : (Node.descendantsOf [root]).length ≤ root.descendants.length := by
    simp [Node.descendantsOf]
  exact (collect_eq_none hlen h).2 d (by simpa [Node.descendantsOf] using hd) hid

/-! ## A turn of the loop -/

theorem Inv.pop {pending : List Id} (hs : Inv hole s) {hole' : Id → Prop} (hp : s.pending = id :: pending)
    (hhole : ∀ i r, s.refs i = some r → r.ptr = none → i = id ∨ hole i → hole' i) :
    Inv hole' { s with pending := pending } where
  recorded := hs.recorded
  waiting := hs.waiting
  asked := hs.asked
  pending i r hr hptr := by
    rcases hs.pending i r hr hptr with hmem | hi
    · rw [hp] at hmem
      rcases mem_cons.mp hmem with rfl | hmem
      · exact Or.inr (hhole i r hr hptr (Or.inl rfl))
      · exact Or.inl hmem
    · exact Or.inr (hhole i r hr hptr (Or.inr hi))
  one := hs.one
  fresh := hs.fresh

/-- The exceptions that the loop makes for its reference are over. -/
theorem Inv.weaken {hole' : Id → Prop} (hs : Inv hole s)
    (h : ∀ i r, s.refs i = some r → r.ptr = none → hole i → hole' i) : Inv hole' s where
  recorded := hs.recorded
  waiting := hs.waiting
  asked := hs.asked
  pending i r hr hptr := (hs.pending i r hr hptr).imp_right (h i r hr hptr)
  one := hs.one
  fresh := hs.fresh

theorem record_of_recorded (hr : s.refs id = some r) (ha : r.ptr = some a) (hpatches : r.patches = []) :
    s.setRef id (r.record a s.mem) = s := by
  obtain ⟨type, ptr, patches⟩ := r
  obtain rfl : ptr = some a := ha
  obtain rfl : patches = [] := hpatches
  unfold State.setRef Ref.record
  rw [← hr, update_eq_self]
  rfl

/-- What a turn does, and when it is ready for it. -/
inductive Turn (w : World T) (elems : Id → Option Node) (s : State T) : Prop
  | done (hp : s.pending = []) (hturn : turn w elems s = .inr (.returned s)) (hready : Ready w elems s)
  | known (id : Id) (pending : List Id) (hp : s.pending = id :: pending)
      (hr : ∀ r, s.refs id = some r → r.ptr ≠ none) (hturn : turn w elems s = .inl { s with pending := pending })
      (hready : Ready w elems s)
  | unresolved (id : Id) (helem : elems id = none) (hsolve : w.solve id = none)
      (hturn : turn w elems s = .inr (.unresolved id { s with pending := [] })) (hready : Ready w elems s)
  | solved (hturn : turn w elems s = .inr (.failed .nullElement)) (hready : ¬ Ready w elems s)
  | build (id : Id) (pending : List Id) (r : Ref T) (e : Node) (hp : s.pending = id :: pending)
      (hr : s.refs id = some r) (hptr : r.ptr = none) (helem : elems id = some e)
      (hready : Ready w elems s ↔ ∃ ids, embedParts w (parts w e) e r.type = some ids ∧ (s.ids ++ ids).Nodup)
      (hfail : ∀ x, embed w (unserialize w e) e r.type s.next { s with pending := pending }.alloc = .error x →
        turn w elems s = .inr (.failed x))
      (hbuild : ∀ s' obj, embed w (unserialize w e) e r.type s.next { s with pending := pending }.alloc =
        .ok (s', obj) → turn w elems s = .inl (s'.record id obj))

theorem turn_cases (w : World T) (elems : Id → Option Node) (s : State T) : Turn w elems s := by
  cases hp : s.pending with
  | nil => exact .done hp (by simp only [turn, hp]) (by simp only [Ready, hp])
  | cons id pending =>
    cases hr : s.refs id with
    | none =>
      refine .known id pending hp (fun r h => ?_) (by simp only [turn, hp, hr]) (by simp only [Ready, hp, hr])
      rw [hr] at h
      cases h
    | some r =>
      cases hptr : r.ptr with
      | some a =>
        have hrec : r.isRecorded = true := by simp [Ref.isRecorded, hptr]
        refine .known id pending hp (fun r' h hn => ?_) (by simp only [turn, hp, hr, hrec, if_true])
          (by simp only [Ready, hp, hr, hrec, true_or])
        rw [hr] at h
        rw [← some.inj h, hptr] at hn
        cases hn
      | none =>
        have hrec : r.isRecorded = false := by simp [Ref.isRecorded, hptr]
        cases helem : elems id with
        | none =>
          cases hsolve : w.solve id with
          | none =>
            exact .unresolved id helem hsolve
              (by simp only [turn, hp, hr, hrec, helem, hsolve, Bool.false_eq_true, if_false])
              (by simp only [Ready, hp, hr, helem, hsolve, or_true])
          | some a =>
            refine .solved (by simp only [turn, hp, hr, hrec, helem, hsolve, Bool.false_eq_true, if_false])
              fun h => ?_
            simp [Ready, hp, hr, hrec, helem, hsolve] at h
        | some e =>
          refine .build id pending r e hp hr hptr helem ?_ (fun x h => ?_) fun s' obj h => ?_
          · simp only [Ready, hp, hr, hrec, helem, Bool.false_eq_true, false_or]
          · simp only [turn, hp, hr, hrec, helem, Bool.false_eq_true, if_false, h]
          · simp only [turn, hp, hr, hrec, helem, Bool.false_eq_true, if_false, h]

theorem record_eq (hr : s.refs id = some r) (a : Addr) : s.record id a = s.setRef id (r.record a s.mem) := by
  simp only [State.record, hr]

theorem ids_record (s : State T) (id : Id) (a : Addr) : (s.record id a).ids = s.ids := by
  unfold State.record
  cases s.refs id <;> rfl

/-- The object of a pending reference is built. -/
theorem build_spec {pending : List Id} {obj : Addr} (hs : Inv hole s) (hp : s.pending = id :: pending)
    (hr : s.refs id = some r) (hptr : r.ptr = none) (hcov : Covers known e) (hid : e.getAttributeValue idTag = some id)
    (h : embed w (unserialize w e) e r.type s.next { s with pending := pending }.alloc = .ok (s', obj)) :
    Inv hole (s'.record id obj) ∧ Keeps known { s with pending := pending } (s'.record id obj) ∧
      ∃ ks, embedParts w (parts w e) e r.type = some ks ∧ (s'.record id obj).ids = s.ids ++ ks := by
  -- the reference is neither pending nor recorded while its object is read
  have hpop : Inv (fun i => i = id ∨ hole i) { s with pending := pending } := hs.pop hp fun _ _ _ _ h => h
  have hread := embed_follows (fun u a s => unserialize_follows w e hcov u a s) hpop.alloc hpop.next_fresh w e r.type
  rw [h] at hread
  obtain ⟨hs', hkeeps, ks, hparts, hids⟩ := hread
  have halloc : Keeps known { s with pending := pending } { s with pending := pending }.alloc := Keeps.same rfl rfl rfl
  rw [ids_record]
  obtain ⟨u, hobj, hun⟩ := embed_eq_ok h
  rw [← hobj] at hun
  have hstart := hpop.alloc.alloc.store hpop.next_fresh (some obj)
  rcases unserialize_root hstart hcov hid hun with ⟨hrefs, hbuilt⟩ | ⟨r', hr', ha⟩
  · have hr' : s'.refs id = some r := (congrFun hrefs id).trans hr
    have hset : Keeps known s' (s'.setRef id (r.record obj s'.mem)) := by
      refine Keeps.setRef (fun r₁ a hr₁ ha => ?_) _
      obtain rfl := some.inj (hr'.symm.trans hr₁)
      rw [hptr] at ha
      cases ha
    rw [record_eq hr']
    refine ⟨hs'.record (Or.inl ⟨hr', hptr⟩) hbuilt fun i hi h => h.resolve_left hi, ?_, ks, hparts, hids⟩
    exact (halloc.trans hkeeps).trans hset
  · rw [record_eq hr', record_of_recorded hr' ha (hs'.recorded id r' _ hr' ha).2]
    refine ⟨hs'.weaken fun i r₁ hr₁ hptr₁ h => h.resolve_left ?_, halloc.trans hkeeps, ks, hparts, hids⟩
    rintro rfl
    rw [hr'] at hr₁
    rw [← some.inj hr₁, ha] at hptr₁
    cases hptr₁

section Loops

variable {root : Node}

/-- A turn that goes on builds an object, or drops a reference. -/
theorem turn_inl (hcov : Covers known root) (hs : Inv hole s) (h : turn w (dictionary root) s = .inl s') :
    Inv hole s' ∧ s.asked ⊆ s'.asked ∧ s'.load known < s.load known ∧
      ∃ ks, s'.ids = s.ids ++ ks ∧ (s.ids.Nodup → ((s.ids ++ ks).Nodup ↔ Ready w (dictionary root) s)) := by
  cases turn_cases w (dictionary root) s with
  | done hp hturn hready => cases hturn.symm.trans h
  | unresolved id helem hsolve hturn hready => cases hturn.symm.trans h
  | solved hturn hready => cases hturn.symm.trans h
  | known id pending hp hr hturn hready =>
    obtain rfl := Sum.inl.inj (hturn.symm.trans h)
    refine ⟨hs.pop hp ?_, List.Subset.refl _, ?_, [], (append_nil _).symm, ?_⟩
    · intro i r hi hptr hor
      exact hor.resolve_left fun heq => hr r (heq ▸ hi) hptr
    · simp only [State.load, hp, length_cons]
      omega
    · rw [append_nil]
      exact fun hnodup => iff_of_true hnodup hready
  | build id pending r e hp hr hptr helem hready hfail hbuild =>
    obtain ⟨hmem, hid⟩ := dictionary_eq_some helem
    have hcove : Covers known e := fun d hd => hcov d (Node.mem_descendants_trans root hmem hd)
    cases hembed : embed w (unserialize w e) e r.type s.next { s with pending := pending }.alloc with
    | error x => cases (hfail x hembed).symm.trans h
    | ok res =>
      obtain ⟨s₁, obj⟩ := res
      obtain rfl := Sum.inl.inj ((hbuild s₁ obj hembed).symm.trans h)
      obtain ⟨hinv, hkeeps, ks, hparts, hids⟩ := build_spec hs hp hr hptr hcove hid hembed
      refine ⟨hinv, hkeeps.asked, ?_, ks, hids, fun _ => ?_⟩
      · have hload := hkeeps.load
        simp only [State.load, hp, length_cons] at hload ⊢
        omega
      · rw [hready, hparts]
        constructor
        · exact fun hnodup => ⟨ks, rfl, hnodup⟩
        · rintro ⟨ks', hks, hnodup⟩
          rwa [some.inj hks]

/-- When no reference is pending, the pointers that have asked for an object hold its address. -/
theorem Inv.patched (hs : Inv hole s) (hp : s.pending = []) (hl : (id, l) ∈ s.asked) (hid : ¬ hole id) :
    ∃ a, s.mem l = some a ∧ (id, a) ∈ s.built := by
  obtain ⟨r, hr, hl⟩ := hs.asked id l hl
  cases hptr : r.ptr with
  | none =>
    rcases hs.pending id r hr hptr with hmem | hmem
    · rw [hp] at hmem
      cases hmem
    · exact absurd hmem hid
  | some a =>
    obtain ⟨hbuilt, hpatches⟩ := hs.recorded id r a hr hptr
    rcases hl with hl | ⟨a', ha', hmem⟩
    · rw [hpatches] at hl
      cases hl
    · obtain rfl := some.inj (hptr.symm.trans ha')
      exact ⟨a, hmem, hbuilt⟩

/-- The exit of the loop does the work of `flush` if its last turn was ready. -/
theorem turn_inr {s₀ : State T} {o : Outcome T} (hcov : Covers known root) (hs : Inv s₀.Dropped s)
    (hwaiting : ∀ id l, s₀.Waiting id l → (id, l) ∈ s.asked) (h : turn w (dictionary root) s = .inr o) :
    Settles w root s₀ o ↔ s.ids.Nodup ∧ Ready w (dictionary root) s := by
  cases turn_cases w (dictionary root) s with
  | done hp hturn hready =>
    obtain rfl := Sum.inr.inj (hturn.symm.trans h)
    constructor
    · exact fun hsettles => ⟨hsettles.2, hready⟩
    · refine fun hgood => ⟨fun id l hl hid => ?_, hgood.1⟩
      obtain ⟨a, hmem, hbuilt⟩ := hs.patched hp (hl.elim (hwaiting id l) fun hl => hl) hid
      exact ⟨a, hmem, Or.inl hbuilt⟩
  | unresolved id helem hsolve hturn hready =>
    obtain rfl := Sum.inr.inj (hturn.symm.trans h)
    constructor
    · exact fun hsettles => ⟨hsettles.2.2, hready⟩
    · exact fun hgood => ⟨dictionary_eq_none helem, hsolve, hgood.1⟩
  | solved hturn hready =>
    obtain rfl := Sum.inr.inj (hturn.symm.trans h)
    exact iff_of_false (fun hsettles => hsettles) fun hgood => hready hgood.2
  | known id pending hp hr hturn hready => cases hturn.symm.trans h
  | build id pending r e hp hr hptr helem hready hfail hbuild =>
    obtain ⟨hmem, hid⟩ := dictionary_eq_some helem
    have hcove : Covers known e := fun d hd => hcov d (Node.mem_descendants_trans root hmem hd)
    cases hembed : embed w (unserialize w e) e r.type s.next { s with pending := pending }.alloc with
    | ok res => cases (hbuild res.1 res.2 hembed).symm.trans h
    | error x =>
      obtain rfl := Sum.inr.inj ((hfail x hembed).symm.trans h)
      refine iff_of_false (fun hsettles => hsettles) fun hgood => ?_
      have hpop : Inv (fun i => i = id ∨ s₀.Dropped i) { s with pending := pending } :=
        hs.pop hp fun _ _ _ _ h => h
      have hread := embed_follows (fun u a s => unserialize_follows w e hcove u a s) hpop.alloc hpop.next_fresh
        w e r.type
      rw [hembed] at hread
      obtain ⟨ks, hks, hnodup⟩ := hready.mp hgood.2
      exact hread ks hks hnodup

/-! ## `flush` -/

/-- The identifiers that the document refers to. -/
def references (root : Node) : Finset Id := (root.descendants.filterMap (Node.getAttributeValue · refTag)).toFinset

theorem covers_references (root : Node) : Covers (references root) root := fun d hd _ hid =>
  List.mem_toFinset.mpr (mem_filterMap.mpr ⟨d, hd, hid⟩)

/-- The state in which an unserializer is used: the references and the memory agree, and no object has been built
twice. -/
structure Wf (s : State T) : Prop where
  inv : Inv s.Dropped s
  nodup : s.ids.Nodup

/-- `flush` resolves the pending references if and only if every turn of its loop is ready. -/
theorem flush_iff (w : World T) (root : Node) (hs : Wf s) :
    Flushes w root s ↔ ∀ s', Loop.Reached (turn w (dictionary root)) s s' → Ready w (dictionary root) s' := by
  have hcov := covers_references root
  refine Loop.exists_run_iff_reached (fun s' => Inv s.Dropped s' ∧ ∀ id l, s.Waiting id l → (id, l) ∈ s'.asked)
    (fun s' => s'.ids.Nodup) (fun s' => s'.load (references root)) ?_ ?_ ?_ ?_ ?_ hs.nodup
  · rintro s₁ s₂ ⟨hinv, hwaiting⟩ hturn
    obtain ⟨hinv', hasked, hload, -⟩ := turn_inl hcov hinv hturn
    exact ⟨⟨hinv', fun id l hl => hasked (hwaiting id l hl)⟩, hload⟩
  · rintro s₁ s₂ ⟨hinv, -⟩ hgood hturn
    obtain ⟨-, -, -, ks, hids, hready⟩ := turn_inl hcov hinv hturn
    rw [hids]
    exact hready hgood
  · rintro s₁ s₂ ⟨hinv, -⟩ hturn hgood
    obtain ⟨-, -, -, ks, hids, -⟩ := turn_inl hcov hinv hturn
    rw [hids] at hgood
    exact hgood.of_append_left
  · rintro s₁ o ⟨hinv, hwaiting⟩ hturn
    exact turn_inr hcov hinv hwaiting hturn
  · refine ⟨hs.inv, ?_⟩
    rintro id l ⟨r, hr, hl⟩
    exact hs.inv.waiting id r l hr hl

end Loops

/-! ## Two documents -/

/-- A class with a pointer to the other one. -/
def twoClasses : World (Fin 2) where
  info t := ⟨true, true, .object (if t = 0 then [⟨['y'], true, 1⟩] else [])⟩
  get _ := none
  solve _ := none

/-- The object `y` is written where `x` points to it. -/
def nested : Node :=
  .element ['d'] [] [.element ['x'] [(idTag, ['x'])] [.element ['y'] [(idTag, ['y'])] []]]

/-- The object `x` refers to `y`. -/
def apart : Node :=
  .element ['d'] [] [.element ['x'] [(idTag, ['x'])] [.element ['y'] [(refTag, ['y'])] []],
    .element ['y'] [(idTag, ['y'])] []]

/-- Two pointers have asked for the objects `x` and `y`. -/
def twoPending : State (Fin 2) :=
  ((State.init (Fin 2) (fun _ => none) 2).refer 0 ['x'] 0).refer 1 ['y'] 1

theorem wf_twoPending : Wf twoPending := by
  have hinit : Inv (State.Dropped twoPending) (State.init (Fin 2) (fun _ => none) 2) := inv_init _ _ _
  have hx := hinit.refer (l := 0) (fun i h => absurd h not_mem_nil) (by decide) 0 ['x']
  have hy := hx.refer (l := 1) (fun i h => by simp [State.refer, State.init, State.addRef] at h) (by decide) 1 ['y']
  exact ⟨hy, nodup_nil⟩

theorem flush_iff_apart : Flushes twoClasses apart twoPending := by
  refine (flush_iff twoClasses apart wf_twoPending).mpr fun s hs => ?_
  rcases hs.cases_head with rfl | ⟨s₁, h₁, hs⟩
  · exact Or.inr ⟨_, rfl, by decide⟩
  obtain rfl := Sum.inl.inj h₁
  rcases hs.cases_head with rfl | ⟨s₂, h₂, hs⟩
  · exact Or.inr ⟨_, rfl, by decide⟩
  obtain rfl := Sum.inl.inj h₂
  rcases hs.cases_head with rfl | ⟨s₃, h₃, hs⟩
  · trivial
  · cases h₃

/-- `y` is built first, and a second time when `x` is read. -/
theorem not_flushes_nested : ¬ ∀ (w : World (Fin 2)) (root : Node) (s : State (Fin 2)), Wf s → Flushes w root s := by
  intro hclaim
  obtain ⟨fuel, o, hrun, hsettles⟩ := hclaim twoClasses nested twoPending wf_twoPending
  have htwice : flush twoClasses nested 3 twoPending = some (.failed (.usedTwice ['y'])) := rfl
  obtain rfl := Loop.run_unique htwice hrun
  exact hsettles

end Elm.Serial
