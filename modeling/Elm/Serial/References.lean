import Elm.Serial.Flush

/-!
# The references of `XOMUnserializer`

The invariant of the references: a pointer that has asked for an object waits for it, or holds its address.
`ref_t::put`, `ref_t::record` and `onPointer` keep it, and push a reference once on `pending`.
-/

namespace Elm.Serial

open Elm.Xom Function List

variable {T : Type} {w : World T} {s s' : State T} {id : Id} {l a : Addr} {r : Ref T} {t : T} {e : Node}
  {hole : Id → Prop} {known : Finset Id}

/-! ## The invariant -/

/-- The references, the record of the run and the memory agree.  The references that have no object are pending, apart
from those of `hole`. -/
structure Inv (hole : Id → Prop) (s : State T) : Prop where
  recorded : ∀ id r a, s.refs id = some r → r.ptr = some a → (id, a) ∈ s.built ∧ r.patches = []
  waiting : ∀ id r l, s.refs id = some r → l ∈ r.patches → (id, l) ∈ s.asked
  asked : ∀ id l, (id, l) ∈ s.asked →
    ∃ r, s.refs id = some r ∧ (l ∈ r.patches ∨ ∃ a, r.ptr = some a ∧ s.mem l = some a)
  pending : ∀ id r, s.refs id = some r → r.ptr = none → id ∈ s.pending ∨ hole id
  one : ∀ id id' l, (id, l) ∈ s.asked → (id', l) ∈ s.asked → id = id'
  fresh : ∀ id l, (id, l) ∈ s.asked → l < s.next

theorem inv_init (hole : Id → Prop) (mem : Mem) (next : Addr) : Inv hole (State.init T mem next) where
  recorded _ _ _ h := nomatch h
  waiting _ _ _ h := nomatch h
  asked _ _ h := nomatch h
  pending _ _ h := nomatch h
  one _ _ _ h := nomatch h
  fresh _ _ h := nomatch h

/-- The identifiers that may still be asked for the first time, and the pending references. -/
def State.load (s : State T) (known : Finset Id) : Nat :=
  (known.filter fun id => (s.refs id).isNone).card + s.pending.length

/-- What the reading of an element does not undo. -/
structure Keeps (known : Finset Id) (s s' : State T) : Prop where
  refs : ∀ id r a, s.refs id = some r → r.ptr = some a → s'.refs id = some r
  asked : s.asked ⊆ s'.asked
  load : s'.load known ≤ s.load known

theorem Keeps.refl (known : Finset Id) (s : State T) : Keeps known s s :=
  ⟨fun _ _ _ h _ => h, List.Subset.refl _, Nat.le_refl _⟩

theorem Keeps.trans {s'' : State T} (h : Keeps known s s') (h' : Keeps known s' s'') : Keeps known s s'' where
  refs id r a hr ha := h'.refs id r a (h.refs id r a hr ha) ha
  asked := List.Subset.trans h.asked h'.asked
  load := h'.load.trans h.load

/-- The references are the same. -/
theorem Keeps.same (hrefs : s'.refs = s.refs) (hpending : s'.pending = s.pending) (hasked : s'.asked = s.asked) :
    Keeps known s s' where
  refs id r a hr _ := hrefs ▸ hr
  asked := hasked ▸ List.Subset.refl _
  load := by
    unfold State.load
    rw [hrefs, hpending]

/-- The frame of the readings: the keys are the identifiers of the objects that are built. -/
def frame (hole : Id → Prop) (known : Finset Id) : Planned.Frame (State T) Id where
  taken := State.ids
  inv := Inv hole
  rel := Keeps known
  refl := Keeps.refl known
  trans _ _ _ := Keeps.trans

/-- The new references come from identifiers that were not referenced yet. -/
theorem load_le_of_refs (hrefs : ∀ id, s'.refs id = none → s.refs id = none) (hpending : s'.pending = s.pending) :
    s'.load known ≤ s.load known := by
  unfold State.load
  rw [hpending]
  refine Nat.add_le_add_right (Finset.card_le_card fun id hid => ?_) _
  simp only [Finset.mem_filter, Option.isNone_iff_eq_none] at hid ⊢
  exact ⟨hid.1, hrefs id hid.2⟩

/-! ## Addresses and memory -/

theorem Inv.alloc (hs : Inv hole s) : Inv hole s.alloc :=
  ⟨hs.recorded, hs.waiting, hs.asked, hs.pending, hs.one, fun id l h => Nat.lt_succ_of_lt (hs.fresh id l h)⟩

/-- The next address is that of no pointer that has asked for an object. -/
theorem Inv.next_fresh (hs : Inv hole s) (id : Id) : (id, s.next) ∉ s.asked :=
  fun h => Nat.lt_irrefl _ (hs.fresh id _ h)

theorem Inv.store (hs : Inv hole s) (hl : ∀ id, (id, l) ∉ s.asked) (v : Option Addr) : Inv hole (s.store l v) where
  recorded := hs.recorded
  waiting := hs.waiting
  asked id l' h := by
    obtain ⟨r, hr, hl' | ⟨a, ha, hmem⟩⟩ := hs.asked id l' h
    · exact ⟨r, hr, Or.inl hl'⟩
    · have hne : l' ≠ l := fun heq => hl id (heq ▸ h)
      exact ⟨r, hr, Or.inr ⟨a, ha, (update_of_ne hne _ _).trans hmem⟩⟩
  pending := hs.pending
  one := hs.one
  fresh := hs.fresh

theorem Inv.note (hs : Inv hole s) (e : Node) (a : Addr) : Inv hole (s.note e a) where
  recorded id r a' hr ha := by
    obtain ⟨hbuilt, hpatches⟩ := hs.recorded id r a' hr ha
    exact ⟨mem_append_left _ hbuilt, hpatches⟩
  waiting := hs.waiting
  asked := hs.asked
  pending := hs.pending
  one := hs.one
  fresh := hs.fresh

theorem ids_note (s : State T) (e : Node) (a : Addr) :
    (s.note e a).ids = s.ids ++ (e.getAttributeValue idTag).toList := by
  unfold State.note State.ids
  rw [map_append, map_map]
  exact congrArg _ (map_id _)

/-! ## `ref_t` -/

theorem record_mem (r : Ref T) (a : Addr) (mem : Mem) (l : Addr) :
    (r.record a mem).2 l = if l ∈ r.patches then some a else mem l := by
  unfold Ref.record
  induction r.patches generalizing mem with
  | nil => rfl
  | cons l' patches ih =>
    rw [foldl_cons, ih]
    by_cases hmem : l ∈ patches
    · rw [if_pos hmem, if_pos (mem_cons_of_mem _ hmem)]
    · by_cases heq : l = l'
      · subst heq
        rw [if_neg hmem, if_pos mem_cons_self, update_self]
      · rw [if_neg hmem, if_neg (by simp [heq, hmem]), update_of_ne heq]

theorem update_eq_some {refs : Id → Option (Ref T)} {x : Ref T} {i : Id}
    (h : update refs id (some x) i = some r) : i = id ∧ r = x ∨ i ≠ id ∧ refs i = some r := by
  by_cases hi : i = id
  · subst hi
    rw [update_self] at h
    exact Or.inl ⟨rfl, (Option.some.inj h).symm⟩
  · rw [update_of_ne hi] at h
    exact Or.inr ⟨hi, h⟩

/-- The object of a reference is known: its pointers are patched, and the reference may leave `pending`. -/
theorem Inv.record {hole' : Id → Prop} (hs : Inv hole s)
    (hr : s.refs id = some r ∧ r.ptr = none ∨ s.refs id = none ∧ r.patches = []) (hbuilt : (id, a) ∈ s.built)
    (hhole : ∀ i, i ≠ id → hole i → hole' i) : Inv hole' (s.setRef id (r.record a s.mem)) where
  recorded i r' a' hr' ha' := by
    rcases update_eq_some hr' with ⟨rfl, rfl⟩ | ⟨-, hr'⟩
    · obtain rfl := Option.some.inj ha'
      exact ⟨hbuilt, rfl⟩
    · exact hs.recorded i r' a' hr' ha'
  waiting i r' l hr' hl := by
    rcases update_eq_some hr' with ⟨rfl, rfl⟩ | ⟨-, hr'⟩
    · cases hl
    · exact hs.waiting i r' l hr' hl
  asked i l h := by
    obtain ⟨r', hr', hl⟩ := hs.asked i l h
    by_cases hi : i = id
    · subst hi
      refine ⟨_, update_self .., Or.inr ⟨a, rfl, ?_⟩⟩
      change (r.record a s.mem).2 l = some a
      rw [record_mem]
      -- the reference had no object: the pointer was in its list
      rcases hr with ⟨hsome, hptr⟩ | ⟨hnone, -⟩
      · obtain rfl := Option.some.inj (hsome.symm.trans hr')
        rcases hl with hl | ⟨a', ha', -⟩
        · rw [if_pos hl]
        · rw [hptr] at ha'
          cases ha'
      · rw [hnone] at hr'
        cases hr'
    · refine ⟨r', (update_of_ne hi _ _).trans hr', ?_⟩
      rcases hl with hl | ⟨a', ha', hmem⟩
      · exact Or.inl hl
      · refine Or.inr ⟨a', ha', ?_⟩
        change (r.record a s.mem).2 l = some a'
        have hnot : l ∉ r.patches := by
          intro hmem'
          rcases hr with ⟨hsome, -⟩ | ⟨-, hnil⟩
          · exact hi (hs.one i id l h (hs.waiting id r l hsome hmem'))
          · rw [hnil] at hmem'
            cases hmem'
        rw [record_mem, if_neg hnot]
        exact hmem
  pending i r' hr' hptr := by
    rcases update_eq_some hr' with ⟨rfl, rfl⟩ | ⟨hi, hr'⟩
    · cases hptr
    · exact (hs.pending i r' hr' hptr).imp_right (hhole i hi)
  one := hs.one
  fresh := hs.fresh

theorem Keeps.setRef (hr : ∀ r' a, s.refs id = some r' → r'.ptr ≠ some a) (x : Ref T × Mem) :
    Keeps known s (s.setRef id x) where
  refs i r' a hr' ha := by
    have hi : i ≠ id := fun heq => hr r' a (heq ▸ hr') ha
    exact (update_of_ne hi _ _).trans hr'
  asked := List.Subset.refl _
  load := by
    refine load_le_of_refs (fun i hnone => ?_) rfl
    by_cases hi : i = id
    · subst hi
      change update s.refs i _ i = none at hnone
      rw [update_self] at hnone
      cases hnone
    · exact (update_of_ne hi _ _).symm.trans hnone

/-! ## `onPointer` -/

theorem refer_of_recorded (hr : s.refs id = some r) (ha : r.ptr = some a) :
    s.refer t id l = { s with mem := update s.mem l (some a), asked := (id, l) :: s.asked } := by
  simp only [State.refer, State.setRef, hr, Ref.put, ha]
  rw [← hr, update_eq_self]

theorem refer_of_waiting (hr : s.refs id = some r) (hn : r.ptr = none) :
    s.refer t id l = { s with
      refs := update s.refs id (some ⟨r.type, none, l :: r.patches⟩), asked := (id, l) :: s.asked } := by
  simp only [State.refer, State.setRef, hr, Ref.put, hn]

theorem refer_of_new (hr : s.refs id = none) :
    s.refer t id l = { s with
      refs := update s.refs id (some ⟨t, none, [l]⟩), pending := id :: s.pending,
      asked := (id, l) :: s.asked } := by
  simp only [State.refer, State.addRef, State.setRef, hr, Ref.put, update_idem]

theorem refer_built (s : State T) (t : T) (id : Id) (l : Addr) : (s.refer t id l).built = s.built := by
  unfold State.refer
  cases s.refs id <;> rfl

/-- A pointer that has asked for nothing yet asks for the object of a reference that has none. -/
theorem Inv.ask {patches : List Addr} {pending : List Id} (hs : Inv hole s)
    (hold : s.refs id = some ⟨t, none, patches⟩ ∨ s.refs id = none ∧ patches = [])
    (hl : ∀ i, (i, l) ∉ s.asked) (hlt : l < s.next) (hsub : s.pending ⊆ pending) (hid : id ∈ pending ∨ hole id) :
    Inv hole { s with
      refs := update s.refs id (some ⟨t, none, l :: patches⟩), pending := pending,
      asked := (id, l) :: s.asked } where
  recorded i r a hr ha := by
    rcases update_eq_some hr with ⟨rfl, rfl⟩ | ⟨-, hr⟩
    · cases ha
    · exact hs.recorded i r a hr ha
  waiting i r l' hr hl' := by
    rcases update_eq_some hr with ⟨rfl, rfl⟩ | ⟨-, hr⟩
    · rcases mem_cons.mp hl' with rfl | hl'
      · exact mem_cons_self
      · rcases hold with hold | ⟨-, rfl⟩
        · exact mem_cons_of_mem _ (hs.waiting i _ l' hold hl')
        · cases hl'
    · exact mem_cons_of_mem _ (hs.waiting i r l' hr hl')
  asked i l' h := by
    rcases mem_cons.mp h with heq | h
    · obtain ⟨rfl, rfl⟩ := Prod.mk.inj heq
      exact ⟨_, update_self .., Or.inl mem_cons_self⟩
    · obtain ⟨r, hr, hl'⟩ := hs.asked i l' h
      by_cases hi : i = id
      · subst hi
        refine ⟨_, update_self .., Or.inl (mem_cons_of_mem _ ?_)⟩
        rcases hold with hold | ⟨hnone, -⟩
        · obtain rfl := Option.some.inj (hold.symm.trans hr)
          rcases hl' with hl' | ⟨a, ha, -⟩
          · exact hl'
          · cases ha
        · rw [hnone] at hr
          cases hr
      · exact ⟨r, (update_of_ne hi _ _).trans hr, hl'⟩
  pending i r hr hptr := by
    rcases update_eq_some hr with ⟨rfl, rfl⟩ | ⟨-, hr⟩
    · exact hid
    · exact (hs.pending i r hr hptr).imp_left fun h => hsub h
  one i i' l' h h' := by
    rcases mem_cons.mp h with heq | h
    · rcases mem_cons.mp h' with heq' | h'
      · exact (Prod.mk.inj heq).1.trans (Prod.mk.inj heq').1.symm
      · exact absurd h' ((Prod.mk.inj heq).2 ▸ hl i')
    · rcases mem_cons.mp h' with heq' | h'
      · exact absurd h ((Prod.mk.inj heq').2 ▸ hl i)
      · exact hs.one i i' l' h h'
  fresh i l' h := by
    rcases mem_cons.mp h with heq | h
    · exact (Prod.mk.inj heq).2 ▸ hlt
    · exact hs.fresh i l' h

/-- A pointer that has asked for nothing yet takes the address of the object. -/
theorem Inv.take (hs : Inv hole s) (hr : s.refs id = some r) (ha : r.ptr = some a) (hl : ∀ i, (i, l) ∉ s.asked)
    (hlt : l < s.next) :
    Inv hole { s with mem := update s.mem l (some a), asked := (id, l) :: s.asked } where
  recorded := hs.recorded
  waiting i r l' hr hl' := mem_cons_of_mem _ (hs.waiting i r l' hr hl')
  asked i l' h := by
    rcases mem_cons.mp h with heq | h
    · obtain ⟨rfl, rfl⟩ := Prod.mk.inj heq
      exact ⟨r, hr, Or.inr ⟨a, ha, update_self ..⟩⟩
    · exact (hs.store hl (some a)).asked i l' h
  pending := hs.pending
  one i i' l' h h' := by
    rcases mem_cons.mp h with heq | h
    · rcases mem_cons.mp h' with heq' | h'
      · exact (Prod.mk.inj heq).1.trans (Prod.mk.inj heq').1.symm
      · exact absurd h' ((Prod.mk.inj heq).2 ▸ hl i')
    · rcases mem_cons.mp h' with heq' | h'
      · exact absurd h ((Prod.mk.inj heq').2 ▸ hl i)
      · exact hs.one i i' l' h h'
  fresh i l' h := by
    rcases mem_cons.mp h with heq | h
    · exact (Prod.mk.inj heq).2 ▸ hlt
    · exact hs.fresh i l' h

theorem Inv.refer (hs : Inv hole s) (hl : ∀ i, (i, l) ∉ s.asked) (hlt : l < s.next) (t : T) (id : Id) :
    Inv hole (s.refer t id l) := by
  cases hr : s.refs id with
  | none =>
    rw [refer_of_new hr]
    exact hs.ask (Or.inr ⟨hr, rfl⟩) hl hlt (subset_cons_self _ _) (Or.inl mem_cons_self)
  | some r =>
    cases ha : r.ptr with
    | none =>
      rw [refer_of_waiting hr ha]
      refine hs.ask (Or.inl ?_) hl hlt (List.Subset.refl _) (hs.pending id r hr ha)
      rw [hr, ← ha]
    | some a =>
      rw [refer_of_recorded hr ha]
      exact hs.take hr ha hl hlt

/-- A reference is pushed on `pending` once. -/
theorem Keeps.refer (hid : id ∈ known) (t : T) (l : Addr) (s : State T) : Keeps known s (s.refer t id l) := by
  cases hr : s.refs id with
  | none =>
    rw [refer_of_new hr]
    constructor
    · intro i r a hi ha
      have hne : i ≠ id := by
        rintro rfl
        rw [hr] at hi
        cases hi
      exact (update_of_ne hne _ _).trans hi
    · exact subset_cons_self _ _
    · have hmem : id ∈ known.filter fun i => (s.refs i).isNone := by simp [hid, hr]
      have herase : (known.filter fun i => (update s.refs id (some (⟨t, none, [l]⟩ : Ref T)) i).isNone) =
          (known.filter fun i => (s.refs i).isNone).erase id := by
        ext i
        by_cases hi : i = id
        · simp [hi]
        · simp [hi]
      have hcard := Finset.card_erase_add_one hmem
      simp only [State.load, herase, length_cons]
      omega
  | some r =>
    cases ha : r.ptr with
    | none =>
      rw [refer_of_waiting hr ha]
      have hkeeps : Keeps known s (s.setRef id (⟨r.type, none, l :: r.patches⟩, s.mem)) := by
        refine Keeps.setRef (fun r' a hr' ha' => ?_) _
        obtain rfl := Option.some.inj (hr.symm.trans hr')
        rw [ha] at ha'
        cases ha'
      exact ⟨hkeeps.refs, subset_cons_self _ _, hkeeps.load⟩
    | some a =>
      rw [refer_of_recorded hr ha]
      exact ⟨fun _ _ _ h _ => h, subset_cons_self _ _, Nat.le_refl _⟩

end Elm.Serial
