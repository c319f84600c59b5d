import Mathlib.Data.ENat.Basic
import Elm.Xom.Attributes
import Elm.Xom.Steps

/-!
# What a failed element leaves

An identifier or a forward reference is postponed by the attributes of an element and is recorded by the next
`begin`, before the content of the element is known.  What is recorded is never taken back, so that a failed
element leaves no trace exactly when neither its attributes nor those of the elements in its content are postponed.
-/

open Elm.Xom (Node)

namespace Elm.Dtd

open Function List

namespace Parser

variable {E A V R : Type} {s t u : Parser E A V R}

/-- The identifier map, the pending patches and the postponed attributes are the same. -/
structure Traceless (s t : Parser E A V R) : Prop where
  map : t.map = s.map
  patches : t.patches = s.patches
  posts : t.posts = s.posts

theorem Traceless.refl (s : Parser E A V R) : Traceless s s := ⟨rfl, rfl, rfl⟩

theorem Traceless.trans (h : Traceless s t) (h' : Traceless t u) : Traceless s u :=
  ⟨h'.map.trans h.map, h'.patches.trans h.patches, h'.posts.trans h.posts⟩

/-- What is recorded of an identifier: the number of its pending patches, and more when it is in the map. -/
def recorded (s : Parser E A V R) (id : List Char) : ℕ∞ :=
  if (s.map.lookup id).isSome then ⊤ else ((s.patches.lookup id).getD []).length

theorem recorded_congr (hmap : t.map = s.map) (hpatches : t.patches = s.patches) : t.recorded = s.recorded := by
  unfold recorded
  rw [hmap, hpatches]

theorem Traceless.recorded (h : Traceless s t) : t.recorded = s.recorded := recorded_congr h.map h.patches

theorem recorded_of_none {id : List Char} (h : s.map.lookup id = none) :
    s.recorded id = ((s.patches.lookup id).getD []).length := by
  rw [recorded, h]
  rfl

theorem recorded_of_some {id : List Char} {p : Option R} (h : s.map.lookup id = some p) : s.recorded id = ⊤ := by
  rw [recorded, h]
  rfl

theorem recorded_ne_top {id : List Char} (h : s.map.lookup id = none) : s.recorded id ≠ ⊤ := by
  rw [recorded_of_none h]
  exact ENat.natCast_ne_top _

end Parser

open Elm.Dtd.Parser

namespace Definition

variable {E A V R : Type} {d : Definition E A V R} {s t t' u v : Parser E A V R}

/-! ## Positions -/

theorem traceless_setNode (s : Parser E A V R) : Traceless s (d.setNode s) := by
  rw [(setNode_eq s).1]
  exact ⟨rfl, rfl, rfl⟩

theorem traceless_next (s : Parser E A V R) : Traceless s (d.next s) := by
  have h : Traceless _ (d.next s) := traceless_setNode _
  exact ⟨h.map, h.patches, h.posts⟩

theorem traceless_backtrack (s : Parser E A V R) (m : Nat) : Traceless s (d.backtrack s m) := by
  have h : Traceless _ (d.backtrack s m) := traceless_setNode _
  exact ⟨h.map, h.patches, h.posts⟩

theorem traceless_endElement (s : Parser E A V R) (success : Bool) : Traceless s (d.endElement s success) := by
  unfold endElement
  split
  · exact .refl s
  · rename_i context stack _
    cases success with
    | true =>
      have h := traceless_next (d := d)
        { s with cur := context, stack := stack, calls := s.calls ++ [.endElement s.cur.elt] }
      exact ⟨h.map, h.patches, h.posts⟩
    | false => exact ⟨rfl, rfl, rfl⟩

theorem traceless_parseEmpty {m n : Nat} {b : Bool} (h : d.parseEmpty m n s = .returned (b, t)) :
    Traceless s t := by
  induction n generalizing s with
  | zero => cases h
  | succ n ih =>
    cases hnode : s.cur.node with
    | none =>
      rw [parseEmpty_ended hnode] at h
      cases h
      exact .refl _
    | some node =>
      rw [parseEmpty_node hnode] at h
      split at h
      · cases h
        exact traceless_backtrack s m
      · exact (traceless_next s).trans (ih h)

theorem traceless_parseAll {any : Bool} {n : Nat} {b : Bool} (h : d.parseAll any n s = .returned (b, t)) :
    Traceless s t := by
  induction n generalizing s with
  | zero => cases h
  | succ n ih =>
    cases hnode : s.cur.node with
    | none =>
      rw [parseAll_ended hnode] at h
      cases h
      exact .refl _
    | some node =>
      rw [parseAll_node hnode] at h
      have hcall : Traceless s (if any then s.call (.getAny node) else s) := by
        cases any <;> exact ⟨rfl, rfl, rfl⟩
      exact (hcall.trans (traceless_next _)).trans (ih h)

theorem traceless_parsePCDATA (s : Parser E A V R) : Traceless s (d.parsePCDATA s).2 := by
  unfold parsePCDATA
  split
  · exact ⟨rfl, rfl, rfl⟩
  · rename_i text _
    have h := traceless_next (d := d) (s.call (.getPCDATA text))
    exact ⟨h.map, h.patches, h.posts⟩
  · exact .refl s

/-! ## What is recorded -/

theorem foldl_patch (p : Option R) (bs : List (Backpatch A R)) (s : Parser E A V R) :
    Traceless s (bs.foldl (fun s b => s.call (.patch b.attr b.object p)) s) ∧
      (bs.foldl (fun s b => s.call (.patch b.attr b.object p)) s).attr = s.attr := by
  induction bs generalizing s with
  | nil => exact ⟨.refl s, rfl⟩
  | cons b bs ih =>
    obtain ⟨hrest, hattr⟩ := ih (s.call (.patch b.attr b.object p))
    exact ⟨⟨hrest.map, hrest.patches, hrest.posts⟩, hattr⟩

/-- An identifier that is put in the map. -/
theorem recorded_insert {id : List Char} {p : Option R} (hmap : t.map = s.map.insert id p)
    (hpatches : ∀ x, x ≠ id → t.patches.lookup x = s.patches.lookup x) :
    t.recorded = update s.recorded id ⊤ := by
  ext x
  by_cases hx : x = id
  · rw [hx, update_self]
    apply recorded_of_some (p := p)
    rw [hmap, AList.lookup_insert]
  · rw [update_of_ne hx, recorded, recorded, hmap, AList.lookup_insert_ne hx, hpatches x hx]

theorem recorded_recordID (s : Parser E A V R) (id : List Char) (e : E) :
    (d.recordID s id e).recorded = update s.recorded id ⊤ := by
  unfold recordID
  dsimp only
  split
  · exact recorded_insert rfl fun _ _ => rfl
  · rename_i bs _
    -- the patches of the identifier are handled
    apply recorded_insert (p := d.factory.getRef s e)
    · exact (foldl_patch _ bs _).1.map
    · intro x hx
      rw [AList.lookup_erase_ne hx]
      exact congrArg (AList.lookup x) (foldl_patch _ bs _).1.patches

/-- A patch that is put before the others of an identifier. -/
theorem recorded_recordPatch (s : Parser E A V R) (id : List Char) (a : A) :
    (d.recordPatch s id a).recorded = update s.recorded id (s.recorded id + 1) := by
  ext x
  by_cases hx : x = id
  · subst hx
    rw [update_self]
    have hmap : (d.recordPatch s x a).map.lookup x = s.map.lookup x := rfl
    cases hlookup : s.map.lookup x with
    | some p => rw [recorded_of_some hlookup, recorded_of_some (hmap.trans hlookup), top_add]
    | none =>
      rw [recorded_of_none hlookup, recorded_of_none (hmap.trans hlookup), recordPatch, AList.lookup_insert]
      exact Nat.cast_succ _
  · have hpatches : (d.recordPatch s id a).patches.lookup x = s.patches.lookup x := AList.lookup_insert_ne hx
    rw [update_of_ne hx, recorded, recorded, hpatches]
    rfl

/-- Whether an attribute is an identifier or a forward reference. -/
def Records (d : Definition E A V R) (a : A) : Prop :=
  (d.attr a).kind = .id ∨ (d.attr a).kind = .ref ∧ (d.attr a).forward = true

theorem postprocess_attr (s : Parser E A V R) (a : A) : (d.postprocess s a).attr = s.attr := by
  unfold postprocess
  split
  · unfold recordID
    dsimp only
    split
    · rfl
    · exact (foldl_patch _ _ _).2
  · rfl
  · rfl

theorem recorded_le_postprocess (s : Parser E A V R) (a : A) : s.recorded ≤ (d.postprocess s a).recorded := by
  unfold postprocess
  split
  · rw [recorded_recordID]
    exact le_update_self_iff.mpr le_top
  · rw [recorded_recordPatch]
    exact le_update_self_iff.mpr le_self_add
  · exact le_rfl

/-- An identifier that is not in the map is recorded, or a patch for it. -/
theorem recorded_lt_postprocess {a : A} (ha : d.Records a) (hid : s.map.lookup (s.attr a).id = none) :
    s.recorded < (d.postprocess s a).recorded := by
  unfold postprocess
  rcases ha with hkind | ⟨hkind, -⟩
  · rw [hkind]
    dsimp only
    rw [recorded_recordID]
    exact lt_update_self_iff.mpr (recorded_ne_top hid).lt_top
  · rw [hkind]
    dsimp only
    rw [recorded_recordPatch]
    exact lt_update_self_iff.mpr ((ENat.lt_add_one_iff (recorded_ne_top hid)).mpr le_rfl)

theorem foldl_postprocess_attr (as : List A) (s : Parser E A V R) : (as.foldl d.postprocess s).attr = s.attr := by
  induction as generalizing s with
  | nil => rfl
  | cons a as ih => exact (ih _).trans (postprocess_attr s a)

theorem recorded_le_foldl (as : List A) (s : Parser E A V R) :
    s.recorded ≤ (as.foldl d.postprocess s).recorded := by
  induction as generalizing s with
  | nil => exact le_rfl
  | cons a as ih => exact (recorded_le_postprocess s a).trans (ih _)

/-- A postponed attribute whose identifier was not in the map is recorded with the others. -/
theorem recorded_lt_foldl {as : List A} {a : A} (hmem : a ∈ as) (ha : d.Records a)
    (hid : s.map.lookup (s.attr a).id = none) : s.recorded < (as.foldl d.postprocess s).recorded := by
  obtain ⟨before, after, rfl⟩ := append_of_mem hmem
  rw [foldl_append, foldl_cons]
  have hbefore := recorded_le_foldl (d := d) before s
  have hattr := foldl_postprocess_attr (d := d) before s
  apply lt_of_lt_of_le _ (recorded_le_foldl after _)
  -- the attributes before it may have recorded the identifier
  cases hlookup : (before.foldl d.postprocess s).map.lookup (s.attr a).id with
  | none =>
    rw [← hattr] at hlookup
    exact lt_of_le_of_lt hbefore (recorded_lt_postprocess ha hlookup)
  | some p =>
    apply lt_of_lt_of_le _ (recorded_le_postprocess _ a)
    refine lt_of_le_not_ge hbefore fun hle => recorded_ne_top hid ?_
    rw [← top_le_iff, ← recorded_of_some hlookup]
    exact hle _

theorem begin_posts (s : Parser E A V R) (e : E) : (d.begin s e).posts = [] := (traceless_setNode _).posts

/-- `begin` handles the postponed attributes. -/
theorem begin_recorded (s : Parser E A V R) (e : E) :
    (d.begin s e).map = (s.posts.foldl d.postprocess (s.call (.begin e))).map ∧
      (d.begin s e).patches = (s.posts.foldl d.postprocess (s.call (.begin e))).patches ∧
      (d.begin s e).recorded = (s.posts.foldl d.postprocess (s.call (.begin e))).recorded := by
  have h : Traceless _ (d.begin s e) := traceless_setNode _
  exact ⟨h.map, h.patches, h.recorded⟩

theorem recorded_le_begin (s : Parser E A V R) (e : E) : s.recorded ≤ (d.begin s e).recorded := by
  rw [(begin_recorded s e).2.2]
  exact recorded_le_foldl s.posts (s.call (.begin e))

theorem recorded_lt_begin {e : E} {a : A} (hmem : a ∈ s.posts) (ha : d.Records a)
    (hid : s.map.lookup (s.attr a).id = none) : s.recorded < (d.begin s e).recorded := by
  rw [(begin_recorded s e).2.2]
  exact recorded_lt_foldl (s := s.call (.begin e)) hmem ha hid

theorem traceless_begin {e : E} (h : s.posts = []) : Traceless s (d.begin s e) := by
  obtain ⟨hmap, hpatches, -⟩ := begin_recorded (d := d) s e
  rw [h] at hmap hpatches
  exact ⟨hmap, hpatches, (begin_posts s e).trans h.symm⟩

/-! ## The attributes -/

variable [DecidableEq A]

omit [DecidableEq A] in
/-- `process` accepts an attribute and postpones it to `begin`. -/
def Postpones (d : Definition E A V R) (s : Parser E A V R) (a : A) : Prop :=
  d.Records a ∧ ∃ value, d.text s a = some value ∧ s.map.lookup value = none

theorem process_attr {a a' : A} {value : List Char} {b : Bool} (h : d.process s a value = .returned (b, t))
    (hne : a' ≠ a) : t.attr a' = s.attr a' := by
  unfold process at h
  split at h
  · cases h
    rfl
  · cases h
    exact setAttr_attr_of_ne s hne _
  · cases h
    exact setAttr_attr_of_ne s hne _
  · split at h
    · split at h <;> cases h
      rfl
    · cases h
      exact setAttr_attr_of_ne s hne _
  · split at h
    · cases h
      exact setAttr_attr_of_ne s hne _
    · dsimp only at h
      split at h
      · cases h
        exact setAttr_attr_of_ne s hne _
      · split at h <;> cases h
        exact setAttr_attr_of_ne s hne _

theorem parseAttribute_attr {a a' : A} {b : Bool} (h : d.parseAttribute s a = .returned (b, t)) (hne : a' ≠ a) :
    t.attr a' = s.attr a' := by
  unfold parseAttribute at h
  split at h
  · exact (process_attr h hne).trans (setAttr_attr_of_ne s hne _)
  · cases h
    exact setAttr_attr_of_ne s hne _

/-- The attributes that are not parsed stay. -/
theorem parseAttributes_attr {as : List A} {a' : A} {b : Bool} (h : d.parseAttributes as s = .returned (b, t))
    (hmem : a' ∉ as) : t.attr a' = s.attr a' := by
  induction as generalizing s with
  | nil =>
    cases h
    rfl
  | cons a as ih =>
    rw [mem_cons, not_or] at hmem
    obtain ⟨⟨accepted, s₁⟩, hattr, h⟩ := Outcome.bind_eq_returned_iff.mp h
    have hfirst := parseAttribute_attr hattr hmem.1
    cases accepted with
    | true => exact (ih h hmem.2).trans hfirst
    | false =>
      cases h
      exact hfirst

/-- An attribute that is postponed is accepted, with its identifier. -/
theorem parseAttribute_of_postpones {a : A} {b : Bool} (h : d.parseAttribute s a = .returned (b, t))
    (ha : d.Postpones s a) : b = true ∧ a ∈ t.posts ∧ s.map.lookup (t.attr a).id = none := by
  obtain ⟨hrecords, value, htext, hlookup⟩ := ha
  rw [parseAttribute, show s.cur.node.bind _ = d.text s a from rfl, htext] at h
  dsimp only at h
  have hlookup' : ∀ state, (s.setAttr a state).map.lookup value = none := fun _ => hlookup
  unfold process at h
  rcases hrecords with hkind | ⟨hkind, hforward⟩
  · rw [hkind] at h
    dsimp only at h
    rw [hlookup', Option.isSome_none, if_neg (by decide)] at h
    cases h
    refine ⟨rfl, mem_append_right _ (mem_singleton_self a), ?_⟩
    rw [Parser.addPost, setAttr_attr_self]
    exact hlookup
  · rw [hkind] at h
    dsimp only at h
    rw [hlookup'] at h
    dsimp only at h
    rw [if_pos hforward] at h
    cases h
    refine ⟨rfl, mem_append_right _ (mem_singleton_self a), ?_⟩
    rw [Parser.addPost, setAttr_attr_self]
    exact hlookup

theorem parseAttribute_of_not_postpones {a : A} {b : Bool} (h : d.parseAttribute s a = .returned (b, t))
    (ha : ¬d.Postpones s a) : t.posts = s.posts := by
  rw [parseAttribute, show s.cur.node.bind _ = d.text s a from rfl] at h
  cases htext : d.text s a with
  | none =>
    rw [htext] at h
    cases h
    rfl
  | some value =>
    rw [htext] at h
    dsimp only at h
    unfold process at h
    cases hkind : (d.attr a).kind with
    | abstract | value | string =>
      rw [hkind] at h
      cases h
      rfl
    | id =>
      rw [hkind] at h
      dsimp only at h
      split at h
      · split at h <;> cases h
        rfl
      · rename_i hlookup
        exact absurd ⟨.inl hkind, value, htext, Option.not_isSome_iff_eq_none.mp hlookup⟩ ha
    | ref =>
      rw [hkind] at h
      dsimp only at h
      split at h
      · cases h
        rfl
      · rename_i hlookup
        split at h
        · rename_i hforward
          exact absurd ⟨.inr ⟨hkind, hforward⟩, value, htext, hlookup⟩ ha
        · split at h <;> cases h
          rfl

theorem parseAttributes_append {as : List A} (h : d.parseAttributes as s = .returned (true, t)) (as' : List A) :
    d.parseAttributes (as ++ as') s = d.parseAttributes as' t := by
  induction as generalizing s with
  | nil =>
    cases h
    rfl
  | cons a as ih =>
    obtain ⟨⟨accepted, s₁⟩, hattr, h⟩ := Outcome.bind_eq_returned_iff.mp h
    cases accepted with
    | true =>
      rw [cons_append, parseAttributes, hattr]
      exact ih h
    | false => cases h

/-- An attribute of the current element is postponed, if the element is one of the name of `e`. -/
def PostponesAt (d : Definition E A V R) (e : E) (s : Parser E A V R) : Prop :=
  d.At s e ∧ ∃ as a as' t, (d.element e).attrs = as ++ a :: as' ∧
    d.parseAttributes as s = .returned (true, t) ∧ d.Postpones t a

/-- Without a postponed attribute, the list stays. -/
theorem parseAttributes_of_not_postpones {as : List A} {b : Bool}
    (hnot : ∀ as₁ a as₂ u, as = as₁ ++ a :: as₂ → d.parseAttributes as₁ s = .returned (true, u) → ¬d.Postpones u a)
    (h : d.parseAttributes as s = .returned (b, t)) : t.posts = s.posts := by
  induction as generalizing s with
  | nil =>
    cases h
    rfl
  | cons a as ih =>
    obtain ⟨⟨accepted, s₁⟩, hattr, h⟩ := Outcome.bind_eq_returned_iff.mp h
    have hfirst := parseAttribute_of_not_postpones hattr (hnot [] a as s rfl rfl)
    cases accepted with
    | true =>
      refine (ih ?_ h).trans hfirst
      intro as₁ a' as₂ u has hbefore
      apply hnot (a :: as₁) a' as₂ u (by rw [has, cons_append])
      rw [parseAttributes, hattr]
      exact hbefore
    | false =>
      cases h
      exact hfirst

/-- A postponed attribute is in the list, and keeps its identifier up to `begin`. -/
theorem PostponesAt.posts {e : E} {b : Bool} (ha : d.PostponesAt e s)
    (h : d.parseAttributes (d.element e).attrs s = .returned (b, t)) :
    ∃ a ∈ t.posts, b = true → d.Records a ∧ t.map.lookup (t.attr a).id = none := by
  obtain ⟨-, as, a, as', u, has, hbefore, hpostpones⟩ := ha
  have hnodup := d.nodup_attrs e
  rw [has] at h hnodup
  have hnotMem : a ∉ as' := (nodup_cons.mp (nodup_append.mp hnodup).2.1).1
  rw [parseAttributes_append hbefore] at h
  obtain ⟨⟨accepted, v⟩, hattr, h⟩ := Outcome.bind_eq_returned_iff.mp h
  obtain ⟨rfl, hmem, hlookup⟩ := parseAttribute_of_postpones hattr hpostpones
  have hmap := (attributed_parseAttribute hattr).map
  have hrest := attributed_parseAttributes (s := v) h
  obtain ⟨posts, hposts⟩ := hrest.posts
  refine ⟨a, by rw [hposts]; exact mem_append_left _ hmem, fun _ => ⟨hpostpones.1, ?_⟩⟩
  rw [parseAttributes_attr (s := v) h hnotMem, hrest.map, hmap]
  exact hlookup

/-! ## The calls of `Element::parse` -/

/-- While a content is parsed from `s`, `parse` is called for the element `e` in the state `t`. -/
inductive CallAt (d : Definition E A V R) : Content E → Parser E A V R → E → Parser E A V R → Prop
  | here {e s} : CallAt d (.element e) s e s
  | inside {e e' s t u} (hat : d.At s e) (hattrs : d.parseAttributes (d.element e).attrs s = .returned (true, t))
      (h : CallAt d (d.element e).content (d.begin t e) e' u) : CallAt d (.element e) s e' u
  | optional {con s e t} (hended : s.ended = false) (h : CallAt d con s e t) : CallAt d (.optional con) s e t
  | alt_first {con1 con2 s e t} (h : CallAt d con1 s e t) : CallAt d (.alt con1 con2) s e t
  | alt_second {con1 con2 s s' e t} (hcon1 : d.Parses con1 s false s') (h : CallAt d con2 s' e t) :
      CallAt d (.alt con1 con2) s e t
  | seq_first {con1 con2 s e t} (hended : s.ended = false) (h : CallAt d con1 s e t) :
      CallAt d (.seq con1 con2) s e t
  | seq_second {con1 con2 s s' e t} (hended : s.ended = false) (hcon1 : d.Parses con1 s true s')
      (h : CallAt d con2 s' e t) : CallAt d (.seq con1 con2) s e t
  | repeat_first {con s e t} (hended : s.ended = false) (h : CallAt d con s e t) : CallAt d (.repeat con) s e t
  | repeat_next {con s s' e t} (hended : s.ended = false) (hcon : d.Parses con s true s')
      (h : CallAt d (.repeat con) s' e t) : CallAt d (.repeat con) s e t

/-- The element, or one that is parsed in its content, postpones an attribute. -/
def Registers (d : Definition E A V R) (e : E) (s : Parser E A V R) : Prop :=
  ∃ e' t, d.CallAt (.element e) s e' t ∧ d.PostponesAt e' t

theorem CallAt.trans {con : Content E} {e e' : E} (h : d.CallAt con s e t) (h' : d.CallAt (.element e) t e' u) :
    d.CallAt con s e' u := by
  induction h with
  | here => exact h'
  | inside hat hattrs _ ih => exact .inside hat hattrs (ih h')
  | optional hended _ ih => exact .optional hended (ih h')
  | alt_first _ ih => exact .alt_first (ih h')
  | alt_second hcon1 _ ih => exact .alt_second hcon1 (ih h')
  | seq_first hended _ ih => exact .seq_first hended (ih h')
  | seq_second hended hcon1 _ ih => exact .seq_second hended hcon1 (ih h')
  | repeat_first hended _ ih => exact .repeat_first hended (ih h')
  | repeat_next hended hcon _ ih => exact .repeat_next hended hcon (ih h')

/-! ## What grows -/

/-- What is recorded is never taken back. -/
theorem Parses.recorded_le {con : Content E} {b : Bool} (h : d.Parses con s b t) : s.recorded ≤ t.recorded := by
  induction h with
  | element_other | optional_ended | seq_ended | repeat_ended => exact le_rfl
  | element_rejected _ hattrs =>
    have hattr := attributed_parseAttributes hattrs
    exact (recorded_congr hattr.map hattr.patches).ge
  | @element_left e s t u b _ hattrs _ _ ih =>
    have hattr := attributed_parseAttributes hattrs
    have hend := (traceless_endElement (d := d) u.recordError false).recorded
    have hbegin := (recorded_le_begin (d := d) t e).trans ih
    rw [recorded_congr hattr.map hattr.patches] at hbegin
    exact hbegin.trans hend.ge
  | @element e s t u b _ hattrs _ _ ih =>
    have hattr := attributed_parseAttributes hattrs
    have hend := (traceless_endElement (d := d) u b).recorded
    have hbegin := (recorded_le_begin (d := d) t e).trans ih
    rw [recorded_congr hattr.map hattr.patches] at hbegin
    exact hbegin.trans hend.ge
  | optional _ _ ih | alt_first _ ih | repeat_stop _ _ ih => exact ih
  | alt_second _ _ ih1 ih2 | seq _ _ _ ih1 ih2 | repeat_next _ _ _ ih1 ih2 => exact ih1.trans ih2
  | seq_first _ _ ih => exact ih.trans (traceless_backtrack _ _).recorded.ge
  | seq_second _ _ _ ih1 ih2 => exact (ih1.trans ih2).trans (traceless_backtrack _ _).recorded.ge
  | empty hempty => exact (traceless_parseEmpty hempty).recorded.ge
  | ignored hall | any hall => exact (traceless_parseAll hall).recorded.ge
  | pcdata => exact (traceless_parsePCDATA _).recorded.ge

/-- A call that is made while a content is parsed returns, and what is recorded around it grows. -/
theorem CallAt.returns {con : Content E} {e : E} {b : Bool} (h : d.CallAt con s e u)
    (hparses : d.Parses con s b t) :
    s.recorded ≤ u.recorded ∧ ∃ b' v, d.Parses (.element e) u b' v ∧ v.recorded ≤ t.recorded := by
  induction h generalizing b t with
  | here => exact ⟨le_rfl, b, t, hparses, le_rfl⟩
  | @inside e e' s s₁ u hat hattrs _ ih =>
    have hattr := attributed_parseAttributes hattrs
    have hbegin := recorded_le_begin (d := d) s₁ e
    rw [recorded_congr hattr.map hattr.patches] at hbegin
    cases hparses with
    | element_other hnot => exact absurd hat hnot
    | element_rejected _ hattrs' =>
      rw [hattrs] at hattrs'
      cases hattrs'
    | @element_left _ _ t' w b _ hattrs' hcontent hended =>
      rw [hattrs] at hattrs'
      cases hattrs'
      obtain ⟨hfirst, b', v, hcall, hlast⟩ := ih hcontent
      have hend := (traceless_endElement (d := d) w.recordError false).recorded
      exact ⟨hbegin.trans hfirst, b', v, hcall, hlast.trans hend.ge⟩
    | @element _ _ t' w b _ hattrs' hcontent hended =>
      rw [hattrs] at hattrs'
      cases hattrs'
      obtain ⟨hfirst, b', v, hcall, hlast⟩ := ih hcontent
      have hend := (traceless_endElement (d := d) w b).recorded
      exact ⟨hbegin.trans hfirst, b', v, hcall, hlast.trans hend.ge⟩
  | optional hended _ ih =>
    cases hparses with
    | optional_ended hended' => exact absurd (hended'.symm.trans hended) (by decide)
    | optional _ hcon => exact ih hcon
  | alt_first _ ih =>
    cases hparses with
    | alt_first hcon1 => exact ih hcon1
    | alt_second hcon1 hcon2 =>
      obtain ⟨hfirst, b', v, hcall, hlast⟩ := ih hcon1
      exact ⟨hfirst, b', v, hcall, hlast.trans hcon2.recorded_le⟩
  | alt_second hcon1 _ ih =>
    cases hparses with
    | alt_first hcon1' => cases (hcon1.unique hcon1').1
    | alt_second hcon1' hcon2 =>
      obtain ⟨-, rfl⟩ := hcon1.unique hcon1'
      obtain ⟨hfirst, hmore⟩ := ih hcon2
      exact ⟨hcon1.recorded_le.trans hfirst, hmore⟩
  | seq_first hended _ ih =>
    cases hparses with
    | seq_ended hended' => exact absurd (hended'.symm.trans hended) (by decide)
    | seq_first _ hcon1 =>
      obtain ⟨hfirst, b', v, hcall, hlast⟩ := ih hcon1
      exact ⟨hfirst, b', v, hcall, hlast.trans (traceless_backtrack _ _).recorded.ge⟩
    | seq_second _ hcon1 hcon2 =>
      obtain ⟨hfirst, b', v, hcall, hlast⟩ := ih hcon1
      exact ⟨hfirst, b', v, hcall, (hlast.trans hcon2.recorded_le).trans (traceless_backtrack _ _).recorded.ge⟩
    | seq _ hcon1 hcon2 =>
      obtain ⟨hfirst, b', v, hcall, hlast⟩ := ih hcon1
      exact ⟨hfirst, b', v, hcall, hlast.trans hcon2.recorded_le⟩
  | seq_second hended hcon1 _ ih =>
    cases hparses with
    | seq_ended hended' => exact absurd (hended'.symm.trans hended) (by decide)
    | seq_first _ hcon1' => cases (hcon1.unique hcon1').1
    | seq_second _ hcon1' hcon2 =>
      obtain ⟨-, rfl⟩ := hcon1.unique hcon1'
      obtain ⟨hfirst, b', v, hcall, hlast⟩ := ih hcon2
      exact ⟨hcon1.recorded_le.trans hfirst, b', v, hcall, hlast.trans (traceless_backtrack _ _).recorded.ge⟩
    | seq _ hcon1' hcon2 =>
      obtain ⟨-, rfl⟩ := hcon1.unique hcon1'
      obtain ⟨hfirst, hmore⟩ := ih hcon2
      exact ⟨hcon1.recorded_le.trans hfirst, hmore⟩
  | repeat_first hended _ ih =>
    cases hparses with
    | repeat_ended hended' => exact absurd (hended'.symm.trans hended) (by decide)
    | repeat_stop _ hcon => exact ih hcon
    | repeat_next _ hcon hrepeat =>
      obtain ⟨hfirst, b', v, hcall, hlast⟩ := ih hcon
      exact ⟨hfirst, b', v, hcall, hlast.trans hrepeat.recorded_le⟩
  | repeat_next hended hcon _ ih =>
    cases hparses with
    | repeat_ended hended' => exact absurd (hended'.symm.trans hended) (by decide)
    | repeat_stop _ hcon' => cases (hcon.unique hcon').1
    | repeat_next _ hcon' hrepeat =>
      obtain ⟨-, rfl⟩ := hcon.unique hcon'
      obtain ⟨hfirst, hmore⟩ := ih hrepeat
      exact ⟨hcon.recorded_le.trans hfirst, hmore⟩

/-! ## The postponed attributes -/

/-- No call of `parse` that fails adds a postponed attribute to an empty list. -/
def Clears (d : Definition E A V R) (con : Content E) (s : Parser E A V R) : Prop :=
  ∀ e u v, d.CallAt con s e u → d.Parses (.element e) u false v → u.posts = [] → v.posts = []

/-- `begin` empties the list, so that only a failed element can leave an attribute in it. -/
theorem Parses.posts_nil {con : Content E} {b : Bool} (h : d.Parses con s b t) (hclears : d.Clears con s)
    (hposts : s.posts = []) : t.posts = [] := by
  induction h with
  | element_other | optional_ended | seq_ended | repeat_ended => exact hposts
  | element_rejected hat hattrs => exact hclears _ _ _ .here (.element_rejected hat hattrs) hposts
  | @element_left e s t u b hat hattrs _ _ ih =>
    rw [(traceless_endElement (d := d) u.recordError false).posts]
    exact ih (fun _ _ _ hcall => hclears _ _ _ (.inside hat hattrs hcall)) (begin_posts t e)
  | @element e s t u b hat hattrs _ _ ih =>
    rw [(traceless_endElement (d := d) u b).posts]
    exact ih (fun _ _ _ hcall => hclears _ _ _ (.inside hat hattrs hcall)) (begin_posts t e)
  | optional hended _ ih => exact ih (fun _ _ _ hcall => hclears _ _ _ (.optional hended hcall)) hposts
  | alt_first _ ih => exact ih (fun _ _ _ hcall => hclears _ _ _ (.alt_first hcall)) hposts
  | alt_second hcon1 _ ih1 ih2 =>
    have hfirst := ih1 (fun _ _ _ hcall => hclears _ _ _ (.alt_first hcall)) hposts
    exact ih2 (fun _ _ _ hcall => hclears _ _ _ (.alt_second hcon1 hcall)) hfirst
  | seq_first hended _ ih =>
    rw [(traceless_backtrack _ _).posts]
    exact ih (fun _ _ _ hcall => hclears _ _ _ (.seq_first hended hcall)) hposts
  | seq_second hended hcon1 _ ih1 ih2 =>
    rw [(traceless_backtrack _ _).posts]
    have hfirst := ih1 (fun _ _ _ hcall => hclears _ _ _ (.seq_first hended hcall)) hposts
    exact ih2 (fun _ _ _ hcall => hclears _ _ _ (.seq_second hended hcon1 hcall)) hfirst
  | seq hended hcon1 _ ih1 ih2 =>
    have hfirst := ih1 (fun _ _ _ hcall => hclears _ _ _ (.seq_first hended hcall)) hposts
    exact ih2 (fun _ _ _ hcall => hclears _ _ _ (.seq_second hended hcon1 hcall)) hfirst
  | repeat_stop hended _ ih => exact ih (fun _ _ _ hcall => hclears _ _ _ (.repeat_first hended hcall)) hposts
  | repeat_next hended hcon _ ih1 ih2 =>
    have hfirst := ih1 (fun _ _ _ hcall => hclears _ _ _ (.repeat_first hended hcall)) hposts
    exact ih2 (fun _ _ _ hcall => hclears _ _ _ (.repeat_next hended hcon hcall)) hfirst
  | empty hempty => exact (traceless_parseEmpty hempty).posts.trans hposts
  | ignored hall | any hall => exact (traceless_parseAll hall).posts.trans hposts
  | pcdata => exact (traceless_parsePCDATA _).posts.trans hposts

/-- At each call of `parse` the list is empty. -/
theorem CallAt.posts_nil {con : Content E} {e : E} (h : d.CallAt con s e t) (hclears : d.Clears con s)
    (hposts : s.posts = []) : t.posts = [] := by
  induction h with
  | here => exact hposts
  | inside hat hattrs _ ih =>
    exact ih (fun _ _ _ hcall => hclears _ _ _ (.inside hat hattrs hcall)) (begin_posts _ _)
  | optional hended _ ih => exact ih (fun _ _ _ hcall => hclears _ _ _ (.optional hended hcall)) hposts
  | alt_first _ ih => exact ih (fun _ _ _ hcall => hclears _ _ _ (.alt_first hcall)) hposts
  | alt_second hcon1 _ ih =>
    have hfirst := hcon1.posts_nil (fun _ _ _ hcall => hclears _ _ _ (.alt_first hcall)) hposts
    exact ih (fun _ _ _ hcall => hclears _ _ _ (.alt_second hcon1 hcall)) hfirst
  | seq_first hended _ ih => exact ih (fun _ _ _ hcall => hclears _ _ _ (.seq_first hended hcall)) hposts
  | seq_second hended hcon1 _ ih =>
    have hfirst := hcon1.posts_nil (fun _ _ _ hcall => hclears _ _ _ (.seq_first hended hcall)) hposts
    exact ih (fun _ _ _ hcall => hclears _ _ _ (.seq_second hended hcon1 hcall)) hfirst
  | repeat_first hended _ ih => exact ih (fun _ _ _ hcall => hclears _ _ _ (.repeat_first hended hcall)) hposts
  | repeat_next hended hcon _ ih =>
    have hfirst := hcon.posts_nil (fun _ _ _ hcall => hclears _ _ _ (.repeat_first hended hcall)) hposts
    exact ih (fun _ _ _ hcall => hclears _ _ _ (.repeat_next hended hcon hcall)) hfirst

/-- Without a postponed attribute, nothing is recorded. -/
theorem Parses.traceless {con : Content E} {b : Bool} (h : d.Parses con s b t)
    (hnot : ∀ e u, d.CallAt con s e u → ¬d.PostponesAt e u) (hposts : s.posts = []) : Traceless s t := by
  have hstays : ∀ {e : E} {s t : Parser E A V R} {b : Bool}, d.At s e → ¬d.PostponesAt e s →
      d.parseAttributes (d.element e).attrs s = .returned (b, t) → Traceless s t := by
    intro e s t b hat hnot hattrs
    have hattr := attributed_parseAttributes hattrs
    refine ⟨hattr.map, hattr.patches, parseAttributes_of_not_postpones ?_ hattrs⟩
    intro as a as' u has hbefore hpostpones
    exact hnot ⟨hat, as, a, as', u, has, hbefore, hpostpones⟩
  induction h with
  | element_other | optional_ended | seq_ended | repeat_ended => exact .refl _
  | element_rejected hat hattrs => exact hstays hat (hnot _ _ .here) hattrs
  | @element_left e s t u b hat hattrs _ _ ih =>
    have hattr := hstays hat (hnot _ _ .here) hattrs
    have hbegin := hattr.trans (traceless_begin (d := d) (e := e) (hattr.posts.trans hposts))
    have hcontent := ih (fun _ _ hcall => hnot _ _ (.inside hat hattrs hcall)) (begin_posts t e)
    have hend := (hbegin.trans hcontent).trans (u := u.recordError) ⟨rfl, rfl, rfl⟩
    exact hend.trans (traceless_endElement _ false)
  | @element e s t u b hat hattrs _ _ ih =>
    have hattr := hstays hat (hnot _ _ .here) hattrs
    have hbegin := hattr.trans (traceless_begin (d := d) (e := e) (hattr.posts.trans hposts))
    have hcontent := ih (fun _ _ hcall => hnot _ _ (.inside hat hattrs hcall)) (begin_posts t e)
    exact (hbegin.trans hcontent).trans (traceless_endElement _ b)
  | optional hended _ ih => exact ih (fun _ _ hcall => hnot _ _ (.optional hended hcall)) hposts
  | alt_first _ ih => exact ih (fun _ _ hcall => hnot _ _ (.alt_first hcall)) hposts
  | alt_second hcon1 _ ih1 ih2 =>
    have hfirst := ih1 (fun _ _ hcall => hnot _ _ (.alt_first hcall)) hposts
    exact hfirst.trans (ih2 (fun _ _ hcall => hnot _ _ (.alt_second hcon1 hcall)) (hfirst.posts.trans hposts))
  | seq_first hended _ ih =>
    exact (ih (fun _ _ hcall => hnot _ _ (.seq_first hended hcall)) hposts).trans (traceless_backtrack _ _)
  | seq_second hended hcon1 _ ih1 ih2 =>
    have hfirst := ih1 (fun _ _ hcall => hnot _ _ (.seq_first hended hcall)) hposts
    have hsecond := ih2 (fun _ _ hcall => hnot _ _ (.seq_second hended hcon1 hcall)) (hfirst.posts.trans hposts)
    exact (hfirst.trans hsecond).trans (traceless_backtrack _ _)
  | seq hended hcon1 _ ih1 ih2 =>
    have hfirst := ih1 (fun _ _ hcall => hnot _ _ (.seq_first hended hcall)) hposts
    exact hfirst.trans
      (ih2 (fun _ _ hcall => hnot _ _ (.seq_second hended hcon1 hcall)) (hfirst.posts.trans hposts))
  | repeat_stop hended _ ih => exact ih (fun _ _ hcall => hnot _ _ (.repeat_first hended hcall)) hposts
  | repeat_next hended hcon _ ih1 ih2 =>
    have hfirst := ih1 (fun _ _ hcall => hnot _ _ (.repeat_first hended hcall)) hposts
    exact hfirst.trans
      (ih2 (fun _ _ hcall => hnot _ _ (.repeat_next hended hcon hcall)) (hfirst.posts.trans hposts))
  | empty hempty => exact traceless_parseEmpty hempty
  | ignored hall | any hall => exact traceless_parseAll hall
  | pcdata => exact traceless_parsePCDATA _

/-- When no element that fails leaves a trace, none of them has postponed an attribute. -/
theorem not_registers {e : E} (h : d.Parses (.element e) u false v) (hposts : u.posts = [])
    (hall : ∀ e' u' v', d.CallAt (.element e) u e' u' → d.Parses (.element e') u' false v' → Traceless u' v') :
    ¬d.Registers e u := by
  rintro ⟨e', u', hcall, hpostpones⟩
  have hclears : d.Clears (.element e) u := fun _ _ _ hcall' hparses hnil =>
    (hall _ _ _ hcall' hparses).posts.trans hnil
  have hposts' := hcall.posts_nil hclears hposts
  obtain ⟨hfirst, b, w, hparses, hlast⟩ := hcall.returns h
  -- the element is opened with the attribute in the list, or it is rejected and leaves it there
  have hopened : ∀ t, d.parseAttributes (d.element e').attrs u' = .returned (true, t) →
      u'.recorded < (d.begin t e').recorded := by
    intro t hattrs
    obtain ⟨a, hmem, hkeeps⟩ := hpostpones.posts hattrs
    obtain ⟨hrecords, hlookup⟩ := hkeeps rfl
    have hattr := attributed_parseAttributes hattrs
    rw [← recorded_congr hattr.map hattr.patches]
    exact recorded_lt_begin hmem hrecords hlookup
  have hgrows : u'.recorded < w.recorded := by
    cases hparses with
    | element_other hnot => exact absurd hpostpones.1 hnot
    | element_rejected hat hattrs =>
      obtain ⟨a, hmem, -⟩ := hpostpones.posts hattrs
      have htrace := (hall _ _ _ hcall (.element_rejected hat hattrs)).posts.trans hposts'
      rw [htrace] at hmem
      cases hmem
    | @element_left _ _ t x b _ hattrs hcontent _ =>
      have hend := (traceless_endElement (d := d) x.recordError false).recorded
      exact ((hopened t hattrs).trans_le hcontent.recorded_le).trans_le hend.ge
    | @element _ _ t x b _ hattrs hcontent _ =>
      have hend := (traceless_endElement (d := d) x b).recorded
      exact ((hopened t hattrs).trans_le hcontent.recorded_le).trans_le hend.ge
  have hsame := (hall _ _ _ .here h).recorded
  exact ((hfirst.trans_lt hgrows).trans_le hlast).ne hsame.symm

/-! ## Documents -/

theorem foldl_reset_posts (as : List A) (s : Parser E A V R) : (as.foldl d.reset s).posts = s.posts := by
  induction as generalizing s with
  | nil => rfl
  | cons a as ih => exact ih (d.reset s a)

theorem resetContent_posts {n : Nat} {con : Content E} (h : d.resetContent n con s = .returned t) :
    t.posts = s.posts := by
  induction n generalizing con s t with
  | zero => cases h
  | succ n ih =>
    cases con with
    | element e => exact (ih h).trans (foldl_reset_posts _ _)
    | optional con | «repeat» con => exact ih h
    | alt con1 con2 | seq con1 con2 =>
      obtain ⟨u, hcon1, hcon2⟩ := Outcome.bind_eq_returned_iff.mp h
      exact (ih hcon2).trans (ih hcon1)
    | empty | ignored | pcdata | any =>
      cases h
      rfl

/-- While a document is parsed, every element that fails leaves no trace, if and only if none of those that fail
has postponed an attribute, of its own or of an element in its content. -/
theorem failed_traceless_iff {n : Nat} {root : E} {xelt : Node}
    (hreset : d.resetContent n (.element root) { s with patches := ∅, posts := [] } = .returned t')
    (ht : t = { t' with cur := ⟨0, root, some xelt⟩, lastError := some xelt }) :
    (∀ e u v, d.CallAt (.element root) t e u → (∃ m, d.parse m (.element e) u = .returned (false, v)) →
        Traceless u v) ↔
      ∀ e u v, d.CallAt (.element root) t e u → (∃ m, d.parse m (.element e) u = .returned (false, v)) →
        ¬d.Registers e u := by
  have hposts : t.posts = [] := by
    rw [ht]
    exact resetContent_posts hreset
  simp only [← parses_iff]
  constructor
  · intro hall e u v hcall hparses hregisters
    have hclears : d.Clears (.element root) t := fun _ _ _ hcall' hparses' hnil =>
      (hall _ _ _ hcall' hparses').posts.trans hnil
    apply not_registers hparses (hcall.posts_nil hclears hposts) _ hregisters
    intro e' u' v' hcall'
    exact hall e' u' v' (hcall.trans hcall')
  · intro hall e u v hcall hparses
    have hquiet : ∀ {e u v}, d.CallAt (.element root) t e u → d.Parses (.element e) u false v → u.posts = [] →
        Traceless u v := by
      intro e u v hcall hparses hnil
      apply hparses.traceless _ hnil
      intro e' u' hcall' hpostpones
      exact hall e u v hcall hparses ⟨e', u', hcall', hpostpones⟩
    have hclears : d.Clears (.element root) t := fun _ _ _ hcall' hparses' hnil =>
      (hquiet hcall' hparses' hnil).posts.trans hnil
    exact hquiet hcall hparses (hcall.posts_nil hclears hposts)

/-- Two DTD elements of name `a` are the alternatives of the root. -/
inductive Choice
  | root
  | first
  | second

/-- The elements of name `a` have an identifier `x`; the first one is empty. -/
def alternatives : Definition Choice Bool Unit Unit where
  element
    | .root => ⟨['r'], [], .alt (.element .first) (.element .second)⟩
    | .first => ⟨['a'], [false], .empty⟩
    | .second => ⟨['a'], [true], .any⟩
  attr a := ⟨if a then .second else .first, ['x'], false, false, false, .id⟩
  factory := ⟨fun _ _ => none, fun _ _ => none⟩
  crop := true
  element_of_mem e a ha := by
    cases e <;> cases ha <;> first | rfl | contradiction
  nodup_attrs e := by
    cases e <;> decide

/-- The element `<r><a x="1"><b/></a></r>`. -/
def identified : Node := .element ['r'] [] [.element ['a'] [(['x'], ['1'])] [.element ['b'] [] []]]

/-- The parser that `Element::parse` creates. -/
def created : Parser Choice Bool Unit Unit :=
  ⟨⟨0, .root, none⟩, [], ∅, ∅, [], none, fun _ => ⟨false, (), [], [], false, none⟩, []⟩

theorem failed_traceless_iff_identified :
    ∃ s t, alternatives.resetContent 9 (.element .root) created = .returned s ∧
      t = { s with cur := ⟨0, .root, some identified⟩, lastError := some identified } ∧
      ((∀ e u v, alternatives.CallAt (.element .root) t e u →
          (∃ m, alternatives.parse m (.element e) u = .returned (false, v)) → Traceless u v) ↔
        ∀ e u v, alternatives.CallAt (.element .root) t e u →
          (∃ m, alternatives.parse m (.element e) u = .returned (false, v)) → ¬alternatives.Registers e u) :=
  ⟨_, _, rfl, rfl, failed_traceless_iff (n := 9) (s := created) rfl rfl⟩

/-- The first alternative fails on its child.  Its identifier stays in the map, so that the second one, which is
recognized in the state before, is rejected. -/
theorem not_failed_traceless :
    ∃ s t u v, alternatives.resetContent 9 (.element .root) created = .returned s ∧
      t = { s with cur := ⟨0, .root, some identified⟩, lastError := some identified } ∧
      alternatives.CallAt (.element .root) t .first u ∧
      alternatives.parse 4 (.element .first) u = .returned (false, v) ∧ ¬Traceless u v ∧
      (∃ w, alternatives.parse 4 (.element .second) u = .returned (true, w)) ∧
      ∃ w, alternatives.parse 4 (.element .second) v = .returned (false, w) := by
  refine ⟨_, _, _, _, rfl, rfl, .inside ⟨_, _, rfl⟩ rfl (.alt_first .here), rfl, fun h => ?_, ⟨_, rfl⟩, ⟨_, rfl⟩⟩
  have hlookup := congrArg (AList.lookup ['1']) h.map
  cases hlookup

end Definition

end Elm.Dtd
