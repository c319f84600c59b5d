import Elm.Xom.Events

/-!
# The attributes at `Factory::begin`

The objects of the attributes are shared by all the elements of a DTD element.  Each one is either set from the text
of the current element or reset before `begin` is called; the reset of a string attribute leaves its member `_set`.
-/

open Elm.Xom (Node)

namespace Elm.Dtd.Definition

open Option

variable {E A V R : Type} [DecidableEq A] {d : Definition E A V R} {s t u : Parser E A V R}

/-! ## Values -/

section Value

omit [DecidableEq A]

/-- The text of an attribute in the current element. -/
def text (d : Definition E A V R) (s : Parser E A V R) (a : A) : Option (List Char) :=
  s.cur.node.bind (·.getAttributeValue (d.attr a).name)

/-- Whether an attribute is an `Attribute<xom::String>`. -/
def isString (d : Definition E A V R) (a : A) : Bool :=
  match (d.attr a).kind with
  | .string _ => true
  | _ => false

/-- The value of an attribute is read in the text of the current element, or it is the initial one. -/
def HasValue (d : Definition E A V R) (s : Parser E A V R) (a : A) : Prop :=
  match (d.attr a).kind with
  | .abstract => True
  | .value init read => (s.attr a).value = (d.text s a).elim init fun text => (read init text).1
  | .string init => (s.attr a).text = (d.text s a).getD init
  | .id => (s.attr a).id = (d.text s a).getD []
  | .ref => (s.attr a).ref = (d.text s a).bind fun text => (s.map.lookup text).join

/-- `isSet` and the value of an attribute are those of the current element. -/
def Faithful (d : Definition E A V R) (s : Parser E A V R) (a : A) : Prop :=
  (s.attr a).set = (d.text s a).isSome ∧ d.HasValue s a

/-- The operator `>>` of the values: what it reads without failing does not depend on the value before. -/
def Overwrites (d : Definition E A V R) : Prop :=
  ∀ a init read, (d.attr a).kind = .value init read →
    ∀ v v' text, (read v text).2 = true → read v' text = read v text

theorem hasValue_congr {a : A} (hcur : t.cur = s.cur) (hmap : t.map = s.map) (hattr : t.attr a = s.attr a) :
    d.HasValue t a ↔ d.HasValue s a := by
  unfold HasValue text
  rw [hcur, hmap, hattr]

end Value

@[simp] theorem setAttr_attr_self (s : Parser E A V R) (a : A) (state : AttributeState V R) :
    (s.setAttr a state).attr a = state := by
  simp [Parser.setAttr]

theorem setAttr_attr_of_ne (s : Parser E A V R) {a a' : A} (h : a' ≠ a) (state : AttributeState V R) :
    (s.setAttr a state).attr a' = s.attr a' := by
  simp [Parser.setAttr, h]

/-- A text that is accepted is the value. -/
theorem process_spec (hreads : d.Overwrites) {a : A} {value : List Char} (htext : d.text s a = some value)
    (h : d.process s a value = .returned (true, t)) :
    (∀ a', a' ≠ a → t.attr a' = s.attr a') ∧ d.HasValue t a ∧ (t.attr a).set = (s.attr a).set := by
  have htext' : d.text t a = some value := by
    rw [text, (attributed_process h).cur]
    exact htext
  have hmap := (attributed_process h).map
  unfold HasValue
  rw [htext', hmap]
  unfold process at h
  cases hkind : (d.attr a).kind with
  | abstract =>
    simp only [hkind] at h
    cases h
    exact ⟨fun _ _ => rfl, trivial, rfl⟩
  | value init read =>
    simp only [hkind, Outcome.returned.injEq, Prod.mk.injEq] at h
    obtain ⟨haccepted, rfl⟩ := h
    refine ⟨fun a' hne => setAttr_attr_of_ne s hne _, ?_, ?_⟩
    · -- the operator has read on the old value, the specification on the initial one
      simp only [setAttr_attr_self, elim_some]
      rw [hreads a init read hkind _ init value haccepted]
    · simp only [setAttr_attr_self]
  | string init =>
    simp only [hkind, Outcome.returned.injEq, Prod.mk.injEq, true_and] at h
    subst h
    refine ⟨fun a' hne => setAttr_attr_of_ne s hne _, ?_, ?_⟩ <;> simp only [setAttr_attr_self, getD_some]
  | id =>
    simp only [hkind] at h
    split at h
    · -- an identifier that is already in the map is not accepted
      split at h <;> cases h
    · cases h
      refine ⟨fun a' hne => setAttr_attr_of_ne s hne _, ?_, ?_⟩
      · simp only [Parser.addPost, setAttr_attr_self, getD_some]
      · simp only [Parser.addPost, setAttr_attr_self]
  | ref =>
    simp only [hkind] at h
    cases hlookup : s.map.lookup value with
    | some p =>
      simp only [hlookup] at h
      cases h
      refine ⟨fun a' hne => setAttr_attr_of_ne s hne _, ?_, ?_⟩
      · simp only [setAttr_attr_self, bind_some, hlookup, join_some]
      · simp only [setAttr_attr_self]
    | none =>
      simp only [hlookup] at h
      split at h
      · cases h
        refine ⟨fun a' hne => setAttr_attr_of_ne s hne _, ?_, ?_⟩
        · simp only [Parser.addPost, setAttr_attr_self, bind_some, hlookup, join_none]
        · simp only [Parser.addPost, setAttr_attr_self]
      · -- without a forward reference, an unknown name is not accepted
        split at h <;> cases h

/-- Without a text, an attribute has its initial value. -/
theorem reset_spec {a : A} (htext : d.text s a = none) :
    (∀ a', a' ≠ a → (d.reset s a).attr a' = s.attr a') ∧ d.HasValue (d.reset s a) a ∧
      ((d.reset s a).attr a).set = (d.isString a && (s.attr a).set) := by
  have htext' : d.text (d.reset s a) a = none := htext
  refine ⟨fun a' hne => setAttr_attr_of_ne s hne _, ?_, ?_⟩
  · unfold HasValue
    rw [htext']
    cases hkind : (d.attr a).kind <;> simp [reset, hkind]
  · unfold isString
    cases hkind : (d.attr a).kind <;> simp [reset, hkind]

/-- An attribute that is accepted has its value; only a string attribute without text keeps `_set`. -/
theorem parseAttribute_spec (hreads : d.Overwrites) {a : A} (h : d.parseAttribute s a = .returned (true, t)) :
    (∀ a', a' ≠ a → t.attr a' = s.attr a') ∧ d.HasValue t a ∧
      (t.attr a).set = ((d.text s a).isSome || (d.isString a && (s.attr a).set)) := by
  rw [parseAttribute, show s.cur.node.bind _ = d.text s a from rfl] at h
  cases htext : d.text s a with
  | some value =>
    rw [htext] at h
    have htext' : d.text (s.setAttr a { s.attr a with set := true }) a = some value := htext
    obtain ⟨hframe, hvalue, hset⟩ := process_spec hreads htext' h
    refine ⟨fun a' hne => (hframe a' hne).trans (setAttr_attr_of_ne s hne _), hvalue, ?_⟩
    rw [hset, setAttr_attr_self]
    rfl
  | none =>
    rw [htext] at h
    have ht : d.reset s a = t := (Prod.mk.inj (Outcome.returned.inj h)).2
    rw [← ht, isSome_none, Bool.false_or]
    exact reset_spec htext

/-- The attributes of an element. -/
theorem parseAttributes_spec (hreads : d.Overwrites) {as : List A} (has : as.Nodup)
    (h : d.parseAttributes as s = .returned (true, t)) :
    (∀ a, a ∉ as → t.attr a = s.attr a) ∧ ∀ a ∈ as, d.HasValue t a ∧
      (t.attr a).set = ((d.text s a).isSome || (d.isString a && (s.attr a).set)) := by
  induction as generalizing s with
  | nil =>
    cases h
    exact ⟨fun _ _ => rfl, fun a ha => absurd ha List.not_mem_nil⟩
  | cons a as ih =>
    rw [List.nodup_cons] at has
    obtain ⟨⟨accepted, s₁⟩, hattr, h⟩ := Outcome.bind_eq_returned_iff.mp h
    cases accepted with
    | false => cases h
    | true =>
      obtain ⟨hframe, hvalue, hset⟩ := parseAttribute_spec hreads hattr
      obtain ⟨hrest, hall⟩ := ih has.2 h
      have hattributed := attributed_parseAttribute hattr
      have hlater := attributed_parseAttributes h
      refine ⟨fun a' hne => ?_, fun a' ha => ?_⟩
      · rw [List.mem_cons, not_or] at hne
        exact (hrest a' hne.2).trans (hframe a' hne.1)
      · by_cases heq : a' = a
        · -- the attributes that follow leave it
          subst heq
          have hsame := hrest a' has.1
          exact ⟨(hasValue_congr hlater.cur hlater.map hsame).mpr hvalue, by rw [hsame, hset]⟩
        · obtain ⟨hvalue', hset'⟩ := hall a' ((List.mem_cons.mp ha).resolve_left heq)
          refine ⟨hvalue', ?_⟩
          rw [hset', hframe a' heq, text, hattributed.cur]
          rfl

/-! ## The calls of `begin` -/

/-- While a content is parsed from `s`, `begin` is called for the element `e` in the state `t`; its attributes have
been parsed from the state `u`. -/
inductive BeginAt (d : Definition E A V R) :
    Content E → Parser E A V R → E → Parser E A V R → Parser E A V R → Prop
  | here {e s t} (hat : d.At s e) (hattrs : d.parseAttributes (d.element e).attrs s = .returned (true, t)) :
      BeginAt d (.element e) s e s t
  | inside {e e' s t u v} (hat : d.At s e) (hattrs : d.parseAttributes (d.element e).attrs s = .returned (true, t))
      (h : BeginAt d (d.element e).content (d.begin t e) e' u v) : BeginAt d (.element e) s e' u v
  | optional {con s e u t} (hended : s.ended = false) (h : BeginAt d con s e u t) : BeginAt d (.optional con) s e u t
  | alt_first {con1 con2 s e u t} (h : BeginAt d con1 s e u t) : BeginAt d (.alt con1 con2) s e u t
  | alt_second {con1 con2 s s' e u t} (hcon1 : d.Parses con1 s false s') (h : BeginAt d con2 s' e u t) :
      BeginAt d (.alt con1 con2) s e u t
  | seq_first {con1 con2 s e u t} (hended : s.ended = false) (h : BeginAt d con1 s e u t) :
      BeginAt d (.seq con1 con2) s e u t
  | seq_second {con1 con2 s s' e u t} (hended : s.ended = false) (hcon1 : d.Parses con1 s true s')
      (h : BeginAt d con2 s' e u t) : BeginAt d (.seq con1 con2) s e u t
  | repeat_first {con s e u t} (hended : s.ended = false) (h : BeginAt d con s e u t) :
      BeginAt d (.repeat con) s e u t
  | repeat_next {con s s' e u t} (hended : s.ended = false) (hcon : d.Parses con s true s')
      (h : BeginAt d (.repeat con) s' e u t) : BeginAt d (.repeat con) s e u t

/-- At a call of `begin`, the attributes of the element are set exactly if the current element has them and have its
values, if and only if no string attribute that it does not have is still set. -/
theorem begin_faithful_iff (hreads : d.Overwrites) {con : Content E} {e : E} (h : d.BeginAt con s e u t) :
    (∀ a ∈ (d.element e).attrs, d.Faithful t a) ↔
      ∀ a ∈ (d.element e).attrs, d.isString a → d.text u a = none → (u.attr a).set = false := by
  -- wherever the call is, the attributes have just been parsed
  have hstep : d.parseAttributes (d.element e).attrs u = .returned (true, t) := by
    induction h with
    | here _ hattrs => exact hattrs
    | inside _ _ _ ih | optional _ _ ih | alt_first _ ih | alt_second _ _ ih | seq_first _ _ ih | seq_second _ _ _ ih
    | repeat_first _ _ ih | repeat_next _ _ _ ih => exact ih
  obtain ⟨-, hall⟩ := parseAttributes_spec hreads (d.nodup_attrs e) hstep
  have htext : ∀ a, d.text t a = d.text u a := by
    intro a
    rw [text, text, (attributed_parseAttributes hstep).cur]
  apply forall₂_congr
  intro a ha
  obtain ⟨hvalue, hset⟩ := hall a ha
  rw [Faithful, hset, htext, and_iff_left hvalue]
  cases d.text u a with
  | some value => simp
  | none =>
    rw [isSome_none, Bool.false_or, Bool.and_eq_false_imp]
    simp

/-- The DTD element `true`, of name `r`, contains elements `false`, of name `a`, which have a string attribute `x`. -/
def strings : Definition Bool Unit Unit Unit where
  element e := if e then ⟨['r'], [], .repeat (.element false)⟩ else ⟨['a'], [()], .empty⟩
  attr _ := ⟨false, ['x'], false, false, false, .string ['?']⟩
  factory := ⟨fun _ _ => none, fun _ _ => none⟩
  crop := true
  element_of_mem := by decide
  nodup_attrs := by decide

/-- Before the content of `<r><a x="1"/><a/></r>`. -/
def inStrings : Parser Bool Unit Unit Unit where
  cur := ⟨0, true, some (.element ['a'] [(['x'], ['1'])] [])⟩
  stack := [⟨0, true, some (.element ['r'] [] [.element ['a'] [(['x'], ['1'])] [], .element ['a'] [] []])⟩]
  map := ∅
  patches := ∅
  posts := []
  lastError := none
  attr _ := ⟨false, (), [], [], false, none⟩
  calls := []

theorem begin_faithful_iff_first :
    ∃ t, strings.BeginAt (.repeat (.element false)) inStrings false inStrings t ∧
      ((∀ a ∈ (strings.element false).attrs, strings.Faithful t a) ↔
        ∀ a ∈ (strings.element false).attrs, strings.isString a → strings.text inStrings a = none →
          (inStrings.attr a).set = false) := by
  have hbegin : strings.BeginAt (.repeat (.element false)) inStrings false inStrings _ :=
    .repeat_first rfl (.here ⟨_, _, rfl⟩ rfl)
  refine ⟨_, hbegin, begin_faithful_iff ?_ hbegin⟩
  intro a init read hkind
  cases hkind

/-- At the second element, which does not have the attribute, it is set. -/
theorem not_faithful_second :
    ∃ u t, strings.BeginAt (.repeat (.element false)) inStrings false u t ∧ strings.text t () = none ∧
      ¬strings.Faithful t () := by
  have hfirst : strings.parse 3 (.element false) inStrings = .returned (true, _) := rfl
  refine ⟨_, _, .repeat_next rfl (parses_of_parse hfirst) (.repeat_first rfl (.here ⟨_, _, rfl⟩ rfl)), rfl, ?_⟩
  rintro ⟨hset, -⟩
  cases hset

end Elm.Dtd.Definition
