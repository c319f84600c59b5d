import Elm.Json.SaverText

/-!
# The calls of the saver

The state and the stack of the saver follow the arrays and the objects that are open, and what it has
printed is their text.  When the saver ends, its text is the value of the calls.
-/

namespace Elm.Json

open Io Document List Option

abbrev OpenFrame := Document.Frame (List Char) Scalar

/-! ## The text of the open frames -/

/-- The text of a name, up to its value. -/
def NameText (name kp : List Char) : Prop :=
  ∀ {d : Value} {p : List Char}, Whole d p → FieldText (name, d) (kp ++ p)

inductive FrameText : OpenFrame → List Char → Prop
  | array {items : List Value} {t : List Char} (h : Listed Whole items t) :
      FrameText (.array items) ('[' :: t)
  | object {fields : List (List Char × Value)} {t : List Char} (h : Listed FieldText fields t) :
      FrameText (.object fields) ('{' :: t)
  | field {fields : List (List Char × Value)} {name t kp : List Char} (h : Listed FieldText fields t)
      (hname : NameText name kp) : FrameText (.field fields name) ('{' :: (t ++ comma fields ++ kp))

/-- The comma before a value. -/
def separator : List OpenFrame → List Char
  | .array items :: _ => comma items
  | _ => []

inductive FramesText : List OpenFrame → List Char → Prop
  | nil : FramesText [] []
  | cons {f : OpenFrame} {fs : List OpenFrame} {t b u : List Char} (h : FramesText fs t)
      (hadmits : admits fs) (hb : AllBlank b) (hf : FrameText f u) :
      FramesText (f :: fs) (t ++ separator fs ++ b ++ u)

def ContextText : Context (List Char) Scalar → List Char → Prop
  | .within fs, t => FramesText fs t
  | .done d, t => Whole d t

/-- A value after the open frames. -/
theorem FramesText.plug {fs : List OpenFrame} {t p : List Char} (h : FramesText fs t)
    (hadmits : admits fs) {d : Value} (hp : Whole d p) :
    ∃ c, Document.plug d fs = some c ∧ ContextText c (t ++ separator fs ++ p) := by
  cases h with
  | nil => exact ⟨_, rfl, hp⟩
  | @cons f fs t b u h hadmits' hb hf =>
    cases hf with
    | array hitems =>
      refine ⟨_, rfl, ?_⟩
      have hframe := FramesText.cons h hadmits' hb (.array (.snoc hitems hp))
      change FramesText _ _
      simpa [separator] using hframe
    | object hfields => cases hadmits
    | field hfields hname =>
      refine ⟨_, rfl, ?_⟩
      have hframe := FramesText.cons h hadmits' hb (.object (.snoc hfields (hname hp)))
      change FramesText _ _
      simpa [separator] using hframe

/-- The end of an array. -/
theorem FramesText.endArray {items : List Value} {fs : List OpenFrame} {t b : List Char}
    (h : FramesText (.array items :: fs) t) (hb : AllBlank b) :
    admits fs ∧ ∃ c, Document.plug (.array items) fs = some c ∧ ContextText c (t ++ b ++ [']']) := by
  cases h with
  | @cons _ _ t b' u h hadmits hb' hf =>
    cases hf with
    | @array _ u hitems =>
      have hwhole : Whole (.array items) (b' ++ '[' :: (u ++ b ++ [']'])) := by
        intro rest _
        have hend := hitems.array hb rest
        have harray := derives_append hb' (.array (.nil _) hend)
        simpa using harray
      obtain ⟨c, hplug, htext⟩ := h.plug hadmits hwhole
      exact ⟨hadmits, c, hplug, by simpa using htext⟩

/-- The end of an object. -/
theorem FramesText.endObject {fields : List (List Char × Value)} {fs : List OpenFrame} {t b : List Char}
    (h : FramesText (.object fields :: fs) t) (hb : AllBlank b) :
    admits fs ∧ ∃ c, Document.plug (.object fields) fs = some c ∧ ContextText c (t ++ b ++ ['}']) := by
  cases h with
  | @cons _ _ t b' u h hadmits hb' hf =>
    cases hf with
    | @object _ u hfields =>
      have hwhole : Whole (.object fields) (b' ++ '{' :: (u ++ b ++ ['}'])) := by
        intro rest _
        have hend := hfields.object hb rest
        have hobject := derives_append hb' (.object (.nil _) hend)
        simpa using hobject
      obtain ⟨c, hplug, htext⟩ := h.plug hadmits hwhole
      exact ⟨hadmits, c, hplug, by simpa using htext⟩

/-- A name in an object. -/
theorem FramesText.name {fields : List (List Char × Value)} {fs : List OpenFrame} {t kp name : List Char}
    (h : FramesText (.object fields :: fs) t) (hname : NameText name kp) :
    FramesText (.field fields name :: fs) (t ++ comma fields ++ kp) := by
  cases h with
  | @cons _ _ t b u h hadmits hb hf =>
    cases hf with
    | @object _ u hfields =>
      have hframe := FramesText.cons h hadmits hb (.field hfields hname)
      simpa using hframe

/-! ## The state of the saver -/

/-- The state for the open frames. -/
def stateOf : List OpenFrame → SaverState
  | [] => .BEGIN
  | .array [] :: _ => .ARRAY
  | .array (_ :: _) :: _ => .IN_ARRAY
  | .object [] :: _ => .OBJECT
  | .object (_ :: _) :: _ => .IN_OBJECT
  | .field _ _ :: _ => .FIELD

/-- What a name saves on the stack: the state of its object. -/
def nameSaves : OpenFrame → List SaverState
  | .field fields _ => [stateOf [.object fields]]
  | _ => []

/-- What an array or an object saves on the stack: the state of the array around it. -/
def saves : List OpenFrame → List SaverState
  | .array items :: _ => [stateOf [.array items]]
  | _ => []

/-- The stack for the open frames. -/
def stackOf : List OpenFrame → List SaverState
  | [] => []
  | f :: fs => nameSaves f ++ saves fs ++ stackOf fs

/-- The saver has printed the text of the context and is in its state. -/
inductive Tracks : Context (List Char) Scalar → Saver → Prop
  | within {fs : List OpenFrame} {s : Saver} (hindent : AllBlank s.indent) (hstate : s.state = stateOf fs)
      (hstack : s.stack = stackOf fs) (htext : FramesText fs s.out) : Tracks (.within fs) s
  | done {d : Value} {s : Saver} (hindent : AllBlank s.indent) (hstate : s.state = .END)
      (htext : Whole d s.out) : Tracks (.done d) s

theorem Tracks.indent {c : Context (List Char) Scalar} {s : Saver} (h : Tracks c s) : AllBlank s.indent := by
  cases h with
  | within hindent _ _ _ => exact hindent
  | done hindent _ _ => exact hindent

theorem stateOf_ne_END (fs : List OpenFrame) : stateOf fs ≠ .END := by
  unfold stateOf
  split <;> simp

/-- The frames of a saver that is not ended. -/
theorem Tracks.frames {c : Context (List Char) Scalar} {s : Saver} (h : Tracks c s) (hstate : s.state ≠ .END) :
    ∃ fs, c = .within fs ∧ s.state = stateOf fs ∧ s.stack = stackOf fs ∧ FramesText fs s.out := by
  cases h with
  | @within fs _ _ hstate hstack htext => exact ⟨fs, rfl, hstate, hstack, htext⟩
  | done _ hend _ => exact absurd hend hstate

theorem isObject_stateOf {fs : List OpenFrame} (h : Saver.isObject (stateOf fs)) :
    ∃ fields gs, fs = .object fields :: gs := by
  unfold stateOf at h
  split at h <;> first | exact ⟨_, _, rfl⟩ | simp [Saver.isObject] at h

theorem isArray_stateOf {fs : List OpenFrame} (h : Saver.isArray (stateOf fs)) :
    ∃ items gs, fs = .array items :: gs := by
  unfold stateOf at h
  split at h <;> first | exact ⟨_, _, rfl⟩ | simp [Saver.isArray] at h

theorem admits_of_stateOf {fs : List OpenFrame} (h : ¬ Saver.isObject (stateOf fs)) : admits fs := by
  unfold admits
  split
  · rename_i fields gs
    cases fields <;> exact absurd rfl h
  · rfl

/-! ## `doIndent` -/

/-- The comma that `doIndent` prints. -/
def leadComma (state : SaverState) : List Char :=
  if state = .IN_ARRAY ∨ state = .IN_OBJECT then [','] else []

theorem leadComma_stateOf {fs : List OpenFrame} (h : admits fs) : leadComma (stateOf fs) = separator fs := by
  match fs with
  | [] => rfl
  | .array [] :: _ => rfl
  | .array (_ :: _) :: _ => rfl
  | .object _ :: _ => cases h
  | .field _ _ :: _ => rfl

theorem leadComma_object (fields : List (List Char × Value)) (fs : List OpenFrame) :
    leadComma (stateOf (.object fields :: fs)) = comma fields := by
  cases fields <;> rfl

theorem allBlank_flatten (n : Nat) {indent : List Char} (h : AllBlank indent) :
    AllBlank ('\n' :: (replicate n indent).flatten) := by
  intro c hc
  rcases mem_cons.mp hc with rfl | hc
  · exact Or.inl rfl
  · obtain ⟨l, hl, hc⟩ := mem_flatten.mp hc
    rw [eq_of_mem_replicate hl] at hc
    exact h c hc

theorem print_nil (s : Saver) : s.print [] = s := by
  rw [Saver.print, append_nil]

theorem print_print (s : Saver) (text text' : List Char) :
    (s.print text).print text' = s.print (text ++ text') := by
  rw [Saver.print, Saver.print, Saver.print, append_assoc]

/-- The new line of the readable mode. -/
theorem newLine_eq {s : Saver} (h : AllBlank s.indent) :
    ∃ b, AllBlank b ∧ (if s.readable ∧ s.state ≠ .FIELD then
      s.print ('\n' :: (replicate s.stack.length s.indent).flatten) else s) = s.print b := by
  split_ifs
  · exact ⟨_, allBlank_flatten _ h, rfl⟩
  · exact ⟨[], by simp [AllBlank], (print_nil s).symm⟩

theorem doIndent_close {s : Saver} (h : AllBlank s.indent) :
    ∃ b, AllBlank b ∧ s.doIndent true = s.print b := by
  unfold Saver.doIndent
  simp only [not_true_eq_false, false_and, if_false]
  exact newLine_eq h

theorem doIndent_open {s : Saver} (h : AllBlank s.indent) :
    ∃ b, AllBlank b ∧ s.doIndent false = s.print (leadComma s.state ++ b) := by
  have hcomma : (if ¬ false = true ∧ (s.state = .IN_ARRAY ∨ s.state = .IN_OBJECT) then s.print [','] else s) =
      s.print (leadComma s.state) := by
    unfold leadComma
    by_cases hstate : s.state = .IN_ARRAY ∨ s.state = .IN_OBJECT
    · rw [if_pos hstate, if_pos ⟨by simp, hstate⟩]
    · rw [if_neg hstate, if_neg (fun h => hstate h.2), print_nil]
  unfold Saver.doIndent
  simp only [hcomma]
  have hindent : AllBlank (s.print (leadComma s.state)).indent := h
  obtain ⟨b, hb, hnew⟩ := newLine_eq hindent
  exact ⟨b, hb, hnew.trans (print_print s _ b)⟩

/-! ## What the calls say -/

/-- What the characters of a string stand for. -/
def saidText (str : List UInt8) : List Char := ((Utf8.chars str).getD []).flatMap said

/-- The value that `put` or `write` prints. -/
def Operand.said : Operand → Scalar
  | .null => .null
  | .bool val => .bool val
  | .char c => .string (Json.said (Saver.charCode c))
  | .string str => .string (saidText str)
  | .int _ x _ => .int x

/-- There is an operator that prints the value: the output has none for `long long`. -/
def Operand.Printable : Operand → Prop
  | .int t _ _ => t ≠ .longLong ∧ t ≠ .ulongLong
  | _ => True

namespace Saver

/-- The event of a call. -/
def Op.said : Op → Event (List Char) Scalar
  | .beginMap => .beginObject
  | .endMap => .endObject
  | .beginList => .beginArray
  | .endList => .endArray
  | .key id => .field (saidText id)
  | .write v => .leaf v.said

def Op.Printable : Op → Prop
  | .write v => v.Printable
  | _ => True

end Saver

/-! ## The calls -/

section Calls

variable {s s' : Saver} {fs : List OpenFrame}

/-- The state and the stack after a value. -/
theorem stateOf_plug {d : Value} (hadmits : admits fs) {c : Context (List Char) Scalar}
    (hplug : Document.plug d fs = some c) :
    (fs = [] ∧ c = .done d) ∨ ∃ gs, c = .within gs ∧
      ((∃ items hs, fs = .array items :: hs ∧ stateOf gs = .IN_ARRAY ∧ stackOf gs = stackOf fs) ∨
        ∃ fields name hs, fs = .field fields name :: hs ∧ stateOf gs = .IN_OBJECT ∧
          stackOf fs = stateOf [.object fields] :: stackOf gs) := by
  match fs with
  | [] =>
    cases hplug
    exact Or.inl ⟨rfl, rfl⟩
  | .array items :: hs =>
    cases hplug
    refine Or.inr ⟨_, rfl, Or.inl ⟨items, hs, rfl, ?_, rfl⟩⟩
    cases items <;> rfl
  | .object fields :: hs => cases hadmits
  | .field fields name :: hs =>
    cases hplug
    refine Or.inr ⟨_, rfl, Or.inr ⟨fields, name, hs, rfl, ?_, rfl⟩⟩
    cases fields <;> rfl

theorem next_object (fields : List (List Char × Value)) :
    Saver.next (stateOf [.object fields]) = .IN_OBJECT := by
  cases fields <;> rfl

theorem next_array (items : List Value) (gs : List OpenFrame) :
    Saver.next (stateOf (.array items :: gs)) = .IN_ARRAY := by
  cases items <;> rfl

/-- The state that the end of an array or of an object takes from the stack. -/
theorem pop_plug {d : Value} (hadmits : admits fs) {c : Context (List Char) Scalar}
    (hplug : Document.plug d fs = some c) {state : SaverState} {stack : List SaverState}
    (hstack : saves fs ++ stackOf fs = state :: stack) :
    ∃ gs, c = .within gs ∧ Saver.next state = stateOf gs ∧ stack = stackOf gs := by
  rcases stateOf_plug hadmits hplug with ⟨rfl, -⟩ | ⟨gs, rfl, ⟨items, hs, rfl, hstate, heq⟩ |
    ⟨fields, name, hs, rfl, hstate, heq⟩⟩
  · cases hstack
  · obtain ⟨rfl, rfl⟩ := List.cons.inj hstack
    exact ⟨gs, rfl, by rw [hstate]; exact next_array items [], heq.symm⟩
  · have hsaved : stateOf [.object fields] :: stackOf gs = state :: stack := heq.symm.trans hstack
    obtain ⟨rfl, rfl⟩ := List.cons.inj hsaved
    exact ⟨gs, rfl, by rw [hstate, next_object], rfl⟩

theorem nil_of_saves (hadmits : admits fs) (h : saves fs ++ stackOf fs = []) : fs = [] := by
  match fs with
  | [] => rfl
  | .array _ :: _ => cases h
  | .object _ :: _ => cases hadmits
  | .field _ _ :: _ => cases h

/-- An array or an object that starts saves the state of the array around it. -/
theorem stack_push (hadmits : admits fs) (hstate : s.state = stateOf fs) (hstack : s.stack = stackOf fs)
    {p : Prop} [Decidable p] (hp : p ↔ Saver.isArray s.state) :
    (if p then s.push s.state else s).stack = saves fs ++ stackOf fs := by
  match fs with
  | [] =>
    rw [if_neg (by rw [hp, hstate]; exact Bool.false_ne_true), hstack]
    rfl
  | .array items :: hs =>
    have harray : Saver.isArray s.state := by
      rw [hstate]
      cases items <;> rfl
    rw [if_pos (hp.mpr harray), Saver.push, hstack, hstate]
    cases items <;> rfl
  | .object fields :: hs => cases hadmits
  | .field fields name :: hs =>
    rw [if_neg (by rw [hp, hstate]; exact Bool.false_ne_true), hstack]
    rfl

theorem tracks_begin {f : OpenFrame} (hindent : AllBlank s.indent) (hadmits : admits fs)
    (hstate : s.state = stateOf fs) (hstack : s.stack = stackOf fs) (hname : nameSaves f = [])
    (htext : FramesText (f :: fs) s.out) {p : Prop} [Decidable p] (hp : p ↔ Saver.isArray s.state) :
    Tracks (.within (f :: fs)) { (if p then s.push s.state else s) with state := stateOf (f :: fs) } := by
  have hkept : (if p then s.push s.state else s).indent = s.indent ∧
      (if p then s.push s.state else s).out = s.out := by
    split_ifs <;> exact ⟨rfl, rfl⟩
  refine .within ?_ rfl ?_ ?_
  · simp only [hkept.1]
    exact hindent
  · simp only [stack_push hadmits hstate hstack hp, stackOf, hname, nil_append]
  · simp only [hkept.2]
    exact htext

/-- The text of a frame that starts. -/
theorem framesText_begin (h : FramesText fs s.out) (hadmits : admits fs) (hstate : s.state = stateOf fs)
    {b : List Char} (hb : AllBlank b) {f : OpenFrame} {u : List Char} (hf : FrameText f u) :
    FramesText (f :: fs) ((s.print (leadComma s.state ++ b)).print u).out := by
  have hframe := FramesText.cons h hadmits hb hf
  rw [← leadComma_stateOf hadmits, ← hstate] at hframe
  simpa [Saver.print] using hframe

theorem tracks_beginMap {c : Context (List Char) Scalar} (h : Tracks c s) (hcall : s.beginMap = some s') :
    ∃ c', c.push .beginObject = some c' ∧ Tracks c' s' := by
  unfold Saver.beginMap at hcall
  split_ifs at hcall with hguard
  obtain ⟨fs, rfl, hstate, hstack, htext⟩ := h.frames hguard.1
  have hadmits : admits fs := admits_of_stateOf (hstate ▸ hguard.2)
  obtain ⟨b, hb, hopen⟩ := doIndent_open h.indent
  have hobject := framesText_begin htext hadmits hstate hb (.object .nil)
  refine ⟨.within (.object [] :: fs), by simp [Context.push, hadmits], ?_⟩
  simp only [hopen] at hcall
  cases hcall
  exact tracks_begin (s := (s.print (leadComma s.state ++ b)).print ['{']) h.indent hadmits hstate hstack rfl
    hobject Iff.rfl

theorem admits_of_guard (hstate : s.state = stateOf fs)
    (hguard : s.state = .FIELD ∨ Saver.isArray s.state) : admits fs := by
  refine admits_of_stateOf ?_
  rw [← hstate]
  rcases hguard with hfield | harray
  · rw [hfield]
    decide
  · intro hobject
    revert harray hobject
    cases s.state <;> decide

theorem tracks_beginList {c : Context (List Char) Scalar} (h : Tracks c s)
    (hcall : s.beginList = some s') : ∃ c', c.push .beginArray = some c' ∧ Tracks c' s' := by
  unfold Saver.beginList at hcall
  split_ifs at hcall with hguard
  obtain ⟨fs, rfl, hstate, hstack, htext⟩ := h.frames hguard.1
  have hadmits : admits fs := admits_of_guard hstate hguard.2
  obtain ⟨b, hb, hopen⟩ := doIndent_open h.indent
  have harray := framesText_begin htext hadmits hstate hb (.array .nil)
  refine ⟨.within (.array [] :: fs), by simp [Context.push, hadmits], ?_⟩
  simp only [hopen] at hcall
  cases hcall
  refine tracks_begin (s := (s.print (leadComma s.state ++ b)).print ['[']) h.indent hadmits hstate hstack
    rfl harray ?_
  -- the state is the one of a name or of an array
  change s.state ≠ .FIELD ↔ Saver.isArray s.state
  rcases hguard.2 with hfield | harray
  · rw [hfield]
    decide
  · constructor
    · exact fun _ => harray
    · rintro - hfield
      rw [hfield] at harray
      cases harray

/-- What a closing call takes from the stack. -/
theorem tracks_close {d : Value} {c' : Context (List Char) Scalar} {state : SaverState}
    {stack : List SaverState} (hindent : AllBlank s.indent) (hadmits : admits fs)
    (hplug : Document.plug d fs = some c') (hstack : saves fs ++ stackOf fs = state :: stack)
    (hs : s.stack = stack) (hstate : s.state = Saver.next state) (htext : ContextText c' s.out) :
    Tracks c' s := by
  obtain ⟨gs, rfl, hnext, hgs⟩ := pop_plug hadmits hplug hstack
  exact .within hindent (hstate.trans hnext) (hs.trans hgs) htext

theorem tracks_endMap {c : Context (List Char) Scalar} (h : Tracks c s) (hcall : s.endMap = some s') :
    ∃ c', c.push .endObject = some c' ∧ Tracks c' s' := by
  unfold Saver.endMap at hcall
  split_ifs at hcall with hguard hempty
  all_goals
    obtain ⟨fs, rfl, hstate, hstack, htext⟩ := h.frames (by rintro heq; rw [heq] at hguard; cases hguard)
    rw [hstate] at hguard
    obtain ⟨fields, gs, rfl⟩ := isObject_stateOf hguard
    have hsaved : s.stack = saves gs ++ stackOf gs := hstack
  · -- the object is the whole value
    obtain ⟨b, hb, hclose⟩ := doIndent_close (s := { s with state := .END }) h.indent
    obtain ⟨hadmits, c', hplug, htext'⟩ := htext.endObject hb
    obtain rfl := nil_of_saves hadmits (hsaved.symm.trans hempty)
    cases hplug
    refine ⟨_, rfl, ?_⟩
    simp only [bind_eq_bind, bind_some, hclose] at hcall
    cases hcall
    exact .done h.indent rfl htext'
  · cases hpop : s.stack with
    | nil => exact absurd hpop hempty
    | cons state stack =>
      obtain ⟨b, hb, hclose⟩ :=
        doIndent_close (s := { s with state := Saver.next state, stack := stack }) h.indent
      obtain ⟨hadmits, c', hplug, htext'⟩ := htext.endObject hb
      refine ⟨c', hplug, ?_⟩
      simp only [Saver.pop, hpop, bind_eq_bind, bind_some, hclose] at hcall
      cases hcall
      exact tracks_close h.indent hadmits hplug (hsaved.symm.trans hpop) rfl rfl htext'

theorem tracks_endList {c : Context (List Char) Scalar} (h : Tracks c s) (hcall : s.endList = some s') :
    ∃ c', c.push .endArray = some c' ∧ Tracks c' s' := by
  unfold Saver.endList at hcall
  split_ifs at hcall with hguard
  obtain ⟨fs, rfl, hstate, hstack, htext⟩ := h.frames (by rintro heq; rw [heq] at hguard; cases hguard)
  rw [hstate] at hguard
  obtain ⟨items, gs, rfl⟩ := isArray_stateOf hguard
  have hsaved : s.stack = saves gs ++ stackOf gs := hstack
  cases hpop : s.stack with
  | nil =>
    simp only [Saver.pop, hpop] at hcall
    cases hcall
  | cons state stack =>
    obtain ⟨b, hb, hclose⟩ := doIndent_close (s := { s with state := .ARRAY, stack := stack }) h.indent
    obtain ⟨hadmits, c', hplug, htext'⟩ := htext.endArray hb
    refine ⟨c', hplug, ?_⟩
    simp only [Saver.pop, hpop, bind_eq_bind, bind_some, hclose] at hcall
    cases hcall
    exact tracks_close h.indent hadmits hplug (hsaved.symm.trans hpop) rfl rfl htext'

/-- What `key` prints is the text of a name. -/
theorem nameText_quote {b space : List Char} (hb : AllBlank b) (hspace : AllBlank space) (codes : List Nat) :
    NameText (codes.flatMap said) (b ++ Saver.quote codes ++ ':' :: space) := by
  intro d p hp rest hends
  refine ⟨_, _, space ++ (p ++ rest), ?_, quoted_quote codes (':' :: (space ++ (p ++ rest))), .nil _,
    derives_append hspace (hp rest hends)⟩
  have hblanks : Blanks standard.comment (b ++ (Saver.quote codes ++ ':' :: (space ++ (p ++ rest))))
      (Saver.quote codes ++ ':' :: (space ++ (p ++ rest))) := blanks_of_allBlank hb _
  simpa using hblanks

theorem tracks_key {c : Context (List Char) Scalar} {id : List UInt8} (h : Tracks c s)
    (hcall : s.key id = some s') : ∃ c', c.push (.field (saidText id)) = some c' ∧ Tracks c' s' := by
  unfold Saver.key at hcall
  split_ifs at hcall with hguard
  obtain ⟨fs, rfl, hstate, hstack, htext⟩ := h.frames (by rintro heq; rw [heq] at hguard; cases hguard)
  rw [hstate] at hguard
  obtain ⟨fields, gs, rfl⟩ := isObject_stateOf hguard
  cases hcodes : Utf8.chars id with
  | none =>
    rw [hcodes] at hcall
    cases hcall
  | some codes =>
    obtain ⟨b, hb, hopen⟩ := doIndent_open h.indent
    rw [hcodes] at hcall
    simp only [bind_eq_bind, bind_some, hopen] at hcall
    cases hcall
    refine ⟨_, rfl, ?_⟩
    have hsaid : saidText id = codes.flatMap said := by rw [saidText, hcodes]; rfl
    have hcolon : ∃ space, AllBlank space ∧
        (if s.readable then [':', ' '] else [':'] : List Char) = ':' :: space := by
      split_ifs
      · exact ⟨[' '], by simp [AllBlank, IsBlank], rfl⟩
      · exact ⟨[], by simp [AllBlank], rfl⟩
    obtain ⟨space, hspace, hprint⟩ := hcolon
    have hname := htext.name (nameText_quote hb hspace codes)
    rw [← leadComma_object fields gs, ← hstate, ← hsaid] at hname
    refine .within h.indent rfl ?_ ?_
    · change s.state :: s.stack = stackOf (.field fields (saidText id) :: gs)
      rw [hstate, hstack]
      cases fields <;> rfl
    · change FramesText _ (s.out ++ (leadComma s.state ++ b) ++ Saver.quote codes ++
        (if s.readable then [':', ' '] else [':']))
      rw [hprint]
      simpa using hname

/-- A value that `putText` or `write` prints. -/
theorem whole_leaf {b text : List Char} (hb : AllBlank b) {x : Scalar}
    (hx : ∀ rest, EndsNumber rest → Spells standard x (text ++ rest) rest) :
    Whole (.leaf x) (b ++ text) := by
  intro rest hends
  rw [append_assoc]
  exact .scalar (blanks_of_allBlank hb _) (hx rest hends)

/-- The state and the stack after `put` and `write`. -/
theorem putNext_spec {d : Value} {c' : Context (List Char) Scalar} (hstate : s.state = stateOf fs)
    (hstack : s.stack = stackOf fs) (hguard : s.state = .FIELD ∨ Saver.isArray s.state)
    (hplug : Document.plug d fs = some c') (hadmits : admits fs) {t : Saver} (ht : t.state = s.state)
    (hts : t.stack = s.stack) (hindent : AllBlank t.indent) (htext : ContextText c' t.out)
    (hcall : t.putNext = some s') : Tracks c' s' := by
  unfold Saver.putNext at hcall
  rcases stateOf_plug hadmits hplug with ⟨rfl, -⟩ | ⟨gs, rfl, ⟨items, hs, rfl, hnext, heq⟩ |
    ⟨fields, name, hs, rfl, hnext, heq⟩⟩
  · rw [hstate] at hguard
    rcases hguard with hguard | hguard <;> cases hguard
  · have hfield : t.state ≠ .FIELD := by
      rw [ht, hstate]
      cases items <;> simp [stateOf]
    rw [if_neg hfield] at hcall
    cases hcall
    refine .within hindent ?_ (hts.trans (hstack.trans heq.symm)) htext
    simp only [ht, hstate, hnext]
    exact next_array items hs
  · have hfield : t.state = .FIELD := ht.trans hstate
    rw [if_pos hfield, Saver.pop, hts, hstack, heq] at hcall
    cases hcall
    refine .within hindent ?_ rfl htext
    simp only [hnext]
    exact next_object fields

theorem tracks_putText {c : Context (List Char) Scalar} {text : List Char} {x : Scalar} (h : Tracks c s)
    (hx : ∀ rest, EndsNumber rest → Spells standard x (text ++ rest) rest)
    (hcall : s.putText text = some s') : ∃ c', c.push (.leaf x) = some c' ∧ Tracks c' s' := by
  unfold Saver.putText at hcall
  split_ifs at hcall with hguard
  obtain ⟨fs, rfl, hstate, hstack, htext⟩ := h.frames (by
    rintro heq
    rw [heq] at hguard
    rcases hguard with hguard | hguard <;> cases hguard)
  have hadmits : admits fs := admits_of_guard hstate hguard
  obtain ⟨b, hb, hopen⟩ := doIndent_open h.indent
  obtain ⟨c', hplug, htext'⟩ := htext.plug hadmits (whole_leaf hb hx)
  rw [← leadComma_stateOf hadmits, ← hstate] at htext'
  rw [hopen] at hcall
  refine ⟨c', hplug, putNext_spec hstate hstack hguard hplug hadmits (t := (s.print _).print text) rfl rfl
    h.indent ?_ hcall⟩
  simpa [Saver.print] using htext'

/-- The state and the stack after an integer. -/
theorem nextByValue_spec {d : Value} {c' : Context (List Char) Scalar} (hstate : s.state = stateOf fs)
    (hstack : s.stack = stackOf fs) (hplug : Document.plug d fs = some c') (hadmits : admits fs)
    (hindent : AllBlank s.indent) {text : List Char} (htext : ContextText c' (s.out ++ text))
    (hcall : s.nextByValue = some s') : Tracks c' (s'.print text) := by
  unfold Saver.nextByValue at hcall
  rw [hstate] at hcall
  match fs with
  | [] =>
    cases hplug
    cases hcall
    exact .done hindent rfl htext
  | .array items :: hs =>
    cases hplug
    have hnext : stateOf (.array (items ++ [d]) :: hs) = .IN_ARRAY := by cases items <;> rfl
    cases items with
    | nil =>
      cases hcall
      exact .within hindent hnext.symm hstack htext
    | cons item items =>
      cases hcall
      exact .within hindent (hstate.trans hnext.symm) hstack htext
  | .object fields :: hs => cases hadmits
  | .field fields name :: hs =>
    cases hplug
    have hnext : stateOf (.object (fields ++ [(name, d)]) :: hs) = .IN_OBJECT := by cases fields <;> rfl
    have hpop : s.pop = some (stateOf [.object fields], { s with stack := saves hs ++ stackOf hs }) := by
      rw [Saver.pop, hstack]
      rfl
    simp only [stateOf, hpop] at hcall
    cases hcall
    exact .within hindent hnext.symm rfl htext

theorem tracks_int {c : Context (List Char) Scalar} {t : IntType} {x : Int} (h : Tracks c s)
    (hx : t.print x = decimal x) {s₁ : Saver} (hcall : (s.doIndent false).nextByValue = some s₁) :
    ∃ c', c.push (.leaf (.int x)) = some c' ∧ Tracks c' (s₁.print (t.print x)) := by
  obtain ⟨b, hb, hopen⟩ := doIndent_open h.indent
  rw [hopen] at hcall
  obtain ⟨fs, rfl, hstate, hstack, htext⟩ := h.frames (by
    intro heq
    simp [Saver.nextByValue, Saver.print, heq] at hcall)
  have hadmits : admits fs := by
    refine admits_of_stateOf fun hobject => ?_
    rw [← hstate] at hobject
    -- an object refuses a value without a name
    cases hobj : s.state with
    | OBJECT | IN_OBJECT => simp [Saver.nextByValue, Saver.print, hobj] at hcall
    | BEGIN | FIELD | ARRAY | IN_ARRAY | END => rw [hobj] at hobject; cases hobject
  have hnum : ∀ rest, EndsNumber rest → Spells standard (.int x) (decimal x ++ rest) rest :=
    fun rest hends => .number ⟨decimal x, rfl, number_decimal x, hends, decimal_baseChars x⟩
  obtain ⟨c', hplug, htext'⟩ := htext.plug hadmits (whole_leaf hb hnum)
  rw [← leadComma_stateOf hadmits, ← hstate] at htext'
  refine ⟨c', hplug, nextByValue_spec (s := s.print _) hstate hstack hplug hadmits h.indent ?_ hcall⟩
  rw [hx]
  simpa [Saver.print] using htext'

theorem tracks_write {c : Context (List Char) Scalar} {v : Operand} (h : Tracks c s)
    (hv : v.Printable) (hcall : s.write v = some s') :
    ∃ c', c.push (.leaf v.said) = some c' ∧ Tracks c' s' := by
  cases v with
  | null => exact tracks_putText h (fun rest _ => .null rest) hcall
  | bool val =>
    cases val
    · exact tracks_putText h (fun rest _ => .false rest) hcall
    · exact tracks_putText h (fun rest _ => .true rest) hcall
  | char chr =>
    have hquoted (rest : List Char) := quoted_quote [Saver.charCode chr] rest
    rw [flatMap_singleton] at hquoted
    exact tracks_putText h (fun rest _ => .string (hquoted rest)) hcall
  | string str =>
    cases hcodes : Utf8.chars str with
    | none =>
      simp only [Saver.write, hcodes] at hcall
      cases hcall
    | some codes =>
      simp only [Saver.write, hcodes] at hcall
      rw [Operand.said, saidText, hcodes]
      exact tracks_putText h (fun rest _ => .string (quoted_quote codes rest)) hcall
  | int t x hx =>
    cases hnext : (s.doIndent false).nextByValue with
    | none =>
      simp only [Saver.write, hnext] at hcall
      cases hcall
    | some s₁ =>
      simp only [Saver.write, hnext] at hcall
      cases hcall
      exact tracks_int h (print_decimal hx hv.1 hv.2) hnext

/-- One call. -/
theorem tracks_step {c : Context (List Char) Scalar} {op : Saver.Op} (h : Tracks c s)
    (hop : op.Printable) (hcall : s.step op = some s') :
    ∃ c', c.push op.said = some c' ∧ Tracks c' s' := by
  cases op with
  | beginMap => exact tracks_beginMap h hcall
  | endMap => exact tracks_endMap h hcall
  | beginList => exact tracks_beginList h hcall
  | endList => exact tracks_endList h hcall
  | key id => exact tracks_key h hcall
  | write v => exact tracks_write h hop hcall

/-- A sequence of calls. -/
theorem tracks_run {ops : List Saver.Op} (hops : ∀ op ∈ ops, op.Printable) :
    ∀ {c : Context (List Char) Scalar} {s : Saver}, Tracks c s → s.run ops = some s' →
      ∃ c', c.pushAll (ops.map Saver.Op.said) = some c' ∧ Tracks c' s' := by
  induction ops with
  | nil =>
    intro c s h hrun
    cases hrun
    exact ⟨c, rfl, h⟩
  | cons op ops ih =>
    intro c s h hrun
    rw [Saver.run, foldlM_cons] at hrun
    obtain ⟨s₁, hstep, hrest⟩ := bind_eq_some_iff.mp hrun
    obtain ⟨hop, hops⟩ := forall_mem_cons.mp hops
    obtain ⟨c₁, hpush, h₁⟩ := tracks_step h hop hstep
    obtain ⟨c', hall, h'⟩ := ih hops h₁ hrest
    refine ⟨c', ?_, h'⟩
    rw [map_cons, Context.pushAll, foldlM_cons, hpush]
    exact hall

end Calls

theorem tracks_start {indent : List Char} (hindent : AllBlank indent) (readable : Bool) :
    Tracks (.within []) (Saver.start readable indent) :=
  .within hindent rfl rfl .nil

/-! ## The text of a run -/

/-- When the calls end, their text is the one of the value that they say.  The string of a call is what the iterator
reads: for a part of a longer buffer, it is not the argument. -/
theorem run_isText {indent : List Char} (hindent : AllBlank indent) (readable : Bool) {ops : List Saver.Op}
    {s : Saver} (hops : ∀ op ∈ ops, op.Printable) (hrun : (Saver.start readable indent).run ops = some s)
    (hend : s.state = .END) : ∃ d, IsText standard d s.out ∧ d.events = ops.map Saver.Op.said := by
  obtain ⟨c, hpush, htracks⟩ := tracks_run hops (tracks_start hindent readable) hrun
  cases htracks with
  | @within fs _ _ hstate _ _ => exact absurd (hstate.symm.trans hend) (stateOf_ne_END fs)
  | @done d _ _ _ htext =>
    refine ⟨d, ?_, (events_of_pushAll hpush).symm⟩
    have hends : EndsNumber [] := fun c hc => (nomatch hc)
    have hderives := htext [] hends
    rw [append_nil] at hderives
    exact ⟨[], hderives, rfl⟩

/-- The text of an object in the readable mode. -/
def readableText : List Char := "\n\x7b\n\"a\": [\n\ttrue,\n\tnull\n]\n\x7d".toList

theorem run_isText_readable : ∃ d, IsText standard d readableText ∧ d.events =
    [.beginObject, .field ['a'], .beginArray, .leaf (.bool true), .leaf .null, .endArray, .endObject] := by
  have hindent : AllBlank ['\t'] := by simp [AllBlank, IsBlank]
  have hrun : (Saver.start true ['\t']).run
      [.beginMap, .key [0x61], .beginList, .write (.bool true), .write .null, .endList, .endMap] =
        some { state := .END, readable := true, out := readableText } := rfl
  exact run_isText hindent true (by simp [Saver.Op.Printable, Operand.Printable]) hrun rfl

/-- `<` starts no value. -/
theorem not_derives_lt {d : Value} {text : List Char} : ¬ Derives standard d ('<' :: text) [] := by
  have hblanks : ∀ {rest}, Blanks standard.comment ('<' :: text) rest → rest = '<' :: text := by
    intro rest hblanks
    generalize hwhole : '<' :: text = whole at hblanks
    cases hblanks with
    | nil => rfl
    | blank hc _ =>
      obtain ⟨rfl, -⟩ := List.cons.inj hwhole
      rcases hc with hc | hc | hc | hc <;> cases hc
    | comment hcom _ => exact hcom.elim
  intro h
  cases h with
  | @scalar x _ text₁ _ hb hx =>
    obtain rfl := hblanks hb
    generalize hwhole : '<' :: text = whole at hx
    cases hx with
    | null | true | false => cases hwhole
    | string hquoted =>
      obtain ⟨q, body, str, rfl, rfl, -⟩ := hquoted
      cases hwhole
    | number hnum =>
      obtain ⟨num, rfl, -, -, hchars⟩ := hnum
      rw [append_nil] at hwhole
      exact absurd (hchars '<' (hwhole ▸ mem_cons_self)) (by decide)
  | array hb _ => cases hblanks hb
  | object hb _ => cases hblanks hb

theorem not_run_isText : ∃ s, (Saver.start false ['\t']).run
      [.write (.int .longLong 1 (by unfold IntType.Holds; decide))] = some s ∧ s.state = .END ∧
    s.out = "<not printable>".toList ∧
    ¬ ∃ d, IsText standard d s.out ∧ d.events = [.leaf (.int 1)] := by
  refine ⟨_, rfl, rfl, rfl, ?_⟩
  rintro ⟨d, ⟨rest, hderives, rfl⟩, -⟩
  exact not_derives_lt hderives

end Elm.Json
