import Elm.Json.Reading
import Elm.Json.Termination
import Elm.Lib.Loop

/-!
# What the parser tells the maker

The parser accepts the lenient texts.  The maker is told the start of each object and of each array, the
names of the fields and the scalars, in the order of the text, but never the end of an object nor of an
array.
-/

namespace Elm.Json

open Io Document

/-- A call of a method of the maker. -/
abbrev Call := Event (List Char) Scalar

variable {μ : Type}

/-- One call; `onValue` is one method for each type of scalar. -/
def Maker.call (mk : Maker μ) (m : μ) : Call → Except String μ
  | .beginObject => mk.beginObject m
  | .endObject => mk.endObject m
  | .beginArray => mk.beginArray m
  | .endArray => mk.endArray m
  | .field name => mk.onField name m
  | .leaf .null => mk.onNull m
  | .leaf (.bool value) => mk.onBool value m
  | .leaf (.int value) => mk.onInt value m
  | .leaf (.float value) => mk.onFloat value m
  | .leaf (.string value) => mk.onString value m

/-- The calls one after the other, up to the first one that throws. -/
def Maker.feed (mk : Maker μ) (es : List Call) (m : μ) : Except String μ := es.foldlM mk.call m

@[simp] theorem Maker.feed_nil (mk : Maker μ) (m : μ) : mk.feed [] m = .ok m := rfl

theorem Maker.feed_cons (mk : Maker μ) (e : Call) (es : List Call) (m : μ) :
    mk.feed (e :: es) m = mk.call m e >>= mk.feed es := by
  rw [feed, List.foldlM_cons]
  rfl

theorem Maker.feed_cons_ok {mk : Maker μ} {e : Call} {m m' : μ} (h : mk.call m e = .ok m') (es : List Call) :
    mk.feed (e :: es) m = mk.feed es m' := by
  rw [feed_cons, h]
  rfl

theorem Maker.feed_append (mk : Maker μ) (es es' : List Call) (m : μ) :
    mk.feed (es ++ es') m = mk.feed es m >>= mk.feed es' := by
  rw [feed, List.foldlM_append]
  rfl

theorem Maker.feed_append_ok {mk : Maker μ} {es : List Call} {m m' : μ} (h : mk.feed es m = .ok m')
    (es' : List Call) : mk.feed (es ++ es') m = mk.feed es' m' := by
  rw [feed_append, h]
  rfl

/-- The end of an array or of an object. -/
def isEnd : Call → Bool
  | .endArray => true
  | .endObject => true
  | _ => false

/-- The calls made for the events `es`: the ends are left out. -/
def made (es : List Call) : List Call := es.filter fun e => !isEnd e

theorem made_append (es es' : List Call) : made (es ++ es') = made es ++ made es' :=
  List.filter_append ..

theorem made_cons {e : Call} (he : isEnd e = false) (es : List Call) :
    made (e :: es) = e :: made es := by
  simp [made, he]

@[simp] theorem made_leaf (x : Scalar) : made (leaf x : Value).events = [.leaf x] := rfl

theorem made_array (items : List Value) :
    made (array items).events = .beginArray :: made (itemsEvents items) := by
  rw [events, made_cons rfl, made_append]
  simp [made, isEnd]

theorem made_object (fields : List (List Char × Value)) :
    made (object fields).events = .beginObject :: made (fieldsEvents fields) := by
  rw [events, made_cons rfl, made_append]
  simp [made, isEnd]

theorem made_items (d : Value) (items : List Value) :
    made (itemsEvents (d :: items)) = made d.events ++ made (itemsEvents items) := by
  rw [itemsEvents, made_append]

theorem made_fields (name : List Char) (d : Value) (fields : List (List Char × Value)) :
    made (fieldsEvents ((name, d) :: fields)) =
      .field name :: (made d.events ++ made (fieldsEvents fields)) := by
  rw [fieldsEvents, made_cons rfl, made_append]

/-! ## One token -/

theorem make_eq_ok {call : Except String μ} {m : μ} (h : Parser.make call = some (.ok m)) : call = .ok m := by
  cases call with
  | error message => cases h
  | ok m' =>
    cases h
    rfl

theorem make_ok {call : Except String μ} {m : μ} (h : call = .ok m) : Parser.make call = some (.ok m) := by
  rw [h]
  rfl

theorem parseValue_scalar {mk : Maker μ} {t : Token} {x : Scalar} {m : μ} {s : Parser}
    (hx : scalar t s.text = some x) :
    Parser.parseValue mk t m s = Parser.make (mk.call m (.leaf x)) >>= fun m => pure (m, s) := by
  unfold scalar at hx
  rw [Parser.parseValue.eq_def]
  cases t <;> cases hx <;> rfl

theorem symbol_inj {c c' : Char} {t : Token} (h : Parser.symbol c = some t)
    (h' : Parser.symbol c' = some t) : c = c' := by
  unfold Parser.symbol at h h'
  split at h <;> cases h <;> split at h' <;> first | rfl | cases h'

theorem scalar_of_symbol {c : Char} {t : Token} (h : Parser.symbol c = some t) (text : List Char) :
    scalar t text = none := by
  unfold Parser.symbol at h
  split at h <;> cases h <;> rfl

/-- A symbol that has been read. -/
theorem blanks_of_symbol {c : Char} {t : Token} {s s' : Parser} (hnext : s.next = some (.ok (t, s')))
    (hc : Parser.symbol c = some t) : Blanks IsReadComment s.rest (c :: s'.rest) := by
  obtain ⟨text, hblanks, hlexeme⟩ := Parser.lexeme_of_next s.size s s' t rfl hnext
  cases hlexeme with
  | symbol h =>
    rw [symbol_inj hc h]
    exact hblanks
  | scalar hx h =>
    rw [scalar_of_symbol hc] at hx
    cases hx

/-- A scalar that has been read. -/
theorem spells_of_scalar {x : Scalar} {t : Token} {s s' : Parser} (hnext : s.next = some (.ok (t, s')))
    (hx : scalar t s'.text = some x) :
    ∃ text, Blanks IsReadComment s.rest text ∧ Spells lenient x text s'.rest := by
  obtain ⟨text, hblanks, hlexeme⟩ := Parser.lexeme_of_next s.size s s' t rfl hnext
  cases hlexeme with
  | symbol h =>
    rw [scalar_of_symbol h] at hx
    cases hx
  | scalar hx' h =>
    rw [hx] at hx'
    cases hx'
    exact ⟨text, hblanks, h⟩

theorem quoted_of_spells {value text rest : List Char} (h : Spells lenient (.string value) text rest) :
    Quoted lenient value text rest := by
  cases h with
  | string h => exact h
  | number h =>
    obtain ⟨t, num, hnum, hx⟩ := h
    rcases Parser.token_of_leadingNumber hnum with rfl | rfl
    · cases hx
    · cases hx

theorem next_size {s s' : Parser} {t : Token} (h : s.next = some (.ok (t, s'))) :
    s'.size < s.size := by
  rcases Parser.next_spec s.size s rfl with ⟨-, hnone⟩ | ⟨-, ⟨r, hok, hlt⟩ | ⟨message, herror⟩⟩
  · rw [h] at hnone
    cases hnone
  · obtain rfl := Except.ok.inj (Option.some.inj (h.symm.trans hok))
    exact hlt
  · rw [h] at herror
    cases herror

/-! ## What is parsed is a lenient text -/

section Parsed

variable {mk : Maker μ}

/-- The value that starts on the token `t` is read from the values that are smaller than `n`. -/
def ReadsValues (mk : Maker μ) (n : Nat) : Prop :=
  ∀ (t : Token) (m m' : μ) (s₀ s s' : Parser), s.size < n → s₀.next = some (.ok (t, s)) →
    Parser.parseValue mk t m s = some (.ok (m', s')) →
      (∃ d : Value, Derives lenient d s₀.rest s'.rest ∧ mk.feed (made d.events) m = .ok m') ∧
        s'.size ≤ s.size

theorem parseItems_reads {n : Nat} (hvalues : ReadsValues mk n) (k : Nat) :
    ∀ (t : Token) (m m' : μ) (s₀ s s' : Parser), s.size = k → k < n → s₀.next = some (.ok (t, s)) →
      Parser.parseItems mk t m s = some (.ok (m', s')) →
        (∃ items, DerivesItems lenient items s₀.rest s'.rest ∧
          mk.feed (made (itemsEvents items)) m = .ok m') ∧ s'.size ≤ s.size := by
  induction k using Nat.strong_induction_on with
  | _ k ih =>
    intro t m m' s₀ s s' hsize hk hnext hparse
    rw [Parser.parseItems] at hparse
    by_cases hend : t = .rbrack
    · subst hend
      rw [if_neg (by simp)] at hparse
      cases hparse
      exact ⟨⟨[], .nil (blanks_of_symbol hnext rfl), rfl⟩, le_rfl⟩
    rw [if_pos hend] at hparse
    obtain ⟨⟨m₁, s₁⟩, hvalue, hparse⟩ := Parser.bind_eq_ok hparse
    obtain ⟨⟨d, hd, hfeed₁⟩, hle₁⟩ := hvalues t m m₁ s₀ s s₁ (by omega) hnext hvalue
    obtain ⟨⟨t₂, s₂⟩, hnext₂, hparse⟩ := Parser.bind_eq_ok hparse
    simp only at hnext₂ hparse
    have hlt₂ := next_size hnext₂
    by_cases hcomma : t₂ = .comma
    · -- one more item, or the end after a comma
      subst hcomma
      rw [if_pos rfl] at hparse
      obtain ⟨⟨t₃, s₃⟩, hnext₃, hparse⟩ := Parser.bind_eq_ok hparse
      have hlt₃ := next_size hnext₃
      obtain ⟨⟨items, hitems, hfeed⟩, hle⟩ := ih s₃.size (by omega) t₃ m₁ m' s₂ s₃ s' rfl (by omega)
        hnext₃ hparse
      have hcomma := blanks_of_symbol hnext₂ (show Parser.symbol ',' = some .comma from rfl)
      refine ⟨⟨d :: items, .cons hd hcomma (fun _ => trivial) hitems, ?_⟩, by omega⟩
      rw [made_items, Maker.feed_append_ok hfeed₁, hfeed]
    · rw [if_neg hcomma] at hparse
      by_cases hclose : t₂ = .rbrack
      · subst hclose
        rw [if_neg (by simp), Parser.parseItems, if_neg (by simp)] at hparse
        cases hparse
        refine ⟨⟨[d], .last hd (blanks_of_symbol hnext₂ rfl), ?_⟩, by omega⟩
        rw [made_items, Maker.feed_append_ok hfeed₁]
        rfl
      · rw [if_pos hclose] at hparse
        cases hparse

theorem parseFields_reads {n : Nat} (hvalues : ReadsValues mk n) (k : Nat) :
    ∀ (t : Token) (m m' : μ) (s₀ s s' : Parser), s.size = k → k < n → s₀.next = some (.ok (t, s)) →
      Parser.parseFields mk t m s = some (.ok (m', s')) →
        (∃ fields, DerivesFields lenient fields s₀.rest s'.rest ∧
          mk.feed (made (fieldsEvents fields)) m = .ok m') ∧ s'.size ≤ s.size := by
  induction k using Nat.strong_induction_on with
  | _ k ih =>
    intro t m m' s₀ s s' hsize hk hnext hparse
    rw [Parser.parseFields] at hparse
    by_cases hend : t = .rbrace
    · subst hend
      rw [if_neg (by simp)] at hparse
      cases hparse
      exact ⟨⟨[], .nil (blanks_of_symbol hnext rfl), rfl⟩, le_rfl⟩
    rw [if_pos hend] at hparse
    by_cases hname : t = .string
    · subst hname
      rw [if_neg (by simp)] at hparse
      obtain ⟨text, hblanks, hspells⟩ := spells_of_scalar hnext rfl
      have hquoted := quoted_of_spells hspells
      obtain ⟨m₀, hfield, hparse⟩ := Parser.bind_eq_ok hparse
      have hcall : mk.call m (.field s.text) = .ok m₀ := make_eq_ok hfield
      obtain ⟨⟨t₁, s₁⟩, hnext₁, hparse⟩ := Parser.bind_eq_ok hparse
      have hlt₁ := next_size hnext₁
      simp only at hnext₁ hparse
      by_cases hcolon : t₁ = .colon
      · subst hcolon
        rw [if_neg (by simp)] at hparse
        obtain ⟨⟨t₂, s₂⟩, hnext₂, hparse⟩ := Parser.bind_eq_ok hparse
        have hlt₂ := next_size hnext₂
        obtain ⟨⟨m₃, s₃⟩, hvalue, hparse⟩ := Parser.bind_eq_ok hparse
        obtain ⟨⟨d, hd, hfeed₃⟩, hle₃⟩ := hvalues t₂ m₀ m₃ s₁ s₂ s₃ (by omega) hnext₂ hvalue
        obtain ⟨⟨t₄, s₄⟩, hnext₄, hparse⟩ := Parser.bind_eq_ok hparse
        simp only at hnext₄ hparse
        have hlt₄ := next_size hnext₄
        have hcolon := blanks_of_symbol hnext₁ (show Parser.symbol ':' = some .colon from rfl)
        by_cases hcomma : t₄ = .comma
        · subst hcomma
          rw [if_pos rfl] at hparse
          obtain ⟨⟨t₅, s₅⟩, hnext₅, hparse⟩ := Parser.bind_eq_ok hparse
          have hlt₅ := next_size hnext₅
          obtain ⟨⟨fields, hfields, hfeed⟩, hle⟩ := ih s₅.size (by omega) t₅ m₃ m' s₄ s₅ s' rfl
            (by omega) hnext₅ hparse
          have hcomma := blanks_of_symbol hnext₄ (show Parser.symbol ',' = some .comma from rfl)
          refine ⟨⟨(s.text, d) :: fields,
            .cons hblanks hquoted hcolon hd hcomma (fun _ => trivial) hfields, ?_⟩, by omega⟩
          rw [made_fields, Maker.feed_cons_ok hcall, Maker.feed_append_ok hfeed₃, hfeed]
        · rw [if_neg hcomma] at hparse
          by_cases hclose : t₄ = .rbrace
          · subst hclose
            rw [if_neg (by simp), Parser.parseFields, if_neg (by simp)] at hparse
            cases hparse
            refine ⟨⟨[(s.text, d)], .last hblanks hquoted hcolon hd (blanks_of_symbol hnext₄ rfl), ?_⟩,
              by omega⟩
            rw [made_fields, Maker.feed_cons_ok hcall, Maker.feed_append_ok hfeed₃]
            rfl
          · rw [if_pos hclose] at hparse
            cases hparse
      · rw [if_pos hcolon] at hparse
        cases hparse
    · rw [if_pos hname] at hparse
      cases hparse

/-- A value that is read is one of a lenient text, and the maker is told it but its ends. -/
theorem readsValues (n : Nat) : ReadsValues mk n := by
  induction n with
  | zero =>
    intro t m m' s₀ s s' hlt
    omega
  | succ n ih =>
    intro t m m' s₀ s s' hlt hnext hparse
    have hsmall : ReadsValues mk s.size := by
      intro t m m' s₀ s₁ s' hlt₁
      exact ih t m m' s₀ s₁ s' (by omega)
    cases hx : scalar t s.text with
    | some x =>
      rw [parseValue_scalar hx] at hparse
      obtain ⟨m₁, hmake, hpure⟩ := Parser.bind_eq_ok hparse
      cases hpure
      obtain ⟨text, hblanks, hspells⟩ := spells_of_scalar hnext hx
      refine ⟨⟨.leaf x, .scalar hblanks hspells, ?_⟩, le_rfl⟩
      rw [made_leaf, Maker.feed_cons_ok (make_eq_ok hmake)]
      rfl
    | none =>
      cases t with
      | lbrace =>
        rw [Parser.parseValue] at hparse
        obtain ⟨m₁, hmake, hparse⟩ := Parser.bind_eq_ok hparse
        have hcall : mk.call m .beginObject = .ok m₁ := make_eq_ok hmake
        rw [Parser.parseObject] at hparse
        obtain ⟨⟨t₁, s₁⟩, hnext₁, hparse⟩ := Parser.bind_eq_ok hparse
        have hlt₁ := next_size hnext₁
        obtain ⟨⟨fields, hfields, hfeed⟩, hle⟩ := parseFields_reads hsmall s₁.size t₁ m₁ m' s s₁ s'
          rfl hlt₁ hnext₁ hparse
        refine ⟨⟨.object fields, .object (blanks_of_symbol hnext rfl) hfields, ?_⟩, by omega⟩
        rw [made_object, Maker.feed_cons_ok hcall, hfeed]
      | lbrack =>
        rw [Parser.parseValue] at hparse
        obtain ⟨m₁, hmake, hparse⟩ := Parser.bind_eq_ok hparse
        have hcall : mk.call m .beginArray = .ok m₁ := make_eq_ok hmake
        rw [Parser.parseArray] at hparse
        obtain ⟨⟨t₁, s₁⟩, hnext₁, hparse⟩ := Parser.bind_eq_ok hparse
        have hlt₁ := next_size hnext₁
        obtain ⟨⟨items, hitems, hfeed⟩, hle⟩ := parseItems_reads hsmall s₁.size t₁ m₁ m' s s₁ s'
          rfl hlt₁ hnext₁ hparse
        refine ⟨⟨.array items, .array (blanks_of_symbol hnext rfl) hitems, ?_⟩, by omega⟩
        rw [made_array, Maker.feed_cons_ok hcall, hfeed]
      | rbrace | rbrack | comma | colon =>
        rw [Parser.parseValue] at hparse <;> first | cases hparse | simp
      | nullToken | true | false | int | float | string => cases hx

end Parsed

/-! ## A lenient text is parsed -/

section Read

variable {mk : Maker μ}

theorem next_of_symbol {c : Char} {t : Token} {text rest : List Char} (hc : Parser.symbol c = some t)
    (hblanks : Blanks IsReadComment text (c :: rest)) {s : Parser} (hrest : s.rest = text) :
    ∃ s', s.next = some (.ok (t, s')) ∧ s'.rest = rest := by
  obtain ⟨s₁, hrest₁, hnext⟩ := Parser.next_blanks hblanks s hrest
  obtain ⟨s', hrest', hnext'⟩ := Parser.next_symbol hrest₁ hc
  exact ⟨s', hnext.trans hnext', hrest'⟩

theorem next_of_spells {x : Scalar} {text text₁ rest : List Char} (hblanks : Blanks IsReadComment text text₁)
    (hx : Spells lenient x text₁ rest) {s : Parser} (hrest : s.rest = text) :
    ∃ t s', s.next = some (.ok (t, s')) ∧ scalar t s'.text = some x ∧ s'.rest = rest := by
  obtain ⟨s₁, hrest₁, hnext⟩ := Parser.next_blanks hblanks s hrest
  rw [hnext]
  exact Parser.next_spells hx hrest₁

theorem string_of_scalar {t : Token} {text value : List Char} (h : scalar t text = some (.string value)) :
    t = .string ∧ text = value := by
  unfold scalar at h
  split at h <;> cases h
  exact ⟨rfl, rfl⟩

/-- The token read at `s` leaves a state where `parse` gives the maker `m'` and leaves `rest`. -/
def Parses (parse : Token → Parser → Result (μ × Parser)) (s : Parser) (m' : μ) (rest : List Char) : Prop :=
  ∃ t s₁ s', s.next = some (.ok (t, s₁)) ∧ parse t s₁ = some (.ok (m', s')) ∧ s'.rest = rest

/-- A value starts with none of the tokens that end an array or an object. -/
theorem not_parseValue {t : Token} (ht : t = .rbrack ∨ t = .rbrace) {m : μ} {s : Parser} {r : μ × Parser} :
    Parser.parseValue mk t m s ≠ some (.ok r) := by
  intro hparse
  have hthrow : Parser.parseValue mk t m s = throw (s.error "unexpected symbol") := by
    rcases ht with rfl | rfl
    · rw [Parser.parseValue] <;> simp
    · rw [Parser.parseValue] <;> simp
  rw [hthrow] at hparse
  cases hparse

/-- The calls for the events `es` are made while `parse` reads `text` up to `rest`. -/
def Tells (mk : Maker μ) (parse : Token → μ → Parser → Result (μ × Parser)) (es : List Call)
    (text rest : List Char) : Prop :=
  ∀ (m m' : μ) (s : Parser), mk.feed (made es) m = .ok m' → s.rest = text →
    Parses (fun t => parse t m) s m' rest

theorem tells_scalar {x : Scalar} {text text₁ rest : List Char} (hblanks : Blanks IsReadComment text text₁)
    (hx : Spells lenient x text₁ rest) :
    Tells mk (Parser.parseValue mk) (leaf x : Value).events text rest := by
  intro m m' s hfeed hs
  obtain ⟨t, s', hnext, hscalar, hrest⟩ := next_of_spells hblanks hx hs
  rw [made_leaf, Maker.feed_cons] at hfeed
  obtain ⟨m₁, hcall, hnil⟩ := Run.exists_of_bind_eq_ok hfeed
  cases hnil
  refine ⟨t, s', s', hnext, ?_, hrest⟩
  simp only
  rw [parseValue_scalar hscalar, hcall]
  rfl

theorem tells_array {items : List Value} {text text₁ rest : List Char}
    (hblanks : Blanks IsReadComment text ('[' :: text₁))
    (hitems : Tells mk (Parser.parseItems mk) (itemsEvents items) text₁ rest) :
    Tells mk (Parser.parseValue mk) (array items).events text rest := by
  intro m m' s hfeed hs
  obtain ⟨s₁, hnext, hrest₁⟩ := next_of_symbol rfl hblanks hs
  rw [made_array, Maker.feed_cons] at hfeed
  obtain ⟨m₁, hcall, hfeed₁⟩ := Run.exists_of_bind_eq_ok hfeed
  obtain ⟨t, s₂, s', hnext₂, hparse, hrest⟩ := hitems m₁ m' s₁ hfeed₁ hrest₁
  have hbegin : mk.beginArray m = .ok m₁ := hcall
  refine ⟨.lbrack, s₁, s', hnext, ?_, hrest⟩
  simp only
  rw [Parser.parseValue, Parser.bind_ok (make_ok hbegin), Parser.parseArray, Parser.bind_ok hnext₂]
  exact hparse

theorem tells_object {fields : List (List Char × Value)} {text text₁ rest : List Char}
    (hblanks : Blanks IsReadComment text ('{' :: text₁))
    (hfields : Tells mk (Parser.parseFields mk) (fieldsEvents fields) text₁ rest) :
    Tells mk (Parser.parseValue mk) (object fields).events text rest := by
  intro m m' s hfeed hs
  obtain ⟨s₁, hnext, hrest₁⟩ := next_of_symbol rfl hblanks hs
  rw [made_object, Maker.feed_cons] at hfeed
  obtain ⟨m₁, hcall, hfeed₁⟩ := Run.exists_of_bind_eq_ok hfeed
  obtain ⟨t, s₂, s', hnext₂, hparse, hrest⟩ := hfields m₁ m' s₁ hfeed₁ hrest₁
  have hbegin : mk.beginObject m = .ok m₁ := hcall
  refine ⟨.lbrace, s₁, s', hnext, ?_, hrest⟩
  simp only
  rw [Parser.parseValue, Parser.bind_ok (make_ok hbegin), Parser.parseObject, Parser.bind_ok hnext₂]
  exact hparse

theorem tells_endArray {text rest : List Char} (hend : Blanks IsReadComment text (']' :: rest)) :
    Tells mk (Parser.parseItems mk) (itemsEvents []) text rest := by
  intro m m' s hfeed hs
  obtain ⟨s₁, hnext, hrest⟩ := next_of_symbol rfl hend hs
  cases hfeed
  refine ⟨.rbrack, s₁, s₁, hnext, ?_, hrest⟩
  simp only
  rw [Parser.parseItems, if_neg (by simp)]
  rfl

/-- An item, and the comma or the end that follows it. -/
theorem tells_item {d : Value} {items : List Value} {text text₁ rest : List Char}
    (hd : Tells mk (Parser.parseValue mk) d.events text text₁)
    (hitems : (∃ text₂, Blanks IsReadComment text₁ (',' :: text₂) ∧
        Tells mk (Parser.parseItems mk) (itemsEvents items) text₂ rest) ∨
      Blanks IsReadComment text₁ (']' :: rest) ∧ items = []) :
    Tells mk (Parser.parseItems mk) (itemsEvents (d :: items)) text rest := by
  intro m m' s hfeed hs
  rw [made_items, Maker.feed_append] at hfeed
  obtain ⟨m₁, hfeed₁, hfeed₂⟩ := Run.exists_of_bind_eq_ok hfeed
  obtain ⟨t, s₁, s₂, hnext, hvalue, hrest₂⟩ := hd m m₁ s hfeed₁ hs
  have ht : t ≠ .rbrack := fun ht => not_parseValue (Or.inl ht) hvalue
  simp only at hvalue
  rcases hitems with ⟨text₂, hcomma, hitems⟩ | ⟨hend, rfl⟩
  · obtain ⟨s₃, hnext₃, hrest₃⟩ := next_of_symbol rfl hcomma hrest₂
    obtain ⟨t', s₄, s', hnext₄, hparse, hrest⟩ := hitems m₁ m' s₃ hfeed₂ hrest₃
    refine ⟨t, s₁, s', hnext, ?_, hrest⟩
    simp only
    rw [Parser.parseItems, if_pos ht, Parser.bind_ok hvalue]
    simp only
    rw [Parser.bind_ok hnext₃]
    simp only
    rw [if_pos trivial, Parser.bind_ok hnext₄]
    exact hparse
  · obtain ⟨s', hnext', hrest⟩ := next_of_symbol rfl hend hrest₂
    cases hfeed₂
    refine ⟨t, s₁, s', hnext, ?_, hrest⟩
    simp only
    rw [Parser.parseItems, if_pos ht, Parser.bind_ok hvalue]
    simp only
    rw [Parser.bind_ok hnext']
    simp only
    rw [if_neg (by simp), if_neg (by simp), Parser.parseItems, if_neg (by simp)]
    rfl

theorem tells_endObject {text rest : List Char} (hend : Blanks IsReadComment text ('}' :: rest)) :
    Tells mk (Parser.parseFields mk) (fieldsEvents []) text rest := by
  intro m m' s hfeed hs
  obtain ⟨s₁, hnext, hrest⟩ := next_of_symbol rfl hend hs
  cases hfeed
  refine ⟨.rbrace, s₁, s₁, hnext, ?_, hrest⟩
  simp only
  rw [Parser.parseFields, if_neg (by simp)]
  rfl

/-- A field, and the comma or the end that follows it. -/
theorem tells_field {name : List Char} {d : Value} {fields : List (List Char × Value)}
    {text text₁ text₂ text₃ text₄ rest : List Char} (hblanks : Blanks IsReadComment text text₁)
    (hname : Quoted lenient name text₁ text₂) (hcolon : Blanks IsReadComment text₂ (':' :: text₃))
    (hd : Tells mk (Parser.parseValue mk) d.events text₃ text₄)
    (hfields : (∃ text₅, Blanks IsReadComment text₄ (',' :: text₅) ∧
        Tells mk (Parser.parseFields mk) (fieldsEvents fields) text₅ rest) ∨
      Blanks IsReadComment text₄ ('}' :: rest) ∧ fields = []) :
    Tells mk (Parser.parseFields mk) (fieldsEvents ((name, d) :: fields)) text rest := by
  intro m m' s hfeed hs
  rw [made_fields, Maker.feed_cons] at hfeed
  obtain ⟨m₀, hcall, hfeed⟩ := Run.exists_of_bind_eq_ok hfeed
  rw [Maker.feed_append] at hfeed
  obtain ⟨m₁, hfeed₁, hfeed₂⟩ := Run.exists_of_bind_eq_ok hfeed
  obtain ⟨t, s₁, hnext, hscalar, hrest₁⟩ := next_of_spells hblanks (.string hname) hs
  obtain ⟨rfl, rfl⟩ := string_of_scalar hscalar
  have hfield : mk.onField s₁.text m = .ok m₀ := hcall
  obtain ⟨s₂, hnext₂, hrest₂⟩ := next_of_symbol rfl hcolon hrest₁
  obtain ⟨t', s₃, s₄, hnext₃, hvalue, hrest₄⟩ := hd m₀ m₁ s₂ hfeed₁ hrest₂
  simp only at hvalue
  rcases hfields with ⟨text₅, hcomma, hfields⟩ | ⟨hend, rfl⟩
  · obtain ⟨s₅, hnext₅, hrest₅⟩ := next_of_symbol rfl hcomma hrest₄
    obtain ⟨t'', s₆, s', hnext₆, hparse, hrest⟩ := hfields m₁ m' s₅ hfeed₂ hrest₅
    refine ⟨.string, s₁, s', hnext, ?_, hrest⟩
    simp only
    rw [Parser.parseFields, if_pos (by simp), if_neg (by simp), Parser.bind_ok (make_ok hfield),
      Parser.bind_ok hnext₂]
    simp only
    rw [if_neg (by simp), Parser.bind_ok hnext₃]
    simp only
    rw [Parser.bind_ok hvalue]
    simp only
    rw [Parser.bind_ok hnext₅]
    simp only
    rw [if_pos trivial, Parser.bind_ok hnext₆]
    exact hparse
  · obtain ⟨s', hnext', hrest⟩ := next_of_symbol rfl hend hrest₄
    cases hfeed₂
    refine ⟨.string, s₁, s', hnext, ?_, hrest⟩
    simp only
    rw [Parser.parseFields, if_pos (by simp), if_neg (by simp), Parser.bind_ok (make_ok hfield),
      Parser.bind_ok hnext₂]
    simp only
    rw [if_neg (by simp), Parser.bind_ok hnext₃]
    simp only
    rw [Parser.bind_ok hvalue]
    simp only
    rw [Parser.bind_ok hnext']
    simp only
    rw [if_neg (by simp), if_neg (by simp), Parser.parseFields, if_neg (by simp)]
    rfl

/-- A value of a lenient text is parsed, and the maker is told it but its ends. -/
theorem tells_value {d : Value} {text rest : List Char} (h : Derives lenient d text rest) :
    Tells mk (Parser.parseValue mk) d.events text rest := by
  refine @Derives.rec lenient (fun d text rest _ => Tells mk (Parser.parseValue mk) d.events text rest)
    (fun items text rest _ => Tells mk (Parser.parseItems mk) (itemsEvents items) text rest)
    (fun fields text rest _ => Tells mk (Parser.parseFields mk) (fieldsEvents fields) text rest)
    ?scalar ?array ?object ?endArray ?lastItem ?item ?endObject ?lastField ?field d text rest h
  case scalar => exact fun hblanks hx => tells_scalar hblanks hx
  case array => exact fun hblanks _ ih => tells_array hblanks ih
  case object => exact fun hblanks _ ih => tells_object hblanks ih
  case endArray => exact fun hend => tells_endArray hend
  case lastItem => exact fun _ hend ih => tells_item ih (Or.inr ⟨hend, rfl⟩)
  case item => exact fun _ hcomma _ _ ihd ih => tells_item ihd (Or.inl ⟨_, hcomma, ih⟩)
  case endObject => exact fun hend => tells_endObject hend
  case lastField =>
    exact fun hblanks hname hcolon _ hend ih => tells_field hblanks hname hcolon ih (Or.inr ⟨hend, rfl⟩)
  case field =>
    exact fun hblanks hname hcolon _ hcomma _ _ ihd ih =>
      tells_field hblanks hname hcolon ihd (Or.inl ⟨_, hcomma, ih⟩)

end Read

/-! ## The whole text -/

/-- The characters of the bytes of an input. -/
def chars (input : List UInt8) : List Char := input.map Char.ofUInt8

theorem rest_begin (p : Parser) (input : List UInt8) : (p.begin input).rest = chars input := rfl

theorem doParsing_of_derives {mk : Maker μ} {m m' : μ} {input : List UInt8} {d : Value} {rest : List Char}
    (h : Derives lenient d (chars input) rest) (hfeed : mk.feed (made d.events) m = .ok m') (p : Parser) :
    ∃ s', p.doParsing mk m input = some (.ok (m', s')) := by
  obtain ⟨t, s, s', hnext, hparse, -⟩ := tells_value h m m' (p.begin input) hfeed (rest_begin p input)
  exact ⟨s', (Parser.bind_ok hnext _).trans hparse⟩

/-- The parser succeeds on the lenient texts, and the calls of the maker are the events of the value, but
the ends. -/
theorem doParsing_ok_iff (mk : Maker μ) (m m' : μ) (p : Parser) (input : List UInt8) :
    (∃ s', p.doParsing mk m input = some (.ok (m', s'))) ↔
      ∃ d, IsText lenient d (chars input) ∧ mk.feed (made d.events) m = .ok m' := by
  constructor
  · rintro ⟨s', h⟩
    obtain ⟨⟨t, s⟩, hnext, hparse⟩ := Parser.bind_eq_ok h
    obtain ⟨⟨d, hd, hfeed⟩, -⟩ := readsValues (s.size + 1) t m m' (p.begin input) s s' (by omega) hnext hparse
    rw [rest_begin] at hd
    exact ⟨d, ⟨s'.rest, hd, trivial⟩, hfeed⟩
  · rintro ⟨d, ⟨rest, hd, -⟩, hfeed⟩
    exact doParsing_of_derives hd hfeed p

end Elm.Json
