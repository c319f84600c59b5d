import Elm.Json.Lexer

/-!
# Termination of the parser

What the parser expects next is a stack of frames, which each token of the input changes.  The parser
has no result exactly when it asks for a token where the text left to read opens a string or a comment
that the input does not close.
-/

namespace Elm.Json

open Io

/-- What is expected next: the first token of a value, an item or the end of an array, what follows an
item, a field or the end of an object, the colon and what follows a field. -/
inductive Frame
  | value | item | itemEnd | field | colon | fieldEnd
  deriving DecidableEq

variable {μ : Type}

/-- What the first token of a value leaves to read of it, and the call of the maker. -/
def start (mk : Maker μ) (t : Token) (text : List Char) (m : μ) : Option (List Frame × μ) :=
  let scalar (call : Except String μ) : Option (List Frame × μ) :=
    call.toOption.map fun m => ([], m)
  match t with
  | .lbrace => (mk.beginObject m).toOption.map fun m => ([.field], m)
  | .lbrack => (mk.beginArray m).toOption.map fun m => ([.item], m)
  | .nullToken => scalar (mk.onNull m)
  | .true => scalar (mk.onBool Bool.true m)
  | .false => scalar (mk.onBool Bool.false m)
  | .int => scalar (mk.onInt (scanLong text) m)
  | .float => scalar (mk.onFloat (scanDouble text) m)
  | .string => scalar (mk.onString text m)
  | _ => none

/-- What a token changes; `none` is a syntax error or an exception of the maker. -/
def accept (mk : Maker μ) (f : Frame) (t : Token) (text : List Char) (m : μ) :
    Option (List Frame × μ) :=
  match f with
  | .value => start mk t text m
  | .item =>
    if t = .rbrack then some ([], m)
    else (start mk t text m).map fun r => (r.1 ++ [.itemEnd], r.2)
  | .itemEnd =>
    if t = .comma then some ([.item], m) else if t = .rbrack then some ([], m) else none
  | .field =>
    if t = .rbrace then some ([], m)
    else if t = .string then (mk.onField text m).toOption.map fun m => ([.colon], m)
    else none
  | .colon => if t = .colon then some ([.value, .fieldEnd], m) else none
  | .fieldEnd =>
    if t = .comma then some ([.field], m) else if t = .rbrace then some ([], m) else none

/-- The frames, the state of the maker and the one of the lexer. -/
structure Config (μ : Type) where
  frames : List Frame
  maker : μ
  parser : Parser

/-- A token is read and accepted by the first frame. -/
def Step (mk : Maker μ) (a b : Config μ) : Prop :=
  ∃ f k t g, a.frames = f :: k ∧ a.parser.next = some (.ok (t, b.parser)) ∧
    accept mk f t b.parser.text a.maker = some (g, b.maker) ∧ b.frames = g ++ k

/-- Tokens are read and accepted one after the other. -/
def Reads (mk : Maker μ) : Config μ → Config μ → Prop := Relation.ReflTransGen (Step mk)

/-- Having read some tokens of a value from `s₀`, the parser asks for one more in `s`. -/
def Asks (mk : Maker μ) (m₀ : μ) (s₀ s : Parser) : Prop :=
  ∃ f k m, Reads mk ⟨[.value], m₀, s₀⟩ ⟨f :: k, m, s⟩

variable {mk : Maker μ}

theorem Step.unique {a b c : Config μ} (hb : Step mk a b) (hc : Step mk a c) : b = c := by
  obtain ⟨f, k, t, g, hframes, hnext, haccept, hpush⟩ := hb
  obtain ⟨f', k', t', g', hframes', hnext', haccept', hpush'⟩ := hc
  obtain ⟨fb, mb, sb⟩ := b
  obtain ⟨fc, mc, sc⟩ := c
  simp only at hnext hnext' haccept haccept' hpush hpush'
  obtain ⟨rfl, rfl⟩ := List.cons.inj (hframes.symm.trans hframes')
  obtain ⟨rfl, rfl⟩ := Prod.mk.inj (Except.ok.inj (Option.some.inj (hnext.symm.trans hnext')))
  obtain ⟨rfl, rfl⟩ := Prod.mk.inj (Option.some.inj (haccept.symm.trans haccept'))
  rw [hpush, hpush']

/-- Two configurations read from the same one, without a next step, are equal. -/
theorem Reads.unique {a b c : Config μ} (hb : Reads mk a b) (hc : Reads mk a c)
    (hstop : ∀ d, ¬ Step mk b d) (hstop' : ∀ d, ¬ Step mk c d) : b = c := by
  have hend : ∀ {b c : Config μ}, Reads mk b c → (∀ d, ¬ Step mk b d) → c = b := by
    intro b c h hb
    rcases Relation.ReflTransGen.cases_head h with rfl | ⟨d, hstep, -⟩
    · rfl
    · exact absurd hstep (hb d)
  have hunique : Relator.RightUnique (Step mk) := fun _ _ _ => Step.unique
  rcases Relation.ReflTransGen.total_of_right_unique hunique hb hc with h | h
  · exact (hend h hstop).symm
  · exact hend h hstop'

/-- The frames below take no part in a reading. -/
theorem Reads.append {a b : Config μ} (h : Reads mk a b) (k : List Frame) :
    Reads mk { a with frames := a.frames ++ k } { b with frames := b.frames ++ k } := by
  have hstep : ∀ c d : Config μ, Step mk c d →
      Step mk { c with frames := c.frames ++ k } { d with frames := d.frames ++ k } := by
    rintro c d ⟨f, l, t, g, hframes, hnext, haccept, hpush⟩
    exact ⟨f, l ++ k, t, g, by simp [hframes], hnext, haccept, by simp [hpush]⟩
  exact Relation.ReflTransGen.lift (fun c : Config μ => { c with frames := c.frames ++ k }) hstep _ _ h

/-! ## The parser follows the frames -/

/-- The call reads the frames `k` to the end, throws where no step is possible, or has no result where
the lexer has none. -/
def Follows (mk : Maker μ) (x : Result (μ × Parser)) (k : List Frame) (m : μ) (s : Parser) : Prop :=
  (∃ m' s', x = some (.ok (m', s')) ∧ s'.size ≤ s.size ∧ Reads mk ⟨k, m, s⟩ ⟨[], m', s'⟩) ∨
  (∃ message, x = some (.error (.exception message)) ∧ ∃ f l m' s',
    Reads mk ⟨k, m, s⟩ ⟨f :: l, m', s'⟩ ∧ (∀ d, ¬ Step mk ⟨f :: l, m', s'⟩ d) ∧ s'.next ≠ none) ∨
  (x = none ∧ ∃ f l m' s', Reads mk ⟨k, m, s⟩ ⟨f :: l, m', s'⟩ ∧ s'.next = none)

/-- The call reads the frames `k`, and what follows it the frames `l`. -/
theorem Follows.bind {x : Result (μ × Parser)} {y : μ × Parser → Result (μ × Parser)}
    {k l : List Frame} {m : μ} {s : Parser} (hx : Follows mk x k m s)
    (hy : ∀ m' s', s'.size ≤ s.size → Follows mk (y (m', s')) l m' s') :
    Follows mk (x >>= y : Result (μ × Parser)) (k ++ l) m s := by
  rcases hx with ⟨m₁, s₁, hok, hle, hreads⟩ | ⟨message, herror, f, l', m₁, s₁, hreads, hstop, hne⟩ |
    ⟨hnone, f, l', m₁, s₁, hreads, hnext⟩
  · have hfirst := hreads.append l
    rw [Parser.bind_ok hok]
    rcases hy m₁ s₁ hle with ⟨m₂, s₂, hok₂, hle₂, hreads₂⟩ |
      ⟨message, herror₂, f, l', m₂, s₂, hreads₂, hstop⟩ | ⟨hnone₂, f, l', m₂, s₂, hreads₂, hnext⟩
    · exact Or.inl ⟨m₂, s₂, hok₂, hle₂.trans hle, hfirst.trans hreads₂⟩
    · exact Or.inr (Or.inl ⟨message, herror₂, f, l', m₂, s₂, hfirst.trans hreads₂, hstop⟩)
    · exact Or.inr (Or.inr ⟨hnone₂, f, l', m₂, s₂, hfirst.trans hreads₂, hnext⟩)
  · refine Or.inr (Or.inl ⟨message, Parser.bind_error herror _, f, l' ++ l, m₁, s₁, hreads.append l,
      ?_, hne⟩)
    rintro d ⟨f', k', t, g, hframes, hnext, haccept, hpush⟩
    obtain ⟨rfl, rfl⟩ := List.cons.inj hframes
    exact hstop ⟨g ++ l', d.maker, d.parser⟩ ⟨f, l', t, g, rfl, hnext, haccept, rfl⟩
  · exact Or.inr (Or.inr ⟨Parser.bind_none hnone _, f, l' ++ l, m₁, s₁, hreads.append l, hnext⟩)

/-- The call on a token read for the frame `f`. -/
def Takes (mk : Maker μ) (x : Result (μ × Parser)) (f : Frame) (k : List Frame) (t : Token) (m : μ)
    (s : Parser) : Prop :=
  match accept mk f t s.text m with
  | none => ∃ message, x = some (.error (.exception message))
  | some (g, m') => Follows mk x (g ++ k) m' s

/-- A token is asked for the frame `f`. -/
theorem Follows.next {y : Token × Parser → Result (μ × Parser)} {f : Frame} {k : List Frame} {m : μ}
    {s : Parser} (hy : ∀ t s', s'.size < s.size → Takes mk (y (t, s')) f k t m s') :
    Follows mk (s.next >>= y : Result (μ × Parser)) (f :: k) m s := by
  rcases Parser.next_spec s.size s rfl with ⟨-, hnone⟩ |
    ⟨-, ⟨⟨t, s₁⟩, hok, hlt⟩ | ⟨message, herror⟩⟩
  · exact Or.inr (Or.inr ⟨Parser.bind_none hnone _, f, k, m, s, Relation.ReflTransGen.refl, hnone⟩)
  · have htakes := hy t s₁ hlt
    rw [Parser.bind_ok hok]
    unfold Takes at htakes
    cases haccept : accept mk f t s₁.text m with
    | none =>
      rw [haccept] at htakes
      obtain ⟨message, herror⟩ := htakes
      refine Or.inr (Or.inl ⟨message, herror, f, k, m, s, Relation.ReflTransGen.refl, ?_, ?_⟩)
      · rintro d ⟨f', k', t', g, hframes, hnext, haccept', hpush⟩
        obtain ⟨rfl, rfl⟩ := List.cons.inj hframes
        obtain ⟨rfl, hs⟩ := Prod.mk.inj (Except.ok.inj (Option.some.inj (hok.symm.trans hnext)))
        rw [← hs, haccept] at haccept'
        cases haccept'
      · rw [hok]
        simp
    | some r =>
      obtain ⟨g, m₁⟩ := r
      rw [haccept] at htakes
      have hfirst : Reads mk ⟨f :: k, m, s⟩ ⟨g ++ k, m₁, s₁⟩ :=
        Relation.ReflTransGen.single ⟨f, k, t, g, rfl, hok, haccept, rfl⟩
      rcases htakes with ⟨m₂, s₂, hok₂, hle₂, hreads₂⟩ |
        ⟨message, herror₂, f', l', m₂, s₂, hreads₂, hstop⟩ | ⟨hnone₂, f', l', m₂, s₂, hreads₂, hnext⟩
      · exact Or.inl ⟨m₂, s₂, hok₂, hle₂.trans hlt.le, hfirst.trans hreads₂⟩
      · exact Or.inr (Or.inl ⟨message, herror₂, f', l', m₂, s₂, hfirst.trans hreads₂, hstop⟩)
      · exact Or.inr (Or.inr ⟨hnone₂, f', l', m₂, s₂, hfirst.trans hreads₂, hnext⟩)
  · refine Or.inr (Or.inl ⟨message, Parser.bind_error herror _, f, k, m, s,
      Relation.ReflTransGen.refl, ?_, by rw [herror]; simp⟩)
    rintro d ⟨f', k', t', g, hframes, hnext, -⟩
    rw [herror] at hnext
    cases hnext

theorem follows_nil (m : μ) (s : Parser) :
    Follows mk (some (.ok (m, s)) : Option (Except Exn (μ × Parser))) [] m s :=
  Or.inl ⟨m, s, rfl, le_rfl, Relation.ReflTransGen.refl⟩

/-! ## Arrays, objects and values -/

theorem make_spec (call : Except String μ) :
    (∃ m, call = .ok m ∧ Parser.make call = some (.ok m)) ∨
      ∃ message, call = .error message ∧ Parser.make call = some (.error (.exception message)) := by
  cases call with
  | ok m => exact Or.inl ⟨m, rfl, rfl⟩
  | error message => exact Or.inr ⟨message, rfl, rfl⟩

/-- A value that is read by one call of the maker. -/
theorem takes_scalar {call : Except String μ} {t : Token} {m : μ} {s : Parser}
    (hstart : start mk t s.text m = call.toOption.map fun m => ([], m)) :
    Takes mk (do return (← Parser.make call, s)) .value [] t m s := by
  unfold Takes accept
  rw [hstart]
  rcases make_spec call with ⟨m', rfl, hmake⟩ | ⟨message, rfl, hmake⟩
  · exact follows_nil m' s
  · exact ⟨message, rfl⟩

/-- `parseItems` in a state from which values are read. -/
theorem takes_items {n : Nat}
    (hvalue : ∀ t m (s : Parser), s.size < n → Takes mk (Parser.parseValue mk t m s) .value [] t m s)
    (k : Nat) : ∀ t m (s : Parser), s.size = k → k < n →
      Takes mk (Parser.parseItems mk t m s) .item [] t m s := by
  induction k using Nat.strong_induction_on with
  | _ k ih =>
    intro t m s hsize hk
    rw [Parser.parseItems]
    by_cases hend : t = .rbrack
    · subst hend
      exact follows_nil m s
    rw [if_pos hend]
    have hfirst := hvalue t m s (by omega)
    unfold Takes at hfirst ⊢
    rw [accept, if_neg hend]
    rw [accept] at hfirst
    cases hstart : start mk t s.text m with
    | none =>
      rw [hstart] at hfirst
      obtain ⟨message, herror⟩ := hfirst
      exact ⟨message, Parser.bind_error herror _⟩
    | some r =>
      rw [hstart] at hfirst
      simp only [List.append_nil, Option.map_some] at hfirst ⊢
      refine hfirst.bind fun m₁ s₁ hle₁ => Follows.next fun t₂ s₂ hlt₂ => ?_
      unfold Takes
      simp only [accept]
      by_cases hcomma : t₂ = .comma
      · -- one more item, or the end after a comma
        rw [if_pos hcomma, if_pos hcomma]
        refine Follows.next fun t₃ s₃ hlt₃ => ?_
        have hlt : s₃.size < s.size := hlt₃.trans (hlt₂.trans_le hle₁)
        exact ih s₃.size (by omega) t₃ m₁ s₃ rfl (by omega)
      · rw [if_neg hcomma, if_neg hcomma]
        by_cases hclose : t₂ = .rbrack
        · subst hclose
          rw [Parser.parseItems]
          exact follows_nil m₁ s₂
        · rw [if_neg hclose, if_pos hclose]
          exact ⟨_, rfl⟩

/-- `parseFields` in a state from which values are read. -/
theorem takes_fields {n : Nat}
    (hvalue : ∀ t m (s : Parser), s.size < n → Takes mk (Parser.parseValue mk t m s) .value [] t m s)
    (k : Nat) : ∀ t m (s : Parser), s.size = k → k < n →
      Takes mk (Parser.parseFields mk t m s) .field [] t m s := by
  induction k using Nat.strong_induction_on with
  | _ k ih =>
    intro t m s hsize hk
    rw [Parser.parseFields]
    by_cases hend : t = .rbrace
    · subst hend
      exact follows_nil m s
    rw [if_pos hend]
    unfold Takes
    rw [accept, if_neg hend]
    by_cases hname : t = .string
    · rw [if_pos hname, if_neg (not_not.mpr hname)]
      rcases make_spec (mk.onField s.text m) with ⟨m₁, hcall, hmake⟩ | ⟨message, hcall, hmake⟩
      · -- the colon, then a value
        rw [hcall] at hmake ⊢
        change Follows mk (Parser.make (.ok m₁) >>= _) ([.colon] ++ []) m₁ s
        rw [Parser.bind_ok hmake]
        refine Follows.next fun t₁ s₁ hlt₁ => ?_
        unfold Takes
        rw [accept]
        by_cases hcolon : t₁ = .colon
        · rw [if_pos hcolon]
          simp only [if_neg (not_not.mpr hcolon)]
          refine Follows.next fun t₂ s₂ hlt₂ => ?_
          have hfirst := hvalue t₂ m₁ s₂ (by omega)
          unfold Takes at hfirst ⊢
          cases hstart : accept mk .value t₂ s₂.text m₁ with
          | none =>
            rw [hstart] at hfirst
            obtain ⟨message, herror⟩ := hfirst
            exact ⟨message, Parser.bind_error herror _⟩
          | some r =>
            rw [hstart] at hfirst
            simp only [List.append_nil] at hfirst ⊢
            refine hfirst.bind fun m₃ s₃ hle₃ => Follows.next fun t₄ s₄ hlt₄ => ?_
            unfold Takes
            rw [accept]
            by_cases hcomma : t₄ = .comma
            · rw [if_pos hcomma]
              simp only [if_pos hcomma]
              refine Follows.next fun t₅ s₅ hlt₅ => ?_
              have hlt : s₅.size < s₂.size := hlt₅.trans (hlt₄.trans_le hle₃)
              exact ih s₅.size (by omega) t₅ m₃ s₅ rfl (by omega)
            · rw [if_neg hcomma]
              simp only [if_neg hcomma]
              by_cases hclose : t₄ = .rbrace
              · subst hclose
                rw [Parser.parseFields]
                exact follows_nil m₃ s₄
              · rw [if_neg hclose, if_pos hclose]
                exact ⟨_, rfl⟩
        · rw [if_neg hcolon]
          simp only [if_pos hcolon]
          exact ⟨_, rfl⟩
      · rw [hcall] at hmake ⊢
        exact ⟨message, rfl⟩
    · rw [if_neg hname, if_pos hname]
      exact ⟨_, rfl⟩

/-- `parseValue` follows the frames from any state. -/
theorem takes_value (n : Nat) : ∀ t m (s : Parser), s.size = n →
    Takes mk (Parser.parseValue mk t m s) .value [] t m s := by
  induction n using Nat.strong_induction_on with
  | _ n ih =>
    intro t m s hsize
    have hvalue : ∀ t m (s' : Parser), s'.size < s.size →
        Takes mk (Parser.parseValue mk t m s') .value [] t m s' :=
      fun t m s' hlt => ih s'.size (by omega) t m s' rfl
    cases t with
    | lbrace =>
      rw [Parser.parseValue]
      unfold Takes accept
      rcases make_spec (mk.beginObject m) with ⟨m₁, hcall, hmake⟩ | ⟨message, hcall, hmake⟩
      · rw [Parser.bind_ok hmake, Parser.parseObject]
        simp only [start, hcall]
        exact Follows.next fun t₁ s₁ hlt => takes_fields hvalue s₁.size t₁ m₁ s₁ rfl hlt
      · simp only [start, hcall]
        exact ⟨message, rfl⟩
    | lbrack =>
      rw [Parser.parseValue]
      unfold Takes accept
      rcases make_spec (mk.beginArray m) with ⟨m₁, hcall, hmake⟩ | ⟨message, hcall, hmake⟩
      · rw [Parser.bind_ok hmake, Parser.parseArray]
        simp only [start, hcall]
        exact Follows.next fun t₁ s₁ hlt => takes_items hvalue s₁.size t₁ m₁ s₁ rfl hlt
      · simp only [start, hcall]
        exact ⟨message, rfl⟩
    | nullToken =>
      rw [Parser.parseValue]
      exact takes_scalar rfl
    | true =>
      rw [Parser.parseValue]
      exact takes_scalar rfl
    | false =>
      rw [Parser.parseValue]
      exact takes_scalar rfl
    | int =>
      rw [Parser.parseValue]
      exact takes_scalar rfl
    | float =>
      rw [Parser.parseValue]
      exact takes_scalar rfl
    | string =>
      rw [Parser.parseValue]
      exact takes_scalar rfl
    | rbrace | rbrack | comma | colon =>
      rw [Parser.parseValue] <;> first | exact ⟨_, rfl⟩ | simp

/-! ## The whole parse -/

/-- The state in which a parser that may have been used before starts on a new input. -/
def Parser.begin (p : Parser) (input : List UInt8) : Parser :=
  { p with line := 1, col := 0, prev := '\x00', input }

theorem follows_doParsing (m : μ) (p : Parser) (input : List UInt8) :
    Follows mk (p.doParsing mk m input) [.value] m (p.begin input) :=
  Follows.next fun t s _ => takes_value s.size t m s rfl

/-- The lexer has no result where the text left is not closed, and only there. -/
theorem next_eq_none_iff (s : Parser) : s.next = none ↔ unclosed .blank s.rest = true := by
  rcases Parser.next_spec s.size s rfl with ⟨hopen, hnone⟩ | ⟨hclosed, hreturns⟩
  · simp [hopen, hnone]
  · simp [hclosed, hreturns.ne_none]

theorem not_step_of_next {f : Frame} {k : List Frame} {m : μ} {s : Parser} (h : s.next = none)
    (d : Config μ) : ¬ Step mk ⟨f :: k, m, s⟩ d := by
  rintro ⟨f', k', t, g, -, hnext, -⟩
  rw [h] at hnext
  cases hnext

/-- Parsing returns or throws a `json::Exception` if and only if each time the parser asks for a token,
the text left to read closes its first string and the comments in front of it. -/
theorem doParsing_returns_iff (mk : Maker μ) (m : μ) (p : Parser) (input : List UInt8) :
    Parser.Returns (p.doParsing mk m input) (fun _ => True) ↔
      ∀ s, Asks mk m (p.begin input) s → unclosed .blank s.rest = false := by
  have hfollows : Follows mk (p.doParsing mk m input) [.value] m (p.begin input) :=
    follows_doParsing m p input
  constructor
  · rintro hreturns s ⟨f, k, m', hreads⟩
    by_contra hopen
    rw [Bool.not_eq_false, ← next_eq_none_iff] at hopen
    rcases hfollows with ⟨m₁, s₁, -, -, hreads₁⟩ | ⟨-, -, f₁, l₁, m₁, s₁, hreads₁, hstop, hne⟩ |
      ⟨hnone, -⟩
    · -- the whole value has been read
      have heq := hreads₁.unique hreads (fun d => by rintro ⟨f', k', t, g, hframes, -⟩; cases hframes)
        (not_step_of_next hopen)
      cases congrArg Config.frames heq
    · -- the parser has thrown
      have heq := hreads₁.unique hreads hstop (not_step_of_next hopen)
      rw [show s₁ = s from congrArg Config.parser heq] at hne
      exact hne hopen
    · exact hreturns.ne_none hnone
  · intro hclosed
    rcases hfollows with ⟨m₁, s₁, hok, -, -⟩ | ⟨message, herror, -⟩ | ⟨-, f, l, m₁, s₁, hreads, hnext⟩
    · exact Or.inl ⟨(m₁, s₁), hok, trivial⟩
    · exact Or.inr ⟨message, herror⟩
    · have hopen := (next_eq_none_iff s₁).mp hnext
      rw [hclosed s₁ ⟨f, l, m₁, hreads⟩] at hopen
      cases hopen

/-- The input is one quote. -/
theorem not_doParsing_returns :
    ¬ ∀ (mk : Maker Unit) (p : Parser) (input : List UInt8),
      Parser.Returns (p.doParsing mk () input) (fun _ => True) := by
  intro h
  have hnext : (Parser.begin ⟨0, 0, [], '\x00', []⟩ [34]).next = none :=
    (next_eq_none_iff _).mpr (by decide)
  exact (h {} ⟨0, 0, [], '\x00', []⟩ [34]).ne_none (Parser.bind_none hnext _)

end Elm.Json
