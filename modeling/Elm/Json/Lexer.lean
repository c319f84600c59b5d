import Elm.Json.Parser

/-!
# Termination of the lexer

At the end of the input `nextChar` gives `'\0'`, which ends numbers, literals and escapes but neither
strings nor comments.  `next` has no result exactly when the text left to read starts, after its blanks
and comments, with a string or a comment that the input leaves open.
-/

namespace Elm.Json

open List

/-- Where a character stands: between two tokens, after a `/`, in a line comment, in a block comment,
after a `*` in a block comment, or in a string with a given quote: in its body, after a backslash, on a
digit of an escape with `k` more to come. -/
inductive Place
  | blank | slash | line | block | star
  | body (q : Char)
  | escape (q : Char)
  | hex (q : Char) (k : Nat)

/-- The input may not end there. -/
def Place.isOpen : Place → Bool
  | .line => true
  | .block => true
  | .star => true
  | .body _ => true
  | _ => false

/-- The place after a character, unless a token starts, a string ends or an error occurs. -/
def Place.next : Place → Char → Option Place
  | .blank, c =>
    if c = '\'' ∨ c = '"' then some (.body c)
    else if c = '\n' ∨ c = '\t' ∨ c = '\r' ∨ c = ' ' then some .blank
    else if c = '/' then some .slash
    else none
  | .slash, c => if c = '/' then some .line else if c = '*' then some .block else none
  | .line, c => if c = '\n' then some .blank else some .line
  | .block, c => if c = '*' then some .star else some .block
  | .star, c => if c = '/' then some .blank else some .block
  | .body q, c => if c = q then none else if c ≠ '\\' then some (.body q) else some (.escape q)
  | .escape q, c =>
    if c ∈ Parser.escapes then some (.body q) else if c = 'u' then some (.hex q 3) else none
  | .hex q k, c =>
    if (Parser.asHex c).isSome then
      match k with
      | 0 => some (.body q)
      | k + 1 => some (.hex q k)
    else
      none

/-- The text leaves open its first string, or a comment in front of it. -/
def unclosed : Place → List Char → Bool
  | p, [] => p.isOpen
  | p, c :: r =>
    match p.next c with
    | none => false
    | some p => unclosed p r

theorem unclosed_cons_some {p p' : Place} {c : Char} (h : p.next c = some p') (r : List Char) :
    unclosed p (c :: r) = unclosed p' r := by
  simp only [unclosed, h]

theorem unclosed_cons_none {p : Place} {c : Char} (h : p.next c = none) (r : List Char) :
    unclosed p (c :: r) = false := by
  simp only [unclosed, h]

example : unclosed .blank "/***/1".toList = true := by decide

namespace Parser

/-- The characters left to read. -/
def rest (s : Parser) : List Char :=
  (if s.prev = '\x00' then [] else [s.prev]) ++ s.input.map Char.ofUInt8

/-- The number of characters left to read. -/
def size (s : Parser) : Nat := s.rest.length

/-- `nextChar` takes the first character left, and leaves nothing pushed back. -/
theorem nextChar_spec (s : Parser) :
    s.nextChar.2.prev = '\x00' ∧
      ((s.rest = [] ∧ s.nextChar = ('\x00', s)) ∨
        ∃ c s', s.nextChar = (c, s') ∧ s.rest = c :: s'.rest) := by
  unfold nextChar rest
  by_cases hprev : s.prev = '\x00'
  · rw [if_neg (not_not.mpr hprev)]
    cases hinput : s.input with
    | nil =>
      refine ⟨hprev, Or.inl ⟨?_, rfl⟩⟩
      rw [if_pos hprev]
      rfl
    | cons b input =>
      simp only
      split_ifs
      · exact ⟨hprev, Or.inr ⟨_, _, rfl, by simp [hprev]⟩⟩
      · exact ⟨hprev, Or.inr ⟨_, _, rfl, by simp [hprev]⟩⟩
  · rw [if_pos hprev]
    exact ⟨rfl, Or.inr ⟨_, _, rfl, by simp [hprev]⟩⟩

theorem nextChar_size (s : Parser) :
    s.nextChar.2.size ≤ s.size ∧ (s.nextChar.2.size + 1 = s.size ∨ s.nextChar = ('\x00', s)) := by
  obtain ⟨-, ⟨-, hnext⟩ | ⟨c, s', hnext, hcons⟩⟩ := nextChar_spec s
  · rw [hnext]
    exact ⟨le_rfl, Or.inr rfl⟩
  · have hlen : s'.size + 1 = s.size := by rw [size, size, hcons, length_cons]
    rw [hnext]
    exact ⟨by simp only; omega, Or.inl hlen⟩

/-- Pushing back a character after it has been read. -/
theorem pushBack_spec {s : Parser} (hprev : s.prev = '\x00') (c : Char) :
    ∃ s', s.pushBack c = .ok s' ∧ s'.size ≤ s.size + 1 ∧ (c = '\x00' → s'.size = s.size) := by
  refine ⟨{ s with prev := c }, ?_, ?_, ?_⟩
  · rw [pushBack, if_neg (not_not.mpr hprev)]
  · simp only [size, rest, hprev]
    split_ifs <;> simp
  · intro hc
    simp [size, rest, hprev, hc]

/-- The call returns a value with `post`, or throws a `json::Exception`. -/
def Returns {α : Type} (x : Option (Except Exn α)) (post : α → Prop) : Prop :=
  (∃ a, x = some (.ok a) ∧ post a) ∨ ∃ message, x = some (.error (.exception message))

theorem Returns.imp {α : Type} {x : Option (Except Exn α)} {post post' : α → Prop}
    (h : Returns x post) (himp : ∀ a, post a → post' a) : Returns x post' := by
  rcases h with ⟨a, hx, ha⟩ | herror
  · exact Or.inl ⟨a, hx, himp a ha⟩
  · exact Or.inr herror

theorem Returns.ne_none {α : Type} {x : Option (Except Exn α)} {post : α → Prop}
    (h : Returns x post) : x ≠ none := by
  rcases h with ⟨a, rfl, -⟩ | ⟨message, rfl⟩ <;> simp

/-! ## Numbers and literals -/

/-- The end of the input is not a character of a number. -/
theorem scanNumber_spec {chars : List Char} (hchars : '\x00' ∉ chars) (n : Nat) :
    ∀ (c : Char) (buf : List Char) (t : Token) (s : Parser), s.size = n → s.prev = '\x00' →
      ∃ t' s', scanNumber chars c buf t s = some (.ok (t', s')) ∧ s'.size ≤ s.size + 1 ∧
        (c ∈ chars ∨ c = '\x00' → s'.size ≤ s.size) := by
  induction n using Nat.strong_induction_on with
  | _ n ih =>
    intro c buf t s hsize hprev
    rw [scanNumber]
    by_cases hc : c ∈ chars
    · rw [if_pos hc]
      simp only
      generalize hs₁ : ({ s with col := s.col + 1 } : Parser) = s₁
      have hrest : s₁.rest = s.rest := by rw [← hs₁]; rfl
      obtain ⟨hprev', ⟨hnil, hnext⟩ | ⟨c', s', hnext, hcons⟩⟩ := nextChar_spec s₁
      · -- the end of the input
        rw [hnext] at hprev' ⊢
        simp only at hprev' ⊢
        rw [scanNumber, if_neg hchars]
        obtain ⟨s₂, hpush, -, hsize₂⟩ := pushBack_spec hprev' '\x00'
        refine ⟨_, _, by rw [hpush]; rfl, ?_, fun _ => ?_⟩
        · have hsame : s₂.size = s.size := (hsize₂ rfl).trans (congrArg List.length hrest)
          exact hsame.le.trans (Nat.le_succ _)
        · exact ((hsize₂ rfl).trans (congrArg List.length hrest)).le
      · rw [hnext] at hprev' ⊢
        have hlen : s'.size + 1 = s.size := by
          rw [size, size, ← hrest, hcons, length_cons]
        obtain ⟨t', s'', hscan, hle, -⟩ := ih s'.size (by omega) c' (buf ++ [c]) _ s' rfl hprev'
        exact ⟨t', s'', hscan, by omega, fun _ => by omega⟩
    · rw [if_neg hc]
      obtain ⟨s', hpush, hle, hnull⟩ := pushBack_spec hprev c
      refine ⟨t, { s' with text := Io.StringBuffer.toString buf }, by rw [hpush]; rfl, hle, ?_⟩
      rintro (hmem | hzero)
      · exact absurd hmem hc
      · exact (hnull hzero).le

theorem zero_notMem_baseChars (base : Nat) : '\x00' ∉ baseChars base := by
  unfold baseChars
  split_ifs <;> decide

theorem parseNumber_spec {s : Parser} (hprev : s.prev = '\x00') (c : Char) (base : Nat) :
    ∃ t s', s.parseNumber c base = some (.ok (t, s')) ∧ s'.size ≤ s.size + 1 ∧
      (c ∈ baseChars base ∨ c = '\x00' → s'.size ≤ s.size) :=
  scanNumber_spec (zero_notMem_baseChars base) s.size c _ _ s rfl hprev

theorem mem_baseChars_of_isNumber {c : Char} (hc : isNumber c) : c ∈ baseChars 10 := by
  have hchars : baseChars 10 = "0123456789+-.eE".toList := rfl
  rw [hchars]
  simp only [isNumber, Bool.or_eq_true, Bool.and_eq_true, decide_eq_true_eq] at hc
  rcases hc with ((⟨hlow, hhigh⟩ | rfl) | rfl) | rfl
  · -- the digits, by their codes
    have hcode : c = Char.ofNat c.toNat := (Char.ofNat_toNat c).symm
    have hlow' : 48 ≤ c.toNat := hlow
    have hhigh' : c.toNat ≤ 57 := hhigh
    rw [hcode]
    interval_cases c.toNat <;> decide
  · decide
  · decide
  · decide

theorem parseLitt_spec (litt : List Char) (s : Parser) :
    (∃ s', parseLitt litt s = .ok s' ∧ s'.size ≤ s.size) ∨
      ∃ message, parseLitt litt s = .error (.exception message) := by
  induction litt generalizing s with
  | nil => exact Or.inl ⟨s, rfl, le_rfl⟩
  | cons l litt ih =>
    have hle := (nextChar_size s).1
    rw [parseLitt]
    by_cases hl : s.nextChar.1 ≠ l
    · exact Or.inr ⟨_, if_pos hl⟩
    · simp only [if_neg hl]
      rcases ih s.nextChar.2 with ⟨s', hparse, hsize⟩ | herror
      · exact Or.inl ⟨s', hparse, hsize.trans hle⟩
      · exact Or.inr herror

/-- What follows a `0`. -/
theorem parseBasedNumber_spec (s : Parser) :
    ∃ t s', s.parseBasedNumber = some (.ok (t, s')) ∧ s'.size ≤ s.size := by
  obtain ⟨hprev, -⟩ := nextChar_spec s
  obtain ⟨hle, hread⟩ := nextChar_size s
  -- after a prefix two characters are read at least, and one is pushed back at most
  have hbased : ∀ base, s.nextChar.1 ≠ '\x00' → ∃ t s',
      s.nextChar.2.nextChar.2.parseNumber s.nextChar.2.nextChar.1 base = some (.ok (t, s')) ∧
        s'.size ≤ s.size := by
    intro base hne
    obtain ⟨hprev₂, -⟩ := nextChar_spec s.nextChar.2
    have hle₂ := (nextChar_size s.nextChar.2).1
    obtain ⟨t, s', hparse, hsize, -⟩ := parseNumber_spec hprev₂ s.nextChar.2.nextChar.1 base
    refine ⟨t, s', hparse, ?_⟩
    rcases hread with hcons | hnil
    · omega
    · rw [hnil] at hne
      exact absurd rfl hne
  rw [parseBasedNumber]
  by_cases hhex : s.nextChar.1 = 'x' ∨ s.nextChar.1 = 'X'
  · simp only [if_pos hhex]
    exact hbased 16 (by rcases hhex with h | h <;> rw [h] <;> decide)
  · simp only [if_neg hhex]
    by_cases hbin : s.nextChar.1 = 'b' ∨ s.nextChar.1 = 'B'
    · simp only [if_pos hbin]
      exact hbased 2 (by rcases hbin with h | h <;> rw [h] <;> decide)
    · simp only [if_neg hbin]
      by_cases hnum : isNumber s.nextChar.1
      · simp only [if_pos hnum]
        obtain ⟨t, s', hparse, -, hsize⟩ := parseNumber_spec hprev s.nextChar.1 10
        exact ⟨t, s', hparse, (hsize (Or.inl (mem_baseChars_of_isNumber hnum))).trans hle⟩
      · simp only [if_neg hnum]
        obtain ⟨s', hpush, hsize, hnull⟩ := pushBack_spec hprev s.nextChar.1
        refine ⟨.int, { s' with text := ['0'] }, by rw [hpush]; rfl, ?_⟩
        change s'.size ≤ s.size
        rcases hread with hcons | hnil
        · omega
        · have hsame := hnull (by rw [hnil])
          omega

/-! ## Strings -/

/-- At the end of the input the loop over a string never ends. -/
theorem scanString_end {q : Char} (hq : q ≠ '\x00') (buf : List Char) {s : Parser}
    (hrest : s.rest = []) : scanString q '\x00' buf s = none := by
  cases hrun : scanString q '\x00' buf s with
  | none => rfl
  | some r =>
    have hnever := scanString.partial_correctness q
      (fun c _ s _ => ¬ (c = '\x00' ∧ s.rest = [])) (by
        rintro scan hscan c buf s r hr ⟨rfl, hnil⟩
        have hnext : s.nextChar = ('\x00', s) := by
          obtain ⟨-, ⟨-, hnext⟩ | ⟨c, s', -, hcons⟩⟩ := nextChar_spec s
          · exact hnext
          · rw [hnil] at hcons
            cases hcons
        rw [if_neg (Ne.symm hq), if_pos (by decide)] at hr
        simp only [hnext] at hr
        exact hscan _ _ _ _ hr ⟨rfl, hnil⟩) '\x00' buf s r hrun
    exact absurd ⟨rfl, hrest⟩ hnever

/-- The digits of an escape. -/
theorem scanHex_spec (q : Char) (k : Nat) : ∀ (wc : Nat) (buf : List Char) (s : Parser),
    (∃ buf' s', scanHex (k + 1) wc buf s = .ok (buf', s') ∧ s'.size ≤ s.size ∧
      unclosed (.hex q k) s.rest = unclosed (.body q) s'.rest) ∨
    (∃ message, scanHex (k + 1) wc buf s = .error (.exception message)) ∧
      unclosed (.hex q k) s.rest = Bool.false := by
  induction k with
  | zero =>
    intro wc buf s
    rw [scanHex]
    obtain ⟨-, ⟨hnil, hnext⟩ | ⟨c, s₁, hnext, hcons⟩⟩ := nextChar_spec s
    · rw [hnext, hnil]
      exact Or.inr ⟨⟨_, rfl⟩, rfl⟩
    · have hlen : s₁.size + 1 = s.size := by rw [size, size, hcons, length_cons]
      rw [hnext, hcons]
      cases hhex : asHex c with
      | none =>
        simp only [hhex]
        exact Or.inr ⟨⟨_, rfl⟩, unclosed_cons_none (by simp [Place.next, hhex]) _⟩
      | some d =>
        simp only [hhex, scanHex]
        exact Or.inl ⟨_, s₁, rfl, by omega, unclosed_cons_some (by simp [Place.next, hhex]) _⟩
  | succ k ih =>
    intro wc buf s
    rw [scanHex]
    obtain ⟨-, ⟨hnil, hnext⟩ | ⟨c, s₁, hnext, hcons⟩⟩ := nextChar_spec s
    · rw [hnext, hnil]
      exact Or.inr ⟨⟨_, rfl⟩, rfl⟩
    · have hlen : s₁.size + 1 = s.size := by rw [size, size, hcons, length_cons]
      rw [hnext, hcons]
      cases hhex : asHex c with
      | none =>
        simp only [hhex]
        exact Or.inr ⟨⟨_, rfl⟩, unclosed_cons_none (by simp [Place.next, hhex]) _⟩
      | some d =>
        have hplace : (Place.hex q (k + 1)).next c = some (.hex q k) := by simp [Place.next, hhex]
        rw [unclosed_cons_some hplace]
        simp only [hhex]
        rcases ih (wc <<< 4 ||| d) (buf ++ toUTF8 ((wc <<< 4 ||| d) % 2 ^ 16)) s₁ with
          ⟨buf', s₂, hscan, hle, heq⟩ | herror
        · exact Or.inl ⟨buf', s₂, hscan, by omega, heq⟩
        · exact Or.inr herror

/-- The string on the text left is closed, badly escaped or open. -/
theorem scanString_spec {q : Char} (hq : q ≠ '\x00') (n : Nat) : ∀ (buf : List Char) (s : Parser),
    s.size = n →
      (unclosed (.body q) s.rest = Bool.true ∧ scanString q s.nextChar.1 buf s.nextChar.2 = none) ∨
        (unclosed (.body q) s.rest = Bool.false ∧
          Returns (scanString q s.nextChar.1 buf s.nextChar.2) fun s' => s'.size ≤ s.size) := by
  induction n using Nat.strong_induction_on with
  | _ n ih =>
    intro buf s hsize
    -- the rest of the string, from a smaller state
    have hrest : ∀ (buf : List Char) (s₁ : Parser), s₁.size < s.size →
        (unclosed (.body q) s₁.rest = Bool.true ∧
          scanString q s₁.nextChar.1 buf s₁.nextChar.2 = none) ∨
        (unclosed (.body q) s₁.rest = Bool.false ∧
          Returns (scanString q s₁.nextChar.1 buf s₁.nextChar.2) fun s' => s'.size ≤ s.size) := by
      intro buf s₁ hlt
      rcases ih s₁.size (by omega) buf s₁ rfl with hopen | ⟨hclosed, hreturns⟩
      · exact Or.inl hopen
      · exact Or.inr ⟨hclosed, hreturns.imp fun s' hs' => by omega⟩
    obtain ⟨-, ⟨hnil, hnext⟩ | ⟨c, s₁, hnext, hcons⟩⟩ := nextChar_spec s
    · rw [hnext, hnil]
      exact Or.inl ⟨rfl, scanString_end hq buf hnil⟩
    have hlen₁ : s₁.size + 1 = s.size := by rw [size, size, hcons, length_cons]
    rw [hnext, hcons]
    simp only
    rw [scanString]
    by_cases hc : c = q
    · -- the closing quote
      rw [if_pos hc, unclosed_cons_none (by rw [Place.next, if_pos hc])]
      exact Or.inr ⟨rfl, Or.inl ⟨_, rfl, by change s₁.size ≤ s.size; omega⟩⟩
    rw [if_neg hc]
    by_cases hesc : c ≠ '\\'
    · rw [if_pos hesc, unclosed_cons_some (by rw [Place.next, if_neg hc, if_pos hesc])]
      exact hrest _ s₁ (by omega)
    rw [if_neg hesc, unclosed_cons_some (by rw [Place.next, if_neg hc, if_neg hesc])]
    obtain ⟨-, ⟨hnil₂, hnext₂⟩ | ⟨e, s₂, hnext₂, hcons₂⟩⟩ := nextChar_spec s₁
    · -- the input is cut after the backslash
      rw [hnext₂, hnil₂]
      exact Or.inr ⟨rfl, Or.inr ⟨_, rfl⟩⟩
    have hlen₂ : s₂.size + 1 = s₁.size := by rw [size, size, hcons₂, length_cons]
    rw [hnext₂, hcons₂]
    simp only
    by_cases he : e ∈ escapes
    · rw [if_pos he, unclosed_cons_some (by rw [Place.next, if_pos he])]
      exact hrest buf s₂ (by omega)
    rw [if_neg he]
    by_cases hu : e ≠ 'u'
    · rw [if_pos hu, unclosed_cons_none (by rw [Place.next, if_neg he, if_neg hu])]
      exact Or.inr ⟨rfl, Or.inr ⟨_, rfl⟩⟩
    rw [if_neg hu, unclosed_cons_some (by rw [Place.next, if_neg he, if_pos (not_not.mp hu)])]
    rcases scanHex_spec q 3 0 buf s₂ with
      ⟨buf', s₃, hscan, hle, heq⟩ | ⟨⟨message, hscan⟩, hclosed⟩
    · rw [hscan, heq]
      exact hrest buf' s₃ (by omega)
    · rw [hscan, hclosed]
      exact Or.inr ⟨rfl, Or.inr ⟨message, rfl⟩⟩

/-- A string has no result exactly when it is left open. -/
theorem parseString_spec {q : Char} (hq : q ≠ '\x00') (s : Parser) :
    (unclosed (.body q) s.rest = Bool.true ∧ s.parseString q = none) ∨
      (unclosed (.body q) s.rest = Bool.false ∧
        Returns (s.parseString q) fun s' => s'.size ≤ s.size) :=
  scanString_spec hq s.size [] s rfl

/-! ## Comments -/

theorem nextChar_of_nil {s : Parser} (hnil : s.rest = []) : s.nextChar = ('\x00', s) := by
  obtain ⟨-, ⟨-, hnext⟩ | ⟨c, s', -, hcons⟩⟩ := nextChar_spec s
  · exact hnext
  · rw [hnil] at hcons
    cases hcons

theorem skipLine_end {s : Parser} (hnil : s.rest = []) : skipLine '\x00' s = none := by
  cases hrun : skipLine '\x00' s with
  | none => rfl
  | some r =>
    have hnever := skipLine.partial_correctness (fun c s _ => ¬ (c = '\x00' ∧ s.rest = [])) (by
      rintro skip hskip c s r hr ⟨rfl, hnil⟩
      rw [if_pos (by decide)] at hr
      simp only [nextChar_of_nil hnil] at hr
      exact hskip _ _ _ hr ⟨rfl, hnil⟩) '\x00' s r hrun
    exact absurd ⟨rfl, hnil⟩ hnever

theorem skipToStar_end {s : Parser} (hnil : s.rest = []) : skipToStar s = none := by
  cases hrun : skipToStar s with
  | none => rfl
  | some r =>
    have hnever := skipToStar.partial_correctness (fun s _ => s.rest ≠ []) (by
      rintro skip hskip s r hr hnil
      simp only [nextChar_of_nil hnil] at hr
      rw [if_pos (by decide)] at hr
      exact hskip _ _ hr hnil) s r hrun
    exact absurd hnil hnever

/-- A line comment is closed by the end of the line only. -/
theorem skipLine_spec (n : Nat) : ∀ (s : Parser), s.size = n →
    (unclosed .line s.rest = Bool.true ∧ skipLine s.nextChar.1 s.nextChar.2 = none) ∨
      ∃ s', skipLine s.nextChar.1 s.nextChar.2 = some s' ∧ s'.size ≤ s.size ∧
        unclosed .line s.rest = unclosed .blank s'.rest := by
  induction n using Nat.strong_induction_on with
  | _ n ih =>
    intro s hsize
    obtain ⟨-, ⟨hnil, hnext⟩ | ⟨c, s₁, hnext, hcons⟩⟩ := nextChar_spec s
    · rw [hnext, hnil]
      exact Or.inl ⟨rfl, skipLine_end hnil⟩
    have hlen : s₁.size + 1 = s.size := by rw [size, size, hcons, length_cons]
    rw [hnext, hcons]
    simp only
    rw [skipLine]
    by_cases hc : c = '\n'
    · rw [if_neg (not_not.mpr hc)]
      exact Or.inr ⟨s₁, rfl, by omega, unclosed_cons_some (by rw [Place.next, if_pos hc]) _⟩
    · rw [if_pos hc, unclosed_cons_some (by rw [Place.next, if_neg hc])]
      rcases ih s₁.size (by omega) s₁ rfl with hopen | ⟨s', hskip, hle, heq⟩
      · exact Or.inl hopen
      · exact Or.inr ⟨s', hskip, by omega, heq⟩

theorem skipToStar_spec (n : Nat) : ∀ (s : Parser), s.size = n →
    (unclosed .block s.rest = Bool.true ∧ skipToStar s = none) ∨
      ∃ s', skipToStar s = some s' ∧ s'.size + 1 ≤ s.size ∧
        unclosed .block s.rest = unclosed .star s'.rest := by
  induction n using Nat.strong_induction_on with
  | _ n ih =>
    intro s hsize
    obtain ⟨-, ⟨hnil, hnext⟩ | ⟨c, s₁, hnext, hcons⟩⟩ := nextChar_spec s
    · rw [hnil]
      exact Or.inl ⟨rfl, skipToStar_end hnil⟩
    have hlen : s₁.size + 1 = s.size := by rw [size, size, hcons, length_cons]
    rw [skipToStar, hnext, hcons]
    simp only
    by_cases hc : c = '*'
    · rw [if_neg (not_not.mpr hc)]
      exact Or.inr ⟨s₁, rfl, by omega, unclosed_cons_some (by rw [Place.next, if_pos hc]) _⟩
    · rw [if_pos hc, unclosed_cons_some (by rw [Place.next, if_neg hc])]
      rcases ih s₁.size (by omega) s₁ rfl with hopen | ⟨s', hskip, hle, heq⟩
      · exact Or.inl hopen
      · exact Or.inr ⟨s', hskip, by omega, heq⟩

/-- A block comment is closed by a `/` after one of the stars where the search stops. -/
theorem skipBlock_spec (n : Nat) : ∀ (s : Parser), s.size = n →
    (unclosed .block s.rest = Bool.true ∧ skipBlock s = none) ∨
      ∃ s', skipBlock s = some s' ∧ s'.size ≤ s.size ∧
        unclosed .block s.rest = unclosed .blank s'.rest := by
  induction n using Nat.strong_induction_on with
  | _ n ih =>
    intro s hsize
    rw [skipBlock]
    rcases skipToStar_spec s.size s rfl with ⟨hopen, hskip⟩ | ⟨s₁, hskip, hle₁, heq₁⟩
    · rw [hskip]
      exact Or.inl ⟨hopen, rfl⟩
    rw [hskip, heq₁]
    simp only [Option.bind_eq_bind, Option.bind_some]
    obtain ⟨-, ⟨hnil, hnext⟩ | ⟨c, s₂, hnext, hcons⟩⟩ := nextChar_spec s₁
    · -- the input is cut after the star
      rw [hnext, hnil]
      simp only
      rw [if_neg (by decide)]
      rw [skipBlock, skipToStar_end hnil]
      exact Or.inl ⟨rfl, rfl⟩
    have hlen : s₂.size + 1 = s₁.size := by rw [size, size, hcons, length_cons]
    rw [hnext, hcons]
    simp only
    by_cases hc : c = '/'
    · rw [if_pos hc]
      exact Or.inr ⟨s₂, rfl, by omega, unclosed_cons_some (by rw [Place.next, if_pos hc]) _⟩
    · rw [if_neg hc, unclosed_cons_some (by rw [Place.next, if_neg hc])]
      rcases ih s₂.size (by omega) s₂ rfl with hopen | ⟨s', hskip', hle, heq⟩
      · exact Or.inl hopen
      · exact Or.inr ⟨s', hskip', by omega, heq⟩

/-! ## Tokens -/

theorem bind_ok {α β : Type} {x : Result α} {a : α} (h : x = some (.ok a)) (f : α → Result β) :
    x >>= f = f a := by
  subst h
  rfl

theorem bind_error {α β : Type} {x : Result α} {e : Exn} (h : x = some (.error e))
    (f : α → Result β) : x >>= f = some (.error e) := by
  subst h
  rfl

theorem bind_none {α β : Type} {x : Result α} (h : x = none) (f : α → Result β) :
    x >>= f = none := by
  subst h
  rfl

/-- What follows a call that returns or throws. -/
theorem Returns.bind {α β : Type} {x : Result α} {post : α → Prop} {post' : β → Prop}
    (h : Returns x post) {f : α → Result β} (hf : ∀ a, post a → Returns (f a) post') :
    Returns (x >>= f : Result β) post' := by
  rcases h with ⟨a, hx, ha⟩ | ⟨message, hx⟩
  · rw [bind_ok hx]
    exact hf a ha
  · exact Or.inr ⟨message, bind_error hx f⟩

/-- The comment on the text left is closed, badly opened or open. -/
theorem parseComment_spec (s : Parser) :
    (unclosed .slash s.rest = Bool.true ∧ s.parseComment = none) ∨
      (unclosed .slash s.rest = Bool.false ∧
        ∃ message, s.parseComment = some (.error (.exception message))) ∨
      ∃ s', s.parseComment = some (.ok s') ∧ s'.size ≤ s.size ∧
        unclosed .slash s.rest = unclosed .blank s'.rest := by
  rw [parseComment]
  obtain ⟨-, ⟨hnil, hnext⟩ | ⟨c, s₁, hnext, hcons⟩⟩ := nextChar_spec s
  · rw [hnext, hnil]
    exact Or.inr (Or.inl ⟨rfl, _, rfl⟩)
  have hlen : s₁.size + 1 = s.size := by rw [size, size, hcons, length_cons]
  rw [hnext, hcons]
  simp only
  by_cases hline : c = '/'
  · rw [if_pos hline, unclosed_cons_some (by rw [Place.next, if_pos hline])]
    -- `skipLine` starts on the second `/`
    have hstart : skipLine c s₁ = skipLine s₁.nextChar.1 s₁.nextChar.2 := by
      rw [skipLine, if_pos (by rw [hline]; decide)]
    rw [hstart]
    rcases skipLine_spec s₁.size s₁ rfl with ⟨hopen, hskip⟩ | ⟨s', hskip, hle, heq⟩
    · rw [hskip]
      exact Or.inl ⟨hopen, rfl⟩
    · rw [hskip]
      exact Or.inr (Or.inr ⟨s', rfl, by omega, heq⟩)
  rw [if_neg hline]
  by_cases hblock : c = '*'
  · rw [if_pos hblock, unclosed_cons_some (by rw [Place.next, if_neg hline, if_pos hblock])]
    rcases skipBlock_spec s₁.size s₁ rfl with ⟨hopen, hskip⟩ | ⟨s', hskip, hle, heq⟩
    · rw [hskip]
      exact Or.inl ⟨hopen, rfl⟩
    · rw [hskip]
      exact Or.inr (Or.inr ⟨s', rfl, by omega, heq⟩)
  · rw [if_neg hblock, unclosed_cons_none (by rw [Place.next, if_neg hline, if_neg hblock])]
    exact Or.inr (Or.inl ⟨rfl, _, rfl⟩)

/-- A character that starts no string, no comment and is no blank. -/
theorem place_none {c : Char} (hquote : ¬ (c = '\'' ∨ c = '"'))
    (hblank : ¬ (c = '\n' ∨ c = '\t' ∨ c = '\r' ∨ c = ' ')) (hslash : c ≠ '/') :
    Place.blank.next c = none := by
  rw [Place.next, if_neg hquote, if_neg hblank, if_neg hslash]

theorem symbol_place {c : Char} {t : Token} (h : symbol c = some t) : Place.blank.next c = none := by
  unfold symbol at h
  split at h <;> first | rfl | cases h

/-- `next` has no result exactly when the text left is not closed. -/
theorem next_spec (n : Nat) : ∀ (s : Parser), s.size = n →
    (unclosed .blank s.rest = Bool.true ∧ s.next = none) ∨
      (unclosed .blank s.rest = Bool.false ∧ Returns s.next fun r => r.2.size < s.size) := by
  induction n using Nat.strong_induction_on with
  | _ n ih =>
    intro s hsize
    rw [next]
    obtain ⟨hprev, ⟨hnil, hnext⟩ | ⟨c, s₁, hnext, hcons⟩⟩ := nextChar_spec s
    · rw [hnext, hnil]
      exact Or.inr ⟨rfl, Or.inr ⟨_, rfl⟩⟩
    have hlen : s₁.size + 1 = s.size := by rw [size, size, hcons, length_cons]
    rw [hnext] at hprev
    rw [hnext, hcons]
    simp only at hprev ⊢
    -- the tokens, from a smaller state
    have hrest : ∀ s₂ : Parser, s₂.size < s.size →
        (unclosed .blank s₂.rest = Bool.true ∧ s₂.next = none) ∨
        (unclosed .blank s₂.rest = Bool.false ∧ Returns s₂.next fun r => r.2.size < s.size) := by
      intro s₂ hlt
      rcases ih s₂.size (by omega) s₂ rfl with hopen | ⟨hclosed, hreturns⟩
      · exact Or.inl hopen
      · exact Or.inr ⟨hclosed, hreturns.imp fun r hr => by omega⟩
    cases hsym : symbol c with
    | some t =>
      rw [unclosed_cons_none (symbol_place hsym)]
      exact Or.inr ⟨rfl, Or.inl ⟨(t, s₁), rfl, by simp only; omega⟩⟩
    | none =>
      simp only
      by_cases hquote : c = '\'' ∨ c = '"'
      · rw [if_pos hquote, unclosed_cons_some (by rw [Place.next, if_pos hquote])]
        have hq : c ≠ '\x00' := by
          rcases hquote with rfl | rfl <;> decide
        rcases parseString_spec hq s₁ with ⟨hopen, hnone⟩ | ⟨hclosed, hreturns⟩
        · exact Or.inl ⟨hopen, bind_none hnone _⟩
        · refine Or.inr ⟨hclosed, hreturns.bind fun s₂ hs₂ => ?_⟩
          exact Or.inl ⟨(.string, s₂), rfl, by simp only; omega⟩
      rw [if_neg hquote]
      by_cases hblank : c = '\n' ∨ c = '\t' ∨ c = '\r' ∨ c = ' '
      · rw [if_pos hblank, unclosed_cons_some (by rw [Place.next, if_neg hquote, if_pos hblank])]
        exact hrest s₁ (by omega)
      rw [if_neg hblank]
      by_cases hslash : c = '/'
      · subst hslash
        rw [unclosed_cons_some (show Place.blank.next '/' = some .slash from rfl)]
        rcases parseComment_spec s₁ with ⟨hopen, hnone⟩ | ⟨hclosed, message, herror⟩ |
          ⟨s₂, hok, hle, heq⟩
        · exact Or.inl ⟨hopen, bind_none hnone _⟩
        · exact Or.inr ⟨hclosed, Or.inr ⟨message, bind_error herror _⟩⟩
        · rw [heq]
          have hgo := hrest s₂ (by omega)
          rw [← bind_ok hok Parser.next] at hgo
          exact hgo
      rw [unclosed_cons_none (place_none hquote hblank hslash)]
      refine Or.inr ⟨rfl, ?_⟩
      by_cases hsign : c = '+' ∨ c = '-'
      · rw [if_pos hsign]
        obtain ⟨t, s', hparse, -, hle⟩ := parseNumber_spec hprev c 10
        have hmem : c ∈ baseChars 10 := by
          rcases hsign with rfl | rfl <;> decide
        exact Or.inl ⟨(t, s'), hparse, by have := hle (Or.inl hmem); simp only; omega⟩
      rw [if_neg hsign]
      cases hlit : literal c with
      | some l =>
        obtain ⟨litt, t⟩ := l
        rcases parseLitt_spec litt s₁ with ⟨s₂, hparse, hle⟩ | ⟨message, herror⟩
        · simp only [hparse]
          exact Or.inl ⟨(t, s₂), rfl, by simp only; omega⟩
        · simp only [herror]
          exact Or.inr ⟨message, rfl⟩
      | none =>
        simp only
        rw [if_neg hslash]
        by_cases hzero : c = '0'
        · rw [if_pos hzero]
          obtain ⟨t, s', hparse, hle⟩ := parseBasedNumber_spec s₁
          exact Or.inl ⟨(t, s'), hparse, by simp only; omega⟩
        rw [if_neg hzero]
        by_cases hnum : isNumber c
        · rw [if_pos hnum]
          obtain ⟨t, s', hparse, -, hle⟩ := parseNumber_spec hprev c 10
          have hmem := hle (Or.inl (mem_baseChars_of_isNumber hnum))
          exact Or.inl ⟨(t, s'), hparse, by simp only; omega⟩
        · rw [if_neg hnum]
          exact Or.inr ⟨_, rfl⟩

end Parser

end Elm.Json
