import Elm.Json.Parser
import Elm.Lib.Document

/-!
# The grammar of JSON texts

A text is a list of characters.  A relation `R x text rest` says that `text` starts with an `R` whose
value is `x` and that `rest` follows it.  The grammar has the objects, the arrays and the scalars of
JSON, strings in single quotes, integers in base 16 and 2 and comments.  It is the same for the
documented texts and for the texts that the parser reads, up to the points that a `Dialect` settles.
-/

namespace Elm.Json

open Io Document

/-- A value that is neither an object nor an array. -/
inductive Scalar
  | null
  | bool (value : Bool)
  | int (value : Int)
  | float (value : ℚ)
  | string (value : List Char)

abbrev Value := Document (List Char) Scalar

/-- The points of the grammar that depend on the dialect. -/
structure Dialect where
  comment : List Char → Prop
  quote : Char → Prop
  /-- A character that stands for itself in a string. -/
  plain : Char → Prop
  /-- A character that may follow a backslash. -/
  escaped : Char → Prop
  /-- What a backslash and a character stand for. -/
  escape : Char → List Char
  /-- What a backslash, an `u` and four hexadecimal digits stand for. -/
  unicode : Nat → Nat → Nat → Nat → List Char
  /-- The string that is made of characters. -/
  string : List Char → List Char
  number : Scalar → List Char → List Char → Prop
  /-- A comma may precede the end of an array or of an object. -/
  lastComma : Prop
  /-- What may follow the value. -/
  follow : List Char → Prop

/-! ## Blanks -/

def IsBlank (c : Char) : Prop := c = '\n' ∨ c = '\t' ∨ c = '\r' ∨ c = ' '

/-- Blanks and comments. -/
inductive Blanks (comment : List Char → Prop) : List Char → List Char → Prop
  | nil (rest : List Char) : Blanks comment rest rest
  | blank {c : Char} {text rest : List Char} (hc : IsBlank c) (h : Blanks comment text rest) :
      Blanks comment (c :: text) rest
  | comment {com text rest : List Char} (hcom : comment com) (h : Blanks comment text rest) :
      Blanks comment (com ++ text) rest

/-- A comment that ends with its line. -/
def IsLine (com : List Char) : Prop := ∃ body, com = '/' :: '/' :: (body ++ ['\n']) ∧ '\n' ∉ body

/-- A comment between `/*` and `*/`. -/
def IsBlock (inside : List Char → Prop) (com : List Char) : Prop :=
  ∃ body, com = '/' :: '*' :: (body ++ ['*', '/']) ∧ inside body

/-- Only blanks and comments are left; the last line may be cut in a comment. -/
def OnlyBlanks (comment : List Char → Prop) (text : List Char) : Prop :=
  ∃ rest, Blanks comment text rest ∧ (rest = [] ∨ ∃ body, rest = '/' :: '/' :: body ∧ '\n' ∉ body)

/-! ## Scalars -/

/-- The body of a string and its closing quote. -/
inductive Body (D : Dialect) (q : Char) : List Char → List Char → List Char → Prop
  | close (rest : List Char) : Body D q [] (q :: rest) rest
  | plain {c : Char} {value text rest : List Char} (hquote : c ≠ q) (hback : c ≠ '\\') (hc : D.plain c)
      (h : Body D q value text rest) : Body D q (c :: value) (c :: text) rest
  | escape {c : Char} {value text rest : List Char} (hc : D.escaped c)
      (h : Body D q value text rest) : Body D q (D.escape c ++ value) ('\\' :: c :: text) rest
  | unicode {c₁ c₂ c₃ c₄ : Char} {x₁ x₂ x₃ x₄ : Nat} {value text rest : List Char}
      (h₁ : Parser.asHex c₁ = some x₁) (h₂ : Parser.asHex c₂ = some x₂)
      (h₃ : Parser.asHex c₃ = some x₃) (h₄ : Parser.asHex c₄ = some x₄)
      (h : Body D q value text rest) :
      Body D q (D.unicode x₁ x₂ x₃ x₄ ++ value) ('\\' :: 'u' :: c₁ :: c₂ :: c₃ :: c₄ :: text) rest

/-- A string between its quotes. -/
def Quoted (D : Dialect) (value text rest : List Char) : Prop :=
  ∃ q body str, D.quote q ∧ text = q :: body ∧ Body D q str body rest ∧ value = D.string str

inductive Spells (D : Dialect) : Scalar → List Char → List Char → Prop
  | null (rest : List Char) : Spells D .null ("null".toList ++ rest) rest
  | true (rest : List Char) : Spells D (.bool Bool.true) ("true".toList ++ rest) rest
  | false (rest : List Char) : Spells D (.bool Bool.false) ("false".toList ++ rest) rest
  | string {value text rest : List Char} (h : Quoted D value text rest) :
      Spells D (.string value) text rest
  | number {x : Scalar} {text rest : List Char} (h : D.number x text rest) : Spells D x text rest

/-! ## Values -/

mutual

inductive Derives (D : Dialect) : Value → List Char → List Char → Prop
  | scalar {x : Scalar} {text text₁ rest : List Char} (hblanks : Blanks D.comment text text₁)
      (hx : Spells D x text₁ rest) : Derives D (.leaf x) text rest
  | array {items : List Value} {text text₁ rest : List Char}
      (hblanks : Blanks D.comment text ('[' :: text₁)) (hitems : DerivesItems D items text₁ rest) :
      Derives D (.array items) text rest
  | object {fields : List (List Char × Value)} {text text₁ rest : List Char}
      (hblanks : Blanks D.comment text ('{' :: text₁)) (hfields : DerivesFields D fields text₁ rest) :
      Derives D (.object fields) text rest

/-- The items of an array and its end. -/
inductive DerivesItems (D : Dialect) : List Value → List Char → List Char → Prop
  | nil {text rest : List Char} (hend : Blanks D.comment text (']' :: rest)) : DerivesItems D [] text rest
  | last {d : Value} {text text₁ rest : List Char} (hd : Derives D d text text₁)
      (hend : Blanks D.comment text₁ (']' :: rest)) : DerivesItems D [d] text rest
  | cons {d : Value} {items : List Value} {text text₁ text₂ rest : List Char}
      (hd : Derives D d text text₁) (hcomma : Blanks D.comment text₁ (',' :: text₂))
      (hmore : items = [] → D.lastComma) (hitems : DerivesItems D items text₂ rest) :
      DerivesItems D (d :: items) text rest

/-- The fields of an object and its end. -/
inductive DerivesFields (D : Dialect) : List (List Char × Value) → List Char → List Char → Prop
  | nil {text rest : List Char} (hend : Blanks D.comment text ('}' :: rest)) :
      DerivesFields D [] text rest
  | last {name : List Char} {d : Value} {text text₁ text₂ text₃ text₄ rest : List Char}
      (hblanks : Blanks D.comment text text₁) (hname : Quoted D name text₁ text₂)
      (hcolon : Blanks D.comment text₂ (':' :: text₃)) (hd : Derives D d text₃ text₄)
      (hend : Blanks D.comment text₄ ('}' :: rest)) : DerivesFields D [(name, d)] text rest
  | cons {name : List Char} {d : Value} {fields : List (List Char × Value)}
      {text text₁ text₂ text₃ text₄ text₅ rest : List Char} (hblanks : Blanks D.comment text text₁)
      (hname : Quoted D name text₁ text₂) (hcolon : Blanks D.comment text₂ (':' :: text₃))
      (hd : Derives D d text₃ text₄) (hcomma : Blanks D.comment text₄ (',' :: text₅))
      (hmore : fields = [] → D.lastComma) (hfields : DerivesFields D fields text₅ rest) :
      DerivesFields D ((name, d) :: fields) text rest

end

/-- The whole text is the value `d`. -/
def IsText (D : Dialect) (d : Value) (text : List Char) : Prop :=
  ∃ rest, Derives D d text rest ∧ D.follow rest

/-! ## A dialect that has the texts of another one -/

/-- What the rules of `D` allow, those of `D'` allow, perhaps with other values. -/
structure Dialect.Covers (D D' : Dialect) : Prop where
  comment : ∀ com, D.comment com → D'.comment com
  quote : ∀ q, D.quote q → D'.quote q
  plain : ∀ c, D.plain c → D'.plain c
  escaped : ∀ c, D.escaped c → D'.escaped c
  number : ∀ {x text rest}, D.number x text rest → ∃ y, D'.number y text rest
  lastComma : D.lastComma → D'.lastComma

namespace Dialect.Covers

variable {D D' : Dialect}

theorem blanks (hcovers : D.Covers D') {text rest : List Char} (h : Blanks D.comment text rest) :
    Blanks D'.comment text rest := by
  induction h with
  | nil rest => exact .nil rest
  | blank hc _ ih => exact .blank hc ih
  | comment hcom _ ih => exact .comment (hcovers.comment _ hcom) ih

theorem body (hcovers : D.Covers D') {q : Char} {value text rest : List Char} (h : Body D q value text rest) :
    ∃ value', Body D' q value' text rest := by
  induction h with
  | close rest => exact ⟨_, .close rest⟩
  | plain hquote hback hc _ ih =>
    obtain ⟨value', hbody⟩ := ih
    exact ⟨_, .plain hquote hback (hcovers.plain _ hc) hbody⟩
  | escape hc _ ih =>
    obtain ⟨value', hbody⟩ := ih
    exact ⟨_, .escape (hcovers.escaped _ hc) hbody⟩
  | unicode h₁ h₂ h₃ h₄ _ ih =>
    obtain ⟨value', hbody⟩ := ih
    exact ⟨_, .unicode h₁ h₂ h₃ h₄ hbody⟩

theorem quoted (hcovers : D.Covers D') {value text rest : List Char} (h : Quoted D value text rest) :
    ∃ value', Quoted D' value' text rest := by
  obtain ⟨q, body, str, hq, htext, hbody, -⟩ := h
  obtain ⟨str', hbody'⟩ := hcovers.body hbody
  exact ⟨_, q, body, str', hcovers.quote q hq, htext, hbody', rfl⟩

theorem spells (hcovers : D.Covers D') {x : Scalar} {text rest : List Char} (h : Spells D x text rest) :
    ∃ y, Spells D' y text rest := by
  cases h with
  | null => exact ⟨_, .null rest⟩
  | true => exact ⟨_, .true rest⟩
  | false => exact ⟨_, .false rest⟩
  | string h =>
    obtain ⟨value', hquoted⟩ := hcovers.quoted h
    exact ⟨_, .string hquoted⟩
  | number h =>
    obtain ⟨y, hread⟩ := hcovers.number h
    exact ⟨y, .number hread⟩

theorem derives (hcovers : D.Covers D') {d : Value} {text rest : List Char} (h : Derives D d text rest) :
    ∃ d', Derives D' d' text rest := by
  refine @Derives.rec D (fun _ text rest _ => ∃ d', Derives D' d' text rest)
    (fun items text rest _ => ∃ items', DerivesItems D' items' text rest ∧ (items' = [] → items = []))
    (fun fields text rest _ => ∃ fields', DerivesFields D' fields' text rest ∧ (fields' = [] → fields = []))
    ?scalar ?array ?object ?endArray ?lastItem ?item ?endObject ?lastField ?field d text rest h
  case scalar =>
    intro x text text₁ rest hb hx
    obtain ⟨y, hy⟩ := hcovers.spells hx
    exact ⟨_, .scalar (hcovers.blanks hb) hy⟩
  case array =>
    rintro items text text₁ rest hb - ⟨items', hitems, -⟩
    exact ⟨_, .array (hcovers.blanks hb) hitems⟩
  case object =>
    rintro fields text text₁ rest hb - ⟨fields', hfields, -⟩
    exact ⟨_, .object (hcovers.blanks hb) hfields⟩
  case endArray => exact fun hend => ⟨_, .nil (hcovers.blanks hend), fun _ => rfl⟩
  case lastItem =>
    rintro d text text₁ rest - hend ⟨d', hd⟩
    exact ⟨_, .last hd (hcovers.blanks hend), by simp⟩
  case item =>
    rintro d items text text₁ text₂ rest - hcomma hmore - ⟨d', hd⟩ ⟨items', hitems, hnil⟩
    exact ⟨_, .cons hd (hcovers.blanks hcomma) (fun h => hcovers.lastComma (hmore (hnil h))) hitems, by simp⟩
  case endObject => exact fun hend => ⟨_, .nil (hcovers.blanks hend), fun _ => rfl⟩
  case lastField =>
    rintro name d text text₁ text₂ text₃ text₄ rest hb hname hcolon - hend ⟨d', hd⟩
    obtain ⟨name', hname'⟩ := hcovers.quoted hname
    exact ⟨_, .last (hcovers.blanks hb) hname' (hcovers.blanks hcolon) hd (hcovers.blanks hend), by simp⟩
  case field =>
    rintro name d fields text text₁ text₂ text₃ text₄ text₅ rest hb hname hcolon - hcomma hmore -
      ⟨d', hd⟩ ⟨fields', hfields, hnil⟩
    obtain ⟨name', hname'⟩ := hcovers.quoted hname
    exact ⟨_, .cons (hcovers.blanks hb) hname' (hcovers.blanks hcolon) hd (hcovers.blanks hcomma)
      (fun h => hcovers.lastComma (hmore (hnil h))) hfields, by simp⟩

end Dialect.Covers

/-! ## The documented texts -/

/-- The characters of a decimal number. -/
def digits : List Char := "0123456789".toList

/-- The number that digits stand for. -/
def numeral (base : Nat) (ds : List Char) : Nat :=
  ds.foldl (fun n c => base * n + (Parser.asHex c).getD 0) 0

/-- Digits of an integer, with no useless zero. -/
def IsInteger (ds : List Char) : Prop :=
  ds = ['0'] ∨ ∃ c cs, ds = c :: cs ∧ c ∈ digits ∧ c ≠ '0' ∧ ∀ c' ∈ cs, c' ∈ digits

/-- The sign of a number. -/
def minus (neg : Bool) : List Char := if neg then ['-'] else []

/-- The text of a number. -/
inductive Number : Scalar → List Char → Prop
  | decimal (neg : Bool) {ds : List Char} (hds : IsInteger ds) :
      Number (.int (if neg then -(numeral 10 ds : Int) else numeral 10 ds)) (minus neg ++ ds)
  | hexadecimal {x : Char} {ds : List Char} (hx : x = 'x' ∨ x = 'X') (hds : ds ≠ [])
      (hhex : ∀ c ∈ ds, c ∈ Parser.baseChars 16) : Number (.int (numeral 16 ds)) ('0' :: x :: ds)
  | binary {b : Char} {ds : List Char} (hb : b = 'b' ∨ b = 'B') (hds : ds ≠ [])
      (hbin : ∀ c ∈ ds, c ∈ Parser.baseChars 2) : Number (.int (numeral 2 ds)) ('0' :: b :: ds)
  | float (l : Literal) (hsign : l.sign ≠ .plus) (hints : IsInteger (digitsText l.ints))
      (hfrac : l.fraction ≠ some []) (hne : l.fraction.isSome ∨ l.exponent.isSome) :
      Number (.float l.value) l.text

/-- No digit, sign, point, exponent, prefix of a base nor `'\0'` follows a number. -/
def EndsNumber (rest : List Char) : Prop :=
  ∀ c ∈ rest.head?,
    c ∉ Parser.baseChars 10 ∧ c ∉ Parser.baseChars 16 ∧ c ≠ 'x' ∧ c ≠ 'X' ∧ c ≠ '\x00'

/-- The character that a backslash and `c` stand for. -/
def unescape (c : Char) : Char :=
  match c with
  | 'b' => '\x08'
  | 'f' => '\x0c'
  | 'n' => '\n'
  | 'r' => '\r'
  | 't' => '\t'
  | _ => c

/-- The number of four hexadecimal digits. -/
def codeUnit (x₁ x₂ x₃ x₄ : Nat) : Nat := ((x₁ * 16 + x₂) * 16 + x₃) * 16 + x₄

/-- The comments of the documented texts. -/
def IsComment (com : List Char) : Prop := IsLine com ∨ IsBlock (fun body => ¬ ['*', '/'] <:+: body) com

/-- JSON with the extensions of the parser. -/
def documented : Dialect where
  comment := IsComment
  quote q := q = '\'' ∨ q = '"'
  plain c := ' ' ≤ c
  escaped c := c ∈ Parser.escapes
  escape c := [unescape c]
  unicode x₁ x₂ x₃ x₄ := Parser.toUTF8 (codeUnit x₁ x₂ x₃ x₄)
  string str := str
  number x text rest := ∃ num, text = num ++ rest ∧ Number x num ∧ EndsNumber rest
  lastComma := False
  follow := OnlyBlanks IsComment

/-- JSON alone, with nothing after the value. -/
def standard : Dialect where
  comment _ := False
  quote q := q = '"'
  plain c := ' ' ≤ c
  escaped c := c ∈ Parser.escapes ∧ c ≠ '\''
  escape c := [unescape c]
  unicode x₁ x₂ x₃ x₄ := Parser.toUTF8 (codeUnit x₁ x₂ x₃ x₄)
  string str := str
  number x text rest := ∃ num, text = num ++ rest ∧ Number x num ∧ EndsNumber rest ∧
    ∀ c ∈ num, c ∈ Parser.baseChars 10
  lastComma := False
  follow rest := rest = []

/-! ## The texts that the parser reads -/

/-- The scalar of a token. -/
def scalar (t : Token) (text : List Char) : Option Scalar :=
  match t with
  | .nullToken => some .null
  | .true => some (.bool Bool.true)
  | .false => some (.bool Bool.false)
  | .int => some (.int (scanLong text))
  | .float => some (.float (scanDouble text))
  | .string => some (.string text)
  | _ => none

/-- A `'\0'` that is pushed back is lost. -/
def dropNul : List Char → List Char
  | [] => []
  | c :: text => if c = '\x00' then text else c :: text

/-- The characters up to a star are skipped, and the one after the star is not looked at again. -/
inductive Stars : List Char → Prop
  | nil : Stars []
  | char {c : Char} {body : List Char} (hc : c ≠ '*') (h : Stars body) : Stars (c :: body)
  | star {c : Char} {body : List Char} (hc : c ≠ '/') (h : Stars body) : Stars ('*' :: c :: body)

/-- The longest run of characters of a base: its token, its text and what follows it. -/
def run (base : Nat) (text : List Char) : Token × List Char × List Char :=
  let chars := text.takeWhile (· ∈ Parser.baseChars base)
  (if chars.any (· ∈ Parser.floatChars) then .float else .int,
    StringBuffer.toString (Parser.basePrefix base ++ chars),
    dropNul (text.dropWhile (· ∈ Parser.baseChars base)))

/-- The number that starts with a zero, on what follows the zero. -/
def afterZero : List Char → Token × List Char × List Char
  | [] => (.int, ['0'], [])
  | c :: text =>
    if c = 'x' ∨ c = 'X' then run 16 text
    else if c = 'b' ∨ c = 'B' then run 2 text
    else if Parser.isNumber c then run 10 (c :: text)
    else (.int, ['0'], dropNul (c :: text))

/-- The number at the start of a text. -/
def leadingNumber : List Char → Option (Token × List Char × List Char)
  | [] => none
  | c :: text =>
    if c = '0' then some (afterZero text)
    else if c = '+' ∨ c = '-' ∨ Parser.isNumber c then some (run 10 (c :: text))
    else none

/-- A comment as `Parser` reads it. -/
def IsReadComment (com : List Char) : Prop := IsLine com ∨ IsBlock Stars com

/-- What `Parser` reads. -/
def lenient : Dialect where
  comment := IsReadComment
  quote q := q = '\'' ∨ q = '"'
  plain _ := True
  escaped c := c ∈ Parser.escapes
  escape _ := []
  unicode x₁ x₂ x₃ x₄ :=
    Parser.toUTF8 x₁ ++ Parser.toUTF8 (x₁ * 16 + x₂) ++ Parser.toUTF8 ((x₁ * 16 + x₂) * 16 + x₃) ++
      Parser.toUTF8 (codeUnit x₁ x₂ x₃ x₄)
  string := StringBuffer.toString
  number x text rest := ∃ t num, leadingNumber text = some (t, num, rest) ∧ scalar t num = some x
  lastComma := True
  follow _ := True

end Elm.Json
