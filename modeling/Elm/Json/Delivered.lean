import Elm.Json.Accepted

/-!
# What is delivered for a string or a number

When the text left to read starts with a string or with a number, the maker is told one scalar.  For a string it is
the right one exactly when there is no backslash and the string is not cut.  For a number, an integer is not always
read in its base, and it is never an error.
-/

namespace Elm.Json

open Io Document List

namespace Parser

/-- The reading of a value: `parseValue` on the next token. -/
def parseNext {μ : Type} (mk : Maker μ) (m : μ) (s : Parser) : Result (μ × Parser) := do
  let (t, s) ← s.next
  s |>.parseValue mk t m

/-- Every maker is told `x` and nothing else, and `rest` is left to read. -/
def Delivers (s : Parser) (x : Scalar) (rest : List Char) : Prop :=
  ∃ s' : Parser, s'.rest = rest ∧ ∀ (μ : Type) (mk : Maker μ) (m : μ),
    parseNext mk m s = make (mk.call m (.leaf x)) >>= fun m => pure (m, s')

/-- The next token is a string of this value, which is the name of the field where a field is expected. -/
def ReadsString (s : Parser) (value rest : List Char) : Prop :=
  ∃ s' : Parser, s.next = some (.ok (.string, s')) ∧ s'.text = value ∧ s'.rest = rest

/-- The reading of the next value is an error, whatever the maker. -/
def Fails (s : Parser) : Prop :=
  ∀ (μ : Type) (mk : Maker μ) (m : μ), ∃ e, parseNext mk m s = some (.error e)

section Tells

variable {s : Parser} {x y : Scalar} {rest : List Char}

/-- The scalar that is read is the one that is delivered. -/
theorem delivers_of_spells (h : Spells lenient y s.rest rest) : s.Delivers y rest := by
  obtain ⟨t, s', hnext, hscalar, hrest⟩ := next_spells h rfl
  refine ⟨s', hrest, fun μ mk m => ?_⟩
  have hparse : parseNext mk m s = parseValue mk t m s' := by
    rw [parseNext, hnext]
    rfl
  rw [hparse, parseValue_scalar hscalar]

theorem Delivers.parse_recorder (h : s.Delivers x rest) :
    ∃ s', parseNext recorder [] s = some (.ok ([.leaf x], s')) := by
  obtain ⟨s', -, hparse⟩ := h
  refine ⟨s', ?_⟩
  rw [hparse, make_ok (recorder_call [] (.leaf x))]
  rfl

/-- Only one scalar is delivered. -/
theorem Delivers.unique (h : s.Delivers x rest) (h' : s.Delivers y rest) : x = y := by
  obtain ⟨s₁, hx⟩ := h.parse_recorder
  obtain ⟨s₂, hy⟩ := h'.parse_recorder
  rw [hx] at hy
  injection hy with hy
  injection hy with hy
  injection hy with hcalls
  injection hcalls with hleaf
  injection hleaf

theorem delivers_iff_eq (h : Spells lenient y s.rest rest) : s.Delivers x rest ↔ x = y := by
  constructor
  · intro hx
    exact hx.unique (delivers_of_spells h)
  · rintro rfl
    exact delivers_of_spells h

theorem Delivers.not_fails (h : s.Delivers x rest) : ¬ s.Fails := by
  intro hfails
  obtain ⟨s', hparse⟩ := h.parse_recorder
  obtain ⟨e, herror⟩ := hfails _ recorder []
  rw [hparse] at herror
  cases herror

end Tells

end Parser

/-! ## Strings -/

section Strings

variable {D : Dialect} {q : Char} {value lit rest : List Char}

/-- Without a backslash, a string is its characters. -/
theorem Body.eq_of_notMem (hq : q ≠ '\\') (h : Body D q value (lit ++ q :: rest) rest) (hback : '\\' ∉ lit) :
    value = lit := by
  induction lit generalizing value with
  | nil =>
    generalize htext : [] ++ q :: rest = text at h
    cases h with
    | close => rfl
    | plain hquote => exact absurd (List.cons.inj htext).1.symm hquote
    | escape => exact absurd (List.cons.inj htext).1 hq
    | unicode => exact absurd (List.cons.inj htext).1 hq
  | cons c lit ih =>
    rw [mem_cons, not_or] at hback
    generalize htext : c :: lit ++ q :: rest = text at h
    cases h with
    | close =>
      -- the text would end before its end
      have hlen : (lit ++ q :: rest).length = rest.length := congrArg List.length (List.cons.inj htext).2
      rw [length_append, length_cons] at hlen
      omega
    | plain hquote hslash hc h =>
      obtain ⟨rfl, rfl⟩ := List.cons.inj htext
      rw [ih h hback.2]
    | escape => exact absurd (List.cons.inj htext).1.symm hback.1
    | unicode => exact absurd (List.cons.inj htext).1.symm hback.1

/-- The string that is read is the one that is meant exactly when there is no escape and it is not cut. -/
theorem body_lenient_iff (hq : q ≠ '\\') (h : Body meant q value (lit ++ q :: rest) rest) :
    ∃ value', Body lenient q value' (lit ++ q :: rest) rest ∧
      (value = StringBuffer.toString value' ↔ '\\' ∉ lit ∧ lit.length < 2 ^ 16) := by
  obtain ⟨value', esc, hbody, hspelled, hplain⟩ := body_lenient h
  refine ⟨value', hbody, ?_⟩
  constructor
  · intro heq
    obtain ⟨rfl, -, hback, htext⟩ := hplain (hspelled.eq_false_of_toString heq.symm)
    rw [append_cancel_right htext]
    refine ⟨hback, ?_⟩
    rw [heq]
    exact StringBuffer.toString_length_lt _
  · rintro ⟨hback, hshort⟩
    rw [h.eq_of_notMem hq hback, hbody.eq_of_notMem hq hback, StringBuffer.toString_of_lt hshort]

/-- A string is delivered, as a value or as the name of a field, with the value that it denotes exactly when it has no
escape and less than `2 ^ 16` characters. -/
theorem delivers_string_iff (s : Parser) (q : Char) (value lit rest : List Char) (hq : q = '\'' ∨ q = '"')
    (h : Body meant q value (lit ++ q :: rest) rest) (hrest : s.rest = q :: (lit ++ q :: rest)) :
    (s.Delivers (.string value) rest ↔ '\\' ∉ lit ∧ lit.length < 2 ^ 16) ∧
      (s.ReadsString value rest ↔ '\\' ∉ lit ∧ lit.length < 2 ^ 16) := by
  have hslash : q ≠ '\\' := by
    rcases hq with rfl | rfl
    · decide
    · decide
  obtain ⟨value', hbody, hiff⟩ := body_lenient_iff hslash h
  have hspells : Spells lenient (.string (StringBuffer.toString value')) s.rest rest :=
    .string ⟨q, _, value', hq, hrest, hbody, rfl⟩
  constructor
  · rw [Parser.delivers_iff_eq hspells, Scalar.string.injEq, hiff]
  · rw [← hiff]
    obtain ⟨t, s', hnext, hscalar, hrest'⟩ := Parser.next_spells hspells rfl
    obtain ⟨rfl, htext⟩ := string_of_scalar hscalar
    constructor
    · rintro ⟨s₁, hnext₁, rfl, -⟩
      rw [hnext] at hnext₁
      cases hnext₁
      exact htext
    · rintro rfl
      exact ⟨s', hnext, htext, hrest'⟩

end Strings

/-- A parser at the start of these bytes. -/
def startOn (input : List UInt8) : Parser := { fresh with input }

theorem delivers_string_iff_a : (startOn [0x22, 0x61, 0x22]).Delivers (.string ['a']) [] ∧
    (startOn [0x22, 0x61, 0x22]).ReadsString ['a'] [] := by
  have hbody : Body meant '"' ['a'] ['a', '"'] [] :=
    body_plain (by decide) (by decide) (fun _ _ => trivial) []
  have h := delivers_string_iff (startOn [0x22, 0x61, 0x22]) '"' ['a'] ['a'] [] (Or.inr rfl) hbody (by decide)
  exact ⟨h.1.mpr (by decide), h.2.mpr (by decide)⟩

/-- The newline of `"\n"` is lost. -/
theorem not_delivers_string_newline : ¬ (startOn [0x22, 0x5C, 0x6E, 0x22]).Delivers (.string ['\n']) [] := by
  have hescape : lenient.escaped 'n' := show 'n' ∈ Parser.escapes by decide
  have hbody : Body lenient '"' [] ['\\', 'n', '"'] [] := .escape hescape (.close [])
  have hrest : (startOn [0x22, 0x5C, 0x6E, 0x22]).rest = ['"', '\\', 'n', '"'] := by decide
  rw [Parser.delivers_iff_eq (.string ⟨'"', _, _, Or.inr rfl, hrest, hbody, rfl⟩)]
  exact fun heq => by cases heq

/-! ## The digits after a zero -/

/-- The value of a digit. -/
def digitValue (c : Char) : Nat := (Parser.asHex c).getD 0

/-- The value of digits, after those of `n`. -/
def valueFrom (base n : Nat) (ds : List Char) : Nat := ds.foldl (fun n c => base * n + digitValue c) n

theorem valueFrom_cons (base n : Nat) (c : Char) (ds : List Char) :
    valueFrom base n (c :: ds) = valueFrom base (base * n + digitValue c) ds := rfl

theorem le_valueFrom (n : Nat) (ds : List Char) : n ≤ valueFrom 10 n ds := le_foldl_digits (by decide) ds n

/-- The octal digits are the decimal ones below eight. -/
theorem testBase_octal : ∀ c ∈ digits, digitValue c < 10 ∧
    testBase c 8 = if digitValue c < 8 then some (digitValue c) else none := by decide

theorem scanDigits_octal_cons {c : Char} (hc : c ∈ digits) (ds : List Char) (val : UInt32) :
    scanDigits 8 (c :: ds) val =
      if digitValue c < 8 then
        if val * 8 + UInt32.ofNat (digitValue c) < val then 0
        else scanDigits 8 ds (val * 8 + UInt32.ofNat (digitValue c))
      else val := by
  rw [scanDigits, (testBase_octal c hc).2]
  by_cases hoct : digitValue c < 8
  · rw [if_pos hoct, if_pos hoct]
    rfl
  · rw [if_neg hoct, if_neg hoct]

theorem toNat_octal_le (val : UInt32) {d : Nat} (hd : d < 10) :
    (val * 8 + UInt32.ofNat d).toNat ≤ 8 * val.toNat + d := by
  rw [UInt32.toNat_add, UInt32.toNat_mul, UInt32.toNat_ofNat_of_lt' (hd.trans (by decide))]
  have height : (8 : UInt32).toNat = 8 := rfl
  rw [height]
  omega

/-- A value that is behind in base 8 stays behind. -/
theorem scanDigits_octal_lt {ds : List Char} (hds : ∀ c ∈ ds, c ∈ digits) {val : UInt32} {n : Nat}
    (hlt : val.toNat < n) : (scanDigits 8 ds val).toNat < valueFrom 10 n ds := by
  induction ds generalizing val n with
  | nil => exact hlt
  | cons c ds ih =>
    have hc := hds c mem_cons_self
    have hds' : ∀ c ∈ ds, c ∈ digits := fun c hc => hds c (mem_cons_of_mem _ hc)
    have hmono : 10 * n + digitValue c ≤ valueFrom 10 n (c :: ds) := le_valueFrom _ ds
    have hnext := toNat_octal_le val (testBase_octal c hc).1
    rw [scanDigits_octal_cons hc]
    split_ifs with hoct hwrap
    · -- after a carry the scan gives 0
      have hzero : (0 : UInt32).toNat = 0 := rfl
      rw [hzero]
      omega
    · rw [valueFrom_cons]
      exact ih hds' (by omega)
    · omega

/-- A value of one digit is the same in base 8 exactly when it stays less than eight. -/
theorem scanDigits_octal_iff {ds : List Char} (hds : ∀ c ∈ ds, c ∈ digits) {n : Nat} (hn : n < 8) :
    (scanDigits 8 ds (UInt32.ofNat n)).toNat = valueFrom 10 n ds ↔ valueFrom 10 n ds < 8 := by
  have hval : (UInt32.ofNat n).toNat = n := UInt32.toNat_ofNat_of_lt' (hn.trans (by decide))
  induction ds generalizing n with
  | nil => exact iff_of_true hval hn
  | cons c ds ih =>
    have hc := hds c mem_cons_self
    have hds' : ∀ c ∈ ds, c ∈ digits := fun c hc => hds c (mem_cons_of_mem _ hc)
    have hmono : 10 * n + digitValue c ≤ valueFrom 10 n (c :: ds) := le_valueFrom _ ds
    have hnext := toNat_octal_le (UInt32.ofNat n) (testBase_octal c hc).1
    rw [scanDigits_octal_cons hc]
    by_cases hoct : digitValue c < 8
    · rw [if_pos hoct]
      by_cases hzero : n = 0
      · -- zeros may come first
        subst hzero
        have hnil : UInt32.ofNat 0 = 0 := rfl
        rw [hnil, UInt32.zero_mul, UInt32.zero_add, if_neg UInt32.not_lt_zero, valueFrom_cons, Nat.mul_zero,
          Nat.zero_add]
        exact ih hds' hoct (UInt32.toNat_ofNat_of_lt' (hoct.trans (by decide)))
      · have hlt : (scanDigits 8 ds (UInt32.ofNat n * 8 + UInt32.ofNat (digitValue c))).toNat <
            valueFrom 10 n (c :: ds) := by
          rw [valueFrom_cons]
          exact scanDigits_octal_lt hds' (by omega)
        refine iff_of_false ?_ (by omega)
        split_ifs
        · exact Nat.ne_of_lt (by simp; omega)
        · exact hlt.ne
    · -- the digit is not read
      rw [if_neg hoct]
      exact iff_of_false (by omega) (by omega)

/-- A zero comes before another digit. -/
def LeadingZero (ds : List Char) : Prop := ∃ c cs, ds = '0' :: c :: cs

theorem skip_digits {ds : List Char} (hds : ∀ c ∈ ds, c ∈ digits) : skip ds = ds := by
  cases ds with
  | nil => rfl
  | cons c cs => exact skip_cons (digits_notSpace c (hds c mem_cons_self)) cs

/-- Decimal digits are scanned with their value, unless the base that a zero stands for changes it. -/
theorem scanULong_digits_iff {ds : List Char} (hds : ∀ c ∈ ds, c ∈ digits) (hlt : numeral 10 ds < 2 ^ 32) :
    (scanULong ds).toNat = numeral 10 ds ↔ (LeadingZero ds → numeral 10 ds < 8) := by
  have hskip := skip_digits hds
  by_cases hzero : LeadingZero ds
  · obtain ⟨c, cs, rfl⟩ := hzero
    have hc : c ∈ digits := hds c (by simp)
    have hmark : ∀ c ∈ digits, ¬ (c = 'x' ∨ c = 'X') ∧ ¬ (c = 'b' ∨ c = 'B') := by decide
    have hscan : scanULong ('0' :: c :: cs) = scanDigits 8 (c :: cs) 0 := by
      rw [scanULong, hskip]
      simp only [if_neg (hmark c hc).1, if_neg (hmark c hc).2]
    rw [hscan, imp_iff_right ⟨c, cs, rfl⟩]
    exact scanDigits_octal_iff (fun c' hc' => hds c' (mem_cons_of_mem _ hc')) (by decide)
  · have hscan : scanULong ds = scanDigits 10 ds 0 := by
      rw [scanULong, hskip]
      split
      next c cs => exact absurd ⟨c, cs, rfl⟩ hzero
      next => rfl
    rw [hscan]
    exact iff_of_true (scanDigits_numeral (by decide) (fun c hc => testBase_decimal c (hds c hc)) hlt)
      fun h => absurd h hzero

theorem digits_notSign {ds : List Char} (hds : ∀ c ∈ ds, c ∈ digits) : ∀ c ∈ ds.head?, c ≠ '-' ∧ c ≠ '+' := by
  intro c hc
  have hall : ∀ c ∈ digits, c ≠ '-' ∧ c ≠ '+' := by decide
  exact hall c (hds c (mem_of_mem_head? hc))

theorem scanLong_sign (sign : Sign) {ds : List Char} (hds : ∀ c ∈ ds, c ∈ digits) :
    scanLong (sign.text ++ ds) =
      if (scanULong ds).toNat ≥ 2 ^ 31 then 0 else sign.toInt * (scanULong ds).toNat := by
  cases sign with
  | none =>
    have hskip : skip ([] ++ ds) = minus false ++ ds := skip_digits hds
    rw [Sign.text, scanLong_eq hskip (digits_notSign hds), Sign.toInt, Int.one_mul]
    rfl
  | plus =>
    have hskip : skip ('+' :: ds) = '+' :: ds := skip_cons (by decide) ds
    rw [Sign.text, singleton_append, scanLong, hskip, Sign.toInt, Int.one_mul]
    rfl
  | minus =>
    have hskip : skip ('-' :: ds) = minus true ++ ds := skip_cons (by decide) ds
    rw [Sign.text, singleton_append, scanLong_eq hskip (digits_notSign hds), Sign.toInt, Int.neg_one_mul]
    rfl

/-- A signed text of digits is scanned with its value, under the same condition, when the value is an `int`. -/
theorem scanLong_digits_iff (sign : Sign) {ds : List Char} (hds : ∀ c ∈ ds, c ∈ digits)
    (hlt : numeral 10 ds < 2 ^ 31) :
    scanLong (sign.text ++ ds) = sign.toInt * numeral 10 ds ↔ (LeadingZero ds → numeral 10 ds < 8) := by
  have hiff := scanULong_digits_iff hds (by omega)
  rw [scanLong_sign sign hds, ← hiff]
  constructor
  · intro heq
    -- a value that is not the right one is not small, and neither 0 nor another value has its opposite
    by_contra hne
    have hlarge : ¬ numeral 10 ds < 8 := fun hsmall => hne (hiff.mpr fun _ => hsmall)
    rcases sign.toInt_eq with hsign | hsign
    · rw [hsign] at heq
      split_ifs at heq <;> omega
    · rw [hsign] at heq
      split_ifs at heq <;> omega
  · intro heq
    rw [heq, if_neg (by omega)]

/-! ## The text that is scanned -/

/-- The digits that are scanned: a zero that comes first is lost, unless there is a sign or no other digit. -/
def scanned : Sign → List Char → List Char
  | .none, '0' :: c :: cs => c :: cs
  | _, ds => ds

theorem scanned_of_leadingZero {ds : List Char} (h : LeadingZero ds) : scanned .none ds = ds.tail := by
  obtain ⟨c, cs, rfl⟩ := h
  rfl

theorem scanned_of_not_leadingZero {ds : List Char} (h : ¬ LeadingZero ds) : scanned .none ds = ds := by
  unfold scanned
  split
  · rename_i c cs _
    exact absurd ⟨c, cs, rfl⟩ h
  · rfl

theorem scanned_digits (sign : Sign) {ds : List Char} (hds : ∀ c ∈ ds, c ∈ digits) :
    ∀ c ∈ scanned sign ds, c ∈ digits := by
  cases sign with
  | none =>
    by_cases hzero : LeadingZero ds
    · rw [scanned_of_leadingZero hzero]
      exact fun c hc => hds c (mem_of_mem_tail hc)
    · rwa [scanned_of_not_leadingZero hzero]
  | plus => exact hds
  | minus => exact hds

/-- The zero that is lost does not count. -/
theorem numeral_scanned (sign : Sign) (ds : List Char) : numeral 10 (scanned sign ds) = numeral 10 ds := by
  cases sign with
  | none =>
    by_cases hzero : LeadingZero ds
    · rw [scanned_of_leadingZero hzero]
      obtain ⟨c, cs, rfl⟩ := hzero
      rfl
    · rw [scanned_of_not_leadingZero hzero]
  | plus => rfl
  | minus => rfl

theorem isInteger_of_not_leadingZero {ds : List Char} (hds : ∀ c ∈ ds, c ∈ digits) (hne : ds ≠ [])
    (h : ¬ LeadingZero ds) : IsInteger ds := by
  cases ds with
  | nil => exact absurd rfl hne
  | cons c cs =>
    by_cases hc : c = '0'
    · subst hc
      cases cs with
      | nil => exact Or.inl rfl
      | cons c' cs => exact absurd ⟨c', cs, rfl⟩ h
    · exact Or.inr ⟨c, cs, rfl, hds c mem_cons_self, hc, fun c' hc' => hds c' (mem_cons_of_mem _ hc')⟩

/-- The number at the start of a text, whatever its zeros and its sign. -/
theorem leadingNumber_signed (sign : Sign) {ds tail rest : List Char} (hds : ∀ c ∈ ds, c ∈ digits) (hne : ds ≠ [])
    (htail : ∀ c ∈ tail, c ∈ Parser.baseChars 10) (hhead : ∀ c ∈ tail.head?, c ∈ Parser.floatChars)
    (hends : EndsNumber rest) :
    ∃ text, leadingNumber (sign.text ++ ds ++ tail ++ rest) =
        some (if tail = [] then .int else .float, StringBuffer.toString text, rest) ∧
      (tail = [] → text = sign.text ++ scanned sign ds) := by
  have hchars : ∀ c ∈ ds, c ∈ Parser.baseChars 10 ∧ c ∉ Parser.floatChars :=
    fun c hc => ⟨digits_baseChars c (hds c hc), digits_notFloat c (hds c hc)⟩
  have hsigned : ∀ c, c = '+' ∨ c = '-' → leadingNumber (c :: ds ++ tail ++ rest) =
      some (if tail = [] then .int else .float, StringBuffer.toString (c :: ds ++ tail), rest) := by
    intro c hc
    have hl : ∀ c' ∈ c :: ds, c' ∈ Parser.baseChars 10 ∧ c' ∉ Parser.floatChars := by
      refine forall_mem_cons.mpr ⟨?_, hchars⟩
      rcases hc with rfl | rfl
      · decide
      · decide
    have hzero : c ≠ '0' := by
      rcases hc with rfl | rfl
      · decide
      · decide
    have hrun := run_tail hl htail hhead hends
    rw [hends.dropNul] at hrun
    rw [← hrun]
    exact leadingNumber_of_ne_zero hzero (hc.elim Or.inl fun h => Or.inr (Or.inl h))
  cases sign with
  | none =>
    by_cases hzero : LeadingZero ds
    · -- the digits after the first zero are the number
      rw [scanned_of_leadingZero hzero]
      obtain ⟨c, cs, rfl⟩ := hzero
      have hc : c ∈ digits := hds c (by simp)
      have hmark : ∀ c ∈ digits, ¬ (c = 'x' ∨ c = 'X') ∧ ¬ (c = 'b' ∨ c = 'B') := by decide
      have hrun := run_tail (l := c :: cs) (fun c' hc' => hchars c' (mem_cons_of_mem _ hc')) htail hhead hends
      rw [hends.dropNul] at hrun
      refine ⟨c :: cs ++ tail, ?_, by rintro rfl; simp [Sign.text]⟩
      change some (afterZero (c :: (cs ++ tail ++ rest))) = _
      rw [afterZero, if_neg (hmark c hc).1, if_neg (hmark c hc).2, if_pos (digits_isNumber c hc)]
      exact congrArg some hrun
    · rw [scanned_of_not_leadingZero hzero]
      have hlead := leadingNumber_decimal false (isInteger_of_not_leadingZero hds hne hzero) htail hhead hends
      rw [hends.dropNul] at hlead
      exact ⟨_, hlead, by rintro rfl; simp [scannedText, minus, Sign.text]⟩
  | plus => exact ⟨_, hsigned '+' (Or.inl rfl), by rintro rfl; simp [Sign.text, scanned]⟩
  | minus => exact ⟨_, hsigned '-' (Or.inr rfl), by rintro rfl; simp [Sign.text, scanned]⟩

/-! ## Numbers -/

/-- A number of the texts that are parsed: a decimal integer, an integer in base 16 or 2, or a number with a fraction
or an exponent. -/
inductive NumberLiteral
  | decimal (sign : Sign) (ds : List Char) (hne : ds ≠ []) (hds : ∀ c ∈ ds, c ∈ digits)
  | hexadecimal (mark : Char) (ds : List Char) (hmark : mark = 'x' ∨ mark = 'X') (hne : ds ≠ [])
      (hds : ∀ c ∈ ds, c ∈ Parser.baseChars 16)
  | binary (mark : Char) (ds : List Char) (hmark : mark = 'b' ∨ mark = 'B') (hne : ds ≠ [])
      (hds : ∀ c ∈ ds, c ∈ Parser.baseChars 2)
  | float (l : Literal) (hints : l.ints ≠ []) (htail : l.fraction.isSome ∨ l.exponent.isSome)

namespace NumberLiteral

def text : NumberLiteral → List Char
  | decimal sign ds _ _ => sign.text ++ ds
  | hexadecimal mark ds _ _ _ => '0' :: mark :: ds
  | binary mark ds _ _ _ => '0' :: mark :: ds
  | float l _ _ => l.text

/-- The value of an integer. -/
def value : NumberLiteral → Option Int
  | decimal sign ds _ _ => some (sign.toInt * numeral 10 ds)
  | hexadecimal _ ds _ _ _ => some (numeral 16 ds)
  | binary _ ds _ _ _ => some (numeral 2 ds)
  | float .. => none

/-- The integer is less than `2^31` in absolute value; the digits of a decimal one that are scanned do not start with a
zero that makes them octal, or they have the same value in base 8; no digit of a hexadecimal one is a mark of
exponent; and the text that is scanned is not cut, or the integer is zero. -/
def Kept : NumberLiteral → Prop
  | decimal sign ds _ _ =>
    numeral 10 ds < 2 ^ 31 ∧ (LeadingZero (scanned sign ds) → numeral 10 ds < 8) ∧
      ((sign.text ++ scanned sign ds).length < 2 ^ 16 ∨ numeral 10 ds = 0)
  | hexadecimal _ ds _ _ _ =>
    numeral 16 ds < 2 ^ 31 ∧ ('e' ∉ ds ∧ 'E' ∉ ds) ∧ (ds.length + 2 < 2 ^ 16 ∨ numeral 16 ds = 0)
  | binary _ ds _ _ _ => numeral 2 ds < 2 ^ 31 ∧ (ds.length + 2 < 2 ^ 16 ∨ numeral 2 ds = 0)
  | float .. => True

/-- What is expected: an `int` is delivered with its value, a number with a fraction or an exponent as a `double`, and
another integer is an error. -/
def Delivered (l : NumberLiteral) (s : Parser) (rest : List Char) : Prop :=
  match l.value with
  | none => ∃ value, s.Delivers (.float value) rest
  | some v => if -2 ^ 31 ≤ v ∧ v < 2 ^ 31 then s.Delivers (.int v) rest else s.Fails

variable {l : NumberLiteral} {s : Parser} {rest : List Char}

/-- An integer is never an error. -/
theorem delivered_iff_eq {v : Int} {y : Scalar} (hvalue : l.value = some v) (h : Spells lenient y s.rest rest)
    (hbounds : y = .int v → -2 ^ 31 ≤ v ∧ v < 2 ^ 31) : l.Delivered s rest ↔ y = .int v := by
  rw [Delivered, hvalue]
  simp only
  split_ifs with hv
  · rw [Parser.delivers_iff_eq h, eq_comm]
  · exact iff_of_false (Parser.delivers_of_spells h).not_fails fun heq => hv (hbounds heq)

/-- The digits that are left of a text that is cut count for nothing. -/
theorem scanLong_cut (sign : Sign) {ds : List Char} (hds : ∀ c ∈ ds, c ∈ digits)
    (hlong : ¬ (sign.text ++ ds).length < 2 ^ 16) (hlt : numeral 10 ds < 2 ^ 31) :
    scanLong (StringBuffer.toString (sign.text ++ ds)) = 0 := by
  have hsign : sign.text.length ≤ 1 := by
    cases sign <;> decide
  obtain ⟨k, m, htext, hk, hzero⟩ := exists_cut (by decide) (hsign.trans one_le_two) hlong hlt
  rw [htext]
  by_cases hnone : k < sign.text.length
  · obtain rfl : k = 0 := by omega
    rw [hk hnone]
    rfl
  · have hiff := scanLong_digits_iff sign (fun c hc => hds c (mem_of_mem_take hc))
      (show numeral 10 (ds.take m) < 2 ^ 31 by omega)
    rw [take_of_length_le (Nat.not_lt.mp hnone), hiff.mpr fun _ => by omega, hzero]
    exact Int.mul_zero _

theorem scanLong_eq_iff_kept (sign : Sign) {ds : List Char} (hds : ∀ c ∈ ds, c ∈ digits) :
    scanLong (StringBuffer.toString (sign.text ++ scanned sign ds)) = sign.toInt * numeral 10 ds ↔
      numeral 10 ds < 2 ^ 31 ∧ (LeadingZero (scanned sign ds) → numeral 10 ds < 8) ∧
        ((sign.text ++ scanned sign ds).length < 2 ^ 16 ∨ numeral 10 ds = 0) := by
  have hsign := sign.toInt_eq
  by_cases hlt : numeral 10 ds < 2 ^ 31
  · have hds' := scanned_digits sign hds
    have hlt' : numeral 10 (scanned sign ds) < 2 ^ 31 := by rwa [numeral_scanned]
    by_cases hshort : (sign.text ++ scanned sign ds).length < 2 ^ 16
    · have hiff := scanLong_digits_iff sign hds' hlt'
      rw [numeral_scanned] at hiff
      rw [StringBuffer.toString_of_lt hshort, hiff, and_iff_right hlt, and_iff_left (Or.inl hshort)]
    · rw [scanLong_cut sign hds' hshort hlt', or_iff_right hshort]
      constructor
      · intro heq
        have hzero : numeral 10 ds = 0 := by
          rcases hsign with hsign | hsign <;> rw [hsign] at heq <;> omega
        exact ⟨hlt, fun _ => by omega, hzero⟩
      · rintro ⟨-, -, hzero⟩
        rw [hzero]
        exact (Int.mul_zero _).symm
  · refine iff_of_false ?_ fun h => hlt h.1
    have hbounds := scanLong_bounds (StringBuffer.toString (sign.text ++ scanned sign ds))
    intro heq
    rw [heq] at hbounds
    rcases hsign with hsign | hsign <;> rw [hsign] at hbounds <;> omega

/-- An integer in base 16 or 2. -/
theorem delivered_based_iff {base : Nat} (hbase : base = 16 ∨ base = 2) {x : Char} {ds : List Char}
    (hds : ∀ c ∈ ds, c ∈ Parser.baseChars base) (hends : EndsNumber rest)
    (hlead : ∀ text, leadingNumber ('0' :: x :: text) = some (run base text))
    (hrest : s.rest = '0' :: x :: ds ++ rest) (hvalue : l.value = some (numeral base ds : Int)) :
    l.Delivered s rest ↔ numeral base ds < 2 ^ 31 ∧ (∀ c ∈ ds, c ∉ Parser.floatChars) ∧
      (ds.length + 2 < 2 ^ 16 ∨ numeral base ds = 0) := by
  obtain ⟨y, hread, hkept⟩ := readsNumber_based hbase hds hends hlead
  rw [← hrest] at hread
  rw [delivered_iff_eq hvalue (.number hread) fun heq => ?_, hkept]
  have hlt := (hkept.mp heq).1
  omega

/-- A number is delivered as it should exactly when it is kept. -/
theorem delivered_iff (l : NumberLiteral) (s : Parser) (rest : List Char) (hrest : s.rest = l.text ++ rest)
    (hends : EndsNumber rest) : l.Delivered s rest ↔ l.Kept := by
  cases l with
  | decimal sign ds hne hds =>
    obtain ⟨text, hlead, htext⟩ :=
      leadingNumber_signed sign hds hne (forall_mem_nil _) (by simp) hends
    rw [append_nil, if_pos rfl, htext rfl, ← (show _ = sign.text ++ ds ++ rest from hrest)] at hlead
    have hbounds := scanLong_bounds (StringBuffer.toString (sign.text ++ scanned sign ds))
    rw [delivered_iff_eq rfl (.number ⟨_, _, hlead, rfl⟩) fun heq => ?_, Scalar.int.injEq]
    · exact scanLong_eq_iff_kept sign hds
    · injection heq with heq
      omega
  | hexadecimal mark ds hmark hne hds =>
    rw [delivered_based_iff (Or.inl rfl) hds hends (leadingNumber_hexadecimal hmark) hrest rfl,
      hexadecimal_floatChars_iff hds]
    rfl
  | binary mark ds hmark hne hds =>
    rw [delivered_based_iff (Or.inr rfl) hds hends (leadingNumber_binary hmark) hrest rfl,
      and_iff_right (binary_floatChars hds)]
    rfl
  | float l hints htail =>
    obtain ⟨htail, hhead, hcons⟩ := fractionTail_baseChars l htail
    have hne : digitsText l.ints ≠ [] := fun h => hints (List.map_eq_nil_iff.mp h)
    obtain ⟨text', hlead, -⟩ := leadingNumber_signed l.sign (digitsText_digits l.ints) hne htail hhead hends
    have htext : l.sign.text ++ digitsText l.ints ++ l.fractionTail [] ++ rest = s.rest := by
      have heq := l.text_append []
      rw [append_nil] at heq
      rw [hrest, NumberLiteral.text, heq, append_assoc l.sign.text]
    rw [if_neg hcons, htext] at hlead
    exact iff_of_true ⟨_, Parser.delivers_of_spells (.number ⟨_, _, hlead, rfl⟩)⟩ trivial

/-- `12`. -/
def twelve : NumberLiteral := .decimal .none ['1', '2'] (by decide) (by decide)

theorem delivered_twelve : twelve.Delivered (startOn [0x31, 0x32]) [] := by
  have hkept : twelve.Kept := by
    refine ⟨by decide, ?_, Or.inl (by decide)⟩
    rintro ⟨c, cs, h⟩
    exact absurd (List.cons.inj h).1 (by decide)
  exact (delivered_iff twelve (startOn [0x31, 0x32]) [] (by decide) (by simp [EndsNumber])).mpr hkept

/-- `0x1e` is read as a `double`. -/
theorem not_delivered_hexadecimal :
    ¬ Delivered (.hexadecimal 'x' ['1', 'e'] (Or.inl rfl) (by decide) (by decide))
      (startOn [0x30, 0x78, 0x31, 0x65]) [] := by
  rw [delivered_based_iff (Or.inl rfl) (by decide) (by simp [EndsNumber]) (leadingNumber_hexadecimal (Or.inl rfl))
    (by decide) rfl]
  exact fun h => absurd (h.2.1 'e' (by decide)) (by decide)

end NumberLiteral

end Elm.Json
