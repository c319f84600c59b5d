import Elm.Json.Grammar
import Elm.Json.Saver

/-!
# The texts that the saver prints

The strings, the integers and the lists of values of the saver, as texts of the standard grammar.
-/

namespace Elm.Json

open Io Document List

/-! ## Strings -/

theorem toNat_ofNat_small {c : Nat} (h : c < 128) : (Char.ofNat c).toNat = c := by
  have hvalid : c.isValidChar := Or.inl (by omega)
  rw [Char.ofNat, dif_pos hvalid]
  rfl

/-- A hexadecimal digit as `escape` prints it. -/
def IsLowHex (c : Char) : Prop :=
  (Parser.asHex c).isSome ∧ ' ' ≤ c ∧ c ≠ '"' ∧ c ≠ '\\'

theorem isLowHex_digitChar : ∀ digit < 16, IsLowHex (digitChar 'a' digit) := by
  unfold IsLowHex
  decide

theorem IsLowHex.value {c : Char} (h : IsLowHex c) : Parser.asHex c = some ((Parser.asHex c).getD 0) := by
  obtain ⟨x, hx⟩ := Option.isSome_iff_exists.mp h.1
  rw [hx]
  rfl

/-- The digits after `\u`: four or more. -/
def codeDigits (c : Nat) : List Char := (Saver.unicodeEscape c).drop 2

theorem unicodeEscape_eq (c : Nat) : Saver.unicodeEscape c = '\\' :: 'u' :: codeDigits c := rfl

theorem codeDigits_eq (c : Nat) : ∃ n, codeDigits c =
    replicate (4 - (horner n 16 'a').length) '0' ++ horner n 16 'a' := by
  refine ⟨((c : Int) % 2 ^ 64).toNat % 2 ^ (8 * 4), ?_⟩
  unfold codeDigits Saver.unicodeEscape IntFormat.print IntFormat.digits IntFormat.uval
  simp

theorem codeDigits_length (c : Nat) : 4 ≤ (codeDigits c).length := by
  obtain ⟨n, hdigits⟩ := codeDigits_eq c
  rw [hdigits, length_append, length_replicate]
  omega

theorem codeDigits_isLowHex (c : Nat) : ∀ chr ∈ codeDigits c, IsLowHex chr := by
  obtain ⟨n, hdigits⟩ := codeDigits_eq c
  rw [hdigits]
  intro chr hchr
  rcases mem_append.mp hchr with hchr | hchr
  · rw [eq_of_mem_replicate hchr]
    exact isLowHex_digitChar 0 (by decide)
  · exact horner_forall (by decide) 'a' isLowHex_digitChar n chr hchr

/-- The characters that have an escape of two characters. -/
def shortCodes : List Nat := ['"'.toNat, '\\'.toNat, 8, 12, '\n'.toNat, '\r'.toNat, '\t'.toNat]

theorem escape_of_notMem {c : Nat} (hshort : c ∉ shortCodes) :
    Saver.escape c = if c ≥ 32 ∧ c < 128 then [Char.ofNat c] else Saver.unicodeEscape c := by
  simp only [shortCodes, mem_cons, not_mem_nil, or_false, not_or] at hshort
  obtain ⟨h34, h92, h8, h12, h10, h13, h9⟩ := hshort
  unfold Saver.escape
  rw [if_neg h34, if_neg h92, if_neg h8, if_neg h12, if_neg h10, if_neg h13, if_neg h9]

/-- A character that is printed as it is stands for itself. -/
theorem plain_of_notMem {c : Nat} (hshort : c ∉ shortCodes) (hplain : 32 ≤ c ∧ c < 128) :
    (Char.ofNat c).toNat = c ∧ Char.ofNat c ≠ '"' ∧ Char.ofNat c ≠ '\\' ∧ ' ' ≤ Char.ofNat c := by
  have hcode : (Char.ofNat c).toNat = c := toNat_ofNat_small hplain.2
  have hne : ∀ chr : Char, chr.toNat ∈ shortCodes → Char.ofNat c ≠ chr := by
    intro chr hmem heq
    rw [heq] at hcode
    rw [hcode] at hmem
    exact hshort hmem
  refine ⟨hcode, hne '"' (by decide), hne '\\' (by decide), ?_⟩
  change (32 : Nat) ≤ (Char.ofNat c).toNat
  rw [hcode]
  exact hplain.1

/-- What the text that `escape` prints stands for. -/
def said (c : Nat) : List Char :=
  if c ∈ shortCodes ∨ 32 ≤ c ∧ c < 128 then [Char.ofNat c]
  else match codeDigits c with
    | c₁ :: c₂ :: c₃ :: c₄ :: more =>
      let digit chr := (Parser.asHex chr).getD 0
      standard.unicode (digit c₁) (digit c₂) (digit c₃) (digit c₄) ++ more
    | _ => []

theorem body_more {more value text rest : List Char} (hmore : ∀ c ∈ more, IsLowHex c)
    (h : Body standard '"' value text rest) : Body standard '"' (more ++ value) (more ++ text) rest := by
  induction more with
  | nil => exact h
  | cons c more ih =>
    obtain ⟨-, hplain, hquote, hback⟩ := hmore c mem_cons_self
    exact .plain hquote hback hplain (ih fun c' hc' => hmore c' (mem_cons_of_mem _ hc'))

/-- `escape` prints a character of a string. -/
theorem body_escape (c : Nat) {value text rest : List Char} (h : Body standard '"' value text rest) :
    Body standard '"' (said c ++ value) (Saver.escape c ++ text) rest := by
  by_cases hshort : c ∈ shortCodes
  · rw [said, if_pos (Or.inl hshort)]
    simp only [shortCodes, mem_cons, not_mem_nil, or_false] at hshort
    rcases hshort with rfl | rfl | rfl | rfl | rfl | rfl | rfl
    · exact .escape (c := '"') ⟨by decide, by decide⟩ h
    · exact .escape (c := '\\') ⟨by decide, by decide⟩ h
    · exact .escape (c := 'b') ⟨by decide, by decide⟩ h
    · exact .escape (c := 'f') ⟨by decide, by decide⟩ h
    · exact .escape (c := 'n') ⟨by decide, by decide⟩ h
    · exact .escape (c := 'r') ⟨by decide, by decide⟩ h
    · exact .escape (c := 't') ⟨by decide, by decide⟩ h
  · rw [escape_of_notMem hshort]
    by_cases hplain : 32 ≤ c ∧ c < 128
    · obtain ⟨-, hquote, hback, hspace⟩ := plain_of_notMem hshort hplain
      rw [said, if_pos (Or.inr hplain), if_pos hplain]
      exact .plain hquote hback hspace h
    · rw [said, if_neg (not_or.mpr ⟨hshort, hplain⟩), if_neg hplain, unicodeEscape_eq]
      have hlen := codeDigits_length c
      have hhex := codeDigits_isLowHex c
      match hdigits : codeDigits c with
      | [] | [_] | [_, _] | [_, _, _] => rw [hdigits] at hlen; simp at hlen
      | c₁ :: c₂ :: c₃ :: c₄ :: more =>
        rw [hdigits] at hhex
        simp only [mem_cons, forall_eq_or_imp] at hhex
        obtain ⟨h₁, h₂, h₃, h₄, hmore⟩ := hhex
        have hbody := Body.unicode h₁.value h₂.value h₃.value h₄.value
          (body_more hmore h)
        simpa using hbody

theorem body_flatMap (codes : List Nat) (rest : List Char) :
    Body standard '"' (codes.flatMap said) (codes.flatMap Saver.escape ++ '"' :: rest) rest := by
  induction codes with
  | nil => exact .close rest
  | cons c codes ih =>
    rw [flatMap_cons, flatMap_cons, append_assoc]
    exact body_escape c ih

/-- `quote` prints a string. -/
theorem quoted_quote (codes : List Nat) (rest : List Char) :
    Quoted standard (codes.flatMap said) (Saver.quote codes ++ rest) rest :=
  ⟨'"', _, _, rfl, by simp [Saver.quote], body_flatMap codes rest, rfl⟩

/-! ## Integers -/

theorem digitChar_decimal : ∀ digit < 10, digitChar 'a' digit ∈ digits ∧
    Parser.asHex (digitChar 'a' digit) = some digit ∧ (digit ≠ 0 → digitChar 'a' digit ≠ '0') := by
  decide

theorem numeral_append (base : Nat) (ds : List Char) (c : Char) :
    numeral base (ds ++ [c]) = base * numeral base ds + (Parser.asHex c).getD 0 := by
  rw [numeral, foldl_append]
  rfl

/-- `horner` prints the digits of the value. -/
theorem numeral_horner (val : Nat) : numeral 10 (horner val 10 'a') = val := by
  unfold horner
  split_ifs with hzero
  · rw [hzero]
    rfl
  clear hzero
  induction val using Nat.strong_induction_on with
  | _ val ih =>
    by_cases hval : val = 0
    · rw [hval, hornerLoop_zero]
      rfl
    · rw [hornerLoop_step (by decide) 'a' hval, numeral_append, ih _ (by omega),
        (digitChar_decimal _ (Nat.mod_lt _ (by decide))).2.1]
      exact Nat.div_add_mod val 10

theorem isInteger_horner (val : Nat) : IsInteger (horner val 10 'a') := by
  have hdigits : ∀ c ∈ horner val 10 'a', c ∈ digits :=
    horner_forall (by decide) 'a' (fun digit hlt => (digitChar_decimal digit hlt).1) val
  by_cases hval : val = 0
  · rw [hval]
    exact Or.inl rfl
  · obtain ⟨c, cs, hcons, hc⟩ := @horner_head 10 (by decide) 'a'
      (fun digit hlt => (digitChar_decimal digit hlt).2.2) val hval
    rw [hcons] at hdigits ⊢
    obtain ⟨hmem, hcs⟩ := forall_mem_cons.mp hdigits
    exact Or.inr ⟨c, cs, rfl, hmem, hc, hcs⟩

/-- The text of an integer. -/
def decimal (x : Int) : List Char := minus (x < 0) ++ horner x.natAbs 10 'a'

theorem signed_natAbs (x : Int) : (if decide (x < 0) then -(x.natAbs : Int) else x.natAbs) = x := by
  by_cases hneg : x < 0
  · rw [if_pos (by simpa using hneg)]
    omega
  · rw [if_neg (by simpa using hneg)]
    omega

theorem number_decimal (x : Int) : Number (.int x) (decimal x) := by
  have hnum := Number.decimal (decide (x < 0)) (isInteger_horner x.natAbs)
  rw [numeral_horner, signed_natAbs] at hnum
  exact hnum

theorem decimal_baseChars (x : Int) : ∀ c ∈ decimal x, c ∈ Parser.baseChars 10 := by
  intro c hc
  rcases mem_append.mp hc with hc | hc
  · unfold minus at hc
    split_ifs at hc
    · obtain rfl := mem_singleton.mp hc
      decide
    · cases hc
  · have hdigits : ∀ c ∈ digits, c ∈ Parser.baseChars 10 := by decide
    exact hdigits c (horner_forall (by decide) 'a' (fun digit hlt => (digitChar_decimal digit hlt).1) _ c hc)

/-- But for `long long`, the text of an integer is printed. -/
theorem print_decimal {t : IntType} {x : Int} (hx : t.Holds x) (hlong : t ≠ .longLong)
    (hulong : t ≠ .ulongLong) : t.print x = decimal x := by
  have hprint : t.print x = IntFormat.print { val := x, sign := t.sign, size := t.size } := by
    cases t <;> first | rfl | contradiction
  have hneg : x < 0 → t.sign = true := by
    intro hneg
    by_contra hsign
    rw [IntType.Holds, if_neg hsign] at hx
    omega
  have huval : IntFormat.uval { val := x, sign := t.sign, size := t.size } = x.natAbs := by
    unfold IntType.Holds at hx
    unfold IntFormat.uval
    cases t <;> simp only [IntType.sign, IntType.size] at hx ⊢ <;> simp at hx ⊢ <;> (try split_ifs) <;> omega
  rw [hprint]
  unfold IntFormat.print IntFormat.digits
  rw [huval]
  by_cases hx0 : x < 0
  · simp [hneg hx0, hx0, decimal, minus]
  · simp [hx0, decimal, minus]

/-! ## What follows a value -/

def AllBlank (text : List Char) : Prop := ∀ c ∈ text, IsBlank c

theorem blanks_append {comment : List Char → Prop} {b text rest : List Char} (hb : AllBlank b)
    (h : Blanks comment text rest) : Blanks comment (b ++ text) rest := by
  induction b with
  | nil => exact h
  | cons c b ih => exact .blank (hb c mem_cons_self) (ih fun c' hc' => hb c' (mem_cons_of_mem _ hc'))

theorem blanks_of_allBlank {comment : List Char → Prop} {b : List Char} (hb : AllBlank b) (rest : List Char) :
    Blanks comment (b ++ rest) rest := blanks_append hb (.nil rest)

theorem derives_append {D : Dialect} {d : Value} {b text rest : List Char} (hb : AllBlank b)
    (h : Derives D d text rest) : Derives D d (b ++ text) rest := by
  cases h with
  | scalar hblanks hx => exact .scalar (blanks_append hb hblanks) hx
  | array hblanks hitems => exact .array (blanks_append hb hblanks) hitems
  | object hblanks hfields => exact .object (blanks_append hb hblanks) hfields

theorem endsNumber_cons {c : Char} (h : IsBlank c ∨ c ∈ [',', ']', '}']) (rest : List Char) :
    EndsNumber (c :: rest) := by
  intro c' hc'
  cases hc'
  have hall : ∀ c ∈ ['\n', '\t', '\r', ' ', ',', ']', '}'], c ∉ Parser.baseChars 10 ∧
      c ∉ Parser.baseChars 16 ∧ c ≠ 'x' ∧ c ≠ 'X' ∧ c ≠ '\x00' := by decide
  refine hall c ?_
  rcases h with (rfl | rfl | rfl | rfl) | h
  · decide
  · decide
  · decide
  · decide
  · exact mem_of_mem_drop (i := 4) h

/-- Blanks, then the end of an array or of an object. -/
theorem endsNumber_append {b : List Char} (hb : AllBlank b) {c : Char} (hc : c ∈ [',', ']', '}'])
    (rest : List Char) : EndsNumber (b ++ c :: rest) := by
  cases b with
  | nil => exact endsNumber_cons (Or.inr hc) rest
  | cons c' b => exact endsNumber_cons (Or.inl (hb c' mem_cons_self)) _

/-! ## Lists of values -/

/-- The text of a value. -/
def Whole (d : Value) (p : List Char) : Prop := ∀ rest, EndsNumber rest → Derives standard d (p ++ rest) rest

/-- The text of a name and of the value that follows it. -/
def FieldText (field : List Char × Value) (p : List Char) : Prop :=
  ∀ rest, EndsNumber rest → ∃ text₁ text₂ text₃, Blanks standard.comment (p ++ rest) text₁ ∧
    Quoted standard field.1 text₁ text₂ ∧ Blanks standard.comment text₂ (':' :: text₃) ∧
    Derives standard field.2 text₃ rest

/-- The comma that separates a list from what is added to it. -/
def comma {α : Type} (xs : List α) : List Char := if xs.isEmpty then [] else [',']

/-- The text of a list, with commas between its elements. -/
inductive Listed {α : Type} (E : α → List Char → Prop) : List α → List Char → Prop
  | nil : Listed E [] []
  | snoc {xs : List α} {x : α} {t p : List Char} (h : Listed E xs t) (hp : E x p) :
      Listed E (xs ++ [x]) (t ++ comma xs ++ p)

theorem comma_snoc {α : Type} (xs : List α) (x : α) : comma (xs ++ [x]) = [','] := by
  simp [comma]

/-- Items in front of others. -/
theorem Listed.items {items : List Value} {t : List Char} (h : Listed Whole items t) :
    ∀ {more : List Value} {t' rest : List Char}, more ≠ [] → DerivesItems standard more t' rest →
      DerivesItems standard (items ++ more) (t ++ comma items ++ t') rest := by
  induction h with
  | nil => exact fun _ hmore => hmore
  | @snoc items d t p h hp ih =>
    intro more t' rest hne hmore
    have hd : Derives standard d (p ++ ',' :: t') (',' :: t') :=
      hp _ (endsNumber_cons (Or.inr (by decide)) t')
    have hcons := ih (cons_ne_nil d more) (.cons hd (.nil _) (fun hnil => absurd hnil hne) hmore)
    rw [comma_snoc]
    simpa using hcons

/-- The whole array. -/
theorem Listed.array {items : List Value} {t b : List Char} (h : Listed Whole items t) (hb : AllBlank b)
    (rest : List Char) : DerivesItems standard items (t ++ b ++ ']' :: rest) rest := by
  cases h with
  | nil => exact .nil (blanks_of_allBlank hb _)
  | @snoc items d t p h hp =>
    have hd : Derives standard d (p ++ (b ++ ']' :: rest)) (b ++ ']' :: rest) :=
      hp _ (endsNumber_append hb (by decide) rest)
    have hlast := h.items (cons_ne_nil d []) (.last hd (blanks_of_allBlank hb _))
    simpa using hlast

/-- Fields in front of others. -/
theorem Listed.fields {fields : List (List Char × Value)} {t : List Char} (h : Listed FieldText fields t) :
    ∀ {more : List (List Char × Value)} {t' rest : List Char}, more ≠ [] →
      DerivesFields standard more t' rest →
      DerivesFields standard (fields ++ more) (t ++ comma fields ++ t') rest := by
  induction h with
  | nil => exact fun _ hmore => hmore
  | @snoc fields field t p h hp ih =>
    intro more t' rest hne hmore
    obtain ⟨name, d⟩ := field
    obtain ⟨text₁, text₂, text₃, hblanks, hname, hcolon, hd⟩ :=
      hp (',' :: t') (endsNumber_cons (Or.inr (by decide)) t')
    have hcons := ih (cons_ne_nil (name, d) more)
      (.cons hblanks hname hcolon hd (.nil _) (fun hnil => absurd hnil hne) hmore)
    rw [comma_snoc]
    simpa using hcons

/-- The whole object. -/
theorem Listed.object {fields : List (List Char × Value)} {t b : List Char} (h : Listed FieldText fields t)
    (hb : AllBlank b) (rest : List Char) :
    DerivesFields standard fields (t ++ b ++ '}' :: rest) rest := by
  cases h with
  | nil => exact .nil (blanks_of_allBlank hb _)
  | @snoc fields field t p h hp =>
    obtain ⟨name, d⟩ := field
    obtain ⟨text₁, text₂, text₃, hblanks, hname, hcolon, hd⟩ :=
      hp (b ++ '}' :: rest) (endsNumber_append hb (by decide) rest)
    have hlast := h.fields (cons_ne_nil (name, d) [])
      (.last hblanks hname hcolon hd (blanks_of_allBlank hb _))
    simpa using hlast

end Elm.Json
