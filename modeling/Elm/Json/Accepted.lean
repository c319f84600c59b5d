import Elm.Json.Events
import Elm.Json.Number

/-!
# The texts that the parser accepts

The parser accepts exactly the lenient texts, and what it tells the maker is the value of the text exactly
when this value is a scalar that it keeps.
-/

namespace Elm.Json

open Io Document List

/-! ## Numbers -/

/-- The text of a number that the parser keeps: an integer of 31 bits, which in base 16 has no digit of
`floatChars` and which is zero when its text is cut, or a number whose exponent is kept and whose text is not
cut. -/
inductive KeptNumber : Scalar → List Char → Prop
  | decimal (neg : Bool) {ds : List Char} (hds : IsInteger ds) (hlt : numeral 10 ds < 2 ^ 31) :
      KeptNumber (.int (if neg then -(numeral 10 ds : Int) else numeral 10 ds)) (minus neg ++ ds)
  | hexadecimal {x : Char} {ds : List Char} (hx : x = 'x' ∨ x = 'X') (hds : ds ≠ [])
      (hhex : ∀ c ∈ ds, c ∈ Parser.baseChars 16) (hlt : numeral 16 ds < 2 ^ 31) (hexp : 'e' ∉ ds ∧ 'E' ∉ ds)
      (hcut : ds.length + 2 < 2 ^ 16 ∨ numeral 16 ds = 0) :
      KeptNumber (.int (numeral 16 ds)) ('0' :: x :: ds)
  | binary {b : Char} {ds : List Char} (hb : b = 'b' ∨ b = 'B') (hds : ds ≠ [])
      (hbin : ∀ c ∈ ds, c ∈ Parser.baseChars 2) (hlt : numeral 2 ds < 2 ^ 31)
      (hcut : ds.length + 2 < 2 ^ 16 ∨ numeral 2 ds = 0) : KeptNumber (.int (numeral 2 ds)) ('0' :: b :: ds)
  | float (l : Literal) (hsign : l.sign ≠ .plus) (hints : IsInteger (digitsText l.ints))
      (hfrac : l.fraction ≠ some []) (hne : l.fraction.isSome ∨ l.exponent.isSome) (hexact : l.Exact)
      (hshort : (literalText l).length < 2 ^ 16) : KeptNumber (.float l.value) l.text

/-- The text of a number with a fraction or an exponent which is cut. -/
def LongNumber (num : List Char) : Prop :=
  ∃ l : Literal, (l.fraction.isSome ∨ l.exponent.isSome) ∧ num = l.text ∧ 2 ^ 16 ≤ (literalText l).length

theorem EndsNumber.dropNul {rest : List Char} (h : EndsNumber rest) : dropNul rest = rest := by
  cases rest with
  | nil => rfl
  | cons c rest =>
    obtain ⟨-, -, -, -, hnul⟩ := h c rfl
    rw [Json.dropNul, if_neg hnul]

/-- What is read of a number; it is the number under the condition `kept`. -/
def ReadsNumber (x : Scalar) (num rest : List Char) (kept : Prop) : Prop :=
  ∃ y, lenient.number y (num ++ rest) rest ∧ (y = x ↔ kept)

theorem readsNumber_decimal (neg : Bool) {ds rest : List Char} (hds : IsInteger ds)
    (hends : EndsNumber rest) :
    ReadsNumber (.int (if neg then -(numeral 10 ds : Int) else numeral 10 ds)) (minus neg ++ ds) rest
      (numeral 10 ds < 2 ^ 31) := by
  have hlead := leadingNumber_decimal neg hds (forall_mem_nil _) (by simp) hends
  have hscanned : scannedText neg ds [] = minus neg ++ ds := by simp [scannedText]
  rw [append_nil, if_pos rfl, hscanned, hends.dropNul] at hlead
  refine ⟨_, ⟨_, _, hlead, rfl⟩, ?_⟩
  rw [Scalar.int.injEq]
  constructor
  · intro heq
    have hbounds := scanLong_bounds (StringBuffer.toString (minus neg ++ ds))
    rw [heq] at hbounds
    cases neg with
    | true =>
      simp only [if_true] at hbounds
      omega
    | false =>
      simp only [Bool.false_eq_true, if_false] at hbounds
      omega
  · intro hlt
    have hlength := hds.length_le hlt
    have hminus : (minus neg).length ≤ 1 := by
      cases neg <;> decide
    rw [StringBuffer.toString_of_lt (by rw [length_append]; omega), scanLong_decimal hds neg hlt]

/-- An integer in base 16 or 2. -/
theorem readsNumber_based {base : Nat} (hbase : base = 16 ∨ base = 2) {x : Char} {ds rest : List Char}
    (hds : ∀ c ∈ ds, c ∈ Parser.baseChars base) (hends : EndsNumber rest)
    (hlead : ∀ text, leadingNumber ('0' :: x :: text) = some (run base text)) :
    ReadsNumber (.int (numeral base ds)) ('0' :: x :: ds) rest (numeral base ds < 2 ^ 31 ∧
      (∀ c ∈ ds, c ∉ Parser.floatChars) ∧ (ds.length + 2 < 2 ^ 16 ∨ numeral base ds = 0)) := by
  have hrun := run_based hds hbase hends
  rw [hends.dropNul] at hrun
  by_cases hfloat : ds.any (· ∈ Parser.floatChars)
  · -- a digit of `floatChars` makes a number with an exponent
    rw [if_pos hfloat] at hrun
    refine ⟨_, ⟨_, _, (hlead _).trans (congrArg some hrun), rfl⟩, ?_⟩
    refine iff_of_false (fun h => by cases h) ?_
    rintro ⟨-, hnone, -⟩
    obtain ⟨c, hc, hmem⟩ := any_eq_true.mp hfloat
    exact hnone c hc (by simpa using hmem)
  · rw [if_neg hfloat] at hrun
    refine ⟨_, ⟨_, _, (hlead _).trans (congrArg some hrun), rfl⟩, ?_⟩
    have hnone : ∀ c ∈ ds, c ∉ Parser.floatChars :=
      fun c hc hmem => hfloat (any_eq_true.mpr ⟨c, hc, by simpa using hmem⟩)
    rw [Scalar.int.injEq, and_iff_right hnone]
    constructor
    · intro heq
      have hbounds := scanLong_bounds (StringBuffer.toString (Parser.basePrefix base ++ ds))
      have hlt : numeral base ds < 2 ^ 31 := by omega
      exact ⟨hlt, (scanLong_based_iff hbase hds hlt).mp heq⟩
    · rintro ⟨hlt, hcut⟩
      exact (scanLong_based_iff hbase hds hlt).mpr hcut

/-- A number with a fraction or an exponent, when its text is not cut. -/
theorem readsNumber_float (l : Literal) {rest : List Char} (hsign : l.sign ≠ .plus)
    (hints : IsInteger (digitsText l.ints)) (hfrac : l.fraction ≠ some [])
    (hne : l.fraction.isSome ∨ l.exponent.isSome) (hends : EndsNumber rest) :
    ∃ y, lenient.number y (l.text ++ rest) rest ∧
      ((literalText l).length < 2 ^ 16 → (y = .float l.value ↔ l.Exact)) := by
  obtain ⟨htail, hhead, hcons⟩ := fractionTail_baseChars l hne
  have hlead := leadingNumber_decimal (l.sign = .minus) hints htail hhead hends
  rw [if_neg hcons, hends.dropNul, ← literal_text_eq l hsign] at hlead
  refine ⟨_, ⟨_, _, hlead, rfl⟩, fun hshort => ?_⟩
  rw [Scalar.float.injEq, ← literalText, StringBuffer.toString_of_lt hshort]
  exact scanDouble_literalText l hsign hfrac hne

theorem leadingNumber_hexadecimal {x : Char} (hx : x = 'x' ∨ x = 'X') (text : List Char) :
    leadingNumber ('0' :: x :: text) = some (run 16 text) := by
  rcases hx with rfl | rfl <;> rfl

theorem leadingNumber_binary {b : Char} (hb : b = 'b' ∨ b = 'B') (text : List Char) :
    leadingNumber ('0' :: b :: text) = some (run 2 text) := by
  rcases hb with rfl | rfl <;> rfl

/-- A digit of `floatChars` in base 16 is an `e`. -/
theorem hexadecimal_floatChars_iff {ds : List Char} (hds : ∀ c ∈ ds, c ∈ Parser.baseChars 16) :
    (∀ c ∈ ds, c ∉ Parser.floatChars) ↔ 'e' ∉ ds ∧ 'E' ∉ ds := by
  constructor
  · exact fun h => ⟨fun he => h 'e' he (by decide), fun hE => h 'E' hE (by decide)⟩
  · rintro ⟨he, hE⟩ c hc hmem
    have hall : ∀ c ∈ Parser.floatChars, c ∉ Parser.baseChars 16 ∨ c = 'e' ∨ c = 'E' := by decide
    rcases hall c hmem with hpoint | rfl | rfl
    · exact hpoint (hds c hc)
    · exact he hc
    · exact hE hc

theorem binary_floatChars {ds : List Char} (hds : ∀ c ∈ ds, c ∈ Parser.baseChars 2) :
    ∀ c ∈ ds, c ∉ Parser.floatChars := by
  have hall : ∀ c ∈ Parser.baseChars 2, c ∉ Parser.floatChars := by decide
  exact fun c hc => hall c (hds c hc)

theorem KeptNumber.number {x : Scalar} {num : List Char} (h : KeptNumber x num) : Number x num := by
  cases h with
  | decimal neg hds _ => exact .decimal neg hds
  | hexadecimal hx hds hhex _ _ _ => exact .hexadecimal hx hds hhex
  | binary hb hds hbin _ _ => exact .binary hb hds hbin
  | float l hsign hints hfrac hne _ _ => exact .float l hsign hints hfrac hne

theorem KeptNumber.read {x : Scalar} {num rest : List Char} (h : KeptNumber x num) (hends : EndsNumber rest) :
    lenient.number x (num ++ rest) rest := by
  cases h with
  | decimal neg hds hlt =>
    obtain ⟨y, hread, hkept⟩ := readsNumber_decimal neg hds hends
    rwa [hkept.mpr hlt] at hread
  | hexadecimal hx _ hhex hlt hexp hcut =>
    obtain ⟨y, hread, hkept⟩ := readsNumber_based (Or.inl rfl) hhex hends (leadingNumber_hexadecimal hx)
    rwa [hkept.mpr ⟨hlt, (hexadecimal_floatChars_iff hhex).mpr hexp, hcut⟩] at hread
  | binary hb _ hbin hlt hcut =>
    obtain ⟨y, hread, hkept⟩ := readsNumber_based (Or.inr rfl) hbin hends (leadingNumber_binary hb)
    rwa [hkept.mpr ⟨hlt, binary_floatChars hbin, hcut⟩] at hread
  | float l hsign hints hfrac hne hexact hshort =>
    obtain ⟨y, hread, hkept⟩ := readsNumber_float l hsign hints hfrac hne hends
    rwa [(hkept hshort).mpr hexact] at hread

/-- A documented number is read as a number, which is another one unless it is kept or cut. -/
theorem readsNumber {x : Scalar} {num rest : List Char} (h : Number x num) (hends : EndsNumber rest) :
    ∃ y, lenient.number y (num ++ rest) rest ∧ (y = x → KeptNumber x num ∨ LongNumber num) := by
  cases h with
  | decimal neg hds =>
    obtain ⟨y, hread, hkept⟩ := readsNumber_decimal neg hds hends
    exact ⟨y, hread, fun heq => Or.inl (.decimal neg hds (hkept.mp heq))⟩
  | hexadecimal hx hds hhex =>
    obtain ⟨y, hread, hkept⟩ := readsNumber_based (Or.inl rfl) hhex hends (leadingNumber_hexadecimal hx)
    refine ⟨y, hread, fun heq => Or.inl ?_⟩
    obtain ⟨hlt, hnone, hcut⟩ := hkept.mp heq
    exact .hexadecimal hx hds hhex hlt ((hexadecimal_floatChars_iff hhex).mp hnone) hcut
  | binary hb hds hbin =>
    obtain ⟨y, hread, hkept⟩ := readsNumber_based (Or.inr rfl) hbin hends (leadingNumber_binary hb)
    refine ⟨y, hread, fun heq => Or.inl ?_⟩
    obtain ⟨hlt, -, hcut⟩ := hkept.mp heq
    exact .binary hb hds hbin hlt hcut
  | float l hsign hints hfrac hne =>
    obtain ⟨y, hread, hkept⟩ := readsNumber_float l hsign hints hfrac hne hends
    refine ⟨y, hread, fun heq => ?_⟩
    by_cases hshort : (literalText l).length < 2 ^ 16
    · exact Or.inl (.float l hsign hints hfrac hne ((hkept hshort).mp heq) hshort)
    · exact Or.inr ⟨l, hne, rfl, Nat.not_lt.mp hshort⟩

/-! ## Strings -/

/-- The texts that are read, with the values of the documented strings and numbers. -/
def meant : Dialect :=
  { lenient with
    escape := documented.escape
    unicode := documented.unicode
    string := documented.string
    number := documented.number }

/-- The characters of a string and those that are read of it; the `Bool` tells that it has an escape. -/
inductive Spelled : Bool → List Char → List Char → Prop
  | nil : Spelled Bool.false [] []
  | plain (c : Char) {esc : Bool} {value value' : List Char} (h : Spelled esc value value') :
      Spelled esc (c :: value) (c :: value')
  | escape {c : Char} {esc : Bool} {value value' : List Char} (hc : 8 ≤ c.toNat ∧ c.toNat < 128)
      (h : Spelled esc value value') : Spelled Bool.true (c :: value) value'
  | unicode {x₁ x₂ x₃ x₄ : Nat} {esc : Bool} {value value' : List Char} (h₁ : x₁ < 16) (h₂ : x₂ < 16)
      (h₃ : x₃ < 16) (h₄ : x₄ < 16) (h : Spelled esc value value') :
      Spelled Bool.true (documented.unicode x₁ x₂ x₃ x₄ ++ value) (lenient.unicode x₁ x₂ x₃ x₄ ++ value')

theorem toNat_ofNat {n : Nat} (h : n < 256) : (Char.ofNat n).toNat = n := by
  rw [Char.ofNat, dif_pos (Or.inl (by omega))]
  rfl

/-- The first character of an UTF-8 sequence. -/
theorem toUTF8_head {n : Nat} (hn : n < 2 ^ 16) : ∃ c text, Parser.toUTF8 n = c :: text ∧
    (n < 128 → c.toNat = n ∧ text = []) ∧ (128 ≤ n → n < 2 ^ 11 → 192 ≤ c.toNat ∧ c.toNat < 224) ∧
    (2 ^ 11 ≤ n → 224 ≤ c.toNat) := by
  have htwo : ∀ x < 32, 192 ≤ 0xC0 ||| x ∧ 0xC0 ||| x < 224 := by decide
  have hthree : ∀ x < 16, 224 ≤ 0xE0 ||| x ∧ 0xE0 ||| x < 256 := by decide
  unfold Parser.toUTF8
  split_ifs with h₁ h₂
  · exact ⟨_, _, rfl, fun _ => ⟨toNat_ofNat (by omega), rfl⟩, by omega, by omega⟩
  · obtain ⟨hle, hlt⟩ := htwo (n >>> 6) (by rw [Nat.shiftRight_eq_div_pow]; omega)
    refine ⟨_, _, rfl, by omega, fun _ _ => ?_, by omega⟩
    rw [toNat_ofNat (by omega)]
    exact ⟨hle, hlt⟩
  · obtain ⟨hle, hlt⟩ := hthree (n >>> 12) (by rw [Nat.shiftRight_eq_div_pow]; omega)
    refine ⟨_, _, rfl, by omega, by omega, fun _ => ?_⟩
    rw [toNat_ofNat hlt]
    exact hle

theorem unescape_bounds : ∀ c ∈ Parser.escapes, 8 ≤ (unescape c).toNat ∧ (unescape c).toNat < 128 := by decide

/-- When what is read is late by simple escapes, it stays late: no escape with digits makes up for them. -/
theorem Spelled.not_late {esc : Bool} {value value' : List Char} (h : Spelled esc value value') :
    ∀ late : List Char, late ≠ [] → (∀ c ∈ late, 8 ≤ c.toNat ∧ c.toNat < 128) → ¬ late ++ value <+: value' := by
  induction h with
  | nil =>
    intro late hne _ hbegins
    exact hne (append_eq_nil_iff.mp (prefix_nil.mp hbegins)).1
  | @plain c esc value value' h ih =>
    intro late hne hlate hbegins
    obtain ⟨c', late, rfl⟩ := exists_cons_of_ne_nil hne
    obtain ⟨rfl, hbegins⟩ := cons_prefix_cons.mp hbegins
    obtain ⟨hc, hlate⟩ := forall_mem_cons.mp hlate
    refine ih (late ++ [c']) (by simp) ?_ (by simpa using hbegins)
    intro c hmem
    rcases mem_append.mp hmem with hmem | hmem
    · exact hlate c hmem
    · rwa [mem_singleton.mp hmem]
  | @escape c esc value value' hc h ih =>
    intro late hne hlate hbegins
    refine ih (late ++ [c]) (by simp) ?_ (by simpa using hbegins)
    intro c' hmem
    rcases mem_append.mp hmem with hmem | hmem
    · exact hlate c' hmem
    · rwa [mem_singleton.mp hmem]
  | @unicode x₁ x₂ x₃ x₄ esc value value' h₁ h₂ h₃ h₄ h ih =>
    intro late hne hlate hbegins
    obtain ⟨c, late, rfl⟩ := exists_cons_of_ne_nil hne
    obtain ⟨hc, hlate⟩ := forall_mem_cons.mp hlate
    obtain ⟨c₁, text₁, htext₁, hone, -, -⟩ := toUTF8_head (n := x₁) (by omega)
    obtain ⟨c₂, text₂, htext₂, -, htwo, -⟩ := toUTF8_head (n := x₁ * 16 + x₂) (by omega)
    have hcode : codeUnit x₁ x₂ x₃ x₄ < 2 ^ 16 := by
      unfold codeUnit
      omega
    obtain ⟨c₄, text₄, htext₄, -, -, hthree⟩ := toUTF8_head hcode
    obtain ⟨hx₁, rfl⟩ := hone (by omega)
    simp only [lenient, documented, htext₁, htext₂, htext₄, cons_append, nil_append,
      append_assoc] at hbegins
    obtain ⟨rfl, hrest⟩ := cons_prefix_cons.mp hbegins
    -- the second digit makes a sequence of two bytes
    have hc₂ := htwo (by omega) (by omega)
    cases late with
    | nil =>
      have heq := (cons_prefix_cons.mp hrest).1
      have hc₄ := hthree (by unfold codeUnit; omega)
      rw [heq] at hc₄
      omega
    | cons c' late =>
      have heq := (cons_prefix_cons.mp hrest).1
      have hc' := hlate c' mem_cons_self
      rw [heq] at hc'
      omega

/-- Four digits whose character is zero, or is the one of the first digit, are zeros. -/
theorem unicode_zero {x₁ x₂ x₃ x₄ : Nat} (h₁ : x₁ < 16) (h₂ : x₂ < 16) (h₃ : x₃ < 16) (h₄ : x₄ < 16) {c : Char}
    {rest text : List Char} (hbegins : documented.unicode x₁ x₂ x₃ x₄ ++ rest <+: c :: text)
    (hc : c.toNat = 0 ∨ c.toNat = x₁) : x₁ = 0 ∧ x₂ = 0 ∧ x₃ = 0 ∧ x₄ = 0 := by
  have hcode : codeUnit x₁ x₂ x₃ x₄ < 2 ^ 16 := by
    unfold codeUnit
    omega
  obtain ⟨c', text', htext, hone, htwo, hthree⟩ := toUTF8_head hcode
  have hunicode : documented.unicode x₁ x₂ x₃ x₄ = c' :: text' := htext
  rw [hunicode] at hbegins
  obtain ⟨rfl, -⟩ := cons_prefix_cons.mp hbegins
  have hzero : codeUnit x₁ x₂ x₃ x₄ = c'.toNat := by omega
  unfold codeUnit at hzero
  omega

theorem unicode_zeros (value : List Char) : documented.unicode 0 0 0 0 ++ value = '\x00' :: value ∧
    lenient.unicode 0 0 0 0 ++ value = replicate 4 '\x00' ++ value := ⟨rfl, rfl⟩

/-- When what is read is ahead by zeros, all that follows is zeros, and each escape gives three too many. -/
theorem Spelled.ahead {esc : Bool} {value value' : List Char} (h : Spelled esc value value') :
    ∀ n, value <+: replicate (n + 1) '\x00' ++ value' →
      ∃ k ≤ value.length, value'.length = value.length + 3 * k := by
  induction h with
  | nil => exact fun n _ => ⟨0, le_rfl, rfl⟩
  | @plain c esc value value' h ih =>
    intro n hbegins
    obtain ⟨rfl, hbegins⟩ := cons_prefix_cons.mp hbegins
    have hshift : replicate n '\x00' ++ '\x00' :: value' = replicate (n + 1) '\x00' ++ value' := by
      rw [replicate_succ', append_assoc]
      rfl
    obtain ⟨k, hk, hlength⟩ := ih n (hshift ▸ hbegins)
    refine ⟨k, ?_, ?_⟩
    · rw [length_cons]
      omega
    · rw [length_cons, length_cons]
      omega
  | @escape c esc value value' hc h ih =>
    intro n hbegins
    obtain ⟨rfl, -⟩ := cons_prefix_cons.mp hbegins
    exact absurd hc.1 (by decide)
  | @unicode x₁ x₂ x₃ x₄ esc value value' h₁ h₂ h₃ h₄ h ih =>
    intro n hbegins
    obtain ⟨rfl, rfl, rfl, rfl⟩ := unicode_zero h₁ h₂ h₃ h₄ hbegins (Or.inl rfl)
    rw [(unicode_zeros value).1] at hbegins ⊢
    rw [(unicode_zeros value').2] at hbegins ⊢
    have hrest : value <+: replicate n '\x00' ++ (replicate 4 '\x00' ++ value') :=
      (cons_prefix_cons.mp hbegins).2
    rw [← append_assoc, replicate_append_replicate] at hrest
    obtain ⟨k, hk, hlength⟩ := ih (n + 3) hrest
    refine ⟨k + 1, ?_, ?_⟩
    · rw [length_cons]
      omega
    · rw [length_append, length_replicate, length_cons]
      omega

/-- What is read, cut to the length of a string, is the string only if it has no escape. -/
theorem Spelled.eq_false {esc : Bool} {value value' : List Char} (h : Spelled esc value value') :
    ∀ k, value <+: value' → value.length < 2 ^ 16 → value'.length = value.length + 2 ^ 16 * k →
      esc = Bool.false := by
  induction h with
  | nil => exact fun _ _ _ _ => rfl
  | @plain c esc value value' h ih =>
    intro k hbegins hlt hlength
    rw [length_cons] at hlt hlength
    rw [length_cons] at hlength
    exact ih k (cons_prefix_cons.mp hbegins).2 (by omega) (by omega)
  | @escape c esc value value' hc h ih =>
    intro k hbegins _ _
    exact absurd hbegins (h.not_late [c] (cons_ne_nil _ _) (forall_mem_singleton.mpr hc))
  | @unicode x₁ x₂ x₃ x₄ esc value value' h₁ h₂ h₃ h₄ h ih =>
    intro k hbegins hlt hlength
    exfalso
    obtain ⟨c₁, text₁, htext₁, hone, -, -⟩ := toUTF8_head (n := x₁) (by omega)
    have hread : lenient.unicode x₁ x₂ x₃ x₄ ++ value' = c₁ :: (text₁ ++
        (Parser.toUTF8 (x₁ * 16 + x₂) ++ (Parser.toUTF8 ((x₁ * 16 + x₂) * 16 + x₃) ++
          (Parser.toUTF8 (codeUnit x₁ x₂ x₃ x₄) ++ value')))) := by
      simp only [lenient, htext₁, cons_append, append_assoc]
    obtain ⟨rfl, rfl, rfl, rfl⟩ := unicode_zero h₁ h₂ h₃ h₄ (hread ▸ hbegins) (Or.inr (hone (by omega)).1)
    rw [(unicode_zeros value).1] at hbegins hlt hlength
    rw [(unicode_zeros value').2] at hbegins hlength
    obtain ⟨n, hn, hahead⟩ := h.ahead 2 (cons_prefix_cons.mp hbegins).2
    rw [length_append, length_replicate, length_cons] at hlength
    rw [length_cons] at hlt
    omega

/-- The string is read as it is meant, or with an escape. -/
theorem body_lenient {q : Char} {value text rest : List Char} (h : Body meant q value text rest) :
    ∃ value' esc, Body lenient q value' text rest ∧ Spelled esc value value' ∧
      (esc = Bool.false → value' = value ∧ q ∉ value ∧ '\\' ∉ value ∧ text = value ++ q :: rest) := by
  induction h with
  | close rest => exact ⟨[], Bool.false, .close rest, .nil, by simp⟩
  | @plain c value text rest hquote hback hc h ih =>
    obtain ⟨value', esc, hbody, hspelled, hplain⟩ := ih
    refine ⟨c :: value', esc, .plain hquote hback trivial hbody, .plain c hspelled, fun hesc => ?_⟩
    obtain ⟨rfl, hq, hnot, rfl⟩ := hplain hesc
    exact ⟨rfl, not_mem_cons_of_ne_of_not_mem hquote.symm hq,
      not_mem_cons_of_ne_of_not_mem hback.symm hnot, rfl⟩
  | @escape c value text rest hc h ih =>
    -- the character of the escape is lost
    obtain ⟨value', esc, hbody, hspelled, -⟩ := ih
    exact ⟨_, _, .escape hc hbody, .escape (unescape_bounds c hc) hspelled, fun hesc => by cases hesc⟩
  | @unicode c₁ c₂ c₃ c₄ x₁ x₂ x₃ x₄ value text rest h₁ h₂ h₃ h₄ h ih =>
    obtain ⟨value', esc, hbody, hspelled, -⟩ := ih
    exact ⟨_, _, .unicode h₁ h₂ h₃ h₄ hbody, .unicode (Parser.asHex_lt h₁) (Parser.asHex_lt h₂)
      (Parser.asHex_lt h₃) (Parser.asHex_lt h₄) hspelled, fun hesc => by cases hesc⟩

theorem Spelled.eq_false_of_toString {esc : Bool} {value value' : List Char} (h : Spelled esc value value')
    (heq : StringBuffer.toString value' = value) : esc = Bool.false := by
  have hbegins : value <+: value' := heq ▸ take_prefix _ _
  have hlength := StringBuffer.toString_length value'
  rw [heq] at hlength
  refine h.eq_false (value'.length / 2 ^ 16) hbegins ?_ ?_
  · rw [hlength]
    exact Nat.mod_lt _ (by decide)
  · rw [hlength]
    exact (Nat.mod_add_div _ _).symm

/-- Where no backslash occurs, all the dialects agree. -/
theorem body_plain {D : Dialect} {q : Char} {value : List Char} (hquote : q ∉ value) (hback : '\\' ∉ value)
    (hplain : ∀ c ∈ value, D.plain c) (rest : List Char) : Body D q value (value ++ q :: rest) rest := by
  induction value with
  | nil => exact .close rest
  | cons c value ih =>
    rw [mem_cons, not_or] at hquote hback
    exact .plain (Ne.symm hquote.1) (Ne.symm hback.1) (hplain c mem_cons_self)
      (ih hquote.2 hback.2 fun c' hc' => hplain c' (mem_cons_of_mem _ hc'))

/-! ## Scalars -/

/-- The maker that records its calls. -/
def recorder : Maker (List Call) where
  beginObject calls := .ok (calls ++ [.beginObject])
  endObject calls := .ok (calls ++ [.endObject])
  beginArray calls := .ok (calls ++ [.beginArray])
  endArray calls := .ok (calls ++ [.endArray])
  onField name calls := .ok (calls ++ [.field name])
  onNull calls := .ok (calls ++ [.leaf .null])
  onBool value calls := .ok (calls ++ [.leaf (.bool value)])
  onInt value calls := .ok (calls ++ [.leaf (.int value)])
  onFloat value calls := .ok (calls ++ [.leaf (.float value)])
  onString value calls := .ok (calls ++ [.leaf (.string value)])

theorem recorder_call (calls : List Call) (e : Call) : recorder.call calls e = .ok (calls ++ [e]) := by
  cases e with
  | leaf x => cases x <;> rfl
  | _ => rfl

theorem recorder_feed (es calls : List Call) : recorder.feed es calls = .ok (calls ++ es) := by
  induction es generalizing calls with
  | nil => rw [Maker.feed_nil, append_nil]
  | cons e es ih =>
    rw [Maker.feed_cons_ok (recorder_call calls e), ih, append_assoc]
    rfl

/-- The text is parsed in one way only. -/
theorem calls_of_derives {p s' : Parser} {input : List UInt8} {calls : List Call} {d : Value}
    {rest : List Char} (h : p.doParsing recorder [] input = some (.ok (calls, s')))
    (hd : Derives lenient d (chars input) rest) : calls = made d.events := by
  obtain ⟨s'', h'⟩ := doParsing_of_derives hd (recorder_feed (made d.events) []) p
  rw [h] at h'
  cases h'
  rfl

/-- A parser before its first text. -/
def fresh : Parser := ⟨0, 0, [], '\x00', []⟩

/-- A maker that never throws. -/
def Maker.Total {μ : Type} (mk : Maker μ) : Prop := ∀ m e, ∃ m', mk.call m e = .ok m'

theorem Maker.Total.feed {μ : Type} {mk : Maker μ} (h : mk.Total) (es : List Call) (m : μ) :
    ∃ m', mk.feed es m = .ok m' := by
  induction es generalizing m with
  | nil => exact ⟨m, rfl⟩
  | cons e es ih =>
    obtain ⟨m₁, hcall⟩ := h m e
    obtain ⟨m', hfeed⟩ := ih m₁
    exact ⟨m', (Maker.feed_cons_ok hcall es).trans hfeed⟩

theorem accepts_iff {μ : Type} {mk : Maker μ} (hmk : mk.Total) (m : μ) (p : Parser) (input : List UInt8) :
    (∃ r, p.doParsing mk m input = some (.ok r)) ↔ ∃ d, IsText lenient d (chars input) := by
  constructor
  · rintro ⟨⟨m', s'⟩, h⟩
    obtain ⟨d, hd, -⟩ := (doParsing_ok_iff mk m m' p input).mp ⟨s', h⟩
    exact ⟨d, hd⟩
  · rintro ⟨d, hd⟩
    obtain ⟨m', hfeed⟩ := hmk.feed (made d.events) m
    obtain ⟨s', h⟩ := (doParsing_ok_iff mk m m' p input).mpr ⟨d, hd, hfeed⟩
    exact ⟨(m', s'), h⟩

/-- The documented texts whose comments end where the parser sees their end. -/
def closable : Dialect := { documented with comment := fun com => IsComment com ∧ IsReadComment com }

theorem closable_covers_documented : closable.Covers documented where
  comment _ h := h.1
  quote _ h := h
  plain _ h := h
  escaped _ h := h
  number {x _ _} h := ⟨x, h⟩
  lastComma h := h

theorem closable_covers_lenient : closable.Covers lenient where
  comment _ h := h.2
  quote _ h := h
  plain _ _ := trivial
  escaped _ h := h
  number := by
    rintro x text rest ⟨num, rfl, hnum, hends⟩
    obtain ⟨y, hread, -⟩ := readsNumber hnum hends
    exact ⟨y, hread⟩
  lastComma _ := trivial

/-- A documented text whose comments end where the parser sees their end is accepted, and a text of neither grammar
is not.  Elsewhere the parser is right for no text, but for documented ones where a comment ends elsewhere for
it. -/
theorem doParsing_accepts_iff {μ : Type} (mk : Maker μ) (hmk : mk.Total) (m : μ) (p : Parser)
    (input : List UInt8) :
    ((∃ d, IsText closable d (chars input)) ∨
        (¬ ∃ d, IsText documented d (chars input)) ∧ (¬ ∃ d, IsText lenient d (chars input)) →
      ((∃ r, p.doParsing mk m input = some (.ok r)) ↔ ∃ d, IsText documented d (chars input))) ∧
    (((∃ r, p.doParsing mk m input = some (.ok r)) ↔ ∃ d, IsText documented d (chars input)) →
      (∃ d, IsText closable d (chars input)) ∨
        (¬ ∃ d, IsText documented d (chars input)) ∧ (¬ ∃ d, IsText lenient d (chars input)) ∨
        (∃ d, IsText documented d (chars input)) ∧ ¬ ∃ d, IsText closable d (chars input)) := by
  rw [accepts_iff hmk m p input]
  constructor
  · rintro (⟨d, rest, hd, hfollow⟩ | ⟨hdocumented, hlenient⟩)
    · obtain ⟨d₁, hlenient⟩ := closable_covers_lenient.derives hd
      obtain ⟨d₂, hdocumented⟩ := closable_covers_documented.derives hd
      exact iff_of_true ⟨d₁, rest, hlenient, trivial⟩ ⟨d₂, rest, hdocumented, hfollow⟩
    · exact iff_of_false hlenient hdocumented
  · intro hiff
    by_cases hdocumented : ∃ d, IsText documented d (chars input)
    · exact (Classical.em _).imp_right fun hnot => Or.inr ⟨hdocumented, hnot⟩
    · exact Or.inr (Or.inl ⟨hdocumented, mt hiff.mp hdocumented⟩)

theorem recorder_total : recorder.Total := fun calls e => ⟨_, recorder_call calls e⟩

/-- The input is `null`. -/
theorem doParsing_accepts_iff_null :
    (∃ r, fresh.doParsing recorder [] [110, 117, 108, 108] = some (.ok r)) ↔
      ∃ d, IsText documented d (chars [110, 117, 108, 108]) := by
  have hnull : IsText closable (.leaf .null) (chars [110, 117, 108, 108]) :=
    ⟨[], .scalar (.nil _) (.null []), [], .nil [], Or.inl rfl⟩
  exact (doParsing_accepts_iff recorder recorder_total [] fresh [110, 117, 108, 108]).1 (Or.inl ⟨_, hnull⟩)

theorem exists_of_isComment {com : List Char} (h : IsComment com) : ∃ body, com = '/' :: body := by
  rcases h with ⟨body, rfl, -⟩ | ⟨body, rfl, -⟩
  · exact ⟨_, rfl⟩
  · exact ⟨_, rfl⟩

/-- No blank and no comment starts with the character. -/
theorem Blanks.eq_of_cons {c : Char} {text rest : List Char} (h : Blanks IsComment (c :: text) rest)
    (hblank : ¬ IsBlank c) (hslash : c ≠ '/') : rest = c :: text := by
  generalize htext : c :: text = text' at h
  cases h with
  | nil => rfl
  | blank hc _ =>
    obtain ⟨rfl, -⟩ := List.cons.inj htext
    exact absurd hc hblank
  | comment hcom _ =>
    obtain ⟨body, rfl⟩ := exists_of_isComment hcom
    exact absurd (List.cons.inj htext).1 hslash

theorem exists_head_of_isInteger {ds : List Char} (h : IsInteger ds) : ∃ c cs, ds = c :: cs ∧ c ∈ digits := by
  rcases h with rfl | ⟨c, cs, rfl, hc, -, -⟩
  · exact ⟨'0', [], rfl, by decide⟩
  · exact ⟨c, cs, rfl, hc⟩

/-- A number starts with a minus or with a digit. -/
theorem Number.head {x : Scalar} {num : List Char} (h : Number x num) :
    ∃ c cs, num = c :: cs ∧ (c = '-' ∨ c ∈ digits) := by
  have hminus : ∀ (neg : Bool) {ds : List Char}, IsInteger ds → ∀ tail,
      ∃ c cs, minus neg ++ ds ++ tail = c :: cs ∧ (c = '-' ∨ c ∈ digits) := by
    intro neg ds hds tail
    obtain ⟨c, cs, rfl, hc⟩ := exists_head_of_isInteger hds
    cases neg with
    | true => exact ⟨'-', _, rfl, Or.inl rfl⟩
    | false => exact ⟨c, _, rfl, Or.inr hc⟩
  cases h with
  | decimal neg hds =>
    have hhead := hminus neg hds []
    rw [append_nil] at hhead
    exact hhead
  | hexadecimal _ _ _ => exact ⟨'0', _, rfl, Or.inr (by decide)⟩
  | binary _ _ _ => exact ⟨'0', _, rfl, Or.inr (by decide)⟩
  | float l hsign hints _ _ =>
    rw [literal_text_eq l hsign]
    exact hminus _ hints _

/-- The input is a sign alone. -/
theorem not_doParsing_accepts :
    ¬ ∀ (mk : Maker (List Call)) (_ : mk.Total) (m : List Call) (p : Parser) (input : List UInt8),
      (∃ r, p.doParsing mk m input = some (.ok r)) ↔ ∃ d, IsText documented d (chars input) := by
  intro h
  have hread : Derives lenient (.leaf (.int (scanLong ['+']))) (chars [43]) [] :=
    .scalar (.nil _) (.number ⟨.int, ['+'], by decide, rfl⟩)
  obtain ⟨s', hok⟩ := doParsing_of_derives hread (recorder_feed _ []) fresh
  obtain ⟨d, rest, hd, -⟩ := (h recorder recorder_total [] fresh [43]).mp ⟨_, hok⟩
  have hplus : ∀ {text}, Blanks documented.comment (chars [43]) text → text = ['+'] :=
    fun hblanks => hblanks.eq_of_cons (by unfold IsBlank; decide) (by decide)
  cases hd with
  | array hblanks _ => cases hplus hblanks
  | object hblanks _ => cases hplus hblanks
  | scalar hblanks hx =>
    rw [hplus hblanks] at hx
    generalize htext : ['+'] = text at hx
    cases hx with
    | null => cases htext
    | true => cases htext
    | false => cases htext
    | string hquoted =>
      obtain ⟨q, body, str, hq, rfl, -⟩ := hquoted
      obtain rfl := (List.cons.inj htext).1
      rcases hq with hq | hq <;> cases hq
    | number hnum =>
      obtain ⟨num, rfl, hnum, -⟩ := hnum
      obtain ⟨c, cs, rfl, hc⟩ := hnum.head
      obtain rfl := (List.cons.inj htext).1
      revert hc
      decide

end Elm.Json
