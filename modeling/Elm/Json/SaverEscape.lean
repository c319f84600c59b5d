import Elm.Io.Utf16
import Elm.Json.RoundTrip

/-!
# What the strings of the saver denote

The body of a JSON string denotes a sequence of UTF-16 code units.  The escape of `Saver::escape` has four digits or
more: a character outside the Basic Multilingual Plane is not written as a surrogate pair, and a `char` from 128 on is
written as a negative number.  Of a string inside a longer buffer, only the first character is sure to be written.
-/

namespace Elm.Io.Utf8

open List

/-! ## Reading the encoding of a character -/

/-- The first byte of a sequence of four bytes. -/
theorem lead_four : ∀ x < 8, ∃ b, UInt8.ofNat (x + 240) = b ∧ b &&& 0x80 ≠ 0 ∧ b &&& 0x40 ≠ 0 ∧
    sequenceLength b = 3 ∧ b.toNat % 2 ^ 3 = x := by
  have hall : ∀ x < 8, UInt8.ofNat (x + 240) &&& 0x80 ≠ 0 ∧ UInt8.ofNat (x + 240) &&& 0x40 ≠ 0 ∧
      sequenceLength (UInt8.ofNat (x + 240)) = 3 ∧ (UInt8.ofNat (x + 240)).toNat % 2 ^ 3 = x := by decide
  exact fun x hx => ⟨_, rfl, hall x hx⟩

theorem add_eq_or : (∀ x < 32, x + 192 = 0b11000000 ||| x) ∧ (∀ x < 16, x + 224 = 0b11100000 ||| x) ∧
    ∀ x < 64, x + 128 = 0b10000000 ||| x := by decide

theorem toNat_lt (c : Char) : c.toNat < 0x110000 := by
  rcases c.valid with hlow | ⟨-, hhigh⟩
  · exact hlow.trans (by decide)
  · exact hhigh

/-- In the Basic Multilingual Plane the encoding is the one of the code in 16 bits. -/
theorem utf8EncodeChar_eq (c : Char) (h : c.toNat < 0x10000) :
    String.utf8EncodeChar c = Utf16.toUTF8 (UInt16.ofNat c.toNat) := by
  obtain ⟨htwo, hthree, htail⟩ := add_eq_or
  have hval : c.val.toNat = c.toNat := rfl
  rw [toUTF8_eq, UInt16.toNat_ofNat_of_lt' h]
  unfold String.utf8EncodeChar
  simp only [hval]
  by_cases hone : c.toNat < 2 ^ 7
  · rw [if_pos (show c.toNat ≤ 0x7F by omega), if_pos hone]
  · rw [if_neg (show ¬c.toNat ≤ 0x7F by omega), if_neg hone]
    by_cases htwo' : c.toNat < 2 ^ 11
    · have hlead : c.toNat / 64 % 32 = c.toNat / 2 ^ 6 := by omega
      rw [if_pos (show c.toNat ≤ 0x7FF by omega), if_pos htwo', htwo _ (by omega), htail _ (by omega), hlead]
      rfl
    · have hlead : c.toNat / 4096 % 16 = c.toNat / 2 ^ 12 := by omega
      rw [if_neg (show ¬c.toNat ≤ 0x7FF by omega), if_pos (show c.toNat ≤ 0xFFFF by omega), if_neg htwo',
        hthree _ (by omega), htail _ (by omega), htail _ (by omega), hlead]
      rfl

/-- The reader gives a character back and stops after its bytes. -/
theorem parse_utf8EncodeChar (c : Char) (rest : List UInt8) :
    parse (String.utf8EncodeChar c ++ rest) = some (c.toNat, rest) := by
  by_cases hplane : c.toNat < 0x10000
  · rw [utf8EncodeChar_eq c hplane, parse_toUTF8, UInt16.toNat_ofNat_of_lt' hplane]
  · -- a sequence of four bytes
    obtain ⟨-, -, htail⟩ := add_eq_or
    have hval : c.val.toNat = c.toNat := rfl
    have hmax := toNat_lt c
    unfold String.utf8EncodeChar
    simp only [hval]
    rw [if_neg (show ¬c.toNat ≤ 0x7F by omega), if_neg (show ¬c.toNat ≤ 0x7FF by omega),
      if_neg (show ¬c.toNat ≤ 0xFFFF by omega)]
    obtain ⟨b, hb, hbit, hbit', hlength, hvalue⟩ := lead_four (c.toNat / 262144 % 8) (by omega)
    obtain ⟨b₁, hb₁, hmark₁, hvalue₁⟩ := tail_byte (c.toNat / 4096 % 64) (by omega)
    obtain ⟨b₂, hb₂, hmark₂, hvalue₂⟩ := tail_byte (c.toNat / 64 % 64) (by omega)
    obtain ⟨b₃, hb₃, hmark₃, hvalue₃⟩ := tail_byte (c.toNat % 64) (by omega)
    rw [hb, htail _ (by omega), htail _ (by omega), htail _ (by omega), hb₁, hb₂, hb₃, cons_append,
      cons_append, cons_append, singleton_append, parse, if_neg hbit, if_neg hbit', hlength]
    simp only [Nat.reduceEqDiff, if_false, parseRest, hmark₁, hmark₂, hmark₃, ne_eq, not_true_eq_false, hvalue,
      hvalue₁, hvalue₂, hvalue₃]
    rw [shift_or (by omega), shift_or (by omega), shift_or (by omega)]
    congr 2
    omega

/-- The reader of a string stops at its first character 0. -/
theorem chars_flatMap_utf8EncodeChar (str : List Char) :
    chars (str.flatMap String.utf8EncodeChar) =
      some ((str.takeWhile fun c => decide (c ≠ '\x00')).map Char.toNat) := by
  induction str with
  | nil => rfl
  | cons c str ih =>
    have hparse := parse_utf8EncodeChar c (str.flatMap String.utf8EncodeChar)
    rw [flatMap_cons, chars, items, hparse]
    by_cases hc : c = '\x00'
    · subst hc
      rfl
    · have hcode : c.toNat ≠ 0 := fun h => hc (Char.toNat_inj.mp h)
      have hlength : (str.flatMap String.utf8EncodeChar).length <
          (String.utf8EncodeChar c ++ str.flatMap String.utf8EncodeChar).length := parse_length hparse hcode
      rw [takeWhile_cons_of_pos (by simpa using hc)]
      simp only [if_neg hcode]
      rw [items_eq _ hlength, ih]
      rfl

end Elm.Io.Utf8

namespace Elm.Json

open Io Document List

/-! ## What a body denotes -/

/-- The code units of a character. -/
def utf16 (c : Char) : List Nat :=
  if c.toNat < 0x10000 then [c.toNat]
  else [0xD800 + (c.toNat - 0x10000) / 0x400, 0xDC00 + (c.toNat - 0x10000) % 0x400]

/-- The body of a JSON string denotes these code units. -/
inductive Denotes : List Nat → List Char → Prop
  | nil : Denotes [] []
  | plain {c : Char} {units : List Nat} {text : List Char} (hquote : c ≠ '"') (hback : c ≠ '\\') (hc : ' ' ≤ c)
      (h : Denotes units text) : Denotes (utf16 c ++ units) (c :: text)
  | escape {c : Char} {units : List Nat} {text : List Char} (hc : c ∈ "\"\\/bfnrt".toList) (h : Denotes units text) :
      Denotes ((unescape c).toNat :: units) ('\\' :: c :: text)
  | unicode {c₁ c₂ c₃ c₄ : Char} {x₁ x₂ x₃ x₄ : Nat} {units : List Nat} {text : List Char}
      (h₁ : Parser.asHex c₁ = some x₁) (h₂ : Parser.asHex c₂ = some x₂) (h₃ : Parser.asHex c₃ = some x₃)
      (h₄ : Parser.asHex c₄ = some x₄) (h : Denotes units text) :
      Denotes (codeUnit x₁ x₂ x₃ x₄ :: units) ('\\' :: 'u' :: c₁ :: c₂ :: c₃ :: c₄ :: text)

/-! ## Four digits or more -/

theorem asHex_digitChar : ∀ d < 16, Parser.asHex (digitChar 'a' d) = some d := by decide

theorem codeDigits_of_lt {c : Nat} (hc : c < 2 ^ 32) : codeDigits c =
    replicate (4 - (horner c 16 'a').length) '0' ++ horner c 16 'a' := by
  have hval : ((c : Int) % 18446744073709551616).toNat % 4294967296 = c := by omega
  unfold codeDigits Saver.unicodeEscape IntFormat.print IntFormat.digits IntFormat.uval
  simp [hval]

theorem hornerLoop_sixteen {c : Nat} (hc : c ≠ 0) :
    hornerLoop 16 'a' c [] = hornerLoop 16 'a' (c / 16) [] ++ [digitChar 'a' (c % 16)] :=
  hornerLoop_step (by decide) 'a' hc

/-- The four digits of a code of 16 bits. -/
theorem codeDigits_four {c : Nat} (hc : c < 0x10000) :
    codeDigits c = [digitChar 'a' (c / 4096), digitChar 'a' (c / 256 % 16), digitChar 'a' (c / 16 % 16),
      digitChar 'a' (c % 16)] := by
  have hzero : digitChar 'a' 0 = '0' := rfl
  rw [codeDigits_of_lt (by omega), horner]
  -- where the digits of the number stop, the zeros of the padding come first
  by_cases h₀ : c = 0
  · subst h₀
    rfl
  rw [if_neg h₀, hornerLoop_sixteen h₀]
  by_cases h₁ : c / 16 = 0
  · have hdigits : c / 4096 = 0 ∧ c / 256 % 16 = 0 ∧ c / 16 % 16 = 0 := by omega
    rw [h₁, hornerLoop_zero, hdigits.1, hdigits.2.1, Nat.zero_mod, hzero]
    rfl
  rw [hornerLoop_sixteen h₁, Nat.div_div_eq_div_mul]
  by_cases h₂ : c / 256 = 0
  · have hdigits : c / 4096 = 0 := by omega
    rw [h₂, hornerLoop_zero, hdigits, Nat.zero_mod, hzero]
    rfl
  rw [hornerLoop_sixteen h₂, Nat.div_div_eq_div_mul]
  by_cases h₃ : c / 4096 = 0
  · rw [h₃, hornerLoop_zero, hzero]
    rfl
  have hlast : c / 4096 / 16 = 0 ∧ c / 4096 % 16 = c / 4096 := by omega
  rw [hornerLoop_sixteen h₃, hlast.1, hlast.2, hornerLoop_zero]
  rfl

theorem length_hornerLoop {c : Nat} (hc : c ≠ 0) :
    (hornerLoop 16 'a' c []).length = (hornerLoop 16 'a' (c / 16) []).length + 1 := by
  rw [hornerLoop_sixteen hc, length_append, length_singleton]

/-- A greater code has more digits. -/
theorem five_le_length_codeDigits {c : Nat} (hc : 0x10000 ≤ c) (hlt : c < 2 ^ 32) : 5 ≤ (codeDigits c).length := by
  have hlength : 5 ≤ (horner c 16 'a').length := by
    rw [horner, if_neg (by omega), length_hornerLoop (by omega), length_hornerLoop (by omega),
      length_hornerLoop (by omega), length_hornerLoop (by omega), length_hornerLoop (by omega)]
    omega
  rw [codeDigits_of_lt hlt, length_append]
  omega

theorem IsLowHex.lt {d : Char} (h : IsLowHex d) : d.toNat < 128 := by
  have hle : ∀ c : Char, d ≤ c → d.toNat ≤ c.toNat := fun c hc => hc
  obtain ⟨hhex, -⟩ := h
  unfold Parser.asHex at hhex
  split_ifs at hhex with hdigit hlower hupper
  · exact (hle '9' hdigit.2).trans_lt (by decide)
  · exact (hle 'f' hlower.2).trans_lt (by decide)
  · exact (hle 'F' hupper.2).trans_lt (by decide)
  · cases hhex

/-! ## What `escape` denotes -/

section Denotes

variable {units : List Nat} {text : List Char}

theorem denotes_plain_iff {c : Char} (hquote : c ≠ '"') (hback : c ≠ '\\') (hc : ' ' ≤ c) :
    Denotes units (c :: text) ↔ ∃ units', units = utf16 c ++ units' ∧ Denotes units' text := by
  constructor
  · intro h
    cases h with
    | plain _ _ _ h => exact ⟨_, rfl, h⟩
    | escape => exact absurd rfl hback
    | unicode => exact absurd rfl hback
  · rintro ⟨units', rfl, h⟩
    exact .plain hquote hback hc h

theorem denotes_short_iff {e : Char} (he : e ∈ "\"\\/bfnrt".toList) :
    Denotes units ('\\' :: e :: text) ↔ ∃ units', units = (unescape e).toNat :: units' ∧ Denotes units' text := by
  constructor
  · intro h
    cases h with
    | plain _ hback => exact absurd rfl hback
    | escape _ h => exact ⟨_, rfl, h⟩
    | unicode => exact absurd he (by decide)
  · rintro ⟨units', rfl, h⟩
    exact .escape he h

theorem denotes_unicode_iff {c₁ c₂ c₃ c₄ : Char} {x₁ x₂ x₃ x₄ : Nat} (h₁ : Parser.asHex c₁ = some x₁)
    (h₂ : Parser.asHex c₂ = some x₂) (h₃ : Parser.asHex c₃ = some x₃) (h₄ : Parser.asHex c₄ = some x₄) :
    Denotes units ('\\' :: 'u' :: c₁ :: c₂ :: c₃ :: c₄ :: text) ↔
      ∃ units', units = codeUnit x₁ x₂ x₃ x₄ :: units' ∧ Denotes units' text := by
  constructor
  · intro h
    cases h with
    | plain _ hback => exact absurd rfl hback
    | escape hu => exact absurd hu (by decide)
    | unicode h₁' h₂' h₃' h₄' h =>
      rw [h₁] at h₁'
      rw [h₂] at h₂'
      rw [h₃] at h₃'
      rw [h₄] at h₄'
      cases h₁'
      cases h₂'
      cases h₃'
      cases h₄'
      exact ⟨_, rfl, h⟩
  · rintro ⟨units', rfl, h⟩
    exact .unicode h₁ h₂ h₃ h₄ h

/-- What `escape` prints for a character of the plane denotes it, and nothing else. -/
theorem denotes_escape_iff {c : Nat} (hc : c < 0x10000) :
    Denotes units (Saver.escape c ++ text) ↔ ∃ units', units = c :: units' ∧ Denotes units' text := by
  by_cases hshort : c ∈ shortCodes
  · simp only [shortCodes, mem_cons, not_mem_nil, or_false] at hshort
    rcases hshort with rfl | rfl | rfl | rfl | rfl | rfl | rfl
    · exact denotes_short_iff (e := '"') (by decide)
    · exact denotes_short_iff (e := '\\') (by decide)
    · exact denotes_short_iff (e := 'b') (by decide)
    · exact denotes_short_iff (e := 'f') (by decide)
    · exact denotes_short_iff (e := 'n') (by decide)
    · exact denotes_short_iff (e := 'r') (by decide)
    · exact denotes_short_iff (e := 't') (by decide)
  · rw [escape_of_notMem hshort]
    by_cases hplain : 32 ≤ c ∧ c < 128
    · obtain ⟨hcode, hquote, hback, hspace⟩ := plain_of_notMem hshort hplain
      have hunits : utf16 (Char.ofNat c) = [c] := by rw [utf16, hcode, if_pos hc]
      rw [if_pos hplain, singleton_append, denotes_plain_iff hquote hback hspace, hunits]
      rfl
    · have hcode : codeUnit (c / 4096) (c / 256 % 16) (c / 16 % 16) (c % 16) = c := by
        unfold codeUnit
        omega
      rw [if_neg hplain, unicodeEscape_eq, codeDigits_four hc]
      have hiff := @denotes_unicode_iff units text _ _ _ _ _ _ _ _ (asHex_digitChar (c / 4096) (by omega))
        (asHex_digitChar (c / 256 % 16) (by omega)) (asHex_digitChar (c / 16 % 16) (by omega))
        (asHex_digitChar (c % 16) (by omega))
      rwa [hcode] at hiff

/-- What `escape` prints for a greater number denotes a unit and a digit. -/
theorem exists_of_denotes_escape {c : Nat} (hc : 0x10000 ≤ c) (hlt : c < 2 ^ 32)
    (h : Denotes units (Saver.escape c ++ text)) : ∃ u d units', units = u :: d :: units' ∧ d < 128 := by
  have hshort : c ∉ shortCodes := by
    intro hmem
    have hall : ∀ c ∈ shortCodes, c < 0x10000 := by decide
    exact absurd (hall c hmem) (by omega)
  have hdigits := codeDigits_isLowHex c
  have hlength := five_le_length_codeDigits hc hlt
  rw [escape_of_notMem hshort, if_neg (by omega), unicodeEscape_eq] at h
  -- a reader takes the first four of the five digits or more
  match hcode : codeDigits c with
  | [] | [_] | [_, _] | [_, _, _] | [_, _, _, _] => rw [hcode] at hlength; simp at hlength
  | c₁ :: c₂ :: c₃ :: c₄ :: d :: more =>
    rw [hcode] at hdigits h
    simp only [mem_cons, forall_eq_or_imp] at hdigits
    obtain ⟨h₁, h₂, h₃, h₄, hlow, -⟩ := hdigits
    obtain ⟨units₁, rfl, hrest⟩ := (denotes_unicode_iff h₁.value h₂.value h₃.value h₄.value).mp h
    -- the fifth digit is a character of its own
    obtain ⟨units₂, rfl, -⟩ := (denotes_plain_iff hlow.2.2.1 hlow.2.2.2 hlow.2.1).mp hrest
    rw [utf16, if_pos (hlow.lt.trans (by decide))]
    exact ⟨_, _, _, rfl, hlow.lt⟩

end Denotes

/-! ## The values that are written -/

/-- Where a value can be written, `write` puts `body` between quotes. -/
def Writes (v : Operand) (body : List Char) : Prop :=
  ∀ s : Saver, s.write v = s.putText ('"' :: (body ++ ['"']))

/-- A string is written as a JSON string that denotes its characters. -/
def Faithful (v : Operand) (units : List Nat) : Prop := ∃ body, Writes v body ∧ Denotes units body

theorem Writes.unique {v : Operand} {body body' : List Char} (h : Writes v body) (h' : Writes v body') :
    body = body' := by
  -- in an array a value can be written
  have heq := (h { state := .ARRAY }).symm.trans (h' { state := .ARRAY })
  have hput : ∀ body, ({ state := .ARRAY } : Saver).putText ('"' :: (body ++ ['"'])) =
      some { state := .IN_ARRAY, out := '"' :: (body ++ ['"']) } := fun _ => rfl
  rw [hput, hput] at heq
  injection heq with heq
  injection heq with _ _ _ _ hout
  exact append_cancel_right (List.cons.inj hout).2

theorem denotes_nil_iff {units : List Nat} : Denotes units [] ↔ units = [] := by
  constructor
  · intro h
    cases h
    rfl
  · rintro rfl
    exact .nil

theorem denotes_flatMap_iff (str : List Char) :
    Denotes (str.flatMap utf16)
        (((str.takeWhile fun c => decide (c ≠ '\x00')).map Char.toNat).flatMap Saver.escape) ↔
      ∀ c ∈ str, c ≠ '\x00' ∧ c.toNat < 0x10000 := by
  induction str with
  | nil => exact iff_of_true .nil (forall_mem_nil _)
  | cons c str ih =>
    rw [flatMap_cons, forall_mem_cons, utf16]
    by_cases hnul : c = '\x00'
    · -- the string is cut there
      subst hnul
      rw [if_pos (by decide), singleton_append]
      exact iff_of_false (fun h => cons_ne_nil _ _ (denotes_nil_iff.mp h)) fun h => h.1.1 rfl
    · rw [takeWhile_cons_of_pos (by simpa using hnul), map_cons, flatMap_cons]
      by_cases hlow : c.toNat < 0x10000
      · rw [if_pos hlow, denotes_escape_iff hlow, ← ih, and_iff_right ⟨hnul, hlow⟩]
        constructor
        · rintro ⟨units', heq, h⟩
          have hunits : str.flatMap utf16 = units' := (List.cons.inj heq).2
          rwa [hunits]
        · exact fun h => ⟨_, rfl, h⟩
      · -- the second unit of the pair is no digit
        rw [if_neg hlow]
        refine iff_of_false (fun h => ?_) fun h => hlow h.1.2
        obtain ⟨u, d, units', heq, hd⟩ := exists_of_denotes_escape (Nat.not_lt.mp hlow)
          ((Utf8.toNat_lt c).trans (by decide)) h
        have hsecond := (List.cons.inj (List.cons.inj heq).2).1
        omega

theorem writes_string (str : List Char) : Writes (.string (utf8 str))
    (((str.takeWhile fun c => decide (c ≠ '\x00')).map Char.toNat).flatMap Saver.escape) := by
  intro s
  have hchars := Utf8.chars_flatMap_utf8EncodeChar str
  rw [Saver.write, utf8, hchars]
  rfl

theorem writes_char (c : UInt8) : Writes (.char c) (Saver.escape (Saver.charCode c)) := by
  intro s
  rw [Saver.write, Saver.quote, flatMap_singleton]

theorem faithful_string_iff (str : List Char) :
    Faithful (.string (utf8 str)) (str.flatMap utf16) ↔ ∀ c ∈ str, c ≠ '\x00' ∧ c.toNat < 0x10000 := by
  rw [← denotes_flatMap_iff]
  constructor
  · rintro ⟨body, hwrites, h⟩
    rwa [hwrites.unique (writes_string str)] at h
  · exact fun h => ⟨_, writes_string str, h⟩

/-- A negative `char` has an escape of eight digits, of which a reader takes four. -/
theorem faithful_char_iff (c : UInt8) : Faithful (.char c) [c.toNat] ↔ c.toNat < 128 := by
  have hlt := c.toNat_lt
  constructor
  · rintro ⟨body, hwrites, h⟩
    by_contra hlarge
    -- the sign is extended to the 32 bits of the code
    have hcode : Saver.charCode c = 2 ^ 32 - 256 + c.toNat := if_neg (by rwa [UInt8.lt_iff_toNat_lt])
    rw [hwrites.unique (writes_char c), hcode, ← append_nil (Saver.escape _)] at h
    obtain ⟨u, d, units', heq, -⟩ := exists_of_denotes_escape (by omega) (by omega) h
    exact cons_ne_nil _ _ (List.cons.inj heq).2.symm
  · intro hsmall
    have hcode : Saver.charCode c = c.toNat := if_pos (by rwa [UInt8.lt_iff_toNat_lt])
    refine ⟨_, writes_char c, ?_⟩
    rw [hcode, ← append_nil (Saver.escape _), denotes_escape_iff (by omega)]
    exact ⟨[], rfl, .nil⟩

/-! ## Strings inside a longer buffer -/

/-- Behind the first character comes what the freed memory contains. -/
theorem read_cons {behind : UInt8} (hbehind : behind ≠ 0) (c : Char) (str : List Char) (freed : Nat → UInt8) :
    StringArg.read ⟨utf8 (c :: str), behind⟩ freed =
      String.utf8EncodeChar c ++ (List.range (utf8 str).length).map freed := by
  have hparse : Utf8.parse (utf8 (c :: str)) = some (c.toNat, utf8 str) := Utf8.parse_utf8EncodeChar c _
  have hbytes : utf8 (c :: str) = String.utf8EncodeChar c ++ utf8 str := flatMap_cons
  rw [StringArg.read, if_neg hbehind, hparse, hbytes]
  simp

/-- A string that a null character ends is read as it is, and so is its first character. -/
theorem read_eq {behind : UInt8} {str : List Char} (h : behind = 0 ∨ str.length ≤ 1) (freed : Nat → UInt8) :
    StringArg.read ⟨utf8 str, behind⟩ freed = utf8 str := by
  by_cases hbehind : behind = 0
  · exact if_pos hbehind
  · match str, h.resolve_left hbehind with
    | [], _ => exact if_neg hbehind
    | [c], _ =>
      rw [read_cons hbehind]
      rfl

/-- When the freed memory contains zeros, a longer string is cut behind its first character. -/
theorem not_faithful_freed {behind : UInt8} {str : List Char} (h : ¬(behind = 0 ∨ str.length ≤ 1)) :
    ¬ Faithful (.string (StringArg.read ⟨utf8 str, behind⟩ fun _ => 0)) (str.flatMap utf16) := by
  obtain ⟨hbehind, hlength⟩ := not_or.mp h
  match str, hlength with
  | c₁ :: c₂ :: rest, _ =>
    have hzeros : StringArg.read ⟨utf8 (c₁ :: c₂ :: rest), behind⟩ (fun _ => 0) =
        utf8 (c₁ :: replicate (utf8 (c₂ :: rest)).length '\x00') := by
      have hzero : String.utf8EncodeChar '\x00' = [0] := by decide
      have hzeros : ∀ n, (List.range n).map (fun _ => (0 : UInt8)) = utf8 (replicate n '\x00') := by
        intro n
        rw [utf8, flatMap_replicate, hzero, flatten_replicate_singleton, map_const',
          length_range]
      rw [read_cons hbehind, hzeros]
      rfl
    rw [hzeros]
    rintro ⟨body, hwrites, hbody⟩
    rw [hwrites.unique (writes_string _), flatMap_cons, flatMap_cons] at hbody
    have hunits : utf16 c₂ ≠ [] := by
      rw [utf16]
      split_ifs <;> exact cons_ne_nil _ _
    by_cases hnul : c₁ = '\x00'
    · subst hnul
      exact hunits (append_eq_nil_iff.mp (append_eq_nil_iff.mp (denotes_nil_iff.mp hbody)).2).1
    · rw [takeWhile_cons_of_pos (by simpa using hnul), takeWhile_replicate, if_neg (by simp)] at hbody
      by_cases hlow : c₁.toNat < 0x10000
      · obtain ⟨units', heq, hrest⟩ := (denotes_escape_iff hlow).mp hbody
        rw [denotes_nil_iff.mp hrest, utf16, if_pos hlow, singleton_append] at heq
        exact hunits (append_eq_nil_iff.mp (List.cons.inj heq).2).1
      · -- the second unit of the pair is no digit
        obtain ⟨u, d, units', heq, hd⟩ := exists_of_denotes_escape (Nat.not_lt.mp hlow)
          ((Utf8.toNat_lt c₁).trans (by decide)) hbody
        rw [utf16, if_neg hlow] at heq
        have hsecond := (List.cons.inj (List.cons.inj heq).2).1
        omega
  | [], hlength => exact absurd (Nat.zero_le _) hlength
  | [_], hlength => exact absurd le_rfl hlength

theorem faithful_read_iff (str : List Char) (behind : UInt8) :
    (∀ freed, Faithful (.string (StringArg.read ⟨utf8 str, behind⟩ freed)) (str.flatMap utf16)) ↔
      (behind = 0 ∨ str.length ≤ 1) ∧ ∀ c ∈ str, c ≠ '\x00' ∧ c.toNat < 0x10000 := by
  constructor
  · intro h
    have hread : behind = 0 ∨ str.length ≤ 1 := by
      by_contra hread
      exact not_faithful_freed hread (h _)
    have hfirst := h fun _ => 0
    rw [read_eq hread] at hfirst
    exact ⟨hread, (faithful_string_iff str).mp hfirst⟩
  · rintro ⟨hread, hchars⟩ freed
    rw [read_eq hread]
    exact (faithful_string_iff str).mpr hchars

/-- A string is written faithfully, whatever the freed memory contains, exactly when a null character ends it or it
has at most one character, and when it has no character 0 and no character outside the Basic Multilingual Plane; a
`cstring` exactly when it has no such character; a `char` exactly when it is not negative. -/
theorem escape_faithful_iff (str : List Char) (behind c : UInt8) :
    ((∀ freed, Faithful (.string (StringArg.read ⟨utf8 str, behind⟩ freed)) (str.flatMap utf16)) ↔
        (behind = 0 ∨ str.length ≤ 1) ∧ ∀ x ∈ str, x ≠ '\x00' ∧ x.toNat < 0x10000) ∧
      (Faithful (.string (utf8 str)) (str.flatMap utf16) ↔ ∀ x ∈ str, x ≠ '\x00' ∧ x.toNat < 0x10000) ∧
      (Faithful (.char c) [c.toNat] ↔ c.toNat < 128) :=
  ⟨faithful_read_iff str behind, faithful_string_iff str, faithful_char_iff c⟩

/-- A character of the plane 1 is written `\u1d11e`, which is `\u1d11` and an `e`. -/
theorem not_faithful_plane :
    ¬ Faithful (.string (utf8 [Char.ofNat 0x1D11E])) ([Char.ofNat 0x1D11E].flatMap utf16) := by
  rintro ⟨body, hwrites, h⟩
  rw [hwrites.unique (writes_string _)] at h
  exact absurd ((denotes_flatMap_iff _).mp h _ mem_cons_self).2 (by decide)

end Elm.Json
