import Elm.Io.Scan

/-!
# The overflow test of `scanULong` and `scanULLong`

The value of the digits is accumulated modulo the size of the word, and a new value that is less than the
former one stops the scan with a failure.  The test misses the overflows after which the new value is not
less, and the former value is kept on 32 bits in `scanULLong` too.  A scan is right exactly when the number
fits in the word or the test finds one of its overflows.
-/

namespace Elm.Io

open List Nat

/-! ## Digit strings -/

/-- The character stands for the digit in this base. -/
structure IsDigit (base : Nat) (c : Char) (digit : Nat) : Prop where
  lt : digit < base
  char : c = digitChar 'a' digit ∨ c = digitChar 'A' digit

/-- The text is the digits, as many as there are, and the rest. -/
inductive Digits (base : Nat) : List Char → List Nat → List Char → Prop
  | stop {rest : List Char} : (∀ c ∈ rest.head?, ∀ digit, ¬ IsDigit base c digit) →
      Digits base rest [] rest
  | digit {c : Char} {text rest : List Char} {digit : Nat} {digits : List Nat} :
      IsDigit base c digit → Digits base text digits rest →
        Digits base (c :: text) (digit :: digits) rest

/-- The text is a number for the base that is asked for: the digits of its base, and the rest.  The base 0
stands for the one that the prefix gives. -/
inductive Numeral : Nat → List Char → Nat → List Nat → List Char → Prop
  | given {base : Nat} {text rest : List Char} {digits : List Nat} : 2 ≤ base → base ≤ 36 →
      Digits base text digits rest → digits ≠ [] → Numeral base text base digits rest
  | hex {c : Char} {text rest : List Char} {digits : List Nat} : c = 'x' ∨ c = 'X' →
      Digits 16 text digits rest → digits ≠ [] → Numeral 0 ('0' :: c :: text) 16 digits rest
  | bin {c : Char} {text rest : List Char} {digits : List Nat} : c = 'b' ∨ c = 'B' →
      Digits 2 text digits rest → digits ≠ [] → Numeral 0 ('0' :: c :: text) 2 digits rest
  | oct {text rest : List Char} {digits : List Nat} :
      (∀ c ∈ text.head?, c ∉ ['x', 'X', 'b', 'B']) → Digits 8 text digits rest →
        Numeral 0 ('0' :: text) 8 digits rest
  | dec {text rest : List Char} {digits : List Nat} : text.head? ≠ some '0' →
      Digits 10 text digits rest → digits ≠ [] → Numeral 0 text 10 digits rest

/-- The value that the digits denote. -/
def denoted (base : Nat) (digits : List Nat) : Nat := Nat.ofDigits base digits.reverse

/-- After `digits`, the test of overflow stops at `digit`. -/
def Stops (w base : Nat) (digits : List Nat) (digit : Nat) : Prop :=
  denoted base (digits ++ [digit]) % 2 ^ w < denoted base digits % 2 ^ w % 2 ^ 32

/-- The test of overflow stops somewhere in `digits`, read after `read`. -/
def Detected (w base : Nat) (read digits : List Nat) : Prop :=
  ∃ front digit, front ++ [digit] <+: digits ∧ Stops w base (read ++ front) digit

/-- The scan returns the value if it fits in the word, and fails otherwise. -/
def Correct (w value : Nat) (r : Nat × Input) : Prop :=
  if value < 2 ^ w then r.1 = value ∧ r.2.failed = false else r.2.failed = true

instance (w value : Nat) (r : Nat × Input) : Decidable (Correct w value r) :=
  inferInstanceAs (Decidable (if value < 2 ^ w then r.1 = value ∧ r.2.failed = false
    else r.2.failed = true))

@[simp] theorem denoted_nil (base : Nat) : denoted base [] = 0 := rfl

theorem denoted_append (base : Nat) (digits : List Nat) (digit : Nat) :
    denoted base (digits ++ [digit]) = denoted base digits * base + digit := by
  rw [denoted, reverse_append, reverse_singleton, singleton_append, ofDigits_cons,
    Nat.mul_comm, Nat.add_comm]
  rfl

/-- More digits denote a greater value. -/
theorem denoted_le {base : Nat} (hbase : 0 < base) {front digits : List Nat} (h : front <+: digits) :
    denoted base front ≤ denoted base digits := by
  obtain ⟨back, rfl⟩ := h
  induction back using List.reverseRecOn with
  | nil => rw [append_nil]
  | append_singleton back digit ih =>
    rw [← append_assoc, denoted_append]
    have hmul : denoted base (front ++ back) ≤ denoted base (front ++ back) * base :=
      Nat.le_mul_of_pos_right _ hbase
    omega

theorem detected_nil (w base : Nat) (read : List Nat) : ¬ Detected w base read [] := by
  rintro ⟨front, digit, hprefix, -⟩
  simp at hprefix

theorem detected_cons {w base digit : Nat} {read digits : List Nat} :
    Detected w base read (digit :: digits) ↔
      Stops w base read digit ∨ Detected w base (read ++ [digit]) digits := by
  constructor
  · rintro ⟨front, d, hprefix, hstops⟩
    cases front with
    | nil =>
      rw [nil_append, cons_prefix_cons] at hprefix
      obtain ⟨rfl, -⟩ := hprefix
      rw [append_nil] at hstops
      exact Or.inl hstops
    | cons x front =>
      rw [cons_append, cons_prefix_cons] at hprefix
      obtain ⟨rfl, hprefix⟩ := hprefix
      rw [append_cons] at hstops
      exact Or.inr ⟨front, d, hprefix, hstops⟩
  · rintro (hstops | ⟨front, d, hprefix, hstops⟩)
    · exact ⟨[], digit, by simp, by rwa [append_nil]⟩
    · refine ⟨digit :: front, d, by simpa using hprefix, ?_⟩
      simpa using hstops

/-- The test is silent on a number that fits in the word. -/
theorem not_detected {w base : Nat} (hbase : 0 < base) {digits : List Nat}
    (hvalue : denoted base digits < 2 ^ w) : ¬ Detected w base [] digits := by
  rintro ⟨front, digit, hprefix, hstops⟩
  have hnew := denoted_le hbase hprefix
  have hold := denoted_le hbase (prefix_append front [digit])
  have hmod := mod_le (denoted base front) (2 ^ 32)
  rw [nil_append, Stops, mod_eq_of_lt (by omega), mod_eq_of_lt (a := denoted base front)
    (by omega)] at hstops
  omega

/-! ## The digits of the code -/

theorem toNat_ofNat : ∀ n < 128, (Char.ofNat n).toNat = n := by decide

theorem eq_ofNat_iff {c : Char} {n : Nat} (hn : n < 128) : c = Char.ofNat n ↔ c.toNat = n := by
  constructor
  · rintro rfl
    exact toNat_ofNat n hn
  · rintro rfl
    exact (Char.ofNat_toNat c).symm

/-- The digits below ten are `0` to `9`, the others are letters. -/
theorem isDigit_iff {base : Nat} (hbase : base ≤ 36) {c : Char} {digit : Nat} :
    IsDigit base c digit ↔ digit < base ∧
      if digit < 10 then c.toNat = 48 + digit else c.toNat = 87 + digit ∨ c.toNat = 55 + digit := by
  have hchar (hlt : digit < 36) : (c = digitChar 'a' digit ∨ c = digitChar 'A' digit) ↔
      if digit < 10 then c.toNat = 48 + digit else c.toNat = 87 + digit ∨ c.toNat = 55 + digit := by
    have h0 : '0'.toNat = 48 := rfl
    have ha : 'a'.toNat = 97 := rfl
    have hA : 'A'.toNat = 65 := rfl
    simp only [digitChar, h0, ha, hA]
    split_ifs with hten
    · rw [eq_ofNat_iff (by omega), or_self]
    · rw [eq_ofNat_iff (by omega), eq_ofNat_iff (by omega)]
      omega
  constructor
  · rintro ⟨hlt, hc⟩
    exact ⟨hlt, (hchar (by omega)).mp hc⟩
  · rintro ⟨hlt, hc⟩
    exact ⟨hlt, (hchar (by omega)).mpr hc⟩

/-- `test_base` finds the digits of a supported base. -/
theorem testBase_eq_some_iff {base : Nat} (hbase : base ≤ 36) {c : Char} {digit : Nat} :
    testBase c base = some digit ↔ IsDigit base c digit := by
  have hle : ∀ a b : Char, a ≤ b ↔ a.toNat ≤ b.toNat := fun _ _ => Iff.rfl
  have h0 : '0'.toNat = 48 := rfl
  have h9 : '9'.toNat = 57 := rfl
  have ha : 'a'.toNat = 97 := rfl
  have hA : 'A'.toNat = 65 := rfl
  rw [isDigit_iff hbase]
  simp only [testBase, hle, h0, h9, ha, hA]
  split_ifs <;> simp only [Option.some.injEq, false_iff] <;> omega

theorem testBase_eq_none_iff {base : Nat} (hbase : base ≤ 36) {c : Char} :
    testBase c base = none ↔ ∀ digit, ¬ IsDigit base c digit := by
  rw [Option.eq_none_iff_forall_ne_some]
  exact forall_congr' fun digit => not_congr (testBase_eq_some_iff hbase)

/-- A digit is no space. -/
theorem IsDigit.not_space {base : Nat} (hbase : base ≤ 36) {c : Char} {digit : Nat}
    (h : IsDigit base c digit) : isSpace c = false := by
  obtain ⟨-, hc⟩ := (isDigit_iff hbase).mp h
  have hlow : 48 ≤ c.toNat := by
    split_ifs at hc <;> omega
  have hne : ∀ x : Char, x.toNat < 48 → c ≠ x := by
    rintro x hx rfl
    omega
  simp only [isSpace, hne ' ' (by decide), hne '\t' (by decide), hne '\n' (by decide),
    hne '\r' (by decide), decide_false, Bool.false_or, Bool.or_eq_false_iff, decide_eq_false_iff_not]
  omega

namespace Input

/-- `scanULong`. -/
def scanULong (s : Input) (base : Nat) : Nat × Input := s.scanUnsigned 32 base

/-- `scanULLong`. -/
def scanULLong (s : Input) (base : Nat) : Nat × Input := s.scanUnsigned 64 base

/-- The loop fails when the test stops it, and otherwise returns the value modulo the size of the word. -/
theorem scanDigits_spec {w base : Nat} (hbase : base ≤ 36) (s : Input) {text rest : List Char}
    {digits : List Nat} (h : Digits base text digits rest) :
    ∀ (read : List Nat) (one : Bool), (one = false → digits ≠ []) →
      (Detected w base read digits →
          (scanDigits w base s text (denoted base read % 2 ^ w) one).2.failed = true) ∧
        (¬ Detected w base read digits →
          (scanDigits w base s text (denoted base read % 2 ^ w) one).1 =
              denoted base (read ++ digits) % 2 ^ w ∧
            (scanDigits w base s text (denoted base read % 2 ^ w) one).2.failed = s.failed) := by
  induction h with
  | @stop rest hrest =>
    intro read one hone
    have hone : one = true := by
      cases one with
      | true => rfl
      | false => exact absurd rfl (hone rfl)
    refine ⟨fun h => absurd h (detected_nil w base read), fun _ => ?_⟩
    rw [append_nil]
    cases rest with
    | nil => simp [scanDigits, hone]
    | cons c rest =>
      have hnone : testBase c base = none :=
        (testBase_eq_none_iff hbase).mpr (hrest c rfl)
      simp [scanDigits, hnone, hone, back]
  | @digit c text rest digit digits hc _ ih =>
    intro read one _
    have hsome : testBase c base = some digit := (testBase_eq_some_iff hbase).mpr hc
    have hval : (denoted base read % 2 ^ w * base + digit) % 2 ^ w =
        denoted base (read ++ [digit]) % 2 ^ w := by
      rw [denoted_append, add_mod, mod_mul_mod, ← add_mod]
    rw [detected_cons]
    by_cases hstops : Stops w base read digit
    · have hlt : denoted base (read ++ [digit]) % 2 ^ w < denoted base read % 2 ^ w % 2 ^ 32 := hstops
      refine ⟨fun _ => ?_, fun h => absurd (Or.inl hstops) h⟩
      simp only [scanDigits, hsome, hval, if_pos hlt, fail]
    · have hlt : ¬ denoted base (read ++ [digit]) % 2 ^ w < denoted base read % 2 ^ w % 2 ^ 32 := hstops
      obtain ⟨hdet, hnot⟩ := ih (read ++ [digit]) true (fun h => absurd h (by decide))
      rw [append_assoc, singleton_append] at hnot
      simp only [scanDigits, hsome, hval, if_neg hlt]
      exact ⟨fun h => hdet (h.resolve_left hstops), fun h => hnot fun h' => h (Or.inr h')⟩

/-- The loop on a number is right exactly when the number fits or the test stops it. -/
theorem correct_scanDigits_iff {w base : Nat} (hlow : 0 < base) (hbase : base ≤ 36) (s : Input)
    (hs : s.failed = false) {text rest : List Char} {digits : List Nat} (h : Digits base text digits rest)
    {one : Bool} (hone : one = false → digits ≠ []) :
    Correct w (denoted base digits) (scanDigits w base s text 0 one) ↔
      denoted base digits < 2 ^ w ∨ Detected w base [] digits := by
  obtain ⟨hdet, hnot⟩ := scanDigits_spec (w := w) hbase s h [] one hone
  rw [denoted_nil, zero_mod] at hdet hnot
  unfold Correct
  by_cases hvalue : denoted base digits < 2 ^ w
  · obtain ⟨hval, hfailed⟩ := hnot (not_detected hlow hvalue)
    rw [nil_append, mod_eq_of_lt hvalue] at hval
    rw [if_pos hvalue]
    exact iff_of_true ⟨hval, hfailed.trans hs⟩ (Or.inl hvalue)
  · rw [if_neg hvalue]
    constructor
    · intro hfailed
      right
      by_contra hundetected
      rw [(hnot hundetected).2, hs] at hfailed
      cases hfailed
    · rintro (hlt | hdetected)
      · exact absurd hlt hvalue
      · exact hdet hdetected

/-- A text with digits starts with one. -/
theorem Digits.head {base : Nat} {text rest : List Char} {digits : List Nat}
    (h : Digits base text digits rest) (hne : digits ≠ []) :
    ∃ c text' digit, text = c :: text' ∧ IsDigit base c digit := by
  cases h with
  | stop _ => exact absurd rfl hne
  | @digit c text _ digit _ hc _ => exact ⟨c, text, digit, rfl, hc⟩

/-- The spaces before a number are skipped. -/
theorem skip_blanks {blanks text : List Char} (hblanks : ∀ c ∈ blanks, isSpace c = true)
    (htext : ∀ c ∈ text.head?, isSpace c = false) : Io.skip (blanks ++ text) = text := by
  rw [Io.skip, dropWhile_append_of_pos hblanks]
  cases text with
  | nil => rfl
  | cons c text => rw [dropWhile_cons_of_neg (by simp [htext c rfl])]

theorem Numeral.not_space {asked base : Nat} {text rest : List Char} {digits : List Nat}
    (h : Numeral asked text base digits rest) : ∀ c ∈ text.head?, isSpace c = false := by
  have hfirst : ∀ {b : Nat} {text : List Char}, b ≤ 36 → Digits b text digits rest → digits ≠ [] →
      ∀ c ∈ text.head?, isSpace c = false := by
    intro b text hb hdigits hne c hc
    obtain ⟨c', text', digit, rfl, hdigit⟩ := Digits.head hdigits hne
    obtain rfl := Option.some.inj hc
    exact hdigit.not_space hb
  cases h with
  | given _ hhigh hdigits hne => exact hfirst hhigh hdigits hne
  | hex _ _ _ =>
    rintro c ⟨⟩
    rfl
  | bin _ _ _ =>
    rintro c ⟨⟩
    rfl
  | oct _ _ =>
    rintro c ⟨⟩
    rfl
  | dec _ hdigits hne => exact hfirst (by decide) hdigits hne

/-- The scan of a number is right exactly when the number fits or the test stops it. -/
theorem correct_scanUnsigned_iff {w asked base : Nat} (s : Input) (hs : s.failed = false)
    {blanks text rest : List Char} {digits : List Nat} (htext : s.text = blanks ++ text)
    (hblanks : ∀ c ∈ blanks, isSpace c = true) (h : Numeral asked text base digits rest) :
    Correct w (denoted base digits) (scanUnsigned s w asked) ↔
      denoted base digits < 2 ^ w ∨ Detected w base [] digits := by
  have hskip : Io.skip s.text = text := by
    rw [htext]
    exact skip_blanks hblanks (Numeral.not_space h)
  unfold scanUnsigned
  rw [hskip]
  cases h with
  | given hlow hhigh hdigits hne =>
    obtain ⟨b, rfl⟩ : ∃ b, asked = b + 2 := ⟨asked - 2, by omega⟩
    exact correct_scanDigits_iff (by omega) hhigh s hs hdigits fun _ => hne
  | @hex c text _ _ hc hdigits hne =>
    simp only [if_pos hc]
    exact correct_scanDigits_iff (by decide) (by decide) s hs hdigits fun _ => hne
  | @bin c text _ _ hc hdigits hne =>
    have hx : ¬ (c = 'x' ∨ c = 'X') := by
      rcases hc with rfl | rfl <;> decide
    simp only [if_neg hx, if_pos hc]
    exact correct_scanDigits_iff (by decide) (by decide) s hs hdigits fun _ => hne
  | @oct text _ _ hhead hdigits =>
    cases text with
    | nil => exact correct_scanDigits_iff (by decide) (by decide) s hs hdigits (fun h => absurd h (by decide))
    | cons c text =>
      have hc := hhead c rfl
      have hx : ¬ (c = 'x' ∨ c = 'X') := by
        rintro (rfl | rfl) <;> simp at hc
      have hb : ¬ (c = 'b' ∨ c = 'B') := by
        rintro (rfl | rfl) <;> simp at hc
      simp only [if_neg hx, if_neg hb]
      exact correct_scanDigits_iff (by decide) (by decide) s hs hdigits (fun h => absurd h (by decide))
  | dec hhead hdigits hne =>
    obtain ⟨c, text', digit, rfl, -⟩ := Digits.head hdigits hne
    have hc : c ≠ '0' := fun heq => hhead (congrArg some heq)
    split
    · rename_i heq
      exact absurd (List.cons.inj heq).1 hc
    · rename_i heq
      exact absurd (List.cons.inj heq).1 hc
    · exact correct_scanDigits_iff (by decide) (by decide) s hs hdigits fun _ => hne
    · rename_i hzero _ _
      exact absurd rfl hzero

end Input

/-- The text of the input is spaces and a number for the base that is asked for. -/
structure Input.Holds (s : Input) (asked base : Nat) (digits : List Nat) : Prop where
  ready : s.failed = false
  number : ∃ blanks text rest, s.text = blanks ++ text ∧ (∀ c ∈ blanks, isSpace c = true) ∧
    Numeral asked text base digits rest

/-- On a number, each function is right exactly when the number fits in its word or its test of overflow
stops. -/
theorem scanULong_correct_iff (s : Input) (asked base : Nat) (digits : List Nat)
    (h : s.Holds asked base digits) :
    (Correct 32 (denoted base digits) (s.scanULong asked) ↔
        denoted base digits < 2 ^ 32 ∨ Detected 32 base [] digits) ∧
      (Correct 64 (denoted base digits) (s.scanULLong asked) ↔
        denoted base digits < 2 ^ 64 ∨ Detected 64 base [] digits) := by
  obtain ⟨hs, blanks, text, rest, htext, hblanks, hnumeral⟩ := h
  exact ⟨Input.correct_scanUnsigned_iff s hs htext hblanks hnumeral,
    Input.correct_scanUnsigned_iff s hs htext hblanks hnumeral⟩

/-- A number of hexadecimal digits after a space. -/
def hexInput : Input := { text := [' ', '0', 'x', 'f', 'F', ';'] }

theorem hexInput_holds : hexInput.Holds 0 16 [15, 15] := by
  refine ⟨rfl, [' '], ['0', 'x', 'f', 'F', ';'], [';'], rfl, by decide, .hex (Or.inl rfl) ?_ (by decide)⟩
  refine .digit ⟨by decide, Or.inl rfl⟩ (.digit ⟨by decide, Or.inr rfl⟩ (.stop ?_))
  intro c hc
  obtain rfl := Option.some.inj hc
  exact (testBase_eq_none_iff (by decide)).mp rfl

theorem scanULong_correct_iff_hex :
    (Correct 32 (denoted 16 [15, 15]) (hexInput.scanULong 0) ↔
        denoted 16 [15, 15] < 2 ^ 32 ∨ Detected 32 16 [] [15, 15]) ∧
      (Correct 64 (denoted 16 [15, 15]) (hexInput.scanULLong 0) ↔
        denoted 16 [15, 15] < 2 ^ 64 ∨ Detected 64 16 [] [15, 15]) :=
  scanULong_correct_iff hexInput 0 16 [15, 15] hexInput_holds

/-- Six thousand millions are read as a smaller number, without a failure. -/
theorem not_scanULong_correct :
    ¬ ∀ (s : Input) (asked base : Nat) (digits : List Nat), s.Holds asked base digits →
      Correct 32 (denoted base digits) (s.scanULong asked) ∧
        Correct 64 (denoted base digits) (s.scanULLong asked) := by
  intro h
  have hholds : Input.Holds { text := ['6', '0', '0', '0', '0', '0', '0', '0', '0', '0'] } 10 10
      [6, 0, 0, 0, 0, 0, 0, 0, 0, 0] := by
    refine ⟨rfl, [], _, [], rfl, by decide, .given (by decide) (by decide) ?_ (by decide)⟩
    have hzero : IsDigit 10 '0' 0 := ⟨by decide, Or.inl rfl⟩
    exact .digit ⟨by decide, Or.inl rfl⟩ (.digit hzero (.digit hzero (.digit hzero (.digit hzero
      (.digit hzero (.digit hzero (.digit hzero (.digit hzero (.digit hzero (.stop (by simp)))))))))))
  have hcorrect := (h _ _ _ _ hholds).1
  revert hcorrect
  decide

end Elm.Io
