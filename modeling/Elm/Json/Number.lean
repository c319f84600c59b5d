import Elm.Json.Grammar
import Elm.Json.Lexer

/-!
# The numbers of the documented texts

What the scanners of `io::Input` make of the text that the lexer cuts for a documented number.
-/

namespace Elm.Json

open Io List Option

/-! ## The longest run -/

theorem takeWhile_append {p : Char → Bool} {l rest : List Char} (hl : ∀ c ∈ l, p c)
    (hrest : ∀ c ∈ rest.head?, ¬ p c) :
    (l ++ rest).takeWhile p = l ∧ (l ++ rest).dropWhile p = rest := by
  rw [takeWhile_append_of_pos hl, dropWhile_append_of_pos hl]
  cases rest with
  | nil => simp
  | cons c rest =>
    have hc : ¬ p c := hrest c rfl
    rw [takeWhile_cons_of_neg hc, dropWhile_cons_of_neg hc]
    simp

theorem run_append {base : Nat} {l rest : List Char} (hl : ∀ c ∈ l, c ∈ Parser.baseChars base)
    (hrest : ∀ c ∈ rest.head?, c ∉ Parser.baseChars base) :
    run base (l ++ rest) = (if l.any (· ∈ Parser.floatChars) then .float else .int,
      StringBuffer.toString (Parser.basePrefix base ++ l), dropNul rest) := by
  obtain ⟨htake, hdrop⟩ := takeWhile_append (p := fun c => decide (c ∈ Parser.baseChars base))
    (l := l) (by simpa using hl) (by simpa using hrest)
  unfold run
  simp only [htake, hdrop]

/-! ## The value of digits -/

/-- The number that digits stand for, after the digits of `n`. -/
theorem pow_mul_le_foldl_digits (base : Nat) (ds : List Char) (n : Nat) :
    base ^ ds.length * n ≤ ds.foldl (fun n c => base * n + (Parser.asHex c).getD 0) n := by
  induction ds generalizing n with
  | nil => rw [length_nil, pow_zero, one_mul, foldl_nil]
  | cons c ds ih =>
    rw [length_cons, pow_succ, mul_assoc]
    exact (Nat.mul_le_mul_left _ (Nat.le_add_right _ _)).trans (ih _)

theorem le_foldl_digits {base : Nat} (hbase : 0 < base) (ds : List Char) (n : Nat) :
    n ≤ ds.foldl (fun n c => base * n + (Parser.asHex c).getD 0) n :=
  (Nat.le_mul_of_pos_left n (Nat.pow_pos hbase)).trans (pow_mul_le_foldl_digits base ds n)

theorem numeral_append_le (base : Nat) (ds ds' : List Char) :
    base ^ ds'.length * numeral base ds ≤ numeral base (ds ++ ds') := by
  unfold numeral
  rw [foldl_append]
  exact pow_mul_le_foldl_digits base ds' _

/-- An integer of 31 bits has at most ten digits. -/
theorem IsInteger.length_le {ds : List Char} (h : IsInteger ds) (hlt : numeral 10 ds < 2 ^ 31) :
    ds.length ≤ 10 := by
  rcases h with rfl | ⟨c, cs, rfl, hc, hzero, -⟩
  · decide
  · have hall : ∀ c ∈ digits, c ≠ '0' → 1 ≤ numeral 10 [c] := by decide
    have hle : 10 ^ cs.length * numeral 10 [c] ≤ numeral 10 (c :: cs) := numeral_append_le 10 [c] cs
    by_contra hlong
    rw [length_cons, not_le] at hlong
    have hpow : 10 ^ 10 ≤ 10 ^ cs.length := Nat.pow_le_pow_right (by decide) (by omega)
    have hmul : 10 ^ cs.length * 1 ≤ 10 ^ cs.length * numeral 10 [c] := Nat.mul_le_mul_left _ (hall c hc hzero)
    omega

/-- Digits whose value has 32 bits are scanned without a failure. -/
theorem scanDigits_eq {base : Nat} (hbase : 0 < base) {ds : List Char}
    (hds : ∀ c ∈ ds, (testBase c base).isSome ∧ testBase c base = Parser.asHex c) (n : Nat)
    (hlt : ds.foldl (fun n c => base * n + (Parser.asHex c).getD 0) n < 2 ^ 32) :
    (scanDigits base ds (UInt32.ofNat n)).toNat =
      ds.foldl (fun n c => base * n + (Parser.asHex c).getD 0) n := by
  induction ds generalizing n with
  | nil =>
    exact UInt32.toNat_ofNat_of_lt' hlt
  | cons c ds ih =>
    obtain ⟨hsome, heq⟩ := hds c mem_cons_self
    obtain ⟨digit, hdigit⟩ := isSome_iff_exists.mp hsome
    rw [foldl_cons, ← heq, hdigit, getD_some] at hlt ⊢
    have hnext : base * n + digit < 2 ^ 32 := lt_of_le_of_lt (le_foldl_digits hbase ds _) hlt
    have hle : n ≤ base * n := Nat.le_mul_of_pos_left n hbase
    have hval : UInt32.ofNat n * UInt32.ofNat base + UInt32.ofNat digit =
        UInt32.ofNat (base * n + digit) := by
      rw [← UInt32.ofNat_mul, ← UInt32.ofNat_add, Nat.mul_comm]
    have hnot : ¬ UInt32.ofNat (base * n + digit) < UInt32.ofNat n := by
      have hn : n < 2 ^ 32 := by omega
      rw [UInt32.lt_iff_toNat_lt, UInt32.toNat_ofNat_of_lt' hnext, UInt32.toNat_ofNat_of_lt' hn]
      omega
    rw [scanDigits, hdigit]
    simp only [hval]
    rw [if_neg hnot]
    exact ih (fun c hc => hds c (mem_cons_of_mem _ hc)) _ hlt

theorem scanDigits_numeral {base : Nat} (hbase : 0 < base) {ds : List Char}
    (hds : ∀ c ∈ ds, (testBase c base).isSome ∧ testBase c base = Parser.asHex c)
    (hlt : numeral base ds < 2 ^ 32) : (scanDigits base ds 0).toNat = numeral base ds :=
  scanDigits_eq hbase hds 0 hlt

theorem testBase_decimal : ∀ c ∈ digits, (testBase c 10).isSome ∧ testBase c 10 = Parser.asHex c := by
  decide

theorem testBase_hexadecimal :
    ∀ c ∈ Parser.baseChars 16, (testBase c 16).isSome ∧ testBase c 16 = Parser.asHex c := by
  decide

theorem testBase_binary :
    ∀ c ∈ Parser.baseChars 2, (testBase c 2).isSome ∧ testBase c 2 = Parser.asHex c := by
  decide

/-! ## The scanners -/

theorem digits_notSpace : ∀ c ∈ digits, isSpace c = false := by decide

theorem skip_cons {c : Char} (hc : isSpace c = false) (text : List Char) : skip (c :: text) = c :: text := by
  rw [skip, dropWhile_cons_of_neg (by simp [hc])]

theorem IsInteger.digits {ds : List Char} (h : IsInteger ds) : ∀ c ∈ ds, c ∈ digits := by
  rcases h with rfl | ⟨c, cs, rfl, hc, -, hcs⟩
  · decide
  · exact forall_mem_cons.mpr ⟨hc, hcs⟩

theorem IsInteger.skip {ds : List Char} (h : IsInteger ds) : skip ds = ds := by
  rcases h with rfl | ⟨c, cs, rfl, hc, -, -⟩
  · rfl
  · exact skip_cons (digits_notSpace c hc) cs

theorem scanULong_decimal {ds : List Char} (h : IsInteger ds) (hlt : numeral 10 ds < 2 ^ 32) :
    (scanULong ds).toNat = numeral 10 ds := by
  have hscan : scanULong ds = scanDigits 10 ds 0 := by
    rw [scanULong, h.skip]
    rcases h with rfl | ⟨c, cs, rfl, -, hzero, -⟩
    · rfl
    · split
      · rename_i heq
        exact absurd (List.cons.inj heq).1 hzero
      · rfl
  rw [hscan]
  exact scanDigits_numeral (by decide) (fun c hc => testBase_decimal c (h.digits c hc)) hlt

theorem scanLong_eq {text ds : List Char} {neg : Bool} (hskip : skip text = minus neg ++ ds)
    (hds : ∀ c ∈ ds.head?, c ≠ '-' ∧ c ≠ '+') :
    scanLong text = if (scanULong ds).toNat ≥ 2 ^ 31 then 0
      else if neg then -((scanULong ds).toNat : Int) else (scanULong ds).toNat := by
  unfold scanLong
  rw [hskip]
  cases neg with
  | true => simp [minus]
  | false =>
    have hhead : ds.head? ≠ some '-' := fun h => (hds '-' h).1 rfl
    simp only [minus, Bool.false_eq_true, if_false, nil_append, hhead]
    split
    · exact absurd rfl (hds '-' rfl).1
    · exact absurd rfl (hds '+' rfl).2
    · rfl

theorem scanLong_bounds (text : List Char) : -2 ^ 31 < scanLong text ∧ scanLong text < 2 ^ 31 := by
  unfold scanLong
  simp only
  split_ifs with hlarge hneg
  · decide
  · constructor <;> omega
  · constructor <;> omega

/-- A decimal integer is scanned right if it has 32 bits with its sign. -/
theorem scanLong_decimal {ds : List Char} (h : IsInteger ds) (neg : Bool) (hlt : numeral 10 ds < 2 ^ 31) :
    scanLong (minus neg ++ ds) = if neg then -(numeral 10 ds : Int) else numeral 10 ds := by
  have hscan := scanULong_decimal h (by omega)
  have hskip : skip (minus neg ++ ds) = minus neg ++ ds := by
    cases neg with
    | true => exact skip_cons (by decide) ds
    | false => exact h.skip
  have hsign : ∀ c ∈ ds.head?, c ≠ '-' ∧ c ≠ '+' := by
    intro c hc
    have hmem := h.digits c (mem_of_mem_head? hc)
    constructor
    · rintro rfl
      exact absurd hmem (by decide)
    · rintro rfl
      exact absurd hmem (by decide)
  rw [scanLong_eq hskip hsign, if_neg (by omega), hscan]

/-- An integer in another base is scanned right if it has 31 bits. -/
theorem scanLong_based {base : Nat} (hbase : base = 16 ∨ base = 2) {ds : List Char}
    (hds : ∀ c ∈ ds, c ∈ Parser.baseChars base) (hlt : numeral base ds < 2 ^ 31) :
    scanLong (Parser.basePrefix base ++ ds) = numeral base ds := by
  have hscan : (scanULong (Parser.basePrefix base ++ ds)).toNat = numeral base ds := by
    rcases hbase with rfl | rfl
    · have hdigits : (scanDigits 16 ds 0).toNat = numeral 16 ds :=
        scanDigits_numeral (by decide) (fun c hc => testBase_hexadecimal c (hds c hc)) (by omega)
      exact hdigits
    · have hdigits : (scanDigits 2 ds 0).toNat = numeral 2 ds :=
        scanDigits_numeral (by decide) (fun c hc => testBase_binary c (hds c hc)) (by omega)
      exact hdigits
  have hskip : skip (Parser.basePrefix base ++ ds) = minus false ++ (Parser.basePrefix base ++ ds) := by
    rcases hbase with rfl | rfl <;> rfl
  have hsign : ∀ c ∈ (Parser.basePrefix base ++ ds).head?, c ≠ '-' ∧ c ≠ '+' := by
    intro c hc
    rcases hbase with rfl | rfl <;> cases hc <;> decide
  rw [scanLong_eq hskip hsign, if_neg (by omega), hscan]
  rfl

/-! ## A text that is cut -/

/-- Where a text of `2 ^ 16` characters or more is cut, the digits that are left count for nothing in a
number of 31 bits. -/
theorem exists_cut {base : Nat} (hbase : 2 ≤ base) {before ds : List Char} (hbefore : before.length ≤ 2)
    (hlong : ¬ (before ++ ds).length < 2 ^ 16) (hlt : numeral base ds < 2 ^ 31) :
    ∃ k m, StringBuffer.toString (before ++ ds) = before.take k ++ ds.take m ∧ (k < before.length → m = 0) ∧
      numeral base (ds.take m) = 0 := by
  have hlen : (before ++ ds).length = before.length + ds.length := length_append
  refine ⟨(before ++ ds).length % 2 ^ 16, (before ++ ds).length % 2 ^ 16 - before.length, ?_, by omega, ?_⟩
  · rw [StringBuffer.toString, take_append]
  · generalize hm : (before ++ ds).length % 2 ^ 16 - before.length = m
    by_contra hne
    have hdrop : 31 ≤ (ds.drop m).length := by
      rw [length_drop]
      omega
    have hle := numeral_append_le base (ds.take m) (ds.drop m)
    rw [take_append_drop] at hle
    have hpow : 2 ^ 31 ≤ base ^ (ds.drop m).length :=
      (Nat.pow_le_pow_right (by decide) hdrop).trans (Nat.pow_le_pow_left hbase _)
    have hmul := Nat.mul_le_mul hpow (Nat.one_le_iff_ne_zero.mpr hne)
    omega

/-- An integer in another base is scanned right if its text is not cut, or if it is zero. -/
theorem scanLong_based_iff {base : Nat} (hbase : base = 16 ∨ base = 2) {ds : List Char}
    (hds : ∀ c ∈ ds, c ∈ Parser.baseChars base) (hlt : numeral base ds < 2 ^ 31) :
    scanLong (StringBuffer.toString (Parser.basePrefix base ++ ds)) = numeral base ds ↔
      ds.length + 2 < 2 ^ 16 ∨ numeral base ds = 0 := by
  have hlength : (Parser.basePrefix base).length = 2 := by
    rcases hbase with rfl | rfl <;> rfl
  have hlen : (Parser.basePrefix base ++ ds).length = ds.length + 2 := by
    rw [length_append, hlength, Nat.add_comm]
  by_cases hshort : ds.length + 2 < 2 ^ 16
  · rw [StringBuffer.toString_of_lt (hlen ▸ hshort)]
    exact iff_of_true (scanLong_based hbase hds hlt) (Or.inl hshort)
  · rw [or_iff_right hshort]
    obtain ⟨k, m, htext, hk, hzero⟩ :=
      exists_cut (by omega) hlength.le (fun h => hshort (hlen ▸ h)) hlt
    have hscan : scanLong (StringBuffer.toString (Parser.basePrefix base ++ ds)) = 0 := by
      rw [htext]
      by_cases hprefix : k < (Parser.basePrefix base).length
      · rw [hk hprefix, take_zero, append_nil]
        rw [hlength] at hprefix
        rcases hbase with rfl | rfl <;> interval_cases k <;> decide
      · rw [take_of_length_le (Nat.not_lt.mp hprefix),
          scanLong_based hbase (fun c hc => hds c (mem_of_mem_take hc)) (by omega), hzero]
        rfl
    rw [hscan]
    omega

/-! ## The number at the start of a text -/

theorem digits_notFloat : ∀ c ∈ digits, c ∉ Parser.floatChars := by decide

theorem digits_baseChars : ∀ c ∈ digits, c ∈ Parser.baseChars 10 := by decide

theorem digits_isNumber : ∀ c ∈ digits, Parser.isNumber c := by decide

theorem floatChars_isNumber : ∀ c ∈ Parser.floatChars, Parser.isNumber c := by decide

/-- The run has a point or an exponent exactly when the integer part has a tail. -/
theorem run_tail {l tail rest : List Char} (hl : ∀ c ∈ l, c ∈ Parser.baseChars 10 ∧ c ∉ Parser.floatChars)
    (htail : ∀ c ∈ tail, c ∈ Parser.baseChars 10) (hhead : ∀ c ∈ tail.head?, c ∈ Parser.floatChars)
    (hends : EndsNumber rest) :
    run 10 (l ++ tail ++ rest) =
      (if tail = [] then .int else .float, StringBuffer.toString (l ++ tail), dropNul rest) := by
  have hchars : ∀ c ∈ l ++ tail, c ∈ Parser.baseChars 10 := by
    intro c hc
    rcases mem_append.mp hc with hc | hc
    · exact (hl c hc).1
    · exact htail c hc
  have hfloat : (l ++ tail).any (· ∈ Parser.floatChars) = decide (tail ≠ []) := by
    rw [any_append]
    have hint : l.any (· ∈ Parser.floatChars) = false := by
      rw [List.any_eq_false]
      intro c hc
      simpa using (hl c hc).2
    rw [hint, Bool.false_or]
    cases tail with
    | nil => rfl
    | cons c tail =>
      have hc := hhead c rfl
      simp [hc]
  rw [run_append hchars fun c hc => (hends c hc).1, hfloat]
  by_cases htail : tail = []
  · simp [htail, Parser.basePrefix]
  · simp [htail, Parser.basePrefix]

theorem leadingNumber_of_ne_zero {c : Char} {text : List Char} (hzero : c ≠ '0')
    (hc : c = '+' ∨ c = '-' ∨ Parser.isNumber c) : leadingNumber (c :: text) = some (run 10 (c :: text)) := by
  rw [leadingNumber, if_neg hzero, if_pos hc]

/-- The text of a decimal number that is scanned: a zero that comes first is lost, unless it has a sign or
nothing after it. -/
def scannedText (neg : Bool) (ds tail : List Char) : List Char :=
  if neg = false ∧ ds = ['0'] ∧ tail ≠ [] then tail else minus neg ++ ds ++ tail

theorem leadingNumber_decimal (neg : Bool) {ds tail rest : List Char} (hds : IsInteger ds)
    (htail : ∀ c ∈ tail, c ∈ Parser.baseChars 10) (hhead : ∀ c ∈ tail.head?, c ∈ Parser.floatChars)
    (hends : EndsNumber rest) :
    leadingNumber (minus neg ++ ds ++ tail ++ rest) =
      some (if tail = [] then .int else .float, StringBuffer.toString (scannedText neg ds tail), dropNul rest) := by
  have hchars : ∀ c ∈ ds, c ∈ Parser.baseChars 10 ∧ c ∉ Parser.floatChars :=
    fun c hc => ⟨digits_baseChars c (hds.digits c hc), digits_notFloat c (hds.digits c hc)⟩
  cases neg with
  | true =>
    have hminus : ∀ c ∈ '-' :: ds, c ∈ Parser.baseChars 10 ∧ c ∉ Parser.floatChars :=
      forall_mem_cons.mpr ⟨by decide, hchars⟩
    have hscanned : scannedText true ds tail = '-' :: ds ++ tail := if_neg (by simp)
    rw [hscanned, show minus true ++ ds = '-' :: ds from rfl, ← run_tail hminus htail hhead hends]
    exact leadingNumber_of_ne_zero (by decide) (by decide)
  | false =>
    rcases hds with rfl | ⟨c, cs, rfl, hc, hzero, hcs⟩
    · -- the integer part is a zero
      cases tail with
      | nil =>
        have hscanned : StringBuffer.toString (scannedText false ['0'] []) = ['0'] := by decide
        rw [hscanned]
        cases rest with
        | nil => rfl
        | cons c rest =>
          obtain ⟨hdec, hhex, hx, hX, -⟩ := hends c rfl
          have hb : ¬ (c = 'b' ∨ c = 'B') := by
            rintro (rfl | rfl)
            · exact hhex (by decide)
            · exact hhex (by decide)
          have hnum : ¬ Parser.isNumber c := fun h => hdec (Parser.mem_baseChars_of_isNumber h)
          change some (afterZero (c :: rest)) = _
          rw [afterZero, if_neg (by simp [hx, hX]), if_neg hb, if_neg hnum]
          rfl
      | cons c tail =>
        have hfloat := hhead c rfl
        have hscanned : scannedText false ['0'] (c :: tail) = c :: tail := if_pos (by simp)
        have hxb : ¬ (c = 'x' ∨ c = 'X') ∧ ¬ (c = 'b' ∨ c = 'B') := by
          have hall : ∀ c ∈ Parser.floatChars, ¬ (c = 'x' ∨ c = 'X') ∧ ¬ (c = 'b' ∨ c = 'B') := by decide
          exact hall c hfloat
        have hrun := run_tail (l := []) (by simp) htail hhead hends
        change some (afterZero (c :: (tail ++ rest))) = _
        rw [afterZero, if_neg hxb.1, if_neg hxb.2, if_pos (floatChars_isNumber c hfloat), hscanned]
        exact congrArg some hrun
    · have hscanned : scannedText false (c :: cs) tail = c :: cs ++ tail := if_neg (by simp [hzero])
      rw [hscanned, show minus false ++ c :: cs = c :: cs from rfl, ← run_tail hchars htail hhead hends]
      exact leadingNumber_of_ne_zero hzero (Or.inr (Or.inr (digits_isNumber c hc)))

/-- An integer in base 16 or 2, after its prefix. -/
theorem run_based {base : Nat} {ds rest : List Char} (hds : ∀ c ∈ ds, c ∈ Parser.baseChars base)
    (hbase : base = 16 ∨ base = 2) (hends : EndsNumber rest) :
    run base (ds ++ rest) = (if ds.any (· ∈ Parser.floatChars) then .float else .int,
      StringBuffer.toString (Parser.basePrefix base ++ ds), dropNul rest) := by
  refine run_append hds fun c hc hmem => (hends c hc).2.1 ?_
  rcases hbase with rfl | rfl
  · exact hmem
  · have hall : ∀ c ∈ Parser.baseChars 2, c ∈ Parser.baseChars 16 := by decide
    exact hall c hmem

/-! ## Numbers with a fraction or an exponent -/

theorem digitsText_digits (ds : List (Fin 10)) : ∀ c ∈ digitsText ds, c ∈ digits := by
  have hall : ∀ d : Fin 10, digitChar 'a' d.val ∈ digits := by decide
  intro c hc
  obtain ⟨d, -, rfl⟩ := List.mem_map.mp hc
  exact hall d

section Literals

variable (l : Literal)

/-- What follows the integer part. -/
theorem fractionTail_baseChars (hne : l.fraction.isSome ∨ l.exponent.isSome) :
    (∀ c ∈ l.fractionTail [], c ∈ Parser.baseChars 10) ∧
      (∀ c ∈ (l.fractionTail []).head?, c ∈ Parser.floatChars) ∧ l.fractionTail [] ≠ [] := by
  have hdigits : ∀ ds, ∀ c ∈ digitsText ds, c ∈ Parser.baseChars 10 :=
    fun ds c hc => digits_baseChars c (digitsText_digits ds c hc)
  have hmark : ∀ e : Exponent, e.mark ∈ Parser.baseChars 10 ∧ e.mark ∈ Parser.floatChars := by
    intro e
    rcases e.mark_eq with h | h <;> rw [h] <;> decide
  have hexponent : ∀ c ∈ l.tail [], c ∈ Parser.baseChars 10 := by
    unfold Literal.tail
    cases l.exponent with
    | none => exact forall_mem_nil _
    | some e =>
      have hsign : ∀ c ∈ e.sign.text, c ∈ Parser.baseChars 10 := by
        cases e.sign <;> decide
      intro c hc
      rw [elim_some, append_nil, Exponent.text, cons_append, mem_cons,
        mem_append] at hc
      rcases hc with rfl | hc | hc
      · exact (hmark e).1
      · exact hsign c hc
      · exact hdigits _ c hc
  unfold Literal.fractionTail
  cases hf : l.fraction with
  | some decs =>
    refine ⟨?_, fun c hc => by cases hc; decide, cons_ne_nil _ _⟩
    intro c hc
    rcases mem_append.mp hc with hc | hc
    · rcases mem_cons.mp hc with rfl | hc
      · decide
      · exact hdigits _ c hc
    · exact hexponent c hc
  | none =>
    rw [hf] at hne
    obtain ⟨e, he⟩ := isSome_iff_exists.mp (hne.resolve_left (by simp))
    refine ⟨hexponent, ?_, ?_⟩
    · rw [elim_none, nil_append, Literal.tail, he]
      intro c hc
      cases hc
      exact (hmark e).2
    · rw [elim_none, nil_append, Literal.tail, he]
      exact cons_ne_nil _ _

/-- The text of the number that is scanned. -/
def literalText : List Char := scannedText (l.sign = .minus) (digitsText l.ints) (l.fractionTail [])

theorem literal_text_eq (hsign : l.sign ≠ .plus) :
    l.text = minus (l.sign = .minus) ++ digitsText l.ints ++ l.fractionTail [] := by
  have htext := l.text_append []
  rw [append_nil] at htext
  rw [htext, append_assoc]
  congr 1
  cases hs : l.sign with
  | none => rfl
  | plus => exact absurd hs hsign
  | minus => rfl

theorem endsAt_nil : l.EndsAt [] := ⟨by simp, by simp, by simp⟩

theorem scanDouble_text : scanDouble l.text = l.value ↔ l.Exact := by
  have hscan := Literal.scanDouble_eq (endsAt_nil l) (forall_mem_nil _) ⟨l.text, false, false⟩
    (append_nil _).symm
  rw [scanDouble, hscan, l.value_eq_iff]

/-- An exponent alone is scanned as zero. -/
theorem scanDouble_exponent (e : Exponent) : scanDouble e.text = 0 := by
  have hmark : isSpace e.mark = false ∧ e.mark ≠ '-' ∧ e.mark ≠ '+' ∧ ¬ ('0' ≤ e.mark ∧ e.mark ≤ '9') ∧
      e.mark ≠ '.' := by
    rcases e.mark_eq with h | h <;> rw [h] <;> decide
  obtain ⟨hspace, hminus, hplus, hdigit, hpoint⟩ := hmark
  have hcons : e.text = e.mark :: (e.sign.text ++ digitsText e.digits) := rfl
  generalize e.sign.text ++ digitsText e.digits = text at hcons
  have hsign : Input.skipSign (e.mark :: text) = e.mark :: text := if_neg (by simp [hminus, hplus])
  have hints : Input.scanLoop Input.intTurn (e.mark :: text) 0 false = (0, false, e.mark :: text) := by
    rw [Input.scanLoop, if_neg hdigit]
  have hdecs : Input.scanDecimals (e.mark :: text) 0 false = (0, false, e.mark :: text) :=
    if_neg (by simp [hpoint])
  rw [scanDouble, Input.scanDouble]
  simp only [hcons, skip_cons hspace, hsign, hints, hdecs]
  rfl

/-- The number is scanned right if and only if its exponent is kept. -/
theorem scanDouble_literalText (hsign : l.sign ≠ .plus) (hfrac : l.fraction ≠ some [])
    (hne : l.fraction.isSome ∨ l.exponent.isSome) : scanDouble (literalText l) = l.value ↔ l.Exact := by
  have htail := (fractionTail_baseChars l hne).2.2
  have hzero : digitsText l.ints = ['0'] → l.ints = [0] := by
    have hinj : ∀ d : Fin 10, digitChar 'a' d.val = '0' → d = 0 := by decide
    intro h
    obtain ⟨d, hd, hchar⟩ := map_eq_singleton_iff.mp h
    rw [hd, hinj d hchar]
  by_cases hlost : l.sign = .none ∧ digitsText l.ints = ['0']
  · obtain ⟨hnone, hints⟩ := hlost
    have htext : literalText l = l.fractionTail [] := by
      rw [literalText, scannedText, if_pos ⟨by simp [hnone], hints, htail⟩]
    have hints := hzero hints
    rw [htext]
    cases hf : l.fraction with
    | none =>
      -- nothing is left of a mantissa which is zero
      rw [hf] at hne
      obtain ⟨e, he⟩ := isSome_iff_exists.mp (hne.resolve_left (by simp))
      have hmantissa : l.mantissa = 0 := by
        rw [Literal.mantissa, hf, hints]
        simp [digitsValue]
      have hscan : scanDouble (l.fractionTail []) = 0 := by
        rw [Literal.fractionTail, hf, Literal.tail, he, elim_none, elim_some, nil_append,
          append_nil, scanDouble_exponent]
      rw [hscan, Literal.value, hmantissa, mul_zero, zero_mul]
      exact iff_of_true rfl fun _ _ => Or.inl hmantissa
    | some decs =>
      have hdecs : decs ≠ [] := by
        rintro rfl
        exact hfrac hf
      -- the number without its integer part
      let l' : Literal := ⟨.none, [], some decs, l.exponent, by simpa using hdecs⟩
      have hmantissa : l'.mantissa = l.mantissa := by
        rw [Literal.mantissa, Literal.mantissa, hf, hints]
        simp [digitsValue, Nat.ofDigits_append, l']
      have hvalue : l'.value = l.value := by
        rw [Literal.value, Literal.value, hmantissa, hnone]
      have hexact : l'.Exact ↔ l.Exact := by
        rw [Literal.Exact, Literal.Exact, hmantissa]
      have htext' : l.fractionTail [] = l'.text := by
        rw [Literal.fractionTail, Literal.tail, hf, append_nil]
        rfl
      rw [htext', ← hvalue, ← hexact]
      exact scanDouble_text l'
  · have htext : literalText l = l.text := by
      rw [literal_text_eq l hsign, literalText, scannedText, if_neg]
      rintro ⟨hminus, hints, -⟩
      refine hlost ⟨?_, hints⟩
      cases hs : l.sign with
      | none => rfl
      | plus => exact absurd hs hsign
      | minus => simp [hs] at hminus
    rw [htext]
    exact scanDouble_text l

end Literals

end Elm.Json
