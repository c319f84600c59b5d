import Elm.Io.Scan
import Mathlib.Algebra.Order.Field.Rat
import Mathlib.Algebra.Order.Ring.Pow
import Mathlib.Data.Nat.Digits.Defs

/-!
# The floating values of `io::Input`

`Input::scanDouble` of `src/io_Input.cpp`, with the rational numbers in the place of the floating ones.  The exponent
is an `int`, and the scanner skips its sign: a literal with a negative exponent is read as if the exponent were
positive.
-/

namespace Elm.Io

open List Option

namespace Input

/-! ## The scanner -/

/-- The loops on `chr >= '0' && chr <= '9'`, on the text from `chr` on: what they accumulate, `one`, and the text from
the first character that is no digit on. -/
def scanLoop {β : Type} (turn : β → Nat → β) : List Char → β → Bool → β × Bool × List Char
  | [], acc, one => (acc, one, [])
  | chr :: text, acc, one =>
    if '0' ≤ chr ∧ chr ≤ '9' then
      scanLoop turn text (turn acc (chr.toNat - '0'.toNat)) true
    else
      (acc, one, chr :: text)

/-- The turn of the integer part. -/
def intTurn (value : ℚ) (d : Nat) : ℚ := value * 10 + d

/-- The turn of the decimal part, on `value` and `dec`. -/
def decTurn (v : ℚ × ℚ) (d : Nat) : ℚ × ℚ := (v.1 + d * v.2, v.2 / 10)

/-- An `int`, which wraps. -/
def toInt32 (n : Int) : Int := Int.bmod n (2 ^ 32)

/-- The turn of the exponent. -/
def expTurn (exp : Int) (d : Nat) : Int := toInt32 (exp * 10 + d)

/-- A sign, which is read over. -/
def skipSign (text : List Char) : List Char :=
  if text.head? = some '-' ∨ text.head? = some '+' then text.tail else text

/-- `state |= FAILED` after the character `chr`, the first of `text`, was read. -/
def failAt (s : Input) (text : List Char) : Input :=
  { text := text.tail, ended := s.ended || text.isEmpty, failed := true }

/-- The end of the scan at the character `chr`, the first of `text`, which is pushed back. -/
def stopAt (s : Input) (text : List Char) : Input := { s with text, ended := s.ended || text.isEmpty }

/-- The decimal part of `scanDouble`, if there is one. -/
def scanDecimals (text : List Char) (value : ℚ) (one : Bool) : ℚ × Bool × List Char :=
  if text.head? = some '.' then
    let r := scanLoop decTurn text.tail (value, 1 / 10) one
    (r.1.1, r.2)
  else
    (value, one, text)

/-- The exponent of `scanDouble`, if there is one, and its result. -/
def scanExponent (s : Input) (text : List Char) (neg : Bool) (value : ℚ) : ℚ × Input :=
  if text.head? = some 'e' ∨ text.head? = some 'E' then
    -- the sign is not kept
    let (exp, one, text) := scanLoop expTurn (skipSign text.tail) 0 false
    if one then
      let value := value * 10 ^ exp
      (if neg then -value else value, s.stopAt text)
    else
      (0, s.failAt text)
  else
    (if neg then -value else value, s.stopAt text)

/-- `scanDouble`. -/
def scanDouble (s : Input) : ℚ × Input :=
  let text := Io.skip s.text
  let neg := text.head? = some '-'
  let (value, one, text) := scanLoop intTurn (skipSign text) 0 false
  let (value, one, text) := scanDecimals text value one
  if one then
    s.scanExponent text neg value
  else
    (0, s.failAt text)

end Input

/-! ## The literals -/

/-- The sign of a literal, or of its exponent. -/
inductive Sign
  | none
  | plus
  | minus
  deriving DecidableEq

namespace Sign

def text : Sign → List Char
  | none => []
  | plus => ['+']
  | minus => ['-']

def toInt : Sign → Int
  | none => 1
  | plus => 1
  | minus => -1

theorem toInt_eq (sign : Sign) : sign.toInt = 1 ∨ sign.toInt = -1 := by
  cases sign with
  | none => exact Or.inl rfl
  | plus => exact Or.inl rfl
  | minus => exact Or.inr rfl

end Sign

/-- The digits, most significant first, as a text and as a value. -/
def digitsText (digits : List (Fin 10)) : List Char := digits.map fun d : Fin 10 => digitChar 'a' d.val

def digitsValue (digits : List (Fin 10)) : Nat := Nat.ofDigits 10 (digits.reverse.map Fin.val)

/-- The exponent of a literal. -/
structure Exponent where
  mark : Char
  sign : Sign
  digits : List (Fin 10)
  mark_eq : mark = 'e' ∨ mark = 'E'
  digits_ne_nil : digits ≠ []

/-- A decimal literal: a sign, the digits of the integer part, those of the fraction if there is a point, and an
exponent. -/
structure Literal where
  sign : Sign
  ints : List (Fin 10)
  fraction : Option (List (Fin 10))
  exponent : Option Exponent
  digits_ne_nil : ints ++ fraction.getD [] ≠ []

namespace Exponent

def text (e : Exponent) : List Char := e.mark :: e.sign.text ++ digitsText e.digits

def value (e : Exponent) : Int := e.sign.toInt * digitsValue e.digits

end Exponent

namespace Literal

def text (l : Literal) : List Char :=
  l.sign.text ++ digitsText l.ints ++ (l.fraction.elim [] fun decs => '.' :: digitsText decs) ++
    l.exponent.elim [] Exponent.text

/-- The digits of the fraction are as many powers of ten. -/
def mantissa (l : Literal) : ℚ :=
  (digitsValue (l.ints ++ l.fraction.getD []) : ℚ) / 10 ^ (l.fraction.getD []).length

def value (l : Literal) : ℚ := l.sign.toInt * l.mantissa * 10 ^ l.exponent.elim 0 Exponent.value

/-- No more of the text `rest` after the literal belongs to it. -/
def EndsAt (l : Literal) (rest : List Char) : Prop :=
  (∀ c ∈ rest.head?, ¬ ('0' ≤ c ∧ c ≤ '9')) ∧
    (l.exponent = none → rest.head? ≠ some 'e' ∧ rest.head? ≠ some 'E') ∧
    (l.exponent = none → l.fraction = none → rest.head? ≠ some '.')

/-- The exponent that is read is the one that is written, or there is nothing to scale. -/
def Exact (l : Literal) : Prop :=
  ∀ e ∈ l.exponent, l.mantissa = 0 ∨
    if e.sign = .minus then digitsValue e.digits = 0 ∨ digitsValue e.digits = 2 ^ 31
    else digitsValue e.digits < 2 ^ 31

end Literal

/-! ## The loops on digits -/

theorem digitChar_spec : ∀ d : Fin 10,
    ('0' ≤ digitChar 'a' d ∧ digitChar 'a' d ≤ '9') ∧ (digitChar 'a' d).toNat - '0'.toNat = d ∧
      isSpace (digitChar 'a' d) = false := by decide

theorem digitChar_ne_sign : ∀ d : Fin 10, digitChar 'a' d ≠ '-' ∧ digitChar 'a' d ≠ '+' := by decide

theorem digitsValue_append (digits : List (Fin 10)) (d : Fin 10) :
    digitsValue (digits ++ [d]) = digitsValue digits * 10 + d := by
  rw [digitsValue, reverse_append, reverse_singleton, singleton_append, map_cons,
    Nat.ofDigits_cons, Nat.mul_comm, Nat.add_comm]
  rfl

section Loops

variable {β : Type} {turn : β → Nat → β}

/-- A loop reads the digits, and stops at the text that does not start with one. -/
theorem scanLoop_digits {rest : List Char} (hrest : ∀ c ∈ rest.head?, ¬ ('0' ≤ c ∧ c ≤ '9'))
    (digits : List (Fin 10)) (acc : β) (one : Bool) :
    Input.scanLoop turn (digitsText digits ++ rest) acc one =
      (digits.foldl (fun acc (d : Fin 10) => turn acc d) acc, one || !digits.isEmpty, rest) := by
  induction digits generalizing acc one with
  | nil =>
    rw [digitsText, map_nil, nil_append, isEmpty_nil, Bool.not_true, Bool.or_false]
    cases rest with
    | nil => rfl
    | cons c rest => rw [Input.scanLoop, if_neg (hrest c rfl), foldl_nil]
  | cons d digits ih =>
    obtain ⟨hdigit, hvalue, -⟩ := digitChar_spec d
    have hcons : digitsText (d :: digits) ++ rest = digitChar 'a' d :: (digitsText digits ++ rest) := rfl
    rw [hcons, Input.scanLoop, if_pos hdigit, hvalue, ih]
    simp

end Loops

theorem foldl_intTurn (digits : List (Fin 10)) :
    digits.foldl (fun acc (d : Fin 10) => Input.intTurn acc d) 0 = digitsValue digits := by
  induction digits using List.reverseRecOn with
  | nil => rfl
  | append_singleton digits d ih =>
    rw [foldl_append, ih, foldl_cons, foldl_nil, digitsValue_append, Input.intTurn]
    push_cast
    rfl

/-- The loop on the decimals adds them after the integer part, and leaves the scale of the next one. -/
theorem foldl_decTurn (ints decs : List (Fin 10)) :
    decs.foldl (fun acc (d : Fin 10) => Input.decTurn acc d) ((digitsValue ints : ℚ), 1 / 10) =
      ((digitsValue (ints ++ decs) : ℚ) / 10 ^ decs.length, 1 / 10 ^ (decs.length + 1)) := by
  induction decs using List.reverseRecOn with
  | nil => simp
  | append_singleton decs d ih =>
    rw [foldl_append, ih, foldl_cons, foldl_nil, ← append_assoc, digitsValue_append,
      length_append, length_singleton, Input.decTurn]
    push_cast
    congr 1
    · field_simp
      ring
    · field_simp
      ring

theorem foldl_expTurn (digits : List (Fin 10)) :
    digits.foldl (fun acc (d : Fin 10) => Input.expTurn acc d) 0 = Input.toInt32 (digitsValue digits) := by
  induction digits using List.reverseRecOn with
  | nil => rfl
  | append_singleton digits d ih =>
    rw [foldl_append, ih, foldl_cons, foldl_nil, digitsValue_append, Input.expTurn]
    push_cast
    unfold Input.toInt32
    -- it makes no difference whether each turn wraps, or only the result
    rw [← Int.bmod_add_bmod, Int.bmod_mul_bmod, Int.bmod_add_bmod]

/-! ## The scan of a literal -/

section Scan

variable {l : Literal} {rest : List Char}

theorem skipSign_text (sign : Sign) {text : List Char} (htext : text.head? ≠ some '-' ∧ text.head? ≠ some '+') :
    Input.skipSign (sign.text ++ text) = text := by
  cases sign with
  | none => exact if_neg (not_or.mpr htext)
  | plus => exact if_pos (Or.inr rfl)
  | minus => exact if_pos (Or.inl rfl)

theorem head?_sign_text (sign : Sign) {text : List Char} (htext : text.head? ≠ some '-') :
    (sign.text ++ text).head? = some '-' ↔ sign = .minus := by
  cases sign with
  | none => exact iff_of_false htext (by decide)
  | plus => exact iff_of_false (by simp [Sign.text]) (by decide)
  | minus => exact iff_of_true rfl rfl

/-- A text of digits starts with one, or it is what follows them. -/
theorem head?_digitsText (digits : List (Fin 10)) (text : List Char) :
    (∃ d : Fin 10, (digitsText digits ++ text).head? = some (digitChar 'a' d)) ∨
      digits = [] ∧ digitsText digits ++ text = text := by
  cases digits with
  | nil => exact Or.inr ⟨rfl, rfl⟩
  | cons d digits => exact Or.inl ⟨d, rfl⟩

namespace Literal

/-- The text from the exponent on. -/
def tail (l : Literal) (rest : List Char) : List Char := l.exponent.elim [] Exponent.text ++ rest

/-- The text from the fraction on. -/
def fractionTail (l : Literal) (rest : List Char) : List Char :=
  (l.fraction.elim [] fun decs => '.' :: digitsText decs) ++ l.tail rest

theorem text_append (l : Literal) (rest : List Char) :
    l.text ++ rest = l.sign.text ++ (digitsText l.ints ++ l.fractionTail rest) := by
  rw [text, fractionTail, tail]
  simp only [append_assoc]

theorem tail_not_digit (h : l.EndsAt rest) : ∀ c ∈ (l.tail rest).head?, ¬ ('0' ≤ c ∧ c ≤ '9') := by
  intro c hc
  unfold tail at hc
  cases he : l.exponent with
  | none =>
    rw [he] at hc
    exact h.1 c hc
  | some e =>
    rw [he] at hc
    cases hc
    rcases e.mark_eq with hmark | hmark
    · rw [hmark]
      decide
    · rw [hmark]
      decide

theorem fractionTail_not_digit (h : l.EndsAt rest) :
    ∀ c ∈ (l.fractionTail rest).head?, ¬ ('0' ≤ c ∧ c ≤ '9') := by
  intro c hc
  unfold fractionTail at hc
  cases hf : l.fraction with
  | none =>
    rw [hf] at hc
    exact tail_not_digit h c hc
  | some decs =>
    rw [hf] at hc
    cases hc
    decide

/-- Neither a sign nor a space can be mistaken for the first digit or for the point. -/
theorem head?_digits (l : Literal) (rest : List Char) :
    ∃ c, (digitsText l.ints ++ l.fractionTail rest).head? = some c ∧ c ≠ '-' ∧ c ≠ '+' ∧ isSpace c = false := by
  rcases head?_digitsText l.ints (l.fractionTail rest) with ⟨d, hd⟩ | ⟨hnil, htext⟩
  · obtain ⟨-, -, hspace⟩ := digitChar_spec d
    exact ⟨_, hd, (digitChar_ne_sign d).1, (digitChar_ne_sign d).2, hspace⟩
  · have hne := l.digits_ne_nil
    rw [hnil, nil_append] at hne
    cases hf : l.fraction with
    | none => exact absurd (by rw [hf]; rfl) hne
    | some decs =>
      refine ⟨'.', ?_, by decide, by decide, by decide⟩
      rw [htext, fractionTail, hf]
      rfl

theorem skip_text {spaces : List Char} (hspaces : ∀ c ∈ spaces, isSpace c = true) :
    Io.skip (spaces ++ (l.text ++ rest)) = l.text ++ rest := by
  obtain ⟨c, hc, -, -, hspace⟩ := l.head?_digits rest
  have hhead : ∃ c, (l.text ++ rest).head? = some c ∧ isSpace c = false := by
    rw [text_append]
    cases l.sign with
    | none => exact ⟨c, hc, hspace⟩
    | plus => exact ⟨'+', rfl, by decide⟩
    | minus => exact ⟨'-', rfl, by decide⟩
  obtain ⟨c, hc, hspace⟩ := hhead
  obtain ⟨text, htext⟩ := head?_eq_some_iff.mp hc
  rw [Io.skip, dropWhile_append_of_pos hspaces, htext, dropWhile_cons_of_neg (by rw [hspace]; decide)]

/-- The mantissa is read, whatever its parts. -/
theorem scanDecimals_fractionTail (h : l.EndsAt rest) :
    Input.scanDecimals (l.fractionTail rest) (digitsValue l.ints) (false || !l.ints.isEmpty) =
      (l.mantissa, true, l.tail rest) := by
  have hdigits := l.digits_ne_nil
  cases hf : l.fraction with
  | none =>
    -- without a fraction the digits are in the integer part, and what follows is no point
    have hints : l.ints ≠ [] := by simpa [hf] using hdigits
    have hpoint : (l.tail rest).head? ≠ some '.' := by
      unfold tail
      cases he : l.exponent with
      | none => exact h.2.2 he hf
      | some e =>
        rcases e.mark_eq with hmark | hmark <;> simp [Exponent.text, hmark]
    rw [Input.scanDecimals, fractionTail, hf, elim_none, nil_append, if_neg hpoint, mantissa, hf]
    simp [hints]
  | some decs =>
    have hne : l.ints ++ decs ≠ [] := by simpa [hf] using hdigits
    rw [Input.scanDecimals, fractionTail, hf, elim_some, cons_append, head?_cons, if_pos rfl,
      tail_cons, scanLoop_digits (tail_not_digit h), foldl_decTurn, mantissa, hf, getD_some]
    cases hints : l.ints with
    | nil => simpa [hints] using hne
    | cons d ints => simp

/-- The exponent that is read is the absolute value of the one that is written. -/
theorem scanExponent_tail (h : l.EndsAt rest) (s : Input) (neg : Bool) (value : ℚ) :
    s.scanExponent (l.tail rest) neg value =
      ((if neg then -1 else 1) * value * 10 ^ (l.exponent.elim 0 fun e => Input.toInt32 (digitsValue e.digits)),
        s.stopAt rest) := by
  have hneg (v : ℚ) : (if neg then -v else v) = (if neg then -1 else 1) * v := by
    cases neg with
    | true => simp
    | false => simp
  unfold Input.scanExponent tail
  cases he : l.exponent with
  | none =>
    obtain ⟨hlow, hupper⟩ := h.2.1 he
    rw [elim_none, elim_none, nil_append, if_neg (not_or.mpr ⟨hlow, hupper⟩), hneg, zpow_zero,
      mul_one]
  | some e =>
    have hmark : (e.text ++ rest).head? = some 'e' ∨ (e.text ++ rest).head? = some 'E' :=
      e.mark_eq.imp (congrArg some) (congrArg some)
    have htail : (e.text ++ rest).tail = e.sign.text ++ (digitsText e.digits ++ rest) :=
      append_assoc _ _ _
    have hsign : (digitsText e.digits ++ rest).head? ≠ some '-' ∧
        (digitsText e.digits ++ rest).head? ≠ some '+' := by
      rcases head?_digitsText e.digits rest with ⟨d, hd⟩ | ⟨hnil, -⟩
      · rw [hd]
        exact ⟨fun heq => (digitChar_ne_sign d).1 (some.inj heq),
          fun heq => (digitChar_ne_sign d).2 (some.inj heq)⟩
      · exact absurd hnil e.digits_ne_nil
    -- a digit has been seen, so that the scan does not fail
    have hone : (false || !e.digits.isEmpty) = true := by simpa using e.digits_ne_nil
    rw [elim_some, elim_some, if_pos hmark, htail, skipSign_text _ hsign, scanLoop_digits h.1,
      foldl_expTurn, hone, mul_assoc, ← hneg]
    rfl

/-- A literal is read with the absolute value of its exponent. -/
theorem scanDouble_eq (h : l.EndsAt rest) {spaces : List Char}
    (hspaces : ∀ c ∈ spaces, isSpace c = true) (s : Input)
    (hs : s.text = spaces ++ (l.text ++ rest)) :
    s.scanDouble =
      (l.sign.toInt * l.mantissa * 10 ^ (l.exponent.elim 0 fun e => Input.toInt32 (digitsValue e.digits)),
        s.stopAt rest) := by
  obtain ⟨c, hc, hminus, hplus, -⟩ := l.head?_digits rest
  have hsign : (digitsText l.ints ++ l.fractionTail rest).head? ≠ some '-' ∧
      (digitsText l.ints ++ l.fractionTail rest).head? ≠ some '+' := by
    rw [hc]
    exact ⟨fun heq => hminus (some.inj heq), fun heq => hplus (some.inj heq)⟩
  have hskip : Io.skip s.text = l.sign.text ++ (digitsText l.ints ++ l.fractionTail rest) := by
    rw [hs, skip_text hspaces, text_append]
  have hneg : (if (decide (l.sign = .minus)) = true then (-1 : ℚ) else 1) = l.sign.toInt := by
    cases l.sign with
    | none => simp [Sign.toInt]
    | plus => simp [Sign.toInt]
    | minus => simp [Sign.toInt]
  unfold Input.scanDouble
  simp only [hskip, skipSign_text _ hsign, head?_sign_text _ hsign.1, scanLoop_digits (fractionTail_not_digit h),
    foldl_intTurn, scanDecimals_fractionTail h, if_true, scanExponent_tail h, hneg]

end Literal

end Scan

/-! ## The exact values -/

/-- An exponent that fits in an `int` is kept, and its opposite is it only for zero or when the `int` wraps. -/
theorem toInt32_eq_iff (sign : Sign) (n : Nat) :
    Input.toInt32 n = sign.toInt * n ↔ if sign = .minus then n = 0 ∨ n = 2 ^ 31 else n < 2 ^ 31 := by
  have hmod : Input.toInt32 n =
      if (n : Int) % 4294967296 < 2147483648 then (n : Int) % 4294967296 else (n : Int) % 4294967296 - 4294967296 := by
    rw [Input.toInt32, Int.bmod_def]
    norm_num
  have hpow : (2 : Nat) ^ 31 = 2147483648 := by norm_num
  rw [hmod, hpow]
  cases sign with
  | none =>
    simp only [Sign.toInt, reduceCtorEq, if_false]
    split <;> omega
  | plus =>
    simp only [Sign.toInt, reduceCtorEq, if_false]
    split <;> omega
  | minus =>
    simp only [Sign.toInt, if_true]
    split <;> omega

namespace Literal

/-- The value of a literal is computed exactly when the sign of its exponent does not matter. -/
theorem value_eq_iff (l : Literal) :
    l.sign.toInt * l.mantissa * 10 ^ (l.exponent.elim 0 fun e => Input.toInt32 (digitsValue e.digits)) = l.value ↔
      l.Exact := by
  have hsign : (l.sign.toInt : ℚ) ≠ 0 := by
    rcases l.sign.toInt_eq with hsign | hsign
    · simp [hsign]
    · simp [hsign]
  -- over the rational numbers, different exponents of a mantissa that is not zero give different values
  have hpow : Function.Injective fun n : Int => (10 : ℚ) ^ n := zpow_right_injective₀ (by norm_num) (by norm_num)
  unfold value Exact
  cases l.exponent with
  | none =>
    rw [elim_none, elim_none]
    exact iff_of_true rfl fun e he => by cases he
  | some e =>
    rw [elim_some, elim_some, mul_eq_mul_left_iff, mul_eq_zero, or_iff_right hsign, hpow.eq_iff,
      Exponent.value, toInt32_eq_iff, or_comm]
    exact ⟨fun h e' he => by cases he; exact h, fun h => h e rfl⟩

end Literal

/-- Between spaces and a text that does not go on with it, a literal is read with its value exactly when it has no
exponent, when its mantissa is zero or when its exponent is a non-negative `int`, or zero, or `-2^31`, which wraps. -/
theorem Input.scanDouble_iff (s : Input) (spaces : List Char) (l : Literal) (rest : List Char)
    (hspaces : ∀ c ∈ spaces, isSpace c = true) (hrest : l.EndsAt rest) (hs : s.text = spaces ++ (l.text ++ rest)) :
    s.scanDouble = (l.value, s.stopAt rest) ↔ l.Exact := by
  rw [Literal.scanDouble_eq hrest hspaces s hs, Prod.mk.injEq, and_iff_left rfl, l.value_eq_iff]

/-- `-1.5e2`, with this sign before the exponent. -/
def minusOneAndHalf (sign : Sign) : Literal where
  sign := .minus
  ints := [1]
  fraction := some [5]
  exponent := some ⟨'e', sign, [2], Or.inl rfl, by decide⟩
  digits_ne_nil := by decide

theorem Input.scanDouble_minusOneAndHalf :
    (⟨" -1.5e2 m".toList, false, false⟩ : Input).scanDouble =
      ((minusOneAndHalf .none).value, ⟨" m".toList, false, false⟩) := by
  refine (Input.scanDouble_iff ⟨" -1.5e2 m".toList, false, false⟩ [' '] (minusOneAndHalf .none) [' ', 'm'] (by decide)
    ⟨by simp, by decide, by decide⟩ rfl).mpr ?_
  intro e he
  cases he
  exact Or.inr (by decide)

/-- `-1.5e-2` is read as `-150`. -/
theorem Input.scanDouble_ne_minusOneAndHalf :
    (⟨"-1.5e-2".toList, false, false⟩ : Input).scanDouble.1 ≠ (minusOneAndHalf .minus).value := by
  have hends : (minusOneAndHalf .minus).EndsAt [] := ⟨by simp, by decide, by decide⟩
  have hscan := Literal.scanDouble_eq hends (forall_mem_nil _) ⟨"-1.5e-2".toList, false, false⟩ rfl
  rw [hscan, Ne, (minusOneAndHalf .minus).value_eq_iff]
  intro hexact
  rcases hexact _ rfl with hzero | hwraps
  · exact absurd hzero (by norm_num [Literal.mantissa, minusOneAndHalf, digitsValue, Nat.ofDigits])
  · exact absurd hwraps (by decide)

end Elm.Io
