import Elm.Json.Grammar
import Elm.Json.Lexer

/-!
# The lexer reads the tokens of the lenient texts

For each function of the lexer, what it does on the characters left to read.
-/

namespace Elm.Json

open Io List Option

namespace Parser

/-- `c` has been read from `text`; a `'\0'` is read at its end. -/
structure Ahead (text : List Char) (c : Char) (s : Parser) : Prop where
  prev : s.prev = '\x00'
  text : text = c :: s.rest ∨ text = [] ∧ c = '\x00' ∧ s.rest = []

theorem ahead_nextChar (s : Parser) : Ahead s.rest s.nextChar.1 s.nextChar.2 := by
  obtain ⟨hprev, ⟨hnil, hnext⟩ | ⟨c, s₁, hnext, hcons⟩⟩ := nextChar_spec s
  · refine ⟨hprev, Or.inr ⟨hnil, ?_⟩⟩
    rw [hnext]
    exact ⟨rfl, hnil⟩
  · refine ⟨hprev, Or.inl ?_⟩
    rw [hnext]
    exact hcons

theorem nextChar_cons {s : Parser} {c : Char} {text : List Char} (h : s.rest = c :: text) :
    ∃ s₁, s.nextChar = (c, s₁) ∧ s₁.rest = text ∧ s₁.prev = '\x00' := by
  obtain ⟨hprev, ⟨hnil, -⟩ | ⟨c', s₁, hnext, hcons⟩⟩ := nextChar_spec s
  · rw [hnil] at h
    cases h
  · obtain ⟨rfl, rfl⟩ := List.cons.inj (hcons.symm.trans h)
    rw [hnext] at hprev
    exact ⟨s₁, hnext, rfl, hprev⟩

theorem rest_of_prev {s : Parser} (hprev : s.prev = '\x00') (c : Char) (buf : List Char) :
    ({ s with prev := c, text := buf } : Parser).rest = dropNul (c :: s.rest) := by
  have hrest : s.rest = s.input.map Char.ofUInt8 := by rw [rest, if_pos hprev, nil_append]
  rw [dropNul, hrest]
  unfold rest
  by_cases hc : c = '\x00'
  · simp [hc]
  · simp [hc]

/-! ## Numbers -/

/-- The loop over a number takes the longest run of its characters. -/
theorem scanNumber_run {chars : List Char} (hchars : '\x00' ∉ chars) (text : List Char) :
    ∀ (c : Char) (buf : List Char) (t : Token) (s : Parser), Ahead text c s →
      ∃ s', scanNumber chars c buf t s = some (.ok
          (if (text.takeWhile (· ∈ chars)).any (· ∈ floatChars) then .float else t, s')) ∧
        s'.text = StringBuffer.toString (buf ++ text.takeWhile (· ∈ chars)) ∧
        s'.rest = dropNul (text.dropWhile (· ∈ chars)) := by
  induction text with
  | nil =>
    intro c buf t s hahead
    rcases hahead.text with hcons | ⟨-, rfl, hnil⟩
    · cases hcons
    rw [scanNumber, if_neg hchars, pushBack, if_neg (not_not.mpr hahead.prev)]
    refine ⟨_, rfl, by simp, ?_⟩
    rw [rest_of_prev hahead.prev, hnil]
    rfl
  | cons c' text ih =>
    intro c buf t s hahead
    rcases hahead.text with hcons | ⟨hcons, -⟩
    · obtain ⟨rfl, rfl⟩ := List.cons.inj hcons
      rw [scanNumber]
      by_cases hc : c' ∈ chars
      · rw [if_pos hc]
        generalize hs₁ : ({ s with col := s.col + 1 } : Parser) = s₁
        have hrest : s₁.rest = s.rest := by rw [← hs₁]; rfl
        have hahead₁ : Ahead s.rest s₁.nextChar.1 s₁.nextChar.2 := hrest ▸ ahead_nextChar s₁
        obtain ⟨s', hscan, htext, hrest'⟩ :=
          ih s₁.nextChar.1 (buf ++ [c']) (if c' ∈ floatChars then .float else t) s₁.nextChar.2 hahead₁
        refine ⟨s', ?_, ?_, ?_⟩
        · refine Eq.trans hscan ?_
          rw [takeWhile_cons_of_pos (by simpa using hc), any_cons]
          by_cases hfloat : c' ∈ floatChars
          · simp [hfloat]
          · simp [hfloat]
        · rw [htext, takeWhile_cons_of_pos (by simpa using hc), append_assoc]
          rfl
        · rw [hrest', dropWhile_cons_of_pos (by simpa using hc)]
      · rw [if_neg hc, pushBack, if_neg (not_not.mpr hahead.prev),
          takeWhile_cons_of_neg (by simpa using hc), dropWhile_cons_of_neg (by simpa using hc)]
        refine ⟨_, rfl, by simp, ?_⟩
        rw [rest_of_prev hahead.prev]
    · cases hcons

theorem parseNumber_run {text : List Char} {c : Char} {s : Parser} (hahead : Ahead text c s) (base : Nat) :
    ∃ s', s.parseNumber c base = some (.ok ((run base text).1, s')) ∧ s'.text = (run base text).2.1 ∧
      s'.rest = (run base text).2.2 :=
  scanNumber_run (zero_notMem_baseChars base) text c (basePrefix base) .int s hahead

/-! ## Strings -/

theorem asHex_lt {c : Char} {x : Nat} (h : asHex c = some x) : x < 16 := by
  have hle : ∀ {c c' : Char}, c ≤ c' → c.toNat ≤ c'.toNat := fun h => h
  unfold asHex at h
  split_ifs at h with hdigit hlow hupp
  · have hhigh := hle hdigit.2
    simp at h hhigh
    omega
  · have hhigh := hle hlow.2
    simp at h hhigh
    omega
  · have hhigh := hle hupp.2
    simp at h hhigh
    omega

theorem scanHex_digit (k wc : Nat) (buf : List Char) {x : Nat} {text : List Char} {s : Parser} {c : Char}
    (hrest : s.rest = c :: text) (hx : asHex c = some x) (hwc : wc * 16 + x < 2 ^ 16) :
    ∃ s₁, s₁.rest = text ∧
      scanHex (k + 1) wc buf s = scanHex k (wc * 16 + x) (buf ++ toUTF8 (wc * 16 + x)) s₁ := by
  obtain ⟨s₁, hnext, hrest₁, -⟩ := nextChar_cons hrest
  refine ⟨s₁, hrest₁, ?_⟩
  have hor : wc <<< 4 ||| x = wc * 16 + x := by
    rw [← Nat.shiftLeft_add_eq_or_of_lt (asHex_lt hx), Nat.shiftLeft_eq]
  rw [scanHex, hnext]
  simp only [hx]
  rw [hor, Nat.mod_eq_of_lt hwc]

theorem scanHex_digits (buf : List Char) {c₁ c₂ c₃ c₄ : Char} {x₁ x₂ x₃ x₄ : Nat} {text : List Char}
    {s : Parser}
    (hrest : s.rest = c₁ :: c₂ :: c₃ :: c₄ :: text) (h₁ : asHex c₁ = some x₁) (h₂ : asHex c₂ = some x₂)
    (h₃ : asHex c₃ = some x₃) (h₄ : asHex c₄ = some x₄) :
    ∃ s', scanHex 4 0 buf s = .ok (buf ++ lenient.unicode x₁ x₂ x₃ x₄, s') ∧ s'.rest = text := by
  have hlt₁ := asHex_lt h₁
  have hlt₂ := asHex_lt h₂
  have hlt₃ := asHex_lt h₃
  have hlt₄ := asHex_lt h₄
  obtain ⟨s₁, hrest₁, hscan₁⟩ := scanHex_digit 3 0 buf hrest h₁ (by omega)
  obtain ⟨s₂, hrest₂, hscan₂⟩ := scanHex_digit 2 (0 * 16 + x₁) (buf ++ toUTF8 (0 * 16 + x₁)) hrest₁ h₂
    (by omega)
  obtain ⟨s₃, hrest₃, hscan₃⟩ := scanHex_digit 1 ((0 * 16 + x₁) * 16 + x₂)
    (buf ++ toUTF8 (0 * 16 + x₁) ++ toUTF8 ((0 * 16 + x₁) * 16 + x₂)) hrest₂ h₃ (by omega)
  obtain ⟨s₄, hrest₄, hscan₄⟩ := scanHex_digit 0 (((0 * 16 + x₁) * 16 + x₂) * 16 + x₃)
    (buf ++ toUTF8 (0 * 16 + x₁) ++ toUTF8 ((0 * 16 + x₁) * 16 + x₂) ++
      toUTF8 (((0 * 16 + x₁) * 16 + x₂) * 16 + x₃)) hrest₃ h₄ (by omega)
  refine ⟨s₄, ?_, hrest₄⟩
  rw [hscan₁, hscan₂, hscan₃, hscan₄, scanHex]
  simp [lenient, codeUnit]

/-- The digits that an escape reads. -/
theorem scanHex_inv {k wc : Nat} {buf buf' : List Char} {s s' : Parser}
    (h : scanHex (k + 1) wc buf s = .ok (buf', s')) :
    ∃ c x s₁ buf₁, s.rest = c :: s₁.rest ∧ asHex c = some x ∧
      scanHex k (wc <<< 4 ||| x) buf₁ s₁ = .ok (buf', s') := by
  rw [scanHex] at h
  obtain ⟨-, ⟨-, hnext⟩ | ⟨c, s₁, hnext, hcons⟩⟩ := nextChar_spec s
  · rw [hnext] at h
    cases h
  · rw [hnext] at h
    cases hx : asHex c with
    | none =>
      simp only [hx] at h
      cases h
    | some x =>
      simp only [hx] at h
      exact ⟨c, x, s₁, _, hcons, hx, h⟩

theorem scanHex_digits_inv {buf buf' : List Char} {s s' : Parser} (h : scanHex 4 0 buf s = .ok (buf', s')) :
    ∃ c₁ c₂ c₃ c₄ x₁ x₂ x₃ x₄, s.rest = c₁ :: c₂ :: c₃ :: c₄ :: s'.rest ∧ asHex c₁ = some x₁ ∧
      asHex c₂ = some x₂ ∧ asHex c₃ = some x₃ ∧ asHex c₄ = some x₄ ∧
      buf' = buf ++ lenient.unicode x₁ x₂ x₃ x₄ := by
  obtain ⟨c₁, x₁, s₁, buf₁, hrest₁, h₁, hscan₁⟩ := scanHex_inv h
  obtain ⟨c₂, x₂, s₂, buf₂, hrest₂, h₂, hscan₂⟩ := scanHex_inv hscan₁
  obtain ⟨c₃, x₃, s₃, buf₃, hrest₃, h₃, hscan₃⟩ := scanHex_inv hscan₂
  obtain ⟨c₄, x₄, s₄, buf₄, hrest₄, h₄, hscan₄⟩ := scanHex_inv hscan₃
  have hrest : s.rest = c₁ :: c₂ :: c₃ :: c₄ :: s₄.rest := by rw [hrest₁, hrest₂, hrest₃, hrest₄]
  rw [scanHex] at hscan₄
  cases hscan₄
  obtain ⟨s'', hscan, -⟩ := scanHex_digits buf hrest h₁ h₂ h₃ h₄
  rw [h] at hscan
  cases hscan
  exact ⟨c₁, c₂, c₃, c₄, x₁, x₂, x₃, x₄, hrest, h₁, h₂, h₃, h₄, rfl⟩

/-- The loop over a string, from the first character of its body. -/
def stringFrom (q : Char) (buf : List Char) (s : Parser) : Option (Except Exn Parser) :=
  scanString q s.nextChar.1 buf s.nextChar.2

section Strings

variable {q c : Char} (buf : List Char) {text : List Char} {s : Parser}

theorem stringFrom_nil (hq : q ≠ '\x00') (h : s.rest = []) : stringFrom q buf s = none := by
  rw [stringFrom, nextChar_of_nil h]
  exact scanString_end hq buf h

theorem stringFrom_close (h : s.rest = q :: text) :
    ∃ s₁, s₁.rest = text ∧ s₁.text = StringBuffer.toString buf ∧ stringFrom q buf s = some (.ok s₁) := by
  obtain ⟨s₁, hnext, hrest₁, -⟩ := nextChar_cons h
  refine ⟨{ s₁ with text := StringBuffer.toString buf }, hrest₁, rfl, ?_⟩
  rw [stringFrom, hnext, scanString, if_pos rfl]

theorem stringFrom_plain (h : s.rest = c :: text) (hquote : c ≠ q) (hback : c ≠ '\\') :
    ∃ s₁, s₁.rest = text ∧ stringFrom q buf s = stringFrom q (buf ++ [c]) s₁ := by
  obtain ⟨s₁, hnext, hrest₁, -⟩ := nextChar_cons h
  refine ⟨s₁, hrest₁, ?_⟩
  rw [stringFrom, hnext, scanString, if_neg hquote, if_pos hback]
  rfl

theorem stringFrom_escape (hq : q ≠ '\\') (h : s.rest = '\\' :: c :: text) (hc : c ∈ escapes) :
    ∃ s₁, s₁.rest = text ∧ stringFrom q buf s = stringFrom q buf s₁ := by
  obtain ⟨s₁, hnext, hrest₁, -⟩ := nextChar_cons h
  obtain ⟨s₂, hnext₂, hrest₂, -⟩ := nextChar_cons hrest₁
  refine ⟨s₂, hrest₂, ?_⟩
  rw [stringFrom, hnext, scanString, if_neg hq.symm, if_neg (by simp)]
  simp only [hnext₂]
  rw [if_pos hc]
  rfl

/-- After a backslash and an `u`. -/
theorem stringFrom_unicode (hq : q ≠ '\\') (h : s.rest = '\\' :: 'u' :: text) :
    ∃ s₂, s₂.rest = text ∧ stringFrom q buf s =
      match scanHex 4 0 buf s₂ with
      | .error e => some (.error e)
      | .ok (buf, s₃) => stringFrom q buf s₃ := by
  obtain ⟨s₁, hnext, hrest₁, -⟩ := nextChar_cons h
  obtain ⟨s₂, hnext₂, hrest₂, -⟩ := nextChar_cons hrest₁
  refine ⟨s₂, hrest₂, ?_⟩
  rw [stringFrom, hnext, scanString, if_neg hq.symm, if_neg (by simp)]
  simp only [hnext₂]
  rw [if_neg (by decide), if_neg (by simp)]
  rfl

theorem stringFrom_bad (hq : q ≠ '\\') (h : s.rest = '\\' :: text)
    (hbad : ∀ c ∈ text.head?, c ∉ escapes ∧ c ≠ 'u') :
    ∃ e, stringFrom q buf s = some (.error e) := by
  obtain ⟨s₁, hnext, rfl, -⟩ := nextChar_cons h
  rw [stringFrom, hnext, scanString, if_neg hq.symm, if_neg (by simp)]
  obtain ⟨-, ⟨-, hnext₂⟩ | ⟨c, s₂, hnext₂, hcons₂⟩⟩ := nextChar_spec s₁
  · simp only [hnext₂]
    exact ⟨_, rfl⟩
  · have hc := hbad c (by rw [hcons₂]; rfl)
    simp only [hnext₂]
    rw [if_neg hc.1, if_pos hc.2]
    exact ⟨_, rfl⟩

/-- The body of a string is read. -/
theorem stringFrom_body (hq : q ≠ '\\') {value text rest : List Char} (h : Body lenient q value text rest) :
    ∀ (buf : List Char) (s : Parser), s.rest = text →
      ∃ s', stringFrom q buf s = some (.ok s') ∧ s'.text = StringBuffer.toString (buf ++ value) ∧
        s'.rest = rest := by
  induction h with
  | close rest =>
    intro buf s hrest
    obtain ⟨s₁, hrest₁, htext, hclose⟩ := stringFrom_close buf hrest
    exact ⟨s₁, hclose, by rw [htext, append_nil], hrest₁⟩
  | @plain c value text rest hquote hback hc h ih =>
    intro buf s hrest
    obtain ⟨s₁, hrest₁, hplain⟩ := stringFrom_plain buf hrest hquote hback
    obtain ⟨s', hstring, htext, hrest'⟩ := ih (buf ++ [c]) s₁ hrest₁
    exact ⟨s', hplain.trans hstring, by rw [htext, append_assoc]; rfl, hrest'⟩
  | @escape c value text rest hc h ih =>
    intro buf s hrest
    obtain ⟨s₁, hrest₁, hescape⟩ := stringFrom_escape buf hq hrest hc
    obtain ⟨s', hstring, htext, hrest'⟩ := ih buf s₁ hrest₁
    exact ⟨s', hescape.trans hstring, htext, hrest'⟩
  | @unicode c₁ c₂ c₃ c₄ x₁ x₂ x₃ x₄ value text rest h₁ h₂ h₃ h₄ h ih =>
    intro buf s hrest
    obtain ⟨s₂, hrest₂, hunicode⟩ := stringFrom_unicode buf hq hrest
    obtain ⟨s₃, hscan, hrest₃⟩ := scanHex_digits buf hrest₂ h₁ h₂ h₃ h₄
    obtain ⟨s', hstring, htext, hrest'⟩ := ih (buf ++ lenient.unicode x₁ x₂ x₃ x₄) s₃ hrest₃
    rw [hscan] at hunicode
    exact ⟨s', hunicode.trans hstring, by rw [htext, append_assoc], hrest'⟩

/-- What is read is the body of a string. -/
theorem body_of_stringFrom (hq : q ≠ '\\') (hnul : q ≠ '\x00') (n : Nat) :
    ∀ (buf : List Char) (s s' : Parser), s.size = n → stringFrom q buf s = some (.ok s') →
      ∃ value, s'.text = StringBuffer.toString (buf ++ value) ∧ Body lenient q value s.rest s'.rest := by
  induction n using Nat.strong_induction_on with
  | _ n ih =>
    intro buf s s' hsize hstring
    cases hrest : s.rest with
    | nil =>
      rw [stringFrom_nil buf hnul hrest] at hstring
      cases hstring
    | cons c text =>
      have hlen : text.length + 1 = n := by rw [← hsize, size, hrest, length_cons]
      by_cases hquote : c = q
      · subst hquote
        obtain ⟨s₁, hrest₁, htext, hclose⟩ := stringFrom_close buf hrest
        rw [hstring] at hclose
        cases hclose
        exact ⟨[], by rw [htext, append_nil], hrest₁ ▸ .close _⟩
      by_cases hback : c = '\\'
      · subst hback
        cases htext : text with
        | nil =>
          obtain ⟨e, hbad⟩ := stringFrom_bad buf hq hrest (by simp [htext])
          rw [hstring] at hbad
          cases hbad
        | cons c text =>
          subst htext
          rw [length_cons] at hlen
          by_cases hc : c ∈ escapes
          · obtain ⟨s₁, hrest₁, hescape⟩ := stringFrom_escape buf hq hrest hc
            rw [hescape] at hstring
            obtain ⟨value, htext, hbody⟩ := ih s₁.size (by rw [size, hrest₁]; omega) buf s₁ s' rfl
              hstring
            exact ⟨value, htext, .escape hc (hrest₁ ▸ hbody)⟩
          by_cases hu : c = 'u'
          · subst hu
            obtain ⟨s₂, hrest₂, hunicode⟩ := stringFrom_unicode buf hq hrest
            rw [hunicode] at hstring
            cases hscan : scanHex 4 0 buf s₂ with
            | error e =>
              rw [hscan] at hstring
              cases hstring
            | ok r =>
              obtain ⟨buf', s₃⟩ := r
              rw [hscan] at hstring
              obtain ⟨c₁, c₂, c₃, c₄, x₁, x₂, x₃, x₄, hdigits, h₁, h₂, h₃, h₄, rfl⟩ :=
                scanHex_digits_inv hscan
              rw [hrest₂] at hdigits
              subst hdigits
              simp only [length_cons] at hlen
              obtain ⟨value, htext, hbody⟩ := ih s₃.size (by rw [size]; omega) _ s₃ s' rfl hstring
              rw [append_assoc] at htext
              exact ⟨_, htext, .unicode h₁ h₂ h₃ h₄ hbody⟩
          · obtain ⟨e, hbad⟩ := stringFrom_bad buf hq hrest (by simp [hc, hu])
            rw [hstring] at hbad
            cases hbad
      · obtain ⟨s₁, hrest₁, hplain⟩ := stringFrom_plain buf hrest hquote hback
        rw [hplain] at hstring
        obtain ⟨value, htext, hbody⟩ := ih s₁.size (by rw [size, hrest₁]; omega) _ s₁ s' rfl hstring
        rw [append_assoc] at htext
        exact ⟨_, htext, .plain hquote hback trivial (hrest₁ ▸ hbody)⟩

end Strings

/-! ## Comments -/

theorem skipLine_body {body text : List Char} (hbody : '\n' ∉ body) :
    ∀ s : Parser, s.rest = body ++ '\n' :: text →
      ∃ s', skipLine s.nextChar.1 s.nextChar.2 = some s' ∧ s'.rest = text := by
  induction body with
  | nil =>
    intro s hrest
    obtain ⟨s₁, hnext, hrest₁, -⟩ := nextChar_cons hrest
    refine ⟨s₁, ?_, hrest₁⟩
    rw [hnext, skipLine, if_neg (by simp)]
  | cons c body ih =>
    intro s hrest
    obtain ⟨s₁, hnext, hrest₁, -⟩ := nextChar_cons hrest
    obtain ⟨s', hskip, hrest'⟩ := ih (not_mem_of_not_mem_cons hbody) s₁ hrest₁
    refine ⟨s', ?_, hrest'⟩
    rw [hnext, skipLine, if_pos (ne_of_not_mem_cons hbody).symm]
    exact hskip

theorem body_of_skipLine (n : Nat) : ∀ s s' : Parser, s.size = n →
    skipLine s.nextChar.1 s.nextChar.2 = some s' →
      ∃ body, '\n' ∉ body ∧ s.rest = body ++ '\n' :: s'.rest := by
  induction n with
  | zero =>
    intro s s' hsize hskip
    have hnil : s.rest = [] := length_eq_zero_iff.mp hsize
    rw [nextChar_of_nil hnil, skipLine_end hnil] at hskip
    cases hskip
  | succ n ih =>
    intro s s' hsize hskip
    obtain ⟨-, ⟨hnil, -⟩ | ⟨c, s₁, hnext, hcons⟩⟩ := nextChar_spec s
    · rw [size, hnil] at hsize
      cases hsize
    have hlen : s₁.size = n := by
      rw [size, hcons, length_cons] at hsize
      exact Nat.succ.inj hsize
    rw [hnext, skipLine] at hskip
    by_cases hc : c = '\n'
    · rw [if_neg (not_not.mpr hc)] at hskip
      cases hskip
      exact ⟨[], not_mem_nil, by rw [hcons, hc]; rfl⟩
    · rw [if_pos hc] at hskip
      obtain ⟨body, hbody, hrest⟩ := ih s₁ s' hlen hskip
      refine ⟨c :: body, ?_, by rw [hcons, hrest]; rfl⟩
      rw [mem_cons]
      rintro (heq | hmem)
      · exact hc heq.symm
      · exact hbody hmem

theorem skipToStar_star {s : Parser} {text : List Char} (h : s.rest = '*' :: text) :
    ∃ s₁, s₁.rest = text ∧ skipToStar s = some s₁ := by
  obtain ⟨s₁, hnext, hrest₁, -⟩ := nextChar_cons h
  refine ⟨s₁, hrest₁, ?_⟩
  rw [skipToStar, hnext]
  rfl

theorem skipBlock_char {s : Parser} {c : Char} {text : List Char} (h : s.rest = c :: text) (hc : c ≠ '*') :
    ∃ s₁, s₁.rest = text ∧ skipBlock s = skipBlock s₁ := by
  obtain ⟨s₁, hnext, hrest₁, -⟩ := nextChar_cons h
  have hskip : skipToStar s = skipToStar s₁ := by
    rw [skipToStar, hnext]
    exact if_pos hc
  refine ⟨s₁, hrest₁, ?_⟩
  rw [skipBlock, hskip, ← skipBlock]

theorem skipBlock_star {s : Parser} {c : Char} {text : List Char} (h : s.rest = '*' :: c :: text)
    (hc : c ≠ '/') : ∃ s₂, s₂.rest = text ∧ skipBlock s = skipBlock s₂ := by
  obtain ⟨s₁, hrest₁, hstar⟩ := skipToStar_star h
  obtain ⟨s₂, hnext, hrest₂, -⟩ := nextChar_cons hrest₁
  refine ⟨s₂, hrest₂, ?_⟩
  rw [skipBlock, hstar]
  simp only [bind_eq_bind, bind_some, hnext]
  exact if_neg hc

theorem skipBlock_close {s : Parser} {text : List Char} (h : s.rest = '*' :: '/' :: text) :
    ∃ s₂, s₂.rest = text ∧ skipBlock s = some s₂ := by
  obtain ⟨s₁, hrest₁, hstar⟩ := skipToStar_star h
  obtain ⟨s₂, hnext, hrest₂, -⟩ := nextChar_cons hrest₁
  refine ⟨s₂, hrest₂, ?_⟩
  rw [skipBlock, hstar]
  simp only [bind_eq_bind, bind_some, hnext]
  exact if_pos trivial

theorem skipBlock_nil {s : Parser} (h : s.rest = []) : skipBlock s = none := by
  rw [skipBlock, skipToStar_end h]
  rfl

/-- The input is cut after a star. -/
theorem skipBlock_cut {s : Parser} (h : s.rest = ['*']) : skipBlock s = none := by
  obtain ⟨s₁, hrest₁, hstar⟩ := skipToStar_star h
  rw [skipBlock, hstar]
  simp only [bind_eq_bind, bind_some, nextChar_of_nil hrest₁]
  rw [if_neg (by decide), skipBlock_nil hrest₁]

theorem skipBlock_body {body text : List Char} (hbody : Stars body) :
    ∀ s : Parser, s.rest = body ++ '*' :: '/' :: text → ∃ s', skipBlock s = some s' ∧ s'.rest = text := by
  induction hbody with
  | nil =>
    intro s hrest
    obtain ⟨s', hrest', hclose⟩ := skipBlock_close hrest
    exact ⟨s', hclose, hrest'⟩
  | char hc h ih =>
    intro s hrest
    obtain ⟨s₁, hrest₁, hchar⟩ := skipBlock_char hrest hc
    rw [hchar]
    exact ih s₁ hrest₁
  | star hc h ih =>
    intro s hrest
    obtain ⟨s₂, hrest₂, hstar⟩ := skipBlock_star hrest hc
    rw [hstar]
    exact ih s₂ hrest₂

theorem body_of_skipBlock (n : Nat) : ∀ s s' : Parser, s.size = n → skipBlock s = some s' →
    ∃ body, Stars body ∧ s.rest = body ++ '*' :: '/' :: s'.rest := by
  induction n using Nat.strong_induction_on with
  | _ n ih =>
    intro s s' hsize hskip
    cases hrest : s.rest with
    | nil =>
      rw [skipBlock_nil hrest] at hskip
      cases hskip
    | cons c text =>
      have hlen : text.length + 1 = n := by rw [← hsize, size, hrest, length_cons]
      by_cases hc : c = '*'
      · subst hc
        cases text with
        | nil =>
          rw [skipBlock_cut hrest] at hskip
          cases hskip
        | cons c text =>
          rw [length_cons] at hlen
          by_cases hslash : c = '/'
          · subst hslash
            obtain ⟨s₂, rfl, hclose⟩ := skipBlock_close hrest
            rw [hskip] at hclose
            cases hclose
            exact ⟨[], .nil, rfl⟩
          · obtain ⟨s₂, rfl, hstar⟩ := skipBlock_star hrest hslash
            rw [hstar] at hskip
            obtain ⟨body, hbody, heq⟩ := ih s₂.size (by rw [size]; omega) s₂ s' rfl hskip
            exact ⟨'*' :: c :: body, .star hslash hbody, by rw [heq]; rfl⟩
      · obtain ⟨s₁, rfl, hchar⟩ := skipBlock_char hrest hc
        rw [hchar] at hskip
        obtain ⟨body, hbody, heq⟩ := ih s₁.size (by rw [size]; omega) s₁ s' rfl hskip
        exact ⟨c :: body, .char hc hbody, by rw [heq]; rfl⟩

/-- A comment that is closed, from its first `/`. -/
inductive Comment : List Char → List Char → Prop
  | line {body text : List Char} (hbody : '\n' ∉ body) : Comment ('/' :: (body ++ '\n' :: text)) text
  | block {body text : List Char} (hbody : Stars body) :
      Comment ('*' :: (body ++ '*' :: '/' :: text)) text

theorem Comment.isReadComment {text rest : List Char} (h : Comment text rest) :
    ∃ com, IsReadComment com ∧ '/' :: text = com ++ rest := by
  cases h with
  | @line body _ hbody => exact ⟨_, Or.inl ⟨body, rfl, hbody⟩, by simp⟩
  | @block body _ hbody => exact ⟨_, Or.inr ⟨body, rfl, hbody⟩, by simp⟩

theorem Comment.blanks {text text₁ rest : List Char} (h : Comment text text₁)
    (hblanks : Blanks IsReadComment text₁ rest) : Blanks IsReadComment ('/' :: text) rest := by
  obtain ⟨com, hcom, htext⟩ := h.isReadComment
  rw [htext]
  exact .comment hcom hblanks

theorem comment_of_isReadComment {com : List Char} (h : IsReadComment com) (rest : List Char) :
    ∃ text, com ++ rest = '/' :: text ∧ Comment text rest := by
  rcases h with ⟨body, rfl, hbody⟩ | ⟨body, rfl, hbody⟩
  · exact ⟨_, by simp, .line hbody⟩
  · exact ⟨_, by simp, .block hbody⟩

theorem Comment.length_lt {text text₁ : List Char} (h : Comment text text₁) :
    text₁.length < text.length := by
  cases h with
  | line hbody => simp only [length_cons, length_append]; omega
  | block hbody => simp only [length_cons, length_append]; omega

theorem parseComment_ok {text rest : List Char} (h : Comment text rest) {s : Parser} (hrest : s.rest = text) :
    ∃ s', s.parseComment = some (.ok s') ∧ s'.rest = rest := by
  cases h with
  | line hbody =>
    obtain ⟨s₁, hnext, hrest₁, -⟩ := nextChar_cons hrest
    obtain ⟨s', hskip, hrest'⟩ := skipLine_body hbody s₁ hrest₁
    have hstart : skipLine '/' s₁ = some s' := by
      rw [skipLine, if_pos (by decide)]
      exact hskip
    refine ⟨s', ?_, hrest'⟩
    rw [parseComment, hnext]
    simp only
    rw [if_pos trivial, hstart]
    rfl
  | block hbody =>
    obtain ⟨s₁, hnext, hrest₁, -⟩ := nextChar_cons hrest
    obtain ⟨s', hskip, hrest'⟩ := skipBlock_body hbody s₁ hrest₁
    refine ⟨s', ?_, hrest'⟩
    rw [parseComment, hnext]
    simp only
    rw [if_neg (by decide), if_pos trivial, hskip]
    rfl

theorem comment_of_parseComment {s s' : Parser} (h : s.parseComment = some (.ok s')) :
    Comment s.rest s'.rest := by
  rw [parseComment] at h
  obtain ⟨-, ⟨-, hnext⟩ | ⟨c, s₁, hnext, hcons⟩⟩ := nextChar_spec s
  · rw [hnext] at h
    cases h
  rw [hnext] at h
  simp only at h
  by_cases hline : c = '/'
  · rw [if_pos hline, skipLine, if_pos (by rw [hline]; decide)] at h
    simp only at h
    cases hskip : skipLine s₁.nextChar.1 s₁.nextChar.2 with
    | none =>
      rw [hskip] at h
      cases h
    | some s₂ =>
      rw [hskip] at h
      cases h
      obtain ⟨body, hbody, hrest⟩ := body_of_skipLine s₁.size s₁ s' rfl hskip
      rw [hcons, hline, hrest]
      exact .line hbody
  rw [if_neg hline] at h
  by_cases hblock : c = '*'
  · rw [if_pos hblock] at h
    cases hskip : skipBlock s₁ with
    | none =>
      rw [hskip] at h
      cases h
    | some s₂ =>
      rw [hskip] at h
      cases h
      obtain ⟨body, hbody, hrest⟩ := body_of_skipBlock s₁.size s₁ s' rfl hskip
      rw [hcons, hblock, hrest]
      exact .block hbody
  · rw [if_neg hblock] at h
    cases h

/-! ## Literals -/

theorem parseLitt_ok (litt : List Char) {text : List Char} :
    ∀ s : Parser, s.rest = litt ++ text → ∃ s', parseLitt litt s = .ok s' ∧ s'.rest = text := by
  induction litt with
  | nil => exact fun s hrest => ⟨s, rfl, hrest⟩
  | cons l litt ih =>
    intro s hrest
    obtain ⟨s₁, hnext, hrest₁, -⟩ := nextChar_cons hrest
    obtain ⟨s', hlitt, hrest'⟩ := ih s₁ hrest₁
    refine ⟨s', ?_, hrest'⟩
    rw [parseLitt, hnext]
    simp only
    rw [if_neg (by simp), hlitt]

theorem rest_of_parseLitt {litt : List Char} (hlitt : '\x00' ∉ litt) :
    ∀ {s s' : Parser}, parseLitt litt s = .ok s' → s.rest = litt ++ s'.rest := by
  induction litt with
  | nil =>
    intro s s' h
    cases h
    rfl
  | cons l litt ih =>
    intro s s' h
    rw [parseLitt] at h
    obtain ⟨-, ⟨-, hnext⟩ | ⟨c, s₁, hnext, hcons⟩⟩ := nextChar_spec s
    · rw [hnext] at h
      simp only at h
      rw [if_pos (ne_of_not_mem_cons hlitt)] at h
      cases h
    · rw [hnext] at h
      simp only at h
      by_cases hc : c = l
      · rw [if_neg (not_not.mpr hc)] at h
        rw [hcons, ih (not_mem_of_not_mem_cons hlitt) h, hc]
        rfl
      · rw [if_pos hc] at h
        cases h

/-! ## Tokens -/

theorem bind_eq_ok {α β : Type} {x : Result α} {f : α → Result β} {b : β}
    (h : (x >>= f : Result β) = some (.ok b)) : ∃ a, x = some (.ok a) ∧ f a = some (.ok b) := by
  cases hx : (x : Option (Except Exn α)) with
  | none =>
    rw [bind_none hx] at h
    cases h
  | some r =>
    cases r with
    | error e =>
      rw [bind_error hx] at h
      cases h
    | ok a =>
      rw [bind_ok hx] at h
      exact ⟨a, rfl, h⟩

theorem ok_of_liftExcept {α : Type} {x : Except Exn α} {a : α}
    (h : (liftExcept x : Result α) = some (.ok a)) : x = .ok a := by
  cases x with
  | error e => cases h
  | ok b =>
    cases h
    rfl

section Tokens

variable {s : Parser} {c : Char} {text : List Char}

theorem parseBasedNumber_run (s : Parser) :
    ∃ s', s.parseBasedNumber = some (.ok ((afterZero s.rest).1, s')) ∧
      s'.text = (afterZero s.rest).2.1 ∧ s'.rest = (afterZero s.rest).2.2 := by
  rw [parseBasedNumber]
  obtain ⟨hprev, ⟨hnil, hnext⟩ | ⟨c, s₁, hnext, hcons⟩⟩ := nextChar_spec s
  · -- the input is cut after the zero
    rw [hnext] at hprev ⊢
    simp only at hprev ⊢
    rw [if_neg (by decide), if_neg (by decide), if_neg (by decide), pushBack, if_neg (not_not.mpr hprev),
      hnil, afterZero]
    refine ⟨_, rfl, rfl, ?_⟩
    rw [rest_of_prev hprev, hnil]
    rfl
  · rw [hnext] at hprev ⊢
    rw [hcons, afterZero]
    simp only at hprev ⊢
    by_cases hx : c = 'x' ∨ c = 'X'
    · rw [if_pos hx, if_pos hx]
      exact parseNumber_run (ahead_nextChar s₁) 16
    rw [if_neg hx, if_neg hx]
    by_cases hb : c = 'b' ∨ c = 'B'
    · rw [if_pos hb, if_pos hb]
      exact parseNumber_run (ahead_nextChar s₁) 2
    rw [if_neg hb, if_neg hb]
    by_cases hc : isNumber c
    · rw [if_pos hc, if_pos hc]
      exact parseNumber_run ⟨hprev, Or.inl rfl⟩ 10
    · rw [if_neg hc, if_neg hc, pushBack, if_neg (not_not.mpr hprev)]
      exact ⟨_, rfl, rfl, rest_of_prev hprev c ['0']⟩

theorem next_nil (h : s.rest = []) : ∃ e, s.next = some (.error e) := by
  rw [next, nextChar_of_nil h]
  exact ⟨_, rfl⟩

theorem next_symbol {t : Token} (h : s.rest = c :: text) (hc : symbol c = some t) :
    ∃ s₁ : Parser, s₁.rest = text ∧ s.next = some (.ok (t, s₁)) := by
  obtain ⟨s₁, hnext, hrest₁, -⟩ := nextChar_cons h
  refine ⟨s₁, hrest₁, ?_⟩
  rw [next, hnext]
  simp only [hc]
  rfl

theorem next_quote (h : s.rest = c :: text) (hc : c = '\'' ∨ c = '"') :
    ∃ s₁ : Parser, s₁.rest = text ∧
      s.next = (parseString s₁ c >>= fun s => pure (Token.string, s) : Result (Token × Parser)) := by
  obtain ⟨s₁, hnext, hrest₁, -⟩ := nextChar_cons h
  refine ⟨s₁, hrest₁, ?_⟩
  rw [next, hnext]
  rcases hc with rfl | rfl
  · rfl
  · rfl

theorem next_blank (h : s.rest = c :: text) (hc : IsBlank c) :
    ∃ s₁ : Parser, s₁.rest = text ∧ s.next = s₁.next := by
  obtain ⟨s₁, hnext, hrest₁, -⟩ := nextChar_cons h
  refine ⟨s₁, hrest₁, ?_⟩
  rw [next, hnext]
  rcases hc with rfl | rfl | rfl | rfl <;> rfl

theorem next_slash (h : s.rest = '/' :: text) :
    ∃ s₁ : Parser, s₁.rest = text ∧ s.next = s₁.parseComment >>= next := by
  obtain ⟨s₁, hnext, hrest₁, -⟩ := nextChar_cons h
  refine ⟨s₁, hrest₁, ?_⟩
  rw [next, hnext]
  rfl

theorem next_literal {litt : List Char} {t : Token} (h : s.rest = c :: text)
    (hc : literal c = some (litt, t)) :
    ∃ s₁ : Parser, s₁.rest = text ∧
      s.next = (liftExcept (parseLitt litt s₁) >>= fun s => pure (t, s) : Result (Token × Parser)) := by
  obtain ⟨s₁, hnext, hrest₁, -⟩ := nextChar_cons h
  refine ⟨s₁, hrest₁, ?_⟩
  rw [next, hnext]
  unfold literal at hc
  split at hc <;> cases hc <;> rfl

theorem next_zero (h : s.rest = '0' :: text) : ∃ s₁ : Parser, s₁.rest = text ∧ s.next = s₁.parseBasedNumber := by
  obtain ⟨s₁, hnext, hrest₁, -⟩ := nextChar_cons h
  refine ⟨s₁, hrest₁, ?_⟩
  rw [next, hnext]
  rfl

theorem next_run (h : s.rest = c :: text) (hzero : c ≠ '0') (hc : c = '+' ∨ c = '-' ∨ isNumber c) :
    ∃ s₁, Ahead (c :: text) c s₁ ∧ s.next = s₁.parseNumber c 10 := by
  obtain ⟨s₁, hnext, hrest₁, hprev₁⟩ := nextChar_cons h
  refine ⟨s₁, ⟨hprev₁, Or.inl (by rw [hrest₁])⟩, ?_⟩
  have hmem : c ∈ baseChars 10 := by
    rcases hc with rfl | rfl | hc
    · decide
    · decide
    · exact mem_baseChars_of_isNumber hc
  rw [next, hnext]
  -- the characters of a number one after the other
  simp only [show baseChars 10 = ['0', '1', '2', '3', '4', '5', '6', '7', '8', '9', '+', '-', '.', 'e', 'E']
    from rfl, mem_cons, not_mem_nil, or_false] at hmem
  rcases hmem with rfl | rfl | rfl | rfl | rfl | rfl | rfl | rfl | rfl | rfl | rfl | rfl | rfl | rfl | rfl
  · exact absurd rfl hzero
  all_goals rfl

/-- The number at the start of a text is read. -/
theorem next_number {t : Token} {num rest : List Char} (h : leadingNumber s.rest = some (t, num, rest)) :
    ∃ s', s.next = some (.ok (t, s')) ∧ s'.text = num ∧ s'.rest = rest := by
  cases hrest : s.rest with
  | nil =>
    rw [hrest] at h
    cases h
  | cons c text =>
    rw [hrest] at h
    by_cases hzero : c = '0'
    · subst hzero
      obtain ⟨s₁, rfl, hnext⟩ := next_zero hrest
      rw [leadingNumber, if_pos rfl] at h
      have hrun := parseBasedNumber_run s₁
      rw [some.inj h] at hrun
      rw [hnext]
      exact hrun
    · rw [leadingNumber, if_neg hzero] at h
      by_cases hc : c = '+' ∨ c = '-' ∨ isNumber c
      · rw [if_pos hc] at h
        cases h
        obtain ⟨s₁, hahead, hnext⟩ := next_run hrest hzero hc
        rw [hnext]
        exact parseNumber_run hahead 10
      · rw [if_neg hc] at h
        cases h

/-- No token and no blank starts with the character. -/
theorem next_bad (h : s.rest = c :: text) (hsym : symbol c = none) (hquote : ¬ (c = '\'' ∨ c = '"'))
    (hblank : ¬ IsBlank c) (hslash : c ≠ '/') (hlit : literal c = none)
    (hnum : leadingNumber (c :: text) = none) : ∃ e, s.next = some (.error e) := by
  obtain ⟨s₁, hnext, -, -⟩ := nextChar_cons h
  have hzero : c ≠ '0' := by
    rintro rfl
    rw [leadingNumber, if_pos rfl] at hnum
    cases hnum
  rw [leadingNumber, if_neg hzero] at hnum
  have hc : ¬ (c = '+' ∨ c = '-' ∨ isNumber c) := by
    intro hc
    rw [if_pos hc] at hnum
    cases hnum
  unfold IsBlank at hblank
  rw [next, hnext]
  simp only [hsym, hlit]
  rw [if_neg hquote, if_neg hblank, if_neg (fun hsign => hc (hsign.imp_right Or.inl)), if_neg hslash,
    if_neg hzero, if_neg (fun h => hc (Or.inr (Or.inr h)))]
  exact ⟨_, rfl⟩

theorem next_blanks {rest : List Char} (h : Blanks IsReadComment text rest) :
    ∀ s : Parser, s.rest = text → ∃ s₁ : Parser, s₁.rest = rest ∧ s.next = s₁.next := by
  induction h with
  | nil rest => exact fun s hrest => ⟨s, hrest, rfl⟩
  | blank hc h ih =>
    intro s hrest
    obtain ⟨s₁, hrest₁, hnext⟩ := next_blank hrest hc
    rw [hnext]
    exact ih s₁ hrest₁
  | comment hcom h ih =>
    intro s hrest
    obtain ⟨text', heq, hcomment⟩ := comment_of_isReadComment hcom _
    obtain ⟨s₁, hrest₁, hnext⟩ := next_slash (hrest.trans heq)
    obtain ⟨s₂, hparse, hrest₂⟩ := parseComment_ok hcomment hrest₁
    rw [hnext, bind_ok hparse]
    exact ih s₂ hrest₂

theorem next_literal_ok {litt rest : List Char} {t : Token} (hc : literal c = some (litt, t))
    (h : s.rest = c :: (litt ++ rest)) : ∃ s', s.next = some (.ok (t, s')) ∧ s'.rest = rest := by
  obtain ⟨s₁, hrest₁, hnext⟩ := next_literal h hc
  obtain ⟨s', hlitt, hrest'⟩ := parseLitt_ok litt s₁ hrest₁
  refine ⟨s', ?_, hrest'⟩
  rw [hnext, hlitt]
  rfl

/-- The scalar at the start of a text is read. -/
theorem next_spells {x : Scalar} {rest : List Char} (h : Spells lenient x text rest) (hrest : s.rest = text) :
    ∃ t s', s.next = some (.ok (t, s')) ∧ scalar t s'.text = some x ∧ s'.rest = rest := by
  cases h with
  | null =>
    obtain ⟨s', hnext, hrest'⟩ := next_literal_ok rfl hrest
    exact ⟨.nullToken, s', hnext, rfl, hrest'⟩
  | true =>
    obtain ⟨s', hnext, hrest'⟩ := next_literal_ok rfl hrest
    exact ⟨.true, s', hnext, rfl, hrest'⟩
  | false =>
    obtain ⟨s', hnext, hrest'⟩ := next_literal_ok rfl hrest
    exact ⟨.false, s', hnext, rfl, hrest'⟩
  | string h =>
    obtain ⟨q, body, str, hq, rfl, hbody, rfl⟩ := h
    obtain ⟨s₁, hrest₁, hnext⟩ := next_quote hrest hq
    have hback : q ≠ '\\' := by
      rcases hq with rfl | rfl <;> decide
    obtain ⟨s', hstring, htext, hrest'⟩ := stringFrom_body hback hbody [] s₁ hrest₁
    have hparse : s₁.parseString q = some (.ok s') := hstring
    refine ⟨.string, s', ?_, by rw [htext]; rfl, hrest'⟩
    rw [hnext, bind_ok hparse]
    rfl
  | number h =>
    obtain ⟨t, num, hnum, hx⟩ := h
    rw [← hrest] at hnum
    obtain ⟨s', hnext, htext, hrest'⟩ := next_number hnum
    exact ⟨t, s', hnext, by rw [htext, hx], hrest'⟩

/-- A token at the start of a text; `value` is the text the token is given. -/
inductive Lexeme (value : List Char) : Token → List Char → List Char → Prop
  | symbol {t : Token} {c : Char} {rest : List Char} (h : symbol c = some t) :
      Lexeme value t (c :: rest) rest
  | scalar {t : Token} {x : Scalar} {text rest : List Char} (hx : scalar t value = some x)
      (h : Spells lenient x text rest) : Lexeme value t text rest

theorem token_of_leadingNumber {t : Token} {num rest : List Char}
    (h : leadingNumber text = some (t, num, rest)) : t = .int ∨ t = .float := by
  have hrun : ∀ base text', (run base text').1 = .int ∨ (run base text').1 = .float := by
    intro base text'
    unfold run
    simp only
    split_ifs
    · exact Or.inr rfl
    · exact Or.inl rfl
  have hzero : ∀ text', (afterZero text').1 = .int ∨ (afterZero text').1 = .float := by
    intro text'
    cases text' with
    | nil => exact Or.inl rfl
    | cons c text' =>
      rw [afterZero]
      split_ifs
      · exact hrun 16 text'
      · exact hrun 2 text'
      · exact hrun 10 (c :: text')
      · exact Or.inl rfl
  cases text with
  | nil => cases h
  | cons c text' =>
    rw [leadingNumber] at h
    split_ifs at h
    · have ht := hzero text'
      rw [some.inj h] at ht
      exact ht
    · have ht := hrun 10 (c :: text')
      rw [some.inj h] at ht
      exact ht

theorem scalar_of_leadingNumber {t : Token} {num rest : List Char}
    (h : leadingNumber text = some (t, num, rest)) : ∃ x, scalar t num = some x := by
  rcases token_of_leadingNumber h with rfl | rfl
  · exact ⟨_, rfl⟩
  · exact ⟨_, rfl⟩

theorem lexeme_of_literal {litt : List Char} {t : Token} (h : literal c = some (litt, t)) :
    '\x00' ∉ litt ∧ ∀ value rest, Lexeme value t (c :: (litt ++ rest)) rest := by
  unfold literal at h
  split at h <;> cases h
  · exact ⟨by decide, fun value rest => .scalar rfl (.null rest)⟩
  · exact ⟨by decide, fun value rest => .scalar rfl (.true rest)⟩
  · exact ⟨by decide, fun value rest => .scalar rfl (.false rest)⟩

/-- The token that is read stands after blanks and comments. -/
theorem lexeme_of_next (n : Nat) : ∀ (s s' : Parser) (t : Token), s.size = n →
    s.next = some (.ok (t, s')) → ∃ text, Blanks IsReadComment s.rest text ∧ Lexeme s'.text t text s'.rest := by
  induction n using Nat.strong_induction_on with
  | _ n ih =>
    intro s s' t hsize hok
    cases hrest : s.rest with
    | nil =>
      obtain ⟨e, herror⟩ := next_nil hrest
      rw [hok] at herror
      cases herror
    | cons c text =>
      have hlen : text.length + 1 = n := by rw [← hsize, size, hrest, length_cons]
      cases hsym : symbol c with
      | some t' =>
        obtain ⟨s₁, rfl, hnext⟩ := next_symbol hrest hsym
        rw [hok] at hnext
        cases hnext
        exact ⟨_, .nil _, .symbol hsym⟩
      | none =>
        by_cases hquote : c = '\'' ∨ c = '"'
        · obtain ⟨s₁, rfl, hnext⟩ := next_quote hrest hquote
          rw [hok] at hnext
          obtain ⟨s₂, hparse, hpure⟩ := bind_eq_ok hnext.symm
          cases hpure
          have hback : c ≠ '\\' ∧ c ≠ '\x00' := by
            rcases hquote with rfl | rfl <;> decide
          obtain ⟨value, htext, hbody⟩ := body_of_stringFrom hback.1 hback.2 s₁.size [] s₁ s' rfl hparse
          rw [nil_append] at htext
          exact ⟨_, .nil _, .scalar rfl (.string ⟨c, _, value, hquote, rfl, hbody, htext⟩)⟩
        by_cases hblank : IsBlank c
        · obtain ⟨s₁, rfl, hnext⟩ := next_blank hrest hblank
          rw [hnext] at hok
          obtain ⟨text', hblanks, hlexeme⟩ := ih s₁.size (by rw [size]; omega) s₁ s' t rfl hok
          exact ⟨text', .blank hblank hblanks, hlexeme⟩
        by_cases hslash : c = '/'
        · subst hslash
          obtain ⟨s₁, rfl, hnext⟩ := next_slash hrest
          rw [hok] at hnext
          obtain ⟨s₂, hparse, hok₂⟩ := bind_eq_ok hnext.symm
          have hcomment := comment_of_parseComment hparse
          obtain ⟨text', hblanks, hlexeme⟩ :=
            ih s₂.size (by have := hcomment.length_lt; rw [size]; omega) s₂ s' t rfl hok₂
          exact ⟨text', hcomment.blanks hblanks, hlexeme⟩
        cases hlit : literal c with
        | some l =>
          obtain ⟨litt, t'⟩ := l
          obtain ⟨s₁, rfl, hnext⟩ := next_literal hrest hlit
          rw [hok] at hnext
          obtain ⟨s₂, hparse, hpure⟩ := bind_eq_ok hnext.symm
          cases hpure
          obtain ⟨hnul, hlexeme⟩ := lexeme_of_literal hlit
          rw [rest_of_parseLitt hnul (ok_of_liftExcept hparse)]
          exact ⟨_, .nil _, hlexeme s'.text s'.rest⟩
        | none =>
          cases hnum : leadingNumber (c :: text) with
          | some r =>
            obtain ⟨t', num, rest⟩ := r
            obtain ⟨x, hx⟩ := scalar_of_leadingNumber hnum
            obtain ⟨s'', hnext, htext, hrest'⟩ := next_number (hrest ▸ hnum)
            rw [hok] at hnext
            cases hnext
            rw [htext, hrest']
            exact ⟨_, .nil _, .scalar hx (.number ⟨t, num, hnum, hx⟩)⟩
          | none =>
            obtain ⟨e, herror⟩ := next_bad hrest hsym hquote hblank hslash hlit hnum
            rw [hok] at herror
            cases herror

end Tokens

end Parser

end Elm.Json
