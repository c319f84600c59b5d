import Elm.Lib.Loop
import Elm.Lib.Occurrence
import Elm.Strings.String

/-!
# Searches in a `String`

The searches of `include/elm/string/String.h` and `src/string_String.cpp`, and `replace`.  They only read the buffer of
the string, so a string is seen with the bytes of its buffer in place of the pointer to it.  A candidate is compared
through `substring`, which does not look at the end of the string.  Bytes outside the buffer cannot be read: there is
no result.
-/

namespace Elm.Strings

open Occurrence Option

/-- The members of a string, with the bytes of its buffer: the counter, then the characters. -/
structure Text where
  buf : List UInt8
  off : Nat
  len : Nat
  deriving DecidableEq

/-- `memcmp`, on bytes that can be read. -/
def memcmp : List UInt8 → List UInt8 → Int
  | a :: as, b :: bs => if a = b then memcmp as bs else (a.toNat : Int) - b.toNat
  | _, _ => 0

namespace Text

/-- The `n` bytes from `chars() + pos` on. -/
def read (s : Text) (pos n : Nat) : Option (List UInt8) :=
  if s.off + pos + n ≤ s.buf.length then some ((s.buf.drop (s.off + pos)).take n) else none

/-- The `length()` bytes from `chars()` on. -/
def chars (s : Text) : Option (List UInt8) := s.read 0 s.len

/-- `substring(int _off, int _len)`; the members have 16 bits. -/
def substring (s : Text) (off len : Int) : Text :=
  { s with off := ((s.off + off) % 2 ^ 16).toNat, len := (len % 2 ^ 16).toNat }

/-- `substring(int _off)`. -/
def substringFrom (s : Text) (off : Int) : Text := s.substring off (s.len - off)

/-- `charAt`. -/
def charAt (s : Text) (index : Nat) : Option UInt8 := s.buf[s.off + index]?

/-- `compare(const String& str)`. -/
def compare (s str : Text) : Option Int :=
  let n := if s.len > str.len then str.len else s.len
  (s.read 0 n).bind fun a => (str.read 0 n).map fun b =>
    let res := memcmp a b
    if res ≠ 0 then res else s.len - str.len

/-- `operator==`. -/
def equals (s str : Text) : Option Bool := (s.compare str).map (· == 0)

/-- The loop of `indexOf(char chr, int pos)`, with `n` characters left. -/
def indexOfCharFrom (s : Text) (chr : UInt8) : Nat → Nat → Option Int
  | 0, _ => some (-1)
  | n + 1, pos => (s.charAt pos).bind fun c => if c = chr then some pos else indexOfCharFrom s chr n (pos + 1)

/-- `indexOf(char chr, int pos)`. -/
def indexOfChar (s : Text) (chr : UInt8) (pos : Nat) : Option Int := s.indexOfCharFrom chr (s.len - pos) pos

/-- `lastIndexOf(char chr, int pos)`. -/
def lastIndexOfChar (s : Text) (chr : UInt8) : Nat → Option Int
  | 0 => some (-1)
  | pos + 1 => (s.charAt pos).bind fun c => if c = chr then some pos else lastIndexOfChar s chr pos

/-- One turn of the loop of `indexOf(const String& string, int pos)`. -/
def indexTurn (s string : Text) (pos : Int) : Option (Int ⊕ Int) :=
  if pos < 0 then some (.inr (-1))
  else do
    let c ← string.charAt 0
    let pos ← s.indexOfChar c pos.toNat
    if pos ≥ 0 then
      if ← (s.substring pos string.len).equals string then some (.inr pos) else some (.inl (pos + 1))
    else
      some (.inl pos)

/-- `indexOf(const String& string, int pos)`. -/
def indexOf (s string : Text) (pos : Int) : Option Int :=
  if string.len = 0 then none else Loop.attempt (indexTurn s string) (s.len + 3) pos

/-- One turn of the loop of `lastIndexOf(const String& string, int pos)`. -/
def lastIndexTurn (s string : Text) (pos : Int) : Option (Int ⊕ Int) :=
  if pos < 0 then some (.inr (-1))
  else do
    let c ← string.charAt 0
    let pos ← s.lastIndexOfChar c pos.toNat
    if pos ≥ 0 then
      if ← (s.substring pos string.len).equals string then some (.inr pos) else some (.inl pos)
    else
      some (.inl pos)

/-- `lastIndexOf(const String& str)`. -/
def lastIndexOf (s string : Text) : Option Int :=
  if string.len = 0 then none else Loop.attempt (lastIndexTurn s string) (s.len + 2) s.len

/-- `StringBuffer::toString`, on the characters that were written. -/
def toString (str : List UInt8) : Text := { buf := 1 :: 0 :: (str ++ [0]), off := 2, len := str.length % 2 ^ 16 }

/-- One turn of the loop of `replace`: the index of the pattern, the string `c` and the characters of `buf`. -/
def replaceTurn (pat sub : Text) (st : Int × Text × List UInt8) : Option ((Int × Text × List UInt8) ⊕ Text) :=
  let (p, c, buf) := st
  if p ≥ 0 then do
    let front ← if p > 0 then (c.substring 0 p).chars else some []
    let chars ← sub.chars
    let c := c.substringFrom (p + pat.len)
    let p ← c.indexOf pat 0
    some (.inl (p, c, buf ++ front ++ chars))
  else do
    let last ← c.chars
    some (.inr (toString (buf ++ last)))

/-- `replace`, with a bound on the turns of its loop. -/
def replace (s pat sub : Text) (fuel : Nat) : Option Text := do
  let p ← s.indexOf pat 0
  if p < 0 then some s else Loop.attempt (replaceTurn pat sub) fuel (p, s, [])

/-! ## Candidates -/

/-- What the loops find at the index `j`: the candidate starts with the first character of the pattern, and is
compared with it. -/
def verdict (s pat : Text) (j : Nat) : Option Bool :=
  (pat.charAt 0).bind fun c₀ => (s.charAt j).bind fun c =>
    if c = c₀ then (s.substring j pat.len).equals pat else some false

/-- The index that is returned. -/
def index : Option Nat → Int
  | some i => i
  | none => -1

section Search

variable {s pat : Text}

theorem indexOfChar_cons {chr : UInt8} {pos : Nat} (hpos : pos < s.len) : s.indexOfChar chr pos =
    (s.charAt pos).bind fun c => if c = chr then some (pos : Int) else s.indexOfChar chr (pos + 1) := by
  obtain ⟨n, hn⟩ : ∃ n, s.len - pos = n + 1 := ⟨s.len - pos - 1, by omega⟩
  have hn' : s.len - (pos + 1) = n := by omega
  rw [indexOfChar, indexOfChar, hn, hn', indexOfCharFrom]

/-- A turn that starts at a candidate. -/
theorem indexTurn_eq {c₀ : UInt8} (hc₀ : pat.charAt 0 = some c₀) {pos : Nat} (hpos : pos < s.len) :
    indexTurn s pat pos = (s.charAt pos).bind fun c =>
      if c = c₀ then
        ((s.substring pos pat.len).equals pat).map fun found => if found then .inr pos else .inl (pos + 1)
      else indexTurn s pat (pos + 1 : Nat) := by
  have hnotneg : ∀ k : Nat, ¬ (k : Int) < 0 := fun k => by omega
  rw [indexTurn, indexTurn, if_neg (hnotneg _), if_neg (hnotneg _), hc₀]
  simp only [bind_eq_bind, bind_some, Int.toNat_natCast, indexOfChar_cons hpos]
  cases s.charAt pos with
  | none => rfl
  | some c =>
    simp only [bind_some]
    split_ifs with hc
    · have hge : (pos : Int) ≥ 0 := by omega
      simp only [bind_some, if_pos hge]
      cases (s.substring pos pat.len).equals pat with
      | none => rfl
      | some found => cases found <;> rfl
    · rfl

/-- The loop of `indexOf` looks at the candidates one after the other. -/
theorem attempt_indexTurn {c₀ : UInt8} (hc₀ : pat.charAt 0 = some c₀) (n pos fuel : Nat) (hn : s.len - pos = n) :
    Loop.attempt (indexTurn s pat) (fuel + 1 + n + 1) pos = (scan (s.verdict pat) (List.range' pos n)).map index := by
  induction n generalizing pos fuel with
  | zero =>
    have hturn : indexTurn s pat pos = some (.inl (-1)) := by
      rw [indexTurn, if_neg (by omega), hc₀]
      simp [indexOfChar, hn, indexOfCharFrom]
    have hturn' : indexTurn s pat (-1) = some (.inr (-1)) := by rw [indexTurn, if_pos (by decide)]
    rw [Loop.attempt_succ_inl hturn, Loop.attempt_succ_inr hturn']
    rfl
  | succ n ih =>
    have hrest := ih (pos + 1) (fuel + 1) (by omega)
    have hturn := indexTurn_eq hc₀ (show pos < s.len by omega)
    rw [List.range'_succ, scan, verdict, hc₀, bind_some]
    cases hc : s.charAt pos with
    | none =>
      rw [hc] at hturn
      rw [Loop.attempt_succ_none hturn]
      rfl
    | some c =>
      rw [hc, bind_some] at hturn
      rw [bind_some]
      split_ifs at hturn ⊢ with hfirst
      · cases hequal : (s.substring pos pat.len).equals pat with
        | none =>
          rw [hequal] at hturn
          rw [Loop.attempt_succ_none hturn]
          rfl
        | some found =>
          rw [hequal] at hturn
          cases found with
          | true => rw [Loop.attempt_succ_inr hturn]; rfl
          | false =>
            rw [Loop.attempt_succ_inl hturn]
            exact ih (pos + 1) fuel (by omega)
      · -- the search of the first character goes on
        have hsame : Loop.failing (indexTurn s pat) (pos : Int) =
            Loop.failing (indexTurn s pat) ((pos + 1 : Nat) : Int) := by
          unfold Loop.failing
          rw [hturn]
        rw [bind_some, if_neg Bool.false_ne_true, ← hrest]
        unfold Loop.attempt
        rw [show fuel + 1 + (n + 1) + 1 = (fuel + 1 + 1 + n) + 1 by omega, Loop.run, Loop.run, hsame]

/-- `indexOf`, on a pattern that has characters. -/
theorem indexOf_eq {c₀ : UInt8} (hc₀ : pat.charAt 0 = some c₀) (hlen : pat.len ≠ 0) (pos : Nat) :
    s.indexOf pat pos = (scan (s.verdict pat) (List.range' pos (s.len - pos))).map index := by
  have hfuel : s.len + 3 = (s.len - (s.len - pos) + 1) + 1 + (s.len - pos) + 1 := by omega
  rw [indexOf, if_neg hlen, hfuel, attempt_indexTurn hc₀ _ pos _ rfl]

theorem lastIndexTurn_eq {c₀ : UInt8} (hc₀ : pat.charAt 0 = some c₀) (pos : Nat) :
    lastIndexTurn s pat (pos + 1 : Nat) = (s.charAt pos).bind fun c =>
      if c = c₀ then ((s.substring pos pat.len).equals pat).map fun found => if found then .inr pos else .inl pos
      else lastIndexTurn s pat pos := by
  have hnotneg : ∀ k : Nat, ¬ (k : Int) < 0 := fun k => by omega
  rw [lastIndexTurn, lastIndexTurn, if_neg (hnotneg _), if_neg (hnotneg _), hc₀]
  simp only [bind_eq_bind, bind_some, Int.toNat_natCast, lastIndexOfChar]
  cases s.charAt pos with
  | none => rfl
  | some c =>
    simp only [bind_some]
    split_ifs with hc
    · have hge : (pos : Int) ≥ 0 := by omega
      simp only [bind_some, if_pos hge]
      cases (s.substring pos pat.len).equals pat with
      | none => rfl
      | some found => cases found <;> rfl
    · rfl

/-- The loop of `lastIndexOf`. -/
theorem attempt_lastIndexTurn {c₀ : UInt8} (hc₀ : pat.charAt 0 = some c₀) (n fuel : Nat) :
    Loop.attempt (lastIndexTurn s pat) (fuel + 1 + n + 1) n =
      (scan (s.verdict pat) (List.range n).reverse).map index := by
  induction n generalizing fuel with
  | zero =>
    have hturn : lastIndexTurn s pat (0 : Nat) = some (.inl (-1)) := by
      rw [lastIndexTurn, if_neg (by omega), hc₀]
      rfl
    have hturn' : lastIndexTurn s pat (-1) = some (.inr (-1)) := by rw [lastIndexTurn, if_pos (by decide)]
    rw [Loop.attempt_succ_inl hturn, Loop.attempt_succ_inr hturn']
    rfl
  | succ n ih =>
    have hturn := @lastIndexTurn_eq s pat c₀ hc₀ n
    rw [List.range_succ, List.reverse_append, List.reverse_singleton, List.singleton_append, scan, verdict, hc₀,
      bind_some]
    cases hc : s.charAt n with
    | none =>
      rw [hc] at hturn
      rw [Loop.attempt_succ_none hturn]
      rfl
    | some c =>
      rw [hc, bind_some] at hturn
      rw [bind_some]
      split_ifs at hturn ⊢ with hfirst
      · cases hequal : (s.substring n pat.len).equals pat with
        | none =>
          rw [hequal] at hturn
          rw [Loop.attempt_succ_none hturn]
          rfl
        | some found =>
          rw [hequal] at hturn
          cases found with
          | true => rw [Loop.attempt_succ_inr hturn]; rfl
          | false =>
            rw [Loop.attempt_succ_inl hturn]
            exact ih fuel
      · have hsame : Loop.failing (lastIndexTurn s pat) ((n + 1 : Nat) : Int) =
            Loop.failing (lastIndexTurn s pat) (n : Int) := by
          unfold Loop.failing
          rw [hturn]
        rw [bind_some, if_neg Bool.false_ne_true, ← ih (fuel + 1)]
        unfold Loop.attempt
        rw [show fuel + 1 + (n + 1) + 1 = (fuel + 1 + 1 + n) + 1 by omega, Loop.run, Loop.run, hsame]

theorem lastIndexOf_eq {c₀ : UInt8} (hc₀ : pat.charAt 0 = some c₀) (hlen : pat.len ≠ 0) :
    s.lastIndexOf pat = (scan (s.verdict pat) (List.range s.len).reverse).map index := by
  have hfuel : s.len + 2 = 0 + 1 + s.len + 1 := by omega
  rw [lastIndexOf, if_neg hlen, hfuel, attempt_lastIndexTurn hc₀]

end Search

end Text
end Elm.Strings
