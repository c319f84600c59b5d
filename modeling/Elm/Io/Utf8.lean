import Mathlib.Tactic

/-!
# `utf8::Iter`

The traversal of the characters of an UTF-8 string, of `src/string_utf8.cpp`.  It ends at the end of the
string or at a character of code zero; `none` stands for an `utf8::Exception`.
-/

namespace Elm.Io.Utf8

/-- The number of bytes that follow the first byte of a long sequence. -/
def sequenceLength (cc : UInt8) : Nat :=
  if cc &&& 0x20 = 0 then 1
  else if cc &&& 0x10 = 0 then 2
  else if cc &&& 0x08 = 0 then 3
  else 4

/-- The loop of `parse` over `l` more bytes. -/
def parseRest : Nat → Nat → List UInt8 → Option (Nat × List UInt8)
  | 0, c, p => some (c, p)
  | _ + 1, _, [] => none
  | l + 1, c, cc :: p =>
    if cc &&& 0xC0 ≠ 0x80 then none
    else parseRest l (c <<< 6 ||| (cc &&& 0x3F).toNat) p

/-- `Iter::parse`: the next character, zero at the end, and the bytes left. -/
def parse : List UInt8 → Option (Nat × List UInt8)
  | [] => some (0, [])
  | cc :: p =>
    if cc &&& 0x80 = 0 then some (cc.toNat, p)
    else if cc &&& 0x40 = 0 then none
    else
      let l := sequenceLength cc
      if l = 4 then none
      else parseRest l (cc.toNat % 2 ^ (6 - l)) p

/-- The characters, with at most `fuel` turns: each turn but the last one takes a byte or more. -/
def items : Nat → List UInt8 → Option (List Nat)
  | 0, _ => some []
  | fuel + 1, p =>
    match parse p with
    | none => none
    | some (c, p) => if c = 0 then some [] else (items fuel p).map (c :: ·)

/-- The characters of a string. -/
def chars (s : List UInt8) : Option (List Nat) := items (s.length + 1) s

example : chars [0x61, 0xC3, 0xA9, 0xE2, 0x82, 0xAC] = some [0x61, 0xE9, 0x20AC] := by decide

theorem parseRest_length {l c c' : Nat} {p p' : List UInt8} (h : parseRest l c p = some (c', p')) :
    p'.length ≤ p.length := by
  induction l generalizing c p with
  | zero =>
    cases h
    exact le_rfl
  | succ l ih =>
    cases p with
    | nil => cases h
    | cons cc p =>
      rw [parseRest] at h
      split_ifs at h
      exact (ih h).trans (Nat.le_succ _)

theorem parse_length {c : Nat} {p p' : List UInt8} (h : parse p = some (c, p')) (hc : c ≠ 0) :
    p'.length < p.length := by
  cases p with
  | nil =>
    cases h
    exact absurd rfl hc
  | cons cc p =>
    rw [parse] at h
    split_ifs at h
    · cases h
      exact Nat.lt_succ_self _
    · simp only at h
      split_ifs at h
      exact Nat.lt_succ_of_le (parseRest_length h)

/-- The number of turns is large enough. -/
theorem items_eq (fuel : Nat) : ∀ {s : List UInt8}, s.length < fuel → items fuel s = chars s := by
  induction fuel using Nat.strong_induction_on with
  | _ fuel ih =>
    intro s hlt
    cases fuel with
    | zero => omega
    | succ fuel =>
      rw [chars, items, items]
      cases hparse : parse s with
      | none => rfl
      | some r =>
        obtain ⟨c, p⟩ := r
        simp only
        by_cases hc : c = 0
        · rw [if_pos hc, if_pos hc]
        · have hlen := parse_length hparse hc
          rw [if_neg hc, if_neg hc, ih fuel (by omega) (by omega), ih s.length (by omega) hlen]

end Elm.Io.Utf8
