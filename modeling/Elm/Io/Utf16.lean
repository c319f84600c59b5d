import Elm.Io.Utf8

/-!
# `utf16::Char`

The UTF-8 sequence of a character of 16 bits, of `src/string_utf16.cpp`, and its reading by
`utf8::Iter`.
-/

namespace Elm.Io.Utf16

open List Option

/-- `Char::toUTF8`. -/
def toUTF8 (c : UInt16) : List UInt8 :=
  if c ≤ 0x7F then [c.toUInt8]
  else if c ≤ 0x7FF then
    [((0b11000000 : UInt16) ||| c >>> 6).toUInt8, ((0b10000000 : UInt16) ||| c &&& 0x3F).toUInt8]
  else
    [((0b11100000 : UInt16) ||| c >>> 12).toUInt8,
      ((0b10000000 : UInt16) ||| c >>> 6 &&& 0x3F).toUInt8,
      ((0b10000000 : UInt16) ||| c &&& 0x3F).toUInt8]

end Elm.Io.Utf16

open Option

namespace Elm.Io.Utf8

open List

/-! ## The iterator -/

/-- `Iter`: the bytes from `p` to `q` and the current character. -/
structure Iter where
  p : List UInt8
  c : Nat
  deriving DecidableEq

namespace Iter

/-- `Iter::parse`, on the members of the iterator. -/
def parse (i : Iter) : Option Iter := (Utf8.parse i.p).map fun r => ⟨r.2, r.1⟩

/-- `Iter(str)`. -/
def new (str : List UInt8) : Option Iter := parse ⟨str, 0⟩

/-- `ended`. -/
def ended (i : Iter) : Bool := i.c = 0

/-- `next`. -/
def next (i : Iter) : Option Iter := i.parse

/-- The iterator after a number of calls of `next`. -/
def nexts : Nat → Iter → Option Iter
  | 0, i => some i
  | n + 1, i => i.next.bind (nexts n)

end Iter

/-! ## The bytes of a sequence -/

open Utf16 (toUTF8)

/-- The first byte of a sequence of two bytes. -/
theorem lead_two : ∀ x < 32, ∃ b, UInt8.ofNat (0b11000000 ||| x) = b ∧ b &&& 0x80 ≠ 0 ∧ b &&& 0x40 ≠ 0 ∧
    sequenceLength b = 1 ∧ b.toNat % 2 ^ 5 = x := by
  have hall : ∀ x < 32, UInt8.ofNat (0b11000000 ||| x) &&& 0x80 ≠ 0 ∧
      UInt8.ofNat (0b11000000 ||| x) &&& 0x40 ≠ 0 ∧
      sequenceLength (UInt8.ofNat (0b11000000 ||| x)) = 1 ∧
      (UInt8.ofNat (0b11000000 ||| x)).toNat % 2 ^ 5 = x := by decide
  exact fun x hx => ⟨_, rfl, hall x hx⟩

/-- The first byte of a sequence of three bytes. -/
theorem lead_three : ∀ x < 16, ∃ b, UInt8.ofNat (0b11100000 ||| x) = b ∧ b &&& 0x80 ≠ 0 ∧
    b &&& 0x40 ≠ 0 ∧ sequenceLength b = 2 ∧ b.toNat % 2 ^ 4 = x := by
  have hall : ∀ x < 16, UInt8.ofNat (0b11100000 ||| x) &&& 0x80 ≠ 0 ∧
      UInt8.ofNat (0b11100000 ||| x) &&& 0x40 ≠ 0 ∧
      sequenceLength (UInt8.ofNat (0b11100000 ||| x)) = 2 ∧
      (UInt8.ofNat (0b11100000 ||| x)).toNat % 2 ^ 4 = x := by decide
  exact fun x hx => ⟨_, rfl, hall x hx⟩

/-- A byte that follows. -/
theorem tail_byte : ∀ x < 64, ∃ b, UInt8.ofNat (0b10000000 ||| x) = b ∧ b &&& 0xC0 = 0x80 ∧
    (b &&& 0x3F).toNat = x := by
  have hall : ∀ x < 64, UInt8.ofNat (0b10000000 ||| x) &&& 0xC0 = 0x80 ∧
      (UInt8.ofNat (0b10000000 ||| x) &&& 0x3F).toNat = x := by decide
  exact fun x hx => ⟨_, rfl, hall x hx⟩

/-- The bytes of a character, from its code. -/
theorem toUTF8_eq (c : UInt16) :
    toUTF8 c =
      if c.toNat < 2 ^ 7 then [UInt8.ofNat c.toNat]
      else if c.toNat < 2 ^ 11 then
        [UInt8.ofNat (0b11000000 ||| c.toNat / 2 ^ 6), UInt8.ofNat (0b10000000 ||| c.toNat % 2 ^ 6)]
      else
        [UInt8.ofNat (0b11100000 ||| c.toNat / 2 ^ 12),
          UInt8.ofNat (0b10000000 ||| c.toNat / 2 ^ 6 % 2 ^ 6),
          UInt8.ofNat (0b10000000 ||| c.toNat % 2 ^ 6)] := by
  have hbyte : ∀ (d : UInt16), d.toUInt8 = UInt8.ofNat d.toNat := fun d => by
    apply UInt8.toNat_inj.mp
    simp
  have hand : ∀ n : Nat, n &&& 63 = n % 64 := fun n => Nat.and_two_pow_sub_one_eq_mod n 6
  unfold toUTF8
  have hone : c ≤ 0x7F ↔ c.toNat < 2 ^ 7 := by
    rw [UInt16.le_iff_toNat_le]
    exact Nat.lt_succ_iff.symm
  have htwo : c ≤ 0x7FF ↔ c.toNat < 2 ^ 11 := by
    rw [UInt16.le_iff_toNat_le]
    exact Nat.lt_succ_iff.symm
  simp only [hone, htwo, hbyte]
  simp [hand, Nat.shiftRight_eq_div_pow]

/-- The digits of a code in base 64, put together again. -/
theorem shift_or {x y : Nat} (hy : y < 64) : x <<< 6 ||| y = x * 64 + y := by
  rw [← Nat.shiftLeft_add_eq_or_of_lt (i := 6) hy, Nat.shiftLeft_eq]

/-- The reader gives the character back and stops after its bytes. -/
theorem parse_toUTF8 (c : UInt16) (rest : List UInt8) :
    parse (toUTF8 c ++ rest) = some (c.toNat, rest) := by
  have hc := c.toNat_lt
  rw [toUTF8_eq]
  split_ifs with hone htwo
  · have hlow : ∀ x < 128, UInt8.ofNat x &&& 0x80 = 0 ∧ (UInt8.ofNat x).toNat = x := by decide
    obtain ⟨hbit, hvalue⟩ := hlow c.toNat hone
    rw [singleton_append, parse, if_pos hbit, hvalue]
  · obtain ⟨b, hb, hbit, hbit', hlength, hvalue⟩ := lead_two (c.toNat / 2 ^ 6) (by omega)
    obtain ⟨b', hb', htail, hvalue'⟩ := tail_byte (c.toNat % 2 ^ 6) (by omega)
    rw [hb, hb', cons_append, singleton_append, parse, if_neg hbit, if_neg hbit', hlength]
    simp only [OfNat.one_ne_ofNat, if_false, parseRest, htail, ne_eq, not_true_eq_false, hvalue, hvalue']
    rw [shift_or (by omega)]
    congr 2
    omega
  · obtain ⟨b, hb, hbit, hbit', hlength, hvalue⟩ := lead_three (c.toNat / 2 ^ 12) (by omega)
    obtain ⟨b₁, hb₁, htail₁, hvalue₁⟩ := tail_byte (c.toNat / 2 ^ 6 % 2 ^ 6) (by omega)
    obtain ⟨b₂, hb₂, htail₂, hvalue₂⟩ := tail_byte (c.toNat % 2 ^ 6) (by omega)
    rw [hb, hb₁, hb₂, cons_append, cons_append, singleton_append, parse, if_neg hbit,
      if_neg hbit', hlength]
    simp only [Nat.reduceEqDiff, if_false, parseRest, htail₁, htail₂, ne_eq, not_true_eq_false, hvalue,
      hvalue₁, hvalue₂]
    rw [shift_or (by omega), shift_or (by omega)]
    congr 2
    omega

/-- The bytes of a sequence of characters. -/
def encode (cs : List UInt16) : List UInt8 := cs.flatMap toUTF8

theorem encode_cons (c : UInt16) (cs : List UInt16) : encode (c :: cs) = toUTF8 c ++ encode cs :=
  flatMap_cons

theorem toUTF8_length_pos (c : UInt16) : 0 < (toUTF8 c).length := by
  unfold toUTF8
  split_ifs <;> simp

/-- The traversal of the bytes of characters that are not null. -/
theorem chars_encode {cs : List UInt16} (h : ∀ c ∈ cs, c ≠ 0) : chars (encode cs) = some (cs.map UInt16.toNat) := by
  induction cs with
  | nil => rfl
  | cons c cs ih =>
    have hc : c.toNat ≠ 0 := fun hzero => h c mem_cons_self (UInt16.toNat_inj.mp hzero)
    have hlength := toUTF8_length_pos c
    rw [encode_cons, chars, items, parse_toUTF8]
    simp only [if_neg hc]
    rw [items_eq _ (by rw [length_append]; omega), ih fun c' hc' => h c' (mem_cons_of_mem c hc')]
    rfl

namespace Iter

/-- On the encoding of characters, `parse` reads the first one and leaves the encoding of the other ones. -/
theorem parse_encode (cs : List UInt16) (c : Nat) :
    (Iter.mk (encode cs) c).parse = some ⟨encode cs.tail, (cs.head?.map UInt16.toNat).getD 0⟩ := by
  cases cs with
  | nil => rfl
  | cons c' cs =>
    rw [parse, encode_cons, parse_toUTF8]
    rfl

theorem nexts_encode (n : Nat) (cs : List UInt16) (c : Nat) :
    (Iter.mk (encode cs) c).parse.bind (nexts n) =
      some ⟨encode (cs.drop (n + 1)), (cs[n]?.map UInt16.toNat).getD 0⟩ := by
  induction n generalizing cs c with
  | zero => rw [parse_encode, bind_some, nexts, head?_eq_getElem?, drop_one]
  | succ n ih =>
    rw [parse_encode, bind_some, nexts, next, ih, getElem?_tail, ← drop_one,
      drop_drop, Nat.add_comm 1]

end Iter

/-- The characters of 16 bits but zero that are written one after the other are read back: the iterator is on
each of them in turn, with the bytes of the following ones left, and it ends after the last byte. -/
theorem encode_round_trip (cs : List UInt16) (h : ∀ c ∈ cs, 0 < c.toNat) :
    chars (encode cs) = some (cs.map UInt16.toNat) ∧
      (∀ n, (Iter.new (encode cs)).bind (Iter.nexts n) =
        some ⟨encode (cs.drop (n + 1)), (cs[n]?.map UInt16.toNat).getD 0⟩) ∧
      ∀ n ≤ cs.length, ∃ i, (Iter.new (encode cs)).bind (Iter.nexts n) = some i ∧
        (i.ended = true ↔ n = cs.length) ∧ (n = cs.length → i.p = []) := by
  refine ⟨chars_encode fun c hc hzero => ?_, fun n => Iter.nexts_encode n cs 0, fun n hn => ?_⟩
  · have hpos := h c hc
    rw [hzero] at hpos
    exact absurd hpos (Nat.lt_irrefl 0)
  · refine ⟨_, Iter.nexts_encode n cs 0, ?_, ?_⟩
    · rw [Iter.ended, decide_eq_true_iff]
      rcases Nat.lt_or_eq_of_le hn with hlt | rfl
      · have hpos := h _ (getElem_mem hlt)
        rw [getElem?_eq_getElem hlt, map_some, getD_some]
        exact iff_of_false (Nat.ne_of_gt hpos) (Nat.ne_of_lt hlt)
      · simp
    · rintro rfl
      rw [drop_eq_nil_of_le (Nat.le_succ _)]
      rfl

/-- The characters at the bounds of the lengths. -/
theorem encode_round_trip_bounds :
    chars (encode [0x1, 0x7F, 0x80, 0x7FF, 0x800, 0xD800, 0xFFFF]) =
      some [0x1, 0x7F, 0x80, 0x7FF, 0x800, 0xD800, 0xFFFF] :=
  (encode_round_trip [0x1, 0x7F, 0x80, 0x7FF, 0x800, 0xD800, 0xFFFF] (by simp)).1

end Elm.Io.Utf8
