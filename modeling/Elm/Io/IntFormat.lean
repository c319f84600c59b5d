import Elm.Io.Scan

/-!
# `Output::print` on an `IntFormat`

The function of `src/io_Output.cpp` on the fields of `IntFormat` as they are stored.  The digits and the
signs are written backwards in a local buffer, from its 32nd character on; an access out of the buffer and
a division by zero have no result.
-/

namespace Elm.Io

open List Option

/-- `_size`. -/
inductive OperandSize
  | byte | half | word | double
  deriving DecidableEq

/-- The size in bits. -/
def OperandSize.bits : OperandSize → Nat
  | .byte => 8
  | .half => 16
  | .word => 32
  | .double => 64

/-- `IntFormat`, with its fields as they are stored. -/
structure StoredFormat where
  val : BitVec 64
  base : UInt8 := 10
  width : UInt8 := 0
  align : Alignment := .left
  upper : Bool := false
  sign : Bool
  displaySign : Bool := false
  pad : Char := ' '
  size : OperandSize

/-- The local buffer: what is free in front of `res`, and the characters from `res` on. -/
structure Buffer where
  room : Nat
  res : List Char

/-- `*--res = c`. -/
def Buffer.put (b : Buffer) (c : Char) : Option Buffer :=
  match b.room with
  | 0 => none
  | room + 1 => some ⟨room, c :: b.res⟩

/-- `*--res = c` under a condition. -/
def Buffer.putIf (b : Buffer) (cond : Bool) (c : Char) : Option Buffer :=
  if cond then b.put c else some b

/-- The `char` of a digit. -/
def digitByte (enc : Char) (digit : Nat) : Char :=
  if digit < 10 then Char.ofNat ('0'.toNat + digit) else Char.ofNat ((enc.toNat + digit - 10) % 256)

/-- The loop of `horner`, with the room that is left in the buffer. -/
def fill (base : Nat) (enc : Char) : Nat → Nat → List Char → Option Buffer
  | room, 0, res => some ⟨room, res⟩
  | 0, _ + 1, _ => none
  | room + 1, val + 1, res =>
    if base = 0 then none
    else fill base enc room ((val + 1) / base) (digitByte enc ((val + 1) % base) :: res)

/-- `horner`. -/
def Buffer.horner (b : Buffer) (val base : Nat) (enc : Char) : Option Buffer :=
  if val = 0 then b.put '0' else fill base enc b.room val b.res

namespace StoredFormat

/-- The value that `print` gives to `horner`. -/
def uval (fmt : StoredFormat) : Nat :=
  let uval := if fmt.sign && fmt.val.slt 0 then -fmt.val else fmt.val
  if !fmt.sign && fmt.size ≠ .double then uval.toNat % 2 ^ fmt.size.bits else uval.toNat

/-- The letter that stands for the digit ten. -/
def enc (fmt : StoredFormat) : Char := if fmt.upper then 'A' else 'a'

/-- The digits and the signs that `print` puts in its buffer. -/
def chars (fmt : StoredFormat) : Option Buffer :=
  ((Buffer.horner ⟨32, []⟩ fmt.uval fmt.base.toNat fmt.enc).bind fun b =>
    b.putIf (fmt.sign && fmt.val.slt 0) '-').bind fun b =>
      b.putIf (fmt.displaySign && BitVec.slt 0 fmt.val) '+'

/-- `lpad`, for a text of this size. -/
def lpad (fmt : StoredFormat) (size : Int) : Int :=
  if fmt.width = 0 then 0
  else match fmt.align with
    | .none | .left => 0
    | .right => fmt.width.toNat - size
    | .center => (fmt.width.toNat - size).tdiv 2

/-- `rpad`, for a text of this size. -/
def rpad (fmt : StoredFormat) (size : Int) : Int :=
  if fmt.width = 0 then 0
  else match fmt.align with
    | .none | .left => fmt.width.toNat - size
    | .right => 0
    | .center => fmt.width.toNat - size - fmt.lpad size

/-- `print`. -/
def print (fmt : StoredFormat) : Option (List Char) :=
  fmt.chars.map fun b =>
    let size : Int := b.res.length
    replicate (fmt.lpad size).toNat fmt.pad ++ b.res ++ replicate (fmt.rpad size).toNat fmt.pad

end StoredFormat

/-! ## What is to be printed -/

/-- The text with pads on the side that is asked for. -/
def Padded (align : Alignment) (width : Nat) (pad : Char) (text out : List Char) : Prop :=
  ∃ l r, out = replicate l pad ++ text ++ replicate r pad ∧ l + r = width - text.length ∧
    match align with
    | .none | .left => l = 0
    | .right => r = 0
    | .center => l ≤ r ∧ r ≤ l + 1

/-- The digits of a value, the first one first. -/
def digitsOf (base val : Nat) : List Nat := if val = 0 then [0] else (Nat.digits base val).reverse

namespace StoredFormat

/-- The value of the operand: an unsigned one has the bits of its size. -/
def value (fmt : StoredFormat) : Int :=
  if fmt.sign then fmt.val.toInt else (fmt.val.toNat % 2 ^ fmt.size.bits : Nat)

/-- The digits of the operand. -/
def digits (fmt : StoredFormat) : List Nat := digitsOf fmt.base.toNat fmt.value.natAbs

/-- The sign: of a negative value, and of a positive one if it is asked for. -/
def signText (fmt : StoredFormat) : List Char :=
  if fmt.value < 0 then ['-'] else if fmt.displaySign ∧ 0 < fmt.value then ['+'] else []

/-- The output is the sign and the digits of the operand with the pads. -/
structure Printed (fmt : StoredFormat) (out : List Char) : Prop where
  base : fmt.value = 0 ∨ 2 ≤ fmt.base.toNat
  letters : ∀ digit ∈ fmt.digits, digit < 36
  padded : Padded fmt.align fmt.width.toNat fmt.pad (fmt.signText ++ fmt.digits.map (digitChar fmt.enc)) out

/-- A pad that is a plus sign stands just in front of the digits, or takes the place of the sign. -/
def Hidden (fmt : StoredFormat) : Prop :=
  fmt.pad = '+' ∧ fmt.digits.length < fmt.width.toNat ∧
    (fmt.align = .right ∨ fmt.align = .center ∧ (fmt.width.toNat - fmt.digits.length) % 2 = 0)

/-- The number of characters that the code writes in its buffer. -/
def count (fmt : StoredFormat) : Nat :=
  fmt.digits.length + (fmt.sign && fmt.val.slt 0).toNat + (fmt.displaySign && BitVec.slt 0 fmt.val).toNat

/-- The formats that the buffer and the test of the sign are made for. -/
structure Fits (fmt : StoredFormat) : Prop where
  base : fmt.value = 0 ∨ 2 ≤ fmt.base.toNat
  letters : ∀ digit ∈ fmt.digits, digit < 36
  room : fmt.count ≤ 32
  plus : fmt.displaySign = true → (BitVec.slt 0 fmt.val = true ↔ 0 < fmt.value) ∨ fmt.Hidden

end StoredFormat

/-! ## The buffer -/

/-- The digits fill the buffer from its end, if they have the room. -/
theorem fill_eq {base : Nat} (hbase : 2 ≤ base) (enc : Char) (room val : Nat) (res : List Char) :
    fill base enc room val res =
      if (Nat.digits base val).length ≤ room then
        some ⟨room - (Nat.digits base val).length,
          (Nat.digits base val).reverse.map (digitByte enc) ++ res⟩
      else
        none := by
  induction room generalizing val res with
  | zero =>
    cases val with
    | zero => simp [fill]
    | succ val =>
      rw [Nat.digits_def' (by omega) (Nat.succ_pos val)]
      simp [fill]
  | succ room ih =>
    cases val with
    | zero => simp [fill]
    | succ val =>
      have hzero : base ≠ 0 := by omega
      rw [Nat.digits_def' (by omega) (Nat.succ_pos val), fill, if_neg hzero, ih]
      simp [Nat.add_sub_add_right]

theorem digitsOf_length_pos (base val : Nat) : 0 < (digitsOf base val).length := by
  unfold digitsOf
  split_ifs with hval
  · decide
  · rw [length_reverse, length_pos_iff]
    exact Nat.digits_ne_nil_iff_ne_zero.mpr hval

/-- `horner` writes the digits if they have the room. -/
theorem horner_eq {base val : Nat} (hbase : val = 0 ∨ 2 ≤ base) (enc : Char) (room : Nat) :
    Buffer.horner ⟨room, []⟩ val base enc =
      if (digitsOf base val).length ≤ room then
        some ⟨room - (digitsOf base val).length, (digitsOf base val).map (digitByte enc)⟩
      else
        none := by
  unfold Buffer.horner digitsOf
  by_cases hval : val = 0
  · rw [if_pos hval, if_pos hval]
    cases room with
    | zero => rfl
    | succ room => rfl
  · rw [if_neg hval, if_neg hval, fill_eq (hbase.resolve_left hval)]
    simp

theorem Buffer.putIf_eq (room : Nat) (res : List Char) (cond : Bool) (c : Char) :
    Buffer.putIf ⟨room, res⟩ cond c =
      if cond.toNat ≤ room then some ⟨room - cond.toNat, (if cond then [c] else []) ++ res⟩ else none := by
  cases cond with
  | false => rfl
  | true =>
    cases room with
    | zero => rfl
    | succ room => simp [putIf, put]

/-! ## The pads -/

/-- The room that is left is shared between the sides in one way. -/
theorem Padded.unique {align : Alignment} {width : Nat} {pad : Char} {text out out' : List Char}
    (h : Padded align width pad text out) (h' : Padded align width pad text out') : out = out' := by
  obtain ⟨l, r, rfl, hsum, hside⟩ := h
  obtain ⟨l', r', rfl, hsum', hside'⟩ := h'
  have hl : l = l' := by
    cases align with
    | none => exact hside.trans hside'.symm
    | left => exact hside.trans hside'.symm
    | right =>
      obtain rfl : r = 0 := hside
      obtain rfl : r' = 0 := hside'
      omega
    | center =>
      obtain ⟨hle, hge⟩ := hside
      obtain ⟨hle', hge'⟩ := hside'
      omega
  obtain rfl : r = r' := by omega
  rw [hl]

/-- A text with a plus sign in front and the same text without it can be padded to the same output: the
pad is a plus sign, just in front of the text. -/
theorem exists_padded_both {align : Alignment} {width : Nat} {pad : Char} {text : List Char}
    (hne : text ≠ []) (hhead : text.head? ≠ some '+') :
    (∃ out, Padded align width pad text out ∧ Padded align width pad ('+' :: text) out) ↔
      pad = '+' ∧ text.length < width ∧
        (align = .right ∨ align = .center ∧ (width - text.length) % 2 = 0) := by
  constructor
  · rintro ⟨out, ⟨l, r, rfl, hsum, hside⟩, l', r', heq, hsum', hside'⟩
    rw [length_cons] at hsum'
    have hlt : text.length < width := by
      have hlength := congrArg List.length heq
      simp only [length_append, length_replicate, length_cons] at hlength
      omega
    -- the text cannot start where the sign does
    have hshift : l ≠ l' := by
      rintro rfl
      rw [append_assoc, append_assoc, append_cancel_left_eq] at heq
      obtain ⟨c, cs, rfl⟩ := exists_cons_of_ne_nil hne
      exact hhead (congrArg some (List.cons.inj heq).1)
    have hpad : l = l' + 1 → pad = '+' := by
      rintro rfl
      rw [replicate_succ', append_assoc, append_assoc, append_assoc,
        append_cancel_left_eq] at heq
      exact (List.cons.inj heq).1
    cases align with
    | none => exact absurd (hside.trans hside'.symm) hshift
    | left => exact absurd (hside.trans hside'.symm) hshift
    | right =>
      obtain rfl : r = 0 := hside
      obtain rfl : r' = 0 := hside'
      exact ⟨hpad (by omega), hlt, Or.inl rfl⟩
    | center =>
      obtain ⟨hle, hge⟩ := hside
      obtain ⟨hle', hge'⟩ := hside'
      exact ⟨hpad (by omega), hlt, Or.inr ⟨rfl, by omega⟩⟩
  · rintro ⟨rfl, hlt, hside⟩
    have hmove : ∀ l r, replicate (l + 1) '+' ++ text ++ replicate r '+' =
        replicate l '+' ++ '+' :: text ++ replicate r '+' := by
      intro l r
      rw [replicate_succ']
      simp
    rcases hside with rfl | ⟨rfl, heven⟩
    · refine ⟨_, ⟨width - text.length - 1 + 1, 0, rfl, by omega, rfl⟩, width - text.length - 1, 0,
        hmove _ _, ?_, rfl⟩
      rw [length_cons]
      omega
    · refine ⟨_, ⟨(width - text.length) / 2 - 1 + 1, (width - text.length) / 2, rfl, by omega, by omega,
        by omega⟩, (width - text.length) / 2 - 1, (width - text.length) / 2, hmove _ _, ?_, by omega, by omega⟩
      rw [length_cons]
      omega

/-- Half of the room, none when the text is too long. -/
theorem toNat_tdiv (x : Int) :
    (x.tdiv 2).toNat = x.toNat / 2 ∧ (x - x.tdiv 2).toNat = x.toNat - x.toNat / 2 := by
  obtain ⟨n, rfl | rfl⟩ := x.eq_nat_or_neg
  · rw [Int.tdiv_eq_ediv_of_nonneg (by omega)]
    omega
  · rw [Int.neg_tdiv, Int.tdiv_eq_ediv_of_nonneg (by omega)]
    omega

namespace StoredFormat

variable (fmt : StoredFormat)

/-- The value given to `horner` is the magnitude of the operand. -/
theorem uval_eq : fmt.uval = fmt.value.natAbs := by
  unfold uval value
  cases hsign : fmt.sign with
  | true =>
    simp only [Bool.true_and, Bool.not_true, Bool.false_and, Bool.false_eq_true, if_false, if_true]
    exact toNat_magnitude fmt.val
  | false =>
    simp only [Bool.false_and, Bool.not_false, Bool.true_and, Bool.false_eq_true, if_false,
      Int.natAbs_natCast]
    by_cases hsize : fmt.size = .double
    · have hlt := fmt.val.isLt
      rw [hsize]
      simp only [ne_eq, not_true_eq_false, decide_false, Bool.false_eq_true, if_false]
      exact (Nat.mod_eq_of_lt hlt).symm
    · simp [hsize]

/-- The text that the code writes. -/
def written (fmt : StoredFormat) : List Char :=
  (if fmt.displaySign && BitVec.slt 0 fmt.val then ['+'] else []) ++
    ((if fmt.sign && fmt.val.slt 0 then ['-'] else []) ++ fmt.digits.map (digitByte fmt.enc))

theorem chars_eq (hbase : fmt.value = 0 ∨ 2 ≤ fmt.base.toNat) :
    fmt.chars = if fmt.count ≤ 32 then some ⟨32 - fmt.count, fmt.written⟩ else none := by
  have hbase' : fmt.uval = 0 ∨ 2 ≤ fmt.base.toNat := by
    rw [uval_eq, Int.natAbs_eq_zero]
    exact hbase
  have hdigits : digitsOf fmt.base.toNat fmt.uval = fmt.digits := by rw [uval_eq, digits]
  rw [chars, horner_eq hbase', hdigits]
  by_cases hlen : fmt.digits.length ≤ 32
  · rw [if_pos hlen, bind_some, Buffer.putIf_eq]
    by_cases hminus : (fmt.sign && fmt.val.slt 0).toNat ≤ 32 - fmt.digits.length
    · rw [if_pos hminus, bind_some, Buffer.putIf_eq]
      have hsub : 32 - fmt.digits.length - (fmt.sign && fmt.val.slt 0).toNat -
          (fmt.displaySign && BitVec.slt 0 fmt.val).toNat = 32 - fmt.count := by
        unfold count
        omega
      rw [hsub]
      by_cases hplus : fmt.count ≤ 32
      · rw [if_pos hplus, if_pos (by unfold count at hplus; omega)]
        rfl
      · rw [if_neg hplus, if_neg (by unfold count at hplus; omega)]
    · rw [if_neg hminus, if_neg (by unfold count; omega)]
      rfl
  · rw [if_neg hlen, if_neg (by unfold count; omega)]
    rfl

/-- The text that the code writes is padded on the side that is asked for. -/
theorem padded_pads (text : List Char) :
    Padded fmt.align fmt.width.toNat fmt.pad text
      (replicate (fmt.lpad text.length).toNat fmt.pad ++ text ++
        replicate (fmt.rpad text.length).toNat fmt.pad) := by
  refine ⟨_, _, rfl, ?_⟩
  unfold rpad lpad
  by_cases hwidth : fmt.width = 0
  · rw [if_pos hwidth, if_pos hwidth, hwidth]
    cases fmt.align <;> simp
  · rw [if_neg hwidth, if_neg hwidth]
    obtain ⟨hhalf, hrest⟩ := toNat_tdiv (fmt.width.toNat - text.length)
    cases fmt.align with
    | none => exact ⟨by simp, rfl⟩
    | left => exact ⟨by simp, rfl⟩
    | right => exact ⟨by simp, rfl⟩
    | center =>
      simp only [hhalf, hrest]
      omega

theorem print_eq {b : Buffer} (hchars : fmt.chars = some b) :
    ∃ out, fmt.print = some out ∧ Padded fmt.align fmt.width.toNat fmt.pad b.res out :=
  ⟨_, by rw [print, hchars, map_some], fmt.padded_pads b.res⟩

/-! ## The signs -/

theorem digitByte_eq {upper : Bool} : ∀ digit < 36,
    digitByte (if upper then 'A' else 'a') digit = digitChar (if upper then 'A' else 'a') digit ∧
      digitChar (if upper then 'A' else 'a') digit ≠ '+' := by
  cases upper <;> decide

/-- The characters of the digits, which are below 36. -/
theorem map_digitByte (hletters : ∀ digit ∈ fmt.digits, digit < 36) :
    fmt.digits.map (digitByte fmt.enc) = fmt.digits.map (digitChar fmt.enc) :=
  map_congr_left fun digit hdigit => (digitByte_eq digit (hletters digit hdigit)).1

theorem digits_length_pos : 0 < fmt.digits.length := digitsOf_length_pos _ _

theorem head_digits (hletters : ∀ digit ∈ fmt.digits, digit < 36) :
    (fmt.digits.map (digitChar fmt.enc)).head? ≠ some '+' := by
  have hpos := fmt.digits_length_pos
  cases hdigits : fmt.digits with
  | nil =>
    rw [hdigits] at hpos
    cases hpos
  | cons digit digits =>
    have hlt := hletters digit (by simp [hdigits])
    intro hhead
    exact (digitByte_eq digit hlt).2 (some.inj hhead)

/-- The minus sign is the one of the value. -/
theorem minus_iff : (fmt.sign && fmt.val.slt 0) = true ↔ fmt.value < 0 := by
  unfold value
  cases fmt.sign with
  | true => simp [BitVec.slt_eq_decide]
  | false =>
    simp only [Bool.false_and, Bool.false_eq_true, if_false, false_iff, not_lt]
    exact Int.natCast_nonneg _

/-- The test of the plus sign is wrong for unsigned operands only. -/
theorem plus_iff_of_sign (hsign : fmt.sign = true) : BitVec.slt 0 fmt.val = true ↔ 0 < fmt.value := by
  simp [value, hsign, BitVec.slt_eq_decide]

/-- Two texts that differ by the plus sign have the same output when the pads hide it. -/
theorem hidden_iff (hletters : ∀ digit ∈ fmt.digits, digit < 36) :
    (∃ out, Padded fmt.align fmt.width.toNat fmt.pad (fmt.digits.map (digitChar fmt.enc)) out ∧
      Padded fmt.align fmt.width.toNat fmt.pad ('+' :: fmt.digits.map (digitChar fmt.enc)) out) ↔
      fmt.Hidden := by
  have hne : fmt.digits.map (digitChar fmt.enc) ≠ [] := by
    rw [ne_eq, List.map_eq_nil_iff, ← length_eq_zero_iff]
    exact fmt.digits_length_pos.ne'
  rw [exists_padded_both hne (fmt.head_digits hletters), length_map, Hidden]

/-- What the code writes, with or without a plus sign, against what is to be printed. -/
theorem padded_text_iff (hletters : ∀ digit ∈ fmt.digits, digit < 36) {out : List Char}
    (hout : Padded fmt.align fmt.width.toNat fmt.pad fmt.written out) :
    Padded fmt.align fmt.width.toNat fmt.pad (fmt.signText ++ fmt.digits.map (digitChar fmt.enc)) out ↔
      (fmt.displaySign = true → (BitVec.slt 0 fmt.val = true ↔ 0 < fmt.value) ∨ fmt.Hidden) := by
  have hminus := fmt.minus_iff
  unfold written at hout
  rw [fmt.map_digitByte hletters] at hout
  unfold signText
  cases hshow : fmt.displaySign with
  | false =>
    simp only [hshow, Bool.false_and, Bool.false_eq_true, if_false, nil_append, hminus] at hout
    simpa using hout
  | true =>
    simp only [hshow, Bool.true_and, hminus] at hout
    simp only [true_and, forall_const]
    by_cases hsame : BitVec.slt 0 fmt.val = true ↔ 0 < fmt.value
    · refine iff_of_true ?_ (Or.inl hsame)
      simp only [hsame] at hout
      by_cases hneg : fmt.value < 0
      · rw [if_neg (by omega), if_pos hneg] at hout
        rw [if_pos hneg]
        exact hout
      · rw [if_neg hneg] at hout
        rw [if_neg hneg]
        exact hout
    · -- an unsigned operand, which has no minus sign
      have hsign : fmt.sign = false := by
        by_contra hsign
        exact hsame (fmt.plus_iff_of_sign (by simpa using hsign))
      have hneg : ¬ fmt.value < 0 := by
        rw [← hminus, hsign]
        simp
      rw [if_neg hneg] at hout ⊢
      rw [or_iff_right hsame, ← fmt.hidden_iff hletters]
      by_cases hpos : 0 < fmt.value
      · have hslt : ¬ BitVec.slt 0 fmt.val = true := fun h => hsame (iff_of_true h hpos)
        rw [if_neg hslt] at hout
        rw [if_pos hpos]
        constructor
        · exact fun h => ⟨out, hout, h⟩
        · rintro ⟨out', h, h'⟩
          exact (hout.unique h) ▸ h'
      · have hslt : BitVec.slt 0 fmt.val = true := by
          by_contra hslt
          exact hsame (iff_of_false hslt hpos)
        rw [if_pos hslt] at hout
        rw [if_neg hpos]
        constructor
        · exact fun h => ⟨out, h, hout⟩
        · rintro ⟨out', h, h'⟩
          exact (hout.unique h') ▸ h

/-- The output is right exactly for the formats that fit. -/
theorem print_iff : (∃ out, fmt.print = some out ∧ fmt.Printed out) ↔ fmt.Fits := by
  constructor
  · rintro ⟨out, hprint, hbase, hletters, hpadded⟩
    obtain ⟨b, hchars, -⟩ := map_eq_some_iff.mp hprint
    obtain ⟨out', hprint', hout⟩ := fmt.print_eq hchars
    obtain rfl := some.inj (hprint'.symm.trans hprint)
    rw [fmt.chars_eq hbase] at hchars
    split_ifs at hchars with hroom
    obtain rfl := some.inj hchars
    exact ⟨hbase, hletters, hroom, (fmt.padded_text_iff hletters hout).mp hpadded⟩
  · rintro ⟨hbase, hletters, hroom, hplus⟩
    have hchars := fmt.chars_eq hbase
    rw [if_pos hroom] at hchars
    obtain ⟨out, hprint, hout⟩ := fmt.print_eq hchars
    exact ⟨out, hprint, hbase, hletters, (fmt.padded_text_iff hletters hout).mpr hplus⟩

/-! ## Unbounded values -/

/-- All digits of 64 bits in base 2. -/
def binary : StoredFormat := { val := BitVec.ofNat 64 (2 ^ 63), base := 2, sign := false, size := .double }

/-- The 64 digits of an operand in base 2 do not fit in the buffer. -/
theorem not_print :
    ¬ ∀ fmt : StoredFormat, 2 ≤ fmt.base.toNat → fmt.base.toNat ≤ 36 →
      ∃ out, fmt.print = some out ∧ fmt.Printed out := by
  intro h
  obtain ⟨out, hprint, -⟩ := h binary (by decide) (by decide)
  have hnone : binary.print = none := by decide
  rw [hnone] at hprint
  cases hprint

end StoredFormat

end Elm.Io
