import Elm.Io.Input
import Elm.Io.Output

/-!
# The integers of `io::Input`

The scanners of `src/io_Input.cpp` with all that they leave: the text that is not consumed and the state of the
input.  The functions on 32 bits and on 64 bits are the same ones, but for the test of overflow, which
compares the new value with the last 32 bits of the former one.
-/

namespace Elm.Io

open List

/-- `Input`: the characters to get, with the one that was pushed back, and the flags of `state`. -/
structure Input where
  text : List Char
  ended : Bool := false
  failed : Bool := false
  deriving DecidableEq

namespace Input

/-- `get`, on a stream that does not fail; `none` stands for `ENDED`. -/
def get (s : Input) : Option Char × Input :=
  match s.text with
  | [] => (none, { s with ended := true })
  | chr :: text => (some chr, { s with text })

/-- `skip`: the first character that is no space. -/
def skip (s : Input) : Option Char × Input := get { s with text := Io.skip s.text }

/-- `back`. -/
def back (s : Input) (chr : Char) : Input := { s with text := chr :: s.text }

/-- `state |= FAILED`. -/
def fail (s : Input) : Input := { s with failed := true }

/-- The loop of `scanULong` and of `scanULLong`, on the text from the character `chr` on. -/
def scanDigits (w base : Nat) (s : Input) : List Char → Nat → Bool → Nat × Input
  | [], val, one =>
    let s := { s with text := [], ended := true }
    (val, if one then s else s.fail)
  | chr :: text, val, one =>
    match testBase chr base with
    | none =>
      let s := { s with text }.back chr
      (val, if one then s else s.fail)
    | some digit =>
      let old := val % 2 ^ 32
      let val := (val * base + digit) % 2 ^ w
      if val < old then (0, { s with text }.fail) else scanDigits w base s text val true

/-- `scanULong` and `scanULLong`; the base 0 stands for the base that the prefix gives. -/
def scanUnsigned (s : Input) (w base : Nat) : Nat × Input :=
  match base, Io.skip s.text with
  | 0, '0' :: chr :: text =>
    if chr = 'x' ∨ chr = 'X' then scanDigits w 16 s text 0 false
    else if chr = 'b' ∨ chr = 'B' then scanDigits w 2 s text 0 false
    else scanDigits w 8 s (chr :: text) 0 true
  | 0, ['0'] => scanDigits w 8 s [] 0 true
  | 0, text => scanDigits w 10 s text 0 false
  | base, text => scanDigits w base s text 0 false

/-- The value of `scanLong` and of `scanLLong`, from the magnitude. -/
def signed (w : Nat) (neg : Bool) (r : Nat × Input) : Int × Input :=
  if r.1 ≥ 2 ^ (w - 1) then (0, r.2.fail)
  else (if neg then -(r.1 : Int) else r.1, r.2)

/-- `scanLong` and `scanLLong`. -/
def scanSigned (s : Input) (w base : Nat) : Int × Input :=
  match s.skip with
  | (none, s) => (0, s.fail)
  | (some chr, s) =>
    if chr = '-' then signed w true (s.scanUnsigned w base)
    else if chr = '+' then signed w false (s.scanUnsigned w base)
    else signed w false ((s.back chr).scanUnsigned w base)

/-- `scanLong`. -/
def scanLong (s : Input) (base : Nat) : Int × Input := s.scanSigned 32 base

/-- `scanLLong`. -/
def scanLLong (s : Input) (base : Nat) : Int × Input := s.scanSigned 64 base

/-! ## The digits that are printed -/

theorem testBase_digitChar : ∀ digit < 10, testBase (digitChar 'a' digit) 10 = some digit := by
  decide

theorem scanDigits_cons {w digit : Nat} (hdigit : digit < 10) (s : Input) (text : List Char) {val : Nat}
    (one : Bool) (hval : val * 10 + digit < 2 ^ w) :
    scanDigits w 10 s (digitChar 'a' digit :: text) val one =
      scanDigits w 10 s text (val * 10 + digit) true := by
  have hmod : (val * 10 + digit) % 2 ^ w = val * 10 + digit := Nat.mod_eq_of_lt hval
  -- a sum that does not wrap passes the test
  have hle : ¬ val * 10 + digit < val % 2 ^ 32 := by
    have := Nat.mod_le val (2 ^ 32)
    omega
  rw [scanDigits, testBase_digitChar digit hdigit]
  simp only [hmod, if_neg hle]

/-- The digits of a value that fits are read as this value. -/
theorem scanDigits_hornerLoop {w : Nat} (s : Input) (text : List Char) (one : Bool) {val : Nat}
    (hval : val < 2 ^ w) :
    scanDigits w 10 s (hornerLoop 10 'a' val [] ++ text) 0 one =
      scanDigits w 10 s text val (one || val ≠ 0) := by
  induction val using Nat.strong_induction_on generalizing text with
  | _ val ih =>
    by_cases hzero : val = 0
    · subst hzero
      rw [hornerLoop_zero, nil_append]
      simp
    · have hlt : val / 10 < val := Nat.div_lt_self (Nat.pos_of_ne_zero hzero) (by decide)
      have hsplit : val / 10 * 10 + val % 10 = val := Nat.div_add_mod' val 10
      rw [hornerLoop_step (by decide) 'a' hzero, append_assoc, singleton_append,
        ih _ hlt _ (hlt.trans hval),
        scanDigits_cons (Nat.mod_lt _ (by decide)) _ _ _ (by rwa [hsplit]), hsplit]
      simp [hzero]

theorem scanDigits_horner {w : Nat} (s : Input) (text : List Char) {val : Nat} (hval : val < 2 ^ w) :
    scanDigits w 10 s (horner val 10 'a' ++ text) 0 false = scanDigits w 10 s text val true := by
  unfold horner
  split_ifs with hzero
  · subst hzero
    exact @scanDigits_cons w 0 (by decide) s text 0 false hval
  · rw [scanDigits_hornerLoop s text false hval]
    simp [hzero]

/-- The digits are neither spaces nor signs. -/
theorem horner_not_space (val : Nat) :
    ∀ c ∈ horner val 10 'a', isSpace c = false ∧ c ≠ '-' ∧ c ≠ '+' :=
  horner_forall (by decide) 'a' (by decide) val

theorem horner_ne_nil (val : Nat) : horner val 10 'a' ≠ [] := by
  by_cases hzero : val = 0
  · simp [horner, hzero]
  · obtain ⟨c, cs, hcons, -⟩ := @horner_head 10 (by decide) 'a' (by decide) val hzero
    rw [hcons]
    exact cons_ne_nil c cs

theorem skip_horner (val : Nat) (text : List Char) :
    Io.skip (horner val 10 'a' ++ text) = horner val 10 'a' ++ text := by
  cases hhorner : horner val 10 'a' with
  | nil => exact absurd hhorner (horner_ne_nil val)
  | cons c cs =>
    have hspace := (horner_not_space val c (by rw [hhorner]; exact mem_cons_self)).1
    rw [Io.skip, cons_append, dropWhile_cons_of_neg (by rw [hspace]; decide)]

/-- The state of an input that has read everything without a failure. -/
def atEnd (s : Input) : Input := { s with text := [], ended := true }

/-- The digits of a value that fits, at the end of the text. -/
theorem scanUnsigned_horner {w : Nat} (s : Input) {val : Nat} (hval : val < 2 ^ w) :
    scanUnsigned { s with text := horner val 10 'a' } w 10 = (val, s.atEnd) := by
  have hskip := skip_horner val []
  have hscan := scanDigits_horner { s with text := horner val 10 'a' } [] hval
  rw [append_nil] at hskip hscan
  unfold scanUnsigned
  simp only [hskip, hscan]
  rfl

end Input

/-! ## Round trip -/

section RoundTrip

variable {w : Nat} (v : BitVec w)

/-- The value that `print` gives to `horner`. -/
theorem toNat_magnitude : (if v.slt 0 then -v else v).toNat = v.toInt.natAbs := by
  by_cases hneg : v.slt 0 = true
  · have hmsb : v.msb = true := BitVec.slt_zero_iff_msb_cond.mp hneg
    rw [if_pos hneg, BitVec.toInt_eq_neg_toNat_neg_of_msb_true hmsb, Int.natAbs_neg, Int.natAbs_natCast]
  · have hmsb : v.msb = false := by
      rw [← BitVec.slt_zero_eq_msb]
      simpa using hneg
    rw [if_neg hneg, BitVec.toInt_eq_toNat_of_msb hmsb, Int.natAbs_natCast]

theorem printSigned_eq :
    printSigned v =
      if v.slt 0 then '-' :: horner v.toInt.natAbs 10 'a' else horner v.toInt.natAbs 10 'a' := by
  rw [← toNat_magnitude]
  rfl

/-- The minimal value is the only one whose magnitude does not fit. -/
theorem natAbs_lt_iff (hw : 0 < w) : v.toInt.natAbs < 2 ^ (w - 1) ↔ v ≠ BitVec.intMin w := by
  have hlo := BitVec.le_toInt v
  have hhi := @BitVec.toInt_lt w v
  have hmin : v = BitVec.intMin w ↔ v.toInt = -2 ^ (w - 1) := by
    rw [← BitVec.toInt_inj, BitVec.toInt_intMin_of_pos hw]
  rw [ne_eq, hmin]
  have hcast : ((2 ^ (w - 1) : Nat) : Int) = 2 ^ (w - 1) := by norm_cast
  omega

theorem natAbs_lt (hw : 0 < w) : v.toInt.natAbs < 2 ^ w := by
  have hlo := BitVec.le_toInt v
  have hhi := @BitVec.toInt_lt w v
  have hcast : ((2 ^ (w - 1) : Nat) : Int) = 2 ^ (w - 1) := by norm_cast
  have hdouble : 2 ^ w = 2 * 2 ^ (w - 1) := by rw [← pow_succ', Nat.sub_add_cancel hw]
  have hpos : 0 < 2 ^ (w - 1) := Nat.two_pow_pos (w - 1)
  omega

/-- The magnitude and the sign, put together again. -/
theorem signed_natAbs (hw : 0 < w) (s : Input) :
    Input.signed w (v.slt 0) (v.toInt.natAbs, s) =
      if v = BitVec.intMin w then (0, s.fail) else (v.toInt, s) := by
  have hlt := natAbs_lt_iff v hw
  have hsign : v.slt 0 = decide (v.toInt < 0) := by
    rw [BitVec.slt_eq_decide, BitVec.ofNat_eq_ofNat, BitVec.toInt_zero]
  unfold Input.signed
  by_cases hmin : v = BitVec.intMin w
  · have hge : v.toInt.natAbs ≥ 2 ^ (w - 1) := not_lt.mp fun h => hlt.mp h hmin
    rw [if_pos hge, if_pos hmin]
  · have hge : ¬ v.toInt.natAbs ≥ 2 ^ (w - 1) := not_le.mpr (hlt.mpr hmin)
    rw [if_neg hge, if_neg hmin, hsign]
    simp only [decide_eq_true_eq]
    split_ifs <;> congr 1 <;> omega

/-- The scan of what is printed gives the value back, unless its magnitude is refused. -/
theorem scanSigned_printSigned (hw : 0 < w) :
    Input.scanSigned { text := printSigned v } w 10 =
      if v = BitVec.intMin w then (0, { text := [], ended := true, failed := true })
      else (v.toInt, { text := [], ended := true, failed := false }) := by
  have hunsigned := Input.scanUnsigned_horner { text := [] } (natAbs_lt v hw)
  have hsigned := signed_natAbs v hw { text := [], ended := true }
  rw [printSigned_eq]
  unfold Input.scanSigned Input.skip
  by_cases hneg : v.slt 0 = true
  · rw [hneg] at hsigned
    have hskip : Io.skip ('-' :: horner v.toInt.natAbs 10 'a') = '-' :: horner v.toInt.natAbs 10 'a' := rfl
    simp only [if_pos hneg, hskip, Input.get, hunsigned]
    exact hsigned
  · rw [Bool.not_eq_true] at hneg
    have hskip := Input.skip_horner v.toInt.natAbs []
    rw [append_nil] at hskip
    rw [hneg] at hsigned
    simp only [hneg, Bool.false_eq_true, if_false, hskip]
    cases hhorner : horner v.toInt.natAbs 10 'a' with
    | nil => exact absurd hhorner (Input.horner_ne_nil _)
    | cons c cs =>
      obtain ⟨-, hminus, hplus⟩ := Input.horner_not_space v.toInt.natAbs c (by
        rw [hhorner]
        exact mem_cons_self)
      rw [hhorner] at hunsigned
      simp only [Input.get, if_neg hminus, if_neg hplus, Input.back, hunsigned]
      exact hsigned

end RoundTrip

/-- A scan succeeds and returns a value. -/
def Returns (r : Int × Input) (v : Int) : Prop := r.1 = v ∧ r.2.failed = false

instance (r : Int × Input) (v : Int) : Decidable (Returns r v) := inferInstanceAs (Decidable (_ ∧ _))

theorem returns_scanSigned_iff {w : Nat} (hw : 0 < w) (v : BitVec w) :
    Returns (Input.scanSigned { text := printSigned v } w 10) v.toInt ↔ v ≠ BitVec.intMin w := by
  rw [scanSigned_printSigned v hw]
  split_ifs with hmin
  · exact iff_of_false (fun h => by cases h.2) (not_not.mpr hmin)
  · exact iff_of_true ⟨rfl, rfl⟩ hmin

/-- A signed integer that is printed is scanned back exactly if it is not the minimal value of its type. -/
theorem scan_print_iff (v : BitVec 32) (w : BitVec 64) :
    (Returns (Input.scanLong { text := printSigned v } 10) v.toInt ↔ v ≠ BitVec.intMin 32) ∧
    (Returns (Input.scanLLong { text := printSigned w } 10) w.toInt ↔ w ≠ BitVec.intMin 64) :=
  ⟨returns_scanSigned_iff (by decide) v, returns_scanSigned_iff (by decide) w⟩

/-- The minimal values are refused. -/
theorem not_scan_print :
    (¬ ∀ v : BitVec 32, Returns (Input.scanLong { text := printSigned v } 10) v.toInt) ∧
    ¬ ∀ v : BitVec 64, Returns (Input.scanLLong { text := printSigned v } 10) v.toInt := by
  constructor
  · exact fun h => (returns_scanSigned_iff (by decide) (BitVec.intMin 32)).mp (h _) rfl
  · exact fun h => (returns_scanSigned_iff (by decide) (BitVec.intMin 64)).mp (h _) rfl

end Elm.Io
