import Mathlib.Tactic

/-!
# `io::Output`

The text of an integer, of `src/io_Output.cpp`.
-/

namespace Elm.Io

/-- The character of a digit; `enc` stands for the digit ten. -/
def digitChar (enc : Char) (digit : Nat) : Char :=
  if digit < 10 then Char.ofNat ('0'.toNat + digit) else Char.ofNat (enc.toNat + digit - 10)

/-- The loop of `horner`, on `val` and the characters from `p` on. -/
def hornerLoop (base : Nat) (enc : Char) (val : Nat) (p : List Char) : List Char :=
  if 2 ≤ base ∧ val ≠ 0 then hornerLoop base enc (val / base) (digitChar enc (val % base) :: p) else p
termination_by val
decreasing_by
  rename_i hval
  exact Nat.div_lt_self (Nat.pos_of_ne_zero hval.2) hval.1

/-- `Output::horner`. -/
def horner (val base : Nat) (enc : Char) : List Char :=
  if val = 0 then ['0'] else hornerLoop base enc val []

/-- `alignment_t`. -/
inductive Alignment
  | none | left | center | right
  deriving DecidableEq

/-- `IntFormat`; `val` is the value before it is stored in 64 bits. -/
structure IntFormat where
  val : Int
  base : Nat := 10
  width : Nat := 0
  align : Alignment := .left
  upper : Bool := false
  sign : Bool
  displaySign : Bool := false
  pad : Char := ' '
  size : Nat

/-- `hex`. -/
def IntFormat.hex (fmt : IntFormat) : IntFormat := { fmt with base := 16, sign := false }

/-- The value that `print` gives to `horner`. -/
def IntFormat.uval (fmt : IntFormat) : Nat :=
  let uval := ((if fmt.sign ∧ fmt.val < 0 then -fmt.val else fmt.val) % 2 ^ 64).toNat
  if ¬ fmt.sign ∧ fmt.size ≠ 8 then uval % 2 ^ (8 * fmt.size) else uval

/-- The digits and the signs that `print` puts in its buffer. -/
def IntFormat.digits (fmt : IntFormat) : List Char :=
  let res := horner fmt.uval fmt.base (if fmt.upper then 'A' else 'a')
  let res := if fmt.sign ∧ fmt.val < 0 then '-' :: res else res
  if fmt.displaySign ∧ fmt.val > 0 then '+' :: res else res

/-- `Output::print`, on an `IntFormat`. -/
def IntFormat.print (fmt : IntFormat) : List Char :=
  let res := fmt.digits
  let room := fmt.width - res.length
  let lpad := if fmt.width = 0 then 0 else match fmt.align with
    | .none | .left => 0
    | .center => room / 2
    | .right => room
  let rpad := if fmt.width = 0 then 0 else match fmt.align with
    | .none | .left => room
    | .center => room - lpad
    | .right => 0
  List.replicate lpad fmt.pad ++ res ++ List.replicate rpad fmt.pad

/-- `Output::print`, on a signed integer of `w` bits: the magnitude is computed in `w` bits. -/
def printSigned {w : Nat} (value : BitVec w) : List Char :=
  let neg := value.slt 0
  let uval := if neg then -value else value
  let p := horner uval.toNat 10 'a'
  if neg then '-' :: p else p

/-! ## The digits -/

theorem hornerLoop_append (base : Nat) (enc : Char) (val : Nat) (p : List Char) :
    hornerLoop base enc val p = hornerLoop base enc val [] ++ p := by
  induction val using Nat.strong_induction_on generalizing p with
  | _ val ih =>
    rw [hornerLoop, hornerLoop.eq_def base enc val []]
    split_ifs with hval
    · have hlt : val / base < val := Nat.div_lt_self (Nat.pos_of_ne_zero hval.2) hval.1
      rw [ih _ hlt, ih _ hlt [digitChar enc (val % base)], List.append_assoc]
      rfl
    · rfl

/-- The last digit is the remainder. -/
theorem hornerLoop_step {base : Nat} (hbase : 2 ≤ base) (enc : Char) {val : Nat} (hval : val ≠ 0) :
    hornerLoop base enc val [] = hornerLoop base enc (val / base) [] ++ [digitChar enc (val % base)] := by
  rw [hornerLoop, if_pos ⟨hbase, hval⟩, hornerLoop_append]

theorem hornerLoop_zero (base : Nat) (enc : Char) (p : List Char) : hornerLoop base enc 0 p = p := by
  rw [hornerLoop, if_neg (by simp)]

/-- A property of the digits. -/
theorem horner_forall {base : Nat} (hbase : 2 ≤ base) (enc : Char) {P : Char → Prop}
    (hP : ∀ digit < base, P (digitChar enc digit)) (val : Nat) : ∀ c ∈ horner val base enc, P c := by
  have hloop : ∀ c ∈ hornerLoop base enc val [], P c := by
    induction val using Nat.strong_induction_on with
    | _ val ih =>
      by_cases hval : val = 0
      · rw [hval, hornerLoop_zero]
        simp
      · rw [hornerLoop_step hbase enc hval]
        intro c hc
        rcases List.mem_append.mp hc with hc | hc
        · exact ih _ (Nat.div_lt_self (Nat.pos_of_ne_zero hval) hbase) c hc
        · obtain rfl := List.mem_singleton.mp hc
          exact hP _ (Nat.mod_lt _ (by omega))
  unfold horner
  split_ifs
  · intro c hc
    obtain rfl := List.mem_singleton.mp hc
    exact hP 0 (by omega)
  · exact hloop

/-- Only zero starts with the digit zero. -/
theorem horner_head {base : Nat} (hbase : 2 ≤ base) (enc : Char)
    (henc : ∀ digit < base, digit ≠ 0 → digitChar enc digit ≠ '0') {val : Nat} (hval : val ≠ 0) :
    ∃ c cs, horner val base enc = c :: cs ∧ c ≠ '0' := by
  rw [horner, if_neg hval]
  induction val using Nat.strong_induction_on with
  | _ val ih =>
    rw [hornerLoop_step hbase enc hval]
    by_cases hdiv : val / base = 0
    · have hlt : val < base := by
        rcases Nat.div_eq_zero_iff.mp hdiv with hzero | hlt
        · omega
        · exact hlt
      rw [hdiv, hornerLoop_zero, Nat.mod_eq_of_lt hlt]
      exact ⟨_, [], rfl, henc val hlt hval⟩
    · obtain ⟨c, cs, hcons, hc⟩ := ih _ (Nat.div_lt_self (Nat.pos_of_ne_zero hval) hbase) hdiv
      rw [hcons]
      exact ⟨c, _, rfl, hc⟩

end Elm.Io
