import Mathlib.Tactic

/-!
# Integers

Functions of `src/int.cpp` on unsigned integers.  The test of `mult` compares the word that is left of the product
with the operands.  It sees an overflow only when a multiple of the span of the word lies in the last step of the
product, seen as a sum of the larger operand, and it takes a product by zero for an overflow.  `leastUpperPowerOf2`
shifts an `int`, which leaves no power of 2 above the largest one of the type.
-/

namespace Elm.Util.Integer

open Nat

/-! ## `mult` -/

/-- `mult`: the word that is left of the product, and `over`. -/
def mult (w : Nat) (a b : BitVec w) : BitVec w × Bool :=
  let r := a * b
  (r, r < a || r < b)

/-- `mult` on `t::uint32`. -/
def mult32 : BitVec 32 → BitVec 32 → BitVec 32 × Bool := mult 32

/-- `mult` on `t::uint64`. -/
def mult64 : BitVec 64 → BitVec 64 → BitVec 64 × Bool := mult 64

section Mult

variable {w : Nat} {a b : BitVec w}

/-- The exact product is a value of the word. -/
def Fits (a b : BitVec w) : Prop := a.toNat * b.toNat < 2 ^ w

/-- What a checked multiplication promises. -/
structure Checked (a b : BitVec w) (res : BitVec w × Bool) : Prop where
  reported : res.2 = true ↔ ¬ Fits a b
  exact : res.2 = false → res.1.toNat = a.toNat * b.toNat

/-- A multiple of `d` in the last of the `m` steps that lead from 0 to `m * n`. -/
def Crosses (d m n : Nat) : Prop := ∃ k, (m - 1) * n < k * d ∧ k * d ≤ m * n

/-- The operands for which the test is right. -/
def Caught (a b : BitVec w) : Prop :=
  (a = 0 ∧ b = 0) ∨
    ((a ≠ 0 ∧ b ≠ 0) ∧ (Fits a b ∨ Crosses (2 ^ w) (min a.toNat b.toNat) (max a.toNat b.toNat)))

/-- The remainder of a product is below an operand when a multiple was crossed by the last step. -/
theorem mod_lt_iff_crosses {d m n : Nat} (hm : 0 < m) : m * n % d < n ↔ Crosses d m n := by
  have hlast : (m - 1) * n + n = m * n := by
    rw [← succ_mul, succ_eq_add_one, Nat.sub_add_cancel hm]
  have hdiv := div_add_mod' (m * n) d
  constructor
  · intro hlt
    exact ⟨m * n / d, by omega, by omega⟩
  · rintro ⟨k, hlow, hhigh⟩
    rcases Nat.eq_zero_or_pos d with rfl | hd
    · omega
    · -- the quotient is the last multiple, so it is not below `k`
      have hle : k ≤ m * n / d := (Nat.le_div_iff_mul_le hd).mpr hhigh
      have hmul := Nat.mul_le_mul_right d hle
      omega

theorem toNat_mult : (mult w a b).1.toNat = a.toNat * b.toNat % 2 ^ w := BitVec.toNat_mul a b

theorem over_iff : (mult w a b).2 = true ↔ a.toNat * b.toNat % 2 ^ w < max a.toNat b.toNat := by
  rw [lt_max_iff, ← BitVec.toNat_mul]
  simp [mult, BitVec.lt_def]

theorem toNat_pos (h : a ≠ 0) : 0 < a.toNat :=
  Nat.pos_of_ne_zero fun hzero => h (BitVec.eq_of_toNat_eq (by simpa using hzero))

/-- With an operand that is 0, the product is 0, and it is below the other operand. -/
theorem checked_of_zero (h : a = 0 ∨ b = 0) : Checked a b (mult w a b) ↔ a = 0 ∧ b = 0 := by
  have hprod : a.toNat * b.toNat = 0 := by
    rcases h with rfl | rfl <;> simp
  have hfits : Fits a b := by
    rw [Fits, hprod]
    positivity
  constructor
  · intro hchecked
    have hover : ¬ (mult w a b).2 = true := fun hover => hchecked.reported.mp hover hfits
    rw [over_iff, hprod, zero_mod] at hover
    have hmax : max a.toNat b.toNat = 0 := by omega
    rw [max_eq_zero_iff] at hmax
    exact ⟨BitVec.eq_of_toNat_eq (by simpa using hmax.1), BitVec.eq_of_toNat_eq (by simpa using hmax.2)⟩
  · rintro ⟨rfl, rfl⟩
    have hover : (mult w 0 0).2 = false := by simp [mult]
    refine ⟨?_, fun _ => by simp [toNat_mult]⟩
    rw [hover]
    simpa using hfits

/-- Without zero, a product that fits is not below an operand. -/
theorem checked_of_ne_zero (ha : a ≠ 0) (hb : b ≠ 0) : Checked a b (mult w a b) ↔
    Fits a b ∨ Crosses (2 ^ w) (min a.toNat b.toNat) (max a.toNat b.toNat) := by
  have hpos := toNat_pos ha
  have hpos' := toNat_pos hb
  have hover : (mult w a b).2 = true ↔ Crosses (2 ^ w) (min a.toNat b.toNat) (max a.toNat b.toNat) := by
    rw [over_iff, ← mod_lt_iff_crosses (by omega), min_mul_max]
  by_cases hfits : Fits a b
  · have hmax : max a.toNat b.toNat ≤ a.toNat * b.toNat :=
      max_le (Nat.le_mul_of_pos_right _ hpos') (Nat.le_mul_of_pos_left _ hpos)
    have hclear : ¬ (mult w a b).2 = true := by
      rw [over_iff, mod_eq_of_lt hfits]
      omega
    refine ⟨fun _ => Or.inl hfits, fun _ => ⟨?_, fun _ => ?_⟩⟩
    · exact iff_of_false hclear (not_not_intro hfits)
    · rw [toNat_mult, mod_eq_of_lt hfits]
  · constructor
    · intro hchecked
      exact Or.inr (hover.mp (hchecked.reported.mpr hfits))
    · rintro (hfits' | hcrosses)
      · exact absurd hfits' hfits
      · have hset := hover.mpr hcrosses
        refine ⟨iff_of_true hset hfits, fun hclear => ?_⟩
        rw [hset] at hclear
        cases hclear

theorem checked_iff : Checked a b (mult w a b) ↔ Caught a b := by
  unfold Caught
  by_cases hzero : a = 0 ∨ b = 0
  · rw [checked_of_zero hzero]
    tauto
  · obtain ⟨ha, hb⟩ := not_or.mp hzero
    rw [checked_of_ne_zero ha hb]
    tauto

end Mult

/-- The multiplications of both widths are right on the operands of `Caught`, and on no others. -/
theorem mult_checked_iff (a b : BitVec 32) (c d : BitVec 64) :
    (Checked a b (mult32 a b) ↔ Caught a b) ∧ (Checked c d (mult64 c d) ↔ Caught c d) :=
  ⟨checked_iff, checked_iff⟩

/-- An overflow that is not seen, and one that is not there. -/
theorem mult_not_checked :
    ¬ Checked 0x18000#32 0x18000#32 (mult32 0x18000#32 0x18000#32) ∧ ¬ Checked 0#64 1#64 (mult64 0#64 1#64) := by
  constructor
  · intro h
    have hexact := h.exact (by decide)
    revert hexact
    decide
  · intro h
    have hover := h.reported.mp (by decide)
    exact hover (by decide : (0#64).toNat * (1#64).toNat < 2 ^ 64)

/-! ## `msb` and `leastUpperPowerOf2` -/

/-- The table of `msb`. -/
def tab : List Int :=
  [-1, 0, 1, 1, 2, 2, 2, 2, 3, 3, 3, 3, 3, 3, 3, 3] ++
    [4, 5, 5, 6, 6, 6, 6, 7, 7, 7, 7, 7, 7, 7, 7].flatMap (List.replicate 16)

/-- `msb`. -/
def msb (i : BitVec 32) : Int :=
  let m := i >>> 16
  if m ≠ 0 then
    let n := m >>> 8
    if n ≠ 0 then tab.getD n.toNat 0 + 24 else tab.getD m.toNat 0 + 16
  else
    let n := i >>> 8
    if n ≠ 0 then tab.getD n.toNat 0 + 8 else tab.getD i.toNat 0

/-- `leastUpperPowerOf2`; an `int` has no shift by its width. -/
def leastUpperPowerOf2 (v : BitVec 32) : Option (BitVec 32) :=
  let m := msb v
  if m < 0 then some 0
  else if v = 1#32 <<< m.toNat then some v
  else if m + 1 < 32 then some (1#32 <<< (m + 1).toNat)
  else none

/-- The position of the left-most one of `n`. -/
def LeftMost (n k : Nat) : Prop := 2 ^ k ≤ n ∧ n < 2 ^ (k + 1)

/-- The position in a number is the one in its quotient, moved by the bits left out. -/
theorem LeftMost.of_div {n k j : Nat} (h : LeftMost (n / 2 ^ j) k) : LeftMost n (k + j) := by
  have hpos : 0 < 2 ^ j := by positivity
  refine ⟨?_, ?_⟩
  · rw [pow_add]
    exact (Nat.le_div_iff_mul_le hpos).mp h.1
  · rw [Nat.add_right_comm, pow_add]
    exact (Nat.div_lt_iff_lt_mul hpos).mp h.2

theorem tab_spec : ∀ n < 256, 0 < n → tab.getD n 0 = ((tab.getD n 0).toNat : Int) ∧
    2 ^ (tab.getD n 0).toNat ≤ n ∧ n < 2 ^ ((tab.getD n 0).toNat + 1) := by
  decide +kernel

/-- An entry of the table is the position in the bits that it is looked up with. -/
theorem leftMost_of_tab {n j : Nat} (hlt : n / 2 ^ j < 256) (hpos : 0 < n / 2 ^ j) :
    ∃ k : Nat, tab.getD (n / 2 ^ j) 0 + j = (k : Int) ∧ LeftMost n k := by
  obtain ⟨htab, hlow, hhigh⟩ := tab_spec _ hlt hpos
  refine ⟨(tab.getD (n / 2 ^ j) 0).toNat + j, ?_, LeftMost.of_div ⟨hlow, hhigh⟩⟩
  rw [cast_add, ← htab]

theorem msb_spec {i : BitVec 32} (hi : i ≠ 0) : ∃ k : Nat, msb i = (k : Int) ∧ LeftMost i.toNat k := by
  have hpos := toNat_pos hi
  have hlt := i.isLt
  have htwice : (i >>> 16) >>> 8 = i >>> 24 := (BitVec.shiftRight_add i 16 8).symm
  have hshift : ∀ j, (i >>> j).toNat = i.toNat / 2 ^ j := fun j => by
    rw [BitVec.toNat_ushiftRight, shiftRight_eq_div_pow]
  have hzero : ∀ j, i >>> j = 0 ↔ i.toNat / 2 ^ j = 0 := fun j => by
    rw [← hshift, ← BitVec.toNat_inj, BitVec.ofNat_eq_ofNat, BitVec.toNat_ofNat, zero_mod]
  unfold msb
  simp only [ne_eq, ite_not, htwice]
  split_ifs with h₁₆ h₈ h₂₄ <;> rw [hzero] at *
  · have hsmall := leftMost_of_tab (n := i.toNat) (j := 0) (by omega) (by omega)
    simpa using hsmall
  · rw [hshift]
    exact leftMost_of_tab (by omega) (by omega)
  · rw [hshift]
    exact leftMost_of_tab (by omega) (by omega)
  · rw [hshift]
    exact leftMost_of_tab (by omega) (by omega)

/-- The power of 2 is the least one that is not below the number, as far as an `int` can be shifted. -/
theorem leastUpperPowerOf2_spec {v : BitVec 32} (hv : v ≠ 0) :
    (v.toNat ≤ 2 ^ 31 → ∃ r k, leastUpperPowerOf2 v = some r ∧ r.toNat = 2 ^ k ∧ v.toNat ≤ 2 ^ k ∧
      2 ^ k < 2 * v.toNat) ∧ (2 ^ 31 < v.toNat → leastUpperPowerOf2 v = none) := by
  obtain ⟨k, hmsb, hlow, hhigh⟩ := msb_spec hv
  have hlt := v.isLt
  have hk : k < 32 := (Nat.pow_lt_pow_iff_right (by decide : 1 < 2)).mp (hlow.trans_lt hlt)
  have hshift : ∀ j < 32, (1#32 <<< j).toNat = 2 ^ j := by decide
  have heq : v = 1#32 <<< k ↔ v.toNat = 2 ^ k := by rw [← hshift k hk, BitVec.toNat_inj]
  unfold leastUpperPowerOf2
  simp only [hmsb, Int.natCast_nonneg, not_lt_of_ge, if_false, Int.toNat_natCast, heq]
  by_cases hpower : v.toNat = 2 ^ k
  · rw [if_pos hpower]
    refine ⟨fun _ => ⟨v, k, rfl, hpower, hpower.le, by omega⟩, fun hover => ?_⟩
    -- a power of 2 that a word holds is not above the largest one
    have hle : 2 ^ k ≤ 2 ^ 31 := Nat.pow_le_pow_right (by decide) (by omega)
    omega
  · rw [if_neg hpower]
    have hpow : 2 ^ (k + 1) = 2 * 2 ^ k := Nat.pow_succ'
    constructor
    · intro hle
      have hk' : k < 31 := (Nat.pow_lt_pow_iff_right (by decide : 1 < 2)).mp (by omega)
      rw [if_pos (by omega)]
      refine ⟨_, k + 1, rfl, ?_, hhigh.le, by omega⟩
      exact hshift (k + 1) (by omega)
    · intro hover
      have hk' : 31 ≤ k := by
        by_contra hbelow
        have hle : 2 ^ (k + 1) ≤ 2 ^ 31 := Nat.pow_le_pow_right (by decide) (by omega)
        omega
      rw [if_neg (by omega)]

end Elm.Util.Integer
