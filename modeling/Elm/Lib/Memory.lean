import Mathlib.Tactic

/-!
# Words in a memory of bytes

A memory gives the byte at each address.  `load` reads the number that a range of bytes holds, the
least significant byte first, and `store` writes it; a store only changes the bytes of its range.
-/

namespace Memory

/-- The number held by the `n` bytes from `a` on. -/
def load (m : Nat → UInt8) (a : Nat) : Nat → Nat
  | 0 => 0
  | n + 1 => (m a).toNat + 256 * load m (a + 1) n

/-- The number `v` written to the `n` bytes from `a` on. -/
def store (m : Nat → UInt8) (a n v : Nat) : Nat → UInt8 := fun x =>
  if a ≤ x ∧ x < a + n then UInt8.ofNat (v / 256 ^ (x - a)) else m x

variable {m m' : Nat → UInt8} {a n v : Nat}

/-- A load only depends on the bytes of its range. -/
theorem load_congr (h : ∀ x, a ≤ x → x < a + n → m' x = m x) : load m' a n = load m a n := by
  induction n generalizing a with
  | zero => rfl
  | succ n ih =>
    have hrest : load m' (a + 1) n = load m (a + 1) n :=
      ih fun x hlow hhigh => h x (by omega) (by omega)
    rw [load, load, h a le_rfl (by omega), hrest]

theorem store_of_mem {x : Nat} (hlow : a ≤ x) (hhigh : x < a + n) :
    store m a n v x = UInt8.ofNat (v / 256 ^ (x - a)) := if_pos ⟨hlow, hhigh⟩

theorem store_of_not_mem {x : Nat} (h : ¬ (a ≤ x ∧ x < a + n)) : store m a n v x = m x := if_neg h

/-- The digits of a number, in base 256, are read back as the number. -/
theorem load_digits (h : ∀ i < n, m (a + i) = UInt8.ofNat (v / 256 ^ i)) :
    load m a n = v % 256 ^ n := by
  induction n generalizing a v with
  | zero => rw [load, pow_zero, Nat.mod_one]
  | succ n ih =>
    have hrest : load m (a + 1) n = v / 256 % 256 ^ n := by
      refine ih fun i hi => ?_
      rw [Nat.add_assoc, Nat.add_comm 1 i, h (i + 1) (by omega), Nat.pow_succ', Nat.div_div_eq_div_mul]
    have hfirst : (m a).toNat = v % 256 := by
      have hzero := h 0 (by omega)
      rw [Nat.add_zero, pow_zero, Nat.div_one] at hzero
      rw [hzero, UInt8.toNat_ofNat']
    rw [load, hfirst, hrest, Nat.pow_succ', Nat.mod_mul]

theorem load_store : load (store m a n v) a n = v % 256 ^ n := by
  refine load_digits fun i hi => ?_
  rw [store_of_mem (by omega) (by omega), Nat.add_sub_cancel_left]

/-- A store does not change what is read in a range that it does not meet. -/
theorem load_store_of_apart {b k : Nat} (h : a + n ≤ b ∨ b + k ≤ a) :
    load (store m a n v) b k = load m b k := by
  refine load_congr fun x hlow hhigh => store_of_not_mem ?_
  omega

end Memory
