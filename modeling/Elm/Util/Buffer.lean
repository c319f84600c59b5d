import Mathlib.Tactic

/-!
# `Buffer`

The class of `include/elm/util/Buffer.h`, whose accesses are checked.  The check lets the index equal to the size
pass, the last position of a range is computed with numbers that wrap, and a copy has the length of the buffer, as an
`int`, whatever the length of the range.
-/

namespace Elm.Util

/-- `BufferException`. -/
structure BufferException where
  deriving DecidableEq

/-- `Buffer`: `_size`, and the bytes of the memory from `_buf` on. -/
structure Buffer where
  size : BitVec 64
  buf : Nat → UInt8

/-- An access: the `count` bytes from the position `first` on are touched. -/
structure Access (α : Type*) where
  first : Nat
  count : Nat
  result : α

/-- The access touches the byte at the position `x` of the buffer. -/
def Access.Touches {α : Type*} (acc : Access α) (x : Nat) : Prop := acc.first ≤ x ∧ x < acc.first + acc.count

/-- The bytes of `m`, but the `count` bytes from `first` on, which are those of `p`. -/
def patch (m p : Nat → UInt8) (first count : Nat) : Nat → UInt8 := fun x =>
  if first ≤ x ∧ x < first + count then p (x - first) else m x

namespace Buffer

variable {α : Type*}

/-- `check`. -/
def check (b : Buffer) (i : BitVec 64) : Except BufferException Unit :=
  if i > b.size then .error ⟨⟩ else .ok ()

/-- The number of bytes that `array::copy` gives to `memcpy`: its parameter is an `int`. -/
def copied (size : BitVec 64) : Nat := ((size.setWidth 32).signExtend 64).toNat

/-- `operator[]`. -/
def get (b : Buffer) (i : BitVec 64) : Except BufferException (Access UInt8) :=
  (b.check i).map fun _ => ⟨i.toNat, 1, b.buf i.toNat⟩

/-- `copyTo`, to the memory `p`. -/
def copyTo (b : Buffer) (p : Nat → UInt8) (size offset : BitVec 64) :
    Except BufferException (Access (Nat → UInt8)) :=
  (b.check (offset + size - 1)).map fun _ =>
    ⟨offset.toNat, copied b.size, patch p (fun k => b.buf (offset.toNat + k)) 0 (copied b.size)⟩

/-- `copyFrom`, from the memory `p`. -/
def copyFrom (b : Buffer) (p : Nat → UInt8) (size offset : BitVec 64) : Except BufferException (Access Buffer) :=
  (b.check (offset + size - 1)).map fun _ =>
    ⟨offset.toNat, copied b.size, { b with buf := patch b.buf p offset.toNat (copied b.size) }⟩

/-- `read`, with a function that reads the bytes that it is given. -/
def read (b : Buffer) (f : (Nat → UInt8) → BitVec 64 → α) (size offset : BitVec 64) :
    Except BufferException (Access α) :=
  (b.check (offset + size - 1)).map fun _ =>
    ⟨offset.toNat, size.toNat, f (fun k => b.buf (offset.toNat + k)) size⟩

/-- `write`, with a function that writes the bytes that it is given. -/
def write (b : Buffer) (f : (Nat → UInt8) → BitVec 64 → Nat → UInt8) (size offset : BitVec 64) :
    Except BufferException (Access Buffer) :=
  (b.check (offset + size - 1)).map fun _ =>
    ⟨offset.toNat, size.toNat,
      { b with buf := patch b.buf (f (fun k => b.buf (offset.toNat + k)) size) offset.toNat size.toNat }⟩

/-! ## The guard -/

/-- A byte of the range has no place in a buffer of `n` bytes. -/
def Outside (n first count : Nat) : Prop := ∃ x, (first ≤ x ∧ x < first + count) ∧ n ≤ x

/-- The access is refused if and only if it would touch a byte outside of the buffer, and it touches the bytes of the
range if it is not. -/
structure Guarded (n first count : Nat) (res : Except BufferException (Access α)) : Prop where
  throws : res = .error ⟨⟩ ↔ Outside n first count
  touches : ∀ acc, res = .ok acc → ∀ x, acc.Touches x ↔ first ≤ x ∧ x < first + count

/-- The ranges for which the check of the last position is right. -/
def Seen (n offset size : Nat) : Prop :=
  (size = 0 → (offset = 0 ∧ n = 2 ^ 64 - 1) ∨ (0 < offset ∧ offset ≤ n + 1)) ∧
    (0 < size → offset + size ≠ n + 1 ∧ (2 ^ 64 < offset + size → n + 1 + 2 ^ 64 < offset + size))

theorem outside_iff {n first count : Nat} : Outside n first count ↔ 0 < count ∧ n < first + count := by
  constructor
  · rintro ⟨x, ⟨hlow, hhigh⟩, hout⟩
    omega
  · rintro ⟨hpos, hlt⟩
    exact ⟨first + count - 1, by omega, by omega⟩

/-- Two ranges that start together have the same bytes when they have as many. -/
theorem forall_range_iff {first c c' : Nat} :
    (∀ x, first ≤ x ∧ x < first + c ↔ first ≤ x ∧ x < first + c') ↔ c = c' := by
  constructor
  · intro h
    have hc := h (first + c)
    have hc' := h (first + c')
    omega
  · rintro rfl x
    rfl

/-- A checked access: the check sees what is outside, and an access that may be done is done on the range. -/
theorem guarded_check_iff {b : Buffer} {i : BitVec 64} {first count c n : Nat} {result : α} :
    Guarded n first count ((b.check i).map fun _ => Access.mk first c result) ↔
      (b.size.toNat < i.toNat ↔ Outside n first count) ∧ (¬ Outside n first count → c = count) := by
  have hcheck : b.check i = if b.size.toNat < i.toNat then .error ⟨⟩ else .ok () := rfl
  rw [hcheck]
  split_ifs with hlt
  · constructor
    · intro h
      have hout := h.throws.mp rfl
      exact ⟨iff_of_true hlt hout, fun hin => absurd hout hin⟩
    · rintro ⟨hthrows, -⟩
      refine ⟨iff_of_true rfl (hthrows.mp hlt), fun acc hacc => ?_⟩
      cases hacc
  · constructor
    · intro h
      have hin : ¬ Outside n first count := fun hout => by cases h.throws.mpr hout
      exact ⟨iff_of_false hlt hin, fun _ => forall_range_iff.mp (h.touches _ rfl)⟩
    · rintro ⟨hthrows, hcount⟩
      have hin : ¬ Outside n first count := fun hout => hlt (hthrows.mpr hout)
      refine ⟨iff_of_false (fun herr => by cases herr) hin, fun acc hacc => ?_⟩
      obtain rfl := Except.ok.inj hacc
      exact forall_range_iff.mpr (hcount hin)

/-- The check of a range. -/
theorem lt_last_iff {n size offset : BitVec 64} :
    (n.toNat < (offset + size - 1).toNat ↔ Outside n.toNat offset.toNat size.toNat) ↔
      Seen n.toNat offset.toNat size.toNat := by
  have hlast : (offset + size - 1).toNat = (2 ^ 64 - 1 + (offset.toNat + size.toNat) % 2 ^ 64) % 2 ^ 64 := by
    rw [BitVec.toNat_sub, BitVec.toNat_add]
    rfl
  rw [hlast, outside_iff, Seen]
  have hn := n.isLt
  have hsize := size.isLt
  have hoffset := offset.isLt
  omega

theorem get_guarded_iff (b : Buffer) (i : BitVec 64) : Guarded b.size.toNat i.toNat 1 (b.get i) ↔ i ≠ b.size := by
  rw [get, guarded_check_iff, outside_iff, ne_eq, ← BitVec.toNat_inj]
  omega

theorem copyTo_guarded_iff (b : Buffer) (p : Nat → UInt8) (size offset : BitVec 64) :
    Guarded b.size.toNat offset.toNat size.toNat (b.copyTo p size offset) ↔
      Seen b.size.toNat offset.toNat size.toNat ∧
        (¬ Outside b.size.toNat offset.toNat size.toNat → copied b.size = size.toNat) := by
  rw [copyTo, guarded_check_iff, lt_last_iff]

theorem copyFrom_guarded_iff (b : Buffer) (p : Nat → UInt8) (size offset : BitVec 64) :
    Guarded b.size.toNat offset.toNat size.toNat (b.copyFrom p size offset) ↔
      Seen b.size.toNat offset.toNat size.toNat ∧
        (¬ Outside b.size.toNat offset.toNat size.toNat → copied b.size = size.toNat) := by
  rw [copyFrom, guarded_check_iff, lt_last_iff]

theorem read_guarded_iff (b : Buffer) (f : (Nat → UInt8) → BitVec 64 → α) (size offset : BitVec 64) :
    Guarded b.size.toNat offset.toNat size.toNat (b.read f size offset) ↔
      Seen b.size.toNat offset.toNat size.toNat := by
  rw [read, guarded_check_iff, lt_last_iff]
  simp

theorem write_guarded_iff (b : Buffer) (f : (Nat → UInt8) → BitVec 64 → Nat → UInt8) (size offset : BitVec 64) :
    Guarded b.size.toNat offset.toNat size.toNat (b.write f size offset) ↔
      Seen b.size.toNat offset.toNat size.toNat := by
  rw [write, guarded_check_iff, lt_last_iff]
  simp

/-- A buffer of less than `2 ^ 31` bytes is copied whole. -/
theorem copied_of_lt {size : BitVec 64} (h : size.toNat < 2 ^ 31) : copied size = size.toNat := by
  have hint : (size.setWidth 32).toNat = size.toNat := by
    rw [BitVec.toNat_setWidth]
    omega
  have hmsb : (size.setWidth 32).msb = false := by
    rw [BitVec.msb_eq_decide, hint]
    simpa using h
  rw [copied, BitVec.toNat_signExtend, hmsb, BitVec.toNat_setWidth, hint]
  simp only [Bool.false_eq_true, if_false, Nat.add_zero]
  exact Nat.mod_eq_of_lt size.isLt

/-- The accesses that are guarded: the check of an index fails at the size only, that of a range as `Seen` says, and
what may be copied is the length of the buffer. -/
theorem accesses_guarded_iff (b : Buffer) (i size offset : BitVec 64) (p : Nat → UInt8)
    (f : (Nat → UInt8) → BitVec 64 → α) (g : (Nat → UInt8) → BitVec 64 → Nat → UInt8) :
    (Guarded b.size.toNat i.toNat 1 (b.get i) ↔ i ≠ b.size) ∧
      (Guarded b.size.toNat offset.toNat size.toNat (b.copyTo p size offset) ↔
        Seen b.size.toNat offset.toNat size.toNat ∧
          (¬ Outside b.size.toNat offset.toNat size.toNat → copied b.size = size.toNat)) ∧
      (Guarded b.size.toNat offset.toNat size.toNat (b.copyFrom p size offset) ↔
        Seen b.size.toNat offset.toNat size.toNat ∧
          (¬ Outside b.size.toNat offset.toNat size.toNat → copied b.size = size.toNat)) ∧
      (Guarded b.size.toNat offset.toNat size.toNat (b.read f size offset) ↔
        Seen b.size.toNat offset.toNat size.toNat) ∧
      (Guarded b.size.toNat offset.toNat size.toNat (b.write g size offset) ↔
        Seen b.size.toNat offset.toNat size.toNat) :=
  ⟨get_guarded_iff b i, copyTo_guarded_iff b p size offset, copyFrom_guarded_iff b p size offset,
    read_guarded_iff b f size offset, write_guarded_iff b g size offset⟩

/-- With a buffer of 4 bytes: the byte after the last one is read, a copy of 2 bytes is a copy of 4, and no bytes
cannot be read. -/
theorem not_guarded :
    ¬ Guarded 4 4 1 (get ⟨4, fun _ => 0⟩ 4) ∧ ¬ Guarded 4 0 2 (copyTo ⟨4, fun _ => 0⟩ (fun _ => 0) 2 0) ∧
      ¬ Guarded 4 0 0 (read ⟨4, fun _ => 0⟩ (fun _ _ => ()) 0 0) := by
  refine ⟨fun h => ?_, fun h => ?_, fun h => ?_⟩
  · exact (get_guarded_iff ⟨4, fun _ => 0⟩ 4).mp h rfl
  · have hinside : ¬ Outside 4 0 2 := by
      rw [outside_iff]
      omega
    have hcopied := ((copyTo_guarded_iff ⟨4, fun _ => 0⟩ (fun _ => 0) 2 0).mp h).2 hinside
    rw [copied_of_lt (by decide)] at hcopied
    exact absurd hcopied (by decide)
  · have hseen := ((read_guarded_iff ⟨4, fun _ => 0⟩ (fun _ _ => ()) 0 0).mp h).1 rfl
    exact absurd hseen (by decide)

end Buffer

end Elm.Util
