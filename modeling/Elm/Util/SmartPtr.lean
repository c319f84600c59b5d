import Elm.Lib.Loop
import Elm.Lib.RefCount

/-!
# Smart pointers

What `SharedPtr` and `LockPtr` are for: smart pointers, numbered as they are built, are each on an object
or on none, and an object is deleted when the last of its pointers leaves it.  The objects hold no smart pointers.
-/

namespace Elm.Util.SmartPtr

open RefCount List Option

/-- What a program does with smart pointers: the raw pointers are null or on an object. -/
inductive Op
  | default
  | make (p : Option Nat)
  | copy (y : Nat)
  | assign (x y : Nat)
  | assignPtr (x : Nat) (p : Option Nat)
  | destroy (x : Nat)

/-- The object of each pointer, and the objects that have been deleted.  There is no pointer after its
destruction. -/
structure Owners where
  pointers : List (Option (Option Nat))
  deleted : List Nat
  deriving DecidableEq

namespace Owners

/-- Before the first pointer. -/
def start : Owners := ⟨[], []⟩

/-- The number of pointers on an object. -/
def holders (m : Owners) (o : Option Nat) : Nat := m.pointers.count (some o)

/-- A raw pointer on an object that has not been deleted. -/
def Valid (m : Owners) (p : Option Nat) : Prop := ∀ o ∈ p, o ∉ m.deleted

instance (m : Owners) (p : Option Nat) : Decidable (m.Valid p) :=
  inferInstanceAs (Decidable (∀ o ∈ p, o ∉ m.deleted))

/-- A new pointer. -/
def add (m : Owners) (o : Option Nat) : Owners := { m with pointers := m.pointers ++ [some o] }

/-- A pointer has left an object. -/
def left (m : Owners) : Option Nat → Owners
  | none => m
  | some p => if m.holders (some p) = 0 then { m with deleted := m.deleted ++ [p] } else m

/-- A pointer goes to another object, or is destroyed. -/
def put (m : Owners) (x : Nat) (o : Option (Option Nat)) : Option Owners :=
  (slot m.pointers x).map fun old => left { m with pointers := m.pointers.set x o } old

/-- One operation, if its pointers exist and the object that it gets has not been deleted. -/
def step (m : Owners) : Op → Option Owners
  | .default => some (m.add none)
  | .make p => if m.Valid p then some (m.add p) else none
  | .copy y => (slot m.pointers y).map m.add
  | .assign x y => (slot m.pointers y).bind fun o => m.put x (some o)
  | .assignPtr x p => if m.Valid p then m.put x (some p) else none
  | .destroy x => m.put x none

/-! ## The deleted objects -/

/-- An object is deleted once, and no pointer is on it afterwards. -/
structure Sound (m : Owners) : Prop where
  once : m.deleted.Nodup
  out : ∀ p ∈ m.deleted, m.holders (some p) = 0

variable {m m' : Owners} {x : Nat} {o : Option Nat} {p : Nat}

theorem start_sound : start.Sound := ⟨nodup_nil, fun _ hp => nomatch hp⟩

@[simp] theorem holders_add (o o' : Option Nat) :
    (m.add o).holders o' = m.holders o' + if o' = o then 1 else 0 := by
  rw [holders, add, count_append, count_singleton, holders]
  congr 1
  by_cases ho : o' = o
  · simp [ho]
  · have hne : ¬ (some o == some o') := by simpa using Ne.symm ho
    rw [if_neg hne, if_neg ho]

theorem holders_pos : 0 < m.holders o ↔ ∃ x, slot m.pointers x = some o := by
  rw [holders, count_pos_iff, mem_iff_getElem?]
  simp only [slot_eq_some]

theorem holders_set (hx : slot m.pointers x = some o) (o' : Option (Option Nat)) (o'' : Option Nat) :
    holders { m with pointers := m.pointers.set x o' } o'' =
      m.holders o'' - (if o'' = o then 1 else 0) + if o' = some o'' then 1 else 0 := by
  rw [holders, holders, count_eq_countP, countP_set_slot hx, count_eq_countP]
  simp only [beq_iff_eq, some.injEq, eq_comm (a := o'')]

theorem left_some (m : Owners) (p : Nat) : m.left (some p) =
    if m.holders (some p) = 0 then { m with deleted := m.deleted ++ [p] } else m := rfl

/-- What is deleted when a pointer leaves an object. -/
theorem deleted_left (m : Owners) (o : Option Nat) :
    (m.left o).deleted = m.deleted ++ if m.holders o = 0 then o.toList else [] := by
  cases o with
  | none => simp [left]
  | some p =>
    rw [left_some]
    split_ifs with hzero <;> simp

@[simp] theorem pointers_left (m : Owners) (o : Option Nat) : (m.left o).pointers = m.pointers := by
  cases o with
  | none => rfl
  | some p =>
    rw [left_some]
    split_ifs <;> rfl

theorem holders_left (m : Owners) (o o' : Option Nat) : (m.left o).holders o' = m.holders o' := by
  rw [holders, pointers_left, holders]

theorem Sound.left (h : m.Sound) {o : Option Nat} (ho : m.Valid o) : (m.left o).Sound := by
  cases o with
  | none => exact h
  | some p =>
    rw [left_some]
    split_ifs with hzero
    · have hnot : p ∉ m.deleted := ho p rfl
      refine ⟨nodup_append.mpr ⟨h.once, nodup_singleton p, ?_⟩, ?_⟩
      · rintro q hq q' hq' rfl
        exact hnot (mem_singleton.mp hq' ▸ hq)
      · intro q hq
        rcases mem_append.mp hq with hq | hq
        · exact h.out q hq
        · rw [mem_singleton.mp hq]
          exact hzero
    · exact h

theorem Sound.add (h : m.Sound) (ho : m.Valid o) : (m.add o).Sound := by
  refine ⟨h.once, fun q hq => ?_⟩
  rw [holders_add, h.out q hq, if_neg]
  rintro rfl
  exact ho q rfl hq

/-- The object of a pointer has not been deleted. -/
theorem Sound.valid (h : m.Sound) (hx : slot m.pointers x = some o) : m.Valid o := by
  rintro q rfl hq
  have hpos := holders_pos.mpr ⟨x, hx⟩
  rw [h.out q hq] at hpos
  exact absurd hpos (Nat.lt_irrefl 0)

theorem Sound.put (h : m.Sound) {o : Option (Option Nat)} (ho : ∀ o' ∈ o, m.Valid o')
    (hput : m.put x o = some m') : m'.Sound := by
  obtain ⟨old, hold, rfl⟩ := map_eq_some_iff.mp hput
  have hset : Sound { m with pointers := m.pointers.set x o } := by
    refine ⟨h.once, fun q hq => ?_⟩
    rw [holders_set hold, h.out q hq, Nat.zero_sub, Nat.zero_add, if_neg]
    rintro rfl
    exact ho (some q) rfl q rfl hq
  exact hset.left (h.valid hold)

theorem step_sound (h : m.Sound) {op : Op} (hstep : m.step op = some m') : m'.Sound := by
  cases op with
  | default =>
    obtain rfl := some.inj hstep
    exact h.add (by rintro _ ⟨⟩)
  | make p =>
    obtain ⟨hvalid, hstep⟩ := ite_none_right_eq_some.mp hstep
    obtain rfl := some.inj hstep
    exact h.add hvalid
  | copy y =>
    obtain ⟨o, ho, rfl⟩ := map_eq_some_iff.mp hstep
    exact h.add (h.valid ho)
  | assign x y =>
    obtain ⟨o, ho, hput⟩ := bind_eq_some_iff.mp hstep
    refine h.put ?_ hput
    rintro o' ⟨⟩
    exact h.valid ho
  | assignPtr x p =>
    obtain ⟨hvalid, hput⟩ := ite_none_right_eq_some.mp hstep
    refine h.put ?_ hput
    rintro o' ⟨⟩
    exact hvalid
  | destroy x =>
    refine h.put ?_ hstep
    rintro o' ⟨⟩

end Owners

end Elm.Util.SmartPtr
