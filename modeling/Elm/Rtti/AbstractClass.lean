import Elm.Lib.Loop

/-!
# `rtti::AbstractClass`

The walks of `src/rtti.cpp` over the bases of a class.  The root of the classes is `void`.  Its constructor takes its
base from the reference `void_type` before this one is bound to it: the base is null, and the walk of `baseOf` ends
there.  The casts stop at `void` with an assertion.
-/

namespace Elm.Rtti

open List

/-- The classes `C` with their bases and the casts of pointers `P` that each of them defines. -/
structure Hierarchy (C P : Type*) where
  voidType : C
  /-- `_base`, or null. -/
  base : C → Option C
  upCast : C → P → P
  downCast : C → P → P
  base_void : base voidType = none
  rooted : ∀ c, Relation.ReflTransGen (fun c b => base c = some b) c voidType

namespace Hierarchy

variable {C P : Type*}

section Model

variable [DecidableEq C]

/-- A turn of the loop of `baseOf`. -/
def baseOfTurn (h : Hierarchy C P) (self : C) : Option C → Option C ⊕ Bool
  | none => .inr false
  | some clazz => if clazz = self then .inr true else .inl (h.base clazz)

/-- `baseOf`. -/
def baseOf (h : Hierarchy C P) (fuel : Nat) (self : C) (clazz : Option C) : Option Bool :=
  Loop.run (h.baseOfTurn self) fuel clazz

/-- A turn of the loop of `upCast`. -/
def upCastTurn (h : Hierarchy C P) (cls : C) (s : C × P) : Option (C × P ⊕ P) :=
  let (cur, ptr) := s
  if cur = cls then some (.inr ptr)
  else if cur = h.voidType then none
  else (h.base cur).map fun base => .inl (base, h.upCast cur ptr)

/-- `upCast(ptr, cls)`. -/
def upCastTo (h : Hierarchy C P) (fuel : Nat) (self : C) (ptr : P) (cls : C) : Option P :=
  Loop.attempt (h.upCastTurn cls) fuel (self, ptr)

/-- A turn of the loop of `downCast`, which adds the class to the bases before the assertion. -/
def basesTurn (h : Hierarchy C P) (self : C) (s : List C × C) : Option (List C × C ⊕ List C) :=
  let (bases, cur) := s
  if cur = self then some (.inr bases)
  else if cur = h.voidType then none
  else (h.base cur).map fun base => .inl (bases ++ [cur], base)

/-- `downCast(ptr, cls)`: the casts of the bases, in reverse order. -/
def downCastTo (h : Hierarchy C P) (fuel : Nat) (self : C) (ptr : P) (cls : C) : Option P :=
  (Loop.attempt (h.basesTurn self) fuel ([], cls)).map fun bases =>
    bases.foldr (fun cur ptr => h.downCast cur ptr) ptr

end Model

/-! ## Ancestors and casts -/

section Ancestors

/-- The class `a` is the class `c` or one of its ancestors. -/
def Ancestor (h : Hierarchy C P) (a c : C) : Prop := Relation.ReflTransGen (fun c b => h.base c = some b) c a

/-- The classes from `c` up to its ancestor `a`, which is left out. -/
inductive Path (h : Hierarchy C P) (a : C) : C → List C → Prop
  | here : Path h a a []
  | base {c b : C} {path : List C} (hne : c ≠ a) (hbase : h.base c = some b) (hpath : Path h a b path) :
      Path h a c (c :: path)

variable {h : Hierarchy C P} {c b a : C}

theorem ne_void (hbase : h.base c = some b) : c ≠ h.voidType := by
  rintro rfl
  rw [h.base_void] at hbase
  cases hbase

theorem exists_path (hanc : h.Ancestor a c) : ∃ path, h.Path a c path := by
  induction hanc using Relation.ReflTransGen.head_induction_on with
  | refl => exact ⟨[], .here⟩
  | @head c b hbase _ ih =>
    by_cases hne : c = a
    · subst hne
      exact ⟨[], .here⟩
    · obtain ⟨path, hpath⟩ := ih
      exact ⟨c :: path, .base hne hbase hpath⟩

/-- The casts of each class undo each other. -/
structure CastsInverse (h : Hierarchy C P) : Prop where
  down_up : ∀ c ptr, h.downCast c (h.upCast c ptr) = ptr
  up_down : ∀ c ptr, h.upCast c (h.downCast c ptr) = ptr

/-- Casts up along a list of classes are undone in the reverse order. -/
theorem foldr_foldl (hinv : h.CastsInverse) (path : List C) (ptr : P) :
    path.foldr (fun cur ptr => h.downCast cur ptr) (path.foldl (fun ptr cur => h.upCast cur ptr) ptr) = ptr := by
  induction path generalizing ptr with
  | nil => rfl
  | cons c path ih => rw [foldl_cons, foldr_cons, ih, hinv.down_up]

end Ancestors

variable [DecidableEq C] {h : Hierarchy C P} {c a : C} {path : List C}

/-! ## `baseOf` -/

theorem baseOf_of_path (hpath : h.Path a c path) : h.baseOf (path.length + 1) a (some c) = some true := by
  induction hpath with
  | here => exact Loop.run_succ_inr (by simp [baseOfTurn]) 0
  | base hne hbase _ ih => exact (Loop.run_succ_inl (by simp [baseOfTurn, hne, hbase]) _).trans ih

/-- The walk from a class that is not under `a` goes over the root to the null base. -/
theorem baseOf_of_not_ancestor (hpath : h.Path h.voidType c path) (hanc : ¬ h.Ancestor a c) :
    h.baseOf (path.length + 2) a (some c) = some false := by
  induction hpath with
  | here =>
    have hne : h.voidType ≠ a := by
      rintro rfl
      exact hanc .refl
    have hturn : h.baseOfTurn a (some h.voidType) = .inl none := by
      simp [baseOfTurn, hne, h.base_void]
    exact (Loop.run_succ_inl hturn 1).trans (Loop.run_succ_inr rfl 0)
  | @base c b path _ hbase _ ih =>
    have hne : c ≠ a := by
      rintro rfl
      exact hanc .refl
    have hturn : h.baseOfTurn a (some c) = .inl (some b) := by simp [baseOfTurn, hne, hbase]
    exact (Loop.run_succ_inl hturn _).trans (ih fun hup => hanc (.head hbase hup))

/-- `baseOf` ends with the right answer. -/
def BaseOfRight (h : Hierarchy C P) (self : C) (clazz : Option C) : Prop :=
  ∃ fuel r, h.baseOf fuel self clazz = some r ∧ (r = true ↔ ∃ c, clazz = some c ∧ h.Ancestor self c)

theorem baseOfRight (self : C) (clazz : Option C) : h.BaseOfRight self clazz := by
  cases clazz with
  | none =>
    refine ⟨1, false, rfl, iff_of_false Bool.false_ne_true ?_⟩
    rintro ⟨c, hc, -⟩
    cases hc
  | some c =>
    by_cases hanc : h.Ancestor self c
    · obtain ⟨path, hpath⟩ := exists_path hanc
      exact ⟨path.length + 1, true, baseOf_of_path hpath, iff_of_true rfl ⟨c, rfl, hanc⟩⟩
    · obtain ⟨path, hpath⟩ := exists_path (h.rooted c)
      refine ⟨path.length + 2, false, baseOf_of_not_ancestor hpath hanc, iff_of_false Bool.false_ne_true ?_⟩
      rintro ⟨c', hc, hup⟩
      obtain rfl := Option.some.inj hc
      exact hanc hup

/-! ## The walks of the casts -/

theorem upCastTo_of_path (hpath : h.Path a c path) (ptr : P) :
    h.upCastTo (path.length + 1) c ptr a = some (path.foldl (fun ptr cur => h.upCast cur ptr) ptr) := by
  induction hpath generalizing ptr with
  | here => exact Loop.attempt_succ_inr (by simp [upCastTurn]) 0
  | base hne hbase _ ih =>
    refine (Loop.attempt_succ_inl ?_ _).trans (ih _)
    simp [upCastTurn, hne, ne_void hbase, hbase]

/-- The bases that `downCast` collects after those that it has. -/
theorem bases_of_path (hpath : h.Path a c path) (bases : List C) :
    Loop.attempt (h.basesTurn a) (path.length + 1) (bases, c) = some (bases ++ path) := by
  induction hpath generalizing bases with
  | here =>
    rw [append_nil]
    exact Loop.attempt_succ_inr (by simp [basesTurn]) 0
  | @base c b path hne hbase _ ih =>
    have hturn : h.basesTurn a (bases, c) = some (.inl (bases ++ [c], b)) := by
      simp [basesTurn, hne, ne_void hbase, hbase]
    rw [length_cons, Loop.attempt_succ_inl hturn, ih, append_assoc, singleton_append]

/-- A cast to an ancestor and back gives the pointer. -/
def RoundTrip (h : Hierarchy C P) (c a : C) : Prop :=
  ∀ ptr, ∃ fuel up, h.upCastTo fuel c ptr a = some up ∧ h.downCastTo fuel a up c = some ptr

theorem roundTrip_of_ancestor (hinv : h.CastsInverse) (hanc : h.Ancestor a c) : h.RoundTrip c a := by
  intro ptr
  obtain ⟨path, hpath⟩ := exists_path hanc
  refine ⟨path.length + 1, _, upCastTo_of_path hpath ptr, ?_⟩
  rw [downCastTo, bases_of_path hpath [], Option.map_some, nil_append, foldr_foldl hinv]

/-- `baseOf` ends with the right answer, and the casts to any ancestor come back. -/
theorem walks_right (h : Hierarchy C P) (self : C) (clazz : Option C) :
    h.BaseOfRight self clazz ∧ (h.CastsInverse → ∀ c a, h.Ancestor a c → h.RoundTrip c a) :=
  ⟨baseOfRight self clazz, fun hinv _ _ hanc => roundTrip_of_ancestor hinv hanc⟩

/-- `void` and a class that extends it. -/
def pair : Hierarchy Bool Unit where
  voidType := false
  base := fun c => if c then some false else none
  upCast := fun _ ptr => ptr
  downCast := fun _ ptr => ptr
  base_void := rfl
  rooted := fun c => match c with
    | true => .single rfl
    | false => .refl

theorem walks_right_pair : (pair).BaseOfRight true (some false) ∧ (pair).RoundTrip true false :=
  have hright := walks_right pair true (some false)
  ⟨hright.1, hright.2 ⟨fun _ _ => rfl, fun _ _ => rfl⟩ true false (.single rfl)⟩

/-- `void` is not its own base. -/
theorem base_void_ne : (pair).base (pair).voidType ≠ some (pair).voidType := by decide

end Hierarchy

end Elm.Rtti
