import Elm.Util.SharedPtr

/-!
# `LockPtr`

The pointers of `include/elm/util/LockPtr.h`: an object has its own counter, of class `Lock`, and the static
lock `null_lock` stands for the null pointer.  To use an object that has been deleted, to delete `null_lock` or to
overflow the counter gives no state.
-/

namespace Elm.Util.LockPtr

open RefCount SmartPtr Function Option

/-- The counter `u` of each object, and of `null_lock` for `none`, the objects that have been deleted, and the
member `ptr` of each pointer. -/
structure State where
  u : Option Nat → Int
  deleted : List Nat
  pointers : List (Option (Option Nat))

namespace State

/-- Before the first pointer. -/
def start : State := { u := fun o => if o = none then 1 else 0, deleted := [], pointers := [] }

/-- The object may be used. -/
def Alive (s : State) (o : Option Nat) : Prop := ∀ p ∈ o, p ∉ s.deleted

instance (s : State) (o : Option Nat) : Decidable (s.Alive o) :=
  inferInstanceAs (Decidable (∀ p ∈ o, p ∉ s.deleted))

/-- `Lock::lock`. -/
def lock (s : State) (o : Option Nat) : Option State :=
  if s.Alive o ∧ s.u o < 2 ^ 31 - 1 then some { s with u := update s.u o (s.u o + 1) } else none

/-- `Lock::unlock`. -/
def unlockObject (s : State) (o : Option Nat) : Option State :=
  if s.Alive o ∧ - 2 ^ 31 < s.u o then some { s with u := update s.u o (s.u o - 1) } else none

/-- Pointer `x` gets an object. -/
def put (s : State) (x : Nat) (o : Option (Option Nat)) : State := { s with pointers := s.pointers.set x o }

/-- `LockPtr::unlock`. -/
def unlock (s : State) (x : Nat) : Option State := do
  let o ← slot s.pointers x
  let s ← s.unlockObject o
  if s.u o = 0 then
    match o with
    | none => none
    | some p => some ({ s with deleted := s.deleted ++ [p] }.put x (some none))
  else
    some s

/-- A new pointer on an object. -/
def add (s : State) (o : Option Nat) : Option State :=
  { s with pointers := s.pointers ++ [some o] }.lock o

/-- The constructors, the assignments and the destructor. -/
def step (s : State) : Op → Option State
  | .default => s.add none
  | .make p => s.add p
  | .copy y => do
    let o ← slot s.pointers y
    s.add o
  | .assign x y => do
    let s ← s.unlock x
    let o ← slot s.pointers y
    (s.put x (some o)).lock o
  | .assignPtr x p => do
    let s ← s.unlock x
    (s.put x (some p)).lock p
  | .destroy x => do
    let s ← s.unlock x
    some (s.put x none)

end State

/-- What `u` has to be: the number of pointers on the object, and one more for `null_lock`. -/
def users (m : Owners) (o : Option Nat) : Nat := m.holders o + if o = none then 1 else 0

/-- The pointers are on the right objects, the counters are right, and the objects that are deleted are those that
have lost their last pointer, each of them once. -/
structure Right (m : Owners) (s : State) : Prop where
  pointers : s.pointers = m.pointers
  u : ∀ o, m.Valid o → s.u o = users m o
  deleted : s.deleted = m.deleted
  sound : m.Sound

/-- A pointer may leave an object for another one: it is not the only pointer on the same object, and the counter
does not overflow. -/
def Leaves (m : Owners) (old o : Option Nat) : Prop :=
  if old = o then users m o ≠ 1 else users m o < 2 ^ 31 - 1

instance (m : Owners) (old o : Option Nat) : Decidable (Leaves m old o) :=
  inferInstanceAs (Decidable (if old = o then users m o ≠ 1 else users m o < 2 ^ 31 - 1))

/-- A counter does not overflow, and the only pointer on an object does not get the same object again. -/
def Careful (m : Owners) : Op → Prop
  | .default => users m none < 2 ^ 31 - 1
  | .make p => users m p < 2 ^ 31 - 1
  | .copy y => ∀ o ∈ slot m.pointers y, users m o < 2 ^ 31 - 1
  | .assign x y => ∀ old ∈ slot m.pointers x, ∀ o ∈ slot m.pointers y, Leaves m old o
  | .assignPtr x p => ∀ old ∈ slot m.pointers x, Leaves m old p
  | .destroy _ => True

instance (m : Owners) : ∀ op, Decidable (Careful m op)
  | .default => inferInstanceAs (Decidable (_ < _))
  | .make p => inferInstanceAs (Decidable (users m p < 2 ^ 31 - 1))
  | .copy y => inferInstanceAs (Decidable (∀ o ∈ slot m.pointers y, users m o < 2 ^ 31 - 1))
  | .assign x y =>
    inferInstanceAs (Decidable (∀ old ∈ slot m.pointers x, ∀ o ∈ slot m.pointers y, Leaves m old o))
  | .assignPtr x p => inferInstanceAs (Decidable (∀ old ∈ slot m.pointers x, Leaves m old p))
  | .destroy _ => isTrue trivial

/-- The invariant of the runs. -/
structure Inv (m : Owners) (s : State) : Prop where
  pointers : s.pointers = m.pointers
  u : ∀ o, s.u o = users m o
  small : ∀ o, users m o ≤ 2 ^ 31 - 1
  deleted : s.deleted = m.deleted
  sound : m.Sound

section Invariant

variable {m m' : Owners} {s s' : State} {x : Nat} {o old : Option Nat}

theorem start_inv : Inv .start .start := by
  have hcount : ∀ o, users .start o = if o = none then 1 else 0 := fun o => Nat.zero_add _
  refine ⟨rfl, fun o => ?_, fun o => ?_, rfl, Owners.start_sound⟩
  · change (if o = none then 1 else 0) = _
    rw [hcount]
    split_ifs
    · rfl
    · rfl
  · rw [hcount]
    split_ifs
    · decide
    · decide

theorem Inv.right (h : Inv m s) : Right m s := ⟨h.pointers, fun o _ => h.u o, h.deleted, h.sound⟩

theorem users_pos (hx : slot m.pointers x = some o) : 0 < users m o :=
  Nat.add_pos_left (Owners.holders_pos.mpr ⟨x, hx⟩) _

/-- `null_lock` keeps a reference when its last pointer goes. -/
theorem ne_none_of_users (hx : slot m.pointers x = some o) (hone : users m o = 1) : ∃ p, o = some p := by
  cases o with
  | some p => exact ⟨p, rfl⟩
  | none =>
    have hpos := Owners.holders_pos.mpr ⟨x, hx⟩
    rw [users, if_pos rfl] at hone
    omega

theorem Inv.alive (h : Inv m s) (ho : m.Valid o) : s.Alive o := by
  rw [State.Alive, h.deleted]
  exact ho

/-- A pointer leaves its object, which is deleted if there is no other one. -/
theorem Inv.unlock (h : Inv m s) (hx : slot m.pointers x = some o) : s.unlock x = some
    { u := update s.u o (s.u o - 1)
      deleted := m.deleted ++ if users m o = 1 then o.toList else []
      pointers := if users m o = 1 then m.pointers.set x (some none) else m.pointers } := by
  have hpos := users_pos hx
  have hbound : s.Alive o ∧ - 2 ^ 31 < s.u o := by
    refine ⟨h.alive (h.sound.valid hx), ?_⟩
    rw [h.u]
    omega
  have hzero : s.u o - 1 = 0 ↔ users m o = 1 := by
    rw [h.u]
    omega
  unfold State.unlock State.unlockObject
  simp only [h.pointers, hx, bind_eq_bind, bind_some, if_pos hbound, update_self, hzero]
  by_cases hone : users m o = 1
  · obtain ⟨p, rfl⟩ := ne_none_of_users hx hone
    simp only [if_pos hone, State.put, h.deleted, toList_some]
  · simp only [if_neg hone, h.deleted, List.append_nil]

theorem Inv.lock_eq (h : Inv m s) (hvalid : m.Valid o) (hlt : users m o < 2 ^ 31 - 1) : s.add o = some
    { u := update s.u o (s.u o + 1), deleted := s.deleted, pointers := s.pointers ++ [some o] } := by
  have hu : s.u o < 2 ^ 31 - 1 := by
    rw [h.u]
    omega
  exact if_pos ⟨h.alive hvalid, hu⟩

theorem users_add (o o' : Option Nat) : users (m.add o) o' = users m o' + if o' = o then 1 else 0 := by
  rw [users, Owners.holders_add, users]
  exact Nat.add_right_comm _ _ _

theorem add_inv (h : Inv m s) (hvalid : m.Valid o) (hlt : users m o < 2 ^ 31 - 1) :
    ∃ s', s.add o = some s' ∧ Inv (m.add o) s' := by
  refine ⟨_, h.lock_eq hvalid hlt, ?_, fun o' => ?_, fun o' => ?_, h.deleted, h.sound.add hvalid⟩
  · rw [h.pointers]
    rfl
  · change update s.u o (s.u o + 1) o' = _
    rw [users_add, update_apply]
    split_ifs with ho
    · rw [ho, h.u]
      rfl
    · exact h.u o'
  · have hsmall := h.small o'
    rw [users_add]
    split_ifs with ho
    · rw [ho]
      omega
    · exact hsmall

/-- A counter that overflows. -/
theorem add_eq_none (h : Inv m s) (hover : ¬ users m o < 2 ^ 31 - 1) : s.add o = none := by
  refine if_neg ?_
  rintro ⟨-, hlt⟩
  change s.u o < 2 ^ 31 - 1 at hlt
  rw [h.u] at hlt
  omega

theorem users_set (hx : slot m.pointers x = some old) (t : Option (Option Nat)) (o : Option Nat) :
    users { m with pointers := m.pointers.set x t } o =
      users m o - (if o = old then 1 else 0) + if t = some o then 1 else 0 := by
  have hpos : 0 < m.holders old := Owners.holders_pos.mpr ⟨x, hx⟩
  rw [users, Owners.holders_set hx, users]
  by_cases ho : o = old
  · subst ho
    rw [if_pos rfl]
    omega
  · rw [if_neg ho]
    omega

/-- Pointer `x` goes from the object `old` to another one, or is destroyed. -/
theorem Inv.put (h : Inv m s) (hx : slot m.pointers x = some old) {t : Option (Option Nat)}
    (hself : t = some old → users m old ≠ 1) (hlt : ∀ o ∈ t, o ≠ old → users m o < 2 ^ 31 - 1)
    (hput : m.put x t = some m') (hsound : m'.Sound) {u : Option Nat → Int}
    (hu : ∀ o, u o = users { m with pointers := m.pointers.set x t } o) :
    Inv m' ⟨u, m.deleted ++ if users m old = 1 then old.toList else [], m.pointers.set x t⟩ := by
  rw [Owners.put, hx, map_some, some.injEq] at hput
  subst hput
  have husers : ∀ o, users (Owners.left { m with pointers := m.pointers.set x t } old) o =
      users { m with pointers := m.pointers.set x t } o := by
    intro o
    rw [users, Owners.holders_left, users]
  refine ⟨?_, fun o => ?_, fun o => ?_, ?_, hsound⟩
  · rw [Owners.pointers_left]
  · rw [husers]
    exact hu o
  · have hsmall := h.small o
    have hpos := users_pos hx
    rw [husers, users_set hx]
    by_cases ho : o = old
    · subst ho
      rw [if_pos rfl]
      split_ifs <;> omega
    · rw [if_neg ho]
      split_ifs with ht
      · have hroom := hlt o ht ho
        omega
      · omega
  · rw [Owners.deleted_left]
    change m.deleted ++ _ = m.deleted ++ _
    cases old with
    | none => simp
    | some p =>
      have hpos : 0 < m.holders (some p) := Owners.holders_pos.mpr ⟨x, hx⟩
      have hholders : users m (some p) = m.holders (some p) := by
        rw [users, if_neg (some_ne_none p), Nat.add_zero]
      have hlast : users m (some p) = 1 ↔
          Owners.holders { m with pointers := m.pointers.set x t } (some p) = 0 := by
        rw [Owners.holders_set hx, if_pos rfl, hholders]
        by_cases ht : t = some (some p)
        · have hne := hself ht
          rw [hholders] at hne
          rw [if_pos ht]
          exact iff_of_false hne (Nat.succ_ne_zero _)
        · rw [if_neg ht]
          omega
      simp only [hlast]

/-- The end of an assignment: the pointer has left its object and gets another one. -/
theorem goto_inv (h : Inv m s) (hx : slot m.pointers x = some old) (hleaves : Leaves m old o)
    (hvalid : m.Valid o) (hput : m.put x (some o) = some m') (hsound : m'.Sound) :
    ∃ s₁ s', s.unlock x = some s₁ ∧ (s₁.put x (some o)).lock o = some s' ∧ Inv m' s' := by
  have hpos := users_pos hx
  have hsmall := h.small o
  have hself : o = old → users m old ≠ 1 := by
    rintro rfl
    rwa [Leaves, if_pos rfl] at hleaves
  have hlt : o ≠ old → users m o < 2 ^ 31 - 1 := fun hne => by rwa [Leaves, if_neg (Ne.symm hne)] at hleaves
  have hleft : ∀ e, update s.u old (s.u old - 1) e =
      ((users m e - if e = old then 1 else 0 : Nat) : Int) := by
    intro e
    rw [update_apply, h.u, h.u]
    split_ifs with he
    · rw [he]
      omega
    · rfl
  have hu : ∀ e, update (update s.u old (s.u old - 1)) o
      (update s.u old (s.u old - 1) o + 1) e =
        users { m with pointers := m.pointers.set x (some o) } e := by
    intro e
    rw [users_set hx, update_apply, hleft, hleft]
    simp only [some.injEq, eq_comm (a := o) (b := e)]
    by_cases heo : e = o
    · rw [if_pos heo, if_pos heo, heo]
      rfl
    · rw [if_neg heo, if_neg heo]
      rfl
  have halive : ∀ p ∈ o, p ∉ m.deleted ++ if users m old = 1 then old.toList else [] := by
    intro p hp hmem
    rcases List.mem_append.mp hmem with hdel | hlast
    · exact hvalid p hp hdel
    · split_ifs at hlast with hone
      · have hold : o = old := by
          rw [mem_toList] at hlast
          rw [hp, hlast]
        exact hself hold hone
      · cases hlast
  have hroom : update s.u old (s.u old - 1) o < 2 ^ 31 - 1 := by
    rw [hleft]
    split_ifs with heq
    · rw [heq] at hsmall ⊢
      omega
    · have hlt' := hlt heq
      omega
  have hset : (if users m old = 1 then m.pointers.set x (some none) else m.pointers).set x (some o) =
      m.pointers.set x (some o) := by
    split_ifs
    · exact List.set_set _
    · rfl
  refine ⟨_, _, h.unlock hx, ?_, h.put hx (fun heq => hself (some.inj heq)) ?_ hput hsound hu⟩
  · unfold State.lock State.put
    rw [if_pos ⟨halive, hroom⟩, hset]
  · rintro o' ⟨⟩ hne
    exact hlt hne

/-- A pointer after another one has left its object, when this is not the only pointer on it. -/
theorem Inv.slot_unlock (h : Inv m s) (hx : slot m.pointers x = some old) {s₁ : State}
    (hs₁ : s.unlock x = some s₁) {y : Nat} (hy : slot m.pointers y = some o) (hself : old = o → users m old ≠ 1) :
    slot s₁.pointers y = some o := by
  rw [h.unlock hx] at hs₁
  obtain rfl := some.inj hs₁
  change slot (if _ then _ else _) y = _
  split_ifs with hone
  · have hxy : y ≠ x := by
      rintro rfl
      exact hself (some.inj (hx.symm.trans hy)) hone
    rw [slot_set (lt_of_slot hx), if_neg hxy, hy]
  · exact hy

theorem step_inv (h : Inv m s) {op : Op} (hop : m.step op = some m') (hcareful : Careful m op) :
    ∃ s', s.step op = some s' ∧ Inv m' s' := by
  have hsound := Owners.step_sound h.sound hop
  cases op with
  | default =>
    obtain rfl := some.inj hop
    exact add_inv h (by rintro _ ⟨⟩) hcareful
  | make p =>
    obtain ⟨hvalid, hop⟩ := ite_none_right_eq_some.mp hop
    obtain rfl := some.inj hop
    exact add_inv h hvalid hcareful
  | copy y =>
    obtain ⟨o, ho, rfl⟩ := map_eq_some_iff.mp hop
    obtain ⟨s', hs', hinv⟩ := add_inv h (h.sound.valid ho) (hcareful o ho)
    refine ⟨s', ?_, hinv⟩
    rw [State.step, h.pointers, ho]
    exact hs'
  | assign x y =>
    obtain ⟨o, ho, hput⟩ := bind_eq_some_iff.mp hop
    obtain ⟨old, hold, -⟩ := map_eq_some_iff.mp hput
    have hleaves := hcareful old hold o ho
    obtain ⟨s₁, s', hs₁, hs', hinv⟩ := goto_inv h hold hleaves (h.sound.valid ho) hput hsound
    have hslot := h.slot_unlock hold hs₁ ho fun heq => by rwa [Leaves, if_pos heq, ← heq] at hleaves
    refine ⟨s', ?_, hinv⟩
    simp only [State.step, hs₁, bind_eq_bind, bind_some, hslot]
    exact hs'
  | assignPtr x p =>
    obtain ⟨hvalid, hput⟩ := ite_none_right_eq_some.mp hop
    obtain ⟨old, hold, -⟩ := map_eq_some_iff.mp hput
    obtain ⟨s₁, s', hs₁, hs', hinv⟩ := goto_inv h hold (hcareful old hold) hvalid hput hsound
    refine ⟨s', ?_, hinv⟩
    rw [State.step, hs₁, bind_eq_bind, bind_some]
    exact hs'
  | destroy x =>
    obtain ⟨old, hold, -⟩ := map_eq_some_iff.mp hop
    have hu : ∀ o, update s.u old (s.u old - 1) o =
        users { m with pointers := m.pointers.set x none } o := by
      intro o
      have hpos := users_pos hold
      rw [users_set hold, if_neg (some_ne_none o).symm, update_apply, h.u, h.u]
      split_ifs with ho
      · rw [ho]
        omega
      · rfl
    have hinv := h.put hold (fun hnone => absurd hnone (some_ne_none old).symm)
      (fun o ho => absurd ho (not_mem_none o)) hop hsound hu
    refine ⟨_, ?_, hinv⟩
    rw [State.step, h.unlock hold, bind_eq_bind, bind_some, State.put]
    split_ifs
    · rw [List.set_set]
    · rfl

/-! ## The operations that go wrong -/

theorem lock_eq_some (hlock : s.lock o = some s') : s.u o < 2 ^ 31 - 1 ∧ s'.deleted = s.deleted := by
  obtain ⟨hroom, hs'⟩ := ite_none_right_eq_some.mp hlock
  obtain rfl := some.inj hs'
  exact ⟨hroom.2, rfl⟩

/-- An assignment that goes wrong: the object is deleted although it has a pointer, or its counter overflows. -/
theorem not_right_goto (h : Inv m s) (hx : slot m.pointers x = some old) (hleaves : ¬ Leaves m old o)
    (hput : m.put x (some o) = some m') {s₁ : State} (hs₁ : s.unlock x = some s₁) {o₁ : Option Nat}
    (hlock : (s₁.put x (some o₁)).lock o₁ = some s') (hsame : old ≠ o → o₁ = o) : ¬ Right m' s' := by
  rw [h.unlock hx] at hs₁
  obtain rfl := some.inj hs₁
  obtain ⟨hroom, hdeleted⟩ := lock_eq_some hlock
  rw [Leaves] at hleaves
  split_ifs at hleaves with heq
  · subst heq
    obtain ⟨p, rfl⟩ := ne_none_of_users hx (not_not.mp hleaves)
    rw [Owners.put, hx, map_some, some.injEq] at hput
    subst hput
    intro hright
    have hsame' := hdeleted.symm.trans hright.deleted
    rw [Owners.deleted_left, Owners.holders_set hx, if_pos rfl, if_pos rfl, if_neg (Nat.succ_ne_zero _)] at hsame'
    change m.deleted ++ (if users m (some p) = 1 then _ else _) = m.deleted ++ [] at hsame'
    rw [if_pos (not_not.mp hleaves)] at hsame'
    exact absurd hsame' (by simp)
  · rw [hsame heq] at hroom
    change update s.u old (s.u old - 1) o < 2 ^ 31 - 1 at hroom
    rw [update_of_ne (Ne.symm heq), h.u] at hroom
    omega

theorem not_right (h : Inv m s) {op : Op} (hop : m.step op = some m') (hcareful : ¬ Careful m op)
    (hstep : s.step op = some s') : ¬ Right m' s' := by
  cases op with
  | default =>
    rw [State.step, add_eq_none h hcareful] at hstep
    cases hstep
  | make p =>
    rw [State.step, add_eq_none h hcareful] at hstep
    cases hstep
  | copy y =>
    obtain ⟨o, ho, hadd⟩ := bind_eq_some_iff.mp hstep
    rw [h.pointers] at ho
    rw [add_eq_none h fun hlt => hcareful ?_] at hadd
    · cases hadd
    · rintro o' ho'
      obtain rfl := some.inj (ho.symm.trans ho')
      exact hlt
  | assign x y =>
    obtain ⟨s₁, hs₁, hrest⟩ := bind_eq_some_iff.mp hstep
    obtain ⟨o₁, ho₁, hlock⟩ := bind_eq_some_iff.mp hrest
    obtain ⟨o, ho, hput⟩ := bind_eq_some_iff.mp hop
    obtain ⟨old, hold, -⟩ := map_eq_some_iff.mp hput
    refine not_right_goto h hold (fun hleaves => hcareful ?_) hput hs₁ hlock fun hne => ?_
    · rintro old' hold' o' ho'
      obtain rfl := some.inj (hold.symm.trans hold')
      obtain rfl := some.inj (ho.symm.trans ho')
      exact hleaves
    · have hslot := h.slot_unlock hold hs₁ ho fun heq => absurd heq hne
      exact some.inj (ho₁.symm.trans hslot)
  | assignPtr x p =>
    obtain ⟨s₁, hs₁, hlock⟩ := bind_eq_some_iff.mp hstep
    obtain ⟨-, hput⟩ := ite_none_right_eq_some.mp hop
    obtain ⟨old, hold, -⟩ := map_eq_some_iff.mp hput
    refine not_right_goto h hold (fun hleaves => hcareful ?_) hput hs₁ hlock fun _ => rfl
    rintro old' hold'
    obtain rfl := some.inj (hold.symm.trans hold')
    exact hleaves
  | destroy x => exact absurd trivial hcareful

end Invariant

/-- The program beside what it means. -/
def both : Owners × State → Op → Option (Owners × State) := Run.beside Owners.step State.step

/-- In every run on pointers that exist and objects that have not been deleted, the pointers are right all along if
and only if every operation is careful. -/
theorem run_iff {ops : List Op} {m : Owners} (hops : Run.exec Owners.step .start ops = some m) :
    (∀ k, ∃ t, Run.exec both (.start, .start) (ops.take k) = some t ∧ Right t.1 t.2) ↔
      Run.Meets (fun t op => Careful t.1 op) both (.start, .start) ops := by
  have hallowed := (Run.meets_isSome hops).beside State.step State.start
  refine (Run.meets_iff_forall_exists_exec (fun t => Inv t.1 t.2) (fun t => Right t.1 t.2) (fun t h => h.right) ?_ ?_
    ops _ start_inv hallowed).symm
  · intro t op h hop hcareful
    obtain ⟨m', hm'⟩ := isSome_iff_exists.mp hop
    obtain ⟨s', hs', hinv⟩ := step_inv h hm' hcareful
    exact ⟨(m', s'), Run.beside_eq_some.mpr ⟨hm', hs'⟩, hinv⟩
  · intro t op t' h _ hcareful hstep
    obtain ⟨hm', hs'⟩ := Run.beside_eq_some.mp hstep
    exact not_right h hm' hcareful hs'

end Elm.Util.LockPtr

namespace Elm.Util.SmartPtr

open Option

/-- The smart pointers of both classes are right all along a run if and only if every operation is careful: no
counter overflows, the only pointer on an object is not assigned to itself, and a raw pointer on an object that has
pointers is not given to a `SharedPtr`, nor to the only `LockPtr` on this object. -/
theorem smartPtr_run_iff {ops : List Op} {m : Owners} (hops : Run.exec Owners.step .start ops = some m) :
    ((∀ k, ∃ t, Run.exec SharedPtr.both (.start, .start) (ops.take k) = some t ∧ SharedPtr.Right t.1 t.2) ↔
      Run.Meets (fun t op => SharedPtr.Careful t.1 t.2 op) SharedPtr.both (.start, .start) ops) ∧
    ((∀ k, ∃ t, Run.exec LockPtr.both (.start, .start) (ops.take k) = some t ∧ LockPtr.Right t.1 t.2) ↔
      Run.Meets (fun t op => LockPtr.Careful t.1 op) LockPtr.both (.start, .start) ops) :=
  ⟨SharedPtr.run_iff hops, LockPtr.run_iff hops⟩

/-- Two pointers on an object that is assigned from one to the other, and then has no pointer any more. -/
def sharing : List Op := [.make (some 1), .default, .assign 1 0, .assign 1 1, .destroy 0, .assignPtr 1 (some 2)]

theorem smartPtr_run_iff_sharing :
    (∀ k, ∃ t, Run.exec SharedPtr.both (.start, .start) (sharing.take k) = some t ∧ SharedPtr.Right t.1 t.2) ∧
    (∀ k, ∃ t, Run.exec LockPtr.both (.start, .start) (sharing.take k) = some t ∧ LockPtr.Right t.1 t.2) := by
  obtain ⟨hshared, hlock⟩ := @smartPtr_run_iff sharing ⟨[none, some (some 2)], [1]⟩ (by decide)
  exact ⟨hshared.mpr (by decide), hlock.mpr (by decide)⟩

/-- The only pointer on an object, assigned to itself. -/
def selfAssignment : List Op := [.make (some 1), .assign 0 0]

theorem not_smartPtr_run :
    (¬ ∀ (ops : List Op) (m : Owners), Run.exec Owners.step .start ops = some m → ∀ k, ∃ t,
      Run.exec SharedPtr.both (.start, .start) (ops.take k) = some t ∧ SharedPtr.Right t.1 t.2) ∧
    (¬ ∀ (ops : List Op) (m : Owners), Run.exec Owners.step .start ops = some m → ∀ k, ∃ t,
      Run.exec LockPtr.both (.start, .start) (ops.take k) = some t ∧ LockPtr.Right t.1 t.2) := by
  constructor
  · intro hall
    obtain ⟨t, ht, -⟩ := hall selfAssignment ⟨[some (some 1)], []⟩ (by decide) 2
    cases ht
  · intro hall
    obtain ⟨t, ht, hright⟩ := hall selfAssignment ⟨[some (some 1)], []⟩ (by decide) 2
    obtain rfl := some.inj ht
    exact absurd hright.deleted (by decide)

end Elm.Util.SmartPtr
