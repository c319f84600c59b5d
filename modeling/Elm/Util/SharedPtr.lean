import Elm.Util.SmartPtr

/-!
# `SharedPtr`

The pointers of `include/elm/util/SharedPtr.h`: each of them is on a cell that counts the pointers on it, and
that has the raw pointer of an object.  A cell is made for each raw pointer, and the static cell `null` is
shared by the pointers that are built with no argument.  To use a cell that has been deleted, to delete an
object twice or to delete `null` gives no state.
-/

namespace Elm.Util.SharedPtr

open RefCount SmartPtr Function Option Nat List

/-- The address of the static cell. -/
def null : Nat := 0

/-- The cells, the address of the next one, the cell `c` of each pointer, and the objects that have been
deleted. -/
structure State where
  cells : Heap (Option Nat)
  next : Nat
  pointers : List (Option Nat)
  deleted : List Nat

namespace State

/-- Before the first pointer. -/
def start : State :=
  { cells := update (fun _ => none) null (some ⟨1, none⟩), next := 1, pointers := [], deleted := [] }

/-- `lock`. -/
def lock (s : State) (c : Nat) : Option State :=
  (retain (2 ^ 32) s.cells c).map fun cells => { s with cells }

/-- `clear`. -/
def clear (s : State) (c : Nat) : Option State := do
  let cell ← s.cells c
  let s ← match cell.val with
    | none => some s
    | some p => if p ∈ s.deleted then none else some { s with deleted := s.deleted ++ [p] }
  if c = null then none else some { s with cells := update s.cells c none }

/-- `unlock`. -/
def unlock (s : State) (c : Nat) : Option State := do
  let cell ← s.cells c
  let cnt := (cell.use + (2 ^ 32 - 1)) % 2 ^ 32
  let s := { s with cells := update s.cells c (some { cell with use := cnt }) }
  if cnt = 0 then s.clear c else some s

/-- `new cell_t`. -/
def newCell (s : State) (p : Option Nat) : State :=
  { s with cells := update s.cells s.next (some ⟨1, p⟩), next := s.next + 1 }

/-- A new pointer. -/
def add (s : State) (c : Nat) : State := { s with pointers := s.pointers ++ [some c] }

/-- A pointer gets another cell, or is destroyed. -/
def put (s : State) (x : Nat) (c : Option Nat) : State := { s with pointers := s.pointers.set x c }

/-- The constructors, the assignments and the destructor. -/
def step (s : State) : Op → Option State
  | .default => (s.lock null).map fun s => s.add null
  | .make p => some ((s.newCell p).add s.next)
  | .copy y => do
    let c ← slot s.pointers y
    let s ← s.lock c
    some (s.add c)
  | .assign x y => do
    let c ← slot s.pointers x
    let s ← s.unlock c
    let c ← slot s.pointers y
    (s.put x (some c)).lock c
  | .assignPtr x p => do
    let c ← slot s.pointers x
    let s ← s.unlock c
    some ((s.newCell p).put x (some s.next))
  | .destroy x => do
    let c ← slot s.pointers x
    let s ← s.unlock c
    some (s.put x none)

/-- `ptr`, on every pointer. -/
def objects (s : State) : List (Option (Option Nat)) :=
  s.pointers.map fun o => o.bind fun c => (s.cells c).map Cell.val

end State

/-- What `cnt` has to be in a cell: the number of its pointers, and one more in `null`. -/
def sharers (pointers : List (Option Nat)) (c : Nat) : Nat :=
  refs id pointers c + if c = null then 1 else 0

/-- The pointers are on the right objects.  The counter of an object is the number of pointers on it, and the
counter of a cell with no object is the number of pointers on this cell.  The objects that are deleted are those
that have lost their last pointer, each of them once, and no pointer is on one of them. -/
structure Right (m : Owners) (s : State) : Prop where
  objects : s.objects = m.pointers
  cnt : ∀ c cell, s.cells c = some cell → cell.use =
    match cell.val with
    | some p => m.holders (some p)
    | none => sharers s.pointers c
  deleted : s.deleted = m.deleted
  sound : m.Sound

/-- A counter does not reach `2 ^ 32`, a raw pointer is not on an object that has a pointer, and the only pointer
on a cell is not assigned to itself. -/
def Careful (m : Owners) (s : State) : Op → Prop
  | .default => sharers s.pointers null + 1 < 2 ^ 32
  | .make p => ∀ o ∈ p, m.holders (some o) = 0
  | .copy y => ∀ c ∈ slot s.pointers y, sharers s.pointers c + 1 < 2 ^ 32
  | .assign x y => ∀ c ∈ slot s.pointers x, ∀ d ∈ slot s.pointers y,
      if c = d then sharers s.pointers c ≠ 1 else sharers s.pointers d + 1 < 2 ^ 32
  | .assignPtr _ p => ∀ o ∈ p, m.holders (some o) = 0
  | .destroy _ => True

instance (m : Owners) (s : State) : ∀ op, Decidable (Careful m s op)
  | .default => inferInstanceAs (Decidable (_ < _))
  | .make p => inferInstanceAs (Decidable (∀ o ∈ p, m.holders (some o) = 0))
  | .copy y => inferInstanceAs (Decidable (∀ c ∈ slot s.pointers y, sharers s.pointers c + 1 < 2 ^ 32))
  | .assign x y => inferInstanceAs (Decidable (∀ c ∈ slot s.pointers x, ∀ d ∈ slot s.pointers y,
      if c = d then sharers s.pointers c ≠ 1 else sharers s.pointers d + 1 < 2 ^ 32))
  | .assignPtr _ p => inferInstanceAs (Decidable (∀ o ∈ p, m.holders (some o) = 0))
  | .destroy _ => isTrue trivial

/-! ## The cells -/

/-- The cells, from the number of their pointers and from their objects. -/
def cellsOf (val : Nat → Option Nat) (n : Nat → Nat) : Heap (Option Nat) :=
  fun c => if n c = 0 then none else some ⟨n c, val c⟩

section Cells

variable {val : Nat → Option Nat} {n : Nat → Nat} {s : State} {c : Nat}

theorem cellsOf_of_pos (h : 0 < n c) : cellsOf val n c = some ⟨n c, val c⟩ := if_neg h.ne'

theorem cellsOf_update (k : Nat) : cellsOf val (update n c k) =
    update (cellsOf val n) c (if k = 0 then none else some ⟨k, val c⟩) := by
  funext d
  by_cases hd : d = c
  · subst hd
    simp only [cellsOf, update_self]
  · simp only [cellsOf, update_of_ne hd]

theorem lock_eq_none (hcells : s.cells = cellsOf val n) (hc : n c = 0) : s.lock c = none := by
  unfold State.lock retain
  rw [hcells, cellsOf, if_pos hc]
  rfl

theorem lock_spec (hcells : s.cells = cellsOf val n) (hc : 0 < n c) : s.lock c =
    some { s with cells := update s.cells c (some ⟨(n c + 1) % 2 ^ 32, val c⟩) } := by
  unfold State.lock retain
  rw [hcells, cellsOf_of_pos hc]
  rfl

/-- A pointer leaves a cell, which is deleted with its object if there was no other one. -/
theorem unlock_spec (hcells : s.cells = cellsOf val n) (hpos : 0 < n c) (hlt : n c < 2 ^ 32)
    (hlast : n c = 1 → c ≠ null ∧ ∀ p ∈ val c, p ∉ s.deleted) : s.unlock c =
      some { s with
        cells := cellsOf val (update n c (n c - 1))
        deleted := s.deleted ++ if n c = 1 then (val c).toList else [] } := by
  have hcnt : (n c + (2 ^ 32 - 1)) % 2 ^ 32 = n c - 1 := by omega
  unfold State.unlock
  rw [hcells, cellsOf_of_pos hpos, bind_eq_bind, bind_some]
  simp only [hcnt]
  by_cases hone : n c = 1
  · obtain ⟨hnull, hnot⟩ := hlast hone
    rw [if_pos (by omega), if_pos hone, cellsOf_update, if_pos (by omega)]
    unfold State.clear
    simp only [update_self, bind_eq_bind, bind_some, if_neg hnull, update_idem]
    cases hval : val c with
    | none => simp
    | some p => simp [hnot p hval]
  · rw [if_neg (by omega), if_neg hone, cellsOf_update, if_neg (by omega), append_nil]

end Cells

/-! ## The pointers -/

section Sharers

variable {l : List (Option Nat)} {x c : Nat}

theorem sharers_add (c d : Nat) : sharers (l ++ [some c]) d = sharers l d + if d = c then 1 else 0 := by
  rw [sharers, refs_append, sharers]
  exact Nat.add_right_comm _ _ _

theorem sharers_of_slot (hx : slot l x = some c) : 0 < sharers l c :=
  Nat.add_pos_left (refs_pos.mpr ⟨x, c, hx, rfl⟩) _

theorem sharers_null : 0 < sharers l null := by
  rw [sharers, if_pos rfl]
  exact succ_pos _

theorem sharers_set (hx : slot l x = some c) (o : Option Nat) (d : Nat) : sharers (l.set x o) d =
    sharers l d - (if d = c then 1 else 0) + if o = some d then 1 else 0 := by
  have hpos : 0 < refs id l c := refs_pos.mpr ⟨x, c, hx, rfl⟩
  have hset : refs id (l.set x o) d =
      refs id l d - (if d = c then 1 else 0) + if o = some d then 1 else 0 := by
    cases o with
    | none =>
      rw [refs_clear hx, if_neg (some_ne_none d).symm]
      rfl
    | some e =>
      rw [refs_put hx]
      simp only [id_eq, some.injEq, eq_comm]
  rw [sharers, hset, sharers]
  by_cases hd : d = c
  · subst hd
    rw [if_pos rfl]
    omega
  · rw [if_neg hd]
    omega

theorem sharers_clear (hx : slot l x = some c) :
    sharers (l.set x none) = update (sharers l) c (sharers l c - 1) := by
  funext d
  rw [sharers_set hx, update_apply, if_neg (some_ne_none d).symm]
  split_ifs with hd
  · rw [hd]
    rfl
  · rfl

theorem sharers_move (hx : slot l x = some c) {n : Nat → Nat}
    (hn : n = update (sharers l) c (sharers l c - 1)) (d : Nat) :
    sharers (l.set x (some d)) = update n d (n d + 1) := by
  funext e
  rw [sharers_set hx, hn]
  simp only [update_apply, some.injEq]
  by_cases hde : d = e
  · subst hde
    rw [if_pos rfl, if_pos rfl]
    split_ifs with hdc
    · rw [hdc]
    · rfl
  · rw [if_neg hde, if_neg (Ne.symm hde)]
    split_ifs with hec
    · rw [hec]
      rfl
    · rfl

theorem slot_bind {α β : Type} (f : α → Option β) (l : List (Option α)) (x : Nat) :
    slot (l.map fun o => o.bind f) x = (slot l x).bind f := by
  unfold slot
  rw [getElem?_map]
  rcases l[x]? with _ | _ | a <;> rfl

theorem slot_map {α β : Type} (f : α → β) (l : List (Option α)) (x : Nat) :
    slot (l.map (Option.map f)) x = (slot l x).map f := by
  rw [map_eq_bind, ← slot_bind]
  congr 2
  funext o
  exact map_eq_bind

end Sharers

/-! ## The invariant -/

/-- The pointers, when `val` gives the objects of the cells: counters are small, there is no cell after the last
that has been made, and an object has one cell. -/
structure Shape (val : Nat → Option Nat) (next : Nat) (l : List (Option Nat)) : Prop where
  small : ∀ c, sharers l c < 2 ^ 32
  fresh : ∀ c, next ≤ c → sharers l c = 0
  null : val null = none
  alone : ∀ c d p, 0 < sharers l c → 0 < sharers l d → val c = some p → val d = some p → c = d

section Shape

variable {val : Nat → Option Nat} {next : Nat} {l l' : List (Option Nat)} {c : Nat}

/-- A pointer goes to a cell that exists. -/
theorem Shape.reuse (h : Shape val next l) (hpos : 0 < sharers l c)
    (hle : ∀ d, sharers l' d ≤ sharers l d + if d = c then 1 else 0) (hlt : sharers l' c < 2 ^ 32) :
    Shape val next l' := by
  have hlive : ∀ d, 0 < sharers l' d → 0 < sharers l d := by
    intro d hd
    have hdle := hle d
    split_ifs at hdle with hdc
    · rwa [hdc]
    · omega
  refine ⟨fun d => ?_, fun d hd => ?_, h.null, fun d e p hd he => h.alone d e p (hlive d hd) (hlive e he)⟩
  · have hdle := hle d
    split_ifs at hdle with hdc
    · rwa [hdc]
    · exact Nat.lt_of_le_of_lt hdle (h.small d)
  · by_contra hne
    have hd' := hlive d (Nat.pos_of_ne_zero hne)
    rw [h.fresh d hd] at hd'
    exact absurd hd' (Nat.lt_irrefl 0)

theorem Shape.next_ne_null (h : Shape val next l) : next ≠ SharedPtr.null := by
  rintro rfl
  have hpos := sharers_null (l := l)
  rw [h.fresh _ (Nat.le_refl _)] at hpos
  exact absurd hpos (Nat.lt_irrefl 0)

/-- A pointer goes to a cell made for a raw pointer. -/
theorem Shape.new (h : Shape val next l) (hle : ∀ d, sharers l' d ≤ sharers l d + if d = next then 1 else 0)
    {p : Option Nat} (hp : ∀ q ∈ p, ∀ d, 0 < sharers l d → val d ≠ some q) :
    Shape (update val next p) (next + 1) l' := by
  have hold : ∀ d, d ≠ next → sharers l' d ≤ sharers l d := by
    intro d hd
    have hdle := hle d
    rwa [if_neg hd, Nat.add_zero] at hdle
  refine ⟨fun d => ?_, fun d hd => ?_, ?_, fun d e q hd he hdq heq => ?_⟩
  · by_cases hd : d = next
    · have hdle := hle d
      rw [if_pos hd, h.fresh d (by omega)] at hdle
      omega
    · exact Nat.lt_of_le_of_lt (hold d hd) (h.small d)
  · have hdle := hold d (by omega)
    rw [h.fresh d (by omega)] at hdle
    omega
  · rw [update_of_ne (Ne.symm h.next_ne_null)]
    exact h.null
  · rw [update_apply] at hdq heq
    split_ifs at hdq heq with hdn hen hen
    · rw [hdn, hen]
    · exact absurd heq (hp q hdq e (Nat.lt_of_lt_of_le he (hold e hen)))
    · exact absurd hdq (hp q heq d (Nat.lt_of_lt_of_le hd (hold d hdn)))
    · exact h.alone d e q (Nat.lt_of_lt_of_le hd (hold d hdn)) (Nat.lt_of_lt_of_le he (hold e hen)) hdq heq

theorem map_eq {val' : Nat → Option Nat} (hold : ∀ d, 0 < sharers l d → val' d = val d) :
    l.map (Option.map val') = l.map (Option.map val) := by
  refine map_congr_left fun o ho => ?_
  cases o with
  | none => rfl
  | some d =>
    obtain ⟨x, hx⟩ := getElem?_of_mem ho
    rw [map_some, map_some, hold d (sharers_of_slot (slot_eq_some.mpr hx))]

/-- The pointers on an object are those on its cell. -/
theorem holders_eq {m : Owners} (hm : m.pointers = l.map (Option.map val)) (hnull : val null = none) {p : Nat}
    (hc : val c = some p) (honly : ∀ d, 0 < sharers l d → val d = some p → d = c) :
    m.holders (some p) = sharers l c := by
  have hne : c ≠ null := by
    rintro rfl
    rw [hnull] at hc
    cases hc
  rw [sharers, if_neg hne, Nat.add_zero, Owners.holders, hm, count_eq_countP, countP_map, refs]
  refine countP_congr fun o ho => ?_
  cases o with
  | none => simp
  | some d =>
    obtain ⟨x, hx⟩ := getElem?_of_mem ho
    have hlive : 0 < sharers l d := sharers_of_slot (slot_eq_some.mpr hx)
    simp only [comp_apply, map_some, beq_iff_eq, some.injEq, any_some, id_eq,
      decide_eq_true_iff]
    constructor
    · exact fun hd => (honly d hlive hd).symm
    · rintro rfl
      exact hc

end Shape

/-- The invariant of the runs. -/
structure Inv (val : Nat → Option Nat) (m : Owners) (s : State) : Prop where
  cells : s.cells = cellsOf val (sharers s.pointers)
  shape : Shape val s.next s.pointers
  pointers : m.pointers = s.pointers.map (Option.map val)
  deleted : s.deleted = m.deleted
  sound : m.Sound

section Invariant

variable {val val' : Nat → Option Nat} {next : Nat} {m m' : Owners} {s s' : State} {x c : Nat} {o : Option Nat}

theorem start_inv : Inv (fun _ => none) .start .start := by
  have hcount : ∀ c, sharers [] c = if c = null then 1 else 0 := fun c => Nat.zero_add _
  refine ⟨?_, ⟨fun c => ?_, fun c hc => ?_, rfl, fun c d p _ _ hp => nomatch hp⟩, rfl, rfl,
    Owners.start_sound⟩
  · funext c
    change update (fun _ => none) null (some (Cell.mk 1 none)) c = _
    rw [State.start, cellsOf, hcount, update_apply]
    by_cases hc : c = null
    · simp [hc]
    · simp [hc]
  · rw [State.start, hcount]
    split_ifs
    · decide
    · decide
  · change 1 ≤ c at hc
    rw [State.start, hcount, if_neg (by rw [null]; omega)]

theorem Inv.right (h : Inv val m s) : Right m s := by
  refine ⟨?_, fun c cell hcell => ?_, h.deleted, h.sound⟩
  · rw [h.pointers, State.objects]
    refine map_congr_left fun o ho => ?_
    cases o with
    | none => rfl
    | some c =>
      obtain ⟨x, hx⟩ := getElem?_of_mem ho
      rw [bind_some, h.cells, cellsOf_of_pos (sharers_of_slot (slot_eq_some.mpr hx))]
      rfl
  · rw [h.cells] at hcell
    obtain ⟨hpos, hcell⟩ := ite_none_left_eq_some.mp hcell
    obtain rfl := some.inj hcell
    cases hval : val c with
    | none => rfl
    | some p =>
      exact (holders_eq h.pointers h.shape.null hval fun d hd hdp =>
        h.shape.alone d c p hd (Nat.pos_of_ne_zero hpos) hdp hval).symm

theorem Inv.slot_eq (h : Inv val m s) (x : Nat) : slot m.pointers x = (slot s.pointers x).map val := by
  rw [h.pointers, slot_map]

theorem Inv.exists_cell (h : Inv val m s) {o : Option (Option Nat)} (hput : m.put x o = some m') :
    ∃ c, slot s.pointers x = some c := by
  obtain ⟨old, hold, -⟩ := map_eq_some_iff.mp hput
  rw [h.slot_eq] at hold
  obtain ⟨c, hc, -⟩ := map_eq_some_iff.mp hold
  exact ⟨c, hc⟩

/-- The object of a cell with pointers has not been deleted. -/
theorem Inv.not_deleted (h : Inv val m s) (hpos : 0 < sharers s.pointers c) : ∀ p ∈ val c, p ∉ s.deleted := by
  intro p hp hdel
  have hholders := holders_eq h.pointers h.shape.null hp fun d hd hdp =>
    h.shape.alone d c p hd hpos hdp hp
  rw [h.deleted] at hdel
  rw [h.sound.out p hdel] at hholders
  omega

/-- A pointer leaves its cell. -/
theorem Inv.unlock (h : Inv val m s) (hx : slot s.pointers x = some c) : s.unlock c = some { s with
    cells := cellsOf val (update (sharers s.pointers) c (sharers s.pointers c - 1))
    deleted := s.deleted ++ if sharers s.pointers c = 1 then (val c).toList else [] } := by
  have hpos := sharers_of_slot hx
  refine unlock_spec h.cells hpos (h.shape.small c) fun hone => ⟨?_, h.not_deleted hpos⟩
  rintro rfl
  have hrefs : 0 < refs id s.pointers null := refs_pos.mpr ⟨x, null, hx, rfl⟩
  rw [sharers, if_pos rfl] at hone
  omega

/-- A new pointer, on a cell `c`. -/
theorem Inv.add (h : Inv val m s) (hold : ∀ d, 0 < sharers s.pointers d → val' d = val d)
    (hshape : Shape val' next (s.pointers ++ [some c])) (hsound : (m.add (val' c)).Sound) :
    Inv val' (m.add (val' c)) ⟨cellsOf val' (sharers (s.pointers ++ [some c])), next, s.pointers ++ [some c],
      s.deleted⟩ := by
  refine ⟨rfl, hshape, ?_, h.deleted, hsound⟩
  rw [Owners.add, h.pointers, map_append, map_singleton, map_some, map_eq hold]

/-- Pointer `x` goes from the cell `c` to another one, or is destroyed. -/
theorem Inv.put (h : Inv val m s) (hx : slot s.pointers x = some c)
    (hold : ∀ d, 0 < sharers s.pointers d → val' d = val d) (hshape : Shape val' next (s.pointers.set x o))
    (honly : ∀ p ∈ val c, ∀ d, 0 < sharers (s.pointers.set x o) d → val' d = some p → d = c)
    (hself : o = some c → sharers s.pointers c ≠ 1) (hput : m.put x (o.map val') = some m') (hsound : m'.Sound) :
    Inv val' m' ⟨cellsOf val' (sharers (s.pointers.set x o)), next, s.pointers.set x o,
      s.deleted ++ if sharers s.pointers c = 1 then (val c).toList else []⟩ := by
  rw [Owners.put, h.slot_eq, hx, map_some, map_some, some.injEq] at hput
  subst hput
  have hpointers : m.pointers.set x (o.map val') = (s.pointers.set x o).map (Option.map val') := by
    rw [h.pointers, map_set, map_eq hold]
  refine ⟨rfl, hshape, ?_, ?_, hsound⟩
  · rw [Owners.pointers_left]
    exact hpointers
  · rw [Owners.deleted_left, h.deleted]
    change m.deleted ++ _ = m.deleted ++ _
    cases hval : val c with
    | none => simp
    | some p =>
      have hc : val' c = some p := by rw [hold c (sharers_of_slot hx), hval]
      have hholders := holders_eq (m := { m with pointers := m.pointers.set x (o.map val') }) hpointers
        hshape.null hc (honly p hval)
      have hpos := sharers_of_slot hx
      have hlast : sharers s.pointers c = 1 ↔ sharers (s.pointers.set x o) c = 0 := by
        rw [sharers_set hx, if_pos rfl]
        by_cases ho : o = some c
        · rw [if_pos ho]
          exact iff_of_false (hself ho) (succ_ne_zero _)
        · rw [if_neg ho]
          omega
      rw [hholders]
      simp only [hlast]

/-! ## One operation -/

theorem lock_inv (h : Inv val m s) (hpos : 0 < sharers s.pointers c) (hlt : sharers s.pointers c + 1 < 2 ^ 32)
    (hsound : (m.add (val c)).Sound) :
    ∃ s', (s.lock c).map (fun s => s.add c) = some s' ∧ Inv val (m.add (val c)) s' := by
  have hshape : Shape val s.next (s.pointers ++ [some c]) := by
    refine h.shape.reuse hpos (fun d => (sharers_add c d).le) ?_
    rw [sharers_add, if_pos rfl]
    exact hlt
  have hcells : update (cellsOf val (sharers s.pointers)) c
      (some ⟨sharers s.pointers c + 1, val c⟩) = cellsOf val (sharers (s.pointers ++ [some c])) := by
    have hcount : sharers (s.pointers ++ [some c]) =
        update (sharers s.pointers) c (sharers s.pointers c + 1) := by
      funext d
      rw [sharers_add, update_apply]
      split_ifs with hd
      · rw [hd]
      · rfl
    rw [hcount, cellsOf_update, if_neg (succ_ne_zero _)]
  refine ⟨_, ?_, h.add (fun _ _ => rfl) hshape hsound⟩
  rw [lock_spec h.cells hpos, mod_eq_of_lt hlt, h.cells, hcells]
  rfl

/-- A raw pointer is not on an object that has a cell. -/
theorem Inv.not_held (h : Inv val m s) {p : Option Nat} (hp : ∀ q ∈ p, m.holders (some q) = 0) :
    ∀ q ∈ p, ∀ d, 0 < sharers s.pointers d → val d ≠ some q := by
  intro q hq d hd hval
  have hholders := holders_eq h.pointers h.shape.null hval fun e he heq =>
    h.shape.alone e d q he hd heq hval
  rw [hp q hq] at hholders
  omega

/-- The cell that is made for a raw pointer, when the other pointers are `l`. -/
theorem newCell_cells {l : List (Option Nat)} {n : Nat → Nat} (p : Option Nat)
    (hl : sharers l = update n next 1) :
    update (cellsOf val n) next (some ⟨1, p⟩) = cellsOf (update val next p) (sharers l) := by
  funext d
  rw [hl]
  by_cases hd : d = next
  · subst hd
    simp only [cellsOf, update_self]
    rfl
  · simp only [cellsOf, update_of_ne hd]

theorem make_inv (h : Inv val m s) {p : Option Nat} (hp : ∀ q ∈ p, m.holders (some q) = 0)
    (hsound : (m.add p).Sound) :
    Inv (update val s.next p) (m.add p) ((s.newCell p).add s.next) := by
  have hcount : sharers (s.pointers ++ [some s.next]) = update (sharers s.pointers) s.next 1 := by
    funext d
    rw [sharers_add, update_apply]
    split_ifs with hd
    · rw [hd, h.shape.fresh _ (Nat.le_refl _)]
    · rfl
  have hshape : Shape (update val s.next p) (s.next + 1) (s.pointers ++ [some s.next]) :=
    h.shape.new (fun d => (sharers_add s.next d).le) (h.not_held hp)
  have hold : ∀ d, 0 < sharers s.pointers d → update val s.next p d = val d := by
    intro d hd
    refine update_of_ne ?_ _ _
    rintro rfl
    rw [h.shape.fresh _ (Nat.le_refl _)] at hd
    exact absurd hd (Nat.lt_irrefl 0)
  have hnew := h.add hold hshape (by rwa [update_self])
  rw [update_self] at hnew
  rw [State.newCell, State.add, h.cells, newCell_cells p hcount]
  exact hnew

/-- The counters when a pointer has left its cell. -/
def leave (n : Nat → Nat) (c : Nat) : Nat → Nat := update n c (n c - 1)

theorem assign_eq (h : Inv val m s) (hx : slot s.pointers x = some c) {y d : Nat}
    (hy : slot s.pointers y = some d) (hpos : 0 < leave (sharers s.pointers) c d) : s.step (.assign x y) = some
      { cells := update (cellsOf val (leave (sharers s.pointers) c)) d
          (some ⟨(leave (sharers s.pointers) c d + 1) % 2 ^ 32, val d⟩)
        next := s.next
        pointers := s.pointers.set x (some d)
        deleted := s.deleted ++ if sharers s.pointers c = 1 then (val c).toList else [] } := by
  simp only [State.step, hx, bind_eq_bind, bind_some, h.unlock hx, hy]
  exact lock_spec (n := leave (sharers s.pointers) c) rfl hpos

/-- The only pointer on a cell, to itself. -/
theorem assign_eq_none (h : Inv val m s) (hx : slot s.pointers x = some c) {y : Nat}
    (hy : slot s.pointers y = some c) (hone : sharers s.pointers c = 1) : s.step (.assign x y) = none := by
  simp only [State.step, hx, bind_eq_bind, bind_some, h.unlock hx, hy]
  refine lock_eq_none (n := leave (sharers s.pointers) c) rfl ?_
  rw [leave, update_self, hone]

theorem assign_inv (h : Inv val m s) (hx : slot s.pointers x = some c) {y d : Nat}
    (hy : slot s.pointers y = some d) (hself : d = c → sharers s.pointers c ≠ 1)
    (hlt : d ≠ c → sharers s.pointers d + 1 < 2 ^ 32)
    (hput : m.put x (some (val d)) = some m') (hsound : m'.Sound) :
    ∃ s', s.step (.assign x y) = some s' ∧ Inv val m' s' := by
  have hd := sharers_of_slot hy
  have hmove := sharers_move hx rfl d
  have hsmall := h.shape.small d
  have hcount : leave (sharers s.pointers) c d + 1 = sharers (s.pointers.set x (some d)) d := by
    rw [hmove, update_self]
    rfl
  have hbounds : 0 < leave (sharers s.pointers) c d ∧ leave (sharers s.pointers) c d + 1 < 2 ^ 32 := by
    rw [leave, update_apply]
    by_cases hdc : d = c
    · have hne := hself hdc
      rw [if_pos hdc, ← hdc]
      rw [← hdc] at hne
      omega
    · rw [if_neg hdc]
      exact ⟨hd, hlt hdc⟩
  have hle : ∀ e, sharers (s.pointers.set x (some d)) e ≤ sharers s.pointers e + if e = d then 1 else 0 := by
    intro e
    rw [sharers_set hx]
    simp only [some.injEq, eq_comm (a := d)]
    omega
  have hshape : Shape val s.next (s.pointers.set x (some d)) := h.shape.reuse hd hle (hcount ▸ hbounds.2)
  refine ⟨_, assign_eq h hx hy hbounds.1, ?_⟩
  have hinv := h.put hx (fun _ _ => rfl) hshape ?_ ?_ hput hsound
  · rw [mod_eq_of_lt hbounds.2]
    rw [hmove, cellsOf_update, if_neg (succ_ne_zero _)] at hinv
    exact hinv
  · intro p hp e he hep
    have hlive : 0 < sharers s.pointers e := by
      have hele := hle e
      split_ifs at hele with hed
      · rwa [hed]
      · omega
    exact h.shape.alone e c p hlive (sharers_of_slot hx) hep hp
  · intro heq
    exact hself (some.inj heq)

theorem assignPtr_eq (h : Inv val m s) (hx : slot s.pointers x = some c) (p : Option Nat) :
    s.step (.assignPtr x p) = some
      { cells := update (cellsOf val (leave (sharers s.pointers) c)) s.next (some ⟨1, p⟩)
        next := s.next + 1
        pointers := s.pointers.set x (some s.next)
        deleted := s.deleted ++ if sharers s.pointers c = 1 then (val c).toList else [] } := by
  simp only [State.step, hx, bind_eq_bind, bind_some, h.unlock hx]
  rfl

theorem assignPtr_inv (h : Inv val m s) (hx : slot s.pointers x = some c) {p : Option Nat}
    (hp : ∀ q ∈ p, m.holders (some q) = 0) (hput : m.put x (some p) = some m') (hsound : m'.Sound) :
    ∃ s' val', s.step (.assignPtr x p) = some s' ∧ Inv val' m' s' := by
  have hc := sharers_of_slot hx
  have hnext : sharers s.pointers s.next = 0 := h.shape.fresh _ (Nat.le_refl _)
  have hne : s.next ≠ c := by
    rintro heq
    rw [heq] at hnext
    omega
  have hmove : sharers (s.pointers.set x (some s.next)) =
      update (leave (sharers s.pointers) c) s.next 1 := by
    rw [sharers_move hx rfl, update_of_ne hne, hnext]
    rfl
  have hle : ∀ e, sharers (s.pointers.set x (some s.next)) e ≤
      sharers s.pointers e + if e = s.next then 1 else 0 := by
    intro e
    rw [sharers_set hx]
    simp only [some.injEq, eq_comm (a := s.next)]
    omega
  have hold : ∀ d, 0 < sharers s.pointers d → update val s.next p d = val d := by
    intro d hd
    refine update_of_ne ?_ _ _
    rintro rfl
    omega
  refine ⟨_, update val s.next p, assignPtr_eq h hx p, ?_⟩
  rw [newCell_cells p hmove]
  refine h.put hx hold (h.shape.new hle (h.not_held hp)) ?_ ?_ ?_ hsound
  · intro q hq e he heq
    by_cases hen : e = s.next
    · rw [hen, update_self] at heq
      exact absurd hq (h.not_held hp q heq c hc)
    · have hlive := hle e
      rw [if_neg hen] at hlive
      rw [update_of_ne hen] at heq
      exact h.shape.alone e c q (by omega) hc heq hq
  · intro heq
    exact absurd (some.inj heq) hne
  · rw [map_some, update_self]
    exact hput

theorem destroy_inv (h : Inv val m s) (hx : slot s.pointers x = some c) (hput : m.put x none = some m')
    (hsound : m'.Sound) : ∃ s', s.step (.destroy x) = some s' ∧ Inv val m' s' := by
  have hle : ∀ e, sharers (s.pointers.set x none) e ≤ sharers s.pointers e + if e = c then 1 else 0 := by
    intro e
    rw [sharers_set hx, if_neg (some_ne_none e).symm]
    omega
  have hlt : sharers (s.pointers.set x none) c < 2 ^ 32 := by
    have hsmall := h.shape.small c
    rw [sharers_set hx, if_neg (some_ne_none c).symm]
    omega
  have hinv := h.put (o := none) hx (fun _ _ => rfl) (h.shape.reuse (sharers_of_slot hx) hle hlt) ?_ ?_ hput hsound
  · refine ⟨_, ?_, hinv⟩
    simp only [State.step, hx, bind_eq_bind, bind_some, h.unlock hx, sharers_clear hx]
    rfl
  · intro p hp e he hep
    have hlive : 0 < sharers s.pointers e := by
      rw [sharers_set hx, if_neg (some_ne_none e).symm] at he
      omega
    exact h.shape.alone e c p hlive (sharers_of_slot hx) hep hp
  · rintro ⟨⟩

theorem step_inv (h : Inv val m s) {op : Op} (hop : m.step op = some m') (hcareful : Careful m s op) :
    ∃ s' val', s.step op = some s' ∧ Inv val' m' s' := by
  have hsound := Owners.step_sound h.sound hop
  cases op with
  | default =>
    obtain rfl := some.inj hop
    rw [← h.shape.null] at hsound ⊢
    obtain ⟨s', hs', hinv⟩ := lock_inv h sharers_null hcareful hsound
    exact ⟨s', val, hs', hinv⟩
  | make p =>
    obtain ⟨-, hop⟩ := ite_none_right_eq_some.mp hop
    obtain rfl := some.inj hop
    exact ⟨_, _, rfl, make_inv h hcareful hsound⟩
  | copy y =>
    obtain ⟨o, ho, rfl⟩ := map_eq_some_iff.mp hop
    rw [h.slot_eq] at ho
    obtain ⟨c, hc, rfl⟩ := map_eq_some_iff.mp ho
    obtain ⟨s', hs', hinv⟩ := lock_inv h (sharers_of_slot hc) (hcareful c hc) hsound
    refine ⟨s', val, ?_, hinv⟩
    rw [State.step, hc, bind_eq_bind, bind_some, ← hs', map_eq_bind]
    rfl
  | assign x y =>
    obtain ⟨o, ho, hput⟩ := bind_eq_some_iff.mp hop
    rw [h.slot_eq] at ho
    obtain ⟨d, hd, rfl⟩ := map_eq_some_iff.mp ho
    obtain ⟨c, hc⟩ := h.exists_cell hput
    have hcond := hcareful c hc d hd
    have hself : d = c → sharers s.pointers c ≠ 1 := fun heq => by rwa [if_pos heq.symm] at hcond
    have hlt : d ≠ c → sharers s.pointers d + 1 < 2 ^ 32 := fun hne => by rwa [if_neg (Ne.symm hne)] at hcond
    obtain ⟨s', hs', hinv⟩ := assign_inv h hc hd hself hlt hput hsound
    exact ⟨s', val, hs', hinv⟩
  | assignPtr x p =>
    obtain ⟨-, hput⟩ := ite_none_right_eq_some.mp hop
    obtain ⟨c, hc⟩ := h.exists_cell hput
    exact assignPtr_inv h hc hcareful hput hsound
  | destroy x =>
    obtain ⟨c, hc⟩ := h.exists_cell hop
    obtain ⟨s', hs', hinv⟩ := destroy_inv h hc hop hsound
    exact ⟨s', val, hs', hinv⟩

/-! ## The operations that go wrong -/

/-- The counter of a cell with a pointer. -/
theorem Right.cnt_pos (h : Right m s) (hx : slot s.pointers x = some c) {cell : Cell (Option Nat)}
    (hcell : s.cells c = some cell) : 0 < cell.use := by
  rw [h.cnt c cell hcell]
  cases hval : cell.val with
  | none => exact sharers_of_slot hx
  | some p =>
    refine Owners.holders_pos.mpr ⟨x, ?_⟩
    rw [← h.objects, State.objects, slot_bind, hx, bind_some, hcell, map_some, hval]

/-- A counter that comes to `2 ^ 32` is zero. -/
theorem not_right_lock (h : Inv val m s) (hpos : 0 < sharers s.pointers c)
    (hover : ¬ sharers s.pointers c + 1 < 2 ^ 32) (hlock : (s.lock c).map (fun s => s.add c) = some s') :
    ¬ Right m' s' := by
  intro hright
  have hsmall := h.shape.small c
  rw [lock_spec h.cells hpos, show sharers s.pointers c + 1 = 2 ^ 32 by omega, map_some] at hlock
  obtain rfl := some.inj hlock
  have hslot : slot (s.pointers ++ [some c]) s.pointers.length = some c := by
    rw [slot_append, if_pos rfl]
  exact absurd (hright.cnt_pos hslot (update_self _ _ _)) (Nat.lt_irrefl 0)

/-- A new cell for an object that had a pointer. -/
theorem holders_of_right (hright : Right m s) {p : Option Nat} (hcell : s.cells c = some ⟨1, p⟩) :
    ∀ q ∈ p, m.holders (some q) = 1 := by
  rintro q rfl
  exact (hright.cnt c _ hcell).symm

theorem not_right (h : Inv val m s) {op : Op} (hop : m.step op = some m') (hcareful : ¬ Careful m s op)
    (hstep : s.step op = some s') : ¬ Right m' s' := by
  cases op with
  | default => exact not_right_lock h sharers_null hcareful hstep
  | make p =>
    intro hright
    obtain ⟨-, hop⟩ := ite_none_right_eq_some.mp hop
    obtain rfl := some.inj hop
    obtain rfl := some.inj hstep
    apply hcareful
    intro q hq
    have hone := holders_of_right hright (update_self _ _ _) q hq
    rw [Owners.holders_add, hq, if_pos rfl] at hone
    omega
  | copy y =>
    obtain ⟨c, hc, hstep⟩ := bind_eq_some_iff.mp hstep
    refine not_right_lock h (sharers_of_slot hc) (fun hlt => hcareful ?_) (map_eq_bind.trans hstep)
    intro c' hc'
    obtain rfl := some.inj (hc.symm.trans hc')
    exact hlt
  | assign x y =>
    intro hright
    obtain ⟨c, hc, hrest⟩ := bind_eq_some_iff.mp hstep
    obtain ⟨o, ho, -⟩ := bind_eq_some_iff.mp hop
    rw [h.slot_eq] at ho
    obtain ⟨d, hd, -⟩ := map_eq_some_iff.mp ho
    apply hcareful
    rintro c' hc' d' hd'
    obtain rfl := some.inj (hc.symm.trans hc')
    obtain rfl := some.inj (hd.symm.trans hd')
    by_cases hcd : c = d
    · rw [if_pos hcd]
      intro hone
      rw [assign_eq_none h hc (hcd ▸ hd) hone] at hstep
      cases hstep
    · rw [if_neg hcd]
      by_contra hover
      have hsmall := h.shape.small d
      have hleave : leave (sharers s.pointers) c d = sharers s.pointers d :=
        update_of_ne (Ne.symm hcd) _ _
      rw [assign_eq h hc hd (hleave ▸ sharers_of_slot hd), hleave,
        show sharers s.pointers d + 1 = 2 ^ 32 by omega] at hstep
      obtain rfl := some.inj hstep
      have hslot : slot (s.pointers.set x (some d)) x = some d := by
        rw [slot_set (lt_of_slot hc), if_pos rfl]
      exact absurd (hright.cnt_pos hslot (update_self _ _ _)) (Nat.lt_irrefl 0)
  | assignPtr x p =>
    intro hright
    obtain ⟨-, hput⟩ := ite_none_right_eq_some.mp hop
    obtain ⟨c, hc⟩ := h.exists_cell hput
    rw [assignPtr_eq h hc] at hstep
    obtain rfl := some.inj hstep
    rw [Owners.put, h.slot_eq, hc, map_some, map_some, some.injEq] at hput
    subst hput
    apply hcareful
    rintro q rfl
    have hone := holders_of_right hright (update_self _ _ _) q rfl
    have hslot : slot m.pointers x = some (val c) := by rw [h.slot_eq, hc, map_some]
    rw [Owners.holders_left, Owners.holders_set hslot, if_pos rfl] at hone
    by_contra hne
    -- the only pointer on the object is the one that gets it again
    have hq : some q = val c := by
      by_contra hother
      rw [if_neg hother] at hone
      omega
    rw [if_pos hq] at hone
    have hcount := holders_eq h.pointers h.shape.null hq.symm fun d hd hdq =>
      h.shape.alone d c q hd (sharers_of_slot hc) hdq hq.symm
    have hdeleted := hright.deleted
    rw [Owners.deleted_left, Owners.holders_set hslot, if_pos rfl, ← hq, if_pos rfl, if_neg (succ_ne_zero _),
      if_pos (by omega), h.deleted] at hdeleted
    exact absurd hdeleted (by simp)
  | destroy x => exact absurd trivial hcareful

end Invariant

/-- The program beside what it means. -/
def both : Owners × State → Op → Option (Owners × State) := Run.beside Owners.step State.step

/-- In every run on pointers that exist and objects that have not been deleted, the pointers are right all along if
and only if every operation is careful. -/
theorem run_iff {ops : List Op} {m : Owners} (hops : Run.exec Owners.step .start ops = some m) :
    (∀ k, ∃ t, Run.exec both (.start, .start) (ops.take k) = some t ∧ Right t.1 t.2) ↔
      Run.Meets (fun t op => Careful t.1 t.2 op) both (.start, .start) ops := by
  have hallowed := (Run.meets_isSome hops).beside State.step State.start
  refine (Run.meets_iff_forall_exists_exec (fun t => ∃ val, Inv val t.1 t.2) (fun t => Right t.1 t.2) ?_ ?_ ?_ ops
    _ ⟨_, start_inv⟩ hallowed).symm
  · rintro t ⟨val, h⟩
    exact h.right
  · rintro t op ⟨val, h⟩ hop hcareful
    obtain ⟨m', hm'⟩ := isSome_iff_exists.mp hop
    obtain ⟨s', val', hs', hinv⟩ := step_inv h hm' hcareful
    exact ⟨(m', s'), Run.beside_eq_some.mpr ⟨hm', hs'⟩, val', hinv⟩
  · rintro t op t' ⟨val, h⟩ - hcareful hstep
    obtain ⟨hm', hs'⟩ := Run.beside_eq_some.mp hstep
    exact not_right h hm' hcareful hs'

end Elm.Util.SharedPtr
