import Mathlib.Tactic

/-!
# Cells with a counter of references

Each cell has a counter that goes up and down modulo `N` with its references, and is freed when the counter
comes back to zero.  While a cell has no more than `N` references before one of them goes, the cells are
exactly the ones that have references.  The references are held by slots, which are filled and emptied.
-/

namespace RefCount

open Function List Option

variable {α : Type*}

structure Cell (α : Type*) where
  use : Nat
  val : α

/-- The cell at each address, if there is one. -/
abbrev Heap (α : Type*) := Nat → Option (Cell α)

/-- A new reference to the cell. -/
def retain (N : Nat) (h : Heap α) (a : Nat) : Option (Heap α) :=
  (h a).map fun c => update h a (some { c with use := (c.use + 1) % N })

/-- The loss of a reference; the static cells are not freed. -/
def release (N : Nat) (static : Nat → Bool) (h : Heap α) (a : Nat) : Option (Heap α) :=
  (h a).map fun c =>
    let use := (c.use + (N - 1)) % N
    update h a (if use = 0 ∧ ¬ static a then none else some { c with use })

/-! ## The counters -/

/-- The cells are the addresses that have references, and their counters are right modulo `N`. -/
def Counted (N : Nat) (static : Nat → Bool) (h : Heap α) (refs : Nat → Nat) : Prop :=
  ∀ a, ¬ static a → (h a = none ↔ refs a = 0) ∧ ∀ c, h a = some c → c.use = refs a % N

section Counters

variable {N : Nat} {static : Nat → Bool} {h h' : Heap α} {refs : Nat → Nat} {a : Nat} {c : Cell α}

theorem Counted.retain (hcount : Counted N static h refs) (ha : h a = some c) :
    Counted N static (update h a (some { c with use := (c.use + 1) % N }))
      (update refs a (refs a + 1)) := by
  intro b hb
  obtain ⟨hnone, huse⟩ := hcount b hb
  by_cases hba : b = a
  · subst hba
    constructor
    · simp
    · intro c' hc'
      rw [update_self] at hc' ⊢
      obtain rfl := some.inj hc'
      change (c.use + 1) % N = (refs b + 1) % N
      rw [huse c ha, Nat.mod_add_mod]
  · rw [update_of_ne hba, update_of_ne hba]
    exact ⟨hnone, huse⟩

/-- The counter comes back to zero with the last reference only. -/
theorem pred_mod_eq_zero {n : Nat} (hN : 1 < N) (hpos : 0 < n) (hle : n ≤ N) :
    (n % N + (N - 1)) % N = (n - 1) % N ∧ ((n - 1) % N = 0 ↔ n = 1) := by
  have hmod : (n % N + (N - 1)) % N = (n - 1) % N := by
    rw [Nat.mod_add_mod, show n + (N - 1) = n - 1 + N by omega, Nat.add_mod_right]
  refine ⟨hmod, ?_⟩
  rw [Nat.mod_eq_of_lt (by omega)]
  omega

theorem Counted.release (hcount : Counted N static h refs) (hN : 1 < N) (ha : h a = some c)
    (hle : static a ∨ refs a ≤ N) :
    Counted N static
      (update h a (if (c.use + (N - 1)) % N = 0 ∧ ¬ static a then none
        else some { c with use := (c.use + (N - 1)) % N }))
      (update refs a (refs a - 1)) := by
  intro b hb
  obtain ⟨hnone, huse⟩ := hcount b hb
  by_cases hba : b = a
  · subst hba
    have hpos : 0 < refs b := by
      rcases Nat.eq_zero_or_pos (refs b) with hzero | hpos
      · rw [hnone.mpr hzero] at ha
        cases ha
      · exact hpos
    obtain ⟨hmod, hlast⟩ := pred_mod_eq_zero hN hpos (hle.resolve_left hb)
    rw [update_self, update_self, huse c ha, hmod]
    by_cases hone : refs b = 1
    · rw [if_pos ⟨hlast.mpr hone, hb⟩, hone]
      simp
    · rw [if_neg fun hfreed => hone (hlast.mp hfreed.1)]
      constructor
      · constructor
        · intro hsome
          cases hsome
        · intro hzero
          omega
      · intro c' hc'
        obtain rfl := some.inj hc'
        rfl
  · rw [update_of_ne hba, update_of_ne hba]
    exact ⟨hnone, huse⟩

/-- A new cell, with its first reference. -/
theorem Counted.alloc (hcount : Counted N static h refs) (hN : 1 < N) (ha : h a = none)
    (hstatic : ¬ static a) (val : α) :
    Counted N static (update h a (some ⟨1, val⟩)) (update refs a (refs a + 1)) := by
  have hzero : refs a = 0 := (hcount a hstatic).1.mp ha
  intro b hb
  by_cases hba : b = a
  · subst hba
    constructor
    · simp
    · intro c' hc'
      rw [update_self] at hc' ⊢
      obtain rfl := some.inj hc'
      rw [hzero]
      exact (Nat.mod_eq_of_lt hN).symm
  · rw [update_of_ne hba, update_of_ne hba]
    exact hcount b hb

/-- A value that is written. -/
theorem Counted.write (hcount : Counted N static h refs) (ha : h a = some c) (val : α) :
    Counted N static (update h a (some { c with val })) refs := by
  intro b hb
  obtain ⟨hnone, huse⟩ := hcount b hb
  by_cases hba : b = a
  · subst hba
    rw [ha] at hnone
    rw [update_self]
    constructor
    · simpa using hnone
    · intro c' hc'
      obtain rfl := some.inj hc'
      exact huse c ha
  · rw [update_of_ne hba]
    exact ⟨hnone, huse⟩

theorem Counted.exists_cell (hcount : Counted N static h refs) (ha : ¬ static a) (hpos : 0 < refs a) :
    ∃ c, h a = some c := by
  cases hc : h a with
  | none => exact absurd ((hcount a ha).1.mp hc) (by omega)
  | some c => exact ⟨c, rfl⟩

/-- A reference that goes from `a` to `b`, where it is counted first. -/
theorem update_moved {b : Nat} (hpos : 0 < refs a) (x : Nat) :
    update (update refs b (refs b + 1)) a
        (update refs b (refs b + 1) a - 1) x =
      refs x - (if x = a then 1 else 0) + if x = b then 1 else 0 := by
  by_cases hab : a = b
  · subst hab
    rw [update_self, update_idem, update_apply]
    split_ifs with hx
    · rw [hx]
      omega
    · rfl
  · rw [update_of_ne hab, update_apply, update_apply]
    by_cases hx : x = a
    · rw [if_pos hx, if_pos hx, if_neg (hx ▸ hab), hx]
      rfl
    · rw [if_neg hx, if_neg hx]
      split_ifs with hxb
      · rw [hxb]
        rfl
      · rfl

end Counters

/-! ## The values -/

/-- The cells below an address that are still there have kept their values. -/
def Kept (bound : Nat) (h h' : Heap α) : Prop :=
  ∀ a < bound, ∀ c', h' a = some c' → ∃ c, h a = some c ∧ c.val = c'.val

section Values

variable {bound a : Nat} {h h' h'' : Heap α} {c : Cell α}

theorem Kept.refl (bound : Nat) (h : Heap α) : Kept bound h h := fun _ _ c hc => ⟨c, hc, rfl⟩

theorem Kept.trans (h₁ : Kept bound h h') (h₂ : Kept bound h' h'') : Kept bound h h'' := by
  intro b hb c'' hc''
  obtain ⟨c', hc', hval'⟩ := h₂ b hb c'' hc''
  obtain ⟨c, hc, hval⟩ := h₁ b hb c' hc'
  exact ⟨c, hc, hval.trans hval'⟩

/-- A cell that is changed, but not its value, or freed. -/
theorem kept_update (hc : h a = some c) {o : Option (Cell α)} (ho : ∀ c' ∈ o, c.val = c'.val) :
    Kept bound h (update h a o) := by
  intro b _ c' hc'
  by_cases hba : b = a
  · subst hba
    rw [update_self] at hc'
    exact ⟨c, hc, ho c' hc'⟩
  · rw [update_of_ne hba] at hc'
    exact ⟨c', hc', rfl⟩

/-- A cell that is not below the bound. -/
theorem kept_alloc (ha : bound ≤ a) (o : Option (Cell α)) : Kept bound h (update h a o) := by
  intro b hb c' hc'
  rw [update_of_ne (by omega)] at hc'
  exact ⟨c', hc', rfl⟩

end Values

/-! ## Slots -/

section Slots

variable {β : Type*} {l : List (Option β)} {x y : Nat} {o : Option β} {b : β}

/-- What a slot holds. -/
def slot (l : List (Option β)) (x : Nat) : Option β := (l[x]?).join

theorem slot_append : slot (l ++ [o]) y = if y = l.length then o else slot l y := by
  unfold slot
  split_ifs with hy
  · rw [hy, getElem?_concat_length]
    rfl
  · rcases Nat.lt_or_gt_of_ne hy with hlt | hgt
    · rw [getElem?_append_left hlt]
    · rw [getElem?_eq_none (by simp; omega), getElem?_eq_none (by omega)]

theorem lt_of_slot (h : slot l x = some b) : x < l.length := by
  by_contra hge
  rw [slot, getElem?_eq_none (by omega)] at h
  cases h

theorem slot_set (hx : x < l.length) : slot (l.set x o) y = if y = x then o else slot l y := by
  unfold slot
  split_ifs with hy
  · rw [hy, getElem?_set_self hx]
    rfl
  · rw [getElem?_set_ne (Ne.symm hy)]

theorem slot_eq_some : slot l x = some b ↔ l[x]? = some (some b) := by
  rw [slot, join_eq_some_iff]

theorem getElem_of_slot (hx : slot l x = some b) (hlt : x < l.length) : l[x] = some b := by
  have hsome := slot_eq_some.mp hx
  rw [getElem?_eq_getElem hlt] at hsome
  exact some.inj hsome

theorem set_slot (hx : slot l x = some b) : l.set x (some b) = l := by
  have hlt := lt_of_slot hx
  rw [← getElem_of_slot hx hlt]
  exact set_getElem_self hlt

theorem countP_set_slot (hx : slot l x = some b) (o : Option β) (p : Option β → Bool) :
    (l.set x o).countP p = l.countP p - (if p (some b) then 1 else 0) + if p o then 1 else 0 := by
  have hlt := lt_of_slot hx
  rw [countP_set hlt, getElem_of_slot hx hlt]

/-- The number of slots that hold a reference to `a`. -/
def refs (addr : β → Nat) (l : List (Option β)) (a : Nat) : Nat := 
  l.countP fun o => o.any fun b => a = addr b

variable {addr : β → Nat} {a : Nat}

theorem refs_pos : 0 < refs addr l a ↔ ∃ x b, slot l x = some b ∧ addr b = a := by
  rw [refs, countP_pos_iff]
  constructor
  · rintro ⟨o, ho, hany⟩
    cases o with
    | none => cases hany
    | some b =>
      obtain ⟨x, hx⟩ := getElem?_of_mem ho
      exact ⟨x, b, slot_eq_some.mpr hx, (of_decide_eq_true hany).symm⟩
  · rintro ⟨x, b, hx, rfl⟩
    exact ⟨some b, mem_of_getElem? (slot_eq_some.mp hx), by simp⟩

/-- A new slot. -/
theorem refs_append (b : β) (a : Nat) :
    refs addr (l ++ [some b]) a = refs addr l a + if a = addr b then 1 else 0 := by
  simp [refs]

/-- A slot is emptied. -/
theorem refs_clear (hx : slot l x = some b) (a : Nat) :
    refs addr (l.set x none) a = refs addr l a - if a = addr b then 1 else 0 := by
  rw [refs, countP_set_slot hx, refs]
  simp

/-- A slot changes its reference. -/
theorem refs_put (hx : slot l x = some b) (b' : β) (a : Nat) : refs addr (l.set x (some b')) a =
    refs addr l a - (if a = addr b then 1 else 0) + if a = addr b' then 1 else 0 := by
  rw [refs, countP_set_slot hx, refs]
  simp

/-- The only slot with a reference. -/
theorem eq_of_refs_le_one {b' : β} (hle : refs addr l a ≤ 1) (hx : slot l x = some b) (hb : addr b = a)
    (hy : slot l y = some b') (hb' : addr b' = a) : y = x := by
  by_contra hne
  have hpos : 0 < refs addr (l.set x none) a := by
    refine refs_pos.mpr ⟨y, b', ?_, hb'⟩
    rw [slot_set (lt_of_slot hx), if_neg hne]
    exact hy
  rw [refs_clear hx, hb, if_pos rfl] at hpos
  omega

end Slots

end RefCount
