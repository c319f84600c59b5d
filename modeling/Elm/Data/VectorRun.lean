import Elm.Data.Vector

/-!
# Runs of `Vector`

Each call is the one of the list on the first slots of the array; the other slots have no part in it.
A call that meets a defect either writes out of the array or leaves an array that is too short.
-/

namespace Elm.Data.Vector

open List Option

variable {T : Type} {tab tab' : List (Option T)} {xs : List T} {v w : Vector T}

/-! ## The content of the slots -/

/-- The first slots are the elements of the list. -/
def Content (tab : List (Option T)) (xs : List T) : Prop := ∀ i < xs.length, tab[i]? = some xs[i]?

theorem content_nil (tab : List (Option T)) : Content tab [] := by
  intro i hi
  simp at hi

theorem Content.take (h : Content tab xs) (l : Nat) : Content tab (xs.take l) := by
  intro i hi
  rw [length_take] at hi
  rw [getElem?_take_of_lt (by omega)]
  exact h i (by omega)

theorem Content.set (h : Content tab xs) (hle : xs.length ≤ tab.length) {i : Nat} (hi : i < xs.length)
    (x : T) : Content (tab.set i (some x)) (xs.set i x) := by
  intro j hj
  rw [length_set] at hj
  by_cases hij : i = j
  · rw [← hij, getElem?_set_self (by omega), getElem?_set_self hi]
  · rw [getElem?_set_ne hij, getElem?_set_ne hij]
    exact h j hj

theorem Content.concat (h : Content tab xs) (hlt : xs.length < tab.length) (x : T) :
    Content (tab.set xs.length (some x)) (xs ++ [x]) := by
  intro j hj
  rw [length_append, length_singleton] at hj
  by_cases hend : xs.length = j
  · rw [← hend, getElem?_set_self hlt, getElem?_concat_length]
  · rw [getElem?_set_ne hend, getElem?_append_left (by omega)]
    exact h j (by omega)

/-- The elements from the place `i` on are moved one slot further, and the new one takes their place. -/
theorem Content.insert (h : Content tab xs) {i : Nat} (hi : i ≤ xs.length) (hlt : xs.length < tab.length)
    (hmoved : array.Moved tab (i + 1) i 0 (xs.length - i) tab') (x : T) :
    Content (tab'.set i (some x)) (xs.insertIdx i x) := by
  intro j hj
  rw [length_insertIdx_of_le_length hi] at hj
  rcases Nat.lt_trichotomy j i with hlow | rfl | hhigh
  · rw [getElem?_set_ne (by omega), getElem?_insertIdx_of_lt hlow, hmoved.outside j (by omega)]
    exact h j (by omega)
  · rw [getElem?_set_self (by rw [hmoved.length]; omega), getElem?_insertIdx_self, if_pos hi]
  · obtain ⟨k, rfl⟩ : ∃ k, j = i + 1 + k := ⟨j - i - 1, by omega⟩
    have hpred : i + 1 + k - 1 = i + k := by omega
    rw [getElem?_set_ne (by omega), getElem?_insertIdx_of_gt hhigh, hpred,
      hmoved.inside k (Nat.zero_le k) (by omega)]
    exact h (i + k) (by omega)

/-- The elements after the place `i` are moved one slot back. -/
theorem Content.erase (h : Content tab xs) {i : Nat} (hi : i < xs.length)
    (hmoved : array.Moved tab i (i + 1) 0 (xs.length - i - 1) tab') : Content tab' (xs.eraseIdx i) := by
  intro j hj
  rw [length_eraseIdx_of_lt hi] at hj
  by_cases hlow : j < i
  · rw [getElem?_eraseIdx_of_lt hlow, hmoved.outside j (by omega)]
    exact h j (by omega)
  · obtain ⟨k, rfl⟩ : ∃ k, j = i + k := ⟨j - i, by omega⟩
    have hnext : i + k + 1 = i + 1 + k := by omega
    rw [getElem?_eraseIdx_of_ge (by omega), hmoved.inside k (Nat.zero_le k) (by omega), hnext]
    exact h (i + 1 + k) (by omega)

/-! ## The growth -/

@[simp] theorem length_newVec (size : Nat) : (newVec size : List (Option T)).length = size :=
  length_replicate

@[simp] theorem slots_some (tab : List (Option T)) (cap cnt : Nat) :
    (⟨some tab, cap, cnt⟩ : Vector T).slots = tab := rfl

theorem holds_new (cap : Nat) : (new cap : Vector T).Holds [] where
  cnt_eq := rfl
  cnt_le := Nat.zero_le _
  cap_le := by simp [new]
  content := content_nil _

theorem Holds.length_le (h : v.Holds xs) : xs.length ≤ v.slots.length :=
  h.cnt_eq ▸ h.cnt_le.trans h.cap_le

/-- A vector that grows holds the same list. -/
theorem grow_spec (h : v.Holds xs) {newCap : Nat} (hcap : v.cap ≤ newCap) :
    ∃ v', v.grow newCap = some v' ∧ v'.Holds xs ∧ v'.cap = newCap := by
  have hle := h.cnt_le
  have hlen : v.cnt ≤ (newVec newCap : List (Option T)).length := by
    rw [length_newVec]
    omega
  obtain ⟨tab, hcopy, htab, hget⟩ := array.copy_spec hlen (h.cnt_le.trans h.cap_le)
  refine ⟨⟨some tab, newCap, v.cnt⟩, ?_, ⟨h.cnt_eq, h.cnt_le.trans hcap, ?_, fun i hi => ?_⟩, rfl⟩
  · rw [grow, if_pos hcap, hcopy]
    rfl
  · rw [slots_some, htab, length_newVec]
  · rw [slots_some, hget i (by rw [h.cnt_eq]; exact hi)]
    exact h.content i hi

theorem int_eq {n : Nat} (hn : n < 2 ^ 31) : int n = some n := if_pos hn

theorem int_eq_none {n : Nat} (hn : ¬n < 2 ^ 31) : int n = none := if_neg hn

/-- The vector has a free slot after `makeRoom`. -/
theorem makeRoom_spec (h : v.Holds xs) (hroom : v.HasRoom) :
    ∃ v', v.makeRoom = some v' ∧ v'.Holds xs ∧ v'.cnt < v'.cap := by
  unfold makeRoom
  by_cases hfull : v.cnt ≥ v.cap
  · obtain ⟨hpos, hint⟩ := hroom.resolve_left (by omega)
    obtain ⟨v', hgrow, hholds, hcap⟩ := grow_spec h (show v.cap ≤ v.cap * 2 by omega)
    refine ⟨v', ?_, hholds, ?_⟩
    · rw [if_pos hfull, int_eq hint]
      exact hgrow
    · have hle := h.cnt_le
      rw [hcap, hholds.cnt_eq, ← h.cnt_eq]
      omega
  · exact ⟨v, if_neg hfull, h, by omega⟩

/-- A vector that cannot grow has no slot at all, or its capacity overflows. -/
theorem makeRoom_of_not (h : v.Holds xs) (hroom : ¬v.HasRoom) :
    ∀ v', v.makeRoom = some v' → v'.slots = [] ∧ v'.cnt = 0 := by
  intro v' hv'
  have hle := h.cnt_le
  have hfull : v.cnt ≥ v.cap := Nat.not_lt.mp fun hlt => hroom (Or.inl hlt)
  unfold makeRoom at hv'
  rw [if_pos hfull] at hv'
  by_cases hint : v.cap * 2 < 2 ^ 31
  · have hzero : v.cap = 0 := by
      by_contra hpos
      exact hroom (Or.inr ⟨Nat.pos_of_ne_zero hpos, hint⟩)
    have hcnt : v.cnt = 0 := by omega
    have hgrow : v.grow 0 = some ⟨some [], 0, v.cnt⟩ := by
      rw [grow, if_pos (by omega), hcnt]
      rfl
    rw [int_eq hint, hzero, Nat.zero_mul, bind_some, hgrow] at hv'
    obtain rfl := some.inj hv'
    exact ⟨rfl, hcnt⟩
  · rw [int_eq_none hint] at hv'
    cases hv'

/-- An assignment in a vector with no slot. -/
theorem assign_of_slots (hnil : v.slots = []) (i : Nat) (x : T) : v.assign i x = none := by
  unfold assign
  rw [hnil, array.assign_eq_none (Nat.zero_le i)]
  rfl

/-- An element is written in the first free slot. -/
theorem assign_concat (h : v.Holds xs) (hlt : v.cnt < v.cap) (x : T) :
    ∃ v', v.assign v.cnt x = some v' ∧ v'.cnt = v.cnt ∧ ({ v' with cnt := v.cnt + 1 } : Vector T).Holds (xs ++ [x]) := by
  have hcap := h.cap_le
  refine ⟨⟨some (v.slots.set v.cnt (some x)), v.cap, v.cnt⟩, ?_, rfl, ?_⟩
  · unfold assign
    rw [array.assign_eq (by omega)]
    rfl
  · constructor
    · rw [length_append, h.cnt_eq]
      rfl
    · exact hlt
    · rw [slots_some, length_set]
      exact hcap
    · rw [h.cnt_eq]
      exact Content.concat h.content (by rw [← h.cnt_eq]; omega) x

/-! ## Each call -/

theorem add_spec (h : v.Holds xs) (hroom : v.HasRoom) (x : T) :
    ∃ v', v.add x = some v' ∧ v'.Holds (xs ++ [x]) := by
  obtain ⟨v₁, hmake, h₁, hlt⟩ := makeRoom_spec h hroom
  obtain ⟨v₂, hassign, hcnt, h₂⟩ := assign_concat h₁ hlt x
  refine ⟨{ v₂ with cnt := v₂.cnt + 1 }, ?_, hcnt ▸ h₂⟩
  unfold add
  simp [hmake, hassign]

theorem add_of_not (h : v.Holds xs) (hroom : ¬v.HasRoom) (x : T) : v.add x = none := by
  unfold add
  cases hmake : v.makeRoom with
  | none => rfl
  | some v₁ => simp [assign_of_slots (makeRoom_of_not h hroom v₁ hmake).1]

/-- The slot given by `addNew` is the one after the content. -/
theorem addNew_spec (h : v.Holds xs) (hroom : v.HasRoom) (x : T) :
    ∃ v', (v.addNew.bind fun r => r.2.assign r.1 x) = some v' ∧ v'.Holds (xs ++ [x]) := by
  obtain ⟨v₁, hmake, h₁, hlt⟩ := makeRoom_spec h hroom
  obtain ⟨v₂, hassign, hcnt, h₂⟩ := assign_concat h₁ hlt x
  refine ⟨{ v₂ with cnt := v₁.cnt + 1 }, ?_, h₂⟩
  unfold assign at hassign
  obtain ⟨tab, htab, rfl⟩ := map_eq_some_iff.mp hassign
  have hslots : ({ v₁ with cnt := v₁.cnt + 1 } : Vector T).slots = v₁.slots := rfl
  unfold addNew
  rw [hmake, map_some, bind_some]
  unfold assign
  rw [hslots, htab]
  rfl

theorem addNew_of_not (h : v.Holds xs) (hroom : ¬v.HasRoom) (x : T) :
    (v.addNew.bind fun r => r.2.assign r.1 x) = none := by
  unfold addNew
  cases hmake : v.makeRoom with
  | none => rfl
  | some v₁ =>
    have hnil : ({ v₁ with cnt := v₁.cnt + 1 } : Vector T).slots = [] :=
      (makeRoom_of_not h hroom v₁ hmake).1
    rw [map_some, bind_some]
    exact assign_of_slots hnil _ x

theorem insert_spec (h : v.Holds xs) (hroom : v.HasRoom) {i : Nat} (hi : i ≤ xs.length) (x : T) :
    ∃ v', v.insert i x = some v' ∧ v'.Holds (xs.insertIdx i x) := by
  obtain ⟨v₁, hmake, h₁, hlt⟩ := makeRoom_spec h hroom
  have hcap := h₁.cap_le
  have hcnt : v₁.cnt = xs.length := h₁.cnt_eq
  obtain ⟨tab, hmove, hmoved⟩ := array.move_spec
    (show i + 1 + (v₁.cnt - i) ≤ v₁.slots.length by omega) (show i + (v₁.cnt - i) ≤ v₁.slots.length by omega)
  refine ⟨⟨some (tab.set i (some x)), v₁.cap, v₁.cnt + 1⟩, ?_, ?_⟩
  · have hassign : array.assign tab i (some x) = some (tab.set i (some x)) :=
      array.assign_eq (by rw [hmoved.length]; omega) _
    unfold insert
    rw [if_neg (by rw [h.cnt_eq]; omega)]
    simp [hmake, hmove, assign, hassign]
  · constructor
    · rw [length_insertIdx_of_le_length hi, ← hcnt]
    · exact hlt
    · rw [slots_some, length_set, hmoved.length]
      exact hcap
    · rw [hcnt] at hmoved
      exact Content.insert h₁.content hi (by omega) hmoved x

theorem insert_of_not (h : v.Holds xs) (hroom : ¬v.HasRoom) {i : Nat} (hi : i ≤ xs.length) (x : T) :
    v.insert i x = none := by
  unfold insert
  rw [if_neg (by rw [h.cnt_eq]; omega)]
  cases hmake : v.makeRoom with
  | none => rfl
  | some v₁ =>
    obtain ⟨hnil, hcnt⟩ := makeRoom_of_not h hroom v₁ hmake
    have hmove : array.move v₁.slots (i + 1) i (v₁.cnt - i) = some [] := by
      rw [hnil, hcnt, Nat.zero_sub]
      unfold array.move array.copyFrom array.copyBack
      split_ifs <;> rfl
    have hassign : ({ v₁ with tab := some [] } : Vector T).assign i x = none := assign_of_slots rfl i x
    simp [hmove, hassign]

theorem removeAt_spec (h : v.Holds xs) {i : Nat} (hi : i < xs.length) :
    ∃ v', v.removeAt i = some v' ∧ v'.Holds (xs.eraseIdx i) := by
  have hcap := h.cap_le
  have hle := h.cnt_le
  have hcnt : v.cnt = xs.length := h.cnt_eq
  obtain ⟨tab, hmove, hmoved⟩ := array.move_spec
    (show i + (v.cnt - i - 1) ≤ v.slots.length by omega)
    (show i + 1 + (v.cnt - i - 1) ≤ v.slots.length by omega)
  refine ⟨⟨some tab, v.cap, v.cnt - 1⟩, ?_, ?_⟩
  · unfold removeAt
    rw [if_neg (by omega)]
    simp [hmove]
  · constructor
    · rw [length_eraseIdx_of_lt hi, ← hcnt]
    · show v.cnt - 1 ≤ v.cap
      omega
    · rw [slots_some, hmoved.length]
      exact hcap
    · rw [hcnt] at hmoved
      exact Content.erase h.content hi hmoved

/-- The first element that is equal to the value. -/
theorem indexFrom_spec (isEqual : T → T → Bool) (x : T) (h : Content tab xs) :
    ∀ (n i : Nat), i + n = xs.length →
      indexFrom isEqual tab x n i = some (((xs.drop i).findIdx? (isEqual x)).map (i + ·)) := by
  intro n
  induction n with
  | zero =>
    intro i hi
    rw [drop_of_length_le (by omega)]
    rfl
  | succ n ih =>
    intro i hi
    have hlt : i < xs.length := by omega
    have hget : tab[i]? = some (some xs[i]) := (h i hlt).trans (by rw [getElem?_eq_getElem hlt])
    rw [drop_eq_getElem_cons hlt, findIdx?_cons, indexFrom, hget]
    simp only
    split_ifs with heq
    · rfl
    · rw [ih (i + 1) (by omega), Option.map_map]
      congr 2
      funext k
      show i + 1 + k = i + (k + 1)
      omega

theorem indexOf_spec (isEqual : T → T → Bool) (x : T) (h : v.Holds xs) :
    v.indexOf isEqual x = some (xs.findIdx? (isEqual x)) := by
  unfold indexOf
  rw [indexFrom_spec isEqual x h.content v.cnt 0 (by rw [h.cnt_eq, Nat.zero_add]), drop_zero]
  simp

theorem remove_spec (isEqual : T → T → Bool) (x : T) (h : v.Holds xs) :
    ∃ v', v.remove isEqual x = some v' ∧ v'.Holds (xs.eraseP (isEqual x)) := by
  unfold remove
  rw [indexOf_spec isEqual x h, eraseP_eq_eraseIdx]
  cases hfind : xs.findIdx? (isEqual x) with
  | none => exact ⟨v, rfl, h⟩
  | some i =>
    have hlt : i < xs.length := (findIdx?_eq_some_iff_getElem.mp hfind).1
    exact removeAt_spec h hlt

theorem set_spec (h : v.Holds xs) {i : Nat} (hi : i < xs.length) (x : T) :
    ∃ v', v.set i x = some v' ∧ v'.Holds (xs.set i x) := by
  have hle := h.length_le
  refine ⟨⟨some (v.slots.set i (some x)), v.cap, v.cnt⟩, ?_, ?_⟩
  · unfold set assign
    rw [if_pos (by rw [h.cnt_eq]; exact hi), array.assign_eq (by omega)]
    rfl
  · constructor
    · rw [length_set]
      exact h.cnt_eq
    · exact h.cnt_le
    · rw [slots_some, length_set]
      exact h.cap_le
    · exact Content.set h.content hle hi x

/-- Fewer elements. -/
theorem Holds.take (h : v.Holds xs) {l : Nat} (hl : l ≤ xs.length) :
    ({ v with cnt := l } : Vector T).Holds (xs.take l) where
  cnt_eq := by rw [length_take, Nat.min_eq_left hl]
  cnt_le := by
    have hle := h.cnt_le
    have hcnt := h.cnt_eq
    show l ≤ v.cap
    omega
  cap_le := h.cap_le
  content := Content.take h.content l

/-- `pop` gives the last element. -/
theorem pop_spec (h : v.Holds xs) (hne : xs ≠ []) :
    ∃ v', v.pop = some (xs.getLast?, v') ∧ v'.Holds xs.dropLast := by
  have hpos : 0 < xs.length := length_pos_of_ne_nil hne
  have hcnt := h.cnt_eq
  refine ⟨{ v with cnt := v.cnt - 1 }, ?_, ?_⟩
  · unfold pop
    rw [if_pos (by omega), h.content (v.cnt - 1) (by omega), hcnt, getLast?_eq_getElem?]
    rfl
  · rw [dropLast_eq_take, hcnt]
    exact h.take (by omega)

/-- The loop of `setLength`, on the powers of 2, ends with a capacity unless it overflows. -/
theorem run_lengthTurn (l : Nat) : ∀ (m k fuel : Nat), k + m = 30 → m < fuel →
    ∃ r, Loop.run (lengthTurn l) fuel (2 ^ k) = some r ∧ (r.isSome ↔ l ≤ 2 ^ 30) := by
  intro m
  induction m with
  | zero =>
    intro k fuel hk hfuel
    obtain ⟨fuel, rfl⟩ : ∃ n, fuel = n + 1 := ⟨fuel - 1, by omega⟩
    obtain rfl : k = 30 := by omega
    by_cases hlt : 2 ^ 30 < l
    · have hturn : lengthTurn l (2 ^ 30) = .inr none := by
        unfold lengthTurn
        rw [if_pos hlt]
        rfl
      refine ⟨none, Loop.run_succ_inr hturn fuel, ?_⟩
      simp only [isSome_none, Bool.false_eq_true, false_iff]
      omega
    · have hturn : lengthTurn l (2 ^ 30) = .inr (some (2 ^ 30)) := if_neg hlt
      refine ⟨some (2 ^ 30), Loop.run_succ_inr hturn fuel, ?_⟩
      simp only [isSome_some, true_iff]
      omega
  | succ m ih =>
    intro k fuel hk hfuel
    obtain ⟨fuel, rfl⟩ : ∃ n, fuel = n + 1 := ⟨fuel - 1, by omega⟩
    have hpow : 2 ^ (k + 1) ≤ 2 ^ 30 := Nat.pow_le_pow_right (by omega) (by omega)
    have hsucc : 2 ^ (k + 1) = 2 ^ k * 2 := Nat.pow_succ 2 k
    by_cases hlt : 2 ^ k < l
    · have hturn : lengthTurn l (2 ^ k) = .inl (2 ^ (k + 1)) := by
        unfold lengthTurn
        rw [if_pos hlt, ← hsucc, int_eq (by omega)]
      rw [Loop.run_succ_inl hturn]
      exact ih (k + 1) fuel (by omega) (by omega)
    · have hturn : lengthTurn l (2 ^ k) = .inr (some (2 ^ k)) := if_neg hlt
      refine ⟨some (2 ^ k), Loop.run_succ_inr hturn fuel, ?_⟩
      simp only [isSome_some, true_iff]
      omega

theorem setLength_spec (h : v.Holds xs) {l : Nat} (hl : l ≤ xs.length) (hmax : l ≤ 2 ^ 30) :
    ∃ v', v.setLength l = some v' ∧ v'.Holds (xs.take l) := by
  obtain ⟨r, hrun, hr⟩ := run_lengthTurn l 30 0 32 rfl (by decide)
  obtain ⟨c, rfl⟩ := isSome_iff_exists.mp (hr.mpr hmax)
  have hcap : (Loop.run (lengthTurn l) 32 1).join = some c := by
    rw [show 1 = 2 ^ 0 from rfl, hrun]
    rfl
  unfold setLength
  rw [hcap]
  by_cases hgt : c > v.cap
  · obtain ⟨v', hgrow, hholds, -⟩ := grow_spec h (Nat.le_of_lt hgt)
    exact ⟨{ v' with cnt := l }, by simp [hgt, hgrow], hholds.take hl⟩
  · exact ⟨{ v with cnt := l }, by simp [hgt], h.take hl⟩

theorem setLength_of_not {l : Nat} (hmax : ¬l ≤ 2 ^ 30) : v.setLength l = none := by
  obtain ⟨r, hrun, hr⟩ := run_lengthTurn l 30 0 32 rfl (by decide)
  have hnone : r = none := by
    rw [← not_isSome_iff_eq_none, hr]
    exact hmax
  have hcap : (Loop.run (lengthTurn l) 32 1).join = none := by
    rw [show 1 = 2 ^ 0 from rfl, hrun, hnone]
    rfl
  unfold setLength
  rw [hcap]
  rfl

/-- A copy holds the list of the other vector, in its own array or in a new one. -/
theorem copy_spec {ys : List T} (h : v.Holds ys ∨ v = ⟨none, 0, 0⟩) (hw : w.Holds xs) :
    ∃ v', v.copy w = some v' ∧ v'.Holds xs := by
  have hlen : w.cnt ≤ w.slots.length := hw.cnt_le.trans hw.cap_le
  have hcnt := hw.cnt_eq
  by_cases hnew : v.tab.isNone ∨ w.cnt > v.cap
  · obtain ⟨tab, hcopy, htab, hget⟩ := array.copy_spec
      (show w.cnt ≤ (newVec w.cap : List (Option T)).length by rw [length_newVec]; exact hw.cnt_le) hlen
    refine ⟨⟨some tab, w.cap, w.cnt⟩, ?_, hcnt, hw.cnt_le, ?_, fun i hi => ?_⟩
    · unfold copy
      simp only [if_pos hnew, slots_some, hcopy]
      rfl
    · rw [slots_some, htab, length_newVec]
    · rw [slots_some, hget i (by omega)]
      exact hw.content i hi
  · have hold : v.Holds ys := h.resolve_right fun heq => hnew (Or.inl (by rw [heq]; rfl))
    have hroom : w.cnt ≤ v.cap := Nat.not_lt.mp fun hgt => hnew (Or.inr hgt)
    obtain ⟨tab, hcopy, htab, hget⟩ := array.copy_spec (hroom.trans hold.cap_le) hlen
    refine ⟨⟨some tab, v.cap, w.cnt⟩, ?_, hcnt, hroom, ?_, fun i hi => ?_⟩
    · unfold copy
      simp only [if_neg hnew, hcopy]
      rfl
    · rw [slots_some, htab]
      exact hold.cap_le
    · rw [slots_some, hget i (by omega)]
      exact hw.content i hi

/-- The vector that `detach` leaves has no slot. -/
theorem detach_holds (v : Vector T) : v.cap = 0 ↔ v.detach.2.Holds [] := by
  constructor
  · intro hcap
    exact ⟨rfl, Nat.zero_le _, Nat.le_of_eq hcap, content_nil _⟩
  · intro h
    exact Nat.le_zero.mp h.cap_le

/-- A call inside the list that does not meet a defect is the one of the list; one that meets a defect
has no result or leaves a vector that does not hold the list. -/
theorem mutate_spec (isEqual : T → T → Bool) (h : v.Holds xs) {m : Mutator T} (hm : m.Contract xs) :
    (m.Sound v → ∃ v', m.run isEqual v = some v' ∧ v'.Holds (m.apply isEqual xs)) ∧
    (¬m.Sound v → ∀ v', m.run isEqual v = some v' → ¬v'.Holds (m.apply isEqual xs)) := by
  cases m with
  | add x =>
    refine ⟨fun hroom => add_spec h hroom x, fun hroom v' hv' => ?_⟩
    cases (add_of_not h hroom x).symm.trans hv'
  | addNew x =>
    refine ⟨fun hroom => addNew_spec h hroom x, fun hroom v' hv' => ?_⟩
    cases (addNew_of_not h hroom x).symm.trans hv'
  | insert i x =>
    refine ⟨fun hroom => insert_spec h hroom hm x, fun hroom v' hv' => ?_⟩
    cases (insert_of_not h hroom hm x).symm.trans hv'
  | removeAt i => exact ⟨fun _ => removeAt_spec h hm, fun hnot => absurd trivial hnot⟩
  | remove x => exact ⟨fun _ => remove_spec isEqual x h, fun hnot => absurd trivial hnot⟩
  | set i x => exact ⟨fun _ => set_spec h hm x, fun hnot => absurd trivial hnot⟩
  | pop =>
    refine ⟨fun _ => ?_, fun hnot => absurd trivial hnot⟩
    obtain ⟨v', hpop, hholds⟩ := pop_spec h hm
    exact ⟨v', congrArg (Option.map Prod.snd) hpop, hholds⟩
  | shrink l =>
    refine ⟨fun _ => ⟨_, if_pos ?_, h.take hm⟩, fun hnot => absurd trivial hnot⟩
    rw [h.cnt_eq]
    exact hm
  | setLength l =>
    refine ⟨fun hmax => setLength_spec h hm hmax, fun hmax v' hv' => ?_⟩
    cases (setLength_of_not hmax).symm.trans hv'
  | clear => exact ⟨fun _ => ⟨_, rfl, h.take (Nat.zero_le _)⟩, fun hnot => absurd trivial hnot⟩
  | detach =>
    refine ⟨fun hcap => ⟨_, rfl, (detach_holds v).mp hcap⟩, fun hcap v' hv' => ?_⟩
    obtain rfl := some.inj hv'
    exact fun hholds => hcap ((detach_holds v).mpr hholds)

/-! ## Runs -/

variable {vs : List (Vector T)} {xss : List (List T)}

/-- One more vector. -/
theorem Safe.concat (h : Safe (vs, xss)) : Safe (vs ++ [v], xss ++ [xs]) ↔ v.Holds xs := by
  have hlen : vs.length = xss.length := h.length_eq
  constructor
  · intro hsafe
    refine hsafe.holds vs.length v xs ?_ ?_
    · rw [getElem?_concat_length]
    · show (xss ++ [xs])[vs.length]? = some xs
      rw [hlen, getElem?_concat_length]
  · intro hholds
    constructor
    · show (vs ++ [v]).length = (xss ++ [xs]).length
      rw [length_append, length_append, hlen]
      rfl
    · intro i u ys hu hys
      simp only [getElem?_append, getElem?_singleton] at hu hys
      rw [hlen] at hu
      split_ifs at hu hys
      · exact h.holds i u ys hu hys
      · obtain rfl := some.inj hu
        obtain rfl := some.inj hys
        exact hholds

/-- One vector and its list change. -/
theorem Safe.set (h : Safe (vs, xss)) {i : Nat} (hi : i < vs.length) :
    Safe (vs.set i v, xss.set i xs) ↔ v.Holds xs := by
  have hlen : vs.length = xss.length := h.length_eq
  constructor
  · intro hsafe
    exact hsafe.holds i v xs (getElem?_set_self hi) (getElem?_set_self (hlen ▸ hi))
  · intro hholds
    constructor
    · show (vs.set i v).length = (xss.set i xs).length
      rw [length_set, length_set, hlen]
    · intro j u ys hu hys
      simp only at hu hys
      by_cases hij : i = j
      · subst hij
        rw [getElem?_set_self hi] at hu
        rw [getElem?_set_self (hlen ▸ hi)] at hys
        obtain rfl := some.inj hu
        obtain rfl := some.inj hys
        exact hholds
      · rw [getElem?_set_ne hij] at hu hys
        exact h.holds j u ys hu hys

/-- The vector and the list of an index. -/
theorem Safe.get (h : Safe (vs, xss)) {i : Nat} (hi : i < vs.length) :
    ∃ v xs, vs[i]? = some v ∧ xss[i]? = some xs ∧ v.Holds xs := by
  have hlen : vs.length = xss.length := h.length_eq
  have hi' : i < xss.length := hlen ▸ hi
  have hv : vs[i]? = some vs[i] := getElem?_eq_getElem hi
  have hxs : xss[i]? = some xss[i] := getElem?_eq_getElem hi'
  exact ⟨vs[i], xss[i], hv, hxs, h.holds i _ _ hv hxs⟩

/-- A call keeps every vector, or its result is not safe. -/
theorem step_spec (isEqual : T → T → Bool) (h : Safe (vs, xss)) {op : Op T}
    (hop : Contract (vs, xss) op) :
    (Sound (vs, xss) op → ∃ st, step isEqual (vs, xss) op = some st ∧ Safe st) ∧
    (¬Sound (vs, xss) op → ∀ st, step isEqual (vs, xss) op = some st → ¬Safe st) := by
  cases op with
  | new cap => exact ⟨fun _ => ⟨_, rfl, h.concat.mpr (holds_new cap)⟩, fun hnot => absurd trivial hnot⟩
  | copyOf i =>
    obtain ⟨w, xs, hw, hxs, hholds⟩ := h.get hop
    obtain ⟨v', hcopy, hv'⟩ := copy_spec (show Holds _ xs ∨ _ from Or.inr rfl) hholds
    have hstep : step isEqual (vs, xss) (.copyOf i) = some (vs ++ [v'], xss ++ [xs]) := by
      simp [step, hw, hxs, copyOf, hcopy]
    exact ⟨fun _ => ⟨_, hstep, h.concat.mpr hv'⟩, fun hnot => absurd trivial hnot⟩
  | copy i j =>
    obtain ⟨v, ys, hv, hys, hvholds⟩ := h.get hop.1
    obtain ⟨w, xs, hw, hxs, hholds⟩ := h.get hop.2
    obtain ⟨v', hcopy, hv'⟩ := copy_spec (Or.inl hvholds) hholds
    have hstep : step isEqual (vs, xss) (.copy i j) = some (vs.set i v', xss.set i xs) := by
      simp [step, hv, hw, hxs, hcopy]
    exact ⟨fun _ => ⟨_, hstep, (h.set hop.1).mpr hv'⟩, fun hnot => absurd trivial hnot⟩
  | mutate i m =>
    obtain ⟨v, xs, hv, hxs, hholds⟩ := h.get hop.1
    obtain ⟨hgood, hbad⟩ := mutate_spec isEqual hholds (hop.2 xs hxs)
    have hsound : Sound (vs, xss) (.mutate i m) ↔ m.Sound v := by simp [Sound, hv]
    have hstep : step isEqual (vs, xss) (.mutate i m) =
        (m.run isEqual v).map fun v' => (vs.set i v', xss.set i (m.apply isEqual xs)) := by
      cases hrun : m.run isEqual v <;> simp [step, hv, hxs, hrun]
    rw [hsound, hstep]
    constructor
    · intro hm
      obtain ⟨v', hrun, hv'⟩ := hgood hm
      exact ⟨_, by rw [hrun]; rfl, (h.set hop.1).mpr hv'⟩
    · intro hm st hst hsafe
      obtain ⟨v', hrun, rfl⟩ := map_eq_some_iff.mp hst
      exact hbad hm v' hrun ((h.set hop.1).mp hsafe)

end Elm.Data.Vector
