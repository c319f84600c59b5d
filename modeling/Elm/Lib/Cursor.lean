import Mathlib.Tactic

/-!
# Iterators

An iterator is given by the test of its end, the item that it stands on and the state that follows; the last two
may have no result.  `Visits` says what a loop over the iterator gives when it ends, and `collect` is this loop with
a bound on its turns.
-/

/-- An iterator with states `σ` over items `α`. -/
structure Cursor (σ α : Type*) where
  ended : σ → Bool
  item : σ → Option α
  next : σ → Option σ

namespace Cursor

open Option

variable {σ α : Type*} {c : Cursor σ α}

/-- The loop that starts in the state `s` ends, after these items. -/
inductive Visits (c : Cursor σ α) : σ → List α → Prop
  | done {s : σ} (hended : c.ended s = true) : Visits c s []
  | turn {s s' : σ} {x : α} {xs : List α} (hended : c.ended s = false) (hitem : c.item s = some x)
      (hnext : c.next s = some s') (hrest : Visits c s' xs) : Visits c s (x :: xs)

/-- The loop, for fewer than `fuel` turns. -/
def collect (c : Cursor σ α) : Nat → σ → Option (List α)
  | 0, _ => none
  | fuel + 1, s =>
    if c.ended s then some []
    else (c.item s).bind fun x => (c.next s).bind fun s' => (collect c fuel s').map (x :: ·)

theorem visits_of_collect {fuel : Nat} : ∀ {s : σ} {xs : List α}, c.collect fuel s = some xs → c.Visits s xs := by
  induction fuel with
  | zero =>
    intro s xs h
    cases h
  | succ fuel ih =>
    intro s xs h
    rw [Cursor.collect] at h
    split_ifs at h with hended
    · obtain rfl := some.inj h
      exact .done hended
    · obtain ⟨x, hitem, h⟩ := bind_eq_some_iff.mp h
      obtain ⟨s', hnext, h⟩ := bind_eq_some_iff.mp h
      obtain ⟨ys, hrest, rfl⟩ := map_eq_some_iff.mp h
      exact .turn (by simpa using hended) hitem hnext (ih hrest)

/-- A loop gives one list of items at most. -/
theorem Visits.unique {s : σ} {xs ys : List α} (h : c.Visits s xs) (h' : c.Visits s ys) : xs = ys := by
  induction h generalizing ys with
  | done hended =>
    cases h' with
    | done => rfl
    | turn hended' => rw [hended] at hended'; cases hended'
  | turn hended hitem hnext _ ih =>
    cases h' with
    | done hended' => rw [hended] at hended'; cases hended'
    | turn _ hitem' hnext' hrest' =>
      obtain rfl := some.inj (hitem.symm.trans hitem')
      obtain rfl := some.inj (hnext.symm.trans hnext')
      rw [ih hrest']

/-! ## Known states -/

/-- The state after `k` turns. -/
def advance (c : Cursor σ α) : Nat → σ → Option σ
  | 0, s => some s
  | k + 1, s => (c.next s).bind (advance c k)

/-- A loop whose states are known beforehand. -/
theorem visits_of_states {states : Nat → σ} {items : Nat → α} {n : Nat}
    (hturn : ∀ k < n, c.ended (states k) = false ∧ c.item (states k) = some (items k) ∧
      c.next (states k) = some (states (k + 1)))
    (hended : c.ended (states n) = true) : c.Visits (states 0) ((List.range n).map items) := by
  induction n generalizing states items with
  | zero => exact .done hended
  | succ n ih =>
    obtain ⟨hgoes, hitem, hnext⟩ := hturn 0 (Nat.succ_pos n)
    have hrest := @ih (fun k => states (k + 1)) (fun k => items (k + 1))
      (fun k hk => hturn (k + 1) (Nat.succ_lt_succ hk)) hended
    rw [List.range_succ_eq_map, List.map_cons, List.map_map]
    exact .turn hgoes hitem hnext hrest

/-- The loop goes on until its last item, which the end follows. -/
theorem Visits.advance {s : σ} {xs : List α} (h : c.Visits s xs) :
    (∃ t, c.advance xs.length s = some t ∧ c.ended t = true) ∧
      ∀ k < xs.length, ∃ t, c.advance k s = some t ∧ c.ended t = false ∧ c.item t = xs[k]? := by
  induction h with
  | done hended => exact ⟨⟨_, rfl, hended⟩, fun k hk => absurd hk (Nat.not_lt_zero k)⟩
  | turn hended hitem hnext _ ih =>
    obtain ⟨⟨t, hlast, ht⟩, hall⟩ := ih
    refine ⟨⟨t, ?_, ht⟩, fun k hk => ?_⟩
    · rw [List.length_cons, Cursor.advance, hnext, bind_some, hlast]
    · cases k with
      | zero => exact ⟨_, rfl, hended, hitem⟩
      | succ k =>
        obtain ⟨t', ht', hgoes, hitem'⟩ := hall k (Nat.lt_of_succ_lt_succ hk)
        refine ⟨t', ?_, hgoes, hitem'⟩
        rw [Cursor.advance, hnext, bind_some, ht']

end Cursor
