import Elm.Lib.Loop

/-!
# `elm::array`

The loops of `include/elm/array.h` that copy slots.  An array is the list of its slots; a read or a
write outside of it has no result.
-/

namespace Elm.array

open List

variable {T : Type*}

/-- `t[i] = v`. -/
def assign (t : List T) (i : Nat) (v : T) : Option (List T) :=
  if i < t.length then some (t.set i v) else none

/-- `copy` from an array to another one. -/
def copy (target source : List T) (size : Nat) : Option (List T) :=
  (List.range size).foldlM (fun t i => (source[i]?).bind (assign t i)) target

/-- `copy` from `source` to `target` in the array `t`, from the first slot on. -/
def copyFrom (t : List T) (target source size : Nat) : Option (List T) :=
  (List.range size).foldlM (fun t i => (t[source + i]?).bind (assign t (target + i))) t

/-- `copy_back` from `source` to `target` in the array `t`, from the last slot on. -/
def copyBack (t : List T) (target source size : Nat) : Option (List T) :=
  (List.range size).foldlM
    (fun t i => (t[source + (size - 1 - i)]?).bind (assign t (target + (size - 1 - i)))) t

/-- `move`. -/
def move (t : List T) (target source size : Nat) : Option (List T) :=
  if target < source then copyFrom t target source size else copyBack t target source size

theorem assign_eq {t : List T} {i : Nat} (hi : i < t.length) (v : T) : assign t i v = some (t.set i v) :=
  if_pos hi

theorem assign_eq_none {t : List T} {i : Nat} (hi : t.length ≤ i) (v : T) : assign t i v = none :=
  if_neg (by omega)

/-- The slots from `target + a` to `target + b` are those from `source + a` to `source + b` of `t`. -/
structure Moved (t : List T) (target source a b : Nat) (t' : List T) : Prop where
  le : a ≤ b
  length : t'.length = t.length
  inside : ∀ i, a ≤ i → i < b → t'[target + i]? = t[source + i]?
  outside : ∀ j, j < target + a ∨ target + b ≤ j → t'[j]? = t[j]?

theorem Moved.refl (t : List T) (target source : Nat) (a : Nat) : Moved t target source a a t where
  le := le_rfl
  length := rfl
  inside i hlow hhigh := by omega
  outside _ _ := rfl

/-- One more slot is copied, at one of the ends. -/
theorem Moved.assign {t t' : List T} {target source a b a' b' k : Nat} {v : T}
    (h : Moved t target source a b t') (hv : t[source + k]? = some v) (hk : target + k < t.length)
    (hends : a' = a ∧ b' = b + 1 ∧ k = b ∨ b' = b ∧ a = a' + 1 ∧ k = a') :
    Moved t target source a' b' (t'.set (target + k) v) where
  le := by
    have hle := h.le
    omega
  length := by rw [length_set, h.length]
  inside i hlow hhigh := by
    by_cases hik : i = k
    · rw [hik, hv, getElem?_set_self (by rw [h.length]; exact hk)]
    · rw [getElem?_set_ne (by omega)]
      exact h.inside i (by omega) (by omega)
  outside j hj := by
    have hle := h.le
    rw [getElem?_set_ne (by omega)]
    exact h.outside j (by omega)

theorem copyFrom_spec {t : List T} {target source size : Nat} (hlt : target < source)
    (hsize : source + size ≤ t.length) :
    ∃ t', copyFrom t target source size = some t' ∧ Moved t target source 0 size t' := by
  refine Loop.exists_foldlM_range (fun k t' => Moved t target source 0 k t') (Moved.refl ..) ?_
  intro k t' hk hmoved
  have hget : t[source + k]? = some t[source + k] := getElem?_eq_getElem (by omega)
  -- the slot that is read is after the ones that have been written
  have hread : t'[source + k]? = some t[source + k] :=
    (hmoved.outside _ (Or.inr (by omega))).trans hget
  refine ⟨t'.set (target + k) t[source + k], ?_, hmoved.assign hget (by omega) (Or.inl ⟨rfl, rfl, rfl⟩)⟩
  rw [hread]
  exact assign_eq (by rw [hmoved.length]; omega) _

theorem copyBack_spec {t : List T} {target source size : Nat} (hle : source ≤ target)
    (hsize : target + size ≤ t.length) :
    ∃ t', copyBack t target source size = some t' ∧ Moved t target source 0 size t' := by
  have hloop : ∃ t', copyBack t target source size = some t' ∧
      Moved t target source (size - size) size t' := by
    refine Loop.exists_foldlM_range (fun k t' => Moved t target source (size - k) size t')
      (Moved.refl ..) ?_
    intro k t' hk hmoved
    have hget : t[source + (size - 1 - k)]? = some t[source + (size - 1 - k)] :=
      getElem?_eq_getElem (by omega)
    -- the slot that is read is before the ones that have been written
    have hread : t'[source + (size - 1 - k)]? = some t[source + (size - 1 - k)] :=
      (hmoved.outside _ (Or.inl (by omega))).trans hget
    refine ⟨t'.set (target + (size - 1 - k)) t[source + (size - 1 - k)], ?_,
      hmoved.assign hget (by omega) (Or.inr ⟨rfl, by omega, by omega⟩)⟩
    rw [hread]
    exact assign_eq (by rw [hmoved.length]; omega) _
  rw [Nat.sub_self] at hloop
  exact hloop

/-- `move` inside the array, whatever the order of the two places. -/
theorem move_spec {t : List T} {target source size : Nat} (htarget : target + size ≤ t.length)
    (hsource : source + size ≤ t.length) :
    ∃ t', move t target source size = some t' ∧ Moved t target source 0 size t' := by
  unfold move
  split_ifs with hlt
  · exact copyFrom_spec hlt hsource
  · exact copyBack_spec (by omega) htarget

/-- `copy` between two arrays. -/
theorem copy_spec {target source : List T} {size : Nat} (htarget : size ≤ target.length)
    (hsource : size ≤ source.length) :
    ∃ t', copy target source size = some t' ∧ t'.length = target.length ∧
      ∀ i < size, t'[i]? = source[i]? := by
  refine Loop.exists_foldlM_range
    (fun k (t' : List T) => t'.length = target.length ∧ ∀ i < k, t'[i]? = source[i]?) ⟨rfl, by omega⟩ ?_
  rintro k t' hk ⟨hlen, hcopied⟩
  have hget : source[k]? = some source[k] := getElem?_eq_getElem (by omega)
  refine ⟨t'.set k source[k], ?_, by rw [length_set, hlen], fun i hi => ?_⟩
  · rw [hget]
    exact assign_eq (by omega) _
  · by_cases hik : i = k
    · rw [hik, hget, getElem?_set_self (by omega)]
    · rw [getElem?_set_ne (Ne.symm hik)]
      exact hcopied i (by omega)

end Elm.array
