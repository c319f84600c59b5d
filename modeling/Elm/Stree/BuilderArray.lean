import Elm.Lib.IntType
import Elm.Stree.Builder
import Elm.Util.Int

/-!
# The array of `stree::Builder`

`allocate` of `include/elm/stree/Builder.h` and the nodes that `make` writes in the array that it gives.  In an array
with room, `makeIn` does what `make` does with an array that grows.  The size is computed as an `int`: there is an
array for `2 ^ 30` intervals at most, and it has room for all the nodes.
-/

namespace Elm.Stree

open Elm.Util.Integer List Option

variable {K T : Type*} {fuel : Nat}

/-- `allocate`: the size of the array; a negative size gives no array. -/
def allocate (n : BitVec 32) : Option Nat :=
  (leastUpperPowerOf2 n).bind fun p =>
    let s := (n + p - 1).toInt
    if s < 0 then none else some s.toNat

/-- `nodes[i] = node`. -/
def setNode (nodes : List (Node K T)) (i : Int) (node : Node K T) : Option (List (Node K T)) :=
  if 0 ≤ i ∧ i < nodes.length then some (nodes.set i.toNat node) else none

/-- What `make` leaves: the array, the index `s` and the index that it returns. -/
structure Made (K T : Type*) where
  nodes : List (Node K T)
  s : Int
  root : Int

/-- `Builder::make` in the array of `allocate`. -/
def makeIn : Nat → List (Node K T) → Int → Int → Int → Option (Made K T)
  | 0, _, _, _, _ => none
  | fuel + 1, nodes, s, start, stop =>
    if start = stop then
      some ⟨nodes, s, start⟩
    else
      (IntType.int.checked (start + stop)).bind fun sum =>
        let m := sum.tdiv 2
        (makeIn fuel nodes s start m).bind fun l =>
          (makeIn fuel l.nodes l.s (m + 1) stop).bind fun u =>
            (nodeAt u.nodes l.root).bind fun nl =>
              (nodeAt u.nodes u.root).bind fun nu =>
                (setNode u.nodes u.s ⟨nl.lb, nu.ub, l.root, u.root, none⟩).bind fun nodes =>
                  (IntType.int.checked (u.s + 1)).map fun s => ⟨nodes, s, u.s⟩

/-! ## The array with room -/

theorem nodeAt_append {nodes : List (Node K T)} {i : Int} {n : Node K T} (h : nodeAt nodes i = some n)
    (free : List (Node K T)) : nodeAt (nodes ++ free) i = some n := by
  unfold nodeAt at h ⊢
  split_ifs at h ⊢
  exact getElem?_of_extends (prefix_append _ _) h

/-- The first free node is written. -/
theorem setNode_append (nodes : List (Node K T)) (node x : Node K T) (free : List (Node K T)) :
    setNode (nodes ++ x :: free) nodes.length node = some (nodes ++ [node] ++ free) := by
  rw [setNode, if_pos ⟨by omega, by simp⟩, Int.toNat_natCast]
  simp

/-- What the recursion of `make` is made of, for more than one leaf. -/
theorem make_eq_some {nodes nodes' : List (Node K T)} {start stop p : Int} (hne : start ≠ stop) :
    make (fuel + 1) nodes start stop = some (nodes', p) ↔ ∃ nodes₁ l nodes₂ u nl nu,
      make fuel nodes start ((start + stop).tdiv 2) = some (nodes₁, l) ∧
      make fuel nodes₁ ((start + stop).tdiv 2 + 1) stop = some (nodes₂, u) ∧
      nodeAt nodes₂ l = some nl ∧ nodeAt nodes₂ u = some nu ∧
      nodes' = nodes₂ ++ [⟨nl.lb, nu.ub, l, u, none⟩] ∧ p = nodes₂.length := by
  rw [make, if_neg hne]
  constructor
  · intro h
    dsimp only at h
    split at h
    · cases h
    next nodes₁ l hleft =>
      split at h
      · cases h
      next nodes₂ u hright =>
        split at h
        next nl nu hl hu =>
          obtain ⟨rfl, rfl⟩ := Prod.mk.inj (some.inj h)
          exact ⟨nodes₁, l, nodes₂, u, nl, nu, hleft, hright, hl, hu, rfl, rfl⟩
        · cases h
  · rintro ⟨nodes₁, l, nodes₂, u, nl, nu, hleft, hright, hl, hu, rfl, rfl⟩
    simp only [hleft, hright, hl, hu]

theorem prefix_of_make {nodes nodes' : List (Node K T)} {start stop p : Int}
    (h : make fuel nodes start stop = some (nodes', p)) : nodes <+: nodes' := by
  induction fuel generalizing nodes nodes' start stop p with
  | zero => cases h
  | succ fuel ih =>
    by_cases heq : start = stop
    · rw [make, if_pos heq] at h
      obtain ⟨rfl, -⟩ := Prod.mk.inj (some.inj h)
      exact prefix_rfl
    · obtain ⟨nodes₁, l, nodes₂, u, nl, nu, hleft, hright, -, -, rfl, -⟩ := (make_eq_some heq).mp h
      exact (ih hleft).trans ((ih hright).trans (prefix_append _ _))

/-- With enough free nodes behind it, an array is filled as the one that grows. -/
theorem makeIn_of_make (free : List (Node K T)) {nodes nodes' : List (Node K T)} {start stop p : Int}
    (h : make fuel nodes start stop = some (nodes', p)) (hstart : 0 ≤ start) (hle : start ≤ stop)
    (hstop : stop ≤ 2 ^ 30) (hint : nodes'.length < 2 ^ 31) (hroom : nodes'.length ≤ nodes.length + free.length) :
    makeIn fuel (nodes ++ free) nodes.length start stop =
      some ⟨nodes' ++ free.drop (nodes'.length - nodes.length), nodes'.length, p⟩ := by
  induction fuel generalizing nodes nodes' free start stop p with
  | zero => cases h
  | succ fuel ih =>
    rw [makeIn]
    by_cases heq : start = stop
    · rw [make, if_pos heq] at h
      obtain ⟨rfl, rfl⟩ := Prod.mk.inj (some.inj h)
      rw [if_pos heq, Nat.sub_self, drop_zero]
    · obtain ⟨nodes₁, l, nodes₂, u, nl, nu, hleft, hright, hl, hu, rfl, rfl⟩ := (make_eq_some heq).mp h
      have hlen₁ := (prefix_of_make hleft).length_le
      have hlen₂ := (prefix_of_make hright).length_le
      rw [length_append, length_singleton] at hint hroom
      -- the midpoint lies between the ends
      have hdiv : (start + stop).tdiv 2 = (start + stop) / 2 := Int.tdiv_eq_ediv_of_nonneg (by omega)
      have hleft' := ih free hleft hstart (by omega) (by omega) (by omega) (by omega)
      have hright' := ih (free.drop (nodes₁.length - nodes.length)) hright (by omega) (by omega) hstop
        (by omega) (by rw [length_drop]; omega)
      -- one free node is left for the root
      rw [drop_drop, Nat.add_comm, Nat.sub_add_sub_cancel hlen₂ hlen₁] at hright'
      obtain ⟨x, free', hfree⟩ : ∃ x free', free.drop (nodes₂.length - nodes.length) = x :: free' := by
        refine exists_cons_of_length_pos ?_
        rw [length_drop]
        omega
      have hrest : free.drop (nodes₂.length + 1 - nodes.length) = free' := by
        rw [Nat.succ_sub (by omega), Nat.succ_eq_add_one, ← tail_drop, hfree, tail_cons]
      rw [hfree] at hright'
      rw [if_neg heq, IntType.checked_int (by omega) (by omega)]
      simp only [bind_some, map_some, hleft', hright', nodeAt_append hl, nodeAt_append hu,
        setNode_append, IntType.checked_int (by omega : 0 ≤ (nodes₂.length : Int) + 1) (by omega),
        length_append, length_singleton, Nat.cast_add, Nat.cast_one, hrest]

/-! ## The size -/

/-- The array of `allocate` exists and is large enough for the leaves of `n` intervals and for what `make` writes
over them, and `make` ends. -/
def Enough (K T : Type*) (n : BitVec 32) : Prop :=
  ∃ size, allocate n = some size ∧ n.toNat ≤ size ∧
    ∀ leaves free : List (Node K T), leaves.length = n.toNat → (∀ x ∈ leaves, x.isLeaf) →
      leaves.length + free.length = size →
      ∃ fuel nodes unused p, makeIn fuel (leaves ++ free) leaves.length 0 (leaves.length - 1) =
          some ⟨nodes ++ unused, nodes.length, p⟩ ∧
        make fuel leaves 0 (leaves.length - 1) = some (nodes, p) ∧
        nodes.length = 2 * leaves.length - 1 ∧ nodes.length + unused.length = size

theorem allocate_eq_some {n p : BitVec 32} (hp : leastUpperPowerOf2 n = some p) (hpos : 0 < n.toNat)
    (hsum : n.toNat + p.toNat ≤ 2 ^ 31) : allocate n = some (n.toNat + p.toNat - 1) := by
  have hnat : (n + p - 1).toNat = n.toNat + p.toNat - 1 := by
    have hone : (1 : BitVec 32).toNat = 1 := rfl
    bv_omega
  have hint : (n + p - 1).toInt = (n + p - 1).toNat := BitVec.toInt_eq_toNat_of_lt (by omega)
  rw [allocate, hp, bind_some]
  simp only [hint, hnat]
  rw [if_neg (by omega), Int.toNat_natCast]

theorem allocate_eq_none {n p : BitVec 32} (hp : leastUpperPowerOf2 n = some p) (hlow : 2 ^ 30 < n.toNat)
    (hhigh : n.toNat ≤ 2 ^ 31) (hval : p.toNat = 2 ^ 31) : allocate n = none := by
  have hnat : (n + p - 1).toNat = n.toNat + p.toNat - 1 := by
    have hone : (1 : BitVec 32).toNat = 1 := rfl
    bv_omega
  have hneg : (n + p - 1).toInt < 0 := by
    rw [BitVec.toInt_eq_toNat_cond, if_neg (by omega)]
    have hlt := (n + p - 1).isLt
    omega
  rw [allocate, hp, bind_some]
  exact if_pos hneg

/-- A size that is a power of 2 above the count holds the leaves and one node less. -/
theorem exists_makeIn {leaves free : List (Node K T)} (hpos : 0 < leaves.length) (hle : leaves.length ≤ 2 ^ 30)
    (hleaf : ∀ x ∈ leaves, x.isLeaf) (hroom : 2 * leaves.length - 1 ≤ leaves.length + free.length) :
    ∃ fuel nodes unused p, makeIn fuel (leaves ++ free) leaves.length 0 (leaves.length - 1) =
        some ⟨nodes ++ unused, nodes.length, p⟩ ∧
      make fuel leaves 0 (leaves.length - 1) = some (nodes, p) ∧
      nodes.length = 2 * leaves.length - 1 ∧ nodes.length + unused.length = leaves.length + free.length := by
  have hleaves : ∀ i, 0 ≤ i → i ≤ leaves.length - 1 → ∃ n, leaves[i]? = some n ∧ n.isLeaf := by
    intro i _ hi
    have hlt : i < leaves.length := by omega
    exact ⟨leaves[i], getElem?_eq_getElem hlt, hleaf _ (getElem_mem hlt)⟩
  obtain ⟨nodes, p, hmake, -, -, hlen⟩ :=
    make_spec leaves.length leaves 0 (leaves.length - 1) (Nat.zero_le _) (by omega) hleaves
  have hstop : ((leaves.length - 1 : Nat) : Int) = (leaves.length : Int) - 1 := by omega
  rw [hstop, Nat.cast_zero] at hmake
  have hfilled := makeIn_of_make free hmake le_rfl (by omega) (by omega) (by omega) (by omega)
  refine ⟨leaves.length, nodes, _, p, hfilled, hmake, by omega, ?_⟩
  rw [length_drop]
  omega

/-- The array is large enough for every number of intervals for which there is one. -/
theorem enough_iff (K T : Type*) (n : BitVec 32) : Enough K T n ↔ 1 ≤ n.toNat ∧ n.toNat ≤ 2 ^ 30 := by
  rcases Nat.eq_zero_or_pos n.toNat with hzero | hpos
  · have hn : n = 0 := BitVec.eq_of_toNat_eq hzero
    subst hn
    refine iff_of_false ?_ (by decide)
    rintro ⟨size, hsize, -⟩
    have hnone : allocate 0 = none := by decide
    rw [hnone] at hsize
    cases hsize
  · have hne : n ≠ 0 := by
      rintro rfl
      exact absurd hpos (by decide)
    obtain ⟨hsome, hnone⟩ := leastUpperPowerOf2_spec hne
    constructor
    · rintro ⟨size, hsize, -⟩
      refine ⟨hpos, ?_⟩
      by_contra hover
      have hfails : allocate n = none := by
        by_cases hle : n.toNat ≤ 2 ^ 31
        · obtain ⟨p, k, hp, hval, hlow, -⟩ := hsome hle
          -- the power of 2 is the largest one of a word
          have hk : 30 < k := (Nat.pow_lt_pow_iff_right (by decide : 1 < 2)).mp (by omega)
          have hk' : k < 32 := (Nat.pow_lt_pow_iff_right (by decide : 1 < 2)).mp (hval ▸ p.isLt)
          have heq : k = 31 := by omega
          subst heq
          exact allocate_eq_none hp (by omega) hle hval
        · rw [allocate, hnone (by omega), bind_none]
      rw [hfails] at hsize
      cases hsize
    · rintro ⟨-, hle⟩
      obtain ⟨p, k, hp, hval, hlow, hhigh⟩ := hsome (by omega)
      have hk : k < 31 := (Nat.pow_lt_pow_iff_right (by decide : 1 < 2)).mp (by omega)
      have hpow : 2 ^ k ≤ 2 ^ 30 := Nat.pow_le_pow_right (by decide) (by omega)
      refine ⟨_, allocate_eq_some hp hpos (by omega), by omega, fun leaves free hlen hleaf hsize => ?_⟩
      rw [← hsize]
      exact exists_makeIn (by omega) (by omega) hleaf (by omega)

/-- One interval more than the largest number. -/
theorem not_enough : ¬ Enough Nat Nat 1073741825#32 := by
  rintro ⟨size, hsize, -⟩
  have hnone : allocate 1073741825#32 = none := by decide
  rw [hnone] at hsize
  cases hsize

end Elm.Stree
