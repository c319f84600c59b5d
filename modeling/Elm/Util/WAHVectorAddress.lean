import Elm.Util.WAHVectorHistory

/-!
# Addresses in a `WAHVector`

The index of a bit is divided by the number of bits of a literal with a multiplication by 138547362 and a shift, as
`(2 ^ 32 + 926) / 31`.  The error of 926 adds up until it carries in the quotient, which is then too large: the
remainder is negative and the mask of the bit is a shift by a negative number.
-/

namespace Elm.Util.Wah

open RunLength

/-- The words are a canonical encoding, of fewer blocks than a fill can count. -/
def Sound (vec : WAHVector) : Prop := Canonical Uniform (runs vec.words) ∧ (blocks vec.words).length < 2 ^ 30

/-- `v` leads to the block `v / 31` and to the bit `v % 31` in it: as a size in the constructor, and as an index
in `bit`, `set` and `clear`, the last two before `fix`. -/
structure Addresses (v : Nat) : Prop where
  div : div v = v / 31
  mod : mod v = (v % 31 : Nat)
  new : ∀ init, WAHVector.new v init = { rem := v % 31, words := [fill ((v + 30) / 31 : Nat) init] }
  bit : ∀ vec : WAHVector, v / 31 < (blocks vec.words).length →
    vec.bit v = (blocks vec.words)[v / 31]?.map fun x => x.getLsbD (v % 31)
  set : ∀ vec : WAHVector, Sound vec → v / 31 < (blocks vec.words).length →
    ∃ b : Builder, vec.set v = some { vec with words := b.fix vec.rem } ∧
      (blocks b).reverse = (blocks vec.words).modify (v / 31) (· ||| (1 : Word) <<< (v % 31))
  clear : ∀ vec : WAHVector, Sound vec → v / 31 < (blocks vec.words).length →
    ∃ b : Builder, vec.clear v = some { vec with words := b.fix vec.rem } ∧
      (blocks b).reverse = (blocks vec.words).modify (v / 31) (· &&& ~~~((1 : Word) <<< (v % 31)))

theorem Exact.addresses {v : Nat} (hv : Exact v) : Addresses v where
  div := hv.div_eq
  mod := hv.mod_eq
  new := hv.new_eq
  bit vec hin := bit_eq hv hin
  set vec hvec hin := by
    obtain ⟨b, hset, -, hblocks⟩ := update_spec blockChange_set hvec.1 hvec.2 hv hin
    exact ⟨b, hset, hblocks⟩
  clear vec hvec hin := by
    obtain ⟨b, hclear, -, hblocks⟩ := update_spec blockChange_clear hvec.1 hvec.2 hv hin
    exact ⟨b, hclear, hblocks⟩

/-- A number leads to the right word and bit if and only if the error does not carry. -/
theorem addresses_iff (v : Nat) : Addresses v ↔ Exact v := by
  refine ⟨fun h => ?_, Exact.addresses⟩
  by_contra hnot
  exact absurd h.div (Nat.ne_of_gt (lt_div_of_not_exact hnot))

/-- The first number whose error carries, 149619 blocks and 30 bits. -/
theorem not_addresses : ¬ ∀ v < 2 ^ 31, Addresses v := by
  intro h
  have hdiv := (h 4638219 (by norm_num)).div
  revert hdiv
  decide

end Elm.Util.Wah
