import Elm.Util.BitVectorObservers
import Elm.Util.WAHVectorObservers

/-!
# `WAHVector` beside `BitVector`

A `WAHVector` keeps its bits compressed and has the mutators and the observers of `BitVector`.  The vectors of both
classes that are built by the same calls answer alike, when the calls are among those that `WAHVector` does well and
the `BitVector` has been asked `isEmpty`, which clears the bits behind its end.
-/

namespace Elm.Util

open Bits List Option

/-! ## The mutators of `BitVector` -/

namespace BitVector

theorem clear_spec {b : BitVector} {i : Nat} (hi : i < b.size) :
    ∃ b', b.clear i = some b' ∧ b'.size = b.size ∧ b'.view = b.view.set i false ∧ b'.padding = b.padding := by
  have hr : bindex i < 8 := by
    rw [bindex_eq]
    omega
  refine ⟨_, if_pos hi, rfl, view_padding_of_set hi rfl ?_⟩
  have h := ofWords_modify_bit b.bits (windex_lt hi) hr fun x j hj => getLsbD_clear_bit x hj
  rw [windex_bindex] at h
  exact h

/-- The loops over the words of two vectors. -/
theorem combine_spec {f : Word → Word → Word} {g : Bool → Bool → Bool}
    (hbit : ∀ x y : Word, ∀ i < 8, (f x y).getLsbD i = g (x.getLsbD i) (y.getLsbD i)) {b vec : BitVector}
    (hsize : b.size = vec.size) :
    ∃ b', combine f b vec = some b' ∧ b'.size = b.size ∧ b'.view = List.zipWith g b.view vec.view := by
  refine ⟨_, dif_pos hsize, rfl, ?_⟩
  show (ofWords (List.zipWith f b.bits vec.bits)).take b.size = _
  rw [ofWords_zipWith hbit, take_zipWith, view, view, hsize]

theorem view_applyNot (b : BitVector) : b.applyNot.view = b.view.map (!·) := by
  have hnot := ofWords_zipWith (w := 8) (f := fun x _ => ~~~x) (g := fun c _ => !c) fun x y i hi => by simp [hi]
  have hwords : b.bits.map (~~~ ·) = List.zipWith (fun x _ => ~~~x) b.bits b.bits := by
    rw [zipWith_self]
  show (ofWords (b.bits.map (~~~ ·))).take b.size = _
  rw [hwords, hnot, zipWith_self, ← map_take]
  rfl

theorem clean_mask (b : BitVector) : b.mask.Clean := by
  have hwords := ofWords_mask b
  rw [← view_append_padding b.mask, view_mask] at hwords
  rw [Clean, append_cancel_left hwords]
  exact fun p hp => eq_of_mem_replicate hp

theorem countOnes_mask (b : BitVector) : b.mask.countOnes = b.view.count true := by
  rw [countOnes_eq, view_mask, (clean_iff_count _).mp (clean_mask b), Nat.add_zero]

end BitVector

/-! ## The same calls on both -/

namespace Wah

/-- `applyAnd`, `applyOr` and `applyReset` of `BitVector`. -/
def Op.plain : Op → BitVector → BitVector → Option BitVector
  | .and => BitVector.applyAnd
  | .or => BitVector.applyOr
  | .reset => BitVector.applyReset

/-- `makeAnd`, `makeOr` and `makeReset`. -/
def Op.plainMake : Op → BitVector → BitVector → Option BitVector
  | .and => BitVector.makeAnd
  | .or => BitVector.makeOr
  | .reset => BitVector.makeReset

/-- The operation on words of `doAnd`, `doOr` and `doReset`. -/
def Op.word : Op → Util.Word → Util.Word → Util.Word
  | .and, x, y => x &&& y
  | .or, x, y => x ||| y
  | .reset, x, y => x &&& ~~~y

theorem Op.getLsbD_word (op : Op) (x y : Util.Word) (i : Nat) (hi : i < 8) :
    (op.word x y).getLsbD i = op.bit (x.getLsbD i) (y.getLsbD i) := by
  cases op <;> simp [Op.word, Op.bit, hi]

theorem Op.plain_spec (op : Op) {b vec : BitVector} (hpos : 0 < b.size) (hsize : b.size = vec.size) :
    (∃ b', op.plain b vec = some b' ∧ b'.size = b.size ∧ b'.view = List.zipWith op.bit b.view vec.view) ∧
      ∃ b', op.plainMake b vec = some b' ∧ b'.size = b.size ∧ b'.view = List.zipWith op.bit b.view vec.view := by
  obtain ⟨b', hcombine, hsize', hview⟩ := BitVector.combine_spec op.getLsbD_word hsize
  constructor
  · cases op with
    | and => exact ⟨b', hcombine, hsize', hview⟩
    | or => exact ⟨b', hcombine, hsize', hview⟩
    | reset =>
      -- the words of the result are masked
      refine ⟨b'.mask, ?_, by rw [BitVector.size_mask, hsize'], by rw [BitVector.view_mask, hview]⟩
      exact congrArg (Option.map BitVector.mask) hcombine
  · refine ⟨b', ?_, hsize', hview⟩
    have hmake : op.plainMake b vec = (BitVector.new b.size false).bind fun _ => BitVector.combine op.word b vec := by
      cases op <;> rfl
    rw [hmake, BitVector.new, if_pos hpos]
    exact hcombine

theorem ofFn_update {n : Nat} (f : Fin n → Bool) (i : Fin n) (v : Bool) :
    (List.ofFn f).set i v = List.ofFn (Function.update f i v) := by
  refine ext_getElem (by simp) fun k hk hk' => ?_
  rw [getElem_set, List.getElem_ofFn, List.getElem_ofFn, Function.update_apply]
  exact if_congr (by rw [Fin.ext_iff, eq_comm]) rfl rfl

theorem zipWith_ofFn {n : Nat} (op : Bool → Bool → Bool) (f g : Fin n → Bool) :
    List.zipWith op (List.ofFn f) (List.ofFn g) = List.ofFn fun i => op (f i) (g i) := by
  refine ext_getElem (by simp) fun k hk hk' => ?_
  rw [getElem_zipWith, List.getElem_ofFn, List.getElem_ofFn, List.getElem_ofFn]

namespace History

variable {n : Nat}

/-- The calls on vectors of the class `BitVector`. -/
def plain : History n → Option BitVector
  | .new init => BitVector.new n init
  | .set h i => h.plain.bind fun b => b.set i
  | .clear h i => h.plain.bind fun b => b.clear i
  | .apply op h vec => h.plain.bind fun b => vec.plain.bind fun v => op.plain b v
  | .applyNot h => h.plain.map BitVector.applyNot
  | .make op h vec => h.plain.bind fun b => vec.plain.bind fun v => op.plainMake b v
  | .makeNot h => h.plain.bind BitVector.makeNot

/-- A vector with the bits of an array. -/
def Shows (b : BitVector) (f : Fin n → Bool) : Prop := b.size = n ∧ b.view = List.ofFn f

theorem shows_not {b : BitVector} {f : Fin n → Bool} (h : Shows b f) : Shows b.applyNot fun i => !f i :=
  ⟨h.1, by rw [BitVector.view_applyNot, h.2, map_ofFn]; rfl⟩

/-- A vector of the class `BitVector` always has the bits that are meant. -/
theorem plain_spec (hn : 0 < n) : ∀ h : History n, ∃ b, h.plain = some b ∧ Shows b h.bits
  | .new init => by
    obtain ⟨b, hnew, hsize, hview⟩ := BitVector.new_spec hn init
    exact ⟨b, hnew, hsize, by rw [hview, bits, ofFn_const]⟩
  | .set h i => by
    obtain ⟨b, hplain, hsize, hview⟩ := plain_spec hn h
    obtain ⟨b', hset, hsize', hview', -⟩ := BitVector.set_spec (b := b) (i := i) (hsize ▸ i.isLt)
    refine ⟨b', by rw [plain, hplain]; exact hset, hsize'.trans hsize, ?_⟩
    rw [hview', hview, bits, ofFn_update]
  | .clear h i => by
    obtain ⟨b, hplain, hsize, hview⟩ := plain_spec hn h
    obtain ⟨b', hclear, hsize', hview', -⟩ := BitVector.clear_spec (b := b) (i := i) (hsize ▸ i.isLt)
    refine ⟨b', by rw [plain, hplain]; exact hclear, hsize'.trans hsize, ?_⟩
    rw [hview', hview, bits, ofFn_update]
  | .apply op h vec => by
    obtain ⟨b, hplain, hsize, hview⟩ := plain_spec hn h
    obtain ⟨v, hplain', hsize', hview'⟩ := plain_spec hn vec
    obtain ⟨⟨b', hop, hsize₁, hview₁⟩, -⟩ := op.plain_spec (hsize ▸ hn) (hsize.trans hsize'.symm)
    refine ⟨b', by rw [plain, hplain, bind_some, hplain']; exact hop, hsize₁.trans hsize, ?_⟩
    rw [hview₁, hview, hview', zipWith_ofFn, bits]
  | .applyNot h => by
    obtain ⟨b, hplain, hshows⟩ := plain_spec hn h
    exact ⟨b.applyNot, by rw [plain, hplain, map_some], shows_not hshows⟩
  | .make op h vec => by
    obtain ⟨b, hplain, hsize, hview⟩ := plain_spec hn h
    obtain ⟨v, hplain', hsize', hview'⟩ := plain_spec hn vec
    obtain ⟨-, b', hop, hsize₁, hview₁⟩ := op.plain_spec (hsize ▸ hn) (hsize.trans hsize'.symm)
    refine ⟨b', by rw [plain, hplain, bind_some, hplain']; exact hop, hsize₁.trans hsize, ?_⟩
    rw [hview₁, hview, hview', zipWith_ofFn, bits]
  | .makeNot h => by
    obtain ⟨b, hplain, hshows⟩ := plain_spec hn h
    refine ⟨b.applyNot, ?_, shows_not hshows⟩
    rw [plain, hplain, bind_some, BitVector.makeNot, BitVector.new, if_pos (hshows.1 ▸ hn)]
    rfl

/-- The observers of both classes answer alike. -/
structure Same (u v : WAHVector) (a b : BitVector) : Prop where
  size : u.size = a.size
  bit : ∀ i < a.size, u.bit i = a.bit i
  isEmpty : u.isEmpty = some a.isEmpty.1
  countOnes : u.countOnes = a.isEmpty.2.countOnes
  equals : some (u.equals v) = (a.equals b.isEmpty.2).map Prod.fst
  includes : u.includes v = (a.includes b.isEmpty.2).map Prod.fst

/-- Two vectors have been built, in both classes. -/
def BuiltSame (h h' : History n) : Prop :=
  ∃ u v a b, h.eval = some u ∧ h'.eval = some v ∧ h.plain = some a ∧ h'.plain = some b ∧ Same u v a b

/-- Under the condition of `WAHVector` on the calls, both classes are the same. -/
theorem builtSame_of_meets (hn : 31 < n) {h h' : History n} (hmeets : h.Meets) (hmeets' : h'.Meets) :
    h.BuiltSame h' := by
  have hpos : 0 < n := by omega
  have hlt := hmeets.lt
  obtain ⟨u, heval, hu⟩ := eval_encodes hpos hmeets
  obtain ⟨v, heval', hv⟩ := eval_encodes hpos hmeets'
  obtain ⟨a, hplain, hsize, hview⟩ := plain_spec hpos h
  obtain ⟨b, hplain', hsize', hview'⟩ := plain_spec hpos h'
  refine ⟨u, v, a, b, heval, heval', hplain, hplain', ?_⟩
  have hmasked : a.size = b.mask.size := by rw [BitVector.size_mask, hsize, hsize']
  constructor
  · rw [size_encodes hlt hu, hsize]
  · intro i hi
    have hbit := bit_encodes hlt hu ⟨i, hsize ▸ hi⟩
    rw [hbit, BitVector.bit_eq, hview]
    simp [hsize ▸ hi]
  · have hboth := (isEmpty_isFull_iff hpos hlt hu).mpr (Or.inl hn)
    rw [hboth.1, BitVector.isEmpty_eq, hview]
    simp [BitVector.NoBit]
  · rw [countOnes_encodes hpos hlt hu]
    show _ = ((a.mask.countOnes : Nat) : Int)
    rw [BitVector.countOnes_mask, hview]
  · show _ = (a.equals b.mask).map Prod.fst
    rw [equals_encodes hu hv, BitVector.equals_eq hmasked, BitVector.view_mask, hview, hview']
    simp [BitVector.clean_mask]
  · show _ = (a.includes b.mask).map Prod.fst
    have hiff : BitVector.Includes (List.ofFn h.bits) (List.ofFn h'.bits) ↔ ∀ i, h'.bits i = true → h.bits i = true := by
      unfold BitVector.Includes BitVector.NoBit
      rw [zipWith_ofFn, forall_mem_ofFn_iff]
      exact forall_congr' fun i => by cases h.bits i <;> cases h'.bits i <;> decide
    rw [includes_encodes hu hv, BitVector.includes_eq hmasked, BitVector.view_mask, hview, hview']
    simp [BitVector.clean_mask, hiff]

theorem builtSame_of_meets_forty :
    BuiltSame (n := 40) (.apply .or (.set (.new false) 3) (.clear (.set (.new true) 0) 39)) (.applyNot (.new false)) :=
  builtSame_of_meets (by decide) (by decide) (by decide)

end History

end Wah

end Elm.Util
