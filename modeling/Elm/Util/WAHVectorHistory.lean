import Elm.Util.WAHVectorRun

/-!
# Histories of `WAHVector`

The vectors that a program can build from the constructor with a size: the second operand of an operation has a
history of its own.
-/

namespace Elm.Util.Wah

open RunLength Function List

variable {n : Nat}

/-! ## `size` and `bit` -/

theorem foldl_cnt (words : List Word) (ii r : Nat) :
    (Iter.visits ii words).foldl (fun r it => r + it.cnt) r = r + (blocks words).length := by
  induction words generalizing ii r with
  | nil => rfl
  | cons w words ih =>
    have hcnt : (Iter.step ii w words).cnt = (view w).expand.length := by
      rw [Iter.step_eq]
      cases view w <;> simp [Run.expand]
    rw [Iter.visits, foldl_cons, ih, hcnt, Iter.blocks_cons, length_append]
    omega

theorem find_visits {index : Nat} {words : List Word} {t : Nat} (hfirst : t ≤ index / 31)
    (hlast : index / 31 < t + (blocks words).length) :
    ∃ it, (Iter.visits (31 * t) words).find? (fun it => it.i ≤ index ∧ index < it.ii) = some it ∧
      (blocks words)[index / 31 - t]? = some it.val := by
  induction words generalizing t with
  | nil =>
    have hzero : (blocks []).length = 0 := rfl
    omega
  | cons w words ih =>
    rw [Iter.blocks_cons, length_append] at hlast
    rw [Iter.visits, Iter.blocks_cons]
    have hi : (Iter.step (31 * t) w words).i = 31 * t := by
      rw [Iter.step_eq]
      cases view w <;> rfl
    have hii : (Iter.step (31 * t) w words).ii = 31 * (t + (view w).expand.length) := by
      rw [Iter.step_eq]
      cases view w <;> simp [times_eq, Run.expand, Nat.mul_add]
    by_cases hhere : index / 31 < t + (view w).expand.length
    · have hval : ∀ k < (view w).expand.length,
          (view w).expand[k]? = some (Iter.step (31 * t) w words).val := by
        intro k hk
        rw [Iter.step_eq]
        cases hview : view w with
        | lit x =>
          rw [hview] at hk
          obtain rfl : k = 0 := by simpa [Run.expand] using hk
          rfl
        | fill m x =>
          rw [hview] at hk
          simp only [Run.expand, length_replicate] at hk
          simp [Run.expand, hk]
      refine ⟨_, find?_cons_of_pos (by rw [hi, hii]; simp only [decide_eq_true_eq]; omega), ?_⟩
      rw [getElem?_append_left (by omega)]
      exact hval _ (by omega)
    · obtain ⟨it, hfind, hget⟩ := @ih (t + (view w).expand.length) (by omega) (by omega)
      refine ⟨it, ?_, ?_⟩
      · rw [find?_cons_of_neg (by rw [hi, hii]; simp only [decide_eq_true_eq]; omega), hii]
        exact hfind
      · rw [getElem?_append_right (by omega), ← hget]
        congr 1
        omega

/-- `bit` reads the bit of the block, where the division is exact. -/
theorem bit_eq {v : WAHVector} {index : Nat} (hindex : Exact index)
    (hlt : index / 31 < (blocks v.words).length) :
    v.bit index = (blocks v.words)[index / 31]?.map fun x => x.getLsbD (index % 31) := by
  obtain ⟨it, hfind, hget⟩ := @find_visits index v.words 0 (Nat.zero_le _) (by omega)
  rw [Nat.sub_zero] at hget
  have htest : decide (it.val &&& (1 : Word) <<< (index % 31) ≠ 0) = it.val.getLsbD (index % 31) := by
    rw [← Bits.test_bit it.val (show index % 31 < 32 by omega), Bool.eq_iff_iff, decide_eq_true_eq, bne_iff_ne]
    exact Iff.rfl
  have hstart : 31 * 0 = 0 := rfl
  rw [hstart] at hfind
  unfold WAHVector.bit
  rw [hfind, hindex.shift_eq, hget, Option.map_some, ← htest]
  rfl

section Read

variable {f : Fin n → Bool} {v : WAHVector}

theorem size_encodes (hlt : n < 4638219) (h : Encodes n v f) : v.size = n := by
  have hlen := h.packs.length
  unfold WAHVector.size
  rw [foldl_cnt, hlen, h.rem, Nat.zero_add]
  simp only [times_eq]
  split_ifs with hrem
  · have hsize : ((31 * ((n + 30) / 31) : Nat) : Int) - (31 - (n % 31 : Nat)) = n := by omega
    rw [hsize]
    exact Int.bmod_eq_of_le (by omega) (by omega)
  · omega

theorem bit_encodes (hlt : n < 4638219) (h : Encodes n v f) (i : Fin n) : v.bit i = some (f i) := by
  have hi := i.isLt
  have hlen := h.packs.length
  have hbit := h.packs.bits i
  rw [bit_eq (.of_lt (by omega)) (by omega), hbit]

end Read

/-! ## Histories -/

inductive Op where
  | and
  | or
  | reset
  deriving DecidableEq

/-- The operation on two bits. -/
def Op.bit : Op → Bool → Bool → Bool
  | .and, x, y => x && y
  | .or, x, y => x || y
  | .reset, x, y => x && !y

/-- `doAnd`, `doOr` and `doReset`. -/
def Op.run : Op → WAHVector → WAHVector → WAHVector → Option WAHVector
  | .and => WAHVector.doAnd
  | .or => WAHVector.doOr
  | .reset => WAHVector.doReset

/-- How a vector of `n` bits is built. -/
inductive History (n : Nat) where
  | new (init : Bool)
  | set (h : History n) (i : Fin n)
  | clear (h : History n) (i : Fin n)
  | apply (op : Op) (h vec : History n)
  | applyNot (h : History n)
  | make (op : Op) (h vec : History n)
  | makeNot (h : History n)

namespace History

/-- The vector that the program has; nothing when an assertion fails. -/
def eval : History n → Option WAHVector
  | .new init => some (WAHVector.new n init)
  | .set h i => h.eval.bind fun v => v.set i
  | .clear h i => h.eval.bind fun v => v.clear i
  | .apply op h vec => h.eval.bind fun v => vec.eval.bind fun w => op.run v v w
  | .applyNot h => h.eval.map fun v => WAHVector.doNot v v
  | .make op h vec => h.eval.bind fun v => vec.eval.bind fun w => op.run WAHVector.default v w
  | .makeNot h => h.eval.map fun v => WAHVector.doNot WAHVector.default v

/-- The array of booleans after the same operations. -/
def bits : History n → Fin n → Bool
  | .new init => fun _ => init
  | .set h i => update h.bits i true
  | .clear h i => update h.bits i false
  | .apply op h vec => fun i => op.bit (h.bits i) (vec.bits i)
  | .applyNot h => fun i => !h.bits i
  | .make op h vec => fun i => op.bit (h.bits i) (vec.bits i)
  | .makeNot h => fun i => !h.bits i

/-- `or` does not complete with ones an incomplete block behind a block that `fix` takes for a fill. -/
def OpMeets (op : Op) (f g : Fin n → Bool) : Prop :=
  op = .or → Merges (fun i => f i || g i) true → LastAll f true ∨ LastAll g true

/-- The steps that `WAHVector` does well. -/
def Meets : History n → Prop
  | .new _ => n < 4638219
  | .set h i => h.Meets ∧ (Merges (update h.bits i true) true → LastAll h.bits true)
  | .clear h i =>
    h.Meets ∧ (n % 31 = 1 → Merges (update h.bits i false) false → ¬ LastAll h.bits true)
  | .apply op h vec => h.Meets ∧ vec.Meets ∧ OpMeets op h.bits vec.bits
  | .applyNot h => h.Meets
  | .make op h vec => n % 31 = 0 ∧ h.Meets ∧ vec.Meets ∧ OpMeets op h.bits vec.bits
  | .makeNot h => n % 31 = 0 ∧ h.Meets

/-- The vector and the array agree. -/
def Refines (h : History n) : Prop :=
  ∃ v, h.eval = some v ∧ v.size = n ∧ ∀ i : Fin n, v.bit i = some (h.bits i)

theorem Meets.lt : ∀ {h : History n}, h.Meets → n < 4638219
  | .new _, h => h
  | .set _ _, h => h.1.lt
  | .clear _ _, h => h.1.lt
  | .apply _ _ _, h => h.1.lt
  | .applyNot h, hm => @Meets.lt h hm
  | .make _ _ _, h => h.2.1.lt
  | .makeNot _, h => h.2.lt

instance (op : Op) (f g : Fin n → Bool) : Decidable (OpMeets op f g) :=
  inferInstanceAs (Decidable (op = .or → _ → _))

instance decidableMeets : ∀ h : History n, Decidable h.Meets
  | .new _ => inferInstanceAs (Decidable (n < 4638219))
  | .set h i =>
    have := decidableMeets h
    inferInstanceAs (Decidable (h.Meets ∧
      (Merges (update h.bits i true) true → LastAll h.bits true)))
  | .clear h i =>
    have := decidableMeets h
    inferInstanceAs (Decidable (h.Meets ∧
      (n % 31 = 1 → Merges (update h.bits i false) false → ¬ LastAll h.bits true)))
  | .apply op h vec =>
    have := decidableMeets h
    have := decidableMeets vec
    inferInstanceAs (Decidable (h.Meets ∧ vec.Meets ∧ OpMeets op h.bits vec.bits))
  | .applyNot h => decidableMeets h
  | .make op h vec =>
    have := decidableMeets h
    have := decidableMeets vec
    inferInstanceAs (Decidable (n % 31 = 0 ∧ h.Meets ∧ vec.Meets ∧ OpMeets op h.bits vec.bits))
  | .makeNot h =>
    have := decidableMeets h
    inferInstanceAs (Decidable (n % 31 = 0 ∧ h.Meets))

theorem run_encodes {op : Op} (hn : 0 < n) (hlt : n < 4638219) {u v : WAHVector} {f g : Fin n → Bool}
    (hu : Encodes n u f) (hv : Encodes n v g) (hmeets : OpMeets op f g) (r : WAHVector) (hrem : r.rem = n % 31) :
    ∃ w, op.run r u v = some w ∧ Encodes n w fun i => op.bit (f i) (g i) := by
  have hresult : ∃ ws, op.run r u v = some { r with words := ws } ∧
      Encodes n { rem := n % 31, words := ws } fun i => op.bit (f i) (g i) := by
    cases op with
    | and => exact doAnd_encodes hn hlt hu hv r
    | or => exact doOr_encodes hn hlt hu hv (hmeets rfl) r
    | reset => exact doReset_encodes hn hlt hu hv r
  obtain ⟨ws, hrun, henc⟩ := hresult
  rw [← hrem] at henc
  exact ⟨_, hrun, henc⟩

/-- Every vector of a positive size. -/
theorem eval_encodes (hn : 0 < n) : ∀ {h : History n}, h.Meets → ∃ v, h.eval = some v ∧ Encodes n v h.bits
  | .new init, hlt => ⟨_, rfl, new_encodes hn hlt init⟩
  | .set h i, ⟨hmeets, hstep⟩ => by
    obtain ⟨v, heval, henc⟩ := eval_encodes hn hmeets
    obtain ⟨v', hset, henc'⟩ := set_encodes hn hmeets.lt henc i hstep
    exact ⟨v', by rw [eval, heval]; exact hset, henc'⟩
  | .clear h i, ⟨hmeets, hstep⟩ => by
    obtain ⟨v, heval, henc⟩ := eval_encodes hn hmeets
    obtain ⟨v', hclear, henc'⟩ := clear_encodes hn hmeets.lt henc i hstep
    exact ⟨v', by rw [eval, heval]; exact hclear, henc'⟩
  | .apply op h vec, ⟨hmeets, hmeets', hstep⟩ => by
    obtain ⟨v, heval, henc⟩ := eval_encodes hn hmeets
    obtain ⟨w, heval', henc'⟩ := eval_encodes hn hmeets'
    obtain ⟨r, hrun, hr⟩ := run_encodes hn hmeets.lt henc henc' hstep v henc.rem
    exact ⟨r, by rw [eval, heval, heval']; exact hrun, hr⟩
  | .applyNot h, hmeets => by
    obtain ⟨v, heval, henc⟩ := @eval_encodes hn h hmeets
    obtain ⟨ws, hrun, hr⟩ := doNot_encodes hn (@Meets.lt n h hmeets) henc v
    rw [← henc.rem] at hr
    exact ⟨_, by rw [eval, heval, Option.map_some, hrun], hr⟩
  | .make op h vec, ⟨hrem, hmeets, hmeets', hstep⟩ => by
    obtain ⟨v, heval, henc⟩ := eval_encodes hn hmeets
    obtain ⟨w, heval', henc'⟩ := eval_encodes hn hmeets'
    obtain ⟨r, hrun, hr⟩ := run_encodes hn hmeets.lt henc henc' hstep WAHVector.default hrem.symm
    exact ⟨r, by rw [eval, heval, heval']; exact hrun, hr⟩
  | .makeNot h, ⟨hrem, hmeets⟩ => by
    obtain ⟨v, heval, henc⟩ := eval_encodes hn hmeets
    obtain ⟨ws, hrun, hr⟩ := doNot_encodes hn hmeets.lt henc WAHVector.default
    have hdefault : n % 31 = WAHVector.default.rem := hrem
    rw [hdefault] at hr
    exact ⟨_, by rw [eval, heval, Option.map_some, hrun], hr⟩

/-- A vector without bit is one fill of no block. -/
theorem eval_zero : ∀ h : History 0, ∃ init, h.eval = some (WAHVector.new 0 init)
  | .new init => ⟨init, rfl⟩
  | .set _ i => i.elim0
  | .clear _ i => i.elim0
  | .apply op h vec => by
    obtain ⟨x, heval⟩ := eval_zero h
    obtain ⟨y, heval'⟩ := eval_zero vec
    refine ⟨op.bit x y, ?_⟩
    rw [eval, heval, heval']
    cases op <;> cases x <;> cases y <;> rfl
  | .applyNot h => by
    obtain ⟨x, heval⟩ := eval_zero h
    refine ⟨!x, ?_⟩
    rw [eval, heval]
    cases x <;> rfl
  | .make op h vec => by
    obtain ⟨x, heval⟩ := eval_zero h
    obtain ⟨y, heval'⟩ := eval_zero vec
    refine ⟨op.bit x y, ?_⟩
    rw [eval, heval, heval']
    cases op <;> cases x <;> cases y <;> rfl
  | .makeNot h => by
    obtain ⟨x, heval⟩ := eval_zero h
    refine ⟨!x, ?_⟩
    rw [eval, heval]
    cases x <;> rfl

/-- Every history whose steps meet the condition gives a vector that agrees with the array. -/
theorem refines_of_meets {n : Nat} {h : History n} (hmeets : h.Meets) : h.Refines := by
  by_cases hn : n = 0
  · subst hn
    obtain ⟨init, heval⟩ := eval_zero h
    refine ⟨_, heval, ?_, fun i => i.elim0⟩
    cases init <;> rfl
  · obtain ⟨v, heval, henc⟩ := eval_encodes (Nat.pos_of_ne_zero hn) hmeets
    exact ⟨v, heval, size_encodes hmeets.lt henc, bit_encodes hmeets.lt henc⟩

theorem refines_unions :
    Refines (n := 40) (.applyNot (.apply .or (.set (.new false) 3) (.clear (.set (.new true) 0) 39))) :=
  refines_of_meets (by decide)

/-- Two bits set on both sides of the last boundary: the last word is lost, with 31 bits. -/
theorem not_refines : ¬ ∀ (n : Nat) (h : History n), h.Refines := by
  intro hall
  obtain ⟨v, heval, hsize, -⟩ := hall 32 (.set (.set (.new false) 30) 31)
  have hwords : eval (n := 32) (.set (.set (.new false) 30) 31) = some { rem := 1, words := [0x40000001] } := by
    decide
  obtain rfl := Option.some.inj (heval.symm.trans hwords)
  exact absurd hsize (by decide)

end History

end Elm.Util.Wah
