import Elm.Util.BitVectorResize
import Elm.Util.BitVectorShift

/-!
# The loops of the shifts

A loop that writes words does not change those that it still has to read, so that each word written
depends on the words of the vector only.  A word made of the ends of two neighbours holds eight
consecutive bits of the vector.
-/

namespace Elm.Util.BitVector

open Bits Function List Option

/-- The bit `q` of an array of words. -/
def bitAt (words : Nat → Word) (q : Nat) : Bool := (words (q / 8)).getLsbD (q % 8)

namespace Arrays

variable {a : Arrays} {done is : List Nat} {v : Nat → Word} {i : Nat} {x : Word}

/-- The arrays after the words `is` of `tbits` have been written. -/
def fill (a : Arrays) (is : List Nat) (v : Nat → Word) : Arrays :=
  { a with tbits := fun p => if p ∈ is then v p else a.tbits p }

@[simp] theorem count_fill : (a.fill is v).count = a.count := rfl

@[simp] theorem shared_fill : (a.fill is v).shared = a.shared := rfl

@[simp] theorem fill_nil : a.fill [] v = a := by
  simp [fill]

theorem tbits_fill_of_mem (hi : i ∈ is) : (a.fill is v).tbits i = v i := if_pos hi

theorem tbits_fill_of_not_mem (hi : i ∉ is) : (a.fill is v).tbits i = a.tbits i := if_neg hi

theorem source_fill_of_not_mem (hi : i ∉ is) : (a.fill is v).source i = a.source i := by
  cases hshared : a.shared with
  | false => simp [source, hshared, fill]
  | true => simp [source, hshared, fill, hi]

theorem get_eq {r : Int} (hr : r = i) (hi : i < a.count) : a.get r = some (a.source i) := by
  subst hr
  rw [get, if_pos (by omega), Int.toNat_natCast]

theorem get_none {r : Int} (hr : r < 0) : a.get r = none := if_neg (by omega)

theorem put_eq {r : Int} (hr : r = i) (hi : i < a.count) (x : Word) :
    a.put r x = some (a.fill [i] fun _ => x) := by
  subst hr
  rw [put, if_pos (by omega), Int.toNat_natCast, fill]
  congr 2
  funext p
  by_cases hp : p = i
  · simp [hp]
  · simp [hp, update_of_ne]

theorem put_none {r : Int} (hr : r < 0 ∨ a.count ≤ r) (x : Word) : a.put r x = none := if_neg (by omega)

theorem fill_fill_single : (a.fill done v).fill [i] (fun _ => v i) = a.fill (done ++ [i]) v := by
  simp only [fill]
  congr 1
  funext p
  by_cases hp : p = i
  · simp [hp]
  · simp [hp]

theorem fill_congr {w : Nat → Word} (h : ∀ i ∈ is, v i = w i) : a.fill is v = a.fill is w := by
  simp only [fill]
  congr 1
  funext p
  by_cases hp : p ∈ is
  · rw [if_pos hp, if_pos hp, h p hp]
  · rw [if_neg hp, if_neg hp]

/-- A word that is written once more. -/
theorem fill_fill_same {l : List Nat} (hi : i ∈ l) : (a.fill l v).fill [i] (fun _ => v i) = a.fill l v := by
  rw [fill_fill_single]
  simp only [fill]
  congr 1
  funext p
  by_cases hp : p = i
  · simp [hp, hi]
  · simp [hp]

/-- A loop that writes the words `is`, the word `i` from words that no later turn has to read. -/
theorem foldlM_put (R : Nat → Nat → Prop) {f : Arrays → Nat → Option Arrays} (his : is.Pairwise R)
    (hf : ∀ done : List Nat, ∀ i ∈ is, (∀ d ∈ done, R d i) →
      f (a.fill done v) i = some (a.fill (done ++ [i]) v)) :
    is.foldlM f a = some (a.fill is v) := by
  have hrun : ∀ rest done : List Nat, done ++ rest = is →
      rest.foldlM f (a.fill done v) = some (a.fill (done ++ rest) v) := by
    intro rest
    induction rest with
    | nil => simp
    | cons i rest ih =>
      intro done heq
      have hpair : (done ++ i :: rest).Pairwise R := heq ▸ his
      have hstep := hf done i (by simp [← heq]) fun d hd =>
        (pairwise_append.mp hpair).2.2 d hd i (by simp)
      have hrest := ih (done ++ [i]) (by simpa using heq)
      rw [foldlM_cons, hstep]
      simpa using hrest
  simpa using hrun is [] rfl

theorem pairwise_reverse_range' (start n : Nat) : (List.range' start n).reverse.Pairwise (· > ·) :=
  pairwise_reverse.mpr pairwise_lt_range'

end Arrays

open Arrays

variable {size n : Nat} {a : Arrays} {words : Nat → Word}

/-! ## Bits of words -/

theorem bitAt_maskWords {q : Nat} (hq : q < size) : bitAt (maskWords size words) q = bitAt words q := by
  unfold maskWords
  split_ifs with hmask
  · rw [ne_eq, maskWord_eq_zero_iff] at hmask
    by_cases hlast : q / 8 = inWords size - 1
    · have hbit : q % 8 < size % 8 := by
        rw [inWords_eq] at hlast
        omega
      rw [bitAt, hlast, update_self, BitVec.getLsbD_and,
        getLsbD_maskWord _ (Nat.mod_lt q (by decide)), bitAt, hlast]
      simp [hbit]
    · rw [bitAt, update_of_ne hlast, bitAt]
  · rfl

theorem bitAt_eq (words : Nat → Word) {p j : Nat} (hj : j < 8) : bitAt words (8 * p + j) = (words p).getLsbD j := by
  have hdiv : (8 * p + j) / 8 = p := by omega
  have hmod : (8 * p + j) % 8 = j := by omega
  rw [bitAt, hdiv, hmod]

/-- The end of a word and the start of the next one, shifted to the left. -/
theorem getLsbD_join_left (words : Nat → Word) (p : Nat) {s j : Nat} (hs : s < 8) (hj : j < 8) :
    (words (p + 1) <<< s ||| words p >>> (8 - s)).getLsbD j = bitAt words (8 * (p + 1) + j - s) := by
  rw [BitVec.getLsbD_or, BitVec.getLsbD_shiftLeft, BitVec.getLsbD_ushiftRight]
  by_cases hlow : j < s
  · have hsum : 8 * (p + 1) + j - s = 8 * p + (8 - s + j) := by omega
    rw [hsum, bitAt_eq words (by omega)]
    simp [hlow]
  · have hsum : 8 * (p + 1) + j - s = 8 * (p + 1) + (j - s) := by omega
    rw [hsum, bitAt_eq words (by omega), BitVec.getLsbD_of_ge (words p) _ (by omega)]
    simp [hlow, hj]

/-- The end of a word and the start of the next one, shifted to the right. -/
theorem getLsbD_join_right (words : Nat → Word) (p : Nat) {s j : Nat} (hs : s < 8) (hj : j < 8) :
    (words p >>> s ||| words (p + 1) <<< (8 - s)).getLsbD j = bitAt words (8 * p + j + s) := by
  rw [BitVec.getLsbD_or, BitVec.getLsbD_shiftLeft, BitVec.getLsbD_ushiftRight]
  by_cases hlow : j < 8 - s
  · have hsum : 8 * p + j + s = 8 * p + (s + j) := by omega
    rw [hsum, bitAt_eq words (by omega)]
    simp [hlow]
  · have hsum : 8 * p + j + s = 8 * (p + 1) + (j - (8 - s)) := by omega
    rw [hsum, bitAt_eq words (by omega), BitVec.getLsbD_of_ge (words p) _ (by omega)]
    simp [hlow, hj]

/-! ## The loops -/

/-- The loop of the operations to the left. -/
theorem foldlM_leftTurn (bs Bs : Nat) (v : Nat → Word)
    (hv : ∀ i, Bs < i → v i = a.source (i - Bs) <<< bs ||| a.source (i - Bs - 1) >>> (wsize - bs)) :
    (List.range' (Bs + 1) (a.count - 1 - Bs)).reverse.foldlM (leftTurn bs Bs) a =
      some (a.fill (List.range' (Bs + 1) (a.count - 1 - Bs)).reverse v) := by
  -- the turns go down, and each one reads below the word that it writes
  refine foldlM_put (· > ·) (pairwise_reverse_range' (Bs + 1) (a.count - 1 - Bs)) ?_
  intro done i hi hdone
  rw [mem_reverse, mem_range'_1] at hi
  have hx : (a.fill done v).get (i - Bs) = some (a.source (i - Bs)) := by
    rw [get_eq (i := i - Bs) (by omega) (by rw [count_fill]; omega),
      source_fill_of_not_mem fun hd => absurd (hdone _ hd) (by omega)]
  have hy : (a.fill done v).get (i - Bs - 1) = some (a.source (i - Bs - 1)) := by
    rw [get_eq (i := i - Bs - 1) (by omega) (by rw [count_fill]; omega),
      source_fill_of_not_mem fun hd => absurd (hdone _ hd) (by omega)]
  simp only [leftTurn, hx, hy, bind_eq_bind, bind_some]
  rw [put_eq (i := i) rfl (by rw [count_fill]; omega), ← hv i (by omega), fill_fill_single]

/-- The loop of the operations to the right. -/
theorem foldlM_rightTurn (bs Bs : Nat) {m : Nat} (v : Nat → Word) (hm : m + Bs < a.count)
    (hv : ∀ i, v i = a.source (i + Bs) >>> bs ||| a.source (i + Bs + 1) <<< (wsize - bs)) :
    (List.range m).foldlM (rightTurn bs Bs) a = some (a.fill (List.range m) v) := by
  -- the turns go up, and each one reads from the word that it writes on
  refine foldlM_put (· < ·) pairwise_lt_range ?_
  intro done i hi hdone
  rw [mem_range] at hi
  have hx : (a.fill done v).get (i + Bs) = some (a.source (i + Bs)) := by
    rw [get_eq (i := i + Bs) (by omega) (by rw [count_fill]; omega),
      source_fill_of_not_mem fun hd => absurd (hdone _ hd) (by omega)]
  have hy : (a.fill done v).get (i + Bs + 1) = some (a.source (i + Bs + 1)) := by
    rw [get_eq (i := i + Bs + 1) (by omega) (by rw [count_fill]; omega),
      source_fill_of_not_mem fun hd => absurd (hdone _ hd) (by omega)]
  simp only [rightTurn, hx, hy, bind_eq_bind, bind_some]
  rw [put_eq (i := i) rfl (by rw [count_fill]; omega), ← hv i, fill_fill_single]

/-- A loop that writes the words `l` with known values. -/
theorem foldlM_write {l : List Nat} (v : Nat → Word) (hl : ∀ i ∈ l, i < a.count) :
    l.foldlM (fun a (i : Nat) => a.put i (v i)) a = some (a.fill l v) := by
  refine foldlM_put (fun _ _ => True) (pairwise_of_forall fun _ _ => trivial) ?_
  intro done i hi _
  rw [put_eq (i := i) rfl (by rw [count_fill]; exact hl i hi), fill_fill_single]

/-! ## The shifts -/

theorem windex_lt_inWords {k : Nat} (hk : k < size) : windex k < inWords size := by
  rw [windex_eq, inWords_eq]
  omega

/-- `doShiftLeft`, by a number of words that the vector has. -/
theorem doShiftLeft_spec (hcount : a.count = inWords size) (hn : n ≠ 0) (hwords : windex n < inWords size) :
    ∃ a', doShiftLeft size n a = some a' ∧
      ∀ q < size, bitAt a'.tbits q = if q < n then false else bitAt a.source (q - n) := by
  have hbs : bindex n < 8 := by
    rw [bindex_eq]
    omega
  have hsum := windex_bindex n
  have hsize := size_le_inWords size
  -- the words after the three parts
  let v := fun i => a.source (i - windex n) <<< bindex n ||| a.source (i - windex n - 1) >>> (wsize - bindex n)
  have hloop := foldlM_leftTurn (a := a) (bindex n) (windex n) v fun i _ => rfl
  let a₁ := a.fill (List.range' (windex n + 1) (a.count - 1 - windex n)).reverse v
  have hfirst : a₁.get 0 = some (a.source 0) := by
    rw [get_eq (r := 0) (i := 0) rfl (by change 0 < a.count; omega), source_fill_of_not_mem]
    simp
  have hput : a₁.put (windex n) (a.source 0 <<< bindex n) =
      some (a₁.fill [windex n] fun _ => a.source 0 <<< bindex n) :=
    put_eq rfl (by change windex n < a.count; omega) _
  let a₂ := a₁.fill [windex n] fun _ => a.source 0 <<< bindex n
  have hzero : (List.range (windex n)).foldlM (fun a (i : Nat) => a.put i 0) a₂ =
      some (a₂.fill (List.range (windex n)) fun _ => 0) := by
    refine foldlM_write (fun _ => 0) fun i hi => ?_
    change i < a.count
    rw [mem_range] at hi
    omega
  refine ⟨(a₂.fill (List.range (windex n)) fun _ => 0).maskTarget size, ?_, fun q hq => ?_⟩
  · simp only [doShiftLeft, if_neg hn, ← hcount, hloop, bind_eq_bind, bind_some]
    rw [hfirst, bind_some, hput, bind_some, hzero]
    rfl
  · rw [maskTarget, bitAt_maskWords hq, bitAt]
    have hmod := Nat.mod_lt q (by decide : 8 > 0)
    -- a zero, the first word that is moved, or a word of the loop
    rcases lt_trichotomy (q / 8) (windex n) with hlt | heq | hgt
    · rw [tbits_fill_of_mem (by simpa using hlt), if_pos (by omega)]
      simp
    · rw [tbits_fill_of_not_mem (by simp [heq]), tbits_fill_of_mem (by simp [heq]), BitVec.getLsbD_shiftLeft]
      by_cases hlow : q % 8 < bindex n
      · simp [hlow, show q < n by omega]
      · have hdiff : q - n = 8 * 0 + (q % 8 - bindex n) := by omega
        rw [if_neg (by omega), hdiff, bitAt_eq _ (by omega)]
        simp [hlow, hmod]
    · have hv : v (q / 8) = a.source (q / 8 - windex n - 1 + 1) <<< bindex n |||
          a.source (q / 8 - windex n - 1) >>> (8 - bindex n) := by
        have hsucc : q / 8 - windex n - 1 + 1 = q / 8 - windex n := by omega
        rw [hsucc]
        rfl
      rw [tbits_fill_of_not_mem (by simp; omega), tbits_fill_of_not_mem (by simp; omega),
        tbits_fill_of_mem (by simp only [mem_reverse, mem_range'_1]; omega), hv,
        getLsbD_join_left _ _ hbs hmod,
        if_neg (by omega)]
      congr 1
      omega

/-- `doShiftLeft`, by as many bits as the vector has, in full words. -/
theorem doShiftLeft_none (hcount : a.count = inWords size) (hn : n ≠ 0) (hwords : inWords size ≤ windex n) :
    doShiftLeft size n a = none := by
  have hempty : a.count - 1 - windex n = 0 := by omega
  simp only [doShiftLeft, if_neg hn, ← hcount, hempty, range'_zero, reverse_nil, foldlM_nil,
    Option.pure_def, bind_eq_bind, bind_some]
  cases a.get 0 with
  | none => rfl
  | some x =>
    rw [bind_some, put_none (Or.inr (by omega))]
    rfl

/-- `doShiftRight`, by a number of words that the vector has; it shifts the padding, too. -/
theorem doShiftRight_spec (hcount : a.count = inWords size) (hn : n ≠ 0) (hwords : windex n < inWords size) :
    ∃ a', doShiftRight size n a = some a' ∧
      ∀ q < size, bitAt a'.tbits q = (decide (q + n < inWords size * 8) && bitAt a.source (q + n)) := by
  have hbs : bindex n < 8 := by
    rw [bindex_eq]
    omega
  have hsum := windex_bindex n
  have hsize := size_le_inWords size
  let v := fun i => a.source (i + windex n) >>> bindex n ||| a.source (i + windex n + 1) <<< (wsize - bindex n)
  have hloop := foldlM_rightTurn (a := a) (bindex n) (windex n) (m := a.count - windex n - 1) v
    (by omega) fun i => rfl
  let a₁ := a.fill (List.range (a.count - windex n - 1)) v
  have hlast : a₁.get ((a.count : Int) - 1) = some (a.source (a.count - 1)) := by
    rw [get_eq (i := a.count - 1) (by omega) (by change a.count - 1 < a.count; omega), source_fill_of_not_mem]
    simp only [mem_range]
    omega
  have hput : a₁.put ((a.count : Int) - windex n - 1) (a.source (a.count - 1) >>> bindex n) =
      some (a₁.fill [a.count - windex n - 1] fun _ => a.source (a.count - 1) >>> bindex n) :=
    put_eq (by omega) (by change a.count - windex n - 1 < a.count; omega) _
  let a₂ := a₁.fill [a.count - windex n - 1] fun _ => a.source (a.count - 1) >>> bindex n
  have hzero : (List.range' (a.count - windex n) (windex n)).reverse.foldlM (fun a (i : Nat) => a.put i 0) a₂ =
      some (a₂.fill (List.range' (a.count - windex n) (windex n)).reverse fun _ => 0) := by
    refine foldlM_write (fun _ => 0) fun i hi => ?_
    change i < a.count
    rw [mem_reverse, mem_range'_1] at hi
    omega
  refine ⟨a₂.fill (List.range' (a.count - windex n) (windex n)).reverse fun _ => 0, ?_, fun q hq => ?_⟩
  · simp only [doShiftRight, if_neg hn, ← hcount, hloop, bind_eq_bind, bind_some]
    rw [hlast, bind_some, hput, bind_some, hzero]
  · rw [bitAt]
    have hmod := Nat.mod_lt q (by decide : 8 > 0)
    -- a word of the loop, the last word that is moved, or a zero
    rcases lt_trichotomy (q / 8) (a.count - windex n - 1) with hlt | heq | hgt
    · rw [tbits_fill_of_not_mem (by simp only [mem_reverse, mem_range'_1]; omega),
        tbits_fill_of_not_mem (by simp; omega), tbits_fill_of_mem (by simpa using hlt)]
      have hbit := getLsbD_join_right a.source (q / 8 + windex n) hbs hmod
      have hq' : 8 * (q / 8 + windex n) + q % 8 + bindex n = q + n := by omega
      rw [hq'] at hbit
      rw [decide_eq_true (by omega), Bool.true_and]
      exact hbit
    · rw [tbits_fill_of_not_mem (by simp only [mem_reverse, mem_range'_1]; omega),
        tbits_fill_of_mem (by simp [heq]), BitVec.getLsbD_ushiftRight]
      by_cases hin : q % 8 + bindex n < 8
      · have hsum' : q + n = 8 * (a.count - 1) + (bindex n + q % 8) := by omega
        rw [decide_eq_true (by omega), Bool.true_and, hsum', bitAt_eq _ (by omega)]
      · rw [decide_eq_false (by omega), Bool.false_and, BitVec.getLsbD_of_ge _ _ (by omega)]
    · rw [tbits_fill_of_mem (by simp only [mem_reverse, mem_range'_1]; omega),
        decide_eq_false (by omega)]
      simp

/-- `doShiftRight`, by as many bits as the vector has, in full words. -/
theorem doShiftRight_none (hcount : a.count = inWords size) (hn : n ≠ 0) (hwords : inWords size ≤ windex n) :
    doShiftRight size n a = none := by
  have hempty : a.count - windex n - 1 = 0 := by omega
  simp only [doShiftRight, if_neg hn, ← hcount, hempty, range_zero, foldlM_nil, Option.pure_def,
    bind_eq_bind, bind_some]
  cases a.get ((a.count : Int) - 1) with
  | none => rfl
  | some x =>
    rw [bind_some, put_none (Or.inl (by omega))]
    rfl

end Elm.Util.BitVector
