import Elm.Util.BitVectorRotateLeft

/-!
# The right rotation of a `BitVector`

The first bits go to the last word, or to the last two.  When they go to the last two, the ones that go
to the word before the last one are shifted by a number that has the count of *words* in the place of the
size of a word, so that the rotation is right for vectors of eight words only, or when no bit goes to this
word and its bits stay clear.  A rotation by a word or more rotates the words, although the last one is
not full.
-/

namespace Elm.Util.BitVector

open Bits Arrays

variable {size n k : Nat} {a : Arrays} {b : BitVector} {words : Nat → Word}

/-! ## The reversals -/

theorem swap_apply (words : Nat → Word) (i j p : Nat) :
    swap words i j p = if p = j then words i else if p = i then words j else words p := by
  simp only [swap, Function.update_apply]

theorem reverse_apply (words : Nat → Word) (start n p : Nat) :
    reverse words start n p =
      if start ≤ p ∧ p < start + n then words (start + (n - 1 - (p - start))) else words p := by
  -- the words at both ends, after some of the swaps
  have hswaps : ∀ m, m ≤ n / 2 → ∀ p,
      (List.range m).foldl (fun words i => swap words (start + i) (start + (n - 1 - i))) words p =
        if start ≤ p ∧ p < start + n ∧ (p - start < m ∨ n - 1 - (p - start) < m) then
          words (start + (n - 1 - (p - start)))
        else words p := by
    intro m
    induction m with
    | zero => simp
    | succ m ih =>
      intro hm p
      have hall := ih (by omega)
      rw [List.range_succ, List.foldl_append, List.foldl_cons, List.foldl_nil, swap_apply, hall, hall, hall]
      by_cases hright : p = start + (n - 1 - m)
      · rw [if_pos hright, if_neg (by omega), if_pos (by omega)]
        congr 1
        omega
      · rw [if_neg hright]
        by_cases hleft : p = start + m
        · rw [if_pos hleft, if_neg (by omega), if_pos (by omega)]
          congr 1
          omega
        · rw [if_neg hleft]
          split_ifs with hold hnew hnew
          · rfl
          · omega
          · omega
          · rfl
  rw [reverse, hswaps _ le_rfl]
  split_ifs with hmoved hin hin
  · rfl
  · omega
  · congr 1
    omega
  · rfl

/-- The three reversals rotate the words. -/
theorem rotateWords_apply (hwords : windex n ≤ inWords size) {p : Nat} (hp : p < inWords size) :
    (rotateWords size n a).tbits p =
      if p < inWords size - windex n then a.tbits (p + windex n)
      else a.tbits (p - (inWords size - windex n)) := by
  unfold rotateWords
  by_cases hzero : windex n = 0
  · simp [hzero, hp]
  · simp only [ne_eq, hzero, not_false_eq_true, if_true, reverse_apply]
    split_ifs
    all_goals first | omega | (congr 1; omega)

/-! ## The words written -/

/-- The words before the last one. -/
def movedRight (n : Nat) (words : Nat → Word) (i : Nat) : Word :=
  words (i + 0) >>> bindex n ||| words (i + 0 + 1) <<< (wsize - bindex n)

/-- The words before the rotation of the words. -/
def rightWords (size n : Nat) (words : Nat → Word) (p : Nat) : Word :=
  let B := inWords size
  let bs := bindex n
  let eb := bindex size
  if p = B - 1 then
    if bs < eb then words (B - 1) >>> bs ||| words 0 <<< (eb - bs) else words 0 >>> (bs - eb)
  else if p = B - 2 ∧ ¬ bs < eb then movedRight n words p ||| words 0 <<< (B - (bs - eb))
  else movedRight n words p

/-- The last word or words are in the array, and the shift is defined. -/
def EndFits (size n : Nat) : Prop :=
  bindex n < bindex size ∨
    (2 ≤ inWords size ∧ bindex n - bindex size ≤ inWords size ∧
      inWords size - (bindex n - bindex size) < 32)

theorem getTarget_eq {r : Int} {i : Nat} (hr : r = i) (hi : i < a.count) : a.getTarget r = some (a.tbits i) := by
  subst hr
  rw [getTarget, if_pos (by omega), Int.toNat_natCast]

theorem maskWords_congr {words' : Nat → Word} {p : Nat} (h : words p = words' p) :
    maskWords size words p = maskWords size words' p := by
  unfold maskWords
  split_ifs
  · by_cases hp : p = inWords size - 1
    · subst hp
      rw [Function.update_self, Function.update_self, h]
    · rw [Function.update_of_ne hp, Function.update_of_ne hp, h]
  · exact h

theorem rotateEnd_eq (hcount : a.count = inWords size) (hpos : 0 < inWords size) (hend : EndFits size n)
    (a₁ : Arrays) (ha₁ : a₁ = a.fill (List.range (inWords size - 1)) (movedRight n a.source)) :
    ∃ a₂, rotateEnd size n (a.source 0) a₁ = some a₂ ∧ a₂.shared = a.shared ∧
      ∀ p < inWords size, a₂.tbits p = rightWords size n a.source p := by
  have hcount₁ : a₁.count = inWords size := by rw [ha₁, count_fill, hcount]
  have hlast : a₁.get ((inWords size : Int) - 1) = some (a.source (inWords size - 1)) := by
    rw [get_eq (i := inWords size - 1) (by omega) (by omega), ha₁, source_fill_of_not_mem (by simp)]
  have hmoved : ∀ p < inWords size - 1, a₁.tbits p = movedRight n a.source p := by
    intro p hp
    rw [ha₁, tbits_fill_of_mem (by simpa using hp)]
  unfold rotateEnd
  by_cases hbits : bindex n < bindex size
  · simp only [hbits, if_true, hlast, Option.bind_eq_bind, Option.bind_some]
    refine ⟨_, put_eq (i := inWords size - 1) (by omega) (by omega) _, by rw [shared_fill, ha₁, shared_fill], ?_⟩
    intro p hp
    unfold rightWords
    by_cases hp' : p = inWords size - 1
    · simp [hp', hbits, tbits_fill_of_mem]
    · rw [tbits_fill_of_not_mem (by simpa using hp'), hmoved p (by omega)]
      simp [hp', hbits]
  · obtain ⟨htwo, hle, hlt⟩ := hend.resolve_left hbits
    have htarget : a₁.getTarget ((inWords size : Int) - 2) = some (movedRight n a.source (inWords size - 2)) := by
      rw [getTarget_eq (i := inWords size - 2) (by omega) (by omega), hmoved _ (by omega)]
    have hshift : ((inWords size : Int) - ((bindex n - bindex size : Nat) : Int)).toNat =
        inWords size - (bindex n - bindex size) := by omega
    simp only [hbits, if_false, htarget, Option.bind_eq_bind, Option.bind_some, hshift]
    rw [if_pos (by omega), put_eq (i := inWords size - 2) (by omega) (by omega), Option.bind_some]
    refine ⟨_, put_eq (i := inWords size - 1) (by omega) (by rw [count_fill]; omega) _, by
      rw [shared_fill, shared_fill, ha₁, shared_fill], ?_⟩
    intro p hp
    unfold rightWords
    by_cases hp' : p = inWords size - 1
    · simp [hp', hbits, tbits_fill_of_mem]
    · rw [tbits_fill_of_not_mem (by simpa using hp')]
      by_cases hp'' : p = inWords size - 2
      · subst hp''
        rw [tbits_fill_of_mem (by simp)]
        simp [hp', hbits]
      · rw [tbits_fill_of_not_mem (by simpa using hp''), hmoved p (by omega)]
        simp [hp', hp'']

/-- The words after `doRotateRight`. -/
theorem doRotateRight_eq (hcount : a.count = inWords size) (hn : n ≠ 0) (hle : n ≤ size)
    (hend : EndFits size n) :
    ∃ a', doRotateRight size n a = some a' ∧ ∀ p < inWords size, a'.tbits p =
      (if a.shared then maskWords size (rightWords size n a.source) else rightWords size n a.source)
        (if p < inWords size - windex n then p + windex n else p - (inWords size - windex n)) := by
  have hpos : 0 < inWords size := by
    rw [inWords_eq]
    omega
  have hwords : windex n ≤ inWords size := by
    rw [windex_eq, inWords_eq]
    omega
  have hfirst : a.get 0 = some (a.source 0) := get_eq (r := 0) (i := 0) rfl (by omega)
  have hloop := foldlM_rightTurn (a := a) (bindex n) 0 (m := inWords size - 1)
    (movedRight n a.source) (by omega) fun i => rfl
  obtain ⟨a₂, hlast, hshared, htbits⟩ := rotateEnd_eq hcount hpos hend _ rfl
  refine ⟨rotateWords size n (a₂.mask size), ?_, fun p hp => ?_⟩
  · simp only [doRotateRight, reduceCount_of_le hle, if_neg hn, hfirst, hloop, hlast, Option.bind_eq_bind,
      Option.bind_some, Option.pure_def]
  · have hmask : ∀ p < inWords size, (a₂.mask size).tbits p =
        (if a.shared then maskWords size (rightWords size n a.source) else rightWords size n a.source) p := by
      intro p hp
      unfold Arrays.mask
      rw [hshared]
      split_ifs
      · exact maskWords_congr (htbits p hp)
      · exact htbits p hp
    rw [rotateWords_apply hwords hp]
    by_cases hlow : p < inWords size - windex n
    · rw [if_pos hlow, if_pos hlow]
      exact hmask _ (by omega)
    · rw [if_neg hlow, if_neg hlow]
      exact hmask _ (by omega)

/-- A word after the end is written, or a shift is not defined. -/
theorem doRotateRight_none (hcount : a.count = inWords size) (hn : n ≠ 0) (hle : n ≤ size)
    (hend : ¬ EndFits size n) : doRotateRight size n a = none := by
  have hpos : 0 < inWords size := by
    rw [inWords_eq]
    omega
  have hfirst : a.get 0 = some (a.source 0) := get_eq (r := 0) (i := 0) rfl (by omega)
  have hloop := foldlM_rightTurn (a := a) (bindex n) 0 (m := inWords size - 1)
    (movedRight n a.source) (by omega) fun i => rfl
  have hlast : ∀ a₁ : Arrays, a₁.count = inWords size → rotateEnd size n (a.source 0) a₁ = none := by
    intro a₁ hcount₁
    unfold EndFits at hend
    unfold rotateEnd
    by_cases htwo : 2 ≤ inWords size
    · simp only [Option.bind_eq_bind]
      rw [if_neg (by omega), getTarget_eq (i := inWords size - 2) (by omega) (by omega), Option.bind_some,
        if_neg (by omega)]
    · simp only [Option.bind_eq_bind]
      rw [if_neg (by omega), getTarget, if_neg (by omega)]
      rfl
  simp only [doRotateRight, reduceCount_of_le hle, if_neg hn, hfirst, hloop, Option.bind_eq_bind,
    Option.bind_some]
  rw [hlast _ (by rw [count_fill, hcount])]
  rfl

/-! ## The bits written -/

/-- The bit written at `q`, in place (`shared`) or in a new vector. -/
def rightBit (shared : Bool) (size n : Nat) (words : Nat → Word) (q : Nat) : Bool :=
  ((if shared then maskWords size (rightWords size n words) else rightWords size n words)
    (if q / 8 < inWords size - windex n then q / 8 + windex n
      else q / 8 - (inWords size - windex n))).getLsbD (q % 8)

theorem moves_right_iff (hle : k ≤ b.size) (hpos : 0 < k) (hend : EndFits b.size k) :
    (Moves rotateRight rotatedRight b k ↔
        ∀ q < b.size, rightBit true b.size k b.wordAt q = rotatedRight b.view k q) ∧
      (Moves makeRotateRight rotatedRight b k ↔
        ∀ q < b.size, rightBit false b.size k b.wordAt q = rotatedRight b.view k q) := by
  obtain ⟨hplace, hnew⟩ := moves_of_spec rotatedRight (f := doRotateRight) (b := b) (k := k)
    (fun shared q => rightBit shared b.size k b.wordAt q) fun a hcount hsource => by
      obtain ⟨a', ha, htbits⟩ := doRotateRight_eq hcount hpos.ne' hle hend
      refine ⟨a', ha, fun q hq => ?_⟩
      have hword := windex_lt_inWords hq
      rw [windex_eq] at hword
      rw [bitAt, htbits _ hword, hsource]
      rfl
  exact ⟨hplace, hnew.trans (and_iff_right (by omega))⟩

theorem rotatedRight_eq (hle : k ≤ b.size) {q : Nat} (hq : q < b.size) :
    rotatedRight b.view k q =
      if q + k < b.size then bitAt b.wordAt (q + k) else bitAt b.wordAt (q + k - b.size) := by
  rw [rotatedRight, length_view]
  split_ifs with hin
  · rw [Nat.mod_eq_of_lt hin, getD_view_of_lt hin]
  · rw [Nat.mod_eq_sub_mod (by omega), Nat.mod_eq_of_lt (by omega), getD_view_of_lt (by omega)]

/-- The bit of a word that was not moved by the rotation of the words. -/
theorem rightBit_of_small {shared : Bool} (hk : windex n = 0) {q : Nat} (hq : q < size) :
    rightBit shared size n words q = bitAt (rightWords size n words) q := by
  have hword := windex_lt_inWords hq
  rw [windex_eq] at hword
  have hindex : (if q / 8 < inWords size - windex n then q / 8 + windex n
      else q / 8 - (inWords size - windex n)) = q / 8 := by
    rw [hk, if_pos (by omega), Nat.add_zero]
  rw [rightBit, hindex]
  cases shared with
  | false => rfl
  | true => exact bitAt_maskWords hq

/-! ## Rotations by less than a word -/

/-- The rotations that write the right words: the first bits go to the last word only; or the vector has
eight words; or they fill the last word, and nothing goes to the one before it. -/
def RightFits (n k : Nat) : Prop :=
  0 < k ∧ k < 8 ∧ n % 8 ≠ 0 ∧
    (k < n % 8 ∨ inWords n = 8 ∨ (k = n % 8 ∧ 8 ≤ inWords n ∧ inWords n < 32))

instance (n k : Nat) : Decidable (RightFits n k) := inferInstanceAs (Decidable (_ ∧ _))

/-- The ones of the padding that come with the last word fall on ones. -/
def RightClear (b : BitVector) (k : Nat) : Prop :=
  ∀ m < if k < b.size % 8 then k else k - b.size % 8,
    b.padding.getD m false = true → b.view.getD m false = true

theorem RightFits.leftFits (h : RightFits n k) : LeftFits n k := ⟨h.1, h.2.1, Or.inl h.2.2.1⟩

theorem RightFits.endFits (h : RightFits n k) : EndFits n k := by
  unfold RightFits at h
  unfold EndFits
  rw [bindex_eq, bindex_eq, inWords_eq] at *
  omega

theorem getLsbD_movedRight (words : Nat → Word) (n p : Nat) {j : Nat} (hj : j < 8) :
    (movedRight n words p).getLsbD j = bitAt words (8 * p + j + bindex n) := by
  have hbs : bindex n < 8 := by
    rw [bindex_eq]
    omega
  exact getLsbD_join_right words p hbs hj

/-- The bits of the vector, together with the padding where the first bits are expected. -/
theorem bitAt_rightWords (hfits : RightFits b.size k) {q : Nat} (hq : q < b.size) :
    bitAt (rightWords b.size k b.wordAt) q =
      if q + k < b.size then bitAt b.wordAt (q + k)
      else bitAt b.wordAt (q + k - b.size) ||
        (decide (k < b.size % 8 ∨ q < 8 * (inWords b.size - 1)) && bitAt b.wordAt (q + k)) := by
  obtain ⟨hpos, hlt, heb, hend⟩ := hfits
  have hB := inWords_eq b.size
  have hmod := Nat.mod_lt q (by decide : 8 > 0)
  have hbs : bindex k = k := by
    rw [bindex_eq]
    omega
  have hword : ∀ p i q, q = 8 * p + i → i < 8 → (b.wordAt p).getLsbD i = bitAt b.wordAt q := by
    intro p i q hq hi
    rw [hq, bitAt_eq _ hi]
  have hge : ∀ (x : Word) i, 8 ≤ i → x.getLsbD i = false := fun x i hi => BitVec.getLsbD_of_ge x i hi
  have hmoved := getLsbD_movedRight b.wordAt k (q / 8) hmod
  have hsum : 8 * (q / 8) + q % 8 + k = q + k := by omega
  rw [hbs, hsum] at hmoved
  rw [bitAt, rightWords]
  simp only [hbs, bindex_eq]
  by_cases hlast : q / 8 = inWords b.size - 1
  · rw [if_pos hlast]
    by_cases hbits : k < b.size % 8
    · -- the bits of the last word, then the first ones
      have hkept : (b.wordAt (inWords b.size - 1)).getLsbD (k + q % 8) = bitAt b.wordAt (q + k) := by
        by_cases hin : k + q % 8 < 8
        · exact hword _ _ _ (by omega) hin
        · rw [hge _ _ (by omega), bitAt_wordAt_of_ge (by omega)]
      rw [if_pos hbits, BitVec.getLsbD_or, BitVec.getLsbD_shiftLeft, BitVec.getLsbD_ushiftRight, hkept]
      split_ifs with hin
      · have hlow : q % 8 < b.size % 8 - k := by omega
        simp [hlow]
      · have hlow : ¬ q % 8 < b.size % 8 - k := by omega
        rw [hword 0 (q % 8 - (b.size % 8 - k)) (q + k - b.size) (by omega) (by omega)]
        simp [hlow, hmod, hbits, Bool.or_comm]
    · -- the first bits only
      rw [if_neg hbits, BitVec.getLsbD_ushiftRight, if_neg (by omega), decide_eq_false (by omega), Bool.false_and,
        Bool.or_false]
      exact hword 0 _ _ (by omega) (by omega)
  · have hbefore : q < 8 * (inWords b.size - 1) := by
      have hlt' := windex_lt_inWords hq
      rw [windex_eq] at hlt'
      omega
    rw [if_neg hlast, decide_eq_true (Or.inr hbefore), Bool.true_and]
    by_cases hprev : q / 8 = inWords b.size - 2 ∧ ¬ k < b.size % 8
    · -- for eight words, the count of words is the size of a word
      rw [if_pos hprev, BitVec.getLsbD_or, BitVec.getLsbD_shiftLeft, hmoved]
      split_ifs with hin
      · have hlow : q % 8 < inWords b.size - (k - b.size % 8) := by omega
        simp [hlow]
      · have hlow : ¬ q % 8 < inWords b.size - (k - b.size % 8) := by omega
        rw [hword 0 (q % 8 - (inWords b.size - (k - b.size % 8))) (q + k - b.size) (by omega) (by omega)]
        simp [hlow, hmod, Bool.or_comm]
    · rw [if_neg hprev, hmoved, if_pos (by omega)]

theorem rotateRight_of_fits (hle : k ≤ b.size) (hfits : RightFits b.size k) :
    (Moves rotateRight rotatedRight b k ↔ RightClear b k) ∧
      (Moves makeRotateRight rotatedRight b k ↔ RightClear b k) := by
  have hwindex : windex k = 0 := by
    rw [windex_eq]
    have hlt := hfits.2.1
    omega
  have hB := inWords_eq b.size
  have heb := hfits.2.2.1
  have hiff : ∀ shared : Bool, (∀ q < b.size, rightBit shared b.size k b.wordAt q = rotatedRight b.view k q) ↔
      RightClear b k := by
    intro shared
    constructor
    · -- the bit `m` of the padding is expected at the place of the bit `m`
      intro h m hm hpad
      have hmk : m < k := by
        split_ifs at hm <;> omega
      have hbit := h (b.size + m - k) (by omega)
      have hsum : b.size + m - k + k = b.size + m := by omega
      have hend : k < b.size % 8 ∨ b.size + m - k < 8 * (inWords b.size - 1) := by
        split_ifs at hm <;> omega
      rw [rightBit_of_small hwindex (by omega), bitAt_rightWords hfits (by omega), rotatedRight_eq hle (by omega),
        hsum, if_neg (by omega), if_neg (by omega), Nat.add_sub_cancel_left, ← getD_padding, hpad,
        decide_eq_true hend] at hbit
      rw [getD_view_of_lt (by omega), ← hbit]
      simp
    · intro h q hq
      rw [rightBit_of_small hwindex hq, bitAt_rightWords hfits hq, rotatedRight_eq hle hq]
      split_ifs with hin
      · rfl
      · by_cases hend : k < b.size % 8 ∨ q < 8 * (inWords b.size - 1)
        · have hpad := h (q + k - b.size) (by split_ifs <;> omega)
          rw [getD_padding, Nat.add_sub_cancel' (by omega), getD_view_of_lt (by omega)] at hpad
          cases hbit : bitAt b.wordAt (q + k) with
          | false => simp
          | true => simp [hpad hbit]
        · simp [hend]
  obtain ⟨hplace, hnew⟩ := moves_right_iff hle hfits.1 hfits.endFits
  exact ⟨hplace.trans (hiff true), hnew.trans (hiff false)⟩

/-! ## The other rotations -/

/-- A rotation is wrong if one of the bits that it writes is. -/
theorem not_rotateRight_of_bit (hle : k ≤ b.size) (hpos : 0 < k) (hend : EndFits b.size k) {q : Nat}
    (hq : q < b.size) (hbit : ∀ shared, rightBit shared b.size k b.wordAt q ≠ rotatedRight b.view k q) :
    ¬ Moves rotateRight rotatedRight b k ∧ ¬ Moves makeRotateRight rotatedRight b k := by
  obtain ⟨hplace, hnew⟩ := moves_right_iff hle hpos hend
  exact ⟨fun h => hbit true (hplace.mp h q hq), fun h => hbit false (hnew.mp h q hq)⟩

theorem rotatedRight_single {n e q : Nat} (he : e < n) (hn : 0 < n) :
    rotatedRight (single n e).view k q = decide ((q + k) % n = e) := by
  rw [rotatedRight, length_view, show (single n e).size = n from rfl,
    getD_view_single he (Nat.mod_lt _ hn)]

theorem maskWords_of_full (hfull : size % 8 = 0) : maskWords size words = words := by
  rw [maskWords, if_neg (by rw [ne_eq, not_not, maskWord_eq_zero_iff]; exact hfull)]

theorem maskWords_of_ne {p : Nat} (hp : p ≠ inWords size - 1) : maskWords size words p = words p := by
  unfold maskWords
  split_ifs
  · exact Function.update_of_ne hp _ _
  · rfl

/-- A bit of a word that the rotation of the words takes from `p`. -/
theorem rightBit_eq {shared : Bool} {q p : Nat} (hp : p = if q / 8 < inWords size - windex n then q / 8 + windex n
      else q / 8 - (inWords size - windex n)) :
    rightBit shared size n words q =
      ((if shared then maskWords size (rightWords size n words) else rightWords size n words) p).getLsbD
        (q % 8) := by
  rw [hp, rightBit]

/-- The last word is full: it gets the first bits only. -/
theorem not_rotateRight_of_full {n : Nat} (hle : k ≤ n) (hpos : 0 < k) (hend : EndFits n k) (hfull : n % 8 = 0) :
    ∃ e < n, ¬ Moves rotateRight rotatedRight (single n e) k ∧
      ¬ Moves makeRotateRight rotatedRight (single n e) k := by
  have hB := inWords_eq n
  have hW := windex_eq k
  have hbs := bindex_eq k
  have htwo : 2 ≤ inWords n := by
    unfold EndFits at hend
    rw [bindex_eq n] at hend
    omega
  have he : n - 8 + bindex k < n := by omega
  -- the place of the last word, before the words are rotated
  obtain ⟨q, hq, hplace, hindex⟩ : ∃ q < n, (q + k) % n = n - 8 + bindex k ∧ q % 8 = 0 ∧
      inWords n - 1 = if q / 8 < inWords n - windex k then q / 8 + windex k
        else q / 8 - (inWords n - windex k) := by
    by_cases hwords : windex k < inWords n
    · have hsum : n - 8 - 8 * windex k + k = n - 8 + bindex k := by omega
      refine ⟨n - 8 - 8 * windex k, by omega, by rw [hsum, Nat.mod_eq_of_lt he], by omega, ?_⟩
      rw [if_pos (by omega)]
      omega
    · have hsum : n - 8 + k = n - 8 + bindex k + n := by omega
      refine ⟨n - 8, by omega, by rw [hsum, Nat.add_mod_right, Nat.mod_eq_of_lt he], by omega, ?_⟩
      rw [if_neg (by omega)]
      omega
  refine ⟨_, he, not_rotateRight_of_bit (b := single n _) hle hpos hend (show q < n from hq) fun shared => ?_⟩
  have hne : 8 * 0 + bindex k ≠ n - 8 + bindex k := by omega
  rw [rotatedRight_single he (by omega), hplace, decide_eq_true rfl]
  change rightBit shared n k _ q ≠ true
  rw [rightBit_eq hindex.2, hindex.1, maskWords_of_full hfull, ite_self, rightWords]
  simp only [if_true, bindex_eq n, hfull, Nat.not_lt_zero, if_false, Nat.sub_zero]
  rw [BitVec.getLsbD_ushiftRight, Nat.add_zero, ← bitAt_eq _ (by omega), bitAt_single he, decide_eq_false hne]
  exact Bool.false_ne_true

/-- The words are rotated, although the last one is not full. -/
theorem not_rotateRight_of_large {n : Nat} (hle : k ≤ n) (hlarge : 8 ≤ k) (hend : EndFits n k) (hrest : n % 8 ≠ 0) :
    ∃ e < n, ¬ Moves rotateRight rotatedRight (single n e) k ∧
      ¬ Moves makeRotateRight rotatedRight (single n e) k := by
  have hB := inWords_eq n
  have hW := windex_eq k
  have hbs := bindex_eq k
  have he : bindex k + 8 - n % 8 < n := by omega
  have hq : 8 * (inWords n - windex k) < n := by omega
  -- the first word comes after the last one, which has less than eight bits
  refine ⟨_, he, not_rotateRight_of_bit (b := single n _) hle (by omega) hend
    (show 8 * (inWords n - windex k) < n from hq) fun shared => ?_⟩
  have hsum : 8 * (inWords n - windex k) + k = bindex k + 8 - n % 8 + n := by omega
  have hindex : 0 = if 8 * (inWords n - windex k) / 8 < inWords n - windex k
      then 8 * (inWords n - windex k) / 8 + windex k
      else 8 * (inWords n - windex k) / 8 - (inWords n - windex k) := by
    rw [if_neg (by omega)]
    omega
  rw [rotatedRight_single he (by omega), hsum, Nat.add_mod_right, Nat.mod_eq_of_lt he, decide_eq_true rfl]
  change rightBit shared n k _ _ ≠ true
  have hmoved := getLsbD_movedRight (single n (bindex k + 8 - n % 8)).wordAt k 0 (j := 0) (by decide)
  have hnext : 8 * 0 + 0 + bindex k ≠ bindex k + 8 - n % 8 := by omega
  have hfirst : 8 * 0 + 0 ≠ bindex k + 8 - n % 8 := by omega
  rw [bitAt_single he, decide_eq_false hnext] at hmoved
  have hend : 0 ≠ inWords n - 1 := by omega
  have hbit : (rightWords n k (single n (bindex k + 8 - n % 8)).wordAt 0).getLsbD 0 = false := by
    rw [rightWords]
    simp only [if_neg hend]
    split_ifs
    · rw [BitVec.getLsbD_or, hmoved, BitVec.getLsbD_shiftLeft, Nat.zero_sub, ← bitAt_eq _ (by decide),
        bitAt_single he, decide_eq_false hfirst]
      simp
    · exact hmoved
  have hplain : (if shared then maskWords n (rightWords n k (single n (bindex k + 8 - n % 8)).wordAt)
      else rightWords n k (single n (bindex k + 8 - n % 8)).wordAt) 0 =
        rightWords n k (single n (bindex k + 8 - n % 8)).wordAt 0 := by
    split_ifs
    · exact maskWords_of_ne hend
    · rfl
  rw [rightBit_eq hindex, Nat.mul_mod_right, hplain, hbit]
  exact Bool.false_ne_true

/-- The first bits that go to the word before the last one are at the wrong place. -/
theorem not_rotateRight_of_small {n : Nat} (hpos : 0 < k) (hle : k ≤ n) (hsmall : k < 8) (hend : EndFits n k)
    (hrest : n % 8 ≠ 0) (hnot : ¬ RightFits n k) :
    ∃ e < n, ¬ Moves rotateRight rotatedRight (single n e) k ∧
      ¬ Moves makeRotateRight rotatedRight (single n e) k := by
  have hB := inWords_eq n
  have hW : windex k = 0 := by
    rw [windex_eq]
    omega
  have hbs : bindex k = k := by
    rw [bindex_eq]
    omega
  have heb := bindex_eq n
  have he : 0 < n := by omega
  unfold RightFits at hnot
  have hafter : n % 8 ≤ k ∧ inWords n ≠ 8 := by omega
  have hend' := hend
  unfold EndFits at hend
  rw [hbs, heb] at hend
  have hfit : 2 ≤ inWords n ∧ k - n % 8 ≤ inWords n ∧ inWords n - (k - n % 8) < 32 := by omega
  -- the bits of the word before the last one
  have hbefore : ∀ j < 8, bitAt (rightWords n k (single n 0).wordAt) (8 * (inWords n - 2) + j) =
      decide (j = inWords n - (k - n % 8)) := by
    intro j hj
    have hmoved := getLsbD_movedRight (single n 0).wordAt k (inWords n - 2) hj
    have hne : 8 * (inWords n - 2) + j + bindex k ≠ 0 := by omega
    rw [bitAt_single he, decide_eq_false hne] at hmoved
    have hfirst : ∀ i, ((single n 0).wordAt 0).getLsbD i = decide (i = 0) := by
      intro i
      by_cases hi : i < 8
      · have hbit := bitAt_eq (single n 0).wordAt (p := 0) hi
        rw [← hbit, bitAt_single he, Nat.mul_zero, Nat.zero_add]
      · rw [BitVec.getLsbD_of_ge _ _ (by omega), decide_eq_false (by omega)]
    rw [bitAt_eq _ hj, rightWords, if_neg (by omega), if_pos ⟨rfl, by omega⟩, BitVec.getLsbD_or, hmoved,
      BitVec.getLsbD_shiftLeft, hbs, heb, hfirst]
    by_cases hlow : j < inWords n - (k - n % 8)
    · simp [hj, hlow, hlow.ne]
    · simp only [hj, hlow, decide_true, decide_false, Bool.not_false, Bool.true_and, Bool.false_or, decide_eq_decide]
      omega
  have hexpected : ∀ q < n, rotatedRight (single n 0).view k q = decide ((q + k) % n = 0) := fun q _ =>
    rotatedRight_single he he
  by_cases hlast : k = n % 8
  · -- nothing should go there, but the first bit does
    have hq : 8 * (inWords n - 2) + inWords n < n := by omega
    have hplace : (8 * (inWords n - 2) + inWords n + k) % n ≠ 0 := by
      rw [Nat.mod_eq_of_lt (by omega)]
      omega
    refine ⟨0, he, not_rotateRight_of_bit (b := single n 0) hle hpos hend' (show _ < n from hq) fun shared => ?_⟩
    change rightBit shared n k _ _ ≠ _
    rw [rightBit_of_small hW hq, hbefore _ (by omega), hexpected _ hq, decide_eq_false hplace,
      decide_eq_true (by omega)]
    decide
  · -- the first bit goes to another place
    have hq : 8 * (inWords n - 2) + (8 - (k - n % 8)) < n := by omega
    have hsum : 8 * (inWords n - 2) + (8 - (k - n % 8)) + k = n := by omega
    refine ⟨0, he, not_rotateRight_of_bit (b := single n 0) hle hpos hend' (show _ < n from hq) fun shared => ?_⟩
    change rightBit shared n k _ _ ≠ _
    rw [rightBit_of_small hW hq, hbefore _ (by omega), hexpected _ hq, hsum, Nat.mod_self, decide_eq_true rfl,
      decide_eq_false (by omega)]
    decide

/-- A rotation that does not write the right words is wrong for some vector with a single one. -/
theorem exists_not_rotateRight {n : Nat} (hle : k ≤ n) (hpos : 0 < k) (hnot : ¬ RightFits n k) :
    ∃ e < n, ¬ Moves rotateRight rotatedRight (single n e) k ∧
      ¬ Moves makeRotateRight rotatedRight (single n e) k := by
  by_cases hend : EndFits n k
  · by_cases hfull : n % 8 = 0
    · exact not_rotateRight_of_full hle hpos hend hfull
    · by_cases hlarge : 8 ≤ k
      · exact not_rotateRight_of_large hle hlarge hend hfull
      · exact not_rotateRight_of_small hpos hle (by omega) hend hfull hnot
  · -- a word before the first one is read, or the shift is not defined
    refine ⟨0, by omega, ?_⟩
    exact not_moves_of_none rotatedRight fun a hcount _ => doRotateRight_none hcount hpos.ne' hle hend

theorem Clean.rightClear (h : b.Clean) : RightClear b k := by
  intro m _ hpad
  rw [noBit_iff_getD.mp h m] at hpad
  cases hpad

theorem doRotateRight_zero (size : Nat) (a : Arrays) : doRotateRight size 0 a = some a := by
  simp [doRotateRight, reduceCount]

theorem rotatedRight_zero {q : Nat} (hq : q < b.size) : rotatedRight b.view 0 q = b.view.getD q false := by
  rw [rotatedRight, length_view, Nat.add_zero, Nat.mod_eq_of_lt hq]

/-- The rotation is right for all vectors without ones in the padding exactly when it writes the right
words, or nothing in place. -/
theorem rotateRight_iff {n : Nat} (hle : k ≤ n) :
    ((∀ c : BitVector, c.size = n → c.Clean → Moves rotateRight rotatedRight c k) ↔ k = 0 ∨ RightFits n k) ∧
      ((∀ c : BitVector, c.size = n → c.Clean → Moves makeRotateRight rotatedRight c k) ↔ RightFits n k) := by
  refine forall_clean_iff (doRotateRight_zero n) (fun c hc q hq => rotatedRight_zero (hc ▸ hq)) And.left ?_
    fun hpos hnot => exists_not_rotateRight hle hpos hnot
  rintro hfits c rfl hclean
  obtain ⟨hplace, hnew⟩ := rotateRight_of_fits hle hfits
  exact ⟨hplace.mpr hclean.rightClear, hnew.mpr hclean.rightClear⟩

end Elm.Util.BitVector
