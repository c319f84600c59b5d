import Elm.Util.BitVectorShifts

/-!
# The left rotation of a `BitVector`

A rotation by less than a word writes the ends of the last word, or of the last two, at the start of the
first one: it is right, but for the padding that comes with the last word, unless the vector has more
than one word and ends with a full one, where the two words are exchanged.  A rotation by a word or more
takes its headers from the wrong words.
-/

namespace Elm.Util.BitVector

open Bits Arrays List

variable {size n k : Nat} {a : Arrays} {b : BitVector} {words : Nat → Word}

/-! ## The words written -/

/-- The value of `S[Bs]`. -/
def limitValue (size n : Nat) (words : Nat → Word) : Word :=
  let B := inWords size
  let bs := bindex n
  let eb := bindex size
  if eb = 0 then words (B - 1) <<< bs ||| words 0 >>> (wsize - bs)
  else if bs ≤ eb then words 0 <<< bs ||| words (B - 1) >>> (eb - bs)
  else words 0 <<< bs ||| words (B - 1) <<< (bs - eb) ||| words (B - 2) >>> (wsize - (bs - eb))

/-- The value of `S[i]`. -/
def headerValue (size n : Nat) (words : Nat → Word) (i : Nat) : Word :=
  words (inWords size - windex n + i - 1) <<< bindex n ||| words (inWords size - i - 1) >>> (wsize - bindex n)

/-- The words after the headers. -/
def movedLeft (n : Nat) (words : Nat → Word) (i : Nat) : Word :=
  words (i - windex n) <<< bindex n ||| words (i - windex n - 1) >>> (wsize - bindex n)

/-- The arrays after `doRotateLeft`. -/
def leftResult (size n : Nat) (a : Arrays) : Arrays :=
  ((a.fill (List.range' (windex n + 1) (a.count - 1 - windex n)).reverse (movedLeft n a.source)).mask size).fill
    (List.range (windex n + 1)) fun i =>
      if i < windex n then headerValue size n a.source i else limitValue size n a.source

theorem reduceCount_of_le (h : n ≤ size) : reduceCount size n = some n := if_neg (by omega)

theorem limitWord_eq (hcount : a.count = inWords size) (hle : n ≤ size) (hn : n ≠ 0) :
    limitWord size n a = some (limitValue size n a.source) := by
  have hpos : 0 < a.count := by
    rw [hcount, inWords_eq]
    omega
  have hfirst : a.get 0 = some (a.source 0) := get_eq (r := 0) (i := 0) rfl hpos
  have hlast : a.get ((inWords size : Int) - 1) = some (a.source (inWords size - 1)) :=
    get_eq (by omega) (by omega)
  unfold limitWord limitValue
  simp only [hfirst, hlast, Option.bind_eq_bind, Option.bind_some, Option.pure_def]
  split_ifs with hfull hbits
  · rfl
  · rfl
  · have htwo : 2 ≤ inWords size := by
      rw [bindex_eq, bindex_eq] at hbits
      rw [bindex_eq] at hfull
      rw [inWords_eq]
      omega
    rw [get_eq (r := (inWords size : Int) - 2) (i := inWords size - 2) (by omega) (by omega)]
    rfl

theorem headerWord_eq (hcount : a.count = inWords size) (hwords : windex n < inWords size) {i : Nat}
    (hi : i < windex n) : headerWord size n a i = some (headerValue size n a.source i) := by
  unfold headerWord headerValue
  simp only [Option.bind_eq_bind, Option.pure_def]
  rw [get_eq (i := inWords size - windex n + i - 1) (by omega) (by omega),
    get_eq (i := inWords size - i - 1) (by omega) (by omega)]
  rfl

theorem mapM_eq_map {α β : Type} {g : α → Option β} {h : α → β} {xs : List α} (hg : ∀ x ∈ xs, g x = some (h x)) :
    xs.mapM g = some (xs.map h) := by
  induction xs with
  | nil => rfl
  | cons x xs ih =>
    rw [mapM_cons, hg x (by simp), ih fun y hy => hg y (by simp [hy])]
    rfl

theorem count_mask : (a.mask size).count = a.count := by
  unfold Arrays.mask maskTarget
  split_ifs <;> rfl

theorem doRotateLeft_eq (hcount : a.count = inWords size) (hn : n ≠ 0) (hle : n ≤ size)
    (hwords : windex n < inWords size) : doRotateLeft size n a = some (leftResult size n a) := by
  have hheaders : (List.range (windex n)).mapM (headerWord size n a) =
      some ((List.range (windex n)).map (headerValue size n a.source)) :=
    mapM_eq_map fun i hi => headerWord_eq hcount hwords (mem_range.mp hi)
  have hloop := foldlM_leftTurn (a := a) (bindex n) (windex n) (movedLeft n a.source) fun i _ => rfl
  rw [hcount] at hloop
  generalize hlimit : limitValue size n a.source = limit
  have hvalue : ∀ i ∈ List.range (windex n + 1),
      ((List.range (windex n)).map (headerValue size n a.source) ++ [limit]).getD i 0 =
        if i < windex n then headerValue size n a.source i else limit := by
    intro i hi
    rw [mem_range] at hi
    split_ifs with hlt
    · simp [getElem?_append_left, hlt]
    · obtain rfl : i = windex n := by omega
      simp
  let a₁ := (a.fill (List.range' (windex n + 1) (inWords size - 1 - windex n)).reverse
    (movedLeft n a.source)).mask size
  have hcount₁ : a₁.count = a.count := count_mask
  have hwrite : (List.range (windex n + 1)).foldlM (fun a' (i : Nat) =>
        a'.put i (((List.range (windex n)).map (headerValue size n a.source) ++ [limit]).getD i 0)) a₁ =
      some (a₁.fill (List.range (windex n + 1)) fun i =>
        if i < windex n then headerValue size n a.source i else limit) := by
    have hputs := foldlM_write (a := a₁) (l := List.range (windex n + 1))
      (fun i => ((List.range (windex n)).map (headerValue size n a.source) ++ [limit]).getD i 0) fun i hi => by
        rw [mem_range] at hi
        omega
    rw [hputs, fill_congr hvalue]
  have hlast := fill_fill_same (a := a₁) (l := List.range (windex n + 1)) (i := windex n)
    (v := fun i => if i < windex n then headerValue size n a.source i else limit) (by simp)
  rw [if_neg (lt_irrefl _)] at hlast
  have hresult : leftResult size n a = a₁.fill (List.range (windex n + 1)) fun i =>
      if i < windex n then headerValue size n a.source i else limit := by
    rw [leftResult, hcount, hlimit]
  simp only [doRotateLeft, reduceCount_of_le hle, if_neg hn, limitWord_eq hcount hle hn, hheaders, hloop,
    hlimit, Option.bind_eq_bind, Option.bind_some]
  change Option.bind ((List.range (windex n + 1)).foldlM _ a₁) _ = _
  rw [hwrite, Option.bind_some, hresult]
  split_ifs
  · rw [put_eq (i := windex n) rfl (by rw [count_fill]; omega), hlast]
  · rfl

/-- By the whole vector, in full words, a header is read before the first word. -/
theorem doRotateLeft_none (hcount : a.count = inWords size) (hn : n ≠ 0) (hle : n ≤ size)
    (hwords : inWords size ≤ windex n) : doRotateLeft size n a = none := by
  have hsize : n = size ∧ size % 8 = 0 := by
    rw [windex_eq, inWords_eq] at hwords
    omega
  obtain ⟨m, hm⟩ : ∃ m, windex n = m + 1 := by
    refine ⟨windex n - 1, ?_⟩
    rw [windex_eq]
    omega
  have hheader : headerWord size n a 0 = none := by
    unfold headerWord
    simp only [Option.bind_eq_bind]
    rw [get_none (by omega)]
    rfl
  have hheaders : (List.range (windex n)).mapM (headerWord size n a) = none := by
    rw [hm, range_succ_eq_map, mapM_cons, hheader]
    rfl
  simp only [doRotateLeft, reduceCount_of_le hle, if_neg hn, limitWord_eq hcount hle hn, hheaders,
    Option.bind_eq_bind, Option.bind_some, Option.bind_none]

/-! ## The bits written -/

theorem bitAt_mask_target {q : Nat} (hq : q < size) : bitAt (a.mask size).tbits q = bitAt a.tbits q := by
  unfold Arrays.mask
  split_ifs
  · exact bitAt_maskWords hq
  · rfl

theorem bitAt_movedLeft (n : Nat) (words : Nat → Word) {q : Nat} (hq : windex n < q / 8) :
    bitAt (movedLeft n words) q = bitAt words (q - n) := by
  have hsum := windex_bindex n
  have hbs : bindex n < 8 := by
    rw [bindex_eq]
    omega
  have hmod := Nat.mod_lt q (by decide : 8 > 0)
  have hsucc : q / 8 - windex n - 1 + 1 = q / 8 - windex n := by omega
  have hjoin := getLsbD_join_left words (q / 8 - windex n - 1) hbs hmod
  rw [hsucc] at hjoin
  have hdiff : 8 * (q / 8 - windex n) + q % 8 - bindex n = q - n := by omega
  rw [hdiff] at hjoin
  exact hjoin

/-- After the headers, the bits are those of the vector. -/
theorem bitAt_leftResult (hcount : a.count = inWords size) {q : Nat} (hq : q < size) :
    bitAt (leftResult size n a).tbits q =
      if q / 8 < windex n then (headerValue size n a.source (q / 8)).getLsbD (q % 8)
      else if q / 8 = windex n then (limitValue size n a.source).getLsbD (q % 8)
      else bitAt a.source (q - n) := by
  have hword := windex_lt_inWords hq
  rw [windex_eq] at hword
  rw [leftResult]
  split_ifs with hheader hlimit
  · rw [bitAt, tbits_fill_of_mem (by simp; omega), if_pos hheader]
  · rw [bitAt, tbits_fill_of_mem (by simp; omega), if_neg hheader]
  · -- the headers are written over other words
    rw [bitAt, tbits_fill_of_not_mem (by simp; omega), ← bitAt, bitAt_mask_target hq, bitAt,
      tbits_fill_of_mem (by simp only [mem_reverse, mem_range'_1]; omega), ← bitAt]
    exact bitAt_movedLeft n a.source (by omega)

/-! ## Rotations by less than a word -/

/-- The rotations that write the right words: by less than a word, the vector having one word or not
ending with a full one. -/
def LeftFits (n k : Nat) : Prop := 0 < k ∧ k < 8 ∧ (n % 8 ≠ 0 ∨ n = 8)

instance (n k : Nat) : Decidable (LeftFits n k) := inferInstanceAs (Decidable (_ ∧ _))

/-- The ones of the padding that come with the last word fall on ones. -/
def LeftClear (b : BitVector) (k : Nat) : Prop :=
  ∀ m, k + m < min 8 b.size → b.padding.getD m false = true → b.view.getD m false = true

theorem bitAt_wordAt_of_ge {q : Nat} (hq : inWords b.size * 8 ≤ q) : bitAt b.wordAt q = false := by
  have hout : b.bits.length ≤ q / 8 := by
    rw [b.length_bits]
    omega
  rw [bitAt, wordAt, getD_eq_default _ _ hout]
  simp

/-- The word at the limit: the last bits, then the first ones together with the padding. -/
theorem getLsbD_limitValue (hle : k ≤ b.size) (hfits : LeftFits b.size k) {j : Nat} (hj : j < 8) :
    (limitValue b.size k b.wordAt).getLsbD j =
      if j < k then bitAt b.wordAt (b.size - k + j)
      else bitAt b.wordAt (j - k) || bitAt b.wordAt (b.size + j - k) := by
  obtain ⟨hpos, hlt, hend⟩ := hfits
  have hbs : bindex k = k := by
    rw [bindex_eq]
    omega
  have hword : ∀ p i q, q = 8 * p + i → i < 8 → (b.wordAt p).getLsbD i = bitAt b.wordAt q := by
    intro p i q hq hi
    rw [hq, bitAt_eq _ hi]
  have hge : ∀ (x : Word) i, 8 ≤ i → x.getLsbD i = false := fun x i hi => BitVec.getLsbD_of_ge x i hi
  have hout := fun q => bitAt_wordAt_of_ge (b := b) (q := q)
  have hB := inWords_eq b.size
  unfold limitValue
  simp only [hbs, bindex_eq, wsize]
  split_ifs with hfull hlow hbits hlow hlow
  · -- one full word
    have hone : inWords b.size - 1 = 0 := by omega
    simp only [BitVec.getLsbD_or, BitVec.getLsbD_shiftLeft, BitVec.getLsbD_ushiftRight, hone]
    rw [hword 0 (8 - k + j) (b.size - k + j) (by omega) (by omega)]
    simp [hlow]
  · have hone : inWords b.size - 1 = 0 := by omega
    simp only [BitVec.getLsbD_or, BitVec.getLsbD_shiftLeft, BitVec.getLsbD_ushiftRight, hone]
    rw [hword 0 (j - k) (j - k) (by omega) (by omega), hge _ (8 - k + j) (by omega),
      hout (b.size + j - k) (by omega)]
    simp [hlow, hj]
  · -- the last word has the bits
    simp only [BitVec.getLsbD_or, BitVec.getLsbD_shiftLeft, BitVec.getLsbD_ushiftRight]
    rw [hword (inWords b.size - 1) (b.size % 8 - k + j) (b.size - k + j) (by omega) (by omega)]
    simp [hlow]
  · simp only [BitVec.getLsbD_or, BitVec.getLsbD_shiftLeft, BitVec.getLsbD_ushiftRight]
    rw [hword 0 (j - k) (j - k) (by omega) (by omega)]
    by_cases hin : b.size % 8 - k + j < 8
    · rw [hword (inWords b.size - 1) (b.size % 8 - k + j) (b.size + j - k) (by omega) hin]
      simp [hlow, hj]
    · rw [hge _ (b.size % 8 - k + j) (by omega), hout (b.size + j - k) (by omega)]
      simp [hlow, hj]
  · -- the last two words have the bits
    simp only [BitVec.getLsbD_or, BitVec.getLsbD_shiftLeft, BitVec.getLsbD_ushiftRight]
    by_cases hin : j < k - b.size % 8
    · rw [hword (inWords b.size - 2) (8 - (k - b.size % 8) + j) (b.size - k + j) (by omega) (by omega)]
      simp [hlow, hin]
    · rw [hge _ (8 - (k - b.size % 8) + j) (by omega),
        hword (inWords b.size - 1) (j - (k - b.size % 8)) (b.size - k + j) (by omega) (by omega)]
      simp [hlow, hin, hj]
  · simp only [BitVec.getLsbD_or, BitVec.getLsbD_shiftLeft, BitVec.getLsbD_ushiftRight]
    rw [hword 0 (j - k) (j - k) (by omega) (by omega), hge _ (8 - (k - b.size % 8) + j) (by omega),
      hword (inWords b.size - 1) (j - (k - b.size % 8)) (b.size + j - k) (by omega) (by omega)]
    have hin : ¬ j < k - b.size % 8 := by omega
    simp [hlow, hin, hj]

theorem getD_view_of_lt {q : Nat} (hq : q < b.size) : b.view.getD q false = bitAt b.wordAt q := by
  rw [getD_view, decide_eq_true hq, Bool.true_and]

theorem rotatedLeft_eq (hle : k ≤ b.size) {q : Nat} (hq : q < b.size) :
    rotatedLeft b.view k q = if q < k then bitAt b.wordAt (b.size - k + q) else bitAt b.wordAt (q - k) := by
  rw [rotatedLeft, length_view]
  split_ifs with hlow
  · rw [Nat.mod_eq_of_lt (by omega), getD_view_of_lt (by omega)]
    congr 1
    omega
  · have hsum : q + (b.size - k) = q - k + b.size := by omega
    rw [hsum, Nat.add_mod_right, Nat.mod_eq_of_lt (by omega), getD_view_of_lt (by omega)]

theorem rotateLeft_of_fits (hle : k ≤ b.size) (hfits : LeftFits b.size k) :
    (Moves rotateLeft rotatedLeft b k ↔ LeftClear b k) ∧
      (Moves makeRotateLeft rotatedLeft b k ↔ LeftClear b k) := by
  obtain ⟨hpos, hlt, hend⟩ := hfits
  have hwindex : windex k = 0 := by
    rw [windex_eq]
    omega
  obtain ⟨hplace, hnew⟩ := moves_of_spec rotatedLeft (f := doRotateLeft) (b := b) (k := k)
    (fun _ q => if q < k then bitAt b.wordAt (b.size - k + q)
      else bitAt b.wordAt (q - k) || (decide (q < 8) && bitAt b.wordAt (b.size + q - k)))
    fun a hcount hsource => by
      refine ⟨_, doRotateLeft_eq hcount hpos.ne' hle (by rw [hwindex, inWords_eq]; omega), fun q hq => ?_⟩
      rw [bitAt_leftResult hcount hq, hsource, hwindex, if_neg (Nat.not_lt_zero _)]
      by_cases hword : q < 8
      · have hmod : q % 8 = q := Nat.mod_eq_of_lt hword
        rw [if_pos (by omega), hmod, getLsbD_limitValue hle ⟨hpos, hlt, hend⟩ hword, decide_eq_true hword,
          Bool.true_and]
      · rw [if_neg (by omega), if_neg (by omega), decide_eq_false hword, Bool.false_and, Bool.or_false]
  have hiff : (∀ q < b.size, (if q < k then bitAt b.wordAt (b.size - k + q)
      else bitAt b.wordAt (q - k) || (decide (q < 8) && bitAt b.wordAt (b.size + q - k))) =
        rotatedLeft b.view k q) ↔ LeftClear b k := by
    constructor
    · intro h m hm hpad
      have hbit := h (k + m) (by omega)
      have hsum : b.size + (k + m) - k = b.size + m := by omega
      rw [rotatedLeft_eq hle (by omega), if_neg (by omega), if_neg (by omega), Nat.add_sub_cancel_left, hsum,
        ← getD_padding, hpad, decide_eq_true (by omega)] at hbit
      rw [getD_view_of_lt (by omega), ← hbit]
      simp
    · intro h q hq
      rw [rotatedLeft_eq hle hq]
      split_ifs with hlow
      · rfl
      · by_cases hword : q < 8
        · have hpad := h (q - k) (by omega)
          have hsum : b.size + (q - k) = b.size + q - k := by omega
          rw [getD_padding, hsum, getD_view_of_lt (by omega)] at hpad
          cases hbit : bitAt b.wordAt (b.size + q - k) with
          | false => simp
          | true => simp [hpad hbit]
        · simp [hword]
  refine ⟨hplace.trans hiff, hnew.trans ?_⟩
  rw [hiff]
  exact and_iff_right (by omega)

/-! ## The other rotations -/

/-- The vector of `n` bits with a single one, at `e`. -/
def single (n e : Nat) : BitVector :=
  ⟨n, (List.range (inWords n)).map fun p => if p = e / 8 then (1 : Word) <<< (e % 8) else 0, by simp⟩

theorem bitAt_single {n e : Nat} (he : e < n) (q : Nat) : bitAt (single n e).wordAt q = decide (q = e) := by
  have hmod := Nat.mod_lt q (by decide : 8 > 0)
  by_cases hq : q / 8 < inWords n
  · have hword : (single n e).wordAt (q / 8) = if q / 8 = e / 8 then (1 : Word) <<< (e % 8) else 0 := by
      rw [wordAt, getD_eq_getElem?_getD]
      simp [single, hq]
    rw [bitAt, hword]
    split_ifs with hsame
    · rw [BitVec.getLsbD_shiftLeft, show (1 : Word) = 1#8 from rfl, BitVec.getLsbD_one]
      by_cases heq : q = e
      · simp [heq, Nat.mod_lt]
      · have hne : q % 8 ≠ e % 8 := by omega
        rw [decide_eq_false heq]
        by_cases hlow : q % 8 < e % 8
        · simp [hlow]
        · have hdiff : q % 8 - e % 8 ≠ 0 := by omega
          simp [hdiff]
    · rw [decide_eq_false (by rintro rfl; exact hsame rfl)]
      simp
  · have hge := windex_lt_inWords he
    rw [windex_eq] at hge
    rw [decide_eq_false (by rintro rfl; exact hq hge)]
    exact bitAt_wordAt_of_ge (b := single n e) (by change inWords n * 8 ≤ q; omega)

theorem getD_view_single {n e q : Nat} (he : e < n) (hq : q < n) :
    (single n e).view.getD q false = decide (q = e) := by
  rw [getD_view_of_lt (show q < (single n e).size from hq), bitAt_single he]

theorem clean_single {n e : Nat} (he : e < n) : (single n e).Clean := by
  refine noBit_iff_getD.mpr fun m => ?_
  rw [getD_padding, bitAt_single he]
  have hne : n + m ≠ e := by omega
  exact decide_eq_false hne

/-- A rotation is wrong if one of the bits that it writes is. -/
theorem not_rotateLeft_of_bit (hle : k ≤ b.size) (hpos : 0 < k) (hwords : windex k < inWords b.size) {q : Nat}
    (hq : q < b.size)
    (hbit : (if q / 8 < windex k then (headerValue b.size k b.wordAt (q / 8)).getLsbD (q % 8)
      else if q / 8 = windex k then (limitValue b.size k b.wordAt).getLsbD (q % 8)
      else bitAt b.wordAt (q - k)) ≠ rotatedLeft b.view k q) :
    ¬ Moves rotateLeft rotatedLeft b k ∧ ¬ Moves makeRotateLeft rotatedLeft b k := by
  obtain ⟨hplace, hnew⟩ := moves_of_spec rotatedLeft (f := doRotateLeft) (b := b) (k := k)
    (fun _ q => if q / 8 < windex k then (headerValue b.size k b.wordAt (q / 8)).getLsbD (q % 8)
      else if q / 8 = windex k then (limitValue b.size k b.wordAt).getLsbD (q % 8)
      else bitAt b.wordAt (q - k)) fun a hcount hsource => by
        refine ⟨_, doRotateLeft_eq hcount hpos.ne' hle hwords, fun q hq => ?_⟩
        rw [bitAt_leftResult hcount hq, hsource]
  exact ⟨fun h => hbit (hplace.mp h q hq), fun h => hbit ((hnew.mp h).2 q hq)⟩

/-- A rotation that does not write the right words is wrong for some vector with a single one. -/
theorem exists_not_rotateLeft {n : Nat} (hle : k ≤ n) (hpos : 0 < k) (hnot : ¬ LeftFits n k) :
    ∃ e < n, ¬ Moves rotateLeft rotatedLeft (single n e) k ∧ ¬ Moves makeRotateLeft rotatedLeft (single n e) k := by
  have hB := inWords_eq n
  by_cases hwords : windex k < inWords n
  · by_cases hlarge : 8 ≤ k
    · -- the first header is taken from the word before the right bits
      have hW := windex_eq k
      have hbs := bindex_eq k
      obtain ⟨e, hsize⟩ : ∃ e, n = 8 * windex k + e := ⟨n - 8 * windex k, by omega⟩
      have he : e < n := by omega
      refine ⟨e, he, not_rotateLeft_of_bit (b := single n e) (q := bindex k) hle hpos hwords
        (show bindex k < n by omega) ?_⟩
      have hq : bindex k / 8 = 0 ∧ bindex k % 8 = bindex k := by omega
      have hne : 8 * (inWords n - windex k + 0 - 1) + 0 ≠ e := by omega
      have hheader : (headerValue n k (single n e).wordAt 0).getLsbD (bindex k) = false := by
        rw [headerValue, BitVec.getLsbD_or, BitVec.getLsbD_shiftLeft, BitVec.getLsbD_ushiftRight,
          Nat.sub_self, ← bitAt_eq _ (by decide), bitAt_single he, decide_eq_false hne,
          BitVec.getLsbD_of_ge _ _ (by unfold wsize; omega)]
        simp
      have hspec : rotatedLeft (single n e).view k (bindex k) = true := by
        have hsum : bindex k + (n - k) = e := by omega
        rw [rotatedLeft, length_view, show (single n e).size = n from rfl, hsum,
          Nat.mod_eq_of_lt he, getD_view_single he he, decide_eq_true rfl]
      rw [hq.1, hq.2, if_pos (by omega), hspec]
      exact fun heq => Bool.noConfusion (hheader.symm.trans heq)
    · -- the first and the last word are exchanged
      have hW : windex k = 0 := by
        rw [windex_eq]
        omega
      have hbs : bindex k = k := by
        rw [bindex_eq]
        omega
      have hfull : n % 8 = 0 ∧ 16 ≤ n := by
        unfold LeftFits at hnot
        omega
      have he : 0 < n := by omega
      refine ⟨0, he, not_rotateLeft_of_bit (b := single n 0) (q := k) hle hpos hwords (show k < n by omega) ?_⟩
      have hq : k / 8 = 0 ∧ k % 8 = k := by omega
      have hne : 8 * (inWords n - 1) + 0 ≠ 0 := by omega
      have hlimit : (limitValue n k (single n 0).wordAt).getLsbD k = false := by
        unfold limitValue
        simp only [bindex_eq, hfull.1, if_true]
        rw [hq.2, BitVec.getLsbD_or, BitVec.getLsbD_shiftLeft, BitVec.getLsbD_ushiftRight, Nat.sub_self,
          ← bitAt_eq _ (by decide), bitAt_single he, BitVec.getLsbD_of_ge _ _ (by unfold wsize; omega),
          decide_eq_false hne]
        simp
      have hspec : rotatedLeft (single n 0).view k k = true := by
        have hsum : k + (n - k) = n := by omega
        rw [rotatedLeft, length_view, show (single n 0).size = n from rfl, hsum, Nat.mod_self,
          getD_view_single he he, decide_eq_true rfl]
      rw [hq.1, hq.2, hW, if_neg (lt_irrefl 0), if_pos rfl, hspec]
      exact fun heq => Bool.noConfusion (hlimit.symm.trans heq)
  · -- a header is read before the first word
    refine ⟨0, by omega, ?_⟩
    exact not_moves_of_none rotatedLeft fun a hcount _ =>
      doRotateLeft_none hcount hpos.ne' hle (Nat.le_of_not_lt hwords)

theorem Clean.leftClear (h : b.Clean) : LeftClear b k := by
  intro m _ hpad
  rw [noBit_iff_getD.mp h m] at hpad
  cases hpad

/-- A new vector keeps the zeroes of the constructor when the count is 0. -/
theorem exists_not_make (f : Nat → Nat → Arrays → Option Arrays)
    (spec : List Bool → Nat → Nat → Bool) (n : Nat) (hf : ∀ a, f n 0 a = some a)
    (hspec : ∀ c : BitVector, c.size = n → ∀ q < n, spec c.view 0 q = c.view.getD q false) :
    ∃ c : BitVector, c.size = n ∧ c.Clean ∧ ¬ Moves (make f) spec c 0 := by
  by_cases hpos : 0 < n
  · obtain ⟨-, hnew⟩ := moves_of_same spec (f := f) (b := single n 0) (k := 0) hf (hspec _ rfl)
    refine ⟨single n 0, rfl, clean_single hpos, fun h => ?_⟩
    have hbit := noBit_iff_getD.mp (hnew.mp h).2 0
    rw [getD_view_single hpos hpos] at hbit
    cases hbit
  · obtain rfl : n = 0 := by omega
    refine ⟨empty, rfl, by decide, fun h => ?_⟩
    exact absurd (moves_make_iff.mp h).1 (lt_irrefl 0)

/-- An operation that is right where a condition on the size and the count holds, wrong for a vector with
a single one where it does not, and that does nothing when the count is 0. -/
theorem forall_clean_iff {f : Nat → Nat → Arrays → Option Arrays} {spec : List Bool → Nat → Nat → Bool} {n : Nat}
    {P : Prop} (hf : ∀ a, f n 0 a = some a)
    (hspec : ∀ c : BitVector, c.size = n → ∀ q < n, spec c.view 0 q = c.view.getD q false) (hpos : P → 0 < k)
    (hfits : P → ∀ c : BitVector, c.size = n → c.Clean → Moves (update f) spec c k ∧ Moves (make f) spec c k)
    (hnot : 0 < k → ¬ P →
      ∃ e < n, ¬ Moves (update f) spec (single n e) k ∧ ¬ Moves (make f) spec (single n e) k) :
    ((∀ c : BitVector, c.size = n → c.Clean → Moves (update f) spec c k) ↔ k = 0 ∨ P) ∧
      ((∀ c : BitVector, c.size = n → c.Clean → Moves (make f) spec c k) ↔ P) := by
  constructor
  · constructor
    · intro h
      by_contra hwrong
      rw [not_or] at hwrong
      obtain ⟨e, he, hplace, -⟩ := hnot (Nat.pos_of_ne_zero hwrong.1) hwrong.2
      exact hplace (h _ rfl (clean_single he))
    · rintro (rfl | hk) c rfl hclean
      · exact (moves_of_same spec hf (hspec c rfl)).1
      · exact (hfits hk c rfl hclean).1
  · constructor
    · intro h
      by_contra hwrong
      rcases Nat.eq_zero_or_pos k with rfl | hk
      · obtain ⟨c, hsize, hclean, hnew⟩ := exists_not_make f spec n hf hspec
        exact hnew (h c hsize hclean)
      · obtain ⟨e, he, -, hnew⟩ := hnot hk hwrong
        exact hnew (h _ rfl (clean_single he))
    · intro hk c hsize hclean
      exact (hfits hk c hsize hclean).2

theorem doRotateLeft_zero (size : Nat) (a : Arrays) : doRotateLeft size 0 a = some a := by
  simp [doRotateLeft, reduceCount]

theorem rotatedLeft_zero {q : Nat} (hq : q < b.size) : rotatedLeft b.view 0 q = b.view.getD q false := by
  rw [rotatedLeft, length_view, Nat.sub_zero, Nat.add_mod_right, Nat.mod_eq_of_lt hq]

/-- The rotation is right for all vectors without ones in the padding exactly when it writes the right
words, or nothing in place. -/
theorem rotateLeft_iff {n : Nat} (hle : k ≤ n) :
    ((∀ c : BitVector, c.size = n → c.Clean → Moves rotateLeft rotatedLeft c k) ↔ k = 0 ∨ LeftFits n k) ∧
      ((∀ c : BitVector, c.size = n → c.Clean → Moves makeRotateLeft rotatedLeft c k) ↔ LeftFits n k) := by
  refine forall_clean_iff (doRotateLeft_zero n) (fun c hc q hq => rotatedLeft_zero (hc ▸ hq)) And.left ?_
    fun hpos hnot => exists_not_rotateLeft hle hpos hnot
  rintro hfits c rfl hclean
  obtain ⟨hplace, hnew⟩ := rotateLeft_of_fits hle hfits
  exact ⟨hplace.mpr hclean.leftClear, hnew.mpr hclean.leftClear⟩

end Elm.Util.BitVector
