import Elm.Util.BitVectorView

/-!
# The observers of `BitVector`

Each observer is compared with its definition on the boolean arrays of the two vectors.  The answer
depends on the padding of the operands that the observer does not mask.
-/

namespace Elm.Util.BitVector

open Bits List Option

/-! ## Definitions on boolean arrays -/

/-- No bit is set. -/
def NoBit (xs : List Bool) : Prop := ∀ x ∈ xs, x = false

/-- Every bit set in `ys` is set in `xs`. -/
def Includes (xs ys : List Bool) : Prop := NoBit (List.zipWith (fun x y => !x && y) xs ys)

/-- Some bit is set in both arrays. -/
def Meets (xs ys : List Bool) : Prop := ¬ NoBit (List.zipWith (· && ·) xs ys)

instance (xs : List Bool) : Decidable (NoBit xs) := inferInstanceAs (Decidable (∀ x ∈ xs, _))

instance (xs ys : List Bool) : Decidable (Includes xs ys) := inferInstanceAs (Decidable (NoBit _))

instance (xs ys : List Bool) : Decidable (Meets xs ys) := inferInstanceAs (Decidable (¬ NoBit _))

@[simp] theorem noBit_append {xs ys : List Bool} : NoBit (xs ++ ys) ↔ NoBit xs ∧ NoBit ys := by
  simp only [NoBit, mem_append]
  exact ⟨fun h => ⟨fun x hx => h x (Or.inl hx), fun x hx => h x (Or.inr hx)⟩,
    fun h x hx => hx.elim (h.1 x) (h.2 x)⟩

theorem noBit_replicate (n : Nat) : NoBit (replicate n false) :=
  fun _ hx => eq_of_mem_replicate hx

theorem noBit_iff_eq_replicate {xs : List Bool} : NoBit xs ↔ xs = replicate xs.length false := by
  rw [eq_replicate_iff]
  exact ⟨fun h => ⟨rfl, h⟩, fun h => h.2⟩

theorem zipWith_replicate_false {xs : List Bool} :
    List.zipWith (fun x y => !x && y) (replicate xs.length false) xs = xs := by
  induction xs with
  | nil => rfl
  | cons x xs ih => simp [replicate_succ, ih]

/-! ## The loops over the words -/

theorem includesWords_iff (xs ys : List Word) :
    includesWords xs ys ↔ Includes (ofWords xs) (ofWords ys) := by
  have hbit : ∀ x y : Word, ∀ i < 8,
      (~~~ x &&& y).getLsbD i = (!x.getLsbD i && y.getLsbD i) := by
    intro x y i hi
    simp [hi]
  rw [Includes, ← ofWords_zipWith hbit, NoBit, ← all_eq_zero_iff]
  induction xs generalizing ys with
  | nil => simp [includesWords]
  | cons x xs ih =>
    cases ys with
    | nil => simp [includesWords]
    | cons y ys =>
      by_cases h : ~~~ x &&& y = 0#8
      · simp [includesWords, h, ih]
      · simp [includesWords, h]

theorem equalsWords_iff {xs ys : List Word} (hlen : xs.length = ys.length) :
    equalsWords xs ys ↔ xs = ys := by
  induction xs generalizing ys with
  | nil => simp [equalsWords, length_eq_zero_iff.mp hlen.symm]
  | cons x xs ih =>
    cases ys with
    | nil => simp at hlen
    | cons y ys =>
      by_cases h : x = y
      · simp [equalsWords, h, ih (Nat.succ_inj.mp hlen)]
      · simp [equalsWords, h]

/-- The single loop of `includesStrictly` answers as those of `includes` and `equals`. -/
theorem includesStrictlyWords_eq (equal : Bool) (xs ys : List Word) :
    includesStrictlyWords equal xs ys =
      (includesWords xs ys && !(equal && equalsWords xs ys)) := by
  induction xs generalizing ys equal with
  | nil => simp [includesStrictlyWords, includesWords, equalsWords]
  | cons x xs ih =>
    cases ys with
    | nil => simp [includesStrictlyWords, includesWords, equalsWords]
    | cons y ys =>
      by_cases hincl : ~~~ x &&& y = 0#8
      · by_cases heq : x = y
        · simp [includesStrictlyWords, includesWords, equalsWords, heq, ih]
        · simp [includesStrictlyWords, includesWords, equalsWords, hincl, heq, ih]
      · simp [includesStrictlyWords, includesWords, hincl]

theorem meetsWords_iff (xs ys : List Word) :
    meetsWords xs ys ↔ Meets (ofWords xs) (ofWords ys) := by
  have hbit : ∀ x y : Word, ∀ i < 8, (x &&& y).getLsbD i = (x.getLsbD i && y.getLsbD i) := by
    intro x y i _
    simp
  rw [Meets, ← ofWords_zipWith hbit, NoBit, ← all_eq_zero_iff]
  induction xs generalizing ys with
  | nil => simp [meetsWords]
  | cons x xs ih =>
    cases ys with
    | nil => simp [meetsWords]
    | cons y ys =>
      by_cases h : x &&& y = 0#8
      · simp [meetsWords, h, ih]
      · simp [meetsWords, h]

theorem foldl_ones (xs : List Word) (k : Nat) :
    xs.foldl (fun cnt x => cnt + Bits.ones x) k = k + (ofWords xs).count true := by
  induction xs generalizing k with
  | nil => rfl
  | cons x xs ih =>
    rw [foldl_cons, ih, ofWords_cons, count_append, Bits.ones]
    omega

/-! ## The answers -/

variable {u v : BitVector}

theorem isEmpty_eq (u : BitVector) : u.isEmpty.1 = decide (NoBit u.view) := by
  have hwords : u.mask.bits.all (· == 0) ↔ NoBit (ofWords u.mask.bits) := by
    simp only [List.all_eq_true, beq_iff_eq]
    exact all_eq_zero_iff
  rw [isEmpty, Bool.eq_iff_iff, decide_eq_true_iff]
  refine hwords.trans ?_
  simp [ofWords_mask, noBit_replicate]

theorem length_padding_eq (hsize : u.size = v.size) : u.padding.length = v.padding.length := by
  have hu := u.size_view_padding
  have hv := v.size_view_padding
  rw [hsize] at hu
  omega

theorem includes_eq (hsize : u.size = v.size) :
    (u.includes v).map Prod.fst = some (decide (Includes u.view v.view ∧ v.Clean)) := by
  have hiff : includesWords u.mask.bits v.bits ↔ Includes u.view v.view ∧ v.Clean := by
    rw [includesWords_iff, ofWords_mask, ← view_append_padding v, Includes,
      zipWith_append (by simp [hsize]), noBit_append, length_padding_eq hsize,
      zipWith_replicate_false]
    rfl
  simp only [includes, compareWords, hsize, if_true, map_some, some.injEq]
  rw [Bool.eq_iff_iff, hiff, decide_eq_true_iff]

theorem mask_bits_eq_iff (hsize : u.size = v.size) :
    u.mask.bits = v.bits ↔ u.view = v.view ∧ v.Clean := by
  have hlen : u.mask.bits.length = v.bits.length := by
    rw [u.mask.length_bits, v.length_bits, size_mask, hsize]
  rw [← ofWords_inj hlen, ofWords_mask, ← view_append_padding v, length_padding_eq hsize]
  constructor
  · intro h
    obtain ⟨hview, hpad⟩ := append_inj h (by simp [hsize])
    refine ⟨hview, ?_⟩
    intro p hp
    rw [← hpad] at hp
    exact eq_of_mem_replicate hp
  · rintro ⟨hview, hclean⟩
    rw [hview, ← noBit_iff_eq_replicate.mp hclean]

theorem equals_eq (hsize : u.size = v.size) :
    (u.equals v).map Prod.fst = some (decide (u.view = v.view ∧ v.Clean)) := by
  have hlen : u.mask.bits.length = v.bits.length := by
    rw [u.mask.length_bits, v.length_bits, size_mask, hsize]
  simp only [equals, compareWords, hsize, if_true, map_some, some.injEq]
  rw [Bool.eq_iff_iff, equalsWords_iff hlen, mask_bits_eq_iff hsize, decide_eq_true_iff]

theorem includesStrictly_eq (hsize : u.size = v.size) :
    (u.includesStrictly v).map Prod.fst =
      some (decide ((Includes u.view v.view ∧ u.view ≠ v.view) ∧ v.Clean)) := by
  have hincl := includes_eq hsize
  have heq := equals_eq hsize
  simp only [includes, equals, compareWords, hsize, if_true, map_some,
    some.injEq] at hincl heq
  simp only [includesStrictly, compareWords, hsize, if_true, map_some, some.injEq]
  rw [includesStrictlyWords_eq, hincl, heq, Bool.eq_iff_iff]
  simp only [Bool.true_and, Bool.and_eq_true, decide_eq_true_eq, Bool.not_eq_true',
    decide_eq_false_iff_not]
  tauto

theorem meets_eq (hsize : u.size = v.size) :
    u.meets v = decide (Meets u.view v.view ∨ Meets u.padding v.padding) := by
  have hiff : meetsWords u.bits v.bits ↔ Meets u.view v.view ∨ Meets u.padding v.padding := by
    rw [meetsWords_iff, ← view_append_padding u, ← view_append_padding v, Meets,
      zipWith_append (by simp [hsize]), noBit_append, not_and_or]
    rfl
  rw [meets, Bool.eq_iff_iff, hiff, decide_eq_true_iff]

theorem countOnes_eq (u : BitVector) :
    u.countOnes = u.view.count true + u.padding.count true := by
  rw [countOnes, foldl_ones, ← view_append_padding, count_append, Nat.zero_add]

theorem countBits_eq (u : BitVector) : u.countBits = u.countOnes := rfl

theorem countZeroes_eq (u : BitVector) : u.countZeroes = 0 := by
  simp [countZeroes, countBits_eq]

theorem clean_iff_count (u : BitVector) : u.Clean ↔ u.padding.count true = 0 := by
  rw [count_eq_zero]
  constructor
  · intro h htrue
    exact absurd (h true htrue) (by decide)
  · intro h p hp
    cases p with
    | false => rfl
    | true => exact absurd hp h

/-- For each observer, when its answer is the one defined on the boolean arrays.  The argument `v` is another object
than the receiver. -/
theorem observers_agree_iff (u v : BitVector) (hsize : u.size = v.size) :
    u.isEmpty.1 = decide (NoBit u.view) ∧
      ((u.equals v).map Prod.fst = some (decide (u.view = v.view)) ↔
        (u.view = v.view → v.Clean)) ∧
      ((u.includes v).map Prod.fst = some (decide (Includes u.view v.view)) ↔
        (Includes u.view v.view → v.Clean)) ∧
      ((u.includesStrictly v).map Prod.fst =
          some (decide (Includes u.view v.view ∧ u.view ≠ v.view)) ↔
        (Includes u.view v.view ∧ u.view ≠ v.view → v.Clean)) ∧
      (u.meets v = decide (Meets u.view v.view) ↔
        (Meets u.padding v.padding → Meets u.view v.view)) ∧
      (u.countOnes = u.view.count true ↔ u.Clean) ∧
      (u.countBits = u.view.count true ↔ u.Clean) ∧
      (u.countZeroes = u.view.count false ↔ ∀ b ∈ u.view, b = true) := by
  have hand : ∀ (p q : Prop) [Decidable p] [Decidable q],
      some (decide (p ∧ q)) = some (decide p) ↔ (p → q) := by
    intro p q _ _
    rw [some.injEq, decide_eq_decide]
    tauto
  refine ⟨isEmpty_eq u, ?_, ?_, ?_, ?_, ?_, ?_, ?_⟩
  · rw [equals_eq hsize]
    exact hand _ _
  · rw [includes_eq hsize]
    exact hand _ _
  · rw [includesStrictly_eq hsize]
    exact hand _ _
  · rw [meets_eq hsize, decide_eq_decide]
    tauto
  · rw [countOnes_eq, clean_iff_count]
    omega
  · rw [countBits_eq, countOnes_eq, clean_iff_count]
    omega
  · rw [countZeroes_eq, eq_comm, Int.natCast_eq_zero, count_eq_zero]
    constructor
    · intro h b hb
      cases b with
      | false => exact absurd hb h
      | true => rfl
    · intro h hfalse
      exact absurd (h false hfalse) (by decide)

/-- Two vectors of five bits, both with ones in their padding. -/
theorem observers_agree_iff_five :
    let u : BitVector := ⟨5, [0xff], rfl⟩
    let v : BitVector := ⟨5, [0xef], rfl⟩
    u.isEmpty.1 = decide (NoBit u.view) ∧
      ((u.equals v).map Prod.fst = some (decide (u.view = v.view)) ↔
        (u.view = v.view → v.Clean)) ∧
      ((u.includes v).map Prod.fst = some (decide (Includes u.view v.view)) ↔
        (Includes u.view v.view → v.Clean)) ∧
      ((u.includesStrictly v).map Prod.fst =
          some (decide (Includes u.view v.view ∧ u.view ≠ v.view)) ↔
        (Includes u.view v.view ∧ u.view ≠ v.view → v.Clean)) ∧
      (u.meets v = decide (Meets u.view v.view) ↔
        (Meets u.padding v.padding → Meets u.view v.view)) ∧
      (u.countOnes = u.view.count true ↔ u.Clean) ∧
      (u.countBits = u.view.count true ↔ u.Clean) ∧
      (u.countZeroes = u.view.count false ↔ ∀ b ∈ u.view, b = true) :=
  observers_agree_iff _ _ rfl

/-! ## Reachable vectors -/

/-- The vectors built by any sequence of constructors, mutators, `make*` functions and observers. -/
inductive Reachable : BitVector → Prop
  | empty : Reachable empty
  | new {size : Nat} {value : Bool} {b : BitVector} (h : new size value = some b) : Reachable b
  | copyOf {b : BitVector} (h : Reachable b) : Reachable b.copyOf
  | resized {b b' : BitVector} {newSize : Nat} (h : Reachable b)
      (hb : b.resized newSize = some b') : Reachable b'
  | set {b b' : BitVector} {i : Nat} (h : Reachable b) (hb : b.set i = some b') : Reachable b'
  | clear {b b' : BitVector} {i : Nat} (h : Reachable b) (hb : b.clear i = some b') : Reachable b'
  | setTo {b b' : BitVector} {i : Nat} {value : Bool} (h : Reachable b)
      (hb : b.setTo i value = some b') : Reachable b'
  | setAll {b : BitVector} (h : Reachable b) : Reachable b.setAll
  | clearAll {b : BitVector} (h : Reachable b) : Reachable b.clearAll
  | copy {b vec b' : BitVector} (h : Reachable b) (hvec : Reachable vec)
      (hb : b.copy vec = some b') : Reachable b'
  | applyNot {b : BitVector} (h : Reachable b) : Reachable b.applyNot
  | applyOr {b vec b' : BitVector} (h : Reachable b) (hvec : Reachable vec)
      (hb : b.applyOr vec = some b') : Reachable b'
  | applyAnd {b vec b' : BitVector} (h : Reachable b) (hvec : Reachable vec)
      (hb : b.applyAnd vec = some b') : Reachable b'
  | applyReset {b vec b' : BitVector} (h : Reachable b) (hvec : Reachable vec)
      (hb : b.applyReset vec = some b') : Reachable b'
  | makeNot {b b' : BitVector} (h : Reachable b) (hb : b.makeNot = some b') : Reachable b'
  | makeOr {b vec b' : BitVector} (h : Reachable b) (hvec : Reachable vec)
      (hb : b.makeOr vec = some b') : Reachable b'
  | makeAnd {b vec b' : BitVector} (h : Reachable b) (hvec : Reachable vec)
      (hb : b.makeAnd vec = some b') : Reachable b'
  | makeReset {b vec b' : BitVector} (h : Reachable b) (hvec : Reachable vec)
      (hb : b.makeReset vec = some b') : Reachable b'
  | observed {b : BitVector} (h : Reachable b) : Reachable b.mask

/-- All the observers answer as defined on the boolean arrays. -/
def ObserversAgree (u v : BitVector) : Prop :=
  u.isEmpty.1 = decide (NoBit u.view) ∧
    (u.equals v).map Prod.fst = some (decide (u.view = v.view)) ∧
    (u.includes v).map Prod.fst = some (decide (Includes u.view v.view)) ∧
    (u.includesStrictly v).map Prod.fst =
      some (decide (Includes u.view v.view ∧ u.view ≠ v.view)) ∧
    u.meets v = decide (Meets u.view v.view) ∧
    u.countOnes = u.view.count true ∧
    u.countBits = u.view.count true ∧
    u.countZeroes = u.view.count false

/-- Two equal vectors of five bits, one built by `set` and the other by the constructor. -/
theorem not_observersAgree :
    ¬ ∀ u v : BitVector, Reachable u → Reachable v → u.size = v.size → ObserversAgree u v := by
  intro h
  have hu : Reachable ⟨5, [0x1f], rfl⟩ :=
    .setAll (.new (show new 5 false = some ⟨5, [0], rfl⟩ from rfl))
  have hv : Reachable ⟨5, [0xff], rfl⟩ := .new (show new 5 true = _ from rfl)
  have hequals := (h _ _ hu hv rfl).2.1
  revert hequals
  decide

end Elm.Util.BitVector
