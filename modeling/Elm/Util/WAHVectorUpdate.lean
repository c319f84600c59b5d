import Elm.Util.WAHVectorLoops

/-!
# `set` and `clear` of `WAHVector`

The word of the bit is replaced by up to three runs, and the words after it are pushed behind.
-/

namespace Elm.Util.Wah

open RunLength List

/-! ## Divisions -/

theorem times_eq (v : Nat) : times v = 31 * v := by
  unfold times
  omega

/-- The error of the multiplication that replaces the division does not carry: 31 times its factor 138547362 is
`2 ^ 32 + 926`. -/
def Exact (v : Nat) : Prop := 926 * (v / 31) + 138547362 * (v % 31) < 2 ^ 32

instance (v : Nat) : Decidable (Exact v) := inferInstanceAs (Decidable (_ < _))

/-- The quotient and what the error adds to it. -/
theorem div_eq_add (v : Nat) : div v = v / 31 + (926 * (v / 31) + 138547362 * (v % 31)) / 2 ^ 32 := by
  have hmul : (2 ^ 32 / 31 + 30) * v = v / 31 * 2 ^ 32 + (926 * (v / 31) + 138547362 * (v % 31)) := by
    have hv := Nat.div_add_mod v 31
    norm_num
    omega
  unfold div
  rw [hmul, Nat.add_comm, Nat.add_mul_div_right _ _ (by norm_num), Nat.add_comm]

theorem Exact.div_eq {v : Nat} (hv : Exact v) : div v = v / 31 := by
  rw [div_eq_add, Nat.div_eq_of_lt hv, Nat.add_zero]

/-- An error that carries makes the quotient too large. -/
theorem lt_div_of_not_exact {v : Nat} (hv : ¬ Exact v) : v / 31 < div v := by
  have hcarry : 0 < (926 * (v / 31) + 138547362 * (v % 31)) / 2 ^ 32 :=
    Nat.div_pos (Nat.le_of_not_lt hv) (by norm_num)
  rw [div_eq_add]
  omega

/-- The values below the first one whose error carries. -/
theorem Exact.of_lt {v : Nat} (hv : v < 4638219) : Exact v := by
  unfold Exact
  omega

theorem Exact.sub {v : Nat} (hv : Exact v) (k : Nat) : Exact (v - 31 * k) := by
  unfold Exact at hv ⊢
  by_cases hk : 31 * k ≤ v
  · have hdiv : (v - 31 * k) / 31 = v / 31 - k := by omega
    have hmod : (v - 31 * k) % 31 = v % 31 := by omega
    rw [hdiv, hmod]
    omega
  · have hzero : v - 31 * k = 0 := by omega
    rw [hzero]
    norm_num

theorem Exact.mod_eq {v : Nat} (hv : Exact v) : mod v = (v % 31 : Nat) := by
  unfold mod
  rw [hv.div_eq, times_eq]
  omega

theorem Exact.shift_eq {index : Nat} (hindex : Exact index) :
    shift index = some ((1 : Word) <<< (index % 31)) := by
  have hmod := hindex.mod_eq
  unfold shift
  rw [if_pos (by omega), hmod, Int.toNat_natCast]

/-! ## The runs around the bit -/

theorem modify_append_cons {α : Type*} (f : α → α) (as bs : List α) (x : α) :
    (as ++ x :: bs).modify as.length f = as ++ f x :: bs := by
  induction as with
  | nil => rfl
  | cons a as ih =>
    rw [cons_append, length_cons, modify_succ_cons, ih]
    rfl

namespace Iter

/-- The words behind the current one. -/
theorem pushTail_spec {it : Iter} {w : Word} {words : List Word} (hcur : it.cur = w :: words) {b : Builder}
    (hcanon : Canonical Uniform (runs b)) (hwords : Canonical Uniform (runs words))
    (hlt : b.total + (blocks words).length < 2 ^ 30) :
    Canonical Uniform (runs (it.pushTail b)) ∧ blocks (it.pushTail b) = (blocks words).reverse ++ blocks b := by
  cases words with
  | nil =>
    have htail : it.pushTail b = b := by rw [pushTail, hcur]
    rw [htail]
    exact ⟨hcanon, rfl⟩
  | cons w' words =>
    have htail : it.pushTail b = (b.push w').copy words := by rw [pushTail, hcur]
    have hwords' : Canonical Uniform (view w' :: runs words) := hwords
    obtain ⟨hw', hhead, hcanon'⟩ := canonical_cons.mp hwords'
    rw [blocks_cons, length_append] at hlt
    have hruns : runs (it.pushTail b) = (runs words).reverse ++ pushRun (view w') (runs b) := by
      rw [htail, Builder.runs_copy, Builder.runs_push hw' (by omega)]
    rw [blocks, hruns]
    constructor
    · refine canonical_append.mpr ⟨hcanon'.reverse, hcanon.pushRun hw', ?_⟩
      intro s hs r hr hjoin
      rw [getLast?_reverse] at hs
      -- the pushed run joins what it joined alone
      obtain ⟨r', rs', heq, hjoins⟩ := joins_pushRun (view w') s (runs b)
      rw [heq] at hr
      cases hr
      exact hhead s hs (hjoins hjoin).symm
    · rw [expand_append, expand_reverse, expand_pushRun, blocks_cons, reverse_append, append_assoc]
      congr 2
      cases view w' <;> simp [Run.expand]

end Iter

/-- What `set` and `clear` do on the literal of a bit. -/
structure BlockChange (change : Word → Word → Word) (done : Word → Bool) : Prop where
  lite : ∀ x j, j < 31 → isFill x = false → isFill (change x ((1 : Word) <<< j)) = false
  same : ∀ x j, j < 31 → Uniform x → done x = true → change x ((1 : Word) <<< j) = x
  mixed : ∀ x j, j < 31 → Uniform x → done x = false → ¬ Uniform (change x ((1 : Word) <<< j))

section Update

variable {change : Word → Word → Word} {done : Word → Bool} {b : Builder} {before after : Nat} {x y : Word}

/-- The three runs of a fill that is split. -/
theorem split_spec (hcanon : Canonical Uniform (runs b)) (hhead : ∀ r ∈ (runs b).head?, ¬ Joins (.fill 1 x) r)
    (hx : Uniform x) (hy : ¬ Uniform y) (hlite : isFill y = false) (hlt : before + 1 + after < 2 ^ 30) :
    let b1 := if before ≠ 0 then b.pushRaw (fill before (x ≠ 0)) else b
    let b2 := b1.pushLite y
    let b3 := if after ≠ 0 then b2.pushRaw (fill after (x ≠ 0)) else b2
    Canonical Uniform (runs b3) ∧
      blocks b3 = replicate after x ++ y :: (replicate before x ++ blocks b) := by
  intro b1 b2 b3
  have hview : ∀ n : Nat, n < 2 ^ 30 → view (fill n (x ≠ 0)) = .fill n x := by
    intro n hn
    rw [view_fill hn, ← eq_uniform hx]
  have h1 : Canonical Uniform (runs b1) ∧ blocks b1 = replicate before x ++ blocks b := by
    by_cases hzero : before = 0
    · have heq : b1 = b := if_neg (by simp [hzero])
      rw [heq, hzero]
      exact ⟨hcanon, rfl⟩
    · have heq : runs b1 = .fill before x :: runs b := by
        have hb1 : b1 = fill before (x ≠ 0) :: b := if_pos hzero
        rw [hb1, runs, map_cons, hview before (by omega)]
        rfl
      rw [blocks, heq]
      refine ⟨canonical_cons.mpr ⟨⟨Nat.pos_of_ne_zero hzero, hx⟩, fun r hr hjoin => ?_, hcanon⟩, rfl⟩
      refine hhead r hr ?_
      cases r <;> exact hjoin
  have h2 : runs b2 = .lit y :: runs b1 := by
    have hnot := not_or.mp hy
    have hb2 : b2 = y :: b1 := by
      change Builder.pushLite b1 y = _
      rw [Builder.pushLite, if_neg hnot.1, if_neg hnot.2]
      rfl
    rw [hb2, runs, map_cons, view_lite hlite]
    rfl
  have hcanon2 : Canonical Uniform (runs b2) := by
    rw [h2]
    exact h1.1.pushRun (r := .lit y) hy
  have hblocks2 : blocks b2 = y :: (replicate before x ++ blocks b) := by
    rw [blocks, h2, ← h1.2]
    rfl
  by_cases hzero : after = 0
  · have heq : b3 = b2 := if_neg (by simp [hzero])
    rw [heq, hzero]
    exact ⟨hcanon2, hblocks2⟩
  · have heq : runs b3 = .fill after x :: runs b2 := by
      have hb3 : b3 = fill after (x ≠ 0) :: b2 := if_pos hzero
      rw [hb3, runs, map_cons, hview after (by omega)]
      rfl
    rw [blocks, heq, ← hblocks2]
    refine ⟨canonical_cons.mpr ⟨⟨Nat.pos_of_ne_zero hzero, hx⟩, fun r hr hjoin => ?_, hcanon2⟩, rfl⟩
    rw [h2] at hr
    cases hr
    exact hjoin

/-- A fill of one value, cut at a block. -/
theorem replicate_cut {n k : Nat} (hk : k < n) (x : Word) :
    replicate n x = replicate k x ++ x :: replicate (n - k - 1) x := by
  have hn : n = k + (1 + (n - k - 1)) := by omega
  conv_lhs => rw [hn]
  rw [replicate_add, replicate_add]
  rfl

/-- What is pushed for the word `w` that has the bit. -/
theorem updateWord_spec (hchange : BlockChange change done) {index : Nat} (hindex : Exact index) {w : Word}
    {words : List Word} (hcanon : Canonical Uniform (view w :: runs b))
    (hlt : b.total + (view w).expand.length < 2 ^ 30) (hfirst : b.total ≤ index / 31)
    (hlast : index / 31 < b.total + (view w).expand.length) :
    ∃ b' as x bs, WAHVector.updateWord change done index b (Iter.step (31 * b.total) w words) = some b' ∧
      Canonical Uniform (runs b') ∧ (view w).expand = as ++ x :: bs ∧ b.total + as.length = index / 31 ∧
      blocks b' = bs.reverse ++ change x ((1 : Word) <<< (index % 31)) :: (as.reverse ++ blocks b) := by
  have hj : index % 31 < 31 := Nat.mod_lt _ (by decide)
  have hshift := hindex.shift_eq
  obtain ⟨hw, hhead, hb⟩ := canonical_cons.mp hcanon
  rw [Iter.step_eq]
  cases hview : view w with
  | lit x =>
    rw [hview] at hlt hlast
    simp only [Run.expand, length_singleton] at hlt hlast
    have hlite : isFill x = false := by
      obtain ⟨rfl, hlit⟩ := view_eq_lit hview
      exact hlit
    have hruns := @Builder.runs_pushLite b _ (hchange.lite x _ hj hlite) hlt
    refine ⟨b.pushLite (change x ((1 : Word) <<< (index % 31))), [], x, [], ?_, ?_, rfl,
      by simp only [length_nil]; omega, ?_⟩
    · unfold WAHVector.updateWord
      rw [if_pos (by simp), hshift]
      rfl
    · rw [hruns]
      exact hb.push _
    · rw [blocks, hruns, expand_push]
      rfl
  | fill n x =>
    rw [hview] at hw hhead hlt hlast
    simp only [Run.expand, length_replicate] at hlt hlast
    have hcut := @replicate_cut n (index / 31 - b.total) (by omega) x
    by_cases hdone : done x = true
    · -- the whole word stays
      refine ⟨w :: b, replicate (index / 31 - b.total) x, x, replicate (n - (index / 31 - b.total) - 1) x,
        ?_, hcanon, hcut, by rw [length_replicate]; omega, ?_⟩
      · unfold WAHVector.updateWord
        rw [if_neg (by simp), if_pos hdone]
        rfl
      · rw [hchange.same x _ hj hw.2 hdone, reverse_replicate, reverse_replicate, ← cons_append,
          ← append_assoc]
        have hexpand : blocks (w :: b) = replicate n x ++ blocks b := by
          rw [Iter.blocks_cons, hview]
          rfl
        rw [hexpand]
        congr 1
        rw [← replicate_succ, replicate_append_replicate]
        congr 1
        omega
    · have hnot : done x = false := by simpa using hdone
      have hbefore : div (index - 31 * b.total) = index / 31 - b.total := by
        rw [(hindex.sub b.total).div_eq]
        omega
      have hafter : ((n : Int) - (index / 31 - b.total : Nat) - 1) = (n - (index / 31 - b.total) - 1 : Nat) := by
        omega
      have hlite : isFill x = false := by
        obtain ⟨init, -, rfl, -⟩ := view_eq_fill hview
        exact Iter.isFill_uniform init
      have hsplit := @split_spec b (index / 31 - b.total) (n - (index / 31 - b.total) - 1) x
        (change x ((1 : Word) <<< (index % 31))) hb
        (fun r hr hjoin => hhead r hr (by cases r <;> exact hjoin)) hw.2 (hchange.mixed x _ hj hw.2 hnot)
        (hchange.lite x _ hj hlite) (by omega)
      refine ⟨_, replicate (index / 31 - b.total) x, x, replicate (n - (index / 31 - b.total) - 1) x,
        ?_, hsplit.1, hcut, by rw [length_replicate]; omega, ?_⟩
      · unfold WAHVector.updateWord
        rw [if_neg (by simp), if_neg (by simp [hnot]), hshift]
        simp only [hbefore, hafter, Option.map_some, ne_eq, Nat.cast_eq_zero]
      · rw [hsplit.2, reverse_replicate, reverse_replicate]

/-- The loop of `set` and `clear` changes the block of the bit. -/
theorem updateFrom_spec (hchange : BlockChange change done) {index : Nat} (hindex : Exact index) (rem : Nat)
    {words : List Word} {b : Builder} (hcanon : Canonical Uniform (runs (b.copy words)))
    (hlt : b.total + (blocks words).length < 2 ^ 30) (hfirst : b.total ≤ index / 31)
    (hlast : index / 31 < b.total + (blocks words).length) :
    ∃ b', WAHVector.updateFrom change done index rem b (Iter.visits (31 * b.total) words) =
        some (Builder.fix b' rem) ∧ Canonical Uniform (runs b') ∧
      (blocks b').reverse =
        ((blocks b).reverse ++ blocks words).modify (index / 31) (change · ((1 : Word) <<< (index % 31))) := by
  induction words generalizing b with
  | nil =>
    have hzero : (blocks []).length = 0 := rfl
    omega
  | cons w words ih =>
    have hcopy : runs (b.copy (w :: words)) = (runs words).reverse ++ view w :: runs b := by
      rw [Builder.runs_copy, runs, map_cons, reverse_cons, append_assoc]
      rfl
    rw [Iter.blocks_cons, length_append] at hlt hlast
    have htotal := Builder.total_cons w b
    rw [Iter.visits]
    generalize hit : Iter.step (31 * b.total) w words = it
    have hi : it.i = 31 * b.total := by
      rw [← hit, Iter.step_eq]
      cases view w <;> rfl
    have hii : it.ii = 31 * b.total + 31 * (view w).expand.length := by
      rw [← hit, Iter.step_eq]
      cases view w <;> simp [times_eq, Run.expand]
    have hcur : it.cur = w :: words := by
      rw [← hit, Iter.step_eq]
      cases view w <;> rfl
    rw [WAHVector.updateFrom, hi, hii]
    by_cases hhere : index / 31 < b.total + (view w).expand.length
    · rw [if_neg (by omega)]
      rw [hcopy] at hcanon
      obtain ⟨hwords, hcanon', -⟩ := canonical_append.mp hcanon
      obtain ⟨b', as, x, bs, hbuilt, hcanon'', hexpand, hlen, hblocks⟩ :=
        @updateWord_spec change done b hchange index hindex w words hcanon' (by omega) hfirst hhere
      rw [hit] at hbuilt
      have hwords' : Canonical Uniform (runs words) := by
        have hreverse := hwords.reverse
        rwa [reverse_reverse] at hreverse
      have htotal' : b'.total + (blocks words).length < 2 ^ 30 := by
        have hlen' := congrArg List.length hexpand
        have hlen'' := congrArg List.length hblocks
        simp only [length_append, length_cons, length_reverse] at hlen' hlen''
        unfold Builder.total at hlt ⊢
        omega
      obtain ⟨hcanon₁, hblocks₁⟩ := Iter.pushTail_spec hcur hcanon'' hwords' htotal'
      refine ⟨it.pushTail b', by rw [hbuilt]; rfl, hcanon₁, ?_⟩
      have hsplit : (blocks b).reverse ++ blocks (w :: words) =
          ((blocks b).reverse ++ as) ++ x :: (bs ++ blocks words) := by
        rw [Iter.blocks_cons, hexpand]
        simp
      have hindex' : index / 31 = ((blocks b).reverse ++ as).length := by
        rw [length_append, length_reverse, ← hlen]
        rfl
      rw [hblocks₁, hblocks, hsplit, hindex', modify_append_cons]
      simp
    · rw [if_pos (by omega)]
      have hnext : it.copy b = w :: b := by
        rw [Iter.copy, hcur]
        rfl
      have hvisits : it.ii = 31 * Builder.total (w :: b) := by
        rw [hii, htotal]
        ring
      have hstay : Builder.copy (w :: b) words = b.copy (w :: words) := by
        simp [Builder.copy]
      obtain ⟨b', hrun, hcanon', hblocks⟩ := @ih (w :: b) (by rw [hstay]; exact hcanon)
        (by rw [htotal]; omega) (by rw [htotal]; omega) (by rw [htotal]; omega)
      rw [hnext, ← hii, hvisits]
      refine ⟨b', hrun, hcanon', ?_⟩
      have hmove : (blocks (w :: b)).reverse ++ blocks words = (blocks b).reverse ++ blocks (w :: words) := by
        have hpal : (view w).expand.reverse = (view w).expand := by cases view w <;> simp [Run.expand]
        rw [Iter.blocks_cons, Iter.blocks_cons, reverse_append, hpal, append_assoc]
      rw [hblocks, hmove]

/-- `set` and `clear` before `fix`: the bit is changed in its block. -/
theorem update_spec (hchange : BlockChange change done) {v : WAHVector} (hcanon : Canonical Uniform (runs v.words))
    (hlt : (blocks v.words).length < 2 ^ 30) {index : Nat} (hindex : Exact index)
    (hin : index / 31 < (blocks v.words).length) :
    ∃ b', WAHVector.update change done v index = some { v with words := Builder.fix b' v.rem } ∧
      Canonical Uniform (runs b') ∧
      (blocks b').reverse = (blocks v.words).modify (index / 31) (change · ((1 : Word) <<< (index % 31))) := by
  have hcopy : Builder.copy [] v.words = v.words.reverse := append_nil _
  obtain ⟨hreverse, -⟩ := reverse_spec hcanon rfl
  obtain ⟨b', hrun, hcanon', hblocks⟩ := @updateFrom_spec change done hchange index hindex v.rem v.words []
    (by rw [hcopy]; exact hreverse) (by change 0 + _ < _; omega) (Nat.zero_le _) (by change _ < 0 + _; omega)
  refine ⟨b', ?_, hcanon', hblocks⟩
  have hstart : 31 * Builder.total [] = 0 := rfl
  rw [hstart] at hrun
  unfold WAHVector.update
  rw [hrun, Option.map_some]

end Update

end Elm.Util.Wah
