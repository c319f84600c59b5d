import Elm.Util.WAHVectorBlocks

/-!
# The loops of `WAHVector`

What the iterators still have to visit, and the blocks that the loops of the operations push.
-/

namespace Elm.Util.Wah

open RunLength List

/-! ## Iterators -/

namespace Iter

/-- The blocks from the current one on. -/
def rest (it : Iter) : List Word :=
  match it.cur with
  | [] => []
  | _ :: words => replicate it.cnt it.val ++ blocks words

structure Good (it : Iter) : Prop where
  pos : it.cur ≠ [] → 0 < it.cnt
  lite : Wah.isFill it.val = false
  uniform : it.isFill → Uniform it.val
  single : ¬ it.isFill → it.cnt ≤ 1
  words : ∀ w ∈ it.cur.tail, (view w).Good Uniform

theorem isFill_uniform (init : Bool) : Wah.isFill (Wah.uniform init) = false := by
  cases init <;> rfl

theorem blocks_cons (w : Word) (words : List Word) : blocks (w :: words) = (view w).expand ++ blocks words := rfl

/-- What `step` reads of a word. -/
theorem step_eq (ii : Nat) (w : Word) (words : List Word) :
    step ii w words =
      match view w with
      | .fill n x => { isFill := true, val := x, cnt := n, i := ii, ii := ii + times n, cur := w :: words }
      | .lit x => { isFill := false, val := x, cnt := 1, i := ii, ii := ii + times 1, cur := w :: words } := by
  unfold step view
  by_cases hfill : Wah.isFill w = true
  · rw [if_pos hfill, if_pos hfill]
    rfl
  · rw [if_neg hfill, if_neg hfill]

theorem step_spec {w : Word} {words : List Word} (hgood : ∀ v ∈ w :: words, (view v).Good Uniform) (ii : Nat) :
    (step ii w words).Good ∧ (step ii w words).rest = blocks (w :: words) := by
  obtain ⟨hw, hwords⟩ := forall_mem_cons.mp hgood
  rw [step_eq, blocks_cons]
  cases hview : view w with
  | lit x =>
    obtain ⟨rfl, hlit⟩ := view_eq_lit hview
    refine ⟨⟨fun _ => Nat.one_pos, hlit, fun h => ?_, fun _ => Nat.le_refl 1, hwords⟩, rfl⟩
    cases h
  | fill n x =>
    obtain ⟨init, -, rfl, -⟩ := view_eq_fill hview
    rw [hview] at hw
    refine ⟨⟨fun _ => hw.1, isFill_uniform init, fun _ => hw.2, fun h => ?_, hwords⟩, rfl⟩
    exact absurd rfl h

theorem start_spec {words : List Word} (hgood : ∀ w ∈ words, (view w).Good Uniform) :
    (start words).Good ∧ (start words).rest = blocks words := by
  cases words with
  | nil =>
    refine ⟨⟨fun h => absurd rfl h, rfl, fun h => ?_, fun _ => Nat.zero_le 1, by simp [start]⟩, rfl⟩
    cases h
  | cons w words => exact step_spec hgood 0

variable {it : Iter}

theorem next_spec (hlite : Wah.isFill it.val = false) (huniform : it.isFill → Uniform it.val)
    (hsingle : ¬ it.isFill → it.cnt ≤ 1) (hwords : ∀ w ∈ it.cur.tail, (view w).Good Uniform) :
    it.next.Good ∧ it.next.rest = blocks it.cur.tail := by
  have hended : ({ it with cur := [] } : Iter).Good :=
    ⟨fun hne => absurd rfl hne, hlite, huniform, hsingle, by simp⟩
  unfold next
  split
  · rename_i hcur
    rw [hcur]
    exact ⟨hended, rfl⟩
  · rename_i hcur
    rw [hcur]
    exact ⟨hended, rfl⟩
  · rename_i w w' words hcur
    rw [hcur] at hwords ⊢
    exact step_spec hwords it.ii

theorem rest_eq_nil (h : it.Good) : it.ended ↔ it.rest = [] := by
  have hpos := h.pos
  unfold ended rest
  cases hcur : it.cur with
  | nil => simp
  | cons w words =>
    have hcnt : 0 < it.cnt := hpos (by simp [hcur])
    have hne : it.cnt ≠ 0 := Nat.pos_iff_ne_zero.mp hcnt
    simp [hne]

theorem Good.consume_spec (h : it.Good) (hcur : it.ended = false) {c : Nat} (hc : c ≤ it.cnt) :
    (it.consume c).Good ∧ it.rest = replicate c it.val ++ (it.consume c).rest := by
  have hne : it.cur ≠ [] := by
    rintro hnil
    rw [ended, hnil] at hcur
    cases hcur
  obtain ⟨w, words, hwords⟩ := exists_cons_of_ne_nil hne
  have hrest : it.rest = replicate it.cnt it.val ++ blocks words := by
    rw [rest, hwords]
  let it' : Iter := { it with cnt := it.cnt - c, i := it.i + times c }
  have hsingle : ¬ it'.isFill → it'.cnt ≤ 1 := fun hlit => (Nat.sub_le _ _).trans (h.single hlit)
  have htail : it'.cur.tail = words := by
    change it.cur.tail = words
    rw [hwords, tail_cons]
  by_cases hzero : it'.cnt = 0
  · obtain ⟨hgood, hnext⟩ := @next_spec it' h.lite h.uniform hsingle h.words
    have hconsume : it.consume c = it'.next := if_pos hzero
    have hall : c = it.cnt := by
      change it.cnt - c = 0 at hzero
      omega
    rw [hconsume, hnext, htail, hrest, hall]
    exact ⟨hgood, rfl⟩
  · have hconsume : it.consume c = it' := if_neg hzero
    have hrest' : it'.rest = replicate (it.cnt - c) it.val ++ blocks words := by
      change (match it.cur with | [] => [] | _ :: words => replicate (it.cnt - c) it.val ++ blocks words) = _
      rw [hwords]
    rw [hconsume, hrest', hrest, ← append_assoc, replicate_append_replicate, Nat.add_sub_cancel' hc]
    exact ⟨⟨fun _ => Nat.pos_of_ne_zero hzero, h.lite, h.uniform, hsingle, h.words⟩, rfl⟩

end Iter

/-! ## `doAnd`, `doOr` and `doReset` -/

/-- An operation on the blocks: it is done once for all the blocks of two fills. -/
structure BlockOp (op : Word → Word → Word) : Prop where
  lite : ∀ x y, isFill x = false → isFill y = false → isFill (op x y) = false
  uniform : ∀ x y, Uniform x → Uniform y → Uniform (op x y)

theorem length_lt_fuel (words : List Word) : (blocks words).length < WAHVector.fuel words := by
  unfold WAHVector.fuel
  induction words with
  | nil => exact Nat.one_pos
  | cons w words ih =>
    have hlen : (view w).expand.length ≤ (fillCount w).toNat + 1 := by
      unfold view
      split_ifs
      · simp [Run.expand]
      · simp [Run.expand]
    rw [Iter.blocks_cons, length_append, map_cons, sum_cons]
    omega

section Combine

variable {op : Word → Word → Word}

/-- The blocks pushed and the ones that are left to visit. -/
structure Combining (op : Word → Word → Word) (R : List Word) (k : Nat) (s : Iter × Iter × Builder) : Prop where
  good1 : s.1.Good
  good2 : s.2.1.Good
  left : s.1.rest.length = k
  same : s.2.1.rest.length = k
  canonical : Canonical Uniform (runs s.2.2)
  pushed : (blocks s.2.2).reverse ++ List.zipWith op s.1.rest s.2.1.rest = R

/-- `n` blocks of both iterators. -/
theorem Combining.turn {R : List Word} {k n : Nat} {i1 i2 : Iter} {b b' : Builder}
    (h : Combining op R k (i1, i2, b)) (hn : 0 < n) (hk : i1.ended = false) (hk2 : i2.ended = false)
    (hn1 : n ≤ i1.cnt) (hn2 : n ≤ i2.cnt) (hcanon : Canonical Uniform (runs b'))
    (hblocks : blocks b' = replicate n (op i1.val i2.val) ++ blocks b) :
    ∃ k', k' < k ∧ Combining op R k' (i1.consume n, i2.consume n, b') := by
  have hgood1 : i1.Good := h.good1
  have hgood2 : i2.Good := h.good2
  have hleft : i1.rest.length = k := h.left
  have hsame : i2.rest.length = k := h.same
  have hpushed : (blocks b).reverse ++ List.zipWith op i1.rest i2.rest = R := h.pushed
  obtain ⟨hgood1', hrest1⟩ := hgood1.consume_spec hk hn1
  obtain ⟨hgood2', hrest2⟩ := hgood2.consume_spec hk2 hn2
  rw [hrest1, length_append, length_replicate] at hleft
  rw [hrest2, length_append, length_replicate] at hsame
  have hlen : (i2.consume n).rest.length = (i1.consume n).rest.length := by omega
  refine ⟨(i1.consume n).rest.length, by omega, hgood1', hgood2', rfl, hlen, hcanon, ?_⟩
  change (blocks b').reverse ++ List.zipWith op (i1.consume n).rest (i2.consume n).rest = R
  rw [← hpushed, hrest1, hrest2, hblocks, zipWith_append (by simp), zipWith_replicate', reverse_append,
    reverse_replicate, append_assoc]

/-- What a loop has pushed when it ends. -/
def Combined (R : List Word) (r : Option Builder) : Prop :=
  ∃ b, r = some b ∧ Canonical Uniform (runs b) ∧ blocks b = R.reverse

theorem combineTurn_spec (hop : BlockOp op) {R : List Word} (hR : R.length < 2 ^ 30) {k : Nat}
    {s : Iter × Iter × Builder} (h : Combining op R k s) :
    (∃ s' k', WAHVector.combineTurn op s = .inl s' ∧ k' < k ∧ Combining op R k' s') ∨
      ∃ r, WAHVector.combineTurn op s = .inr r ∧ Combined R r := by
  obtain ⟨i1, i2, b⟩ := s
  have hleft : i1.rest.length = k := h.left
  have hsame : i2.rest.length = k := h.same
  have hpushed : (blocks b).reverse ++ List.zipWith op i1.rest i2.rest = R := h.pushed
  have hcanon : Canonical Uniform (runs b) := h.canonical
  have hended : i2.ended = i1.ended := by
    rw [Bool.eq_iff_iff, Iter.rest_eq_nil h.good2, Iter.rest_eq_nil h.good1, ← length_eq_zero_iff,
      ← length_eq_zero_iff, hleft, hsame]
  unfold WAHVector.combineTurn
  simp only [hended]
  by_cases hk : i1.ended = true
  · rw [if_pos hk]
    refine Or.inr ⟨some b, rfl, b, rfl, hcanon, ?_⟩
    have hnil : i1.rest = [] := (Iter.rest_eq_nil h.good1).mp hk
    rw [← hpushed, hnil, zipWith_nil_left, append_nil, reverse_reverse]
  · have hk1 : i1.ended = false := by simpa using hk
    have hk2 : i2.ended = false := hended.trans hk1
    have hne1 : i1.cur ≠ [] := fun hnil => hk (by rw [Iter.ended, hnil]; rfl)
    have hne2 : i2.cur ≠ [] := fun hnil => absurd hk2 (by rw [Iter.ended, hnil]; decide)
    have hpos1 : 0 < i1.cnt := h.good1.pos hne1
    have hpos2 : 0 < i2.cnt := h.good2.pos hne2
    have hlen1 := congrArg List.length (h.good1.consume_spec hk1 (Nat.le_refl _)).2
    have hlen2 := congrArg List.length (h.good2.consume_spec hk2 (Nat.le_refl _)).2
    have hlen := congrArg List.length hpushed
    simp only [length_append, length_replicate, length_reverse, length_zipWith] at hlen1 hlen2 hlen
    have htotal : Builder.total b + min i1.cnt i2.cnt < 2 ^ 30 := by
      unfold Builder.total
      omega
    rw [if_neg hk, if_neg hk]
    left
    split_ifs with hfills
    · -- two fills
      have huniform : Uniform (op i1.val i2.val) :=
        hop.uniform _ _ (h.good1.uniform hfills.1) (h.good2.uniform hfills.2)
      have hruns := @Builder.runs_pushFill b (min i1.cnt i2.cnt) (op i1.val i2.val ≠ 0) htotal
      rw [← eq_uniform huniform] at hruns
      have hmin : 0 < min i1.cnt i2.cnt := by omega
      obtain ⟨k', hlt, hcombining⟩ := h.turn hmin hk1 hk2 (Nat.min_le_left _ _) (Nat.min_le_right _ _)
        (by rw [hruns]; exact hcanon.pushFill hmin huniform) (by rw [blocks, hruns, expand_pushFill]; rfl)
      exact ⟨_, k', rfl, hlt, hcombining⟩
    · -- one block
      have hlite : isFill (op i1.val i2.val) = false := hop.lite _ _ h.good1.lite h.good2.lite
      have hruns := @Builder.runs_pushLite b _ hlite (by omega)
      obtain ⟨k', hlt, hcombining⟩ := h.turn Nat.one_pos hk1 hk2 hpos1 hpos2
        (by rw [hruns]; exact hcanon.push _) (by rw [blocks, hruns, expand_push]; rfl)
      exact ⟨_, k', rfl, hlt, hcombining⟩

/-- The loop ends, with the blocks of the operation. -/
theorem combine_spec (hop : BlockOp op) {ws1 ws2 : List Word} (hgood1 : ∀ w ∈ ws1, (view w).Good Uniform)
    (hgood2 : ∀ w ∈ ws2, (view w).Good Uniform) (hsame : (blocks ws2).length = (blocks ws1).length)
    (hlt : (blocks ws1).length < 2 ^ 30) :
    ∃ b, (Loop.run (WAHVector.combineTurn op) (WAHVector.fuel ws1)
        (Iter.start ws1, Iter.start ws2, [])).join = some b ∧
      Canonical Uniform (runs b) ∧ blocks b = (List.zipWith op (blocks ws1) (blocks ws2)).reverse := by
  obtain ⟨hstart1, hrest1⟩ := Iter.start_spec hgood1
  obtain ⟨hstart2, hrest2⟩ := Iter.start_spec hgood2
  let R := List.zipWith op (blocks ws1) (blocks ws2)
  have hR : R.length < 2 ^ 30 := by
    change (List.zipWith op (blocks ws1) (blocks ws2)).length < 2 ^ 30
    rw [length_zipWith]
    omega
  have hstart : Combining op R (blocks ws1).length (Iter.start ws1, Iter.start ws2, []) := by
    refine ⟨hstart1, hstart2, congrArg List.length hrest1, (congrArg List.length hrest2).trans hsame,
      canonical_nil, ?_⟩
    change [] ++ List.zipWith op (Iter.start ws1).rest (Iter.start ws2).rest = R
    rw [hrest1, hrest2]
    rfl
  obtain ⟨r, hrun, b, rfl, hcanon, hblocks⟩ := Loop.exists_run_eq_some (WAHVector.combineTurn op)
    (Combining op R) (Combined R) (fun k s h => combineTurn_spec hop hR h) _ _ _ hstart (length_lt_fuel ws1)
  exact ⟨b, by rw [hrun]; rfl, hcanon, hblocks⟩

end Combine

theorem blockOp_and : BlockOp (· &&& ·) where
  lite x y hx _ := by
    rw [isFill_eq_getLsbD] at hx ⊢
    rw [BitVec.getLsbD_and, hx, Bool.false_and]
  uniform x y hx hy := by rcases hx with rfl | rfl <;> rcases hy with rfl | rfl <;> decide

theorem blockOp_or : BlockOp (· ||| ·) where
  lite x y hx hy := by
    rw [isFill_eq_getLsbD] at hx hy ⊢
    rw [BitVec.getLsbD_or, hx, hy, Bool.false_or]
  uniform x y hx hy := by rcases hx with rfl | rfl <;> rcases hy with rfl | rfl <;> decide

theorem blockOp_reset : BlockOp fun x y => x &&& ~~~y where
  lite x y hx _ := by
    rw [isFill_eq_getLsbD] at hx ⊢
    rw [BitVec.getLsbD_and, hx, Bool.false_and]
  uniform x y hx hy := by rcases hx with rfl | rfl <;> rcases hy with rfl | rfl <;> decide

/-! ## `doNot` -/

/-- The other bits of a block. -/
def flip (x : Word) : Word := ~~~x &&& ALL_ONES

theorem flip_uniform {x : Word} (hx : Uniform x) : flip x = uniform (x = 0) := by
  rcases hx with rfl | rfl <;> rfl

theorem isFill_flip (x : Word) : isFill (flip x) = false := by
  have hones : ALL_ONES.getLsbD 31 = false := rfl
  rw [isFill_eq_getLsbD, flip, BitVec.getLsbD_and, hones, Bool.and_false]

/-- The body of the loop of `doNot`. -/
def notTurn (b : Builder) (it : Iter) : Builder :=
  if it.isFill then b.pushFill (fill it.cnt (it.val = 0)) else b.pushLite (flip it.val)

theorem notTurn_spec {b : Builder} (hcanon : Canonical Uniform (runs b)) {w : Word} (hw : (view w).Good Uniform)
    (hlt : b.total + (view w).expand.length < 2 ^ 30) (ii : Nat) (words : List Word) :
    Canonical Uniform (runs (notTurn b (Iter.step ii w words))) ∧
      blocks (notTurn b (Iter.step ii w words)) = ((view w).expand.map flip).reverse ++ blocks b := by
  rw [Iter.step_eq]
  cases hview : view w with
  | lit x =>
    rw [hview] at hlt
    have hruns := @Builder.runs_pushLite b (flip x) (isFill_flip x) hlt
    have hturn : runs (b.pushLite (flip x)) = push Uniform (flip x) (runs b) := hruns
    change Canonical Uniform (runs (b.pushLite (flip x))) ∧ expand (runs (b.pushLite (flip x))) = _
    rw [hturn]
    exact ⟨hcanon.push _, expand_push _ _⟩
  | fill n x =>
    rw [hview] at hw hlt
    simp only [Run.expand, length_replicate] at hlt
    have hruns := @Builder.runs_pushFill b n (x = 0) hlt
    rw [← flip_uniform hw.2] at hruns
    have huniform : Uniform (flip x) := by
      rw [flip_uniform hw.2]
      exact uniform_Uniform _
    change Canonical Uniform (runs (b.pushFill (fill n (x = 0)))) ∧
      expand (runs (b.pushFill (fill n (x = 0)))) = _
    rw [hruns]
    constructor
    · exact hcanon.pushFill hw.1 huniform
    · rw [expand_pushFill, Run.expand, map_replicate, reverse_replicate]
      rfl

theorem doNot_spec {words : List Word} (hgood : ∀ w ∈ words, (view w).Good Uniform) {b : Builder}
    (hcanon : Canonical Uniform (runs b)) (hlt : b.total + (blocks words).length < 2 ^ 30) (ii : Nat) :
    Canonical Uniform (runs ((Iter.visits ii words).foldl notTurn b)) ∧
      blocks ((Iter.visits ii words).foldl notTurn b) = ((blocks words).map flip).reverse ++ blocks b := by
  induction words generalizing b ii with
  | nil => exact ⟨hcanon, rfl⟩
  | cons w words ih =>
    obtain ⟨hw, hwords⟩ := forall_mem_cons.mp hgood
    rw [Iter.blocks_cons, length_append] at hlt
    obtain ⟨hcanon', hblocks⟩ := notTurn_spec hcanon hw (by omega) ii words
    have htotal : (notTurn b (Iter.step ii w words)).total = (view w).expand.length + b.total := by
      rw [Builder.total, hblocks, length_append, length_reverse, length_map]
      rfl
    obtain ⟨hcanon'', hblocks'⟩ := ih hwords hcanon' (by omega) (Iter.step ii w words).ii
    rw [Iter.visits, foldl_cons]
    refine ⟨hcanon'', ?_⟩
    rw [hblocks', hblocks, Iter.blocks_cons, map_append, reverse_append, append_assoc]

end Elm.Util.Wah
