import Elm.Util.WAHVectorHistory

/-!
# `set()` and `clear()` of `WAHVector`

The calls without index write a fill in the first word, and leave the other words.  The count of the fill is computed
from `_size`, the number of words, in place of the number of bits: it is the right one for a vector of one block only.
-/

namespace Elm.Util.Wah

open RunLength List Function Nat Option

namespace WAHVector

/-- `words[0] = fill(div(_size) + (rem ? 1 : 0), init)`; a vector without words has no first one. -/
def fillFirst (v : WAHVector) (init : Bool) : Option WAHVector :=
  match v.words with
  | [] => none
  | _ :: words => some { v with words := fill (div v.words.length + if v.rem ≠ 0 then 1 else 0) init :: words }

/-- `set(void)`. -/
def setAll (v : WAHVector) : Option WAHVector := v.fillFirst true

/-- `clear(void)`. -/
def clearAll (v : WAHVector) : Option WAHVector := v.fillFirst false

/-- `set(void)` or `clear(void)`. -/
def whole (v : WAHVector) (init : Bool) : Option WAHVector := if init then v.setAll else v.clearAll

/-- `set(int index, bool value)`. -/
def setTo (v : WAHVector) (index : Nat) (value : Bool) : Option WAHVector :=
  if value then v.set index else v.clear index

/-- The copy constructor and `copy`. -/
def copyOf (v : WAHVector) : WAHVector := { rem := v.rem, words := v.words }

theorem whole_eq (v : WAHVector) (init : Bool) : v.whole init = v.fillFirst init := by
  cases init <;> rfl

/-- The constructor without argument gives a vector without words. -/
theorem whole_default (init : Bool) : default.whole init = none := by
  cases init <;> rfl

end WAHVector

variable {n : Nat}

/-! ## Later operations -/

/-- A call of `set(index, value)`. -/
def call (v : WAHVector) (op : Fin n × Bool) : Option WAHVector := v.setTo op.1 op.2

/-- The array after the same calls. -/
def assigned (f : Fin n → Bool) (ops : List (Fin n × Bool)) : Fin n → Bool :=
  ops.foldl (fun f op => Function.update f op.1 op.2) f

/-- The vector has `n` bits, those of `f`, now and after any calls of `set` and `clear`. -/
def Behaves (v : WAHVector) (f : Fin n → Bool) : Prop :=
  ∀ ops : List (Fin n × Bool), ∃ v', Run.exec call v ops = some v' ∧ v'.size = n ∧
    ∀ i : Fin n, v'.bit i = some (assigned f ops i)

section Calls

variable {f : Fin n → Bool} {v : WAHVector}

/-- A call that meets the condition of `set_encodes` or of `clear_encodes`. -/
theorem call_encodes (hn : 0 < n) (hlt : n < 4638219) (hv : Encodes n v f) (op : Fin n × Bool)
    (hset : op.2 = true → Merges (Function.update f op.1 true) true → LastAll f true)
    (hclear : op.2 = false → n % 31 = 1 → Merges (Function.update f op.1 false) false → ¬ LastAll f true) :
    ∃ v', call v op = some v' ∧ Encodes n v' (Function.update f op.1 op.2) := by
  obtain ⟨i, value⟩ := op
  cases value with
  | true => exact set_encodes hn hlt hv i (hset rfl)
  | false => exact clear_encodes hn hlt hv i (hclear rfl)

/-- In a vector of one block nothing is in front of the incomplete one. -/
theorem not_merges (hsmall : n < 31) (f : Fin n → Bool) (b : Bool) : ¬ Merges f b := by
  rintro ⟨-, -, ⟨i, hi, -⟩, -⟩
  omega

theorem behaves_of_lt (hn : 0 < n) (hsmall : n < 31) (hv : Encodes n v f) : Behaves v f := by
  intro ops
  have hrun : ∃ v', Run.exec call v ops = some v' ∧ Encodes n v' (assigned f ops) := by
    induction ops generalizing v f with
    | nil => exact ⟨v, rfl, hv⟩
    | cons op ops ih =>
      obtain ⟨v₁, hcall, hv₁⟩ := call_encodes hn (by omega) hv op
        (fun _ hmerge => absurd hmerge (not_merges hsmall _ _))
        (fun _ _ hmerge => absurd hmerge (not_merges hsmall _ _))
      obtain ⟨v', hexec, hv'⟩ := ih hv₁
      exact ⟨v', Run.exec_cons_eq_some.mpr ⟨v₁, hcall, hexec⟩, hv'⟩
  obtain ⟨v', hexec, hv'⟩ := hrun
  exact ⟨v', hexec, size_encodes (by omega) hv', bit_encodes (by omega) hv'⟩

end Calls

/-! ## Where the encoding fails -/

theorem blocks_reverse (ws : List Word) : blocks ws.reverse = (blocks ws).reverse := by
  rw [blocks, blocks, runs, map_reverse, expand_reverse]
  rfl

theorem size_eq (v : WAHVector) : v.size =
    if v.rem ≠ 0 then ((31 * (blocks v.words).length : Nat) - (31 - (v.rem : Int))).bmod (2 ^ 32)
    else 31 * (blocks v.words).length := by
  unfold WAHVector.size
  rw [foldl_cnt, Nat.zero_add]
  simp only [times_eq, cast_mul, cast_ofNat]

/-- `fix` loses the last block when it takes the literal before it for a fill of ones. -/
theorem fix_swallows {rem : Nat} (hrem : rem ≠ 0) {b : Builder} (hcanon : Canonical Uniform (runs b))
    {last prev : Word} {bs : List Word} (hblocks : blocks b = last :: prev :: bs) (hlast : ¬ Uniform last)
    (hmask : last &&& mask rem = mask rem) (hne : mask rem ≠ 0) (hprev : ¬ Uniform prev) (hones : isOnes prev) :
    (blocks (b.fix rem)).length = bs.length + 1 := by
  have hlit : ∀ {w : Word} {b : Builder} {x : Word} {xs : List Word}, (view w).Good Uniform →
      blocks (w :: b) = x :: xs → ¬ Uniform x → w = x ∧ isFill w = false ∧ blocks b = xs := by
    intro w b x xs hgood hcons hx
    rw [blocks, runs, map_cons, expand_cons] at hcons
    cases hview : view w with
    | lit y =>
      obtain ⟨rfl, hfill⟩ := view_eq_lit hview
      rw [hview] at hcons
      injection hcons with hhead htail
      exact ⟨hhead, hfill, htail⟩
    | fill n y =>
      rw [hview] at hgood hcons
      obtain ⟨k, rfl⟩ := exists_eq_succ_of_ne_zero (Nat.pos_iff_ne_zero.mp hgood.1)
      injection hcons with hhead
      rw [← hhead] at hx
      exact absurd hgood.2 hx
  cases b with
  | nil => cases hblocks
  | cons w b =>
    obtain ⟨hw, -, hcanon'⟩ := canonical_cons.mp hcanon
    obtain ⟨rfl, hfill, hblocks'⟩ := hlit hw hblocks hlast
    cases b with
    | nil => cases hblocks'
    | cons w' b =>
      obtain ⟨rfl, hfill', rfl⟩ := hlit (canonical_cons.mp hcanon').1 hblocks' hprev
      have hlite : isLite w = true := by rw [isLite_eq, hfill]; rfl
      have hfix : Builder.fix (w :: w' :: b) rem = ((w' + 1) :: b).reverse := by
        rw [Builder.fix, if_pos ⟨hrem, hlite⟩]
        simp only [hmask]
        rw [if_neg hne, if_pos trivial, Builder.settle, if_pos hones]
      -- the literal that is incremented stays a literal
      have hnext : isFill (w' + 1) = false := by
        have hall : w'.toNat ≠ 2 ^ 31 - 1 := fun h => hprev (Or.inr (BitVec.eq_of_toNat_eq h))
        rw [isFill_eq, decide_eq_false_iff_not] at hfill' ⊢
        rw [BitVec.toNat_add]
        have hone : (1 : Word).toNat = 1 := rfl
        omega
      rw [hfix, blocks_reverse, length_reverse, Iter.blocks_cons, view_lite hnext, length_append,
        Nat.add_comm]
      rfl

theorem exists_last_two {α : Type*} {xs : List α} {k : Nat} (hlen : xs.length = k + 2) :
    ∃ last prev rest, xs = last :: prev :: rest ∧ rest.length = k ∧
      xs.reverse[k + 1]? = some last ∧ xs.reverse[k]? = some prev := by
  match xs, hlen with
  | last :: prev :: rest, hlen =>
    have hrest : rest.length = k := by simpa using hlen
    refine ⟨last, prev, rest, rfl, hrest, ?_, ?_⟩
    · rw [getElem?_reverse (by simp [hrest])]
      simp [hrest]
    · rw [getElem?_reverse (by simp; omega)]
      simp [hrest]

section Break

variable {f : Fin n → Bool} {v : WAHVector}

/-- A bit that completes with ones the block behind a literal that ends with a one. -/
theorem set_swallows (hlt : n < 4638219) (hv : Encodes n v f) (hrem : n % 31 ≠ 0) (hprev : 0 < n / 31) {i : Fin n}
    (hi : i.val / 31 = n / 31) (hnot : f i = false) (hall : LastAll (Function.update f i true) true)
    (hends : PrevEnds f true) : ∃ v', v.set i = some v' ∧ v'.size ≠ n := by
  have hmod : n % 31 < 31 := mod_lt _ (by decide)
  have hlen := hv.packs.length
  obtain ⟨b', hrun, hcanon, hraw⟩ := @update_spec _ _ blockChange_set v hv.canonical (by omega) i.val
    (.of_lt (by omega)) (by omega)
  have hpacks : Packs n (blocks b').reverse (Function.update f i true) := by
    rw [hraw]
    exact hv.packs.modify i (fun x hx => blockChange_set.lite x _ (mod_lt _ (by decide)) hx)
      fun x j _ => Bits.getLsbD_set_bit x (by omega)
  have hlen' := hpacks.length
  rw [length_reverse] at hlen'
  obtain ⟨last, prev, bs, hblocks, hbs, hlast, hbefore⟩ :=
    exists_last_two (show (blocks b').length = n / 31 - 1 + 2 by omega)
  have hlastIndex : n / 31 - 1 + 1 = n / 31 := by omega
  rw [hlastIndex] at hlast
  have hmask : last &&& mask (n % 31) = mask (n % 31) :=
    (and_mask_eq_mask_iff hmod).mpr ((hpacks.lastAll_iff hlast true).mp hall)
  have hne : mask (n % 31) ≠ 0 := mask_ne_zero (Nat.pos_of_ne_zero hrem) hmod
  -- the bits behind the end are zeroes, as before the call
  have hmixed : ¬ Uniform last := by
    obtain ⟨p, hpad, hp⟩ := hv.pad hrem
    have hpfalse : p = false := by
      rw [← Bool.not_eq_true, hp]
      intro hones
      exact absurd (hones i hi) (by rw [hnot]; decide)
    rintro (rfl | rfl)
    · exact hne (by rw [← hmask]; exact BitVec.zero_and)
    · rw [hraw, getElem?_modify] at hlast
      obtain ⟨x, hx, hchange⟩ := map_eq_some_iff.mp hlast
      have hbit := hpad x hx 30 (by decide) (by omega)
      rw [if_pos hi] at hchange
      have hbit' := congrArg (fun w : Word => w.getLsbD 30) hchange
      have hset : (x ||| (1 : Word) <<< (i.val % 31)).getLsbD 30 = if 30 = i.val % 31 then true else x.getLsbD 30 :=
        Bits.getLsbD_set_bit x (by omega)
      rw [hset, if_neg (by omega), hbit, hpfalse] at hbit'
      exact absurd hbit' (by decide)
  have hprevlite : isFill prev = false := hpacks.lite prev (mem_of_getElem? hbefore)
  have hprevbit : ∀ k : Fin n, k.val / 31 + 1 = n / 31 → prev.getLsbD (k.val % 31) = f k := by
    intro k hk
    have hbit := hpacks.bits k
    have hq : k.val / 31 = n / 31 - 1 := by omega
    have hki : k ≠ i := by
      rintro rfl
      omega
    rw [hq, hbefore, update_of_ne hki] at hbit
    exact some.inj hbit
  obtain ⟨⟨k, hk, hkne⟩, hend⟩ := hends
  have hones : isOnes prev = true := by
    let e : Fin n := ⟨n / 31 * 31 - 1, by omega⟩
    have he : e.val = n / 31 * 31 - 1 := rfl
    have hbit := hprevbit e (by omega)
    have hmod30 : e.val % 31 = 30 := by omega
    rw [isOnes_eq_getLsbD, ← hmod30, hbit]
    exact hend e (by omega)
  have hprevmixed : ¬ Uniform prev := by
    rintro (rfl | rfl)
    · exact absurd hones (by decide)
    · have hbit := (eq_ALL_ONES_iff hprevlite).mp rfl (k.val % 31) (mod_lt _ (by decide))
      rw [hprevbit k hk] at hbit
      exact hkne hbit
  have hsize := fix_swallows hrem hcanon hblocks hmixed hmask hne hprevmixed hones
  refine ⟨_, hrun, ?_⟩
  rw [size_eq, hv.rem, if_pos hrem, hsize]
  have hshort : ((31 * (bs.length + 1) : Nat) : Int) - (31 - (n % 31 : Nat)) = n - 31 := by omega
  rw [hshort, Int.bmod_eq_of_le (by omega) (by omega)]
  omega

/-- The vector after a call is one on which the next calls behave. -/
theorem Behaves.call (h : Behaves v f) (op : Fin n × Bool) {v' : WAHVector} (hcall : call v op = some v') :
    Behaves v' (Function.update f op.1 op.2) := by
  intro ops
  obtain ⟨w, hexec, hsize, hbits⟩ := h (op :: ops)
  obtain ⟨v₁, hcall', hexec'⟩ := Run.exec_cons_eq_some.mp hexec
  obtain rfl := some.inj (hcall.symm.trans hcall')
  exact ⟨w, hexec', hsize, hbits⟩

/-- Bits set while one of the incomplete block is a zero. -/
theorem sets_encodes (hn : 0 < n) (hlt : n < 4638219) {i : Fin n} (hi : i.val / 31 = n / 31) (js : List (Fin n))
    (hv : Encodes n v f) (hbehaves : Behaves v f) (hzero : f i = false) (hjs : i ∉ js) :
    ∃ v' f', Encodes n v' f' ∧ Behaves v' f' ∧ ∀ k, f' k = (f k || decide (k ∈ js)) := by
  induction js generalizing v f with
  | nil => exact ⟨v, f, hv, hbehaves, fun k => by simp⟩
  | cons j js ih =>
    obtain ⟨hij, hjs⟩ := not_or.mp (mem_cons.not.mp hjs)
    have hstay : Function.update f j true i = false := by rw [update_of_ne hij, hzero]
    obtain ⟨v₁, hcall, hv₁⟩ := set_encodes hn hlt hv j fun hmerge => by
      have hone := hmerge.2.1 i hi
      rw [hstay] at hone
      exact absurd hone (by decide)
    obtain ⟨v', f', hv', hbehaves', hf'⟩ := ih hv₁ (hbehaves.call (j, true) hcall) hstay hjs
    refine ⟨v', f', hv', hbehaves', fun k => ?_⟩
    rw [hf' k]
    by_cases hk : k = j
    · subst hk
      simp
    · simp [hk]

/-- Calls that go wrong on every vector of several blocks of which the last one is not complete. -/
theorem Encodes.not_behaves (hv : Encodes n v f) (hlt : n < 4638219) (hrem : n % 31 ≠ 0) (hprev : 0 < n / 31) :
    ¬ Behaves v f := by
  intro hbehaves
  have hn : 0 < n := by omega
  let i : Fin n := ⟨n / 31 * 31, by omega⟩
  let e : Fin n := ⟨n / 31 * 31 - 1, by omega⟩
  let s : Fin n := ⟨n / 31 * 31 - 31, by omega⟩
  have hi : i.val = n / 31 * 31 := rfl
  have he : e.val = n / 31 * 31 - 1 := rfl
  have hs : s.val = n / 31 * 31 - 31 := rfl
  have hei : e ≠ i := fun h => by
    have := congrArg Fin.val h
    omega
  have hes : e ≠ s := fun h => by
    have := congrArg Fin.val h
    omega
  have his : i ≠ s := fun h => by
    have := congrArg Fin.val h
    omega
  -- a one ends the block before, then a zero is in the incomplete one
  obtain ⟨v₁, hcall₁, hv₁⟩ := set_encodes hn hlt hv e fun hmerge => (lastAll_update (by omega)).mp hmerge.2.1
  have hbehaves₁ := hbehaves.call (e, true) hcall₁
  have hnotends : ∀ {g : Fin n → Bool}, g e = true → ¬ Merges g false := by
    intro g hg hmerge
    have hfalse := hmerge.2.2.2 e (by omega)
    rw [hg] at hfalse
    exact absurd hfalse (by decide)
  obtain ⟨v₂, hcall₂, hv₂⟩ := clear_encodes hn hlt hv₁ i fun _ hmerge =>
    absurd hmerge (hnotends (by rw [update_of_ne hei, update_self]))
  have hbehaves₂ := hbehaves₁.call (i, false) hcall₂
  obtain ⟨v₃, hcall₃, hv₃⟩ := clear_encodes hn hlt hv₂ s fun _ hmerge => absurd hmerge (hnotends (by
    rw [update_of_ne hes, update_of_ne hei, update_self]))
  have hbehaves₃ := hbehaves₂.call (s, false) hcall₃
  simp only at hbehaves₃
  generalize hg : Function.update (Function.update (Function.update f e true) i false) s false = g at hv₃ hbehaves₃
  have hgi : g i = false := by rw [← hg, update_of_ne his, update_self]
  have hge : g e = true := by
    rw [← hg, update_of_ne hes, update_of_ne hei, update_self]
  have hgs : g s = false := by rw [← hg, update_self]
  -- the other bits of the incomplete block
  obtain ⟨v₄, g', hv₄, hbehaves₄, hg'⟩ := sets_encodes hn hlt (by omega)
    ((List.finRange n).filter fun k => i.val < k.val) hv₃ hbehaves₃ hgi (by simp)
  have hg'' : ∀ k, g' k = (g k || decide (i.val < k.val)) := by
    intro k
    simp [hg' k]
  have hall : LastAll (Function.update g' i true) true := by
    intro k hk
    by_cases hki : k = i
    · rw [hki, update_self]
    · have hlt' : i.val < k.val := by
        have hne : k.val ≠ i.val := fun h => hki (Fin.ext h)
        omega
      rw [update_of_ne hki, hg'', decide_eq_true hlt', Bool.or_true]
  have hends : PrevEnds g' true := by
    refine ⟨⟨s, by omega, ?_⟩, fun k hk => ?_⟩
    · rw [hg'', hgs, decide_eq_false (by omega)]
      decide
    · have hke : k = e := Fin.ext (by omega)
      rw [hke, hg'', hge, Bool.true_or]
  have hgi' : g' i = false := by rw [hg'', hgi, decide_eq_false (by omega), Bool.or_false]
  obtain ⟨v₅, hset, hsize⟩ := set_swallows hlt hv₄ hrem hprev (by omega) hgi' hall hends
  obtain ⟨v', hexec, hsize', -⟩ := hbehaves₄.call (i, true) hset []
  obtain rfl := some.inj hexec
  exact hsize hsize'

end Break

/-! ## `set()` and `clear()` on a vector -/

/-- A canonical encoding of equal blocks has one word at most. -/
theorem runs_eq_of_replicate {ws : List Word} (hcanon : Canonical Uniform (runs ws)) {k : Nat} {init : Bool}
    (hblocks : blocks ws = replicate k (uniform init)) (hlt : k < 2 ^ 30) :
    ws = [] ∨ 0 < k ∧ ws = [fill k init] := by
  rcases Nat.eq_zero_or_pos k with rfl | hk
  · have hruns := hcanon.eq_of_expand canonical_nil hblocks
    exact Or.inl (List.map_eq_nil_iff.mp hruns)
  · have hsingle : Canonical Uniform [Run.fill k (uniform init)] :=
      canonical_cons.mpr ⟨⟨hk, uniform_Uniform init⟩, by simp, canonical_nil⟩
    have hruns : runs ws = runs [fill k init] := by
      rw [hcanon.eq_of_expand hsingle (by rw [expand_cons, expand_nil, append_nil]; exact hblocks)]
      simp only [runs, map_cons, map_nil, view_fill hlt init]
    exact Or.inr ⟨hk, map_injective_iff.mpr view_injective hruns⟩

theorem length_le_blocks {ws : List Word} (hgood : ∀ r ∈ runs ws, r.Good Uniform) :
    ws.length ≤ (blocks ws).length := by
  induction ws with
  | nil => exact Nat.le_refl _
  | cons w ws ih =>
    obtain ⟨hw, hws⟩ := forall_mem_cons.mp hgood
    have hpos := length_pos_iff.mpr hw.expand_ne_nil
    have hrest := ih hws
    rw [Iter.blocks_cons, length_append, length_cons]
    omega

theorem div_le (v : Nat) : div v ≤ v := by
  unfold div
  omega

section Whole

variable {f : Fin n → Bool} {v : WAHVector}

/-- On a vector of one block, the word becomes the one of a new vector. -/
theorem whole_of_lt (hn : 0 < n) (hsmall : n < 31) (hv : Encodes n v f) (init : Bool) :
    v.whole init = some (WAHVector.new n init) := by
  have hlen := hv.packs.length
  have hle := length_le_blocks hv.canonical.good
  obtain ⟨rem, words⟩ := v
  cases words with
  | nil =>
    change 0 = _ at hlen
    omega
  | cons w words =>
    have hblock : (n + 30) / 31 = 1 := by omega
    rw [hlen, hblock, length_cons] at hle
    obtain rfl := length_eq_zero_iff.mp (show words.length = 0 by omega)
    have hrem : rem = n % 31 := hv.rem
    have hone : div 1 = 0 := by decide
    rw [WAHVector.whole_eq, new_eq (by omega), hblock, WAHVector.fillFirst, hrem]
    simp only [length_singleton, hone]
    rw [if_pos (by omega)]
    rfl

/-- A call on the first block, which is a fill of its own. -/
theorem fills_encodes (hlt : n < 4638219) (hblock : n / 31 ≠ 0) (hrem : n % 31 ≠ 0) {change : Word → Word → Word}
    {done : Word → Bool} {init : Bool} (hchange : BlockChange change done)
    (hbit : ∀ x, ∀ j < 31, (change x 1).getLsbD j = if j = 0 then !init else x.getLsbD j) {i : Fin n}
    (hi : i.val = 0) :
    ∃ v, WAHVector.update change done { rem := n % 31, words := [fill (1 : Nat) init, fill (n / 31 : Nat) init] }
        i = some v ∧ Encodes n v (Function.update (fun _ => init) i (!init)) := by
  have hn : 0 < n := by omega
  have hview : view (fill (1 : Nat) init) = .fill 1 (uniform init) := view_fill (by omega) init
  have hview' : view (fill (n / 31 : Nat) init) = .fill (n / 31) (uniform init) := view_fill (by omega) init
  have hblocks : blocks [fill (n / 31 : Nat) init] = replicate (n / 31) (uniform init) := by
    rw [Iter.blocks_cons, hview']
    exact append_nil _
  have hwords : Canonical Uniform (runs [fill (n / 31 : Nat) init]) := by
    rw [runs, map_singleton, hview']
    exact canonical_cons.mpr ⟨⟨by omega, uniform_Uniform init⟩, by simp, canonical_nil⟩
  have hcanon : Canonical Uniform (view (fill (1 : Nat) init) :: runs []) := by
    rw [hview]
    exact canonical_cons.mpr ⟨⟨by omega, uniform_Uniform init⟩, by rintro r ⟨⟩, canonical_nil⟩
  have htotal : Builder.total [] = 0 := rfl
  obtain ⟨b, as, x, bs, hbuilt, hcanon', hexpand, hlen, hb⟩ :=
    @updateWord_spec change done [] hchange i.val (.of_lt (by omega)) _ [fill (n / 31 : Nat) init] hcanon
      (by rw [hview, htotal]; simp [Run.expand]) (by omega) (by rw [hview, htotal]; simp [Run.expand]; omega)
  rw [htotal, hi] at hlen
  obtain rfl := length_eq_zero_iff.mp (show as.length = 0 by omega)
  rw [hview] at hexpand
  obtain ⟨rfl, rfl⟩ := List.cons.inj hexpand
  have hcur : (Iter.step 0 (fill (1 : Nat) init) [fill (n / 31 : Nat) init]).cur =
      fill (1 : Nat) init :: [fill (n / 31 : Nat) init] := by
    rw [Iter.step_eq, hview]
  have hb' : blocks b = [change (uniform init) 1] := by
    rw [hb, hi]
    rfl
  obtain ⟨hcanon₁, hblocks₁⟩ := Iter.pushTail_spec hcur hcanon' hwords (by
    rw [Builder.total, hb', hblocks, length_replicate, length_singleton]
    omega)
  rw [hblocks, hb', reverse_replicate] at hblocks₁
  have hraw : (blocks (Iter.pushTail (Iter.step 0 (fill (1 : Nat) init) [fill (n / 31 : Nat) init]) b)).reverse =
      change (uniform init) 1 :: replicate (n / 31) (uniform init) := by
    rw [hblocks₁, reverse_append, reverse_replicate]
    rfl
  have hstart : 31 * Builder.total [] = 0 := rfl
  rw [hstart] at hbuilt
  refine ⟨_, ?_, fix_encodes hn hlt hcanon₁ ?_ fun _ => ⟨init, ?_, fun b' hmerge => ?_⟩⟩
  · rw [WAHVector.update, Iter.visits, WAHVector.updateFrom, if_neg, hbuilt]
    · rfl
    · rw [Iter.step_eq, hview, hi]
      simp [times_eq]
  · -- as on a new vector
    have hpacks := (new_encodes hn hlt init).packs
    have hcount : (n + 30) / 31 = n / 31 + 1 := by omega
    have hall : blocks [fill (n / 31 + 1 : Nat) init] = uniform init :: replicate (n / 31) (uniform init) := by
      rw [Iter.blocks_cons, view_fill (by omega)]
      exact append_nil _
    rw [new_eq hlt init, hcount, hall] at hpacks
    have hmodify : Packs n ((uniform init :: replicate (n / 31) (uniform init)).modify (i.val / 31)
        fun x => change x 1) (Function.update (fun _ => init) i (!init)) :=
      hpacks.modify i (fun x => hchange.lite x 0 (by decide)) fun x j hj => by rw [hbit x j hj, hi]
    rw [hi] at hmodify
    rw [hraw]
    exact hmodify
  · rw [hraw]
    intro x hx j hj hle
    obtain ⟨k, hk⟩ := exists_eq_succ_of_ne_zero hblock
    rw [hk, getElem?_cons_succ, getElem?_replicate, if_pos (by omega)] at hx
    obtain rfl := some.inj hx
    exact (eq_uniform_iff (Iter.isFill_uniform init) init).mp rfl j hj
  · obtain ⟨k, -, hk⟩ := exists_lastAll hrem ((lastAll_update (by omega)).mp hmerge.2.1)
    exact hk.symm

/-- The blocks behind a first word that is replaced by a fill of as many blocks, if all the bits are equal. -/
theorem rest_uniform {rem c : Nat} {w : Word} {words : List Word} {init : Bool} (hlt : n < 4638219)
    (hv : Encodes n { rem, words := w :: words } f) (hcount : c = (view w).expand.length) (hc : c < 2 ^ 30)
    (hbits : ∀ i : Fin n, WAHVector.bit { rem, words := fill (c : Nat) init :: words } i = some init) :
    blocks words = replicate (blocks words).length (uniform init) := by
  have hlen := hv.packs.length
  have hblocks : blocks (fill (c : Nat) init :: words) = replicate c (uniform init) ++ blocks words := by
    rw [Iter.blocks_cons, view_fill hc]
    rfl
  simp only [Iter.blocks_cons, length_append] at hlen
  rw [eq_replicate_iff]
  refine ⟨rfl, fun x hx => ?_⟩
  obtain ⟨k, hk⟩ := mem_iff_getElem?.mp hx
  have hklt := (List.getElem?_eq_some_iff.mp hk).1
  have hblock : (blocks (w :: words))[c + k]? = some x := by
    rw [Iter.blocks_cons, getElem?_append_right (by omega), hcount, Nat.add_sub_cancel_left, hk]
  have hlite := hv.packs.lite x (mem_of_getElem? hblock)
  have hbit : ∀ j, j < 31 → 31 * (c + k) + j < n → x.getLsbD j = init := by
    intro j hj hjn
    have hread := hbits ⟨31 * (c + k) + j, hjn⟩
    have hq : (31 * (c + k) + j) / 31 = c + k := by omega
    have hr : (31 * (c + k) + j) % 31 = j := by omega
    have hin : (31 * (c + k) + j) / 31 < (blocks (fill (c : Nat) init :: words)).length := by
      rw [hq, hblocks, length_append, length_replicate]
      omega
    rw [bit_eq (.of_lt (by simp only; omega)) hin] at hread
    simp only [hblocks, hq, hr] at hread
    rw [getElem?_append_right (by rw [length_replicate]; omega), length_replicate,
      Nat.add_sub_cancel_left, hk] at hread
    exact some.inj hread
  by_cases hlast : c + k = n / 31
  · -- the bits behind the end follow the others
    have hrem : n % 31 ≠ 0 := by omega
    rw [norm_eq_uniform_iff (Nat.pos_of_ne_zero hrem) (mod_lt _ (by decide))
      (hv.last hrem x (by rw [← hlast]; exact hblock))]
    exact fun j hj => hbit j (by omega) (by omega)
  · rw [eq_uniform_iff hlite]
    exact fun j hj => hbit j hj (by omega)

/-- On several blocks, the result is wrong, or a later call is. -/
theorem lt_of_behaves (hn : 0 < n) (hlt : n < 4638219) (hv : Encodes n v f) {init : Bool} {v' : WAHVector}
    (hwhole : v.whole init = some v') (hbehaves : Behaves v' fun _ : Fin n => init) : n < 31 := by
  by_contra hlarge
  have hlen := hv.packs.length
  obtain ⟨w', hexec, hsize, hbits⟩ := hbehaves []
  obtain rfl := some.inj hexec
  obtain ⟨rem, words⟩ := v
  have hrem : rem = n % 31 := hv.rem
  subst hrem
  cases words with
  | nil =>
    rw [WAHVector.whole_eq] at hwhole
    cases hwhole
  | cons w words =>
    obtain ⟨hw, -, hcanon⟩ := canonical_cons.mp hv.canonical
    have hlength := length_le_blocks hcanon.good
    have hpos := length_pos_iff.mpr hw.expand_ne_nil
    simp only [Iter.blocks_cons, length_append] at hlen
    have hdiv := div_le (words.length + 1)
    -- the fill of the call
    generalize hc : (div (words.length + 1) + if n % 31 ≠ 0 then 1 else 0) = c
    have hcle : c ≤ words.length + 2 := by
      rw [← hc]
      split_ifs <;> omega
    have hv' : v' = { rem := n % 31, words := fill (c : Nat) init :: words } := by
      rw [WAHVector.whole_eq, WAHVector.fillFirst] at hwhole
      rw [← some.inj hwhole, ← hc]
      simp only [length_cons, cast_add, cast_ite, cast_one, cast_zero]
    subst hv'
    have hview : view (fill (c : Nat) init) = .fill c (uniform init) := view_fill (by omega) init
    have hblocks : blocks (fill (c : Nat) init :: words) = replicate c (uniform init) ++ blocks words := by
      rw [Iter.blocks_cons, hview]
      rfl
    have hcount : c = (view w).expand.length := by
      rw [size_eq] at hsize
      simp only [hblocks, length_append, length_replicate] at hsize
      split_ifs at hsize
      · rw [Int.bmod_eq_of_le (by omega) (by omega)] at hsize
        omega
      · omega
    -- the other words are one fill
    have huniform := rest_uniform hlt hv hcount (by omega) hbits
    have hsmall : words.length ≤ 1 ∧ (words ≠ [] → words = [fill (blocks words).length init]) := by
      rcases runs_eq_of_replicate hcanon huniform (by omega) with hnil | ⟨-, hsingle⟩
      · exact ⟨by rw [hnil]; decide, fun hne => absurd hnil hne⟩
      · have hone := congrArg List.length hsingle
        exact ⟨by rw [hone]; simp, fun _ => hsingle⟩
    have hdiv : div (words.length + 1) = 0 := by
      obtain ⟨hle, -⟩ := hsmall
      unfold div
      omega
    rw [hdiv] at hc
    have hrem : n % 31 ≠ 0 := by
      intro hzero
      rw [if_neg (by simp [hzero])] at hc
      omega
    rw [if_pos hrem] at hc
    have hlong : (blocks words).length = n / 31 := by omega
    have hwords : words = [fill (n / 31 : Nat) init] := by
      rw [← hlong]
      apply hsmall.2
      rintro rfl
      have hzero : (blocks []).length = 0 := rfl
      omega
    rw [← hc, Nat.zero_add, hwords] at hbehaves
    let i : Fin n := ⟨0, hn⟩
    have hstep : ∃ v₁, call { rem := n % 31, words := [fill (1 : Nat) init, fill (n / 31 : Nat) init] } (i, !init) =
        some v₁ ∧ Encodes n v₁ (Function.update (fun _ => init) i (!init)) := by
      cases init with
      | true =>
        have hbit : ∀ x : Word, ∀ j < 31, (x &&& ~~~((1 : Word) <<< 0)).getLsbD j =
            if j = 0 then !true else x.getLsbD j :=
          fun x j _ => Bits.getLsbD_clear_bit x (by omega)
        exact fills_encodes hlt (by omega) hrem blockChange_clear hbit rfl
      | false =>
        have hbit : ∀ x : Word, ∀ j < 31, (x ||| (1 : Word) <<< 0).getLsbD j =
            if j = 0 then !false else x.getLsbD j :=
          fun x j _ => Bits.getLsbD_set_bit x (by omega)
        exact fills_encodes hlt (by omega) hrem blockChange_set hbit rfl
    obtain ⟨v₁, hcall, hv₁⟩ := hstep
    exact hv₁.not_behaves hlt hrem (by omega) (hbehaves.call _ hcall)

end Whole

/-! ## Sessions -/

/-- How a vector of `n` bits is built, with the calls on the whole vector and the copies. -/
inductive Session (n : Nat) where
  | new (init : Bool)
  | set (h : Session n) (i : Fin n)
  | clear (h : Session n) (i : Fin n)
  | apply (op : Op) (h vec : Session n)
  | applyNot (h : Session n)
  | make (op : Op) (h vec : Session n)
  | makeNot (h : Session n)
  | whole (h : Session n) (init : Bool)
  | copyOf (h : Session n)

namespace Session

/-- The vector that the program has; nothing when an assertion fails. -/
def eval : Session n → Option WAHVector
  | .new init => some (WAHVector.new n init)
  | .set h i => h.eval.bind fun v => v.set i
  | .clear h i => h.eval.bind fun v => v.clear i
  | .apply op h vec => h.eval.bind fun v => vec.eval.bind fun w => op.run v v w
  | .applyNot h => h.eval.map fun v => WAHVector.doNot v v
  | .make op h vec => h.eval.bind fun v => vec.eval.bind fun w => op.run WAHVector.default v w
  | .makeNot h => h.eval.map fun v => WAHVector.doNot WAHVector.default v
  | .whole h init => h.eval.bind fun v => v.whole init
  | .copyOf h => h.eval.map WAHVector.copyOf

/-- The array of booleans after the same operations. -/
def bits : Session n → Fin n → Bool
  | .new init => fun _ => init
  | .set h i => Function.update h.bits i true
  | .clear h i => Function.update h.bits i false
  | .apply op h vec => fun i => op.bit (h.bits i) (vec.bits i)
  | .applyNot h => fun i => !h.bits i
  | .make op h vec => fun i => op.bit (h.bits i) (vec.bits i)
  | .makeNot h => fun i => !h.bits i
  | .whole _ init => fun _ => init
  | .copyOf h => h.bits

/-- The history that gives the same vector: a call on the whole vector gives a new one. -/
def plain : Session n → History n
  | .new init => .new init
  | .set h i => .set h.plain i
  | .clear h i => .clear h.plain i
  | .apply op h vec => .apply op h.plain vec.plain
  | .applyNot h => .applyNot h.plain
  | .make op h vec => .make op h.plain vec.plain
  | .makeNot h => .makeNot h.plain
  | .whole _ init => .new init
  | .copyOf h => h.plain

/-- The steps that `WAHVector` does well. -/
def Meets : Session n → Prop
  | .new _ => n < 4638219
  | .set h i => h.Meets ∧ (Merges (Function.update h.bits i true) true → LastAll h.bits true)
  | .clear h i =>
    h.Meets ∧ (n % 31 = 1 → Merges (Function.update h.bits i false) false → ¬ LastAll h.bits true)
  | .apply op h vec => h.Meets ∧ vec.Meets ∧ History.OpMeets op h.bits vec.bits
  | .applyNot h => h.Meets
  | .make op h vec => n % 31 = 0 ∧ h.Meets ∧ vec.Meets ∧ History.OpMeets op h.bits vec.bits
  | .makeNot h => n % 31 = 0 ∧ h.Meets
  | .whole h _ => h.Meets ∧ n < 31
  | .copyOf h => h.Meets

theorem bits_eq : ∀ h : Session n, h.bits = h.plain.bits
  | .new _ => rfl
  | .set h i => by rw [bits, bits_eq h, plain, History.bits]
  | .clear h i => by rw [bits, bits_eq h, plain, History.bits]
  | .apply op h vec => by rw [bits, bits_eq h, bits_eq vec, plain, History.bits]
  | .applyNot h => by rw [bits, bits_eq h, plain, History.bits]
  | .make op h vec => by rw [bits, bits_eq h, bits_eq vec, plain, History.bits]
  | .makeNot h => by rw [bits, bits_eq h, plain, History.bits]
  | .whole _ _ => rfl
  | .copyOf h => bits_eq h

theorem plain_meets : ∀ {h : Session n}, h.Meets → h.plain.Meets
  | .new _, hm => hm
  | .set h i, ⟨hm, hstep⟩ => ⟨plain_meets hm, by rw [← bits_eq h]; exact hstep⟩
  | .clear h i, ⟨hm, hstep⟩ => ⟨plain_meets hm, by rw [← bits_eq h]; exact hstep⟩
  | .apply op h vec, ⟨hm, hm', hstep⟩ =>
    ⟨plain_meets hm, plain_meets hm', by rw [← bits_eq h, ← bits_eq vec]; exact hstep⟩
  | .applyNot h, hm => @plain_meets h hm
  | .make op h vec, ⟨hrem, hm, hm', hstep⟩ =>
    ⟨hrem, plain_meets hm, plain_meets hm', by rw [← bits_eq h, ← bits_eq vec]; exact hstep⟩
  | .makeNot h, ⟨hrem, hm⟩ => ⟨hrem, plain_meets hm⟩
  | .whole _ _, ⟨_, hsmall⟩ => show n < 4638219 by omega
  | .copyOf h, hm => @plain_meets h hm

/-- On a vector of one block, or without bit. -/
theorem whole_eq_new {h : History n} (hm : h.Meets) (hsmall : n < 31) {v : WAHVector} (heval : h.eval = some v)
    (init : Bool) : v.whole init = some (WAHVector.new n init) := by
  by_cases hn : n = 0
  · subst hn
    obtain ⟨x, hzero⟩ := History.eval_zero h
    obtain rfl := some.inj (heval.symm.trans hzero)
    cases x <;> cases init <;> rfl
  · obtain ⟨w, heval', henc⟩ := History.eval_encodes (Nat.pos_of_ne_zero hn) hm
    obtain rfl := some.inj (heval.symm.trans heval')
    exact whole_of_lt (Nat.pos_of_ne_zero hn) hsmall henc init

theorem eval_eq : ∀ {h : Session n}, h.Meets → h.eval = h.plain.eval
  | .new _, _ => rfl
  | .set h i, ⟨hm, _⟩ => by rw [eval, eval_eq hm, plain, History.eval]
  | .clear h i, ⟨hm, _⟩ => by rw [eval, eval_eq hm, plain, History.eval]
  | .apply op h vec, ⟨hm, hm', _⟩ => by rw [eval, eval_eq hm, eval_eq hm', plain, History.eval]
  | .applyNot h, hm => by rw [eval, @eval_eq h hm, plain, History.eval]
  | .make op h vec, ⟨_, hm, hm', _⟩ => by rw [eval, eval_eq hm, eval_eq hm', plain, History.eval]
  | .makeNot h, ⟨_, hm⟩ => by rw [eval, eval_eq hm, plain, History.eval]
  | .whole h init, ⟨hm, hsmall⟩ => by
    obtain ⟨v, heval, -⟩ := History.refines_of_meets (plain_meets hm)
    rw [eval, eval_eq hm, heval, plain, History.eval]
    exact whole_eq_new (plain_meets hm) hsmall heval init
  | .copyOf h, hm => by
    rw [eval, @eval_eq h hm, plain]
    exact Option.map_id'

/-- In every session whose steps meet the condition the vector agrees with the array, and `set()` and `clear()` are
right there if and only if the vector has one block at most.  A vector without words has no first word to write. -/
theorem whole_behaves_iff {n : Nat} (h : Session n) (hm : h.Meets) :
    (∃ v, h.eval = some v ∧ v.size = n ∧ (∀ i : Fin n, v.bit i = some (h.bits i)) ∧
      ∀ init, (∃ v', v.whole init = some v' ∧ Behaves v' fun _ : Fin n => init) ↔ n < 31) ∧
    ∀ init, WAHVector.default.whole init = none := by
  refine ⟨?_, WAHVector.whole_default⟩
  obtain ⟨v, heval, hsize, hbits⟩ := History.refines_of_meets (plain_meets hm)
  refine ⟨v, (eval_eq hm).trans heval, hsize, fun i => by rw [hbits, bits_eq], fun init => ?_⟩
  constructor
  · rintro ⟨v', hwhole, hbehaves⟩
    by_cases hn : n = 0
    · omega
    · obtain ⟨w, heval', henc⟩ := History.eval_encodes (Nat.pos_of_ne_zero hn) (plain_meets hm)
      obtain rfl := some.inj (heval.symm.trans heval')
      exact lt_of_behaves (Nat.pos_of_ne_zero hn) (plain_meets hm).lt henc hwhole hbehaves
  · intro hsmall
    refine ⟨_, whole_eq_new (plain_meets hm) hsmall heval init, ?_⟩
    by_cases hn : n = 0
    · subst hn
      intro ops
      cases ops with
      | nil => exact ⟨_, rfl, by cases init <;> rfl, fun i => i.elim0⟩
      | cons op => exact op.1.elim0
    · exact behaves_of_lt (Nat.pos_of_ne_zero hn) hsmall (new_encodes (Nat.pos_of_ne_zero hn) (by omega) init)

/-- Five bits, one of them set before `set()`. -/
theorem whole_behaves_iff_five : ∃ v,
    eval (n := 5) (.copyOf (.set (.whole (.new true) false) 3)) = some v ∧ v.size = 5 ∧
    (∀ i : Fin 5, v.bit i = some (bits (n := 5) (.copyOf (.set (.whole (.new true) false) 3)) i)) ∧
      ∀ init, (∃ v', v.whole init = some v' ∧ Behaves v' fun _ : Fin 5 => init) ↔ 5 < 31 :=
  (whole_behaves_iff (n := 5) (.copyOf (.set (.whole (.new true) false) 3))
    ⟨⟨show 5 < 4638219 by decide, by decide⟩, by decide⟩).1

/-- A vector of one complete block has no bit after `set()`. -/
theorem not_whole : ¬ ∀ (n : Nat) (h : Session n) (v : WAHVector), h.eval = some v → ∀ init,
    ∃ v', v.whole init = some v' ∧ Behaves v' fun _ : Fin n => init := by
  intro hall
  obtain ⟨v', hwhole, hbehaves⟩ := hall 31 (.new false) _ rfl true
  obtain ⟨w, hexec, hsize, -⟩ := hbehaves []
  have hfill : (WAHVector.new 31 false).whole true = some { rem := 0, words := [fill 0 true] } := by decide
  obtain rfl := some.inj (hwhole.symm.trans hfill)
  obtain rfl := some.inj hexec
  exact absurd hsize (by decide)

end Session

end Elm.Util.Wah
