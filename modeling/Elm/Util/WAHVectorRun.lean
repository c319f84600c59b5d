import Elm.Util.WAHVectorBits

/-!
# Runs of operations on `WAHVector`

Each operation is compared with the one on arrays of booleans.  `fix` takes the incomplete block for a block of
the fill before it from the first bit of the block before it, even when this one is a literal.
-/

namespace Elm.Util.Wah

open RunLength Function List Option Nat

variable {n : Nat}

/-! ## What a vector stands for -/

/-- The bits of the incomplete block are all equal to `b`. -/
def LastAll (f : Fin n → Bool) (b : Bool) : Prop := ∀ i : Fin n, i.val / 31 = n / 31 → f i = b

/-- The block before the incomplete one is not uniform, and its last bit is `b`. -/
def PrevEnds (f : Fin n → Bool) (b : Bool) : Prop :=
  (∃ i : Fin n, i.val / 31 + 1 = n / 31 ∧ f i ≠ b) ∧ ∀ i : Fin n, i.val + 1 = n / 31 * 31 → f i = b

/-- `fix` may take the incomplete block for a block of a fill that is not there. -/
def Merges (f : Fin n → Bool) (b : Bool) : Prop := n % 31 ≠ 0 ∧ LastAll f b ∧ PrevEnds f b

instance (f : Fin n → Bool) (b : Bool) : Decidable (LastAll f b) :=
  inferInstanceAs (Decidable (∀ i : Fin n, i.val / 31 = n / 31 → f i = b))

instance (f : Fin n → Bool) (b : Bool) : Decidable (PrevEnds f b) :=
  inferInstanceAs (Decidable (_ ∧ ∀ i : Fin n, i.val + 1 = n / 31 * 31 → f i = b))

instance (f : Fin n → Bool) (b : Bool) : Decidable (Merges f b) := inferInstanceAs (Decidable (_ ∧ _))

/-- A vector of `n` bits, which are those of `f`. -/
structure Encodes (n : Nat) (v : WAHVector) (f : Fin n → Bool) : Prop where
  rem : v.rem = n % 31
  canonical : Canonical Uniform (runs v.words)
  packs : Packs n (blocks v.words) f
  last : n % 31 ≠ 0 → ∀ x, (blocks v.words)[n / 31]? = some x → norm (n % 31) x = x

section Fix

variable {f : Fin n → Bool} {b : Builder}

/-- A block that `fix` takes into the wrong block. -/
theorem merges_of_swallows {bs : List Word} (hpacks : Packs n bs f) (hrem : n % 31 ≠ 0) {last prev : Word}
    (hlast : bs[n / 31]? = some last) (hprev : 0 < n / 31 ∧ bs[n / 31 - 1]? = some prev)
    (hswallows : Swallows (n % 31) last prev) : ∃ init, Merges f init := by
  have hmod : n % 31 < 31 := mod_lt _ (by decide)
  obtain ⟨-, hmixed, hbits⟩ := hswallows
  have hlite : isFill prev = false := hpacks.lite prev (mem_of_getElem? hprev.2)
  -- the bits of the two blocks
  have hlastbit : ∀ i : Fin n, i.val / 31 = n / 31 → f i = last.getLsbD (i.val % 31) := by
    intro i hi
    have hbit := hpacks.bits i
    rw [hi, hlast] at hbit
    exact (some.inj hbit).symm
  have hprevbit : ∀ i : Fin n, i.val / 31 + 1 = n / 31 → f i = prev.getLsbD (i.val % 31) := by
    intro i hi
    have hbit := hpacks.bits i
    have hq : i.val / 31 = n / 31 - 1 := by omega
    rw [hq, hprev.2] at hbit
    exact (some.inj hbit).symm
  have hends : ∀ init, isOnes prev = init → PrevEnds f init := by
    intro init hones
    rw [isOnes_eq_getLsbD] at hones
    constructor
    · by_contra hall
      push Not at hall
      apply hmixed
      have huniform : prev = uniform init := by
        rw [eq_uniform_iff hlite]
        intro j hj
        let i : Fin n := ⟨31 * (n / 31 - 1) + j, by omega⟩
        have hi : i.val / 31 + 1 = n / 31 := by
          change (31 * (n / 31 - 1) + j) / 31 + 1 = n / 31
          omega
        have hj' : i.val % 31 = j := by
          change (31 * (n / 31 - 1) + j) % 31 = j
          omega
        rw [← hj', ← hprevbit i hi]
        exact hall i hi
      rw [huniform]
      exact uniform_Uniform init
    · intro i hi
      have hi' : i.val % 31 = 30 := by omega
      rw [hprevbit i (by omega), hi', hones]
  rcases hbits with ⟨hzero, hones⟩ | ⟨hmask, hones⟩
  · refine ⟨false, hrem, fun i hi => ?_, hends false (by rw [isZeroes_eq] at hones; simpa using hones)⟩
    rw [hlastbit i hi]
    exact (and_mask_eq_zero_iff hmod).mp hzero _ (by omega)
  · refine ⟨true, hrem, fun i hi => ?_, hends true hones⟩
    rw [hlastbit i hi]
    exact (and_mask_eq_mask_iff hmod).mp hmask _ (by omega)

/-- The last block, as `fix` leaves it, has the same bits. -/
theorem packs_norm {bs : List Word} {x : Word} (hrem : n % 31 ≠ 0) (h : Packs n (bs ++ [x]) f) :
    Packs n (bs ++ [norm (n % 31) x]) f := by
  have hmod : n % 31 < 31 := mod_lt _ (by decide)
  have hlen := h.length
  rw [length_append, length_singleton] at hlen
  refine ⟨by rw [length_append, length_singleton, hlen], ?_, ?_⟩
  · intro y hy
    rcases mem_append.mp hy with hmem | hmem
    · exact h.lite y (mem_append_left _ hmem)
    · rw [mem_singleton.mp hmem]
      exact isFill_norm hmod x
  · intro i
    have hbit := h.bits i
    by_cases hi : i.val / 31 < bs.length
    · rw [getElem?_append_left hi] at hbit ⊢
      exact hbit
    · have hi' : i.val / 31 = bs.length := by omega
      rw [hi', getElem?_concat_length] at hbit ⊢
      rw [← hbit, map_some, map_some, getLsbD_norm hmod (by omega)]

/-- The bits behind the end of the array. -/
def Pad (n : Nat) (bs : List Word) (p : Bool) : Prop :=
  ∀ x, bs[n / 31]? = some x → ∀ j < 31, n % 31 ≤ j → x.getLsbD j = p

/-- The bits of the incomplete block in the array. -/
theorem Packs.lastAll_iff {bs : List Word} (h : Packs n bs f) {x : Word} (hx : bs[n / 31]? = some x) (init : Bool) :
    LastAll f init ↔ ∀ j < n % 31, x.getLsbD j = init := by
  have hbit : ∀ i : Fin n, i.val / 31 = n / 31 → f i = x.getLsbD (i.val % 31) := by
    intro i hi
    have hbit := h.bits i
    rw [hi, hx] at hbit
    exact (some.inj hbit).symm
  constructor
  · intro hall j hj
    let i : Fin n := ⟨31 * (n / 31) + j, by omega⟩
    have hi : i.val / 31 = n / 31 := by
      change (31 * (n / 31) + j) / 31 = n / 31
      omega
    have hj' : i.val % 31 = j := by
      change (31 * (n / 31) + j) % 31 = j
      omega
    rw [← hj', ← hbit i hi]
    exact hall i hi
  · intro hall i hi
    rw [hbit i hi]
    exact hall _ (by omega)

/-- The block is uniform if the bits behind the end are equal to those in front of it. -/
theorem uniform_of_pad {bs : List Word} (h : Packs n bs f) {x : Word} (hx : bs[n / 31]? = some x) {init : Bool}
    (hall : LastAll f init) (hpad : Pad n bs init) : Uniform x := by
  have huniform : x = uniform init := by
    rw [eq_uniform_iff (h.lite x (mem_of_getElem? hx))]
    intro j hj
    by_cases hlt : j < n % 31
    · exact (h.lastAll_iff hx init).mp hall j hlt
    · exact hpad x hx j hj (by omega)
  rw [huniform]
  exact uniform_Uniform init

/-- What `fix` makes of the blocks that are pushed. -/
theorem fix_encodes (hn : 0 < n) (hlt : n < 4638219) (hcanon : Canonical Uniform (runs b))
    (hpacks : Packs n (blocks b).reverse f)
    (hmerges : n % 31 ≠ 0 → ∃ p, Pad n (blocks b).reverse p ∧ ∀ init, Merges f init → init = p) :
    Encodes n { rem := n % 31, words := b.fix (n % 31) } f := by
  have hmod : n % 31 < 31 := mod_lt _ (by decide)
  have hlen := hpacks.length
  rw [length_reverse] at hlen
  by_cases hrem : n % 31 = 0
  · have hfix : Builder.fix b (n % 31) = b.reverse := by
      cases b with
      | nil => rfl
      | cons w b => rw [Builder.fix, if_neg (by simp [hrem])]
    obtain ⟨hcanon', hblocks⟩ := reverse_spec hcanon rfl
    refine ⟨rfl, ?_, ?_, fun hne => absurd hrem hne⟩
    · change Canonical Uniform (runs (Builder.fix b (n % 31)))
      rw [hfix]
      exact hcanon'
    · change Packs n (blocks (Builder.fix b (n % 31))) f
      rw [hfix, hblocks]
      exact hpacks
  · obtain ⟨p, hpad, hinit⟩ := hmerges hrem
    obtain ⟨last, bs, hblocks⟩ := exists_cons_of_length_pos (show 0 < (blocks b).length by omega)
    rw [hblocks, length_cons] at hlen
    rw [hblocks, reverse_cons] at hpacks hpad
    have hbs : bs.reverse.length = n / 31 := by
      rw [length_reverse]
      omega
    have hlast : (bs.reverse ++ [last])[n / 31]? = some last := by
      rw [← hbs, getElem?_concat_length]
    have hswallows : ∀ prev ∈ bs.head?, ¬ Swallows (n % 31) last prev := by
      intro prev hprev hswallows
      cases bs with
      | nil => cases hprev
      | cons p bs =>
        cases hprev
        rw [length_reverse, length_cons] at hbs
        have hprev' : ((prev :: bs).reverse ++ [last])[n / 31 - 1]? = some prev := by
          have hq : n / 31 - 1 = bs.reverse.length := by
            rw [length_reverse]
            omega
          rw [hq, reverse_cons, append_assoc, getElem?_append_right (Nat.le_refl _), Nat.sub_self]
          rfl
        obtain ⟨init, hmerge⟩ := merges_of_swallows hpacks hrem hlast ⟨by omega, hprev'⟩ hswallows
        rw [← hinit init hmerge] at hpad
        exact hswallows.1 (uniform_of_pad hpacks hlast hmerge.2.1 hpad)
    have htotal : b.total < 2 ^ 30 := by
      unfold Builder.total
      rw [hblocks, length_cons]
      omega
    obtain ⟨hcanon', hblocks'⟩ := fix_spec (Nat.pos_of_ne_zero hrem) hmod hcanon htotal hblocks hswallows
    rw [reverse_cons] at hblocks'
    refine ⟨rfl, hcanon', ?_, ?_⟩
    · change Packs n (blocks (Builder.fix b (n % 31))) f
      rw [hblocks']
      exact packs_norm hrem hpacks
    · intro _ x hx
      change (blocks (Builder.fix b (n % 31)))[n / 31]? = some x at hx
      rw [hblocks', ← hbs, getElem?_concat_length] at hx
      obtain rfl := some.inj hx
      exact norm_norm (Nat.pos_of_ne_zero hrem) hmod last

/-- The bits behind the end in a vector are ones if and only if those of the last block are. -/
theorem Encodes.pad {v : WAHVector} (h : Encodes n v f) (hrem : n % 31 ≠ 0) :
    ∃ p, Pad n (blocks v.words) p ∧ (p = true ↔ LastAll f true) := by
  have hmod : n % 31 < 31 := mod_lt _ (by decide)
  have hlen := h.packs.length
  obtain ⟨x, hx⟩ : ∃ x, (blocks v.words)[n / 31]? = some x :=
    ⟨_, getElem?_eq_getElem (show n / 31 < (blocks v.words).length by omega)⟩
  have hnorm := h.last hrem x hx
  have hall := h.packs.lastAll_iff hx true
  rw [← norm_eq_uniform_iff (Nat.pos_of_ne_zero hrem) hmod hnorm true] at hall
  rcases norm_cases hnorm with hones | hmask
  · refine ⟨true, fun y hy j hj _ => ?_, iff_of_true rfl (hall.mpr hones)⟩
    obtain rfl := some.inj (hx.symm.trans hy)
    exact (eq_ALL_ONES_iff (h.packs.lite x (mem_of_getElem? hx))).mp hones j hj
  · refine ⟨false, fun y hy j hj hle => ?_, iff_of_false Bool.false_ne_true fun htrue => ?_⟩
    · obtain rfl := some.inj (hx.symm.trans hy)
      rw [← hmask, BitVec.getLsbD_and, getLsbD_mask (by omega), decide_eq_false (by omega), Bool.and_false]
    · have hbit := (eq_ALL_ONES_iff (h.packs.lite x (mem_of_getElem? hx))).mp (hall.mp htrue) 30 (by decide)
      rw [← hmask, BitVec.getLsbD_and, getLsbD_mask (by omega), decide_eq_false (by omega), Bool.and_false] at hbit
      exact absurd hbit Bool.false_ne_true

end Fix

/-! ## The operations -/

section Steps

variable {f g : Fin n → Bool} {u v : WAHVector}

theorem Exact.new_eq {v : Nat} (hv : Exact v) (init : Bool) :
    WAHVector.new v init = { rem := v % 31, words := [fill ((v + 30) / 31 : Nat) init] } := by
  have hrem : (mod v % 2 ^ 32).toNat = v % 31 := by
    rw [hv.mod_eq]
    omega
  have hcount : (div v : Int) + (if v % 31 ≠ 0 then 1 else 0) = ((v + 30) / 31 : Nat) := by
    rw [hv.div_eq]
    split_ifs <;> omega
  unfold WAHVector.new
  simp only [hrem, hcount]

theorem new_eq (hlt : n < 4638219) (init : Bool) :
    WAHVector.new n init = { rem := n % 31, words := [fill ((n + 30) / 31 : Nat) init] } :=
  (Exact.of_lt hlt).new_eq init

theorem new_encodes (hn : 0 < n) (hlt : n < 4638219) (init : Bool) :
    Encodes n (WAHVector.new n init) fun _ => init := by
  have hview : view (fill ((n + 30) / 31 : Nat) init) = .fill ((n + 30) / 31) (uniform init) :=
    view_fill (by omega) init
  have hblocks : blocks [fill ((n + 30) / 31 : Nat) init] = replicate ((n + 30) / 31) (uniform init) := by
    rw [Iter.blocks_cons, hview]
    exact append_nil _
  have hlite : isFill (uniform init) = false := Iter.isFill_uniform init
  rw [new_eq hlt init]
  refine ⟨rfl, ?_, ?_, ?_⟩
  · rw [runs, map_singleton, hview]
    exact canonical_cons.mpr ⟨⟨by omega, uniform_Uniform init⟩, by simp, canonical_nil⟩
  · rw [hblocks]
    refine ⟨length_replicate, fun x hx => ?_, fun i => ?_⟩
    · rw [eq_of_mem_replicate hx]
      exact hlite
    · have hi : i.val / 31 < (n + 30) / 31 := by omega
      rw [getElem?_replicate, if_pos hi, map_some,
        (eq_uniform_iff hlite init).mp rfl _ (mod_lt _ (by decide))]
  · intro hne x hx
    rw [hblocks] at hx
    have hx' := eq_of_mem_replicate (mem_of_getElem? hx)
    rw [hx']
    exact norm_uniform (Nat.pos_of_ne_zero hne) (mod_lt _ (by decide)) (uniform_Uniform init)

/-- The last index is in the incomplete block. -/
theorem exists_lastAll (hrem : n % 31 ≠ 0) {init : Bool} (hall : LastAll f init) :
    ∃ i : Fin n, i.val / 31 = n / 31 ∧ f i = init :=
  ⟨⟨n - 1, by omega⟩, by change (n - 1) / 31 = n / 31; omega, hall _ (by change (n - 1) / 31 = n / 31; omega)⟩

theorem combine_encodes {op : Word → Word → Word} {o : Bool → Bool → Bool} (hop : BlockOp op)
    (hbit : ∀ x y, ∀ j < 31, (op x y).getLsbD j = o (x.getLsbD j) (y.getLsbD j)) (hn : 0 < n) (hlt : n < 4638219)
    (hu : Encodes n u f) (hv : Encodes n v g)
    (hmerges : ∀ p q init, (p = true ↔ LastAll f true) → (q = true ↔ LastAll g true) →
      Merges (fun i => o (f i) (g i)) init → init = o p q) (r : WAHVector) :
    ∃ ws, WAHVector.combine op r u v = some { r with words := ws } ∧
      Encodes n { rem := n % 31, words := ws } fun i => o (f i) (g i) := by
  have hlenu := hu.packs.length
  have hlenv := hv.packs.length
  have hgood : ∀ {ws : List Word}, Canonical Uniform (runs ws) → ∀ w ∈ ws, (view w).Good Uniform :=
    fun h w hw => h.good _ (List.mem_map_of_mem hw)
  obtain ⟨b, hrun, hcanon, hblocks⟩ :=
    combine_spec hop (hgood hu.canonical) (hgood hv.canonical) (hlenv.trans hlenu.symm) (by omega)
  have hraw : (blocks b).reverse = List.zipWith op (blocks u.words) (blocks v.words) := by
    rw [hblocks, reverse_reverse]
  refine ⟨b.fix (n % 31), ?_, fix_encodes hn hlt hcanon ?_ fun hrem => ?_⟩
  · unfold WAHVector.combine
    rw [hrun, hu.rem]
    rfl
  · rw [hraw]
    exact hu.packs.zipWith hv.packs hop.lite hbit
  · obtain ⟨p, hp, hpall⟩ := hu.pad hrem
    obtain ⟨q, hq, hqall⟩ := hv.pad hrem
    refine ⟨o p q, fun z hz j hj hle => ?_, fun init => hmerges p q init hpall hqall⟩
    rw [hraw] at hz
    obtain ⟨x, y, hx, hy, rfl⟩ := getElem?_zipWith_eq_some.mp hz
    rw [hbit x y j hj, hp x hx j hj hle, hq y hy j hj hle]

theorem doAnd_encodes (hn : 0 < n) (hlt : n < 4638219) (hu : Encodes n u f) (hv : Encodes n v g) (r : WAHVector) :
    ∃ ws, WAHVector.doAnd r u v = some { r with words := ws } ∧
      Encodes n { rem := n % 31, words := ws } fun i => f i && g i := by
  refine @combine_encodes n f g u v _ (· && ·) blockOp_and (fun x y j _ => BitVec.getLsbD_and) hn hlt hu hv ?_ r
  intro p q init hp hq hmerge
  obtain ⟨hrem, hall, -⟩ := hmerge
  cases init with
  | true =>
    -- both operands have only ones
    have hf : LastAll f true := fun i hi => ((Bool.and_eq_true _ _).mp (hall i hi)).1
    have hg : LastAll g true := fun i hi => ((Bool.and_eq_true _ _).mp (hall i hi)).2
    rw [hp.mpr hf, hq.mpr hg]
    rfl
  | false =>
    by_contra hne
    have hpq : p = true ∧ q = true := by simpa using hne
    obtain ⟨i, hi, hbit⟩ := exists_lastAll hrem hall
    have hf := hp.mp hpq.1 i hi
    have hg := hq.mp hpq.2 i hi
    simp [hf, hg] at hbit

theorem doReset_encodes (hn : 0 < n) (hlt : n < 4638219) (hu : Encodes n u f) (hv : Encodes n v g)
    (r : WAHVector) :
    ∃ ws, WAHVector.doReset r u v = some { r with words := ws } ∧
      Encodes n { rem := n % 31, words := ws } fun i => f i && !g i := by
  have hbit : ∀ x y : Word, ∀ j < 31, (x &&& ~~~y).getLsbD j = (x.getLsbD j && !y.getLsbD j) := by
    intro x y j hj
    rw [BitVec.getLsbD_and, BitVec.getLsbD_not, decide_eq_true (by omega), Bool.true_and]
  refine @combine_encodes n f g u v _ (fun x y => x && !y) blockOp_reset hbit hn hlt hu hv ?_ r
  intro p q init hp hq hmerge
  obtain ⟨hrem, hall, -⟩ := hmerge
  cases init with
  | true =>
    have hf : LastAll f true := fun i hi => ((Bool.and_eq_true _ _).mp (hall i hi)).1
    have hg : q ≠ true := by
      intro hqtrue
      obtain ⟨i, hi, hbit⟩ := exists_lastAll hrem hall
      simp [hq.mp hqtrue i hi] at hbit
    rw [hp.mpr hf, Bool.not_eq_true _ |>.mp hg]
    rfl
  | false =>
    by_contra hne
    have hpq : p = true ∧ q = false := by simpa using hne
    have hg : LastAll g true := by
      intro i hi
      have hbit := hall i hi
      simpa [hp.mp hpq.1 i hi] using hbit
    rw [hq.mpr hg] at hpq
    exact absurd hpq.2 (by decide)

theorem doOr_encodes (hn : 0 < n) (hlt : n < 4638219) (hu : Encodes n u f) (hv : Encodes n v g)
    (hmerges : Merges (fun i => f i || g i) true → LastAll f true ∨ LastAll g true) (r : WAHVector) :
    ∃ ws, WAHVector.doOr r u v = some { r with words := ws } ∧
      Encodes n { rem := n % 31, words := ws } fun i => f i || g i := by
  refine @combine_encodes n f g u v _ (· || ·) blockOp_or (fun x y j _ => BitVec.getLsbD_or) hn hlt hu hv ?_ r
  intro p q init hp hq hmerge
  cases init with
  | true =>
    rcases hmerges hmerge with hf | hg
    · rw [hp.mpr hf]
      rfl
    · rw [hq.mpr hg, Bool.or_true]
  | false =>
    obtain ⟨hrem, hall, -⟩ := hmerge
    obtain ⟨i, hi, hbit⟩ := exists_lastAll hrem hall
    have hzero := (Bool.or_eq_false_iff).mp hbit
    have hp' : p ≠ true := by
      intro hptrue
      rw [hp.mp hptrue i hi] at hzero
      exact absurd hzero.1 (by decide)
    have hq' : q ≠ true := by
      intro hqtrue
      rw [hq.mp hqtrue i hi] at hzero
      exact absurd hzero.2 (by decide)
    rw [Bool.not_eq_true _ |>.mp hp', Bool.not_eq_true _ |>.mp hq']
    rfl

theorem doNot_encodes (hn : 0 < n) (hlt : n < 4638219) (hv : Encodes n v f) (r : WAHVector) :
    ∃ ws, WAHVector.doNot r v = { r with words := ws } ∧
      Encodes n { rem := n % 31, words := ws } fun i => !f i := by
  have hlen := hv.packs.length
  have hbit : ∀ x : Word, ∀ j < 31, (flip x).getLsbD j = !x.getLsbD j := by
    intro x j hj
    rw [flip, BitVec.getLsbD_and, BitVec.getLsbD_not, ALL_ONES_eq, getLsbD_mask (by decide),
      decide_eq_true (show j < 32 by omega), decide_eq_true hj, Bool.true_and, Bool.and_true]
  obtain ⟨hcanon, hblocks⟩ := @doNot_spec v.words (fun w hw => hv.canonical.good _ (List.mem_map_of_mem hw)) []
    canonical_nil (by change 0 + _ < _; omega) 0
  have hempty : blocks [] = [] := rfl
  rw [hempty, append_nil] at hblocks
  have hraw := congrArg List.reverse hblocks
  rw [reverse_reverse] at hraw
  refine ⟨Builder.fix ((Iter.visits 0 v.words).foldl notTurn []) (n % 31), ?_, fix_encodes hn hlt hcanon ?_ ?_⟩
  · rw [← hv.rem]
    rfl
  · rw [hraw]
    exact hv.packs.map (fun x _ => isFill_flip x) hbit
  · intro hrem
    obtain ⟨p, hp, hpall⟩ := hv.pad hrem
    refine ⟨!p, fun z hz j hj hle => ?_, fun init hmerge => ?_⟩
    · rw [hraw, getElem?_map] at hz
      obtain ⟨x, hx, rfl⟩ := map_eq_some_iff.mp hz
      rw [hbit x j hj, hp x hx j hj hle]
    · obtain ⟨-, hall, -⟩ := hmerge
      cases init with
      | true =>
        obtain ⟨i, hi, hbit⟩ := exists_lastAll hrem hall
        have hne : p ≠ true := by
          intro hptrue
          simp [hpall.mp hptrue i hi] at hbit
        rw [Bool.not_eq_true _ |>.mp hne]
        rfl
      | false =>
        have hf : LastAll f true := fun i hi => by simpa using hall i hi
        rw [hpall.mpr hf]
        rfl

/-- A bit changed outside the incomplete block. -/
theorem lastAll_update {i : Fin n} (hi : i.val / 31 ≠ n / 31) {b init : Bool} :
    LastAll (update f i b) init ↔ LastAll f init := by
  unfold LastAll
  refine forall_congr' fun k => imp_congr_right fun hk => ?_
  have hne : k ≠ i := by
    rintro rfl
    exact hi hk
  rw [update_of_ne hne]

theorem update_encodes {change : Word → Word → Word} {done : Word → Bool} {b : Bool} (hchange : BlockChange change done)
    (hbit : ∀ x k, k < 31 → ∀ j < 31, (change x ((1 : Word) <<< k)).getLsbD j = if j = k then b else x.getLsbD j)
    (hn : 0 < n) (hlt : n < 4638219) (hv : Encodes n v f) (i : Fin n)
    (hmerges : Merges (update f i b) b → (LastAll f true ↔ b = true)) :
    ∃ v', WAHVector.update change done v i = some v' ∧ Encodes n v' (update f i b) := by
  have hi := i.isLt
  have hlen := hv.packs.length
  have hmod : i.val % 31 < 31 := mod_lt _ (by decide)
  obtain ⟨b', hrun, hcanon', hraw⟩ := @update_spec change done hchange v hv.canonical (by omega) i.val
    (.of_lt (by omega)) (by omega)
  refine ⟨{ rem := n % 31, words := Builder.fix b' (n % 31) }, ?_, fix_encodes hn hlt hcanon' ?_ fun hrem => ?_⟩
  · rw [hrun, hv.rem]
  · rw [hraw]
    exact hv.packs.modify i (fun x hx => hchange.lite x _ hmod hx) fun x j hj => hbit x _ hmod j hj
  · obtain ⟨p, hp, hpall⟩ := hv.pad hrem
    refine ⟨p, fun z hz j hj hle => ?_, fun init hmerge => ?_⟩
    · rw [hraw, getElem?_modify] at hz
      obtain ⟨x, hx, rfl⟩ := map_eq_some_iff.mp hz
      have hx' := hp x hx j hj hle
      split_ifs with hblock
      · rw [hbit x _ hmod j hj, if_neg (by omega), hx']
      · exact hx'
    · by_cases hblock : i.val / 31 = n / 31
      · -- the bit has its new value
        have hinit : b = init := by
          have hbit' := hmerge.2.1 i hblock
          rwa [update_self] at hbit'
        subst hinit
        rw [Bool.eq_iff_iff, hpall, hmerges hmerge]
      · have hall := (lastAll_update hblock).mp hmerge.2.1
        cases init with
        | true => exact (hpall.mpr hall).symm
        | false =>
          obtain ⟨k, hk, hbit'⟩ := exists_lastAll hrem hall
          have hne : p ≠ true := by
            intro hptrue
            rw [hpall.mp hptrue k hk] at hbit'
            exact absurd hbit' (by decide)
          exact (Bool.not_eq_true _ |>.mp hne).symm

theorem blockChange_set : BlockChange (fun x m => x ||| m) fun x => x ≠ 0 where
  lite x j hj hx := by
    rw [isFill_eq_getLsbD] at hx ⊢
    have hbit : (x ||| (1 : Word) <<< j).getLsbD 31 = if 31 = j then true else x.getLsbD 31 :=
      Bits.getLsbD_set_bit x (by omega)
    rw [hbit, if_neg (by omega), hx]
  same x j hj hx hdone := by
    have hones : x = ALL_ONES := hx.resolve_left (by simpa using hdone)
    rw [hones]
    revert j
    decide
  mixed x j hj hx hdone := by
    have hzero : x = 0 := by simpa using hdone
    rw [hzero]
    revert j
    decide

theorem blockChange_clear : BlockChange (fun x m => x &&& ~~~m) fun x => x = 0 where
  lite x j hj hx := by
    rw [isFill_eq_getLsbD] at hx ⊢
    rw [BitVec.getLsbD_and, hx, Bool.false_and]
  same x j hj hx hdone := by
    have hzero : x = 0 := by simpa using hdone
    rw [hzero]
    exact BitVec.zero_and
  mixed x j hj hx hdone := by
    have hones : x = ALL_ONES := hx.resolve_left (by simpa using hdone)
    rw [hones]
    revert j
    decide

theorem set_encodes (hn : 0 < n) (hlt : n < 4638219) (hv : Encodes n v f) (i : Fin n)
    (hmerges : Merges (update f i true) true → LastAll f true) :
    ∃ v', v.set i = some v' ∧ Encodes n v' (update f i true) :=
  update_encodes blockChange_set (fun x _ hk _ _ => Bits.getLsbD_set_bit x (by omega)) hn hlt hv i
    fun hmerge => iff_of_true (hmerges hmerge) rfl

theorem clear_encodes (hn : 0 < n) (hlt : n < 4638219) (hv : Encodes n v f) (i : Fin n)
    (hmerges : n % 31 = 1 → Merges (update f i false) false → ¬ LastAll f true) :
    ∃ v', v.clear i = some v' ∧ Encodes n v' (update f i false) := by
  refine update_encodes blockChange_clear (fun x _ _ _ hj => Bits.getLsbD_clear_bit x (by omega)) hn hlt hv i
    fun hmerge => iff_of_false (fun hall => ?_) (by decide)
  by_cases hone : n % 31 = 1
  · exact hmerges hone hmerge hall
  · -- one of two other bits is a one
    obtain ⟨hrem, hall', -⟩ := hmerge
    have hlast : ∀ k : Fin n, k.val / 31 = n / 31 → k = i := by
      intro k hk
      by_contra hne
      have hbit := hall' k hk
      rw [update_of_ne hne, hall k hk] at hbit
      exact absurd hbit (by decide)
    have h₁ := congrArg Fin.val (hlast ⟨n - 1, by omega⟩ (by change (n - 1) / 31 = n / 31; omega))
    have h₂ := congrArg Fin.val (hlast ⟨n - 2, by omega⟩ (by change (n - 2) / 31 = n / 31; omega))
    simp only at h₁ h₂
    omega

end Steps

end Elm.Util.Wah
