import Elm.Data.FragTable

/-!
# Runs of `FragTable`

The slot of an index is one of a page: its page is the quotient of the index by the size of the pages, its place in
the page is the remainder.
-/

namespace Elm.Data.FragTable

open List

variable {T : Type} {t : FragTable T} {xs : List T} {fresh : Nat → Nat → T}

/-- The shape of the pages. -/
structure Shape (t : FragTable T) : Prop where
  size_eq : t.size = 2 ^ t.shf
  pages : ∀ page ∈ t.tab, page.length = t.size
  used_le : t.used ≤ t.size

/-- The table has the elements of the list. -/
structure Holds (t : FragTable T) (xs : List T) : Prop extends Shape t where
  empty : t.tab = [] → t.used = t.size
  length : t.length = xs.length
  content : ∀ i < xs.length, t.slot i = xs[i]?

/-! ## Pages and slots -/

theorem Shape.size_pos (h : Shape t) : 0 < t.size := by
  rw [h.size_eq]
  exact Nat.two_pow_pos _

theorem Shape.slot_eq (h : Shape t) (i : Nat) :
    t.slot i = (t.tab[i / t.size]?).bind fun page => page[i % t.size]? := by
  unfold slot
  rw [Nat.shiftRight_eq_div_pow, h.size_eq, Nat.and_two_pow_sub_one_eq_mod]

theorem Shape.length_eq (h : Shape t) : t.length = ((t.tab.length : Int) - 1) * t.size + t.used := by
  unfold FragTable.length
  rw [h.size_eq]
  push_cast
  rfl

/-- The indices of a table are slots of its pages. -/
theorem Shape.lt_pages (h : Shape t) {i : Nat} (hi : (i : Int) < t.length) : i / t.size < t.tab.length := by
  have hused := h.used_le
  rw [h.length_eq] at hi
  rw [Nat.div_lt_iff_lt_mul h.size_pos]
  have hpages : (i : Int) < (t.tab.length : Int) * t.size := by
    have hsplit : ((t.tab.length : Int) - 1) * t.size + t.size = (t.tab.length : Int) * t.size := by ring
    omega
  exact_mod_cast hpages

theorem Shape.slot_isSome (h : Shape t) {i : Nat} (hi : (i : Int) < t.length) : ∃ x, t.slot i = some x := by
  have hpage := h.lt_pages hi
  have hlen : t.tab[i / t.size].length = t.size := h.pages _ (getElem_mem hpage)
  have hmod : i % t.size < t.tab[i / t.size].length := by
    rw [hlen]
    exact Nat.mod_lt _ h.size_pos
  refine ⟨t.tab[i / t.size][i % t.size], ?_⟩
  rw [h.slot_eq, getElem?_eq_getElem hpage, Option.bind_some, getElem?_eq_getElem hmod]

theorem get_eq (h : t.Holds xs) {i : Nat} (hi : i < xs.length) : t.get i = some xs[i] := by
  unfold get
  rw [if_pos (by rw [h.length]; exact_mod_cast hi), h.content i hi, getElem?_eq_getElem hi]

/-! ## Assignments -/

theorem assign_spec (h : Shape t) {k j : Nat} (hk : k < t.tab.length) (hj : j < t.size) (value : T) :
    ∃ t', t.assign k j value = some t' ∧ Shape t' ∧ t'.tab.length = t.tab.length ∧ t'.used = t.used ∧
      t'.size = t.size ∧ t'.shf = t.shf ∧
      ∀ i, t'.slot i = if i = k * t.size + j then some value else t.slot i := by
  have hlen : t.tab[k].length = t.size := h.pages _ (getElem_mem hk)
  have hshape : Shape { t with tab := t.tab.set k (t.tab[k].set j value) } := by
    refine ⟨h.size_eq, fun page hpage => ?_, h.used_le⟩
    rcases mem_or_eq_of_mem_set hpage with hpage | rfl
    · exact h.pages page hpage
    · rw [length_set, hlen]
  refine ⟨{ t with tab := t.tab.set k (t.tab[k].set j value) }, ?_, hshape, length_set, rfl, rfl, rfl,
    fun i => ?_⟩
  · unfold assign
    rw [getElem?_eq_getElem hk, Option.bind_some, if_pos (by rw [hlen]; omega), Int.toNat_natCast]
  · rw [hshape.slot_eq, h.slot_eq]
    show ((t.tab.set k (t.tab[k].set j value))[i / t.size]?).bind (fun page => page[i % t.size]?) = _
    have hdiv := Nat.div_add_mod i t.size
    have hmod := Nat.mod_lt i h.size_pos
    by_cases hpage : i / t.size = k
    · rw [hpage, getElem?_set_self hk, Option.bind_some, getElem?_eq_getElem hk, Option.bind_some]
      rw [hpage, Nat.mul_comm] at hdiv
      by_cases hslot : i % t.size = j
      · rw [if_pos (by omega), hslot, getElem?_set_self (by rw [hlen]; exact hj)]
      · rw [if_neg (by omega), getElem?_set_ne (Ne.symm hslot)]
    · have hne : i ≠ k * t.size + j := by
        rintro rfl
        rw [Nat.mul_comm, Nat.mul_add_div h.size_pos, Nat.div_eq_of_lt hj] at hpage
        exact hpage (Nat.add_zero k)
      rw [if_neg hne, getElem?_set_ne (Ne.symm hpage)]

/-- `set` changes one element. -/
theorem set_spec (h : t.Holds xs) {index : Nat} (hindex : index < xs.length) (value : T) :
    ∃ t', t.set index value = some t' ∧ t'.Holds (xs.set index value) ∧ t'.tab.length = t.tab.length ∧
      t'.used = t.used := by
  have hlt : (index : Int) < t.length := by
    rw [h.length]
    exact_mod_cast hindex
  have hmod := Nat.mod_lt index h.size_pos
  obtain ⟨t', hassign, hshape, htab, hused, hsize, hshf, hslot⟩ := assign_spec h.toShape (h.lt_pages hlt) hmod value
  have hplace : index / t.size * t.size + index % t.size = index := by
    rw [Nat.mul_comm]
    exact Nat.div_add_mod index t.size
  rw [hplace] at hslot
  refine ⟨t', ?_, ⟨hshape, fun hnil => ?_, ?_, fun i hi => ?_⟩, htab, hused⟩
  · unfold set
    rw [if_pos hlt, ← hassign]
    have hmask : index &&& (t.size - 1) = index % t.size := by
      rw [h.size_eq, Nat.and_two_pow_sub_one_eq_mod]
    have hshift : index >>> t.shf = index / t.size := by
      rw [Nat.shiftRight_eq_div_pow, h.size_eq]
    rw [hmask, hshift]
  · have hnil' : t.tab = [] := eq_nil_of_length_eq_zero (by rw [← htab, hnil]; rfl)
    rw [hused, hsize]
    exact h.empty hnil'
  · rw [length_set, ← h.length, hshape.length_eq, h.length_eq, htab, hused, hsize]
  · rw [length_set] at hi
    rw [hslot]
    split_ifs with heq
    · rw [heq, getElem?_set_self hindex]
    · rw [getElem?_set_ne (Ne.symm heq)]
      exact h.content i hi

/-! ## New pages -/

theorem addPage_shape (h : Shape t) : Shape (t.addPage fresh) := by
  refine ⟨h.size_eq, fun page hpage => ?_, ?_⟩
  · rcases mem_append.mp hpage with hpage | hpage
    · exact h.pages page hpage
    · rw [mem_singleton.mp hpage, length_map, length_range]
      rfl
  · show (0 : Int) ≤ t.size
    omega

theorem addPage_slot (h : Shape t) {i : Nat} (hi : (i : Int) < t.length) : (t.addPage fresh).slot i = t.slot i := by
  have hpage := h.lt_pages hi
  rw [(@addPage_shape T t fresh h).slot_eq, h.slot_eq]
  show ((t.tab ++ _)[i / t.size]?).bind _ = _
  rw [getElem?_append_left hpage]
  rfl

theorem addPage_length (h : Shape t) : (t.addPage fresh).length = t.tab.length * t.size := by
  rw [(@addPage_shape T t fresh h).length_eq]
  show (((t.tab ++ _).length : Int) - 1) * t.size + 0 = _
  rw [length_append, length_singleton]
  push_cast
  ring

/-! ## `add` -/

theorem add_spec (h : t.Holds xs) (hused : 0 ≤ t.used) (value : T) :
    ∃ t', t.add fresh value = some t' ∧ t'.Holds (xs ++ [value]) := by
  -- the table where the last page has a free slot
  have hroom : ∃ t₁, (if t.used ≥ t.size then t.addPage fresh else t) = t₁ ∧ t₁.Holds xs ∧ t₁.tab ≠ [] ∧
      0 ≤ t₁.used ∧ t₁.used < t₁.size := by
    split_ifs with hfull
    · have hsame : t.used = t.size := Int.le_antisymm h.used_le hfull
      have hlength : (t.addPage fresh).length = t.length := by
        rw [addPage_length h.toShape, h.length_eq, hsame]
        ring
      refine ⟨_, rfl, ⟨addPage_shape h.toShape, fun hnil => ?_, hlength.trans h.length, fun i hi => ?_⟩, ?_,
        Int.le_refl 0, ?_⟩
      · exact absurd hnil (by simp [addPage])
      · rw [addPage_slot h.toShape (by rw [h.length]; exact_mod_cast hi)]
        exact h.content i hi
      · simp [addPage]
      · show (0 : Int) < t.size
        exact_mod_cast h.size_pos
    · refine ⟨t, rfl, h, fun hnil => ?_, hused, by omega⟩
      exact hfull (Int.le_of_eq (h.empty hnil).symm)
  obtain ⟨t₁, heq, h₁, hne, hused₁, hlt₁⟩ := hroom
  have hlen : 0 < t₁.tab.length := length_pos_iff.mpr hne
  obtain ⟨u, hu⟩ := Int.eq_ofNat_of_zero_le hused₁
  have hu' : u < t₁.size := by omega
  obtain ⟨t', hassign, hshape, htab, hused', hsize, hshf, hslot⟩ :=
    assign_spec h₁.toShape (show t₁.tab.length - 1 < t₁.tab.length by omega) hu' value
  have hlast : (t₁.tab.length - 1) * t₁.size + u = xs.length := by
    have hlength := h₁.length
    rw [h₁.length_eq, hu] at hlength
    have hcast : ((t₁.tab.length - 1 : Nat) : Int) = (t₁.tab.length : Int) - 1 := by omega
    rw [← hcast] at hlength
    exact_mod_cast hlength
  refine ⟨{ t' with used := t'.used + 1 }, ?_, ⟨⟨hshape.size_eq, hshape.pages, ?_⟩, fun hnil => ?_, ?_,
    fun i hi => ?_⟩⟩
  · unfold add
    simp only [heq]
    rw [hu, hassign]
    rfl
  · show t'.used + 1 ≤ t'.size
    omega
  · have hnil' : t₁.tab = [] := eq_nil_of_length_eq_zero (by rw [← htab, hnil]; rfl)
    exact absurd hnil' hne
  · have hlength : t'.length = t₁.length := by
      rw [hshape.length_eq, h₁.length_eq, htab, hused', hsize]
    show ((t'.tab.length : Int) - 1) * 2 ^ t'.shf + (t'.used + 1) = _
    rw [length_append, length_singleton]
    have hsum : ((t'.tab.length : Int) - 1) * 2 ^ t'.shf + t'.used = xs.length := hlength.trans h₁.length
    push_cast
    omega
  · show t'.slot i = _
    rw [hslot, hlast]
    rw [length_append, length_singleton] at hi
    split_ifs with hi'
    · rw [hi', getElem?_concat_length]
    · rw [getElem?_append_left (by omega)]
      exact h₁.content i (by omega)

/-- What the loop of `alloc` keeps; `total` is the length after it. -/
structure Allocating (xs : List T) (total : Int) (n : Nat) (state : FragTable T × Int) : Prop where
  shape : Shape state.1
  empty : state.1.tab = [] → state.1.used = state.1.size
  nonneg : 0 ≤ state.2
  length : state.1.length + state.2 = total
  le : (xs.length : Int) ≤ state.1.length
  content : ∀ i < xs.length, state.1.slot i = xs[i]?
  left : (n : Int) = state.2 + if state.1.used = state.1.size then 1 else 0

theorem allocTurn_spec {total : Int} {n : Nat} {state : FragTable T × Int} (h : Allocating xs total n state) :
    (∃ state' n', allocTurn fresh state = .inl state' ∧ n' < n ∧ Allocating xs total n' state') ∨
      ∃ t', allocTurn fresh state = .inr t' ∧ Shape t' ∧ t'.tab ≠ [] ∧ t'.length = total ∧
        ∀ i < xs.length, t'.slot i = xs[i]? := by
  obtain ⟨t, count⟩ := state
  have hpos : (0 : Int) < t.size := by exact_mod_cast h.shape.size_pos
  have hused : t.used ≤ t.size := h.shape.used_le
  have hnonneg : 0 ≤ count := h.nonneg
  have hlength : t.length + count = total := h.length
  have hleft : (n : Int) = count + if t.used = t.size then 1 else 0 := h.left
  unfold allocTurn
  by_cases hroom : count ≥ t.size - t.used
  · have hpage := @addPage_length T t fresh h.shape
    have htable : t.length = ((t.tab.length : Int) - 1) * t.size + t.used := h.shape.length_eq
    have hcount : (t.addPage fresh).length + (count - (t.size - t.used)) = total := by
      rw [hpage, ← hlength, htable]
      ring
    refine Or.inl ⟨_, (count - (t.size - t.used)).toNat, if_pos hroom, ?_, ?_⟩
    · split_ifs at hleft <;> omega
    · refine ⟨addPage_shape h.shape, fun hnil => ?_, by show 0 ≤ count - (t.size - t.used); omega, hcount, ?_,
        fun i hi => ?_, ?_⟩
      · exact absurd hnil (by simp [addPage])
      · have hle : (xs.length : Int) ≤ t.length := h.le
        show (xs.length : Int) ≤ (t.addPage fresh).length
        have hsplit : (t.tab.length : Int) * t.size = ((t.tab.length : Int) - 1) * t.size + t.size := by ring
        rw [hpage, hsplit]
        rw [htable] at hle
        omega
      · have hlt : (i : Int) < t.length := by
          have hle : (xs.length : Int) ≤ t.length := h.le
          omega
        exact (addPage_slot h.shape hlt).trans (h.content i hi)
      · show ((count - (t.size - t.used)).toNat : Int) = count - (t.size - t.used) +
          if (0 : Int) = t.size then 1 else 0
        rw [if_neg (by omega)]
        omega
  · refine Or.inr ⟨{ t with used := t.used + count }, if_neg hroom, ⟨h.shape.size_eq, h.shape.pages, ?_⟩, ?_, ?_,
      h.content⟩
    · show t.used + count ≤ t.size
      omega
    · intro hnil
      have hempty : t.used = t.size := h.empty hnil
      omega
    · show ((t.tab.length : Int) - 1) * 2 ^ t.shf + (t.used + count) = total
      have hsum : ((t.tab.length : Int) - 1) * 2 ^ t.shf + t.used + count = total := hlength
      omega

theorem filterMap_range {f : Nat → Option T} {n : Nat} (hf : ∀ k < n, ∃ x, f k = some x) :
    ((List.range n).filterMap f).length = n ∧ ∀ k < n, ((List.range n).filterMap f)[k]? = f k := by
  induction n with
  | zero => exact ⟨rfl, nofun⟩
  | succ n ih =>
    obtain ⟨hlen, hget⟩ := ih fun k hk => hf k (by omega)
    obtain ⟨x, hx⟩ := hf n (by omega)
    have hone : [n].filterMap f = [x] := by simp [hx]
    rw [range_succ, filterMap_append, hone]
    refine ⟨by rw [length_append, hlen]; rfl, fun k hk => ?_⟩
    by_cases hkn : k = n
    · have hlast := @getElem?_concat_length T ((List.range n).filterMap f) x
      rw [hlen] at hlast
      rw [hkn, hlast, hx]
    · rw [getElem?_append_left (by omega)]
      exact hget k (by omega)

/-- `alloc` adds elements at the end. -/
theorem alloc_spec (h : t.Holds xs) (count : Nat) :
    ∃ t', t.alloc fresh count = some t' ∧ t'.Holds (xs ++ t'.allocated xs.length count) ∧
      (t'.allocated xs.length count).length = count := by
  have hused := h.used_le
  obtain ⟨t', hrun, hshape, hne, hlength, hcontent⟩ := Loop.exists_run_eq_some (allocTurn fresh)
    (Allocating xs (xs.length + count))
    (fun t' => Shape t' ∧ t'.tab ≠ [] ∧ t'.length = xs.length + count ∧ ∀ i < xs.length, t'.slot i = xs[i]?)
    (fun _ _ h => allocTurn_spec h) (count + 2) (count + if t.used = t.size then 1 else 0) (t, (count : Int))
    ⟨h.toShape, h.empty, Int.natCast_nonneg _, by rw [h.length], Int.le_of_eq h.length.symm, h.content,
      by push_cast; rfl⟩
    (by split_ifs <;> omega)
  have hslots : ∀ k < count, ∃ x, t'.slot (xs.length + k) = some x := by
    intro k hk
    refine hshape.slot_isSome ?_
    rw [hlength]
    push_cast
    omega
  obtain ⟨hlen, hget⟩ := filterMap_range hslots
  refine ⟨t', hrun, ⟨hshape, fun hnil => absurd hnil hne, ?_, fun i hi => ?_⟩, hlen⟩
  · rw [length_append]
    unfold allocated
    rw [hlen, hlength]
    push_cast
    rfl
  · by_cases hold : i < xs.length
    · rw [getElem?_append_left hold]
      exact hcontent i hold
    · rw [length_append] at hi
      unfold allocated at hi ⊢
      rw [hlen] at hi
      rw [getElem?_append_right (by omega), hget (i - xs.length) (by omega)]
      congr 1
      omega

/-! ## `insert` and `removeAt` -/

theorem insert_spec (h : t.Holds xs) {index : Nat} (hindex : index ≤ xs.length) (item : T) :
    ∃ t', t.insert fresh index item = some t' ∧ t'.Holds (xs.insertIdx index item) := by
  obtain ⟨t₁, halloc, h₁, hone⟩ := @alloc_spec T t xs fresh h 1
  have hlen : t.length.toNat = xs.length := by rw [h.length, Int.toNat_natCast]
  -- the elements from the index on are moved, the last one first
  have hloop : ∃ t₂, (List.range (xs.length - index)).foldlM (fun (t : FragTable T) k =>
        (t.get (xs.length - 1 - k)).bind fun value => t.set (xs.length - 1 - k + 1) value) t₁ = some t₂ ∧
      ∃ ys, t₂.Holds ys ∧ ys.length = xs.length + 1 ∧
        (∀ j, j + (xs.length - index) ≤ xs.length → ys[j]? = (xs ++ t₁.allocated xs.length 1)[j]?) ∧
        ∀ j, xs.length < j + (xs.length - index) → j ≤ xs.length → ys[j]? = xs[j - 1]? := by
    refine Loop.exists_foldlM_range (fun k (t : FragTable T) => ∃ ys, t.Holds ys ∧ ys.length = xs.length + 1 ∧
        (∀ j, j + k ≤ xs.length → ys[j]? = (xs ++ t₁.allocated xs.length 1)[j]?) ∧
        ∀ j, xs.length < j + k → j ≤ xs.length → ys[j]? = xs[j - 1]?)
      ⟨_, h₁, by rw [length_append, hone], fun _ _ => rfl, by omega⟩ ?_
    rintro k t' hk ⟨ys, hys, hlenys, hlow, hhigh⟩
    have hread : t'.get (xs.length - 1 - k) = some ys[xs.length - 1 - k] := get_eq hys (by omega)
    obtain ⟨t'', hset, ht'', -, -⟩ := set_spec hys (show xs.length - 1 - k + 1 < ys.length by omega)
      ys[xs.length - 1 - k]
    refine ⟨t'', by rw [hread, Option.bind_some, hset], _, ht'', by rw [length_set, hlenys], fun j hj => ?_,
      fun j hj hj' => ?_⟩
    · rw [getElem?_set_ne (by omega)]
      exact hlow j (by omega)
    · by_cases hmoved : j = xs.length - 1 - k + 1
      · have hvalue := hlow (xs.length - 1 - k) (by omega)
        rw [getElem?_append_left (by omega)] at hvalue
        rw [hmoved, getElem?_set_self (by omega), ← getElem?_eq_getElem, hvalue, Nat.add_sub_cancel]
      · rw [getElem?_set_ne (Ne.symm hmoved)]
        exact hhigh j (by omega) hj'
  obtain ⟨t₂, hmove, ys, h₂, hlenys, hlow, hhigh⟩ := hloop
  obtain ⟨t₃, hset, h₃, -, -⟩ := set_spec h₂ (show index < ys.length by omega) item
  refine ⟨t₃, ?_, ?_⟩
  · unfold insert
    rw [if_pos (by rw [h.length]; exact_mod_cast hindex), halloc, Option.bind_some, hlen, hmove, Option.bind_some,
      hset]
  · have hys : ys.set index item = xs.insertIdx index item := by
      ext1 j
      rcases Nat.lt_trichotomy j index with hj | rfl | hj
      · rw [getElem?_insertIdx_of_lt hj, getElem?_set_ne (by omega), hlow j (by omega),
          getElem?_append_left (by omega)]
      · rw [getElem?_insertIdx_self, if_pos hindex, getElem?_set_self (by omega)]
      · rw [getElem?_insertIdx_of_gt hj, getElem?_set_ne (by omega)]
        by_cases hin : j ≤ xs.length
        · exact hhigh j (by omega) hin
        · rw [getElem?_eq_none (by omega), getElem?_eq_none (by omega)]
    rw [← hys]
    exact h₃

theorem Holds.tab_ne_nil (h : t.Holds xs) (hne : xs ≠ []) : t.tab ≠ [] := by
  intro hnil
  have hlength := h.length
  rw [h.length_eq, hnil, h.empty hnil] at hlength
  have hzero : (xs.length : Int) = 0 := hlength.symm.trans (by simp)
  exact hne (eq_nil_of_length_eq_zero (by exact_mod_cast hzero))

/-- The end of `removeAt`: the last element leaves the table, and its page when it was the only one there. -/
theorem dropLast_spec (h : t.Holds xs) (hne : xs ≠ []) :
    Holds (if t.used - 1 = 0 then { t with tab := t.tab.take (t.tab.length - 1), used := t.size }
      else { t with used := t.used - 1 }) xs.dropLast := by
  have hlen : 0 < xs.length := length_pos_iff.mpr hne
  have htable := h.length_eq
  rw [h.length] at htable
  have hcontent : ∀ i < xs.dropLast.length, t.slot i = xs.dropLast[i]? := by
    intro i hi
    rw [length_dropLast] at hi
    rw [getElem?_dropLast, if_pos (by omega)]
    exact h.content i (by omega)
  split_ifs with hone
  · have hused : t.used = 1 := by omega
    have hpos : 0 < t.tab.length := length_pos_iff.mpr (h.tab_ne_nil hne)
    have htake : (t.tab.take (t.tab.length - 1)).length = t.tab.length - 1 := by
      rw [length_take, Nat.min_eq_left (by omega)]
    have hshape : Shape { t with tab := t.tab.take (t.tab.length - 1), used := (t.size : Int) } :=
      ⟨h.size_eq, fun page hpage => h.pages page (mem_of_mem_take hpage), Int.le_refl _⟩
    have hlength : (xs.length : Int) - 1 = ((t.tab.length - 1 : Nat) : Int) * t.size := by
      rw [htable, hused]
      push_cast [hpos]
      ring
    refine ⟨hshape, fun _ => rfl, ?_, fun i hi => ?_⟩
    · rw [hshape.length_eq]
      show (((t.tab.take (t.tab.length - 1)).length : Int) - 1) * t.size + t.size = _
      rw [htake, length_dropLast]
      have hsplit : (((t.tab.length - 1 : Nat) : Int) - 1) * t.size + t.size =
          ((t.tab.length - 1 : Nat) : Int) * t.size := by ring
      rw [hsplit, ← hlength]
      omega
    · rw [← hcontent i hi, hshape.slot_eq, h.slot_eq]
      rw [length_dropLast] at hi
      have hpage : i / t.size < t.tab.length - 1 := by
        rw [Nat.div_lt_iff_lt_mul h.size_pos]
        have hlt : (i : Int) < ((t.tab.length - 1 : Nat) : Int) * t.size := by omega
        exact_mod_cast hlt
      show ((t.tab.take (t.tab.length - 1))[i / t.size]?).bind _ = _
      rw [getElem?_take_of_lt hpage]
  · have hused := h.used_le
    refine ⟨⟨h.size_eq, h.pages, ?_⟩, fun hnil => ?_, ?_, hcontent⟩
    · show t.used - 1 ≤ t.size
      omega
    · exact absurd hnil (h.tab_ne_nil hne)
    · show ((t.tab.length : Int) - 1) * 2 ^ t.shf + (t.used - 1) = _
      have hlength := h.length
      unfold FragTable.length at hlength
      rw [length_dropLast]
      omega

theorem removeAt_spec (h : t.Holds xs) {index : Nat} (hindex : index < xs.length) :
    ∃ t', t.removeAt index = some t' ∧ t'.Holds (xs.eraseIdx index) := by
  have hlen : t.length.toNat = xs.length := by rw [h.length, Int.toNat_natCast]
  -- the elements after the index are moved, the first one first
  have hloop : ∃ t₁, (List.range (xs.length - (index + 1))).foldlM (fun (t : FragTable T) k =>
        (t.get (index + 1 + k)).bind fun value => t.set (index + k) value) t = some t₁ ∧
      ∃ ys, t₁.Holds ys ∧ ys.length = xs.length ∧ (∀ j < index, ys[j]? = xs[j]?) ∧
        (∀ j, index ≤ j → j < index + (xs.length - (index + 1)) → ys[j]? = xs[j + 1]?) ∧
        ∀ j, index + (xs.length - (index + 1)) ≤ j → ys[j]? = xs[j]? := by
    refine Loop.exists_foldlM_range (fun k (t : FragTable T) => ∃ ys, t.Holds ys ∧ ys.length = xs.length ∧
        (∀ j < index, ys[j]? = xs[j]?) ∧ (∀ j, index ≤ j → j < index + k → ys[j]? = xs[j + 1]?) ∧
        ∀ j, index + k ≤ j → ys[j]? = xs[j]?)
      ⟨xs, h, rfl, fun _ _ => rfl, by omega, fun _ _ => rfl⟩ ?_
    rintro k t' hk ⟨ys, hys, hlenys, hlow, hmoved, hhigh⟩
    have hread : t'.get (index + 1 + k) = some ys[index + 1 + k] := get_eq hys (by omega)
    obtain ⟨t'', hset, ht'', -, -⟩ := set_spec hys (show index + k < ys.length by omega) ys[index + 1 + k]
    refine ⟨t'', by rw [hread, Option.bind_some, hset], _, ht'', by rw [length_set, hlenys], fun j hj => ?_,
      fun j hj hj' => ?_, fun j hj => ?_⟩
    · rw [getElem?_set_ne (by omega)]
      exact hlow j hj
    · by_cases hnow : j = index + k
      · have hvalue := hhigh (index + 1 + k) (by omega)
        rw [hnow, getElem?_set_self (by omega), ← getElem?_eq_getElem, hvalue]
        congr 1
        omega
      · rw [getElem?_set_ne (Ne.symm hnow)]
        exact hmoved j hj (by omega)
    · rw [getElem?_set_ne (by omega)]
      exact hhigh j (by omega)
  obtain ⟨t₁, hmove, ys, h₁, hlenys, hlow, hmoved, hhigh⟩ := hloop
  have hne : ys ≠ [] := length_pos_iff.mp (by omega)
  have hys : ys.dropLast = xs.eraseIdx index := by
    ext1 j
    rw [getElem?_dropLast]
    by_cases hlast : j < ys.length - 1
    · rw [if_pos hlast]
      by_cases hj : j < index
      · rw [getElem?_eraseIdx_of_lt hj]
        exact hlow j hj
      · rw [getElem?_eraseIdx_of_ge (by omega)]
        exact hmoved j (by omega) (by omega)
    · rw [if_neg hlast, getElem?_eq_none]
      rw [length_eraseIdx_of_lt hindex]
      omega
  refine ⟨_, ?_, hys ▸ dropLast_spec h₁ hne⟩
  unfold removeAt
  simp only [hlen, hmove, Option.map_some]

/-! ## `shrink` and `clear` -/

theorem shrink_spec (h : t.Holds xs) {length : Nat} (hlength : length < xs.length) :
    ∃ t', t.shrink length = some t' ∧ t'.Holds (xs.take length) := by
  have hpos := h.size_pos
  have hlt : (length : Int) < t.length := by
    rw [h.length]
    exact_mod_cast hlength
  have hmask : length &&& (t.size - 1) = length % t.size := by
    rw [h.size_eq, Nat.and_two_pow_sub_one_eq_mod]
  have hshift : (length + (t.size - 1)) >>> t.shf = (length + (t.size - 1)) / t.size := by
    rw [Nat.shiftRight_eq_div_pow, h.size_eq]
  have hdiv := Nat.div_add_mod length t.size
  have hmod := Nat.mod_lt length hpos
  have hpages := h.lt_pages hlt
  -- the number of pages that remain
  have hnl : (length + (t.size - 1)) / t.size = length / t.size + if length % t.size = 0 then 0 else 1 := by
    have hsum : length + (t.size - 1) = t.size * (length / t.size) + (length % t.size + (t.size - 1)) := by omega
    rw [hsum, Nat.mul_add_div hpos]
    congr 1
    split_ifs with hzero
    · rw [hzero, Nat.zero_add]
      exact Nat.div_eq_of_lt (by omega)
    · rw [show length % t.size + (t.size - 1) = t.size * 1 + (length % t.size - 1) by omega, Nat.mul_add_div hpos,
        Nat.div_eq_of_lt (by omega)]
  have hle : (length + (t.size - 1)) / t.size ≤ t.tab.length := by
    rw [hnl]
    split_ifs <;> omega
  have hshape : Shape { t with
      tab := t.tab.take ((length + (t.size - 1)) / t.size),
      used := if length % t.size = 0 then (t.size : Int) else (length % t.size : Nat) } := by
    refine ⟨h.size_eq, fun page hpage => h.pages page (mem_of_mem_take hpage), ?_⟩
    show (if length % t.size = 0 then (t.size : Int) else (length % t.size : Nat)) ≤ t.size
    split_ifs <;> omega
  refine ⟨_, ?_, ⟨hshape, fun hnil => ?_, ?_, fun i hi => ?_⟩⟩
  · unfold shrink
    rw [if_pos hlt]
    simp only [hmask, hshift]
  · have hzero : (t.tab.take ((length + (t.size - 1)) / t.size)).length = 0 := by
      rw [show t.tab.take ((length + (t.size - 1)) / t.size) = [] from hnil]
      rfl
    rw [length_take, Nat.min_eq_left hle, hnl] at hzero
    show (if length % t.size = 0 then (t.size : Int) else (length % t.size : Nat)) = t.size
    split_ifs at hzero ⊢ with hrest
    rfl
  · rw [hshape.length_eq]
    show (((t.tab.take ((length + (t.size - 1)) / t.size)).length : Int) - 1) * t.size +
      (if length % t.size = 0 then (t.size : Int) else (length % t.size : Nat)) = _
    rw [length_take, Nat.min_eq_left hle, hnl, length_take, Nat.min_eq_left (by omega)]
    have hcast : (length : Int) = t.size * (length / t.size : Nat) + (length % t.size : Nat) := by exact_mod_cast hdiv.symm
    split_ifs with hzero
    · rw [hcast, hzero]
      push_cast
      ring
    · rw [hcast]
      push_cast
      ring
  · rw [length_take, Nat.min_eq_left (by omega)] at hi
    have hpage : i / t.size < (length + (t.size - 1)) / t.size := by
      rw [hnl, Nat.div_lt_iff_lt_mul hpos]
      split_ifs with hzero
      · rw [Nat.add_zero, Nat.mul_comm]
        omega
      · rw [Nat.add_mul, Nat.mul_comm]
        omega
    rw [getElem?_take_of_lt hi, ← h.content i (by omega), hshape.slot_eq, h.slot_eq]
    show ((t.tab.take ((length + (t.size - 1)) / t.size))[i / t.size]?).bind _ = _
    rw [getElem?_take_of_lt hpage]

theorem clear_holds (h : Shape t) : t.clear.Holds ([] : List T) := by
  have hshape : Shape t.clear := ⟨h.size_eq, nofun, Int.le_refl _⟩
  refine ⟨hshape, fun _ => rfl, ?_, nofun⟩
  rw [hshape.length_eq]
  show ((0 : Int) - 1) * t.size + t.size = 0
  ring

theorem range_length (h : t.Holds xs) : List.range t.length.toNat = range' 0 xs.length := by
  rw [h.length, Int.toNat_natCast, range_eq_range']

theorem containsLoop_eq (isEqual : T → T → Bool) (t : FragTable T) (v : T) (ys : List T) (s : Nat)
    (hget : ∀ i < ys.length, t.get (s + i) = ys[i]?) :
    containsLoop isEqual t v (range' s ys.length) = some (ys.any fun x => isEqual x v) := by
  induction ys generalizing s with
  | nil => rfl
  | cons y ys ih =>
    have hfirst := hget 0 (by simp)
    rw [Nat.add_zero, getElem?_cons_zero] at hfirst
    rw [length_cons, range'_succ, containsLoop, hfirst, Option.bind_some, any_cons]
    split_ifs with hequal
    · rw [hequal, Bool.true_or]
    · rw [ih (s + 1) fun i hi => ?_]
      · simp [hequal]
      · have hnext := hget (i + 1) (by rw [length_cons]; omega)
        rw [getElem?_cons_succ] at hnext
        rw [← hnext]
        congr 1
        omega

theorem contains_eq (isEqual : T → T → Bool) (h : t.Holds xs) (v : T) :
    t.contains isEqual v = some (xs.any fun x => isEqual x v) := by
  unfold contains
  rw [range_length h]
  refine containsLoop_eq isEqual t v xs 0 fun i hi => ?_
  rw [Nat.zero_add, get_eq h hi, getElem?_eq_getElem hi]

/-- `containsAll` has no other answer than `false`. -/
theorem containsAll_eq (isEqual : T → T → Bool) (h : t.Holds xs) (c : List T) :
    t.containsAll isEqual c = some false := by
  induction c with
  | nil => rfl
  | cons v c ih =>
    rw [containsAll, contains_eq isEqual h v, Option.bind_some]
    split_ifs
    · exact ih
    · rfl

theorem mapM_range' (f : Nat → Option T) (ys : List T) (s : Nat) (hf : ∀ i < ys.length, f (s + i) = ys[i]?) :
    (range' s ys.length).mapM f = some ys := by
  induction ys generalizing s with
  | nil => rfl
  | cons y ys ih =>
    have hfirst := hf 0 (by simp)
    rw [Nat.add_zero, getElem?_cons_zero] at hfirst
    have hrest := ih (s + 1) fun i hi => by
      have hnext := hf (i + 1) (by rw [length_cons]; omega)
      rw [getElem?_cons_succ] at hnext
      rw [← hnext]
      congr 1
      omega
    rw [length_cons, range'_succ, mapM_cons, hfirst, hrest]
    rfl

theorem items_eq (h : t.Holds xs) : t.items = some xs := by
  unfold items
  rw [range_length h]
  refine mapM_range' t.get xs 0 fun i hi => ?_
  rw [Nat.zero_add, get_eq h hi, getElem?_eq_getElem hi]

/-! ## Runs -/

/-- The invariant of the runs. -/
def Pair.Good (s : Pair T) : Prop := s.table.Holds s.list

theorem step_good (s : Pair T) (op : Op T) (h : s.Good) (hcond : Valid s op ∧ InPage s op) :
    ∃ s', step fresh s op = some s' ∧ s'.Good := by
  obtain ⟨hvalid, hpage⟩ := hcond
  cases op with
  | add value =>
    obtain ⟨t', hadd, h'⟩ := add_spec h hpage value
    exact ⟨⟨t', s.list ++ [value]⟩, by rw [step, hadd]; rfl, h'⟩
  | alloc count =>
    obtain ⟨t', halloc, h', -⟩ := alloc_spec h count
    exact ⟨⟨t', s.list ++ t'.allocated s.list.length count⟩, by rw [step, halloc]; rfl, h'⟩
  | set index value =>
    obtain ⟨t', hset, h', -⟩ := set_spec h hvalid value
    exact ⟨⟨t', s.list.set index value⟩, by rw [step, hset]; rfl, h'⟩
  | insert index item =>
    obtain ⟨t', hinsert, h'⟩ := insert_spec h hvalid item
    exact ⟨⟨t', s.list.insertIdx index item⟩, by rw [step, hinsert]; rfl, h'⟩
  | removeAt index =>
    obtain ⟨t', hremove, h'⟩ := removeAt_spec h hvalid
    exact ⟨⟨t', s.list.eraseIdx index⟩, by rw [step, hremove]; rfl, h'⟩
  | shrink length =>
    obtain ⟨t', hshrink, h'⟩ := shrink_spec h hvalid
    exact ⟨⟨t', s.list.take length⟩, by rw [step, hshrink]; rfl, h'⟩
  | clear => exact ⟨_, rfl, clear_holds h.toShape⟩

/-- Everything agrees but the answers of `isEmpty` and `containsAll`. -/
theorem Pair.Good.agrees_iff (isEqual : T → T → Bool) (c : List T) {s : Pair T} (h : s.Good) :
    Agrees isEqual c s ↔
      (s.list = [] → s.table.tab = []) ∧ ∃ v ∈ c, (s.list.any fun x => isEqual x v) = false := by
  have hempty : s.table.isEmpty = s.list.isEmpty ↔ (s.list = [] → s.table.tab = []) := by
    have hne := Holds.tab_ne_nil h
    unfold isEmpty
    rw [Bool.eq_iff_iff, List.isEmpty_iff, decide_eq_true_iff, length_eq_zero_iff]
    constructor
    · exact fun hiff hlist => hiff.mpr hlist
    · intro himp
      constructor
      · intro htab
        by_contra hlist
        exact hne hlist htab
      · exact himp
  have hall : s.table.containsAll isEqual c = some (c.all fun v => s.list.any fun x => isEqual x v) ↔
      ∃ v ∈ c, (s.list.any fun x => isEqual x v) = false := by
    rw [containsAll_eq isEqual h, Option.some.injEq, eq_comm, all_eq_false]
    simp only [Bool.not_eq_true]
  constructor
  · intro hagrees
    exact ⟨hempty.mp hagrees.isEmpty, hall.mp hagrees.containsAll⟩
  · rintro ⟨hpages, hmissing⟩
    refine ⟨h.length, fun i hi => ?_, hempty.mpr hpages, contains_eq isEqual h, hall.mpr hmissing, items_eq h⟩
    rw [get_eq h hi, getElem?_eq_getElem hi]

end Elm.Data.FragTable
