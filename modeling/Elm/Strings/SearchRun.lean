import Elm.Strings.Search

/-!
# What the searches of `String` find

A candidate is misled when the comparison through `substring` does not tell whether the pattern occurs there: it goes
over the end of the string and finds the pattern in the rest of the buffer, or the 16-bit offset of the substring
wraps.
-/

namespace Elm.Strings

open Occurrence List Option

theorem memcmp_eq_zero_iff {as bs : List UInt8} (hlen : as.length = bs.length) : memcmp as bs = 0 ↔ as = bs := by
  induction as generalizing bs with
  | nil =>
    obtain rfl := length_eq_zero_iff.mp hlen.symm
    exact iff_of_true rfl rfl
  | cons a as ih =>
    cases bs with
    | nil => cases hlen
    | cons b bs =>
      have hlen' : as.length = bs.length := Nat.succ.inj hlen
      rw [memcmp]
      split_ifs with hab
      · rw [ih hlen', hab]
        simp
      · have hne : a.toNat ≠ b.toNat := fun h => hab (UInt8.toNat_inj.mp h)
        refine iff_of_false (by omega) fun h => hab (List.cons.inj h).1

namespace Text

/-- The characters of the string. -/
def view (s : Text) : List UInt8 := (s.buf.drop s.off).take s.len

/-- The members fit in their types, and the characters are in the buffer. -/
structure Valid (s : Text) : Prop where
  off_lt : s.off < 2 ^ 16
  len_lt : s.len < 2 ^ 16
  inside : s.off + s.len ≤ s.buf.length

/-- The comparison at a candidate does not tell whether the pattern occurs there. -/
def Misled (s pat : Text) (j : Nat) : Prop :=
  s.charAt j = pat.charAt 0 ∧ (s.substring j pat.len).equals pat ≠ some (decide (OccursAt pat.view s.view j))

/-- The pattern would end after the string, and is in the buffer, or is not because the buffer ends too. -/
def Overruns (s pat : Text) (j : Nat) : Prop :=
  j < s.len ∧ s.len < j + pat.len ∧ s.charAt j = pat.charAt 0 ∧
    (s.buf.length < s.off + j + pat.len ∨ (s.buf.drop (s.off + j)).take pat.len = pat.view)

section View

variable {s pat : Text} {j : Nat}

theorem Valid.length (h : s.Valid) : s.view.length = s.len := by
  have hinside := h.inside
  rw [view, length_take, length_drop]
  omega

theorem Valid.chars (h : s.Valid) : s.chars = some s.view := by
  have hinside := h.inside
  rw [Text.chars, read, if_pos (by omega)]
  rfl

theorem Valid.view_ne_nil (h : s.Valid) (hlen : s.len ≠ 0) : s.view ≠ [] := by
  intro hnil
  have hlength := h.length
  rw [hnil] at hlength
  exact hlen hlength.symm

theorem charAt_eq (hj : j < s.len) : s.charAt j = s.view[j]? := by
  rw [charAt, view, getElem?_take_of_lt hj, getElem?_drop]

theorem Valid.charAt_isSome (h : s.Valid) (hj : j < s.len) : ∃ c, s.charAt j = some c := by
  have hinside := h.inside
  exact ⟨_, getElem?_eq_getElem (by omega)⟩

/-- A turn of `indexOf(char)`, at the first character of what is left. -/
theorem Valid.indexOfChar_turn (h : s.Valid) (chr : UInt8) {c : UInt8} {cs : List UInt8}
    (hdrop : s.view.drop j = c :: cs) :
    s.indexOfChar chr j = (if c = chr then some (j : Int) else s.indexOfChar chr (j + 1)) ∧
      s.view.drop (j + 1) = cs := by
  have hj : j < s.len := by
    have hlen := congrArg List.length hdrop
    rw [length_drop, h.length, length_cons] at hlen
    omega
  have hchar : s.charAt j = some c := by
    rw [charAt_eq hj, ← head?_drop, hdrop, head?_cons]
  refine ⟨by rw [indexOfChar_cons hj, hchar, bind_some], ?_⟩
  rw [← tail_drop, hdrop, tail_cons]

/-- `indexOf(char)` finds the first character of this value. -/
theorem Valid.indexOfChar_found (h : s.Valid) {chr : UInt8} {front back : List UInt8} (hfront : chr ∉ front)
    (hdrop : s.view.drop j = front ++ chr :: back) : s.indexOfChar chr j = some ((j + front.length : Nat) : Int) := by
  induction front generalizing j with
  | nil =>
    obtain ⟨hturn, -⟩ := h.indexOfChar_turn chr hdrop
    rw [hturn, if_pos rfl]
    rfl
  | cons c front ih =>
    obtain ⟨hne, hfront'⟩ := not_or.mp (mem_cons.not.mp hfront)
    obtain ⟨hturn, hdrop'⟩ := h.indexOfChar_turn chr hdrop
    rw [hturn, if_neg (Ne.symm hne), ih hfront' hdrop', length_cons, Nat.add_assoc, Nat.add_comm 1]

theorem Valid.indexOfChar_none (h : s.Valid) {chr : UInt8} (hnone : chr ∉ s.view.drop j) :
    s.indexOfChar chr j = some (-1) := by
  generalize hrest : s.view.drop j = rest at hnone
  induction rest generalizing j with
  | nil =>
    have hzero : s.len - j = 0 := by
      have hle := drop_eq_nil_iff.mp hrest
      rw [h.length] at hle
      exact Nat.sub_eq_zero_of_le hle
    rw [indexOfChar, hzero, indexOfCharFrom]
  | cons c rest ih =>
    obtain ⟨hne, hnone'⟩ := not_or.mp (mem_cons.not.mp hnone)
    obtain ⟨hturn, hdrop⟩ := h.indexOfChar_turn chr hrest
    rw [hturn, if_neg (Ne.symm hne), ih hdrop hnone']

/-- Inside the string, the pattern occurs if its bytes are there. -/
theorem occursAt_iff (hpat : pat.Valid) (hj : j + pat.len ≤ s.len) :
    OccursAt pat.view s.view j ↔ (s.buf.drop (s.off + j)).take pat.len = pat.view := by
  rw [Occurrence.occursAt_iff, hpat.length, view, drop_take, drop_drop, take_take,
    Nat.min_eq_left (by omega)]

theorem Valid.le_of_occurs (h : s.Valid) (hpat : pat.Valid) (hlen : pat.len ≠ 0)
    (hoccurs : OccursAt pat.view s.view j) :
    j + pat.len ≤ s.len := by
  have hle := hoccurs.le (hpat.view_ne_nil hlen)
  rwa [h.length, hpat.length] at hle

/-- An occurrence starts with the first character of the pattern. -/
theorem Valid.charAt_of_occurs (h : s.Valid) (hpat : pat.Valid) (hlen : pat.len ≠ 0)
    (hoccurs : OccursAt pat.view s.view j) : s.charAt j = pat.charAt 0 := by
  have hle := h.le_of_occurs hpat hlen hoccurs
  obtain ⟨rest, hrest⟩ := hoccurs
  rw [charAt_eq (by omega), charAt_eq (by omega)]
  have hget := congrArg (fun l => l[0]?) hrest
  simp only [getElem?_drop, Nat.add_zero] at hget
  rw [← hget, getElem?_append_left (by rw [hpat.length]; omega)]

theorem length_of_read {pos n : Nat} {a : List UInt8} (h : s.read pos n = some a) : a.length = n := by
  unfold read at h
  split_ifs at h with hin
  rw [← some.inj h, length_take, length_drop]
  omega

/-- `operator==`, on a string as long as the pattern. -/
theorem equals_eq (hpat : pat.Valid) (hlen : s.len = pat.len) :
    s.equals pat = (s.read 0 pat.len).map fun a => decide (a = pat.view) := by
  have hchars := hpat.chars
  rw [Text.chars] at hchars
  unfold equals compare
  simp only [hlen, gt_iff_lt, Nat.lt_irrefl, if_false, hchars, map_some]
  cases hread : s.read 0 pat.len with
  | none => rfl
  | some a =>
    have hlength : a.length = pat.view.length := by rw [length_of_read hread, hpat.length]
    simp only [bind_some, map_some, Int.sub_self]
    congr 1
    by_cases hequal : a = pat.view
    · have hzero := (memcmp_eq_zero_iff hlength).mpr hequal
      rw [hzero, hequal]
      simp
    · have hne : memcmp a pat.view ≠ 0 := fun h => hequal ((memcmp_eq_zero_iff hlength).mp h)
      simp [hne, hequal]

theorem Valid.verdict_eq (h : s.Valid) (hpat : pat.Valid) (hlen : pat.len ≠ 0) (hj : j < s.len) :
    s.verdict pat j = some (decide (OccursAt pat.view s.view j)) ↔ ¬ Misled s pat j := by
  obtain ⟨c₀, hc₀⟩ := hpat.charAt_isSome (Nat.pos_of_ne_zero hlen)
  obtain ⟨c, hc⟩ := h.charAt_isSome hj
  unfold verdict Misled
  rw [hc₀, hc, bind_some, bind_some, some.injEq, not_and, not_not]
  split_ifs with hfirst
  · exact ⟨fun h _ => h, fun h => h hfirst⟩
  · refine iff_of_true ?_ fun h => absurd h hfirst
    have hnot : ¬ OccursAt pat.view s.view j := by
      intro hoccurs
      have hchar := h.charAt_of_occurs hpat hlen hoccurs
      rw [hc, hc₀] at hchar
      exact hfirst (some.inj hchar)
    rw [decide_eq_false hnot]

/-- In a string that ends in the first 65536 bytes of its buffer. -/
theorem Valid.misled_iff (h : s.Valid) (hpat : pat.Valid) (hlen : pat.len ≠ 0) (hfits : s.off + s.len ≤ 2 ^ 16)
    (hj : j < s.len) : Misled s pat j ↔ Overruns s pat j := by
  have hinside := h.inside
  have hpatlen := hpat.len_lt
  have hsub : (s.substring j pat.len).read 0 pat.len = s.read j pat.len := by
    have hoff : (((s.off : Int) + j) % 2 ^ 16).toNat = s.off + j := by omega
    simp only [substring, read, hoff, Nat.add_zero]
  have hsublen : (s.substring j pat.len).len = pat.len := by
    simp only [substring]
    omega
  unfold Misled Overruns
  rw [equals_eq hpat hsublen, hsub, read]
  by_cases hover : s.len < j + pat.len
  · -- there is no occurrence, but the bytes after the end may be equal
    have hnot : ¬ OccursAt pat.view s.view j := fun hoccurs => by
      have := h.le_of_occurs hpat hlen hoccurs
      omega
    rw [decide_eq_false hnot]
    split_ifs with hread
    · have hout : ¬ s.buf.length < s.off + j + pat.len := by omega
      simp [hj, hover, hout]
    · have hout : s.buf.length < s.off + j + pat.len := by omega
      simp [hj, hover, hout]
  · have hoccurs := Text.occursAt_iff hpat (show j + pat.len ≤ s.len by omega)
    rw [if_pos (by omega), map_some]
    refine iff_of_false (fun hmisled => hmisled.2 ?_) fun hmisled => hover hmisled.2.1
    simp only [hoccurs]

end View

/-! ## `indexOf` and `lastIndexOf` -/

/-- The least index of an occurrence from `pos` on, or `-1`. -/
def IsIndex (s pat : Text) (pos : Nat) (r : Int) : Prop :=
  (∃ i : Nat, r = i ∧ First pat.view s.view pos i) ∨ (r = -1 ∧ Absent pat.view s.view pos)

/-- The greatest index of an occurrence, or `-1`. -/
def IsLastIndex (s pat : Text) (r : Int) : Prop :=
  (∃ i : Nat, r = i ∧ Last pat.view s.view i) ∨ (r = -1 ∧ Absent pat.view s.view 0)

/-- No candidate is misled from `pos` to the first occurrence; a search from a negative index gives up. -/
def IndexMeets (s pat : Text) (pos : Int) : Prop :=
  if pos < 0 then Absent pat.view s.view 0
  else ∀ j, pos.toNat ≤ j → j < s.len → (∀ k, pos.toNat ≤ k → k < j → ¬ OccursAt pat.view s.view k) → ¬ Misled s pat j

/-- No candidate is misled from the last occurrence on. -/
def LastIndexMeets (s pat : Text) : Prop :=
  ∀ j, j < s.len → (∀ k, j < k → ¬ OccursAt pat.view s.view k) → ¬ Misled s pat j

section Index

variable {s pat : Text}

theorem index_eq_natCast {res : Option Nat} {i : Nat} : index res = i ↔ res = some i := by
  cases res with
  | none => exact iff_of_false (by rw [index]; omega) (by simp)
  | some k => rw [index, some.injEq, Nat.cast_inj]

theorem index_eq_neg {res : Option Nat} : index res = -1 ↔ res = none := by
  cases res with
  | none => exact iff_of_true rfl rfl
  | some k => exact iff_of_false (by rw [index]; omega) (by simp)

theorem Valid.absent_iff (h : s.Valid) (hpat : pat.Valid) (hlen : pat.len ≠ 0) {pos : Nat} :
    Absent pat.view s.view pos ↔ ∀ j, pos ≤ j → j < s.len → ¬ OccursAt pat.view s.view j := by
  refine ⟨fun habsent j hle _ => habsent j hle, fun hall j hle hoccurs => ?_⟩
  have hin := h.le_of_occurs hpat hlen hoccurs
  exact hall j hle (by omega) hoccurs

/-- `indexOf` finds the first occurrence if and only if no candidate before it is misled. -/
theorem Valid.indexOf_iff (h : s.Valid) (hpat : pat.Valid) (hlen : pat.len ≠ 0) (pos : Int) :
    (∃ r, s.indexOf pat pos = some r ∧ IsIndex s pat pos.toNat r) ↔ IndexMeets s pat pos := by
  obtain ⟨c₀, hc₀⟩ := hpat.charAt_isSome (Nat.pos_of_ne_zero hlen)
  unfold IndexMeets
  split_ifs with hneg
  · -- a negative position gives -1 at once
    have hturn : indexTurn s pat pos = some (.inr (-1)) := by rw [indexTurn, if_pos hneg]
    have hzero : pos.toNat = 0 := by omega
    rw [indexOf, if_neg hlen, Loop.attempt_succ_inr hturn, hzero]
    constructor
    · rintro ⟨r, hr, ⟨i, hi, -⟩ | ⟨-, habsent⟩⟩
      · have := some.inj hr
        omega
      · exact habsent
    · exact fun habsent => ⟨-1, rfl, Or.inr ⟨rfl, habsent⟩⟩
  · -- the candidates are the indices up to the end, in ascending order
    obtain ⟨pos, rfl⟩ := Int.eq_ofNat_of_zero_le (not_lt.mp hneg)
    have hmem : ∀ j, j ∈ List.range' pos (s.len - pos) ↔ pos ≤ j ∧ j < s.len := by
      intro j
      rw [mem_range'_1]
      omega
    have hscan := @scan_iff _ (s.verdict pat) _ (· < ·) (fun _ _ => Nat.lt_asymm)
      (OccursAt pat.view s.view) _ (pairwise_lt_range' (s := pos) (n := s.len - pos))
    have hleads : ∀ res, IsIndex s pat pos (index res) ↔
        Leads (· < ·) (OccursAt pat.view s.view) (List.range' pos (s.len - pos)) res := by
      intro res
      unfold IsIndex Leads
      refine or_congr ?_ ?_
      · constructor
        · rintro ⟨i, hi, hfirst⟩
          obtain rfl := index_eq_natCast.mp hi
          have hin := h.le_of_occurs hpat hlen hfirst.occurs
          exact ⟨i, (hmem i).mpr ⟨hfirst.le, by omega⟩, rfl, hfirst.occurs,
            fun k hk => hfirst.least k ((hmem k).mp hk).1⟩
        · rintro ⟨i, hi, rfl, hoccurs, hbefore⟩
          refine ⟨i, rfl, ((hmem i).mp hi).1, hoccurs, fun k hle hlt => ?_⟩
          exact hbefore k ((hmem k).mpr ⟨hle, hlt.trans ((hmem i).mp hi).2⟩) hlt
      · rw [index_eq_neg, h.absent_iff hpat hlen]
        simp only [hmem, and_imp]
    rw [indexOf_eq hc₀ hlen, Int.toNat_natCast]
    simp only [map_eq_some_iff, exists_exists_and_eq_and, hleads]
    rw [hscan]
    simp only [hmem, and_imp]
    refine forall_congr' fun j => forall_congr' fun hle => forall_congr' fun hlt => ?_
    rw [h.verdict_eq hpat hlen hlt]
    refine imp_congr ⟨fun hall k hle' hlt' => hall k hle' (hlt'.trans hlt) hlt', fun hall k hle' _ => hall k hle'⟩ Iff.rfl

/-- `lastIndexOf` finds the last occurrence if and only if no candidate behind it is misled. -/
theorem Valid.lastIndexOf_iff (h : s.Valid) (hpat : pat.Valid) (hlen : pat.len ≠ 0) :
    (∃ r, s.lastIndexOf pat = some r ∧ IsLastIndex s pat r) ↔ LastIndexMeets s pat := by
  obtain ⟨c₀, hc₀⟩ := hpat.charAt_isSome (Nat.pos_of_ne_zero hlen)
  have hmem : ∀ j, j ∈ (List.range s.len).reverse ↔ j < s.len := by
    intro j
    rw [mem_reverse, mem_range]
  have hsorted : (List.range s.len).reverse.Pairwise (· > ·) :=
    pairwise_reverse.mpr pairwise_lt_range
  have hscan := @scan_iff _ (s.verdict pat) _ (· > ·) (fun _ _ => Nat.lt_asymm) (OccursAt pat.view s.view) _ hsorted
  have hleads : ∀ res, IsLastIndex s pat (index res) ↔
      Leads (· > ·) (OccursAt pat.view s.view) (List.range s.len).reverse res := by
    intro res
    unfold IsLastIndex Leads
    refine or_congr ?_ ?_
    · constructor
      · rintro ⟨i, hi, hlast⟩
        obtain rfl := index_eq_natCast.mp hi
        have hin := h.le_of_occurs hpat hlen hlast.occurs
        exact ⟨i, (hmem i).mpr (by omega), rfl, hlast.occurs, fun k _ => hlast.greatest k⟩
      · rintro ⟨i, -, rfl, hoccurs, hbehind⟩
        refine ⟨i, rfl, hoccurs, fun k hlt hoccurs' => ?_⟩
        have hin := h.le_of_occurs hpat hlen hoccurs'
        exact hbehind k ((hmem k).mpr (by omega)) hlt hoccurs'
    · rw [index_eq_neg, h.absent_iff hpat hlen]
      simp only [hmem, Nat.zero_le, true_imp_iff]
  rw [lastIndexOf_eq hc₀ hlen]
  simp only [map_eq_some_iff, exists_exists_and_eq_and, hleads]
  rw [hscan]
  simp only [hmem]
  refine forall_congr' fun j => forall_congr' fun hlt => ?_
  rw [h.verdict_eq hpat hlen hlt]
  refine imp_congr ⟨fun hall k hlt' hoccurs => ?_, fun hall k _ => hall k⟩ Iff.rfl
  have hin := h.le_of_occurs hpat hlen hoccurs
  exact hall k (by omega) hlt' hoccurs

end Index

end Text

end Elm.Strings
