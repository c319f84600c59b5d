import Elm.Strings.SearchRun

/-!
# `replace`

The loop of `replace` searches what is left of the string after each occurrence.  What is left is a substring of the
same buffer, and a candidate that goes over its end makes a substring of a negative length, that is of nearly 65536
characters.
-/

namespace Elm.Strings

open Occurrence List Option

namespace Text

/-- The string ends in the first 65536 bytes of its buffer: the offset of no substring wraps. -/
def Fits (s : Text) : Prop := s.off + s.len ≤ 2 ^ 16

theorem Valid.fits {s : Text} (h : s.Valid) (hbuf : s.buf.length < 2 ^ 16) : s.Fits := by
  have hinside := h.inside
  unfold Fits
  omega

section Replace

variable {s c pat sub : Text} {j k : Nat}

/-! ## What is left of a string -/

theorem Valid.substringFrom_spec (h : c.Valid) (hfits : c.Fits) (hk : k ≤ c.len) :
    (c.substringFrom k).Valid ∧ (c.substringFrom k).Fits ∧ (c.substringFrom k).view = c.view.drop k ∧
      (c.substringFrom k).len = c.len - k ∧ ∀ j, Overruns (c.substringFrom k) pat j ↔ Overruns c pat (k + j) := by
  have hoff := h.off_lt
  have hlen := h.len_lt
  have hinside := h.inside
  unfold Fits at hfits
  have hlen' : (c.substringFrom k).len = c.len - k := by
    simp only [substringFrom, substring]
    omega
  by_cases hend : c.off + k = 2 ^ 16
  · -- nothing is left, at the end of the 65536 bytes
    have hoff' : (c.substringFrom k).off = 0 := by
      simp only [substringFrom, substring]
      omega
    have hzero : (c.substringFrom k).len = 0 := by omega
    have hbuf : (c.substringFrom k).buf = c.buf := rfl
    refine ⟨⟨by omega, by omega, by omega⟩, by rw [Fits]; omega, ?_, hlen', fun j => ?_⟩
    · rw [view, hzero, take_zero]
      symm
      rw [drop_eq_nil_iff, h.length]
      omega
    · refine iff_of_false (fun hover => ?_) fun hover => ?_
      · have := hover.1
        omega
      · have := hover.1
        omega
  · have hoff' : (c.substringFrom k).off = c.off + k := by
      simp only [substringFrom, substring]
      omega
    have hbuf : (c.substringFrom k).buf = c.buf := rfl
    refine ⟨⟨by omega, by omega, by rw [hbuf]; omega⟩, by rw [Fits]; omega, ?_, hlen', fun j => ?_⟩
    · rw [view, hoff', hlen', hbuf, view, drop_take, drop_drop]
    · unfold Overruns charAt
      rw [hoff', hlen', hbuf, Nat.add_assoc c.off k j, Nat.add_assoc k j]
      refine and_congr ?_ (and_congr ?_ Iff.rfl) <;> omega

theorem Valid.substring_chars (h : c.Valid) (hk : k ≤ c.len) : (c.substring 0 k).chars = some (c.view.take k) := by
  have hoff := h.off_lt
  have hlen := h.len_lt
  have hinside := h.inside
  have hoff' : (c.substring 0 k).off = c.off := by
    simp only [substring]
    omega
  have hlen' : (c.substring 0 k).len = k := by
    simp only [substring]
    omega
  have hbuf : (c.substring 0 k).buf = c.buf := rfl
  rw [Text.chars, read, hoff', hlen', hbuf, if_pos (by omega), view, take_take, Nat.min_eq_left hk]
  rfl

/-- The first occurrence is found: a candidate that goes over the end is behind it. -/
theorem Valid.indexOf_first (h : c.Valid) (hfits : c.Fits) (hpat : pat.Valid) (hlen : pat.len ≠ 0) {i : Nat}
    (hfirst : First pat.view c.view 0 i) : c.indexOf pat 0 = some (i : Int) := by
  have hin := h.le_of_occurs hpat hlen hfirst.occurs
  have hmeets : IndexMeets c pat 0 := by
    rw [IndexMeets, if_neg (by decide)]
    intro j _ hj hnone hmisled
    have hover := ((h.misled_iff hpat hlen hfits hj).mp hmisled).2.1
    exact hnone i (Nat.zero_le _) (by omega) hfirst.occurs
  obtain ⟨r, hr, ⟨k, rfl, hfirst'⟩ | ⟨-, habsent⟩⟩ := (h.indexOf_iff hpat hlen 0).mpr hmeets
  · obtain rfl := hfirst.unique hfirst'
    exact hr
  · exact absurd habsent hfirst.not_absent

theorem Valid.indexOf_absent (h : c.Valid) (hfits : c.Fits) (hpat : pat.Valid) (hlen : pat.len ≠ 0)
    (habsent : Absent pat.view c.view 0) : c.indexOf pat 0 = some (-1) ↔ ∀ j, ¬ Overruns c pat j := by
  have hmeets : IndexMeets c pat 0 ↔ ∀ j, ¬ Overruns c pat j := by
    rw [IndexMeets, if_neg (by decide)]
    constructor
    · intro hall j hover
      exact hall j (Nat.zero_le _) hover.1 (fun k hk _ => habsent k hk)
        ((h.misled_iff hpat hlen hfits hover.1).mpr hover)
    · intro hall j _ hj _ hmisled
      exact hall j ((h.misled_iff hpat hlen hfits hj).mp hmisled)
  rw [← hmeets, ← h.indexOf_iff hpat hlen 0]
  constructor
  · exact fun hr => ⟨-1, hr, Or.inr ⟨rfl, habsent⟩⟩
  · rintro ⟨r, hr, ⟨i, -, hfirst⟩ | ⟨rfl, -⟩⟩
    · exact absurd habsent hfirst.not_absent
    · exact hr

/-! ## The loop -/

/-- A turn of the loop on an occurrence. -/
theorem replaceTurn_eq {i : Nat} {out : List UInt8} (hsub : sub.Valid) : replaceTurn pat sub (i, c, out) =
    (if i > 0 then (c.substring 0 i).chars else some []).bind fun front =>
      ((c.substringFrom (i + pat.len : Nat)).indexOf pat 0).map fun p =>
        .inl (p, c.substringFrom (i + pat.len : Nat), out ++ front ++ sub.view) := by
  have hge : (i : Int) ≥ 0 := by omega
  unfold replaceTurn
  rw [hsub.chars, Nat.cast_add]
  by_cases hi : i > 0
  · have hpos : (i : Int) > 0 := by omega
    simp only [if_pos hge, if_pos hpos, if_pos hi]
    cases (c.substring 0 i).chars with
    | none => rfl
    | some front => cases (c.substringFrom ((i : Int) + pat.len)).indexOf pat 0 <;> simp
  · have hpos : ¬ (i : Int) > 0 := by omega
    simp only [if_pos hge, if_neg hpos, if_neg hi]
    cases (c.substringFrom ((i : Int) + pat.len)).indexOf pat 0 <;> simp

theorem replaceTurn_last {out : List UInt8} (h : c.Valid) :
    replaceTurn pat sub (-1, c, out) = some (.inr (toString (out ++ c.view))) := by
  unfold replaceTurn
  simp only [h.chars]
  rfl

/-- The candidates over the end of the last part are none. -/
def Ends (pat c : Text) (parts : List (List UInt8)) : Prop :=
  ∀ j, c.len - (parts.getLastD []).length ≤ j → ¬ Overruns c pat j

theorem ends_cut {i : Nat} {parts : List (List UInt8)} (h : c.Valid) (hfits : c.Fits) (hin : i + pat.len ≤ c.len)
    (hrest : Cuts pat.view (c.substringFrom (i + pat.len : Nat)).view parts) :
    Ends pat c (c.view.take i :: parts) ↔ Ends pat (c.substringFrom (i + pat.len : Nat)) parts := by
  obtain ⟨hvalid', -, hview, hlen', hover⟩ := @Valid.substringFrom_spec c pat (i + pat.len) h hfits hin
  have hlast : (c.view.take i :: parts).getLastD [] = parts.getLastD [] := by
    obtain ⟨part, parts, rfl⟩ := exists_cons_of_ne_nil hrest.ne_nil
    rfl
  have hle := hrest.getLastD_length_le
  rw [hvalid'.length, hlen'] at hle
  unfold Ends
  rw [hlast, hlen']
  constructor
  · intro hall j hj hover'
    exact hall (i + pat.len + j) (by omega) ((hover j).mp hover')
  · intro hall j hj hover'
    obtain ⟨k, rfl⟩ := Nat.exists_eq_add_of_le (show i + pat.len ≤ j by omega)
    exact hall k (by omega) ((hover k).mpr hover')

/-- The loop gives the parts joined with `sub`, if nothing goes over the end of the last one. -/
theorem replaces (hpat : pat.Valid) (hlen : pat.len ≠ 0) (hsub : sub.Valid) {text : List UInt8}
    {parts : List (List UInt8)} (hcuts : Cuts pat.view text parts) (h : c.Valid) (hfits : c.Fits)
    (htext : c.view = text)
    (hends : Ends pat c parts) (out : List UInt8) : ∃ p fuel, c.indexOf pat 0 = some p ∧
      Loop.attempt (replaceTurn pat sub) fuel (p, c, out) = some (toString (out ++ sub.view.intercalate parts)) := by
  induction hcuts generalizing c out with
  | @last text habsent =>
    -- nothing is found, and the loop copies the rest
    subst htext
    refine ⟨-1, 1, (h.indexOf_absent hfits hpat hlen habsent).mpr fun j => hends j ?_, ?_⟩
    · rw [getLastD_cons, getLastD_nil, h.length]
      omega
    · rw [Loop.attempt_succ_inr (replaceTurn_last h)]
      simp [List.intercalate]
  | @cut text i parts hfirst hrest ih =>
    subst htext
    have hin := h.le_of_occurs hpat hlen hfirst.occurs
    -- the next turn starts from the string after the occurrence
    obtain ⟨hvalid', hfits', hview, -, -⟩ := @Valid.substringFrom_spec c pat (i + pat.len) h hfits hin
    rw [hpat.length] at hrest ih
    have hends' := (ends_cut h hfits hin (by rw [hview]; exact hrest)).mp hends
    obtain ⟨p, fuel, hp, hloop⟩ := ih hvalid' hfits' hview hends' (out ++ c.view.take i ++ sub.view)
    have hfront : (if i > 0 then (c.substring 0 i).chars else some []) = some (c.view.take i) := by
      split_ifs with hi
      · exact h.substring_chars (by omega)
      · have hzero : i = 0 := by omega
        rw [hzero, take_zero]
    refine ⟨i, fuel + 1, h.indexOf_first hfits hpat hlen hfirst, ?_⟩
    have hturn := @replaceTurn_eq c pat sub i out hsub
    rw [hfront, bind_some, hp, map_some] at hturn
    obtain ⟨part, parts, rfl⟩ := exists_cons_of_ne_nil hrest.ne_nil
    rw [Loop.attempt_succ_inl hturn, hloop, intercalate_cons_cons]
    simp only [append_assoc]

/-! ## A candidate over the end -/

/-- The string leaves its buffer. -/
structure Broken (c : Text) : Prop where
  len_lt : c.len < 2 ^ 16
  off_le : c.off ≤ c.buf.length
  outside : c.buf.length < c.off + c.len

/-- A candidate that is found is in the buffer. -/
theorem verdict_true (hpat : pat.Valid) (hlen : pat.len ≠ 0) (hbuf : c.buf.length < 2 ^ 16)
    (hverdict : c.verdict pat j = some true) :
    c.off + j + pat.len ≤ c.buf.length ∧ (c.buf.drop (c.off + j)).take pat.len = pat.view ∧
      c.charAt j = pat.charAt 0 := by
  obtain ⟨c₀, hc₀⟩ := hpat.charAt_isSome (Nat.pos_of_ne_zero hlen)
  have hpatlen := hpat.len_lt
  unfold verdict at hverdict
  rw [hc₀, bind_some] at hverdict
  obtain ⟨c₁, hc₁, hverdict⟩ := bind_eq_some_iff.mp hverdict
  split_ifs at hverdict with hfirst
  · have hj := (List.getElem?_eq_some_iff.mp hc₁).1
    have hoff : (c.substring j pat.len).off = c.off + j := by
      simp only [substring]
      omega
    have hbuf' : (c.substring j pat.len).buf = c.buf := rfl
    rw [equals_eq hpat (by simp only [substring]; omega), read, hoff, hbuf', Nat.add_zero] at hverdict
    obtain ⟨a, hread, hequal⟩ := map_eq_some_iff.mp hverdict
    split_ifs at hread with hin
    refine ⟨hin, ?_, by rw [hc₁, hc₀, hfirst]⟩
    rw [some.inj hread]
    exact of_decide_eq_true hequal
  · cases hverdict

/-- The index that is returned is the one of a candidate that is equal. -/
theorem indexOf_found (hpat : pat.Valid) (hlen : pat.len ≠ 0) {pos : Nat} {p : Int}
    (hp : c.indexOf pat pos = some p) :
    (∃ i : Nat, p = i ∧ pos ≤ i ∧ i < c.len ∧ c.verdict pat i = some true) ∨
      (p = -1 ∧ ∀ j, pos ≤ j → j < c.len → c.verdict pat j = some false) := by
  obtain ⟨c₀, hc₀⟩ := hpat.charAt_isSome (Nat.pos_of_ne_zero hlen)
  rw [indexOf_eq hc₀ hlen] at hp
  obtain ⟨res, hscan, rfl⟩ := map_eq_some_iff.mp hp
  cases res with
  | none =>
    exact Or.inr ⟨rfl, fun j hle hj => scan_none hscan j (mem_range'_1.mpr (by omega))⟩
  | some i =>
    obtain ⟨hmem, hverdict⟩ := scan_found hscan
    have hi := mem_range'_1.mp hmem
    exact Or.inl ⟨i, rfl, hi.1, by omega, hverdict⟩

/-- A negative index is right. -/
theorem Valid.indexOf_neg (h : s.Valid) (hfits : s.Fits) (hpat : pat.Valid) (hlen : pat.len ≠ 0) {p : Int}
    (hp : s.indexOf pat 0 = some p) (hneg : p < 0) : Absent pat.view s.view 0 ∧ ∀ j, ¬ Overruns s pat j := by
  rcases exists_first_or_absent pat.view s.view 0 with ⟨i, hfirst⟩ | habsent
  · rw [h.indexOf_first hfits hpat hlen hfirst] at hp
    have := some.inj hp
    omega
  · rcases @indexOf_found _ _ hpat hlen 0 _ hp with ⟨i, rfl, -⟩ | ⟨rfl, -⟩
    · omega
    · exact ⟨habsent, (h.indexOf_absent hfits hpat hlen habsent).mp hp⟩

/-- What is left after a candidate over the end leaves the buffer. -/
theorem broken_of_over (hpat : pat.Valid) (hbuf : c.buf.length < 2 ^ 16) (hlt : c.len < 2 ^ 16)
    (hin : c.off + j + pat.len ≤ c.buf.length) (hj : j < c.len)
    (hover : c.len < j + pat.len ∧ c.off + c.len ≤ c.buf.length ∨ c.buf.length < c.off + c.len) :
    (c.substringFrom (j + pat.len : Nat)).Broken := by
  have hpatlen := hpat.len_lt
  have hoff : (c.substringFrom (j + pat.len : Nat)).off = c.off + j + pat.len := by
    simp only [substringFrom, substring]
    omega
  have hlen : (c.substringFrom (j + pat.len : Nat)).len =
    (((c.len : Int) - (j + pat.len : Nat)) % 2 ^ 16).toNat := rfl
  have hbuf' : (c.substringFrom (j + pat.len : Nat)).buf = c.buf := rfl
  refine ⟨by omega, by rw [hoff, hbuf']; exact hin, ?_⟩
  rw [hoff, hbuf', hlen]
  omega

/-- A turn after which the loop does not end well. -/
theorem attempt_replaceTurn (hsub : sub.Valid) {i : Nat} {out : List UInt8} {fuel : Nat}
    (hrest : ∀ p out, (c.substringFrom (i + pat.len : Nat)).indexOf pat 0 = some p →
      Loop.attempt (replaceTurn pat sub) fuel (p, c.substringFrom (i + pat.len : Nat), out) = none) :
    Loop.attempt (replaceTurn pat sub) (fuel + 1) (i, c, out) = none := by
  have hturn := @replaceTurn_eq c pat sub i out hsub
  cases hfront : (if i > 0 then (c.substring 0 i).chars else some []) with
  | none =>
    rw [hfront] at hturn
    exact Loop.attempt_succ_none hturn fuel
  | some front =>
    cases hnext : (c.substringFrom (i + pat.len : Nat)).indexOf pat 0 with
    | none =>
      rw [hfront, hnext] at hturn
      exact Loop.attempt_succ_none hturn fuel
    | some p =>
      rw [hfront, hnext] at hturn
      rw [Loop.attempt_succ_inl hturn]
      exact hrest p _ hnext

/-- The loop does not end well from a string that leaves its buffer. -/
theorem Broken.not_replaces (hbroken : c.Broken) (hbuf : c.buf.length < 2 ^ 16) (hpat : pat.Valid)
    (hlen : pat.len ≠ 0) (hsub : sub.Valid) {p : Int} (hp : c.indexOf pat 0 = some p) (out : List UInt8)
    (fuel : Nat) : Loop.attempt (replaceTurn pat sub) fuel (p, c, out) = none := by
  induction fuel generalizing c p out with
  | zero => rfl
  | succ fuel ih =>
    have hout := hbroken.outside
    have hoff := hbroken.off_le
    rcases @indexOf_found _ _ hpat hlen 0 _ hp with ⟨i, rfl, -, hi, hverdict⟩ | ⟨rfl, hall⟩
    · -- what is left of the string leaves the buffer, too
      obtain ⟨hin, -, -⟩ := verdict_true hpat hlen hbuf hverdict
      have hbroken' := broken_of_over hpat hbuf hbroken.len_lt hin hi (Or.inr hout)
      exact attempt_replaceTurn hsub fun p' out' hnext => ih hbroken' hbuf hnext out'
    · -- the first character outside the buffer cannot be read
      have hverdict := hall (c.buf.length - c.off) (Nat.zero_le _) (by omega)
      have hchar : c.charAt (c.buf.length - c.off) = none := by
        rw [charAt, List.getElem?_eq_none_iff]
        omega
      unfold verdict at hverdict
      cases hc₀ : pat.charAt 0 with
      | none =>
        rw [hc₀] at hverdict
        cases hverdict
      | some c₀ =>
        rw [hc₀, hchar] at hverdict
        cases hverdict

/-- The loop does not end well if a candidate goes over the end of the last part. -/
theorem not_replaces (hpat : pat.Valid) (hlen : pat.len ≠ 0) (hsub : sub.Valid) {text : List UInt8}
    {parts : List (List UInt8)} (hcuts : Cuts pat.view text parts) (h : c.Valid) (hbuf : c.buf.length < 2 ^ 16)
    (htext : c.view = text) (hends : ¬ Ends pat c parts) {p : Int} (hp : c.indexOf pat 0 = some p) (out : List UInt8)
    (fuel : Nat) : Loop.attempt (replaceTurn pat sub) fuel (p, c, out) = none := by
  induction hcuts generalizing c p out fuel with
  | @last text habsent =>
    subst htext
    have hfits := h.fits hbuf
    have hover : ¬ ∀ j, ¬ Overruns c pat j := fun hall => hends fun j _ => hall j
    rcases @indexOf_found _ _ hpat hlen 0 _ hp with ⟨i, rfl, -, hi, hverdict⟩ | ⟨rfl, -⟩
    · -- the candidate is no occurrence, so that it is longer than what is left
      obtain ⟨hin, htake, -⟩ := verdict_true hpat hlen hbuf hverdict
      have hlong : c.len < i + pat.len := by
        by_contra hle
        exact habsent i (Nat.zero_le _) ((Text.occursAt_iff hpat (by omega)).mpr htake)
      cases fuel with
      | zero => rfl
      | succ fuel =>
        have hbroken := broken_of_over hpat hbuf h.len_lt hin hi (Or.inl ⟨hlong, h.inside⟩)
        exact attempt_replaceTurn hsub fun p' out' hnext =>
          hbroken.not_replaces hbuf hpat hlen hsub hnext out' fuel
    · exact absurd ((h.indexOf_absent hfits hpat hlen habsent).mp hp) hover
  | @cut text i parts hfirst hrest ih =>
    subst htext
    have hfits := h.fits hbuf
    have hin := h.le_of_occurs hpat hlen hfirst.occurs
    obtain ⟨hvalid', -, hview, -, -⟩ := @Valid.substringFrom_spec c pat (i + pat.len) h hfits hin
    rw [hpat.length] at hrest ih
    rw [ends_cut h hfits hin (by rw [hview]; exact hrest)] at hends
    rw [h.indexOf_first hfits hpat hlen hfirst] at hp
    obtain rfl := some.inj hp
    cases fuel with
    | zero => rfl
    | succ fuel =>
      exact attempt_replaceTurn hsub fun p' out' hnext => ih hvalid' hbuf hview hends hnext out' fuel

/-! ## The result -/

/-- `replace` returns the string with its leftmost occurrences that do not overlap replaced. -/
def Replaces (s pat sub : Text) : Prop :=
  ∃ fuel r parts, s.replace pat sub fuel = some r ∧ Cuts pat.view s.view parts ∧
    r.chars = some (sub.view.intercalate parts)

/-- No candidate goes over the end of the last part, and the length of a new string fits in 16 bits. -/
def ReplaceMeets (s pat sub : Text) : Prop :=
  ∀ parts, Cuts pat.view s.view parts →
    Ends pat s parts ∧ (parts.length ≠ 1 → (sub.view.intercalate parts).length < 2 ^ 16)

/-- `toString` keeps the length on 16 bits. -/
theorem toString_chars (str : List UInt8) : (toString str).chars = some (str.take (str.length % 2 ^ 16)) := by
  have hle := Nat.mod_le str.length (2 ^ 16)
  unfold toString Text.chars read
  rw [if_pos (by simp only [length_cons, length_append, length_nil]; omega)]
  simp only [Nat.add_zero, drop_succ_cons, drop_zero]
  rw [take_append_of_le_length hle]

theorem toString_chars_iff (str : List UInt8) : (toString str).chars = some str ↔ str.length < 2 ^ 16 := by
  rw [toString_chars, some.injEq, take_eq_self_iff]
  omega

theorem cuts_length_eq_one {text : List UInt8} {parts : List (List UInt8)} (hcuts : Cuts pat.view text parts) :
    parts.length = 1 ↔ Absent pat.view text 0 := by
  cases hcuts with
  | last habsent => exact iff_of_true rfl habsent
  | cut hfirst hrest =>
    have hpos := length_pos_iff.mpr hrest.ne_nil
    refine iff_of_false ?_ hfirst.not_absent
    rw [length_cons]
    omega

theorem Valid.replaces (h : s.Valid) (hfits : s.Fits) (hpat : pat.Valid) (hlen : pat.len ≠ 0) (hsub : sub.Valid)
    (hmeets : ReplaceMeets s pat sub) : Replaces s pat sub := by
  obtain ⟨parts, hcuts⟩ := exists_cuts (hpat.view_ne_nil hlen) s.view
  obtain ⟨hends, hshort⟩ := hmeets parts hcuts
  obtain ⟨p, fuel, hp, hloop⟩ := Text.replaces hpat hlen hsub hcuts h hfits rfl hends []
  have hrun : s.replace pat sub fuel =
      if p < 0 then some s else Loop.attempt (replaceTurn pat sub) fuel (p, s, []) := by
    rw [replace, hp]
    rfl
  by_cases hone : parts.length = 1
  · -- the pattern does not occur
    have habsent := (cuts_length_eq_one hcuts).mp hone
    obtain rfl := hcuts.unique (.last habsent)
    rw [(h.indexOf_absent hfits hpat hlen habsent).mpr fun j hover => hends j (by
      rw [getLastD_cons, getLastD_nil, h.length]
      omega) hover] at hp
    obtain rfl := some.inj hp
    refine ⟨fuel, s, _, by rw [hrun, if_pos (by decide)], hcuts, ?_⟩
    rw [h.chars]
    simp [List.intercalate]
  · rcases exists_first_or_absent pat.view s.view 0 with ⟨i, hfirst⟩ | habsent
    · rw [h.indexOf_first hfits hpat hlen hfirst] at hp
      obtain rfl := some.inj hp
      rw [if_neg (by omega), hloop, nil_append] at hrun
      exact ⟨fuel, _, parts, hrun, hcuts, (toString_chars_iff _).mpr (hshort hone)⟩
    · exact absurd ((cuts_length_eq_one hcuts).mpr habsent) hone

theorem Valid.replaces_iff (h : s.Valid) (hbuf : s.buf.length < 2 ^ 16) (hpat : pat.Valid) (hlen : pat.len ≠ 0)
    (hsub : sub.Valid) : Replaces s pat sub ↔ ReplaceMeets s pat sub := by
  have hfits := h.fits hbuf
  refine ⟨?_, h.replaces hfits hpat hlen hsub⟩
  rintro ⟨fuel, r, parts, hrun, hcuts, hr⟩ parts' hcuts'
  obtain rfl := hcuts.unique hcuts'
  obtain ⟨p, hp, hrun⟩ := bind_eq_some_iff.mp hrun
  have hends : Ends pat s parts := by
    by_contra hnot
    split_ifs at hrun with hneg
    · exact hnot fun j _ => (h.indexOf_neg hfits hpat hlen hp hneg).2 j
    · rw [not_replaces hpat hlen hsub hcuts h hbuf rfl hnot hp [] fuel] at hrun
      cases hrun
  refine ⟨hends, fun hone => ?_⟩
  obtain ⟨p', fuel', hp', hloop⟩ := Text.replaces hpat hlen hsub hcuts h hfits rfl hends []
  obtain rfl := some.inj (hp.symm.trans hp')
  split_ifs at hrun with hneg
  · have habsent := (h.indexOf_neg hfits hpat hlen hp hneg).1
    exact absurd ((cuts_length_eq_one hcuts).mpr habsent) hone
  · have hresult := Loop.run_unique (join_eq_some_iff.mp hrun) (join_eq_some_iff.mp hloop)
    obtain rfl := some.inj hresult
    rw [nil_append] at hr
    exact (toString_chars_iff _).mp hr

/-- `indexOf` is right if no candidate up to the first occurrence is misled, and `lastIndexOf` if none from the last
one on is; `replace` is right if no candidate goes over the end of the last part, and its length fits. -/
theorem searches_iff (hs : s.Valid) (hpat : pat.Valid) (hlen : pat.len ≠ 0) :
    (∀ pos, (∃ r, s.indexOf pat pos = some r ∧ IsIndex s pat pos.toNat r) ↔ IndexMeets s pat pos) ∧
    ((∃ r, s.lastIndexOf pat = some r ∧ IsLastIndex s pat r) ↔ LastIndexMeets s pat) ∧
    (∀ sub, sub.Valid → (s.Fits → ReplaceMeets s pat sub → Replaces s pat sub) ∧
      (s.buf.length < 2 ^ 16 → (Replaces s pat sub ↔ ReplaceMeets s pat sub))) ∧
    (s.Fits → ∀ j < s.len, Misled s pat j ↔ Overruns s pat j) := by
  refine ⟨hs.indexOf_iff hpat hlen, hs.lastIndexOf_iff hpat hlen,
    fun sub hsub => ⟨fun hfits => ?_, fun hbuf => ?_⟩, ?_⟩
  · exact hs.replaces hfits hpat hlen hsub
  · exact hs.replaces_iff hbuf hpat hlen hsub
  · exact fun hfits j hj => hs.misled_iff hpat hlen hfits hj

end Replace

/-- `"ab"`, at the start of the buffer of `"abc"`. -/
def abOfAbc : Text := { buf := [2, 0, 97, 98, 99, 0], off := 2, len := 2 }

/-- `"bc"`. -/
def bc : Text := toString [98, 99]

theorem abOfAbc_valid : abOfAbc.Valid := ⟨by decide, by decide, by decide⟩

theorem bc_valid : bc.Valid := ⟨by decide, by decide, by decide⟩

theorem searches_iff_ab :
    (∀ pos, (∃ r, abOfAbc.indexOf bc pos = some r ∧ IsIndex abOfAbc bc pos.toNat r) ↔ IndexMeets abOfAbc bc pos) ∧
    ((∃ r, abOfAbc.lastIndexOf bc = some r ∧ IsLastIndex abOfAbc bc r) ↔ LastIndexMeets abOfAbc bc) ∧
    (∀ sub, sub.Valid → (abOfAbc.Fits → ReplaceMeets abOfAbc bc sub → Replaces abOfAbc bc sub) ∧
      (abOfAbc.buf.length < 2 ^ 16 → (Replaces abOfAbc bc sub ↔ ReplaceMeets abOfAbc bc sub))) ∧
    (abOfAbc.Fits → ∀ j < abOfAbc.len, Misled abOfAbc bc j ↔ Overruns abOfAbc bc j) :=
  searches_iff abOfAbc_valid bc_valid (by decide)

/-- The pattern is found over the end of the string. -/
theorem not_searches : ¬ ∀ s pat sub : Text, s.Valid → pat.Valid → sub.Valid → pat.len ≠ 0 →
    (∀ pos : Nat, ∃ r, s.indexOf pat pos = some r ∧ IsIndex s pat pos r) ∧
    (∃ r, s.lastIndexOf pat = some r ∧ IsLastIndex s pat r) ∧ Replaces s pat sub := by
  intro hall
  obtain ⟨hindex, -, -⟩ := hall abOfAbc bc bc abOfAbc_valid bc_valid bc_valid (by decide)
  obtain ⟨r, hr, hspec⟩ := hindex 0
  have hfound : abOfAbc.indexOf bc (0 : Nat) = some 1 := by decide
  obtain rfl := some.inj (hr.symm.trans hfound)
  rcases hspec with ⟨i, hi, hfirst⟩ | ⟨hneg, -⟩
  · have hle := abOfAbc_valid.le_of_occurs bc_valid (by decide) hfirst.occurs
    have hlens : abOfAbc.len = 2 ∧ bc.len = 2 := by decide
    omega
  · cases hneg

end Text

end Elm.Strings
