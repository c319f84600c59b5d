import Elm.Lib.Cursor
import Elm.Strings.Replace

/-!
# `StringSplit`

The iterator of `include/elm/string/Split.h` on the parts of a string.  It keeps the index `l` of the last separator
and the index `p` of the next one, and goes on one character after `l`, however long the separator is.
-/

namespace Elm.Strings

open Occurrence List

/-- The members of a `StringSplit`. -/
structure StringSplit where
  s : Text
  ss : Text
  l : Int
  p : Int

namespace StringSplit

/-- `find`. -/
def find (it : StringSplit) : Option StringSplit := do
  let l := it.p
  let p ← it.s.indexOf it.ss (l + 1)
  some { it with l, p := if p < 0 then it.s.len else p }

/-- The constructor with a string as separator. -/
def start (str sub : Text) : Option StringSplit := find { s := str, ss := sub, l := -1, p := -1 }

/-- `ended`. -/
def ended (it : StringSplit) : Bool := it.l ≥ it.s.len

/-- `item`. -/
def item (it : StringSplit) : Text := it.s.substring (it.l + 1) (it.p - it.l - 1)

/-- `next`. -/
def next (it : StringSplit) : Option StringSplit :=
  if it.p ≥ it.s.len then some { it with l := it.s.len } else it.find

/-- The iterator, with the characters of its items. -/
def cursor : Cursor StringSplit (List UInt8) := { ended, item := fun it => it.item.chars, next }

/-- The iteration ends, and gives the parts of the string between the leftmost separators that do not overlap. -/
def Splits (s sep : Text) : Prop :=
  ∃ it parts, start s sep = some it ∧ cursor.Visits it parts ∧ Cuts sep.view s.view parts

/-- The separator is not in the string, and no candidate is misled. -/
def Uncut (s sep : Text) : Prop := Absent sep.view s.view 0 ∧ ∀ j < s.len, ¬ s.Misled sep j

section Split

variable {s sep : Text} {e : Nat}

/-- The state of the iterator in front of the part that starts at `e`. -/
def before (s sep : Text) (e : Nat) (p : Int) : StringSplit := { s, ss := sep, l := e - 1, p }

theorem find_eq {l : Int} {k : Nat} : find { s, ss := sep, l, p := k } =
    (s.indexOf sep (k + 1 : Nat)).map fun p => before s sep (k + 1) (if p < 0 then s.len else p) := by
  have hcast : (k : Int) + 1 = (k + 1 : Nat) := by omega
  have hback : ((k + 1 : Nat) : Int) - 1 = k := by omega
  simp only [find, before, hcast, hback]
  cases s.indexOf sep (k + 1 : Nat) <;> rfl

theorem start_eq : start s sep =
    (s.indexOf sep 0).map fun p => before s sep 0 (if p < 0 then s.len else p) := by
  unfold start find before
  cases h : s.indexOf sep 0 <;> simp [h]

theorem ended_before {p : Int} (he : e ≤ s.len) : cursor.ended (before s sep e p) = false := by
  have hlt : ¬ (e : Int) - 1 ≥ s.len := by omega
  exact decide_eq_false hlt

/-- The characters of the part from `e` to `q`. -/
theorem item_before (h : s.Valid) (hfits : s.Fits ∨ e = 0) {q : Nat} (heq : e ≤ q) (hq : q ≤ s.len) :
    cursor.item (before s sep e q) = some ((s.view.drop e).take (q - e)) := by
  have hoff := h.off_lt
  have hlen := h.len_lt
  have hinside := h.inside
  unfold Text.Fits at hfits
  have hitem : (before s sep e q).item =
      { buf := s.buf, off := (s.off + e) % 2 ^ 16, len := q - e } := by
    simp only [item, before, Text.substring, Text.mk.injEq, true_and]
    omega
  change (before s sep e q).item.chars = _
  rw [hitem, Text.chars, Text.read]
  by_cases hempty : q = e
  · rw [if_pos (by simp only; omega), hempty, Nat.sub_self, take_zero, take_zero]
  · have hmod : (s.off + e) % 2 ^ 16 = s.off + e := by omega
    simp only [hmod, Nat.add_zero]
    rw [if_pos (by omega), Text.view, drop_take, drop_drop, take_take, Nat.min_eq_left (by omega)]

/-- The last part. -/
theorem visits_last (h : s.Valid) (hfits : s.Fits ∨ e = 0) (he : e ≤ s.len) :
    cursor.Visits (before s sep e s.len) [s.view.drop e] := by
  have hitem := @item_before s sep e h hfits s.len he (Nat.le_refl _)
  have hall : (s.view.drop e).take (s.len - e) = s.view.drop e := by
    rw [take_eq_self_iff, length_drop, h.length]
  rw [hall] at hitem
  have hnext : cursor.next (before s sep e s.len) = some { before s sep e s.len with l := s.len } :=
    if_pos (le_refl (s.len : Int))
  exact .turn (ended_before he) hitem hnext (.done (decide_eq_true (le_refl (s.len : Int))))

/-- A part that a separator follows. -/
theorem next_before {q : Nat} (hq : q < s.len) : cursor.next (before s sep e q) =
    (s.indexOf sep (q + 1 : Nat)).map fun p => before s sep (q + 1) (if p < 0 then s.len else p) := by
  have hlt : ¬ (q : Int) ≥ s.len := by omega
  have hnext : cursor.next (before s sep e q) = (before s sep e q).find := if_neg hlt
  rw [hnext]
  exact find_eq

/-! ## Separators of one character -/

/-- A candidate for one character does not go over the end. -/
theorem indexOf_single (h : s.Valid) (hfits : s.Fits) (hsep : sep.Valid) (hone : sep.len = 1) (pos : Nat) :
    ∃ r, s.indexOf sep pos = some r ∧ s.IsIndex sep pos r := by
  refine (h.indexOf_iff hsep (by omega) pos).mpr ?_
  rw [Text.IndexMeets, if_neg (by omega)]
  intro j _ hj _ hmisled
  have hover := (h.misled_iff hsep (by omega) hfits hj).mp hmisled
  have hlong := hover.2.1
  omega

/-- The parts from `e` on. -/
theorem visits_single (h : s.Valid) (hfits : s.Fits) (hsep : sep.Valid) (hone : sep.len = 1) {text : List UInt8}
    {parts : List (List UInt8)} (hcuts : Cuts sep.view text parts) (he : e ≤ s.len) (htext : s.view.drop e = text)
    {r : Int} (hr : s.IsIndex sep e r) :
    cursor.Visits (before s sep e (if r < 0 then s.len else r)) parts := by
  induction hcuts generalizing e r with
  | @last text habsent =>
    subst htext
    obtain ⟨i, -, hfirst⟩ | ⟨rfl, -⟩ := hr
    · obtain ⟨k, rfl⟩ := Nat.exists_eq_add_of_le hfirst.le
      exact absurd (occursAt_drop.mpr hfirst.occurs) (habsent k (Nat.zero_le _))
    · rw [if_pos (by decide)]
      exact visits_last h (Or.inl hfits) he
  | @cut text i parts hfirst hrest ih =>
    subst htext
    have hfirst' : First sep.view s.view e (e + i) := by
      refine ⟨Nat.le_add_right _ _, occursAt_drop.mp hfirst.occurs, fun j hle hlt hoccurs => ?_⟩
      obtain ⟨k, rfl⟩ := Nat.exists_eq_add_of_le hle
      exact hfirst.least k (Nat.zero_le _) (by omega) (occursAt_drop.mpr hoccurs)
    have hin := h.le_of_occurs hsep (by omega) hfirst'.occurs
    obtain ⟨k, rfl, hfirst''⟩ | ⟨-, habsent⟩ := hr
    · obtain rfl := hfirst'.unique hfirst''
      obtain ⟨r', hr', hspec⟩ := indexOf_single h hfits hsep hone (e + i + 1)
      have hitem := @item_before s sep e h (Or.inl hfits) (e + i) (Nat.le_add_right _ _) (by omega)
      rw [Nat.add_sub_cancel_left] at hitem
      have hnext := @next_before s sep e (e + i) (by omega)
      rw [hr', Option.map_some] at hnext
      rw [if_neg (by omega)]
      refine .turn (ended_before he) hitem hnext (ih (by omega) ?_ hspec)
      rw [hsep.length, hone, drop_drop, Nat.add_assoc]
    · exact absurd habsent hfirst'.not_absent

/-! ## Longer separators -/

/-- The parts and one character for each separator that the iterator has seen. -/
theorem visits_length (hs : s.Valid) (hsep : sep.Valid) (hlen : sep.len ≠ 0) {it : StringSplit}
    {parts : List (List UInt8)} (hvisits : cursor.Visits it parts) (he : e ≤ s.len) {q : Nat} (heq : e ≤ q)
    (hq : q ≤ s.len) (hit : it = before s sep e q) :
    (parts.map List.length).sum + (parts.length - 1) = s.len - e ∧ parts ≠ [] ∧ (parts.length = 1 → q = s.len) := by
  have hlt := hs.len_lt
  induction hvisits generalizing e q with
  | done hended =>
    rw [hit, ended_before he] at hended
    cases hended
  | @turn it it' part parts _ hitem hnext hrest ih =>
    subst hit
    have hpart : part.length = q - e := by
      have hchars : (before s sep e q).item.chars = some part := hitem
      rw [Text.length_of_read hchars]
      simp only [item, before, Text.substring]
      omega
    by_cases hend : q = s.len
    · -- the iteration ends with this part
      have hafter : cursor.next (before s sep e q) = some { before s sep e q with l := s.len } := by
        rw [hend]
        exact if_pos (le_refl (s.len : Int))
      rw [hafter] at hnext
      obtain rfl := Option.some.inj hnext
      cases hrest with
      | done => simp [hpart, hend]
      | turn hgoes =>
        have hended : cursor.ended { before s sep e q with l := s.len } = true :=
          decide_eq_true (le_refl (s.len : Int))
        rw [hended] at hgoes
        cases hgoes
    · rw [next_before (by omega)] at hnext
      obtain ⟨p, hp, hit'⟩ := Option.map_eq_some_iff.mp hnext
      have hnextq : ∃ q', (if p < 0 then (s.len : Int) else p) = (q' : Nat) ∧ q + 1 ≤ q' ∧ q' ≤ s.len := by
        rcases Text.indexOf_found hsep hlen hp with ⟨i, rfl, hle, hi, -⟩ | ⟨rfl, -⟩
        · exact ⟨i, if_neg (by omega), hle, by omega⟩
        · exact ⟨s.len, if_pos (by decide), by omega, Nat.le_refl _⟩
      obtain ⟨q', hq', hle, hin⟩ := hnextq
      rw [hq'] at hit'
      obtain ⟨hsum, hne, -⟩ := ih (by omega) hle hin hit'.symm
      have hpos := length_pos_iff.mpr hne
      rw [map_cons, sum_cons, length_cons, hpart]
      refine ⟨by omega, cons_ne_nil _ _, fun hone => by omega⟩

/-- With a longer separator, the iterator is right if and only if there is nothing to cut. -/
theorem splits_long (hs : s.Valid) (hsep : sep.Valid) (hlen : 1 < sep.len) : Splits s sep ↔ Uncut s sep := by
  constructor
  · rintro ⟨it, parts, hstart, hvisits, hcuts⟩
    rw [start_eq] at hstart
    obtain ⟨p, hp, hit⟩ := Option.map_eq_some_iff.mp hstart
    have hfound := @Text.indexOf_found _ _ hsep (by omega) 0 _ hp
    have hq : ∃ q, (if p < 0 then (s.len : Int) else p) = (q : Nat) ∧ q ≤ s.len := by
      rcases hfound with ⟨i, rfl, -, hi, -⟩ | ⟨rfl, -⟩
      · exact ⟨i, if_neg (by omega), by omega⟩
      · exact ⟨s.len, if_pos (by decide), Nat.le_refl _⟩
    obtain ⟨q, hq, hqle⟩ := hq
    rw [hq] at hit
    obtain ⟨hsum, hne, hlast⟩ :=
      visits_length hs hsep (by omega) hvisits (Nat.zero_le _) (Nat.zero_le q) hqle hit.symm
    have hlength := hcuts.length (hsep.view_ne_nil (by omega))
    rw [hs.length, hsep.length] at hlength
    -- the separators cannot count for one character and for all of theirs
    have hone : parts.length = 1 := by
      have hpos := length_pos_iff.mpr hne
      by_contra hmany
      have hmul : (parts.length - 1) * 2 ≤ (parts.length - 1) * sep.len := Nat.mul_le_mul_left _ hlen
      omega
    have habsent := (Text.cuts_length_eq_one hcuts).mp hone
    refine ⟨habsent, fun j hj => ?_⟩
    rw [← hs.verdict_eq hsep (by omega) hj, decide_eq_false (habsent j (Nat.zero_le _))]
    rcases hfound with ⟨i, rfl, -, hi, -⟩ | ⟨-, hall⟩
    · have := hlast hone
      rw [if_neg (by omega)] at hq
      omega
    · exact hall j (Nat.zero_le _) hj
  · rintro ⟨habsent, hmisled⟩
    obtain ⟨r, hr, ⟨i, -, hfirst⟩ | ⟨rfl, -⟩⟩ := (hs.indexOf_iff hsep (by omega) 0).mpr (by
      rw [Text.IndexMeets, if_neg (by decide)]
      exact fun j _ hj _ => hmisled j hj)
    · exact absurd habsent hfirst.not_absent
    · refine ⟨before s sep 0 s.len, [s.view], ?_, visits_last hs (Or.inr rfl) (Nat.zero_le _), .last habsent⟩
      rw [start_eq, hr]
      rfl

/-- A separator of one character is right in a string that ends in the first 65536 bytes of its buffer. -/
theorem splits_single (hs : s.Valid) (hfits : s.Fits) (hsep : sep.Valid) (hone : sep.len = 1) : Splits s sep := by
  obtain ⟨parts, hcuts⟩ := exists_cuts (hsep.view_ne_nil (by omega)) s.view
  obtain ⟨r, hr, hspec⟩ := indexOf_single hs hfits hsep hone 0
  have hvisits := visits_single hs hfits hsep hone hcuts (Nat.zero_le s.len) drop_zero hspec
  refine ⟨_, parts, ?_, hvisits, hcuts⟩
  rw [start_eq]
  exact congrArg (Option.map _) hr

/-- `StringSplit` gives the parts of the string if the separator has one character, and else if and only if nothing is
taken for it. -/
theorem splits_iff (hs : s.Valid) (hsep : sep.Valid) (hlen : sep.len ≠ 0) :
    (sep.len = 1 → s.Fits → Splits s sep) ∧ (sep.len ≠ 1 → (Splits s sep ↔ Uncut s sep)) ∧
      (s.Fits → ∀ j < s.len, s.Misled sep j ↔ s.Overruns sep j) := by
  refine ⟨fun hone hfits => ?_, fun hne => ?_, fun hfits j hj => ?_⟩
  · exact splits_single hs hfits hsep hone
  · exact splits_long hs hsep (by omega)
  · exact hs.misled_iff hsep hlen hfits hj

end Split

/-- `"a::b"`. -/
def aColonsB : Text := Text.toString [97, 58, 58, 98]

/-- `"::"`. -/
def colons : Text := Text.toString [58, 58]

theorem aColonsB_valid : aColonsB.Valid := ⟨by decide, by decide, by decide⟩

theorem colons_valid : colons.Valid := ⟨by decide, by decide, by decide⟩

theorem splits_iff_colons : (colons.len = 1 → aColonsB.Fits → Splits aColonsB colons) ∧
    (colons.len ≠ 1 → (Splits aColonsB colons ↔ Uncut aColonsB colons)) ∧
      (aColonsB.Fits → ∀ j < aColonsB.len, aColonsB.Misled colons j ↔ aColonsB.Overruns colons j) :=
  splits_iff aColonsB_valid colons_valid (by decide)

/-- The second part starts with the second character of the separator. -/
theorem not_splits : ¬ ∀ s sep : Text, s.Valid → sep.Valid → sep.len ≠ 0 → Splits s sep := by
  intro hall
  have huncut := (splits_long aColonsB_valid colons_valid (by decide)).mp
    (hall aColonsB colons aColonsB_valid colons_valid (by decide))
  exact huncut.1 1 (Nat.zero_le _) (by decide)

end StringSplit

end Elm.Strings
