import Elm.Io.Scan
import Elm.Strings.Replace

/-!
# `Version`

The versions of `include/elm/util/Version.h` and `src/util_Version.cpp`: their order, the test `accepts`, the text that
is printed and the one that is read.  A text is read in the fields of a version that exists: those that the text does
not reach are kept.
-/

namespace Elm.Util

open Elm.Strings Elm.Io List Option

/-- The members of a `Version`. -/
structure Version where
  major : UInt8
  minor : UInt8
  release : UInt16
  deriving DecidableEq

namespace Version

/-- `ZERO`. -/
def ZERO : Version := { major := 0, minor := 0, release := 0 }

/-- `accepts`. -/
def accepts (v version : Version) : Bool := v.major ≠ version.major || v.minor ≤ version.minor

/-- `compare`. -/
def compare (v version : Version) : Int :=
  let res : Int := v.major.toNat - version.major.toNat
  if res ≠ 0 then v.minor.toNat - version.minor.toNat else res

/-- `operator==`. -/
def eq (v version : Version) : Bool := v.compare version = 0

/-- `operator!=`. -/
def ne (v version : Version) : Bool := v.compare version ≠ 0

/-- `operator>`. -/
def gt (v version : Version) : Bool := v.compare version > 0

/-- `operator>=`. -/
def ge (v version : Version) : Bool := v.compare version ≥ 0

/-- `operator<`. -/
def lt (v version : Version) : Bool := v.compare version < 0

/-- `operator<=`. -/
def le (v version : Version) : Bool := v.compare version ≤ 0

/-! ## Texts -/

/-- A byte of a text, as `Input` gets it. -/
def toChar (c : UInt8) : Char := Char.ofNat c.toNat

/-- A character of a text, as it is stored. -/
def ofChar (c : Char) : UInt8 := UInt8.ofNat c.toNat

/-- The number that `>>` reads in a stream on these characters; such a stream throws no exception. -/
def scanned (cs : List UInt8) : Nat := (Input.scanUnsigned { text := cs.map toChar } 32 0).1

/-- `'.'`. -/
def dot : UInt8 := 46

/-- `operator=(const string& text)`. -/
def assign (v : Version) (text : Text) : Option Version := do
  let pos ← text.indexOfChar dot 0
  if pos < 0 then some v
  else
    let val ← (text.substring 0 pos).chars
    let all := text.substringFrom (pos + 1)
    let v := { v with major := UInt8.ofNat (scanned val) }
    let pos ← all.indexOfChar dot 0
    if pos < 0 then some v
    else
      let val ← (all.substring 0 pos).chars
      let all := all.substringFrom (pos + 1)
      let v := { v with minor := UInt8.ofNat (scanned val) }
      let val ← all.chars
      some { v with release := UInt16.ofNat (scanned val) }

/-- What `<<` prints for an `int`. -/
def printInt (n : Nat) : List Char := IntFormat.print { val := n, sign := true, size := 4 }

/-- `operator<<`. -/
def print (v : Version) : List Char :=
  printInt v.major.toNat ++ '.' :: (printInt v.minor.toNat ++ '.' :: printInt v.release.toNat)

/-! ## The order -/

section Order

variable (u v w : Version)

/-- The lexicographic order of the major and the minor numbers. -/
def Before : Prop := u.major < v.major ∨ u.major = v.major ∧ u.minor < v.minor

/-- `compare` tells the lexicographic order of two versions. -/
def Lexicographic : Prop :=
  (u.compare v < 0 ↔ Before u v) ∧ (u.compare v = 0 ↔ u.major = v.major ∧ u.minor = v.minor) ∧
    (0 < u.compare v ↔ Before v u)

/-- The major and the minor numbers are in the same order. -/
def SameOrder : Prop :=
  (u.major = v.major ∧ u.minor = v.minor) ∨ (u.major < v.major ∧ u.minor < v.minor) ∨
    (v.major < u.major ∧ v.minor < u.minor)

/-- The operators are those of the order that `compare` tells. -/
structure Consistent : Prop where
  eq_iff : u.eq v ↔ u.le v ∧ u.ge v
  ne_iff : u.ne v ↔ ¬ u.eq v
  lt_iff : u.lt v ↔ ¬ u.ge v
  gt_iff : u.gt v ↔ ¬ u.le v
  le_swap : u.le v ↔ v.ge u
  lt_swap : u.lt v ↔ v.gt u
  total : u.le v ∨ v.le u

theorem compare_eq : u.compare v = if u.major = v.major then 0 else (u.minor.toNat : Int) - v.minor.toNat := by
  unfold compare
  by_cases hmajor : u.major = v.major
  · simp [hmajor]
  · have hne : (u.major.toNat : Int) - v.major.toNat ≠ 0 := by
      have hnat : u.major.toNat ≠ v.major.toNat := fun h => hmajor (UInt8.toNat_inj.mp h)
      omega
    simp only [if_pos hne, if_neg hmajor]

theorem compare_swap : v.compare u = -u.compare v := by
  rw [compare_eq, compare_eq]
  by_cases hmajor : u.major = v.major
  · rw [if_pos hmajor, if_pos hmajor.symm, Int.neg_zero]
  · rw [if_neg hmajor, if_neg (Ne.symm hmajor)]
    omega

theorem lexicographic_iff : Lexicographic u v ↔ SameOrder u v := by
  unfold Lexicographic SameOrder Before
  rw [compare_eq]
  simp only [← UInt8.toNat_inj, UInt8.lt_iff_toNat_lt]
  split_ifs with hmajor <;> omega

theorem consistent : Consistent u v := by
  have hswap := compare_swap u v
  refine ⟨?_, ?_, ?_, ?_, ?_, ?_, ?_⟩
  · simp only [eq, le, ge, decide_eq_true_eq]
    omega
  · simp only [ne, eq, decide_eq_true_eq]
  · simp only [lt, ge, decide_eq_true_eq]
    omega
  · simp only [gt, le, decide_eq_true_eq]
    omega
  · simp only [le, ge, decide_eq_true_eq]
    omega
  · simp only [lt, gt, decide_eq_true_eq]
    omega
  · simp only [le, decide_eq_true_eq]
    omega

/-- `operator<=` is transitive at three versions. -/
theorem le_trans_iff : (u.le v → v.le w → u.le w) ↔ u.major = w.major ∨ u.minor ≤ w.minor ∨
    (u.major ≠ v.major ∧ v.minor < u.minor) ∨ (v.major ≠ w.major ∧ w.minor < v.minor) := by
  simp only [le, decide_eq_true_eq, compare_eq, ← UInt8.toNat_inj, UInt8.lt_iff_toNat_lt,
    UInt8.le_iff_toNat_le, ne_eq]
  split_ifs <;> omega

/-- A version of another major number is accepted. -/
theorem accepts_major_iff : (u.accepts v → u.major = v.major) ↔ u.major = v.major := by
  unfold accepts
  by_cases hmajor : u.major = v.major <;> simp [hmajor]

/-- `accepts` is transitive at three versions. -/
theorem accepts_trans_iff : (u.accepts v → v.accepts w → u.accepts w) ↔
    (u.major = w.major → w.minor < u.minor → v.major = u.major) := by
  simp only [accepts, Bool.or_eq_true, decide_eq_true_eq, ne_eq, ← UInt8.toNat_inj, UInt8.lt_iff_toNat_lt,
    UInt8.le_iff_toNat_le]
  omega

end Order

/-! ## What is read -/

section Assign

variable {s : Text} {front middle back : List UInt8}

/-- What is on both sides of a dot. -/
theorem dot_spec (h : s.Valid) (hfits : s.Fits) (hview : s.view = front ++ dot :: back) :
    (s.substring 0 front.length).chars = some front ∧ (s.substringFrom (front.length + 1)).Valid ∧
      (s.substringFrom (front.length + 1)).Fits ∧ (s.substringFrom (front.length + 1)).view = back := by
  have hlen := congrArg List.length hview
  rw [h.length, length_append, length_cons] at hlen
  have hspec := @Text.Valid.substringFrom_spec s s (front.length + 1) h hfits (by omega)
  rw [Nat.cast_add, Nat.cast_one] at hspec
  obtain ⟨hvalid, hfits', hback, -, -⟩ := hspec
  refine ⟨?_, hvalid, hfits', ?_⟩
  · rw [h.substring_chars (by omega), hview, take_left]
  · rw [hback, hview, ← drop_drop, drop_left]
    rfl

/-- The first dot. -/
theorem dot_found (h : s.Valid) (hview : s.view = front ++ dot :: back) (hfront : dot ∉ front) :
    s.indexOfChar dot 0 = some (front.length : Int) := by
  have hfound := @Text.Valid.indexOfChar_found s 0 h dot front back hfront hview
  rwa [Nat.zero_add] at hfound

theorem dot_none (h : s.Valid) (hnone : dot ∉ s.view) : s.indexOfChar dot 0 = some (-1) :=
  @Text.Valid.indexOfChar_none s 0 h dot hnone

theorem assign_none (v : Version) (h : s.Valid) (hnone : dot ∉ s.view) : v.assign s = some v := by
  rw [assign, dot_none h hnone]
  rfl

theorem assign_one (v : Version) (h : s.Valid) (hfits : s.Fits) (hview : s.view = front ++ dot :: back)
    (hfront : dot ∉ front) (hback : dot ∉ back) :
    v.assign s = some { v with major := UInt8.ofNat (scanned front) } := by
  obtain ⟨hval, hvalid, -, hview'⟩ := dot_spec h hfits hview
  have hsecond := dot_none hvalid (by rwa [hview'])
  have hge : ¬ (front.length : Int) < 0 := by omega
  rw [assign, dot_found h hview hfront]
  simp only [bind_eq_bind, bind_some, if_neg hge, hval, hsecond]
  rfl

theorem assign_two (v : Version) (h : s.Valid) (hfits : s.Fits)
    (hview : s.view = front ++ dot :: (middle ++ dot :: back))
    (hfront : dot ∉ front) (hmiddle : dot ∉ middle) :
    v.assign s = some { major := UInt8.ofNat (scanned front), minor := UInt8.ofNat (scanned middle)
                        release := UInt16.ofNat (scanned back) } := by
  obtain ⟨hval, hvalid, hfits', hview'⟩ := dot_spec h hfits hview
  obtain ⟨hval', hvalid', -, hview''⟩ := dot_spec hvalid hfits' hview'
  have hsecond := dot_found hvalid hview' hmiddle
  have hlast := hvalid'.chars
  rw [hview''] at hlast
  have hge : ∀ cs : List UInt8, ¬ (cs.length : Int) < 0 := fun cs => by omega
  rw [assign, dot_found h hview hfront]
  simp only [bind_eq_bind, bind_some, if_neg (hge _), hval, hsecond, hval', hlast]

/-- The version that a text with two dots stands for. -/
def parsed (cs : List UInt8) : Version :=
  let rest := (cs.dropWhile (· ≠ dot)).tail
  { major := UInt8.ofNat (scanned (cs.takeWhile (· ≠ dot)))
    minor := UInt8.ofNat (scanned (rest.takeWhile (· ≠ dot)))
    release := UInt16.ofNat (scanned (rest.dropWhile (· ≠ dot)).tail) }

/-- A text with two dots, whatever the version was. -/
theorem assign_parsed (v : Version) (h : s.Valid) (hfits : s.Fits) (hdots : 2 ≤ s.view.count dot) :
    v.assign s = some (parsed s.view) := by
  obtain ⟨front, rest, hview, hfront⟩ :=
    eq_append_cons_of_mem (count_pos_iff.mp (by omega : 0 < s.view.count dot))
  rw [hview, count_append, count_cons_self, count_eq_zero_of_not_mem hfront] at hdots
  obtain ⟨middle, back, rfl, hmiddle⟩ :=
    eq_append_cons_of_mem (count_pos_iff.mp (by omega : 0 < rest.count dot))
  obtain ⟨htake, hdrop⟩ := Occurrence.takeWhile_ne hfront (middle ++ dot :: back)
  obtain ⟨htake', hdrop'⟩ := Occurrence.takeWhile_ne hmiddle back
  rw [assign_two v h hfits hview hfront hmiddle, hview, parsed]
  simp only [htake, hdrop, tail_cons, htake', hdrop']

/-- With fewer dots the release number stays. -/
theorem assign_release (v : Version) (h : s.Valid) (hfits : s.Fits) (hdots : s.view.count dot < 2) :
    ∃ v', v.assign s = some v' ∧ v'.release = v.release := by
  by_cases hdot : dot ∈ s.view
  · obtain ⟨front, back, hview, hfront⟩ := eq_append_cons_of_mem hdot
    rw [hview, count_append, count_cons_self, count_eq_zero_of_not_mem hfront] at hdots
    have hback : dot ∉ back := count_eq_zero.mp (by omega)
    exact ⟨_, assign_one v h hfits hview hfront hback, rfl⟩
  · exact ⟨v, assign_none v h hdot, rfl⟩

/-- A text sets the three fields as a function of its characters if and only if it has two dots. -/
theorem assign_iff (h : s.Valid) (hfits : s.Fits) :
    (∀ v : Version, v.assign s = some (parsed s.view)) ↔ 2 ≤ s.view.count dot := by
  constructor
  · intro hall
    by_contra hdots
    -- two versions with other release numbers keep them
    obtain ⟨v₀, hassign, hrelease⟩ := assign_release ZERO h hfits (by omega)
    obtain ⟨v₁, hassign', hrelease'⟩ := assign_release { ZERO with release := 1 } h hfits (by omega)
    rw [hall] at hassign hassign'
    obtain rfl := some.inj (hassign.symm.trans hassign')
    rw [hrelease] at hrelease'
    exact absurd hrelease' (by decide)
  · exact fun hdots v => assign_parsed v h hfits hdots

end Assign

/-! ## What is printed -/

theorem printInt_eq {n : Nat} (hn : n < 2 ^ 31) : printInt n = horner n 10 'a' := by
  have huval : ((n : Int) % 2 ^ 64).toNat = n := by omega
  have hneg : ¬ (n : Int) < 0 := by omega
  have hvalue : (IntFormat.mk (n : Int) 10 0 .left false true false ' ' 4).uval = n := by
    unfold IntFormat.uval
    simp only [hneg, and_false, if_false, huval, not_true_eq_false, false_and]
  unfold printInt IntFormat.print IntFormat.digits
  rw [hvalue]
  simp [hneg]

/-- The digits that are stored and got again. -/
theorem map_toChar (n : Nat) : ((horner n 10 'a').map ofChar).map toChar = horner n 10 'a' := by
  rw [List.map_map]
  conv_rhs => rw [← List.map_id (horner n 10 'a')]
  refine map_congr_left fun c hc => ?_
  exact horner_forall (by decide) 'a' (P := fun c => (toChar ∘ ofChar) c = id c) (by decide) n c hc

theorem dot_not_mem (n : Nat) : dot ∉ (horner n 10 'a').map ofChar := by
  intro hmem
  obtain ⟨c, hc, hdot⟩ := List.mem_map.mp hmem
  exact horner_forall (by decide) 'a' (P := fun c => ofChar c ≠ dot) (by decide) n c hc hdot

/-- The digits of a number, without a base. -/
theorem scanned_horner {n : Nat} (hn : n < 2 ^ 32) : scanned ((horner n 10 'a').map ofChar) = n := by
  unfold scanned
  rw [map_toChar]
  by_cases hzero : n = 0
  · rw [hzero]
    rfl
  · have hskip := Input.skip_horner n []
    have hscan := Input.scanDigits_horner (w := 32) { text := horner n 10 'a' } [] hn
    rw [append_nil] at hskip hscan
    obtain ⟨c, cs, hcons, hhead⟩ := @horner_head 10 (by decide) 'a' (by decide) n hzero
    -- the first digit is not the zero of a base
    have hbase : Input.scanUnsigned { text := horner n 10 'a' } 32 0 =
        Input.scanDigits 32 10 { text := horner n 10 'a' } (horner n 10 'a') 0 false := by
      unfold Input.scanUnsigned
      simp only [hskip]
      rw [hcons]
      split
      · rename_i heq
        exact absurd (List.cons.inj heq).1 hhead
      · rename_i heq
        exact absurd (List.cons.inj heq).1 hhead
      · rfl
      · rename_i hne _ _
        exact absurd rfl hne
    rw [hbase, hscan]
    rfl

/-- The bytes of the printed form. -/
def printed (v : Version) : List UInt8 := v.print.map ofChar

theorem printed_eq (v : Version) : v.printed = (horner v.major.toNat 10 'a').map ofChar ++ dot ::
    ((horner v.minor.toNat 10 'a').map ofChar ++ dot :: (horner v.release.toNat 10 'a').map ofChar) := by
  have hmajor := v.major.toNat_lt
  have hminor := v.minor.toNat_lt
  have hrelease := v.release.toNat_lt
  have hdot : ofChar '.' = dot := by decide
  unfold printed print
  rw [printInt_eq (by omega), printInt_eq (by omega), printInt_eq (by omega)]
  simp only [map_append, map_cons, hdot]

/-- The version that is printed is read again, in a version of any fields. -/
theorem assign_printed (v w : Version) {s : Text} (h : s.Valid) (hfits : s.Fits) (hview : s.view = v.printed) :
    w.assign s = some v := by
  have hmajor := v.major.toNat_lt
  have hminor := v.minor.toNat_lt
  have hrelease := v.release.toNat_lt
  rw [printed_eq] at hview
  rw [assign_two w h hfits hview (dot_not_mem _) (dot_not_mem _), scanned_horner (by omega),
    scanned_horner (by omega),
    scanned_horner (by omega), UInt8.ofNat_toNat, UInt8.ofNat_toNat, UInt16.ofNat_toNat]

/-- `compare` is lexicographic where the major and the minor numbers are in the same order; the operators are those of
`compare`, and are transitive but for the given versions; versions of other major numbers are accepted; a text is read
as a function of its characters if it has two dots, as those that are printed. -/
theorem version_iff (u v w : Version) :
    (Lexicographic u v ↔ SameOrder u v) ∧ Consistent u v ∧
    ((u.le v → v.le w → u.le w) ↔ u.major = w.major ∨ u.minor ≤ w.minor ∨
      (u.major ≠ v.major ∧ v.minor < u.minor) ∨ (v.major ≠ w.major ∧ w.minor < v.minor)) ∧
    ((u.accepts v → u.major = v.major) ↔ u.major = v.major) ∧
    ((u.accepts v → v.accepts w → u.accepts w) ↔
      (u.major = w.major → w.minor < u.minor → v.major = u.major)) ∧
    (∃ f : List UInt8 → Version, ∀ s : Text, s.Valid → s.Fits →
      ((∀ v : Version, v.assign s = some (f s.view)) ↔ 2 ≤ s.view.count dot)) ∧
    (∀ s : Text, s.Valid → s.Fits → s.view = v.printed → w.assign s = some v) := by
  refine ⟨lexicographic_iff u v, consistent u v, le_trans_iff u v w, accepts_major_iff u v,
    accepts_trans_iff u v w, ⟨parsed, fun s h hfits => assign_iff h hfits⟩, ?_⟩
  exact fun s h hfits hview => assign_printed v w h hfits hview

/-- Two versions of one major number are equal for `compare`, `accepts` goes from one major number to another, and a
text without a dot leaves the fields as they were. -/
theorem not_version :
    (¬ ∀ u v : Version, Lexicographic u v) ∧ (¬ ∀ u v w : Version, u.le v → v.le w → u.le w) ∧
    (¬ ∀ u v : Version, u.accepts v → u.major = v.major) ∧
    (¬ ∀ u v w : Version, u.accepts v → v.accepts w → u.accepts w) ∧
    ¬ ∀ s : Text, s.Valid → ∃ r, ∀ v : Version, v.assign s = some r := by
  refine ⟨fun h => ?_, fun h => ?_, fun h => ?_, fun h => ?_, fun h => ?_⟩
  · exact absurd ((h ⟨1, 0, 0⟩ ⟨1, 1, 0⟩).2.1.mp (by decide)) (by decide)
  · exact absurd (h ⟨2, 1, 0⟩ ⟨2, 0, 0⟩ ⟨1, 0, 0⟩ (by decide) (by decide)) (by decide)
  · exact absurd (h ⟨1, 0, 0⟩ ⟨2, 0, 0⟩ (by decide)) (by decide)
  · exact absurd (h ⟨1, 1, 0⟩ ⟨2, 0, 0⟩ ⟨1, 0, 0⟩ (by decide) (by decide)) (by decide)
  · obtain ⟨r, hr⟩ := h (Text.toString [51]) ⟨by decide, by decide, by decide⟩
    have hzero := hr ZERO
    have hone := hr { ZERO with release := 1 }
    rw [assign_none _ ⟨by decide, by decide, by decide⟩ (by decide)] at hzero hone
    obtain rfl := some.inj hzero
    exact absurd (some.inj hone) (by decide)

end Version

end Elm.Util
