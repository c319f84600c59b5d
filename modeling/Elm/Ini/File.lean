import Elm.Data.ListMap
import Elm.Ini.Lines

/-!
# `ini::File`

The sections and the values of `include/elm/ini.h`.  A file has a map from the names to the sections, and a section
has a map from the keys to the values.  The header of a section makes a new section that takes the place of the
section with the same name: what it had is lost.
-/

namespace Elm.Ini

open Data Std Strings Function List

/-! ## The program -/

/-- `Comparator<string>`: `String::compare`, on the characters. -/
def compareString (a b : List UInt8) : Ordering :=
  let n := if a.length > b.length then b.length else a.length
  let res := memcmp (a.take n) (b.take n)
  compare (if res ≠ 0 then res else (a.length : Int) - b.length) 0

/-- `Section`. -/
structure Section where
  name : List UInt8
  values : LinkedList.SLList (List UInt8 × List UInt8)

/-- The constructor. -/
def Section.new (name : List UInt8) : Section := ⟨name, ListMap.start⟩

/-- `Section::get`: an empty string for a key that is not defined. -/
def Section.get (s : Section) (key : List UInt8) : Option (List UInt8) :=
  ListMap.getDefault compareString s.values key []

/-- `File`, with the sections that were allocated; a pointer to a section is its index. -/
structure File where
  sections : List Section
  sects : LinkedList.SLList (List UInt8 × Nat)

namespace File

/-- The constructor; the section 0 is `def`. -/
def new : Option File :=
  (ListMap.put compareString ListMap.start [] 0).map fun sects => ⟨[.new []], sects⟩

/-- `get`: a null pointer for a section that is not in the file. -/
def get (f : File) (name : List UInt8) : Option (Option Nat) := ListMap.get compareString f.sects name

/-- `get(name)->get(key)`. -/
def getValue (f : File) (name key : List UInt8) : Option (Option (List UInt8)) := do
  match ← f.get name with
  | none => some none
  | some sect => ((← f.sections[sect]?).get key).map some

/-- The header of a section: the file, and the pointer to the new section. -/
def putSection (f : File) (name : List UInt8) : Option (File × Nat) :=
  (ListMap.put compareString f.sects name f.sections.length).map fun sects =>
    (⟨f.sections ++ [.new name], sects⟩, f.sections.length)

/-- `sect->values.put`. -/
def putValue (f : File) (sect : Nat) (key value : List UInt8) : Option File := do
  let s ← f.sections[sect]?
  let values ← ListMap.put compareString s.values key value
  some { f with sections := f.sections.set sect { s with values } }

end File

/-! ## The order of the strings -/

/-- The difference of two bytes compares them. -/
theorem compare_sub (a b : UInt8) : compare ((a.toNat : Int) - b.toNat) 0 = compare a b := by
  have hlt : (a.toNat : Int) - b.toNat < 0 ↔ a < b := by
    rw [UInt8.lt_iff_toNat_lt]
    omega
  have heq : (a.toNat : Int) - b.toNat = 0 ↔ a = b := by
    rw [← UInt8.toNat_inj]
    omega
  simp only [compare, compareOfLessAndEq, hlt, heq]

theorem compareString_cons (a b : UInt8) (as bs : List UInt8) : compareString (a :: as) (b :: bs) =
    if a = b then compareString as bs else compare ((a.toNat : Int) - b.toNat) 0 := by
  have hmin : (if (a :: as).length > (b :: bs).length then (b :: bs).length else (a :: as).length) =
      (if as.length > bs.length then bs.length else as.length) + 1 := by
    simp only [length_cons]
    split_ifs <;> omega
  have hdiff : ((a :: as).length : Int) - (b :: bs).length = (as.length : Int) - bs.length := by
    simp only [length_cons]
    omega
  unfold compareString
  simp only [hmin, hdiff, take_succ_cons, memcmp]
  by_cases hab : a = b
  · simp only [if_pos hab]
  · -- two bytes that differ have a difference
    have hne : (a.toNat : Int) - b.toNat ≠ 0 := fun h => hab (UInt8.toNat_inj.mp (by omega))
    rw [if_neg hab, if_neg hab, if_pos hne]

/-- The comparison of strings is the lexicographic order. -/
theorem compareString_eq : compareString = compare := by
  funext a b
  induction a generalizing b with
  | nil =>
    cases b with
    | nil => rfl
    | cons b bs =>
      have hneg : ((0 : Nat) : Int) - (bs.length + 1 : Nat) < 0 := by omega
      exact compare_lt_iff_lt.mpr hneg
  | cons a as ih =>
    cases b with
    | nil =>
      have hpos : ((as.length + 1 : Nat) : Int) - (0 : Nat) > 0 := by omega
      exact compare_gt_iff_gt.mpr hpos
    | cons b bs =>
      rw [compareString_cons, ih, List.compare_eq_compareLex, List.compareLex_cons_cons]
      by_cases hab : a = b
      · have hself : compare b b = .eq := ReflCmp.compare_self
        rw [if_pos hab, hab, hself]
        rfl
      · rw [if_neg hab, compare_sub]
        have hne : compare a b ≠ .eq := fun h => hab (LawfulEqCmp.compare_eq_iff_eq.mp h)
        cases hcmp : compare a b with
        | lt => rfl
        | eq => exact absurd hcmp hne
        | gt => rfl

instance : TransCmp compareString := compareString_eq ▸ inferInstance

instance : LawfulEqCmp compareString := compareString_eq ▸ inferInstance

/-! ## Finite maps -/

/-- What the lines make of a file: the current section, the sections, and their values. -/
structure Store where
  cur : List UInt8
  opened : Set (List UInt8)
  values : List UInt8 → List UInt8 → Option (List UInt8)

namespace Store

/-- Before the first line. -/
def start : Store := ⟨[], {[]}, fun _ _ => none⟩

/-- The header of a section. -/
def header (st : Store) (name : List UInt8) : Store :=
  ⟨name, insert name st.opened, update st.values name fun _ => none⟩

/-- A key and its value. -/
def pair (st : Store) (key value : List UInt8) : Store :=
  { st with values := update st.values st.cur (update (st.values st.cur) key (some value)) }

/-- A line that is not wrong. -/
def read (st : Store) (l : List UInt8) : Store :=
  match classify l with
  | .header name => st.header name
  | .pair key value => st.pair key value
  | _ => st

section Lines

variable {st : Store} {name key : List UInt8}

/-- A line does not change the values of the section of which it is not a header, but for the pair that it has. -/
theorem read_values {l : List UInt8} (hl : classify l ≠ .header name) (ls : List (List UInt8)) :
    (written name key (st.read l).cur ls).or ((st.read l).values name key) =
      (written name key st.cur (l :: ls)).or (st.values name key) := by
  rw [written, read]
  cases hline : classify l with
  | header n =>
    have hne : name ≠ n := fun heq => hl (heq ▸ hline)
    simp only [header, update_of_ne hne]
  | pair k v =>
    simp only [pair, Option.or_assoc]
    congr 1
    by_cases hcur : st.cur = name
    · subst hcur
      rw [update_self]
      by_cases hkey : k = key
      · subst hkey
        rw [update_self, if_pos ⟨rfl, rfl⟩, Option.some_or]
      · rw [update_of_ne (Ne.symm hkey), if_neg (fun h => hkey h.2), Option.none_or]
    · rw [update_of_ne (Ne.symm hcur), if_neg (fun h => hcur h.1), Option.none_or]
  | blank => rfl
  | comment => rfl
  | malformed => rfl
  | garbage => rfl

/-- Lines without a header of the section. -/
theorem foldl_read_values {ls : List (List UInt8)} (hls : ∀ l ∈ ls, classify l ≠ .header name) :
    (ls.foldl read st).values name key = (written name key st.cur ls).or (st.values name key) := by
  induction ls generalizing st with
  | nil => rw [written, Option.none_or, foldl_nil]
  | cons l ls ih =>
    rw [foldl_cons, ih fun l' hl' => hls l' (mem_cons_of_mem l hl'),
      read_values (hls l mem_cons_self)]

/-- A key that is not written has no value. -/
theorem foldl_read_none {ls : List (List UInt8)} (hvalue : st.values name key = none)
    (hwritten : written name key st.cur ls = none) : (ls.foldl read st).values name key = none := by
  induction ls generalizing st with
  | nil => exact hvalue
  | cons l ls ih =>
    rw [foldl_cons]
    by_cases hl : classify l = .header name
    · refine ih ?_ ?_
      · simp only [read, hl, header, update_self]
      · rw [written, hl] at hwritten
        rw [read, hl]
        exact hwritten
    · have hread := @read_values st name key l hl ls
      rw [hvalue, hwritten, Option.or_none] at hread
      obtain ⟨hw, hv⟩ := Option.or_eq_none_iff.mp hread
      exact ih hv hw

theorem mem_opened_foldl {ls : List (List UInt8)} :
    name ∈ (ls.foldl read st).opened ↔ name ∈ st.opened ∨ ∃ l ∈ ls, classify l = .header name := by
  induction ls generalizing st with
  | nil => simp
  | cons l ls ih =>
    have hl : name ∈ (st.read l).opened ↔ name ∈ st.opened ∨ classify l = .header name := by
      rw [read]
      cases hline : classify l with
      | header n =>
        simp only [header, Set.mem_insert_iff, Line.header.injEq, @eq_comm _ n]
        exact or_comm
      | _ => simp [pair]
    rw [foldl_cons, ih, hl, exists_mem_cons_iff, or_assoc]

end Lines

/-- The last header of a section, if there is one. -/
theorem exists_last_header (name : List UInt8) (ls : List (List UInt8)) : (∀ l ∈ ls, classify l ≠ .header name) ∨
    ∃ before h after, ls = before ++ h :: after ∧ classify h = .header name ∧
      ∀ l ∈ after, classify l ≠ .header name := by
  induction ls with
  | nil => exact Or.inl fun l hl => absurd hl not_mem_nil
  | cons l ls ih =>
    rcases ih with hnone | ⟨before, h, after, rfl, hh, hafter⟩
    · by_cases hl : classify l = .header name
      · exact Or.inr ⟨[], l, ls, rfl, hl, hnone⟩
      · refine Or.inl fun l' hl' => ?_
        rcases mem_cons.mp hl' with rfl | hl'
        · exact hl
        · exact hnone l' hl'
    · exact Or.inr ⟨l :: before, h, after, rfl, hh, hafter⟩

/-- The values after a header. -/
theorem foldl_header {name key h : List UInt8} {before after : List (List UInt8)} (hh : classify h = .header name) :
    ∃ st : Store, st.values name key = none ∧ st.cur = name ∧
      (before ++ h :: after).foldl read start = after.foldl read st := by
  refine ⟨(before.foldl read start).header name, by simp [header], rfl, ?_⟩
  rw [foldl_append, foldl_cons]
  congr 1
  rw [read, hh]

/-- The values are those that are written exactly if none is lost at a header. -/
theorem kept_iff (ls : List (List UInt8)) : (∀ name key, ((ls.foldl read start).values name key).getD [] =
    (written name key [] ls).getD []) ↔ Kept ls := by
  constructor
  · intro hvalues before h after name key v hls hh hv hne hafter
    obtain ⟨st, hnone, hcur, hfold⟩ := @foldl_header name key h before after hh
    have heq := hvalues name key
    rw [hls, hfold, foldl_read_none hnone (by rw [hcur]; exact hafter), written_append hh, hafter, hv] at heq
    exact hne heq.symm
  · intro hkept name key
    rcases exists_last_header name ls with hnone | ⟨before, h, after, hls, hh, hafter⟩
    · rw [foldl_read_values hnone]
      exact congrArg (fun o : Option (List UInt8) => o.getD []) (Option.or_none)
    · obtain ⟨st, hnone, hcur, hfold⟩ := @foldl_header name key h before after hh
      rw [hls, hfold, foldl_read_values hafter, hnone, hcur, Option.or_none, written_append hh]
      cases hw : written name key name after with
      | some v => rfl
      | none =>
        -- nothing with a character was written before
        cases hv : written name key [] before with
        | none => rfl
        | some v =>
          by_cases hnil : v = []
          · rw [hnil]
            rfl
          · exact absurd hw (hkept before h after name key v hls hh hv hnil)

end Store

/-! ## What a file holds -/

namespace File

/-- The file has the sections and the values of a store; `map` has the pointers to the sections. -/
structure Holds (map : List UInt8 → Option Nat) (f : File) (sect : Nat) (st : Store) : Prop where
  sects : ∃ cells, ListMap.Inv compareString map f.sects cells
  opened : ∀ name, name ∈ st.opened ↔ (map name).isSome
  sections : ∀ name a, map name = some a → ∃ s, f.sections[a]? = some s ∧ s.name = name ∧
    ∃ cells, ListMap.Inv compareString (st.values name) s.values cells
  current : map st.cur = some sect

theorem update_put {V : Type} (m : List UInt8 → Option V) (k : List UInt8) (v : V) :
    ListMap.update compareString m (.put k v) = update m k (some v) := by
  funext x
  rw [ListMap.update_put, update_apply]
  simp only [LawfulEqCmp.compare_eq_iff_eq]

theorem exists_new : ∃ f map, new = some f ∧ Holds map f 0 Store.start := by
  have hstart : ListMap.Inv compareString (fun _ => none) (ListMap.start : LinkedList.SLList (List UInt8 × Nat)) [] :=
    ListMap.start_inv
  obtain ⟨sects, cells, hput, hinv⟩ := ListMap.put_inv hstart [] 0
  rw [update_put] at hinv
  refine ⟨⟨[.new []], sects⟩, _, by rw [new, hput, Option.map_some], ⟨cells, hinv⟩, fun name => ?_,
    fun name a h => ?_, update_self _ _ _⟩
  · by_cases hname : name = []
    · subst hname
      exact iff_of_true (Set.mem_singleton _) (by rw [update_self]; rfl)
    · exact iff_of_false hname (by rw [update_of_ne hname]; exact Bool.false_ne_true)
  · by_cases hname : name = []
    · subst hname
      rw [update_self] at h
      obtain rfl := Option.some.inj h
      exact ⟨_, rfl, rfl, [], ListMap.start_inv⟩
    · rw [update_of_ne hname] at h
      cases h

section Steps

variable {map : List UInt8 → Option Nat} {f : File} {sect : Nat} {st : Store}

/-- The pointers are to the sections of the file. -/
theorem Holds.lt_length (h : Holds map f sect st) {name : List UInt8} {a : Nat} (ha : map name = some a) :
    a < f.sections.length := by
  obtain ⟨s, hs, -⟩ := h.sections name a ha
  exact (List.getElem?_eq_some_iff.mp hs).1

/-- Two names have two sections. -/
theorem Holds.name_eq (h : Holds map f sect st) {name name' : List UInt8} {a : Nat} (ha : map name = some a)
    (ha' : map name' = some a) : name = name' := by
  obtain ⟨s, hs, hname, -⟩ := h.sections name a ha
  obtain ⟨s', hs', hname', -⟩ := h.sections name' a ha'
  obtain rfl := Option.some.inj (hs.symm.trans hs')
  exact hname.symm.trans hname'

/-- The header of a section. -/
theorem Holds.putSection (h : Holds map f sect st) (name : List UInt8) :
    ∃ f' map', f.putSection name = some (f', f.sections.length) ∧
      Holds map' f' f.sections.length (st.header name) := by
  obtain ⟨cells, hinv⟩ := h.sects
  obtain ⟨sects, cells', hput, hinv'⟩ := ListMap.put_inv hinv name f.sections.length
  rw [update_put] at hinv'
  refine ⟨⟨f.sections ++ [.new name], sects⟩, _, by rw [File.putSection, hput, Option.map_some], ⟨cells', hinv'⟩,
    fun x => ?_, fun x a hx => ?_, update_self _ _ _⟩
  · by_cases hname : x = name
    · subst hname
      exact iff_of_true (Set.mem_insert _ _) (by rw [update_self]; rfl)
    · rw [update_of_ne hname, ← h.opened]
      exact Set.mem_insert_iff.trans (or_iff_right hname)
  · by_cases hname : x = name
    · subst hname
      rw [update_self] at hx
      obtain rfl := Option.some.inj hx
      refine ⟨.new x, by simp, rfl, [], ?_⟩
      simp only [Store.header, update_self]
      exact ListMap.start_inv
    · rw [update_of_ne hname] at hx
      obtain ⟨s, hs, hsname, hvalues⟩ := h.sections x a hx
      refine ⟨s, by rw [getElem?_append_left (h.lt_length hx), hs], hsname, ?_⟩
      simp only [Store.header, update_of_ne hname]
      exact hvalues

/-- A key and its value, in the current section. -/
theorem Holds.putValue (h : Holds map f sect st) (key value : List UInt8) :
    ∃ f', f.putValue sect key value = some f' ∧ Holds map f' sect (st.pair key value) := by
  obtain ⟨s, hs, hname, cells, hinv⟩ := h.sections st.cur sect h.current
  obtain ⟨values, cells', hput, hinv'⟩ := ListMap.put_inv hinv key value
  rw [update_put] at hinv'
  have hlt := h.lt_length h.current
  refine ⟨⟨f.sections.set sect { s with values }, f.sects⟩, ?_, h.sects, h.opened, fun x a hx => ?_, h.current⟩
  · simp only [File.putValue, hs, hput, Option.bind_eq_bind, Option.bind_some]
  · by_cases hcur : x = st.cur
    · subst hcur
      obtain rfl := Option.some.inj (hx.symm.trans h.current)
      refine ⟨{ s with values }, getElem?_set_self hlt, hname, cells', ?_⟩
      simp only [Store.pair, update_self]
      exact hinv'
    · -- the other sections have other pointers
      have hne : sect ≠ a := fun heq => hcur (h.name_eq hx (heq ▸ h.current))
      obtain ⟨s', hs', hname', hvalues⟩ := h.sections x a hx
      refine ⟨s', by rw [getElem?_set_ne hne, hs'], hname', ?_⟩
      simp only [Store.pair, update_of_ne hcur]
      exact hvalues

/-- What the file answers. -/
theorem Holds.getValue (h : Holds map f sect st) (name key : List UInt8) :
    (name ∈ st.opened → f.getValue name key = some (some ((st.values name key).getD []))) ∧
      (name ∉ st.opened → f.getValue name key = some none) := by
  obtain ⟨cells, hinv⟩ := h.sects
  have hget : f.get name = some (map name) := (ListMap.get_eq hinv name).1
  constructor
  · intro hopened
    obtain ⟨a, ha⟩ := Option.isSome_iff_exists.mp ((h.opened name).mp hopened)
    obtain ⟨s, hs, -, cells', hvalues⟩ := h.sections name a ha
    have hvalue : s.get key = some ((st.values name key).getD []) := (ListMap.get_eq hvalues key).2.1 []
    simp only [File.getValue, hget, ha, hs, hvalue, Option.bind_eq_bind, Option.bind_some, Option.map_some]
  · intro hopened
    have hnone : map name = none := by
      rw [h.opened, Bool.not_eq_true, Option.isSome_eq_false_iff, Option.isNone_iff_eq_none] at hopened
      exact hopened
    simp only [File.getValue, hget, hnone, Option.bind_eq_bind, Option.bind_some]

end Steps

end File

end Elm.Ini
