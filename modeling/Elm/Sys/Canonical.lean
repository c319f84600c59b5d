import Elm.Io.Input

/-!
# `Path::canonical`

The canonical form of a path, of `src/system_Path.cpp`, on Unix.  The components that precede a separator are
selected one after the other; the last component is kept as it is, whatever it is.
-/

namespace Elm.Sys

open Io List

/-- The characters of the member `buf`. -/
abbrev Path := List Char

namespace Path

/-! ## The code -/

/-- The index of the last `c`, or -1. -/
def lastIndexOf (c : Char) : Path → Int
  | [] => -1
  | x :: p => if 0 ≤ lastIndexOf c p then lastIndexOf c p + 1 else if x = c then 0 else -1

/-- `lastSeparator`. -/
def lastSeparator (p : Path) : Int := lastIndexOf '/' p

/-- `parent`. -/
def parent (p : Path) : Path := if lastSeparator p < 0 then ['.'] else p.take (lastSeparator p).toNat

/-- `append`, the operator `/`. -/
def append (p q : Path) : Path :=
  if p.isEmpty then q else if q.isEmpty then p else StringBuffer.toString (p ++ '/' :: q)

/-- `isAbsolute`. -/
def isAbsolute (p : Path) : Bool := p.head? = some '/'

/-- `BACK_PATH`. -/
def backPath : Path := ['.', '.']

/-- `nextSeparator`; `none` stands for -1. -/
def nextSeparator (p : Path) (start : Nat) : Option Nat := ((p.drop start).idxOf? '/').map (start + ·)

/-- `buf.substring(start, len)`. -/
def substring (p : Path) (start len : Nat) : Path := (p.drop start).take len

/-- The selection of a component. -/
def select (comps : List Path) (comp : Path) : List Path :=
  if comp = backPath then comps.dropLast
  else if comp ≠ [] ∧ comp ≠ ['.'] then comps ++ [comp]
  else comps

/-- What precedes the first occurrence of a character. -/
theorem exists_of_idxOf? {l : Path} {c : Char} {i : Nat} (h : l.idxOf? c = some i) :
    ∃ xs ys, l = xs ++ c :: ys ∧ c ∉ xs ∧ i = xs.length := by
  induction l generalizing i with
  | nil => cases h
  | cons x l ih =>
    rw [idxOf?_cons] at h
    by_cases hx : x = c
    · subst hx
      rw [if_pos (beq_self_eq_true x)] at h
      cases h
      exact ⟨[], l, rfl, not_mem_nil, rfl⟩
    · rw [if_neg (by simpa using hx)] at h
      obtain ⟨j, hj, rfl⟩ := Option.map_eq_some_iff.mp h
      obtain ⟨xs, ys, rfl, hxs, rfl⟩ := ih hj
      exact ⟨x :: xs, ys, rfl, not_mem_cons_of_ne_of_not_mem (Ne.symm hx) hxs, rfl⟩

theorem exists_of_nextSeparator {p : Path} {start stop : Nat} (h : nextSeparator p start = some stop) :
    ∃ comp rest, p.drop start = comp ++ '/' :: rest ∧ '/' ∉ comp ∧ stop = start + comp.length := by
  obtain ⟨i, hi, rfl⟩ := Option.map_eq_some_iff.mp h
  obtain ⟨comp, rest, hdrop, hcomp, rfl⟩ := exists_of_idxOf? hi
  exact ⟨comp, rest, hdrop, hcomp, rfl⟩

theorem nextSeparator_eq_none {p : Path} {start : Nat} (h : nextSeparator p start = none) :
    '/' ∉ p.drop start := idxOf?_eq_none_iff.mp (Option.map_eq_none_iff.mp h)

theorem nextSeparator_lt {p : Path} {start stop : Nat} (h : nextSeparator p start = some stop) :
    start ≤ stop ∧ stop < p.length := by
  obtain ⟨comp, rest, hdrop, -, rfl⟩ := exists_of_nextSeparator h
  have hlength := congrArg List.length hdrop
  rw [length_drop, length_append, length_cons] at hlength
  omega

/-- The loop of `canonical`, and the last component. -/
def selectFrom (p : Path) (start : Nat) (comps : List Path) : List Path :=
  match _h : nextSeparator p start with
  | some stop => selectFrom p (stop + 1) (select comps (substring p start (stop - start)))
  | none => comps ++ [p.drop start]
termination_by p.length - start
decreasing_by
  have hlt := nextSeparator_lt _h
  omega

/-- What the loop that builds the path again puts in its buffer. -/
def rebuild (comps : List Path) : Path := comps.flatMap fun comp => '/' :: comp

section Canonical

variable (current home : Path)

/-- `absolute`, with the current directory and the home directory. -/
def absolute (p : Path) : Path :=
  if isAbsolute p then p
  else if p.head? = some '~' then append home (p.drop 1)
  else append current p

/-- `canonical`; its buffer is not longer than the absolute path, so that its text is not cut. -/
def canonical (p : Path) : Path := rebuild (selectFrom (absolute current home p) 0 [])

end Canonical

/-! ## The components -/

/-- The components of a path, the empty ones too. -/
def components (p : Path) : List Path := p.splitOn '/'

theorem components_ne_nil (p : Path) : components p ≠ [] := splitOn_ne_nil '/' p

theorem selectFrom_some {p : Path} {start stop : Nat} (h : nextSeparator p start = some stop) (comps : List Path) :
    selectFrom p start comps = selectFrom p (stop + 1) (select comps (substring p start (stop - start))) := by
  rw [selectFrom]
  split
  · rename_i heq
    rw [h] at heq
    cases heq
    rfl
  · rename_i heq
    rw [h] at heq
    cases heq

theorem selectFrom_none {p : Path} {start : Nat} (h : nextSeparator p start = none) (comps : List Path) :
    selectFrom p start comps = comps ++ [p.drop start] := by
  rw [selectFrom]
  split
  · rename_i heq
    rw [h] at heq
    cases heq
  · rfl

/-- The components that precede a separator are selected, and the last one is kept. -/
theorem selectFrom_eq (p : Path) (start : Nat) (comps : List Path) :
    ∃ init last, components (p.drop start) = init ++ [last] ∧
      selectFrom p start comps = init.foldl select comps ++ [last] := by
  -- each turn takes the first component of what is left of the path
  induction start, comps using selectFrom.induct (p := p) with
  | case1 start comps stop h ih =>
    rw [selectFrom_some h]
    obtain ⟨comp, rest, hdrop, hcomp, rfl⟩ := exists_of_nextSeparator h
    obtain ⟨init, last, hcomps, hselect⟩ := ih
    have hrest : p.drop (start + comp.length + 1) = rest := by
      rw [Nat.add_assoc, ← drop_drop, hdrop, append_cons, drop_left' (by simp)]
    have hcomp' : substring p start (start + comp.length - start) = comp := by
      rw [substring, Nat.add_sub_cancel_left, hdrop, take_left]
    rw [hrest] at hcomps
    rw [hcomp'] at hselect ⊢
    refine ⟨comp :: init, last, ?_, hselect⟩
    rw [components, hdrop, splitOn_append_cons_self_of_not_mem hcomp]
    exact congrArg (List.cons comp) hcomps
  | case2 start comps h =>
    exact ⟨[], p.drop start, splitOn_eq_singleton (nextSeparator_eq_none h), selectFrom_none h comps⟩

theorem rebuild_cons (comp : Path) (comps : List Path) :
    rebuild (comp :: comps) = '/' :: intercalate ['/'] (comp :: comps) := by
  induction comps generalizing comp with
  | nil => simp [rebuild]
  | cons comp' comps ih =>
    have hcons : rebuild (comp :: comp' :: comps) = '/' :: comp ++ rebuild (comp' :: comps) := flatMap_cons
    rw [hcons, ih, intercalate_cons_cons, append_assoc]
    rfl

/-- The components of a path that is built again. -/
theorem components_rebuild {comps : List Path} (h : ∀ comp ∈ comps, '/' ∉ comp) :
    components (rebuild comps) = [] :: comps := by
  have hjoin : rebuild comps = intercalate ['/'] ([] :: comps) := by
    cases comps with
    | nil => rfl
    | cons comp comps =>
      rw [rebuild_cons, intercalate_cons_cons]
      rfl
  -- the separator before the first component makes an empty one
  rw [components, hjoin]
  exact splitOn_intercalate '/' (forall_mem_cons.mpr ⟨not_mem_nil, h⟩) (cons_ne_nil _ _)

theorem notMem_of_mem_components {p comp : Path} (h : comp ∈ components p) : '/' ∉ comp := by
  induction p generalizing comp with
  | nil =>
    rw [components, splitOn_nil, mem_singleton] at h
    rw [h]
    exact not_mem_nil
  | cons c p ih =>
    rw [components, splitOn_cons_eq_if_modifyHead] at h
    split_ifs at h with hc
    · rcases mem_cons.mp h with rfl | h
      · exact not_mem_nil
      · exact ih h
    · cases hp : p.splitOn '/' with
      | nil => exact absurd hp (splitOn_ne_nil '/' p)
      | cons w ws =>
        rw [hp, modifyHead_cons] at h
        have hmem : ∀ comp ∈ w :: ws, '/' ∉ comp := by
          intro comp hcomp
          apply ih
          rw [components, hp]
          exact hcomp
        rcases mem_cons.mp h with rfl | h
        · refine not_mem_cons_of_ne_of_not_mem ?_ (hmem w mem_cons_self)
          rintro rfl
          exact hc rfl
        · exact hmem comp (mem_cons_of_mem w h)

/-- An absolute path starts with an empty component. -/
theorem components_of_isAbsolute {p : Path} (h : isAbsolute p) :
    ∃ rest, p = '/' :: rest ∧ components p = [] :: components rest := by
  cases p with
  | nil => cases h
  | cons c rest =>
    obtain rfl : c = '/' := by simpa [isAbsolute] using h
    exact ⟨rest, rfl, splitOn_append_cons_self [] rest⟩

theorem rebuild_components {p : Path} (h : isAbsolute p) : rebuild (components p).tail = p := by
  obtain ⟨rest, rfl, hcomps⟩ := components_of_isAbsolute h
  rw [hcomps, tail_cons]
  cases hrest : components rest with
  | nil => exact absurd hrest (components_ne_nil rest)
  | cons w ws => rw [rebuild_cons, ← hrest, components, intercalate_splitOn]

theorem length_rebuild_select (comps : List Path) (comp : Path) :
    (rebuild (select comps comp)).length ≤ (rebuild comps).length + comp.length + 1 := by
  have hdrop : (rebuild comps.dropLast).length ≤ (rebuild comps).length :=
    ((dropLast_sublist comps).flatMap _).length_le
  rw [select]
  split_ifs
  · omega
  · rw [rebuild, flatMap_append, length_append, flatMap_singleton, length_cons]
    exact le_rfl
  · omega

/-- The path that is built again is not longer than the absolute path. -/
theorem length_rebuild_selectFrom (p : Path) (start : Nat) (comps : List Path) :
    (rebuild (selectFrom p start comps)).length ≤ (rebuild comps).length + (p.drop start).length + 1 := by
  induction start, comps using selectFrom.induct (p := p) with
  | case1 start comps stop h ih =>
    have hselect := length_rebuild_select comps (substring p start (stop - start))
    obtain ⟨hle, hlt⟩ := nextSeparator_lt h
    have hcomp : (substring p start (stop - start)).length ≤ stop - start := length_take_le _ _
    rw [selectFrom_some h]
    rw [length_drop] at ih ⊢
    omega
  | case2 start comps h =>
    rw [selectFrom_none h, rebuild, flatMap_append, length_append, flatMap_singleton,
      length_cons]
    exact le_rfl

/-- The text of `canonical` is not cut. -/
theorem toString_rebuild {p : Path} (h : isAbsolute p) (hlength : p.length < 2 ^ 16) :
    StringBuffer.toString (rebuild (selectFrom p 0 [])) = rebuild (selectFrom p 0 []) := by
  obtain ⟨rest, rfl, -⟩ := components_of_isAbsolute h
  -- nothing is selected before the first separator
  have hfirst : selectFrom ('/' :: rest) 0 [] = selectFrom ('/' :: rest) 1 [] := selectFrom_some rfl []
  have hle := length_rebuild_selectFrom ('/' :: rest) 1 []
  have hnil : (rebuild []).length = 0 := rfl
  apply StringBuffer.toString_of_lt
  rw [hfirst]
  rw [hnil, drop_one, tail_cons] at hle
  rw [length_cons] at hlength
  omega

/-! ## The location -/

/-- A component as a step from a directory to another one; there is nothing above the root. -/
def enter (dir : List Path) (comp : Path) : List Path :=
  if comp = [] ∨ comp = ['.'] then dir
  else if comp = ['.', '.'] then dir.dropLast
  else dir ++ [comp]

/-- The names of the directories from the root to what an absolute path denotes. -/
def location (p : Path) : List Path := (components p).foldl enter []

/-- A component that is a name. -/
def IsName (comp : Path) : Prop := comp ≠ [] ∧ comp ≠ ['.'] ∧ comp ≠ ['.', '.']

/-- An absolute path with only names, or the root. -/
def IsCanonical (p : Path) : Prop := p = ['/'] ∨ isAbsolute p ∧ ∀ comp ∈ (components p).tail, IsName comp

theorem select_eq_enter (dir : List Path) (comp : Path) : select dir comp = enter dir comp := by
  by_cases hback : comp = backPath
  · subst hback
    rfl
  · rw [select, enter, if_neg hback]
    by_cases hstay : comp = [] ∨ comp = ['.']
    · rw [if_pos hstay, if_neg (fun hname => hstay.elim hname.1 hname.2)]
    · rw [if_neg hstay, if_pos (not_or.mp hstay)]
      exact (if_neg hback).symm

/-- The names from the root to the directory where the last component is looked for. -/
def directory (p : Path) : List Path := (components p).dropLast.foldl enter []

/-- The last component. -/
def last (p : Path) : Path := (components p).getLast (components_ne_nil p)

theorem enter_of_isName {comp : Path} (h : IsName comp) (dir : List Path) : enter dir comp = dir ++ [comp] := by
  rw [enter, if_neg (not_or.mpr ⟨h.1, h.2.1⟩), if_neg h.2.2]

/-- To follow names is to add them. -/
theorem foldl_enter_of_isName {comps : List Path} (h : ∀ comp ∈ comps, IsName comp) (dir : List Path) :
    comps.foldl enter dir = dir ++ comps := by
  induction comps generalizing dir with
  | nil => exact (List.append_nil dir).symm
  | cons comp comps ih =>
    rw [forall_mem_cons] at h
    rw [foldl_cons, enter_of_isName h.1, ih h.2, append_assoc]
    rfl

/-- The directories that are reached have names, which are components of the path. -/
theorem isName_of_mem_foldl {comps dir : List Path} (h : ∀ comp ∈ dir, IsName comp ∧ '/' ∉ comp)
    (hcomps : ∀ comp ∈ comps, '/' ∉ comp) : ∀ comp ∈ comps.foldl enter dir, IsName comp ∧ '/' ∉ comp := by
  induction comps generalizing dir with
  | nil => exact h
  | cons comp comps ih =>
    rw [forall_mem_cons] at hcomps
    apply ih _ hcomps.2
    intro comp' hmem
    rw [enter] at hmem
    by_cases hstay : comp = [] ∨ comp = ['.']
    · rw [if_pos hstay] at hmem
      exact h comp' hmem
    · by_cases hback : comp = ['.', '.']
      · rw [if_neg hstay, if_pos hback] at hmem
        exact h comp' (mem_of_mem_dropLast hmem)
      · rw [if_neg hstay, if_neg hback] at hmem
        rcases mem_append.mp hmem with hmem | hmem
        · exact h comp' hmem
        · rw [mem_singleton.mp hmem]
          exact ⟨⟨fun he => hstay (.inl he), fun he => hstay (.inr he), hback⟩, hcomps.1⟩

theorem isName_of_mem_directory {p comp : Path} (h : comp ∈ directory p) : IsName comp ∧ '/' ∉ comp :=
  isName_of_mem_foldl (forall_mem_nil _)
    (fun _ hmem => notMem_of_mem_components (mem_of_mem_dropLast hmem)) comp h

theorem notMem_last (p : Path) : '/' ∉ last p := notMem_of_mem_components (getLast_mem _)

/-- The last component is followed from the directory. -/
theorem location_eq (p : Path) : location p = enter (directory p) (last p) := by
  have hcomps : (components p).dropLast ++ [last p] = components p := dropLast_append_getLast _
  rw [location, ← hcomps, foldl_append]
  rfl

/-! ## The canonical form -/

section Spec

variable {current home p : Path}

/-- `canonical` builds a path with the names of the directory and the last component. -/
theorem canonical_eq (h : isAbsolute p) : canonical current home p = rebuild (directory p ++ [last p]) := by
  obtain ⟨init, comp, hcomps, hselect⟩ := selectFrom_eq p 0 []
  rw [drop_zero] at hcomps
  have hdirectory : directory p = init.foldl select [] := by
    rw [directory, hcomps, dropLast_concat]
    congr 1
    funext dir comp
    exact (select_eq_enter dir comp).symm
  have hlast : last p = comp := by
    have hget := getLast_concat (l := init) (a := comp)
    simp only [last, hcomps, hget]
  rw [canonical, absolute, if_pos h, hselect, hdirectory, hlast]

theorem components_canonical (h : isAbsolute p) :
    components (canonical current home p) = [] :: (directory p ++ [last p]) := by
  rw [canonical_eq h]
  apply components_rebuild
  intro comp hcomp
  rcases mem_append.mp hcomp with hcomp | hcomp
  · exact (isName_of_mem_directory hcomp).2
  · rw [mem_singleton.mp hcomp]
    exact notMem_last p

theorem isAbsolute_canonical (h : isAbsolute p) : isAbsolute (canonical current home p) := by
  rw [canonical_eq h]
  cases directory p <;> rfl

theorem directory_canonical (h : isAbsolute p) : directory (canonical current home p) = directory p := by
  rw [directory, components_canonical h, ← cons_append, dropLast_concat, foldl_cons]
  exact foldl_enter_of_isName (fun comp hcomp => (isName_of_mem_directory hcomp).1) []

theorem last_canonical (h : isAbsolute p) : last (canonical current home p) = last p := by
  have hcomps : components (canonical current home p) = ([] :: directory p) ++ [last p] := components_canonical h
  simp only [last, hcomps, getLast_concat]

/-- The canonical path denotes the location of the path. -/
theorem location_canonical (h : isAbsolute p) : location (canonical current home p) = location p := by
  rw [location_eq, location_eq, directory_canonical h, last_canonical h]

theorem canonical_canonical (h : isAbsolute p) :
    canonical current home (canonical current home p) = canonical current home p := by
  rw [canonical_eq (isAbsolute_canonical h), directory_canonical h, last_canonical h, canonical_eq h]

/-- The last component decides whether the path is canonical. -/
theorem isCanonical_canonical_iff (h : isAbsolute p) :
    IsCanonical (canonical current home p) ↔ IsName (last p) ∨ last p = [] ∧ directory p = [] := by
  constructor
  · rintro (hroot | ⟨-, hnames⟩)
    · -- the components of the root are two empty ones, the second of which is the last
      right
      have hcomps := @components_canonical current home p h
      rw [hroot] at hcomps
      have htail : [[]] = directory p ++ [last p] := (List.cons.inj hcomps).2
      rw [singleton_eq_append_iff] at htail
      obtain ⟨hdirectory, hlast⟩ | ⟨-, hlast⟩ := htail
      · exact ⟨(List.cons.inj hlast).1, hdirectory⟩
      · exact absurd hlast (cons_ne_nil _ _)
    · left
      rw [components_canonical h, tail_cons] at hnames
      exact hnames (last p) (mem_append_right _ (mem_singleton_self _))
  · rintro (hname | ⟨hlast, hdirectory⟩)
    · right
      refine ⟨isAbsolute_canonical h, ?_⟩
      rw [components_canonical h, tail_cons]
      intro comp hcomp
      rcases mem_append.mp hcomp with hcomp | hcomp
      · exact (isName_of_mem_directory hcomp).1
      · rw [mem_singleton.mp hcomp]
        exact hname
    · left
      rw [canonical_eq h, hlast, hdirectory]
      rfl

/-- `canonical` gives a canonical path for the location, and gives it back, when the last component is a name, or when
it is empty and the path leads to the root; otherwise a last component that is empty, `.` or `..` is kept. -/
theorem canonical_spec_iff (h : isAbsolute p) :
    (isAbsolute (canonical current home p) ∧ IsCanonical (canonical current home p) ∧
        location (canonical current home p) = location p ∧
          canonical current home (canonical current home p) = canonical current home p) ↔
      IsName (last p) ∨ last p = [] ∧ directory p = [] := by
  rw [← @isCanonical_canonical_iff current home p h]
  constructor
  · intro hspec
    exact hspec.2.1
  · intro hcanonical
    exact ⟨isAbsolute_canonical h, hcanonical, location_canonical h, canonical_canonical h⟩

end Spec

theorem canonical_spec_abc :
    isAbsolute (canonical ['/'] ['/'] "/a/./b/../c".toList) ∧
      IsCanonical (canonical ['/'] ['/'] "/a/./b/../c".toList) ∧
      location (canonical ['/'] ['/'] "/a/./b/../c".toList) = location "/a/./b/../c".toList ∧
        canonical ['/'] ['/'] (canonical ['/'] ['/'] "/a/./b/../c".toList) =
          canonical ['/'] ['/'] "/a/./b/../c".toList :=
  (canonical_spec_iff (p := "/a/./b/../c".toList) (by decide)).mpr (.inl (by unfold IsName; decide))

/-- A last component that goes back is kept. -/
theorem canonical_back :
    canonical ['/'] ['/'] "/a/..".toList = "/a/..".toList ∧
      ¬IsCanonical (canonical ['/'] ['/'] "/a/..".toList) := by
  constructor
  · rw [canonical_eq (by decide)]
    decide
  · rw [isCanonical_canonical_iff (by decide)]
    unfold IsName
    decide

end Path

end Elm.Sys
