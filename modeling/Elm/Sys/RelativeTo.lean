import Elm.Lib.Loop
import Elm.Sys.Canonical

/-!
# `Path::relativeTo`

The path of a file relative to a base, of `src/system_Path.cpp`.  The base is climbed with `parent` until it is empty
or a prefix of the path.
-/

namespace Elm.Sys.Path

open Io List

/-! ## The code -/

/-- `isPrefixOf`. -/
def isPrefixOf (p path : Path) : Bool :=
  List.isPrefixOf p path && (path.length = p.length || path[p.length]? = some '/')

/-- One turn of the loop of `relativeTo`, on the members `r` and `base`, and what is returned after it. -/
def climb (p : Path) (s : Path × Path) : Path × Path ⊕ Path :=
  if s.2 ≠ [] ∧ ¬isPrefixOf s.2 p then .inl (append s.1 backPath, parent s.2)
  else if s.2 = p then .inr s.1
  else .inr (append s.1 (p.drop (s.2.length + 1)))

/-- `relativeTo`. -/
def relativeTo (fuel : Nat) (p base : Path) : Option Path :=
  if base = p then some ['.'] else Loop.run (climb p) fuel ([], base)

/-! ## Separators -/

theorem lastIndexOf_of_notMem {c : Char} {p : Path} (h : c ∉ p) : lastIndexOf c p = -1 := by
  induction p with
  | nil => rfl
  | cons x p ih =>
    rw [mem_cons, not_or] at h
    rw [lastIndexOf, ih h.2, if_neg (by decide), if_neg (Ne.symm h.1)]

theorem lastIndexOf_append {c : Char} {q : Path} (h : c ∉ q) (p : Path) :
    lastIndexOf c (p ++ c :: q) = p.length := by
  induction p with
  | nil =>
    rw [List.nil_append, lastIndexOf, lastIndexOf_of_notMem h, if_neg (by decide), if_pos rfl]
    rfl
  | cons x p ih =>
    rw [cons_append, lastIndexOf, ih, if_pos (Int.natCast_nonneg _), length_cons]
    push_cast
    rfl

theorem parent_of_notMem {p : Path} (h : '/' ∉ p) : parent p = ['.'] := by
  rw [parent, lastSeparator, lastIndexOf_of_notMem h, if_pos (by decide)]

theorem parent_append {comp : Path} (h : '/' ∉ comp) (q : Path) : parent (q ++ '/' :: comp) = q := by
  rw [parent, lastSeparator, lastIndexOf_append h, if_neg (Int.not_lt.mpr (Int.natCast_nonneg _)), Int.toNat_natCast,
    take_left]

/-- The last separator of a path. -/
theorem notMem_or_exists_append (p : Path) : '/' ∉ p ∨ ∃ q comp, p = q ++ '/' :: comp ∧ '/' ∉ comp := by
  induction p with
  | nil => exact .inl not_mem_nil
  | cons c p ih =>
    rcases ih with h | ⟨q, comp, rfl, h⟩
    · by_cases hc : c = '/'
      · subst hc
        exact .inr ⟨[], p, rfl, h⟩
      · exact .inl (not_mem_cons_of_ne_of_not_mem (Ne.symm hc) h)
    · exact .inr ⟨c :: q, comp, rfl, h⟩

theorem isPrefixOf_iff {p path : Path} : isPrefixOf p path ↔ path = p ∨ ∃ rest, path = p ++ '/' :: rest := by
  rw [isPrefixOf, Bool.and_eq_true, isPrefixOf_iff_prefix, Bool.or_eq_true, decide_eq_true_iff,
    decide_eq_true_iff]
  constructor
  · rintro ⟨⟨rest, rfl⟩, hend⟩
    rw [getElem?_append_right (Nat.le_refl _), Nat.sub_self] at hend
    cases rest with
    | nil => exact .inl (List.append_nil p)
    | cons c rest =>
      rcases hend with hlength | hget
      · rw [length_append, length_cons] at hlength
        omega
      · obtain rfl : c = '/' := Option.some.inj hget
        exact .inr ⟨rest, rfl⟩
  · rintro (rfl | ⟨rest, rfl⟩)
    · exact ⟨prefix_rfl, .inl rfl⟩
    · refine ⟨prefix_append _ _, .inr ?_⟩
      rw [getElem?_append_right (Nat.le_refl _), Nat.sub_self]
      rfl

theorem components_append (p q : Path) : components (p ++ '/' :: q) = components p ++ components q :=
  splitOn_append_cons_self p q

theorem components_injective : Function.Injective components :=
  Function.LeftInverse.injective fun _ => intercalate_splitOn '/'

/-- A path whose components begin another one is a prefix of it. -/
theorem isPrefixOf_of_components {q p : Path} (h : components q <+: components p) : isPrefixOf q p := by
  obtain ⟨t, ht⟩ := h
  rw [isPrefixOf_iff]
  by_cases hnil : t = []
  · rw [hnil, List.append_nil] at ht
    exact .inl (components_injective ht).symm
  · right
    have hseparator : ∀ comp ∈ t, '/' ∉ comp := by
      intro comp hcomp
      apply notMem_of_mem_components (p := p)
      rw [← ht]
      exact mem_append_right _ hcomp
    refine ⟨intercalate ['/'] t, components_injective ?_⟩
    rw [components_append, ← ht]
    exact congrArg (components q ++ ·) (splitOn_intercalate '/' hseparator hnil).symm

/-! ## Paths of any length -/

theorem nil_append (p : Path) : append [] p = p := rfl

theorem append_nil (p : Path) : append p [] = p := by
  cases p <;> rfl

/-- `append`, with strings of any length. -/
def join (p q : Path) : Path := if p.isEmpty then q else if q.isEmpty then p else p ++ '/' :: q

/-- A text that is not too long is not cut. -/
theorem append_eq_join {p q : Path} (h : p.length + q.length + 1 < 2 ^ 16) : append p q = join p q := by
  rw [append, join, StringBuffer.toString_of_lt]
  rw [length_append, length_cons]
  omega

theorem length_join_le (p q : Path) : (join p q).length ≤ p.length + q.length + 1 := by
  rw [join]
  split_ifs
  · omega
  · omega
  · rw [length_append, length_cons]
    omega

theorem join_assoc (p q r : Path) : join (join p q) r = join p (join q r) := by
  cases p <;> cases q <;> cases r <;> simp [join]

/-- Two paths that are not empty. -/
theorem join_eq {p q : Path} (hp : p ≠ []) (hq : q ≠ []) : join p q = p ++ '/' :: q := by
  rw [join, if_neg (by simpa using hp), if_neg (by simpa using hq)]

@[simp] theorem join_nil (p : Path) : join p [] = p := by
  cases p <;> rfl

@[simp] theorem nil_join (p : Path) : join [] p = p := rfl

theorem join_ne_nil {p q : Path} (hp : p ≠ []) : join p q ≠ [] := by
  cases p with
  | nil => exact absurd rfl hp
  | cons c p => cases q <;> simp [join]

/-- The number of components that two paths begin with. -/
def common : List Path → List Path → Nat
  | x :: xs, y :: ys => if x = y then common xs ys + 1 else 0
  | _, _ => 0

theorem common_le_right : ∀ xs ys : List Path, common xs ys ≤ ys.length
  | x :: xs, y :: ys => by
    rw [common, length_cons]
    split_ifs
    · exact Nat.succ_le_succ (common_le_right xs ys)
    · exact Nat.zero_le _
  | [], _ => Nat.zero_le _
  | _ :: _, [] => Nat.zero_le _

theorem take_common : ∀ xs ys : List Path, xs.take (common xs ys) = ys.take (common xs ys)
  | x :: xs, y :: ys => by
    rw [common]
    split_ifs with h
    · rw [take_succ_cons, take_succ_cons, h, take_common xs ys]
    · rfl
  | [], _ => rfl
  | _ :: _, [] => rfl

/-- The length of the way from the base `b` to `p`: a component `..` for each component of the base that is not one
of the path, then those of the path, with their separators. -/
def wayLength (p b : Path) : Nat :=
  if b = p then 2
  else 3 * ((components b).length - common (components p) (components b)) +
    (rebuild ((components p).drop (common (components p) (components b)))).length

/-- The base and the way to the path make a `String`. -/
def Short (p b : Path) : Prop := b.length + wayLength p b < 2 ^ 16

/-! ## Termination -/

/-- The first component. -/
def first (p : Path) : Path := (components p).headD []

theorem first_append (p q : Path) : first (p ++ '/' :: q) = first p := by
  rw [first, first, components_append]
  cases hp : components p with
  | nil => exact absurd hp (components_ne_nil p)
  | cons comp comps => rfl

theorem first_of_notMem {p : Path} (h : '/' ∉ p) : first p = p := by
  simp only [first, components, splitOn_eq_singleton h, headD_cons]

/-- What the climbing stops on has the first component of the path. -/
theorem first_eq_of_isPrefixOf {p path : Path} (h : isPrefixOf p path) : first path = first p := by
  rcases isPrefixOf_iff.mp h with rfl | ⟨rest, rfl⟩
  · rfl
  · exact first_append p rest

/-- The first component of the path. -/
theorem isPrefixOf_first (p : Path) : isPrefixOf (first p) p := by
  rw [isPrefixOf_iff]
  induction p with
  | nil => exact .inl rfl
  | cons c p ih =>
    by_cases hc : c = '/'
    · subst hc
      exact .inr ⟨p, rfl⟩
    · have hfirst : first (c :: p) = c :: first p := by
        have hcons := splitOn_cons_eq_if_modifyHead (a := '/') c p
        rw [if_neg (by simpa using hc)] at hcons
        cases hp : p.splitOn '/' with
        | nil => exact absurd hp (splitOn_ne_nil '/' p)
        | cons w ws => simp only [first, components, hcons, hp, modifyHead_cons, headD_cons]
      rw [hfirst]
      rcases ih with hp | ⟨rest, hp⟩
      · exact .inl (congrArg (List.cons c) hp)
      · exact .inr ⟨rest, congrArg (List.cons c) hp⟩

/-- The parent has the first component of the base, unless it is the current directory. -/
theorem parent_cases {base : Path} (h : base ≠ []) :
    (parent base).length < base.length ∧ first (parent base) = first base ∨
      '/' ∉ base ∧ parent base = ['.'] := by
  rcases notMem_or_exists_append base with hbase | ⟨q, comp, rfl, hcomp⟩
  · exact .inr ⟨hbase, parent_of_notMem hbase⟩
  · left
    rw [parent_append hcomp, first_append, length_append, length_cons]
    exact ⟨by omega, rfl⟩

/-- The base is empty or absolute, or begins as the path does, or the path begins at the current directory. -/
def Reaches (p base : Path) : Prop := first base = [] ∨ first p = first base ∨ first p = ['.']

/-- One turn that goes on. -/
theorem climb_inl {p : Path} {s s' : Path × Path} (h : climb p s = .inl s') :
    s.2 ≠ [] ∧ ¬isPrefixOf s.2 p ∧ s' = (append s.1 backPath, parent s.2) := by
  by_cases hturn : s.2 ≠ [] ∧ ¬isPrefixOf s.2 p
  · rw [climb, if_pos hturn] at h
    exact ⟨hturn.1, hturn.2, (Sum.inl.inj h).symm⟩
  · rw [climb, if_neg hturn] at h
    by_cases hbase : s.2 = p
    · rw [if_pos hbase] at h
      cases h
    · rw [if_neg hbase] at h
      cases h

/-- The last turn. -/
theorem climb_inr {p : Path} {s : Path × Path} {res : Path} (h : climb p s = .inr res) :
    (s.2 = [] ∨ isPrefixOf s.2 p) ∧
      (s.2 = p ∧ res = s.1 ∨ s.2 ≠ p ∧ res = append s.1 (p.drop (s.2.length + 1))) := by
  by_cases hturn : s.2 ≠ [] ∧ ¬isPrefixOf s.2 p
  · rw [climb, if_pos hturn] at h
    cases h
  · rw [climb, if_neg hturn] at h
    refine ⟨?_, ?_⟩
    · by_cases hempty : s.2 = []
      · exact .inl hempty
      · exact .inr (not_not.mp fun hnot => hturn ⟨hempty, hnot⟩)
    · by_cases hbase : s.2 = p
      · rw [if_pos hbase] at h
        exact .inl ⟨hbase, (Sum.inr.inj h).symm⟩
      · rw [if_neg hbase] at h
        exact .inr ⟨hbase, (Sum.inr.inj h).symm⟩

/-- Above a relative base that does not begin as the path does, the climbing goes on for ever. -/
theorem climb_diverges {p base r : Path} (h : ¬Reaches p base) : Loop.Diverges (climb p) (r, base) := by
  rw [Reaches, not_or, not_or] at h
  obtain ⟨hempty, hfirst, hhere⟩ := h
  -- the first component of the base is kept, or it becomes the current directory
  refine Loop.diverges_of_invariant (fun s => first s.2 ≠ [] ∧ first p ≠ first s.2) ?_ ⟨hempty, hfirst⟩
  rintro ⟨r, base⟩ ⟨hne, hdiff⟩
  have hbase : base ≠ [] := by
    rintro rfl
    exact hne rfl
  have hprefix : ¬isPrefixOf base p := fun h => hdiff (first_eq_of_isPrefixOf h)
  refine ⟨(append r backPath, parent base), if_pos ⟨hbase, hprefix⟩, ?_⟩
  show first (parent base) ≠ [] ∧ first p ≠ first (parent base)
  rcases parent_cases hbase with ⟨-, hsame⟩ | ⟨-, hparent⟩
  · rw [hsame]
    exact ⟨hne, hdiff⟩
  · rw [hparent]
    exact ⟨cons_ne_nil _ _, hhere⟩

/-- Otherwise the climbing stops. -/
theorem exists_run_climb {p base : Path} (r : Path) (h : Reaches p base) :
    ∃ fuel res, Loop.run (climb p) fuel (r, base) = some res := by
  obtain ⟨res, hrun, -⟩ := Loop.exists_run_eq_some (climb p)
    (fun k s => k = s.2.length + 1 ∧ Reaches p s.2 ∨ k = 0 ∧ isPrefixOf s.2 p) (fun _ => True)
    (by
      rintro k ⟨r, base⟩ hinv
      cases hstep : climb p (r, base) with
      | inr res => exact .inr ⟨res, rfl, trivial⟩
      | inl s' =>
        left
        obtain ⟨hbase, hprefix, rfl⟩ := climb_inl hstep
        rcases hinv with ⟨rfl, hreaches⟩ | ⟨-, hstop⟩
        · rcases parent_cases hbase with ⟨hlength, hsame⟩ | ⟨hnot, hparent⟩
          · refine ⟨_, (parent base).length + 1, rfl, Nat.succ_lt_succ hlength, .inl ⟨rfl, ?_⟩⟩
            rw [Reaches, hsame]
            exact hreaches
          · -- the next base is the current directory, where the path begins
            refine ⟨_, 0, rfl, Nat.succ_pos _, .inr ⟨rfl, ?_⟩⟩
            have hfirst := first_of_notMem hnot
            rcases hreaches with hempty | hsame | hhere
            · exact absurd (hfirst.symm.trans hempty) hbase
            · have hp := isPrefixOf_first p
              rw [hsame, hfirst] at hp
              exact absurd hp hprefix
            · show isPrefixOf (parent base) p
              rw [hparent, ← hhere]
              exact isPrefixOf_first p
        · exact absurd hstop hprefix)
    (base.length + 2) (base.length + 1) (r, base) (.inl ⟨rfl, h⟩) (Nat.lt_succ_self _)
  exact ⟨_, res, hrun⟩

/-- `relativeTo` returns if and only if the climbing can reach the path. -/
theorem relativeTo_terminates_iff {p base : Path} :
    (∃ fuel res, relativeTo fuel p base = some res) ↔ Reaches p base := by
  by_cases hbase : base = p
  · subst hbase
    constructor
    · exact fun _ => .inr (.inl rfl)
    · exact fun _ => ⟨0, ['.'], if_pos rfl⟩
  · constructor
    · rintro ⟨fuel, res, hrun⟩
      by_contra hnot
      rw [relativeTo, if_neg hbase, climb_diverges hnot fuel] at hrun
      cases hrun
    · intro hreaches
      obtain ⟨fuel, res, hrun⟩ := exists_run_climb [] hreaches
      refine ⟨fuel, res, ?_⟩
      rw [relativeTo, if_neg hbase]
      exact hrun

/-! ## The climbing -/

theorem location_append (p q : Path) : location (p ++ '/' :: q) = (components q).foldl enter (location p) := by
  rw [location, components_append, foldl_append]
  rfl

theorem last_append (p q : Path) : last (p ++ '/' :: q) = last q := by
  simp only [last, components_append, getLast_append_of_ne_nil _ (components_ne_nil q)]

/-- The location of a canonical path. -/
theorem IsCanonical.cases {p : Path} (h : IsCanonical p) :
    p = ['/'] ∧ location p = [] ∨
      isAbsolute p ∧ (∀ comp ∈ (components p).tail, IsName comp) ∧ location p = (components p).tail := by
  rcases h with rfl | ⟨habsolute, hnames⟩
  · exact .inl ⟨rfl, by decide⟩
  · right
    refine ⟨habsolute, hnames, ?_⟩
    obtain ⟨rest, rfl, hcomps⟩ := components_of_isAbsolute habsolute
    rw [hcomps, tail_cons] at hnames
    rw [location, hcomps, foldl_cons, tail_cons]
    exact foldl_enter_of_isName hnames []

theorem IsCanonical.isAbsolute {p : Path} (h : IsCanonical p) : Path.isAbsolute p := by
  rcases h with rfl | ⟨habsolute, -⟩
  · rfl
  · exact habsolute

theorem IsCanonical.ne_nil {p : Path} (h : IsCanonical p) : p ≠ [] := by
  rintro rfl
  exact absurd h.isAbsolute (by decide)

/-- A canonical path is its location, written from the root. -/
theorem IsCanonical.eq_rebuild {p : Path} (h : IsCanonical p) :
    p = if location p = [] then ['/'] else rebuild (location p) := by
  rcases h.cases with ⟨rfl, hlocation⟩ | ⟨habsolute, hnames, hlocation⟩
  · rw [if_pos hlocation]
  · have htail : (components p).tail ≠ [] := by
      obtain ⟨rest, rfl, hcomps⟩ := components_of_isAbsolute habsolute
      rw [hcomps]
      exact components_ne_nil rest
    rw [hlocation, if_neg htail, rebuild_components habsolute]

theorem IsCanonical.eq_of_location_eq {p q : Path} (hp : IsCanonical p) (hq : IsCanonical q)
    (h : location p = location q) : p = q := by
  rw [hp.eq_rebuild, hq.eq_rebuild, h]

/-- The parent of a canonical path, which is empty above the root. -/
theorem IsCanonical.parent {base : Path} (h : IsCanonical base) :
    (Path.parent base = [] ∨ IsCanonical (Path.parent base)) ∧
      location (Path.parent base) = (location base).dropLast := by
  rcases h.cases with ⟨rfl, hlocation⟩ | ⟨habsolute, hnames, -⟩
  · exact ⟨.inl (by decide), by decide⟩
  · rcases notMem_or_exists_append base with hnot | ⟨q, comp, rfl, hcomp⟩
    · obtain ⟨rest, rfl, -⟩ := components_of_isAbsolute habsolute
      exact absurd mem_cons_self hnot
    · have hcomps : components (q ++ '/' :: comp) = components q ++ [comp] := by
        rw [components_append]
        exact congrArg (components q ++ ·) (splitOn_eq_singleton hcomp)
      rw [hcomps, tail_append_of_ne_nil (components_ne_nil q)] at hnames
      rw [parent_append hcomp]
      constructor
      · cases q with
        | nil => exact .inl rfl
        | cons c q =>
          right
          right
          exact ⟨habsolute, fun comp hmem => hnames comp (mem_append_left _ hmem)⟩
      · have hname := hnames comp (mem_append_right _ (mem_singleton_self comp))
        have hlocation : location (q ++ '/' :: comp) = location q ++ [comp] := by
          rw [location, hcomps, foldl_append]
          exact enter_of_isName hname (location q)
        rw [hlocation, dropLast_concat]

/-- An absolute path has a component more than its parent. -/
theorem exists_components_parent {base : Path} (h : isAbsolute base) :
    ∃ comp, components base = components (parent base) ++ [comp] := by
  rcases notMem_or_exists_append base with hnot | ⟨q, comp, rfl, hcomp⟩
  · obtain ⟨rest, rfl, -⟩ := components_of_isAbsolute h
    exact absurd mem_cons_self hnot
  · refine ⟨comp, ?_⟩
    rw [parent_append hcomp, components_append]
    exact congrArg (components q ++ ·) (splitOn_eq_singleton hcomp)

/-- What the climbing of the base `b` keeps: the path `r` leads from `b` to the base, which is not above what `b` has in
common with the path. -/
structure Climbed (p b : Path) (s : Path × Path) : Prop where
  canonical : s.2 = [] ∨ IsCanonical s.2
  leads : location (join b s.1) = location s.2
  above : location s.2 <+: location b
  back : s.1 = [] ∧ s.2 = b ∨ s.1 ≠ [] ∧ last s.1 = backPath
  begins : components s.2 <+: components b
  length : s.1 = [] ∨ s.1.length + 1 + 3 * (components s.2).length ≤ 3 * (components b).length
  common_le : common (components p) (components b) ≤ (components s.2).length

theorem Climbed.start {b : Path} (p : Path) (h : IsCanonical b) : Climbed p b ([], b) where
  canonical := .inr h
  leads := congrArg location (join_nil b)
  above := prefix_rfl
  back := .inl ⟨rfl, rfl⟩
  begins := prefix_rfl
  length := .inl rfl
  common_le := common_le_right _ _

/-- A base that is not a prefix of the path has more than the common components. -/
theorem Climbed.common_lt {b p : Path} {s : Path × Path} (h : Climbed p b s) (hnot : ¬isPrefixOf s.2 p) :
    common (components p) (components b) < (components s.2).length := by
  refine h.common_le.lt_of_ne fun heq => hnot (isPrefixOf_of_components ?_)
  rw [prefix_iff_eq_take.mp h.begins, ← heq, ← take_common]
  exact take_prefix _ _

theorem Climbed.turn {b p : Path} {s s' : Path × Path} (hb : IsCanonical b) (hne : b ≠ p) (hshort : Short p b)
    (h : Climbed p b s) (hstep : climb p s = .inl s') : Climbed p b s' := by
  obtain ⟨hbase, hprefix, rfl⟩ := climb_inl hstep
  have hcanonical := h.canonical.resolve_left hbase
  have hcommon := h.common_lt hprefix
  obtain ⟨comp, hcomps⟩ := exists_components_parent hcanonical.isAbsolute
  have hcount : (components s.2).length = (components (parent s.2)).length + 1 := by
    rw [hcomps, length_append, length_singleton]
  have hback : backPath.length = 2 := rfl
  have hlength : s.1.length + 1 + 3 * (components s.2).length ≤ 3 * (components b).length + 1 := by
    have hle := h.begins.length_le
    rcases h.length with hnil | hlength
    · rw [hnil, length_nil]
      omega
    · omega
  -- the way up is a part of the way to the path
  have hjoin : append s.1 backPath = join s.1 backPath := by
    rw [Short, wayLength, if_neg hne] at hshort
    apply append_eq_join
    omega
  rw [hjoin]
  have hmore : join s.1 backPath ≠ [] ∧ last (join s.1 backPath) = backPath := by
    by_cases hr : s.1 = []
    · rw [hr, nil_join]
      decide
    · rw [join_eq hr (by decide), last_append]
      exact ⟨append_ne_nil_of_left_ne_nil hr _, by decide⟩
  refine ⟨hcanonical.parent.1, ?_, ?_, .inr hmore, ?_, .inr ?_, ?_⟩
  · show location (join b (join s.1 backPath)) = location (parent s.2)
    rw [← join_assoc, join_eq (join_ne_nil hb.ne_nil) (by decide), location_append, h.leads, hcanonical.parent.2]
    rfl
  · show location (parent s.2) <+: location b
    rw [hcanonical.parent.2]
    exact (List.dropLast_prefix _).trans h.above
  · show components (parent s.2) <+: components b
    have hbegins := h.begins
    rw [hcomps] at hbegins
    exact (prefix_append _ _).trans hbegins
  · show (join s.1 backPath).length + 1 + 3 * (components (parent s.2)).length ≤ 3 * (components b).length
    rcases h.length with hnil | hlength
    · have hle := h.begins.length_le
      rw [hnil, nil_join]
      omega
    · have hle := length_join_le s.1 backPath
      omega
  · show common (components p) (components b) ≤ (components (parent s.2)).length
    omega

/-- A base below the path is not a prefix of it, unless it is the path. -/
theorem Climbed.turn_below {b p : Path} {s s' : Path × Path} (h : Climbed p b s) (hp : IsCanonical p)
    (hbelow : location p <+: location s.2) (hstep : climb p s = .inl s') : location p <+: location s'.2 := by
  obtain ⟨hbase, hprefix, rfl⟩ := climb_inl hstep
  obtain ⟨t, ht⟩ := hbelow
  have hcanonical := h.canonical.resolve_left hbase
  have htail : t ≠ [] := by
    rintro rfl
    rw [List.append_nil] at ht
    have heq := hp.eq_of_location_eq hcanonical ht
    exact hprefix (isPrefixOf_iff.mpr (.inl heq))
  show location p <+: location (parent s.2)
  rw [hcanonical.parent.2, ← ht, dropLast_append_of_ne_nil htail]
  exact prefix_append _ _

/-- The way up from the base is not cut. -/
theorem Climbed.append_up {b p : Path} {s : Path × Path} (h : Climbed p b s) (hne : b ≠ p) (hshort : Short p b) :
    append b s.1 = join b s.1 := by
  rw [Short, wayLength, if_neg hne] at hshort
  rcases h.length with hnil | hlength
  · rw [hnil, append_nil, join_nil]
  · have hle := h.common_le
    apply append_eq_join
    omega

/-- Neither is the way to the path. -/
theorem Climbed.append_rest {b p rest : Path} {s : Path × Path} (h : Climbed p b s) (hne : b ≠ p)
    (hshort : Short p b) (hrest : p = s.2 ++ '/' :: rest) :
    append b (append s.1 rest) = join b (join s.1 rest) := by
  have hle := h.common_le
  have hdown : rest.length + 1 ≤ (rebuild ((components p).drop (common (components p) (components b)))).length := by
    have hcomps : components p = components s.2 ++ components rest := by
      rw [← components_append, ← hrest]
    have hrebuild : rebuild (components rest) = '/' :: rest := rebuild_components (p := '/' :: rest) rfl
    generalize common (components p) (components b) = k at hle
    rw [hcomps, drop_append_of_le_length hle, rebuild, flatMap_append, length_append, ← length_cons,
      ← hrebuild]
    exact Nat.le_add_left _ _
  rw [Short, wayLength, if_neg hne] at hshort
  rcases h.length with hnil | hlength
  · rw [hnil, nil_append, nil_join]
    apply append_eq_join
    omega
  · have hjoin := length_join_le s.1 rest
    rw [append_eq_join (p := s.1) (by omega)]
    apply append_eq_join
    omega

/-- The last component of a canonical path is empty in the root only. -/
theorem IsCanonical.last {p : Path} (h : IsCanonical p) : Path.last p = [] ∨ IsName (Path.last p) := by
  rcases h.cases with ⟨rfl, -⟩ | ⟨habsolute, hnames, -⟩
  · exact .inl (by decide)
  · obtain ⟨rest, rfl, hcomps⟩ := components_of_isAbsolute habsolute
    rw [hcomps, tail_cons] at hnames
    right
    apply hnames
    rw [show Path.last ('/' :: rest) = Path.last rest from last_append [] rest]
    exact getLast_mem _

/-- Below a base, a canonical path has names. -/
theorem IsCanonical.isName_of_append {q rest : Path} (h : IsCanonical (q ++ '/' :: rest))
    (hne : location (q ++ '/' :: rest) ≠ []) : ∀ comp ∈ components rest, IsName comp := by
  rcases h.cases with ⟨-, hlocation⟩ | ⟨-, hnames, -⟩
  · exact absurd hlocation hne
  · intro comp hcomp
    apply hnames
    rw [components_append, tail_append_of_ne_nil (components_ne_nil q)]
    exact mem_append_right _ hcomp

/-- The base that the climbing stops on, when it is not the path. -/
theorem exists_eq_append {p base : Path} (hp : isAbsolute p) (hstop : base = [] ∨ isPrefixOf base p) (hne : base ≠ p) :
    ∃ rest, p = base ++ '/' :: rest ∧ p.drop (base.length + 1) = rest := by
  have hrest : ∃ rest, p = base ++ '/' :: rest := by
    rcases hstop with rfl | hprefix
    · obtain ⟨rest, hrest, -⟩ := components_of_isAbsolute hp
      exact ⟨rest, hrest⟩
    · exact (isPrefixOf_iff.mp hprefix).resolve_left (Ne.symm hne)
  obtain ⟨rest, rfl⟩ := hrest
  refine ⟨rest, rfl, ?_⟩
  rw [← drop_drop, drop_left]
  rfl

section RoundTrip

variable {current home p b res : Path} {fuel : Nat}

/-- The canonical form of a path that ends with a name is its location, written from the root. -/
theorem canonical_of_isName_last (h : isAbsolute p) (hlast : IsName (last p)) :
    canonical current home p = rebuild (location p) := by
  rw [canonical_eq h, location_eq, enter_of_isName hlast]

/-- What the climbing stops on. -/
theorem exists_climbed (hb : IsCanonical b) (hne : b ≠ p) (hshort : Short p b)
    (hrun : relativeTo fuel p b = some res) :
    ∃ s, Climbed p b s ∧ (s.2 = [] ∨ isPrefixOf s.2 p) ∧
      (s.2 = p ∧ res = s.1 ∨ s.2 ≠ p ∧ res = append s.1 (p.drop (s.2.length + 1))) := by
  rw [relativeTo, if_neg hne] at hrun
  obtain ⟨s, hs, hexit⟩ := Loop.exists_exit_of_run (Climbed p b) (fun _ _ hs hstep => hs.turn hb hne hshort hstep)
    (Climbed.start p hb) hrun
  exact ⟨s, hs, climb_inr hexit⟩

/-- From the base to a path that is neither the base nor above it, and back. -/
theorem canonical_append_relativeTo (hp : IsCanonical p) (hb : IsCanonical b) (hshort : Short p b)
    (hrun : relativeTo fuel p b = some res) (h : ¬location p <+: location b) :
    canonical current home (append b res) = p := by
  have hne : b ≠ p := by
    rintro rfl
    exact h prefix_rfl
  have hroot : location p ≠ [] := by
    intro hempty
    rw [hempty] at h
    exact h nil_prefix
  obtain ⟨s, hs, hstop, ⟨heq, -⟩ | ⟨hbase, rfl⟩⟩ := exists_climbed hb hne hshort hrun
  · -- the bases are above `b`, and the path is not
    rw [← heq] at h
    exact absurd hs.above h
  · obtain ⟨rest, heq, hdrop⟩ := exists_eq_append hp.isAbsolute hstop hbase
    rw [hdrop, hs.append_rest hne hshort heq]
    have hnames : ∀ comp ∈ components rest, IsName comp := by
      rw [heq] at hp hroot
      exact hp.isName_of_append hroot
    have hlast : IsName (last rest) := hnames (last rest) (getLast_mem _)
    have hrest : rest ≠ [] := by
      rintro rfl
      exact hlast.1 (by decide)
    have hjoin : join b (join s.1 rest) = join b s.1 ++ '/' :: rest := by
      rw [← join_assoc, join_eq (join_ne_nil hb.ne_nil) hrest]
    -- the path and what is appended go down from the same location
    have hlocation : location (join b (join s.1 rest)) = location p := by
      rw [hjoin, location_append, hs.leads, heq, location_append]
    have habsolute : isAbsolute (join b (join s.1 rest)) := by
      obtain ⟨rest', rfl, -⟩ := components_of_isAbsolute hb.isAbsolute
      rw [hjoin]
      cases s.1 <;> rfl
    rw [canonical_of_isName_last habsolute (by rw [hjoin, last_append]; exact hlast), hlocation]
    exact ((hp.eq_rebuild).trans (if_neg hroot)).symm

/-- A path that is the base or above it: what is returned goes back, or stays. -/
theorem last_relativeTo (hp : IsCanonical p) (hb : IsCanonical b) (hshort : Short p b)
    (hrun : relativeTo fuel p b = some res) (h : location p <+: location b) :
    append b res = join b res ∧ res ≠ [] ∧ (last res = ['.'] ∨ last res = backPath) := by
  by_cases hne : b = p
  · rw [relativeTo, if_pos hne] at hrun
    obtain rfl := Option.some.inj hrun
    rw [Short, wayLength, if_pos hne] at hshort
    exact ⟨append_eq_join hshort, cons_ne_nil _ _, .inl (by decide)⟩
  · rw [relativeTo, if_neg hne] at hrun
    -- the climbing does not go above the path
    obtain ⟨s, ⟨hs, habove⟩, hexit⟩ := Loop.exists_exit_of_run
      (fun s => Climbed p b s ∧ location p <+: location s.2)
      (fun _ _ hs hstep => ⟨hs.1.turn hb hne hshort hstep, hs.1.turn_below hp hs.2 hstep⟩) ⟨Climbed.start p hb, h⟩
      hrun
    obtain ⟨hstop, hresult⟩ := climb_inr hexit
    have hres : res = s.1 ∧ s.2 ≠ b := by
      rcases hresult with ⟨heq, hres⟩ | ⟨hbase, hres⟩
      · exact ⟨hres, fun hsame => hne (hsame.symm.trans heq)⟩
      · obtain ⟨rest, heq, hdrop⟩ := exists_eq_append hp.isAbsolute hstop hbase
        by_cases hroot : location p = []
        · -- the root is reached through the empty base
          have hp' := hp.eq_rebuild
          rw [if_pos hroot, heq, append_eq_singleton_iff] at hp'
          obtain ⟨hempty, hrest⟩ | ⟨-, hrest⟩ := hp'
          · rw [hdrop, (List.cons.inj hrest).2, append_nil] at hres
            exact ⟨hres, fun hsame => hb.ne_nil (hsame.symm.trans hempty)⟩
          · exact absurd hrest (cons_ne_nil _ _)
        · -- a path below the base is not above it
          rw [heq] at hp hroot habove
          have hnames := hp.isName_of_append hroot
          rw [location_append, foldl_enter_of_isName hnames] at habove
          have hlength := habove.length_le
          rw [length_append] at hlength
          have hpos := length_pos_of_ne_nil (components_ne_nil rest)
          omega
    obtain ⟨rfl, hbase⟩ := hres
    rcases hs.back with ⟨-, heq⟩ | ⟨hr, hlast⟩
    · exact absurd heq hbase
    · exact ⟨hs.append_up hne hshort, hr, .inr hlast⟩

theorem canonical_append_relativeTo_iff (hp : IsCanonical p) (hb : IsCanonical b) (hshort : Short p b)
    (hrun : relativeTo fuel p b = some res) :
    canonical current home (append b res) = p ↔ ¬location p <+: location b := by
  constructor
  · intro hback h
    obtain ⟨hjoin, hres, hlast⟩ := last_relativeTo hp hb hshort hrun h
    rw [hjoin, join_eq hb.ne_nil hres] at hback
    have habsolute : isAbsolute (b ++ '/' :: res) := by
      obtain ⟨rest, rfl, -⟩ := components_of_isAbsolute hb.isAbsolute
      rfl
    -- `canonical` keeps the last component
    have hkept : last p = last res := by
      rw [← hback, last_canonical habsolute, last_append]
    have hname := hp.last
    rw [hkept] at hname
    rcases hlast with hlast | hlast <;> rw [hlast] at hname
    · exact hname.elim (cons_ne_nil _ _) fun hname => hname.2.1 rfl
    · exact hname.elim (cons_ne_nil _ _) fun hname => hname.2.2 rfl
  · exact canonical_append_relativeTo hp hb hshort hrun

/-- `relativeTo` returns exactly when the climbing can reach the path.  For two canonical paths that are not too far,
what it returns leads back from the base exactly when the path is neither the base nor above it. -/
theorem relativeTo_spec_iff (current home p b : Path) :
    ((∃ fuel res, relativeTo fuel p b = some res) ↔ Reaches p b) ∧
      ∀ fuel res, relativeTo fuel p b = some res → IsCanonical p → IsCanonical b → Short p b →
        (canonical current home (append b res) = p ↔ ¬location p <+: location b) :=
  ⟨relativeTo_terminates_iff, fun _ _ hrun hp hb hshort => canonical_append_relativeTo_iff hp hb hshort hrun⟩

end RoundTrip

theorem relativeTo_spec_iff_sibling : relativeTo 2 "/a/c".toList "/a/b".toList = some "../c".toList ∧
    canonical ['/'] ['/'] (append "/a/b".toList "../c".toList) = "/a/c".toList :=
  ⟨by decide, ((relativeTo_spec_iff ['/'] ['/'] "/a/c".toList "/a/b".toList).2 2 "../c".toList (by decide)
    (.inr (by unfold IsName; decide)) (.inr (by unfold IsName; decide)) (by unfold Short; decide)).mpr (by decide)⟩

/-- The climbing of a relative base reaches the current directory, whose parent is itself. -/
theorem not_relativeTo_ba : ¬∃ fuel res, relativeTo fuel "b".toList "a".toList = some res := by
  rw [relativeTo_terminates_iff]
  unfold Reaches
  decide

end Elm.Sys.Path
