import Mathlib.Tactic

/-!
# Linked lists in a memory

A memory is read at an address: the cell found there, if any, has a pointer to the next cell and a
value.  A null pointer is `none`.  `Seg read p xs q` follows the pointers from `p` over the cells
of `xs` up to the pointer `q`; a list that ends on the null pointer is never cyclic.
-/

namespace Chain

open List Function Option

variable {A V : Type*}

/-- Reading a cell: its next pointer and its value. -/
abbrev Read (A V : Type*) := A → Option (Option A × V)

/-- The cells `xs` (addresses and values) are linked from `p` to `q`. -/
def Seg (read : Read A V) : Option A → List (A × V) → Option A → Prop
  | p, [], q => p = q
  | p, (a, v) :: xs, q => p = some a ∧ ∃ next, read a = some (next, v) ∧ Seg read next xs q

/-- The cells `xs` are the whole list that starts at `p`. -/
def IsList (read : Read A V) (p : Option A) (xs : List (A × V)) : Prop := Seg read p xs none

/-- The cells of the list that starts at `p`, when there are at most `fuel` of them. -/
def toList (read : Read A V) : Nat → Option A → Option (List (A × V))
  | _, none => some []
  | 0, some _ => none
  | fuel + 1, some a =>
    match read a with
    | none => none
    | some (next, v) => (toList read fuel next).map fun xs => (a, v) :: xs

variable {read read' : Read A V} {p q r : Option A} {xs ys zs : List (A × V)}

theorem toList_eq_some {fuel : Nat} :
    toList read fuel p = some xs ↔ IsList read p xs ∧ xs.length ≤ fuel := by
  induction fuel generalizing p xs with
  | zero =>
    cases p with
    | none =>
      constructor
      · intro h
        obtain rfl := some.inj h
        exact ⟨rfl, Nat.le_refl _⟩
      · rintro ⟨-, hlen⟩
        rw [length_eq_zero_iff.mp (Nat.le_zero.mp hlen), toList]
    | some a =>
      constructor
      · intro h
        cases h
      · rintro ⟨hlist, hlen⟩
        rw [length_eq_zero_iff.mp (Nat.le_zero.mp hlen)] at hlist
        cases hlist
  | succ fuel ih =>
    cases p with
    | none =>
      constructor
      · intro h
        obtain rfl := some.inj h
        exact ⟨rfl, Nat.zero_le _⟩
      · rintro ⟨hlist, -⟩
        cases xs with
        | nil => rfl
        | cons x xs => cases hlist.1
    | some a =>
      constructor
      · intro h
        cases hread : read a with
        | none => simp [toList, hread] at h
        | some cell =>
          obtain ⟨next, v⟩ := cell
          simp only [toList, hread, map_eq_some_iff] at h
          obtain ⟨ys, hys, rfl⟩ := h
          obtain ⟨hlist, hlen⟩ := ih.mp hys
          exact ⟨⟨rfl, next, hread, hlist⟩, Nat.succ_le_succ hlen⟩
      · rintro ⟨hlist, hlen⟩
        cases xs with
        | nil => cases hlist
        | cons x xs =>
          obtain ⟨b, v⟩ := x
          obtain ⟨heq, next, hread, hrest⟩ := hlist
          obtain rfl := some.inj heq
          have htail := ih.mpr ⟨hrest, Nat.le_of_succ_le_succ hlen⟩
          simp [toList, hread, htail]

@[simp] theorem seg_nil : Seg read p [] q ↔ p = q := Iff.rfl

@[simp] theorem seg_cons {a : A} {v : V} :
    Seg read p ((a, v) :: xs) q ↔
      p = some a ∧ ∃ next, read a = some (next, v) ∧ Seg read next xs q :=
  Iff.rfl

theorem seg_append : Seg read p (xs ++ ys) r ↔ ∃ q, Seg read p xs q ∧ Seg read q ys r := by
  induction xs generalizing p with
  | nil => simp
  | cons x xs ih =>
    obtain ⟨a, v⟩ := x
    constructor
    · rintro ⟨rfl, next, hread, hrest⟩
      obtain ⟨q, hxs, hys⟩ := ih.mp hrest
      exact ⟨q, ⟨rfl, next, hread, hxs⟩, hys⟩
    · rintro ⟨q, ⟨rfl, next, hread, hxs⟩, hys⟩
      exact ⟨rfl, next, hread, ih.mpr ⟨q, hxs, hys⟩⟩

/-- A memory that agrees on the cells of a segment has the same segment. -/
theorem Seg.congr (h : Seg read p xs q) (hread : ∀ x ∈ xs, read' x.1 = read x.1) :
    Seg read' p xs q := by
  induction xs generalizing p with
  | nil => exact h
  | cons x xs ih =>
    obtain ⟨a, v⟩ := x
    obtain ⟨rfl, next, hcell, hrest⟩ := h
    refine ⟨rfl, next, ?_, ih hrest fun x hx => hread x (by simp [hx])⟩
    rw [hread (a, v) (by simp), hcell]

theorem Seg.read_of_mem (h : Seg read p xs q) {a : A} {v : V} (hmem : (a, v) ∈ xs) :
    ∃ next, read a = some (next, v) := by
  obtain ⟨ys, zs, rfl⟩ := append_of_mem hmem
  obtain ⟨-, -, -, next, hread, -⟩ := seg_append.mp h
  exact ⟨next, hread⟩

theorem IsList.congr (h : IsList read p xs) (hread : ∀ x ∈ xs, read' x.1 = read x.1) :
    IsList read' p xs :=
  Seg.congr h hread

/-- The first pointer determines the list. -/
theorem IsList.unique (hxs : IsList read p xs) (hys : IsList read p ys) : xs = ys := by
  induction xs generalizing p ys with
  | nil =>
    cases ys with
    | nil => rfl
    | cons y ys =>
      obtain ⟨b, w⟩ := y
      have hnull : p = none := hxs
      obtain ⟨hcell, -⟩ := hys
      rw [hnull] at hcell
      cases hcell
  | cons x xs ih =>
    obtain ⟨a, v⟩ := x
    obtain ⟨rfl, next, hread, hrest⟩ := hxs
    cases ys with
    | nil => cases hys
    | cons y ys =>
      obtain ⟨b, w⟩ := y
      obtain ⟨heq, next', hread', hrest'⟩ := hys
      obtain rfl := some.inj heq
      obtain ⟨rfl, rfl⟩ := Prod.mk.inj (some.inj (hread.symm.trans hread'))
      rw [ih hrest hrest']

/-- The cells of a segment are the first ones of the list that starts at the same pointer. -/
theorem IsList.append_of_seg (hxs : IsList read p xs) (hys : Seg read p ys q) :
    ∃ zs, xs = ys ++ zs ∧ IsList read q zs := by
  induction ys generalizing p xs with
  | nil =>
    obtain rfl : p = q := hys
    exact ⟨xs, rfl, hxs⟩
  | cons y ys ih =>
    obtain ⟨a, v⟩ := y
    obtain ⟨rfl, next, hread, hrest⟩ := hys
    cases xs with
    | nil => cases hxs
    | cons x xs =>
      obtain ⟨b, w⟩ := x
      obtain ⟨heq, next', hread', hrest'⟩ := hxs
      obtain rfl := some.inj heq
      obtain ⟨rfl, rfl⟩ := Prod.mk.inj (some.inj (hread.symm.trans hread'))
      obtain ⟨zs, rfl, hzs⟩ := ih hrest' hrest
      exact ⟨zs, rfl, hzs⟩

/-- A list that reaches the null pointer goes through no cell twice. -/
theorem IsList.nodup (h : IsList read p xs) : (xs.map Prod.fst).Nodup := by
  induction xs generalizing p with
  | nil => simp
  | cons x xs ih =>
    obtain ⟨a, v⟩ := x
    have hall := h
    obtain ⟨rfl, next, -, hrest⟩ := h
    rw [map_cons, nodup_cons]
    refine ⟨?_, ih hrest⟩
    intro hmem
    -- the list from the second visit of `a` is the list from the first one
    obtain ⟨⟨b, w⟩, hb, rfl⟩ := mem_map.mp hmem
    obtain ⟨ys, zs, rfl⟩ := append_of_mem hb
    obtain ⟨q, -, hq⟩ := seg_append.mp hrest
    obtain rfl : q = some b := hq.1
    have hlen := congrArg List.length (IsList.unique hall hq)
    simp at hlen
    omega

theorem IsList.nodup' (h : IsList read p xs) : xs.Nodup :=
  Nodup.of_map _ h.nodup

/-- The cells of a list are at most as many as the addresses of the memory. -/
theorem IsList.length_le (h : IsList read p xs) {addrs : List A}
    (haddrs : ∀ a, (read a).isSome → a ∈ addrs) : xs.length ≤ addrs.length := by
  have hsub : xs.map Prod.fst ⊆ addrs := by
    intro a ha
    obtain ⟨⟨b, v⟩, hb, rfl⟩ := mem_map.mp ha
    obtain ⟨next, hread⟩ := Seg.read_of_mem h hb
    exact haddrs b (by simp [hread])
  have hle := (h.nodup.subperm hsub).length_le
  simpa using hle

/-- The list behind a cell. -/
theorem IsList.next_of_append {a : A} {v w : V} {next : Option A}
    (h : IsList read p (xs ++ (a, v) :: ys))
    (hread : read a = some (next, w)) : v = w ∧ IsList read next ys := by
  obtain ⟨q, -, -, next', hread', hys⟩ := seg_append.mp h
  obtain ⟨rfl, rfl⟩ := Prod.mk.inj (some.inj (hread.symm.trans hread'))
  exact ⟨rfl, hys⟩

/-! ## Loops over the cells -/

section Walk

variable {σ ρ : Type*}

/-- A loop over at most `fuel` cells: its body goes on with a new state, or leaves the loop. -/
def walk (read : Read A V) (body : σ → A → V → σ ⊕ ρ) (exit : σ → ρ) : Nat → Option A → σ → Option ρ
  | _, none, s => some (exit s)
  | 0, some _, _ => none
  | fuel + 1, some a, s =>
    match read a with
    | none => none
    | some (next, v) =>
      match body s a v with
      | .inl s' => walk read body exit fuel next s'
      | .inr r => some r

/-- The loop, on the cells themselves. -/
def visit (body : σ → A → V → σ ⊕ ρ) (exit : σ → ρ) : List (A × V) → σ → ρ
  | [], s => exit s
  | (a, v) :: xs, s =>
    match body s a v with
    | .inl s' => visit body exit xs s'
    | .inr r => r

theorem IsList.walk_eq (h : IsList read p xs) (body : σ → A → V → σ ⊕ ρ) (exit : σ → ρ) {fuel : Nat}
    (hfuel : xs.length ≤ fuel) (s : σ) : walk read body exit fuel p s = some (visit body exit xs s) := by
  induction xs generalizing p fuel s with
  | nil =>
    obtain rfl : p = none := h
    cases fuel <;> rfl
  | cons x xs ih =>
    obtain ⟨a, v⟩ := x
    obtain ⟨rfl, next, hread, hrest⟩ := h
    cases fuel with
    | zero => exact absurd hfuel (Nat.not_succ_le_zero _)
    | succ fuel =>
      simp only [walk, hread, visit]
      cases body s a v with
      | inl s' => exact ih hrest (Nat.le_of_succ_le_succ hfuel) s'
      | inr r => rfl

/-- A loop that goes on over its first cells. -/
theorem visit_skip {body : Unit → A → V → Unit ⊕ ρ} (exit : Unit → ρ)
    (hxs : ∀ x ∈ xs, body () x.1 x.2 = .inl ()) (ys : List (A × V)) :
    visit body exit (xs ++ ys) () = visit body exit ys () := by
  induction xs with
  | nil => rfl
  | cons x xs ih =>
    rw [cons_append, visit, hxs x mem_cons_self]
    exact ih fun y hy => hxs y (mem_cons_of_mem x hy)

/-- A loop that stops at the first cell that passes a test. -/
theorem visit_stop {stop : A → Prop} [DecidablePred stop] (g : A → ρ) (exit : Unit → ρ) {a : A} {v : V}
    (hxs : ∀ x ∈ xs, ¬ stop x.1) (ha : stop a) :
    visit (fun _ b _ => if stop b then .inr (g b) else .inl ()) exit (xs ++ (a, v) :: ys) () = g a := by
  rw [visit_skip exit fun x hx => if_neg (hxs x hx)]
  simp only [visit, if_pos ha]

/-- Such a loop, when no cell passes the test. -/
theorem visit_exit {stop : A → Prop} [DecidablePred stop] (g : A → ρ) (exit : Unit → ρ)
    (hxs : ∀ x ∈ xs, ¬ stop x.1) :
    visit (fun _ b _ => if stop b then .inr (g b) else .inl ()) exit xs () = exit () := by
  rw [← append_nil xs, visit_skip exit fun x hx => if_neg (hxs x hx)]
  rfl

end Walk

/-! ## Writing a cell -/

section Update

variable [DecidableEq A] {a b : A} {v w : V} {next : Option A}

theorem Seg.update (h : Seg read p xs q) (ha : a ∉ xs.map Prod.fst) (c : Option (Option A × V)) :
    Seg (Function.update read a c) p xs q := by
  apply h.congr
  intro x hx
  apply update_of_ne
  rintro rfl
  exact ha (mem_map_of_mem hx)

theorem IsList.update (h : IsList read p xs) (ha : a ∉ xs.map Prod.fst)
    (c : Option (Option A × V)) : IsList (Function.update read a c) p xs :=
  Seg.update h ha c

/-- A new first cell. -/
theorem IsList.push (h : IsList read p xs) (ha : a ∉ xs.map Prod.fst) (v : V) :
    IsList (Function.update read a (some (p, v))) (some a) ((a, v) :: xs) :=
  ⟨rfl, p, update_self .., h.update ha _⟩

/-- Rewriting a cell in the middle: its value changes and its pointer leads to another list. -/
theorem IsList.splice (h : IsList read p (xs ++ (a, v) :: ys)) (hzs : IsList read next zs)
    (ha : a ∉ zs.map Prod.fst) (w : V) :
    IsList (Function.update read a (some (next, w))) p (xs ++ (a, w) :: zs) := by
  have hnot : a ∉ xs.map Prod.fst := by
    have hnodup := h.nodup
    rw [map_append, map_cons, nodup_middle, nodup_cons] at hnodup
    exact fun hmem => hnodup.1 (mem_append_left _ hmem)
  obtain ⟨q, hxs, rfl, -⟩ := seg_append.mp h
  exact seg_append.mpr ⟨some a, hxs.update hnot _, rfl, next, update_self ..,
    hzs.update ha _⟩

/-- The cell behind `b` is unlinked. -/
theorem IsList.unlink (h : IsList read p (xs ++ (b, w) :: (a, v) :: ys))
    (hread : read a = some (next, v)) :
    IsList (Function.update read b (some (next, w))) p (xs ++ (b, w) :: ys) := by
  have hb : b ∉ ys.map Prod.fst := by
    have hnodup := h.nodup
    rw [map_append, map_cons, nodup_middle, nodup_cons] at hnodup
    intro hmem
    apply hnodup.1
    simp [hmem]
  have hsplit : IsList read p ((xs ++ [(b, w)]) ++ (a, v) :: ys) := by simpa using h
  exact h.splice (hsplit.next_of_append hread).2 hb w

/-- The cell behind `b` is moved to the front. -/
theorem IsList.moveToFront (h : IsList read p (xs ++ (b, w) :: (a, v) :: ys))
    (hread : read a = some (next, v)) :
    IsList (Function.update (Function.update read b (some (next, w))) a (some (p, v))) (some a)
      ((a, v) :: (xs ++ (b, w) :: ys)) := by
  have ha : a ∉ (xs ++ (b, w) :: ys).map Prod.fst := by
    have hperm : (xs ++ (b, w) :: (a, v) :: ys).Perm ((a, v) :: (xs ++ (b, w) :: ys)) := by
      have h : (xs ++ [(b, w)] ++ (a, v) :: ys).Perm ((a, v) :: (xs ++ [(b, w)] ++ ys)) :=
        perm_middle
      simpa using h
    have hnodup := (hperm.map Prod.fst).nodup_iff.mp h.nodup
    exact (nodup_cons.mp hnodup).1
  exact (h.unlink hread).push ha v

end Update

/-! ## Positions in a list -/

theorem insertIdx_append {α : Type*} (xs ys : List α) (v : α) :
    (xs ++ ys).insertIdx xs.length v = xs ++ v :: ys := by
  induction xs with
  | nil => simp
  | cons x xs ih => simpa using ih

theorem eraseIdx_append {α : Type*} (xs ys : List α) (v : α) : (xs ++ v :: ys).eraseIdx xs.length = xs ++ ys := by
  rw [eraseIdx_append_of_length_le (Nat.le_refl _), Nat.sub_self]
  rfl

/-- An item put behind `xs`, among the values of the items. -/
theorem insertIdx_map_append {α β : Type*} (f : α → β) (xs ys : List α) (x : α) :
    ((xs ++ ys).map f).insertIdx xs.length (f x) = (xs ++ x :: ys).map f := by
  rw [← map_insertIdx, insertIdx_append]

/-- The item behind `xs` removed, among the values of the items. -/
theorem eraseIdx_map_append {α β : Type*} (f : α → β) (xs ys : List α) (x : α) :
    ((xs ++ x :: ys).map f).eraseIdx xs.length = (xs ++ ys).map f := by
  rw [eraseIdx_map, eraseIdx_append]

end Chain
