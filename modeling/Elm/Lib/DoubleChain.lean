import Mathlib.Tactic

/-!
# Doubly linked lists

Each address has a pointer to the next one and a pointer to the previous one.  `Linked L path` says that the
pointers of the path are mutually inverse.  Joining two addresses sets the pointers between them, and every
insertion and removal is made of joins.
-/

namespace DoubleChain

open Function List

variable {A V : Type*}

/-- The pointers at each address. -/
structure Links (A : Type*) where
  nxt : A → Option A
  prv : A → Option A

/-- `b` is next to `a`, and `a` is previous to `b`. -/
def Joined (L : Links A) (a b : A) : Prop := L.nxt a = some b ∧ L.prv b = some a

/-- The addresses of the path are joined, each one to the following one. -/
def Linked (L : Links A) (path : List A) : Prop := path.IsChain (Joined L)

/-- Both pointers between `a` and `b` are set. -/
def join [DecidableEq A] (L : Links A) (a b : A) : Links A :=
  ⟨update L.nxt a (some b), update L.prv b (some a)⟩

variable {L L' : Links A} {path xs ys : List A} {a b n : A}

theorem linked_cons_cons : Linked L (a :: b :: xs) ↔ Joined L a b ∧ Linked L (b :: xs) := isChain_cons_cons

theorem linked_split : Linked L (xs ++ a :: ys) ↔ Linked L (xs ++ [a]) ∧ Linked L (a :: ys) :=
  isChain_split

theorem linked_append : Linked L (xs ++ a :: b :: ys) ↔ Linked L (xs ++ [a]) ∧ Joined L a b ∧ Linked L (b :: ys) :=
  isChain_append_cons_cons

theorem linked_singleton (a : A) : Linked L [a] := isChain_singleton a

/-- Only the pointers inside the path matter. -/
theorem Linked.congr (h : Linked L path) (hnxt : ∀ a ∈ path.dropLast, L'.nxt a = L.nxt a)
    (hprv : ∀ b ∈ path.tail, L'.prv b = L.prv b) : Linked L' path := by
  induction path with
  | nil => exact isChain_nil
  | cons a path ih =>
    cases path with
    | nil => exact linked_singleton a
    | cons b path =>
      obtain ⟨hab, hrest⟩ := linked_cons_cons.mp h
      rw [dropLast_cons_cons] at hnxt
      refine linked_cons_cons.mpr ⟨⟨?_, ?_⟩, ih hrest ?_ ?_⟩
      · rw [hnxt a mem_cons_self]
        exact hab.1
      · rw [hprv b mem_cons_self]
        exact hab.2
      · exact fun c hc => hnxt c (mem_cons_of_mem a hc)
      · exact fun c hc => hprv c (mem_cons_of_mem b hc)

section Joins

variable [DecidableEq A]

theorem joined_join (L : Links A) (a b : A) : Joined (join L a b) a b :=
  ⟨update_self .., update_self ..⟩

theorem join_nxt_of_ne (L : Links A) (b : A) (h : n ≠ a) : (join L a b).nxt n = L.nxt n := update_of_ne h ..

theorem join_prv_of_ne (L : Links A) (a : A) (h : n ≠ b) : (join L a b).prv n = L.prv n := update_of_ne h ..

/-- A join from outside to outside of the path, or at its ends. -/
theorem Linked.join_outside (h : Linked L path) (ha : a ∉ path.dropLast) (hb : b ∉ path.tail) :
    Linked (join L a b) path := by
  refine h.congr (fun c hc => join_nxt_of_ne L b ?_) fun c hc => join_prv_of_ne L a ?_
  · rintro rfl
    exact ha hc
  · rintro rfl
    exact hb hc

theorem Linked.join_other (h : Linked L path) (ha : a ∉ path) (hb : b ∉ path) : Linked (join L a b) path :=
  h.join_outside (fun hmem => ha (mem_of_mem_dropLast hmem)) fun hmem => hb (mem_of_mem_tail hmem)

/-- Two paths become one. -/
theorem Linked.join (hl : Linked L (xs ++ [a])) (hr : Linked L (b :: ys)) (hnodup : (xs ++ a :: b :: ys).Nodup) :
    Linked (join L a b) (xs ++ a :: b :: ys) := by
  rw [nodup_append, nodup_cons, nodup_cons] at hnodup
  obtain ⟨-, ⟨haby, hby, -⟩, hdisj⟩ := hnodup
  refine linked_append.mpr ⟨hl.join_outside ?_ ?_, joined_join L a b, hr.join_outside ?_ ?_⟩
  · rw [dropLast_concat]
    exact fun hmem => hdisj a hmem a mem_cons_self rfl
  · intro hmem
    rcases mem_append.mp (mem_of_mem_tail hmem) with hmem | hmem
    · exact hdisj b hmem b (by simp) rfl
    · rw [mem_singleton] at hmem
      exact haby (hmem ▸ mem_cons_self)
  · exact fun hmem => haby (mem_of_mem_dropLast hmem)
  · exact hby

/-- An address is put between two paths. -/
theorem Linked.bridge (hl : Linked L (xs ++ [a])) (hr : Linked L (b :: ys))
    (hnodup : (xs ++ a :: n :: b :: ys).Nodup) :
    Linked (DoubleChain.join (DoubleChain.join L n b) a n) (xs ++ a :: n :: b :: ys) := by
  have hright : (n :: b :: ys).Nodup := hnodup.of_append_right.of_cons
  have hnot : n ∉ xs ++ [a] ∧ b ∉ xs ++ [a] := by
    rw [append_cons, nodup_append] at hnodup
    exact ⟨fun hmem => hnodup.2.2 n hmem n mem_cons_self rfl, fun hmem => hnodup.2.2 b hmem b (by simp) rfl⟩
  have hempty : Linked L ([] ++ [n]) := linked_singleton n
  have hend : Linked (DoubleChain.join L n b) (n :: b :: ys) := hempty.join hr hright
  exact (hl.join_other hnot.1 hnot.2).join hend hnodup

/-- The two joins around an address, in the other order. -/
theorem join_comm (L : Links A) (han : a ≠ n) (hnb : n ≠ b) :
    DoubleChain.join (DoubleChain.join L a n) n b = DoubleChain.join (DoubleChain.join L n b) a n := by
  unfold DoubleChain.join
  rw [update_comm han, update_comm hnb]

end Joins

/-! ## Loops -/

section Loops

variable {σ ρ : Type*}

/-- A loop from an address, as long as there is a following one. -/
def walk (read : A → Option (Option A × V)) (body : σ → A → V → σ ⊕ ρ) (exit : σ → A → ρ) : Nat → A → σ → Option ρ
  | 0, _, _ => none
  | fuel + 1, a, s =>
    match read a with
    | none => none
    | some (none, _) => some (exit s a)
    | some (some b, v) =>
      match body s a v with
      | .inl s' => walk read body exit fuel b s'
      | .inr r => some r

/-- The loop, on a list of addresses and values before the last address. -/
def visit (body : σ → A → V → σ ⊕ ρ) (exit : σ → A → ρ) (last : A) : List (A × V) → σ → ρ
  | [], s => exit s last
  | (a, v) :: xs, s =>
    match body s a v with
    | .inl s' => visit body exit last xs s'
    | .inr r => r

variable {read : A → Option (Option A × V)} {last : A}

/-- Each address is read with its value and the following address, and the last one has no following address. -/
def Reads (read : A → Option (Option A × V)) (last : A) : List (A × V) → Prop
  | [] => ∃ v, read last = some (none, v)
  | (a, v) :: xs => read a = some (some ((xs.map Prod.fst).headD last), v) ∧ Reads read last xs

theorem walk_eq {cells : List (A × V)} (h : Reads read last cells) (body : σ → A → V → σ ⊕ ρ) (exit : σ → A → ρ)
    {fuel : Nat} (hfuel : cells.length < fuel) (s : σ) :
    walk read body exit fuel ((cells.map Prod.fst).headD last) s = some (visit body exit last cells s) := by
  induction cells generalizing fuel s with
  | nil =>
    obtain ⟨v, hread⟩ := h
    cases fuel with
    | zero => exact absurd hfuel (Nat.not_lt_zero _)
    | succ fuel =>
      simp only [map_nil, headD_nil, walk, hread]
      rfl
  | cons x xs ih =>
    obtain ⟨a, v⟩ := x
    obtain ⟨hread, hrest⟩ := h
    cases fuel with
    | zero => exact absurd hfuel (Nat.not_lt_zero _)
    | succ fuel =>
      simp only [map_cons, headD_cons, walk, hread, visit]
      cases body s a v with
      | inl s' => exact ih hrest (Nat.lt_of_succ_lt_succ hfuel) s'
      | inr r => rfl

end Loops

end DoubleChain
