import Mathlib.Tactic

/-!
# Run-length encoding

A list is written as runs: a value alone, or a value that is repeated.  Only some values are repeated.  The
encoding is canonical when a value that may be repeated is never alone, no repetition is empty and no
repetition follows one of the same value.  A list has one canonical encoding at most, and an encoding stays
canonical when values are pushed in front of it.
-/

namespace RunLength

open List

variable {α : Type*}

inductive Run (α : Type*) where
  | lit (x : α)
  | fill (n : Nat) (x : α)
  deriving DecidableEq

def Run.expand : Run α → List α
  | .lit x => [x]
  | .fill n x => replicate n x

/-- The list that the runs stand for. -/
def expand (rs : List (Run α)) : List α := rs.flatMap Run.expand

@[simp] theorem expand_nil : expand ([] : List (Run α)) = [] := rfl

@[simp] theorem expand_cons (r : Run α) (rs : List (Run α)) : expand (r :: rs) = r.expand ++ expand rs := rfl

@[simp] theorem expand_append (rs rs' : List (Run α)) : expand (rs ++ rs') = expand rs ++ expand rs' := by
  simp [expand]

theorem expand_reverse (rs : List (Run α)) : expand rs.reverse = (expand rs).reverse := by
  induction rs with
  | nil => rfl
  | cons r rs ih =>
    have hr : r.expand.reverse = r.expand := by cases r <;> simp [Run.expand]
    rw [reverse_cons, expand_append, ih, expand_cons, expand_cons, expand_nil, append_nil,
      reverse_append, hr]

/-! ## Canonical encodings -/

/-- Two repetitions of one value. -/
def Joins : Run α → Run α → Prop
  | .fill _ x, .fill _ y => x = y
  | _, _ => False

theorem Joins.symm {r r' : Run α} (h : Joins r r') : Joins r' r := by
  cases r <;> cases r' <;> first | exact h.elim | exact Eq.symm h

/-- `p` holds of the values that may be repeated. -/
def Run.Good (p : α → Prop) : Run α → Prop
  | .lit x => ¬ p x
  | .fill n x => 0 < n ∧ p x

structure Canonical (p : α → Prop) (rs : List (Run α)) : Prop where
  good : ∀ r ∈ rs, r.Good p
  chain : rs.IsChain fun r r' => ¬ Joins r r'

section Canonical

variable {p : α → Prop} {r : Run α} {rs rs' : List (Run α)}

theorem canonical_nil : Canonical p ([] : List (Run α)) := ⟨by simp, .nil⟩

theorem canonical_cons : Canonical p (r :: rs) ↔
    r.Good p ∧ (∀ r' ∈ rs.head?, ¬ Joins r r') ∧ Canonical p rs := by
  constructor
  · rintro ⟨hgood, hchain⟩
    obtain ⟨hhead, htail⟩ := isChain_cons.mp hchain
    obtain ⟨hr, hrs⟩ := forall_mem_cons.mp hgood
    exact ⟨hr, hhead, hrs, htail⟩
  · rintro ⟨hr, hhead, hrs, htail⟩
    exact ⟨forall_mem_cons.mpr ⟨hr, hrs⟩, isChain_cons.mpr ⟨hhead, htail⟩⟩

theorem canonical_append : Canonical p (rs ++ rs') ↔
    Canonical p rs ∧ Canonical p rs' ∧ ∀ r ∈ rs.getLast?, ∀ r' ∈ rs'.head?, ¬ Joins r r' := by
  constructor
  · rintro ⟨hgood, hchain⟩
    obtain ⟨h₁, h₂, hjoin⟩ := isChain_append.mp hchain
    obtain ⟨hg₁, hg₂⟩ := forall_mem_append.mp hgood
    exact ⟨⟨hg₁, h₁⟩, ⟨hg₂, h₂⟩, hjoin⟩
  · rintro ⟨⟨hg₁, h₁⟩, ⟨hg₂, h₂⟩, hjoin⟩
    exact ⟨forall_mem_append.mpr ⟨hg₁, hg₂⟩, isChain_append.mpr ⟨h₁, h₂, hjoin⟩⟩

theorem Canonical.reverse (h : Canonical p rs) : Canonical p rs.reverse := by
  refine ⟨fun r hr => h.good r (mem_reverse.mp hr), ?_⟩
  rw [isChain_reverse]
  exact h.chain.imp fun r r' hjoin hjoin' => hjoin hjoin'.symm

theorem Run.Good.expand_ne_nil (h : r.Good p) : r.expand ≠ [] := by
  cases r with
  | lit x => simp [Run.expand]
  | fill n x =>
    obtain ⟨hn, -⟩ := h
    simp [Run.expand]
    omega

/-- A canonical encoding that follows a repetition starts with another value. -/
theorem Canonical.head_ne {n : Nat} {x : α} (h : Canonical p (.fill n x :: rs)) :
    ∀ y ∈ (expand rs).head?, y ≠ x := by
  obtain ⟨⟨-, hx⟩, hjoin, hrs⟩ := canonical_cons.mp h
  cases rs with
  | nil => simp
  | cons r rs =>
    have hr := hrs.good r mem_cons_self
    have hjoin' := hjoin r rfl
    cases r with
    | lit z =>
      rintro y ⟨⟩ rfl
      exact hr hx
    | fill m z =>
      obtain ⟨k, rfl⟩ := Nat.exists_eq_succ_of_ne_zero (Nat.pos_iff_ne_zero.mp hr.1)
      rintro y ⟨⟩ rfl
      exact hjoin' rfl

theorem replicate_append_inj {n m : Nat} {x : α} {l l' : List α} (hl : ∀ y ∈ l.head?, y ≠ x)
    (hl' : ∀ y ∈ l'.head?, y ≠ x) (h : replicate n x ++ l = replicate m x ++ l') :
    n = m ∧ l = l' := by
  induction n generalizing m with
  | zero =>
    cases m with
    | zero => exact ⟨rfl, h⟩
    | succ m =>
      have hx : l = x :: (replicate m x ++ l') := h
      exact absurd rfl (hl x (by rw [hx]; rfl))
  | succ n ih =>
    cases m with
    | zero =>
      have hx : x :: (replicate n x ++ l) = l' := h
      exact absurd rfl (hl' x (by rw [← hx]; rfl))
    | succ m =>
      obtain ⟨hn, hll⟩ := ih (List.cons.inj h).2
      exact ⟨congrArg (· + 1) hn, hll⟩

/-- A list has one canonical encoding. -/
theorem Canonical.eq_of_expand (h : Canonical p rs) (h' : Canonical p rs') (heq : expand rs = expand rs') :
    rs = rs' := by
  induction rs generalizing rs' with
  | nil =>
    cases rs' with
    | nil => rfl
    | cons r' rs' =>
      have hnil := append_eq_nil_iff.mp heq.symm
      exact absurd hnil.1 (h'.good r' mem_cons_self).expand_ne_nil
  | cons r rs ih =>
    cases rs' with
    | nil =>
      have hnil := append_eq_nil_iff.mp heq
      exact absurd hnil.1 (h.good r mem_cons_self).expand_ne_nil
    | cons r' rs' =>
      have hr := h.good r mem_cons_self
      have hr' := h'.good r' mem_cons_self
      have hrs := (canonical_cons.mp h).2.2
      have hrs' := (canonical_cons.mp h').2.2
      cases r with
      | lit x =>
        cases r' with
        | lit y =>
          obtain ⟨rfl, htail⟩ := List.cons.inj heq
          rw [ih hrs hrs' htail]
        | fill m y =>
          obtain ⟨k, rfl⟩ := Nat.exists_eq_succ_of_ne_zero (Nat.pos_iff_ne_zero.mp hr'.1)
          obtain ⟨rfl, -⟩ := List.cons.inj heq
          exact absurd hr'.2 hr
      | fill n x =>
        obtain ⟨j, rfl⟩ := Nat.exists_eq_succ_of_ne_zero (Nat.pos_iff_ne_zero.mp hr.1)
        cases r' with
        | lit y =>
          obtain ⟨rfl, -⟩ := List.cons.inj heq
          exact absurd hr.2 hr'
        | fill m y =>
          obtain ⟨k, rfl⟩ := Nat.exists_eq_succ_of_ne_zero (Nat.pos_iff_ne_zero.mp hr'.1)
          obtain ⟨rfl, -⟩ := List.cons.inj heq
          obtain ⟨hn, htail⟩ := replicate_append_inj h.head_ne h'.head_ne heq
          rw [hn, ih hrs hrs' htail]

end Canonical

/-! ## Values pushed in front of an encoding -/

section Push

variable [DecidableEq α] {p : α → Prop} {n : Nat} {x : α} {r : Run α} {rs : List (Run α)}

/-- A repetition, which joins the first one if it can. -/
def pushFill (n : Nat) (x : α) : List (Run α) → List (Run α)
  | [] => [.fill n x]
  | .lit y :: rs => .fill n x :: .lit y :: rs
  | .fill m y :: rs => if y = x then .fill (m + n) x :: rs else .fill n x :: .fill m y :: rs

def pushRun : Run α → List (Run α) → List (Run α)
  | .lit x, rs => .lit x :: rs
  | .fill n x, rs => pushFill n x rs

/-- One value. -/
def push (p : α → Prop) [DecidablePred p] (x : α) (rs : List (Run α)) : List (Run α) :=
  if p x then pushFill 1 x rs else .lit x :: rs

theorem pushFill_of_head (h : ∀ r ∈ rs.head?, ¬ Joins (.fill n x) r) : pushFill n x rs = .fill n x :: rs := by
  cases rs with
  | nil => rfl
  | cons r rs =>
    cases r with
    | lit y => rfl
    | fill m y => exact if_neg fun heq => h _ rfl heq.symm

@[simp] theorem expand_pushFill (n : Nat) (x : α) (rs : List (Run α)) :
    expand (pushFill n x rs) = replicate n x ++ expand rs := by
  cases rs with
  | nil => rfl
  | cons r rs =>
    cases r with
    | lit y => rfl
    | fill m y =>
      rw [pushFill]
      split_ifs with heq
      · subst heq
        rw [expand_cons, expand_cons, Run.expand, Run.expand, ← append_assoc, replicate_append_replicate,
          Nat.add_comm]
      · rfl

theorem expand_pushRun (r : Run α) (rs : List (Run α)) : expand (pushRun r rs) = r.expand ++ expand rs := by
  cases r with
  | lit x => rfl
  | fill n x => exact expand_pushFill n x rs

@[simp] theorem expand_push [DecidablePred p] (x : α) (rs : List (Run α)) :
    expand (push p x rs) = x :: expand rs := by
  rw [push]
  split_ifs
  · exact expand_pushFill 1 x rs
  · rfl

/-- The first run afterwards joins what the pushed one joins. -/
theorem joins_pushRun (r s : Run α) (rs : List (Run α)) :
    ∃ r' rs', pushRun r rs = r' :: rs' ∧ (Joins s r' → Joins s r) := by
  cases r with
  | lit x => exact ⟨_, _, rfl, id⟩
  | fill n x =>
    change ∃ r' rs', pushFill n x rs = _ ∧ _
    cases rs with
    | nil => exact ⟨_, _, rfl, id⟩
    | cons r rs =>
      cases r with
      | lit y => exact ⟨_, _, rfl, id⟩
      | fill m y =>
        rw [pushFill]
        split_ifs with heq
        · refine ⟨_, _, rfl, fun hjoin => ?_⟩
          cases s <;> exact hjoin
        · exact ⟨_, _, rfl, id⟩

theorem Canonical.pushFill (h : Canonical p rs) (hn : 0 < n) (hx : p x) : Canonical p (pushFill n x rs) := by
  by_cases hjoin : ∀ r ∈ rs.head?, ¬ Joins (.fill n x) r
  · rw [pushFill_of_head hjoin]
    exact canonical_cons.mpr ⟨⟨hn, hx⟩, hjoin, h⟩
  · push Not at hjoin
    obtain ⟨r, hr, hjoin⟩ := hjoin
    cases rs with
    | nil => cases hr
    | cons r rs =>
      cases hr
      cases r with
      | lit y => exact hjoin.elim
      | fill m y =>
        have hxy : x = y := hjoin
        subst hxy
        rw [RunLength.pushFill, if_pos rfl]
        obtain ⟨-, hhead, hrs⟩ := canonical_cons.mp h
        refine canonical_cons.mpr ⟨⟨by omega, hx⟩, fun r' hr' hjoin' => ?_, hrs⟩
        refine hhead r' hr' ?_
        cases r' <;> exact hjoin'

theorem Canonical.pushRun (h : Canonical p rs) (hr : r.Good p) : Canonical p (pushRun r rs) := by
  cases r with
  | lit x =>
    refine canonical_cons.mpr ⟨hr, fun r' _ hjoin => ?_, h⟩
    cases r' <;> exact hjoin
  | fill n x => exact h.pushFill hr.1 hr.2

theorem Canonical.push [DecidablePred p] (h : Canonical p rs) (x : α) : Canonical p (push p x rs) := by
  rw [RunLength.push]
  split_ifs with hx
  · exact h.pushFill Nat.one_pos hx
  · exact h.pushRun (r := .lit x) hx

end Push

end RunLength
