import Mathlib.Tactic

/-!
# Planned computations

A computation that may fail takes keys, and no key should be taken twice.  Its plan is the list of the keys that it
takes, or `none` when it fails in any state.  A computation follows its plan when it takes these keys if it goes
through, and when it fails only for want of a plan or because a key of the plan would be taken twice.
-/

namespace Planned

open List

/-- The keys that are taken in a state, an invariant of the states, and what a computation does not change. -/
structure Frame (σ κ : Type*) where
  taken : σ → List κ
  inv : σ → Prop
  rel : σ → σ → Prop
  refl : ∀ s, rel s s
  trans : ∀ s s' s'', rel s s' → rel s' s'' → rel s s''

variable {σ ε κ α : Type*} {F : Frame σ κ} {p q : Option (List κ)} {s s' : σ} {ks : List κ}

/-- The plan of two computations, one after the other. -/
def append (p q : Option (List κ)) : Option (List κ) := p.bind fun ks => q.map (ks ++ ·)

/-- The plan of a loop over `xs`. -/
def concat (plan : α → Option (List κ)) : List α → Option (List κ)
  | [] => some []
  | x :: xs => append (plan x) (concat plan xs)

theorem append_eq_some : append p q = some ks ↔ ∃ k l, p = some k ∧ q = some l ∧ k ++ l = ks := by
  simp only [append, Option.bind_eq_some_iff, Option.map_eq_some_iff]
  constructor
  · rintro ⟨k, hk, l, hl, heq⟩
    exact ⟨k, l, hk, hl, heq⟩
  · rintro ⟨k, l, hk, hl, heq⟩
    exact ⟨k, hk, l, hl, heq⟩

/-- The result of a computation that starts in `s` with the plan `p`. -/
def Follows (F : Frame σ κ) (p : Option (List κ)) (s : σ) : Except ε σ → Prop
  | .ok s' => F.inv s' ∧ F.rel s s' ∧ ∃ ks, p = some ks ∧ F.taken s' = F.taken s ++ ks
  | .error _ => ∀ ks, p = some ks → ¬ (F.taken s ++ ks).Nodup

namespace Follows

/-- A computation without a plan fails. -/
theorem fail (x : ε) : Follows F none s (.error x) := by
  intro ks hks
  cases hks

theorem ok (hinv : F.inv s') (hrel : F.rel s s') (htaken : F.taken s' = F.taken s ++ ks) :
    Follows F (some ks) s (.ok s' : Except ε σ) :=
  ⟨hinv, hrel, ks, rfl, htaken⟩

/-- A key that was taken before makes the computation fail. -/
theorem again {k : κ} (x : ε) (hk : k ∈ F.taken s) (hmem : ∀ ks, p = some ks → k ∈ ks) :
    Follows F p s (.error x) := by
  intro ks hks hnodup
  exact disjoint_of_nodup_append hnodup hk (hmem ks hks)

/-- What comes before takes no key. -/
theorem after {r : Except ε σ} (hrel : F.rel s s') (htaken : F.taken s' = F.taken s) (h : Follows F p s' r) :
    Follows F p s r := by
  cases r with
  | ok s'' =>
    obtain ⟨hinv, hrel', ks, hp, hks⟩ := h
    exact ⟨hinv, F.trans s s' s'' hrel hrel', ks, hp, by rw [hks, htaken]⟩
  | error x =>
    intro ks hp
    have hnot := h ks hp
    rwa [htaken] at hnot

theorem bind {r : Except ε σ} {f : σ → Except ε σ} (h : Follows F p s r)
    (hf : ∀ s', F.inv s' → Follows F q s' (f s')) : Follows F (append p q) s (r >>= f) := by
  cases r with
  | ok s' =>
    obtain ⟨hinv, hrel, k, hp, hk⟩ := h
    have hrest := hf s' hinv
    change Follows F (append p q) s (f s')
    cases hres : f s' with
    | ok s'' =>
      rw [hres] at hrest
      obtain ⟨hinv', hrel', l, hq, hl⟩ := hrest
      refine ⟨hinv', F.trans s s' s'' hrel hrel', k ++ l, append_eq_some.mpr ⟨k, l, hp, hq, rfl⟩, ?_⟩
      rw [hl, hk, append_assoc]
    | error x =>
      rw [hres] at hrest
      intro ks hks hnodup
      obtain ⟨k', l, hp', hq, rfl⟩ := append_eq_some.mp hks
      obtain rfl := Option.some.inj (hp.symm.trans hp')
      refine hrest l hq ?_
      rwa [hk, append_assoc]
  | error x =>
    intro ks hks hnodup
    obtain ⟨k, l, hp, -, rfl⟩ := append_eq_some.mp hks
    rw [← append_assoc] at hnodup
    exact h k hp hnodup.of_append_left

/-- A loop follows the plans of its turns. -/
theorem foldlM {f : σ → α → Except ε σ} {plan : α → Option (List κ)} {xs : List α}
    (hf : ∀ x ∈ xs, ∀ s, F.inv s → Follows F (plan x) s (f s x)) (hinv : F.inv s) :
    Follows F (concat plan xs) s (xs.foldlM f s) := by
  induction xs generalizing s with
  | nil => exact ok hinv (F.refl s) (append_nil _).symm
  | cons x xs ih =>
    rw [foldlM_cons]
    exact bind (hf x mem_cons_self s hinv) fun s' hs' =>
      ih (fun y hy => hf y (mem_cons_of_mem x hy)) hs'

end Follows

end Planned
