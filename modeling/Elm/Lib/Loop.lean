import Mathlib.Tactic

/-!
# Loops and runs

A `while` loop is given by its body: one turn either goes on with a new state (`inl`) or leaves the
loop with a result (`inr`).  `Loop.run` unrolls the body a bounded number of times, so that it
evaluates, and the two rules below say when some bound is enough and when none is.

A run of a system is a list of operations applied one after the other; an operation may be refused
or may abort the program, hence the `Option`.
-/

namespace Loop

open Function List Option

variable {σ ρ : Type*}

/-- Unroll a loop body at most `fuel` times. -/
def run (step : σ → σ ⊕ ρ) : Nat → σ → Option ρ
  | 0, _ => none
  | fuel + 1, s =>
    match step s with
    | .inl s' => run step fuel s'
    | .inr r => some r

/-- The loop never leaves its body, however many turns it is given. -/
def Diverges (step : σ → σ ⊕ ρ) (s : σ) : Prop :=
  ∀ fuel, run step fuel s = none

@[simp] theorem run_zero (step : σ → σ ⊕ ρ) (s : σ) : run step 0 s = none := rfl

theorem run_succ_inl {step : σ → σ ⊕ ρ} {s s' : σ} (h : step s = .inl s') (fuel : Nat) :
    run step (fuel + 1) s = run step fuel s' := by
  simp [run, h]

theorem run_succ_inr {step : σ → σ ⊕ ρ} {s : σ} {r : ρ} (h : step s = .inr r) (fuel : Nat) :
    run step (fuel + 1) s = some r := by
  simp [run, h]

/-- The bound does not change the result. -/
theorem run_unique {step : σ → σ ⊕ ρ} {s : σ} {n m : Nat} {r r' : ρ} (h : run step n s = some r)
    (h' : run step m s = some r') : r = r' := by
  induction n generalizing m s with
  | zero => cases h
  | succ n ih =>
    cases m with
    | zero => cases h'
    | succ m =>
      cases hstep : step s with
      | inl s₁ =>
        rw [run_succ_inl hstep] at h h'
        exact ih h h'
      | inr r₁ =>
        rw [run_succ_inr hstep] at h h'
        exact some.inj (h.symm.trans h')

/-- The loop ends, with a result that meets the postcondition. -/
def Ends (step : σ → σ ⊕ ρ) (post : ρ → Prop) (s : σ) : Prop := ∃ fuel r, run step fuel s = some r ∧ post r

theorem ends_inl {step : σ → σ ⊕ ρ} {post : ρ → Prop} {s s' : σ} (h : step s = .inl s') :
    Ends step post s ↔ Ends step post s' := by
  constructor
  · rintro ⟨fuel, r, hrun, hpost⟩
    cases fuel with
    | zero => cases hrun
    | succ fuel =>
      rw [run_succ_inl h] at hrun
      exact ⟨fuel, r, hrun, hpost⟩
  · rintro ⟨fuel, r, hrun, hpost⟩
    exact ⟨fuel + 1, r, (run_succ_inl h fuel).trans hrun, hpost⟩

theorem ends_inr {step : σ → σ ⊕ ρ} {post : ρ → Prop} {s : σ} {r : ρ} (h : step s = .inr r) :
    Ends step post s ↔ post r := by
  constructor
  · rintro ⟨fuel, r', hrun, hpost⟩
    rwa [run_unique hrun (run_succ_inr h 0)] at hpost
  · exact fun hpost => ⟨1, r, run_succ_inr h 0, hpost⟩

/-- Total correctness: an invariant indexed by a variant that each turn decreases.  Any fuel above
the variant reaches the exit, where the postcondition holds. -/
theorem exists_run_eq_some (step : σ → σ ⊕ ρ) (inv : Nat → σ → Prop) (post : ρ → Prop)
    (hturn : ∀ k s, inv k s →
      (∃ s' k', step s = .inl s' ∧ k' < k ∧ inv k' s') ∨ ∃ r, step s = .inr r ∧ post r) :
    ∀ (fuel k : Nat) (s : σ), inv k s → k < fuel → ∃ r, run step fuel s = some r ∧ post r := by
  intro fuel
  induction fuel with
  | zero =>
    intro k s _ hlt
    omega
  | succ fuel ih =>
    intro k s hs hlt
    rcases hturn k s hs with ⟨s', k', hstep, hdec, hs'⟩ | ⟨r, hstep, hr⟩
    · rw [run_succ_inl hstep]
      exact ih k' s' hs' (by omega)
    · exact ⟨r, run_succ_inr hstep fuel, hr⟩

/-- A loop that walks a list: each turn leaves the loop or goes on with one item less, and the last
turn finds no item. -/
theorem exists_run_of_list {α : Type*} (step : σ → σ ⊕ ρ) (inv : List α → σ → Prop) (post : ρ → Prop)
    (hcons : ∀ x xs s, inv (x :: xs) s →
      (∃ s', step s = .inl s' ∧ inv xs s') ∨ ∃ r, step s = .inr r ∧ post r)
    (hnil : ∀ s, inv [] s → ∃ r, step s = .inr r ∧ post r) {fuel : Nat} {xs : List α} {s : σ}
    (hs : inv xs s) (hfuel : xs.length < fuel) : ∃ r, run step fuel s = some r ∧ post r := by
  refine exists_run_eq_some step (fun k s => ∃ xs, xs.length = k ∧ inv xs s) post ?_ fuel xs.length s
    ⟨xs, rfl, hs⟩ hfuel
  rintro k s ⟨ys, rfl, hys⟩
  cases ys with
  | nil => exact Or.inr (hnil s hys)
  | cons y ys =>
    rcases hcons y ys s hys with ⟨s', hstep, hs'⟩ | hexit
    · exact Or.inl ⟨s', ys.length, hstep, by simp, ys, rfl, hs'⟩
    · exact Or.inr hexit

/-- The body with a counter of the turns that go on. -/
def counted (step : σ → σ ⊕ ρ) (s : σ × Nat) : (σ × Nat) ⊕ (ρ × Nat) :=
  match step s.1 with
  | .inl s' => .inl (s', s.2 + 1)
  | .inr r => .inr (r, s.2)

/-- A loop whose invariant tells how many turns go on. -/
theorem run_counted {step : σ → σ ⊕ ρ} (inv : Nat → σ → Prop) {r : ρ}
    (hturn : ∀ k s, inv (k + 1) s → ∃ s', step s = .inl s' ∧ inv k s') (hend : ∀ s, inv 0 s → step s = .inr r)
    {k fuel : Nat} {s : σ} (c : Nat) (hs : inv k s) (hfuel : k < fuel) :
    run (counted step) fuel (s, c) = some (r, c + k) := by
  induction fuel generalizing k s c with
  | zero => exact absurd hfuel (Nat.not_lt_zero _)
  | succ fuel ih =>
    cases k with
    | zero =>
      apply run_succ_inr
      unfold counted
      simp only [hend s hs, Nat.add_zero]
    | succ k =>
      obtain ⟨s', hstep, hs'⟩ := hturn k s hs
      have hcounted : counted step (s, c) = .inl (s', c + 1) := by
        unfold counted
        simp only [hstep]
      rw [run_succ_inl hcounted, ih (c + 1) hs' (Nat.lt_of_succ_lt_succ hfuel)]
      congr 2
      omega

/-- A body that may give no result: the loop is left without one. -/
def failing (step : σ → Option (σ ⊕ ρ)) (s : σ) : σ ⊕ Option ρ :=
  match step s with
  | some (.inl s') => .inl s'
  | some (.inr r) => .inr (some r)
  | none => .inr none

/-- The loop of such a body. -/
def attempt (step : σ → Option (σ ⊕ ρ)) (fuel : Nat) (s : σ) : Option ρ := (run (failing step) fuel s).join

theorem attempt_succ_inl {step : σ → Option (σ ⊕ ρ)} {s s' : σ} (h : step s = some (.inl s')) (fuel : Nat) :
    attempt step (fuel + 1) s = attempt step fuel s' := by
  unfold attempt
  rw [@run_succ_inl _ _ (failing step) s s' (by simp only [failing, h])]

theorem attempt_succ_inr {step : σ → Option (σ ⊕ ρ)} {s : σ} {r : ρ} (h : step s = some (.inr r)) (fuel : Nat) :
    attempt step (fuel + 1) s = some r := by
  unfold attempt
  rw [@run_succ_inr _ _ (failing step) s (some r) (by simp only [failing, h])]
  rfl

theorem attempt_succ_none {step : σ → Option (σ ⊕ ρ)} {s : σ} (h : step s = none) (fuel : Nat) :
    attempt step (fuel + 1) s = none := by
  unfold attempt
  rw [@run_succ_inr _ _ (failing step) s none (by simp only [failing, h])]
  rfl

/-- The bound does not change the result. -/
theorem attempt_unique {step : σ → Option (σ ⊕ ρ)} {s : σ} {n m : Nat} {r r' : ρ} (h : attempt step n s = some r)
    (h' : attempt step m s = some r') : r = r' :=
  some.inj (run_unique (join_eq_some_iff.mp h) (join_eq_some_iff.mp h'))

/-- Total correctness, for a body that never fails under the invariant. -/
theorem exists_attempt_eq_some (step : σ → Option (σ ⊕ ρ)) (inv : Nat → σ → Prop) (post : ρ → Prop)
    (hturn : ∀ k s, inv k s →
      (∃ s' k', step s = some (.inl s') ∧ k' < k ∧ inv k' s') ∨ ∃ r, step s = some (.inr r) ∧ post r)
    {fuel k : Nat} {s : σ} (hs : inv k s) (hfuel : k < fuel) : ∃ r, attempt step fuel s = some r ∧ post r := by
  obtain ⟨result, hrun, r, hresult, hr⟩ := exists_run_eq_some (failing step) inv
    (fun result => ∃ r, result = some r ∧ post r)
    (by
      intro k s hs
      unfold failing
      rcases hturn k s hs with ⟨s', k', hstep, hless, hs'⟩ | ⟨r, hstep, hr⟩
      · exact Or.inl ⟨s', k', by rw [hstep], hless, hs'⟩
      · exact Or.inr ⟨some r, by rw [hstep], r, rfl, hr⟩)
    fuel k s hs hfuel
  refine ⟨r, ?_, hr⟩
  rw [attempt, hrun, hresult]
  rfl

/-- A loop over the items of a list, which its body may leave. -/
def visit {α : Type*} (body : σ → α → σ ⊕ ρ) (exit : σ → ρ) : List α → σ → ρ
  | [], s => exit s
  | x :: xs, s =>
    match body s x with
    | .inl s' => visit body exit xs s'
    | .inr r => r

/-- Partial correctness: the loop is left from a state that meets the invariant. -/
theorem exists_exit_of_run {step : σ → σ ⊕ ρ} (inv : σ → Prop)
    (hturn : ∀ s s', inv s → step s = .inl s' → inv s') {fuel : Nat} {s : σ} {r : ρ} (hs : inv s)
    (h : run step fuel s = some r) : ∃ s', inv s' ∧ step s' = .inr r := by
  induction fuel generalizing s with
  | zero => cases h
  | succ fuel ih =>
    cases hstep : step s with
    | inl s' =>
      rw [run_succ_inl hstep] at h
      exact ih (hturn s s' hs hstep) h
    | inr r' =>
      rw [run_succ_inr hstep] at h
      exact ⟨s, hs, hstep.trans (congrArg Sum.inr (some.inj h))⟩

/-- Non-termination: an invariant under which every turn goes on. -/
theorem diverges_of_invariant {step : σ → σ ⊕ ρ} (inv : σ → Prop)
    (hturn : ∀ s, inv s → ∃ s', step s = .inl s' ∧ inv s') {s : σ} (hs : inv s) :
    Diverges step s := by
  intro fuel
  induction fuel generalizing s with
  | zero => rfl
  | succ fuel ih =>
    obtain ⟨s', hstep, hs'⟩ := hturn s hs
    rw [run_succ_inl hstep]
    exact ih hs'

/-! ## The states that a loop goes through -/

/-- The states in which a turn of the loop begins. -/
inductive Reached (step : σ → σ ⊕ ρ) (s : σ) : σ → Prop
  | refl : Reached step s s
  | turn {s' s'' : σ} (h : Reached step s s') (hstep : step s' = .inl s'') : Reached step s s''

theorem Reached.head {step : σ → σ ⊕ ρ} {s s₁ s' : σ} (hstep : step s = .inl s₁) (h : Reached step s₁ s') :
    Reached step s s' := by
  induction h with
  | refl => exact .turn .refl hstep
  | turn _ hlast ih => exact .turn ih hlast

/-- A loop whose turns may fail is the one whose turns cannot, as long as none of them fails. -/
theorem attempt_eq_run {step : σ → σ ⊕ ρ} {step' : σ → Option (σ ⊕ ρ)} {s : σ}
    (h : ∀ s', Reached step s s' → step' s' = some (step s')) (fuel : Nat) : attempt step' fuel s = run step fuel s := by
  induction fuel generalizing s with
  | zero => rfl
  | succ fuel ih =>
    have hturn := h s .refl
    cases hstep : step s with
    | inl s₁ =>
      rw [hstep] at hturn
      rw [attempt_succ_inl hturn, run_succ_inl hstep]
      exact ih fun s' hs' => h s' (hs'.head hstep)
    | inr r =>
      rw [hstep] at hturn
      rw [attempt_succ_inr hturn, run_succ_inr hstep]

theorem Reached.cases_head {step : σ → σ ⊕ ρ} {s s' : σ} (h : Reached step s s') :
    s' = s ∨ ∃ s₁, step s = .inl s₁ ∧ Reached step s₁ s' := by
  induction h with
  | refl => exact Or.inl rfl
  | turn _ hlast ih =>
    rcases ih with rfl | ⟨s₁, hstep, h⟩
    · exact Or.inr ⟨_, hlast, .refl⟩
    · exact Or.inr ⟨s₁, hstep, .turn h hlast⟩

section Turns

variable {step : σ → σ ⊕ ρ} {inv good meets : σ → Prop} {post : ρ → Prop} {v : σ → Nat}

/-- A loop with a variant ends. -/
theorem exists_run_of_variant (inv : σ → Prop) (v : σ → Nat)
    (hturn : ∀ s s', inv s → step s = .inl s' → inv s' ∧ v s' < v s) {s : σ}
    (hs : inv s) : ∃ fuel r, run step fuel s = some r := by
  obtain ⟨r, hrun, -⟩ := exists_run_eq_some step (fun k s => k = v s ∧ inv s) (fun _ => True)
    (by
      rintro k s ⟨rfl, hs⟩
      cases hstep : step s with
      | inl s' =>
        obtain ⟨hs', hlt⟩ := hturn s s' hs hstep
        exact Or.inl ⟨s', v s', rfl, hlt, rfl, hs'⟩
      | inr r => exact Or.inr ⟨r, rfl, trivial⟩) (v s + 1) (v s) s ⟨rfl, hs⟩ (Nat.lt_succ_self _)
  exact ⟨v s + 1, r, hrun⟩

/-- What no turn repairs is seen at the exit. -/
theorem good_of_run (hbad : ∀ s s', inv s → step s = .inl s' → good s' → good s)
    (hexit : ∀ s r, inv s → step s = .inr r → (post r ↔ good s ∧ meets s))
    (hturn : ∀ s s', inv s → step s = .inl s' → inv s' ∧ v s' < v s) {fuel : Nat} {s : σ} {r : ρ} (hs : inv s)
    (hrun : run step fuel s = some r) (hr : post r) : good s := by
  induction fuel generalizing s with
  | zero => cases hrun
  | succ fuel ih =>
    cases hstep : step s with
    | inl s' =>
      rw [run_succ_inl hstep] at hrun
      exact hbad s s' hs hstep (ih (hturn s s' hs hstep).1 hrun)
    | inr r' =>
      rw [run_succ_inr hstep] at hrun
      obtain rfl := some.inj hrun
      exact ((hexit s r' hs hstep).mp hr).1

/-- A loop with a variant meets its specification if and only if each of its turns meets the condition under which it
goes well. -/
theorem exists_run_iff_reached (inv good : σ → Prop) (v : σ → Nat)
    (hturn : ∀ s s', inv s → step s = .inl s' → inv s' ∧ v s' < v s)
    (hgood : ∀ s s', inv s → good s → step s = .inl s' → (good s' ↔ meets s))
    (hbad : ∀ s s', inv s → step s = .inl s' → good s' → good s)
    (hexit : ∀ s r, inv s → step s = .inr r → (post r ↔ good s ∧ meets s)) {s : σ} (hs : inv s) (hgs : good s) :
    (∃ fuel r, run step fuel s = some r ∧ post r) ↔ ∀ s', Reached step s s' → meets s' := by
  constructor
  · rintro ⟨fuel, r, hrun, hr⟩
    induction fuel generalizing s with
    | zero => cases hrun
    | succ fuel ih =>
      intro s' hreached
      cases hstep : step s with
      | inl s₁ =>
        rw [run_succ_inl hstep] at hrun
        have hs₁ := (hturn s s₁ hs hstep).1
        have hgs₁ := good_of_run hbad hexit hturn hs₁ hrun hr
        rcases hreached.cases_head with rfl | ⟨s₂, hstep', hrest⟩
        · exact (hgood s' s₁ hs hgs hstep).mp hgs₁
        · obtain rfl := Sum.inl.inj (hstep.symm.trans hstep')
          exact ih hs₁ hgs₁ hrun s' hrest
      | inr r' =>
        rw [run_succ_inr hstep] at hrun
        obtain rfl := some.inj hrun
        rcases hreached.cases_head with rfl | ⟨s₂, hstep', -⟩
        · exact ((hexit s' r' hs hstep).mp hr).2
        · rw [hstep] at hstep'
          cases hstep'
  · intro hmeets
    obtain ⟨fuel, r, hrun⟩ := exists_run_of_variant inv v hturn hs
    refine ⟨fuel, r, hrun, ?_⟩
    induction fuel generalizing s with
    | zero => cases hrun
    | succ fuel ih =>
      cases hstep : step s with
      | inl s₁ =>
        rw [run_succ_inl hstep] at hrun
        have hgs₁ := (hgood s s₁ hs hgs hstep).mpr (hmeets s .refl)
        exact ih (hturn s s₁ hs hstep).1 hgs₁ (fun s' h => hmeets s' (h.head hstep)) hrun
      | inr r' =>
        rw [run_succ_inr hstep] at hrun
        obtain rfl := some.inj hrun
        exact (hexit s r' hs hstep).mpr ⟨hgs, hmeets s .refl⟩

end Turns

/-- A `for` loop over `0, ..., n - 1` whose body may abort: an invariant indexed by the counter. -/
theorem exists_foldlM_range {body : σ → Nat → Option σ} (inv : Nat → σ → Prop) {n : Nat} {s : σ}
    (hs : inv 0 s) (hbody : ∀ k s, k < n → inv k s → ∃ s', body s k = some s' ∧ inv (k + 1) s') :
    ∃ s', (List.range n).foldlM body s = some s' ∧ inv n s' := by
  induction n with
  | zero => exact ⟨s, rfl, hs⟩
  | succ n ih =>
    obtain ⟨s₁, hrun, hs₁⟩ := ih fun k s hk => hbody k s (by omega)
    obtain ⟨s₂, hlast, hs₂⟩ := hbody n s₁ (by omega) hs₁
    refine ⟨s₂, ?_, hs₂⟩
    rw [range_succ, foldlM_append, hrun]
    simp [hlast]

/-- A loop over `xs` that fills a table, an item giving the entry of its key. -/
theorem exists_foldlM_update {α κ β : Type*} [DecidableEq κ] (key : α → κ) (entry : α → Option β)
    (p : α → β → Prop) (xs : List α) (hentry : ∀ x ∈ xs, ∃ b, entry x = some b ∧ p x b)
    (hkey : ∀ x ∈ xs, ∀ y ∈ xs, key x = key y → x = y) (table : κ → β) :
    ∃ table', xs.foldlM (fun t x => (entry x).map fun b => update t (key x) b) table =
        some table' ∧ (∀ x ∈ xs, p x (table' (key x))) ∧
      ∀ k, k ∉ xs.map key → table' k = table k := by
  induction xs generalizing table with
  | nil => exact ⟨table, rfl, by simp, fun _ _ => rfl⟩
  | cons x xs ih =>
    obtain ⟨b, hb, hpb⟩ := hentry x mem_cons_self
    obtain ⟨table', hfold, hp, hsame⟩ := ih
      (fun y hy => hentry y (mem_cons_of_mem _ hy))
      (fun y hy z hz => hkey y (mem_cons_of_mem _ hy) z (mem_cons_of_mem _ hz))
      (update table (key x) b)
    refine ⟨table', ?_, ?_, ?_⟩
    · rw [foldlM_cons, hb]
      exact hfold
    · intro y hy
      by_cases hmem : y ∈ xs
      · exact hp y hmem
      · obtain rfl : y = x := by simpa [hmem] using hy
        -- no later item has this key
        have hnot : key y ∉ xs.map key := by
          intro hmap
          obtain ⟨z, hz, heq⟩ := List.mem_map.mp hmap
          have hyz := hkey z (mem_cons_of_mem _ hz) y mem_cons_self heq
          exact hmem (hyz ▸ hz)
        rw [hsame _ hnot, update_self]
        exact hpb
    · intro k hk
      rw [map_cons, mem_cons, not_or] at hk
      rw [hsame k hk.2, update_of_ne hk.1]

end Loop

namespace Run

open List Option

variable {σ α : Type*}

/-- Apply a list of operations in order; the run stops at the first one that gives no state. -/
def exec (step : σ → α → Option σ) : σ → List α → Option σ
  | s, [] => some s
  | s, a :: as => (step s a).bind fun s' => exec step s' as

/-- Every operation of the run meets `cond` in the state it is applied to. -/
def Meets (cond : σ → α → Prop) (step : σ → α → Option σ) : σ → List α → Prop
  | _, [] => True
  | s, a :: as => cond s a ∧ ∀ s', step s a = some s' → Meets cond step s' as

instance decidableMeets {cond : σ → α → Prop} [∀ s a, Decidable (cond s a)] {step : σ → α → Option σ} :
    ∀ (s : σ) (as : List α), Decidable (Meets cond step s as)
  | _, [] => .isTrue trivial
  | s, a :: as =>
    match h : step s a with
    | none => decidable_of_iff (cond s a) (by simp [Meets, h])
    | some s' =>
      have : Decidable (Meets cond step s' as) := decidableMeets s' as
      decidable_of_iff (cond s a ∧ Meets cond step s' as) (by simp [Meets, h])

@[simp] theorem exec_nil (step : σ → α → Option σ) (s : σ) : exec step s [] = some s := rfl

theorem exec_cons_eq_some {step : σ → α → Option σ} {s t : σ} {a : α} {as : List α} :
    exec step s (a :: as) = some t ↔ ∃ s', step s a = some s' ∧ exec step s' as = some t :=
  bind_eq_some_iff

/-- The induction over a run: an invariant that each operation meeting `cond` keeps holds in every
state that a run of such operations reaches. -/
theorem exec_invariant {step : σ → α → Option σ} {cond : σ → α → Prop} (inv : σ → Prop)
    (hstep : ∀ s a s', inv s → cond s a → step s a = some s' → inv s') :
    ∀ (as : List α) (s t : σ), inv s → Meets cond step s as → exec step s as = some t → inv t := by
  intro as
  induction as with
  | nil =>
    intro s t hs _ ht
    simp only [exec_nil, some.injEq] at ht
    exact ht ▸ hs
  | cons a as ih =>
    intro s t hs hmeets ht
    obtain ⟨s', hs', ht'⟩ := exec_cons_eq_some.mp ht
    exact ih s' t (hstep s a s' hs hmeets.1 hs') (hmeets.2 s' hs') ht'

/-- A run that is never stopped: every operation that meets `cond` gives a state in which the
invariant holds. -/
theorem exists_exec_of_meets {step : σ → α → Option σ} {cond : σ → α → Prop} (inv : σ → Prop)
    (hstep : ∀ s a, inv s → cond s a → ∃ s', step s a = some s' ∧ inv s') :
    ∀ (as : List α) (s : σ), inv s → Meets cond step s as →
      ∃ t, exec step s as = some t ∧ inv t := by
  intro as
  induction as with
  | nil => exact fun s hs _ => ⟨s, rfl, hs⟩
  | cons a as ih =>
    intro s hs hmeets
    obtain ⟨s', hstep', hs'⟩ := hstep s a hs hmeets.1
    obtain ⟨t, hexec, ht⟩ := ih s' hs' (hmeets.2 s' hstep')
    exact ⟨t, exec_cons_eq_some.mpr ⟨s', hstep', hexec⟩, ht⟩

/-- What no operation repairs lasts until the end of the run. -/
theorem exec_keeps {step : σ → α → Option σ} (bad : σ → Prop)
    (hkeep : ∀ s a s', bad s → step s a = some s' → bad s') :
    ∀ (as : List α) (s t : σ), bad s → exec step s as = some t → bad t := by
  intro as
  induction as with
  | nil =>
    intro s t hs ht
    obtain rfl := some.inj ht
    exact hs
  | cons a as ih =>
    intro s t hs ht
    obtain ⟨s', hs', ht'⟩ := exec_cons_eq_some.mp ht
    exact ih s' t (hkeep s a s' hs hs') ht'

/-- When an operation that does not meet `cond` leads to a bad state, a run that does not end in a bad state
meets `cond`. -/
theorem meets_of_exec {step : σ → α → Option σ} {cond : σ → α → Prop} (inv bad : σ → Prop)
    (hstep : ∀ s a, inv s → cond s a → ∃ s', step s a = some s' ∧ inv s')
    (hbad : ∀ s a s', inv s → ¬ cond s a → step s a = some s' → bad s')
    (hkeep : ∀ s a s', bad s → step s a = some s' → bad s') :
    ∀ (as : List α) (s t : σ), inv s → exec step s as = some t → ¬ bad t → Meets cond step s as := by
  intro as
  induction as with
  | nil => exact fun _ _ _ _ _ => trivial
  | cons a as ih =>
    intro s t hs ht hnot
    obtain ⟨s', hs', ht'⟩ := exec_cons_eq_some.mp ht
    by_cases hcond : cond s a
    · refine ⟨hcond, fun s'' hs'' => ?_⟩
      obtain ⟨s₁, hs₁, hinv⟩ := hstep s a hs hcond
      obtain rfl := some.inj (hs'.symm.trans hs'')
      obtain rfl := some.inj (hs'.symm.trans hs₁)
      exact ih s' t hinv ht' hnot
    · exact absurd (exec_keeps bad hkeep as s' t (hbad s a s' hs hcond hs') ht') hnot

/-- A condition that does not depend on the state. -/
theorem meets_of_mem {step : σ → α → Option σ} {cond : σ → α → Prop} :
    ∀ {as : List α}, (∀ a ∈ as, ∀ s, cond s a) → ∀ s : σ, Meets cond step s as := by
  intro as
  induction as with
  | nil => exact fun _ _ => trivial
  | cons a as ih =>
    intro h s
    exact ⟨h a mem_cons_self s, fun s' _ => ih (fun b hb => h b (mem_cons_of_mem a hb)) s'⟩

theorem meets_of_forall {step : σ → α → Option σ} {cond : σ → α → Prop} (h : ∀ s a, cond s a)
    (as : List α) (s : σ) : Meets cond step s as :=
  meets_of_mem (fun a _ s => h s a) s

/-- One operation more in front of a run, when its result is known. -/
theorem meets_cons {step : σ → α → Option σ} {cond : σ → α → Prop} {s s' : σ} {a : α} {as : List α}
    (hcond : cond s a) (hstep : step s a = some s') (hrest : Meets cond step s' as) :
    Meets cond step s (a :: as) := by
  refine ⟨hcond, fun t ht => ?_⟩
  obtain rfl := some.inj (hstep.symm.trans ht)
  exact hrest

/-- The condition of one operation of a run, in the state that it is applied to. -/
theorem Meets.get {step : σ → α → Option σ} {cond : σ → α → Prop} :
    ∀ {as : List α} {s t : σ} {i : Nat} {a : α}, Meets cond step s as → exec step s (as.take i) = some t →
      as[i]? = some a → cond t a := by
  intro as
  induction as with
  | nil =>
    intro s t i a _ _ hget
    cases hget
  | cons b as ih =>
    intro s t i a hmeets hexec hget
    cases i with
    | zero =>
      obtain rfl := some.inj hexec
      obtain rfl := some.inj hget
      exact hmeets.1
    | succ i =>
      obtain ⟨s', hs', hexec'⟩ := exec_cons_eq_some.mp hexec
      exact ih (hmeets.2 s' hs') hexec' hget

/-- The first operations of a run. -/
theorem Meets.take {step : σ → α → Option σ} {cond : σ → α → Prop} :
    ∀ {as : List α} {s : σ}, Meets cond step s as → ∀ i, Meets cond step s (as.take i) := by
  intro as
  induction as with
  | nil =>
    intro s _ i
    rw [take_nil]
    trivial
  | cons a as ih =>
    intro s hmeets i
    cases i with
    | zero => trivial
    | succ i => exact ⟨hmeets.1, fun s' hs' => ih (hmeets.2 s' hs') i⟩

theorem Meets.and {step : σ → α → Option σ} {p q : σ → α → Prop} :
    ∀ {as : List α} {s : σ}, Meets p step s as → Meets q step s as →
      Meets (fun s a => p s a ∧ q s a) step s as := by
  intro as
  induction as with
  | nil => exact fun _ _ => trivial
  | cons a as ih =>
    intro s hp hq
    exact ⟨⟨hp.1, hq.1⟩, fun s' hs' => ih (hp.2 s' hs') (hq.2 s' hs')⟩

/-- When an operation that does not meet `cond` gives no state, a run that gives one meets `cond`. -/
theorem meets_of_exec_eq_some {step : σ → α → Option σ} {pre cond : σ → α → Prop} (inv : σ → Prop)
    (hstep : ∀ s a, inv s → pre s a ∧ cond s a → ∃ s', step s a = some s' ∧ inv s')
    (hnone : ∀ s a, inv s → pre s a → ¬ cond s a → step s a = none) :
    ∀ (as : List α) (s t : σ), inv s → Meets pre step s as → exec step s as = some t → Meets cond step s as := by
  intro as
  induction as with
  | nil => exact fun _ _ _ _ _ => trivial
  | cons a as ih =>
    intro s t hs hpre ht
    obtain ⟨s', hs', ht'⟩ := exec_cons_eq_some.mp ht
    by_cases hcond : cond s a
    · refine ⟨hcond, fun s'' hs'' => ?_⟩
      obtain ⟨s₁, hs₁, hinv⟩ := hstep s a hs ⟨hpre.1, hcond⟩
      obtain rfl := some.inj (hs'.symm.trans hs'')
      obtain rfl := some.inj (hs'.symm.trans hs₁)
      exact ih s' t hinv (hpre.2 s' hs') ht'
    · rw [hnone s a hs hpre.1 hcond] at hs'
      cases hs'

/-- A condition on the operations alone holds along the run. -/
theorem meets_and {step : σ → α → Option σ} {cond : σ → α → Prop} {p : α → Prop} :
    ∀ {as : List α} {s : σ}, Meets cond step s as → (∀ a ∈ as, p a) →
      Meets (fun s a => cond s a ∧ p a) step s as := by
  intro as
  induction as with
  | nil => exact fun _ _ => trivial
  | cons a as ih =>
    intro s h hp
    refine ⟨⟨h.1, hp a (by simp)⟩, fun s' hs' => ih (h.2 s' hs') fun b hb => hp b ?_⟩
    exact mem_cons_of_mem _ hb

/-- No operation of a run is refused. -/
theorem meets_isSome {step : σ → α → Option σ} :
    ∀ {as : List α} {s t : σ}, exec step s as = some t → Meets (fun s a => (step s a).isSome) step s as := by
  intro as
  induction as with
  | nil => exact fun _ => trivial
  | cons a as ih =>
    intro s t ht
    obtain ⟨s', hs', ht'⟩ := exec_cons_eq_some.mp ht
    exact meets_cons (isSome_of_eq_some hs') hs' (ih ht')

/-- Two conditions that say the same in the states of an invariant, which the second one keeps, say
the same along a run. -/
theorem meets_iff {step : σ → α → Option σ} {cond p q : σ → α → Prop} (inv : σ → Prop)
    (hstep : ∀ s a, inv s → cond s a → q s a → ∃ s', step s a = some s' ∧ inv s')
    (hiff : ∀ s a, inv s → cond s a → (p s a ↔ q s a)) :
    ∀ (as : List α) (s : σ), inv s → Meets cond step s as →
      (Meets p step s as ↔ Meets q step s as) := by
  intro as
  induction as with
  | nil => exact fun _ _ _ => Iff.rfl
  | cons a as ih =>
    intro s hs hmeets
    have hnext : q s a → ∀ s', step s a = some s' → inv s' := by
      intro hq s' hs'
      obtain ⟨t, ht, hinv⟩ := hstep s a hs hmeets.1 hq
      obtain rfl := some.inj (hs'.symm.trans ht)
      exact hinv
    have hone := hiff s a hs hmeets.1
    constructor
    · rintro ⟨hp, hrest⟩
      have hq := hone.mp hp
      exact ⟨hq, fun s' hs' => (ih s' (hnext hq s' hs') (hmeets.2 s' hs')).mp (hrest s' hs')⟩
    · rintro ⟨hq, hrest⟩
      exact ⟨hone.mpr hq,
        fun s' hs' => (ih s' (hnext hq s' hs') (hmeets.2 s' hs')).mpr (hrest s' hs')⟩

/-- When an operation leads to a good state exactly if it meets `cond`, the operations of a run meet `cond`
exactly if the run goes through good states only. -/
theorem meets_iff_forall_exec {step : σ → α → Option σ} {pre cond : σ → α → Prop} (inv good : σ → Prop)
    (hstep : ∀ s a, inv s → good s → pre s a →
      ∃ s', step s a = some s' ∧ inv s' ∧ (good s' ↔ cond s a)) :
    ∀ (as : List α) (s : σ), inv s → good s → Meets pre step s as →
      (Meets cond step s as ↔ ∀ k t, exec step s (as.take k) = some t → good t) := by
  intro as
  induction as with
  | nil =>
    intro s _ hgood _
    constructor
    · intro _ k t ht
      rw [take_nil] at ht
      obtain rfl := some.inj ht
      exact hgood
    · exact fun _ => trivial
  | cons a as ih =>
    intro s hs hgood hpre
    obtain ⟨s', hs', hinv, hiff⟩ := hstep s a hs hgood hpre.1
    constructor
    · rintro ⟨hcond, hrest⟩ k t ht
      cases k with
      | zero =>
        obtain rfl := some.inj ht
        exact hgood
      | succ k =>
        obtain ⟨s₁, hs₁, ht⟩ := exec_cons_eq_some.mp ht
        obtain rfl := some.inj (hs'.symm.trans hs₁)
        exact (ih s' hinv (hiff.mpr hcond) (hpre.2 s' hs')).mp (hrest s' hs') k t ht
    · intro hall
      -- the state after the first operation is one of the states of the run
      have hgood' : good s' := hall 1 s' (by simp [exec, hs'])
      refine ⟨hiff.mp hgood', fun s₁ hs₁ => ?_⟩
      obtain rfl := some.inj (hs'.symm.trans hs₁)
      refine (ih s' hinv hgood' (hpre.2 s' hs')).mpr fun k t ht => ?_
      exact hall (k + 1) t (exec_cons_eq_some.mpr ⟨s', hs', ht⟩)

/-- A run of operations that are never refused. -/
theorem exists_exec {step : σ → α → Option σ} (inv : σ → Prop)
    (hstep : ∀ s a, inv s → ∃ s', step s a = some s' ∧ inv s') (as : List α) (s : σ) (hs : inv s) :
    ∃ t, exec step s as = some t ∧ inv t :=
  exists_exec_of_meets inv (fun s a hs _ => hstep s a hs) as s hs
    (meets_of_forall (fun _ _ => trivial) as s)

/-- When an operation gives a good state exactly if it meets `cond`, the operations of a run meet `cond` exactly
if the run goes through its end and all its states are good. -/
theorem meets_iff_forall_exists_exec {step : σ → α → Option σ} {pre cond : σ → α → Prop} (inv good : σ → Prop)
    (hgood : ∀ s, inv s → good s)
    (hstep : ∀ s a, inv s → pre s a → cond s a → ∃ s', step s a = some s' ∧ inv s')
    (hbad : ∀ s a s', inv s → pre s a → ¬ cond s a → step s a = some s' → ¬ good s') :
    ∀ (as : List α) (s : σ), inv s → Meets pre step s as →
      (Meets cond step s as ↔ ∀ k, ∃ t, exec step s (as.take k) = some t ∧ good t) := by
  intro as
  induction as with
  | nil =>
    intro s hs _
    constructor
    · intro _ k
      exact ⟨s, by rw [take_nil]; rfl, hgood s hs⟩
    · exact fun _ => trivial
  | cons a as ih =>
    intro s hs hpre
    constructor
    · rintro ⟨hcond, hrest⟩ k
      cases k with
      | zero => exact ⟨s, rfl, hgood s hs⟩
      | succ k =>
        obtain ⟨s', hs', hinv⟩ := hstep s a hs hpre.1 hcond
        obtain ⟨t, ht, hgt⟩ := (ih s' hinv (hpre.2 s' hs')).mp (hrest s' hs') k
        exact ⟨t, exec_cons_eq_some.mpr ⟨s', hs', ht⟩, hgt⟩
    · intro hall
      -- the state after the first operation is one of the states of the run
      have hfirst : ∃ s', step s a = some s' ∧ good s' := by
        obtain ⟨t, ht, hgt⟩ := hall 1
        rw [take_succ_cons, take_zero, exec_cons_eq_some] at ht
        obtain ⟨s', hs', ht⟩ := ht
        obtain rfl := some.inj ht
        exact ⟨s', hs', hgt⟩
      obtain ⟨s₁, hs₁, hgood₁⟩ := hfirst
      have hcond : cond s a := by
        by_contra hnot
        exact hbad s a s₁ hs hpre.1 hnot hs₁ hgood₁
      refine ⟨hcond, fun s' hs' => ?_⟩
      obtain ⟨s₂, hs₂, hinv⟩ := hstep s a hs hpre.1 hcond
      obtain rfl := some.inj (hs₂.symm.trans hs')
      refine (ih s₂ hinv (hpre.2 s₂ hs')).mpr fun k => ?_
      obtain ⟨t, ht, hgt⟩ := hall (k + 1)
      rw [take_succ_cons, exec_cons_eq_some] at ht
      obtain ⟨s₃, hs₃, ht⟩ := ht
      obtain rfl := some.inj (hs'.symm.trans hs₃)
      exact ⟨t, ht, hgt⟩

/-! ## Two systems -/

variable {τ : Type*}

/-- Two systems that are given the same operations. -/
def beside (step₁ : σ → α → Option σ) (step₂ : τ → α → Option τ) (s : σ × τ) (a : α) : Option (σ × τ) :=
  (step₁ s.1 a).bind fun s₁ => (step₂ s.2 a).map fun s₂ => (s₁, s₂)

theorem beside_eq_some {step₁ : σ → α → Option σ} {step₂ : τ → α → Option τ} {s t : σ × τ} {a : α} :
    beside step₁ step₂ s a = some t ↔ step₁ s.1 a = some t.1 ∧ step₂ s.2 a = some t.2 := by
  obtain ⟨t₁, t₂⟩ := t
  simp only [beside, bind_eq_some_iff, map_eq_some_iff, Prod.mk.injEq]
  constructor
  · rintro ⟨s₁, h₁, s₂, h₂, rfl, rfl⟩
    exact ⟨h₁, h₂⟩
  · rintro ⟨h₁, h₂⟩
    exact ⟨t₁, h₁, t₂, h₂, rfl, rfl⟩

/-- A condition on the first system. -/
theorem Meets.beside {step₁ : σ → α → Option σ} (step₂ : τ → α → Option τ) {cond : σ → α → Prop} :
    ∀ {as : List α} {s : σ} (t : τ), Meets cond step₁ s as →
      Meets (fun p a => cond p.1 a) (beside step₁ step₂) (s, t) as := by
  intro as
  induction as with
  | nil => exact fun _ _ => trivial
  | cons a as ih =>
    rintro s t ⟨hcond, hrest⟩
    refine ⟨hcond, fun p hp => ?_⟩
    obtain ⟨h₁, -⟩ := beside_eq_some.mp hp
    exact ih p.2 (hrest p.1 h₁)

/-- The two parts of a computation that may fail. -/
theorem exists_of_bind_eq_ok {ε α β : Type*} {x : Except ε α} {f : α → Except ε β} {b : β} (h : x.bind f = .ok b) :
    ∃ a, x = .ok a ∧ f a = .ok b := by
  cases x with
  | error e => cases h
  | ok a => exact ⟨a, rfl, h⟩

end Run
