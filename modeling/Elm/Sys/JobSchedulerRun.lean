import Elm.Sys.JobScheduler
import Mathlib.Algebra.BigOperators.Group.Finset.Basic

/-!
# Runs of `JobScheduler`

Each invariant has its lemma for one step of a thread, from the list of what such a step can do
(`Turn`), and its lemma for a step of the system.  The jobs that have been returned are the ones run
and the ones held by a thread, and the same for the jobs run and the ones harvested.
-/

namespace Elm.Sys.JobScheduler

open Option

variable {J : Type} {s s' s₁ : JobScheduler J} {t : Nat} {p p' : Place J} {label : Label J}

@[simp] theorem goto_self (s : JobScheduler J) (t : Nat) (p : Place J) : (s.goto t p).threads t = p :=
  Function.update_self ..

@[simp] theorem goto_of_ne (s : JobScheduler J) {t u : Nat} (p : Place J) (h : u ≠ t) :
    (s.goto t p).threads u = s.threads u :=
  Function.update_of_ne h ..

/-- What a step of the thread `t` can do: the place before and after it, and the rest of the state. -/
inductive Turn (s : JobScheduler J) (t : Nat) : Place J → Place J → JobScheduler J → Prop
  | lock (h : s.mutex = none) : Turn s t .entering .test { s with mutex := some t }
  | go : Turn s t .test .next s
  | halt : Turn s t .test .leaving s
  | next (job : J) : Turn s t .next (.taken job) { s with returned := job :: s.returned }
  | null : Turn s t .next .leaving s
  | unlock (job : J) : Turn s t (.taken job) (.running job) { s with mutex := none }
  | run (job : J) : Turn s t (.running job) (.ran job) { s with executed := job :: s.executed }
  | relock (job : J) (h : s.mutex = none) : Turn s t (.ran job) (.harvest job) { s with mutex := some t }
  | harvest (job : J) : Turn s t (.harvest job) .test { s with harvested := job :: s.harvested }
  | raise (job : J) (message : String) : Turn s t (.harvest job) .leaving { s with
      harvested := job :: s.harvested, raised := message :: s.raised, err := message, state := .exn }
  | leave : Turn s t .leaving .ended { s with mutex := none }

/-- A step of a thread is one of these turns. -/
theorem run_cases {act : Act J} (h : s.run t act = some s') :
    ∃ p' s₁, Turn s t (s.threads t) p' s₁ ∧ s' = s₁.goto t p' := by
  unfold run at h
  split at h
  · next hp =>
      split_ifs at h with hfree
      exact ⟨_, _, hp ▸ .lock hfree, (some.inj h).symm⟩
  · next hp =>
      split_ifs at h with hrun
      · exact ⟨_, _, hp ▸ .go, (some.inj h).symm⟩
      · exact ⟨_, _, hp ▸ .halt, (some.inj h).symm⟩
  · next job hp => exact ⟨_, _, hp ▸ .next job, (some.inj h).symm⟩
  · next hp => exact ⟨_, _, hp ▸ .null, (some.inj h).symm⟩
  · next job hp => exact ⟨_, _, hp ▸ .unlock job, (some.inj h).symm⟩
  · next job hp => exact ⟨_, _, hp ▸ .run job, (some.inj h).symm⟩
  · next job hp =>
      split_ifs at h with hfree
      exact ⟨_, _, hp ▸ .relock job hfree, (some.inj h).symm⟩
  · next job hp => exact ⟨_, _, hp ▸ .harvest job, (some.inj h).symm⟩
  · next job message hp => exact ⟨_, _, hp ▸ .raise job message, (some.inj h).symm⟩
  · next hp => exact ⟨_, _, hp ▸ .leave, (some.inj h).symm⟩
  · cases h

/-- A turn changes neither the other threads nor the place of the caller. -/
theorem Turn.frame (h : Turn s t p p' s₁) :
    s₁.threads = s.threads ∧ s₁.start = s.start ∧ s₁.others = s.others := by
  cases h <;> exact ⟨rfl, rfl, rfl⟩

/-- A thread that makes a turn has been started and has not ended. -/
theorem Turn.active (h : Turn s t p p' s₁) : p ≠ .idle ∧ p ≠ .ended := by
  cases h <;> constructor <;> rintro ⟨⟩

/-- What a step of the system can do. -/
inductive Change (s : JobScheduler J) : Label J → JobScheduler J → Prop
  | begin (h : s.start = .idle) : Change s .begin { s with state := .run, start := .starting 0 }
  | spawn (k : Nat) (h : s.start = .starting k) (hk : k < s.others) :
      Change s .spawn ({ s with start := .starting (k + 1) }.goto (k + 1) .entering)
  | enter (h : s.start = .starting s.others) :
      Change s .enter ({ s with start := .running }.goto 0 .entering)
  | exit (h : s.start = .running) (hended : s.threads 0 = .ended) :
      Change s .exit { s with start := .joining 0 }
  | join (k : Nat) (h : s.start = .joining k) (hk : k < s.others) (hended : s.threads (k + 1) = .ended) :
      Change s .join { s with start := .joining (k + 1) }
  | throw (h : s.start = .joining s.others) (hexn : s.state = .exn) :
      Change s .finish { s with state := .wait, start := .threw s.err }
  | return (h : s.start = .joining s.others) (hexn : s.state ≠ .exn) :
      Change s .finish { s with state := .wait, start := .returned }
  | stop : Change s .stop { s with state := .stop }
  | turn (t : Nat) (act : Act J) (p' : Place J) (s₁ : JobScheduler J)
      (h : Turn s t (s.threads t) p' s₁) : Change s (.thread t act) (s₁.goto t p')

theorem step_cases (h : step s label = some s') : Change s label s' := by
  cases label with
  | thread t act =>
    obtain ⟨p', s₁, hturn, rfl⟩ := run_cases h
    exact .turn t act p' s₁ hturn
  | stop => exact some.inj h ▸ .stop
  | begin =>
    simp only [step] at h
    split at h
    · next hs => exact some.inj h ▸ .begin hs
    · cases h
  | spawn =>
    simp only [step] at h
    split at h
    · next k hs =>
        split_ifs at h with hk
        exact some.inj h ▸ .spawn k hs hk
    · cases h
  | enter =>
    simp only [step] at h
    split at h
    · next k hs =>
        split_ifs at h with hk
        exact some.inj h ▸ .enter (hk ▸ hs)
    · cases h
  | exit =>
    simp only [step] at h
    split at h
    · next hs hended => exact some.inj h ▸ .exit hs hended
    · cases h
  | join =>
    simp only [step] at h
    split at h
    · next k hs =>
        split at h
        · next hended =>
            split_ifs at h with hk
            exact some.inj h ▸ .join k hs hk hended
        · cases h
    · cases h
  | finish =>
    simp only [step] at h
    split at h
    · next k hs =>
        split_ifs at h with hk hexn
        · exact some.inj h ▸ .throw (hk ▸ hs) hexn
        · exact some.inj h ▸ .return (hk ▸ hs) hexn
    · cases h

/-! ## The threads that have been started -/

/-- Where the threads are, from the place of the caller. -/
structure Placed (s : JobScheduler J) : Prop where
  beyond : ∀ t, s.others < t → s.threads t = .idle
  idle : s.start = .idle → (∀ t, s.threads t = .idle) ∧ s.raised = []
  starting : ∀ k, s.start = .starting k → ∀ t, t = 0 ∨ k < t → s.threads t = .idle
  joining : ∀ k, s.start = .joining k → ∀ t ≤ k, s.threads t = .ended
  ended : Start.Ended s.start → ∀ t ≤ s.others, s.threads t = .ended

/-- A thread that has been started is one of the `others + 1`. -/
theorem Placed.le (h : s.Placed) (hne : s.threads t ≠ .idle) : t ≤ s.others := by
  by_contra hlt
  exact hne (h.beyond t (by omega))

theorem Placed.turn (h : s.Placed) (hturn : Turn s t (s.threads t) p' s₁) : (s₁.goto t p').Placed := by
  obtain ⟨hthreads, hstart, hothers⟩ := hturn.frame
  obtain ⟨hidle, hended⟩ := hturn.active
  have hgoto : ∀ u, s.threads u = .idle ∨ s.threads u = .ended → (s₁.goto t p').threads u = s.threads u := by
    intro u hu
    have hne : u ≠ t := by
      rintro rfl
      exact hu.elim hidle hended
    rw [goto_of_ne _ _ hne, hthreads]
  constructor
  · intro u hu
    have hplace := h.beyond u (hothers ▸ hu)
    rw [hgoto u (Or.inl hplace), hplace]
  · intro hs
    exact absurd ((h.idle (hstart ▸ hs)).1 t) hidle
  · intro k hs u hu
    have hplace := h.starting k (hstart ▸ hs) u hu
    rw [hgoto u (Or.inl hplace), hplace]
  · intro k hs u hu
    have hplace := h.joining k (hstart ▸ hs) u hu
    rw [hgoto u (Or.inr hplace), hplace]
  · intro hs u hu
    have hplace := h.ended (hstart ▸ hs) u (hothers ▸ hu)
    rw [hgoto u (Or.inr hplace), hplace]

/-- A thread that is started was idle. -/
theorem Change.goto_idle (h : s.Placed) {k : Nat} (hstart : s.start = .starting k) :
    s.threads 0 = .idle ∧ s.threads (k + 1) = .idle :=
  ⟨h.starting k hstart 0 (Or.inl rfl), h.starting k hstart (k + 1) (Or.inr (Nat.lt_succ_self k))⟩

theorem Placed.change (h : s.Placed) (hchange : Change s label s') : s'.Placed := by
  cases hchange with
  | turn t act p' s₁ hturn => exact h.turn hturn
  | stop => exact ⟨h.beyond, h.idle, h.starting, h.joining, h.ended⟩
  | begin hs =>
    refine ⟨h.beyond, ?_, ?_, ?_, ?_⟩
    · intro hidle
      cases hidle
    · exact fun _ _ t _ => (h.idle hs).1 t
    · intro k hk
      cases hk
    · intro hended
      cases hended
  | spawn k hs hk =>
    refine ⟨?_, ?_, ?_, ?_, ?_⟩
    · intro t ht
      have hne : t ≠ k + 1 := by
        rintro rfl
        exact absurd ht (Nat.not_lt.mpr hk)
      rw [goto_of_ne _ _ hne]
      exact h.beyond t ht
    · intro hidle
      cases hidle
    · intro j hj t ht
      obtain rfl : k + 1 = j := Start.starting.inj hj
      rw [goto_of_ne _ _ (by omega)]
      exact h.starting k hs t (by omega)
    · intro j hj
      cases hj
    · intro hended
      cases hended
  | enter hs =>
    refine ⟨?_, ?_, ?_, ?_, ?_⟩
    · intro t ht
      have hne : t ≠ 0 := Nat.ne_of_gt (Nat.zero_lt_of_lt ht)
      rw [goto_of_ne _ _ hne]
      exact h.beyond t ht
    · intro hidle
      cases hidle
    · intro k hk
      cases hk
    · intro k hk
      cases hk
    · intro hended
      cases hended
  | exit hs hended =>
    refine ⟨h.beyond, ?_, ?_, ?_, ?_⟩
    · intro hidle
      cases hidle
    · intro k hk
      cases hk
    · intro k hk t ht
      obtain rfl : 0 = k := Start.joining.inj hk
      exact Nat.le_zero.mp ht ▸ hended
    · intro hend
      cases hend
  | join k hs hk hended =>
    refine ⟨h.beyond, ?_, ?_, ?_, ?_⟩
    · intro hidle
      cases hidle
    · intro j hj
      cases hj
    · intro j hj t ht
      obtain rfl : k + 1 = j := Start.joining.inj hj
      rcases Nat.le_succ_iff.mp ht with hle | rfl
      · exact h.joining k hs t hle
      · exact hended
    · intro hend
      cases hend
  | throw hs hexn =>
    refine ⟨h.beyond, ?_, ?_, ?_, fun _ => h.joining s.others hs⟩
    · intro hidle
      cases hidle
    · intro k hk
      cases hk
    · intro k hk
      cases hk
  | «return» hs hexn =>
    refine ⟨h.beyond, ?_, ?_, ?_, fun _ => h.joining s.others hs⟩
    · intro hidle
      cases hidle
    · intro k hk
      cases hk
    · intro k hk
      cases hk

/-! ## The mutex -/

/-- The thread has the mutex at this place. -/
def Holds : Place J → Prop
  | .test => True
  | .next => True
  | .taken _ => True
  | .harvest _ => True
  | .leaving => True
  | _ => False

/-- The mutex is locked by the thread that is at such a place. -/
def Locked (s : JobScheduler J) : Prop := ∀ t, Holds (s.threads t) ↔ s.mutex = some t

/-- A turn keeps the mutex, locks it or unlocks it. -/
theorem Turn.mutex (h : Turn s t p p' s₁) :
    (s₁.mutex = s.mutex ∧ (Holds p ↔ Holds p')) ∨ (s.mutex = none ∧ s₁.mutex = some t ∧ Holds p') ∨
      (Holds p ∧ s₁.mutex = none ∧ ¬Holds p') := by
  cases h with
  | lock hfree => exact Or.inr (Or.inl ⟨hfree, rfl, trivial⟩)
  | relock job hfree => exact Or.inr (Or.inl ⟨hfree, rfl, trivial⟩)
  | unlock job => exact Or.inr (Or.inr ⟨trivial, rfl, id⟩)
  | leave => exact Or.inr (Or.inr ⟨trivial, rfl, id⟩)
  | _ => exact Or.inl ⟨rfl, Iff.rfl⟩

theorem Locked.turn (h : s.Locked) (hturn : Turn s t (s.threads t) p' s₁) : (s₁.goto t p').Locked := by
  obtain ⟨hthreads, -, -⟩ := hturn.frame
  have hmutex : (s₁.goto t p').mutex = s₁.mutex := rfl
  intro u
  rw [hmutex]
  by_cases hu : u = t
  · subst hu
    rw [goto_self]
    rcases hturn.mutex with ⟨hsame, hiff⟩ | ⟨-, hnow, hholds⟩ | ⟨-, hnow, hnot⟩
    · rw [hsame, ← hiff]
      exact h u
    · simp [hnow, hholds]
    · simp [hnow, hnot]
  · rw [goto_of_ne _ _ hu, hthreads, h u]
    rcases hturn.mutex with ⟨hsame, -⟩ | ⟨hfree, hnow, -⟩ | ⟨hheld, hnow, -⟩
    · rw [hsame]
    · simp [hfree, hnow, Ne.symm hu]
    · simp [hnow, (h t).mp hheld, Ne.symm hu]

/-- A thread is started in front of its first lock. -/
theorem Locked.entering (h : s.Locked) (hidle : s.threads t = .idle) : (s.goto t .entering).Locked := by
  intro u
  have hmutex : (s.goto t .entering).mutex = s.mutex := rfl
  rw [hmutex, ← h u]
  by_cases hu : u = t
  · subst hu
    rw [goto_self, hidle]
    exact Iff.rfl
  · rw [goto_of_ne _ _ hu]

theorem Locked.change (hplaced : s.Placed) (h : s.Locked) (hchange : Change s label s') : s'.Locked := by
  cases hchange with
  | turn t act p' s₁ hturn => exact h.turn hturn
  | spawn k hs hk =>
    have hlocked : ({ s with start := .starting (k + 1) } : JobScheduler J).Locked := h
    exact hlocked.entering (Change.goto_idle hplaced hs).2
  | enter hs =>
    have hlocked : ({ s with start := .running } : JobScheduler J).Locked := h
    exact hlocked.entering (Change.goto_idle hplaced hs).1
  | _ => exact h

section Jobs

variable [DecidableEq J]

/-- The job `j` is to be run. -/
def toRun (j : J) : Place J → Nat
  | .taken i => if i = j then 1 else 0
  | .running i => if i = j then 1 else 0
  | _ => 0

/-- The job `j` has been run and is to be harvested. -/
def toHarvest (j : J) : Place J → Nat
  | .ran i => if i = j then 1 else 0
  | .harvest i => if i = j then 1 else 0
  | _ => 0

omit [DecidableEq J] in
/-- The sum of a weight over the threads. -/
def total (s : JobScheduler J) (weight : Place J → Nat) : Nat :=
  ∑ t ∈ Finset.range (s.others + 1), weight (s.threads t)

omit [DecidableEq J] in
theorem total_goto (weight : Place J → Nat) (ht : t ≤ s.others) (p' : Place J) :
    (s.goto t p').total weight + weight (s.threads t) = s.total weight + weight p' := by
  have hmem : t ∈ Finset.range (s.others + 1) := Finset.mem_range.mpr (Nat.lt_succ_of_le ht)
  have hrest : ∑ u ∈ (Finset.range (s.others + 1)).erase t, weight ((s.goto t p').threads u) =
      ∑ u ∈ (Finset.range (s.others + 1)).erase t, weight (s.threads u) := by
    refine Finset.sum_congr rfl fun u hu => ?_
    rw [goto_of_ne _ _ (Finset.ne_of_mem_erase hu)]
  unfold total
  rw [show (s.goto t p').others = s.others from rfl, ← Finset.add_sum_erase _ _ hmem,
    ← Finset.add_sum_erase (Finset.range (s.others + 1)) (fun u => weight (s.threads u)) hmem, hrest,
    goto_self]
  omega

/-- A job that has been returned has been run or is to be run by one thread, and a job that has been run
has been harvested or is to be. -/
structure Counted (s : JobScheduler J) (j : J) : Prop where
  returned : s.returned.count j = s.total (toRun j) + s.executed.count j
  executed : s.executed.count j = s.total (toHarvest j) + s.harvested.count j

/-- The lists and the jobs of the thread change together. -/
theorem Turn.counts (h : Turn s t p p' s₁) (j : J) :
    (s₁.returned.count j + toRun j p + s.executed.count j =
      s.returned.count j + toRun j p' + s₁.executed.count j) ∧
    (s₁.executed.count j + toHarvest j p + s.harvested.count j =
      s.executed.count j + toHarvest j p' + s₁.harvested.count j) := by
  cases h <;> constructor <;> simp only [toRun, toHarvest, List.count_cons, beq_iff_eq] <;> omega

theorem Counted.turn {j : J} (hplaced : s.Placed) (h : s.Counted j)
    (hturn : Turn s t (s.threads t) p' s₁) : (s₁.goto t p').Counted j := by
  obtain ⟨hthreads, -, hothers⟩ := hturn.frame
  have hle : t ≤ s₁.others := hothers ▸ hplaced.le hturn.active.1
  have htotal : ∀ weight, s₁.total weight = s.total weight := by
    intro weight
    rw [total, total, hothers, hthreads]
  have hrun := total_goto (toRun j) hle p'
  have hharvest := total_goto (toHarvest j) hle p'
  rw [hthreads, htotal] at hrun hharvest
  obtain ⟨hcount, hcount'⟩ := hturn.counts j
  obtain ⟨hreturned, hexecuted⟩ := h
  constructor
  · show s₁.returned.count j = (s₁.goto t p').total (toRun j) + s₁.executed.count j
    omega
  · show s₁.executed.count j = (s₁.goto t p').total (toHarvest j) + s₁.harvested.count j
    omega

/-- A thread is started with no job. -/
theorem Counted.entering {j : J} (h : s.Counted j) (ht : t ≤ s.others) (hidle : s.threads t = .idle) :
    (s.goto t .entering).Counted j := by
  have hrun := total_goto (toRun j) ht .entering
  have hharvest := total_goto (toHarvest j) ht .entering
  rw [hidle] at hrun hharvest
  have hzero : toRun j .idle = 0 ∧ toRun j .entering = 0 := ⟨rfl, rfl⟩
  have hzero' : toHarvest j .idle = 0 ∧ toHarvest j .entering = 0 := ⟨rfl, rfl⟩
  obtain ⟨hreturned, hexecuted⟩ := h
  constructor
  · show s.returned.count j = (s.goto t .entering).total (toRun j) + s.executed.count j
    omega
  · show s.executed.count j = (s.goto t .entering).total (toHarvest j) + s.harvested.count j
    omega

theorem Counted.change {j : J} (hplaced : s.Placed) (h : s.Counted j) (hchange : Change s label s') :
    s'.Counted j := by
  cases hchange with
  | turn t act p' s₁ hturn => exact h.turn hplaced hturn
  | spawn k hs hk =>
    have hcounted : ({ s with start := .starting (k + 1) } : JobScheduler J).Counted j := ⟨h.1, h.2⟩
    exact hcounted.entering hk (Change.goto_idle hplaced hs).2
  | enter hs =>
    have hcounted : ({ s with start := .running } : JobScheduler J).Counted j := ⟨h.1, h.2⟩
    exact hcounted.entering (Nat.zero_le _) (Change.goto_idle hplaced hs).1
  | _ => exact ⟨h.1, h.2⟩

end Jobs

/-! ## The exceptions -/

/-- The state keeps the last exception until the end of `start`. -/
def Reported (s : JobScheduler J) : Prop :=
  match s.start with
  | .returned => s.raised = []
  | .threw message => s.raised.head? = some message
  | _ => (s.state = .exn ∧ s.raised.head? = some s.err) ∨ (s.state ≠ .exn ∧ s.raised = [])

/-- Before the end of `start`, the state tells whether an exception has been raised. -/
theorem reported_iff (h : ¬Start.Ended s.start) : s.Reported ↔
    (s.state = .exn ∧ s.raised.head? = some s.err) ∨ (s.state ≠ .exn ∧ s.raised = []) := by
  unfold Reported
  cases hs : s.start with
  | returned => exact absurd (by rw [hs]; trivial) h
  | threw message => exact absurd (by rw [hs]; trivial) h
  | _ => exact Iff.rfl

/-- A turn raises an exception or keeps what is known of the last one. -/
theorem Turn.raised (h : Turn s t p p' s₁) :
    (s₁.state = .exn ∧ s₁.raised.head? = some s₁.err) ∨
      (s₁.state = s.state ∧ s₁.raised = s.raised ∧ s₁.err = s.err) := by
  cases h with
  | raise job message => exact Or.inl ⟨rfl, rfl⟩
  | _ => exact Or.inr ⟨rfl, rfl, rfl⟩

theorem Reported.turn (hplaced : s.Placed) (h : s.Reported) (hturn : Turn s t (s.threads t) p' s₁) :
    (s₁.goto t p').Reported := by
  obtain ⟨-, hstart, -⟩ := hturn.frame
  have hgoing : ¬Start.Ended s.start := by
    intro hended
    exact hturn.active.2 (hplaced.ended hended t (hplaced.le hturn.active.1))
  have hstart' : (s₁.goto t p').start = s.start := hstart
  rw [reported_iff (by rw [hstart']; exact hgoing)]
  rw [reported_iff hgoing] at h
  rcases hturn.raised with hexn | ⟨hstate, hraised, herr⟩
  · exact Or.inl hexn
  · show (s₁.state = .exn ∧ s₁.raised.head? = some s₁.err) ∨ (s₁.state ≠ .exn ∧ s₁.raised = [])
    rw [hstate, hraised, herr]
    exact h

/-- The caller goes to another place before the end of `start`. -/
theorem Reported.moves (h : s.Reported) (hs : ¬Start.Ended s.start) {start : Start}
    (hstart : ¬Start.Ended start) : ({ s with start } : JobScheduler J).Reported :=
  (reported_iff hstart).mpr ((reported_iff hs).mp h)

/-- A step keeps the last exception, if it is not a call to `stop` after the exception. -/
theorem Reported.change (hplaced : s.Placed) (h : s.Reported) (hchange : Change s label s')
    (hkeeps : s.KeepsError label) : s'.Reported := by
  cases hchange with
  | turn t act p' s₁ hturn => exact h.turn hplaced hturn
  | begin hs => exact Or.inr ⟨by rintro ⟨⟩, (hplaced.idle hs).2⟩
  | spawn k hs hk =>
    have hmoved : ({ s with start := .starting (k + 1) } : JobScheduler J).Reported :=
      h.moves (by rw [hs]; exact id) id
    exact hmoved
  | enter hs =>
    have hmoved : ({ s with start := .running } : JobScheduler J).Reported :=
      h.moves (by rw [hs]; exact id) id
    exact hmoved
  | exit hs hended => exact h.moves (by rw [hs]; exact id) id
  | join k hs hk hended => exact h.moves (by rw [hs]; exact id) id
  | throw hs hexn =>
    rcases (reported_iff (by rw [hs]; exact id)).mp h with ⟨-, hhead⟩ | ⟨hne, -⟩
    · exact hhead
    · exact absurd hexn hne
  | «return» hs hexn =>
    rcases (reported_iff (by rw [hs]; exact id)).mp h with ⟨heq, -⟩ | ⟨-, hnil⟩
    · exact absurd heq hexn
    · exact hnil
  | stop =>
    by_cases hended : Start.Ended s.start
    · unfold Reported at h ⊢
      cases hs : s.start with
      | returned => simpa [hs] using h
      | threw message => simpa [hs] using h
      | _ => simp [hs, Start.Ended] at hended
    · rw [reported_iff hended] at h
      obtain ⟨-, hnil⟩ := h.resolve_left fun hexn => hkeeps hexn.1
      have hstopped : ({ s with state := .stop } : JobScheduler J).Reported ↔ _ := reported_iff hended
      rw [hstopped]
      exact Or.inr ⟨by rintro ⟨⟩, hnil⟩

variable [DecidableEq J]

/-- What every step keeps. -/
structure Invariant (s : JobScheduler J) : Prop where
  placed : s.Placed
  locked : s.Locked
  counted : ∀ j, s.Counted j

theorem Invariant.step (h : s.Invariant) (hstep : step s label = some s') : s'.Invariant where
  placed := h.placed.change (step_cases hstep)
  locked := h.locked.change h.placed (step_cases hstep)
  counted j := (h.counted j).change h.placed (step_cases hstep)

end Elm.Sys.JobScheduler
