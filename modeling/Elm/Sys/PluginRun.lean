import Elm.Sys.Plugin

/-!
# Runs of `Plugin` and `Plugger`

A plugin is live when it has been started and not cleaned since: its member `state` is neither 0 nor
below `-MAX_AGE`.  What every call keeps is about the members `state` (`Booked`), the vectors of the
pluggers (`Opened`) and the calls of `startup` and `cleanup` (`Logged`); each one has a lemma for the
change of one plugin.
-/

namespace Elm.Sys.Plugins

open List Function Option

variable {P : Type} [DecidableEq P] {s s' t : Plugins P} {p q : P}

/-! ## Sequences of calls -/

theorem alternating_nil : Alternating [] := by
  intro i e he
  simp at he

/-- The last call of an alternating sequence gives its parity. -/
theorem Alternating.getLast_iff {es : List Event} (h : Alternating es) :
    es.getLast? = some .startup ↔ es.length % 2 = 1 := by
  cases hes : es.getLast? with
  | none =>
    rw [getLast?_eq_none_iff.mp hes]
    simp
  | some e =>
    have hne : es ≠ [] := by
      rintro rfl
      cases hes
    have hpos := length_pos_of_ne_nil hne
    rw [getLast?_eq_getElem?] at hes
    have hiff := h (es.length - 1) e hes
    rw [some.injEq, hiff]
    omega

theorem Alternating.concat {es : List Event} (h : Alternating es) {e : Event}
    (he : e = .startup ↔ es.getLast? ≠ some .startup) : Alternating (es ++ [e]) := by
  intro i d hd
  rcases Nat.lt_trichotomy i es.length with hlt | rfl | hgt
  · rw [getElem?_append_left hlt] at hd
    exact h i d hd
  · rw [getElem?_concat_length] at hd
    obtain rfl := some.inj hd
    rw [he, Ne, h.getLast_iff]
    omega
  · rw [getElem?_eq_none (by rw [length_append, length_singleton]; omega)] at hd
    cases hd

/-! ## The invariant -/

/-- The plugin has been started and not cleaned since. -/
def Live (state : Int) : Prop := state ≠ 0 ∧ -maxAge ≤ state

/-- The members `state`, the unused plugins and the users; `plugged` also counts the call of `plug` that has
not returned. -/
structure Booked (s : Plugins P) (plugged : P → Nat) : Prop where
  low : ∀ p, -maxAge - 1 ≤ s.state p
  toNat : ∀ p, (s.state p).toNat = plugged p
  users : ∀ p, s.users p ≤ plugged p
  unused : ∀ p, p ∈ s.unused ↔ -maxAge ≤ s.state p ∧ s.state p < 0
  nodup : s.unused.Nodup

/-- The plugins of the pluggers are live. -/
def Opened (s : Plugins P) : Prop :=
  ∀ g ∈ s.pluggers, g.plugins.Nodup ∧ ∀ p ∈ g.plugins, Live (s.state p)

/-- The calls of `startup` and `cleanup`. -/
structure Logged (s : Plugins P) : Prop where
  alternate : ∀ p, Alternating (s.events p)
  running : ∀ p, s.Running p ↔ Live (s.state p)
  cleaned : ∀ c ∈ s.calls, c.event = .cleanup → c.users = 0

/-- What every call keeps. -/
structure Invariant (s : Plugins P) (plugged : P → Nat) : Prop where
  booked : s.Booked plugged
  opened : s.Opened
  logged : s.Logged

theorem invariant_new (statics : List P) (hooks : List (List Char)) :
    (new statics hooks).Invariant fun _ => 0 where
  booked := ⟨fun _ => show -maxAge - 1 ≤ 0 by decide, fun _ => rfl, fun _ => Nat.le_refl 0, fun p => by simp [new], nodup_nil⟩
  opened g hg := by
    obtain ⟨hook, -, rfl⟩ := mem_map.mp hg
    exact ⟨nodup_nil, fun p hp => by cases hp⟩
  logged := by
    refine ⟨fun p => alternating_nil, fun p => ?_, fun c hc => by cases hc⟩
    constructor
    · intro hlast
      cases hlast
    · rintro ⟨hne, -⟩
      exact absurd rfl hne

/-- The member `state` of one plugin changes. -/
theorem Booked.update {plugged plugged' : P → Nat} (h : s.Booked plugged) {b : Int}
    (hstate : s'.state = Function.update s.state p b) (hlow : -maxAge - 1 ≤ b)
    (hplugged : plugged' = Function.update plugged p b.toNat) (husers : ∀ q, s'.users q ≤ plugged' q)
    (hunused : ∀ q ≠ p, q ∈ s'.unused ↔ q ∈ s.unused) (hp : p ∈ s'.unused ↔ -maxAge ≤ b ∧ b < 0)
    (hnodup : s'.unused.Nodup) : s'.Booked plugged' := by
  refine ⟨fun q => ?_, fun q => ?_, husers, fun q => ?_, hnodup⟩ <;> by_cases hq : q = p
  · rw [hstate, hq, update_self]
    exact hlow
  · rw [hstate, update_of_ne hq]
    exact h.low q
  · rw [hstate, hplugged, hq, update_self, update_self]
  · rw [hstate, hplugged, update_of_ne hq, update_of_ne hq]
    exact h.toNat q
  · rw [hstate, hq, update_self]
    exact hp
  · rw [hstate, update_of_ne hq, hunused q hq]
    exact h.unused q

/-- A plugin stays live in the pluggers. -/
theorem Opened.update (h : s.Opened) {b : Int} (hstate : s'.state = Function.update s.state p b)
    (hpluggers : s'.pluggers = s.pluggers) (hlive : Live (s.state p) → Live b) : s'.Opened := by
  intro g hg
  rw [hpluggers] at hg
  obtain ⟨hnodup, hall⟩ := h g hg
  refine ⟨hnodup, fun q hq => ?_⟩
  rw [hstate]
  by_cases hqp : q = p
  · rw [hqp, update_self]
    exact hlive (hqp ▸ hall q hq)
  · rw [update_of_ne hqp]
    exact hall q hq

/-- A plugin that is no more live leaves the pluggers. -/
theorem Opened.leave (h : s.Opened) {b : Int} (hstate : s'.state = Function.update s.state p b)
    (hpluggers : s'.pluggers = (s.leave p).pluggers) : s'.Opened := by
  intro g hg
  rw [hpluggers] at hg
  obtain ⟨g₀, hg₀, rfl⟩ := mem_map.mp hg
  obtain ⟨hnodup, hall⟩ := h g₀ hg₀
  refine ⟨hnodup.erase p, fun q hq => ?_⟩
  have hmem := (hnodup.mem_erase_iff).mp hq
  rw [hstate, update_of_ne hmem.1]
  exact hall q hmem.2

/-- No call is made. -/
theorem Logged.update (h : s.Logged) {b : Int} (hstate : s'.state = Function.update s.state p b)
    (hcalls : s'.calls = s.calls) (hlive : Live (s.state p) ↔ Live b) : s'.Logged := by
  have hevents : ∀ q, s'.events q = s.events q := fun q => by rw [events, events, hcalls]
  refine ⟨fun q => ?_, fun q => ?_, ?_⟩
  · rw [hevents]
    exact h.alternate q
  · rw [Running, hevents, ← Running, h.running q, hstate]
    by_cases hq : q = p
    · rw [hq, update_self]
      exact hlive
    · rw [update_of_ne hq]
  · rw [hcalls]
    exact h.cleaned

/-- `startup` or `cleanup` is called. -/
theorem Logged.call (h : s.Logged) {b : Int} {e : Event} {n : Nat}
    (hstate : s'.state = Function.update s.state p b) (hcalls : s'.calls = s.calls ++ [⟨p, e, n⟩])
    (hbefore : e = .startup ↔ ¬Live (s.state p)) (hafter : e = .startup ↔ Live b)
    (hclean : e = .cleanup → n = 0) : s'.Logged := by
  have hself : s'.events p = s.events p ++ [e] := by
    simp [events, hcalls]
  have hother : ∀ q ≠ p, s'.events q = s.events q := by
    intro q hq
    simp [events, hcalls, Ne.symm hq]
  refine ⟨fun q => ?_, fun q => ?_, fun c hc => ?_⟩
  · by_cases hq : q = p
    · rw [hq, hself]
      refine (h.alternate p).concat (hbefore.trans ?_)
      rw [← h.running p]
      exact Iff.rfl
    · rw [hother q hq]
      exact h.alternate q
  · by_cases hq : q = p
    · rw [hq, Running, hself, hstate, update_self, getLast?_concat, some.injEq]
      exact hafter
    · rw [Running, hother q hq, ← Running, h.running q, hstate, update_of_ne hq]
  · rw [hcalls] at hc
    rcases mem_append.mp hc with hc | hc
    · exact h.cleaned c hc
    · obtain rfl := mem_singleton.mp hc
      exact hclean

/-! ## `unplug` -/

/-- An unused plugin becomes older; a plugin that is too old is cleaned. -/
structure Aged (s : Plugins P) (q : P) (s' : Plugins P) : Prop where
  state : s'.state = Function.update s.state q (s.state q - 1)
  users : s'.users = s.users
  length_pluggers : s'.pluggers.length = s.pluggers.length
  unused : s'.unused = if s.state q = -maxAge then s.unused.erase q else s.unused
  pluggers : s'.pluggers = if s.state q = -maxAge then (s.leave q).pluggers else s.pluggers

theorem unplug_unused {plugged : P → Nat} (h : s.Invariant plugged) (hq : q ∈ s.unused) :
    ∃ s', s.unplug q = some s' ∧ s'.Invariant plugged ∧ Aged s q s' := by
  obtain ⟨hlow, hneg⟩ := (h.booked.unused q).mp hq
  have hzero : plugged q = 0 := by
    rw [← h.booked.toNat q]
    omega
  have hsame : plugged = Function.update plugged q (s.state q - 1).toNat := by
    rw [show (s.state q - 1).toNat = plugged q by omega, update_eq_self]
  have hstate : (s.setState q (s.state q - 1)).state q = s.state q - 1 := update_self ..
  unfold unplug
  rw [if_neg (by omega)]
  simp only [hstate]
  rw [if_neg (by omega)]
  by_cases hold : s.state q = -maxAge
  · rw [if_pos (by omega)]
    refine ⟨_, rfl, ⟨?_, ?_, ?_⟩, rfl, rfl, ?_, ?_, ?_⟩
    · refine h.booked.update rfl (by omega) hsame h.booked.users ?_ ?_ (h.booked.nodup.erase q)
      · intro r hr
        show r ∈ s.unused.erase q ↔ r ∈ s.unused
        rw [mem_erase_of_ne hr]
      · show q ∈ s.unused.erase q ↔ _
        constructor
        · intro hmem
          exact absurd rfl (h.booked.nodup.mem_erase_iff.mp hmem).1
        · intro hle
          omega
    · exact h.opened.leave rfl rfl
    · have husers : s.users q = 0 := Nat.le_zero.mp (hzero ▸ h.booked.users q)
      refine h.logged.call (e := .cleanup) (n := s.users q) rfl rfl ?_ ?_ fun _ => husers
      · unfold Live
        constructor
        · rintro ⟨⟩
        · intro hnot
          exact absurd ⟨by omega, hlow⟩ hnot
      · unfold Live
        constructor
        · rintro ⟨⟩
        · rintro ⟨-, hle⟩
          omega
    · exact length_map ..
    · rw [if_pos hold]
      rfl
    · rw [if_pos hold]
      rfl
  · rw [if_neg (by omega)]
    refine ⟨_, rfl, ⟨?_, ?_, ?_⟩, rfl, rfl, rfl, ?_, ?_⟩
    · refine h.booked.update rfl (by omega) hsame h.booked.users (fun _ _ => Iff.rfl) ?_ h.booked.nodup
      show q ∈ s.unused ↔ _
      constructor
      · intro _
        omega
      · exact fun _ => hq
    · exact h.opened.update rfl rfl fun _ => ⟨by omega, by omega⟩
    · refine h.logged.update rfl rfl ?_
      unfold Live
      omega
    · rw [if_neg hold]
      rfl
    · rw [if_neg hold]
      rfl

/-! ## `step` -/

/-- An element that is not among the first ones is erased behind them. -/
theorem take_erase_of_notMem {l : List P} {k : Nat} (h : q ∉ l.take k) : (l.erase q).take k = l.take k := by
  induction l generalizing k with
  | nil => rfl
  | cons x l ih =>
    cases k with
    | zero => rfl
    | succ k =>
      rw [take_succ_cons, mem_cons, not_or] at h
      rw [erase_cons_tail (by simpa using Ne.symm h.1), take_succ_cons, take_succ_cons,
        ih h.2]

omit [DecidableEq P] in
theorem notMem_take_of_getElem? {l : List P} (h : l.Nodup) {k : Nat} (hq : l[k]? = some q) :
    q ∉ l.take k := by
  intro hmem
  obtain ⟨i, hi, heq⟩ := mem_iff_getElem.mp hmem
  rw [length_take] at hi
  rw [getElem_take] at heq
  obtain ⟨hk, hk'⟩ := List.getElem?_eq_some_iff.mp hq
  have hik := (h.getElem_inj_iff).mp (heq.trans hk'.symm)
  omega

omit [DecidableEq P] in
/-- The first plugins of each plugger stay in place when none of them is too old. -/
def KeepsFront (s t : Plugins P) : Prop :=
  ∀ (g m : Nat) (plugger : Plugger P), s.pluggers[g]? = some plugger →
    (∀ q ∈ plugger.plugins.take m, ¬s.TooOld q) →
    ∃ plugger', t.pluggers[g]? = some plugger' ∧ plugger'.plugins.take m = plugger.plugins.take m

/-- The loop of `step`, when the first `n` unused plugins of `s` remain to be handled. -/
structure Aging (s : Plugins P) (plugged : P → Nat) (n : Nat) (t : Plugins P) : Prop where
  invariant : t.Invariant plugged
  users : t.users = s.users
  length_pluggers : t.pluggers.length = s.pluggers.length
  take : t.unused.take n = s.unused.take n
  state : ∀ q, q ∈ s.unused.take n ∨ q ∉ s.unused → t.state q = s.state q
  front : s.KeepsFront t
  young : (∀ q, ¬s.TooOld q) → ∀ q, -maxAge ≤ s.state q → -maxAge ≤ t.state q

theorem Aging.unplug {plugged : P → Nat} {n : Nat} (hs : s.Invariant plugged) (h : Aging s plugged (n + 1) t)
    (hq : s.unused[n]? = some q) :
    ∃ t', (t.unused[n]?).bind t.unplug = some t' ∧ Aging s plugged n t' := by
  have hqt : t.unused[n]? = some q := by
    rw [← getElem?_take_of_lt (Nat.lt_succ_self n), h.take,
      getElem?_take_of_lt (Nat.lt_succ_self n), hq]
  have hmem : q ∈ s.unused := mem_of_getElem? hq
  have hnot : q ∉ s.unused.take n := notMem_take_of_getElem? hs.booked.nodup hq
  have hold : t.state q = s.state q := by
    refine h.state q (Or.inl ?_)
    rw [take_add_one, hq]
    exact mem_append_right _ (mem_singleton.mpr rfl)
  obtain ⟨t', hunplug, hinv, haged⟩ := unplug_unused h.invariant (mem_of_getElem? hqt)
  refine ⟨t', by rw [hqt]; exact hunplug, hinv, haged.users.trans h.users,
    haged.length_pluggers.trans h.length_pluggers, ?_, ?_, ?_, ?_⟩
  · have htake : t.unused.take n = s.unused.take n := by
      have htake := congrArg (List.take n) h.take
      rw [take_take, take_take, Nat.min_eq_left (Nat.le_succ n)] at htake
      exact htake
    rw [haged.unused]
    split_ifs
    · rw [take_erase_of_notMem (htake ▸ hnot), htake]
    · exact htake
  · intro r hr
    have hne : r ≠ q := by
      rintro rfl
      exact hr.elim hnot fun hr => hr hmem
    rw [haged.state, update_of_ne hne]
    refine h.state r (hr.imp_left fun hr => ?_)
    rw [take_add_one]
    exact mem_append_left _ hr
  · intro g m plugger hg hfront
    obtain ⟨plugger', hg', htake⟩ := h.front g m plugger hg hfront
    rw [haged.pluggers]
    split_ifs with htooOld
    · -- the plugin that leaves is not one of the first ones
      refine ⟨{ plugger' with plugins := plugger'.plugins.erase q }, ?_, ?_⟩
      · show (t.pluggers.map _)[g]? = _
        rw [getElem?_map, hg']
        rfl
      · have hfar : q ∉ plugger'.plugins.take m := by
          rw [htake]
          exact fun hin => hfront q hin ⟨hmem, hold ▸ htooOld⟩
        exact (take_erase_of_notMem hfar).trans htake
    · exact ⟨plugger', hg', htake⟩
  · intro hyoung r hr
    have hlive := h.young hyoung r hr
    rw [haged.state]
    by_cases hrq : r = q
    · subst hrq
      rw [update_self]
      have hne : s.state r ≠ -maxAge := fun heq => hyoung r ⟨hmem, heq⟩
      omega
    · rw [update_of_ne hrq]
      exact hlive

/-- `step` makes every unused plugin older. -/
theorem age_spec {plugged : P → Nat} (h : s.Invariant plugged) :
    ∃ t, s.age = some t ∧ Aging s plugged 0 t := by
  have hloop : ∃ t, s.age = some t ∧ Aging s plugged (s.unused.length - s.unused.length) t := by
    refine Loop.exists_foldlM_range (fun k t => Aging s plugged (s.unused.length - k) t) ?_ ?_
    · exact ⟨h, rfl, rfl, rfl, fun _ _ => rfl, fun g m plugger hg _ => ⟨plugger, hg, rfl⟩, fun _ _ => id⟩
    · intro k t hk haging
      have hlt : s.unused.length - 1 - k < s.unused.length := by omega
      have hq := getElem?_eq_getElem hlt
      have hsucc : s.unused.length - k = s.unused.length - 1 - k + 1 := by omega
      have hpred : s.unused.length - (k + 1) = s.unused.length - 1 - k := by omega
      rw [hsucc] at haging
      rw [hpred]
      exact haging.unplug h hq
  rw [Nat.sub_self] at hloop
  exact hloop

/-! ## `plug` -/

/-- The plugin has one user more, before `step`. -/
structure Plugged (s : Plugins P) (p : P) (t : Plugins P) : Prop where
  state : t.state = Function.update s.state p (if s.state p > 0 then s.state p + 1 else 1)
  users : t.users = s.users
  pluggers : t.pluggers = s.pluggers
  unused : t.unused = if s.state p < 0 then s.unused.erase p else s.unused
  calls : t.calls = if s.state p = 0 then s.calls ++ [⟨p, .startup, s.users p⟩] else s.calls

theorem plugPlugin_eq (s : Plugins P) (p : P) (handle : Bool) :
    ∃ t, s.plugPlugin p handle = t.age ∧ Plugged s p t := by
  refine ⟨_, rfl, ?_⟩
  rcases lt_trichotomy (s.state p) 0 with hneg | hzero | hpos
  · have hnot : ¬s.state p > 0 := by omega
    have hne : s.state p ≠ 0 := by omega
    cases handle <;> constructor <;> simp [hneg, hnot, hne, setState]
  · cases handle <;> constructor <;> simp [hzero, setState, call]
  · have hnot : ¬s.state p < 0 := by omega
    have hne : s.state p ≠ 0 := by omega
    cases handle <;> constructor <;> simp [hpos, hnot, hne, setState]

theorem Plugged.notMem (h : Plugged s p t) {plugged : P → Nat} (hs : s.Booked plugged) :
    p ∉ t.unused := by
  rw [h.unused]
  split_ifs with hneg
  · exact fun hmem => (hs.nodup.mem_erase_iff.mp hmem).1 rfl
  · exact fun hmem => hneg ((hs.unused p).mp hmem).2

theorem Plugged.mem_iff (h : Plugged s p t) (hq : q ≠ p) : q ∈ t.unused ↔ q ∈ s.unused := by
  rw [h.unused]
  split_ifs
  · exact mem_erase_of_ne hq
  · exact Iff.rfl

theorem Plugged.pos (h : Plugged s p t) : 0 < t.state p := by
  rw [h.state, update_self]
  split_ifs <;> omega

/-- The same plugins become too old, but the one that is plugged. -/
theorem Plugged.tooOld_iff (h : Plugged s p t) {plugged : P → Nat} (hs : s.Booked plugged) :
    t.TooOld q ↔ q ≠ p ∧ s.TooOld q := by
  by_cases hq : q = p
  · subst hq
    simp [TooOld, h.notMem hs]
  · unfold TooOld
    rw [h.mem_iff hq, h.state, update_of_ne hq]
    simp [hq]

theorem Plugged.invariant (h : Plugged s p t) (hs : s.Invariant s.users) (halive : s.Alive p) :
    t.Invariant (Function.update s.users p (s.users p + 1)) := by
  have hpos := h.pos
  have hcount := hs.booked.toNat p
  have hstate := h.state
  have hnew : t.state p = if s.state p > 0 then s.state p + 1 else 1 := by
    rw [h.state, update_self]
  rw [← hnew] at hstate
  constructor
  · refine hs.booked.update hstate ?_ ?_ ?_ (fun q hq => h.mem_iff hq) ?_ ?_
    · unfold maxAge
      omega
    · congr 1
      rw [hnew]
      split_ifs <;> omega
    · intro q
      rw [h.users]
      by_cases hq : q = p
      · rw [hq, update_self]
        omega
      · rw [update_of_ne hq]
    · constructor
      · exact fun hmem => absurd hmem (h.notMem hs.booked)
      · rintro ⟨-, hneg⟩
        omega
    · rw [h.unused]
      split_ifs
      · exact hs.booked.nodup.erase p
      · exact hs.booked.nodup
  · refine hs.opened.update hstate h.pluggers fun _ => ⟨by omega, ?_⟩
    unfold maxAge
    omega
  · have hlive : Live (t.state p) := by
      unfold Live maxAge
      omega
    by_cases hzero : s.state p = 0
    · have hcalls := h.calls
      rw [if_pos hzero] at hcalls
      refine hs.logged.call hstate hcalls ?_ ?_ ?_
      · simp [Live, hzero]
      · simp [hlive]
      · rintro ⟨⟩
    · have hcalls := h.calls
      rw [if_neg hzero] at hcalls
      refine hs.logged.update hstate hcalls ?_
      have hlive' : Live (s.state p) := ⟨hzero, halive⟩
      exact ⟨fun _ => hlive, fun _ => hlive'⟩

/-- What `Plugin::plug` leaves. -/
structure Used (s : Plugins P) (p : P) (t : Plugins P) : Prop where
  invariant : t.Invariant (Function.update t.users p (t.users p + 1))
  pos : 0 < t.state p
  length_pluggers : t.pluggers.length = s.pluggers.length
  front : ∀ (g m : Nat) (plugger : Plugger P), s.pluggers[g]? = some plugger →
    (∀ q ∈ plugger.plugins.take m, q ≠ p → ¬s.TooOld q) →
    ∃ plugger', t.pluggers[g]? = some plugger' ∧ plugger'.plugins.take m = plugger.plugins.take m
  young : (∀ q ≠ p, ¬s.TooOld q) → (∀ q, -maxAge ≤ s.state q) → ∀ q, -maxAge ≤ t.state q

theorem plugPlugin_spec (h : s.Invariant s.users) (halive : s.Alive p) (handle : Bool) :
    ∃ t, s.plugPlugin p handle = some t ∧ Used s p t := by
  obtain ⟨t₁, hplug, hplugged⟩ := plugPlugin_eq s p handle
  obtain ⟨t, hage, haging⟩ := age_spec (hplugged.invariant h halive)
  have hold : ∀ q, t₁.TooOld q ↔ q ≠ p ∧ s.TooOld q := fun q => hplugged.tooOld_iff h.booked
  refine ⟨t, hplug.trans hage, ?_, ?_, ?_, ?_, ?_⟩
  · have husers : t.users = s.users := haging.users.trans hplugged.users
    rw [husers]
    exact haging.invariant
  · rw [haging.state p (Or.inr (hplugged.notMem h.booked))]
    exact hplugged.pos
  · rw [haging.length_pluggers, hplugged.pluggers]
  · intro g m plugger hg hfront
    refine haging.front g m plugger (hplugged.pluggers ▸ hg) fun q hq hq' => ?_
    obtain ⟨hne, hq'⟩ := (hold q).mp hq'
    exact hfront q hq hne hq'
  · intro hyoung hall q
    refine haging.young (fun r hr => ?_) q ?_
    · obtain ⟨hne, hr⟩ := (hold r).mp hr
      exact hyoung r hne hr
    · rw [hplugged.state]
      by_cases hq : q = p
      · rw [hq, update_self]
        unfold maxAge
        split_ifs <;> omega
      · rw [update_of_ne hq]
        exact hall q

/-- `Plugger::plug` of a plugin also adds it to the plugger. -/
theorem plugObject_spec (h : s.Invariant s.users) (halive : s.Alive p) {g : Nat}
    (hg : g < s.pluggers.length) (handle : Bool) :
    ∃ t, s.plugObject g p handle = some (p, t) ∧
      t.Invariant (Function.update t.users p (t.users p + 1)) ∧ 0 < t.state p ∧
      ((∀ q ≠ p, ¬s.TooOld q) → (∀ q, -maxAge ≤ s.state q) → ∀ q, -maxAge ≤ t.state q) := by
  obtain ⟨t, hplug, hused⟩ := plugPlugin_spec h halive handle
  have hlt : g < t.pluggers.length := hused.length_pluggers ▸ hg
  have hget := getElem?_eq_getElem hlt
  by_cases hmem : p ∈ t.pluggers[g].plugins
  · refine ⟨t, ?_, hused.invariant, hused.pos, hused.young⟩
    unfold plugObject
    simp [hplug, hget, hmem]
  · refine ⟨{ t with
      pluggers := t.pluggers.set g ⟨t.pluggers[g].hook, t.pluggers[g].plugins ++ [p]⟩ },
      ?_, ?_, hused.pos, hused.young⟩
    · unfold plugObject
      simp [hplug, hget, hmem]
    · obtain ⟨hbooked, hopened, hlogged⟩ := hused.invariant
      refine ⟨⟨hbooked.low, hbooked.toNat, hbooked.users, hbooked.unused, hbooked.nodup⟩, ?_,
        ⟨hlogged.alternate, hlogged.running, hlogged.cleaned⟩⟩
      intro g' hg'
      rcases mem_or_eq_of_mem_set hg' with hold | rfl
      · exact hopened g' hold
      · obtain ⟨hnodup, hall⟩ := hopened _ (getElem_mem hlt)
        constructor
        · exact nodup_append.mpr ⟨hnodup, nodup_singleton p, fun q hq r hr => by
            rw [mem_singleton.mp hr]
            rintro rfl
            exact hmem hq⟩
        · intro q hq
          rcases mem_append.mp hq with hq | hq
          · exact hall q hq
          · rw [mem_singleton.mp hq]
            have hpos := hused.pos
            unfold Live maxAge
            show t.state p ≠ 0 ∧ -16 ≤ t.state p
            omega

/-! ## Calls -/

/-- What a call leaves. -/
structure Returned (s : Plugins P) (young : Prop) (t : Plugins P) : Prop where
  invariant : t.Invariant t.users
  result : ∀ p ∈ t.result, 0 < t.state p
  young : young → (∀ p, -maxAge ≤ s.state p) → ∀ p, -maxAge ≤ t.state p

/-- A user of the plugin leaves. -/
theorem unplug_used (h : s.Invariant s.users) (hp : 0 < s.users p) :
    ∃ t, { s with users := Function.update s.users p (s.users p - 1), result := none }.unplug p = some t ∧
      Returned s True t := by
  have hcount := h.booked.toNat p
  have hpos : 0 < s.state p := by omega
  have hnot : p ∉ s.unused := fun hmem => by
    have hneg := ((h.booked.unused p).mp hmem).2
    omega
  have hlow : -maxAge ≤ s.state p - 1 := by
    unfold maxAge
    omega
  have hlive : Live (s.state p) := ⟨by omega, by omega⟩
  unfold unplug
  simp only [setState, update_self]
  rw [if_neg (by omega)]
  by_cases hlast : s.state p - 1 = 0
  · -- the plugin is now unused
    rw [if_pos hlast]
    have hstate : Function.update (Function.update s.state p (s.state p - 1)) p (-1) =
        Function.update s.state p (-1) := update_idem ..
    refine ⟨_, rfl, ⟨?_, ?_, ?_⟩, fun q hq => (nomatch hq), fun _ hall q => ?_⟩
    · refine h.booked.update hstate (by decide) ?_ (fun q => Nat.le_refl _) ?_ ?_ ?_
      · show Function.update s.users p (s.users p - 1) = _
        congr 1
        omega
      · intro q hq
        show q ∈ s.unused ++ [p] ↔ q ∈ s.unused
        simp [hq]
      · show p ∈ s.unused ++ [p] ↔ _
        simp [maxAge]
      · show (s.unused ++ [p]).Nodup
        exact nodup_append.mpr ⟨h.booked.nodup, nodup_singleton p, fun q hq r hr => by
          rw [mem_singleton.mp hr]
          rintro rfl
          exact hnot hq⟩
    · exact h.opened.update hstate rfl fun _ => ⟨by decide, by decide⟩
    · exact h.logged.update hstate rfl ⟨fun _ => ⟨by decide, by decide⟩, fun _ => hlive⟩
    · show -maxAge ≤ Function.update (Function.update s.state p (s.state p - 1)) p (-1) q
      rw [hstate]
      by_cases hq : q = p
      · rw [hq, update_self]
        decide
      · rw [update_of_ne hq]
        exact hall q
  · rw [if_neg hlast, if_neg (by omega)]
    refine ⟨_, rfl, ⟨?_, ?_, ?_⟩, fun q hq => (nomatch hq), fun _ hall q => ?_⟩
    · refine h.booked.update rfl (by omega) ?_ (fun q => Nat.le_refl _) (fun _ _ => Iff.rfl) ?_
        h.booked.nodup
      · show Function.update s.users p (s.users p - 1) = _
        congr 1
        omega
      · constructor
        · exact fun hmem => absurd hmem hnot
        · rintro ⟨-, hneg⟩
          omega
    · exact h.opened.update rfl rfl fun _ => ⟨hlast, hlow⟩
    · exact h.logged.update rfl rfl ⟨fun _ => ⟨hlast, hlow⟩, fun _ => hlive⟩
    · show -maxAge ≤ Function.update s.state p (s.state p - 1) q
      by_cases hq : q = p
      · rw [hq, update_self]
        exact hlow
      · rw [update_of_ne hq]
        exact hall q

/-- The result of `plug` gets its user. -/
theorem Invariant.returns (h : t.Invariant (Function.update t.users p (t.users p + 1))) :
    (t.returns (some p)).Invariant (t.returns (some p)).users :=
  ⟨⟨h.booked.low, h.booked.toNat, fun _ => Nat.le_refl _, h.booked.unused, h.booked.nodup⟩, h.opened,
    ⟨h.logged.alternate, h.logged.running, h.logged.cleaned⟩⟩

variable {info : P → PluginInfo}

omit [DecidableEq P] in
theorem lookup_inl {name : List Char} {plugger : Plugger P} {i : Nat}
    (h : s.lookup info plugger name = some (.inl i)) : ∃ p, plugger.plugins[i]? = some p := by
  unfold lookup at h
  split at h
  · cases h
  · split at h
    · rename_i j hfind
      obtain rfl : j = i := by simpa using h
      have hlt := (findIdx?_eq_some_iff_findIdx_eq.mp hfind).1
      exact ⟨_, getElem?_eq_getElem hlt⟩
    · simp at h

/-- A call of `plug` that finds a plugin of the plugger returns it, when the plugins in front of it are not
too old. -/
theorem plug_plugin (h : s.Invariant s.users) {g i : Nat} {name : List Char} {plugger : Plugger P}
    (hg : s.pluggers[g]? = some plugger) (hlookup : s.lookup info plugger name = some (.inl i))
    (hp : plugger.plugins[i]? = some p) (halive : s.Alive p)
    (hfront : ∀ q ∈ plugger.plugins.take i, ¬s.TooOld q) :
    ∃ t, s.plug info g name = some (some p, t) ∧ Used s p t := by
  obtain ⟨t, hplug, hused⟩ := plugPlugin_spec h halive false
  -- the plugin stays at its index
  obtain ⟨plugger', hg', htake⟩ := hused.front g (i + 1) plugger hg (by
    intro q hq hne
    rw [take_add_one, hp] at hq
    rcases mem_append.mp hq with hq | hq
    · exact hfront q hq
    · exact absurd (mem_singleton.mp hq) hne)
  have hp' : plugger'.plugins[i]? = some p := by
    rw [← getElem?_take_of_lt (Nat.lt_succ_self i), htake,
      getElem?_take_of_lt (Nat.lt_succ_self i), hp]
  refine ⟨t, ?_, hused⟩
  unfold plug
  simp [hg, hlookup, hp, hplug, hg', hp']

theorem step_spec (h : s.Invariant s.users) {op : Op P} (hcontract : s.Contract op)
    (hsound : s.Sound info op) : ∃ t, step info s op = some t ∧ Returned s (s.Young info op) t := by
  cases op with
  | unplug p =>
    obtain ⟨t, hunplug, hreturned⟩ := unplug_used h hcontract
    exact ⟨t, hunplug, hreturned.invariant, hreturned.result, fun _ => hreturned.young trivial⟩
  | load g p =>
    obtain ⟨t, hplug, hinv, hpos, hyoung⟩ := plugObject_spec h (hsound p rfl).1 hcontract true
    refine ⟨t.returns (some p), ?_, hinv.returns, ?_, fun hy => hyoung (hy p rfl)⟩
    · unfold step
      simp [hplug]
    · rintro q hq
      obtain rfl := some.inj hq
      exact hpos
  | plug g name =>
    have hg := getElem?_eq_getElem hcontract
    generalize hplugger : s.pluggers[g] = plugger at hg
    cases hlookup : s.lookup info plugger name with
    | none =>
      refine ⟨s.returns none, ?_, ?_, fun q hq => (nomatch hq), fun _ => id⟩
      · simp [step, plug, hg, hlookup]
      · exact ⟨⟨h.booked.low, h.booked.toNat, h.booked.users, h.booked.unused, h.booked.nodup⟩,
          h.opened, ⟨h.logged.alternate, h.logged.running, h.logged.cleaned⟩⟩
    | some found =>
      cases found with
      | inl i =>
        obtain ⟨p, hp⟩ := lookup_inl hlookup
        have htarget : s.target info (.plug g name) = some p := by
          simp [target, hg, hlookup, hp]
        have hinFront : s.inFront info (.plug g name) = plugger.plugins.take i := by
          simp [inFront, hg, hlookup]
        obtain ⟨halive, hfront⟩ := hsound p htarget
        rw [hinFront] at hfront
        obtain ⟨t, hplug, hused⟩ := plug_plugin h hg hlookup hp halive hfront
        refine ⟨t.returns (some p), ?_, hused.invariant.returns, ?_,
          fun hy => hused.young (hy p htarget)⟩
        · simp [step, hplug]
        · rintro q hq
          obtain rfl := some.inj hq
          exact hused.pos
      | inr p =>
        have htarget : s.target info (.plug g name) = some p := by
          simp [target, hg, hlookup]
        obtain ⟨t, hplug, hinv, hpos, hyoung⟩ :=
          plugObject_spec h (hsound p htarget).1 hcontract false
        refine ⟨t.returns (some p), ?_, hinv.returns, ?_, fun hy => hyoung (hy p htarget)⟩
        · simp [step, plug, hg, hlookup, hplug]
        · rintro q hq
          obtain rfl := some.inj hq
          exact hpos

/-! ## Runs -/

theorem Invariant.sound (h : s.Invariant s.users) (hall : ∀ p, -maxAge ≤ s.state p) {op : Op P}
    (hyoung : s.Young info op) : s.Sound info op := by
  intro p hp
  refine ⟨hall p, fun q hq => hyoung p hp q ?_⟩
  rintro rfl
  cases op with
  | unplug p => cases hp
  | load g p => cases hq
  | plug g name =>
    cases hg : s.pluggers[g]? with
    | none => simp [inFront, hg] at hq
    | some plugger =>
      have hnodup := (h.opened plugger (mem_of_getElem? hg)).1
      cases hlookup : s.lookup info plugger name with
      | none => simp [inFront, hg, hlookup] at hq
      | some found =>
        cases found with
        | inr r => simp [inFront, hg, hlookup] at hq
        | inl i =>
          simp only [inFront, hg, hlookup] at hq
          simp only [target, hg, hlookup, bind_eq_bind, bind_some] at hp
          exact notMem_take_of_getElem? hnodup hp hq

theorem Invariant.good (h : s.Invariant s.users) (hresult : ∀ p ∈ s.result, 0 < s.state p) : s.Good where
  alternate := h.logged.alternate
  cleaned := h.logged.cleaned
  used p hp hmem := by
    have hneg := ((h.booked.unused p).mp hmem).2
    have hcount := h.booked.toNat p
    omega
  returned p hp := by
    have hpos := hresult p hp
    refine (h.logged.running p).mpr ⟨by omega, ?_⟩
    unfold maxAge
    omega

theorem Invariant.negativeOnce (h : s.Invariant s.users) (hall : ∀ p, -maxAge ≤ s.state p) :
    s.NegativeOnce := by
  intro p hneg
  have hmem := (h.booked.unused p).mpr ⟨hall p, hneg⟩
  exact count_eq_one_of_mem h.booked.nodup hmem

/-- In every run, the calls of `startup` and `cleanup` of a plugin alternate, no plugin is cleaned that has a
user, no plugin with a user is unused and a plugin that `plug` returns is started and not cleaned, when
`plug` finds no plugin that has been cleaned nor one behind a plugin that becomes too old.  The plugins
with a negative state are unused exactly once when no plugin becomes too old. -/
theorem plugins_run (info : P → PluginInfo) (statics : List P) (hooks : List (List Char))
    (ops : List (Op P)) :
    (Run.Meets (fun s op => s.Contract op ∧ s.Sound info op) (step info) (new statics hooks) ops →
      ∃ s, Run.exec (step info) (new statics hooks) ops = some s ∧ s.Good) ∧
    (Run.Meets (fun s op => s.Contract op ∧ s.Young info op) (step info) (new statics hooks) ops →
      ∃ s, Run.exec (step info) (new statics hooks) ops = some s ∧ s.Good ∧ s.NegativeOnce) := by
  have hnew : (new statics hooks : Plugins P).Invariant (new statics hooks : Plugins P).users :=
    invariant_new statics hooks
  constructor
  · intro hmeets
    obtain ⟨s, hexec, hinv, hresult⟩ := Run.exists_exec_of_meets
      (fun s : Plugins P => s.Invariant s.users ∧ ∀ p ∈ s.result, 0 < s.state p) (by
        rintro s op ⟨hs, -⟩ ⟨hcontract, hsound⟩
        obtain ⟨t, hstep, hreturned⟩ := step_spec hs hcontract hsound
        exact ⟨t, hstep, hreturned.invariant, hreturned.result⟩) ops _ ⟨hnew, fun p hp => (nomatch hp)⟩ hmeets
    exact ⟨s, hexec, hinv.good hresult⟩
  · intro hmeets
    obtain ⟨s, hexec, hinv, hresult, hall⟩ := Run.exists_exec_of_meets
      (fun s : Plugins P => s.Invariant s.users ∧ (∀ p ∈ s.result, 0 < s.state p) ∧
        ∀ p, -maxAge ≤ s.state p) (by
        rintro s op ⟨hs, -, hall⟩ ⟨hcontract, hyoung⟩
        obtain ⟨t, hstep, hreturned⟩ := step_spec hs hcontract (hs.sound hall hyoung)
        exact ⟨t, hstep, hreturned.invariant, hreturned.result, hreturned.young hyoung hall⟩) ops _
      ⟨hnew, fun p hp => (nomatch hp), fun _ => show -maxAge ≤ 0 by decide⟩ hmeets
    exact ⟨s, hexec, hinv.good hresult, hinv.negativeOnce hall⟩

/-- The plugins `false` and `true`, of the names `a` and `b`. -/
def pluginInfo (p : Bool) : PluginInfo := ⟨if p then ['b'] else ['a'], [], ['h']⟩

theorem plugins_run_reused :
    ∃ s, Run.exec (step pluginInfo) (new [false, true] [['h']])
        [.plug 0 ['a'], .unplug false, .plug 0 ['a']] = some s ∧
      s.Good ∧ s.NegativeOnce := by
  refine (plugins_run pluginInfo [false, true] [['h']] [.plug 0 ['a'], .unplug false, .plug 0 ['a']]).2 ?_
  refine Run.meets_cons ⟨by decide, fun p _ q _ hq => (nomatch hq.1)⟩ rfl ?_
  refine Run.meets_cons ⟨by decide, fun p hp => (nomatch hp)⟩ rfl ?_
  refine Run.meets_cons ⟨by decide, fun p hp q hq hold => hq ?_⟩ rfl trivial
  -- only the plugin that is plugged is unused
  have hunused : q = false := mem_singleton.mp hold.1
  have hplugged : false = p := some.inj hp
  exact hunused.trans hplugged

/-- A plugin becomes too old and is plugged again. -/
def cleanedPlugin : List (Op Bool) :=
  [.plug 0 ['b'], .plug 0 ['a'], .unplug false] ++ replicate 16 (.plug 0 ['b']) ++ [.plug 0 ['a']]

/-- The plugin is returned without a call of `startup` after its call of `cleanup`. -/
theorem not_plugins_run :
    ¬∀ (info : Bool → PluginInfo) (statics : List Bool) (hooks : List (List Char)) (ops : List (Op Bool)),
      Run.Meets Contract (step info) (new statics hooks) ops →
        ∃ s, Run.exec (step info) (new statics hooks) ops = some s ∧ s.Good ∧ s.NegativeOnce := by
  intro h
  obtain ⟨s, hexec, hgood, -⟩ := h pluginInfo [false, true] [['h']] cleanedPlugin (by decide)
  have hrun : (Run.exec (step pluginInfo) (new [false, true] [['h']]) cleanedPlugin).map
      (fun s => (s.result, s.events false)) = some (some false, [.startup, .cleanup]) := by decide
  rw [hexec, map_some, some.injEq, Prod.mk.injEq] at hrun
  have hrunning : s.Running false := hgood.returned false hrun.1
  unfold Running at hrunning
  rw [hrun.2] at hrunning
  cases hrunning

end Elm.Sys.Plugins
