import Elm.Xom.Parses

/-!
# The calls of the factory

The calls of `begin`, `end` and `backtrack` that a parsing makes.  What the rules of `Parses` add to the calls
is well bracketed, and what the rules of an element add is opened by its `begin` and closed by the call that
its result tells.
-/

open Elm.Xom (Node)

namespace Elm.Dtd

open List

variable {E A V R : Type}

/-- The call opens or closes an element. -/
def Call.isBracket : Call E A R → Bool
  | .begin _ => true
  | .endElement _ => true
  | .backtrack _ => true
  | _ => false

/-- Each call of `begin` is closed by one call of `end` or `backtrack` for the same element, properly
nested. -/
inductive Balanced : List (Call E A R) → Prop
  | nil : Balanced []
  | other {c cs} (hc : c.isBracket = false) (hcs : Balanced cs) : Balanced (c :: cs)
  | element {e inner closing cs} (hinner : Balanced inner)
      (hclosing : closing = .endElement e ∨ closing = .backtrack e) (hcs : Balanced cs) :
      Balanced (.begin e :: (inner ++ closing :: cs))

theorem Balanced.append {cs cs' : List (Call E A R)} (h : Balanced cs) (h' : Balanced cs') :
    Balanced (cs ++ cs') := by
  induction h with
  | nil => exact h'
  | other hc _ ih => exact .other hc ih
  | element hinner hclosing _ _ ih =>
    rw [cons_append, append_assoc, cons_append]
    exact .element hinner hclosing ih

theorem balanced_of_forall {cs : List (Call E A R)} (h : ∀ c ∈ cs, c.isBracket = false) : Balanced cs := by
  induction cs with
  | nil => exact .nil
  | cons c cs ih => exact .other (h c mem_cons_self) (ih fun c' hc' => h c' (mem_cons_of_mem c hc'))

namespace Definition

variable [DecidableEq A] {d : Definition E A V R} {s t u : Parser E A V R}

omit [DecidableEq A] in
theorem Posted.balanced (h : Posted s t) : ∃ cs, t.calls = s.calls ++ cs ∧ Balanced cs := by
  obtain ⟨cs, hcs, hall⟩ := h.calls
  refine ⟨cs, hcs, balanced_of_forall fun c hc => ?_⟩
  rcases hall c hc with ⟨e, p, rfl⟩ | ⟨a, p, rfl⟩ | ⟨a, o, p, rfl⟩ <;> rfl

/-- The calls that `parse` of an element adds when it gives `b`: none when the element is not opened. -/
def Bracketed (s t : Parser E A V R) (e : E) (b : Bool) : Prop :=
  (t.calls = s.calls ∧ b = false) ∨
    ∃ inner, t.calls = s.calls ++ .begin e :: (inner ++ [if b then .endElement e else .backtrack e]) ∧
      Balanced inner

omit [DecidableEq A] in
theorem Bracketed.balanced {e : E} {b : Bool} (h : Bracketed s t e b) :
    ∃ cs, t.calls = s.calls ++ cs ∧ Balanced cs := by
  rcases h with ⟨hcalls, -⟩ | ⟨inner, hcalls, hinner⟩
  · exact ⟨[], by rw [hcalls, append_nil], .nil⟩
  · refine ⟨_, hcalls, .element hinner ?_ .nil⟩
    cases b with
    | true => exact Or.inl rfl
    | false => exact Or.inr rfl

omit [DecidableEq A] in
/-- The calls between the opening and the closing of an element. -/
theorem bracketed_of_content {e : E} {b : Bool} (hu : d.Scanned (d.begin t e) u)
    (hcalls : ∃ cs, u.calls = (d.begin t e).calls ++ cs ∧ Balanced cs) :
    Bracketed t (d.endElement u b) e b := by
  obtain ⟨hstack, helt, -, v, hposted, hv⟩ := begin_spec (d := d) t e
  obtain ⟨-, -, -, -, hend⟩ := endElement_spec (d := d) (s := u) (t := t) (hu.stack.trans hstack) b
  obtain ⟨posts, hposts, hbalanced⟩ := hposted.balanced
  obtain ⟨cs, hcs, hbalanced'⟩ := hcalls
  refine Or.inr ⟨posts ++ cs, ?_, hbalanced.append hbalanced'⟩
  rw [hend, hu.elt, helt, hcs, hv, hposts]
  simp [Parser.call]

/-- The calls of a content, and of an element. -/
theorem Parses.bracketed {con : Content E} {b : Bool} (h : d.Parses con s b t) :
    (∃ cs, t.calls = s.calls ++ cs ∧ Balanced cs) ∧ ∀ e, con = .element e → Bracketed s t e b := by
  have hnone : ∀ {s t : Parser E A V R}, t.calls = s.calls → ∃ cs, t.calls = s.calls ++ cs ∧ Balanced cs :=
    fun hcalls => ⟨[], by rw [hcalls, append_nil], .nil⟩
  have htrans : ∀ {s t u : Parser E A V R}, (∃ cs, t.calls = s.calls ++ cs ∧ Balanced cs) →
      (∃ cs, u.calls = t.calls ++ cs ∧ Balanced cs) → ∃ cs, u.calls = s.calls ++ cs ∧ Balanced cs := by
    rintro s t u ⟨cs, hcs, hbalanced⟩ ⟨cs', hcs', hbalanced'⟩
    exact ⟨cs ++ cs', by rw [hcs', hcs, append_assoc], hbalanced.append hbalanced'⟩
  induction h with
  | element_other => exact ⟨hnone rfl, fun _ _ => Or.inl ⟨rfl, rfl⟩⟩
  | element_rejected _ hattrs =>
    have hcalls := (attributed_parseAttributes hattrs).calls
    exact ⟨hnone hcalls, fun _ _ => Or.inl ⟨hcalls, rfl⟩⟩
  | @element_left e s t u b _ hattrs hcontent _ ih =>
    have hcalls := (attributed_parseAttributes hattrs).calls
    have hbracketed : Bracketed s (d.endElement u.recordError false) e false := by
      unfold Bracketed
      rw [← hcalls]
      have hscanned := hcontent.scanned
      have hsettled : d.Settled u.recordError ↔ d.Settled u := settled_congr rfl rfl
      exact bracketed_of_content (u := u.recordError)
        ⟨hscanned.stack, hscanned.elt, fun hs => hsettled.mpr (hscanned.settled hs)⟩ ih.1
    refine ⟨hbracketed.balanced, fun e' he => ?_⟩
    cases he
    exact hbracketed
  | @element e s t u b _ hattrs hcontent _ ih =>
    have hcalls := (attributed_parseAttributes hattrs).calls
    have hbracketed : Bracketed s (d.endElement u b) e b := by
      unfold Bracketed
      rw [← hcalls]
      exact bracketed_of_content hcontent.scanned ih.1
    refine ⟨hbracketed.balanced, fun e' he => ?_⟩
    cases he
    exact hbracketed
  | optional_ended => exact ⟨hnone rfl, fun _ he => (nomatch he)⟩
  | optional _ _ ih => exact ⟨ih.1, fun _ he => (nomatch he)⟩
  | alt_first _ ih => exact ⟨ih.1, fun _ he => (nomatch he)⟩
  | alt_second _ _ ih1 ih2 => exact ⟨htrans ih1.1 ih2.1, fun _ he => (nomatch he)⟩
  | seq_ended => exact ⟨hnone rfl, fun _ he => (nomatch he)⟩
  | seq_first _ _ ih =>
    exact ⟨htrans ih.1 (hnone (backtrack_calls _ _)), fun _ he => (nomatch he)⟩
  | seq_second _ _ _ ih1 ih2 =>
    exact ⟨htrans (htrans ih1.1 ih2.1) (hnone (backtrack_calls _ _)), fun _ he => (nomatch he)⟩
  | seq _ _ _ ih1 ih2 => exact ⟨htrans ih1.1 ih2.1, fun _ he => (nomatch he)⟩
  | repeat_ended => exact ⟨hnone rfl, fun _ he => (nomatch he)⟩
  | repeat_stop _ _ ih => exact ⟨ih.1, fun _ he => (nomatch he)⟩
  | repeat_next _ _ _ ih1 ih2 => exact ⟨htrans ih1.1 ih2.1, fun _ he => (nomatch he)⟩
  | empty hempty => exact ⟨hnone (parseEmpty_spec _ hempty).2.1, fun _ he => (nomatch he)⟩
  | ignored hall =>
    obtain ⟨-, -, cs, hcs, hany⟩ := parseAll_spec false hall
    refine ⟨⟨cs, hcs, balanced_of_forall fun c hc => ?_⟩, fun _ he => (nomatch he)⟩
    obtain ⟨node, rfl⟩ := hany c hc
    rfl
  | pcdata =>
    obtain ⟨-, -, cs, hcs, hdata⟩ := parsePCDATA_spec (d := d) _
    refine ⟨⟨cs, hcs, balanced_of_forall fun c hc => ?_⟩, fun _ he => (nomatch he)⟩
    obtain ⟨data, rfl⟩ := hdata c hc
    rfl
  | any hall =>
    obtain ⟨-, -, cs, hcs, hany⟩ := parseAll_spec true hall
    refine ⟨⟨cs, hcs, balanced_of_forall fun c hc => ?_⟩, fun _ he => (nomatch he)⟩
    obtain ⟨node, rfl⟩ := hany c hc
    rfl

/-! ## Exceptions -/

/-- Only the attributes with the flag `STRICT` raise an exception in `Content::parse`. -/
def Strict : Exception → Prop
  | .raise _ _ => True
  | .fail _ _ => False

theorem strict_of_parseAttributes : ∀ {as : List A} {s t : Parser E A V R} {x : Exception},
    d.parseAttributes as s = .raised x t → Strict x := by
  intro as
  induction as with
  | nil =>
    intro s t x h
    cases h
  | cons a as ih =>
    intro s t x h
    rcases Outcome.bind_eq_raised_iff.mp h with hattr | ⟨⟨accepted, s₁⟩, hattr, h⟩
    · unfold parseAttribute at hattr
      split at hattr
      · unfold process at hattr
        split at hattr
        · cases hattr
        · cases hattr
        · cases hattr
        · split at hattr
          · split at hattr
            · cases hattr
              trivial
            · cases hattr
          · cases hattr
        · split at hattr
          · cases hattr
          · dsimp only at hattr
            split at hattr
            · cases hattr
            · split at hattr
              · cases hattr
                trivial
              · cases hattr
      · cases hattr
    · cases accepted with
      | true => exact ih h
      | false => simp at h

omit [DecidableEq A] in
theorem parseEmpty_ne_raised (m : Nat) : ∀ {n : Nat} {s t : Parser E A V R} {x : Exception},
    d.parseEmpty m n s ≠ .raised x t := by
  intro n
  induction n with
  | zero =>
    intro s t x h
    cases h
  | succ n ih =>
    intro s t x h
    unfold parseEmpty at h
    split at h
    · cases h
    · split at h
      · cases h
      · exact ih h

omit [DecidableEq A] in
theorem parseAll_ne_raised (any : Bool) : ∀ {n : Nat} {s t : Parser E A V R} {x : Exception},
    d.parseAll any n s ≠ .raised x t := by
  intro n
  induction n with
  | zero =>
    intro s t x h
    cases h
  | succ n ih =>
    intro s t x h
    unfold parseAll at h
    split at h
    · cases h
    · exact ih h

theorem strict_of_parse : ∀ {n : Nat} {con : Content E} {s t : Parser E A V R} {x : Exception},
    d.parse n con s = .raised x t → Strict x := by
  intro n
  induction n with
  | zero =>
    intro con s t x h
    simp [parse] at h
  | succ n ih =>
    intro con s t x h
    cases con with
    | element e =>
      simp only [parse] at h
      split at h
      · split at h
        · simp at h
        · rcases Outcome.bind_eq_raised_iff.mp h with hattrs | ⟨⟨accepted, s₁⟩, -, h⟩
          · exact strict_of_parseAttributes hattrs
          · cases accepted with
            | false => simp at h
            | true =>
              rcases Outcome.bind_eq_raised_iff.mp h with hcontent | ⟨⟨success, s₂⟩, -, h⟩
              · exact ih hcontent
              · dsimp only at h
                split at h <;> simp at h
      · simp at h
    | optional con =>
      simp only [parse] at h
      split at h
      · simp at h
      · rcases Outcome.bind_eq_raised_iff.mp h with hcon | ⟨r, -, h⟩
        · exact ih hcon
        · simp at h
    | alt con1 con2 =>
      rcases Outcome.bind_eq_raised_iff.mp h with hcon1 | ⟨⟨success, s₁⟩, -, h⟩
      · exact ih hcon1
      · cases success with
        | true => simp at h
        | false => exact ih h
    | seq con1 con2 =>
      simp only [parse] at h
      split at h
      · simp at h
      · rcases Outcome.bind_eq_raised_iff.mp h with hcon1 | ⟨⟨success, s₁⟩, -, h⟩
        · exact ih hcon1
        · cases success with
          | false => simp at h
          | true =>
            rcases Outcome.bind_eq_raised_iff.mp h with hcon2 | ⟨⟨success, s₂⟩, -, h⟩
            · exact ih hcon2
            · cases success <;> simp at h
    | «repeat» con =>
      simp only [parse] at h
      split at h
      · simp at h
      · rcases Outcome.bind_eq_raised_iff.mp h with hcon | ⟨⟨success, s₁⟩, -, h⟩
        · exact ih hcon
        · cases success with
          | true => exact ih h
          | false => simp at h
    | empty => exact absurd h (parseEmpty_ne_raised _)
    | ignored => exact absurd h (parseAll_ne_raised _)
    | pcdata => simp [parse] at h
    | any => exact absurd h (parseAll_ne_raised _)

/-! ## Documents -/

/-- The functions `reset` call no function of the factory. -/
theorem calls_foldl_reset : ∀ (as : List A) (s : Parser E A V R), (as.foldl d.reset s).calls = s.calls := by
  intro as
  induction as with
  | nil => exact fun _ => rfl
  | cons a as ih => exact fun s => ih (d.reset s a)

theorem calls_resetContent : ∀ {n : Nat} {con : Content E} {s : Parser E A V R},
    (∀ t, d.resetContent n con s = .returned t → t.calls = s.calls) ∧
      ∀ x t, d.resetContent n con s ≠ .raised x t := by
  intro n
  induction n with
  | zero =>
    intro con s
    exact ⟨fun t h => by simp [resetContent] at h, fun x t h => by simp [resetContent] at h⟩
  | succ n ih =>
    intro con s
    have hboth : ∀ (con1 con2 : Content E),
        (∀ t, (d.resetContent n con1 s >>= fun s => d.resetContent n con2 s) = .returned t →
          t.calls = s.calls) ∧
        ∀ x t, (d.resetContent n con1 s >>= fun s => d.resetContent n con2 s) ≠ .raised x t := by
      intro con1 con2
      constructor
      · intro t h
        obtain ⟨s₁, h1, h2⟩ := Outcome.bind_eq_returned_iff.mp h
        exact (ih.1 t h2).trans (ih.1 s₁ h1)
      · intro x t h
        rcases Outcome.bind_eq_raised_iff.mp h with h1 | ⟨s₁, -, h2⟩
        · exact ih.2 x t h1
        · exact ih.2 x t h2
    cases con with
    | element e =>
      exact ⟨fun t h => (ih.1 t h).trans (calls_foldl_reset _ s), fun x t h => ih.2 x t h⟩
    | optional con => exact ⟨fun t h => ih.1 t h, fun x t h => ih.2 x t h⟩
    | alt con1 con2 => exact hboth con1 con2
    | seq con1 con2 => exact hboth con1 con2
    | «repeat» con => exact ⟨fun t h => ih.1 t h, fun x t h => ih.2 x t h⟩
    | _ =>
      refine ⟨fun t h => ?_, fun x t h => by simp [resetContent] at h⟩
      obtain rfl : s = t := by simpa [resetContent] using h
      rfl

theorem balanced_of_parseDocument {n : Nat} {root : E} {xelt : Node}
    (h : d.parseDocument n root xelt s = .returned t ∨
      ∃ x, ¬Strict x ∧ d.parseDocument n root xelt s = .raised x t) :
    ∃ cs, t.calls = s.calls ++ cs ∧ Balanced cs := by
  -- the state at the end of `parse` of the root is the last one
  have hparsed : ∃ s₁ s₂ b, d.resetContent n (.element root) { s with patches := ∅, posts := [] } =
        .returned s₁ ∧
      d.parse n (.element root) { s₁ with cur := ⟨0, root, some xelt⟩, lastError := some xelt } =
        .returned (b, s₂) ∧ t = s₂ := by
    rcases h with h | ⟨x, hx, h⟩
    · obtain ⟨s₁, hreset, h⟩ := Outcome.bind_eq_returned_iff.mp h
      obtain ⟨⟨b, s₂⟩, hparse, h⟩ := Outcome.bind_eq_returned_iff.mp h
      refine ⟨s₁, s₂, b, hreset, hparse, ?_⟩
      dsimp only at h
      split at h
      · cases h
      · split at h
        · cases h
          rfl
        · cases h
    · rcases Outcome.bind_eq_raised_iff.mp h with hreset | ⟨s₁, hreset, h⟩
      · exact absurd hreset (calls_resetContent.2 x t)
      · rcases Outcome.bind_eq_raised_iff.mp h with hparse | ⟨⟨b, s₂⟩, hparse, h⟩
        · exact absurd (strict_of_parse hparse) hx
        · refine ⟨s₁, s₂, b, hreset, hparse, ?_⟩
          dsimp only at h
          split at h
          · cases h
            rfl
          · split at h
            · cases h
            · cases h
              rfl
  obtain ⟨s₁, s₂, b, hreset, hparse, rfl⟩ := hparsed
  obtain ⟨⟨cs, hcs, hbalanced⟩, -⟩ := (parses_of_parse hparse).bracketed
  have hcalls := (calls_resetContent (n := n)).1 s₁ hreset
  exact ⟨cs, hcs.trans (congrArg (· ++ cs) hcalls), hbalanced⟩

/-- In a parsing that no attribute with the flag `STRICT` stops, the calls of `begin`, `end` and `backtrack`
are well bracketed, and each `parse` of an element either makes none and returns false, or makes the opening
call first and the closing call last: `end` when it returns true and `backtrack` when it returns false. -/
theorem calls_balanced (d : Definition E A V R) (n : Nat) :
    (∀ (root : E) (xelt : Node) (attr : A → AttributeState V R) (t : Parser E A V R),
      (d.parseElement n root xelt attr = .returned t ∨
        ∃ x, ¬Strict x ∧ d.parseElement n root xelt attr = .raised x t) → Balanced t.calls) ∧
    ∀ (e : E) (s t : Parser E A V R) (b : Bool), d.parse n (.element e) s = .returned (b, t) →
      Bracketed s t e b := by
  constructor
  · intro root xelt attr t h
    obtain ⟨cs, hcs, hbalanced⟩ := balanced_of_parseDocument h
    rw [hcs]
    exact hbalanced
  · intro e s t b h
    exact (parses_of_parse h).bracketed.2 e rfl

/-- The second child is missing: the element is opened and left. -/
theorem calls_balanced_pair :
    ∃ x t, pair.parseElement 5 0 (.element ['0'] [] [.element ['1'] [] []]) (fun a => nomatch a) =
        .raised x t ∧ ¬Strict x ∧ t.calls = [.begin 0, .begin 1, .endElement 1, .backtrack 0] ∧
        Balanced t.calls := by
  have hraised : ∃ x t, pair.parseElement 5 0 (.element ['0'] [] [.element ['1'] [] []])
      (fun a => nomatch a) = .raised x t ∧ ¬Strict x ∧
        t.calls = [.begin 0, .begin 1, .endElement 1, .backtrack 0] := ⟨_, _, rfl, id, rfl⟩
  obtain ⟨x, t, hparse, hx, hcalls⟩ := hraised
  exact ⟨x, t, hparse, hx, hcalls, (calls_balanced pair 5).1 0 _ _ t (Or.inr ⟨x, hx, hparse⟩)⟩

end Definition

end Elm.Dtd
