import Elm.Xom.Events

/-!
# The number of steps of `Content::parse`

The number of steps only bounds the parse: with more steps a result stays the same.  So the rules of `Parses`
give the results of `parse`, and one result at most from each state.
-/

open Elm.Xom (Node)

namespace Elm.Dtd

namespace Outcome

variable {S α β : Type} {x y z : Outcome S α}

/-- An outcome that is not finished may become another one. -/
def Extends (x y : Outcome S α) : Prop := x = .unfinished ∨ x = y

theorem Extends.refl (x : Outcome S α) : Extends x x := Or.inr rfl

theorem Extends.trans (h : Extends x y) (h' : Extends y z) : Extends x z := by
  rcases h with h | rfl
  · exact Or.inl h
  · exact h'

theorem Extends.bind {f g : α → Outcome S β} (h : Extends x y) (hf : ∀ a, Extends (f a) (g a)) :
    Extends (x >>= f) (y >>= g) := by
  rcases h with rfl | rfl
  · exact Or.inl rfl
  · cases x with
    | returned a => exact hf a
    | raised exception s => exact Or.inr rfl
    | unfinished => exact Or.inl rfl

theorem Extends.returned {a : α} (h : Extends (.returned a) y) : y = .returned a := by
  rcases h with h | h
  · cases h
  · exact h.symm

end Outcome

namespace Definition

open Outcome

variable {E A V R : Type} [DecidableEq A] {d : Definition E A V R} {s t t' : Parser E A V R}
variable {con con1 con2 : Content E}

/-! ## One step -/

section Steps

omit [DecidableEq A]

theorem parseEmpty_ended (hnode : s.cur.node = none) (m n : Nat) :
    d.parseEmpty m (n + 1) s = .returned (true, s) := by
  simp only [parseEmpty, hnode]

theorem parseEmpty_node {node : Node} (hnode : s.cur.node = some node) (m n : Nat) : d.parseEmpty m (n + 1) s =
    if !Parser.isEmpty node then .returned (false, d.backtrack s m) else d.parseEmpty m n (d.next s) := by
  simp only [parseEmpty, hnode]

theorem parseAll_ended (hnode : s.cur.node = none) (any : Bool) (n : Nat) :
    d.parseAll any (n + 1) s = .returned (true, s) := by
  simp only [parseAll, hnode]

theorem parseAll_node {node : Node} (hnode : s.cur.node = some node) (any : Bool) (n : Nat) :
    d.parseAll any (n + 1) s = d.parseAll any n (d.next (if any then s.call (.getAny node) else s)) := by
  simp only [parseAll, hnode]

end Steps

/-- One step at an element of the name. -/
theorem parse_element {e : E} (hat : d.At s e) (n : Nat) :
    d.parse (n + 1) (.element e) s =
      d.parseAttributes (d.element e).attrs s >>= fun r =>
        if !r.1 then .returned (false, r.2)
        else
          d.parse n (d.element e).content (d.begin r.2 e) >>= fun r =>
            if !r.2.ended then .returned (false, d.endElement r.2.recordError false)
            else .returned (r.1, d.endElement r.2 r.1) := by
  obtain ⟨attributes, children, hnode⟩ := hat
  simp only [parse, hnode]
  exact if_neg fun hne => hne rfl

theorem parse_element_other {e : E} (hat : ¬d.At s e) (n : Nat) :
    d.parse (n + 1) (.element e) s = .returned (false, s) := by
  simp only [parse]
  split
  · rename_i name attributes children hnode
    refine if_pos fun hname => hat ⟨attributes, children, ?_⟩
    rw [hnode, hname]
  · rfl

theorem parse_optional (n : Nat) : d.parse (n + 1) (.optional con) s =
    if s.ended then .returned (true, s) else d.parse n con s >>= fun r => .returned (true, r.2) := rfl

theorem parse_alt (n : Nat) : d.parse (n + 1) (.alt con1 con2) s =
    d.parse n con1 s >>= fun r => if r.1 then .returned (true, r.2) else d.parse n con2 r.2 := rfl

theorem parse_seq (n : Nat) : d.parse (n + 1) (.seq con1 con2) s =
    if s.ended then .returned (false, s)
    else d.parse n con1 s >>= fun r =>
      if !r.1 then .returned (false, d.backtrack r.2 s.cur.i)
      else d.parse n con2 r.2 >>= fun r' =>
        if !r'.1 then .returned (false, d.backtrack r'.2 s.cur.i) else .returned (true, r'.2) := rfl

theorem parse_repeat (n : Nat) : d.parse (n + 1) (.repeat con) s =
    if s.ended then .returned (true, s)
    else d.parse n con s >>= fun r => if r.1 then d.parse n (.repeat con) r.2 else .returned (true, r.2) := rfl

/-! ## More steps -/

section Steps

omit [DecidableEq A]

theorem parseEmpty_extends (m n : Nat) (s : Parser E A V R) :
    Extends (d.parseEmpty m n s) (d.parseEmpty m (n + 1) s) := by
  induction n generalizing s with
  | zero => exact Or.inl rfl
  | succ n ih =>
    cases hnode : s.cur.node with
    | none =>
      rw [parseEmpty_ended hnode, parseEmpty_ended hnode]
      exact .refl _
    | some node =>
      rw [parseEmpty_node hnode, parseEmpty_node hnode]
      split
      · exact .refl _
      · exact ih _

theorem parseAll_extends (any : Bool) (n : Nat) (s : Parser E A V R) :
    Extends (d.parseAll any n s) (d.parseAll any (n + 1) s) := by
  induction n generalizing s with
  | zero => exact Or.inl rfl
  | succ n ih =>
    cases hnode : s.cur.node with
    | none =>
      rw [parseAll_ended hnode, parseAll_ended hnode]
      exact .refl _
    | some node =>
      rw [parseAll_node hnode, parseAll_node hnode]
      exact ih _

end Steps

/-- One more step. -/
theorem parse_extends (n : Nat) (con : Content E) (s : Parser E A V R) :
    Extends (d.parse n con s) (d.parse (n + 1) con s) := by
  induction n generalizing con s with
  | zero => exact Or.inl rfl
  | succ n ih =>
    cases con with
    | element e =>
      by_cases hat : d.At s e
      · rw [parse_element hat, parse_element hat]
        refine (Extends.refl _).bind fun r => ?_
        split
        · exact .refl _
        · exact (ih _ _).bind fun r => .refl _
      · rw [parse_element_other hat, parse_element_other hat]
        exact .refl _
    | optional con =>
      rw [parse_optional, parse_optional]
      split
      · exact .refl _
      · exact (ih _ _).bind fun r => .refl _
    | alt con1 con2 =>
      rw [parse_alt, parse_alt]
      refine (ih _ _).bind fun r => ?_
      split
      · exact .refl _
      · exact ih _ _
    | seq con1 con2 =>
      rw [parse_seq, parse_seq]
      split
      · exact .refl _
      · refine (ih _ _).bind fun r => ?_
        split
        · exact .refl _
        · exact (ih _ _).bind fun r' => .refl _
    | «repeat» con =>
      rw [parse_repeat, parse_repeat]
      split
      · exact .refl _
      · refine (ih _ _).bind fun r => ?_
        split
        · exact ih _ _
        · exact .refl _
    | empty => exact parseEmpty_extends _ _ _
    | ignored => exact parseAll_extends _ _ _
    | pcdata => exact .refl _
    | any => exact parseAll_extends _ _ _

theorem parse_le {n m : Nat} (hle : n ≤ m) (con : Content E) (s : Parser E A V R) :
    Extends (d.parse n con s) (d.parse m con s) := by
  induction m, hle using Nat.le_induction with
  | base => exact .refl _
  | succ m _ ih => exact ih.trans (parse_extends m con s)

/-- With more steps a result stays the same. -/
theorem parse_mono {n m : Nat} {b : Bool} (h : d.parse n con s = .returned (b, t)) (hle : n ≤ m) :
    d.parse m con s = .returned (b, t) := by
  have hextends := parse_le hle con s (d := d)
  rw [h] at hextends
  exact hextends.returned

/-! ## Results -/

/-- What the rules give is the result of `parse` in some number of steps. -/
theorem Parses.exists_parse {b : Bool} (h : d.Parses con s b t) : ∃ n, d.parse n con s = .returned (b, t) := by
  induction h with
  | element_other hat => exact ⟨1, parse_element_other hat 0⟩
  | element_rejected hat hattrs =>
    refine ⟨1, ?_⟩
    rw [parse_element hat, hattrs]
    rfl
  | element_left hat hattrs _ hended ih | element hat hattrs _ hended ih =>
    obtain ⟨n, hn⟩ := ih
    refine ⟨n + 1, ?_⟩
    rw [parse_element hat, hattrs, bind_returned]
    simp [hn, hended]
  | optional_ended hended =>
    refine ⟨1, ?_⟩
    rw [parse_optional, if_pos hended]
  | optional hended _ ih =>
    obtain ⟨n, hn⟩ := ih
    refine ⟨n + 1, ?_⟩
    rw [parse_optional, hn]
    simp [hended]
  | alt_first _ ih =>
    obtain ⟨n, hn⟩ := ih
    refine ⟨n + 1, ?_⟩
    rw [parse_alt, hn]
    rfl
  | alt_second _ _ ih1 ih2 =>
    obtain ⟨n, hn⟩ := ih1
    obtain ⟨m, hm⟩ := ih2
    refine ⟨max n m + 1, ?_⟩
    rw [parse_alt, parse_mono hn (le_max_left n m), bind_returned]
    exact parse_mono hm (le_max_right n m)
  | seq_ended hended =>
    refine ⟨1, ?_⟩
    rw [parse_seq, if_pos hended]
  | seq_first hended _ ih =>
    obtain ⟨n, hn⟩ := ih
    refine ⟨n + 1, ?_⟩
    rw [parse_seq, hn]
    simp [hended]
  | seq_second hended _ _ ih1 ih2 | seq hended _ _ ih1 ih2 =>
    obtain ⟨n, hn⟩ := ih1
    obtain ⟨m, hm⟩ := ih2
    refine ⟨max n m + 1, ?_⟩
    rw [parse_seq, parse_mono hn (le_max_left n m), bind_returned]
    simp [hended, parse_mono hm (le_max_right n m)]
  | repeat_ended hended =>
    refine ⟨1, ?_⟩
    rw [parse_repeat, if_pos hended]
  | repeat_stop hended _ ih =>
    obtain ⟨n, hn⟩ := ih
    refine ⟨n + 1, ?_⟩
    rw [parse_repeat, hn]
    simp [hended]
  | repeat_next hended _ _ ih1 ih2 =>
    obtain ⟨n, hn⟩ := ih1
    obtain ⟨m, hm⟩ := ih2
    refine ⟨max n m + 1, ?_⟩
    rw [parse_repeat, parse_mono hn (le_max_left n m), bind_returned]
    simp [hended, parse_mono hm (le_max_right n m)]
  | @empty s t n b hempty => exact ⟨n + 1, hempty⟩
  | @ignored s t n b hall => exact ⟨n + 1, hall⟩
  | pcdata => exact ⟨1, rfl⟩
  | @any s t n b hall => exact ⟨n + 1, hall⟩

/-- The rules are the results of `parse`. -/
theorem parses_iff {b : Bool} : d.Parses con s b t ↔ ∃ n, d.parse n con s = .returned (b, t) :=
  ⟨Parses.exists_parse, fun ⟨_, h⟩ => parses_of_parse h⟩

/-- There is one result at most. -/
theorem Parses.unique {b b' : Bool} (h : d.Parses con s b t) (h' : d.Parses con s b' t') : b = b' ∧ t = t' := by
  obtain ⟨n, hn⟩ := h.exists_parse
  obtain ⟨m, hm⟩ := h'.exists_parse
  have hmax := parse_mono hn (le_max_left n m)
  rw [parse_mono hm (le_max_right n m)] at hmax
  obtain ⟨hb, ht⟩ := Prod.mk.inj (Outcome.returned.inj hmax)
  exact ⟨hb.symm, ht.symm⟩

end Definition

end Elm.Dtd
