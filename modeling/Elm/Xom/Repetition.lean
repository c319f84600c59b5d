import Elm.Xom.Steps

/-!
# The end of `Repeat::parse`

The loop of a repetition stops at the end of the children or when its content is not recognized.  It does not end when
the content is recognized again and again without passing a child, and this is the only case where `Content::parse` does
not end.
-/

open Elm.Xom (Node)

namespace Elm.Dtd.Definition

open Outcome

variable {E A V R : Type} [DecidableEq A] {d : Definition E A V R} {s t u : Parser E A V R}

/-! ## What a content passes -/

section Position

omit [DecidableEq A]

theorem ended_eq_false {node : Node} (h : s.cur.node = some node) : s.ended = false := by
  rw [Parser.ended, h]
  rfl

theorem le_setNode_i (s : Parser E A V R) : s.cur.i ≤ (d.setNode s).cur.i := by
  unfold setNode
  cases s.parent with
  | none => exact le_rfl
  | some parent => exact Nat.le_add_right _ _

theorem lt_next_i (s : Parser E A V R) : s.cur.i < (d.next s).cur.i :=
  @le_setNode_i _ _ _ _ d { s with cur := { s.cur with i := s.cur.i + 1 } }

/-- The position after an element that is recognized. -/
theorem lt_endElement_i {context : Context E} {stack : List (Context E)} (h : s.stack = context :: stack) :
    context.i < (d.endElement s true).cur.i := by
  rw [endElement, h]
  exact lt_next_i (({ s with cur := context, stack := stack } : Parser E A V R).call (.endElement s.cur.elt))

/-- Two settled positions of the same children. -/
theorem cur_eq_of_i_eq (hs : d.Settled s) (ht : d.Settled t) (h : d.Scanned s t) (hi : t.cur.i = s.cur.i) :
    t.cur = s.cur := by
  calc
    t.cur = (d.setNode t).cur := Eq.symm ht
    _ = (d.setNode s).cur := setNode_cur_congr h.stack hi h.elt
    _ = s.cur := hs

/-- `EmptyContent` goes to the end, when it is recognized. -/
theorem parseEmpty_le {m n : Nat} (h : d.parseEmpty m n s = .returned (true, t)) : s.cur.i ≤ t.cur.i := by
  induction n generalizing s with
  | zero => cases h
  | succ n ih =>
    cases hnode : s.cur.node with
    | none =>
      rw [parseEmpty_ended hnode] at h
      cases h
      exact le_rfl
    | some node =>
      rw [parseEmpty_node hnode] at h
      split at h
      · cases h
      · exact le_trans (le_of_lt (lt_next_i s)) (ih h)

/-- `IgnoredContent` and `AnyContent` go to the end. -/
theorem parseAll_le {any : Bool} {n : Nat} {b : Bool} (h : d.parseAll any n s = .returned (b, t)) :
    s.cur.i ≤ t.cur.i := by
  induction n generalizing s with
  | zero => cases h
  | succ n ih =>
    cases hnode : s.cur.node with
    | none =>
      rw [parseAll_ended hnode] at h
      cases h
      exact le_rfl
    | some node =>
      rw [parseAll_node hnode] at h
      have hnext : s.cur.i < (d.next (if any then s.call (.getAny node) else s)).cur.i := by
        cases any with
        | true => exact lt_next_i (s.call (.getAny node))
        | false => exact lt_next_i s
      exact le_trans (le_of_lt hnext) (ih h)

end Position

/-- A content goes to a later position, or stays. -/
theorem Parses.le {con : Content E} {b : Bool} (h : d.Parses con s b t) (hs : d.Settled s) :
    s.cur.i ≤ t.cur.i := by
  by_cases hb : b = false
  · rw [h.cur_of_false (.inl hs) hb]
  · induction h with
    | element_other | element_rejected | element_left | seq_ended | seq_first | seq_second => exact absurd rfl hb
    | @element e s t u b _ hattrs hcontent _ _ =>
      have hattr := attributed_parseAttributes hattrs
      obtain rfl : b = true := by simpa using hb
      have hstack : u.stack = t.cur :: t.stack := hcontent.scanned.stack.trans (begin_spec t e).1
      rw [← hattr.cur]
      exact le_of_lt (lt_endElement_i hstack)
    | optional_ended | repeat_ended => exact le_rfl
    | @optional con s t b _ hcon ih =>
      cases b with
      | true => exact ih hs (by decide)
      | false => rw [hcon.cur_of_false (.inl hs) rfl]
    | alt_first _ ih => exact ih hs (by decide)
    | alt_second hcon1 _ _ ih2 =>
      have hle := ih2 (hcon1.scanned.settled hs) hb
      rwa [hcon1.cur_of_false (.inl hs) rfl] at hle
    | seq _ hcon1 _ ih1 ih2 => exact le_trans (ih1 hs (by decide)) (ih2 (hcon1.scanned.settled hs) (by decide))
    | repeat_stop _ hcon _ => rw [hcon.cur_of_false (.inl hs) rfl]
    | repeat_next _ hcon _ ih1 ih2 => exact le_trans (ih1 hs (by decide)) (ih2 (hcon.scanned.settled hs) hb)
    | @empty s t n b hempty =>
      obtain rfl : b = true := by simpa using hb
      exact parseEmpty_le hempty
    | ignored hall | any hall => exact parseAll_le hall
    | @pcdata s =>
      unfold parsePCDATA
      split
      · exact le_rfl
      · rename_i data _
        exact le_of_lt (lt_next_i (s.call (.getPCDATA data)))
      · exact le_rfl

/-! ## The turns of the repetitions -/

/-- The parsing of a content comes to a turn of a repetition of another one. -/
inductive TurnAt (d : Definition E A V R) : Content E → Parser E A V R → Content E → Parser E A V R → Prop
  | here {con s} : TurnAt d (.repeat con) s con s
  | element {e con s t u} (hat : d.At s e) (hattrs : d.parseAttributes (d.element e).attrs s = .returned (true, t))
      (h : TurnAt d (d.element e).content (d.begin t e) con u) : TurnAt d (.element e) s con u
  | optional {con con' s t} (hended : s.ended = false) (h : TurnAt d con s con' t) : TurnAt d (.optional con) s con' t
  | alt_first {con1 con2 con s t} (h : TurnAt d con1 s con t) : TurnAt d (.alt con1 con2) s con t
  | alt_second {con1 con2 con s s' t} (hcon1 : d.Parses con1 s false s') (h : TurnAt d con2 s' con t) :
      TurnAt d (.alt con1 con2) s con t
  | seq_first {con1 con2 con s t} (hended : s.ended = false) (h : TurnAt d con1 s con t) :
      TurnAt d (.seq con1 con2) s con t
  | seq_second {con1 con2 con s s' t} (hended : s.ended = false) (hcon1 : d.Parses con1 s true s')
      (h : TurnAt d con2 s' con t) : TurnAt d (.seq con1 con2) s con t
  | repeat_first {con con' s t} (hended : s.ended = false) (h : TurnAt d con s con' t) :
      TurnAt d (.repeat con) s con' t
  | repeat_next {con con' s s' t} (hended : s.ended = false) (hcon : d.Parses con s true s')
      (h : TurnAt d (.repeat con) s' con' t) : TurnAt d (.repeat con) s con' t

/-- In the next turns of a repetition, before a child, the content is recognized and does not pass the child. -/
inductive Stays (d : Definition E A V R) (con : Content E) : Nat → Parser E A V R → Prop
  | zero {s : Parser E A V R} : Stays d con 0 s
  | succ {k s t} (hended : s.ended = false) (hcon : d.Parses con s true t) (hcur : t.cur = s.cur)
      (h : Stays d con k t) : Stays d con (k + 1) s

/-- From no turn of the parsing, the turns that follow stay for ever. -/
def Progresses (d : Definition E A V R) (con : Content E) (s : Parser E A V R) : Prop :=
  ∀ con' t, d.TurnAt con s con' t → ∃ k, ¬d.Stays con' k t

/-- A turn that leaves the parser as it was is followed by the same one. -/
theorem stays_of_parses_self {con : Content E} (hended : s.ended = false) (h : d.Parses con s true s) (k : Nat) :
    d.Stays con k s := by
  induction k with
  | zero => exact .zero
  | succ k ih => exact .succ hended h rfl ih

/-- A number of steps is enough for a result, or too small. -/
theorem Parses.parse_cases {con : Content E} {b : Bool} (h : d.Parses con s b t) (n : Nat) :
    d.parse n con s = .unfinished ∨ d.parse n con s = .returned (b, t) := by
  obtain ⟨m, hm⟩ := h.exists_parse
  rw [← parse_mono hm (le_max_right n m)]
  exact parse_le (le_max_left n m) con s

/-- A repetition whose turns stay for ever does not end. -/
theorem parse_repeat_unfinished {con : Content E} (h : ∀ k, d.Stays con k s) (n : Nat) :
    d.parse n (.repeat con) s = .unfinished := by
  induction n generalizing s with
  | zero => rfl
  | succ n ih =>
    cases h 1 with
    | succ hended hcon hcur _ =>
      rw [parse_repeat, if_neg (by rw [hended]; decide)]
      rcases hcon.parse_cases n with hparse | hparse
      · rw [hparse]
        rfl
      · rw [hparse]
        refine ih fun k => ?_
        -- the turn has one result
        cases h (k + 1) with
        | succ _ hcon' _ hrest => exact (hcon'.unique hcon).2 ▸ hrest

/-- Neither does a content whose parsing comes to such a turn. -/
theorem TurnAt.unfinished {con con' : Content E} (h : d.TurnAt con s con' t) (hstays : ∀ k, d.Stays con' k t) (n : Nat) :
    d.parse n con s = .unfinished := by
  induction h generalizing n with
  | here => exact parse_repeat_unfinished hstays n
  | element hat hattrs _ ih =>
    cases n with
    | zero => rfl
    | succ n =>
      rw [parse_element hat, hattrs, bind_returned]
      simp only [Bool.not_true, Bool.false_eq_true, if_false, ih hstays n]
      rfl
  | optional hended _ ih =>
    cases n with
    | zero => rfl
    | succ n =>
      rw [parse_optional, if_neg (by rw [hended]; decide), ih hstays n]
      rfl
  | alt_first _ ih =>
    cases n with
    | zero => rfl
    | succ n =>
      rw [parse_alt, ih hstays n]
      rfl
  | alt_second hcon1 _ ih =>
    cases n with
    | zero => rfl
    | succ n =>
      rw [parse_alt]
      rcases hcon1.parse_cases n with hparse | hparse
      · rw [hparse]
        rfl
      · rw [hparse]
        exact ih hstays n
  | seq_first hended _ ih =>
    cases n with
    | zero => rfl
    | succ n =>
      rw [parse_seq, if_neg (by rw [hended]; decide), ih hstays n]
      rfl
  | seq_second hended hcon1 _ ih =>
    cases n with
    | zero => rfl
    | succ n =>
      rw [parse_seq, if_neg (by rw [hended]; decide)]
      rcases hcon1.parse_cases n with hparse | hparse
      · rw [hparse]
        rfl
      · rw [hparse, bind_returned]
        simp only [Bool.not_true, Bool.false_eq_true, if_false, ih hstays n]
        rfl
  | repeat_first hended _ ih =>
    cases n with
    | zero => rfl
    | succ n =>
      rw [parse_repeat, if_neg (by rw [hended]; decide), ih hstays n]
      rfl
  | repeat_next hended hcon _ ih =>
    cases n with
    | zero => rfl
    | succ n =>
      rw [parse_repeat, if_neg (by rw [hended]; decide)]
      rcases hcon.parse_cases n with hparse | hparse
      · rw [hparse]
        rfl
      · rw [hparse]
        exact ih hstays n

/-! ## The end of the parsing -/

/-- From a number of steps on, there is one result. -/
def Ends {S α : Type} (f : Nat → Outcome S α) : Prop := ∃ N r, r ≠ .unfinished ∧ ∀ n, N ≤ n → f n = r

section Ends

variable {S α β : Type}

theorem ends_const {r : Outcome S α} (h : r ≠ .unfinished) : Ends fun _ => r := ⟨0, r, h, fun _ _ => rfl⟩

theorem ends_returned (a : α) : Ends fun _ => (.returned a : Outcome S α) := ends_const fun h => (by cases h)

theorem ends_of_succ {f g : Nat → Outcome S α} (h : Ends g) (hf : ∀ n, f (n + 1) = g n) : Ends f := by
  obtain ⟨N, r, hr, hg⟩ := h
  refine ⟨N + 1, r, hr, fun n hn => ?_⟩
  obtain ⟨k, rfl⟩ := Nat.exists_eq_add_of_le hn
  rw [Nat.add_right_comm, hf]
  exact hg _ (Nat.le_add_right N k)

theorem Ends.bind {f : Nat → Outcome S α} {g : Nat → α → Outcome S β} (h : Ends f)
    (hg : ∀ a n, f n = .returned a → Ends fun n => g n a) : Ends fun n => f n >>= g n := by
  obtain ⟨N, r, hr, hf⟩ := h
  cases r with
  | returned a =>
    obtain ⟨M, r, hr, hgr⟩ := hg a N (hf N le_rfl)
    refine ⟨max N M, r, hr, fun n hn => ?_⟩
    have hn1 := hf n (le_trans (le_max_left N M) hn)
    have hn2 := hgr n (le_trans (le_max_right N M) hn)
    show (f n >>= g n) = r
    rw [hn1]
    exact hn2
  | raised exception t =>
    refine ⟨N, .raised exception t, fun h => (by cases h), fun n hn => ?_⟩
    show (f n >>= g n) = .raised exception t
    rw [hf n hn]
    rfl
  | unfinished => exact absurd rfl hr

end Ends

section Position

omit [DecidableEq A]

/-- The number of children from the position on. -/
def remaining (s : Parser E A V R) : Nat := (s.parent.elim [] Node.children).length - s.cur.i

/-- The number of nodes in the parent. -/
def nodes (s : Parser E A V R) : Nat := s.parent.elim 0 fun parent => parent.descendants.length

theorem nodes_congr (h : t.stack = s.stack) : nodes t = nodes s := by
  rw [nodes, nodes, Parser.parent, Parser.parent, h]

/-- A child is below the parent. -/
theorem exists_parent (hs : d.Settled s) {node : Node} (hnode : s.cur.node = some node) :
    ∃ parent, s.parent = some parent ∧ parent.children[s.cur.i]? = some node := by
  unfold Settled setNode at hs
  cases hparent : s.parent with
  | none =>
    rw [hparent] at hs
    have hnone : none = s.cur.node := congrArg Context.node hs
    rw [hnode] at hnone
    cases hnone
  | some parent =>
    rw [hparent] at hs
    have hi := congrArg Context.i hs
    have hget := congrArg Context.node hs
    dsimp only at hi hget
    rw [hi, hnode] at hget
    exact ⟨parent, rfl, hget⟩

theorem remaining_pos (hs : d.Settled s) (hended : s.ended = false) : 0 < remaining s := by
  cases hnode : s.cur.node with
  | none =>
    rw [Parser.ended, hnode] at hended
    cases hended
  | some node =>
    obtain ⟨parent, hparent, hget⟩ := exists_parent hs hnode
    obtain ⟨hlt, -⟩ := List.getElem?_eq_some_iff.mp hget
    rw [remaining, hparent]
    exact Nat.sub_pos_of_lt hlt

theorem remaining_le (h : t.stack = s.stack) (hi : s.cur.i ≤ t.cur.i) : remaining t ≤ remaining s := by
  rw [remaining, remaining, Parser.parent, Parser.parent, h]
  exact Nat.sub_le_sub_left hi _

theorem remaining_lt (hs : d.Settled s) (hended : s.ended = false) (h : t.stack = s.stack)
    (hi : s.cur.i < t.cur.i) : remaining t < remaining s := by
  have hpos := remaining_pos hs hended
  rw [remaining] at hpos
  rw [remaining, remaining, Parser.parent, Parser.parent, h]
  exact Nat.sub_lt_sub_left (Nat.lt_of_sub_pos hpos) hi

/-- The content of an element is parsed below it. -/
theorem nodes_begin (hs : d.Settled s) (hcur : t.cur = s.cur) {e : E}
    (hat : d.At s e) : nodes (d.begin t e) < nodes s := by
  obtain ⟨attributes, children, hnode⟩ := hat
  obtain ⟨parent, hparent, hget⟩ := exists_parent hs hnode
  have hmem := List.mem_of_getElem? hget
  have hbegin : (d.begin t e).parent = s.cur.node := by
    rw [Parser.parent, (begin_spec t e).1, hcur]
    rfl
  rw [nodes, nodes, hbegin, hnode, hparent]
  show (Node.descendants _).length < parent.descendants.length
  rw [Node.length_descendants parent]
  exact Nat.lt_succ_of_le (Node.length_descendants_le hmem)

/-- The loops over the children end. -/
theorem ends_parseEmpty (m : Nat) (hs : d.Settled s) : Ends fun n => d.parseEmpty m n s := by
  induction hk : remaining s using Nat.strong_induction_on generalizing s with
  | _ k ih =>
    cases hnode : s.cur.node with
    | none =>
      refine ends_of_succ (ends_returned (true, s)) fun n => ?_
      rw [parseEmpty, hnode]
    | some node =>
      by_cases hempty : Parser.isEmpty node
      · have hended := ended_eq_false hnode
        have hlt := remaining_lt hs hended (next_stack (d := d) s) (lt_next_i s)
        refine ends_of_succ (ih _ (by omega) (settled_next s) rfl) fun n => ?_
        rw [parseEmpty, hnode]
        exact if_neg (by rw [hempty]; decide)
      · refine ends_of_succ (ends_returned (false, d.backtrack s m)) fun n => ?_
        rw [parseEmpty, hnode]
        exact if_pos (by simpa using hempty)

theorem ends_parseAll (any : Bool) (hs : d.Settled s) : Ends fun n => d.parseAll any n s := by
  induction hk : remaining s using Nat.strong_induction_on generalizing s with
  | _ k ih =>
    cases hnode : s.cur.node with
    | none =>
      refine ends_of_succ (ends_returned (true, s)) fun n => ?_
      rw [parseAll, hnode]
    | some node =>
      have hended := ended_eq_false hnode
      have hlt : remaining (d.next (if any then s.call (.getAny node) else s)) < remaining s := by
        apply remaining_lt hs hended
        · rw [next_stack]
          cases any <;> rfl
        · cases any with
          | true => exact lt_next_i (s.call (.getAny node))
          | false => exact lt_next_i s
      have hnext := settled_next (d := d) (if any then s.call (.getAny node) else s)
      refine ends_of_succ (ih _ (lt_of_lt_of_eq hlt hk) hnext rfl) fun n => ?_
      rw [parseAll, hnode]

end Position

theorem parseAttribute_ne_unfinished (s : Parser E A V R) (a : A) : d.parseAttribute s a ≠ .unfinished := by
  unfold parseAttribute process raise
  intro h
  split at h
  · split at h
    · cases h
    · cases h
    · cases h
    · split at h
      · split at h <;> cases h
      · cases h
    · split at h
      · cases h
      · dsimp only at h
        split at h
        · cases h
        · split at h <;> cases h
  · cases h

theorem parseAttributes_ne_unfinished (as : List A) (s : Parser E A V R) : d.parseAttributes as s ≠ .unfinished := by
  induction as generalizing s with
  | nil => exact fun h => (by cases h)
  | cons a as ih =>
    intro h
    rw [parseAttributes] at h
    cases hattr : d.parseAttribute s a with
    | returned r =>
      obtain ⟨accepted, t⟩ := r
      rw [hattr] at h
      cases accepted with
      | true => exact ih t h
      | false => cases h
    | raised exception t =>
      rw [hattr] at h
      cases h
    | unfinished => exact parseAttribute_ne_unfinished s a hattr

/-- A content whose turns pass a child in the end is parsed to the end: the nodes of the parent decrease in the content
of an element, the children that remain when a turn passes one, and the turns that stay are not endless. -/
theorem ends_parse {con : Content E} (hs : d.Settled s) (hcon : d.Progresses con s) :
    Ends fun n => d.parse n con s := by
  -- the content of an element may be larger than what names it, but it is parsed below a smaller node
  induction hsize : nodes s using Nat.strong_induction_on generalizing con s with
  | _ size ihsize =>
    -- the next turn of a repetition is about the same content
    induction hrest : remaining s using Nat.strong_induction_on generalizing con s with
    | _ rest ihrest =>
      -- a part of `con` that follows another one starts where that one has left the children
      have hlater : ∀ {con : Content E} {s t : Parser E A V R}, nodes s = size → remaining s = rest → d.Settled s →
          d.Scanned s t → s.cur.i ≤ t.cur.i → d.Progresses con t →
            (d.Settled t → nodes t = size → remaining t = rest → Ends fun n => d.parse n con t) →
              Ends fun n => d.parse n con t := by
        intro con s t hsize hrest hs hscanned hle hcon ih
        have ht := hscanned.settled hs
        have hnodes := (nodes_congr hscanned.stack).trans hsize
        rcases Nat.lt_or_eq_of_le (le_of_le_of_eq (remaining_le hscanned.stack hle) hrest) with hlt | heq
        · exact ihrest _ hlt ht hcon hnodes rfl
        · exact ih ht hnodes heq
      induction con generalizing s with
      | element e =>
        by_cases hat : d.At s e
        · refine ends_of_succ ((ends_const (parseAttributes_ne_unfinished _ s)).bind ?_) (parse_element hat)
          rintro ⟨accepted, t⟩ - hattrs
          cases accepted with
          | false => exact ends_returned _
          | true =>
            -- `begin` puts the parser before the first child of the element
            have hattr := attributed_parseAttributes hattrs
            have hcontent := ihsize _ (lt_of_lt_of_eq (nodes_begin hs hattr.cur hat) hsize) (begin_spec t e).2.2.1
              (fun con' u h => hcon con' u (.element hat hattrs h)) rfl
            refine hcontent.bind ?_
            rintro ⟨success, u⟩ - -
            cases hended : u.ended with
            | false => exact ends_returned _
            | true => exact ends_returned _
        · exact ends_of_succ (ends_returned _) (parse_element_other hat)
      | optional con ih =>
        by_cases hended : s.ended
        · refine ends_of_succ (ends_returned (true, s)) fun n => ?_
          rw [parse_optional, if_pos hended]
        · have hnot : s.ended = false := by simpa using hended
          have hends := ih hs (fun con' t h => hcon con' t (.optional hnot h)) hsize hrest
          refine ends_of_succ (hends.bind (g := fun n r => .returned (true, r.2)) fun r n _ => ends_returned _)
            fun n => ?_
          rw [parse_optional, if_neg hended]
      | alt con1 con2 ih1 ih2 =>
        refine ends_of_succ ((ih1 hs (fun con' t h => hcon con' t (.alt_first h)) hsize hrest).bind
          (g := fun n r => if r.1 then .returned (true, r.2) else d.parse n con2 r.2) ?_) fun n => rfl
        rintro ⟨b, t⟩ n hparse
        have hparses := parses_of_parse hparse
        cases b with
        | true => exact ends_returned (true, t)
        | false =>
          have hcon2 : d.Progresses con2 t := fun con' u h => hcon con' u (.alt_second hparses h)
          exact hlater hsize hrest hs hparses.scanned (hparses.le hs) hcon2 fun ht => ih2 ht hcon2
      | seq con1 con2 ih1 ih2 =>
        by_cases hended : s.ended
        · refine ends_of_succ (ends_returned (false, s)) fun n => ?_
          rw [parse_seq, if_pos hended]
        · have hnot : s.ended = false := by simpa using hended
          refine ends_of_succ ((ih1 hs (fun con' t h => hcon con' t (.seq_first hnot h)) hsize hrest).bind
            (g := fun n r =>
              if !r.1 then .returned (false, d.backtrack r.2 s.cur.i)
              else
                d.parse n con2 r.2 >>= fun r =>
                  if !r.1 then .returned (false, d.backtrack r.2 s.cur.i) else .returned (true, r.2)) ?_) fun n => ?_
          · rintro ⟨b, t⟩ n hparse
            have hparses := parses_of_parse hparse
            cases b with
            | false => exact ends_returned _
            | true =>
              have hcon2 : d.Progresses con2 t := fun con' u h => hcon con' u (.seq_second hnot hparses h)
              have hends := hlater hsize hrest hs hparses.scanned (hparses.le hs) hcon2 fun ht => ih2 ht hcon2
              refine hends.bind ?_
              rintro ⟨b, u⟩ - -
              cases b with
              | false => exact ends_returned _
              | true => exact ends_returned _
          · rw [parse_seq, if_neg hended]
      | «repeat» con ih =>
        -- at most `k` turns stay
        obtain ⟨k, hstays⟩ := hcon con s .here
        induction k generalizing s with
        | zero => exact absurd (.zero) hstays
        | succ k ihk =>
          by_cases hended : s.ended
          · refine ends_of_succ (ends_returned (true, s)) fun n => ?_
            rw [parse_repeat, if_pos hended]
          · have hnot : s.ended = false := by simpa using hended
            refine ends_of_succ ((ih hs (fun con' t h => hcon con' t (.repeat_first hnot h)) hsize hrest).bind
              (g := fun n r => if r.1 then d.parse n (.repeat con) r.2 else .returned (true, r.2)) ?_) fun n => ?_
            · rintro ⟨b, t⟩ n hparse
              have hparses := parses_of_parse hparse
              cases b with
              | false => exact ends_returned (true, t)
              | true =>
                have hnext : d.Progresses (.repeat con) t := fun con' u h =>
                  hcon con' u (.repeat_next hnot hparses h)
                have ht := hparses.scanned.settled hs
                have hle := hparses.le hs
                refine hlater hsize hrest hs hparses.scanned hle hnext fun ht hsize' hrest' => ?_
                -- no child is passed
                have hi : t.cur.i = s.cur.i := by
                  by_contra hne
                  have hlt := remaining_lt hs hnot hparses.scanned.stack (lt_of_le_of_ne hle (Ne.symm hne))
                  exact Nat.ne_of_lt hlt (Eq.trans hrest' hrest.symm)
                have hcur := cur_eq_of_i_eq hs ht hparses.scanned hi
                exact ihk ht hnext hsize' hrest' fun h => hstays (.succ hnot hparses hcur h)
            · rw [parse_repeat, if_neg hended]
      | empty => exact ends_of_succ (ends_parseEmpty s.cur.i hs) fun n => rfl
      | ignored => exact ends_of_succ (ends_parseAll false hs) fun n => rfl
      | pcdata => exact ends_of_succ (ends_returned (d.parsePCDATA s)) fun n => rfl
      | any => exact ends_of_succ (ends_parseAll true hs) fun n => rfl

/-- A repetition ends, before any children, exactly when none of the turns that its parsing comes to is followed for
ever by turns that pass no child. -/
theorem repeat_ends_iff (con : Content E) (hs : d.Settled s) :
    (Ends fun n => d.parse n (.repeat con) s) ↔ d.Progresses (.repeat con) s := by
  constructor
  · rintro ⟨N, r, hr, hends⟩ con' t hturn
    by_contra hstays
    rw [not_exists_not] at hstays
    exact hr ((hends N le_rfl).symm.trans (hturn.unfinished hstays N))
  · exact ends_parse hs

/-- A parser in an element with one child. -/
def within (s : Parser E A V R) (child : Node) : Parser E A V R :=
  { s with cur := ⟨0, s.cur.elt, some child⟩, stack := [⟨0, s.cur.elt, some (.element [] [] [child])⟩] }

omit [DecidableEq A] in
theorem settled_within (s : Parser E A V R) {child : Node} (h : d.stops child) : d.Settled (within s child) := by
  simp [Settled, setNode, within, Parser.parent, Node.children, h]

/-- The DTD element `true`, of name `r`, contains a repetition of the optional element `false`, of name `a`. -/
def optionals : Definition Bool Empty Unit Unit where
  element e := if e then ⟨['r'], [], .repeat (.optional (.element false))⟩ else ⟨['a'], [], .empty⟩
  attr a := a.elim
  factory := ⟨fun _ _ => none, fun _ _ => none⟩
  crop := true
  element_of_mem _ a _ := a.elim
  nodup_attrs := by decide

/-- A parser in an element with a child of a name. -/
def before (name : Char) : Parser Bool Empty Unit Unit :=
  within ⟨⟨0, true, none⟩, [], ∅, ∅, [], none, Empty.elim, []⟩ (.element [name] [] [])

/-- The child `a` is passed. -/
theorem repeat_ends_iff_known :
    (Ends fun n => optionals.parse n (.repeat (.optional (.element false))) (before 'a')) ↔
      optionals.Progresses (.repeat (.optional (.element false))) (before 'a') :=
  repeat_ends_iff _ (settled_within _ rfl)

/-- The child `b` is not known: the optional element is recognized without it. -/
theorem not_ends_optionals :
    ¬Ends fun n => optionals.parse n (.repeat (.optional (.element false))) (before 'b') := by
  rintro ⟨N, r, hr, hends⟩
  refine hr ((hends N le_rfl).symm.trans (parse_repeat_unfinished (fun k => ?_) N))
  refine stays_of_parses_self rfl (.optional rfl (.element_other ?_)) k
  rintro ⟨attributes, children, hnode⟩
  cases hnode

end Elm.Dtd.Definition
