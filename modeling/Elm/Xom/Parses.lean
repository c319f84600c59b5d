import Elm.Xom.Dtd

/-!
# The results of `Content::parse`

`Parses` tells the results of `Content::parse` by rules, whatever the number of steps: the properties of the
parser are proved by induction on them.  The first ones are about the position: a content that is not
recognized leaves the parser where it was.
-/

open Elm.Xom (Node)

namespace Elm.Dtd.Definition

open List

variable {E A V R : Type} [DecidableEq A]

omit [DecidableEq A] in
/-- The current node is an element of the name of a DTD element. -/
def At (d : Definition E A V R) (s : Parser E A V R) (e : E) : Prop :=
  ∃ attributes children, s.cur.node = some (.element (d.element e).name attributes children)

/-- `Content::parse` gives a result and leaves a state. -/
inductive Parses (d : Definition E A V R) : Content E → Parser E A V R → Bool → Parser E A V R → Prop
  | element_other {e s} (hat : ¬d.At s e) : Parses d (.element e) s false s
  | element_rejected {e s t} (hat : d.At s e)
      (hattrs : d.parseAttributes (d.element e).attrs s = .returned (false, t)) :
      Parses d (.element e) s false t
  | element_left {e s t u b} (hat : d.At s e)
      (hattrs : d.parseAttributes (d.element e).attrs s = .returned (true, t))
      (hcontent : Parses d (d.element e).content (d.begin t e) b u) (hended : u.ended = false) :
      Parses d (.element e) s false (d.endElement u.recordError false)
  | element {e s t u b} (hat : d.At s e)
      (hattrs : d.parseAttributes (d.element e).attrs s = .returned (true, t))
      (hcontent : Parses d (d.element e).content (d.begin t e) b u) (hended : u.ended = true) :
      Parses d (.element e) s b (d.endElement u b)
  | optional_ended {con s} (hended : s.ended = true) : Parses d (.optional con) s true s
  | optional {con s t b} (hended : s.ended = false) (hcon : Parses d con s b t) :
      Parses d (.optional con) s true t
  | alt_first {con1 con2 s t} (hcon1 : Parses d con1 s true t) : Parses d (.alt con1 con2) s true t
  | alt_second {con1 con2 s t u b} (hcon1 : Parses d con1 s false t) (hcon2 : Parses d con2 t b u) :
      Parses d (.alt con1 con2) s b u
  | seq_ended {con1 con2 s} (hended : s.ended = true) : Parses d (.seq con1 con2) s false s
  | seq_first {con1 con2 s t} (hended : s.ended = false) (hcon1 : Parses d con1 s false t) :
      Parses d (.seq con1 con2) s false (d.backtrack t s.cur.i)
  | seq_second {con1 con2 s t u} (hended : s.ended = false) (hcon1 : Parses d con1 s true t)
      (hcon2 : Parses d con2 t false u) : Parses d (.seq con1 con2) s false (d.backtrack u s.cur.i)
  | seq {con1 con2 s t u} (hended : s.ended = false) (hcon1 : Parses d con1 s true t)
      (hcon2 : Parses d con2 t true u) : Parses d (.seq con1 con2) s true u
  | repeat_ended {con s} (hended : s.ended = true) : Parses d (.repeat con) s true s
  | repeat_stop {con s t} (hended : s.ended = false) (hcon : Parses d con s false t) :
      Parses d (.repeat con) s true t
  | repeat_next {con s t u b} (hended : s.ended = false) (hcon : Parses d con s true t)
      (hrepeat : Parses d (.repeat con) t b u) : Parses d (.repeat con) s b u
  | empty {s t n b} (hempty : d.parseEmpty s.cur.i n s = .returned (b, t)) : Parses d .empty s b t
  | ignored {s t n b} (hall : d.parseAll false n s = .returned (b, t)) : Parses d .ignored s b t
  | pcdata {s} : Parses d .pcdata s (d.parsePCDATA s).1 (d.parsePCDATA s).2
  | any {s t n b} (hall : d.parseAll true n s = .returned (b, t)) : Parses d .any s b t

variable {d : Definition E A V R} {s t u : Parser E A V R}

theorem parses_of_parse : ∀ {n : Nat} {con : Content E} {s t : Parser E A V R} {b : Bool},
    d.parse n con s = .returned (b, t) → d.Parses con s b t := by
  intro n
  induction n with
  | zero =>
    intro con s t b h
    simp [parse] at h
  | succ n ih =>
    intro con s t b h
    cases con with
    | element e =>
      simp only [parse] at h
      split at h
      · rename_i name attributes children hnode
        split at h
        · rename_i hname
          obtain ⟨rfl, rfl⟩ : false = b ∧ s = t := by simpa using h
          refine .element_other ?_
          rintro ⟨attributes', children', hat⟩
          rw [hnode] at hat
          cases hat
          exact hname rfl
        · rename_i hname
          have hat : d.At s e := by
            refine ⟨attributes, children, ?_⟩
            rw [hnode, not_not.mp hname]
          obtain ⟨⟨accepted, s₁⟩, hattrs, h⟩ := Outcome.bind_eq_returned_iff.mp h
          cases accepted with
          | false =>
            obtain ⟨rfl, rfl⟩ : false = b ∧ s₁ = t := by simpa using h
            exact .element_rejected hat hattrs
          | true =>
            obtain ⟨⟨success, s₂⟩, hcontent, h⟩ := Outcome.bind_eq_returned_iff.mp h
            cases hended : s₂.ended with
            | false =>
              simp only [hended] at h
              obtain ⟨rfl, rfl⟩ : false = b ∧ d.endElement s₂.recordError false = t := by
                simpa using h
              exact .element_left hat hattrs (ih hcontent) hended
            | true =>
              simp only [hended] at h
              obtain ⟨rfl, rfl⟩ : success = b ∧ d.endElement s₂ success = t := by simpa using h
              exact .element hat hattrs (ih hcontent) hended
      · rename_i hnode
        obtain ⟨rfl, rfl⟩ : false = b ∧ s = t := by simpa using h
        refine .element_other ?_
        rintro ⟨attributes, children, hat⟩
        exact hnode _ _ _ hat
    | optional con =>
      simp only [parse] at h
      split at h
      · rename_i hended
        obtain ⟨rfl, rfl⟩ : true = b ∧ s = t := by simpa using h
        exact .optional_ended hended
      · rename_i hended
        obtain ⟨⟨success, s₁⟩, hcon, h⟩ := Outcome.bind_eq_returned_iff.mp h
        obtain ⟨rfl, rfl⟩ : true = b ∧ s₁ = t := by simpa using h
        exact .optional (by simpa using hended) (ih hcon)
    | alt con1 con2 =>
      obtain ⟨⟨success, s₁⟩, hcon1, h⟩ := Outcome.bind_eq_returned_iff.mp h
      cases success with
      | true =>
        obtain ⟨rfl, rfl⟩ : true = b ∧ s₁ = t := by simpa using h
        exact .alt_first (ih hcon1)
      | false => exact .alt_second (ih hcon1) (ih h)
    | seq con1 con2 =>
      simp only [parse] at h
      split at h
      · rename_i hended
        obtain ⟨rfl, rfl⟩ : false = b ∧ s = t := by simpa using h
        exact .seq_ended hended
      · rename_i hended
        have hended : s.ended = false := by simpa using hended
        obtain ⟨⟨success, s₁⟩, hcon1, h⟩ := Outcome.bind_eq_returned_iff.mp h
        cases success with
        | false =>
          obtain ⟨rfl, rfl⟩ : false = b ∧ d.backtrack s₁ s.cur.i = t := by simpa using h
          exact .seq_first hended (ih hcon1)
        | true =>
          obtain ⟨⟨success, s₂⟩, hcon2, h⟩ := Outcome.bind_eq_returned_iff.mp h
          cases success with
          | false =>
            obtain ⟨rfl, rfl⟩ : false = b ∧ d.backtrack s₂ s.cur.i = t := by simpa using h
            exact .seq_second hended (ih hcon1) (ih hcon2)
          | true =>
            obtain ⟨rfl, rfl⟩ : true = b ∧ s₂ = t := by simpa using h
            exact .seq hended (ih hcon1) (ih hcon2)
    | «repeat» con =>
      simp only [parse] at h
      split at h
      · rename_i hended
        obtain ⟨rfl, rfl⟩ : true = b ∧ s = t := by simpa using h
        exact .repeat_ended hended
      · rename_i hended
        have hended : s.ended = false := by simpa using hended
        obtain ⟨⟨success, s₁⟩, hcon, h⟩ := Outcome.bind_eq_returned_iff.mp h
        cases success with
        | false =>
          obtain ⟨rfl, rfl⟩ : true = b ∧ s₁ = t := by simpa using h
          exact .repeat_stop hended (ih hcon)
        | true => exact .repeat_next hended (ih hcon) (ih h)
    | empty => exact .empty h
    | ignored => exact .ignored h
    | pcdata =>
      have h : d.parsePCDATA s = (b, t) := by simpa [parse] using h
      have hpcdata := Parses.pcdata (d := d) (s := s)
      rw [h] at hpcdata
      exact hpcdata
    | any => exact .any h

/-! ## Positions -/

section Position

omit [DecidableEq A]

theorem setNode_eq (s : Parser E A V R) :
    d.setNode s = { s with cur := (d.setNode s).cur } ∧ (d.setNode s).cur.elt = s.cur.elt := by
  unfold setNode
  constructor <;> cases s.parent <;> rfl

@[simp] theorem setNode_stack (s : Parser E A V R) : (d.setNode s).stack = s.stack := by
  rw [(setNode_eq s).1]

@[simp] theorem setNode_calls (s : Parser E A V R) : (d.setNode s).calls = s.calls := by
  rw [(setNode_eq s).1]

@[simp] theorem setNode_elt (s : Parser E A V R) : (d.setNode s).cur.elt = s.cur.elt := (setNode_eq s).2

@[simp] theorem next_stack (s : Parser E A V R) : (d.next s).stack = s.stack := setNode_stack _

@[simp] theorem next_calls (s : Parser E A V R) : (d.next s).calls = s.calls := setNode_calls _

@[simp] theorem next_elt (s : Parser E A V R) : (d.next s).cur.elt = s.cur.elt := setNode_elt _

@[simp] theorem backtrack_stack (s : Parser E A V R) (m : Nat) : (d.backtrack s m).stack = s.stack :=
  setNode_stack _

@[simp] theorem backtrack_calls (s : Parser E A V R) (m : Nat) : (d.backtrack s m).calls = s.calls :=
  setNode_calls _

@[simp] theorem backtrack_elt (s : Parser E A V R) (m : Nat) : (d.backtrack s m).cur.elt = s.cur.elt :=
  setNode_elt _

/-- The current node is the one that `setNode` finds at the current index. -/
def Settled (d : Definition E A V R) (s : Parser E A V R) : Prop := (d.setNode s).cur = s.cur

/-- `setNode` only reads the parent, the index and the current element. -/
theorem setNode_cur_congr (hstack : t.stack = s.stack) (hi : t.cur.i = s.cur.i)
    (helt : t.cur.elt = s.cur.elt) : (d.setNode t).cur = (d.setNode s).cur := by
  have hparent : t.parent = s.parent := by
    unfold Parser.parent
    rw [hstack]
  unfold setNode
  rw [hparent]
  cases s.parent with
  | none =>
    show Context.mk t.cur.i t.cur.elt none = Context.mk s.cur.i s.cur.elt none
    rw [hi, helt]
  | some parent =>
    dsimp only
    rw [hi, helt]

theorem settled_congr (hstack : t.stack = s.stack) (hcur : t.cur = s.cur) :
    d.Settled t ↔ d.Settled s := by
  unfold Settled
  rw [setNode_cur_congr hstack (by rw [hcur]) (by rw [hcur]), hcur]

theorem settled_setNode (s : Parser E A V R) : d.Settled (d.setNode s) := by
  unfold Settled
  have hparent : (d.setNode s).parent = s.parent := by
    unfold Parser.parent
    rw [setNode_stack]
  unfold setNode at hparent ⊢
  cases hp : s.parent with
  | none => simp only [hp] at hparent ⊢; simp [hparent]
  | some parent =>
    simp only [hp] at hparent ⊢
    simp only [hparent]
    -- no child is skipped a second time
    have hdrop : ∀ (l : List Node) (p : Node → Bool),
        ((l.drop (l.takeWhile p).length).takeWhile p).length = 0 := by
      intro l p
      induction l with
      | nil => rfl
      | cons node l ih =>
        cases hnode : p node with
        | true => simpa [hnode] using ih
        | false => simp [hnode]
    have hskip := hdrop (parent.children.drop s.cur.i) fun node => !d.stops node
    rw [drop_drop] at hskip
    rw [hskip, Nat.add_zero]

theorem settled_next (s : Parser E A V R) : d.Settled (d.next s) := settled_setNode _

theorem settled_backtrack (s : Parser E A V R) (m : Nat) : d.Settled (d.backtrack s m) := settled_setNode _

/-- A mark of the position brings it back. -/
theorem backtrack_cur (hs : d.Settled s) (hstack : t.stack = s.stack) (helt : t.cur.elt = s.cur.elt) :
    (d.backtrack t s.cur.i).cur = s.cur :=
  (setNode_cur_congr (t := { t with cur := { t.cur with i := s.cur.i } }) hstack rfl helt).trans hs

end Position

/-! ## What stays -/

/-- What the attributes leave: they change themselves and the postponed attributes. -/
structure Attributed (s t : Parser E A V R) : Prop where
  cur : t.cur = s.cur
  stack : t.stack = s.stack
  map : t.map = s.map
  patches : t.patches = s.patches
  calls : t.calls = s.calls
  posts : ∃ as, t.posts = s.posts ++ as

omit [DecidableEq A] in
theorem Attributed.refl (s : Parser E A V R) : Attributed s s :=
  ⟨rfl, rfl, rfl, rfl, rfl, [], (append_nil _).symm⟩

omit [DecidableEq A] in
theorem Attributed.trans (h : Attributed s t) (h' : Attributed t u) : Attributed s u := by
  obtain ⟨as, has⟩ := h.posts
  obtain ⟨as', has'⟩ := h'.posts
  exact ⟨h'.cur.trans h.cur, h'.stack.trans h.stack, h'.map.trans h.map, h'.patches.trans h.patches,
    h'.calls.trans h.calls, as ++ as', by rw [has', has, append_assoc]⟩

theorem attributed_setAttr (s : Parser E A V R) (a : A) (state : AttributeState V R) :
    Attributed s (s.setAttr a state) :=
  ⟨rfl, rfl, rfl, rfl, rfl, [], (append_nil _).symm⟩

omit [DecidableEq A] in
theorem attributed_addPost (s : Parser E A V R) (a : A) : Attributed s (s.addPost a) :=
  ⟨rfl, rfl, rfl, rfl, rfl, [a], rfl⟩

theorem attributed_process {a : A} {value : List Char} {b : Bool}
    (h : d.process s a value = .returned (b, t)) : Attributed s t := by
  unfold process at h
  split at h
  · cases h
    exact .refl s
  · cases h
    exact attributed_setAttr ..
  · cases h
    exact attributed_setAttr ..
  · split at h
    · split at h
      · cases h
      · cases h
        exact .refl s
    · cases h
      exact (attributed_setAttr ..).trans (attributed_addPost ..)
  · split at h
    · cases h
      exact attributed_setAttr ..
    · dsimp only at h
      split at h
      · cases h
        exact (attributed_setAttr ..).trans (attributed_addPost ..)
      · split at h
        · cases h
        · cases h
          exact attributed_setAttr ..

theorem attributed_parseAttribute {a : A} {b : Bool} (h : d.parseAttribute s a = .returned (b, t)) :
    Attributed s t := by
  unfold parseAttribute at h
  split at h
  · exact (attributed_setAttr ..).trans (attributed_process h)
  · cases h
    exact attributed_setAttr ..

theorem attributed_parseAttributes : ∀ {as : List A} {s t : Parser E A V R} {b : Bool},
    d.parseAttributes as s = .returned (b, t) → Attributed s t := by
  intro as
  induction as with
  | nil =>
    intro s t b h
    cases h
    exact .refl s
  | cons a as ih =>
    intro s t b h
    obtain ⟨⟨accepted, s₁⟩, hattr, h⟩ := Outcome.bind_eq_returned_iff.mp h
    refine (attributed_parseAttribute hattr).trans ?_
    cases accepted with
    | true => exact ih h
    | false =>
      obtain ⟨-, rfl⟩ : false = b ∧ s₁.recordError = t := by simpa using h
      exact ⟨rfl, rfl, rfl, rfl, rfl, [], (append_nil _).symm⟩

section Frame

omit [DecidableEq A]

/-- What remains of a state when the postponed attributes are handled; the calls are not about the opening
or the closing of elements. -/
structure Posted (s t : Parser E A V R) : Prop where
  cur : t.cur = s.cur
  stack : t.stack = s.stack
  calls : ∃ cs, t.calls = s.calls ++ cs ∧ ∀ c ∈ cs, (∃ e p, c = .getRef e p) ∨ (∃ a p, c = .getPatchRef a p) ∨
    ∃ a o p, c = .patch a o p

theorem Posted.refl (s : Parser E A V R) : Posted s s :=
  ⟨rfl, rfl, [], (append_nil _).symm, fun _ hc => (nomatch hc)⟩

theorem Posted.trans (h : Posted s t) (h' : Posted t u) : Posted s u := by
  obtain ⟨cs, hcs, hall⟩ := h.calls
  obtain ⟨cs', hcs', hall'⟩ := h'.calls
  refine ⟨h'.cur.trans h.cur, h'.stack.trans h.stack, cs ++ cs', ?_, ?_⟩
  · rw [hcs', hcs, append_assoc]
  · intro c hc
    exact (mem_append.mp hc).elim (hall c) (hall' c)

theorem posted_foldl_patch (p : Option R) : ∀ (bs : List (Backpatch A R)) (s : Parser E A V R),
    Posted s (bs.foldl (fun s b => s.call (.patch b.attr b.object p)) s) := by
  intro bs
  induction bs with
  | nil => exact fun s => .refl s
  | cons b bs ih =>
    intro s
    have hpatch : Posted s (s.call (.patch b.attr b.object p)) := by
      refine ⟨rfl, rfl, [.patch b.attr b.object p], rfl, ?_⟩
      intro c hc
      exact Or.inr (Or.inr ⟨b.attr, b.object, p, mem_singleton.mp hc⟩)
    exact hpatch.trans (ih _)

theorem posted_recordID (s : Parser E A V R) (id : List Char) (e : E) : Posted s (d.recordID s id e) := by
  have hgetRef : ∀ t : Parser E A V R, t.cur = s.cur → t.stack = s.stack →
      t.calls = s.calls ++ [.getRef e (d.factory.getRef s e)] → Posted s t := by
    intro t hcur hstack hcalls
    refine ⟨hcur, hstack, _, hcalls, ?_⟩
    intro c hc
    exact Or.inl ⟨e, _, mem_singleton.mp hc⟩
  unfold recordID
  dsimp only
  split
  · exact hgetRef _ rfl rfl rfl
  · rename_i bs _
    have hmap := hgetRef
      { s.call (.getRef e (d.factory.getRef s e)) with map := s.map.insert id (d.factory.getRef s e) } rfl rfl rfl
    have hfold := hmap.trans (posted_foldl_patch (d.factory.getRef s e) bs _)
    exact ⟨hfold.cur, hfold.stack, hfold.calls⟩

theorem posted_postprocess (s : Parser E A V R) (a : A) : Posted s (d.postprocess s a) := by
  unfold postprocess
  split
  · exact posted_recordID ..
  · refine ⟨rfl, rfl, [_], rfl, ?_⟩
    intro c hc
    exact Or.inr (Or.inl ⟨a, _, mem_singleton.mp hc⟩)
  · exact .refl s

theorem posted_foldl_postprocess : ∀ (as : List A) (s : Parser E A V R),
    Posted s (as.foldl d.postprocess s) := by
  intro as
  induction as with
  | nil => exact fun s => .refl s
  | cons a as ih => exact fun s => (posted_postprocess s a).trans (ih _)

/-- `begin` opens the context of an element. -/
theorem begin_spec (s : Parser E A V R) (e : E) :
    (d.begin s e).stack = s.cur :: s.stack ∧ (d.begin s e).cur.elt = e ∧ d.Settled (d.begin s e) ∧
      ∃ t, Posted (s.call (.begin e)) t ∧ (d.begin s e).calls = t.calls := by
  have hposted := posted_foldl_postprocess (d := d) (s.call (.begin e)).posts (s.call (.begin e))
  refine ⟨?_, setNode_elt _, settled_setNode _, _, hposted, setNode_calls _⟩
  unfold begin
  rw [setNode_stack, show _ = s.cur from hposted.cur, show _ = s.stack from hposted.stack]

/-- `end` comes back to the context of the parent. -/
theorem endElement_spec (hstack : s.stack = t.cur :: t.stack) (success : Bool) :
    (d.endElement s success).stack = t.stack ∧ (d.endElement s success).cur.elt = t.cur.elt ∧
      (success = false → (d.endElement s success).cur = t.cur) ∧
      (success = true → d.Settled (d.endElement s success)) ∧
      (d.endElement s success).calls =
        s.calls ++ [if success then .endElement s.cur.elt else .backtrack s.cur.elt] := by
  unfold endElement
  rw [hstack]
  cases success with
  | false => exact ⟨rfl, rfl, fun _ => rfl, fun h => absurd h Bool.false_ne_true, rfl⟩
  | true =>
    exact ⟨next_stack _, next_elt _, fun h => absurd h.symm Bool.false_ne_true, fun _ => settled_next _,
      next_calls _⟩

/-- A loop over the children ends at the last one, or goes back to a mark. -/
structure Scanned (d : Definition E A V R) (s t : Parser E A V R) : Prop where
  stack : t.stack = s.stack
  elt : t.cur.elt = s.cur.elt
  settled : d.Settled s → d.Settled t

theorem parseEmpty_spec (m : Nat) : ∀ {n : Nat} {s t : Parser E A V R} {b : Bool},
    d.parseEmpty m n s = .returned (b, t) → d.Scanned s t ∧ t.calls = s.calls ∧
      (b = false → ∃ u : Parser E A V R, u.stack = s.stack ∧ u.cur.elt = s.cur.elt ∧ t = d.backtrack u m) := by
  intro n
  induction n with
  | zero =>
    intro s t b h
    cases h
  | succ n ih =>
    intro s t b h
    unfold parseEmpty at h
    split at h
    · cases h
      exact ⟨⟨rfl, rfl, id⟩, rfl, fun h => (nomatch h)⟩
    · split at h
      · cases h
        exact ⟨⟨backtrack_stack _ _, backtrack_elt _ _, fun _ => settled_backtrack _ _⟩,
          backtrack_calls _ _, fun _ => ⟨s, rfl, rfl, rfl⟩⟩
      · obtain ⟨hscanned, hcalls, hback⟩ := ih h
        refine ⟨⟨hscanned.stack.trans (next_stack s), hscanned.elt.trans (next_elt s),
          fun _ => hscanned.settled (settled_next s)⟩, hcalls.trans (next_calls s), ?_⟩
        intro hb
        obtain ⟨u, hstack, helt, hu⟩ := hback hb
        exact ⟨u, hstack.trans (next_stack s), helt.trans (next_elt s), hu⟩

theorem parseAll_spec (any : Bool) : ∀ {n : Nat} {s t : Parser E A V R} {b : Bool},
    d.parseAll any n s = .returned (b, t) → d.Scanned s t ∧ b = true ∧
      ∃ cs, t.calls = s.calls ++ cs ∧ ∀ c ∈ cs, ∃ node, c = .getAny node := by
  intro n
  induction n with
  | zero =>
    intro s t b h
    cases h
  | succ n ih =>
    intro s t b h
    unfold parseAll at h
    split at h
    · cases h
      exact ⟨⟨rfl, rfl, id⟩, rfl, [], (append_nil _).symm, fun _ hc => (nomatch hc)⟩
    · rename_i node _
      obtain ⟨hscanned, hb, cs, hcs, hall⟩ := ih h
      have hstep : ∃ cs, (d.next (if any then s.call (.getAny node) else s)).calls = s.calls ++ cs ∧
          ∀ c ∈ cs, ∃ node, c = .getAny node := by
        rw [next_calls]
        cases any with
        | true => exact ⟨[.getAny node], rfl, fun c hc => ⟨node, mem_singleton.mp hc⟩⟩
        | false => exact ⟨[], (append_nil _).symm, fun _ hc => (nomatch hc)⟩
      obtain ⟨cs', hcs', hall'⟩ := hstep
      refine ⟨⟨?_, ?_, fun _ => hscanned.settled (settled_next _)⟩, hb, cs' ++ cs, ?_, ?_⟩
      · rw [hscanned.stack, next_stack]
        cases any <;> rfl
      · rw [hscanned.elt, next_elt]
        cases any <;> rfl
      · rw [hcs, hcs', append_assoc]
      · intro c hc
        exact (mem_append.mp hc).elim (hall' c) (hall c)

theorem parsePCDATA_spec (s : Parser E A V R) :
    d.Scanned s (d.parsePCDATA s).2 ∧ ((d.parsePCDATA s).1 = false → (d.parsePCDATA s).2 = s) ∧
      ∃ cs, (d.parsePCDATA s).2.calls = s.calls ++ cs ∧ ∀ c ∈ cs, ∃ data, c = .getPCDATA data := by
  unfold parsePCDATA
  split
  · have hsettled := settled_congr (d := d) (s := s) (t := s.call (.getPCDATA [])) rfl rfl
    exact ⟨⟨rfl, rfl, hsettled.mpr⟩, fun h => (nomatch h), [_], rfl,
      fun _ hc => ⟨_, mem_singleton.mp hc⟩⟩
  · exact ⟨⟨next_stack _, next_elt _, fun _ => settled_next _⟩, fun h => (nomatch h), [_], next_calls _,
      fun c hc => ⟨_, mem_singleton.mp hc⟩⟩
  · exact ⟨⟨rfl, rfl, id⟩, fun _ => rfl, [], (append_nil _).symm, fun _ hc => (nomatch hc)⟩

end Frame

/-- The contexts of the parents and the current element stay, and a settled position is left for another. -/
theorem Parses.scanned {con : Content E} {b : Bool} (h : d.Parses con s b t) : d.Scanned s t := by
  induction h with
  | element_other => exact ⟨rfl, rfl, id⟩
  | element_rejected _ hattrs =>
    have hattr := attributed_parseAttributes hattrs
    exact ⟨hattr.stack, by rw [hattr.cur], (settled_congr hattr.stack hattr.cur).mpr⟩
  | @element_left e s t u b _ hattrs _ _ ih =>
    have hattr := attributed_parseAttributes hattrs
    obtain ⟨hbegin, -, -, -⟩ := begin_spec (d := d) t e
    obtain ⟨hstack, helt, hcur, -, -⟩ := endElement_spec (d := d) (s := u.recordError) (t := t)
      (ih.stack.trans hbegin) false
    exact ⟨hstack.trans hattr.stack, by rw [helt, hattr.cur],
      (settled_congr (hstack.trans hattr.stack) ((hcur rfl).trans hattr.cur)).mpr⟩
  | @element e s t u b _ hattrs _ _ ih =>
    have hattr := attributed_parseAttributes hattrs
    obtain ⟨hbegin, -, -, -⟩ := begin_spec (d := d) t e
    obtain ⟨hstack, helt, hcur, hsettled, -⟩ := endElement_spec (d := d) (s := u) (t := t)
      (ih.stack.trans hbegin) b
    refine ⟨hstack.trans hattr.stack, by rw [helt, hattr.cur], fun hs => ?_⟩
    cases b with
    | true => exact hsettled rfl
    | false => exact (settled_congr (hstack.trans hattr.stack) ((hcur rfl).trans hattr.cur)).mpr hs
  | optional_ended => exact ⟨rfl, rfl, id⟩
  | optional _ _ ih => exact ih
  | alt_first _ ih => exact ih
  | alt_second _ _ ih1 ih2 =>
    exact ⟨ih2.stack.trans ih1.stack, ih2.elt.trans ih1.elt, fun hs => ih2.settled (ih1.settled hs)⟩
  | seq_ended => exact ⟨rfl, rfl, id⟩
  | seq_first _ _ ih =>
    exact ⟨(backtrack_stack _ _).trans ih.stack, (backtrack_elt _ _).trans ih.elt,
      fun _ => settled_backtrack _ _⟩
  | seq_second _ _ _ ih1 ih2 =>
    exact ⟨(backtrack_stack _ _).trans (ih2.stack.trans ih1.stack),
      (backtrack_elt _ _).trans (ih2.elt.trans ih1.elt), fun _ => settled_backtrack _ _⟩
  | seq _ _ _ ih1 ih2 =>
    exact ⟨ih2.stack.trans ih1.stack, ih2.elt.trans ih1.elt, fun hs => ih2.settled (ih1.settled hs)⟩
  | repeat_ended => exact ⟨rfl, rfl, id⟩
  | repeat_stop _ _ ih => exact ih
  | repeat_next _ _ _ ih1 ih2 =>
    exact ⟨ih2.stack.trans ih1.stack, ih2.elt.trans ih1.elt, fun hs => ih2.settled (ih1.settled hs)⟩
  | empty hempty => exact (parseEmpty_spec _ hempty).1
  | ignored hall => exact (parseAll_spec false hall).1
  | pcdata => exact (parsePCDATA_spec _).1
  | any hall => exact (parseAll_spec true hall).1

/-- A repetition is always recognized. -/
theorem Parses.repeat_eq_true {con : Content E} {b : Bool} (h : d.Parses (.repeat con) s b t) : b = true := by
  generalize hcon : Content.repeat con = con' at h
  induction h with
  | repeat_ended => rfl
  | repeat_stop => rfl
  | repeat_next _ _ _ _ ih => exact ih hcon
  | _ => cases hcon

/-- The parser is at the root, where the content is an element, or in the content of an element. -/
def Ready (d : Definition E A V R) (con : Content E) (s : Parser E A V R) : Prop :=
  d.Settled s ∨ ∃ e, con = .element e

/-- A content that is not recognized leaves the parser at its position. -/
theorem Parses.cur_of_false {con : Content E} {b : Bool} (h : d.Parses con s b t) :
    d.Ready con s → b = false → t.cur = s.cur := by
  induction h with
  | element_other => exact fun _ _ => rfl
  | element_rejected _ hattrs => exact fun _ _ => (attributed_parseAttributes hattrs).cur
  | @element_left e s t u b _ hattrs hcontent _ _ =>
    intro _ _
    obtain ⟨hbegin, -, -, -⟩ := begin_spec (d := d) t e
    obtain ⟨-, -, hcur, -, -⟩ := endElement_spec (d := d) (s := u.recordError) (t := t)
      (hcontent.scanned.stack.trans hbegin) false
    rw [hcur rfl, (attributed_parseAttributes hattrs).cur]
  | @element e s t u b _ hattrs hcontent _ _ =>
    intro _ hb
    obtain ⟨hbegin, -, -, -⟩ := begin_spec (d := d) t e
    obtain ⟨-, -, hcur, -, -⟩ := endElement_spec (d := d) (s := u) (t := t)
      (hcontent.scanned.stack.trans hbegin) b
    rw [hcur hb, (attributed_parseAttributes hattrs).cur]
  | optional_ended => exact fun _ hb => (nomatch hb)
  | optional => exact fun _ hb => (nomatch hb)
  | alt_first => exact fun _ hb => (nomatch hb)
  | alt_second hcon1 _ ih1 ih2 =>
    intro hready hb
    have hs := hready.resolve_right (fun ⟨_, he⟩ => (nomatch he))
    rw [ih2 (Or.inl (hcon1.scanned.settled hs)) hb, ih1 (Or.inl hs) rfl]
  | seq_ended => exact fun _ _ => rfl
  | seq_first _ hcon1 _ =>
    intro hready _
    have hs := hready.resolve_right (fun ⟨_, he⟩ => (nomatch he))
    exact backtrack_cur hs hcon1.scanned.stack hcon1.scanned.elt
  | seq_second _ hcon1 hcon2 _ _ =>
    intro hready _
    have hs := hready.resolve_right (fun ⟨_, he⟩ => (nomatch he))
    exact backtrack_cur hs (hcon2.scanned.stack.trans hcon1.scanned.stack)
      (hcon2.scanned.elt.trans hcon1.scanned.elt)
  | seq => exact fun _ hb => (nomatch hb)
  | repeat_ended => exact fun _ hb => (nomatch hb)
  | repeat_stop => exact fun _ hb => (nomatch hb)
  | repeat_next _ _ hrepeat _ _ => exact fun _ hb => absurd (hrepeat.repeat_eq_true.symm.trans hb) (by decide)
  | empty hempty =>
    intro hready hb
    have hs := hready.resolve_right (fun ⟨_, he⟩ => (nomatch he))
    obtain ⟨-, -, hback⟩ := parseEmpty_spec _ hempty
    obtain ⟨u, hstack, helt, rfl⟩ := hback hb
    exact backtrack_cur hs hstack helt
  | ignored hall => exact fun _ hb => absurd ((parseAll_spec false hall).2.1.symm.trans hb) (by decide)
  | pcdata => exact fun _ hb => congrArg Parser.cur ((parsePCDATA_spec _).2.1 hb)
  | any hall => exact fun _ hb => absurd ((parseAll_spec true hall).2.1.symm.trans hb) (by decide)

/-- In the content of an element, which `begin` opens at a settled position and every content keeps, and at
the root for an element: a content whose `parse` returns false leaves the index, the current node, the current
element and the stack of the contexts as they were. -/
theorem parse_false_restores (d : Definition E A V R) (n : Nat) (con : Content E) (s t : Parser E A V R) :
    (∀ e, d.Settled (d.begin s e)) ∧
      (∀ b, d.parse n con s = .returned (b, t) → d.Settled s → d.Settled t) ∧
      (d.Ready con s → d.parse n con s = .returned (false, t) → t.cur = s.cur ∧ t.stack = s.stack) := by
  refine ⟨fun e => (begin_spec s e).2.2.1, fun b hparse => (parses_of_parse hparse).scanned.settled, ?_⟩
  intro hready hparse
  have hparses := parses_of_parse hparse
  exact ⟨hparses.cur_of_false hready rfl, hparses.scanned.stack⟩

/-- The DTD elements `0`, of content `(1, 2)`, and `1` and `2`, which are empty; their names are the digits. -/
def pair : Definition (Fin 3) Empty Unit Unit where
  element e := ⟨[Nat.digitChar e], [], if e = 0 then .seq (.element 1) (.element 2) else .empty⟩
  attr a := nomatch a
  factory := ⟨fun _ _ => none, fun _ _ => none⟩
  crop := true
  element_of_mem _ _ ha := nomatch ha
  nodup_attrs _ := nodup_nil

/-- A parser on an XML element. -/
def onElement (xelt : Node) : Parser (Fin 3) Empty Unit Unit :=
  ⟨⟨0, 0, some xelt⟩, [], ∅, ∅, [], none, fun a => (nomatch a), []⟩

/-- The second element is missing. -/
theorem parse_false_restores_pair :
    ∃ s t, s = pair.begin (onElement (.element ['0'] [] [.text [' '], .element ['1'] [] []])) 0 ∧
      pair.parse 4 (pair.element 0).content s = .returned (false, t) ∧ t.cur = s.cur ∧ t.stack = s.stack := by
  refine ⟨_, _, rfl, rfl, ?_⟩
  obtain ⟨hbegin, -, hfalse⟩ := parse_false_restores pair 4 (pair.element 0).content
    (pair.begin (onElement (.element ['0'] [] [.text [' '], .element ['1'] [] []])) 0) _
  exact hfalse (Or.inl ((parse_false_restores pair 4 (pair.element 0).content _ (onElement .other)).1 0)) rfl

end Elm.Dtd.Definition
