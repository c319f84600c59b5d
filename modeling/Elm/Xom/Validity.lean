import Mathlib.Algebra.BigOperators.Group.Multiset.Basic
import Elm.Xom.Traces

/-!
# The documents that `dtd` accepts

`Matches` tells the sequences of nodes that a content describes, as a regular expression over the nodes, and so the
elements that a DTD describes.  The parser is greedy and does not find all of them, but what it accepts is one of
them.

A reference to an identifier that is not known yet is put among the pending patches, where it stays until the
identifier is recorded.  `Accounts` keeps the account of these references along the calls of the factory.
-/

open Elm.Xom (Node)

namespace Elm.Dtd.Definition

open List Option

variable {E A V R : Type}

/-! ## The documents of a DTD -/

/-- The attributes that an element must have. -/
def Complete (d : Definition E A V R) (e : E) (node : Node) : Prop :=
  ∀ a ∈ (d.element e).attrs, (d.attr a).required → (node.getAttributeValue (d.attr a).name).isSome

/-- The sequences of nodes that a content describes; the children that `setNode` skips are not among them. -/
inductive Matches (d : Definition E A V R) : Content E → List Node → Prop
  | element {e attributes children}
      (hcomplete : d.Complete e (.element (d.element e).name attributes children))
      (hcontent : Matches d (d.element e).content (children.filter d.stops)) :
      Matches d (.element e) [.element (d.element e).name attributes children]
  | optional_none {con} : Matches d (.optional con) []
  | optional {con l} (hcon : Matches d con l) : Matches d (.optional con) l
  | alt_first {con1 con2 l} (hcon1 : Matches d con1 l) : Matches d (.alt con1 con2) l
  | alt_second {con1 con2 l} (hcon2 : Matches d con2 l) : Matches d (.alt con1 con2) l
  | seq {con1 con2 l l'} (hcon1 : Matches d con1 l) (hcon2 : Matches d con2 l') :
      Matches d (.seq con1 con2) (l ++ l')
  | repeat_nil {con} : Matches d (.repeat con) []
  | repeat_append {con l l'} (hcon : Matches d con l) (hrepeat : Matches d (.repeat con) l') :
      Matches d (.repeat con) (l ++ l')
  | empty {l} (hempty : ∀ node ∈ l, Parser.isEmpty node) : Matches d .empty l
  | ignored {l} : Matches d .ignored l
  | pcdata_nil : Matches d .pcdata []
  | pcdata {t} : Matches d .pcdata [.text t]
  | any {l} : Matches d .any l

/-- The elements that a DTD element describes. -/
def Valid (d : Definition E A V R) (e : E) (node : Node) : Prop := d.Matches (.element e) [node]

variable {d : Definition E A V R} {s t u : Parser E A V R}

/-! ## What is left of the children -/

/-- The nodes from the current one on, without those that `setNode` skips. -/
def rest (d : Definition E A V R) (s : Parser E A V R) : List Node :=
  match s.parent with
  | none => s.cur.node.toList
  | some parent => (parent.children.drop s.cur.i).filter d.stops

theorem rest_of_parent {parent : Node} (hparent : s.parent = some parent) :
    d.rest s = (parent.children.drop s.cur.i).filter d.stops := by
  unfold rest
  rw [hparent]

theorem rest_congr (hstack : t.stack = s.stack) (hcur : t.cur = s.cur) : d.rest t = d.rest s := by
  unfold rest Parser.parent
  rw [hstack, hcur]

/-- The nodes that `setNode` skips are not counted. -/
theorem rest_setNode {parent : Node} (hparent : s.parent = some parent) : d.rest (d.setNode s) = d.rest s := by
  have hparent' : (d.setNode s).parent = some parent := by
    unfold Parser.parent at hparent ⊢
    rw [setNode_stack, hparent]
  have hi : (d.setNode s).cur.i =
      s.cur.i + ((parent.children.drop s.cur.i).takeWhile fun node => !d.stops node).length := by
    unfold setNode
    rw [hparent]
  rw [rest_of_parent hparent, rest_of_parent hparent', hi, ← drop_drop]
  generalize parent.children.drop s.cur.i = l
  induction l with
  | nil => rfl
  | cons node l ih =>
    cases hnode : d.stops node with
    | true => simp [hnode]
    | false => simpa [hnode] using ih

/-- A settled position is at the end of the children, or at a node that is not skipped. -/
theorem settled_cases (hs : d.Settled s) {parent : Node} (hparent : s.parent = some parent) :
    (s.cur.node = none ∧ parent.children.drop s.cur.i = []) ∨
      ∃ node l, s.cur.node = some node ∧ parent.children.drop s.cur.i = node :: l ∧ d.stops node = true := by
  unfold Settled setNode at hs
  rw [hparent] at hs
  have hi := congrArg Context.i hs
  have hnode := congrArg Context.node hs
  dsimp only at hi hnode
  have hskip : ((parent.children.drop s.cur.i).takeWhile fun node => !d.stops node).length = 0 := by omega
  rw [hskip, Nat.add_zero, ← head?_drop] at hnode
  cases hl : parent.children.drop s.cur.i with
  | nil =>
    rw [hl] at hnode
    exact Or.inl ⟨hnode.symm, rfl⟩
  | cons node l =>
    rw [hl] at hnode hskip
    refine Or.inr ⟨node, l, hnode.symm, rfl, ?_⟩
    cases hstops : d.stops node with
    | true => rfl
    | false =>
      rw [takeWhile_cons_of_pos (by rw [hstops, Bool.not_false])] at hskip
      cases hskip

/-- At the end of the children there is nothing left. -/
theorem rest_of_ended (hs : d.Settled s) (hnode : s.cur.node = none) : d.rest s = [] := by
  cases hparent : s.parent with
  | none =>
    unfold rest
    rw [hparent, hnode]
    rfl
  | some parent =>
    rw [rest_of_parent hparent]
    rcases settled_cases hs hparent with ⟨-, hnil⟩ | ⟨node, l, hnode', -, -⟩
    · rw [hnil, filter_nil]
    · rw [hnode] at hnode'
      cases hnode'

/-- `next` goes over the current node. -/
theorem rest_next (hs : d.Settled s) {node : Node} (hnode : s.cur.node = some node) :
    d.rest s = node :: d.rest (d.next s) := by
  cases hparent : s.parent with
  | none =>
    have hnone : (d.setNode s).cur.node = none := by
      unfold setNode
      rw [hparent]
    rw [show (d.setNode s).cur = s.cur from hs, hnode] at hnone
    cases hnone
  | some parent =>
    have hnext : d.rest (d.next s) = (parent.children.drop (s.cur.i + 1)).filter d.stops := by
      unfold next
      rw [rest_setNode (s := { s with cur := { s.cur with i := s.cur.i + 1 } }) hparent]
      exact rest_of_parent (s := { s with cur := { s.cur with i := s.cur.i + 1 } }) hparent
    rw [hnext, rest_of_parent hparent, ← tail_drop]
    rcases settled_cases hs hparent with ⟨hnone, -⟩ | ⟨node', l, hnode', hdrop, hstops⟩
    · rw [hnode] at hnone
      cases hnone
    · rw [hdrop, filter_cons_of_pos hstops, tail_cons, some.inj (hnode.symm.trans hnode')]

/-! ## The loops over the children -/

theorem parseEmpty_matches {m n : Nat} (h : d.parseEmpty m n s = .returned (true, t)) (hs : d.Settled s) :
    d.rest t = [] ∧ ∀ node ∈ d.rest s, Parser.isEmpty node := by
  induction n generalizing s with
  | zero => cases h
  | succ n ih =>
    unfold parseEmpty at h
    split at h
    · rename_i hnode
      cases h
      rw [rest_of_ended hs hnode]
      exact ⟨rfl, fun _ hmem => nomatch hmem⟩
    · rename_i node hnode
      split at h
      · cases h
      · rename_i hempty
        obtain ⟨hrest, hall⟩ := ih h (settled_next s)
        rw [rest_next hs hnode]
        refine ⟨hrest, fun node' hmem => ?_⟩
        rcases mem_cons.mp hmem with rfl | hmem
        · simpa using hempty
        · exact hall node' hmem

theorem parseAll_rest {any : Bool} {n : Nat} {b : Bool} (h : d.parseAll any n s = .returned (b, t))
    (hs : d.Settled s) : d.rest t = [] := by
  induction n generalizing s with
  | zero => cases h
  | succ n ih =>
    unfold parseAll at h
    split at h
    · rename_i hnode
      cases h
      exact rest_of_ended hs hnode
    · exact ih h (settled_next _)

/-! ## Elements -/

/-- `begin` goes to the children of the current node. -/
theorem rest_begin {node : Node} (hnode : s.cur.node = some node) (e : E) :
    d.rest (d.begin s e) = node.children.filter d.stops := by
  have hposted := posted_foldl_postprocess (d := d) (s.call (.begin e)).posts (s.call (.begin e))
  obtain ⟨u, hbegin, hcur⟩ : ∃ u : Parser E A V R, d.begin s e = d.setNode
      { u with cur := ⟨0, e, u.cur.node⟩, stack := u.cur :: u.stack, posts := [], lastError := u.cur.node } ∧
      u.cur = s.cur := ⟨_, rfl, hposted.cur⟩
  have hparent : Parser.parent
      { u with cur := ⟨0, e, u.cur.node⟩, stack := u.cur :: u.stack, posts := [], lastError := u.cur.node } =
      some node := by
    rw [← hnode, ← hcur]
    rfl
  rw [hbegin, rest_setNode hparent, rest_of_parent hparent]
  rfl

/-- `end` goes over the element. -/
theorem rest_endElement (hstack : u.stack = s.cur :: s.stack) :
    d.rest (d.endElement u true) = d.rest (d.next s) := by
  obtain ⟨v, hend, hcur, hstack'⟩ : ∃ v : Parser E A V R, d.endElement u true = d.next v ∧ v.cur = s.cur ∧
      v.stack = s.stack := by
    unfold endElement
    rw [hstack]
    exact ⟨_, rfl, rfl, rfl⟩
  rw [hend]
  refine rest_congr (by rw [next_stack, next_stack, hstack']) ?_
  exact setNode_cur_congr hstack' (by rw [hcur]) (by rw [hcur])

/-! ## What is accepted -/

section Accept

variable [DecidableEq A]

/-- The attributes that are accepted are there, if they are required. -/
theorem complete_of_parseAttributes {as : List A} (h : d.parseAttributes as s = .returned (true, t)) {node : Node}
    (hnode : s.cur.node = some node) :
    ∀ a ∈ as, (d.attr a).required → (node.getAttributeValue (d.attr a).name).isSome := by
  induction as generalizing s with
  | nil => exact fun _ ha => nomatch ha
  | cons a as ih =>
    obtain ⟨⟨accepted, s₁⟩, hattr, h⟩ := Outcome.bind_eq_returned_iff.mp h
    cases accepted with
    | false => cases h
    | true =>
      have hcur := (attributed_parseAttribute hattr).cur
      intro a' ha' hrequired
      rcases mem_cons.mp ha' with rfl | ha'
      · unfold parseAttribute at hattr
        rw [hnode, bind_some] at hattr
        cases hvalue : node.getAttributeValue (d.attr a').name with
        | some value => rfl
        | none =>
          rw [hvalue] at hattr
          simp [hrequired] at hattr
      · exact ih h (hcur ▸ hnode) a' ha' hrequired

/-- A content that leaves the position where it was has gone over nothing. -/
theorem Parses.rest_of_false {con : Content E} (h : d.Parses con s false t) (hs : d.Settled s) :
    d.rest t = d.rest s :=
  rest_congr h.scanned.stack (h.cur_of_false (Or.inl hs) rfl)

/-- A content that is recognized has gone over nodes that it describes; an element also at the root. -/
theorem Parses.matches {con : Content E} {b : Bool} (h : d.Parses con s b t) : b = true →
    (∀ e, con = .element e → ∃ node, s.cur.node = some node ∧ d.Valid e node) ∧
      (d.Settled s → ∃ l, d.rest s = l ++ d.rest t ∧ d.Matches con l) := by
  induction h with
  | element_other => exact fun hb => absurd hb Bool.false_ne_true
  | element_rejected => exact fun hb => absurd hb Bool.false_ne_true
  | element_left => exact fun hb => absurd hb Bool.false_ne_true
  | @element e s t u b hat hattrs hcontent hended ih =>
    intro hb
    obtain ⟨attributes, children, hnode⟩ := hat
    have hattr := attributed_parseAttributes hattrs
    obtain ⟨hstack, -, hsettled, -⟩ := begin_spec (d := d) t e
    have hstack' : u.stack = t.cur :: t.stack := hcontent.scanned.stack.trans hstack
    have hvalid : d.Valid e (.element (d.element e).name attributes children) := by
      refine .element (complete_of_parseAttributes hattrs hnode) ?_
      obtain ⟨l, hrest, hl⟩ := (ih hb).2 hsettled
      -- the content has gone over all the children
      rw [rest_of_ended (hcontent.scanned.settled hsettled) (isNone_iff_eq_none.mp hended), append_nil,
        rest_begin (hattr.cur ▸ hnode)] at hrest
      exact hrest ▸ hl
    refine ⟨fun e' he => ?_, fun hs => ?_⟩
    · cases he
      exact ⟨_, hnode, hvalid⟩
    · refine ⟨[_], ?_, hvalid⟩
      have hs' : d.Settled t := (settled_congr hattr.stack hattr.cur).mpr hs
      rw [hb, rest_endElement hstack', ← rest_congr hattr.stack hattr.cur, rest_next hs' (hattr.cur ▸ hnode)]
      rfl
  | optional_ended => exact fun _ => ⟨fun _ he => (nomatch he), fun _ => ⟨[], rfl, .optional_none⟩⟩
  | @optional con s t b hended hcon ih =>
    refine fun _ => ⟨fun _ he => (nomatch he), fun hs => ?_⟩
    cases b with
    | false => exact ⟨[], (hcon.rest_of_false hs).symm, .optional_none⟩
    | true =>
      obtain ⟨l, hrest, hl⟩ := (ih rfl).2 hs
      exact ⟨l, hrest, .optional hl⟩
  | alt_first _ ih =>
    refine fun _ => ⟨fun _ he => (nomatch he), fun hs => ?_⟩
    obtain ⟨l, hrest, hl⟩ := (ih rfl).2 hs
    exact ⟨l, hrest, .alt_first hl⟩
  | alt_second hcon1 _ _ ih2 =>
    refine fun hb => ⟨fun _ he => (nomatch he), fun hs => ?_⟩
    obtain ⟨l, hrest, hl⟩ := (ih2 hb).2 (hcon1.scanned.settled hs)
    exact ⟨l, by rw [← hrest, hcon1.rest_of_false hs], .alt_second hl⟩
  | seq_ended => exact fun hb => absurd hb Bool.false_ne_true
  | seq_first => exact fun hb => absurd hb Bool.false_ne_true
  | seq_second => exact fun hb => absurd hb Bool.false_ne_true
  | seq _ hcon1 _ ih1 ih2 =>
    refine fun _ => ⟨fun _ he => (nomatch he), fun hs => ?_⟩
    obtain ⟨l, hrest, hl⟩ := (ih1 rfl).2 hs
    obtain ⟨l', hrest', hl'⟩ := (ih2 rfl).2 (hcon1.scanned.settled hs)
    exact ⟨l ++ l', by rw [hrest, hrest', append_assoc], .seq hl hl'⟩
  | repeat_ended => exact fun _ => ⟨fun _ he => (nomatch he), fun _ => ⟨[], rfl, .repeat_nil⟩⟩
  | repeat_stop _ hcon =>
    exact fun _ => ⟨fun _ he => (nomatch he), fun hs => ⟨[], (hcon.rest_of_false hs).symm, .repeat_nil⟩⟩
  | repeat_next _ hcon _ ih1 ih2 =>
    refine fun hb => ⟨fun _ he => (nomatch he), fun hs => ?_⟩
    obtain ⟨l, hrest, hl⟩ := (ih1 rfl).2 hs
    obtain ⟨l', hrest', hl'⟩ := (ih2 hb).2 (hcon.scanned.settled hs)
    exact ⟨l ++ l', by rw [hrest, hrest', append_assoc], .repeat_append hl hl'⟩
  | @empty s t n b hempty =>
    refine fun hb => ⟨fun _ he => (nomatch he), fun hs => ?_⟩
    rw [hb] at hempty
    obtain ⟨hrest, hall⟩ := parseEmpty_matches hempty hs
    exact ⟨_, by rw [hrest, append_nil], .empty hall⟩
  | @ignored s t n b hall =>
    refine fun _ => ⟨fun _ he => (nomatch he), fun hs => ⟨d.rest s, ?_, .ignored⟩⟩
    rw [parseAll_rest hall hs, append_nil]
  | @pcdata s =>
    refine fun hb => ⟨fun _ he => (nomatch he), fun hs => ?_⟩
    unfold parsePCDATA at hb ⊢
    split at hb
    · exact ⟨[], rest_congr rfl rfl, .pcdata_nil⟩
    · rename_i text hnode
      refine ⟨[.text text], ?_, .pcdata⟩
      rw [rest_next hs hnode]
      have hnext : d.rest (d.next (s.call (.getPCDATA text))) = d.rest (d.next s) :=
        rest_congr (by rw [next_stack, next_stack]; rfl) (setNode_cur_congr rfl rfl rfl)
      rw [hnext]
      rfl
    · cases hb
  | @any s t n b hall =>
    refine fun _ => ⟨fun _ he => (nomatch he), fun hs => ⟨d.rest s, ?_, .any⟩⟩
    rw [parseAll_rest hall hs, append_nil]

/-- A document that is accepted is one that the DTD describes. -/
theorem valid_of_parseDocument {n : Nat} {root : E} {xelt : Node}
    (h : d.parseDocument n root xelt s = .returned t) : d.Valid root xelt := by
  obtain ⟨s₁, -, h⟩ := Outcome.bind_eq_returned_iff.mp h
  obtain ⟨⟨success, s₂⟩, hparse, h⟩ := Outcome.bind_eq_returned_iff.mp h
  cases success with
  | false => cases h
  | true =>
    obtain ⟨node, hnode, hvalid⟩ := ((parses_of_parse hparse).matches rfl).1 root rfl
    rw [some.inj hnode]
    exact hvalid

end Accept

/-- A document with the two children. -/
theorem valid_of_parseDocument_pair :
    ∃ t, pair.parseDocument 5 0 (.element ['0'] [] [.element ['1'] [] [], .text [' '], .element ['2'] [] []])
        (onElement .other) = .returned t ∧
      pair.Valid 0 (.element ['0'] [] [.element ['1'] [] [], .text [' '], .element ['2'] [] []]) :=
  ⟨_, rfl, valid_of_parseDocument (n := 5) (s := onElement .other) rfl⟩

/-! ## The account of the references -/

/-- The references that the factory was asked to patch later. -/
def asked (cs : List (Call E A R)) : Multiset (A × Option R) :=
  (cs.filterMap fun c => match c with | .getPatchRef a object => some (a, object) | _ => none : List (A × Option R))

/-- The references that were patched. -/
def patched (cs : List (Call E A R)) : Multiset (A × Option R) :=
  (cs.filterMap fun c => match c with | .patch a object _ => some (a, object) | _ => none : List (A × Option R))

theorem asked_append (cs cs' : List (Call E A R)) : asked (cs ++ cs') = asked cs + asked cs' := by
  unfold asked
  rw [filterMap_append, Multiset.coe_add]

theorem patched_append (cs cs' : List (Call E A R)) : patched (cs ++ cs') = patched cs + patched cs' := by
  unfold patched
  rw [filterMap_append, Multiset.coe_add]

/-- The references of some patches. -/
def waiting (bs : List (Backpatch A R)) : Multiset (A × Option R) := (bs.map fun b => (b.attr, b.object) : List _)

/-- The references that wait in the pending patches. -/
def pending (s : Parser E A V R) : Multiset (A × Option R) := (s.patches.entries.map fun x => waiting x.2).sum

theorem sum_kerase {α : Type} [DecidableEq α] {β : Type} {M : Type} [AddCommMonoid M] (f : β → M) (k : α)
    (l : List (Sigma fun _ : α => β)) :
    (l.map fun x => f x.2).sum = ((l.dlookup k).elim 0 f) + ((l.kerase k).map fun x => f x.2).sum := by
  induction l with
  | nil => simp
  | cons x l ih =>
    obtain ⟨k', v⟩ := x
    by_cases hk : k = k'
    · subst hk
      have hkerase : kerase k (⟨k, v⟩ :: l) = l :=
        kerase_cons_eq (s := (⟨k, v⟩ : Sigma fun _ => β)) rfl
      rw [dlookup_cons_eq, hkerase, map_cons, sum_cons, elim_some]
    · have hkerase : kerase k (⟨k', v⟩ :: l) = ⟨k', v⟩ :: kerase k l :=
        kerase_cons_ne (s := (⟨k', v⟩ : Sigma fun _ => β)) hk
      rw [dlookup_cons_ne l (⟨k', v⟩ : Sigma fun _ => β) hk, hkerase, map_cons, sum_cons,
        map_cons, sum_cons, ih, add_left_comm]

/-- The references that the factory is asked to patch are patched later or still wait, and none is patched before it
is asked. -/
def Accounts (s t : Parser E A V R) : Prop :=
  ∃ cs, t.calls = s.calls ++ cs ∧ pending s + asked cs = patched cs + pending t ∧
    ∀ cs', cs' <+: cs → patched cs' ≤ pending s + asked cs'

theorem Accounts.trans (h : Accounts s t) (h' : Accounts t u) : Accounts s u := by
  obtain ⟨cs, hcs, hsum, hle⟩ := h
  obtain ⟨cs', hcs', hsum', hle'⟩ := h'
  refine ⟨cs ++ cs', by rw [hcs', hcs, append_assoc], ?_, fun p hp => ?_⟩
  · rw [asked_append, patched_append, ← add_assoc, hsum, add_assoc, hsum', add_assoc]
  · obtain ⟨q, hq⟩ := hp
    rcases append_eq_append_iff.mp hq with ⟨r, hr, -⟩ | ⟨p', rfl, hp'⟩
    · exact hle p ⟨r, hr.symm⟩
    · rw [asked_append, patched_append, ← add_assoc, hsum, add_assoc]
      exact add_le_add_right (hle' p' ⟨q, hp'.symm⟩) _

/-- The calls that are not about references to patch. -/
def Neutral (c : Call E A R) : Prop := asked [c] = 0 ∧ patched [c] = 0

theorem asked_of_neutral {cs : List (Call E A R)} (h : ∀ c ∈ cs, Neutral c) : asked cs = 0 ∧ patched cs = 0 := by
  induction cs with
  | nil => exact ⟨rfl, rfl⟩
  | cons c cs ih =>
    obtain ⟨hasked, hpatched⟩ := h c mem_cons_self
    obtain ⟨hasked', hpatched'⟩ := ih fun c' hc' => h c' (mem_cons_of_mem _ hc')
    rw [← singleton_append, asked_append, patched_append, hasked, hasked', hpatched, hpatched']
    exact ⟨rfl, rfl⟩

/-- Where the patches stay, the other calls change nothing. -/
theorem Accounts.of_neutral {cs : List (Call E A R)} (hpatches : t.patches = s.patches)
    (hcalls : t.calls = s.calls ++ cs) (h : ∀ c ∈ cs, Neutral c) : Accounts s t := by
  obtain ⟨hasked, hpatched⟩ := asked_of_neutral h
  have hpending : pending t = pending s := by
    unfold pending
    rw [hpatches]
  refine ⟨cs, hcalls, by rw [hasked, hpatched, hpending, add_zero, zero_add], fun cs' hinit => ?_⟩
  rw [(asked_of_neutral fun c hc => h c (hinit.subset hc)).2]
  exact Multiset.zero_le _

theorem Accounts.of_calls (hpatches : t.patches = s.patches) (hcalls : t.calls = s.calls) : Accounts s t :=
  .of_neutral hpatches (hcalls.trans (append_nil _).symm) fun _ hc => nomatch hc

/-- The patches of an identifier leave the pending ones. -/
theorem pending_eq (s : Parser E A V R) (id : List Char) :
    pending s =
      waiting ((s.patches.lookup id).getD []) + ((s.patches.entries.kerase id).map fun x => waiting x.2).sum := by
  unfold pending
  rw [sum_kerase waiting id]
  unfold AList.lookup
  cases s.patches.entries.dlookup id <;> rfl

theorem patched_patches (p : Option R) (bs : List (Backpatch A R)) :
    patched (bs.map fun b => (.patch b.attr b.object p : Call E A R)) = waiting bs ∧
      asked (bs.map fun b => (.patch b.attr b.object p : Call E A R)) = 0 := by
  induction bs with
  | nil => exact ⟨rfl, rfl⟩
  | cons b bs ih =>
    rw [map_cons, ← singleton_append, asked_append, patched_append, ih.1, ih.2]
    exact ⟨rfl, rfl⟩

theorem calls_foldl_patch (p : Option R) (bs : List (Backpatch A R)) (s : Parser E A V R) :
    (bs.foldl (fun s b => s.call (.patch b.attr b.object p)) s).calls =
      s.calls ++ bs.map fun b => .patch b.attr b.object p := by
  induction bs generalizing s with
  | nil => exact (append_nil _).symm
  | cons b bs ih =>
    rw [foldl_cons, ih, map_cons]
    exact append_assoc s.calls [_] _

theorem patched_le {cs cs' : List (Call E A R)} (h : cs' <+: cs) : patched cs' ≤ patched cs := by
  obtain ⟨rest, rfl⟩ := h
  rw [patched_append]
  exact Multiset.le_add_right _ _

/-- The calls of `recordID`, which takes the patches of the identifier from the pending ones. -/
theorem recordID_spec (s : Parser E A V R) (id : List Char) (e : E) :
    (d.recordID s id e).calls = s.calls ++ .getRef e (d.factory.getRef s e) ::
        ((s.patches.lookup id).getD []).map (fun b => .patch b.attr b.object (d.factory.getRef s e)) ∧
      (d.recordID s id e).patches.entries = s.patches.entries.kerase id := by
  unfold recordID
  dsimp only
  split
  · rename_i hnone
    have hnone' : s.patches.lookup id = none := hnone
    rw [hnone']
    exact ⟨rfl, (kerase_of_notMem_keys (AList.lookup_eq_none.mp hnone')).symm⟩
  · rename_i bs hbs
    have hbs' : s.patches.lookup id = some bs := hbs
    rw [hbs']
    refine ⟨(calls_foldl_patch _ bs _).trans (append_assoc s.calls [_] _), ?_⟩
    exact congrArg (fun l : AList _ => l.entries.kerase id) (foldl_patch _ bs _).1.patches

theorem accounts_recordID (s : Parser E A V R) (id : List Char) (e : E) : Accounts s (d.recordID s id e) := by
  obtain ⟨hcalls, hentries⟩ := recordID_spec (d := d) s id e
  generalize d.factory.getRef s e = p at hcalls
  obtain ⟨hpatched, hasked⟩ := patched_patches (E := E) p ((s.patches.lookup id).getD [])
  have hget : asked [(.getRef e p : Call E A R)] = 0 ∧ patched [(.getRef e p : Call E A R)] = 0 := ⟨rfl, rfl⟩
  refine ⟨_, hcalls, ?_, fun cs' hinit => ?_⟩
  · rw [← singleton_append, asked_append, patched_append, hasked, hpatched, hget.1, hget.2, add_zero, add_zero,
      zero_add, pending_eq s id, ← hentries]
    rfl
  · refine (patched_le hinit).trans ?_
    rw [← singleton_append, patched_append, hpatched, hget.2, zero_add, pending_eq s id]
    exact (Multiset.le_add_right _ _).trans (Multiset.le_add_right _ _)

theorem accounts_recordPatch (s : Parser E A V R) (id : List Char) (a : A) : Accounts s (d.recordPatch s id a) := by
  have hcalls : (d.recordPatch s id a).calls = s.calls ++ [.getPatchRef a (d.factory.getPatchRef s a)] := rfl
  have hentries : (d.recordPatch s id a).patches.entries =
      ⟨id, ⟨a, d.factory.getPatchRef s a, s.cur.node⟩ :: (s.patches.lookup id).getD []⟩ ::
        s.patches.entries.kerase id := rfl
  generalize d.factory.getPatchRef s a = p at hcalls hentries
  have hget : asked [(.getPatchRef a p : Call E A R)] = {(a, p)} ∧ patched [(.getPatchRef a p : Call E A R)] = 0 :=
    ⟨rfl, rfl⟩
  refine ⟨_, hcalls, ?_, fun cs' hinit => ?_⟩
  · have hwaiting : waiting (⟨a, p, s.cur.node⟩ :: (s.patches.lookup id).getD []) =
        {(a, p)} + waiting ((s.patches.lookup id).getD []) := rfl
    rw [pending_eq s id, pending, hentries, map_cons, sum_cons, hwaiting, hget.1, hget.2, zero_add,
      add_comm, add_assoc]
  · refine (patched_le hinit).trans ?_
    rw [hget.2]
    exact Multiset.zero_le _

theorem accounts_postprocess (s : Parser E A V R) (a : A) : Accounts s (d.postprocess s a) := by
  unfold postprocess
  split
  · exact accounts_recordID ..
  · exact accounts_recordPatch ..
  · exact .of_calls rfl rfl

theorem accounts_foldl (as : List A) (s : Parser E A V R) : Accounts s (as.foldl d.postprocess s) := by
  induction as generalizing s with
  | nil => exact .of_calls rfl rfl
  | cons a as ih => exact (accounts_postprocess s a).trans (ih _)

theorem accounts_begin (s : Parser E A V R) (e : E) : Accounts s (d.begin s e) := by
  have hcall : Accounts s (s.call (.begin e)) :=
    .of_neutral rfl rfl fun c hc => by rw [mem_singleton.mp hc]; exact ⟨rfl, rfl⟩
  have hfold := hcall.trans (accounts_foldl (d := d) (s.call (.begin e)).posts _)
  refine hfold.trans (.of_calls ?_ ?_)
  · exact (traceless_setNode _).patches
  · exact setNode_calls _

theorem accounts_endElement (hstack : u.stack = s.cur :: s.stack) (success : Bool) :
    Accounts u (d.endElement u success) := by
  refine .of_neutral (traceless_endElement u success).patches (endElement_spec hstack success).2.2.2.2 fun c hc => ?_
  rw [mem_singleton.mp hc]
  cases success <;> exact ⟨rfl, rfl⟩

theorem accounts_backtrack (s : Parser E A V R) (m : Nat) : Accounts s (d.backtrack s m) :=
  .of_calls (traceless_backtrack s m).patches (backtrack_calls s m)

section Run

variable [DecidableEq A]

theorem accounts_parseAttributes {as : List A} {b : Bool} (h : d.parseAttributes as s = .returned (b, t)) :
    Accounts s t :=
  .of_calls (attributed_parseAttributes h).patches (attributed_parseAttributes h).calls

/-- Each content keeps the account, also one that is not recognized. -/
theorem Parses.accounts {con : Content E} {b : Bool} (h : d.Parses con s b t) : Accounts s t := by
  induction h with
  | element_other => exact .of_calls rfl rfl
  | element_rejected _ hattrs => exact accounts_parseAttributes hattrs
  | @element_left e s t u b _ hattrs hcontent _ ih =>
    have hstack := hcontent.scanned.stack.trans (begin_spec (d := d) t e).1
    refine ((accounts_parseAttributes hattrs).trans (accounts_begin t e)).trans (ih.trans ?_)
    exact (Accounts.of_calls rfl rfl).trans (accounts_endElement (u := u.recordError) (s := t) hstack false)
  | @element e s t u b _ hattrs hcontent _ ih =>
    have hstack := hcontent.scanned.stack.trans (begin_spec (d := d) t e).1
    exact ((accounts_parseAttributes hattrs).trans (accounts_begin t e)).trans
      (ih.trans (accounts_endElement hstack b))
  | optional_ended => exact .of_calls rfl rfl
  | optional _ _ ih => exact ih
  | alt_first _ ih => exact ih
  | alt_second _ _ ih1 ih2 => exact ih1.trans ih2
  | seq_ended => exact .of_calls rfl rfl
  | seq_first _ _ ih => exact ih.trans (accounts_backtrack _ _)
  | seq_second _ _ _ ih1 ih2 => exact (ih1.trans ih2).trans (accounts_backtrack _ _)
  | seq _ _ _ ih1 ih2 => exact ih1.trans ih2
  | repeat_ended => exact .of_calls rfl rfl
  | repeat_stop _ _ ih => exact ih
  | repeat_next _ _ _ ih1 ih2 => exact ih1.trans ih2
  | empty hempty => exact .of_calls (traceless_parseEmpty hempty).patches (parseEmpty_spec _ hempty).2.1
  | ignored hall =>
    obtain ⟨-, -, cs, hcs, hany⟩ := parseAll_spec false hall
    refine .of_neutral (traceless_parseAll hall).patches hcs fun c hc => ?_
    obtain ⟨node, rfl⟩ := hany c hc
    exact ⟨rfl, rfl⟩
  | pcdata =>
    obtain ⟨-, -, cs, hcs, hdata⟩ := parsePCDATA_spec (d := d) _
    refine .of_neutral (traceless_parsePCDATA _).patches hcs fun c hc => ?_
    obtain ⟨data, rfl⟩ := hdata c hc
    exact ⟨rfl, rfl⟩
  | any hall =>
    obtain ⟨-, -, cs, hcs, hany⟩ := parseAll_spec true hall
    refine .of_neutral (traceless_parseAll hall).patches hcs fun c hc => ?_
    obtain ⟨node, rfl⟩ := hany c hc
    exact ⟨rfl, rfl⟩

theorem resetContent_patches {n : Nat} {con : Content E} (h : d.resetContent n con s = .returned t) :
    t.patches = s.patches := by
  have hfold : ∀ (as : List A) (s : Parser E A V R), (as.foldl d.reset s).patches = s.patches := by
    intro as
    induction as with
    | nil => exact fun _ => rfl
    | cons a as ih => exact fun s => ih (d.reset s a)
  induction n generalizing con s t with
  | zero => cases h
  | succ n ih =>
    cases con with
    | element e => exact (ih h).trans (hfold _ _)
    | optional con | «repeat» con => exact ih h
    | alt con1 con2 | seq con1 con2 =>
      obtain ⟨u, hcon1, hcon2⟩ := Outcome.bind_eq_returned_iff.mp h
      exact (ih hcon2).trans (ih hcon1)
    | empty | ignored | pcdata | any =>
      cases h
      rfl

/-- In a document that is accepted, each reference that the factory was asked to patch later is patched exactly
once, and not before it was asked. -/
theorem patched_of_parseDocument {n : Nat} {root : E} {xelt : Node}
    (h : d.parseDocument n root xelt s = .returned t) :
    ∃ cs, t.calls = s.calls ++ cs ∧ asked cs = patched cs ∧ ∀ cs', cs' <+: cs → patched cs' ≤ asked cs' := by
  obtain ⟨s₁, hreset, h⟩ := Outcome.bind_eq_returned_iff.mp h
  obtain ⟨⟨success, s₂⟩, hparse, h⟩ := Outcome.bind_eq_returned_iff.mp h
  have hpatches : s₁.patches = ∅ := resetContent_patches hreset
  have hcalls := (calls_resetContent (n := n)).1 s₁ hreset
  obtain ⟨cs, hcs, hsum, hle⟩ := (parses_of_parse hparse).accounts
  have hstart : pending { s₁ with cur := ⟨0, root, some xelt⟩, lastError := some xelt } = 0 := by
    unfold pending
    rw [hpatches]
    rfl
  rw [hstart, zero_add] at hsum
  simp only [hstart, zero_add] at hle
  cases success with
  | false => cases h
  | true =>
    dsimp only at h
    split at h
    · cases h
    · split at h
      · rename_i hentries
        cases h
        -- no reference waits any more
        have hend : pending t = 0 := by
          unfold pending
          rw [hentries]
          rfl
        rw [hend, add_zero] at hsum
        exact ⟨cs, hcs.trans (congrArg (· ++ cs) hcalls), hsum, hle⟩
      · cases h

end Run

/-- The root has a reference `y` and its child an identifier `x`. -/
def forward : Definition Bool Bool Unit Nat where
  element
    | true => ⟨['r'], [true], .element false⟩
    | false => ⟨['a'], [false], .empty⟩
  attr
    | true => ⟨true, ['y'], true, false, true, .ref⟩
    | false => ⟨false, ['x'], true, false, false, .id⟩
  factory := ⟨fun _ _ => some 0, fun _ _ => some 1⟩
  crop := true
  element_of_mem e a ha := by
    cases e <;> cases ha <;> first | rfl | contradiction
  nodup_attrs e := by
    cases e <;> decide

/-- The reference is before the element that it names. -/
theorem patched_of_parseDocument_forward :
    ∃ s t, s = ⟨⟨0, true, none⟩, [], ∅, ∅, [], none, fun _ => ⟨false, (), [], [], false, none⟩, []⟩ ∧
      forward.parseDocument 5 true (.element ['r'] [(['y'], ['1'])] [.element ['a'] [(['x'], ['1'])] []]) s =
        .returned t ∧
      t.calls = [.begin true, .getPatchRef true (some 1), .begin false, .getRef false (some 0),
        .patch true (some 1) (some 0), .endElement false, .endElement true] ∧
      ∃ cs, t.calls = s.calls ++ cs ∧ asked cs = patched cs ∧ ∀ cs', cs' <+: cs → patched cs' ≤ asked cs' := by
  have hparse : ∃ t, forward.parseDocument 5 true (.element ['r'] [(['y'], ['1'])] [.element ['a'] [(['x'], ['1'])] []])
      ⟨⟨0, true, none⟩, [], ∅, ∅, [], none, fun _ => ⟨false, (), [], [], false, none⟩, []⟩ = .returned t := ⟨_, rfl⟩
  obtain ⟨t, ht⟩ := hparse
  refine ⟨_, t, rfl, ht, ?_, patched_of_parseDocument ht⟩
  cases ht
  rfl

end Elm.Dtd.Definition
