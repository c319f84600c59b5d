import Elm.Data.LinkedList

/-!
# The operations of `List`

What an operation does to the nodes of its list, the other nodes being left as they are.  In every run the
lists agree with mathematical lists that undergo the same operations, if and only if no list that has elements is
copied to itself.
-/

namespace Elm.Data.LinkedList

open Chain Function List Option

variable {T : Type} {m m' : Memory T} {s s' s'' : SLList T} {cells cells' cells'' xs ys : List (Nat × T)}
  {a b : Nat} {v w : T}

/-! ## The nodes of a list -/

/-- The nodes of a list; no node has been made after the last one. -/
structure SLList.Holds (s : SLList T) (cells : List (Nat × T)) : Prop where
  list : IsList s.mem.nodes s.fst cells
  fresh : ∀ a, s.mem.next ≤ a → s.mem.nodes a = none

/-- An operation on a list: it leaves the nodes of the other lists, and adds new nodes only. -/
structure Change (s s' : SLList T) (cells cells' : List (Nat × T)) : Prop where
  holds : s'.Holds cells'
  frame : ∀ a < s.mem.next, a ∉ cells.map Prod.fst → s'.mem.nodes a = s.mem.nodes a
  next : s.mem.next ≤ s'.mem.next
  addrs : ∀ a ∈ cells'.map Prod.fst, a ∈ cells.map Prod.fst ∨ s.mem.next ≤ a

theorem SLList.Holds.lt_of_read (h : s.Holds cells) {c : Option Nat × T} (hread : s.mem.nodes a = some c) :
    a < s.mem.next := by
  by_contra hge
  rw [h.fresh a (Nat.le_of_not_lt hge)] at hread
  cases hread

theorem SLList.Holds.lt_of_mem (h : s.Holds cells) (ha : a ∈ cells.map Prod.fst) : a < s.mem.next := by
  obtain ⟨⟨a, v⟩, hmem, rfl⟩ := mem_map.mp ha
  obtain ⟨p, hread⟩ := Seg.read_of_mem h.list hmem
  exact h.lt_of_read hread

theorem SLList.Holds.next_not_mem (h : s.Holds cells) : s.mem.next ∉ cells.map Prod.fst :=
  fun hmem => absurd (h.lt_of_mem hmem) (Nat.lt_irrefl _)

/-- A loop over the list ends. -/
theorem SLList.Holds.length_le (h : s.Holds cells) : cells.length ≤ s.mem.next := by
  have hall : ∀ a, (s.mem.nodes a).isSome → a ∈ List.range s.mem.next := by
    intro a ha
    obtain ⟨c, hc⟩ := isSome_iff_exists.mp ha
    exact mem_range.mpr (h.lt_of_read hc)
  have hle := IsList.length_le h.list hall
  rwa [length_range] at hle

theorem Change.refl (h : s.Holds cells) : Change s s cells cells :=
  ⟨h, fun _ _ _ => rfl, Nat.le_refl _, fun _ ha => Or.inl ha⟩

theorem Change.trans (h₁ : Change s s' cells cells') (h₂ : Change s' s'' cells' cells'') :
    Change s s'' cells cells'' := by
  have hold : ∀ a < s.mem.next, a ∉ cells.map Prod.fst → a ∉ cells'.map Prod.fst := by
    intro a hlt hnot hmem
    rcases h₁.addrs a hmem with hin | hge
    · exact hnot hin
    · omega
  refine ⟨h₂.holds, fun a hlt hnot => ?_, h₁.next.trans h₂.next, fun a ha => ?_⟩
  · rw [h₂.frame a (Nat.lt_of_lt_of_le hlt h₁.next) (hold a hlt hnot), h₁.frame a hlt hnot]
  · rcases h₂.addrs a ha with hin | hge
    · exact h₁.addrs a hin
    · exact Or.inr (h₁.next.trans hge)

/-- Another list of the same memory. -/
theorem Change.other (h : Change s s' cells cells') {p : Option Nat} (hp : IsList s.mem.nodes p xs)
    (hfresh : ∀ a, s.mem.next ≤ a → s.mem.nodes a = none)
    (hdisj : ∀ a ∈ xs.map Prod.fst, a ∉ cells.map Prod.fst) : IsList s'.mem.nodes p xs := by
  refine hp.congr fun x hx => ?_
  have hlt : x.1 < s.mem.next := SLList.Holds.lt_of_mem (s := ⟨s.mem, p⟩) ⟨hp, hfresh⟩ (mem_map_of_mem hx)
  exact h.frame x.1 hlt (hdisj x.1 (mem_map_of_mem hx))

/-- A node of the list, its pointer and the nodes behind. -/
theorem SLList.Holds.read (h : s.Holds (xs ++ (a, v) :: ys)) :
    ∃ p, s.mem.nodes a = some (p, v) ∧ IsList s.mem.nodes p ys := by
  obtain ⟨q, -, -, p, hread, hys⟩ := seg_append.mp h.list
  exact ⟨p, hread, hys⟩

theorem SLList.Holds.nxt_eq (h : s.Holds (xs ++ (a, v) :: ys)) :
    ∃ p, s.mem.nxt a = some p ∧ IsList s.mem.nodes p ys := by
  obtain ⟨p, hread, hys⟩ := h.read
  exact ⟨p, by rw [Memory.nxt, hread]; rfl, hys⟩

theorem SLList.Holds.val_eq (h : s.Holds (xs ++ (a, v) :: ys)) : s.mem.val a = some v := by
  obtain ⟨p, hread, -⟩ := h.read
  rw [Memory.val, hread]
  rfl

theorem SLList.Holds.nxt_head (h : s.Holds ((a, v) :: ys)) :
    ∃ p, s.mem.nxt a = some p ∧ IsList s.mem.nodes p ys := by
  have happ : s.Holds ([] ++ (a, v) :: ys) := h
  exact happ.nxt_eq

theorem SLList.Holds.val_head (h : s.Holds ((a, v) :: ys)) : s.mem.val a = some v := by
  have happ : s.Holds ([] ++ (a, v) :: ys) := h
  exact happ.val_eq

theorem SLList.Holds.fst_eq (h : s.Holds cells) : s.fst = (cells.map Prod.fst).head? := by
  cases cells with
  | nil => exact h.list
  | cons x xs => exact h.list.1

/-! ## Changes of a node -/

theorem Holds.not_mem_of_append (h : s.Holds (xs ++ (a, v) :: ys)) :
    a ∉ xs.map Prod.fst ∧ a ∉ ys.map Prod.fst := by
  have hnodup := h.list.nodup
  rw [map_append, map_cons, nodup_middle, nodup_cons, mem_append, not_or] at hnodup
  exact hnodup.1

/-- A new node at the front. -/
theorem addFirst_spec (h : s.Holds cells) (v : T) :
    ∃ s', s.addFirst v = some s' ∧ Change s s' cells ((s.mem.next, v) :: cells) := by
  have hnodes : update (update s.mem.nodes s.mem.next (some (none, v))) s.mem.next
      (some (s.fst, v)) = update s.mem.nodes s.mem.next (some (s.fst, v)) := update_idem ..
  refine ⟨⟨⟨update s.mem.nodes s.mem.next (some (s.fst, v)), s.mem.next + 1⟩, some s.mem.next⟩, ?_,
    ⟨h.list.push h.next_not_mem v, fun a ha => ?_⟩, fun a hlt _ => ?_, Nat.le_succ _, ?_⟩
  · simp only [SLList.addFirst, SLList.link, Memory.setNxt, Memory.new, update_self, map_some,
      bind_eq_bind, bind_some, hnodes]
  · exact (update_of_ne (by change s.mem.next + 1 ≤ a at ha; omega) _ _).trans
      (h.fresh a (by change s.mem.next + 1 ≤ a at ha; omega))
  · exact update_of_ne hlt.ne _ _
  · intro a ha
    rcases mem_cons.mp ha with rfl | hin
    · exact Or.inr (Nat.le_refl _)
    · exact Or.inl hin

/-- A new node behind another one. -/
theorem insertAfter_spec (h : s.Holds (xs ++ (b, w) :: ys)) (v : T) :
    ∃ m, (s.mem.new v).insertAfter b s.mem.next = some m ∧
      Change s ⟨m, s.fst⟩ (xs ++ (b, w) :: ys) (xs ++ (b, w) :: (s.mem.next, v) :: ys) := by
  obtain ⟨p, hread, hys⟩ := h.read
  have hlt := h.lt_of_read hread
  have hfresh := h.next_not_mem
  simp only [map_append, map_cons, mem_append, mem_cons, not_or] at hfresh
  obtain ⟨hfxs, -, hfys⟩ := hfresh
  have hmiddle : IsList (update s.mem.nodes s.mem.next (some (p, v))) s.fst (xs ++ (b, w) :: ys) :=
    h.list.update h.next_not_mem _
  have hb : b ∉ ((s.mem.next, v) :: ys).map Prod.fst := by
    rw [map_cons, mem_cons, not_or]
    exact ⟨hlt.ne, (Holds.not_mem_of_append h).2⟩
  refine ⟨⟨update (update s.mem.nodes s.mem.next (some (p, v))) b (some (some s.mem.next, w)),
    s.mem.next + 1⟩, ?_, ⟨hmiddle.splice (hys.push hfys v) hb w, fun a ha => ?_⟩, fun a halt hnot => ?_,
    Nat.le_succ _, fun a ha => ?_⟩
  · simp only [Memory.insertAfter, Memory.nxt, Memory.setNxt, Memory.new, update_self,
      update_of_ne hlt.ne, hread, map_some, bind_eq_bind, bind_some,
      update_idem]
  · change s.mem.next + 1 ≤ a at ha
    exact (update_of_ne (by omega) _ _).trans
      ((update_of_ne (by omega) _ _).trans (h.fresh a (by omega)))
  · have hab : a ≠ b := by
      rintro rfl
      exact hnot (by simp)
    exact (update_of_ne hab _ _).trans (update_of_ne halt.ne _ _)
  · simp only [map_append, map_cons, mem_append, mem_cons] at ha ⊢
    rcases ha with ha | ha | rfl | ha
    · exact Or.inl (Or.inl ha)
    · exact Or.inl (Or.inr (Or.inl ha))
    · exact Or.inr (Nat.le_refl _)
    · exact Or.inl (Or.inr (Or.inr ha))

/-- A node is freed, and the list does not have it any more. -/
theorem free_spec (h : s.Holds cells) {c : Option Nat × T} (hread : s.mem.nodes a = some c)
    (ha : a ∉ cells.map Prod.fst) :
    ∃ m, s.mem.free a = some m ∧ SLList.Holds ⟨m, s.fst⟩ cells ∧ m.next = s.mem.next ∧
      m.nodes = update s.mem.nodes a none := by
  refine ⟨⟨update s.mem.nodes a none, s.mem.next⟩, ?_, ⟨h.list.update ha _, fun b hb => ?_⟩, rfl, rfl⟩
  · rw [Memory.free, hread]
    rfl
  · have hba : b ≠ a := by
      have hlt := h.lt_of_read hread
      change s.mem.next ≤ b at hb
      omega
    exact (update_of_ne hba _ _).trans (h.fresh b hb)

/-- The first node goes. -/
theorem removeFirst_spec (h : s.Holds ((a, v) :: ys)) :
    ∃ s', s.removeFirst = some s' ∧ Change s s' ((a, v) :: ys) ys := by
  obtain ⟨hfst, p, hread, hys⟩ := h.list
  have happ : s.Holds ([] ++ (a, v) :: ys) := h
  have ha := (Holds.not_mem_of_append happ).2
  obtain ⟨m, hfree, hholds, hnext, hnodes⟩ := free_spec (s := ⟨s.mem, p⟩) ⟨hys, h.fresh⟩ hread ha
  refine ⟨⟨m, p⟩, ?_, hholds, fun b _ hb => ?_, hnext.ge, fun b hb => Or.inl (mem_cons_of_mem _ hb)⟩
  · simp only [SLList.removeFirst, SLList.unlink, hfst, Memory.nxt, hread, map_some, bind_eq_bind,
      bind_some]
    rw [hfree]
    rfl
  · have hba : b ≠ a := by
      rintro rfl
      exact hb (by simp)
    change m.nodes b = _
    rw [hnodes]
    exact update_of_ne hba _ _

/-- The node behind another one goes. -/
theorem removeNext_spec (h : s.Holds (xs ++ (b, w) :: (a, v) :: ys)) :
    ∃ m m', s.mem.removeNext b = some m ∧ m.free a = some m' ∧
      Change s ⟨m', s.fst⟩ (xs ++ (b, w) :: (a, v) :: ys) (xs ++ (b, w) :: ys) := by
  obtain ⟨q, hreadb, hrest⟩ := h.read
  obtain ⟨rfl, p, hread, hys⟩ := hrest
  have hb := (Holds.not_mem_of_append h).2
  have hab : a ≠ b := by
    rintro rfl
    exact hb (by simp)
  have hlist := h.list.unlink hread
  have ha : a ∉ (xs ++ (b, w) :: ys).map Prod.fst := by
    have hsplit : s.Holds ((xs ++ [(b, w)]) ++ (a, v) :: ys) := by simpa using h
    obtain ⟨hpre, hpost⟩ := Holds.not_mem_of_append hsplit
    simp only [map_append, map_cons, mem_append, mem_cons, map_nil, not_mem_nil,
      or_false, not_or] at hpre ⊢
    exact ⟨hpre.1, hpre.2, hpost⟩
  have hholds : SLList.Holds ⟨⟨update s.mem.nodes b (some (p, w)), s.mem.next⟩, s.fst⟩
      (xs ++ (b, w) :: ys) := by
    refine ⟨hlist, fun c hc => ?_⟩
    have hcb : c ≠ b := by
      have hlt := h.lt_of_read hreadb
      change s.mem.next ≤ c at hc
      omega
    exact (update_of_ne hcb _ _).trans (h.fresh c hc)
  obtain ⟨m', hfree, hholds', hnext, hnodes⟩ := free_spec hholds ((update_of_ne hab _ _).trans hread) ha
  refine ⟨_, m', ?_, hfree, hholds', fun c _ hc => ?_, hnext.ge, fun c hc => Or.inl ?_⟩
  · simp only [Memory.removeNext, Memory.nxt, Memory.setNxt, hreadb, hread, map_some, bind_eq_bind,
      bind_some]
  · simp only [map_append, map_cons, mem_append, mem_cons, not_or] at hc
    change m'.nodes c = _
    rw [hnodes, update_of_ne hc.2.2.1]
    exact update_of_ne hc.2.1 _ _
  · simp only [map_append, map_cons, mem_append, mem_cons] at hc ⊢
    tauto

/-- The value of a node changes. -/
theorem set_spec (h : s.Holds (xs ++ (a, v) :: ys)) (w : T) :
    ∃ s', s.set (some a) w = some s' ∧ Change s s' (xs ++ (a, v) :: ys) (xs ++ (a, w) :: ys) := by
  obtain ⟨p, hread, hys⟩ := h.read
  have ha := (Holds.not_mem_of_append h).2
  refine ⟨⟨⟨update s.mem.nodes a (some (p, w)), s.mem.next⟩, s.fst⟩, ?_,
    ⟨h.list.splice hys ha w, fun c hc => ?_⟩, fun c _ hc => ?_, Nat.le_refl _, fun c hc => Or.inl ?_⟩
  · simp only [SLList.set, Memory.setVal, hread, map_some, bind_eq_bind, bind_some]
  · have hca : c ≠ a := by
      have hlt := h.lt_of_read hread
      change s.mem.next ≤ c at hc
      omega
    exact (update_of_ne hca _ _).trans (h.fresh c hc)
  · refine update_of_ne ?_ _ _
    rintro rfl
    exact hc (by simp)
  · simpa using hc

/-! ## Loops -/

section Loops

variable {σ ρ : Type}

theorem loop_eq (h : s.Holds cells) {p : Option Nat} (hp : IsList s.mem.nodes p xs) (body : σ → Nat → T → σ ⊕ ρ)
    (exit : σ → ρ) (init : σ) : s.loop body exit p init = some (visit body exit xs init) :=
  hp.walk_eq body exit (SLList.Holds.length_le (s := ⟨s.mem, p⟩) ⟨hp, h.fresh⟩) init

theorem visit_items (seen : List (Nat × T)) :
    visit (fun seen a v => .inl (seen ++ [(a, v)])) id cells seen = seen ++ cells := by
  induction cells generalizing seen with
  | nil => simp [visit]
  | cons x xs ih => simp [visit, ih]

/-- The items of a list are its cells. -/
theorem SLList.Holds.items_eq (h : s.Holds cells) : s.items = some cells := by
  rw [SLList.items, loop_eq h h.list, visit_items, nil_append]

theorem visit_count (cnt : Nat) :
    visit (fun cnt (_ : Nat) (_ : T) => .inl (cnt + 1)) id cells cnt = cnt + cells.length := by
  induction cells generalizing cnt with
  | nil => rfl
  | cons x xs ih =>
    simp only [visit, ih, length_cons]
    omega

theorem visit_contains (f : T → Bool) :
    visit (fun _ (_ : Nat) v => if f v then .inr true else .inl ()) (fun _ => false) cells () =
      (cells.map Prod.snd).any f := by
  induction cells with
  | nil => rfl
  | cons x xs ih =>
    obtain ⟨a, v⟩ := x
    cases hf : f v with
    | true => simp [visit, hf]
    | false => simpa [visit, hf] using ih

theorem visit_find (f : T → Bool) :
    visit (fun _ a v => if f v then .inr (some a) else .inl ()) (fun _ => none) cells () =
      (cells.map Prod.fst)[(cells.map Prod.snd).findIdx f]? := by
  induction cells with
  | nil => rfl
  | cons x xs ih =>
    obtain ⟨a, v⟩ := x
    cases hf : f v with
    | true => simp [visit, hf, findIdx_cons]
    | false => simpa [visit, hf, findIdx_cons] using ih

theorem visit_nth (n : Int) :
    visit (fun n (_ : Nat) v => if n = 0 then .inr (some v) else .inl (n - 1)) (fun _ => none) cells n =
      if 0 ≤ n then (cells.map Prod.snd)[n.toNat]? else none := by
  induction cells generalizing n with
  | nil => simp [visit]
  | cons x xs ih =>
    obtain ⟨a, v⟩ := x
    by_cases hzero : n = 0
    · simp [visit, hzero]
    · rw [visit, if_neg hzero]
      change visit _ _ xs (n - 1) = _
      rw [ih]
      split_ifs with hprev hn hn
      · rw [show n.toNat = (n - 1).toNat + 1 by omega]
        rfl
      · omega
      · omega
      · rfl

theorem visit_last (a : Nat) :
    visit (fun _ b (_ : T) => .inl b) some cells a = (a :: cells.map Prod.fst).getLast? := by
  induction cells generalizing a with
  | nil => rfl
  | cons x xs ih =>
    simp only [visit, ih, map_cons, getLast?_cons_cons]

/-- The loop of a `PrecIter` that stops before the first of some values. -/
theorem visit_before {stop : T → Prop} [DecidablePred stop] (hxs : ∀ v ∈ xs.map Prod.snd, ¬ stop v)
    (hys : ∀ v ∈ ys.map Prod.snd, stop v) (prev : Option Nat) :
    visit (fun prev a v => if stop v then .inr (some ⟨some a, prev⟩) else .inl (some a))
      (fun _ => (none : Option PrecIter)) (xs ++ ys) prev =
        ((ys.map Prod.fst).head?.map fun a => ⟨some a, (xs.map Prod.fst).getLast?.or prev⟩) := by
  induction xs generalizing prev with
  | nil =>
    cases ys with
    | nil => rfl
    | cons y ys =>
      obtain ⟨a, v⟩ := y
      simp [visit, hys v (by simp)]
  | cons x xs ih =>
    obtain ⟨a, v⟩ := x
    have hv : ¬ stop v := hxs v (by simp)
    simp only [cons_append, visit, if_neg hv]
    rw [ih fun w hw => hxs w (mem_cons_of_mem _ hw)]
    congr 1
    funext b
    cases xs with
    | nil => rfl
    | cons y xs =>
      have hlast : ∀ o, ((y :: xs).map Prod.fst).getLast?.or o = ((y :: xs).map Prod.fst).getLast? := by
        intro o
        rw [map_cons, getLast?_cons]
        rfl
      rw [hlast, map_cons (l := y :: xs), map_cons, getLast?_cons_cons, ← map_cons, hlast]

end Loops

/-- The last node. -/
theorem lastNode_eq (h : s.Holds cells) : s.lastNode = some (cells.map Prod.fst).getLast? := by
  unfold SLList.lastNode
  cases cells with
  | nil =>
    rw [h.fst_eq]
    rfl
  | cons x xs =>
    obtain ⟨a, v⟩ := x
    obtain ⟨p, hnxt, hp⟩ := SLList.Holds.nxt_head h
    rw [h.fst_eq]
    simp only [map_cons, head?_cons, hnxt, bind_eq_bind, bind_some]
    rw [loop_eq h hp, ← visit_last]

/-! ## The other changes -/

theorem addLast_spec (h : s.Holds cells) (v : T) :
    ∃ s', s.addLast v = some s' ∧ Change s s' cells (cells ++ [(s.mem.next, v)]) := by
  rcases eq_nil_or_concat cells with rfl | ⟨xs, ⟨b, w⟩, rfl⟩
  · obtain ⟨s', hs', hchange⟩ := addFirst_spec h v
    refine ⟨s', ?_, hchange⟩
    have hnone : s.fst = none := h.fst_eq
    rw [SLList.addLast, if_pos hnone]
    exact hs'
  · rw [concat_eq_append] at h ⊢
    obtain ⟨m, hm, hchange⟩ := insertAfter_spec h v
    rw [append_assoc]
    refine ⟨⟨m, s.fst⟩, ?_, hchange⟩
    have hne : ¬ s.fst = none := by
      rw [h.fst_eq, head?_eq_none_iff]
      simp
    -- the new node is not in the list yet
    have hnew : SLList.Holds ⟨s.mem.new v, s.fst⟩ (xs ++ [(b, w)]) := by
      refine ⟨h.list.update h.next_not_mem _, fun a ha => ?_⟩
      change s.mem.next + 1 ≤ a at ha
      exact (update_of_ne (by omega) _ _).trans (h.fresh a (by omega))
    have hlast := lastNode_eq hnew
    rw [map_append, map_singleton, getLast?_concat] at hlast
    simp only [SLList.addLast, if_neg hne, hlast, bind_eq_bind, bind_some, hm]

theorem addAfter_spec (h : s.Holds (xs ++ (b, w) :: ys)) (v : T) :
    ∃ s', s.addAfter (some b) v = some s' ∧
      Change s s' (xs ++ (b, w) :: ys) (xs ++ (b, w) :: (s.mem.next, v) :: ys) := by
  obtain ⟨m, hm, hchange⟩ := insertAfter_spec h v
  refine ⟨⟨m, s.fst⟩, ?_, hchange⟩
  simp only [SLList.addAfter, bind_eq_bind, bind_some, hm]

/-- The loop of `removeLast` finds the node before the last one. -/
theorem visit_removeLast (xs : List (Nat × T)) (a : Nat) (v : T) (prv : Option Nat) :
    (xs = [] ∧ visit (fun (s : Nat × Option Nat) b (_ : T) => .inl (b, some s.1)) Prod.snd xs (a, prv) = prv) ∨
    ∃ ys p u x, (a, v) :: xs = ys ++ [(p, u), x] ∧
      visit (fun (s : Nat × Option Nat) b (_ : T) => .inl (b, some s.1)) Prod.snd xs (a, prv) = some p := by
  induction xs generalizing a v prv with
  | nil => exact Or.inl ⟨rfl, rfl⟩
  | cons x xs ih =>
    obtain ⟨b, w⟩ := x
    refine Or.inr ?_
    simp only [visit]
    rcases ih b w (some a) with ⟨rfl, hvisit⟩ | ⟨ys, p, u, x, heq, hvisit⟩
    · exact ⟨[], a, v, (b, w), rfl, hvisit⟩
    · exact ⟨(a, v) :: ys, p, u, x, by rw [heq]; rfl, hvisit⟩

theorem removeLast_spec (h : s.Holds (xs ++ [(a, v)])) :
    ∃ s', s.removeLast = some s' ∧ Change s s' (xs ++ [(a, v)]) xs := by
  have hlast := lastNode_eq h
  rw [map_append, map_singleton, getLast?_concat] at hlast
  have hfirst := h.fst_eq
  cases xs with
  | nil =>
    obtain ⟨p, hnxt, hp⟩ := SLList.Holds.nxt_head h
    obtain ⟨s', hs', hchange⟩ := removeFirst_spec h
    refine ⟨s', ?_, hchange⟩
    have hloop := loop_eq h hp (fun (s : Nat × Option Nat) b _ => .inl (b, some s.1)) Prod.snd (a, none)
    rw [← hs']
    simp only [SLList.removeLast, hlast, hfirst, nil_append, map_cons, head?_cons, hnxt, hloop,
      bind_eq_bind, bind_some, SLList.removeFirst]
    rfl
  | cons x xs =>
    obtain ⟨b, w⟩ := x
    obtain ⟨p, hnxt, hp⟩ := SLList.Holds.nxt_head h
    change IsList s.mem.nodes p (xs ++ [(a, v)]) at hp
    have hloop := loop_eq h hp (fun (s : Nat × Option Nat) b _ => .inl (b, some s.1)) Prod.snd (b, none)
    rcases visit_removeLast (xs ++ [(a, v)]) b w none with ⟨hnil, -⟩ | ⟨ys, q, u, y, heq, hvisit⟩
    · simp at hnil
    · have hsplit : (b, w) :: xs = ys ++ [(q, u)] ∧ y = (a, v) := by
        have happ : ((b, w) :: xs) ++ [(a, v)] = (ys ++ [(q, u)]) ++ [y] := by simpa using heq
        obtain ⟨hl, hr⟩ := append_inj' happ rfl
        exact ⟨hl, (singleton_inj.mp hr).symm⟩
      obtain ⟨hl, rfl⟩ := hsplit
      rw [hl, append_assoc] at h ⊢
      obtain ⟨m, m', hremove, hfree, hchange⟩ := removeNext_spec h
      refine ⟨⟨m', s.fst⟩, ?_, hchange⟩
      simp only [SLList.removeLast, hlast, hfirst, cons_append, map_cons, head?_cons, hnxt,
        bind_eq_bind, bind_some, hloop, hvisit, hremove, hfree]

/-- The loop of `remove` finds the first node with the value and the one before. -/
theorem visit_remove (f : T → Bool) (xs : List (Nat × T)) (b : Nat) (w : T) (hw : f w = false) :
    (xs.map Prod.snd).eraseP f = xs.map Prod.snd ∧
      visit (fun prev cur v => if f v then .inr (some (prev, cur)) else .inl cur) (fun _ => none) xs b = none ∨
    ∃ ys zs p u c x, (b, w) :: xs = ys ++ (p, u) :: (c, x) :: zs ∧
      (((b, w) :: xs).map Prod.snd).eraseP f = (ys ++ (p, u) :: zs).map Prod.snd ∧
      visit (fun prev cur v => if f v then .inr (some (prev, cur)) else .inl cur) (fun _ => none) xs b =
        some (p, c) := by
  induction xs generalizing b w with
  | nil => exact Or.inl ⟨rfl, rfl⟩
  | cons y xs ih =>
    obtain ⟨c, x⟩ := y
    cases hx : f x with
    | true => exact Or.inr ⟨[], xs, b, w, c, x, rfl, by simp [hw, hx], by simp [visit, hx]⟩
    | false =>
      simp only [visit, hx, Bool.false_eq_true, if_false]
      rcases ih c x hx with ⟨herase, hvisit⟩ | ⟨ys, zs, p, u, d, z, heq, herase, hvisit⟩
      · exact Or.inl ⟨by simp [hx, herase], hvisit⟩
      · refine Or.inr ⟨(b, w) :: ys, zs, p, u, d, z, by rw [heq]; rfl, ?_, hvisit⟩
        rw [map_cons, eraseP_cons_of_neg (by simp [hw]), herase]
        rfl

theorem remove_spec (isEqual : T → T → Bool) (h : s.Holds cells) (value : T) :
    ∃ s' cells', s.remove isEqual value = some s' ∧ Change s s' cells cells' ∧
      cells'.map Prod.snd = (cells.map Prod.snd).eraseP fun v => isEqual v value := by
  unfold SLList.remove
  cases cells with
  | nil =>
    rw [h.fst_eq]
    exact ⟨s, [], rfl, Change.refl h, rfl⟩
  | cons y xs =>
    obtain ⟨b, w⟩ := y
    have hfst : s.fst = some b := h.fst_eq
    simp only [hfst, SLList.Holds.val_head h, bind_eq_bind,
      bind_some]
    cases hw : isEqual w value with
    | true =>
      obtain ⟨s', hs', hchange⟩ := removeFirst_spec h
      exact ⟨s', xs, by rw [if_pos rfl, hs'], hchange, by simp [hw]⟩
    | false =>
      obtain ⟨p, hnxt, hp⟩ := SLList.Holds.nxt_head h
      simp only [Bool.false_eq_true, if_false, hnxt, bind_some, loop_eq h hp]
      rcases visit_remove (fun v => isEqual v value) xs b w hw with
        ⟨herase, hvisit⟩ | ⟨ys, zs, q, u, c, x, heq, herase, hvisit⟩
      · refine ⟨s, (b, w) :: xs, by rw [hvisit], Change.refl h, ?_⟩
        rw [map_cons, eraseP_cons_of_neg (by simp [hw]), herase]
      · rw [heq] at h
        obtain ⟨m, m', hremove, hfree, hchange⟩ := removeNext_spec h
        refine ⟨⟨m', s.fst⟩, ys ++ (q, u) :: zs, ?_, heq ▸ hchange, herase.symm⟩
        simp only [hvisit, hremove, bind_some, hfree, hfst]

theorem clearLoop_spec {fuel : Nat} (h : s.Holds cells) (hfuel : cells.length ≤ fuel) :
    ∃ s', SLList.clearLoop fuel s = some s' ∧ Change s s' cells [] := by
  induction cells generalizing s fuel with
  | nil =>
    have hfst : s.fst = none := h.fst_eq
    refine ⟨s, ?_, Change.refl h⟩
    cases fuel with
    | zero => exact if_pos hfst
    | succ fuel => exact if_pos hfst
  | cons x xs ih =>
    obtain ⟨a, v⟩ := x
    cases fuel with
    | zero => exact absurd hfuel (Nat.not_succ_le_zero _)
    | succ fuel =>
      obtain ⟨s₁, hs₁, h₁⟩ := removeFirst_spec h
      obtain ⟨s', hs', h'⟩ := ih h₁.holds (Nat.le_of_succ_le_succ hfuel)
      refine ⟨s', ?_, h₁.trans h'⟩
      have hfst : s.fst = some a := h.fst_eq
      rw [SLList.clearLoop, if_neg (by rw [hfst]; simp), hs₁, bind_some, hs']

theorem clear_spec (h : s.Holds cells) : ∃ s', s.clear = some s' ∧ Change s s' cells [] :=
  clearLoop_spec h h.length_le

/-- The loop of `copy`: the nodes of the other list are copied behind the last node of this one. -/
theorem copyLoop_spec {fuel : Nat} {item : Option Nat} (h : s.Holds (xs ++ [(b, w)]))
    (hitem : IsList s.mem.nodes item ys) (hdisj : ∀ a ∈ ys.map Prod.fst, a ∉ (xs ++ [(b, w)]).map Prod.fst)
    (hfuel : ys.length ≤ fuel) :
    ∃ m cells', SLList.copyLoop fuel s.mem item b = some m ∧
      Change s ⟨m, s.fst⟩ (xs ++ [(b, w)]) cells' ∧
      cells'.map Prod.snd = (xs ++ [(b, w)]).map Prod.snd ++ ys.map Prod.snd := by
  induction ys generalizing s xs b w fuel item with
  | nil =>
    obtain rfl : item = none := hitem
    refine ⟨s.mem, xs ++ [(b, w)], ?_, Change.refl h, by simp⟩
    cases fuel <;> rfl
  | cons y ys ih =>
    obtain ⟨a, v⟩ := y
    cases fuel with
    | zero => exact absurd hfuel (Nat.not_succ_le_zero _)
    | succ fuel =>
      obtain ⟨m, hm, h₁⟩ := insertAfter_spec h v
      have hval : s.mem.val a = some v := SLList.Holds.val_head (s := ⟨s.mem, item⟩) ⟨hitem, h.fresh⟩
      obtain rfl : item = some a := hitem.1
      have hlist := h₁.other hitem h.fresh hdisj
      obtain ⟨p, hnxt, hp⟩ := SLList.Holds.nxt_head (s := ⟨m, some a⟩) ⟨hlist, h₁.holds.fresh⟩
      have hcur : m.nxt b = some (some s.mem.next) := by
        obtain ⟨q, hq, hrest⟩ := h₁.holds.nxt_eq
        obtain rfl : q = some s.mem.next := hrest.1
        exact hq
      have h₂ : SLList.Holds ⟨m, s.fst⟩ ((xs ++ [(b, w)]) ++ [(s.mem.next, v)]) := by simpa using h₁.holds
      have hdisj₂ : ∀ c ∈ ys.map Prod.fst, c ∉ ((xs ++ [(b, w)]) ++ [(s.mem.next, v)]).map Prod.fst := by
        intro c hc hmem
        rw [map_append, mem_append] at hmem
        rcases hmem with hold | hnew
        · exact hdisj c (mem_cons_of_mem _ hc) hold
        · have hlt := SLList.Holds.lt_of_mem (s := ⟨s.mem, some a⟩) ⟨hitem, h.fresh⟩
            (mem_cons_of_mem (a, v).1 hc)
          rw [mem_singleton.mp hnew] at hlt
          exact absurd hlt (Nat.lt_irrefl _)
      obtain ⟨m', cells', hm', hchange, hcells⟩ := ih h₂ hp hdisj₂ (Nat.le_of_succ_le_succ hfuel)
      have h₁' : Change s ⟨m, s.fst⟩ (xs ++ [(b, w)]) ((xs ++ [(b, w)]) ++ [(s.mem.next, v)]) := by
        simpa using h₁
      refine ⟨m', cells', ?_, h₁'.trans hchange, by rw [hcells]; simp⟩
      simp only [SLList.copyLoop, hval, bind_eq_bind, bind_some, hm, hnxt, hcur, hm']

/-- The copy of another list. -/
theorem copy_spec (h : s.Holds cells) {p : Option Nat} (hp : IsList s.mem.nodes p xs)
    (hdisj : ∀ a ∈ xs.map Prod.fst, a ∉ cells.map Prod.fst) :
    ∃ s' cells', s.copy (fun _ => p) = some s' ∧ Change s s' cells cells' ∧
      cells'.map Prod.snd = xs.map Prod.snd := by
  obtain ⟨s₁, hclear, h₁⟩ := clear_spec h
  have hp₁ := h₁.other hp h.fresh hdisj
  cases xs with
  | nil =>
    obtain rfl : p = none := hp
    refine ⟨s₁, [], ?_, h₁, rfl⟩
    simp only [SLList.copy, hclear, bind_eq_bind, bind_some]
  | cons x xs =>
    obtain ⟨a, v⟩ := x
    obtain rfl : p = some a := hp.1
    have hval : s₁.mem.val a = some v := SLList.Holds.val_head (s := ⟨s₁.mem, some a⟩) ⟨hp₁, h₁.holds.fresh⟩
    obtain ⟨s₂, hfirst, h₂⟩ := addFirst_spec h₁.holds v
    have hp₂ := h₂.other hp₁ h₁.holds.fresh fun _ _ hmem => nomatch hmem
    obtain ⟨q, hnxt, hq⟩ :=
      SLList.Holds.nxt_head (s := ⟨s₂.mem, some a⟩) ⟨hp₂, h₂.holds.fresh⟩
    have hfst : s₂.fst = some s₁.mem.next := h₂.holds.fst_eq
    have hdisj₂ : ∀ c ∈ xs.map Prod.fst, c ∉ ([] ++ [(s₁.mem.next, v)]).map Prod.fst := by
      intro c hc hmem
      have hlt := SLList.Holds.lt_of_mem (s := ⟨s₁.mem, some a⟩) ⟨hp₁, h₁.holds.fresh⟩
        (mem_cons_of_mem (a, v).1 hc)
      rw [mem_singleton.mp hmem] at hlt
      exact absurd hlt (Nat.lt_irrefl _)
    have hlen := SLList.Holds.length_le (s := ⟨s₂.mem, q⟩) ⟨hq, h₂.holds.fresh⟩
    have hsingle : s₂.Holds ([] ++ [(s₁.mem.next, v)]) := h₂.holds
    obtain ⟨m, cells', hloop, h₃, hcells⟩ := copyLoop_spec hsingle hq hdisj₂ hlen
    refine ⟨⟨m, s₂.fst⟩, cells', ?_, (h₁.trans h₂).trans h₃, by rw [hcells]; rfl⟩
    simp only [SLList.copy, hclear, bind_eq_bind, bind_some, hval, hfirst, hfst, hnxt, hloop]

/-- The copy of a list to itself is empty. -/
theorem copy_self (h : s.Holds cells) : ∃ s', s.copy SLList.fst = some s' ∧ Change s s' cells [] := by
  obtain ⟨s₁, hclear, h₁⟩ := clear_spec h
  have hfst : s₁.fst = none := h₁.holds.fst_eq
  refine ⟨s₁, ?_, h₁⟩
  simp only [SLList.copy, hclear, bind_eq_bind, bind_some, hfst]

/-! ## Iterators -/

/-- The iterator is between the nodes `xs` and the nodes `ys`. -/
structure PrecIter.At (i : PrecIter) (xs ys : List (Nat × T)) : Prop where
  node : i.node = (ys.map Prod.fst).head?
  prev : i.prev = (xs.map Prod.fst).getLast?

theorem begin_at (h : s.Holds cells) : s.begin.At [] cells := ⟨h.fst_eq, rfl⟩

theorem forward_spec {i : PrecIter} (h : s.Holds (xs ++ (a, v) :: ys)) (hi : i.At xs ((a, v) :: ys)) :
    ∃ i', s.forward i = some i' ∧ i'.At (xs ++ [(a, v)]) ys := by
  obtain ⟨p, hnxt, hp⟩ := h.nxt_eq
  refine ⟨⟨p, some a⟩, ?_, ⟨SLList.Holds.fst_eq (s := ⟨s.mem, p⟩) ⟨hp, h.fresh⟩, by simp⟩⟩
  simp only [SLList.forward, hi.node, map_cons, head?_cons, bind_eq_bind, bind_some, hnxt]

theorem addBefore_spec {i : PrecIter} (h : s.Holds (xs ++ ys)) (hi : i.At xs ys) (v : T) :
    ∃ s' i', s.addBefore i v = some (s', i') ∧ Change s s' (xs ++ ys) (xs ++ (s.mem.next, v) :: ys) ∧
      i'.At (xs ++ [(s.mem.next, v)]) ys := by
  rcases eq_nil_or_concat xs with rfl | ⟨xs, ⟨b, w⟩, rfl⟩
  · obtain ⟨s', hs', hchange⟩ := addFirst_spec h v
    have hfst : s'.fst = some s.mem.next := hchange.holds.fst_eq
    refine ⟨s', { i with prev := s'.fst }, ?_, hchange, hi.node, hfst⟩
    have hprev : i.prev = none := hi.prev
    simp only [SLList.addBefore, hprev, hs', bind_eq_bind, bind_some]
  · rw [concat_eq_append, append_assoc] at h ⊢
    obtain ⟨m, hm, hchange⟩ := insertAfter_spec h v
    have hnxt : m.nxt b = some (some s.mem.next) := by
      obtain ⟨q, hq, hrest⟩ := hchange.holds.nxt_eq
      obtain rfl : q = some s.mem.next := hrest.1
      exact hq
    have hprev : i.prev = some b := by rw [hi.prev]; simp
    refine ⟨⟨m, s.fst⟩, { i with prev := some s.mem.next }, ?_, by simpa using hchange, hi.node, by simp⟩
    simp only [SLList.addBefore, hprev, hm, hnxt, bind_eq_bind, bind_some]

/-- A value added before the first item that stops the loop, or at the end if there is none. -/
theorem addBefore_first {stop : T → Prop} [DecidablePred stop] (h : s.Holds (xs ++ ys))
    (hxs : ∀ u ∈ xs.map Prod.snd, ¬ stop u) (hys : ∀ u ∈ ys.map Prod.snd, stop u) (v : T) :
    ∃ s', Change s s' (xs ++ ys) (xs ++ (s.mem.next, v) :: ys) ∧
      (s.loop (fun prev a u => if stop u then .inr (some ⟨some a, prev⟩) else .inl (some a))
          (fun _ => (none : Option PrecIter)) s.fst none = some none ∧ s.addLast v = some s' ∨
        ∃ i, s.loop (fun prev a u => if stop u then .inr (some ⟨some a, prev⟩) else .inl (some a))
          (fun _ => (none : Option PrecIter)) s.fst none = some (some i) ∧
            (s.addBefore i v).map Prod.fst = some s') := by
  rw [loop_eq h h.list, visit_before hxs hys]
  cases ys with
  | nil =>
    rw [append_nil] at h ⊢
    obtain ⟨s', hs', hchange⟩ := addLast_spec h v
    exact ⟨s', hchange, Or.inl ⟨rfl, hs'⟩⟩
  | cons y ys =>
    have hat : PrecIter.At ⟨some y.1, (xs.map Prod.fst).getLast?.or none⟩ xs (y :: ys) := ⟨rfl, or_none⟩
    obtain ⟨s', i', hs', hchange, -⟩ := addBefore_spec h hat v
    exact ⟨s', hchange, Or.inr ⟨_, rfl, by rw [hs', map_some]⟩⟩

theorem removeAt_spec {i : PrecIter} (h : s.Holds (xs ++ (a, v) :: ys)) (hi : i.At xs ((a, v) :: ys)) :
    ∃ s' i', s.removeAt i = some (s', i') ∧ Change s s' (xs ++ (a, v) :: ys) (xs ++ ys) ∧ i'.At xs ys := by
  have hnode : i.node = some a := hi.node
  rcases eq_nil_or_concat xs with rfl | ⟨xs, ⟨b, w⟩, rfl⟩
  · obtain ⟨s', hs', hchange⟩ := removeFirst_spec h
    refine ⟨s', { i with node := s'.fst }, ?_, hchange, hchange.holds.fst_eq, hi.prev⟩
    have hprev : i.prev = none := hi.prev
    simp only [SLList.removeAt, hnode, hprev, hs', bind_eq_bind, bind_some]
  · rw [concat_eq_append, append_assoc] at h ⊢
    obtain ⟨m, m', hremove, hfree, hchange⟩ := removeNext_spec h
    obtain ⟨p, hnxt, hp⟩ := hchange.holds.nxt_eq
    have hprev : i.prev = some b := by rw [hi.prev]; simp
    refine ⟨⟨m', s.fst⟩, { i with node := p }, ?_, by simpa using hchange,
      SLList.Holds.fst_eq (s := ⟨m', p⟩) ⟨hp, hchange.holds.fresh⟩, by rw [hi.prev, concat_eq_append]⟩
    change m'.nxt b = some p at hnxt
    simp only [SLList.removeAt, hnode, hprev, hremove, hfree, hnxt, bind_eq_bind, bind_some]

/-! ## Runs -/

variable {isEqual : T → T → Bool} {spec spec' : Nat → Spec T} {t t' : State T} {lists : Nat → List (Nat × T)}
  {l : Nat} {i i' : PrecIter} {cursor : Option Nat}

/-- The invariant of the runs: the nodes of the lists are different, and an iterator is between two nodes. -/
structure Inv (lists : Nat → List (Nat × T)) (spec : Nat → Spec T) (t : State T) : Prop where
  holds : ∀ l, (t.list l).Holds (lists l)
  disj : ∀ l l', l ≠ l' → ∀ a ∈ (lists l).map Prod.fst, a ∉ (lists l').map Prod.fst
  elements : ∀ l, (spec l).elements = (lists l).map Prod.snd
  iter : ∀ l k, (spec l).cursor = some k → ∃ xs ys, lists l = xs ++ ys ∧ xs.length = k ∧ (t.iter l).At xs ys

theorem start_inv : Inv (fun _ => []) (Spec.start : Nat → Spec T) .start :=
  ⟨fun _ => ⟨rfl, fun _ _ => rfl⟩, fun _ _ _ _ hmem => (nomatch hmem), fun _ => rfl, fun _ _ hk => nomatch hk⟩

/-- The observers of a list. -/
theorem Inv.agrees (h : Inv lists spec t) (isEqual : T → T → Bool) (l : Nat) :
    Agrees isEqual (spec l) (t.list l) (t.iter l) ((lists l).map Prod.fst) := by
  have hl := h.holds l
  have hel := h.elements l
  constructor
  · rw [hel, length_map, length_map]
  · exact hl.list.nodup
  · rw [hl.items_eq, hel, ← unzip_fst, ← unzip_snd,
      zip_unzip]
  · rw [SLList.count, loop_eq hl hl.list, visit_count, hel, Nat.zero_add, length_map]
  · rw [SLList.isEmpty, hl.fst_eq, hel]
    cases lists l <;> rfl
  · intro v
    rw [SLList.contains, loop_eq hl hl.list, visit_contains, hel]
  · intro v
    rw [SLList.find, SLList.findLoop, loop_eq hl hl.list, visit_find, hel]
  · intro k a v ha
    obtain ⟨x, hx, rfl⟩ : ∃ x, (lists l)[k]? = some x ∧ x.1 = a := by simpa using ha
    obtain ⟨hlt, hx⟩ := List.getElem?_eq_some_iff.mp hx
    have hsplit : lists l = (lists l).take k ++ (x.1, x.2) :: (lists l).drop (k + 1) := by
      rw [← hx]
      simp
    rw [hsplit] at hl
    obtain ⟨p, hnxt, hp⟩ := hl.nxt_eq
    rw [SLList.findAfter, hnxt, bind_eq_bind, bind_some, SLList.findLoop, loop_eq hl hp, visit_find,
      hel, map_drop, map_drop]
  · rw [SLList.first, hl.fst_eq, hel]
    cases hcells : lists l with
    | nil => rfl
    | cons x xs =>
      rw [hcells] at hl
      exact SLList.Holds.val_head hl
  · rw [SLList.last, lastNode_eq hl, hel]
    rcases eq_nil_or_concat (lists l) with hnil | ⟨xs, ⟨a, v⟩, hcells⟩
    · rw [hnil]
      rfl
    · rw [hcells, concat_eq_append] at hl ⊢
      simp only [map_append, map_cons, map_nil, getLast?_concat, bind_eq_bind,
        bind_some]
      exact hl.val_eq
  · intro n
    rw [SLList.nth, loop_eq hl hl.list, visit_nth, hel]
    rfl
  · intro k hk
    obtain ⟨xs, ys, hcells, rfl, hat⟩ := h.iter l k hk
    rw [hat.node, hcells, map_append, getElem?_append_right (by simp), length_map, Nat.sub_self,
      head?_eq_getElem?]

/-- A list is changed. -/
theorem Inv.put (h : Inv lists spec t) {r : SLList T} (hchange : Change (t.list l) r (lists l) cells)
    {elements : List T} (hel : cells.map Prod.snd = elements)
    (hiter : ∀ k, cursor = some k → ∃ xs ys, cells = xs ++ ys ∧ xs.length = k ∧ i.At xs ys) :
    Inv (update lists l cells) (update spec l ⟨elements, cursor⟩)
      ((t.put l r).putIter l i) := by
  have hother : ∀ l', l' ≠ l → ∀ a ∈ (lists l').map Prod.fst, a ∉ cells.map Prod.fst := by
    intro l' hne a ha hmem
    rcases hchange.addrs a hmem with hin | hge
    · exact h.disj l' l hne a ha hin
    · exact absurd ((h.holds l').lt_of_mem ha) (Nat.not_lt.mpr hge)
  refine ⟨fun l' => ?_, fun l₁ l₂ hne a ha => ?_, fun l' => ?_, fun l' k hk => ?_⟩
  · by_cases hl : l' = l
    · subst hl
      rw [update_self]
      change SLList.Holds ⟨r.mem, update t.fst l' r.fst l'⟩ _
      rw [update_self]
      exact hchange.holds
    · rw [update_of_ne hl]
      change SLList.Holds ⟨r.mem, update t.fst l r.fst l'⟩ _
      rw [update_of_ne hl]
      exact ⟨hchange.other (h.holds l').list (h.holds l').fresh (h.disj l' l hl), hchange.holds.fresh⟩
  · by_cases h₁ : l₁ = l
    · subst h₁
      rw [update_self] at ha
      rw [update_of_ne hne.symm]
      exact fun hmem => hother l₂ hne.symm a hmem ha
    · rw [update_of_ne h₁] at ha
      by_cases h₂ : l₂ = l
      · subst h₂
        rw [update_self]
        exact hother l₁ h₁ a ha
      · rw [update_of_ne h₂]
        exact h.disj l₁ l₂ hne a ha
  · rw [update_apply, update_apply]
    split_ifs with hl
    · exact hel.symm
    · exact h.elements l'
  · rw [update_apply] at hk
    change ∃ xs ys, _ ∧ _ ∧ (update t.iter l i l').At xs ys
    rw [update_apply, update_apply]
    split_ifs at hk ⊢ with hl
    · exact hiter k hk
    · exact h.iter l' k hk

/-- A list is changed, and its iterator is no longer used or is still where it was. -/
theorem Inv.put_list (h : Inv lists spec t) {r : SLList T} (hchange : Change (t.list l) r (lists l) cells)
    {elements : List T} (hel : cells.map Prod.snd = elements)
    (hiter : ∀ k, cursor = some k → ∃ xs ys, cells = xs ++ ys ∧ xs.length = k ∧ (t.iter l).At xs ys) :
    Inv (update lists l cells) (update spec l ⟨elements, cursor⟩) (t.put l r) := by
  have hput := h.put hchange hel hiter
  have hsame : (t.put l r).putIter l (t.iter l) = t.put l r := by
    unfold State.putIter State.put
    rw [update_eq_self]
  rwa [hsame] at hput

/-- The iterator of a list goes to another position. -/
theorem Inv.put_iter (h : Inv lists spec t) (xs ys : List (Nat × T)) (hcells : lists l = xs ++ ys) (hi : i.At xs ys) :
    Inv lists (update spec l ⟨(spec l).elements, some xs.length⟩) (t.putIter l i) := by
  have hpos : ∀ k, some xs.length = some k → ∃ xs ys, lists l = xs ++ ys ∧ xs.length = k ∧ i.At xs ys :=
    fun k hk => ⟨xs, ys, hcells, some.inj hk, hi⟩
  have hput := h.put (Change.refl (h.holds l)) (h.elements l).symm hpos
  have hsame : t.put l (t.list l) = t := by
    unfold State.put State.list
    rw [update_eq_self]
  rwa [hsame, update_eq_self] at hput

/-- An element after the position of the iterator. -/
theorem Inv.position (h : Inv lists spec t) {k : Nat} (hk : (spec l).cursor = some k)
    (hlt : k < (spec l).elements.length) : ∃ xs a v ys, lists l = xs ++ (a, v) :: ys ∧ xs.length = k ∧
      (t.iter l).At xs ((a, v) :: ys) := by
  obtain ⟨xs, ys, hcells, hlen, hat⟩ := h.iter l k hk
  rw [h.elements, length_map, hcells, length_append] at hlt
  cases ys with
  | nil => simp at hlt; omega
  | cons y ys => exact ⟨xs, y.1, y.2, ys, hcells, hlen, hat⟩

/-- An action that needs an element at the position of the iterator. -/
theorem Inv.at_position (h : Inv lists spec t) {g : Nat → Spec T} {m : Spec T}
    (hact : ((spec l).cursor.bind fun k => if k < (spec l).elements.length then some (g k) else none) = some m) :
    ∃ xs a v ys, lists l = xs ++ (a, v) :: ys ∧ (spec l).elements = (xs ++ (a, v) :: ys).map Prod.snd ∧
      (t.list l).Holds (xs ++ (a, v) :: ys) ∧ (t.iter l).At xs ((a, v) :: ys) ∧ g xs.length = m := by
  obtain ⟨k, hk, hact⟩ := bind_eq_some_iff.mp hact
  obtain ⟨hlt, hact⟩ := ite_none_right_eq_some.mp hact
  obtain ⟨xs, a, v, ys, hcells, rfl, hat⟩ := h.position hk hlt
  have hl := h.holds l
  have hel := h.elements l
  rw [hcells] at hl hel
  exact ⟨xs, a, v, ys, hcells, hel, hl, hat, some.inj hact⟩

/-- What one action makes of its list. -/
def Acts (isEqual : T → T → Bool) (spec : Nat → Spec T) (t : State T) (l : Nat) (act : Act T) (m : Spec T) : Prop :=
  ∃ t' lists', t.step isEqual ⟨l, act⟩ = some t' ∧ Inv lists' (update spec l m) t'

/-- An iterator that is no longer used has no position. -/
theorem at_none (cells : List (Nat × T)) (i : PrecIter) :
    ∀ k, (none : Option Nat) = some k → ∃ xs ys, cells = xs ++ ys ∧ xs.length = k ∧ i.At xs ys :=
  fun _ hk => nomatch hk

theorem Inv.addAfter (h : Inv lists spec t) {v : T} {m : Spec T}
    (hact : (spec l).act isEqual spec (.addAfter v) = some m) : Acts isEqual spec t l (.addAfter v) m := by
  obtain ⟨xs, a, w, ys, hcells, hel, hl, hat, rfl⟩ := h.at_position hact
  obtain ⟨r, hr, hchange⟩ := addAfter_spec hl v
  have hnode : (t.iter l).node = some a := hat.node
  refine ⟨_, _, by simp only [State.step, hnode, hr, map_some],
    h.put_list (hcells ▸ hchange) ?_ fun k hk => ⟨xs, _, rfl, some.inj hk, ?_⟩⟩
  · have hins := insertIdx_map_append Prod.snd (xs ++ [(a, w)]) ys ((t.list l).mem.next, v)
    rw [hel]
    simpa using hins.symm
  · exact ⟨hnode, hat.prev⟩

theorem Inv.addBefore (h : Inv lists spec t) {v : T} {m : Spec T}
    (hact : (spec l).act isEqual spec (.addBefore v) = some m) : Acts isEqual spec t l (.addBefore v) m := by
  have hl := h.holds l
  have hel := h.elements l
  obtain ⟨k, hk, rfl⟩ := map_eq_some_iff.mp hact
  obtain ⟨xs, ys, hcells, rfl, hat⟩ := h.iter l k hk
  rw [hcells] at hl hel
  obtain ⟨r, i', hr, hchange, hat'⟩ := addBefore_spec hl hat v
  refine ⟨_, _, by simp only [State.step, hr, map_some], h.put (hcells ▸ hchange) ?_ fun k hk =>
    ⟨xs ++ [((t.list l).mem.next, v)], ys, by simp, by simpa using hk, hat'⟩⟩
  have hins := insertIdx_map_append Prod.snd xs ys ((t.list l).mem.next, v)
  rw [hel]
  exact hins.symm

theorem Inv.removeFirst (h : Inv lists spec t) {m : Spec T}
    (hact : (spec l).act isEqual spec .removeFirst = some m) : Acts isEqual spec t l .removeFirst m := by
  have hl := h.holds l
  have hel := h.elements l
  obtain ⟨hne, hact⟩ := ite_none_left_eq_some.mp hact
  obtain rfl := some.inj hact
  rw [hel] at hne ⊢
  cases hcells : lists l with
  | nil => simp [hcells] at hne
  | cons x xs =>
    rw [hcells] at hl
    obtain ⟨r, hr, hchange⟩ := removeFirst_spec hl
    exact ⟨_, _, by simp only [State.step, hr, map_some],
      h.put_list (hcells ▸ hchange) rfl (at_none _ _)⟩

theorem Inv.removeLast (h : Inv lists spec t) {m : Spec T}
    (hact : (spec l).act isEqual spec .removeLast = some m) : Acts isEqual spec t l .removeLast m := by
  have hl := h.holds l
  have hel := h.elements l
  obtain ⟨hne, hact⟩ := ite_none_left_eq_some.mp hact
  obtain rfl := some.inj hact
  rw [hel] at hne ⊢
  rcases eq_nil_or_concat (lists l) with hnil | ⟨xs, ⟨a, v⟩, hcells⟩
  · simp [hnil] at hne
  · rw [concat_eq_append] at hcells
    rw [hcells] at hl
    obtain ⟨r, hr, hchange⟩ := removeLast_spec hl
    exact ⟨_, _, by simp only [State.step, hr, map_some],
      h.put_list (hcells ▸ hchange) (by simp [hcells]) (at_none _ _)⟩

theorem Inv.copy (h : Inv lists spec t) {src : Nat} (hcopy : CopiesOther spec ⟨l, .copy src⟩) :
    Acts isEqual spec t l (.copy src) ⟨(spec src).elements, none⟩ := by
  have hl := h.holds l
  by_cases hsrc : src = l
  · subst hsrc
    obtain ⟨r, hr, hchange⟩ := copy_self hl
    have hempty : (spec src).elements = [] := isEmpty_iff.mp (hcopy rfl)
    exact ⟨_, _, by simp only [State.step, if_true, hr, map_some],
      h.put_list hchange hempty.symm (at_none _ _)⟩
  · obtain ⟨r, cells', hr, hchange, hcells⟩ := copy_spec hl (h.holds src).list (h.disj src l hsrc)
    refine ⟨_, _, ?_, h.put_list hchange (by rw [hcells, h.elements src]) (at_none _ _)⟩
    simp only [State.step, if_neg hsrc]
    rw [show t.fst src = (t.list src).fst from rfl, hr, map_some]

theorem Inv.next (h : Inv lists spec t) {m : Spec T} (hact : (spec l).act isEqual spec .next = some m) :
    Acts isEqual spec t l .next m := by
  obtain ⟨xs, a, w, ys, hcells, -, hl, hat, rfl⟩ := h.at_position hact
  obtain ⟨i', hi', hat'⟩ := forward_spec hl hat
  have hput := h.put_iter (xs ++ [(a, w)]) ys (by rw [hcells]; simp) hat'
  rw [length_append] at hput
  exact ⟨_, _, by simp only [State.step, hi', map_some], hput⟩

theorem step_inv (h : Inv lists spec t) {op : Op T} (hop : Spec.step isEqual spec op = some spec')
    (hcopy : CopiesOther spec op) :
    ∃ t' lists', t.step isEqual op = some t' ∧ Inv lists' spec' t' := by
  obtain ⟨l, act⟩ := op
  obtain ⟨m, hact, rfl⟩ := map_eq_some_iff.mp hop
  have hl := h.holds l
  have hel := h.elements l
  cases act with
  | addFirst v =>
    obtain rfl := some.inj hact
    obtain ⟨r, hr, hchange⟩ := addFirst_spec hl v
    exact ⟨_, _, by simp only [State.step, hr, map_some],
      h.put_list hchange (by simp [hel]) (at_none _ _)⟩
  | addLast v =>
    obtain rfl := some.inj hact
    obtain ⟨r, hr, hchange⟩ := addLast_spec hl v
    exact ⟨_, _, by simp only [State.step, hr, map_some],
      h.put_list hchange (by simp [hel]) (at_none _ _)⟩
  | addAfter v => exact h.addAfter hact
  | addBefore v => exact h.addBefore hact
  | removeFirst => exact h.removeFirst hact
  | removeLast => exact h.removeLast hact
  | remove v =>
    obtain rfl := some.inj hact
    obtain ⟨r, cells', hr, hchange, hcells⟩ := remove_spec isEqual hl v
    exact ⟨_, _, by simp only [State.step, hr, map_some],
      h.put_list hchange (by rw [hcells, hel]) (at_none _ _)⟩
  | removeAt =>
    obtain ⟨xs, a, w, ys, hcells, hel, hl, hat, rfl⟩ := h.at_position hact
    obtain ⟨r, i', hr, hchange, hat'⟩ := removeAt_spec hl hat
    refine ⟨_, _, by simp only [State.step, hr, map_some], h.put (hcells ▸ hchange) ?_ fun k hk =>
      ⟨xs, ys, rfl, some.inj hk, hat'⟩⟩
    rw [hel, eraseIdx_map_append]
  | set v =>
    obtain ⟨xs, a, w, ys, hcells, hel, hl, hat, rfl⟩ := h.at_position hact
    obtain ⟨r, hr, hchange⟩ := set_spec hl v
    have hnode : (t.iter l).node = some a := hat.node
    refine ⟨_, _, by simp only [State.step, hnode, hr, map_some],
      h.put_list (hcells ▸ hchange) ?_ fun k hk => ⟨xs, _, rfl, some.inj hk, ?_⟩⟩
    · rw [hel]
      simp
    · exact ⟨hnode, hat.prev⟩
  | copy src =>
    obtain rfl := some.inj hact
    exact h.copy hcopy
  | clear =>
    obtain rfl := some.inj hact
    obtain ⟨r, hr, hchange⟩ := clear_spec hl
    exact ⟨_, _, by simp only [State.step, hr, map_some], h.put_list hchange rfl (at_none _ _)⟩
  | begin =>
    obtain rfl := some.inj hact
    exact ⟨_, _, rfl, h.put_iter [] _ rfl (begin_at hl)⟩
  | next => exact h.next hact

/-- A list that has elements, copied to itself. -/
theorem not_agrees_copy (h : Inv lists spec t) {op : Op T} (hop : Spec.step isEqual spec op = some spec')
    (hcopy : ¬ CopiesOther spec op) (hstep : t.step isEqual op = some t') :
    ¬ ∀ l, ∃ nodes, Agrees isEqual (spec' l) (t'.list l) (t'.iter l) nodes := by
  obtain ⟨l, act⟩ := op
  cases act with
  | copy src =>
    intro hall
    obtain ⟨hsrc, hne⟩ := Classical.not_imp.mp hcopy
    subst hsrc
    obtain ⟨m, hact, rfl⟩ := map_eq_some_iff.mp hop
    obtain rfl := some.inj hact
    obtain ⟨r, hr, hchange⟩ := copy_self (h.holds src)
    simp only [State.step, if_true, hr, map_some] at hstep
    obtain rfl := some.inj hstep
    obtain ⟨nodes, hagrees⟩ := hall src
    have hempty := hagrees.isEmpty
    rw [update_self] at hempty
    have hfst : ((t.put src r).list src).fst = none := by
      change update t.fst src r.fst src = none
      rw [update_self, hchange.holds.fst_eq]
      rfl
    rw [SLList.isEmpty, hfst] at hempty
    exact hne hempty.symm
  | _ => exact absurd trivial hcopy

/-- In every run, the lists and their observers agree with the mathematical lists all along if and only if no list
that has elements is copied to itself. -/
theorem list_run_iff (isEqual : T → T → Bool) {ops : List (Op T)} {spec : Nat → Spec T}
    (hops : Run.exec (Spec.step isEqual) Spec.start ops = some spec) :
    (∀ k, ∃ t, Run.exec (both isEqual) (Spec.start, .start) (ops.take k) = some t ∧
      ∀ l, ∃ nodes, Agrees isEqual (t.1 l) (t.2.list l) (t.2.iter l) nodes) ↔
    Run.Meets (fun t op => CopiesOther t.1 op) (both isEqual) (Spec.start, .start) ops := by
  have hallowed := (Run.meets_isSome hops).beside (State.step isEqual) State.start
  refine (Run.meets_iff_forall_exists_exec (fun t => ∃ lists, Inv lists t.1 t.2) _ ?_ ?_ ?_ ops _
    ⟨_, start_inv⟩ hallowed).symm
  · rintro t ⟨lists, h⟩ l
    exact ⟨_, h.agrees isEqual l⟩
  · rintro t op ⟨lists, h⟩ hop hcopy
    obtain ⟨spec', hspec'⟩ := isSome_iff_exists.mp hop
    obtain ⟨t', lists', ht', hinv⟩ := step_inv h hspec' hcopy
    exact ⟨(spec', t'), Run.beside_eq_some.mpr ⟨hspec', ht'⟩, lists', hinv⟩
  · rintro t op t' ⟨lists, h⟩ - hcopy hstep
    obtain ⟨hspec', ht'⟩ := Run.beside_eq_some.mp hstep
    exact not_agrees_copy h hspec' hcopy ht'

/-- Two lists: the first one is changed at an iterator, then copied to the other one. -/
def twoLists : List (Op Nat) :=
  [⟨0, .addFirst 2⟩, ⟨0, .addLast 3⟩, ⟨0, .begin⟩, ⟨0, .addBefore 1⟩, ⟨0, .addAfter 4⟩, ⟨0, .next⟩, ⟨0, .removeAt⟩,
    ⟨1, .copy 0⟩, ⟨0, .remove 2⟩, ⟨1, .removeLast⟩]

theorem list_run_iff_twoLists :
    Run.Meets (fun t op => CopiesOther t.1 op) (both fun x y : Nat => x == y) (Spec.start, .start) twoLists ∧
      ∀ k, ∃ t, Run.exec (both fun x y : Nat => x == y) (Spec.start, .start) (twoLists.take k) = some t ∧
        ∀ l, ∃ nodes, Agrees (fun x y => x == y) (t.1 l) (t.2.list l) (t.2.iter l) nodes :=
  ⟨by decide, (@list_run_iff Nat (fun x y => x == y) twoLists _ rfl).mpr (by decide)⟩

theorem not_list_run : ¬ ∀ (ops : List (Op Nat)) (spec : Nat → Spec Nat),
    Run.exec (Spec.step fun x y : Nat => x == y) Spec.start ops = some spec →
      ∀ k, ∃ t, Run.exec (both fun x y : Nat => x == y) (Spec.start, .start) (ops.take k) = some t ∧
        ∀ l, ∃ nodes, Agrees (fun x y => x == y) (t.1 l) (t.2.list l) (t.2.iter l) nodes := by
  intro hall
  obtain ⟨t, ht, hagrees⟩ := hall [⟨0, .addFirst 5⟩, ⟨0, .copy 0⟩] _ rfl 2
  obtain rfl := some.inj ht
  obtain ⟨nodes, h⟩ := hagrees 0
  exact absurd h.count (by decide)

end Elm.Data.LinkedList
