import Elm.Data.LinkedListRun
import Elm.Lib.SortedSet

/-!
# `ListSet`

The sets of `include/elm/data/ListSet.h`: a list that `include/elm/data/SortedList.h` keeps sorted, over the singly
linked lists.  `join`, `meet` and `diff` go over two lists at once and change the first one in place, with an
iterator that keeps the node before its own.
-/

namespace Elm.Data.ListSet

open LinkedList Chain Std SortedSet List Option Nat

variable {T : Type} (cmp : T → T → Ordering)

/-! ## The program -/

/-- `SortedList::find`. -/
def find (s : SLList T) (item : T) : Option (Option Nat) :=
  s.loop
    (fun _ a v =>
      match cmp item v with
      | .gt => .inl ()
      | .eq => .inr (some a)
      | .lt => .inr none)
    (fun _ => none) s.fst ()

/-- `SortedList::contains`. -/
def contains (s : SLList T) (item : T) : Option Bool := (find cmp s item).map Option.isSome

/-- `SortedList::add`: the loop keeps the node before the current one, as `PrecIter` does. -/
def add (s : SLList T) (value : T) : Option (SLList T) := do
  let current ← s.loop
    (fun prev a v => if cmp value v = .lt then .inr (some ⟨some a, prev⟩) else .inl (some a))
    (fun _ => (none : Option PrecIter)) s.fst none
  match current with
  | some current => (s.addBefore current value).map Prod.fst
  | none => s.addLast value

/-- `insert`. -/
def insert (s : SLList T) (v : T) : Option (SLList T) := do
  if !(← contains cmp s v) then add cmp s v else some s

/-- One turn of the loop of `subsetOf`: `i` is in the argument and `j` in this list. -/
def subsetTurn (mem : Memory T) (s : Option Nat × Option Nat) : Option ((Option Nat × Option Nat) ⊕ Bool) :=
  match s with
  | (some i, some j) => do
    match cmp (← mem.val i) (← mem.val j) with
    | .gt => some (.inr false)
    | .eq => do some (.inl (← mem.nxt i, ← mem.nxt j))
    | .lt => do some (.inl (← mem.nxt i, some j))
  | (_, j) => some (.inr j.isNone)

/-- `subsetOf`: `l` is the member `fst` of the argument. -/
def subsetOf (s : SLList T) (l : Option Nat) : Option Bool :=
  Loop.attempt (subsetTurn cmp s.mem) (s.mem.next + 1) (l, s.fst)

/-- This set, the iterator `i` over it, and the iterator `j` over the argument. -/
structure Merge (T : Type) where
  set : SLList T
  i : PrecIter
  j : Option Nat

/-- `i++`. -/
def Merge.nextI (s : Merge T) : Option (Merge T) := do
  some { s with i := ← s.set.forward s.i }

/-- `j++`. -/
def Merge.nextJ (s : Merge T) : Option (Merge T) := do
  some { s with j := ← s.set.mem.nxt (← s.j) }

/-- `list.addBefore(i, *j)`. -/
def Merge.addBefore (s : Merge T) : Option (Merge T) := do
  let (set, i) ← s.set.addBefore s.i (← s.set.mem.val (← s.j))
  some { s with set, i }

/-- `list.remove(i)`. -/
def Merge.remove (s : Merge T) : Option (Merge T) := do
  let (set, i) ← s.set.removeAt s.i
  some { s with set, i }

/-- One turn of `while(i() && j())`, for what is done when the items compare equal, less and greater. -/
def mergeTurn (eq lt gt : Merge T → Option (Merge T)) (s : Merge T) : Option (Merge T ⊕ Merge T) :=
  match s.i.node, s.j with
  | some i, some j => do
    match cmp (← s.set.mem.val i) (← s.set.mem.val j) with
    | .eq => do some (.inl (← eq s))
    | .lt => do some (.inl (← lt s))
    | .gt => do some (.inl (← gt s))
  | _, _ => some (.inr s)

/-- One turn of the second loop of `join`. -/
def joinRest (s : Merge T) : Option (Merge T ⊕ SLList T) :=
  match s.j with
  | some _ => do some (.inl (← (← s.addBefore).nextJ))
  | none => some (.inr s.set)

/-- One turn of the second loop of `meet`. -/
def meetRest (s : Merge T) : Option (Merge T ⊕ SLList T) :=
  match s.i.node with
  | some _ => do some (.inl (← s.remove))
  | none => some (.inr s.set)

/-- The first loop, with the bound that the nodes of both lists give. -/
def mergeLoop (eq lt gt : Merge T → Option (Merge T)) (s : SLList T) (set : Option Nat) : Option (Merge T) :=
  Loop.attempt (mergeTurn cmp eq lt gt) (s.mem.next + s.mem.next + 1) ⟨s, s.begin, set⟩

/-- `join`: `set` is the member `fst` of the argument. -/
def join (s : SLList T) (set : Option Nat) : Option (SLList T) := do
  let m ← mergeLoop cmp (fun m => m.nextI.bind Merge.nextJ) Merge.nextI
    (fun m => m.addBefore.bind Merge.nextJ) s set
  Loop.attempt joinRest (m.set.mem.next + 1) m

/-- `meet`. -/
def meet (s : SLList T) (set : Option Nat) : Option (SLList T) := do
  let m ← mergeLoop cmp (fun m => m.nextI.bind Merge.nextJ) Merge.remove Merge.nextJ s set
  Loop.attempt meetRest (m.set.mem.next + 1) m

/-- `diff`. -/
def diff (s : SLList T) (set : Option Nat) : Option (SLList T) := do
  let m ← mergeLoop cmp (fun m => m.remove.bind Merge.nextJ) Merge.nextI Merge.nextJ s set
  some m.set

/-! ## Two lists in one memory -/

variable {cmp} {s s' : SLList T} {cells cells' pre xs ys : List (Nat × T)} {p : Option Nat} {a b : Nat} {v w : T}
  {m : Merge T}

/-- Another list in the memory of `s`, which has none of its nodes. -/
structure Beside (s : SLList T) (cells : List (Nat × T)) (p : Option Nat) (ys : List (Nat × T)) : Prop where
  list : IsList s.mem.nodes p ys
  disj : ∀ a ∈ ys.map Prod.fst, a ∉ cells.map Prod.fst

/-- A change of `s` leaves it as it is. -/
theorem Beside.change (h : Beside s cells p ys) (hs : s.Holds cells) (hchange : Change s s' cells cells') :
    Beside s' cells' p ys := by
  refine ⟨hchange.other h.list hs.fresh h.disj, fun a ha hmem => ?_⟩
  rcases hchange.addrs a hmem with hold | hnew
  · exact h.disj a ha hold
  · have hlt := SLList.Holds.lt_of_mem (s := ⟨s.mem, p⟩) ⟨h.list, hs.fresh⟩ ha
    exact absurd hlt (Nat.not_lt.mpr hnew)

/-- The iterator `i` is between the nodes `pre` and the nodes `xs` of this list, and `j` before the nodes `ys` of
the other one. -/
structure MergeAt (s : SLList T) (cells : List (Nat × T)) (m : Merge T) (pre xs ys : List (Nat × T)) : Prop where
  change : Change s m.set cells (pre ++ xs)
  iter : m.i.At pre xs
  right : Beside m.set (pre ++ xs) m.j ys

theorem MergeAt.j_eq (h : MergeAt s cells m pre xs ys) : m.j = (ys.map Prod.fst).head? :=
  SLList.Holds.fst_eq (s := ⟨m.set.mem, m.j⟩) ⟨h.right.list, h.change.holds.fresh⟩

theorem MergeAt.val_j (h : MergeAt s cells m pre xs ((b, w) :: ys)) : m.set.mem.val b = some w :=
  SLList.Holds.val_head (s := ⟨m.set.mem, m.j⟩) ⟨h.right.list, h.change.holds.fresh⟩

theorem MergeAt.nextI (h : MergeAt s cells m pre ((a, v) :: xs) ys) :
    ∃ m', m.nextI = some m' ∧ MergeAt s cells m' (pre ++ [(a, v)]) xs ys := by
  obtain ⟨i', hi', hat⟩ := forward_spec h.change.holds h.iter
  have hsplit : (pre ++ [(a, v)]) ++ xs = pre ++ (a, v) :: xs := by simp
  refine ⟨{ m with i := i' }, ?_, ?_, hat, ?_⟩
  · simp only [Merge.nextI, hi', bind_eq_bind, bind_some]
  · rw [hsplit]
    exact h.change
  · rw [hsplit]
    exact h.right

theorem MergeAt.nextJ (h : MergeAt s cells m pre xs ((b, w) :: ys)) :
    ∃ m', m.nextJ = some m' ∧ MergeAt s cells m' pre xs ys := by
  obtain ⟨q, hnxt, hq⟩ :=
    SLList.Holds.nxt_head (s := ⟨m.set.mem, m.j⟩) ⟨h.right.list, h.change.holds.fresh⟩
  refine ⟨{ m with j := q }, ?_, h.change, h.iter, hq, fun c hc => h.right.disj c (mem_cons_of_mem _ hc)⟩
  have hj : m.j = some b := h.j_eq
  change m.set.mem.nxt b = some q at hnxt
  simp only [Merge.nextJ, hj, hnxt, bind_eq_bind, bind_some]

theorem MergeAt.addBefore (h : MergeAt s cells m pre xs ((b, w) :: ys)) :
    ∃ m' a, m.addBefore = some m' ∧ MergeAt s cells m' (pre ++ [(a, w)]) xs ((b, w) :: ys) := by
  obtain ⟨set, i, hadd, hchange, hat⟩ := addBefore_spec h.change.holds h.iter w
  have hsplit : (pre ++ [(m.set.mem.next, w)]) ++ xs = pre ++ (m.set.mem.next, w) :: xs := by simp
  have hj : m.j = some b := h.j_eq
  refine ⟨⟨set, i, m.j⟩, m.set.mem.next, ?_, ?_, hat, ?_⟩
  · simp only [Merge.addBefore, hj, h.val_j, hadd, bind_eq_bind, bind_some]
  · rw [hsplit]
    exact h.change.trans hchange
  · rw [hsplit]
    exact h.right.change h.change.holds hchange

theorem MergeAt.remove (h : MergeAt s cells m pre ((a, v) :: xs) ys) :
    ∃ m', m.remove = some m' ∧ MergeAt s cells m' pre xs ys := by
  obtain ⟨set, i, hremove, hchange, hat⟩ := removeAt_spec h.change.holds h.iter
  refine ⟨⟨set, i, m.j⟩, ?_, h.change.trans hchange, hat, h.right.change h.change.holds hchange⟩
  simp only [Merge.remove, hremove, bind_eq_bind, bind_some]

/-! ## The loops -/

/-- A turn keeps what the operation `f` gives: the nodes passed, and what `f` has still to give for those to
come. -/
def Turns (cmp : T → T → Ordering) (f : List T → List T → List T) (eq lt gt : Merge T → Option (Merge T))
    (s : SLList T) (cells : List (Nat × T)) : Prop :=
  ∀ m pre a v xs b w ys, MergeAt s cells m pre ((a, v) :: xs) ((b, w) :: ys) →
    ∃ m' pre' xs' ys',
      (match cmp v w with
        | .eq => eq m
        | .lt => lt m
        | .gt => gt m) = some m' ∧
      MergeAt s cells m' pre' xs' ys' ∧
      pre'.map Prod.snd ++ f (xs'.map Prod.snd) (ys'.map Prod.snd) =
        pre.map Prod.snd ++ f (v :: xs.map Prod.snd) (w :: ys.map Prod.snd) ∧
      xs'.length + ys'.length < ((a, v) :: xs).length + ((b, w) :: ys).length

/-- The first loop of an operation. -/
theorem mergeLoop_spec {eq lt gt : Merge T → Option (Merge T)} {f : List T → List T → List T} (h : s.Holds cells)
    (hright : Beside s cells p ys) (hturn : Turns cmp f eq lt gt s cells) :
    ∃ m pre xs' ys', mergeLoop cmp eq lt gt s p = some m ∧ MergeAt s cells m pre xs' ys' ∧ (xs' = [] ∨ ys' = []) ∧
      pre.map Prod.snd ++ f (xs'.map Prod.snd) (ys'.map Prod.snd) = f (cells.map Prod.snd) (ys.map Prod.snd) := by
  have hxs := h.length_le
  have hys := SLList.Holds.length_le (s := ⟨s.mem, p⟩) ⟨hright.list, h.fresh⟩
  have hstart : MergeAt s cells ⟨s, s.begin, p⟩ [] cells ys := ⟨Change.refl h, begin_at h, hright⟩
  obtain ⟨m, hloop, pre, xs', ys', hrest⟩ := Loop.exists_attempt_eq_some (mergeTurn cmp eq lt gt)
    (fun k m => ∃ pre xs' ys', MergeAt s cells m pre xs' ys' ∧
      pre.map Prod.snd ++ f (xs'.map Prod.snd) (ys'.map Prod.snd) = f (cells.map Prod.snd) (ys.map Prod.snd) ∧
      xs'.length + ys'.length = k)
    (fun m => ∃ pre xs' ys', MergeAt s cells m pre xs' ys' ∧ (xs' = [] ∨ ys' = []) ∧
      pre.map Prod.snd ++ f (xs'.map Prod.snd) (ys'.map Prod.snd) = f (cells.map Prod.snd) (ys.map Prod.snd))
    (by
      rintro k m ⟨pre, xs', ys', hat, hgives, rfl⟩
      have hnode := hat.iter.node
      have hj := hat.j_eq
      cases xs' with
      | nil => exact Or.inr ⟨m, by simp [mergeTurn, hnode], pre, [], ys', hat, Or.inl rfl, hgives⟩
      | cons x xs' =>
        cases ys' with
        | nil =>
          refine Or.inr ⟨m, ?_, pre, x :: xs', [], hat, Or.inr rfl, hgives⟩
          simp [mergeTurn, hnode, hj]
        | cons y ys' =>
          obtain ⟨a, v⟩ := x
          obtain ⟨b, w⟩ := y
          obtain ⟨m', pre', xs'', ys'', hm', hat', hgives', hless⟩ := hturn m pre a v xs' b w ys' hat
          refine Or.inl ⟨m', _, ?_, hless, pre', xs'', ys'', hat', hgives'.trans hgives, rfl⟩
          simp only [map_cons, head?_cons] at hnode hj
          simp only [mergeTurn, hnode, hj, hat.change.holds.val_eq, hat.val_j, bind_eq_bind,
            bind_some]
          cases hcmp : cmp v w with
          | eq =>
            simp only [hcmp] at hm'
            simp only [hm', bind_some]
          | lt =>
            simp only [hcmp] at hm'
            simp only [hm', bind_some]
          | gt =>
            simp only [hcmp] at hm'
            simp only [hm', bind_some])
    ⟨[], cells, ys, hstart, rfl, rfl⟩ (lt_succ_of_le (Nat.add_le_add hxs hys))
  exact ⟨m, pre, xs', ys', hloop, hrest⟩

/-- The second loop of `join` puts the rest of the other list at the iterator. -/
theorem joinRest_spec (h : MergeAt s cells m pre xs ys) :
    ∃ s' pre', Loop.attempt joinRest (m.set.mem.next + 1) m = some s' ∧ Change s s' cells (pre' ++ xs) ∧
      pre'.map Prod.snd = pre.map Prod.snd ++ ys.map Prod.snd := by
  have hys := SLList.Holds.length_le (s := ⟨m.set.mem, m.j⟩) ⟨h.right.list, h.change.holds.fresh⟩
  obtain ⟨s', hloop, pre', hrest⟩ := Loop.exists_attempt_eq_some joinRest
    (fun k m => ∃ pre' ys', MergeAt s cells m pre' xs ys' ∧
      pre'.map Prod.snd ++ ys'.map Prod.snd = pre.map Prod.snd ++ ys.map Prod.snd ∧ ys'.length = k)
    (fun s' => ∃ pre', Change s s' cells (pre' ++ xs) ∧ pre'.map Prod.snd = pre.map Prod.snd ++ ys.map Prod.snd)
    (by
      rintro k m ⟨pre', ys', hat, hgives, rfl⟩
      have hj := hat.j_eq
      cases ys' with
      | nil =>
        refine Or.inr ⟨m.set, by simp [joinRest, hj], pre', hat.change, ?_⟩
        rw [← hgives, map_nil, append_nil]
      | cons y ys' =>
        obtain ⟨b, w⟩ := y
        obtain ⟨m₁, a, hadd, hat₁⟩ := hat.addBefore
        obtain ⟨m₂, hnext, hat₂⟩ := hat₁.nextJ
        simp only [map_cons, head?_cons] at hj
        refine Or.inl ⟨m₂, ys'.length, ?_, lt_succ_self _, pre' ++ [(a, w)], ys', hat₂, ?_, rfl⟩
        · simp only [joinRest, hj, hadd, hnext, bind_eq_bind, bind_some]
        · rw [← hgives]
          simp)
    ⟨pre, ys, h, rfl, rfl⟩ (lt_succ_of_le hys)
  exact ⟨s', pre', hloop, hrest⟩

/-- The second loop of `meet` removes the rest of this list. -/
theorem meetRest_spec (h : MergeAt s cells m pre xs ys) :
    ∃ s', Loop.attempt meetRest (m.set.mem.next + 1) m = some s' ∧ Change s s' cells pre := by
  have hlength := h.change.holds.length_le
  rw [length_append] at hlength
  have hxs : xs.length ≤ m.set.mem.next := by omega
  obtain ⟨s', hloop, hrest⟩ := Loop.exists_attempt_eq_some meetRest
    (fun k m => ∃ xs', MergeAt s cells m pre xs' ys ∧ xs'.length = k) (fun s' => Change s s' cells pre)
    (by
      rintro k m ⟨xs', hat, rfl⟩
      have hnode := hat.iter.node
      cases xs' with
      | nil =>
        have hchange := hat.change
        rw [append_nil] at hchange
        exact Or.inr ⟨m.set, by simp [meetRest, hnode], hchange⟩
      | cons x xs' =>
        obtain ⟨a, v⟩ := x
        obtain ⟨m', hremove, hat'⟩ := hat.remove
        simp only [map_cons, head?_cons] at hnode
        refine Or.inl ⟨m', xs'.length, ?_, lt_succ_self _, xs', hat', rfl⟩
        simp only [meetRest, hnode, hremove, bind_eq_bind, bind_some])
    ⟨xs, h, rfl⟩ (lt_succ_of_le hxs)
  exact ⟨s', hloop, hrest⟩

/-! ## The operations on the lists -/

/-- What an operation gives: the values of this list, and the other list as it was. -/
structure Gives (s : SLList T) (cells : List (Nat × T)) (p : Option Nat) (ys : List (Nat × T)) (s' : SLList T)
    (values : List T) : Prop where
  change : ∃ cells', Change s s' cells cells' ∧ cells'.map Prod.snd = values ∧ Beside s' cells' p ys

theorem Beside.gives (hright : Beside s cells p ys) (h : s.Holds cells) (hchange : Change s s' cells cells') :
    Gives s cells p ys s' (cells'.map Prod.snd) :=
  ⟨cells', hchange, rfl, hright.change h hchange⟩

theorem join_turns (cmp : T → T → Ordering) :
    Turns cmp (union cmp) (fun m => m.nextI.bind Merge.nextJ) Merge.nextI
      (fun m => m.addBefore.bind Merge.nextJ) s cells := by
  intro m pre a v xs b w ys hat
  cases hcmp : cmp v w with
  | eq =>
    obtain ⟨m₁, h₁, hat₁⟩ := hat.nextI
    obtain ⟨m₂, h₂, hat₂⟩ := hat₁.nextJ
    refine ⟨m₂, pre ++ [(a, v)], xs, ys, by simp only [h₁, h₂, bind_some], hat₂, ?_, ?_⟩
    · simp [union, hcmp]
    · simp only [length_cons]
      omega
  | lt =>
    obtain ⟨m₁, h₁, hat₁⟩ := hat.nextI
    refine ⟨m₁, pre ++ [(a, v)], xs, (b, w) :: ys, h₁, hat₁, ?_, ?_⟩
    · simp [union, hcmp]
    · simp only [length_cons]
      omega
  | gt =>
    obtain ⟨m₁, c, h₁, hat₁⟩ := hat.addBefore
    obtain ⟨m₂, h₂, hat₂⟩ := hat₁.nextJ
    refine ⟨m₂, pre ++ [(c, w)], (a, v) :: xs, ys, by simp only [h₁, h₂, bind_some], hat₂, ?_, ?_⟩
    · simp [union, hcmp]
    · simp only [length_cons]
      omega

theorem meet_turns (cmp : T → T → Ordering) :
    Turns cmp (inter cmp) (fun m => m.nextI.bind Merge.nextJ) Merge.remove Merge.nextJ s cells := by
  intro m pre a v xs b w ys hat
  cases hcmp : cmp v w with
  | eq =>
    obtain ⟨m₁, h₁, hat₁⟩ := hat.nextI
    obtain ⟨m₂, h₂, hat₂⟩ := hat₁.nextJ
    refine ⟨m₂, pre ++ [(a, v)], xs, ys, by simp only [h₁, h₂, bind_some], hat₂, ?_, ?_⟩
    · simp [inter, hcmp]
    · simp only [length_cons]
      omega
  | lt =>
    obtain ⟨m₁, h₁, hat₁⟩ := hat.remove
    refine ⟨m₁, pre, xs, (b, w) :: ys, h₁, hat₁, ?_, ?_⟩
    · rw [inter, hcmp]
      rfl
    · simp only [length_cons]
      omega
  | gt =>
    obtain ⟨m₁, h₁, hat₁⟩ := hat.nextJ
    refine ⟨m₁, pre, (a, v) :: xs, ys, h₁, hat₁, ?_, ?_⟩
    · rw [inter, hcmp]
      rfl
    · simp only [length_cons]
      omega

theorem diff_turns (cmp : T → T → Ordering) :
    Turns cmp (SortedSet.diff cmp) (fun m => m.remove.bind Merge.nextJ) Merge.nextI Merge.nextJ s cells := by
  intro m pre a v xs b w ys hat
  cases hcmp : cmp v w with
  | eq =>
    obtain ⟨m₁, h₁, hat₁⟩ := hat.remove
    obtain ⟨m₂, h₂, hat₂⟩ := hat₁.nextJ
    refine ⟨m₂, pre, xs, ys, by simp only [h₁, h₂, bind_some], hat₂, ?_, ?_⟩
    · rw [SortedSet.diff, hcmp]
    · simp only [length_cons]
      omega
  | lt =>
    obtain ⟨m₁, h₁, hat₁⟩ := hat.nextI
    refine ⟨m₁, pre ++ [(a, v)], xs, (b, w) :: ys, h₁, hat₁, ?_, ?_⟩
    · simp [SortedSet.diff, hcmp]
    · simp only [length_cons]
      omega
  | gt =>
    obtain ⟨m₁, h₁, hat₁⟩ := hat.nextJ
    refine ⟨m₁, pre, (a, v) :: xs, ys, h₁, hat₁, ?_, ?_⟩
    · rw [SortedSet.diff, hcmp]
      rfl
    · simp only [length_cons]
      omega

theorem join_eq (cmp : T → T → Ordering) (h : s.Holds cells) (hright : Beside s cells p ys) :
    ∃ s', join cmp s p = some s' ∧ Gives s cells p ys s' (union cmp (cells.map Prod.snd) (ys.map Prod.snd)) := by
  obtain ⟨m, pre, xs', ys', hloop, hat, hend, hgives⟩ := mergeLoop_spec h hright (join_turns cmp)
  obtain ⟨s', pre', hrest, hchange, hpre⟩ := joinRest_spec hat
  have hvalues : (pre' ++ xs').map Prod.snd = union cmp (cells.map Prod.snd) (ys.map Prod.snd) := by
    rw [← hgives, map_append, hpre]
    rcases hend with rfl | rfl
    · simp [union]
    · cases xs' <;> simp [union]
  have hresult := hright.gives h hchange
  rw [hvalues] at hresult
  exact ⟨s', by simp only [join, hloop, hrest, bind_eq_bind, bind_some], hresult⟩

theorem meet_eq (cmp : T → T → Ordering) (h : s.Holds cells) (hright : Beside s cells p ys) :
    ∃ s', meet cmp s p = some s' ∧ Gives s cells p ys s' (inter cmp (cells.map Prod.snd) (ys.map Prod.snd)) := by
  obtain ⟨m, pre, xs', ys', hloop, hat, hend, hgives⟩ := mergeLoop_spec h hright (meet_turns cmp)
  obtain ⟨s', hrest, hchange⟩ := meetRest_spec hat
  have hvalues : pre.map Prod.snd = inter cmp (cells.map Prod.snd) (ys.map Prod.snd) := by
    rw [← hgives]
    rcases hend with rfl | rfl
    · simp [inter]
    · cases xs' <;> simp [inter]
  have hresult := hright.gives h hchange
  rw [hvalues] at hresult
  exact ⟨s', by simp only [meet, hloop, hrest, bind_eq_bind, bind_some], hresult⟩

theorem diff_eq (cmp : T → T → Ordering) (h : s.Holds cells) (hright : Beside s cells p ys) :
    ∃ s', diff cmp s p = some s' ∧
      Gives s cells p ys s' (SortedSet.diff cmp (cells.map Prod.snd) (ys.map Prod.snd)) := by
  obtain ⟨m, pre, xs', ys', hloop, hat, hend, hgives⟩ := mergeLoop_spec h hright (diff_turns cmp)
  have hvalues : (pre ++ xs').map Prod.snd = SortedSet.diff cmp (cells.map Prod.snd) (ys.map Prod.snd) := by
    rw [← hgives, map_append]
    rcases hend with rfl | rfl
    · simp [SortedSet.diff]
    · cases xs' <;> simp [SortedSet.diff]
  have hresult := hright.gives h hat.change
  rw [hvalues] at hresult
  exact ⟨m.set, by simp only [diff, hloop, bind_eq_bind, bind_some], hresult⟩

/-- One turn of `subsetOf`, which leaves what is still to be told as it was. -/
theorem subsetTurn_spec (cmp : T → T → Ordering) [OrientedCmp cmp] {mem : Memory T} {i j : Option Nat}
    (hi : SLList.Holds ⟨mem, i⟩ ys) (hj : SLList.Holds ⟨mem, j⟩ xs) :
    (∃ i' j' ys' xs', subsetTurn cmp mem (i, j) = some (.inl (i', j')) ∧ SLList.Holds ⟨mem, i'⟩ ys' ∧
      SLList.Holds ⟨mem, j'⟩ xs' ∧ ys'.length < ys.length ∧
      included cmp (xs'.map Prod.snd) (ys'.map Prod.snd) = included cmp (xs.map Prod.snd) (ys.map Prod.snd)) ∨
    subsetTurn cmp mem (i, j) = some (.inr (included cmp (xs.map Prod.snd) (ys.map Prod.snd))) := by
  have hinode : i = (ys.map Prod.fst).head? := hi.fst_eq
  have hjnode : j = (xs.map Prod.fst).head? := hj.fst_eq
  cases ys with
  | nil =>
    right
    rw [hinode, hjnode]
    cases xs <;> simp [subsetTurn, included]
  | cons y ys =>
    obtain ⟨b, w⟩ := y
    cases xs with
    | nil =>
      right
      rw [hinode, hjnode]
      simp [subsetTurn, included]
    | cons x xs =>
      obtain ⟨a, v⟩ := x
      obtain ⟨q, hnexti, hq⟩ := hi.nxt_head
      obtain ⟨r, hnextj, hr⟩ := hj.nxt_head
      have hvali : mem.val b = some w := hi.val_head
      have hvalj : mem.val a = some v := hj.val_head
      simp only [map_cons, head?_cons] at hinode hjnode
      subst hinode hjnode
      simp only at hnexti hnextj
      cases hcmp : cmp v w with
      | eq =>
        have hswap : cmp w v = .eq := OrientedCmp.eq_symm hcmp
        refine Or.inl ⟨q, r, ys, xs, ?_, ⟨hq, hi.fresh⟩, ⟨hr, hj.fresh⟩, lt_succ_self _, ?_⟩
        · simp only [subsetTurn, hvali, hvalj, hswap, hnexti, hnextj, bind_eq_bind, bind_some]
        · simp only [map_cons, included, hcmp]
      | lt =>
        -- the least item of this list is before all those that are left in the argument
        have hswap : cmp w v = .gt := OrientedCmp.gt_of_lt hcmp
        right
        simp only [subsetTurn, hvali, hvalj, hswap, map_cons, included, hcmp, bind_eq_bind,
          bind_some]
      | gt =>
        have hswap : cmp w v = .lt := OrientedCmp.lt_of_gt hcmp
        refine Or.inl ⟨q, some a, ys, (a, v) :: xs, ?_, ⟨hq, hi.fresh⟩, hj, lt_succ_self _, ?_⟩
        · simp only [subsetTurn, hvali, hvalj, hswap, hnexti, bind_eq_bind, bind_some]
        · simp only [map_cons, included, hcmp]

/-- The lockstep of `subsetOf` is the one of the values. -/
theorem subsetOf_eq [OrientedCmp cmp] (h : s.Holds cells) (hright : Beside s cells p ys) :
    subsetOf cmp s p = some (included cmp (cells.map Prod.snd) (ys.map Prod.snd)) := by
  have hargument : SLList.Holds ⟨s.mem, p⟩ ys := ⟨hright.list, h.fresh⟩
  obtain ⟨r, hloop, rfl⟩ := Loop.exists_attempt_eq_some (subsetTurn cmp s.mem)
    (fun k t => ∃ ys' xs', SLList.Holds ⟨s.mem, t.1⟩ ys' ∧ SLList.Holds ⟨s.mem, t.2⟩ xs' ∧ ys'.length = k ∧
      included cmp (xs'.map Prod.snd) (ys'.map Prod.snd) = included cmp (cells.map Prod.snd) (ys.map Prod.snd))
    (fun r => r = included cmp (cells.map Prod.snd) (ys.map Prod.snd))
    (by
      rintro k ⟨i, j⟩ ⟨ys', xs', hi, hj, rfl, hsame⟩
      rcases subsetTurn_spec cmp hi hj with ⟨i', j', ys'', xs'', hturn, hi', hj', hless, hsame'⟩ | hturn
      · exact Or.inl ⟨(i', j'), _, hturn, hless, ys'', xs'', hi', hj', rfl, hsame'.trans hsame⟩
      · exact Or.inr ⟨_, hturn, hsame⟩)
    (s := (p, s.fst)) ⟨ys, cells, hargument, h, rfl, rfl⟩ (lt_succ_of_le hargument.length_le)
  exact hloop

/-! ## The insertion -/

theorem contains_found (h : s.Holds (xs ++ (a, w) :: ys)) (hxs : ∀ u ∈ xs.map Prod.snd, cmp v u = .gt)
    (hw : cmp v w = .eq) : contains cmp s v = some true := by
  rw [contains, find, loop_eq h h.list, visit_skip _ fun x hx => by rw [hxs x.2 (List.mem_map_of_mem hx)]]
  simp [visit, hw]

theorem contains_missing (h : s.Holds (xs ++ ys)) (hxs : ∀ u ∈ xs.map Prod.snd, cmp v u = .gt)
    (hys : ∀ u ∈ ys.map Prod.snd, cmp v u = .lt) : contains cmp s v = some false := by
  rw [contains, find, loop_eq h h.list, visit_skip _ fun x hx => by rw [hxs x.2 (List.mem_map_of_mem hx)]]
  cases ys with
  | nil => rfl
  | cons y ys =>
    obtain ⟨a, u⟩ := y
    simp [visit, hys u (by simp)]

/-- A value is added before the first item that is greater. -/
theorem add_spec (h : s.Holds (xs ++ ys)) (hxs : ∀ u ∈ xs.map Prod.snd, ¬ cmp v u = .lt)
    (hys : ∀ u ∈ ys.map Prod.snd, cmp v u = .lt) :
    ∃ s', add cmp s v = some s' ∧ Change s s' (xs ++ ys) (xs ++ (s.mem.next, v) :: ys) := by
  obtain ⟨s', hchange, ⟨hloop, hadd⟩ | ⟨i, hloop, hadd⟩⟩ := addBefore_first h hxs hys v
  · exact ⟨s', by rw [add, hloop]; exact hadd, hchange⟩
  · exact ⟨s', by rw [add, hloop]; exact hadd, hchange⟩

/-- A value is put where it stands, unless an equal one is there. -/
theorem insert_spec [TransCmp cmp] (h : s.Holds cells) (hright : Beside s cells p ys)
    (hsorted : Sorted cmp (cells.map Prod.snd)) (v : T) :
    ∃ s' values, insert cmp s v = some s' ∧ Gives s cells p ys s' values ∧ Sorted cmp values ∧
      elements cmp values = {u | cmp u v = .eq} ∪ elements cmp (cells.map Prod.snd) := by
  obtain ⟨as, bs, has, hbs, hsplit | ⟨w, hw, hsplit⟩⟩ := hsorted.exists_split v
  · obtain ⟨xs, zs, rfl, rfl, rfl⟩ := map_eq_append_iff.mp hsplit
    have hnot : ∀ u ∈ xs.map Prod.snd, ¬ cmp v u = .lt := by
      intro u hu hlt
      rw [has u hu] at hlt
      cases hlt
    obtain ⟨s', hadd, hchange⟩ := add_spec h hnot hbs
    have hvalues : (xs ++ (s.mem.next, v) :: zs).map Prod.snd = xs.map Prod.snd ++ v :: zs.map Prod.snd := by
      rw [map_append, map_cons]
    have hresult := hright.gives h hchange
    rw [hsplit] at hsorted
    rw [hvalues] at hresult
    refine ⟨s', _, ?_, hresult, hsorted.insert has hbs, ?_⟩
    · simp only [insert, contains_missing h has hbs, bind_eq_bind, bind_some, Bool.not_false,
        if_true, hadd]
    · ext u
      rw [hsplit]
      simp only [elements_append, Set.mem_union, mem_elements_cons, Set.mem_ofPred_eq]
      tauto
  · obtain ⟨xs, zs, rfl, rfl, hzs⟩ := map_eq_append_iff.mp hsplit
    obtain ⟨⟨a, w⟩, zs, rfl, rfl, rfl⟩ := map_eq_cons_iff.mp hzs
    refine ⟨s, _, ?_, hright.gives h (Change.refl h), hsorted, ?_⟩
    · simp [insert, contains_found h has hw]
    · ext u
      rw [Set.mem_union, Set.mem_ofPred_eq]
      constructor
      · exact Or.inr
      · rintro (hu | hu)
        · exact ⟨w, by simp, TransCmp.eq_trans hu hw⟩
        · exact hu

/-- On two different sets of a memory, both strictly sorted, `insert` adds a value to the first one, `join`, `meet`
and `diff` give it the union, the intersection and the difference, strictly sorted again, and the second one stays as
it is; `subsetOf` tells the inclusion. -/
theorem listSet_operations [TransCmp cmp] (h : s.Holds cells) (hright : Beside s cells p ys)
    (hxs : Sorted cmp (cells.map Prod.snd)) (hys : Sorted cmp (ys.map Prod.snd)) :
    (∀ v, ∃ s' values, insert cmp s v = some s' ∧ Gives s cells p ys s' values ∧ Sorted cmp values ∧
      elements cmp values = {u | cmp u v = .eq} ∪ elements cmp (cells.map Prod.snd)) ∧
    (∃ s' values, join cmp s p = some s' ∧ Gives s cells p ys s' values ∧ Sorted cmp values ∧
      elements cmp values = elements cmp (cells.map Prod.snd) ∪ elements cmp (ys.map Prod.snd)) ∧
    (∃ s' values, meet cmp s p = some s' ∧ Gives s cells p ys s' values ∧ Sorted cmp values ∧
      elements cmp values = elements cmp (cells.map Prod.snd) ∩ elements cmp (ys.map Prod.snd)) ∧
    (∃ s' values, diff cmp s p = some s' ∧ Gives s cells p ys s' values ∧ Sorted cmp values ∧
      elements cmp values = elements cmp (cells.map Prod.snd) \ elements cmp (ys.map Prod.snd)) ∧
    ∃ b, subsetOf cmp s p = some b ∧
      (b = true ↔ elements cmp (cells.map Prod.snd) ⊆ elements cmp (ys.map Prod.snd)) := by
  obtain ⟨s₁, hjoin, hunion⟩ := join_eq cmp h hright
  obtain ⟨s₂, hmeet, hinter⟩ := meet_eq cmp h hright
  obtain ⟨s₃, hdiff, hwithout⟩ := diff_eq cmp h hright
  refine ⟨insert_spec h hright hxs, ⟨s₁, _, hjoin, hunion, sorted_union hxs hys, elements_union _ _⟩,
    ⟨s₂, _, hmeet, hinter, sorted_inter hxs _, elements_inter hxs hys⟩,
    ⟨s₃, _, hdiff, hwithout, sorted_diff hxs _, elements_diff hxs hys⟩, _, subsetOf_eq h hright, ?_⟩
  exact included_iff hxs hys

/-- The sets of 1 and 3, and of 2 and 3, in one memory. -/
def twoSets : Memory Nat := ⟨fun a => [(some 1, 1), (none, 3), (some 3, 2), (none, 3)][a]?, 4⟩

theorem listSet_operations_twoSets :
    (∃ s' values, join compare ⟨twoSets, some 0⟩ (some 2) = some s' ∧
      Gives ⟨twoSets, some 0⟩ [(0, 1), (1, 3)] (some 2) [(2, 2), (3, 3)] s' values ∧ Sorted compare values ∧
      elements compare values = elements compare [1, 3] ∪ elements compare [2, 3]) ∧
    ∃ b, subsetOf compare ⟨twoSets, some 0⟩ (some 2) = some b ∧
      (b = true ↔ elements compare [1, 3] ⊆ elements compare [2, 3]) := by
  have hfresh : ∀ a, 4 ≤ a → twoSets.nodes a = none := fun a ha => getElem?_eq_none ha
  have h : SLList.Holds ⟨twoSets, some 0⟩ [(0, 1), (1, 3)] := ⟨⟨rfl, _, rfl, rfl, _, rfl, rfl⟩, hfresh⟩
  have hright : Beside ⟨twoSets, some 0⟩ [(0, 1), (1, 3)] (some 2) [(2, 2), (3, 3)] :=
    ⟨⟨rfl, _, rfl, rfl, _, rfl, rfl⟩, by decide⟩
  obtain ⟨-, hjoin, -, -, hsubset⟩ := @listSet_operations Nat compare _ _ _ _ _ h hright
    (by unfold Sorted; decide) (by unfold Sorted; decide)
  exact ⟨hjoin, hsubset⟩

end Elm.Data.ListSet
