import Elm.Avl.Sparse
import Elm.Lib.LinkedTree

/-!
# `GenTree::copy` on the nodes

The nodes of all the trees of a program are in one memory.  `copy` frees the nodes of its receiver, then goes over
its argument with a stack of the nodes to be copied and a stack of their copies, which it links to their parents.
-/

namespace Elm.Avl

open BinaryTree LinkedTree Option Function

/-- The nodes, and the address of the next node to be made. -/
structure Memory (T : Type) where
  nodes : Read Nat (Cell T)
  next : Nat

/-- The members `_root` and `_cnt` of a tree. -/
structure TreePtr where
  root : Option Nat
  cnt : Int
  deriving DecidableEq, Repr

/-- A tree whose nodes are known by their addresses. -/
abbrev Located (T : Type) := BinaryTree (Nat × Cell T)

variable {T : Type} {ι : Type} [DecidableEq ι]

namespace Memory

/-- `new(a) Node(node)`: the datum and the balance of a node, and no child. -/
def new (m : Memory T) (c : Cell T) : Memory T :=
  { nodes := Function.update m.nodes m.next (some ⟨none, none, c⟩), next := m.next + 1 }

/-- `Node::free`. -/
def free (m : Memory T) (a : Nat) : Option (Memory T) :=
  (m.nodes a).map fun _ => { m with nodes := Function.update m.nodes a none }

/-- `left()` and `right()`. -/
def child (m : Memory T) (d : Side) (a : Nat) : Option (Option Nat) := (m.nodes a).map (Link.child d)

/-- The members `_bal` and `data`. -/
def cell (m : Memory T) (a : Nat) : Option (Cell T) := (m.nodes a).map Link.val

/-- The members `_left` and `_right` are changed. -/
def setChild (m : Memory T) (d : Side) (a : Nat) (p : Option Nat) : Option (Memory T) :=
  (m.nodes a).map fun c => { m with nodes := Function.update m.nodes a (some (c.setChild d p)) }

end Memory

/-! ## The functions -/

/-- A node that is not null is pushed. -/
def pushNode (a : Option Nat) (s : List Nat) : Option (List Nat) :=
  match a with
  | none => some s
  | some a => Fixed.push a s

/-- One turn of the loop of `GenTree::clear`, with its stack. -/
def clearNode (s : Memory T × List Nat) : (Memory T × List Nat) ⊕ Option (Memory T) :=
  match s.2 with
  | [] => .inr (some s.1)
  | n :: stack =>
    match s.1.nodes n with
    | none => .inr none
    | some c =>
      match (pushNode c.left stack).bind (pushNode c.right) with
      | none => .inr none
      | some stack =>
        match s.1.free n with
        | none => .inr none
        | some m => .inl (m, stack)

/-- The loop of `GenTree::clear`. -/
def clearNodes (fuel : Nat) (m : Memory T) (root : Option Nat) : Option (Memory T) :=
  (Loop.run clearNode fuel (m, root.toList)).join

/-- The memory and the two stacks `ss` and `st` of `GenTree::copy`. -/
structure CopyStacks (T : Type) where
  mem : Memory T
  ss : List Nat
  st : List Nat

/-- `VisitStack::copyLeft` and `VisitStack::copyRight`. -/
def copyNode (d : Side) (s : CopyStacks T) : Option (CopyStacks T) :=
  match s.ss, s.st with
  | a :: _, b :: _ => do
    let n ← ← s.mem.child d a
    let mem := s.mem.new (← s.mem.cell n)
    let mem ← mem.setChild d b (some s.mem.next)
    let st ← Fixed.push (← ← mem.child d b) s.st
    let ss ← Fixed.push (← ← mem.child d a) s.ss
    some ⟨mem, ss, st⟩
  | _, _ => none

/-- The two inner loops of `GenTree::copy` once `prv` has been popped from `ss`: the `do` loop goes on from a right
child, the `while` loop from a node without right child.  The inner `none` is the `return` on an empty stack. -/
def climb (m : Memory T) : Nat → List Nat → List Nat → Option (Option (List Nat × List Nat))
  | _, [], _ => some none
  | prv, top :: ss, st => do
    let right ← m.child .right top
    if right = some prv ∨ right = none then climb m top ss st.tail else some (some (top :: ss, st.tail))

/-- The loop goes on, unless a pointer was bad or a stack full. -/
def goOn : Option (CopyStacks T) → CopyStacks T ⊕ Option (Memory T)
  | some s => .inl s
  | none => .inr none

/-- One turn of the outer loop of `GenTree::copy`. -/
def copyNext (s : CopyStacks T) : CopyStacks T ⊕ Option (Memory T) :=
  match s.ss with
  | [] => .inr (some s.mem)
  | a :: ss =>
    match s.mem.nodes a with
    | none => .inr none
    | some c =>
      if c.left ≠ none then
        goOn (copyNode .left s)
      else if c.right ≠ none then
        goOn (copyNode .right s)
      else
        match climb s.mem a ss s.st with
        | none => .inr none
        | some none => .inr (some s.mem)
        | some (some (ss', st')) => goOn (copyNode .right ⟨s.mem, ss', st'⟩)

/-- `trees[i].copy(trees[j])`, with a bound for its loops. -/
def copyTree (fuel : Nat) (m : Memory T) (trees : ι → TreePtr) (i j : ι) : Option (Memory T × (ι → TreePtr)) := do
  let m ← clearNodes fuel m (trees i).root
  let trees := Function.update trees i ⟨none, 0⟩
  match (trees j).root with
  | none => some (m, trees)
  | some a => do
    let root := m.next
    let m := m.new (← m.cell a)
    let m ← (Loop.run copyNext fuel ⟨m, [a], [root]⟩).join
    some (m, Function.update trees i ⟨some root, (trees j).cnt⟩)

/-- The trees of the program: each has its own nodes, which no other one has, and counts them. -/
structure Forest (m : Memory T) (trees : ι → TreePtr) (located : ι → Located T) : Prop where
  root_eq : ∀ i, (trees i).root = addr (located i)
  cnt_eq : ∀ i, (trees i).cnt = (located i).numNodes
  stored : ∀ i, Stored m.nodes (located i)
  nodup : ∀ i, (addrs (located i)).Nodup
  lt_next : ∀ i, ∀ a ∈ addrs (located i), a < m.next
  disjoint : ∀ i j, i ≠ j → (addrs (located i)).Disjoint (addrs (located j))

/-! ## Clearing -/

variable {m : Memory T}

/-- The memory without some of its nodes. -/
def Memory.without (m : Memory T) (as : List Nat) : Memory T :=
  { m with nodes := fun a => if a ∈ as then none else m.nodes a }

/-- The addresses of the trees of a stack. -/
def stackAddrs (ts : List (Located T)) : List Nat := ts.flatMap addrs

/-- The entries that `clear` needs on its stack for a tree, its root counted. -/
def clearDepth : Located T → Nat
  | nil => 0
  | node _ l r => max 1 (max (clearDepth l) (clearDepth r + (addr l).toList.length))

/-- No tree of the stack needs more entries than there are. -/
def ClearFits : List (Located T) → Prop
  | [] => True
  | t :: ts => clearDepth t + (ts.filterMap addr).length ≤ maxHeight ∧ ClearFits ts

theorem filterMap_addr_cons (t : Located T) (ts : List (Located T)) :
    (t :: ts).filterMap addr = (addr t).toList ++ ts.filterMap addr := by
  cases t <;> rfl

theorem pushNode_eq (t : Located T) {ts : List (Located T)} (h : (ts.filterMap addr).length ≤ maxHeight) :
    pushNode (addr t) (ts.filterMap addr) = Fixed.held ((t :: ts).filterMap addr) := by
  cases t with
  | nil => exact (Fixed.held_eq h).symm
  | node a l r => exact Fixed.push_eq_held a.1 h

theorem length_filterMap_cons (t : Located T) (ts : List (Located T)) :
    ((t :: ts).filterMap addr).length = (addr t).toList.length + (ts.filterMap addr).length := by
  rw [filterMap_addr_cons, List.length_append]

/-- A node leaves its place to its children. -/
theorem clearFits_node {a : Nat × Cell T} {l r : Located T} {ts : List (Located T)}
    (h : ((node a l r :: ts).filterMap addr).length ≤ maxHeight) :
    ClearFits (node a l r :: ts) ↔ ClearFits (r :: l :: ts) := by
  rw [length_filterMap_cons, addr_node] at h
  simp only [ClearFits, clearDepth, length_filterMap_cons]
  simp only [toList_some, List.length_singleton] at h
  constructor
  · rintro ⟨hle, hts⟩
    exact ⟨by omega, by omega, hts⟩
  · rintro ⟨hr, hl, hts⟩
    exact ⟨by omega, hts⟩

theorem ClearFits.held {ts : List (Located T)} (h : ClearFits ts) : (ts.filterMap addr).length ≤ maxHeight := by
  cases ts with
  | nil => exact Nat.zero_le _
  | cons t ts =>
    have hle := h.1
    rw [length_filterMap_cons]
    cases t with
    | nil => simpa [clearDepth] using hle
    | node a l r =>
      have hone : 1 ≤ clearDepth (node a l r) := Nat.le_max_left _ _
      rw [addr_node]
      simp only [toList_some, List.length_singleton]
      omega

theorem clearNode_spec {a : Nat × Cell T} {l r : Located T} {ts : List (Located T)}
    (hstored : ∀ t ∈ node a l r :: ts, Stored m.nodes t) (h : (ts.filterMap addr).length ≤ maxHeight) :
    clearNode (m, (node a l r :: ts).filterMap addr) =
      if ((r :: l :: ts).filterMap addr).length ≤ maxHeight then .inl (m.without [a.1], (r :: l :: ts).filterMap addr)
      else .inr none := by
  have hread : m.nodes a.1 = some ⟨addr l, addr r, a.2⟩ := by
    apply hstored (node a l r) List.mem_cons_self (a.1, ⟨addr l, addr r, a.2⟩)
    exact List.mem_cons_self
  have hupdate : Function.update m.nodes a.1 none = (m.without [a.1]).nodes := by
    funext b
    by_cases hb : b = a.1
    · subst hb
      simp [Memory.without]
    · simp [Memory.without, hb]
  have hpush : (pushNode (addr l) (ts.filterMap addr)).bind (pushNode (addr r)) =
      Fixed.held ((r :: l :: ts).filterMap addr) := by
    rw [pushNode_eq l h]
    refine Fixed.bind_held ?_ fun hl => pushNode_eq r hl
    rw [length_filterMap_cons r]
    exact Nat.le_add_left _ _
  have hstart : (node a l r :: ts).filterMap addr = a.1 :: ts.filterMap addr := rfl
  rw [hstart]
  by_cases hheld : ((r :: l :: ts).filterMap addr).length ≤ maxHeight
  · rw [Fixed.held_eq hheld] at hpush
    simp only [clearNode, hread, hpush, Memory.free, map_some, hupdate, if_pos hheld]
    rfl
  · rw [Fixed.held, if_neg hheld] at hpush
    simp only [clearNode, hread, hpush, if_neg hheld]

/-- The loop of `clear` frees the nodes of all the trees of its stack, if these fit. -/
theorem run_clearNode {fuel : Nat} {m : Memory T} {ts : List (Located T)} (hstored : ∀ t ∈ ts, Stored m.nodes t)
    (hnodup : (stackAddrs ts).Nodup) (hfuel : (stackAddrs ts).length < fuel)
    (hheld : (ts.filterMap addr).length ≤ maxHeight) :
    ∃ r, Loop.run clearNode fuel (m, ts.filterMap addr) = some r ∧
      (ClearFits ts → r = some (m.without (stackAddrs ts))) ∧ (¬ClearFits ts → r = none) := by
  induction fuel generalizing m ts with
  | zero => exact absurd hfuel (Nat.not_lt_zero _)
  | succ fuel ih =>
    induction ts with
    | nil =>
      refine ⟨_, Loop.run_succ_inr rfl fuel, fun _ => ?_, fun hnot => absurd trivial hnot⟩
      simp [Memory.without, stackAddrs]
    | cons t ts ihts =>
      cases t with
      | nil =>
        obtain ⟨r, hrun, hfits, hnot⟩ :=
          ihts (fun t ht => hstored t (List.mem_cons_of_mem _ ht)) hnodup hfuel hheld
        refine ⟨r, hrun, fun h => hfits h.2, fun h => hnot fun hts => h ⟨?_, hts⟩⟩
        rwa [clearDepth, Nat.zero_add]
      | node a l r =>
        have haddrs : stackAddrs (node a l r :: ts) = a.1 :: (addrs l ++ addrs r ++ stackAddrs ts) := by
          simp [stackAddrs]
        have hperm : (stackAddrs (r :: l :: ts)).Perm (addrs l ++ addrs r ++ stackAddrs ts) := by
          simp only [stackAddrs, List.flatMap_cons, ← List.append_assoc]
          exact List.perm_append_comm.append_right _
        rw [haddrs] at hnodup hfuel
        obtain ⟨hnot, hnodup'⟩ := List.nodup_cons.mp hnodup
        -- the other nodes are still there
        have hkept : ∀ t ∈ r :: l :: ts, Stored (m.without [a.1]).nodes t := by
          intro t ht
          have hold : Stored m.nodes t := by
            rcases List.mem_cons.mp ht with rfl | ht
            · intro x hx
              apply hstored (node a l t) List.mem_cons_self
              exact List.mem_cons_of_mem _ (List.mem_append_right _ hx)
            · rcases List.mem_cons.mp ht with rfl | ht
              · intro x hx
                apply hstored (node a t r) List.mem_cons_self
                exact List.mem_cons_of_mem _ (List.mem_append_left _ hx)
              · exact hstored t (List.mem_cons_of_mem _ ht)
          refine hold.mono fun b hb => ?_
          have hne : b ≠ a.1 := by
            rintro rfl
            exact hnot (hperm.mem_iff.mp (List.mem_flatMap.mpr ⟨t, ht, hb⟩))
          simp [Memory.without, hne]
        have hlength : (stackAddrs (r :: l :: ts)).length < fuel := by
          rw [hperm.length_eq]
          rw [List.length_cons] at hfuel
          omega
        have hts : (ts.filterMap addr).length ≤ maxHeight := by
          rw [length_filterMap_cons] at hheld
          omega
        have hturn := clearNode_spec hstored hts
        by_cases hnext : ((r :: l :: ts).filterMap addr).length ≤ maxHeight
        · rw [if_pos hnext] at hturn
          obtain ⟨res, hrun, hfits, hnot⟩ := ih hkept (hperm.nodup_iff.mpr hnodup') hlength hnext
          refine ⟨res, (Loop.run_succ_inl hturn fuel).trans hrun, fun h => ?_, fun h => ?_⟩
          · rw [hfits ((clearFits_node hheld).mp h), haddrs]
            congr 1
            unfold Memory.without
            congr 1
            funext b
            simp only [hperm.mem_iff, List.mem_cons, List.not_mem_nil, or_false]
            by_cases hb : b = a.1
            · simp [hb]
            · simp [hb]
          · exact hnot fun hfits => h ((clearFits_node hheld).mpr hfits)
        · rw [if_neg hnext] at hturn
          refine ⟨none, Loop.run_succ_inr hturn fuel, fun h => ?_, fun _ => rfl⟩
          exact absurd ((clearFits_node hheld).mp h).held hnext

/-- `clear` frees the nodes of its tree and no other one, if its stack fits. -/
theorem run_clearNode_root {t : Located T} (hstored : Stored m.nodes t) (hnodup : (addrs t).Nodup) {fuel : Nat}
    (hfuel : t.numNodes < fuel) : Loop.run clearNode fuel (m, (addr t).toList) =
      some (if clearDepth t ≤ maxHeight then some (m.without (addrs t)) else none) := by
  have haddrs : stackAddrs [t] = addrs t := by simp [stackAddrs]
  have hstack : [t].filterMap addr = (addr t).toList := by
    cases t <;> rfl
  have hall : ∀ u ∈ [t], Stored m.nodes u := by
    intro u hu
    rwa [List.mem_singleton.mp hu]
  have hone : ([t].filterMap addr).length ≤ maxHeight := by
    rw [hstack]
    exact length_toList_le.trans (by decide)
  obtain ⟨r, hrun, hfits, hnot⟩ := run_clearNode hall (by rwa [haddrs]) (by rwa [haddrs, length_addrs]) hone
  have hiff : ClearFits [t] ↔ clearDepth t ≤ maxHeight := ⟨fun h => h.1, fun h => ⟨h, trivial⟩⟩
  rw [hiff] at hfits hnot
  rw [haddrs] at hfits
  rw [hstack] at hrun
  rw [hrun]
  split_ifs with h
  · rw [hfits h]
  · rw [hnot h]

theorem clearNodes_eq_some {t : Located T} (hstored : Stored m.nodes t) (hnodup : (addrs t).Nodup) {fuel : Nat}
    {m' : Memory T} (h : clearNodes fuel m (addr t) = some m') :
    clearDepth t ≤ maxHeight ∧ m' = m.without (addrs t) := by
  have hrun := run_clearNode_root hstored hnodup (Nat.lt_succ_self t.numNodes)
  have hsame := Loop.run_unique (join_eq_some_iff.mp h) hrun
  split_ifs at hsame with hfits
  exact ⟨hfits, some.inj hsame⟩

/-! ## The copies -/

/-- The nodes of a stack of parents. -/
def parents (s : List (Frame (Nat × Cell T))) : List Nat := s.map fun f => f.label.1

/-- Since the memory was `m₀`, the nodes of the tree have been made, and no other node has changed. -/
structure Built (m₀ m : Memory T) (t : Located T) : Prop where
  stored : Stored m.nodes t
  nodup : (addrs t).Nodup
  fresh : ∀ a ∈ addrs t, m₀.next ≤ a ∧ a < m.next
  frame : ∀ a, a < m₀.next → m.nodes a = m₀.nodes a

variable {m₀ : Memory T}

theorem setChild_frameLink (f : Frame (Nat × Cell T)) (p q : Option Nat) :
    (frameLink p f).setChild f.side q = frameLink q f := by
  obtain ⟨side, a, u⟩ := f
  cases side <;> rfl

theorem child_frameLink (f : Frame (Nat × Cell T)) (p : Option Nat) : (frameLink p f).child f.side = p := by
  obtain ⟨side, a, u⟩ := f
  cases side <;> rfl

/-- The first node of a copy. -/
theorem built_new (m₀ : Memory T) (c : Cell T) : Built m₀ (m₀.new c) (node (m₀.next, c) nil nil) := by
  refine ⟨?_, List.nodup_singleton _, ?_, ?_⟩
  · intro x hx
    obtain rfl := List.mem_singleton.mp hx
    exact update_self _ _ _
  · intro a ha
    obtain rfl := List.mem_singleton.mp ha
    exact ⟨le_refl _, Nat.lt_succ_self _⟩
  · intro a ha
    exact update_of_ne (Nat.ne_of_lt ha) _ _

/-- A node is made and linked to its parent. -/
theorem Built.hang {f : Frame (Nat × Cell T)} {s : List (Frame (Nat × Cell T))}
    (h : Built m₀ m (unwind nil (f :: s))) (c : Cell T) :
    ∃ m', (m.new c).setChild f.side f.label.1 (some m.next) = some m' ∧
      Built m₀ m' (unwind (node (m.next, c) nil nil) (f :: s)) ∧
      m'.nodes f.label.1 = some (frameLink (some m.next) f) := by
  have hnew : m.next ∉ addrs (unwind nil (f :: s)) := fun hmem => Nat.lt_irrefl _ (h.fresh _ hmem).2
  have hperm := addrs_hang m.next c f s
  have hparent : f.label.1 ∈ addrs (unwind nil (f :: s)) := by
    rw [(addrs_unwind nil (f :: s)).mem_iff]
    exact List.mem_append_right _ List.mem_cons_self
  have hread : (m.new c).nodes f.label.1 = some (frameLink none f) := by
    have hne : f.label.1 ≠ m.next := fun heq => hnew (heq ▸ hparent)
    change Function.update m.nodes m.next _ f.label.1 = _
    rw [update_of_ne hne]
    exact h.stored.read_frame
  refine ⟨_, by rw [Memory.setChild, hread, map_some, setChild_frameLink], ⟨?_, ?_, ?_, ?_⟩, ?_⟩
  · exact h.stored.hang h.nodup hnew c
  · rw [hperm.nodup_iff]
    exact List.nodup_cons.mpr ⟨hnew, h.nodup⟩
  · intro a ha
    rcases List.mem_cons.mp (hperm.mem_iff.mp ha) with rfl | ha
    · refine ⟨Nat.le_of_lt_succ ?_, Nat.lt_succ_self _⟩
      have hfresh := h.fresh _ hparent
      omega
    · have hfresh := h.fresh a ha
      exact ⟨hfresh.1, Nat.lt_succ_of_lt hfresh.2⟩
  · intro a ha
    have hfresh := h.fresh _ hparent
    change Function.update (Function.update m.nodes m.next _) f.label.1 _ a = _
    rw [update_of_ne (by omega), update_of_ne (by omega)]
    exact h.frame a ha
  · exact update_self _ _ _

/-- A tree that was there before the copy. -/
structure Source (m₀ : Memory T) (t : Located T) : Prop where
  stored : Stored m₀.nodes t
  nodup : (addrs t).Nodup
  old : ∀ a ∈ addrs t, a < m₀.next

/-- The copy reads it as it was. -/
theorem Built.source {t u : Located T} (h : Built m₀ m t) (hu : Source m₀ u) : Stored m.nodes u :=
  hu.stored.mono fun a ha => h.frame a (hu.old a ha)

/-- `copyLeft` and `copyRight`: the child is copied, its copy linked to the one of its parent, and both pushed. -/
theorem copyNode_spec {f f' : Frame (Nat × Cell T)} {s s' : List (Frame (Nat × Cell T))} {x : Nat × Cell T}
    {l r : Located T} (hsrc : Source m₀ (unwind (node x l r) (f :: s))) (hside : f'.side = f.side)
    (h : Built m₀ m (unwind nil (f' :: s'))) :
    ∃ m', copyNode f.side ⟨m, parents (f :: s), parents (f' :: s')⟩ =
        ((Fixed.push m.next (parents (f' :: s'))).bind fun st =>
          (Fixed.push x.1 (parents (f :: s))).map fun ss => ⟨m', ss, st⟩) ∧
      Built m₀ m' (unwind (node (m.next, x.2) nil nil) (f' :: s')) := by
  obtain ⟨m', hset, hbuilt, hread'⟩ := h.hang x.2
  have hparent := (h.source hsrc).read_frame
  have hchild := (h.source hsrc).read_node
  have hparent' := (hbuilt.source hsrc).read_frame
  refine ⟨m', ?_, hbuilt⟩
  have h₁ : m.child f.side f.label.1 = some (some x.1) := by
    rw [Memory.child, hparent, map_some, child_frameLink]
    rfl
  have h₂ : m.cell x.1 = some x.2 := by
    rw [Memory.cell, hchild]
    rfl
  have h₃ : m'.child f.side f.label.1 = some (some x.1) := by
    rw [Memory.child, hparent', map_some, child_frameLink]
    rfl
  have h₄ : m'.child f.side f'.label.1 = some (some m.next) := by
    rw [Memory.child, hread', map_some, ← hside, child_frameLink]
  rw [hside] at hset
  simp only [copyNode, parents, List.map_cons, bind_eq_bind, bind_some, h₁, h₂, hset, h₃, h₄]
  simp only [map_eq_bind]
  rfl

/-! ## Climbing -/

/-- The frames without their addresses. -/
def shape (s : List (Frame (Nat × Cell T))) : Stack T := s.map (Frame.map Prod.snd)

/-- The right children that are still to be copied are not too deep for the stacks. -/
def PendingFits : List (Frame (Nat × Cell T)) → Prop
  | [] => True
  | ⟨.left, _, u⟩ :: s => s.length + u.height < maxHeight ∧ PendingFits s
  | ⟨.right, _, _⟩ :: s => PendingFits s

/-- Climbing from a completed subtree: the stack is exhausted and the copy is complete, or it stops at the nearest
ancestor reached from the left that has a right child. -/
theorem climb_spec {x : Nat × Cell T} {l r n' : Located T} {s s' : List (Frame (Nat × Cell T))}
    (hstored : Stored m.nodes (unwind (node x l r) s)) (hnodup : (addrs (unwind (node x l r) s)).Nodup)
    (hcopy : n'.map Prod.snd = (node x l r).map Prod.snd) (hshape : shape s' = (shape s).map prune) (b : Nat)
    (hheld : s.length ≤ maxHeight) :
    (climb m x.1 (parents s) (b :: parents s') = some none ∧
        (unwind n' s').map Prod.snd = (unwind (node x l r) s).map Prod.snd ∧ PendingFits s) ∨
      ∃ c u v s₁ c' u' s₁', v ≠ nil ∧
        climb m x.1 (parents s) (b :: parents s') =
          some (some (parents (⟨.right, c, u⟩ :: s₁), parents (⟨.right, c', u'⟩ :: s₁'))) ∧
        unwind (node x l r) s = unwind v (⟨.right, c, u⟩ :: s₁) ∧
        unwind n' s' = unwind nil (⟨.right, c', u'⟩ :: s₁') ∧
        shape (⟨.right, c', u'⟩ :: s₁') = (shape (⟨.right, c, u⟩ :: s₁)).map prune ∧
        v.numNodes + pending (shape s₁) = pending (shape s) ∧ s₁.length < s.length ∧
        (PendingFits s ↔ s₁.length + v.height < maxHeight ∧ PendingFits s₁) := by
  induction s generalizing x l r n' s' b with
  | nil =>
    obtain rfl : s' = [] := List.map_eq_nil_iff.mp hshape
    exact Or.inl ⟨rfl, hcopy, trivial⟩
  | cons f s ih =>
    cases s' with
    | nil => cases hshape
    | cons f' s' =>
      obtain ⟨hframe, hshape'⟩ := List.cons.inj hshape
      obtain ⟨side, c, u⟩ := f
      obtain ⟨side', c', u'⟩ := f'
      have hread := hstored.read_frame
      cases side with
      | right =>
        obtain ⟨rfl, hc, hu⟩ : side' = .right ∧ c'.2 = c.2 ∧ u'.map Prod.snd = u.map Prod.snd := by
          simpa [Frame.map] using hframe
        have hgo : climb m x.1 (parents (⟨.right, c, u⟩ :: s)) (b :: parents (⟨.right, c', u'⟩ :: s')) =
            climb m c.1 (parents s) (c'.1 :: parents s') := by
          simp only [parents, List.map_cons, climb, Memory.child, hread, map_some, frameLink,
            Link.child, addr_node, bind_eq_bind, bind_some, true_or, if_true, List.tail_cons]
        rw [hgo]
        have hcopy' : (node c' u' n').map Prod.snd = (node c u (node x l r)).map Prod.snd := by
          simp only [BinaryTree.map, hc, hu, hcopy]
        rcases ih hstored hnodup hcopy' hshape' c'.1 (Nat.le_of_succ_le hheld) with
          hdone | ⟨d, w, v, s₁, d', w', s₁', hv, hclimb, h₁, h₂, h₃, h₄, hlt, hfits⟩
        · exact Or.inl hdone
        · exact Or.inr ⟨d, w, v, s₁, d', w', s₁', hv, hclimb, h₁, h₂, h₃, h₄, Nat.lt_succ_of_lt hlt, hfits⟩
      | left =>
        obtain ⟨rfl, hc, hu⟩ : side' = .left ∧ c'.2 = c.2 ∧ u' = nil := by
          simpa [Frame.map, map_eq_nil_iff] using hframe
        subst hu
        have hright : m.child .right c.1 = some (addr u) := by
          rw [Memory.child, hread]
          rfl
        by_cases hnil : u = nil
        · subst hnil
          have hgo : climb m x.1 (parents (⟨.left, c, nil⟩ :: s)) (b :: parents (⟨.left, c', nil⟩ :: s')) =
              climb m c.1 (parents s) (c'.1 :: parents s') := by
            simp only [parents, List.map_cons, climb, hright, addr_nil, bind_eq_bind,
              bind_some, or_true, if_true, List.tail_cons]
          rw [hgo]
          have hcopy' : (node c' n' nil).map Prod.snd = (node c (node x l r) nil).map Prod.snd := by
            simp only [BinaryTree.map, hc, hcopy]
          have hpending : pending (shape (⟨.left, c, nil⟩ :: s)) = pending (shape s) := Nat.zero_add _
          have hfits : PendingFits (⟨.left, c, nil⟩ :: s) ↔ PendingFits s :=
            ⟨fun h => h.2, fun h => ⟨hheld, h⟩⟩
          rw [hpending, hfits]
          rcases ih hstored hnodup hcopy' hshape' c'.1 (Nat.le_of_succ_le hheld) with
            hdone | ⟨d, w, v, s₁, d', w', s₁', hv, hclimb, h₁, h₂, h₃, h₄, hlt, hfits⟩
          · exact Or.inl hdone
          · exact Or.inr ⟨d, w, v, s₁, d', w', s₁', hv, hclimb, h₁, h₂, h₃, h₄, Nat.lt_succ_of_lt hlt, hfits⟩
        · -- the right child is another node than the one that comes from the left
          have hother : addr u ≠ some x.1 := by
            intro hsame
            have hperm := addrs_unwind (node x l r) (⟨.left, c, u⟩ :: s)
            have hnodup' := hperm.nodup_iff.mp hnodup
            rw [addrs_node, List.cons_append] at hnodup'
            apply (List.nodup_cons.mp hnodup').1
            apply List.mem_append_right
            rw [around, List.map_cons, List.map_append]
            exact List.mem_cons_of_mem _ (List.mem_append_left _ (mem_addrs_of_addr hsame))
          have hstop : climb m x.1 (parents (⟨.left, c, u⟩ :: s)) (b :: parents (⟨.left, c', nil⟩ :: s')) =
              some (some (parents (⟨.right, c, node x l r⟩ :: s), parents (⟨.right, c', n'⟩ :: s'))) := by
            have hsome : addr u ≠ none := fun h => hnil (addr_eq_none_iff.mp h)
            simp only [parents, List.map_cons, climb, hright, bind_eq_bind, bind_some,
              List.tail_cons]
            rw [if_neg (not_or.mpr ⟨hother, hsome⟩)]
          refine Or.inr ⟨c, node x l r, u, s, c', n', s', hnil, hstop, rfl, rfl, ?_, ?_, Nat.lt_succ_self _, Iff.rfl⟩
          · simp only [shape, List.map_cons, Frame.map, prune_right, hc, hcopy] at hshape' ⊢
            rw [hshape']
          · simp [shape, Frame.map, pending, numNodes_map]

/-! ## The loop -/

/-- The state of a copy that has just made the copy of the node `x`, with `k` nodes still to be copied, this one
counted; these are not too deep for the stacks if and only if the source fits. -/
def CopiesAt (m₀ : Memory T) (src : Located T) (root : Option Nat) (k : Nat) (state : CopyStacks T) : Prop :=
  ∃ x l r s b s', src = unwind (node x l r) s ∧ state.ss = parents (⟨.left, x, nil⟩ :: s) ∧
    state.st = parents (⟨.left, b, nil⟩ :: s') ∧ b.2 = x.2 ∧ Built m₀ state.mem (unwind (node b nil nil) s') ∧
    addr (unwind (node b nil nil) s') = root ∧ shape s' = (shape s).map prune ∧
    (node x l r).numNodes + pending (shape s) = k ∧ s.length < maxHeight ∧
    (src.height ≤ maxHeight ↔ s.length + (node x l r).height ≤ maxHeight ∧ PendingFits s)

/-- The child of the node of a frame is copied, if it is not too deep. -/
theorem copiesAt_child {src v : Located T} {root : Option Nat} (f f' : Frame (Nat × Cell T))
    {s s' : List (Frame (Nat × Cell T))} (hsrc : Source m₀ src) (hv : v ≠ nil) (heq : src = unwind v (f :: s))
    (hbuilt : Built m₀ m (unwind nil (f' :: s'))) (hroot : addr (unwind nil (f' :: s')) = root)
    (hshape : shape (f' :: s') = (shape (f :: s)).map prune) (hheld : s.length < maxHeight)
    (hfits : src.height ≤ maxHeight ↔ s.length + 1 + v.height ≤ maxHeight ∧ PendingFits (f :: s)) :
    (∃ state, copyNode f.side ⟨m, parents (f :: s), parents (f' :: s')⟩ = some state ∧
      CopiesAt m₀ src root (v.numNodes + pending (shape (f :: s))) state) ∨
    (copyNode f.side ⟨m, parents (f :: s), parents (f' :: s')⟩ = none ∧ ¬src.height ≤ maxHeight) := by
  cases v with
  | nil => exact absurd rfl hv
  | node y l r =>
    have hside : f'.side = f.side := by
      have hframe := congrArg Frame.side (List.cons.inj hshape).1
      rwa [prune_side] at hframe
    have hlength : (parents (f' :: s')).length = s.length + 1 := by
      have hlen := congrArg List.length hshape
      simpa [shape, parents] using hlen
    have hsource : (parents (f :: s)).length = s.length + 1 := by simp [parents]
    subst heq
    obtain ⟨m', hcopy, hbuilt'⟩ := copyNode_spec hsrc hside hbuilt
    by_cases hroom : s.length + 1 < maxHeight
    · rw [Fixed.push_eq _ (by rwa [hlength]), Fixed.push_eq _ (by rwa [hsource]), bind_some,
        map_some] at hcopy
      refine Or.inl ⟨_, hcopy, y, l, r, f :: s, (m.next, y.2), f' :: s', rfl, rfl, rfl, rfl, hbuilt', ?_, hshape, rfl,
        hroom, hfits⟩
      rw [← hroot]
      exact addr_unwind_cons _ _ _ _
    · have hfull : Fixed.push m.next (parents (f' :: s')) = none := by
        rw [Fixed.push, Fixed.room, if_neg (by omega)]
        rfl
      rw [hfull] at hcopy
      refine Or.inr ⟨hcopy, fun h => ?_⟩
      have hle := (hfits.mp h).1
      rw [height] at hle
      omega

/-- One turn of the copy: it makes one node of those still to be copied, or a stack is full, or the copy is complete. -/
theorem copyNext_spec {src : Located T} {root : Option Nat} {k : Nat} {state : CopyStacks T} (hsrc : Source m₀ src)
    (h : CopiesAt m₀ src root k state) :
    (∃ state' k', copyNext state = .inl state' ∧ k' < k ∧ CopiesAt m₀ src root k' state') ∨
      (copyNext state = .inr none ∧ ¬src.height ≤ maxHeight) ∨
      ∃ m' t', copyNext state = .inr (some m') ∧ src.height ≤ maxHeight ∧ Built m₀ m' t' ∧ addr t' = root ∧
        t'.map Prod.snd = src.map Prod.snd := by
  obtain ⟨x, l, r, s, b, s', heq, hss, hst, hb, hbuilt, hroot, hshape, rfl, hheld, hfits⟩ := h
  obtain ⟨mem, ss, st⟩ := state
  simp only at hss hst hbuilt
  subst hss hst
  have hstored := hbuilt.source hsrc
  rw [heq] at hstored
  have hread := hstored.read_node
  unfold copyNext
  simp only [parents, List.map_cons, hread]
  by_cases hl : l = nil
  · subst hl
    rw [if_neg (by simp)]
    by_cases hr : r = nil
    · subst hr
      rw [if_neg (by simp)]
      have hnodup := hsrc.nodup
      rw [heq] at hnodup
      have hleaf : (node b nil nil : Located T).map Prod.snd = (node x nil nil).map Prod.snd := by
        simp only [BinaryTree.map, hb]
      have hfits' : src.height ≤ maxHeight ↔ PendingFits s := hfits.trans (and_iff_right hheld)
      rcases climb_spec hstored hnodup hleaf hshape b.1 hheld.le with
        ⟨hclimb, hcopy, hdone⟩ | ⟨c, u, v, s₁, c', u', s₁', hv, hclimb, heq', hbuilt', hshape', hnodes, hlt, hpending⟩
      · simp only [parents] at hclimb
        simp only [hclimb]
        refine Or.inr (Or.inr ⟨mem, _, rfl, hfits'.mpr hdone, hbuilt, hroot, ?_⟩)
        rw [hcopy, heq]
      · rw [hbuilt'] at hbuilt hroot
        have hchild : src.height ≤ maxHeight ↔
            s₁.length + 1 + v.height ≤ maxHeight ∧ PendingFits (⟨.right, c, u⟩ :: s₁) := by
          rw [hfits', hpending, PendingFits]
          exact and_congr_left fun _ => by omega
        simp only [parents] at hclimb
        rcases copiesAt_child _ _ hsrc hv (heq.trans heq') hbuilt hroot hshape' (hlt.trans hheld) hchild with
          ⟨state, hstate, hat⟩ | ⟨hfull, hnot⟩
        · simp only [parents] at hstate
          simp only [hclimb, hstate, goOn]
          refine Or.inl ⟨state, _, rfl, ?_, hat⟩
          simp only [shape, List.map_cons, Frame.map, pending, numNodes] at hnodes ⊢
          omega
        · simp only [parents] at hfull
          simp only [hclimb, hfull, goOn]
          exact Or.inr (Or.inl ⟨trivial, hnot⟩)
    · have haddr : addr r ≠ none := fun h => hr (addr_eq_none_iff.mp h)
      rw [if_pos haddr]
      have hshape' : shape (⟨.right, b, nil⟩ :: s') = (shape (⟨.right, x, nil⟩ :: s)).map prune := by
        simp only [shape, List.map_cons, Frame.map, prune_right, hb] at hshape ⊢
        rw [hshape]
      have hchild : src.height ≤ maxHeight ↔
          s.length + 1 + r.height ≤ maxHeight ∧ PendingFits (⟨.right, x, nil⟩ :: s) := by
        rw [hfits, height, height, PendingFits]
        exact and_congr_left fun _ => by omega
      rcases copiesAt_child ⟨.right, x, nil⟩ ⟨.right, b, nil⟩ hsrc hr heq hbuilt hroot hshape' hheld hchild with
        ⟨state, hstate, hat⟩ | ⟨hfull, hnot⟩
      · simp only [parents, List.map_cons] at hstate
        simp only [hstate, goOn]
        refine Or.inl ⟨state, _, rfl, ?_, hat⟩
        simp only [shape, List.map_cons, Frame.map, pending, numNodes]
        omega
      · simp only [parents, List.map_cons] at hfull
        simp only [hfull, goOn]
        exact Or.inr (Or.inl ⟨trivial, hnot⟩)
  · have haddr : addr l ≠ none := fun h => hl (addr_eq_none_iff.mp h)
    rw [if_pos haddr]
    have hshape' : shape (⟨.left, b, nil⟩ :: s') = (shape (⟨.left, x, r⟩ :: s)).map prune := by
      simp only [shape, List.map_cons, Frame.map, prune_left, hb] at hshape ⊢
      rw [hshape]
      rfl
    have hchild : src.height ≤ maxHeight ↔
        s.length + 1 + l.height ≤ maxHeight ∧ PendingFits (⟨.left, x, r⟩ :: s) := by
      rw [hfits, height, PendingFits, ← and_assoc]
      exact and_congr_left fun _ => by omega
    rcases copiesAt_child ⟨.left, x, r⟩ ⟨.left, b, nil⟩ hsrc hl heq hbuilt hroot hshape' hheld hchild with
      ⟨state, hstate, hat⟩ | ⟨hfull, hnot⟩
    · simp only [parents, List.map_cons] at hstate
      simp only [hstate, goOn]
      refine Or.inl ⟨state, _, rfl, ?_, hat⟩
      simp only [shape, List.map_cons, Frame.map, pending, numNodes, numNodes_map]
      omega
    · simp only [parents, List.map_cons] at hfull
      simp only [hfull, goOn]
      exact Or.inr (Or.inl ⟨trivial, hnot⟩)

/-- The loop of the copy, once its root has been made. -/
theorem run_copyNext {x : Nat × Cell T} {l r : Located T} (hsrc : Source m₀ (node x l r)) {fuel : Nat}
    (hfuel : (node x l r).numNodes < fuel) :
    (Loop.run copyNext fuel ⟨m₀.new x.2, [x.1], [m₀.next]⟩ = some none ∧ ¬(node x l r).height ≤ maxHeight) ∨
      ∃ m' t', Loop.run copyNext fuel ⟨m₀.new x.2, [x.1], [m₀.next]⟩ = some (some m') ∧
        (node x l r).height ≤ maxHeight ∧ Built m₀ m' t' ∧ addr t' = some m₀.next ∧
        t'.map Prod.snd = (node x l r).map Prod.snd := by
  have hstart : CopiesAt m₀ (node x l r) (some m₀.next) (node x l r).numNodes ⟨m₀.new x.2, [x.1], [m₀.next]⟩ :=
    ⟨x, l, r, [], (m₀.next, x.2), [], rfl, rfl, rfl, rfl, built_new m₀ x.2, rfl, rfl, rfl, Nat.succ_pos _,
      by simp [PendingFits]⟩
  obtain ⟨result, hrun, hresult⟩ := Loop.exists_run_eq_some copyNext
    (CopiesAt m₀ (node x l r) (some m₀.next))
    (fun result => (result = none ∧ ¬(node x l r).height ≤ maxHeight) ∨ ∃ m' t', result = some m' ∧
      (node x l r).height ≤ maxHeight ∧ Built m₀ m' t' ∧ addr t' = some m₀.next ∧
      t'.map Prod.snd = (node x l r).map Prod.snd)
    (by
      intro k state hat
      rcases copyNext_spec hsrc hat with hgo | ⟨hturn, hnot⟩ | ⟨m', t', hturn, hrest⟩
      · exact Or.inl hgo
      · exact Or.inr ⟨none, hturn, Or.inl ⟨rfl, hnot⟩⟩
      · exact Or.inr ⟨some m', hturn, Or.inr ⟨m', t', rfl, hrest⟩⟩)
    fuel _ _ hstart hfuel
  rcases hresult with ⟨rfl, hnot⟩ | ⟨m', t', rfl, hrest⟩
  · exact Or.inl ⟨hrun, hnot⟩
  · exact Or.inr ⟨m', t', hrun, hrest⟩

/-! ## The copy of a tree of the program -/

variable {trees : ι → TreePtr} {located : ι → Located T}

/-- The receiver is given other nodes, which no tree has. -/
theorem Forest.update (h : Forest m trees located) {m' : Memory T} {i : ι} {t : TreePtr} {l : Located T}
    (hroot : t.root = addr l) (hcnt : t.cnt = l.numNodes) (hstored : Stored m'.nodes l) (hnodup : (addrs l).Nodup)
    (hlt : ∀ a ∈ addrs l, m.next ≤ a ∧ a < m'.next) (hnext : m.next ≤ m'.next)
    (hframe : ∀ k, k ≠ i → ∀ a ∈ addrs (located k), m'.nodes a = m.nodes a) :
    Forest m' (Function.update trees i t) (Function.update located i l) := by
  have hold : ∀ k, (addrs l).Disjoint (addrs (located k)) := by
    intro k a ha hmem
    have hge := (hlt a ha).1
    have hless := h.lt_next k a hmem
    omega
  constructor
  case root_eq =>
    intro k
    by_cases hk : k = i
    · subst hk
      rw [update_self, update_self, hroot]
    · rw [update_of_ne hk, update_of_ne hk, h.root_eq]
  case cnt_eq =>
    intro k
    by_cases hk : k = i
    · subst hk
      rw [update_self, update_self, hcnt]
    · rw [update_of_ne hk, update_of_ne hk, h.cnt_eq]
  case stored =>
    intro k
    by_cases hk : k = i
    · subst hk
      rwa [update_self]
    · rw [update_of_ne hk]
      exact (h.stored k).mono (hframe k hk)
  case nodup =>
    intro k
    by_cases hk : k = i
    · subst hk
      rwa [update_self]
    · rw [update_of_ne hk]
      exact h.nodup k
  case lt_next =>
    intro k a ha
    by_cases hk : k = i
    · subst hk
      rw [update_self] at ha
      exact (hlt a ha).2
    · rw [update_of_ne hk] at ha
      exact Nat.lt_of_lt_of_le (h.lt_next k a ha) hnext
  case disjoint =>
    intro k k' hne
    by_cases hk : k = i
    · subst hk
      rw [update_self, update_of_ne (Ne.symm hne)]
      exact hold k'
    · by_cases hk' : k' = i
      · subst hk'
        rw [update_self, update_of_ne hk]
        exact (hold k).symm
      · rw [update_of_ne hk, update_of_ne hk']
        exact h.disjoint k k' hne

/-- The trees of the program, without the addresses of their nodes. -/
def contents (trees : ι → TreePtr) (located : ι → Located T) : Trees ι T :=
  fun i => ⟨(located i).map Prod.snd, (trees i).cnt⟩

omit [DecidableEq ι] in
/-- A tree of the program is copied as it is. -/
theorem Forest.copyFrom_eq (h : Forest m trees located) (i : ι) :
    (contents trees located i).copyFrom = some (contents trees located i) := by
  apply GenTree.copyFrom_eq
  intro hnil
  have hcnt := h.cnt_eq i
  rwa [map_eq_nil_iff.mp hnil] at hcnt

/-- The copy of another tree, in the model without addresses. -/
theorem Forest.step_copy {K : Type*} (A : Adapter T K) (h : Forest m trees located) {i j : ι} (hij : i ≠ j)
    {t : TreePtr} {l : Located T} (hcnt : t.cnt = (trees j).cnt) (hl : l.map Prod.snd = (located j).map Prod.snd) :
    step A (contents trees located) (.copy i j) =
      some (contents (Function.update trees i t) (Function.update located i l)) := by
  obtain ⟨freed, hclear, -⟩ := (contents trees located i).clear_spec
  have hcopy := h.copyFrom_eq j
  simp only [step, hclear, bind_some, update_of_ne (Ne.symm hij), hcopy, map_some,
    update_idem]
  congr 1
  funext k
  by_cases hk : k = i
  · subst hk
    simp only [contents, update_self, hcnt, hl]
  · simp only [contents, update_of_ne hk]

/-- `copy` gives its receiver a tree of the same shape as its argument, with the same data, the same balances and the
same count, made of new nodes, and changes the nodes of no other tree.  This is the copy of the model without
addresses. -/
def Copies {K : Type*} (A : Adapter T K) (m : Memory T) (trees : ι → TreePtr) (located : ι → Located T) (i j : ι) :
    Prop :=
  ∃ fuel m' t', copyTree fuel m trees i j = some (m', Function.update trees i ⟨addr t', (trees j).cnt⟩) ∧
    t'.map Prod.snd = (located j).map Prod.snd ∧
    (addrs t').Disjoint (addrs (located j)) ∧
    (∀ k, k ≠ i → ∀ a ∈ addrs (located k), m'.nodes a = m.nodes a) ∧
    Forest m' (Function.update trees i ⟨addr t', (trees j).cnt⟩) (Function.update located i t') ∧
    step A (contents trees located) (.copy i j) =
      some (contents (Function.update trees i ⟨addr t', (trees j).cnt⟩) (Function.update located i t'))

omit [DecidableEq ι] in
/-- The argument is still there once the receiver is cleared. -/
theorem Forest.source (h : Forest m trees located) {i j : ι} (hij : i ≠ j) {x : Nat × Cell T} {l r : Located T}
    (hj : located j = node x l r) : Source (m.without (addrs (located i))) (node x l r) := by
  rw [← hj]
  refine ⟨(h.stored j).mono fun a ha => ?_, h.nodup j, h.lt_next j⟩
  exact if_neg fun hmem => h.disjoint i j hij hmem ha

theorem Source.cell_eq {x : Nat × Cell T} {l r : Located T} (h : Source m (node x l r)) : m.cell x.1 = some x.2 := by
  rw [Memory.cell, h.stored (x.1, _) List.mem_cons_self]
  rfl

/-- A copy that ends has never met a full stack. -/
theorem Forest.fits_of_copyTree (h : Forest m trees located) {i j : ι} (hij : i ≠ j) {fuel : Nat}
    {res : Memory T × (ι → TreePtr)} (hcopy : copyTree fuel m trees i j = some res) :
    clearDepth (located i) ≤ maxHeight ∧ (located j).height ≤ maxHeight := by
  rw [copyTree, bind_eq_bind, bind_eq_some_iff] at hcopy
  obtain ⟨m₁, hclear, hcopy⟩ := hcopy
  rw [h.root_eq] at hclear
  obtain ⟨hdepth, rfl⟩ := clearNodes_eq_some (h.stored i) (h.nodup i) hclear
  refine ⟨hdepth, ?_⟩
  simp only [update_of_ne (Ne.symm hij), h.root_eq] at hcopy
  cases hsource : located j with
  | nil => exact Nat.zero_le _
  | node x l r =>
    have hsrc := h.source hij hsource
    rw [hsource] at hcopy
    simp only [addr_node, hsrc.cell_eq, bind_eq_bind, bind_some, bind_eq_some_iff] at hcopy
    obtain ⟨m₂, hrun, -⟩ := hcopy
    rcases run_copyNext hsrc (Nat.lt_succ_self _) with ⟨hfull, -⟩ | ⟨m', t', -, hfits, -⟩
    · cases Loop.run_unique (join_eq_some_iff.mp hrun) hfull
    · exact hfits

/-- `copy` to another tree of the program is right if and only if the stack of its `clear` has 32 entries at most and
its argument 32 levels at most. -/
theorem copies_iff {K : Type*} (A : Adapter T K) (h : Forest m trees located) {i j : ι} (hij : i ≠ j) :
    Copies A m trees located i j ↔ clearDepth (located i) ≤ maxHeight ∧ (located j).height ≤ maxHeight := by
  constructor
  · rintro ⟨fuel, m', t', hcopy, -⟩
    exact h.fits_of_copyTree hij hcopy
  rintro ⟨hdepth, hheight⟩
  have hclear : ∀ fuel, (located i).numNodes < fuel →
      clearNodes fuel m (trees i).root = some (m.without (addrs (located i))) := by
    intro fuel hfuel
    rw [h.root_eq, clearNodes, run_clearNode_root (h.stored i) (h.nodup i) hfuel, if_pos hdepth]
    rfl
  have hkept : ∀ k, k ≠ i → ∀ a ∈ addrs (located k), (m.without (addrs (located i))).nodes a = m.nodes a := by
    intro k hk a ha
    have hnot : a ∉ addrs (located i) := h.disjoint k i hk ha
    exact if_neg hnot
  have hj : Function.update trees i ⟨none, 0⟩ j = trees j := update_of_ne (Ne.symm hij) _ _
  unfold Copies
  cases hsource : located j with
  | nil =>
    have hroot : (trees j).root = none := by rw [h.root_eq, hsource, addr_nil]
    have hcnt : (trees j).cnt = 0 := by
      rw [h.cnt_eq, hsource]
      rfl
    refine ⟨(located i).numNodes + 1, m.without (addrs (located i)), nil, ?_, rfl, ?_, hkept, ?_, ?_⟩
    · simp only [copyTree, hclear _ (Nat.lt_succ_self _), bind_eq_bind, bind_some, hj, hroot, hcnt,
        addr_nil]
    · rw [addrs_nil]
      exact List.disjoint_nil_left _
    · refine h.update rfl hcnt ?_ List.nodup_nil ?_ (le_refl _) hkept
      · exact fun _ hx => nomatch hx
      · exact fun _ ha => nomatch ha
    · refine h.step_copy A hij rfl ?_
      rw [hsource]
  | node x l r =>
    have hsrc := h.source hij hsource
    have hroot : (trees j).root = some x.1 := by rw [h.root_eq, hsource, addr_node]
    have hbound : (node x l r).numNodes < (located i).numNodes + (node x l r).numNodes + 1 := by omega
    obtain ⟨m', t', hrun, -, hbuilt, haddr, hcopy⟩ :=
      (run_copyNext hsrc hbound).resolve_left fun hfull => hfull.2 (hsource ▸ hheight)
    have hframe : ∀ k, k ≠ i → ∀ a ∈ addrs (located k), m'.nodes a = m.nodes a := by
      intro k hk a ha
      rw [hbuilt.frame a (h.lt_next k a ha), hkept k hk a ha]
    have hnext : m.next ≤ m'.next := by
      have hfresh := hbuilt.fresh _ (mem_addrs_of_addr haddr)
      exact Nat.le_of_lt (Nat.lt_of_le_of_lt hfresh.1 hfresh.2)
    have hcnt : (trees j).cnt = t'.numNodes := by
      rw [h.cnt_eq, hsource, ← numNodes_map Prod.snd t', hcopy, numNodes_map]
    refine ⟨(located i).numNodes + (node x l r).numNodes + 1, m', t', ?_, hcopy, ?_, hframe, ?_, ?_⟩
    · have hclear' := hclear ((located i).numNodes + (node x l r).numNodes + 1) (by omega)
      simp only [copyTree, hclear', bind_eq_bind, bind_some, hj, hroot, hsrc.cell_eq, hrun,
        join_some, update_idem, haddr]
    · intro a ha hmem
      have hge := (hbuilt.fresh a ha).1
      have hless : a < (m.without (addrs (located i))).next := hsrc.old a hmem
      omega
    · exact h.update rfl hcnt hbuilt.stored hbuilt.nodup hbuilt.fresh hnext hframe
    · refine h.step_copy A hij rfl ?_
      rw [hcopy, hsource]

/-- A tree of three nodes, and a tree of one node. -/
def twoLocated : Bool → Located Nat := fun b =>
  if b then node (0, ⟨2, 0⟩) (node (1, ⟨1, 0⟩) nil nil) (node (2, ⟨3, 0⟩) nil nil) else node (3, ⟨9, 0⟩) nil nil

def twoMemory : Memory Nat :=
  ⟨fun a => ((links (twoLocated true) ++ links (twoLocated false)).find? fun x => x.1 = a).map Prod.snd, 4⟩

def twoPtrs : Bool → TreePtr := fun b => ⟨addr (twoLocated b), (twoLocated b).numNodes⟩

theorem copies_two : Copies natAdapter twoMemory twoPtrs twoLocated false true := by
  have hforest : Forest twoMemory twoPtrs twoLocated := by
    constructor
    case root_eq => exact fun _ => rfl
    case cnt_eq => exact fun _ => rfl
    case stored =>
      intro i
      unfold Stored
      cases i <;> decide
    case nodup => decide
    case lt_next => decide
    case disjoint =>
      intro i j hij
      rw [List.disjoint_left]
      revert i j
      decide
  exact (copies_iff natAdapter hforest (by decide)).mpr (by decide)

/-- The nodes of a tree of distinct numbers, each at its number. -/
def atData (n : Node Nat) : Located Nat := n.map fun c => (c.data, c)

theorem addrs_atData (n : Node Nat) : (addrs (atData n)).Perm (dataList n) := by
  induction n with
  | nil => exact List.Perm.nil
  | node c l r ihl ihr =>
    have haddrs : addrs (atData (node c l r)) = c.data :: (addrs (atData l) ++ addrs (atData r)) :=
      addrs_node (c.data, c) (atData l) (atData r)
    rw [haddrs, dataList_node]
    exact ((ihl.append ihr).cons c.data).trans List.perm_middle.symm

theorem height_atData (n : Node Nat) : (atData n).height = n.height := by
  induction n with
  | nil => rfl
  | node c l r ihl ihr => exact congrArg (· + 1) (congrArg₂ max ihl ihr)

/-- The memory of one tree. -/
def memoryOf (t : Located Nat) (next : Nat) : Memory Nat :=
  ⟨fun a => ((links t).find? fun x => x.1 = a).map Prod.snd, next⟩

theorem stored_memoryOf {t : Located Nat} (h : (addrs t).Nodup) (next : Nat) : Stored (memoryOf t next).nodes t := by
  have hfind : ∀ xs : List (Nat × Link Nat (Cell Nat)), (xs.map Prod.fst).Nodup → ∀ x ∈ xs,
      xs.find? (fun y => y.1 = x.1) = some x := by
    intro xs
    induction xs with
    | nil => exact fun _ x hx => absurd hx List.not_mem_nil
    | cons y ys ih =>
      intro hnodup x hx
      obtain ⟨hnot, hnodup'⟩ := List.nodup_cons.mp hnodup
      rcases List.mem_cons.mp hx with rfl | hx
      · exact List.find?_cons_of_pos (decide_eq_true rfl)
      · have hne : y.1 ≠ x.1 := fun heq => hnot (heq ▸ List.mem_map_of_mem hx)
        rw [List.find?_cons_of_neg (by simpa using hne)]
        exact ih hnodup' x hx
  exact fun x hx => congrArg (Option.map Prod.snd) (hfind _ h x hx)

/-- The copy of a tree of 33 levels is stopped. -/
theorem not_copies : ¬ ∀ (m : Memory Nat) (trees : Bool → TreePtr) (located : Bool → Located Nat),
    Forest m trees located → Copies natAdapter m trees located false true := by
  intro h
  let source := atData (fibTree 33 0)
  let located : Bool → Located Nat := fun b => if b then source else nil
  have haddrs : (addrs source).Perm (List.range' 0 (fibTree 33 0).numNodes) := by
    rw [← dataList_fibTree]
    exact addrs_atData _
  have hnodup : (addrs source).Nodup := haddrs.nodup_iff.mpr List.nodup_range'
  have hforest : Forest (memoryOf source (fibTree 33 0).numNodes)
      (fun b => ⟨addr (located b), (located b).numNodes⟩) located := by
    constructor
    case root_eq => exact fun _ => rfl
    case cnt_eq => exact fun _ => rfl
    case stored =>
      intro i
      cases i with
      | true => exact stored_memoryOf hnodup _
      | false => exact fun x hx => absurd hx List.not_mem_nil
    case nodup =>
      intro i
      cases i with
      | true => exact hnodup
      | false => exact List.nodup_nil
    case lt_next =>
      intro i a ha
      cases i with
      | true =>
        have hmem := List.mem_range'_1.mp (haddrs.mem_iff.mp ha)
        rw [Nat.zero_add] at hmem
        exact hmem.2
      | false => exact absurd ha List.not_mem_nil
    case disjoint =>
      intro i j hij a ha hmem
      cases i with
      | true =>
        cases j with
        | true => exact hij rfl
        | false => exact List.not_mem_nil hmem
      | false => exact List.not_mem_nil ha
  obtain ⟨fuel, m', t', hcopy, -⟩ := h _ _ _ hforest
  have hheight : (atData (fibTree 33 0)).height ≤ maxHeight := (hforest.fits_of_copyTree (by decide) hcopy).2
  rw [height_atData, height_fibTree] at hheight
  exact absurd hheight (by decide)

end Elm.Avl
