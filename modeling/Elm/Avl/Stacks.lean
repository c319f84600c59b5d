import Elm.Avl.Iter
import Mathlib.Data.Nat.Fib.Basic

/-!
# The fixed stacks of `avl::GenTree`

The stacks of the source have room for `MAX_HEIGHT` entries, where the ones of the model have no bound.  The entries
of the latter are counted first: a stack of parents has as many as the way to a node is long; the iterator has one
more, since it stacks its node twice, and it comes to every node.  The functions of `Fixed` are then those of the
source with the assertion of `StaticStack::push`; on the trees whose stacks fit, they are the unbounded ones.
-/

namespace Elm.Avl

open List hiding nil
open BinaryTree Std Option Function

variable {α T K : Type*} {A : Adapter T K} {t : GenTree T}

/-- `AbstractTree::MAX_HEIGHT`. -/
def maxHeight : Nat := 32

/-- The state of `GenTree::copy` before its loop. -/
def GenTree.copyStart (t : GenTree T) : CopyState T := ⟨Node.clone t.root, [[]], [[]]⟩

/-- The state of `GenTree::clear` before its loop. -/
def GenTree.clearStart (t : GenTree T) : List (Node T) × List (Cell T) :=
  (if t.root ≠ nil then [t.root] else [], [])

/-- At any time of a lookup, of an iteration, of a copy and of a clearing of the tree, there are at most
`MAX_HEIGHT` entries on each stack.  The stack of a lookup only grows. -/
structure StacksFit (A : Adapter T K) (t : GenTree T) : Prop where
  lookup : ∀ key, (lookup A key t.root []).2.length ≤ maxHeight
  iter : ∀ k, ((iterNext t.root)^[k] t.begin).length ≤ maxHeight
  copy : t.root ≠ nil → ∀ s, Loop.Reached (copyTurn t.root) t.copyStart s →
    s.ss.length ≤ maxHeight ∧ s.st.length ≤ maxHeight
  clear : ∀ s, Loop.Reached clearTurn t.clearStart s → s.1.length ≤ maxHeight

/-! ## The depth of each stack -/

/-- A node is at most as deep as the tree is high. -/
theorem length_add_height_le (n : Node T) (s : Stack T) : s.length + n.height ≤ (unwind n s).height := by
  induction s generalizing n with
  | nil => simp
  | cons f s ih =>
    have hplug : n.height + 1 ≤ (f.plug n).height := by
      obtain ⟨side, c, u⟩ := f
      cases side with
      | left => exact Nat.succ_le_succ (Nat.le_max_left _ _)
      | right => exact Nat.succ_le_succ (Nat.le_max_right _ _)
    have hrest := ih (f.plug n)
    rw [length_cons, unwind_cons]
    omega

theorem lookup_length (A : Adapter T K) (key : K) (n : Node T) (s : Stack T) :
    (lookup A key n s).2.length + (lookup A key n s).1.height ≤ s.length + n.height := by
  induction n generalizing s with
  | nil => exact Nat.le_refl _
  | node c l r ihl ihr =>
    have hl := ihl (⟨.left, c, r⟩ :: s)
    have hr := ihr (⟨.right, c, l⟩ :: s)
    rw [length_cons] at hl hr
    rw [height]
    unfold lookup
    cases A.compare key (A.key c.data) with
    | eq => exact Nat.le_refl _
    | lt =>
      have := Nat.le_max_left l.height r.height
      dsimp only
      omega
    | gt =>
      have := Nat.le_max_right l.height r.height
      dsimp only
      omega

theorem le_length_pushLeft (n : Node T) (p : Path) (s : VisitStack) : s.length ≤ (pushLeft n p s).length := by
  induction n generalizing p s with
  | nil => exact Nat.le_refl _
  | node c l r ihl _ => exact (Nat.le_succ _).trans (ihl _ (p :: s))

/-- The stack of an iterator tells the depth of its node. -/
theorem Visits.length {root : Node T} {stack : VisitStack} {k : Nat} (h : Visits root stack ((dataList root).drop k)) :
    stack.length = match (root.depths 0)[k]? with
      | some d => d + 2
      | none => 0 := by
  have hlength : (root.depths 0).length = (dataList root).length := by
    rw [length_depths, length_dataList]
  rcases h with ⟨rfl, hend⟩ | ⟨c, l, r, s, rfl, hroot, hrest⟩
  · rw [drop_eq_nil_iff, ← hlength] at hend
    rw [getElem?_eq_none hend]
    rfl
  · obtain ⟨xs, ys, hdepths, hxs⟩ := depths_unwind (node c l r) s
    rw [← hroot, depths_node] at hdepths
    -- the step at which the iterator comes to its node
    have hk : k = (xs ++ l.depths (s.length + 1)).length := by
      have hall := congrArg List.length hrest
      have hroot' : (dataList root).length =
          (dataBefore s).length + ((dataList l).length + ((dataList r).length + 1) + (dataAfter s).length) := by
        rw [hroot, dataList_unwind, dataList_node]
        simp only [length_append, length_cons]
        omega
      have hbefore : xs.length = (dataBefore s).length := by
        rw [hxs, dataBefore, length_map]
      have hleft : (l.depths (s.length + 1)).length = (dataList l).length := by
        rw [length_depths, length_dataList]
      rw [length_drop, length_cons, length_append] at hall
      rw [length_append, hbefore, hleft]
      omega
    have hget : (root.depths 0)[k]? = some s.length := by
      rw [hdepths, hk]
      simp only [append_assoc, cons_append]
      rw [← append_assoc, getElem?_append_right (Nat.le_refl _), Nat.sub_self]
      rfl
    rw [hget]
    simp [onNode, position]

/-- The iterator has at most one entry more than the tree is high. -/
theorem Visits.length_le {root : Node T} {stack : VisitStack} {xs : List T} (h : Visits root stack xs) :
    stack.length ≤ root.height + 1 := by
  rcases h with ⟨rfl, -⟩ | ⟨c, l, r, s, rfl, rfl, -⟩
  · exact Nat.zero_le _
  · have hle := length_add_height_le (node c l r) s
    rw [height] at hle
    simp only [onNode, position, length_cons, length_tails, length_map]
    omega

theorem iter_length_le (t : GenTree T) (k : Nat) :
    ((iterNext t.root)^[k] t.begin).length ≤ t.root.height + 1 :=
  (t.begin_visits.iterate k).length_le

/-- On the deepest node it has that many. -/
theorem exists_iter_length {t : GenTree T} (h : t.root ≠ nil) :
    ∃ k, ((iterNext t.root)^[k] t.begin).length = t.root.height + 1 ∧ k ≤ t.root.numNodes := by
  obtain ⟨d, hmem, hdepth⟩ := exists_mem_depths h 0
  obtain ⟨k, hget⟩ := mem_iff_getElem?.mp hmem
  obtain ⟨hk, -⟩ := List.getElem?_eq_some_iff.mp hget
  rw [length_depths] at hk
  refine ⟨k, ?_, hk.le⟩
  rw [(t.begin_visits.iterate k).length, hget]
  change d + 2 = _
  omega

/-- The two stacks of a copy hold the way to the node that has just been copied. -/
theorem copy_length_le {t : GenTree T} (hroot : t.root ≠ nil) {s : CopyState T}
    (h : Loop.Reached (copyTurn t.root) t.copyStart s) :
    s.ss.length ≤ t.root.height ∧ s.st.length ≤ t.root.height := by
  have hat : ∃ n frames, CopyAt t.root n frames s := by
    induction h with
    | refl => exact ⟨t.root, [], hroot, rfl, rfl, rfl, rfl⟩
    | turn _ hstep ih =>
      obtain ⟨n, frames, hat⟩ := ih
      rcases copyTurn_spec hat with ⟨n', frames', state', hturn, hat', -⟩ | ⟨hturn, -⟩
      · obtain rfl := Sum.inl.inj (hstep.symm.trans hturn)
        exact ⟨n', frames', hat'⟩
      · rw [hturn] at hstep
        cases hstep
  obtain ⟨n, frames, hat⟩ := hat
  have hheight : 0 < n.height := by
    cases n with
    | nil => exact absurd rfl hat.ne_nil
    | node c l r => exact Nat.succ_pos _
  have hle := length_add_height_le n frames
  rw [← hat.src_eq] at hle
  rw [hat.ss_eq, hat.st_eq, length_tails, position, length_map]
  omega

/-- Each entry of the stack of `clear` is a subtree that is as high as the tree at most, less the entries
below. -/
def Within (h : Nat) : List (Node T) → Prop
  | [] => True
  | n :: s => n ≠ nil ∧ n.height + s.length ≤ h ∧ Within h s

theorem Within.push {h : Nat} {n : Node T} {s : List (Node T)} (hs : Within h s) (hn : n.height + s.length ≤ h) :
    Within h (if n ≠ nil then n :: s else s) := by
  by_cases hnil : n = nil
  · rw [if_neg (not_not.mpr hnil)]
    exact hs
  · rw [if_pos hnil]
    exact ⟨hnil, hn, hs⟩

theorem Within.length_le {h : Nat} {s : List (Node T)} (hs : Within h s) : s.length ≤ h := by
  cases s with
  | nil => exact Nat.zero_le h
  | cons n s =>
    obtain ⟨hn, hle, -⟩ := hs
    have hheight : 0 < n.height := by
      cases n with
      | nil => exact absurd rfl hn
      | node c l r => exact Nat.succ_pos _
    rw [length_cons]
    omega

/-- A node leaves its place to its left child and to its right child above it. -/
theorem Within.turn {h : Nat} {s s' : List (Node T) × List (Cell T)} (hs : Within h s.1)
    (hturn : clearTurn s = .inl s') : Within h s'.1 := by
  obtain ⟨stack, freed⟩ := s
  cases stack with
  | nil => cases hturn
  | cons n stack =>
    obtain ⟨hn, hle, hrest⟩ := hs
    cases n with
    | nil => exact absurd rfl hn
    | node c l r =>
      obtain rfl := Sum.inl.inj hturn
      rw [height] at hle
      have hl := Nat.le_max_left l.height r.height
      have hr := Nat.le_max_right l.height r.height
      refine (hrest.push (by omega)).push ?_
      split
      · rw [length_cons]
        omega
      · omega

theorem clear_length_le {t : GenTree T} {s : List (Node T) × List (Cell T)}
    (h : Loop.Reached clearTurn t.clearStart s) : s.1.length ≤ t.root.height := by
  have hwithin : Within t.root.height s.1 := by
    induction h with
    | refl => exact Within.push (s := []) trivial (Nat.le_refl _)
    | turn _ hstep ih => exact ih.turn hstep
  exact hwithin.length_le

/-- The stacks fit exactly when the tree has fewer levels than `MAX_HEIGHT`. -/
theorem stacksFit_iff (A : Adapter T K) (t : GenTree T) : StacksFit A t ↔ t.root.height ≤ 31 := by
  constructor
  · intro h
    by_cases hroot : t.root = nil
    · rw [hroot]
      exact Nat.zero_le _
    · obtain ⟨k, hk, -⟩ := exists_iter_length hroot
      have hle := h.iter k
      rw [hk, maxHeight] at hle
      omega
  · intro h
    refine ⟨fun key => ?_, fun k => ?_, fun hroot s hs => ?_, fun s hs => ?_⟩
    · have hle := lookup_length A key t.root []
      rw [length_nil] at hle
      rw [maxHeight]
      omega
    · have hle := iter_length_le t k
      rw [maxHeight]
      omega
    · obtain ⟨hss, hst⟩ := copy_length_le hroot hs
      rw [maxHeight]
      omega
    · have hle := clear_length_le hs
      rw [maxHeight]
      omega

/-! ## The stack of a call -/

theorem le_length_lookup (key : K) (n : Node T) (s : Stack T) : s.length ≤ (lookup A key n s).2.length := by
  induction n generalizing s with
  | nil => exact Nat.le_refl _
  | node c l r ihl ihr =>
    unfold lookup
    cases A.compare key (A.key c.data) with
    | eq => exact Nat.le_refl _
    | lt => exact (Nat.le_succ _).trans (ihl (⟨.left, c, r⟩ :: s))
    | gt => exact (Nat.le_succ _).trans (ihr (⟨.right, c, l⟩ :: s))

/-- The stack of an addition holds its way down. -/
def AddFits (A : Adapter T K) (t : GenTree T) (item : T) : Prop :=
  (lookup A (A.key item) t.root []).2.length ≤ maxHeight

/-- The nodes between a node that is found and the one that is unlinked for it: none, or the node itself, where its
successor has gone, and those above the successor. -/
def successorWay (c : Cell T) : Node T → Node T → Stack T
  | node d a b, node e x y =>
    match leftMost [] (node e x y) with
    | (node p _ _, above) => above ++ [⟨.right, (exchange p c).2, node d a b⟩]
    | (nil, above) => above
  | _, _ => []

/-- The parent of the unlinked node needs a double rotation. -/
def TurnsTwice : Stack T → Prop
  | [] => False
  | ⟨.left, c, u⟩ :: _ => c.bal = 1 ∧ Node.bal u = -1
  | ⟨.right, c, u⟩ :: _ => c.bal = -1 ∧ Node.bal u = 1

/-- The stack holds the nodes above the unlinked one, and the child that a double rotation of its parent stacks. -/
def UnlinkFits (s : Stack T) : Prop := s.length < maxHeight ∨ s.length = maxHeight ∧ ¬TurnsTwice s

/-- The stack of a removal holds what is above the unlinked node, or the way down when there is none. -/
def RemovalFits (A : Adapter T K) (t : GenTree T) (key : K) : Prop :=
  match lookup A key t.root [] with
  | (nil, s) => s.length ≤ maxHeight
  | (node c l r, s) => UnlinkFits (successorWay c l r ++ s)

/-- The unlinked node is below the one that is found. -/
theorem length_successorWay_lt (c : Cell T) (l r : Node T) : (successorWay c l r).length < (node c l r).height := by
  match l, r with
  | nil, r => exact Nat.succ_pos _
  | node d a b, nil => exact Nat.succ_pos _
  | node d a b, node e x y =>
    obtain ⟨p, pr, above, heq, hup, -⟩ := leftMost_spec [] e x y
    have hlength := length_add_height_le (node p nil pr) above
    have hr := Nat.le_max_right (node d a b).height (node e x y).height
    rw [hup, height] at hlength
    rw [append_nil] at heq
    rw [successorWay, heq, length_append, length_singleton, height]
    omega

/-- The call succeeds exactly under the condition, with this result. -/
def SucceedsWhen (p : Prop) (call : Option α) (a : α) : Prop := (p → call = some a) ∧ (¬p → call = none)

theorem SucceedsWhen.map {β : Type*} {p : Prop} {call : Option α} {a : α} (h : SucceedsWhen p call a) (f : α → β) :
    SucceedsWhen p (call.map f) (f a) :=
  ⟨fun hp => by rw [h.1 hp]; rfl, fun hp => by rw [h.2 hp]; rfl⟩

/-! ## The stacks with their assertion -/

namespace Fixed

section Pushes

variable {α : Type*}

/-- The assertion of `StaticStack::push`. -/
def room (s : List α) : Option Unit := if s.length ≠ maxHeight then some () else none

/-- `StaticStack::push`. -/
def push (x : α) (s : List α) : Option (List α) := (room s).map fun _ => x :: s

theorem room_eq {s : List α} (h : s.length < maxHeight) : room s = some () := if_pos (Nat.ne_of_lt h)

theorem push_eq (x : α) {s : List α} (h : s.length < maxHeight) : push x s = some (x :: s) := by
  rw [push, room_eq h]
  rfl

/-- A stack that the array holds. -/
def held (s : List α) : Option (List α) := if s.length ≤ maxHeight then some s else none

theorem held_eq {s : List α} (h : s.length ≤ maxHeight) : held s = some s := if_pos h

theorem held_eq_some {s s' : List α} : held s = some s' ↔ s' = s ∧ s.length ≤ maxHeight := by
  rw [held]
  split_ifs with h
  · simp only [h, and_true, some.injEq]
    exact eq_comm
  · simp only [h, and_false]

theorem push_eq_held (x : α) {s : List α} (h : s.length ≤ maxHeight) : push x s = held (x :: s) := by
  rw [push, room, held, length_cons]
  by_cases hfull : s.length = maxHeight
  · rw [if_neg (not_not.mpr hfull), if_neg (by omega)]
    rfl
  · rw [if_pos hfull, if_pos (by omega)]
    rfl

/-- What is stacked on a stack that is not held fails as well. -/
theorem bind_held {β : Type*} {s : List α} {s' : List β} {f : List α → Option (List β)}
    (hle : s.length ≤ s'.length) (hf : s.length ≤ maxHeight → f s = held s') : (held s).bind f = held s' := by
  by_cases h : s.length ≤ maxHeight
  · rw [held_eq h, bind_some, hf h]
  · rw [held, if_neg h, held, if_neg (fun h' => h (hle.trans h'))]
    rfl

end Pushes

/-! ### Insertion and removal -/

/-- The loop of `AbstractTree::insert`, which stacks the child that it rotates. -/
def insertLoop : Node T → Stack T → Option (Node T)
  | n, [] => some n
  | n, f :: s =>
    let bal := match f.side with
      | .left => f.label.bal - 1
      | .right => f.label.bal + 1
    let p := Frame.plug { f with label := { f.label with bal := bal } } n
    if bal = 0 then
      some (unwind p s)
    else if bal < -1 then
      if 0 < Node.bal p.left then (room (f :: s)).map fun _ => unwind (rotateRight (rotateLeftChild p)) s
      else some (unwind (rotateRight p) s)
    else if 1 < bal then
      if Node.bal p.right < 0 then (room (f :: s)).map fun _ => unwind (rotateLeft (rotateRightChild p)) s
      else some (unwind (rotateLeft p) s)
    else
      insertLoop p s

/-- The loop of `AbstractTree::remove`: the popped node is stacked again, and then the child that is rotated. -/
def removeLoop : Node T → Stack T → Option (Node T)
  | n, [] => some n
  | n, f :: s =>
    match f.side with
    | .left =>
      let bal := f.label.bal + 1
      let p := Frame.plug { f with label := { f.label with bal := bal } } n
      if bal = 0 then removeLoop p s
      else if bal = 1 then some (unwind p s)
      else if Node.bal p.right = 0 then some (unwind (rotateLeft p) s)
      else if Node.bal p.right = 1 then removeLoop (rotateLeft p) s
      else (room (f :: s)).bind fun _ => removeLoop (rotateLeft (rotateRightChild p)) s
    | .right =>
      let bal := f.label.bal - 1
      let p := Frame.plug { f with label := { f.label with bal := bal } } n
      if bal = 0 then removeLoop p s
      else if bal = -1 then some (unwind p s)
      else if Node.bal p.left = 0 then some (unwind (rotateRight p) s)
      else if Node.bal p.left = -1 then removeLoop (rotateRight p) s
      else (room (f :: s)).bind fun _ => removeLoop (rotateRight (rotateLeftChild p)) s

/-- `AbstractTree::leftMost`, on a stack with `below` entries under those that are shown. -/
def leftMost (below : Nat) : Stack T → Node T → Option (Node T × Stack T)
  | s, node c (node d a b) r =>
    if below + s.length ≠ maxHeight then leftMost below (⟨.left, c, r⟩ :: s) (node d a b) else none
  | s, n => some (n, s)

/-- `AbstractTree::remove(Stack&, Node *)`. -/
def unlink (t : GenTree T) (s : Stack T) (n : Node T) : Option (GenTree T) :=
  (removeLoop n s).map fun root => ⟨root, t.cnt - 1⟩

/-- `GenTree::remove(Stack&, Node *)`. -/
def removeNode (t : GenTree T) (s : Stack T) : Node T → Option (GenTree T)
  | nil => some t
  | node _ nil r => unlink t s r
  | node _ l nil => unlink t s l
  | node n l r =>
    (room s).bind fun _ => do
      match ← leftMost (s.length + 1) [] r with
      | (node p _ pr, above) => unlink t (above ++ ⟨.right, (exchange p n).2, l⟩ :: s) pr
      | (nil, _) => some t

section Keyed

variable (A : Adapter T K)

/-- `GenTree::lookup`. -/
def lookup (key : K) : Node T → Stack T → Option (Node T × Stack T)
  | nil, s => some (nil, s)
  | node c l r, s =>
    match A.compare key (A.key c.data) with
    | .eq => some (node c l r, s)
    | .lt => (push ⟨.left, c, r⟩ s).bind (lookup key l)
    | .gt => (push ⟨.right, c, l⟩ s).bind (lookup key r)

/-- `AbstractTree::insert`. -/
def insert (t : GenTree T) (s : Stack T) (n : Node T) : Option (GenTree T) :=
  match t.root with
  | nil => some ⟨n, t.cnt + 1⟩
  | node _ _ _ => (insertLoop n s).map fun root => ⟨root, t.cnt + 1⟩

/-- `GenTree::add`. -/
def add (t : GenTree T) (item : T) : Option (GenTree T) := do
  match ← lookup A (A.key item) t.root [] with
  | (nil, s) => insert t s (Node.new item)
  | (node _ _ _, _) => some t

/-- `GenTree::removeByKey`. -/
def removeByKey (t : GenTree T) (key : K) : Option (GenTree T) := do
  match ← lookup A key t.root [] with
  | (nil, _) => some t
  | (node c l r, s) => removeNode t s (node c l r)

/-- `GenTree::remove(const T&)`. -/
def remove (t : GenTree T) (x : T) : Option (GenTree T) := removeByKey A t (A.key x)

end Keyed

theorem insertLoop_eq {s : Stack T} (hs : s.length < maxHeight) (n : Node T) :
    insertLoop n s = some (Avl.insertLoop n s) := by
  induction s generalizing n with
  | nil => rfl
  | cons f s ih =>
    have hrest := ih (Nat.lt_trans (Nat.lt_succ_self _) hs)
    obtain ⟨side, c, u⟩ := f
    cases side with
    | left =>
      simp only [insertLoop, Avl.insertLoop, room_eq hs, hrest, map_some]
      split_ifs <;> rfl
    | right =>
      simp only [insertLoop, Avl.insertLoop, room_eq hs, hrest, map_some]
      split_ifs <;> rfl

theorem removeLoop_eq {s : Stack T} (hs : s.length < maxHeight) (n : Node T) :
    removeLoop n s = some (Avl.removeLoop n s) := by
  induction s generalizing n with
  | nil => rfl
  | cons f s ih =>
    have hrest := ih (Nat.lt_trans (Nat.lt_succ_self _) hs)
    obtain ⟨side, c, u⟩ := f
    cases side with
    | left =>
      simp only [removeLoop, Avl.removeLoop, room_eq hs, hrest, bind_some]
      split_ifs <;> rfl
    | right =>
      simp only [removeLoop, Avl.removeLoop, room_eq hs, hrest, bind_some]
      split_ifs <;> rfl

theorem lookup_succeeds (key : K) {n : Node T} {s : Stack T} (hs : s.length ≤ maxHeight) :
    SucceedsWhen ((Avl.lookup A key n s).2.length ≤ maxHeight) (lookup A key n s) (Avl.lookup A key n s) := by
  induction n generalizing s with
  | nil => exact ⟨fun _ => rfl, fun h => absurd hs h⟩
  | node c l r ihl ihr =>
    have hpush : ∀ (f : Frame (Cell T)) {m : Node T}, (∀ {s : Stack T}, s.length ≤ maxHeight →
        SucceedsWhen ((Avl.lookup A key m s).2.length ≤ maxHeight) (lookup A key m s) (Avl.lookup A key m s)) →
        SucceedsWhen ((Avl.lookup A key m (f :: s)).2.length ≤ maxHeight) ((push f s).bind (lookup A key m))
          (Avl.lookup A key m (f :: s)) := by
      intro f m ih
      rw [push_eq_held f hs]
      by_cases hfull : (f :: s).length ≤ maxHeight
      · rw [held_eq hfull]
        exact ih hfull
      · rw [held, if_neg hfull]
        exact ⟨fun h => absurd ((le_length_lookup key m (f :: s)).trans h) hfull, fun _ => rfl⟩
    unfold lookup Avl.lookup
    cases A.compare key (A.key c.data) with
    | eq => exact ⟨fun _ => rfl, fun h => absurd hs h⟩
    | lt => exact hpush _ ihl
    | gt => exact hpush _ ihr

/-- The parent of a new leaf is not rotated. -/
theorem insertLoop_leaf {s : Stack T} (hs : s.length ≤ maxHeight) (hbalanced : StackBalanced s 0) (n : Node T) :
    insertLoop n s = some (Avl.insertLoop n s) := by
  cases s with
  | nil => rfl
  | cons f s =>
    have hrest := insertLoop_eq (Nat.lt_of_succ_le hs)
    obtain ⟨side, c, u⟩ := f
    cases side with
    | left =>
      obtain ⟨hbal, -, hhi, -⟩ := (stackBalanced_left c u s 0).mp hbalanced
      have hlow : ¬c.bal - 1 < -1 := by omega
      have hhigh : ¬1 < c.bal - 1 := by omega
      simp only [insertLoop, Avl.insertLoop, hrest, if_neg hlow, if_neg hhigh]
      split_ifs <;> rfl
    | right =>
      obtain ⟨hbal, hlo, -⟩ := (stackBalanced_right c u s 0).mp hbalanced
      have hlow : ¬c.bal + 1 < -1 := by omega
      have hhigh : ¬1 < c.bal + 1 := by omega
      simp only [insertLoop, Avl.insertLoop, hrest, if_neg hlow, if_neg hhigh]
      split_ifs <;> rfl

theorem add_succeeds [TransCmp A.compare] (h : t.Invariant A) (item : T) :
    SucceedsWhen (AddFits A t item) (add A t item) (t.add A item) := by
  obtain ⟨m, s, heq, hup, -⟩ := h.lookup_root (A.key item)
  obtain ⟨hsome, hnone⟩ := lookup_succeeds (A := A) (A.key item) (n := t.root) (s := []) (Nat.zero_le _)
  unfold AddFits add GenTree.add
  rw [heq] at hsome hnone ⊢
  refine ⟨fun hfits => ?_, fun hfull => by rw [hnone hfull]; rfl⟩
  rw [hsome hfits]
  cases m with
  | nil =>
    have hstack := (balanced_unwind_iff.mp (hup ▸ h.balanced)).2
    simp only [bind_eq_bind, bind_some, insert, GenTree.insert, insertLoop_leaf hfits hstack]
    cases t.root <;> rfl
  | node c l r => rfl

/-- In particular an addition to a tree of at most 32 levels. -/
theorem add_eq [TransCmp A.compare] (h : t.Invariant A) (hlow : t.root.height ≤ maxHeight) (item : T) :
    add A t item = some (t.add A item) := by
  have hlength := lookup_length A (A.key item) t.root []
  rw [length_nil] at hlength
  exact (add_succeeds h item).1 (show _ ≤ _ by omega)

theorem removeLoop_succeeds {s : Stack T} (hs : s.length ≤ maxHeight) {h : Nat} (hbalanced : StackBalanced s h)
    (n : Node T) : SucceedsWhen (UnlinkFits s) (removeLoop n s) (Avl.removeLoop n s) := by
  rcases Nat.lt_or_eq_of_le hs with hlt | hfull
  · exact ⟨fun _ => removeLoop_eq hlt n, fun h => absurd (Or.inl hlt) h⟩
  · have hiff : UnlinkFits s ↔ ¬TurnsTwice s := ⟨fun h => (h.resolve_left (by omega)).2, fun h => .inr ⟨hfull, h⟩⟩
    rw [hiff]
    cases s with
    | nil => cases hfull
    | cons f s =>
      have hroom : room (f :: s) = none := if_neg (not_not.mpr hfull)
      have hrest := removeLoop_eq (Nat.lt_of_succ_le (Nat.le_of_eq hfull))
      obtain ⟨side, c, u⟩ := f
      cases side with
      | left =>
        obtain ⟨-, hlo, hhi, hu, -⟩ := (stackBalanced_left c u s h).mp hbalanced
        have hbal := hu.bal_mem
        simp only [removeLoop, Avl.removeLoop, hrest, hroom, TurnsTwice, bind_none, Frame.plug_left,
          BinaryTree.right]
        constructor <;> intro hturns <;> split_ifs <;> first | rfl | omega | simp [*]
      | right =>
        obtain ⟨-, hlo, hhi, hu, -⟩ := (stackBalanced_right c u s h).mp hbalanced
        have hbal := hu.bal_mem
        simp only [removeLoop, Avl.removeLoop, hrest, hroom, TurnsTwice, bind_none, Frame.plug_right,
          BinaryTree.left]
        constructor <;> intro hturns <;> split_ifs <;> first | rfl | omega | simp [*]

theorem leftMost_succeeds (below : Nat) (n : Node T) {s : Stack T} (h : below + s.length ≤ maxHeight) :
    SucceedsWhen (below + (Avl.leftMost s n).2.length ≤ maxHeight) (leftMost below s n) (Avl.leftMost s n) := by
  induction s, n using Avl.leftMost.induct with
  | case1 s c d a b r ih =>
    rw [leftMost, Avl.leftMost]
    by_cases hfull : below + s.length = maxHeight
    · rw [if_neg (not_not.mpr hfull)]
      refine ⟨fun hle => ?_, fun _ => rfl⟩
      obtain ⟨p, pr, above, heq, -⟩ := leftMost_spec (⟨.left, c, r⟩ :: s) d a b
      rw [heq, length_append, length_cons] at hle
      omega
    · rw [if_pos hfull]
      exact ih (by rw [length_cons]; omega)
  | case2 s n hn =>
    cases n with
    | nil => exact ⟨fun _ => rfl, fun hnot => absurd h hnot⟩
    | node c l r =>
      cases l with
      | nil => exact ⟨fun _ => rfl, fun hnot => absurd h hnot⟩
      | node d a b => exact absurd rfl (hn c d a b r)

theorem unlink_succeeds {s : Stack T} (hs : s.length ≤ maxHeight) {h : Nat} (hbalanced : StackBalanced s h)
    (n : Node T) : SucceedsWhen (UnlinkFits s) (unlink t s n) (t.unlink s n) :=
  (removeLoop_succeeds hs hbalanced n).map _

theorem removeNode_succeeds {s : Stack T} (hs : s.length ≤ maxHeight) {c : Cell T} {l r : Node T}
    (h : Balanced (unwind (node c l r) s)) :
    SucceedsWhen (UnlinkFits (successorWay c l r ++ s)) (removeNode t s (node c l r))
      (t.removeNode s (node c l r)) := by
  obtain ⟨hn, hstack⟩ := balanced_unwind_iff.mp h
  match l, r with
  | nil, r => exact unlink_succeeds hs hstack r
  | node d a b, nil => exact unlink_succeeds hs hstack (node d a b)
  | node d a b, node e x y =>
    obtain ⟨p, pr, above, heq, hup, -⟩ := leftMost_spec [] e x y
    rw [append_nil] at heq
    have hway : successorWay c (node d a b) (node e x y) ++ s =
        above ++ ⟨.right, (exchange p c).2, node d a b⟩ :: s := by
      rw [successorWay, heq, append_assoc]
      rfl
    have hwhole : Balanced (unwind (node p nil pr) (above ++ ⟨.right, (exchange p c).2, node d a b⟩ :: s)) := by
      rw [unwind_append, hup, unwind_cons, Frame.plug_right]
      exact balanced_unwind (h := height (node c (node d a b) (node e x y))) hn rfl hstack
    have hlength : (above ++ ⟨.right, (exchange p c).2, node d a b⟩ :: s).length = s.length + 1 + above.length := by
      rw [length_append, length_cons]
      omega
    have hfull : UnlinkFits (above ++ ⟨.right, (exchange p c).2, node d a b⟩ :: s) →
        s.length + 1 + above.length ≤ maxHeight := by
      rw [← hlength]
      rintro (hlt | ⟨heq, -⟩)
      · exact Nat.le_of_lt hlt
      · exact Nat.le_of_eq heq
    rw [hway]
    simp only [removeNode, GenTree.removeNode, heq]
    by_cases hroom : s.length = maxHeight
    · rw [room, if_neg (not_not.mpr hroom)]
      exact ⟨fun hfits => absurd (hfull hfits) (by omega), fun _ => rfl⟩
    · obtain ⟨hsome, hnone⟩ := leftMost_succeeds (s.length + 1) (node e x y) (s := [])
        (by rw [length_nil]; omega)
      rw [heq] at hsome hnone
      rw [room, if_pos hroom, bind_some]
      by_cases hle : s.length + 1 + above.length ≤ maxHeight
      · rw [hsome hle]
        exact unlink_succeeds (hlength.trans_le hle) (balanced_unwind_iff.mp hwhole).2 pr
      · rw [hnone hle]
        exact ⟨fun hfits => absurd (hfull hfits) hle, fun _ => rfl⟩

theorem removeByKey_succeeds [TransCmp A.compare] (h : t.Invariant A) (key : K) :
    SucceedsWhen (RemovalFits A t key) (removeByKey A t key) (t.removeByKey A key) := by
  obtain ⟨m, s, heq, hup, -⟩ := h.lookup_root key
  obtain ⟨hsome, hnone⟩ := lookup_succeeds (A := A) key (n := t.root) (s := []) (Nat.zero_le _)
  unfold RemovalFits removeByKey GenTree.removeByKey
  rw [heq] at hsome hnone ⊢
  by_cases hs : s.length ≤ maxHeight
  · rw [hsome hs]
    cases m with
    | nil => exact ⟨fun _ => rfl, fun hnot => absurd hs hnot⟩
    | node c l r => exact removeNode_succeeds hs (hup ▸ h.balanced)
  · rw [hnone hs]
    cases m with
    | nil => exact ⟨fun h => absurd h hs, fun _ => rfl⟩
    | node c l r =>
      refine ⟨fun hfits => absurd ?_ hs, fun _ => rfl⟩
      have hle : (successorWay c l r ++ s).length ≤ maxHeight := by
        rcases hfits with hlt | ⟨heq, -⟩
        · exact Nat.le_of_lt hlt
        · exact Nat.le_of_eq heq
      rw [length_append] at hle
      omega

theorem removeByKey_eq [TransCmp A.compare] (h : t.Invariant A) (hlow : t.root.height ≤ maxHeight) (key : K) :
    removeByKey A t key = some (t.removeByKey A key) := by
  refine (removeByKey_succeeds h key).1 ?_
  obtain ⟨m, s, heq, hup, -⟩ := h.lookup_root key
  have hlength := length_add_height_le m s
  rw [hup] at hlength
  rw [RemovalFits, heq]
  cases m with
  | nil => exact (Nat.le_add_right _ _).trans (hlength.trans hlow)
  | node c l r =>
    have hlt := length_successorWay_lt c l r
    refine .inl ?_
    rw [length_append]
    omega

/-! ### Traversals -/

/-- `GenTree::Iter::visit` without the last push. -/
def pushLeft : Node T → Path → VisitStack → Option VisitStack
  | nil, _, s => some s
  | node _ l _, p, s => (push p s).bind (pushLeft l (.left :: p))

/-- `GenTree::Iter::visit`. -/
def visit (root : Node T) (p : Path) (s : VisitStack) : Option VisitStack := do
  match ← pushLeft (root.subtree p) p s with
  | [] => some []
  | top :: s' => push top (top :: s')

/-- `GenTree::Iter::next`, whose `pop` fails on an empty stack. -/
def next (root : Node T) : VisitStack → Option VisitStack
  | [] => none
  | [_] => some []
  | last :: top :: s =>
    if root.subtree (.left :: top) ≠ nil ∧ last = .left :: top then
      push top (top :: s)
    else if last = top ∧ root.subtree (.right :: top) ≠ nil then
      visit root (.right :: top) (top :: s)
    else
      next root (top :: s)

theorem pushLeft_eq (n : Node T) (p : Path) {s : VisitStack} (hs : s.length ≤ maxHeight) :
    pushLeft n p s = held (Avl.pushLeft n p s) := by
  induction n generalizing p s with
  | nil => exact (held_eq hs).symm
  | node c l r ihl _ =>
    rw [pushLeft, Avl.pushLeft, push_eq_held p hs]
    exact bind_held (le_length_pushLeft l _ _) fun h => ihl _ h

theorem visit_eq (root : Node T) (p : Path) {s : VisitStack} (hs : s.length ≤ maxHeight) :
    visit root p s = held (Avl.visit root p s) := by
  rw [visit, Avl.visit, pushLeft_eq _ _ hs]
  cases Avl.pushLeft (root.subtree p) p s with
  | nil => rfl
  | cons top s' => exact bind_held (Nat.le_succ _) fun h => push_eq_held top h

theorem next_eq (root : Node T) {s : VisitStack} (hne : s ≠ []) (hs : s.length ≤ maxHeight) :
    next root s = held (iterNext root s) := by
  induction s with
  | nil => exact absurd rfl hne
  | cons last s ih =>
    cases s with
    | nil => rfl
    | cons top s =>
      have hrest : (top :: s).length ≤ maxHeight := (Nat.le_succ _).trans hs
      rw [next, iterNext]
      split_ifs
      · exact push_eq_held top hrest
      · exact visit_eq root _ hrest
      · exact ih (cons_ne_nil _ _) hrest

theorem next_of_visits {root : Node T} {s : VisitStack} {x : T} {xs : List T} (h : Visits root s (x :: xs))
    (hroot : root.height < maxHeight) : next root s = some (iterNext root s) := by
  have hne : s ≠ [] := by
    rintro rfl
    cases h.ended.mp rfl
  rw [next_eq root hne (h.length_le.trans hroot)]
  exact held_eq (h.next.length_le.trans hroot)

/-- The stack of an iterator after `k` calls of `next`. -/
def after (t : GenTree T) : Nat → Option VisitStack
  | 0 => visit t.root [] []
  | k + 1 => (after t k).bind (next t.root)

theorem eq_of_after {t : GenTree T} {k : Nat} {s : VisitStack} (h : after t k = some s) :
    s = (iterNext t.root)^[k] t.begin ∧ s.length ≤ maxHeight := by
  induction k generalizing s with
  | zero =>
    rw [after, visit_eq _ _ (Nat.zero_le _), held_eq_some] at h
    exact ⟨h.1, h.1 ▸ h.2⟩
  | succ k ih =>
    rw [after, bind_eq_some_iff] at h
    obtain ⟨s₁, hs₁, hnext⟩ := h
    obtain ⟨heq, hlen⟩ := ih hs₁
    have hne : s₁ ≠ [] := by
      rintro rfl
      cases hnext
    rw [next_eq _ hne hlen, held_eq_some] at hnext
    rw [iterate_succ_apply', ← heq]
    exact ⟨hnext.1, hnext.1 ▸ hnext.2⟩

/-- Before its end, an iterator has a node. -/
theorem iterate_ne_nil {t : GenTree T} {k : Nat} (hk : k < t.root.numNodes) :
    (iterNext t.root)^[k] t.begin ≠ [] := by
  rw [← isEmpty_eq_false_iff, ← Bool.not_eq_true]
  intro hend
  have hdrop := (t.begin_visits.iterate k).ended.mp hend
  rw [drop_eq_nil_iff, length_dataList] at hdrop
  omega

theorem after_eq {t : GenTree T} (h : t.root.height < maxHeight) {k : Nat} (hk : k ≤ t.root.numNodes) :
    after t k = some ((iterNext t.root)^[k] t.begin) := by
  induction k with
  | zero => exact (visit_eq _ _ (Nat.zero_le _)).trans (held_eq ((iter_length_le t 0).trans h))
  | succ k ih =>
    rw [after, ih (Nat.le_of_succ_le hk), bind_some,
      next_eq _ (iterate_ne_nil hk) ((iter_length_le t k).trans h), iterate_succ_apply']
    have hle := iter_length_le t (k + 1)
    rw [iterate_succ_apply'] at hle
    exact held_eq (hle.trans h)

/-- An iteration that is never stopped goes to the deepest node. -/
theorem height_lt_of_after {t : GenTree T} (h : ∀ k ≤ t.root.numNodes, ∃ s, after t k = some s) :
    t.root.height < maxHeight := by
  by_cases hroot : t.root = nil
  · rw [hroot]
    exact Nat.succ_pos _
  · obtain ⟨k, hk, hle⟩ := exists_iter_length hroot
    obtain ⟨s, hs⟩ := h k hle
    obtain ⟨rfl, hlen⟩ := eq_of_after hs
    omega

/-! ### Loops over a tree -/

section Loops

variable {σ : Type*}

/-- One turn of `for(auto x: tree)`, for a tree that is part of the state. -/
def walkTurn (root : σ → Node T) (body : σ → T → Option σ) (state : σ × VisitStack) : Option ((σ × VisitStack) ⊕ σ) :=
  match iterItem (root state.1) state.2 with
  | none => some (.inr state.1)
  | some x => (body state.1 x).bind fun s => (next (root s) state.2).map fun stack => .inl (s, stack)

/-- The loop from the state `s`. -/
def walk (root : σ → Node T) (body : σ → T → Option σ) (s : σ) : Option σ :=
  (visit (root s) [] []).bind fun stack => Loop.attempt (walkTurn root body) ((root s).numNodes + 1) (s, stack)

variable {root : σ → Node T} {body : σ → T → Option σ}

/-- The rest of a loop, after the node of index `k`. -/
theorem attempt_walkTurn (hroot : ∀ s x s', body s x = some s' → root s' = root s) {t : GenTree T} {fuel k : Nat} {s : σ}
    (hs : root s = t.root) (hk : k ≤ t.root.numNodes) (hfuel : t.root.numNodes < k + fuel)
    (hlen : ((iterNext t.root)^[k] t.begin).length ≤ maxHeight) :
    Loop.attempt (walkTurn root body) fuel (s, (iterNext t.root)^[k] t.begin) =
      if ∀ j ≤ t.root.numNodes, k ≤ j → ((iterNext t.root)^[j] t.begin).length ≤ maxHeight then
        ((dataList t.root).drop k).foldlM body s else none := by
  induction fuel generalizing k s with
  | zero => omega
  | succ fuel ih =>
    have hitem : iterItem (root s) ((iterNext t.root)^[k] t.begin) = (dataList t.root)[k]? := by
      rw [hs, (t.begin_visits.iterate k).item, head?_drop]
    rcases Nat.lt_or_ge k t.root.numNodes with hlt | hge
    · obtain ⟨x, hx⟩ : ∃ x, (dataList t.root)[k]? = some x :=
        ⟨_, getElem?_eq_getElem (by rwa [length_dataList])⟩
      have hdrop : (dataList t.root).drop k = x :: (dataList t.root).drop (k + 1) :=
        drop_eq_getElem?_toList_append.trans (by rw [hx]; rfl)
      rw [hx] at hitem
      rw [hdrop, foldlM_cons]
      have hturn : walkTurn root body (s, (iterNext t.root)^[k] t.begin) = (body s x).bind fun s' =>
          (next (root s') ((iterNext t.root)^[k] t.begin)).map fun stack => .inl (s', stack) := by
        simp only [walkTurn, hitem]
      cases hbody : body s x with
      | none =>
        rw [Loop.attempt_succ_none (by rw [hturn, hbody]; rfl)]
        exact (ite_self none).symm
      | some s' =>
        have hs' : root s' = t.root := (hroot s x s' hbody).trans hs
        have hnext := next_eq t.root (iterate_ne_nil hlt) hlen
        rw [← iterate_succ_apply' (iterNext t.root)] at hnext
        rw [hbody, bind_some, hs', hnext] at hturn
        by_cases hfit : ((iterNext t.root)^[k + 1] t.begin).length ≤ maxHeight
        · rw [held_eq hfit] at hturn
          rw [Loop.attempt_succ_inl hturn, ih hs' hlt (by omega) hfit]
          refine if_congr ?_ rfl rfl
          refine forall_congr' fun j => imp_congr_right fun _ => ⟨fun h hj => ?_, fun h hj => h (by omega)⟩
          rcases Nat.eq_or_lt_of_le hj with rfl | hj
          · exact hlen
          · exact h hj
        · rw [held, if_neg hfit] at hturn
          rw [Loop.attempt_succ_none hturn, if_neg fun h => hfit (h (k + 1) hlt (Nat.le_succ k))]
    · obtain rfl : k = t.root.numNodes := by omega
      have hend : (dataList t.root).length ≤ t.root.numNodes := (length_dataList t.root).le
      rw [getElem?_eq_none hend] at hitem
      rw [Loop.attempt_succ_inr (by simp only [walkTurn, hitem]; rfl), drop_of_length_le hend, if_pos]
      · rfl
      · intro j hj hge
        obtain rfl : j = t.root.numNodes := by omega
        exact hlen

/-- A loop that leaves the tree as it is goes over its in-order list if this one has at most 31 levels, and is
stopped otherwise. -/
theorem walk_eq (hroot : ∀ s x s', body s x = some s' → root s' = root s) (s : σ) :
    walk root body s = if (root s).height < maxHeight then (dataList (root s)).foldlM body s else none := by
  have hfits : (∀ j ≤ (root s).numNodes, 0 ≤ j →
      ((iterNext (root s))^[j] (GenTree.mk (root s) 0).begin).length ≤ maxHeight) ↔ (root s).height < maxHeight := by
    constructor
    · intro h
      by_cases hnil : root s = nil
      · rw [hnil]
        exact Nat.succ_pos _
      · obtain ⟨k, hk, hle⟩ := exists_iter_length (t := ⟨root s, 0⟩) hnil
        have hlen := h k hle (Nat.zero_le k)
        dsimp only at hk
        omega
    · exact fun h j _ _ => (iter_length_le ⟨root s, 0⟩ j).trans h
  rw [walk, visit_eq _ _ (Nat.zero_le _)]
  by_cases hfit : ((GenTree.mk (root s) 0).begin).length ≤ maxHeight
  · rw [GenTree.begin] at hfit
    rw [held_eq hfit, bind_some]
    have hrun := attempt_walkTurn hroot (t := ⟨root s, 0⟩) (s := s) rfl (Nat.zero_le _)
      (show (root s).numNodes < 0 + ((root s).numNodes + 1) by omega) hfit
    rw [drop_zero, if_congr hfits rfl rfl] at hrun
    exact hrun
  · rw [if_neg fun h => hfit (hfits.mpr h 0 (Nat.zero_le _) (Nat.le_refl _))]
    rw [GenTree.begin] at hfit
    rw [held, if_neg hfit]
    rfl

/-- The items given by the iterator, in its order. -/
def items (t : GenTree T) : Option (List T) := walk (fun _ => t.root) (fun xs x => some (xs ++ [x])) []

theorem items_eq (t : GenTree T) : items t = if t.root.height < maxHeight then some (dataList t.root) else none := by
  have hfold : ∀ xs ys : List T, xs.foldlM (fun ys x => some (ys ++ [x])) ys = some (ys ++ xs) := by
    intro xs
    induction xs with
    | nil => exact fun ys => congrArg some (append_nil ys).symm
    | cons x xs ih => exact fun ys => (ih (ys ++ [x])).trans (by rw [append_assoc]; rfl)
  rw [items, walk_eq (fun _ _ _ _ => rfl), hfold, nil_append]

theorem items_eq_none {t : GenTree T} (h : ¬t.root.height ≤ 31) : items t = none :=
  (items_eq t).trans (if_neg fun hlt => h (Nat.le_of_lt_succ hlt))

end Loops

/-! ### Clearing and copy -/

/-- One turn of the loop of `GenTree::clear`. -/
def clearTurn : List (Node T) × List (Cell T) → Option ((List (Node T) × List (Cell T)) ⊕ List (Cell T))
  | ([], freed) => some (.inr freed)
  | (nil :: s, freed) => some (.inl (s, freed))
  | (node c l r :: s, freed) =>
    (if l ≠ nil then push l s else some s).bind fun s =>
      (if r ≠ nil then push r s else some s).map fun s => .inl (s, c :: freed)

/-- `GenTree::clear`. -/
def clear (t : GenTree T) : Option (GenTree T × List (Cell T)) :=
  (Loop.attempt clearTurn (t.root.numNodes + 1) t.clearStart).map fun freed => (⟨nil, 0⟩, freed)

theorem clear_eq {t : GenTree T} (h : t.root.height ≤ maxHeight) : clear t = t.clear := by
  rw [clear, GenTree.clear, @Loop.attempt_eq_run _ _ Avl.clearTurn]
  · rfl
  · rintro ⟨s, freed⟩ hs
    rcases s with - | ⟨- | ⟨c, l, r⟩, s⟩
    · rfl
    · rfl
    · have hle := (clear_length_le (.turn hs rfl)).trans h
      by_cases hl : l = nil
      · by_cases hr : r = nil
        · simp [clearTurn, Avl.clearTurn, hl, hr]
        · simp only [hl, hr, ne_eq, not_true_eq_false, not_false_eq_true, if_true, if_false] at hle
          simp [clearTurn, Avl.clearTurn, hl, hr, push_eq r hle]
      · by_cases hr : r = nil
        · simp only [hl, hr, ne_eq, not_true_eq_false, not_false_eq_true, if_true, if_false] at hle
          simp [clearTurn, Avl.clearTurn, hl, hr, push_eq l hle]
        · simp only [hl, hr, ne_eq, not_false_eq_true, if_true] at hle
          simp [clearTurn, Avl.clearTurn, hl, hr, push_eq l (Nat.lt_of_succ_lt hle), push_eq r hle]

/-- `VisitStack::copyLeft` and `VisitStack::copyRight`. -/
def copyChild (src : Node T) (d : Side) (s : CopyState T) : Option (CopyState T) :=
  match s.ss, s.st with
  | p :: ss, q :: st =>
    (push (d :: q) (q :: st)).bind fun st => (push (d :: p) (p :: ss)).map fun ss =>
      { target := s.target.modifyAt q (setChild d (Node.clone (src.subtree (d :: p)))), ss, st }
  | _, _ => some s

/-- One turn of the outer loop of `GenTree::copy`. -/
def copyTurn (src : Node T) (s : CopyState T) : Option (CopyState T ⊕ Node T) :=
  match s.ss with
  | [] => some (.inr s.target)
  | p :: ss =>
    if src.subtree (.left :: p) ≠ nil then
      (copyChild src .left s).map .inl
    else if src.subtree (.right :: p) ≠ nil then
      (copyChild src .right s).map .inl
    else
      match copyPop src p ss s.st with
      | none => some (.inr s.target)
      | some (ss', st') => (copyChild src .right { s with ss := ss', st := st' }).map .inl

/-- `GenTree::copy` after its `clear()`. -/
def copyFrom (src : GenTree T) : Option (GenTree T) :=
  match src.root with
  | nil => some GenTree.empty
  | node _ _ _ =>
    (Loop.attempt (copyTurn src.root) (src.root.numNodes + 1) src.copyStart).map fun root => ⟨root, src.cnt⟩

theorem copyChild_eq (src : Node T) (d : Side) {s : CopyState T} (hss : (Avl.copyChild src d s).ss.length ≤ maxHeight)
    (hst : (Avl.copyChild src d s).st.length ≤ maxHeight) : copyChild src d s = some (Avl.copyChild src d s) := by
  obtain ⟨target, ss, st⟩ := s
  cases ss with
  | nil => rfl
  | cons p ss =>
    cases st with
    | nil => rfl
    | cons q st => simp only [copyChild, Avl.copyChild, push_eq _ hss, push_eq _ hst, bind_some, map_some]

theorem copyTurn_eq {src : Node T} {s : CopyState T} (h : ∀ s', Avl.copyTurn src s = .inl s' →
    s'.ss.length ≤ maxHeight ∧ s'.st.length ≤ maxHeight) : copyTurn src s = some (Avl.copyTurn src s) := by
  obtain ⟨target, ss, st⟩ := s
  cases ss with
  | nil => rfl
  | cons p ss =>
    simp only [copyTurn, Avl.copyTurn] at h ⊢
    split_ifs at h ⊢
    · rw [copyChild_eq src .left (h _ rfl).1 (h _ rfl).2]
      rfl
    · rw [copyChild_eq src .right (h _ rfl).1 (h _ rfl).2]
      rfl
    · cases hpop : copyPop src p ss st with
      | none => rfl
      | some popped =>
        simp only [hpop] at h ⊢
        rw [copyChild_eq src .right (h _ rfl).1 (h _ rfl).2]
        rfl

theorem copyFrom_eq {src : GenTree T} (h : src.root.height ≤ maxHeight) : copyFrom src = src.copyFrom := by
  unfold copyFrom GenTree.copyFrom
  cases hroot : src.root with
  | nil => rfl
  | node c l r =>
    have hne : src.root ≠ nil := by simp [hroot]
    simp only
    rw [← hroot, @Loop.attempt_eq_run _ _ (Avl.copyTurn src.root)]
    · rfl
    · intro s hs
      refine copyTurn_eq fun s' hturn => ?_
      obtain ⟨hss, hst⟩ := copy_length_le hne (.turn hs hturn)
      exact ⟨hss.trans h, hst.trans h⟩

end Fixed

end Elm.Avl
