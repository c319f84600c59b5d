import Elm.Avl.Stacks
import Mathlib.Tactic.NormNum.NatFib

/-!
# How high an `avl::GenTree` is

A balanced tree of `h` levels has at least `fib (h + 2) - 1` nodes, and the Fibonacci tree has no more.  Every
balanced search tree is reached by additions alone: a leaf of its last level is added last, without any
rotation.  So the trees of 32 levels and more, for which `MAX_HEIGHT` is too small, begin at 5702886 elements.  On
the other ones, the iteration and the calls of one tree are right.
-/

namespace Elm.Avl

open List hiding nil
open BinaryTree Std Function

variable {ι T K : Type*} {A : Adapter T K}

/-- The lower bound on the number of nodes. -/
theorem fib_le_numNodes {n : Node T} (h : Balanced n) : Nat.fib (n.height + 2) ≤ n.numNodes + 1 := by
  induction n with
  | nil => exact Nat.le_refl _
  | node c l r ihl ihr =>
    obtain ⟨hbal, hlo, hhi, hl, hr⟩ := h
    have hleft := ihl hl
    have hright := ihr hr
    rw [numNodes, height]
    rcases Nat.le_total l.height r.height with hle | hle
    · -- the left subtree has one level less at most
      have hmono : Nat.fib (r.height + 1) ≤ Nat.fib (l.height + 2) := Nat.fib_mono (by omega)
      have hadd : Nat.fib (r.height + 1 + 2) = Nat.fib (r.height + 1) + Nat.fib (r.height + 2) := Nat.fib_add_two
      rw [Nat.max_eq_right hle, hadd]
      omega
    · have hmono : Nat.fib (l.height + 1) ≤ Nat.fib (r.height + 2) := Nat.fib_mono (by omega)
      have hadd : Nat.fib (l.height + 1 + 2) = Nat.fib (l.height + 1) + Nat.fib (l.height + 2) := Nat.fib_add_two
      rw [Nat.max_eq_left hle, hadd]
      omega

/-- A tree of at most 5702885 elements has at most 31 levels. -/
theorem height_le_of_numNodes {n : Node T} (h : Balanced n) (hcount : n.numNodes ≤ 5702885) : n.height ≤ 31 := by
  by_contra hheight
  have hmono : Nat.fib 34 ≤ Nat.fib (n.height + 2) := Nat.fib_mono (by omega)
  have hfib : Nat.fib 34 = 5702887 := by norm_num
  have hle := fib_le_numNodes h
  omega

/-! ## Every balanced search tree is reached -/

/-- A leaf of the last level, seen from the tree without it: to add it again gives the tree, and the levels
above change as they do when the whole tree comes in the place of the smaller one. -/
structure LastLeaf (n : Node T) (x : T) (s : Stack T) : Prop where
  balanced : Balanced (unwind nil s)
  list : dataList n = dataBefore s ++ x :: dataAfter s
  insert : (height (unwind nil s) = n.height ∧ ∀ above, insertLoop (Node.new x) (s ++ above) = unwind n above) ∨
    (height (unwind nil s) + 1 = n.height ∧ ∀ above, insertLoop (Node.new x) (s ++ above) = insertLoop n above)

/-- A last leaf of the left subtree, which is not lower than the right one. -/
theorem LastLeaf.left {c : Cell T} {l r : Node T} (h : Balanced (node c l r)) (hle : r.height ≤ l.height)
    {x : T} {s : Stack T} (hx : LastLeaf l x s) : ∃ s', LastLeaf (node c l r) x s' := by
  obtain ⟨hbal, hlo, hhi, -, hr⟩ := h
  obtain ⟨hbalanced, hlist, hinsert⟩ := hx
  rcases hinsert with ⟨hheight, hinsert⟩ | ⟨hheight, hinsert⟩
  · -- the left subtree keeps its height
    have hup : unwind nil (s ++ [⟨.left, c, r⟩]) = node c (unwind nil s) r := unwind_append _ _ _
    refine ⟨s ++ [⟨.left, c, r⟩], ⟨?_, ?_, Or.inl ⟨?_, ?_⟩⟩⟩
    · rw [hup, balanced_node, hheight]
      exact ⟨hbal, hlo, hhi, hbalanced, hr⟩
    · rw [dataList_node, hlist, dataBefore_append, dataAfter_append, dataBefore_left, dataAfter_left]
      simp
    · rw [hup, height, height, hheight]
    · intro above
      rw [append_assoc, hinsert]
      rfl
  · -- the left subtree gets one level less, and then its parent leans to the right
    have hup : unwind nil (s ++ [⟨.left, { c with bal := c.bal + 1 }, r⟩]) =
        node { c with bal := c.bal + 1 } (unwind nil s) r := unwind_append _ _ _
    have hparent : ∀ above, insertLoop (Node.new x)
        (s ++ [⟨.left, { c with bal := c.bal + 1 }, r⟩] ++ above) =
          if c.bal = 0 then unwind (node c l r) above else insertLoop (node c l r) above := by
      intro above
      rw [append_assoc, hinsert]
      change insertLoop l (⟨.left, { c with bal := c.bal + 1 }, r⟩ :: above) = _
      rw [insertLoop_left]
      simp only [Int.add_sub_cancel]
      rw [if_neg (by omega : ¬ c.bal < -1), if_neg (by omega : ¬ 1 < c.bal)]
    refine ⟨s ++ [⟨.left, { c with bal := c.bal + 1 }, r⟩], ⟨?_, ?_, ?_⟩⟩
    · rw [hup, balanced_node]
      refine ⟨?_, ?_, ?_, hbalanced, hr⟩ <;> dsimp only <;> omega
    · rw [dataList_node, hlist, dataBefore_append, dataAfter_append, dataBefore_left, dataAfter_left]
      simp
    · rw [hup, height, height]
      by_cases hzero : c.bal = 0
      · refine Or.inl ⟨by omega, fun above => ?_⟩
        rw [hparent, if_pos hzero]
      · refine Or.inr ⟨by omega, fun above => ?_⟩
        rw [hparent, if_neg hzero]

/-- A last leaf of the right subtree, which is not lower than the left one. -/
theorem LastLeaf.right {c : Cell T} {l r : Node T} (h : Balanced (node c l r)) (hle : l.height ≤ r.height)
    {x : T} {s : Stack T} (hx : LastLeaf r x s) : ∃ s', LastLeaf (node c l r) x s' := by
  obtain ⟨hbal, hlo, hhi, hl, -⟩ := h
  obtain ⟨hbalanced, hlist, hinsert⟩ := hx
  rcases hinsert with ⟨hheight, hinsert⟩ | ⟨hheight, hinsert⟩
  · have hup : unwind nil (s ++ [⟨.right, c, l⟩]) = node c l (unwind nil s) := unwind_append _ _ _
    refine ⟨s ++ [⟨.right, c, l⟩], ⟨?_, ?_, Or.inl ⟨?_, ?_⟩⟩⟩
    · rw [hup, balanced_node, hheight]
      exact ⟨hbal, hlo, hhi, hl, hbalanced⟩
    · rw [dataList_node, hlist, dataBefore_append, dataAfter_append, dataBefore_right, dataAfter_right]
      simp
    · rw [hup, height, height, hheight]
    · intro above
      rw [append_assoc, hinsert]
      rfl
  · have hup : unwind nil (s ++ [⟨.right, { c with bal := c.bal - 1 }, l⟩]) =
        node { c with bal := c.bal - 1 } l (unwind nil s) := unwind_append _ _ _
    have hparent : ∀ above, insertLoop (Node.new x)
        (s ++ [⟨.right, { c with bal := c.bal - 1 }, l⟩] ++ above) =
          if c.bal = 0 then unwind (node c l r) above else insertLoop (node c l r) above := by
      intro above
      rw [append_assoc, hinsert]
      change insertLoop r (⟨.right, { c with bal := c.bal - 1 }, l⟩ :: above) = _
      rw [insertLoop_right]
      simp only [Int.sub_add_cancel]
      rw [if_neg (by omega : ¬ c.bal < -1), if_neg (by omega : ¬ 1 < c.bal)]
    refine ⟨s ++ [⟨.right, { c with bal := c.bal - 1 }, l⟩], ⟨?_, ?_, ?_⟩⟩
    · rw [hup, balanced_node]
      refine ⟨?_, ?_, ?_, hl, hbalanced⟩ <;> dsimp only <;> omega
    · rw [dataList_node, hlist, dataBefore_append, dataAfter_append, dataBefore_right, dataAfter_right]
      simp
    · rw [hup, height, height]
      by_cases hzero : c.bal = 0
      · refine Or.inl ⟨by omega, fun above => ?_⟩
        rw [hparent, if_pos hzero]
      · refine Or.inr ⟨by omega, fun above => ?_⟩
        rw [hparent, if_neg hzero]

theorem exists_lastLeaf {n : Node T} (h : Balanced n) (hn : n ≠ nil) : ∃ x s, LastLeaf n x s := by
  induction n with
  | nil => exact absurd rfl hn
  | node c l r ihl ihr =>
    have hall := h
    obtain ⟨hbal, -, -, hl, hr⟩ := h
    by_cases hleaf : l = nil ∧ r = nil
    · obtain ⟨rfl, rfl⟩ := hleaf
      obtain ⟨x, bal⟩ := c
      obtain rfl : bal = 0 := hbal
      exact ⟨x, [], ⟨trivial, by simp, Or.inr ⟨rfl, fun above => rfl⟩⟩⟩
    · have hheight : ∀ {m : Node T}, m.height = 0 → m = nil := by
        intro m hm
        cases m with
        | nil => rfl
        | node d a b => exact absurd hm (Nat.succ_ne_zero _)
      rcases Nat.le_total l.height r.height with hle | hle
      · have hrne : r ≠ nil := by
          rintro rfl
          exact hleaf ⟨hheight (Nat.le_zero.mp hle), rfl⟩
        obtain ⟨x, s, hx⟩ := ihr hr hrne
        obtain ⟨s', hx'⟩ := hx.right hall hle
        exact ⟨x, s', hx'⟩
      · have hlne : l ≠ nil := by
          rintro rfl
          exact hleaf ⟨rfl, hheight (Nat.le_zero.mp hle)⟩
        obtain ⟨x, s, hx⟩ := ihl hl hlne
        obtain ⟨s', hx'⟩ := hx.left hall hle
        exact ⟨x, s', hx'⟩

/-- The lookup of a key goes down to the hole around which the data lie. -/
theorem lookup_unwind [TransCmp A.compare] {key : K} (s : Stack T) (n : Node T)
    (h : Around A key (dataBefore s) (dataAfter s)) : lookup A key (unwind n s) [] = lookup A key n s := by
  induction s generalizing n with
  | nil => rfl
  | cons f s ih =>
    obtain ⟨side, c, u⟩ := f
    obtain ⟨hbefore, hafter⟩ := h
    cases side with
    | left =>
      rw [dataAfter_left] at hafter
      have hcmp : A.compare key (A.key c.data) = .lt := hafter c.data (by simp)
      rw [unwind_cons, ih _ ⟨hbefore, fun y hy => hafter y (mem_append_right _ hy)⟩]
      simp only [Frame.plug_left, lookup, hcmp]
    | right =>
      rw [dataBefore_right] at hbefore
      have hcmp : A.compare key (A.key c.data) = .gt := by
        rw [OrientedCmp.gt_iff_lt]
        exact hbefore c.data (by simp)
      rw [unwind_cons, ih _ ⟨fun y hy => hbefore y (mem_append_left _ hy), hafter⟩]
      simp only [Frame.plug_right, lookup, hcmp]

/-- A balanced search tree is what additions to the empty tree give, through trees that are not higher. -/
theorem exists_addAll [TransCmp A.compare] {n : Node T} (hbalanced : Balanced n)
    (hincreasing : Increasing A (dataList n)) :
    ∃ items : List T, GenTree.empty.addAll A items = ⟨n, n.numNodes⟩ ∧
      ∀ k, (GenTree.empty.addAll A (items.take k)).root.height ≤ n.height := by
  induction hcount : n.numNodes generalizing n with
  | zero =>
    cases n with
    | nil =>
      refine ⟨[], rfl, fun k => ?_⟩
      rw [take_nil]
      exact Nat.le_refl _
    | node c l r => cases hcount
  | succ k ih =>
    have hn : n ≠ nil := by
      rintro rfl
      cases hcount
    obtain ⟨x, s, hx⟩ := exists_lastLeaf hbalanced hn
    have hsmaller : dataList (unwind nil s) = dataBefore s ++ dataAfter s := by
      rw [dataList_unwind, dataList_nil, append_nil]
    have hcount' : (unwind nil s).numNodes = k := by
      rw [← length_dataList, hx.list, length_append, length_cons] at hcount
      rw [← length_dataList, hsmaller, length_append]
      omega
    rw [hx.list] at hincreasing
    obtain ⟨items, hitems, hheights⟩ := ih hx.balanced (by
      rw [hsmaller]
      apply Increasing.remove_middle [x]
      simpa using hincreasing) hcount'
    have hlookup : lookup A (A.key x) (unwind nil s) [] = (nil, s) := by
      rw [lookup_unwind s nil hincreasing.around_middle]
      rfl
    have hinsert : insertLoop (Node.new x) s = n := by
      rcases hx.insert with ⟨-, h⟩ | ⟨-, h⟩
      · have := h []
        rwa [append_nil] at this
      · have := h []
        rwa [append_nil] at this
    have hall : GenTree.empty.addAll A (items ++ [x]) = ⟨n, ↑(k + 1)⟩ := by
      unfold GenTree.addAll at hitems ⊢
      rw [foldl_append, hitems]
      simp only [foldl_cons, foldl_nil, GenTree.add, hlookup, GenTree.insert]
      cases hroot : unwind nil s with
      | nil =>
        -- the first addition finds no root
        rw [hroot] at hlookup
        obtain rfl : [] = s := (Prod.mk.inj hlookup).2
        obtain rfl : Node.new x = n := hinsert
        rw [Nat.cast_add, Nat.cast_one]
      | node c l r =>
        simp only [hinsert, Nat.cast_add, Nat.cast_one]
    refine ⟨items ++ [x], hall, fun m => ?_⟩
    rcases Nat.lt_or_ge items.length m with hlt | hge
    · rw [take_of_length_le (by simpa using hlt), hall]
    · rw [take_append_of_le_length hge]
      refine (hheights m).trans ?_
      rcases hx.insert with ⟨h, -⟩ | ⟨h, -⟩ <;> omega

/-! ## Fibonacci trees -/

/-- The tree of `h` levels with as few nodes as possible, which holds the numbers from `a` on. -/
def fibTree : Nat → Nat → Node Nat
  | 0, _ => nil
  | 1, a => node ⟨a, 0⟩ nil nil
  | h + 2, a =>
    let l := fibTree (h + 1) a
    node ⟨a + l.numNodes, -1⟩ l (fibTree h (a + l.numNodes + 1))

theorem height_fibTree (h a : Nat) : (fibTree h a).height = h := by
  induction h, a using fibTree.induct with
  | case1 a => rfl
  | case2 a => rfl
  | case3 h a l ihl ihr =>
    rw [fibTree, height, ihl, ihr]
    omega

theorem balanced_fibTree (h a : Nat) : Balanced (fibTree h a) := by
  induction h, a using fibTree.induct with
  | case1 a => trivial
  | case2 a => simp [fibTree]
  | case3 h a l ihl ihr =>
    rw [fibTree, balanced_node, height_fibTree, height_fibTree]
    dsimp only
    exact ⟨by omega, by omega, by omega, ihl, ihr⟩

theorem numNodes_fibTree (h a : Nat) : (fibTree h a).numNodes + 1 = Nat.fib (h + 2) := by
  induction h, a using fibTree.induct with
  | case1 a => rfl
  | case2 a => rfl
  | case3 h a l ihl ihr =>
    have hadd : Nat.fib (h + 2 + 2) = Nat.fib (h + 2) + Nat.fib (h + 3) := Nat.fib_add_two
    have hl : (fibTree (h + 1) a).numNodes + 1 = Nat.fib (h + 3) := ihl
    have hr : (fibTree h (a + (fibTree (h + 1) a).numNodes + 1)).numNodes + 1 = Nat.fib (h + 2) := ihr
    rw [hadd, fibTree, numNodes]
    omega

theorem dataList_fibTree (h a : Nat) : dataList (fibTree h a) = List.range' a (fibTree h a).numNodes := by
  induction h, a using fibTree.induct with
  | case1 a => rfl
  | case2 a => rfl
  | case3 h a l ihl ihr =>
    have hsplit : ∀ m n, List.range' a (m + n + 1) = List.range' a m ++ (a + m) :: List.range' (a + m + 1) n := by
      intro m n
      rw [Nat.add_assoc, ← range'_append_1, range'_succ]
    rw [fibTree, dataList_node, ihl, numNodes, hsplit]
    exact congrArg (fun xs => _ ++ _ :: xs) ihr

theorem increasing_fibTree (h a : Nat) : Increasing natAdapter (dataList (fibTree h a)) := by
  rw [dataList_fibTree]
  have hlt : (List.range' a (fibTree h a).numNodes).Pairwise (· < ·) := pairwise_lt_range'
  exact hlt.imp fun h => compare_lt_iff_lt.mpr h

/-! ## The stacks of the trees of a program -/

/-- A run of a program: the stacks of a tree fit exactly when it has at most 31 levels, and those of a tree of at
most 5702885 elements do. -/
theorem run_stacksFit_iff [DecidableEq ι] [TransCmp A.compare] (ops : List (Op ι T K)) :
    ∃ ts, Run.exec (step A) (fun _ => GenTree.empty) ops = some ts ∧
      ∀ i, (StacksFit A (ts i) ↔ (ts i).root.height ≤ 31) ∧
        ((ts i).count ≤ 5702885 → StacksFit A (ts i)) := by
  obtain ⟨ts, hexec, hts⟩ := Run.exists_exec (fun ts : Trees ι T => ∀ i, (ts i).Invariant A)
    (fun _ op h => step_invariant h op) ops _ fun _ => GenTree.invariant_empty A
  refine ⟨ts, hexec, fun i => ⟨stacksFit_iff A (ts i), fun hcount => (stacksFit_iff A (ts i)).mpr ?_⟩⟩
  apply height_le_of_numNodes (hts i).balanced
  have hcnt := (hts i).cnt_eq
  rw [GenTree.count] at hcount
  omega

/-- A tree of three numbers. -/
theorem run_stacksFit_iff_nat : ∃ ts, Run.exec (step natAdapter) (fun _ : Unit => GenTree.empty)
    [.add () 1, .add () 2, .add () 3] = some ts ∧ StacksFit natAdapter (ts ()) := by
  obtain ⟨ts, hexec, hts⟩ := @run_stacksFit_iff Unit Nat Nat natAdapter _ _ [.add () 1, .add () 2, .add () 3]
  obtain rfl := Option.some.inj hexec
  exact ⟨_, hexec, (hts ()).2 (by decide)⟩

theorem exec_addAll [DecidableEq ι] (A : Adapter T K) (i : ι) (items : List T) (ts : Trees ι T) :
    Run.exec (step A) ts (items.map (Op.add i)) = some (update ts i ((ts i).addAll A items)) := by
  induction items generalizing ts with
  | nil => simp [GenTree.addAll]
  | cons x items ih =>
    rw [map_cons, Run.exec_cons_eq_some]
    refine ⟨_, rfl, ?_⟩
    rw [ih, update_self, update_idem]
    rfl

/-- Additions, during which the stacks of all the lookups fit, give a tree of 5702886 numbers on which the stack
of an iterator overflows. -/
theorem not_run_stacksFit :
    ∃ items : List Nat, (∀ k ≤ items.length, ∃ ts,
        Run.exec (step natAdapter) (fun _ : Unit => GenTree.empty) ((items.map (Op.add ())).take k) = some ts ∧
          ∀ key, (lookup natAdapter key (ts ()).root []).2.length ≤ maxHeight) ∧
      ∃ ts, Run.exec (step natAdapter) (fun _ : Unit => GenTree.empty) (items.map (Op.add ())) = some ts ∧
        (ts ()).count ≤ 2 ^ 31 - 1 ∧ ¬ StacksFit natAdapter (ts ()) := by
  obtain ⟨items, hitems, hheights⟩ := exists_addAll (balanced_fibTree 32 0) (increasing_fibTree 32 0)
  refine ⟨items, fun k _ => ?_, ?_⟩
  · refine ⟨_, by rw [← map_take, exec_addAll], fun key => ?_⟩
    have hle := lookup_length natAdapter key (GenTree.empty.addAll natAdapter (items.take k)).root []
    have hheight := hheights k
    rw [height_fibTree] at hheight
    rw [update_self, maxHeight]
    rw [length_nil] at hle
    omega
  · refine ⟨_, exec_addAll natAdapter () items _, ?_, ?_⟩
    · have hcount := numNodes_fibTree 32 0
      have hfib : Nat.fib (32 + 2) = 5702887 := by norm_num
      rw [update_self, hitems, GenTree.count]
      dsimp only
      omega
    · rw [update_self, hitems, stacksFit_iff]
      dsimp only
      rw [height_fibTree]
      decide

/-! ## The iteration -/

/-- The iterator visits each element once, in the strictly increasing order of the keys, and has ended after
`count()` steps and not before. -/
def IterRight (A : Adapter T K) (t : GenTree T) : Prop :=
  ∃ xs : List T, xs.Perm (t.root.toList.map Cell.data) ∧ Increasing A xs ∧ (xs.length : Int) = t.count ∧
    ∀ k : Nat, (k : Int) ≤ t.count → ∃ s, Fixed.after t k = some s ∧ iterItem t.root s = xs[k]? ∧
      (iterEnded s = true ↔ t.count = k)

/-- The iteration over a search tree is right if and only if the tree has at most 31 levels. -/
theorem iterRight_iff {A : Adapter T K} [TransCmp A.compare] {t : GenTree T} (hsearch : SearchTree A t.root)
    (hcnt : t.cnt = t.root.numNodes) : IterRight A t ↔ t.root.height ≤ 31 := by
  have hcount : t.count = t.root.numNodes := hcnt
  constructor
  · rintro ⟨xs, -, -, -, hafter⟩
    refine Nat.le_of_lt_succ (Fixed.height_lt_of_after fun k hk => ?_)
    obtain ⟨s, hs, -⟩ := hafter k (by rw [hcount]; exact Int.ofNat_le.mpr hk)
    exact ⟨s, hs⟩
  · intro h
    refine ⟨dataList t.root, Perm.refl _, hsearch.increasing, ?_, fun k hk => ?_⟩
    · rw [length_dataList, hcount]
    · rw [hcount, Int.ofNat_le] at hk
      refine ⟨_, Fixed.after_eq (Nat.lt_succ_of_le h) hk, ?_, ?_⟩
      · rw [(t.begin_visits.iterate k).item, head?_drop]
      · rw [(t.begin_visits.iterate k).ended, drop_eq_nil_iff, length_dataList, hcount]
        omega

/-- Three numbers. -/
def threeNumbers : GenTree Nat := ⟨node ⟨2, 0⟩ (node ⟨1, 0⟩ nil nil) (node ⟨3, 0⟩ nil nil), 3⟩

theorem iterRight_threeNumbers : IterRight natAdapter threeNumbers :=
  (@iterRight_iff Nat Nat natAdapter _ threeNumbers
    ⟨by decide, by decide, ⟨nofun, nofun, trivial, trivial⟩, ⟨nofun, nofun, trivial, trivial⟩⟩ rfl).mpr (by decide)

/-- The iterator of a search tree of 32 levels overflows its stack. -/
theorem not_iterRight : ¬ ∀ t : GenTree Nat, SearchTree natAdapter t.root → t.cnt = t.root.numNodes →
    IterRight natAdapter t := by
  intro h
  have hsearch := (increasing_fibTree 32 0).searchTree
  have hle := (iterRight_iff (t := ⟨fibTree 32 0, (fibTree 32 0).numNodes⟩) hsearch rfl).mp (h _ hsearch rfl)
  dsimp only at hle
  rw [height_fibTree] at hle
  exact absurd hle (by decide)

/-! ## The runs of one tree -/

namespace Fixed

variable (A : Adapter T K)

/-- `GenTree::addAll`. -/
def addAll (t : GenTree T) (items : List T) : Option (GenTree T) := items.foldlM (add A) t

/-- The effect of a call. -/
def apply (t : GenTree T) : SetOp T K → Option (GenTree T)
  | .add item => add A t item
  | .removeByKey key => removeByKey A t key
  | .addAll items => addAll A t items
  | .clear => (clear t).map Prod.fst

end Fixed

/-- The tree has at most 31 levels before each item of a list is taken. -/
def ShallowFold (f : GenTree T → T → GenTree T) (items : List T) (t : GenTree T) : Prop :=
  ∀ k < items.length, ((items.take k).foldl f t).root.height ≤ 31

/-- The tree has at most 31 levels before the call; for `addAll`, before each addition. -/
def Shallow (A : Adapter T K) (t : GenTree T) : SetOp T K → Prop
  | .addAll items => ShallowFold (GenTree.add A) items t
  | _ => t.root.height ≤ 31

theorem ShallowFold.tail {f : GenTree T → T → GenTree T} {x : T} {items : List T} {t : GenTree T}
    (h : ShallowFold f (x :: items) t) : ShallowFold f items (f t x) :=
  fun k hk => h (k + 1) (Nat.succ_lt_succ hk)

theorem ShallowFold.head {f : GenTree T → T → GenTree T} {x : T} {items : List T} {t : GenTree T}
    (h : ShallowFold f (x :: items) t) : t.root.height < maxHeight :=
  Nat.lt_succ_of_le (h 0 (Nat.succ_pos _))

theorem ShallowFold.addAll_eq {A : Adapter T K} [TransCmp A.compare] {items : List T} {t : GenTree T}
    (h : t.Invariant A) (hlow : ShallowFold (GenTree.add A) items t) :
    Fixed.addAll A t items = some (t.addAll A items) := by
  induction items generalizing t with
  | nil => rfl
  | cons x items ih =>
    rw [Fixed.addAll, foldlM_cons, Fixed.add_eq h (Nat.le_of_lt hlow.head)]
    exact ih (h.add_spec x).1 hlow.tail

theorem Fixed.apply_eq {A : Adapter T K} [TransCmp A.compare] {t : GenTree T} (h : t.Invariant A) {op : SetOp T K}
    (hlow : Shallow A t op) : apply A t op = t.apply A op := by
  cases op with
  | add item => exact add_eq h (Nat.le_succ_of_le hlow) item
  | removeByKey key => exact removeByKey_eq h (Nat.le_succ_of_le hlow) key
  | addAll items => exact ShallowFold.addAll_eq h hlow
  | clear => exact congrArg (Option.map Prod.fst) (clear_eq (Nat.le_succ_of_le hlow))

/-- In every run on trees of at most 31 levels, the tree answers as the set of the keys that the same calls give: a
key is found when it is there, with the item that brought it in; the iteration gives the items in the order of their
keys if and only if the tree has again at most 31 levels. -/
theorem genTree_refines_set {A : Adapter T K} [TransCmp A.compare] (ops : List (SetOp T K))
    (hops : Run.Meets (Shallow A) (Fixed.apply A) GenTree.empty ops) :
    ∃ t, Run.exec (Fixed.apply A) GenTree.empty ops = some t ∧
      (∀ key, t.contains A key = (ops.foldl (applyItems A) []).any (hasKey A key)) ∧
      (∀ key, t.get A key = (ops.foldl (applyItems A) []).find? (hasKey A key)) ∧
      t.count = (ops.foldl (applyItems A) []).length ∧
      (t.isEmpty = true ↔ ops.foldl (applyItems A) [] = []) ∧
      ((∃ items, Fixed.items t = some items ∧ items.Perm (ops.foldl (applyItems A) []) ∧ Increasing A items) ↔
        t.root.height ≤ 31) := by
  have hrun : ∀ (ops : List (SetOp T K)) (t : GenTree T) (xs : List T), Represents A t xs →
      Run.Meets (Shallow A) (Fixed.apply A) t ops →
      ∃ t', Run.exec (Fixed.apply A) t ops = some t' ∧ Represents A t' (ops.foldl (applyItems A) xs) := by
    intro ops
    induction ops with
    | nil => exact fun t xs h _ => ⟨t, rfl, h⟩
    | cons op ops ih =>
      rintro t xs h ⟨hop, hmeets⟩
      obtain ⟨t₁, hstep, h₁⟩ := h.apply op
      rw [← Fixed.apply_eq h.invariant hop] at hstep
      obtain ⟨t₂, hexec, h₂⟩ := ih t₁ _ h₁ (hmeets t₁ hstep)
      exact ⟨t₂, Run.exec_cons_eq_some.mpr ⟨t₁, hstep, hexec⟩, h₂⟩
  obtain ⟨t, hexec, h⟩ := hrun ops GenTree.empty [] ⟨GenTree.invariant_empty A, Perm.nil⟩ hops
  refine ⟨t, hexec, fun key => (h.any key).symm, fun key => (h.find? key).symm, h.count, ?_, ?_⟩
  · have hcount := h.count
    unfold GenTree.count at hcount
    unfold GenTree.isEmpty
    rw [decide_eq_true_iff, hcount, ← length_eq_zero_iff]
    exact Int.natCast_eq_zero
  · constructor
    · rintro ⟨items, hitems, -⟩
      by_contra hdeep
      rw [Fixed.items_eq_none hdeep] at hitems
      cases hitems
    · intro hle
      have hitems := (Fixed.items_eq t).trans (if_pos (Nat.lt_succ_of_le hle))
      exact ⟨dataList t.root, hitems, h.perm, h.invariant.increasing⟩

/-- The item that came in first stays. -/
theorem genTree_refines_set_nat :
    ∃ t, Run.exec (Fixed.apply (pairAdapter Nat (compare : Nat → Nat → Ordering))) GenTree.empty
        [.add (1, 10), .addAll [(2, 20), (1, 11), (3, 30)], .removeByKey 2] = some t ∧
      t.get (pairAdapter Nat (compare : Nat → Nat → Ordering)) 1 = some (1, 10) ∧ t.count = 2 := by
  obtain ⟨t, hexec, -, hget, hcount, -⟩ :=
    genTree_refines_set (A := pairAdapter Nat (compare : Nat → Nat → Ordering))
      [.add (1, 10), .addAll [(2, 20), (1, 11), (3, 30)], .removeByKey 2] (by
        refine Run.meets_cons (show _ ≤ 31 by decide) rfl (Run.meets_cons (show ∀ k < 3, _ by decide) rfl
          (Run.meets_cons (show _ ≤ 31 by decide) rfl trivial)))
  exact ⟨t, hexec, hget 1, hcount⟩

/-- Additions after which the iteration is stopped. -/
theorem not_genTree_refines_set :
    ¬ ∀ ops : List (SetOp Nat Nat), ∃ t, Run.exec (Fixed.apply natAdapter) GenTree.empty ops = some t ∧
      ∃ items, Fixed.items t = some items ∧ items.Perm (ops.foldl (applyItems natAdapter) []) := by
  intro hall
  obtain ⟨items, hitems, -⟩ := exists_addAll (balanced_fibTree 32 0) (increasing_fibTree 32 0)
  -- the first additions that make more than 31 levels
  have hdeep : ∃ k, 31 < (GenTree.empty.addAll natAdapter (items.take k)).root.height := by
    refine ⟨items.length, ?_⟩
    rw [take_length, hitems]
    dsimp only
    rw [height_fibTree]
    decide
  obtain ⟨m, hm, hmin⟩ : ∃ m, 31 < (GenTree.empty.addAll natAdapter (items.take m)).root.height ∧
      ∀ k < m, (GenTree.empty.addAll natAdapter (items.take k)).root.height ≤ 31 :=
    ⟨Nat.find hdeep, Nat.find_spec hdeep, fun k hk => Nat.not_lt.mp (Nat.find_min hdeep hk)⟩
  obtain ⟨t, hexec, list, hlist, -⟩ := hall [.addAll (items.take m)]
  obtain ⟨t', hadd, ht⟩ := Run.exec_cons_eq_some.mp hexec
  obtain rfl := Option.some.inj ht
  have hlow : ShallowFold (GenTree.add natAdapter) (items.take m) GenTree.empty := by
    intro k hk
    rw [length_take] at hk
    rw [take_take, Nat.min_eq_left (by omega)]
    exact hmin k (by omega)
  have hadded : Fixed.apply natAdapter GenTree.empty (.addAll (items.take m)) =
      some (GenTree.empty.addAll natAdapter (items.take m)) := hlow.addAll_eq (GenTree.invariant_empty _)
  obtain rfl := Option.some.inj (hadd.symm.trans hadded)
  rw [Fixed.items_eq_none (Nat.not_le.mpr hm)] at hlist
  cases hlist

end Elm.Avl
