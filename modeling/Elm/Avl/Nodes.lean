import Elm.Avl.Run

/-!
# The nodes of `avl::GenTree` and its allocator

Each tree is also an allocator, which counts here the nodes that it has given and those that it has got back.  The
operations are those of the tree, with the `new` and the `free` of the source; `removeNode` gives a node back only
when the removed node has two children.
-/

namespace Elm.Avl

open BinaryTree Std Function Nat

variable {ι T K : Type*} [DecidableEq ι] (A : Adapter T K)

/-- A tree, with what its allocator has been asked for. -/
structure Pool (T : Type*) where
  tree : GenTree T
  allocated : Nat
  freed : Nat

namespace Pool

/-- A new tree. -/
def empty : Pool T := ⟨GenTree.empty, 0, 0⟩

/-- `GenTree::add`: a node is created for a key that is not there. -/
def add (p : Pool T) (item : T) : Pool T :=
  match lookup A (A.key item) p.tree.root [] with
  | (nil, s) => { p with tree := p.tree.insert s (Node.new item), allocated := p.allocated + 1 }
  | (node _ _ _, _) => p

/-- `GenTree::remove(Stack&, Node *)`.  `AbstractTree::remove` unlinks a node and leaves it at that; the `free` of
the source stands in the last case. -/
def removeNode (p : Pool T) (s : Stack T) : Node T → Pool T
  | nil => p
  | node _ nil r => { p with tree := p.tree.unlink s r }
  | node _ l nil => { p with tree := p.tree.unlink s l }
  | node n l r =>
    match leftMost [] r with
    | (node c _ pr, above) =>
      { p with
        tree := p.tree.unlink (above ++ ⟨.right, (exchange c n).2, l⟩ :: s) pr
        freed := p.freed + 1 }
    | (nil, _) => p

/-- `GenTree::removeByKey`. -/
def removeByKey (p : Pool T) (key : K) : Pool T :=
  match lookup A key p.tree.root [] with
  | (nil, _) => p
  | (node c l r, s) => p.removeNode s (node c l r)

/-- `GenTree::clear`: each node of the stack is freed. -/
def clear (p : Pool T) : Option (Pool T) :=
  p.tree.clear.map fun (t, nodes) => ⟨t, p.allocated, p.freed + nodes.length⟩

/-- `GenTree::copy` after its `clear()`, for the tree `src`: the root is created before the loop, of which each
turn creates one node by `copyLeft` or `copyRight`. -/
def copyFrom (p : Pool T) (src : GenTree T) : Option (Pool T) :=
  match src.root with
  | nil => some { p with tree := GenTree.empty }
  | node _ _ _ =>
    (Loop.run (Loop.counted (copyTurn src.root)) (src.root.numNodes + 1)
      (⟨Node.clone src.root, [[]], [[]]⟩, 1)).map fun (root, nodes) =>
        { p with tree := ⟨root, src.cnt⟩, allocated := p.allocated + nodes }

end Pool

/-- The effect of a call on the trees and on their allocators. -/
def poolStep (ps : ι → Pool T) : Op ι T K → Option (ι → Pool T)
  | .add i item => some (update ps i ((ps i).add A item))
  | .removeByKey i key => some (update ps i ((ps i).removeByKey A key))
  | .remove i x => some (update ps i ((ps i).removeByKey A (A.key x)))
  | .clear i => (ps i).clear.map (update ps i)
  | .copy i j =>
    (ps i).clear.bind fun p =>
      let ps' := update ps i p
      (p.copyFrom (ps' j).tree).map (update ps' i)

/-- The nodes given and not got back that are not in the tree. -/
def Pool.lost (p : Pool T) : Int := (p.allocated : Int) - p.freed - p.tree.cnt

/-- The nodes given and not got back are as many as the tree counts. -/
def Pool.Settled (p : Pool T) : Prop := (p.allocated : Int) - p.freed = p.tree.cnt

/-- The key is not there, or its node has two children. -/
def GivesBack (t : GenTree T) (key : K) : Prop :=
  match find A key t.root with
  | nil => True
  | node _ l r => l ≠ nil ∧ r ≠ nil

/-- The removals that give a node back, if they take one out. -/
def GivesNodesBack (ps : ι → Pool T) : Op ι T K → Prop
  | .removeByKey i key => GivesBack A (ps i).tree key
  | .remove i x => GivesBack A (ps i).tree (A.key x)
  | _ => True

instance (t : GenTree T) (key : K) : Decidable (GivesBack A t key) := by
  unfold GivesBack
  split <;> infer_instance

instance (ps : ι → Pool T) (op : Op ι T K) : Decidable (GivesNodesBack A ps op) := by
  unfold GivesNodesBack
  split <;> infer_instance

variable {A} {p : Pool T}

theorem Pool.settled_iff : p.Settled ↔ p.lost = 0 := by
  unfold Pool.Settled Pool.lost
  omega

/-! ## The operations on the tree alone -/

theorem lookup_fst (key : K) (n : Node T) (s : Stack T) : (lookup A key n s).1 = find A key n := by
  induction n generalizing s with
  | nil => rfl
  | node c l r ihl ihr =>
    unfold lookup find
    cases A.compare key (A.key c.data) with
    | lt => exact ihl _
    | gt => exact ihr _
    | eq => rfl

theorem Pool.add_tree (p : Pool T) (item : T) : (p.add A item).tree = p.tree.add A item := by
  unfold Pool.add GenTree.add
  cases lookup A (A.key item) p.tree.root [] with
  | mk n s => cases n <;> rfl

theorem Pool.removeNode_tree (p : Pool T) (s : Stack T) (n : Node T) :
    (p.removeNode s n).tree = p.tree.removeNode s n := by
  match n with
  | nil => rfl
  | node _ nil _ => rfl
  | node _ (node _ _ _) nil => rfl
  | node n (node d a b) (node e x y) =>
    obtain ⟨m, pr, above, heq, -, -⟩ := leftMost_spec [] e x y
    simp only [Pool.removeNode, GenTree.removeNode, heq]

theorem Pool.removeByKey_tree (p : Pool T) (key : K) : (p.removeByKey A key).tree = p.tree.removeByKey A key := by
  unfold Pool.removeByKey GenTree.removeByKey
  cases lookup A key p.tree.root [] with
  | mk n s =>
    cases n with
    | nil => rfl
    | node c l r => exact p.removeNode_tree s (node c l r)

/-! ## The nodes -/

/-- A new node is in the tree. -/
theorem Pool.lost_add (p : Pool T) (item : T) : (p.add A item).lost = p.lost := by
  unfold Pool.add
  cases lookup A (A.key item) p.tree.root [] with
  | mk n s =>
    cases n with
    | node c l r => rfl
    | nil =>
      have hcnt : (p.tree.insert s (Node.new item)).cnt = p.tree.cnt + 1 := by
        unfold GenTree.insert
        cases p.tree.root <;> rfl
      unfold Pool.lost
      simp only [hcnt, cast_add, cast_one]
      omega

/-- A node taken out is got back if it has two children, and lost otherwise. -/
theorem Pool.lost_removeNode (p : Pool T) (s : Stack T) (c : Cell T) (l r : Node T) :
    (p.removeNode s (node c l r)).lost = p.lost + if l ≠ nil ∧ r ≠ nil then 0 else 1 := by
  match l, r with
  | nil, r =>
    rw [if_neg (fun h => h.1 rfl)]
    simp only [Pool.removeNode, Pool.lost, GenTree.unlink]
    omega
  | node d a b, nil =>
    rw [if_neg (fun h => h.2 rfl)]
    simp only [Pool.removeNode, Pool.lost, GenTree.unlink]
    omega
  | node d a b, node e x y =>
    rw [if_pos ⟨by simp, by simp⟩]
    obtain ⟨m, pr, above, heq, -, -⟩ := leftMost_spec [] e x y
    simp only [Pool.removeNode, heq, Pool.lost, GenTree.unlink, cast_add, cast_one]
    omega

theorem Pool.lost_removeByKey (p : Pool T) (key : K) :
    (p.removeByKey A key).lost = p.lost + if GivesBack A p.tree key then 0 else 1 := by
  have hfind : (lookup A key p.tree.root []).1 = find A key p.tree.root := lookup_fst key p.tree.root []
  unfold Pool.removeByKey
  cases hlookup : lookup A key p.tree.root [] with
  | mk n s =>
    rw [hlookup] at hfind
    change n = find A key p.tree.root at hfind
    cases n with
    | nil =>
      have hgives : GivesBack A p.tree key := by
        unfold GivesBack
        rw [← hfind]
        trivial
      rw [if_pos hgives, Int.add_zero]
    | node c l r =>
      have hgives : GivesBack A p.tree key ↔ l ≠ nil ∧ r ≠ nil := by
        unfold GivesBack
        rw [← hfind]
      simp only [hgives]
      exact p.lost_removeNode s c l r

/-- Clearing gives all the nodes back. -/
theorem Pool.clear_eq (h : p.tree.Invariant A) :
    ∃ q, p.clear = some q ∧ q.tree = GenTree.empty ∧ q.lost = p.lost := by
  obtain ⟨nodes, hclear, hperm⟩ := p.tree.clear_spec
  refine ⟨_, by rw [Pool.clear, hclear]; rfl, rfl, ?_⟩
  have hlength : nodes.length = p.tree.root.numNodes := by rw [hperm.length_eq, length_toList]
  unfold Pool.lost
  simp only [h.cnt_eq, hlength, GenTree.empty, cast_add]
  omega

/-- The copy of a tree creates as many nodes as the tree has. -/
theorem run_counted_copyTurn (c : Cell T) (l r : Node T) :
    Loop.run (Loop.counted (copyTurn (node c l r))) ((node c l r).numNodes + 1)
        (⟨Node.clone (node c l r), [[]], [[]]⟩, 1) = some (node c l r, (node c l r).numNodes) := by
  have hstart : CopyAt (node c l r) (node c l r) [] ⟨Node.clone (node c l r), [[]], [[]]⟩ :=
    ⟨by simp, rfl, rfl, rfl, rfl⟩
  have hfuel : l.numNodes + r.numNodes < (node c l r).numNodes + 1 := by
    rw [numNodes]
    omega
  rw [Loop.run_counted (fun k state => ∃ n s, CopyAt (node c l r) n s state ∧ n.numNodes + pending s = k + 1)
    ?_ ?_ 1 ⟨_, _, hstart, rfl⟩ hfuel, Nat.add_comm]
  · rfl
  · rintro k state ⟨n, s, hat, hnodes⟩
    rcases copyTurn_spec hat with ⟨n', s', state', hturn, hat', hless⟩ | ⟨-, hone⟩
    · exact ⟨state', hturn, n', s', hat', by omega⟩
    · omega
  · rintro state ⟨n, s, hat, hnodes⟩
    rcases copyTurn_spec hat with ⟨n', s', state', -, hat', hless⟩ | ⟨hturn, -⟩
    · -- the node just created would not count
      have hpos : 0 < n'.numNodes := by
        cases n' with
        | nil => exact absurd rfl hat'.ne_nil
        | node c' l' r' => exact succ_pos _
      omega
    · exact hturn

theorem Pool.copyFrom_eq {src : GenTree T} (h : src.Invariant A) (hp : p.tree = GenTree.empty) :
    ∃ q, p.copyFrom src = some q ∧ q.tree = src ∧ q.lost = p.lost := by
  obtain ⟨root, cnt⟩ := src
  have hcnt := h.cnt_eq
  cases root with
  | nil =>
    obtain rfl : cnt = 0 := hcnt
    refine ⟨_, rfl, rfl, ?_⟩
    unfold Pool.lost
    rw [hp]
  | node c l r =>
    refine ⟨_, by rw [Pool.copyFrom, run_counted_copyTurn]; rfl, rfl, ?_⟩
    unfold Pool.lost
    simp only [hp, GenTree.empty, cast_add] at hcnt ⊢
    omega

/-! ## The calls -/

/-- The trees, without their allocators. -/
def trees (ps : ι → Pool T) : Trees ι T := fun i => (ps i).tree

theorem trees_update (ps : ι → Pool T) (i : ι) (p : Pool T) :
    trees (update ps i p) = update (trees ps) i p.tree := by
  funext k
  unfold trees
  by_cases hk : k = i
  · subst hk
    rw [update_self, update_self]
  · rw [update_of_ne hk, update_of_ne hk]

theorem lost_update {ps : ι → Pool T} {i : ι} (hp : p.lost = (ps i).lost) (k : ι) :
    (update ps i p k).lost = (ps k).lost := by
  by_cases hk : k = i
  · subst hk
    rw [update_self, hp]
  · rw [update_of_ne hk]

/-- A call does to the trees what it does without the allocators, and it loses a node exactly if it is a removal
that gives none back. -/
theorem poolStep_spec {ps : ι → Pool T} (h : ∀ i, (trees ps i).Invariant A) (op : Op ι T K) :
    ∃ ps', poolStep A ps op = some ps' ∧ step A (trees ps) op = some (trees ps') ∧
      (GivesNodesBack A ps op → ∀ k, (ps' k).lost = (ps k).lost) ∧
      (¬ GivesNodesBack A ps op → ∃ k, (ps' k).lost = (ps k).lost + 1) := by
  have hremoval : ∀ i key,
      (GivesBack A (ps i).tree key →
        ∀ k, (update ps i ((ps i).removeByKey A key) k).lost = (ps k).lost) ∧
      (¬ GivesBack A (ps i).tree key →
        ∃ k, (update ps i ((ps i).removeByKey A key) k).lost = (ps k).lost + 1) := by
    intro i key
    have hlost := Pool.lost_removeByKey (A := A) (ps i) key
    constructor
    · intro hgives
      rw [if_pos hgives, Int.add_zero] at hlost
      exact lost_update hlost
    · intro hgives
      rw [if_neg hgives] at hlost
      exact ⟨i, by rw [update_self, hlost]⟩
  cases op with
  | add i item =>
    refine ⟨_, rfl, ?_, fun _ => lost_update ((ps i).lost_add item), fun hnot => absurd trivial hnot⟩
    rw [trees_update, Pool.add_tree]
    rfl
  | removeByKey i key =>
    refine ⟨_, rfl, ?_, hremoval i key⟩
    rw [trees_update, Pool.removeByKey_tree]
    rfl
  | remove i x =>
    refine ⟨_, rfl, ?_, hremoval i (A.key x)⟩
    rw [trees_update, Pool.removeByKey_tree]
    rfl
  | clear i =>
    obtain ⟨q, hq, htree, hlost⟩ := Pool.clear_eq (h i)
    obtain ⟨nodes, hclear, -⟩ := (trees ps i).clear_spec
    refine ⟨update ps i q, ?_, ?_, fun _ => lost_update hlost, fun hnot => absurd trivial hnot⟩
    · rw [poolStep, hq]
      rfl
    · rw [trees_update, htree, step, hclear]
      rfl
  | copy i j =>
    obtain ⟨q, hq, htree, hlost⟩ := Pool.clear_eq (h i)
    obtain ⟨nodes, hclear, -⟩ := (trees ps i).clear_spec
    have hcleared : trees (update ps i q) = update (trees ps) i GenTree.empty := by
      rw [trees_update, htree]
    have hinv : (trees (update ps i q) j).Invariant A := by
      rw [hcleared]
      by_cases hj : j = i
      · subst hj
        rw [update_self]
        exact GenTree.invariant_empty A
      · rw [update_of_ne hj]
        exact h j
    obtain ⟨q', hq', htree', hlost'⟩ := Pool.copyFrom_eq hinv htree
    have hlost'' : ∀ k, (update (update ps i q) i q' k).lost = (ps k).lost := by
      rw [update_idem]
      exact lost_update (hlost'.trans hlost)
    refine ⟨update (update ps i q) i q', ?_, ?_, fun _ => hlost'', ?_⟩
    · rw [poolStep, hq, Option.bind_some]
      change (q.copyFrom (trees (update ps i q) j)).map _ = _
      rw [hq']
      rfl
    · rw [trees_update, htree', hcleared, step, hclear, Option.bind_some]
      rw [hcleared] at hinv
      change ((update (trees ps) i GenTree.empty) j).copyFrom.map _ = _
      rw [hinv.copyFrom_eq]
      rfl
    · exact fun hnot => absurd trivial hnot

/-! ## Runs -/

/-- The trees have their invariant, and no node is lost. -/
structure PoolInv (A : Adapter T K) (ps : ι → Pool T) : Prop where
  invariant : ∀ i, (trees ps i).Invariant A
  lost_eq : ∀ i, (ps i).lost = 0

/-- In every run, the nodes that each allocator has given and not got back are all along as many as its tree
counts, if and only if each removal finds no node or a node with two children.  The trees have at most 31 levels, for
the stacks of 32 entries. -/
theorem pool_run_iff [TransCmp A.compare] (ops : List (Op ι T K)) :
    (∀ k, ∃ ps, Run.exec (poolStep A) (fun _ => Pool.empty) (ops.take k) = some ps ∧ ∀ i, (ps i).Settled) ↔
      Run.Meets (GivesNodesBack A) (poolStep A) (fun _ => Pool.empty) ops := by
  have hall : Run.Meets (fun _ _ => True) (poolStep A) (fun _ => Pool.empty) ops :=
    Run.meets_of_forall (fun _ _ => trivial) ops _
  have hstart : PoolInv A fun _ : ι => (Pool.empty : Pool T) :=
    ⟨fun _ => GenTree.invariant_empty A, fun _ => rfl⟩
  have hsettled : ∀ ps : ι → Pool T, PoolInv A ps → ∀ i, (ps i).Settled :=
    fun ps h i => Pool.settled_iff.mpr (h.lost_eq i)
  refine (Run.meets_iff_forall_exists_exec (PoolInv A) _ hsettled ?_ ?_ ops _ hstart hall).symm
  · rintro ps op ⟨hinv, hlost⟩ - hgives
    obtain ⟨ps', hstep, htrees, hkeeps, -⟩ := poolStep_spec hinv op
    obtain ⟨ts, hstep', hinv'⟩ := step_invariant hinv op
    obtain rfl := Option.some.inj (htrees.symm.trans hstep')
    exact ⟨ps', hstep, hinv', fun i => (hkeeps hgives i).trans (hlost i)⟩
  · rintro ps op ps' ⟨hinv, hlost⟩ - hgives hstep hsettled
    obtain ⟨ps'', hstep', -, -, hloses⟩ := poolStep_spec hinv op
    obtain rfl := Option.some.inj (hstep.symm.trans hstep')
    obtain ⟨i, hi⟩ := hloses hgives
    rw [Pool.settled_iff.mp (hsettled i), hlost i] at hi
    cases hi

/-- A tree of three nodes, whose root is taken out, and its copy. -/
def someNodes : List (Op Bool Nat Nat) :=
  [.add true 2, .add true 1, .add true 3, .removeByKey true 2, .removeByKey true 7, .copy false true, .clear true]

theorem pool_run_iff_someNodes :
    ∃ ps, Run.exec (poolStep natAdapter) (fun _ => Pool.empty) (someNodes.take 6) = some ps ∧
      ∀ i, (ps i).Settled :=
  (@pool_run_iff Bool Nat Nat _ natAdapter _ someNodes).mpr
    (Run.meets_cons trivial rfl (Run.meets_cons trivial rfl (Run.meets_cons trivial rfl
      (Run.meets_cons (by decide) rfl (Run.meets_cons (by decide) rfl (Run.meets_cons trivial rfl
        (Run.meets_cons trivial rfl trivial))))))) 6

/-- The node of the only element is unlinked and never given back. -/
theorem not_pool_run :
    ¬ ∀ ops : List (Op Bool Nat Nat), ∀ k, ∃ ps,
      Run.exec (poolStep natAdapter) (fun _ => Pool.empty) (ops.take k) = some ps ∧ ∀ i, (ps i).Settled := by
  intro hall
  obtain ⟨ps, hexec, hsettled⟩ := hall [.add true 1, .removeByKey true 1] 2
  obtain rfl := Option.some.inj hexec
  have hone : (1 : Int) - 0 = 0 := hsettled true
  cases hone

end Elm.Avl
