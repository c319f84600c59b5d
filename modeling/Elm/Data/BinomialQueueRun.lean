import Elm.Data.BinomialQueue

/-!
# Runs of `BinomialQueue`

Merging gives trees of increasing degrees where no degree comes more than twice, and the loop of `join` carries as
in an addition: at each place at most three trees have one degree, and two of them are linked.
-/

namespace Elm.Data.BinomialQueue

open Std List

variable {T : Type*} {compare : T → T → Ordering}

/-! ## The elements -/

@[simp] theorem elements_mk (d : Nat) (x : T) (child : List (Node T)) :
    (Node.mk d x child).elements = x :: forestElements child := by
  rw [Node.elements]

@[simp] theorem forestElements_nil : forestElements ([] : List (Node T)) = [] := by
  rw [forestElements]

@[simp] theorem forestElements_cons (n : Node T) (f : List (Node T)) :
    forestElements (n :: f) = n.elements ++ forestElements f := by
  rw [forestElements]

theorem forestElements_eq_flatMap (f : List (Node T)) : forestElements f = f.flatMap Node.elements := by
  induction f with
  | nil => exact forestElements_nil
  | cons n f ih => rw [forestElements_cons, flatMap_cons, ih]

theorem forestElements_append (f g : List (Node T)) :
    forestElements (f ++ g) = forestElements f ++ forestElements g := by
  simp only [forestElements_eq_flatMap, flatMap_append]

theorem forestElements_perm {f g : List (Node T)} (h : f.Perm g) :
    (forestElements f).Perm (forestElements g) := by
  simp only [forestElements_eq_flatMap]
  exact h.flatMap_right _

theorem elements_eq (n : Node T) : n.elements = n.x :: forestElements n.child := by
  cases n
  exact elements_mk _ _ _

theorem mem_forestElements {y : T} {f : List (Node T)} :
    y ∈ forestElements f ↔ ∃ n ∈ f, y ∈ n.elements := by
  rw [forestElements_eq_flatMap, mem_flatMap]

theorem elements_link (root child : Node T) :
    (link root child).elements.Perm (root.elements ++ child.elements) := by
  rw [link, elements_mk, elements_eq root, forestElements_cons, cons_append]
  exact Perm.cons _ perm_append_comm

/-! ## Binomial trees -/

theorem Binomial.degrees {n : Node T} (h : Binomial compare n) :
    n.child.map Node.degree = (List.range n.degree).reverse := by
  cases h with
  | mk degrees _ _ => exact degrees

theorem Binomial.order {n : Node T} (h : Binomial compare n) : ∀ c ∈ n.child, (compare n.x c.x).isLE := by
  cases h with
  | mk _ order _ => exact order

theorem Binomial.children {n : Node T} (h : Binomial compare n) : ∀ c ∈ n.child, Binomial compare c := by
  cases h with
  | mk _ _ children => exact children

/-- A new node. -/
theorem binomial_new (x : T) : Binomial compare (.mk 0 x []) :=
  Binomial.mk rfl nofun nofun

/-- Linking two trees of one degree gives a tree of the next degree. -/
theorem Binomial.link {root child : Node T} (hroot : Binomial compare root) (hchild : Binomial compare child)
    (hdegree : root.degree = child.degree) (hle : (compare root.x child.x).isLE) :
    Binomial compare (link root child) := by
  refine Binomial.mk ?_ ?_ ?_
  · rw [map_cons, hroot.degrees, range_succ, reverse_concat, hdegree]
  · intro c hc
    rcases mem_cons.mp hc with rfl | hc
    · exact hle
    · exact hroot.order c hc
  · intro c hc
    rcases mem_cons.mp hc with rfl | hc
    · exact hchild
    · exact hroot.children c hc

/-- The root of a heap-ordered tree has a smallest element. -/
theorem Binomial.x_le [TransCmp compare] {n : Node T} (h : Binomial compare n) :
    ∀ y ∈ n.elements, (compare n.x y).isLE := by
  induction h with
  | @mk d x child degrees order _ ih =>
    intro y hy
    rw [elements_mk] at hy
    rcases mem_cons.mp hy with rfl | hy
    · exact ReflCmp.isLE_rfl
    · obtain ⟨c, hc, hyc⟩ := mem_forestElements.mp hy
      exact TransCmp.isLE_trans (order c hc) (ih c hc y hyc)

/-! ## `reverse` -/

theorem reverseLoop_eq (t h : List (Node T)) : reverseLoop t h = h.reverse ++ t := by
  induction h generalizing t with
  | nil => rfl
  | cons n h ih =>
    rw [reverseLoop, ih, reverse_cons, append_assoc]
    rfl

theorem reverse_eq (h : List (Node T)) : reverse h = h.reverse := by
  rw [reverse, reverseLoop_eq, append_nil]

/-- The children of a binomial tree, the other way round, are a forest. -/
theorem Binomial.forest_reverse {n : Node T} (h : Binomial compare n) : Forest compare (reverse n.child) where
  degrees := by
    have hsorted : ((reverse n.child).map Node.degree).Pairwise (· < ·) := by
      rw [reverse_eq, map_reverse, h.degrees, reverse_reverse]
      exact pairwise_lt_range
    exact pairwise_map.mp hsorted
  binomial := by
    intro c hc
    rw [reverse_eq, mem_reverse] at hc
    exact h.children c hc

/-! ## `merge` -/

theorem merge_perm (a b : List (Node T)) : (merge a b).Perm (a ++ b) := by
  fun_induction merge a b with
  | case1 b => exact Perm.refl _
  | case2 a => rw [append_nil]
  | case3 a as b bs hlt ih => exact ih.cons a
  | case4 a as b bs hlt ih => exact (ih.cons b).trans perm_middle.symm

/-- Merging keeps the order of the degrees. -/
theorem merge_sorted {a b : List (Node T)} (ha : a.Pairwise fun m n => m.degree ≤ n.degree)
    (hb : b.Pairwise fun m n => m.degree ≤ n.degree) : (merge a b).Pairwise fun m n => m.degree ≤ n.degree := by
  fun_induction merge a b with
  | case1 b => exact hb
  | case2 a => exact ha
  | case3 a as b bs hlt ih =>
    rw [pairwise_cons]
    refine ⟨fun n hn => ?_, ih ha.tail hb⟩
    rcases mem_append.mp ((merge_perm _ _).mem_iff.mp hn) with hn | hn
    · exact rel_of_pairwise_cons ha hn
    · rcases mem_cons.mp hn with rfl | hn
      · exact Nat.le_of_lt hlt
      · exact Nat.le_trans (Nat.le_of_lt hlt) (rel_of_pairwise_cons hb hn)
  | case4 a as b bs hlt ih =>
    rw [pairwise_cons]
    refine ⟨fun n hn => ?_, ih ha hb.tail⟩
    rcases mem_append.mp ((merge_perm _ _).mem_iff.mp hn) with hn | hn
    · rcases mem_cons.mp hn with rfl | hn
      · exact Nat.le_of_not_lt hlt
      · exact Nat.le_trans (Nat.le_of_not_lt hlt) (rel_of_pairwise_cons ha hn)
    · exact rel_of_pairwise_cons hb hn

/-- The number of trees of one degree. -/
def countDegree (d : Nat) (f : List (Node T)) : Nat := f.countP fun n => n.degree = d

theorem countDegree_le_one {f : List (Node T)} (h : f.Pairwise fun m n => m.degree < n.degree) (d : Nat) :
    countDegree d f ≤ 1 := by
  induction f with
  | nil => exact Nat.zero_le 1
  | cons n f ih =>
    have htail := ih h.tail
    unfold countDegree at *
    rw [countP_cons]
    by_cases hd : n.degree = d
    · -- the following degrees are larger
      have hzero : f.countP (fun m => decide (m.degree = d)) = 0 := by
        rw [countP_eq_zero]
        intro m hm
        have hlt := rel_of_pairwise_cons h hm
        simp
        omega
      simp [hd, hzero]
    · simpa [hd] using htail

/-- What `join` gets from `merge`: increasing degrees, and none of them more than twice. -/
structure Merged (compare : T → T → Ordering) (f : List (Node T)) : Prop where
  sorted : f.Pairwise fun m n => m.degree ≤ n.degree
  twice : ∀ d, countDegree d f ≤ 2
  binomial : ∀ n ∈ f, Binomial compare n

theorem merged_merge {a b : List (Node T)} (ha : Forest compare a) (hb : Forest compare b) :
    Merged compare (merge a b) where
  sorted := merge_sorted (ha.degrees.imp Nat.le_of_lt) (hb.degrees.imp Nat.le_of_lt)
  twice d := by
    have hcount : countDegree d (merge a b) = countDegree d a + countDegree d b := by
      unfold countDegree
      rw [(merge_perm a b).countP_eq, countP_append]
    have hone := countDegree_le_one ha.degrees d
    have hone' := countDegree_le_one hb.degrees d
    omega
  binomial n hn := by
    rcases mem_append.mp ((merge_perm a b).mem_iff.mp hn) with hn | hn
    · exact ha.binomial n hn
    · exact hb.binomial n hn

theorem Merged.tail {n : Node T} {f : List (Node T)} (h : Merged compare (n :: f)) : Merged compare f where
  sorted := h.sorted.tail
  twice d := by
    have htwice := h.twice d
    unfold countDegree at *
    rw [countP_cons] at htwice
    omega
  binomial m hm := h.binomial m (mem_cons_of_mem n hm)

/-! ## The loop of `join` -/

theorem joinLoop_elements (x : Node T) (rest : List (Node T)) :
    (forestElements (joinLoop compare x rest)).Perm (x.elements ++ forestElements rest) := by
  induction rest generalizing x with
  | nil => simp [joinLoop]
  | cons n rest ih =>
    unfold joinLoop
    split_ifs
    · rw [forestElements_cons, forestElements_cons]
      exact (ih n).append_left _
    · refine (ih (link x n)).trans ?_
      rw [forestElements_cons, ← append_assoc]
      exact (elements_link x n).append_right _
    · refine (ih (link n x)).trans ?_
      rw [forestElements_cons, ← append_assoc]
      exact ((elements_link n x).trans perm_append_comm).append_right _

/-- The node that the loop carries on from two nodes of one degree. -/
def carried (compare : T → T → Ordering) (x n : Node T) : Node T :=
  if higher compare x.x n.x then link x n else link n x

theorem binomial_carried [TransCmp compare] {x n : Node T} (hx : Binomial compare x) (hn : Binomial compare n)
    (hdegree : x.degree = n.degree) : Binomial compare (carried compare x n) := by
  unfold carried
  split_ifs with hhigher
  · exact hx.link hn hdegree hhigher
  · refine hn.link hx hdegree.symm ?_
    unfold higher at hhigher
    cases hcmp : compare x.x n.x with
    | lt => simp [hcmp] at hhigher
    | eq => simp [hcmp] at hhigher
    | gt => rw [OrientedCmp.lt_of_gt hcmp]; rfl

theorem degree_carried {x n : Node T} (hdegree : x.degree = n.degree) :
    (carried compare x n).degree = x.degree + 1 := by
  unfold carried
  split_ifs
  · rfl
  · rw [hdegree]
    rfl

theorem joinLoop_carry {x n : Node T} {rest : List (Node T)} (hdegree : x.degree = n.degree)
    (hnext : rest.head?.map Node.degree ≠ some x.degree) :
    joinLoop compare x (n :: rest) = joinLoop compare (carried compare x n) rest := by
  unfold carried
  have hlink : ¬ (x.degree ≠ n.degree ∨ rest.head?.map Node.degree = some x.degree) := by
    rintro (hne | heq)
    · exact hne hdegree
    · exact hnext heq
  rw [joinLoop, if_neg hlink]
  split_ifs <;> rfl

theorem joinLoop_skip {x n : Node T} {rest : List (Node T)}
    (h : x.degree ≠ n.degree ∨ rest.head?.map Node.degree = some x.degree) :
    joinLoop compare x (n :: rest) = x :: joinLoop compare n rest := by
  rw [joinLoop, if_pos h]

/-- The following nodes are larger when the next one has another degree. -/
theorem Merged.lt_of_head {d : Nat} {rest : List (Node T)} (h : Merged compare rest)
    (hle : ∀ m ∈ rest, d ≤ m.degree) (hhead : rest.head?.map Node.degree ≠ some d) :
    ∀ m ∈ rest, d < m.degree := by
  cases rest with
  | nil => exact nofun
  | cons k rest =>
    have hk : d < k.degree := by
      have hle' := hle k mem_cons_self
      have hne : k.degree ≠ d := by simpa using hhead
      omega
    intro m hm
    rcases mem_cons.mp hm with rfl | hm
    · exact hk
    · exact Nat.lt_of_lt_of_le hk (rel_of_pairwise_cons h.sorted hm)

/-- The loop gives a forest of trees that have at least the degree of its first node. -/
theorem joinLoop_forest [TransCmp compare] {x : Node T} {rest : List (Node T)} (hx : Binomial compare x)
    (h : Merged compare rest) (hle : ∀ m ∈ rest, x.degree ≤ m.degree) :
    Forest compare (joinLoop compare x rest) ∧ ∀ m ∈ joinLoop compare x rest, x.degree ≤ m.degree := by
  -- by the number of the nodes that follow; three nodes of one degree take two turns
  induction hlen : rest.length using Nat.strong_induction_on generalizing x rest with
  | _ len ih =>
    subst hlen
    cases rest with
    | nil =>
      refine ⟨⟨pairwise_singleton _ _, ?_⟩, ?_⟩ <;> simp [joinLoop, hx]
    | cons n rest =>
      have hn := h.binomial n mem_cons_self
      have hxn := hle n mem_cons_self
      have hafter : ∀ m ∈ rest, n.degree ≤ m.degree := fun m hm => rel_of_pairwise_cons h.sorted hm
      have hcons : ∀ f : List (Node T), Forest compare f → (∀ m ∈ f, x.degree < m.degree) →
          Forest compare (x :: f) ∧ ∀ m ∈ x :: f, x.degree ≤ m.degree := by
        intro f hf hlt
        refine ⟨⟨pairwise_cons.mpr ⟨hlt, hf.degrees⟩, ?_⟩, ?_⟩
        · intro m hm
          rcases mem_cons.mp hm with rfl | hm
          · exact hx
          · exact hf.binomial m hm
        · intro m hm
          rcases mem_cons.mp hm with rfl | hm
          · exact Nat.le_refl _
          · exact Nat.le_of_lt (hlt m hm)
      by_cases hdegree : x.degree = n.degree
      · by_cases hnext : rest.head?.map Node.degree = some x.degree
        · -- three nodes of one degree: the first one stays, the others are linked
          rw [joinLoop_skip (Or.inr hnext)]
          cases rest with
          | nil => simp at hnext
          | cons k rest =>
            have hk : k.degree = x.degree := by simpa using hnext
            have hrest : ∀ m ∈ rest, x.degree < m.degree := by
              intro m hm
              have hle' := hle m (by simp [hm])
              have htwice := h.twice x.degree
              unfold countDegree at htwice
              rw [countP_cons, countP_cons] at htwice
              have hzero : rest.countP (fun m => decide (m.degree = x.degree)) = 0 := by
                simp [hk, ← hdegree] at htwice
                simpa using htwice
              rw [countP_eq_zero] at hzero
              have hne := hzero m hm
              simp at hne
              omega
            have hhead : rest.head?.map Node.degree ≠ some n.degree := by
              cases rest with
              | nil => simp
              | cons j rest =>
                have hj := hrest j mem_cons_self
                simp
                omega
            rw [joinLoop_carry (hdegree.symm.trans hk.symm) hhead]
            have hcarried := @degree_carried T compare n k (hdegree.symm.trans hk.symm)
            obtain ⟨hforest, hge⟩ := ih rest.length (by simp) (binomial_carried hn
              (h.binomial k (by simp)) (hdegree.symm.trans hk.symm)) h.tail.tail
              (fun m hm => by have hlt := hrest m hm; omega) rfl
            refine hcons _ hforest fun m hm => ?_
            have hge' := hge m hm
            omega
        · rw [joinLoop_carry hdegree hnext]
          have hlt := h.tail.lt_of_head (fun m hm => hdegree ▸ hafter m hm) hnext
          have hcarried := @degree_carried T compare x n hdegree
          obtain ⟨hforest, hge⟩ := ih rest.length (by simp) (binomial_carried hx hn hdegree) h.tail
            (fun m hm => by have hlt' := hlt m hm; omega) rfl
          exact ⟨hforest, fun m hm => by have hge' := hge m hm; omega⟩
      · rw [joinLoop_skip (Or.inl hdegree)]
        obtain ⟨hforest, hge⟩ := ih rest.length (by simp) hn h.tail hafter rfl
        refine hcons _ hforest fun m hm => ?_
        have hge' := hge m hm
        omega

/-! ## `join` -/

theorem forest_nil : Forest compare ([] : List (Node T)) := ⟨List.Pairwise.nil, nofun⟩

theorem join_spec [TransCmp compare] {head h2 : List (Node T)} (hhead : Forest compare head)
    (h2' : Forest compare h2) : Forest compare (join compare head h2) ∧
      (forestElements (join compare head h2)).Perm (forestElements head ++ forestElements h2) := by
  unfold join
  cases h2 with
  | nil => exact ⟨hhead, by simp⟩
  | cons b bs =>
    cases head with
    | nil => exact ⟨h2', by simp⟩
    | cons a as =>
      have hmerged := merged_merge hhead h2'
      have hperm := merge_perm (a :: as) (b :: bs)
      simp only
      cases hmerge : merge (a :: as) (b :: bs) with
      | nil =>
        rw [hmerge] at hperm
        have hlen := hperm.length_eq
        simp at hlen
      | cons x rest =>
        rw [hmerge] at hmerged hperm
        have hforest := joinLoop_forest (hmerged.binomial x mem_cons_self) hmerged.tail
          fun m hm => rel_of_pairwise_cons hmerged.sorted hm
        refine ⟨hforest.1, (joinLoop_elements x rest).trans ?_⟩
        rw [← forestElements_cons, ← forestElements_append]
        exact forestElements_perm hperm

/-! ## `min` -/

theorem minLoop_spec [TransCmp compare] (rest : List (Node T)) (before : List (Node T)) (n : Node T)
    (between : List (Node T)) (hle : ∀ m ∈ before ++ n :: between, (compare n.x m.x).isLE) :
    ∃ before' n' after', minLoop compare before n between rest = (before', n', after') ∧
      before' ++ n' :: after' = before ++ n :: between ++ rest ∧
      ∀ m ∈ before' ++ n' :: after', (compare n'.x m.x).isLE := by
  induction rest generalizing before n between with
  | nil => exact ⟨before, n, between, rfl, by simp, hle⟩
  | cons c rest ih =>
    unfold minLoop higher
    split_ifs with hhigher
    · obtain ⟨before', n', after', hloop, hsplit, hle'⟩ := ih (before ++ n :: between) c [] (by
        intro m hm
        rcases mem_append.mp hm with hm | hm
        · exact TransCmp.isLE_trans hhigher (hle m hm)
        · rw [mem_singleton.mp hm]
          exact ReflCmp.isLE_rfl)
      exact ⟨before', n', after', hloop, by rw [hsplit]; simp, hle'⟩
    · obtain ⟨before', n', after', hloop, hsplit, hle'⟩ := ih before n (between ++ [c]) (by
        intro m hm
        rw [← cons_append, ← append_assoc] at hm
        rcases mem_append.mp hm with hm | hm
        · exact hle m hm
        · rw [mem_singleton.mp hm]
          cases hcmp : compare c.x n.x with
          | lt => simp [hcmp] at hhigher
          | eq => simp [hcmp] at hhigher
          | gt => rw [OrientedCmp.lt_of_gt hcmp]; rfl)
      exact ⟨before', n', after', hloop, by rw [hsplit]; simp, hle'⟩

/-- `min`: a root with a smallest element of the forest. -/
theorem minNode_spec [TransCmp compare] {f : List (Node T)} (hf : Forest compare f) (hne : f ≠ []) :
    ∃ before n after, minNode compare f = some (before, n, after) ∧ f = before ++ n :: after ∧
      ∀ y ∈ forestElements f, (compare n.x y).isLE := by
  cases f with
  | nil => exact absurd rfl hne
  | cons m f =>
    obtain ⟨before, n, after, hloop, hsplit, hle⟩ := @minLoop_spec T compare _ f [] m [] (by
      intro k hk
      rw [mem_singleton.mp hk]
      exact ReflCmp.isLE_rfl)
    refine ⟨before, n, after, congrArg some hloop, hsplit.symm, fun y hy => ?_⟩
    obtain ⟨k, hk, hyk⟩ := mem_forestElements.mp hy
    have hroot : (compare n.x k.x).isLE := hle k (by rw [hsplit]; exact hk)
    exact TransCmp.isLE_trans hroot ((hf.binomial k hk).x_le y hyk)

/-! ## `get` and `put` -/

theorem Forest.sublist {f g : List (Node T)} (h : Forest compare g) (hsub : f.Sublist g) : Forest compare f :=
  ⟨h.degrees.sublist hsub, fun n hn => h.binomial n (hsub.subset hn)⟩

theorem get_spec [TransCmp compare] {q : BinomialQueue T} (hq : Forest compare q.head) (hne : q.head ≠ []) :
    ∃ x q', q.get compare = some (x, q') ∧ q'.min = q.min ∧ Forest compare q'.head ∧
      (∀ y ∈ forestElements q.head, (compare x y).isLE) ∧
      (forestElements q.head).Perm (x :: forestElements q'.head) := by
  obtain ⟨before, n, after, hmin, hsplit, hle⟩ := minNode_spec hq hne
  have hn : Binomial compare n := hq.binomial n (by rw [hsplit]; simp)
  have hrest : Forest compare (before ++ after) := hq.sublist (by rw [hsplit]; simp)
  obtain ⟨hforest, hperm⟩ := join_spec hrest hn.forest_reverse
  refine ⟨n.x, { q with head := join compare (before ++ after) (reverse n.child) }, by rw [get, hmin]; rfl, rfl,
    hforest, hle, ?_⟩
  have hmiddle : (forestElements q.head).Perm (n.elements ++ forestElements (before ++ after)) := by
    rw [hsplit, ← forestElements_cons]
    exact forestElements_perm perm_middle
  refine hmiddle.trans ?_
  rw [elements_eq, cons_append]
  refine Perm.cons _ (Perm.trans ?_ hperm.symm)
  refine perm_append_comm.trans (Perm.append_left _ (forestElements_perm ?_))
  rw [reverse_eq]
  exact (reverse_perm _).symm

theorem headItem_eq [TransCmp compare] {q : BinomialQueue T} (hq : Forest compare q.head) (hne : q.head ≠ []) :
    ∃ x, q.headItem compare = some x ∧ x ∈ forestElements q.head ∧
      ∀ y ∈ forestElements q.head, (compare x y).isLE := by
  obtain ⟨before, n, after, hmin, hsplit, hle⟩ := minNode_spec hq hne
  refine ⟨n.x, by rw [headItem, hmin]; rfl, ?_, hle⟩
  exact mem_forestElements.mpr ⟨n, by rw [hsplit]; simp, by rw [elements_eq]; exact mem_cons_self⟩

theorem put_spec [TransCmp compare] {q : BinomialQueue T} (hq : Forest compare q.head) (hmin : q.min = none)
    (x : T) : (q.put compare x).min = none ∧ Forest compare (q.put compare x).head ∧
      (forestElements (q.put compare x).head).Perm (x :: forestElements q.head) := by
  have hput : q.put compare x = { q with head := join compare q.head [.mk 0 x []] } := by
    unfold put
    simp only [hmin]
  have hnew : Forest compare [Node.mk 0 x []] :=
    ⟨pairwise_singleton _ _, fun n hn => by rw [mem_singleton.mp hn]; exact binomial_new x⟩
  obtain ⟨hforest, hperm⟩ := join_spec hq hnew
  rw [hput]
  refine ⟨hmin, hforest, hperm.trans ?_⟩
  have helements : forestElements [Node.mk 0 x []] = [x] := by simp
  rw [helements]
  exact perm_append_comm

/-! ## Runs -/

/-- The invariant of the runs; `_min` is never set. -/
structure State.Good (compare : T → T → Ordering) (s : State T) : Prop where
  min : s.queue.min = none
  forest : Forest compare s.queue.head
  elements : ↑(forestElements s.queue.head) = s.pending

theorem forestElements_eq_nil_iff {f : List (Node T)} : forestElements f = [] ↔ f = [] := by
  cases f with
  | nil => simp
  | cons n f => simp [elements_eq n]

theorem State.Good.head_eq_nil_iff {s : State T} (h : s.Good compare) : s.queue.head = [] ↔ s.pending = 0 := by
  rw [← h.elements, Multiset.coe_eq_zero, forestElements_eq_nil_iff]

theorem step_good [DecidableEq T] [TransCmp compare] (s : State T) (op : Op T) (h : s.Good compare)
    (hallowed : Allowed s op) : ∃ s', step compare s op = some s' ∧ s'.Good compare := by
  cases op with
  | put x =>
    obtain ⟨hmin, hforest, hperm⟩ := put_spec h.forest h.min x
    refine ⟨_, rfl, hmin, hforest, ?_⟩
    show ↑(forestElements (s.queue.put compare x).head) = x ::ₘ s.pending
    rw [← h.elements, Multiset.cons_coe, Multiset.coe_eq_coe]
    exact hperm
  | get =>
    have hne : s.queue.head ≠ [] := fun heq => hallowed (h.head_eq_nil_iff.mp heq)
    obtain ⟨x, q', hget, hmin, hforest, -, hperm⟩ := get_spec h.forest hne
    refine ⟨⟨q', s.pending.erase x⟩, by rw [step, hget]; rfl, hmin.trans h.min, hforest, ?_⟩
    rw [← h.elements, Multiset.coe_eq_coe.mpr hperm, ← Multiset.cons_coe, Multiset.erase_cons_head]

theorem State.Good.correct [TransCmp compare] {s : State T} (h : s.Good compare) : Correct compare s where
  forest := h.forest
  elements := h.elements
  isEmpty := by
    rw [← h.head_eq_nil_iff]
    unfold isEmpty
    simp [h.min]
  head hne := by
    have hne' : s.queue.head ≠ [] := fun heq => hne (h.head_eq_nil_iff.mp heq)
    obtain ⟨x, hitem, hmem, hle⟩ := headItem_eq h.forest hne'
    refine ⟨x, hitem, ?_⟩
    rw [← h.elements]
    exact ⟨hmem, hle⟩
  get hne := by
    have hne' : s.queue.head ≠ [] := fun heq => hne (h.head_eq_nil_iff.mp heq)
    obtain ⟨x, q', hget, -, -, hle, hperm⟩ := get_spec h.forest hne'
    refine ⟨x, q', hget, ?_, ?_⟩
    · rw [← h.elements]
      exact ⟨hperm.mem_iff.mpr mem_cons_self, hle⟩
    · rw [← h.elements, Multiset.cons_coe, Multiset.coe_eq_coe]
      exact hperm.symm

/-- After every run the queue is a binomial forest of the pending elements, and `get` takes a smallest one. -/
theorem binomialQueue_run [DecidableEq T] [TransCmp compare] (ops : List (Op T))
    (hmeets : Run.Meets Allowed (step compare) ⟨new, 0⟩ ops) :
    ∃ s, Run.exec (step compare) ⟨new, 0⟩ ops = some s ∧ Correct compare s := by
  have hinit : State.Good compare (⟨new, 0⟩ : State T) := ⟨rfl, forest_nil, by simp [new]⟩
  obtain ⟨s, hexec, hgood⟩ := Run.exists_exec_of_meets (State.Good compare) step_good ops _ hinit hmeets
  exact ⟨s, hexec, hgood.correct⟩

/-- Four elements, two of them equal, and the smallest one taken. -/
theorem binomialQueue_run_nat :
    ∃ s, Run.exec (step (Ord.compare : Nat → Nat → Ordering)) ⟨new, 0⟩
      [.put 3, .put 1, .put 2, .put 1, .get] = some s ∧ Correct Ord.compare s := by
  refine binomialQueue_run _ ?_
  refine Run.meets_cons trivial rfl (Run.meets_cons trivial rfl (Run.meets_cons trivial rfl
    (Run.meets_cons trivial rfl ⟨?_, fun _ _ => trivial⟩)))
  show (1 ::ₘ 2 ::ₘ 1 ::ₘ 3 ::ₘ 0 : Multiset Nat) ≠ 0
  exact Multiset.cons_ne_zero

end Elm.Data.BinomialQueue
