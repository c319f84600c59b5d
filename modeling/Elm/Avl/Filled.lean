import Elm.Avl.Sparse

/-!
# Additions in increasing order

A tree to which items are added in increasing order grows on the right only: what is on the left is full.  So it has
as few levels as its number of nodes lets it have.
-/

namespace Elm.Avl

open List hiding nil
open BinaryTree Std

variable {T K : Type*} {A : Adapter T K} {t : GenTree T}

theorem numNodes_lt (n : Node T) : n.numNodes < 2 ^ n.height := by
  induction n with
  | nil => exact Nat.one_pos
  | node c l r ihl ihr =>
    have hl := Nat.pow_le_pow_right (n := 2) (by decide) (Nat.le_max_left l.height r.height)
    have hr := Nat.pow_le_pow_right (n := 2) (by decide) (Nat.le_max_right l.height r.height)
    rw [numNodes, height, Nat.pow_succ]
    omega

/-- Each left subtree is full, and as high as the right one or one level lower. -/
def Filled : Node T → Prop
  | nil => True
  | node _ l r => 2 ^ l.height = l.numNodes + 1 ∧ (r.height = l.height ∨ r.height = l.height + 1) ∧ Filled r

/-- The nodes of a stack are, when the hole has height `h` and is on the right. -/
def StackFilled : Stack T → Nat → Prop
  | [], _ => True
  | f :: s, h =>
    f.side = .right ∧ 2 ^ f.sibling.height = f.sibling.numNodes + 1 ∧
      (h = f.sibling.height ∨ h = f.sibling.height + 1) ∧ StackFilled s (h + 1)

theorem Filled.pow_le {n : Node T} (h : Filled n) : 2 ^ n.height ≤ 2 * n.numNodes + 1 := by
  induction n with
  | nil => exact Nat.le_refl _
  | node c l r _ ihr =>
    obtain ⟨hl, hr, hfilled⟩ := h
    have hle := ihr hfilled
    rw [numNodes, height, Nat.pow_succ]
    rcases hr with hr | hr
    · rw [hr, Nat.max_self]
      omega
    · rw [hr, Nat.pow_succ] at hle
      rw [hr, Nat.max_eq_right (Nat.le_succ _), Nat.pow_succ]
      omega

/-- As a tree of as many nodes needs at least. -/
theorem Filled.height_le {n : Node T} (h : Filled n) (hcount : n.numNodes < 2 ^ 31) : n.height ≤ 31 := by
  have hpow := h.pow_le
  by_contra hdeep
  have hle := Nat.pow_le_pow_right (n := 2) (by decide) (Nat.lt_of_not_le hdeep)
  omega

theorem filled_unwind_iff {n : Node T} {s : Stack T} (hs : ∀ f ∈ s, f.side = .right) :
    Filled (unwind n s) ↔ Filled n ∧ StackFilled s n.height := by
  induction s generalizing n with
  | nil => exact (and_iff_left trivial).symm
  | cons f s ih =>
    obtain ⟨side, c, u⟩ := f
    obtain rfl : side = .right := hs _ mem_cons_self
    rw [unwind_cons, Frame.plug_right, ih fun f hf => hs f (mem_cons_of_mem _ hf)]
    constructor
    · rintro ⟨⟨hu, hheight, hn⟩, hstack⟩
      rw [height, max_eq_right (show u.height ≤ n.height by omega)] at hstack
      exact ⟨hn, rfl, hu, hheight, hstack⟩
    · rintro ⟨hn, -, hu, hheight, hstack⟩
      refine ⟨⟨hu, hheight, hn⟩, ?_⟩
      rw [height, max_eq_right (show u.height ≤ n.height by dsimp only at hheight; omega)]
      exact hstack

theorem StackFilled.right {s : Stack T} {h : Nat} (hs : StackFilled s h) : ∀ f ∈ s, f.side = .right := by
  induction s generalizing h with
  | nil => exact nofun
  | cons f s ih =>
    obtain ⟨hside, -, -, hrest⟩ := hs
    exact forall_mem_cons.mpr ⟨hside, ih hrest⟩

/-- The insertion loop below a hole on the right that holds a subtree one higher, which leans on the right unless it is
the new leaf. -/
theorem insertLoop_filled {n : Node T} {s : Stack T} {h : Nat} (hn : Filled n) (hb : Balanced n)
    (hh : n.height = h + 1) (hlean : Node.bal n ≠ 0 ∨ h = 0) (hs : StackFilled s h) (hsb : StackBalanced s h) :
    Filled (insertLoop n s) := by
  induction s generalizing n h with
  | nil => exact hn
  | cons f s ih =>
    obtain ⟨side, c, u⟩ := f
    obtain ⟨rfl, hu, hheight, hs⟩ := hs
    obtain ⟨hc, hlo, hhi, hub, hsb⟩ := (stackBalanced_right c u s h).mp hsb
    dsimp only at hu hheight
    rw [max_eq_left (show u.height ≤ h by omega)] at hsb
    simp only [insertLoop_right]
    rw [if_neg (by omega), if_neg (by omega)]
    rcases hheight with hheight | hheight
    · -- the parent leans on the right from now on
      rw [if_neg (by omega)]
      refine ih ⟨hu, .inr (by omega), hn⟩ ?_ ?_ (.inl ?_) hs hsb
      · simp only [balanced_node, hb, hub, and_true]
        omega
      · rw [height, max_eq_right (by omega), hh]
      · show c.bal + 1 ≠ 0
        omega
    · -- the subtree leans on the right: one rotation
      rw [if_pos (by omega)]
      cases n with
      | nil => cases hh
      | node d l r =>
        obtain ⟨hd, -, -, -, -⟩ := hb
        obtain ⟨hl, hr, hfilled⟩ := hn
        have hbal : d.bal ≠ 0 := hlean.resolve_right (by omega)
        have hrl : r.height = l.height + 1 := hr.resolve_left fun heq => hbal (by omega)
        rw [height, hrl, max_eq_right (Nat.le_succ _)] at hh
        have hlu : l.height = u.height := by omega
        rw [if_neg (show ¬Node.bal (node d l r) < 0 by rw [Node.bal]; omega), rotateLeft, filled_unwind_iff hs.right]
        refine ⟨⟨?_, .inl ?_, hfilled⟩, ?_⟩
        · rw [height, numNodes, ← hlu, Nat.max_self, Nat.pow_succ, hl]
          rw [← hlu, hl] at hu
          omega
        · rw [height, hrl, hlu, Nat.max_self]
        · rw [height, height, hrl, hlu, Nat.max_self, Nat.max_self]
          rw [show u.height + 1 + 1 = h + 1 by omega]
          exact hs

theorem mem_dataAfter {f : Frame (Cell T)} {s : Stack T} (hf : f ∈ s) (hside : f.side = .left) :
    f.label.data ∈ dataAfter s := by
  induction s with
  | nil => cases hf
  | cons g s ih =>
    obtain ⟨side, c, u⟩ := g
    rcases mem_cons.mp hf with rfl | hrest
    · obtain rfl : side = .left := hside
      rw [dataAfter_left]
      exact mem_cons_self
    · cases side with
      | left =>
        rw [dataAfter_left]
        exact mem_cons_of_mem _ (mem_append_right _ (ih hrest))
      | right =>
        rw [dataAfter_right]
        exact ih hrest

/-- An item that is greater than all the others is put on the right. -/
theorem filled_add [TransCmp A.compare] (h : t.Invariant A) (hfilled : Filled t.root) {item : T}
    (hgreat : ∀ x ∈ dataList t.root, A.compare (A.key x) (A.key item) = .lt) : Filled (t.add A item).root := by
  obtain ⟨m, s, heq, hup, haround, hkey⟩ := h.lookup_root (A.key item)
  have hnot : ∀ x ∈ dataList t.root, A.compare (A.key item) (A.key x) = .gt := fun x hx =>
    OrientedCmp.gt_of_lt (hgreat x hx)
  rw [← hup, dataList_unwind] at hnot
  have hright : ∀ f ∈ s, f.side = .right := by
    rintro ⟨side, c, u⟩ hf
    cases side with
    | right => rfl
    | left =>
      have hmem := mem_dataAfter hf rfl
      have hlt := haround.2 _ hmem
      rw [hnot _ (mem_append_right _ hmem)] at hlt
      cases hlt
  cases m with
  | node c l r =>
    have heqkey := hkey c l r rfl
    rw [hnot c.data (by simp)] at heqkey
    cases heqkey
  | nil =>
    rw [← hup, filled_unwind_iff hright] at hfilled
    rw [root_add heq]
    exact insertLoop_filled ⟨rfl, .inl rfl, trivial⟩ (by simp [Node.new]) rfl (.inr rfl) hfilled.2
      (balanced_unwind_iff.mp (hup ▸ h.balanced)).2

end Elm.Avl
