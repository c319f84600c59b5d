import Elm.Lib.Chain
import Elm.Lib.Loop

/-!
# `ListGC`

The garbage collector of `include/elm/alloc/ListGC.h` and `src/alloc_ListGC.cpp`.  The blocks are known by
the address of their data and the memory keeps, for each allocated block, the two parts of its member `next`:
the pointer and the bit `TAG`.  The address of a new block is chosen by the system and the blocks marked
during a collection by the client; `mark` of an address without block has no result.

The state also keeps the blocks that have been freed, the oldest first.
-/

namespace Elm.Alloc

open Chain Function List

/-- `ListGC`, with the members `next` of its blocks and the blocks it has freed. -/
structure ListGC where
  lcnt : Int
  cnt : Int
  lim : Int
  head : Option Nat
  dis : Bool
  mem : Nat → Option (Option Nat × Bool)
  freed : List Nat

namespace ListGC

/-- The constructor. -/
def new (limit : Int) : ListGC := ⟨0, 0, limit, none, false, fun _ => none, []⟩

/-- `gcNeeded`. -/
def gcNeeded (s : ListGC) : Bool := !s.dis && decide (s.cnt - s.lcnt > s.lim)

/-- `mark`. -/
def mark (s : ListGC) (b : Nat) : Option (Bool × ListGC) :=
  (s.mem b).map fun cell => (cell.2, { s with mem := update s.mem b (some (cell.1, true)) })

/-- The call of `collect`, in which the client marks the blocks `marks`. -/
def collect (s : ListGC) (marks : List Nat) : Option ListGC :=
  marks.foldlM (fun s b => (s.mark b).map Prod.snd) s

/-- `*q = next`, where `q` points to `head` or to the member `next` of a block. -/
def setLink (s : ListGC) (q next : Option Nat) : ListGC :=
  match q with
  | none => { s with head := next }
  | some b => { s with mem := update s.mem b (some (next, false)) }

/-- `manager.clean` and `free`. -/
def free (s : ListGC) (b : Nat) : ListGC :=
  { s with mem := update s.mem b none, freed := s.freed ++ [b] }

/-- One turn of the loop of `runGC`, on the variables `q` and `p`. -/
def sweepTurn (state : ListGC × Option Nat × Option Nat) : (ListGC × Option Nat × Option Nat) ⊕ ListGC :=
  let (s, q, p) := state
  match p with
  | none => .inr s
  | some b =>
    match s.mem b with
    | none => .inr s
    | some (next, true) =>
      .inl ({ s with mem := update s.mem b (some (next, false)) }, some b, next)
    | some (next, false) =>
      let s := (s.setLink q next).free b
      .inl ({ s with cnt := s.cnt - 1 }, q, next)

/-- `runGC`; `cnt` is the number of the blocks. -/
def runGC (s : ListGC) (marks : List Nat) : Option ListGC :=
  (s.collect marks).bind fun s =>
    (Loop.run sweepTurn (s.cnt.toNat + 1) (s, none, s.head)).map fun s => { s with lcnt := s.cnt }

/-- `allocate`, whose block is at address `b`; a collection would mark `marks`. -/
def allocate (s : ListGC) (b : Nat) (marks : List Nat) : Option ListGC :=
  let s := { s with mem := update s.mem b (some (s.head, false)), head := some b, cnt := s.cnt + 1 }
  if s.gcNeeded then
    (({ s with lim := s.lim * 2 } : ListGC).mark b).bind fun r => r.2.runGC marks
  else
    some s

/-- `enable`; a collection would mark `marks`. -/
def enable (s : ListGC) (marks : List Nat) : Option ListGC :=
  let s := { s with dis := false }
  if s.gcNeeded then s.runGC marks else some s

/-- One turn of the loop of `clean`. -/
def cleanTurn (state : ListGC × Option Nat) : (ListGC × Option Nat) ⊕ ListGC :=
  match state.2 with
  | none => .inr state.1
  | some b =>
    match state.1.mem b with
    | none => .inr state.1
    | some (next, _) => .inl (state.1.free b, next)

/-- `clean`. -/
def clean (s : ListGC) : Option ListGC :=
  (Loop.run cleanTurn (s.cnt.toNat + 1) (s, s.head)).map fun s => { s with head := none, cnt := 0, lcnt := 0 }

/-! ## Runs -/

/-- The calls of a client. -/
inductive Op
  | allocate (b : Nat) (marks : List Nat)
  | runGC (marks : List Nat)
  | disable
  | enable (marks : List Nat)
  | clean

def step (s : ListGC) : Op → Option ListGC
  | .allocate b marks => s.allocate b marks
  | .runGC marks => s.runGC marks
  | .disable => some { s with dis := true }
  | .enable marks => s.enable marks
  | .clean => s.clean

/-- The contract of a call: a new block is not at the address of another one, and a collection marks blocks. -/
def Contract (s : ListGC) : Op → Prop
  | .allocate b marks => s.mem b = none ∧ ∀ m ∈ marks, m = b ∨ (s.mem m).isSome
  | .runGC marks => ∀ m ∈ marks, (s.mem m).isSome
  | .disable => True
  | .enable marks => ∀ m ∈ marks, (s.mem m).isSome
  | .clean => True

instance (s : ListGC) : ∀ op, Decidable (s.Contract op)
  | .allocate b marks => inferInstanceAs (Decidable (s.mem b = none ∧ ∀ m ∈ marks, m = b ∨ (s.mem m).isSome))
  | .runGC marks => inferInstanceAs (Decidable (∀ m ∈ marks, (s.mem m).isSome))
  | .disable => .isTrue trivial
  | .enable marks => inferInstanceAs (Decidable (∀ m ∈ marks, (s.mem m).isSome))
  | .clean => .isTrue trivial

/-- The block that a call allocates. -/
def Op.allocated : Op → Option Nat
  | .allocate b _ => some b
  | _ => none

/-- The blocks are in the list, in this order and with these marks, and nowhere else. -/
structure Holds (s : ListGC) (xs : List Nat) (marked : Nat → Bool) : Prop where
  list : IsList s.mem s.head (xs.map fun a => (a, marked a))
  cnt : s.cnt = xs.length
  isSome : ∀ a, (s.mem a).isSome ↔ a ∈ xs

/-- Between two calls no block is marked. -/
def Lists (s : ListGC) (xs : List Nat) : Prop := s.Holds xs fun _ => false

variable {s t : ListGC} {xs : List Nat} {marked : Nat → Bool}

theorem Holds.nodup (h : s.Holds xs marked) : xs.Nodup := by
  have hnodup := h.list.nodup
  rwa [map_map, show Prod.fst ∘ (fun a => (a, marked a)) = id from rfl, map_id] at hnodup

theorem lists_new (limit : Int) : (new limit).Lists [] :=
  ⟨rfl, rfl, fun a => by simp [new]⟩

/-! ## Marks -/

/-- What `mark` does not change. -/
structure SameBlocks (s t : ListGC) : Prop where
  head : t.head = s.head
  cnt : t.cnt = s.cnt
  freed : t.freed = s.freed

/-- The tags of the other blocks stay when one block is marked. -/
theorem map_tag_update {b : Nat} (v : Bool) (hb : b ∉ xs) :
    (xs.map fun a => (a, update marked b v a)) = xs.map fun a => (a, marked a) := by
  refine map_congr_left ?_
  intro a ha
  rw [update_of_ne]
  rintro rfl
  exact hb ha

theorem mark_spec (h : s.Holds xs marked) {b : Nat} (hb : b ∈ xs) :
    ∃ t, s.mark b = some (marked b, t) ∧ t.Holds xs (update marked b true) ∧ SameBlocks s t := by
  have hnodup := h.nodup
  obtain ⟨ys, zs, rfl⟩ := append_of_mem hb
  have hlist := h.list
  rw [map_append, map_cons] at hlist
  obtain ⟨next, hread⟩ := Seg.read_of_mem hlist (mem_append_right _ mem_cons_self)
  have hzs := (hlist.next_of_append hread).2
  rw [nodup_middle, nodup_cons, mem_append, not_or] at hnodup
  obtain ⟨⟨hys, hbzs⟩, -⟩ := hnodup
  refine ⟨{ s with mem := update s.mem b (some (next, true)) }, ?_, ⟨?_, h.cnt, ?_⟩, rfl, rfl, rfl⟩
  · unfold mark
    rw [hread]
    rfl
  · rw [map_append, map_cons, map_tag_update true hys, map_tag_update true hbzs,
      update_self]
    refine hlist.splice hzs ?_ true
    simpa using hbzs
  · intro a
    show (update s.mem b (some (next, true)) a).isSome ↔ _
    by_cases ha : a = b
    · rw [ha, update_self]
      simp
    · rw [update_of_ne ha]
      exact h.isSome a

theorem SameBlocks.trans {u : ListGC} (h : SameBlocks s t) (h' : SameBlocks t u) : SameBlocks s u :=
  ⟨h'.head.trans h.head, h'.cnt.trans h.cnt, h'.freed.trans h.freed⟩

/-- The blocks marked before a collection and during it. -/
theorem collect_spec {marks : List Nat} : ∀ {s : ListGC} {marked : Nat → Bool}, s.Holds xs marked →
    (∀ m ∈ marks, m ∈ xs) →
    ∃ t, s.collect marks = some t ∧ t.Holds xs (fun a => marked a || decide (a ∈ marks)) ∧ SameBlocks s t := by
  induction marks with
  | nil =>
    intro s marked h _
    refine ⟨s, rfl, ?_, rfl, rfl, rfl⟩
    simpa using h
  | cons m marks ih =>
    intro s marked h hmarks
    obtain ⟨s₁, hmark, h₁, hsame₁⟩ := mark_spec h (hmarks m mem_cons_self)
    obtain ⟨t, hcollect, ht, hsame⟩ := ih h₁ fun a ha => hmarks a (mem_cons_of_mem m ha)
    refine ⟨t, ?_, ?_, hsame₁.trans hsame⟩
    · unfold collect at hcollect ⊢
      rw [foldlM_cons, hmark]
      exact hcollect
    · have htags : (fun a => update marked m true a || decide (a ∈ marks)) =
          fun a => marked a || decide (a ∈ m :: marks) := by
        funext a
        by_cases ha : a = m
        · simp [ha]
        · simp [ha]
      rwa [htags] at ht

/-! ## Sweep -/

/-- The loop of `runGC` after it has kept the blocks `kept`, when `rest` remains. -/
structure Sweeping (marked : Nat → Bool) (xs freed kept rest : List Nat)
    (state : ListGC × Option Nat × Option Nat) : Prop where
  list : IsList state.1.mem state.1.head
    ((kept.map fun a => (a, false)) ++ rest.map fun a => (a, marked a))
  q : state.2.1 = kept.getLast?
  p : state.2.2 = rest.head?
  cnt : state.1.cnt = kept.length + rest.length
  isSome : ∀ a, (state.1.mem a).isSome ↔ a ∈ kept ++ rest
  kept : kept ++ rest.filter marked = xs.filter marked
  freed : state.1.freed ++ rest.filter (fun a => !marked a) = freed ++ xs.filter fun a => !marked a

/-- A marked block is kept. -/
theorem Sweeping.keep {freed kept rest : List Nat} {b : Nat} {q p : Option Nat}
    (h : Sweeping marked xs freed kept (b :: rest) (s, q, p)) (hb : marked b = true) :
    ∃ state, sweepTurn (s, q, p) = .inl state ∧ Sweeping marked xs freed (kept ++ [b]) rest state := by
  have hlist := h.list
  rw [map_cons, hb] at hlist
  obtain ⟨next, hread⟩ := Seg.read_of_mem hlist (mem_append_right _ mem_cons_self)
  have hrest := (hlist.next_of_append hread).2
  have hnodup := hlist.nodup
  have hnot : b ∉ rest := by
    rw [map_append, map_cons, nodup_middle, nodup_cons] at hnodup
    intro hmem
    apply hnodup.1
    simp [hmem]
  have hp : p = some b := h.p
  have hmem : s.mem b = some (next, true) := hread
  refine ⟨({ s with mem := update s.mem b (some (next, false)) }, some b, next), ?_, ?_⟩
  · unfold sweepTurn
    simp only [hp, hmem]
  · have hsplice := hlist.splice hrest (by simpa using hnot) false
    refine ⟨?_, ?_, ?_, ?_, ?_, ?_, ?_⟩
    · rw [map_append, append_assoc]
      exact hsplice
    · simp
    · show next = rest.head?
      cases rest with
      | nil => exact hrest
      | cons c rest => exact hrest.1
    · have hcnt : s.cnt = kept.length + (b :: rest).length := h.cnt
      show s.cnt = (kept ++ [b]).length + rest.length
      rw [hcnt]
      simp only [length_append, length_cons, length_nil]
      omega
    · intro a
      show (update s.mem b (some (next, false)) a).isSome ↔ _
      by_cases ha : a = b
      · rw [ha, update_self]
        simp
      · rw [update_of_ne ha, h.isSome a]
        simp
    · have hkept := h.kept
      rw [filter_cons, if_pos hb] at hkept
      rw [← hkept, append_assoc]
      rfl
    · have hfreed := h.freed
      rw [filter_cons, if_neg (by simp [hb])] at hfreed
      exact hfreed

/-- A block without mark is freed. -/
theorem Sweeping.free {freed kept rest : List Nat} {b : Nat} {q p : Option Nat}
    (h : Sweeping marked xs freed kept (b :: rest) (s, q, p)) (hb : marked b = false) :
    ∃ state, sweepTurn (s, q, p) = .inl state ∧ Sweeping marked xs freed kept rest state := by
  have hlist := h.list
  rw [map_cons, hb] at hlist
  obtain ⟨next, hread⟩ := Seg.read_of_mem hlist (mem_append_right _ mem_cons_self)
  have hrest := (hlist.next_of_append hread).2
  have hnodup := hlist.nodup
  have hnot : b ∉ kept ++ rest := by
    rw [map_append, map_cons, nodup_middle, nodup_cons] at hnodup
    intro hmem
    apply hnodup.1
    rcases mem_append.mp hmem with hmem | hmem <;> simp [hmem]
  have hp : p = some b := h.p
  have hq : q = kept.getLast? := h.q
  -- the link in front of the block now leads behind it
  have hunlink : IsList (s.setLink q next).mem (s.setLink q next).head
      ((kept.map fun a => (a, false)) ++ rest.map fun a => (a, marked a)) ∧
      ∀ a, ((s.setLink q next).mem a).isSome ↔ a ∈ kept ++ b :: rest := by
    rcases eq_nil_or_concat kept with hnil | ⟨kept', c, hconcat⟩
    · subst hnil
      obtain rfl : q = none := hq
      exact ⟨hrest, h.isSome⟩
    · obtain rfl : kept = kept' ++ [c] := by rw [hconcat, concat_eq_append]
      obtain rfl : q = some c := by rw [hq, getLast?_concat]
      constructor
      · rw [map_append, append_assoc] at hlist ⊢
        exact hlist.unlink hread
      · intro a
        show (update s.mem c (some (next, false)) a).isSome ↔ _
        by_cases ha : a = c
        · rw [ha, update_self]
          simp
        · rw [update_of_ne ha]
          exact h.isSome a
  have hsame : (s.setLink q next).cnt = s.cnt ∧ (s.setLink q next).freed = s.freed := by
    unfold setLink
    cases q <;> exact ⟨rfl, rfl⟩
  have hmem : s.mem b = some (next, false) := hread
  refine ⟨({ (s.setLink q next).free b with cnt := ((s.setLink q next).free b).cnt - 1 }, q, next), ?_, ?_⟩
  · unfold sweepTurn
    simp only [hp, hmem]
  · refine ⟨?_, hq, ?_, ?_, ?_, ?_, ?_⟩
    · refine hunlink.1.update ?_ none
      simpa [comp_def] using hnot
    · show next = rest.head?
      cases rest with
      | nil => exact hrest
      | cons c rest => exact hrest.1
    · have hcnt : s.cnt = kept.length + (b :: rest).length := h.cnt
      show (s.setLink q next).cnt - 1 = kept.length + rest.length
      rw [hsame.1, hcnt, length_cons]
      omega
    · intro a
      show (update (s.setLink q next).mem b none a).isSome ↔ _
      by_cases ha : a = b
      · rw [ha, update_self]
        simpa using hnot
      · rw [update_of_ne ha, hunlink.2 a]
        simp [ha]
    · have hkept := h.kept
      rw [filter_cons, if_neg (by simp [hb])] at hkept
      exact hkept
    · have hfreed := h.freed
      rw [filter_cons, if_pos (by simp [hb])] at hfreed
      show (s.setLink q next).freed ++ [b] ++ _ = _
      rw [hsame.2, append_assoc]
      exact hfreed

/-- `runGC` keeps the marked blocks in their order, frees the others and clears the marks. -/
theorem runGC_spec (h : s.Holds xs marked) {marks : List Nat} (hmarks : ∀ m ∈ marks, m ∈ xs) :
    ∃ t, s.runGC marks = some t ∧ t.Lists (xs.filter fun a => marked a || decide (a ∈ marks)) ∧
      t.freed = s.freed ++ xs.filter fun a => !(marked a || decide (a ∈ marks)) := by
  obtain ⟨s₁, hcollect, h₁, hsame⟩ := collect_spec h hmarks
  generalize htag : (fun a => marked a || decide (a ∈ marks)) = tag at h₁ ⊢
  have hstart : Sweeping tag xs s.freed [] xs (s₁, none, s₁.head) := by
    refine ⟨h₁.list, rfl, ?_, ?_, h₁.isSome, rfl, ?_⟩
    · show s₁.head = xs.head?
      cases xs with
      | nil => exact h₁.list
      | cons a xs => exact h₁.list.1
    · rw [h₁.cnt]
      simp
    · rw [hsame.freed]
  obtain ⟨t, hrun, ht, hfreed⟩ := Loop.exists_run_of_list sweepTurn
    (fun rest state => ∃ kept, Sweeping tag xs s.freed kept rest state)
    (fun t => t.Lists (xs.filter tag) ∧ t.freed = s.freed ++ xs.filter fun a => !tag a)
    (fun b rest state ⟨kept, hstate⟩ => by
      obtain ⟨s₂, q, p⟩ := state
      left
      cases hb : tag b with
      | true =>
        obtain ⟨state', hturn, hstate'⟩ := hstate.keep hb
        exact ⟨state', hturn, _, hstate'⟩
      | false =>
        obtain ⟨state', hturn, hstate'⟩ := hstate.free hb
        exact ⟨state', hturn, _, hstate'⟩)
    (fun state ⟨kept, hstate⟩ => by
      obtain ⟨s₂, q, p⟩ := state
      obtain rfl : p = none := hstate.p
      have hkept : kept = xs.filter tag := by simpa using hstate.kept
      refine ⟨s₂, rfl, ⟨?_, ?_, ?_⟩, by simpa using hstate.freed⟩
      · simpa [hkept] using hstate.list
      · simpa [hkept] using hstate.cnt
      · simpa [hkept] using hstate.isSome)
    ⟨[], hstart⟩ (show xs.length < s₁.cnt.toNat + 1 by rw [h₁.cnt]; simp)
  refine ⟨{ t with lcnt := t.cnt }, ?_, ⟨ht.list, ht.cnt, ht.isSome⟩, ?_⟩
  · unfold runGC
    rw [hcollect, Option.bind_some, hrun]
    rfl
  · rw [hfreed, ← htag]

/-! ## The calls -/

/-- A block comes in front of the list. -/
theorem Lists.push (h : s.Lists xs) {b : Nat} (hb : s.mem b = none) :
    ({ s with mem := update s.mem b (some (s.head, false)), head := some b,
              cnt := s.cnt + 1 } : ListGC).Lists (b :: xs) := by
  have hnot : b ∉ xs := by
    rw [← h.isSome b, hb]
    simp
  refine ⟨?_, ?_, ?_⟩
  · exact h.list.push (by simpa using hnot) false
  · show s.cnt + 1 = _
    rw [h.cnt]
    simp
  · intro a
    show (update s.mem b (some (s.head, false)) a).isSome ↔ _
    by_cases ha : a = b
    · rw [ha, update_self]
      simp
    · rw [update_of_ne ha, h.isSome a, mem_cons, or_iff_right ha]

/-- The block that `allocate` adds triggers a collection. -/
def collects (s : ListGC) : Bool := !s.dis && decide (s.cnt + 1 - s.lcnt > s.lim)

/-- `allocate` adds the block in front, and a collection that it triggers keeps it. -/
theorem allocate_spec (h : s.Lists xs) {b : Nat} {marks : List Nat}
    (hcontract : s.Contract (.allocate b marks)) :
    ∃ t, s.allocate b marks = some t ∧
      if s.collects then
        t.Lists (b :: xs.filter fun a => decide (a ∈ marks)) ∧
          t.freed = s.freed ++ xs.filter fun a => !decide (a ∈ marks)
      else
        t.Lists (b :: xs) ∧ t.freed = s.freed := by
  obtain ⟨hb, hmarks⟩ := hcontract
  have hpush := h.push hb
  have hnot : b ∉ xs := by
    rw [← h.isSome b, hb]
    simp
  unfold allocate
  generalize hs₁ : ({ s with mem := update s.mem b (some (s.head, false)), head := some b,
                             cnt := s.cnt + 1 } : ListGC) = s₁ at hpush ⊢
  have hneeded : s₁.gcNeeded = s.collects := by
    rw [← hs₁]
    rfl
  have hfreed : s₁.freed = s.freed := by rw [← hs₁]
  cases hcollects : s.collects with
  | false =>
    refine ⟨s₁, ?_, ?_⟩
    · simp [hneeded, hcollects]
    · simp [hpush, hfreed]
  | true =>
    have hlim : ({ s₁ with lim := s₁.lim * 2 } : ListGC).Holds (b :: xs) fun _ => false :=
      ⟨hpush.list, hpush.cnt, hpush.isSome⟩
    obtain ⟨s₂, hmark, h₂, hsame⟩ := mark_spec hlim mem_cons_self
    have hmem : ∀ m ∈ marks, m ∈ b :: xs := by
      intro m hm
      rcases hmarks m hm with rfl | hm
      · exact mem_cons_self
      · exact mem_cons_of_mem b ((h.isSome m).mp hm)
    obtain ⟨t, hrun, ht, htfreed⟩ := runGC_spec h₂ hmem
    -- the new block is marked first
    have htag : ∀ a ∈ xs, (update (fun _ => false) b true a || decide (a ∈ marks)) =
        decide (a ∈ marks) := by
      intro a ha
      have hne : a ≠ b := by
        rintro rfl
        exact hnot ha
      rw [update_of_ne hne, Bool.false_or]
    refine ⟨t, ?_, ?_⟩
    · simp only [hneeded, hcollects, if_true, hmark, Option.bind_some]
      exact hrun
    · rw [filter_cons, if_pos (by simp), filter_congr htag] at ht
      rw [filter_cons, if_neg (by simp), filter_congr fun a ha => by rw [htag a ha]] at htfreed
      rw [if_pos rfl]
      refine ⟨ht, ?_⟩
      rw [htfreed, hsame.freed]
      exact congrArg (· ++ _) hfreed

/-- `clean` frees all the blocks. -/
theorem clean_spec (h : s.Lists xs) :
    ∃ t, s.clean = some t ∧ t.Lists [] ∧ t.freed = s.freed ++ xs := by
  have hstart : IsList (s, s.head).1.mem (s, s.head).2 (xs.map fun a => (a, false)) ∧
      (∀ a, ((s, s.head).1.mem a).isSome ↔ a ∈ xs) ∧ (s, s.head).1.freed ++ xs = s.freed ++ xs :=
    ⟨h.list, h.isSome, rfl⟩
  obtain ⟨t, hrun, hempty, hfreed⟩ := Loop.exists_run_of_list cleanTurn
    (fun rest state => IsList state.1.mem state.2 (rest.map fun a => (a, false)) ∧
      (∀ a, (state.1.mem a).isSome ↔ a ∈ rest) ∧ state.1.freed ++ rest = s.freed ++ xs)
    (fun t => (∀ a, (t.mem a).isSome ↔ a ∈ []) ∧ t.freed = s.freed ++ xs)
    (fun b rest state ⟨hlist, hsome, hfreed⟩ => by
      obtain ⟨t, p⟩ := state
      have hnodup := hlist.nodup
      obtain ⟨rfl, next, hread, hrest⟩ := hlist
      have hnot : b ∉ rest := by
        rw [map_cons, map_cons, nodup_cons] at hnodup
        simpa using hnodup.1
      have hmem : t.mem b = some (next, false) := hread
      refine Or.inl ⟨(t.free b, next), ?_, ?_, ?_, ?_⟩
      · unfold cleanTurn
        simp only [hmem]
      · exact hrest.update (by simpa using hnot) none
      · intro a
        show (update t.mem b none a).isSome ↔ _
        by_cases ha : a = b
        · rw [ha, update_self]
          simpa using hnot
        · rw [update_of_ne ha, hsome a, mem_cons, or_iff_right ha]
      · show t.freed ++ [b] ++ rest = _
        rw [append_assoc]
        exact hfreed)
    (fun state ⟨hlist, hsome, hfreed⟩ => by
      obtain ⟨t, p⟩ := state
      obtain rfl : p = none := hlist
      exact ⟨t, rfl, hsome, by simpa using hfreed⟩)
    hstart (show xs.length < s.cnt.toNat + 1 by rw [h.cnt]; simp)
  refine ⟨{ t with head := none, cnt := 0, lcnt := 0 }, ?_, ⟨rfl, rfl, hempty⟩, hfreed⟩
  unfold clean
  rw [hrun]
  rfl

/-- Each allocated block is live or has been freed, once for each allocation at its address. -/
def Accounted (allocated freed xs : List Nat) : Prop := allocated.Perm (freed ++ xs)

theorem Accounted.collect {allocated freed : List Nat} (h : Accounted allocated freed xs) (p : Nat → Bool) :
    Accounted allocated (freed ++ xs.filter fun a => !p a) (xs.filter p) := by
  unfold Accounted at h ⊢
  have hsplit : (xs.filter p ++ xs.filter fun a => !p a).Perm xs := filter_append_perm p xs
  rw [append_assoc]
  exact h.trans ((perm_append_comm.trans hsplit).symm.append_left freed)

theorem step_spec (h : s.Lists xs) {allocated : List Nat} (hacc : Accounted allocated s.freed xs) {op : Op}
    (hop : s.Contract op) :
    ∃ t ys, step s op = some t ∧ t.Lists ys ∧ Accounted (allocated ++ op.allocated.toList) t.freed ys := by
  have hsame : Accounted (allocated ++ []) s.freed xs := by
    rw [append_nil]
    exact hacc
  have hrun : ∀ (s : ListGC) (marks : List Nat), s.Lists xs → Accounted allocated s.freed xs →
      (∀ m ∈ marks, (s.mem m).isSome) →
      ∃ t ys, s.runGC marks = some t ∧ t.Lists ys ∧ Accounted (allocated ++ []) t.freed ys := by
    intro s marks h hacc hmarks
    obtain ⟨t, hrun, ht, hfreed⟩ := runGC_spec h fun m hm => (h.isSome m).mp (hmarks m hm)
    refine ⟨t, _, hrun, ht, ?_⟩
    rw [append_nil, hfreed]
    exact hacc.collect _
  cases op with
  | allocate b marks =>
    obtain ⟨t, halloc, ht⟩ := allocate_spec h hop
    -- the new block is live
    have hcons : ∀ {freed ys : List Nat}, Accounted allocated freed ys →
        Accounted (allocated ++ [b]) freed (b :: ys) := by
      intro freed ys hacc
      exact (Perm.append_right [b] hacc).trans
        ((append_assoc freed ys [b]).symm ▸ (perm_append_comm.append_left freed))
    cases hcollects : s.collects with
    | false =>
      rw [hcollects, if_neg (by decide)] at ht
      refine ⟨t, _, halloc, ht.1, ?_⟩
      rw [ht.2]
      exact hcons hacc
    | true =>
      rw [hcollects, if_pos rfl] at ht
      refine ⟨t, _, halloc, ht.1, ?_⟩
      rw [ht.2]
      exact hcons (hacc.collect _)
  | runGC marks => exact hrun s marks h hacc hop
  | disable => exact ⟨_, xs, rfl, ⟨h.list, h.cnt, h.isSome⟩, hsame⟩
  | enable marks =>
    have hdis : ({ s with dis := false } : ListGC).Lists xs := ⟨h.list, h.cnt, h.isSome⟩
    unfold step enable
    dsimp only
    split
    · exact hrun _ marks hdis hacc hop
    · exact ⟨_, xs, rfl, hdis, hsame⟩
  | clean =>
    obtain ⟨t, hclean, ht, hfreed⟩ := clean_spec h
    refine ⟨t, [], hclean, ht, ?_⟩
    rw [hfreed]
    show Accounted (allocated ++ []) _ _
    rw [append_nil]
    unfold Accounted
    rw [append_nil]
    exact hacc

/-- In every run, the blocks of the list have no mark, their number is `cnt`, and each block that was allocated
is in the list or was freed, once.  From there a collection keeps the blocks that it marks, in their order,
and frees the others, and `allocate` puts its block in front, whether it triggers a collection or not. -/
theorem listGC_run (limit : Int) (ops : List Op) (hops : Run.Meets Contract step (new limit) ops) :
    ∃ s xs, Run.exec step (new limit) ops = some s ∧ s.Lists xs ∧
      (ops.filterMap Op.allocated).Perm (s.freed ++ xs) ∧
      (∀ marks, (∀ m ∈ marks, m ∈ xs) → ∃ t, s.runGC marks = some t ∧
        t.Lists (xs.filter fun a => decide (a ∈ marks)) ∧
        t.freed = s.freed ++ xs.filter fun a => !decide (a ∈ marks)) ∧
      ∀ b marks, s.Contract (.allocate b marks) → ∃ t, s.allocate b marks = some t ∧
        if s.collects then
          t.Lists (b :: xs.filter fun a => decide (a ∈ marks)) ∧
            t.freed = s.freed ++ xs.filter fun a => !decide (a ∈ marks)
        else
          t.Lists (b :: xs) ∧ t.freed = s.freed := by
  have hrun : ∀ (ops : List Op) (s : ListGC) (xs allocated : List Nat), s.Lists xs →
      Accounted allocated s.freed xs → Run.Meets Contract step s ops →
      ∃ t ys, Run.exec step s ops = some t ∧ t.Lists ys ∧
        Accounted (allocated ++ ops.filterMap Op.allocated) t.freed ys := by
    intro ops
    induction ops with
    | nil =>
      intro s xs allocated h hacc _
      exact ⟨s, xs, rfl, h, by rw [filterMap_nil, append_nil]; exact hacc⟩
    | cons op ops ih =>
      intro s xs allocated h hacc hmeets
      obtain ⟨s₁, ys, hstep, h₁, hacc₁⟩ := step_spec h hacc hmeets.1
      obtain ⟨t, zs, hexec, ht, hacct⟩ := ih s₁ ys _ h₁ hacc₁ (hmeets.2 s₁ hstep)
      refine ⟨t, zs, Run.exec_cons_eq_some.mpr ⟨s₁, hstep, hexec⟩, ht, ?_⟩
      rw [append_assoc] at hacct
      cases hop : op.allocated with
      | none =>
        rw [hop] at hacct
        rw [filterMap_cons_none hop]
        exact hacct
      | some b =>
        rw [hop] at hacct
        rw [filterMap_cons_some hop]
        exact hacct
  obtain ⟨s, xs, hexec, h, hacc⟩ := hrun ops (new limit) [] [] (lists_new limit) Perm.nil hops
  refine ⟨s, xs, hexec, h, hacc, ?_, fun b marks hcontract => allocate_spec h hcontract⟩
  intro marks hmarks
  obtain ⟨t, hrunGC, ht, hfreed⟩ := runGC_spec h hmarks
  exact ⟨t, hrunGC, by simpa using ht, by simpa using hfreed⟩

/-- The second allocation triggers a collection that marks nothing: it keeps its own block. -/
theorem listGC_run_two :
    ∃ s, Run.exec step (new 1) [.allocate 8 [], .allocate 16 []] = some s ∧ s.freed = [8] ∧ s.Lists [16] := by
  obtain ⟨s, xs, hexec, hlists, hperm, -⟩ := listGC_run 1 [.allocate 8 [], .allocate 16 []] (by decide)
  have hfreed : (Run.exec step (new 1) [.allocate 8 [], .allocate 16 []]).map ListGC.freed = some [8] := by
    decide
  rw [hexec, Option.map_some, Option.some.injEq] at hfreed
  have hperm : [8, 16].Perm ([8] ++ xs) := hfreed ▸ hperm
  have hxs : [16] = xs := singleton_perm.mp ((perm_cons 8).mp hperm)
  exact ⟨s, hexec, hfreed, hxs.symm ▸ hlists⟩

end ListGC

end Elm.Alloc
