import Elm.Data.LinkedListRun

/-!
# `ListQueue`

The queue of `include/elm/data/ListQueue.h`: a list of nodes with pointers to its first and to its last node.  The
nodes are in a memory, where to use a node that has been freed gives no result.  `reset` frees the nodes and keeps
both pointers, so that in every run the queue is first in, first out, if and only if it is empty at each `reset`.
-/

namespace Elm.Data.ListQueue

open Chain Function List Option
open LinkedList (Memory SLList)

variable {T : Type}

/-- `ListQueue`: its members `h` and `t`, and the memory. -/
structure Queue (T : Type) where
  mem : Memory T
  h : Option Nat
  t : Option Nat

namespace Queue

/-- `ListQueue()`. -/
def new : Queue T := ⟨.start, none, none⟩

/-- `isEmpty`. -/
def isEmpty (q : Queue T) : Bool := q.h.isNone

/-- `head`: there is no result when the assertion fails. -/
def head (q : Queue T) : Option T := q.h.bind q.mem.val

/-- `get`. -/
def get (q : Queue T) : Option (T × Queue T) := do
  let n ← q.h
  let r ← q.mem.val n
  let h ← q.mem.nxt n
  let t := if h = none then none else q.t
  some (r, ⟨← q.mem.free n, h, t⟩)

/-- `contains`. -/
def contains (equals : T → T → Bool) (q : Queue T) (val : T) : Option Bool :=
  walk q.mem.nodes (fun _ _ v => if equals v val then .inr true else .inl ()) (fun _ => false) q.mem.next q.h ()

/-- `put`: the new node is behind the last one, or it is the first one. -/
def put (q : Queue T) (item : T) : Option (Queue T) :=
  let n := q.mem.next
  match q.h with
  | none => some ⟨q.mem.new item, some n, some n⟩
  | some h => do some ⟨← (q.mem.new item).setNxt (← q.t) n, some h, some n⟩

/-- The loop of `reset`. -/
def resetLoop : Nat → Memory T → Option Nat → Option (Memory T)
  | _, m, none => some m
  | 0, _, some _ => none
  | fuel + 1, m, some n => do
    let nn ← m.nxt n
    resetLoop fuel (← m.free n) nn

/-- `reset`.  The pointers stay as they are. -/
def reset (q : Queue T) : Option (Queue T) := (resetLoop q.mem.next q.mem q.h).map fun mem => { q with mem }

end Queue

/-! ## The program -/

/-- A call. -/
inductive Op (T : Type)
  | put (item : T)
  | get
  | contains (val : T)
  | reset

/-- What a call returns. -/
inductive Answer (T : Type)
  | none
  | item (x : T)
  | found (b : Bool)
  deriving DecidableEq

def call (equals : T → T → Bool) (q : Queue T) : Op T → Option (Answer T × Queue T)
  | .put item => (q.put item).map fun q => (.none, q)
  | .get => q.get.map fun (x, q) => (.item x, q)
  | .contains val => (q.contains equals val).map fun b => (.found b, q)
  | .reset => q.reset.map fun q => (.none, q)

/-- The same call on the elements in the order in which they were put. -/
def callFifo (equals : T → T → Bool) (fifo : List T) : Op T → Option (Answer T × List T)
  | .put item => some (.none, fifo ++ [item])
  | .get =>
    match fifo with
    | [] => none
    | x :: xs => some (.item x, xs)
  | .contains val => some (.found (fifo.any fun x => equals x val), fifo)
  | .reset => some (.none, [])

/-- The queue and the elements put since the last reset and not yet got, with what the calls have returned on both
sides. -/
structure State (T : Type) where
  queue : Queue T
  fifo : List T
  answers : List (Answer T)
  expected : List (Answer T)

def State.init : State T := ⟨.new, [], [], []⟩

def step (equals : T → T → Bool) (s : State T) (op : Op T) : Option (State T) :=
  (call equals s.queue op).bind fun (answer, queue) => (callFifo equals s.fifo op).map fun (expect, fifo) =>
    ⟨queue, fifo, s.answers ++ [answer], s.expected ++ [expect]⟩

/-- The queue has answered as the list, and its observers do now. -/
structure Agrees (equals : T → T → Bool) (s : State T) : Prop where
  answers : s.answers = s.expected
  isEmpty : s.queue.isEmpty = s.fifo.isEmpty
  head : s.queue.head = s.fifo.head?
  contains : ∀ val, s.queue.contains equals val = some (s.fifo.any fun x => equals x val)

/-- `get` is not called on an empty queue, as it asserts. -/
def Asserted (s : State T) : Op T → Prop
  | .get => s.fifo ≠ []
  | _ => True

/-- `reset` is called on an empty queue. -/
def Allowed (s : State T) : Op T → Prop
  | .reset => s.fifo = []
  | _ => True

instance (s : State T) : (op : Op T) → Decidable (Allowed s op)
  | .put _ => inferInstanceAs (Decidable True)
  | .get => inferInstanceAs (Decidable True)
  | .contains _ => inferInstanceAs (Decidable True)
  | .reset => decidable_of_iff (s.fifo.isEmpty = true) List.isEmpty_iff

/-! ## The nodes of the queue -/

variable {equals : T → T → Bool} {q q' : Queue T} {cells : List (Nat × T)} {a : Nat} {v : T}

/-- The nodes of the queue, and its last one. -/
structure Queue.Holds (q : Queue T) (cells : List (Nat × T)) : Prop where
  nodes : SLList.Holds ⟨q.mem, q.h⟩ cells
  last : q.t = cells.getLast?.map Prod.fst

theorem holds_new : (Queue.new : Queue T).Holds [] := ⟨⟨rfl, fun _ _ => rfl⟩, rfl⟩

theorem contains_eq (h : q.Holds cells) (val : T) :
    q.contains equals val = some ((cells.map Prod.snd).any fun x => equals x val) := by
  have hwalk : Queue.contains equals q val = some (visit _ _ cells ()) :=
    h.nodes.list.walk_eq _ _ h.nodes.length_le ()
  rw [hwalk]
  clear hwalk h
  induction cells with
  | nil => rfl
  | cons c cells ih =>
    obtain ⟨a, v⟩ := c
    simp only [visit, map_cons, any_cons]
    cases equals v val with
    | true => rfl
    | false => simpa using ih

/-- The queue without its first node. -/
theorem get_spec (h : q.Holds ((a, v) :: cells)) : ∃ q', q.get = some (v, q') ∧ q'.Holds cells := by
  obtain ⟨hhead, p, hread, hrest⟩ := h.nodes.list
  have hnot := (nodup_cons.mp h.nodes.list.nodup).1
  obtain ⟨m, hfree, hholds, -⟩ := LinkedList.free_spec (s := ⟨q.mem, p⟩) ⟨hrest, h.nodes.fresh⟩ hread hnot
  have hread' : q.mem.nodes a = some (p, v) := hread
  refine ⟨⟨m, p, if p = none then none else q.t⟩, ?_, hholds, ?_⟩
  · simp only [Queue.get, show q.h = some a from hhead, Memory.val, Memory.nxt, hread', hfree, map_some,
      bind_eq_bind, bind_some]
  -- `t` is null again after the last node
  · cases cells with
    | nil =>
      obtain rfl : p = none := hrest
      rfl
    | cons c cells =>
      obtain ⟨b, w⟩ := c
      have hp : p ≠ none := by
        rw [hrest.1]
        exact some_ne_none b
      show (if p = none then none else q.t) = _
      rw [if_neg hp, h.last, getLast?_cons_cons]

/-- A new last node. -/
theorem put_spec (h : q.Holds cells) (item : T) :
    ∃ q', q.put item = some q' ∧ q'.Holds (cells ++ [(q.mem.next, item)]) := by
  have hnot := h.nodes.next_not_mem
  have hfresh : ∀ b, q.mem.next + 1 ≤ b → (q.mem.new item).nodes b = none := by
    intro b hb
    exact (update_of_ne (by omega) _ _).trans (h.nodes.fresh b (by show q.mem.next ≤ b; omega))
  rcases eq_nil_or_concat cells with rfl | ⟨xs, ⟨b, w⟩, rfl⟩
  · have hnil : q.h = none := h.nodes.list
    refine ⟨⟨q.mem.new item, some q.mem.next, some q.mem.next⟩, ?_, ⟨?_, hfresh⟩, rfl⟩
    · simp only [Queue.put, hnil]
    · exact ⟨rfl, none, update_self .., rfl⟩
  · rw [concat_eq_append] at h hnot ⊢
    -- the last node gets a successor
    obtain ⟨p, hread, hp⟩ := h.nodes.read
    obtain rfl : p = none := hp
    have hlt : b < q.mem.next := h.nodes.lt_of_read hread
    have hlast : q.t = some b := by rw [h.last, getLast?_concat]; rfl
    obtain ⟨c, hc⟩ : ∃ c, q.h = some c := by
      have hfst : q.h = ((xs ++ [(b, w)]).map Prod.fst).head? := h.nodes.fst_eq
      cases xs with
      | nil => exact ⟨b, hfst⟩
      | cons x xs => exact ⟨x.1, hfst⟩
    have hreadb : (q.mem.new item).nodes b = some (none, w) := (update_of_ne hlt.ne _ _).trans hread
    have hnew : IsList (q.mem.new item).nodes (some q.mem.next) [(q.mem.next, item)] :=
      ⟨rfl, none, update_self .., rfl⟩
    have hlist : IsList (q.mem.new item).nodes q.h (xs ++ [(b, w)]) := h.nodes.list.update hnot _
    refine ⟨⟨⟨update (q.mem.new item).nodes b (some (some q.mem.next, w)), q.mem.next + 1⟩, some c,
      some q.mem.next⟩, ?_, ⟨?_, fun d hd => ?_⟩, ?_⟩
    · simp only [Queue.put, hc, hlast, Memory.setNxt, hreadb, map_some, bind_eq_bind, bind_some]
      rfl
    · have hsplice := hlist.splice hnew (by simpa using hlt.ne) w
      rw [hc] at hsplice
      simpa using hsplice
    · change q.mem.next + 1 ≤ d at hd
      exact (update_of_ne (by omega) _ _).trans (hfresh d hd)
    · simp

theorem reset_nil (h : q.Holds []) : q.reset = some q := by
  obtain ⟨mem, first, last⟩ := q
  obtain rfl : first = none := h.nodes.list
  have hloop : Queue.resetLoop mem.next mem none = some mem := by cases mem.next <;> rfl
  simp only [Queue.reset, hloop, map_some]

/-! ## Runs -/

variable {s s' : State T}

/-- The invariant: the nodes hold the elements of the list, and the answers were the same. -/
def Inv (s : State T) : Prop :=
  s.answers = s.expected ∧ ∃ cells, s.queue.Holds cells ∧ cells.map Prod.snd = s.fifo

theorem Inv.agrees (h : Inv s) : Agrees equals s := by
  obtain ⟨queue, fifo, answers, expected⟩ := s
  obtain ⟨hanswers, cells, hq, hfifo⟩ := h
  simp only at hanswers hq hfifo
  refine ⟨hanswers, ?_, ?_, ?_⟩
  · show queue.h.isNone = fifo.isEmpty
    rw [← hfifo, show queue.h = (cells.map Prod.fst).head? from hq.nodes.fst_eq]
    cases cells <;> rfl
  · show queue.h.bind queue.mem.val = fifo.head?
    rw [← hfifo]
    cases cells with
    | nil => rw [show queue.h = none from hq.nodes.list]; rfl
    | cons c cells =>
      have hval : queue.mem.val c.1 = some c.2 := hq.nodes.val_head
      rw [show queue.h = some c.1 from hq.nodes.list.1, bind_some, hval]
      rfl
  · intro val
    rw [← hfifo]
    exact contains_eq hq val

/-- A call with the same answer on both sides. -/
theorem Inv.step (h : s.answers = s.expected) {op : Op T} {answer : Answer T} {fifo : List T}
    (hcall : call equals s.queue op = some (answer, q)) (hfifo : callFifo equals s.fifo op = some (answer, fifo))
    (hq : q.Holds cells) (hcells : cells.map Prod.snd = fifo) : ∃ s', step equals s op = some s' ∧ Inv s' := by
  refine ⟨⟨q, fifo, s.answers ++ [answer], s.expected ++ [answer]⟩, ?_, congrArg (· ++ [answer]) h, cells, hq, hcells⟩
  simp only [ListQueue.step, hcall, hfifo, map_some, bind_some]

/-- An allowed call keeps the invariant. -/
theorem step_inv (h : Inv s) {op : Op T} (hop : Asserted s op) (hallowed : Allowed s op) :
    ∃ s', step equals s op = some s' ∧ Inv s' := by
  obtain ⟨hanswers, cells, hq, hfifo⟩ := h
  cases op with
  | put item =>
    obtain ⟨q', hput, hq'⟩ := put_spec hq item
    refine Inv.step hanswers ?_ rfl hq' ?_
    · simp only [call, hput, map_some]
    · rw [map_append, hfifo]
      rfl
  | get =>
    cases cells with
    | nil => exact absurd hfifo.symm hop
    | cons c cells =>
      obtain ⟨q', hget, hq'⟩ := get_spec hq
      have hcall : call equals s.queue .get = some (.item c.2, q') := by simp only [call, hget, map_some]
      refine Inv.step hanswers hcall ?_ hq' rfl
      rw [← hfifo]
      rfl
  | contains val =>
    refine Inv.step hanswers ?_ rfl hq hfifo
    simp only [call, contains_eq hq, hfifo, map_some]
  | reset =>
    -- the queue has no nodes
    obtain rfl : cells = [] := List.map_eq_nil_iff.mp (hfifo.trans hallowed)
    refine Inv.step hanswers ?_ rfl hq rfl
    simp only [call, reset_nil hq, map_some]

/-- After a `reset` of a queue with elements, the pointer to its first node is not null. -/
theorem not_agrees_reset (h : Inv s) (hne : s.fifo ≠ []) (hstep : step equals s .reset = some s') :
    ¬ Agrees equals s' := by
  obtain ⟨-, cells, hq, hfifo⟩ := h
  obtain ⟨⟨answer, queue⟩, hcall, hrest⟩ := bind_eq_some_iff.mp hstep
  obtain ⟨q, hreset, heq⟩ := map_eq_some_iff.mp hcall
  obtain ⟨mem, -, rfl⟩ := map_eq_some_iff.mp hreset
  obtain ⟨rfl, rfl⟩ := Prod.mk.inj heq
  obtain rfl := some.inj hrest
  intro hagrees
  have hempty : s.queue.h.isNone = true := hagrees.isEmpty
  rw [show s.queue.h = (cells.map Prod.fst).head? from hq.nodes.fst_eq] at hempty
  cases cells with
  | nil => exact hne hfifo.symm
  | cons c cells => cases hempty

/-- In a run where `get` is not called on an empty queue, the queue is first in, first out and empty after each
`reset`, if and only if it is empty before. -/
theorem listQueue_run_iff (equals : T → T → Bool) (ops : List (Op T))
    (hops : Run.Meets Asserted (step equals) State.init ops) :
    Run.Meets Allowed (step equals) State.init ops ↔
      ∀ k, ∃ s, Run.exec (step equals) State.init (ops.take k) = some s ∧ Agrees equals s := by
  refine Run.meets_iff_forall_exists_exec Inv (Agrees equals) (fun _ h => h.agrees) (fun s op h hop hallowed => ?_) ?_
    ops State.init ⟨rfl, [], holds_new, rfl⟩ hops
  · exact step_inv h hop hallowed
  · intro s op s' h _ hnot hstep
    cases op with
    | put item => exact absurd trivial hnot
    | get => exact absurd trivial hnot
    | contains val => exact absurd trivial hnot
    | reset => exact not_agrees_reset h hnot hstep

/-- The queue is emptied by `get`, reset, and used again. -/
def calls : List (Op Nat) := [.put 1, .put 2, .get, .contains 2, .get, .reset, .put 3, .contains 3]

theorem asserted_calls : Run.Meets Asserted (step fun x y => x == y) State.init calls := by
  refine ⟨trivial, ?_⟩
  rintro _ ⟨⟩
  refine ⟨trivial, ?_⟩
  rintro _ ⟨⟩
  refine ⟨cons_ne_nil _ _, ?_⟩
  rintro _ ⟨⟩
  refine ⟨trivial, ?_⟩
  rintro _ ⟨⟩
  refine ⟨cons_ne_nil _ _, ?_⟩
  rintro _ ⟨⟩
  exact Run.meets_of_mem (by simp [Asserted]) _

theorem listQueue_run_iff_calls :
    Run.Meets Allowed (step fun x y => x == y) State.init calls ↔
      ∀ k, ∃ s, Run.exec (step fun x y => x == y) State.init (calls.take k) = some s ∧
        Agrees (fun x y => x == y) s :=
  listQueue_run_iff _ calls asserted_calls

/-- A queue with an element is not empty after it has been reset. -/
theorem not_listQueue_run : ¬ ∀ ops : List (Op Nat), Run.Meets Asserted (step fun x y => x == y) State.init ops →
    ∀ k, ∃ s, Run.exec (step fun x y => x == y) State.init (ops.take k) = some s ∧ Agrees (fun x y => x == y) s := by
  intro hall
  obtain ⟨s, hexec, hagrees⟩ := hall [.put 1, .reset] (Run.meets_of_mem (by simp [Asserted]) _) 2
  obtain rfl := some.inj hexec
  exact absurd hagrees.isEmpty (by decide)

end Elm.Data.ListQueue
