import Elm.Lib.Loop
import Elm.Lib.Runs

/-!
# `StackAllocator`

The stack allocator of `include/elm/alloc/StackAllocator.h` and `src/alloc_StackAllocator.cpp`.  A
chunk is known by the address of its buffer, which follows the pointer to the next chunk.  The address
of a new chunk is chosen by the system.  A failed assertion has no result.

`release` sets the top of the stack only: the limit stays the one of the chunk that was current before,
and a mark at the end of a full chunk is in none.
-/

namespace Elm.Alloc

open Runs

/-- The size of `next` before the buffer of a chunk. -/
def sizeofChunk : Nat := 8

/-- `StackAllocator`: the chunks from `cur` on, `max`, `top` and `_size`. -/
structure StackAllocator where
  chunks : List Nat
  max : Nat
  top : Nat
  size : Nat
  deriving DecidableEq

namespace StackAllocator

/-- The constructor. -/
def new (size : Nat) : Option StackAllocator :=
  if size ≠ 0 then some ⟨[], 0, 0, size⟩ else none

/-- `newChunk`, with the buffer at address `c`. -/
def newChunk (s : StackAllocator) (c : Nat) : StackAllocator :=
  { s with chunks := c :: s.chunks, top := c, max := c + s.size }

/-- `size_t(max - top)`. -/
def room (s : StackAllocator) : Nat :=
  if s.top ≤ s.max then s.max - s.top else 2 ^ 64 - (s.top - s.max)

/-- One call of `allocate`; when the chunk is filled, `chunkFilled` adds the chunk at `c` and calls
`allocate` again. -/
def allocateTurn (size c : Nat) (s : StackAllocator) :
    StackAllocator ⊕ Option (Nat × StackAllocator) :=
  if size ≤ s.size then
    if s.chunks = [] ∨ s.room < size then .inl (s.newChunk c)
    else .inr (some (s.top, { s with top := s.top + size }))
  else
    .inr none

/-- `allocate`, which adds at most one chunk. -/
def allocate (s : StackAllocator) (size c : Nat) : Option (Nat × StackAllocator) :=
  (Loop.run (allocateTurn size c) 2 s).join

/-- `clear`. -/
def clear (s : StackAllocator) : StackAllocator := { s with chunks := [] }

/-- `mark`. -/
def mark (s : StackAllocator) : Nat := s.top

/-- `mark >= cur->buffer && mark < cur->buffer + _size`. -/
def Inside (s : StackAllocator) (mark c : Nat) : Prop := c ≤ mark ∧ mark < c + s.size

instance (s : StackAllocator) (mark c : Nat) : Decidable (s.Inside mark c) :=
  inferInstanceAs (Decidable (_ ∧ _))

/-- The loop of `release`, which frees the chunks from `cur` on; `none` is the final assertion. -/
def releaseFrom (s : StackAllocator) (mark : Nat) : List Nat → Option StackAllocator
  | [] => none
  | c :: cs =>
    if s.Inside mark c then some { s with chunks := c :: cs, top := mark }
    else releaseFrom s mark cs

/-- `release`. -/
def release (s : StackAllocator) (mark : Nat) : Option StackAllocator :=
  s.releaseFrom mark s.chunks

/-! ## Runs -/

/-- The calls of the client. -/
inductive Op
  /-- `allocate`; a new chunk would be at `c`. -/
  | allocate (size c : Nat)
  | mark
  /-- `release` on the mark that comes after the `k` newest ones. -/
  | release (k : Nat)
  | clear

/-- What the client has: the live blocks (addresses and sizes), and the marks that it can still release
with the blocks that were live when they were taken, the newest first. -/
structure Client where
  live : List (Nat × Nat)
  marks : List (Nat × List (Nat × Nat))

/-- A call; a release keeps the blocks allocated before the mark. -/
def step (st : StackAllocator × Client) : Op → Option (StackAllocator × Client)
  | .allocate size c =>
    (st.1.allocate size c).map fun r => (r.2, { st.2 with live := (r.1, size) :: st.2.live })
  | .mark => some (st.1, { st.2 with marks := (st.1.mark, st.2.live) :: st.2.marks })
  | .release k =>
    match st.2.marks.drop k with
    | [] => none
    | (m, live) :: marks => (st.1.release m).map fun s => (s, ⟨live, (m, live) :: marks⟩)
  | .clear => some (st.1.clear, ⟨[], []⟩)

/-- The chunk `c`, with its pointer, is apart from the chunk `d`. -/
def Spaced (s : StackAllocator) (c d : Nat) : Prop :=
  c + s.size + sizeofChunk ≤ d ∨ d + s.size + sizeofChunk ≤ c

/-- What the client and the system ensure: a block is at most as large as a chunk, a new chunk is apart
from the others, and a release is on a mark that is left. -/
def Contract (st : StackAllocator × Client) : Op → Prop
  | .allocate size c => size ≤ st.1.size ∧ ∀ d ∈ st.1.chunks, st.1.Spaced c d
  | .mark => True
  | .release k => k < st.2.marks.length
  | .clear => True

/-- The call does not meet the defects: the limit does not let a block go over the end of the current
chunk, and the mark is before the end of one of the chunks. -/
def Sound (st : StackAllocator × Client) : Op → Prop
  | .allocate size _ =>
    ∀ c ∈ st.1.chunks.head?, st.1.room < size ∨ st.1.top + size ≤ c + st.1.size
  | .mark => True
  | .release k => ∀ m ∈ st.2.marks[k]?, ∃ c ∈ st.1.chunks, st.1.Inside m.1 c
  | .clear => True

/-- A block lies in a chunk that is owned. -/
def Owned (s : StackAllocator) (b : Nat × Nat) : Prop :=
  ∃ c ∈ s.chunks, c ≤ b.1 ∧ b.1 + b.2 ≤ c + s.size

/-- The live blocks lie in the owned chunks and do not overlap. -/
structure Safe (s : StackAllocator) (client : Client) : Prop where
  owned : ∀ b ∈ client.live, s.Owned b
  apart : client.live.Pairwise fun b b' => Apart b.1 b.2 b'.1 b'.2

end StackAllocator

end Elm.Alloc
