import Elm.Alloc.StackAllocatorRun
import Elm.Lib.Chain
import Elm.Lib.Memory

/-!
# `BlockAllocator`

The block allocator of `include/elm/alloc/BlockAllocator.h`, the raw one of its comment, which carves
its blocks from a stack allocator and links the freed ones.  The memory has bytes, as a link may go
over the end of a block that is smaller than a pointer.  The client may write the bytes of its live
blocks, and the rest of the program those outside the chunks.

The chunks have the size of `block_per_chunk` times the *smallest* of the sizes of an element and of a
link.  An element smaller than a link has no room for it; an element larger than the chunk is refused
by an assertion of the stack allocator.
-/

namespace Elm.Alloc

open Runs

/-- `sizeof(block_t)`. -/
def sizeofBlockT : Nat := 8

/-- `BlockAllocator`, with the memory of its blocks. -/
structure RawBlockAllocator where
  alloc : StackAllocator
  list : Nat
  mem : Nat → UInt8

namespace RawBlockAllocator

/-- The argument of the constructor of `alloc`. -/
def chunkSize (sizeofT : Nat) (blockPerChunk : Int) : Nat :=
  ((min sizeofT sizeofBlockT : Nat) * blockPerChunk % 2 ^ 64).toNat

/-- The constructor. -/
def new (sizeofT : Nat) (blockPerChunk : Int) (mem : Nat → UInt8) : Option RawBlockAllocator :=
  (StackAllocator.new (chunkSize sizeofT blockPerChunk)).map fun alloc => ⟨alloc, 0, mem⟩

/-- `p->next`. -/
def next (mem : Nat → UInt8) (p : Nat) : Nat := Memory.load mem p sizeofBlockT

/-- `allocate`; a new chunk would be at `c`. -/
def allocate (s : RawBlockAllocator) (sizeofT c : Nat) : Option (Nat × RawBlockAllocator) :=
  if s.list ≠ 0 then
    some (s.list, { s with list := next s.mem s.list })
  else
    (s.alloc.allocate sizeofT c).map fun r => (r.1, { s with alloc := r.2 })

/-- `free`. -/
def free (s : RawBlockAllocator) (p : Nat) : RawBlockAllocator :=
  { s with mem := Memory.store s.mem p sizeofBlockT s.list, list := p }

/-! ## Runs -/

/-- The calls of the client, and the bytes that are written. -/
inductive Op where
  | allocate (c : Nat)
  | free (p : Nat)
  | write (a : Nat) (v : UInt8)

/-- A call, and the blocks that are live after it. -/
def step (sizeofT : Nat) (st : RawBlockAllocator × List Nat) :
    Op → Option (RawBlockAllocator × List Nat)
  | .allocate c => (st.1.allocate sizeofT c).map fun r => (r.2, r.1 :: st.2)
  | .free p => some (st.1.free p, st.2.erase p)
  | .write a v => some ({ st.1 with mem := Function.update st.1.mem a v }, st.2)

/-- What the client and the system ensure: a new chunk is in the memory, after its pointer, and apart
from the others; a freed block is live; the bytes written are in no block that is not live. -/
def Contract (sizeofT : Nat) (st : RawBlockAllocator × List Nat) : Op → Prop
  | .allocate c => sizeofChunk ≤ c ∧ c + st.1.alloc.size ≤ 2 ^ 64 ∧
      ∀ d ∈ st.1.alloc.chunks, st.1.alloc.Spaced c d
  | .free p => p ∈ st.2
  | .write a _ => (∃ p ∈ st.2, p ≤ a ∧ a < p + sizeofT) ∨
      ∀ c ∈ st.1.alloc.chunks, ¬ (c ≤ a ∧ a < c + st.1.alloc.size)

/-- The bytes that a block needs: those of the element, or of the link of a freed block. -/
def extent (sizeofT : Nat) : Nat := max sizeofT sizeofBlockT

/-- The live blocks lie in the chunks and do not overlap, with room for an element and for a link. -/
structure Safe (sizeofT : Nat) (s : RawBlockAllocator) (live : List Nat) : Prop where
  owned : ∀ p ∈ live, s.alloc.Owned (p, extent sizeofT)
  apart : live.Pairwise fun p q => Apart p (extent sizeofT) q (extent sizeofT)

end RawBlockAllocator

end Elm.Alloc
