import Elm.Lib.Chain
import Elm.Lib.Loop
import Elm.Util.BitVectorIter

/-!
# `AbstractBlockAllocatorWithGC`

The block allocator of `include/elm/alloc/BlockAllocatorWithGC.h` and
`src/alloc_BlockAllocatorWithGC.cpp`.  Addresses are numbers and the memory keeps the pointer stored
in the first word of each block; the address of a new chunk is chosen by the system and the blocks
marked during a collection by the client.  A failed assertion or a division by zero has no result.
-/

namespace Elm.Alloc

open Util

/-- `sizeof(free_t)`. -/
def sizeofFree : Nat := 8

/-- `AbstractBlockAllocatorWithGC`, with the memory of its blocks. -/
structure BlockAllocator where
  freeList : Option Nat
  freeCnt : Int
  sync : Bool
  need : Bool
  chunks : List Nat
  top : Nat
  bsize : Nat
  csize : Nat
  mem : Nat → Option Nat
  chunks_ne_nil : chunks ≠ []

namespace BlockAllocator

/-- `chunks.top()`. -/
def chunkTop (s : BlockAllocator) : Nat := s.chunks.getLast s.chunks_ne_nil

/-- The number of blocks of a chunk, `csize / bsize`. -/
def perChunk (s : BlockAllocator) : Nat := s.csize / s.bsize

/-- The constructor, the first chunk being at address `chunk` of the memory `mem`. -/
def new (blockSize chunkSize chunk : Nat) (mem : Nat → Option Nat) : Option BlockAllocator :=
  if blockSize < chunkSize then
    some
      { freeList := none
        freeCnt := 0
        sync := false
        need := false
        chunks := [chunk]
        top := chunk
        bsize := max blockSize sizeofFree
        csize := chunkSize
        mem := mem
        chunks_ne_nil := by simp }
  else
    none

/-- `totalCount`. -/
def totalCount (s : BlockAllocator) : Nat :=
  s.perChunk * (s.chunks.length - 1) + (s.top - s.chunkTop) / s.bsize

/-- The search of `mark` for the chunk of a block, and the number of the block. -/
def blockIndex (s : BlockAllocator) (ptr : Nat) : Option Nat :=
  (s.chunks.findIdx? fun c => c ≤ ptr && ptr < c + s.csize).map fun chunk =>
    (ptr - s.chunks.getD chunk 0) / s.bsize + chunk * s.perChunk

/-- `mark`, on the bit vector `coll` of the collection. -/
def mark (s : BlockAllocator) (coll : BitVector) (ptr : Nat) : Option (Bool × BitVector) :=
  match s.blockIndex ptr with
  | none => none
  | some n =>
    match coll.bit n with
    | none => none
    | some true => some (false, coll)
    | some false => (coll.set n).map fun coll => (true, coll)

/-- The call of `collect`, in which the client marks the blocks `marks`. -/
def collect (s : BlockAllocator) (coll : BitVector) (marks : List Nat) : Option BitVector :=
  marks.foldlM (fun coll ptr => (s.mark coll ptr).map Prod.snd) coll

/-- The body of the loop over the unmarked blocks. -/
def sweepBlock (s : BlockAllocator) (n : Nat) : Option BlockAllocator :=
  if s.perChunk = 0 then
    none
  else
    let chunk := n / s.perChunk
    (s.chunks[chunk]?).map fun base =>
      let nfree := base + (n - chunk * s.perChunk) * s.bsize
      { s with
        mem := Function.update s.mem nfree s.freeList
        freeList := some nfree
        freeCnt := s.freeCnt + 1 }

/-- `collectGarbage`. -/
def collectGarbage (s : BlockAllocator) (marks : List Nat) : Option BlockAllocator :=
  match BitVector.new s.totalCount false with
  | none => none
  | some coll =>
    match s.collect coll marks with
    | none => none
    | some coll =>
      (coll.zeroes.foldlM sweepBlock { s with freeCnt := 0 }).map fun s =>
        { s with need := false }

/-- A block taken from the free list at `r`. -/
def popFree (s : BlockAllocator) (r : Nat) : Nat × BlockAllocator :=
  (r, { s with freeList := s.mem r, freeCnt := s.freeCnt - 1 })

/-- A block taken from a new chunk at address `chunk`. -/
def newChunk (s : BlockAllocator) (chunk : Nat) : Nat × BlockAllocator :=
  (chunk,
    { s with
      chunks := s.chunks ++ [chunk]
      top := chunk + s.bsize
      chunks_ne_nil := by simp })

/-- The allocation needs a collection: no free block, and no place in the last chunk. -/
def full (s : BlockAllocator) : Bool :=
  s.freeList.isNone && !(s.top + s.bsize ≤ s.chunkTop + s.csize)

/-- `allocate`; a new chunk would be at address `chunk`, and a collection would mark `marks`. -/
def allocate (s : BlockAllocator) (chunk : Nat) (marks : List Nat) :
    Option (Nat × BlockAllocator) :=
  match s.freeList with
  | some r => some (s.popFree r)
  | none =>
    if s.top + s.bsize ≤ s.chunkTop + s.csize then
      some (s.top, { s with top := s.top + s.bsize })
    else if s.sync then
      some ({ s with need := true }.newChunk chunk)
    else
      (s.collectGarbage marks).map fun s =>
        match s.freeList with
        | some r => s.popFree r
        | none => s.newChunk chunk

/-- `setSync` and `setAsync`. -/
def setSync (s : BlockAllocator) (sync : Bool) : BlockAllocator := { s with sync := sync }

/-- The client writes the first word of a block. -/
def write (s : BlockAllocator) (a : Nat) (v : Option Nat) : BlockAllocator :=
  { s with mem := Function.update s.mem a v }

/-- The memory of the free list. -/
def read (s : BlockAllocator) : Chain.Read Nat Unit := fun a => some (s.mem a, ())

end BlockAllocator

end Elm.Alloc
