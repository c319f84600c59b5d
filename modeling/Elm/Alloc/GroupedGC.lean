import Elm.Alloc.SimpleGC

/-!
# `GroupedGC`

The garbage collector of `include/elm/alloc/GroupedGC.h` and `src/alloc_GroupedGC.cpp`.  Each chunk
has blocks of one size, a multiple of `sizeof(block_t)` that is the index of the chunk; it is filled
from its end, and its blocks enter the free list of its index when a collection finds it full and the
block unmarked.  A collection is delayed: `allocate` only records that it is needed.  A chunk is
known by the address of its buffer.  A failed assertion, a division by zero and an access out of a
table have no result.
-/

namespace Elm.Alloc

open Util Stree Function

/-- `chunk_t`: `size` bytes remain at the start of its buffer, and `init` is true until it is full. -/
structure GroupChunk where
  buffer : Nat
  size : Nat
  index : Nat
  init : Bool
  blockCount : Nat

/-- The size of the blocks of a chunk. -/
def GroupChunk.blockSize (c : GroupChunk) : Nat := sizeofBlock * c.index

/-- The address of a block of a chunk. -/
def GroupChunk.blockAt (c : GroupChunk) (i : Nat) : Nat := c.buffer + i * c.blockSize

/-- The chunk after an allocation that leaves `size` bytes. -/
def GroupChunk.taken (c : GroupChunk) (size : Nat) (init : Bool) : GroupChunk :=
  { c with size := size, init := init }

/-- `GroupedGC`: its tables are indexed by the class of a block, and `mem` is the field `next` of the
free blocks. -/
structure GroupedGC where
  csize : Nat
  chunks : List GroupChunk
  freeList : Nat → Option Nat
  chunkList : Nat → Option Nat
  chunkInit : Nat → Bool
  needGC : Bool
  mem : Nat → Option Nat

namespace GroupedGC

/-- The length of the tables. -/
def maxAllocatableIndex : Nat := 2048 * 4

/-- The constructor. -/
def new (size : Nat) (mem : Nat → Option Nat) : GroupedGC where
  csize := round size
  chunks := []
  freeList := fun _ => none
  chunkList := fun _ => none
  chunkInit := fun _ => true
  needGC := false
  mem := mem

/-- One chunk more, the current one of `index`.  What remains after its last block is given up. -/
def withChunk (s : GroupedGC) (index p : Nat) : GroupedGC :=
  { s with
    chunks :=
      { buffer := p
        size := s.csize - s.csize % (sizeofBlock * index)
        index := index
        init := true
        blockCount := s.csize / (sizeofBlock * index) } :: s.chunks
    chunkList := update s.chunkList index (some p) }

/-- `newChunk`, with the buffer at address `p`. -/
def newChunk (s : GroupedGC) (index p : Nat) : Option GroupedGC :=
  if s.chunkList index = none ∧ index ≠ 0 then some (s.withChunk index p) else none

/-- The chunk at address `p`. -/
def chunkAt (s : GroupedGC) (p : Nat) : Option GroupChunk :=
  s.chunks.find? fun c => decide (c.buffer = p)

/-- The chunk at address `p` keeps `size` bytes. -/
def setChunk (s : GroupedGC) (p size : Nat) (init : Bool) : List GroupChunk :=
  s.chunks.map fun c => if c.buffer = p then c.taken size init else c

/-- The free list of `index` without its first block. -/
def pop (s : GroupedGC) (index res : Nat) : GroupedGC :=
  { s with freeList := update s.freeList index (s.mem res) }

/-- `allocFromFreeList`. -/
def allocFromFreeList (s : GroupedGC) (size index : Nat) : Option (Option Nat × GroupedGC) :=
  if maxAllocatableIndex ≤ index then
    none
  else
    match s.freeList index with
    | some res => some (some res, s.pop index res)
    | none =>
      match s.chunkList index with
      | none => some (none, s)
      | some p =>
        match s.chunkAt p with
        | none => none
        | some currChunk =>
          let newSize := currChunk.size - size
          if !currChunk.init then
            none
          else if size ≤ newSize then
            some (some (p + newSize), { s with chunks := s.setChunk p newSize true })
          else if newSize = 0 then
            some
              (some (p + newSize),
                { s with
                  chunks := s.setChunk p newSize false
                  chunkList := update s.chunkList index none })
          else
            none

/-- The chunk that `allocate` adds when it finds no free block, at address `p`.  The first one of an
index asks for no collection. -/
def addChunk (s : GroupedGC) (index p : Nat) : Option GroupedGC :=
  if s.chunkInit index then
    { s with chunkInit := update s.chunkInit index false }.newChunk index p
  else
    (s.newChunk index p).map fun s => { s with needGC := true }

/-- `allocate`; new chunks would have their buffers at `p` and `q`. -/
def allocate (s : GroupedGC) (size p q : Nat) : Option (Nat × GroupedGC) :=
  if size < s.csize then
    let index := round size / sizeofBlock
    match s.allocFromFreeList (round size) index with
    | none => none
    | some (some res, s) => some (res, s)
    | some (none, s) =>
      match s.addChunk index p with
      | none => none
      | some s =>
        match s.allocFromFreeList (round size) index with
        | none => none
        | some (some res, s) => some (res, s)
        | some (none, s) =>
          match s.newChunk index q with
          | none => none
          | some s =>
            match s.allocFromFreeList (round size) index with
            | some (some res, s) => some (res, s)
            | _ => none
  else
    none

/-! ## Collections -/

/-- `beginGC`. -/
def beginGC (s : GroupedGC) : Option Collection :=
  let builder := SegmentBuilder.ofSegments compare none
    (s.chunks.map fun c => ((c.buffer, c.buffer + s.csize), some c.buffer))
  let bits := s.chunks.foldlM
    (fun (bits : Nat → BitVector) c =>
      (BitVector.new (s.csize / (sizeofBlock * c.index)) false).map fun b =>
        update bits c.buffer b)
    fun _ => BitVector.empty
  match builder.make compare ⟨null, []⟩, bits with
  | some st, some bits => some ⟨bits, st⟩
  | _, _ => none

/-- `mark`, where the size of the block is not used. -/
def mark (s : GroupedGC) (coll : Collection) (data _size : Nat) : Option (Bool × Collection) :=
  match Tree.getRef compare coll.st data with
  | some (some p) =>
    match s.chunkAt p with
    | none => none
    | some gcc =>
      let i := (data - p) / (sizeofBlock * gcc.index)
      match (coll.bits p).bit i with
      | none => none
      | some true => some (true, coll)
      | some false =>
        ((coll.bits p).set i).map fun bits =>
          (false, { coll with bits := update coll.bits p bits })
  | _ => none

/-- The calls of `collect`, in which the client marks the blocks `marks` (addresses and sizes). -/
def collect (s : GroupedGC) (coll : Collection) (marks : List (Nat × Nat)) : Option Collection :=
  marks.foldlM (fun coll b => (s.mark coll b.1 b.2).map Prod.snd) coll

/-- The block `a` is put in front of the free list of `index`. -/
def push (s : GroupedGC) (index a : Nat) : GroupedGC :=
  { s with
    mem := update s.mem a (s.freeList index)
    freeList := update s.freeList index (some a) }

/-- The body of the loop of `endGC` over the blocks of the chunk `c`. -/
def sweepBlock (coll : Collection) (c : GroupChunk) (s : GroupedGC) (i : Nat) : Option GroupedGC :=
  ((coll.bits c.buffer).bit i).map fun marked =>
    if marked then s else s.push c.index (c.buffer + i * (sizeofBlock * c.index))

/-- The body of the loop of `endGC` over the chunks: a chunk that is not full is skipped. -/
def sweepChunk (coll : Collection) (s : GroupedGC) (c : GroupChunk) : Option GroupedGC :=
  if c.init then some s else (List.range c.blockCount).foldlM (sweepBlock coll c) s

/-- `endGC`. -/
def endGC (s : GroupedGC) (coll : Collection) : Option GroupedGC :=
  s.chunks.foldlM (sweepChunk coll) { s with freeList := fun _ => none }

/-- `doGC`, during which the client marks `marks`. -/
def doGC (s : GroupedGC) (marks : List (Nat × Nat)) : Option GroupedGC :=
  if s.needGC then
    let s := { s with needGC := false }
    match s.beginGC with
    | none => none
    | some coll =>
      match s.collect coll marks with
      | none => none
      | some coll => s.endGC coll
  else
    some s

/-- The client writes the first word of a block, or another word of it. -/
def write (s : GroupedGC) (a : Nat) (v : Option Nat) : GroupedGC :=
  { s with mem := update s.mem a v }

/-- The memory of the free lists. -/
def read (s : GroupedGC) : Chain.Read Nat Unit := fun a => some (s.mem a, ())

end GroupedGC

end Elm.Alloc
