import Elm.Lib.Chain
import Elm.Lib.Loop
import Elm.Stree.SegmentLookup
import Elm.Util.BitVectorIter

/-!
# `SimpleGC`

The garbage collector of `include/elm/alloc/SimpleGC.h` and `src/alloc_SimpleGC.cpp`.  A chunk is
known by the address of its buffer, which is a sequence of cells of `sizeof(block_t)` bytes; a free
block keeps in its first cell the next free block and its size.  The address of a new chunk is chosen
by the system and the blocks marked during a collection by the client.  A failed assertion has no
result.
-/

namespace Elm.Alloc

open Util Stree Function

/-- `sizeof(block_t)`. -/
def sizeofBlock : Nat := 16

/-- `SimpleGC::round`: the mask `~(sizeof(block_t) - 1)` clears the remainder. -/
def round (size : Nat) : Nat := (size + sizeofBlock - 1) / sizeofBlock * sizeofBlock

/-- `SimpleGC`: its members `csize`, `chunks` and `free_list`, and the cells of its buffers. -/
structure SimpleGC where
  csize : Nat
  chunks : List Nat
  freeList : Option Nat
  mem : Nat → Option Nat × Nat

/-- What lives during a collection only: `bits` of each chunk, and `st`. -/
structure Collection where
  bits : Nat → BitVector
  st : Tree Nat (Option Nat)

namespace SimpleGC

/-- The constructor. -/
def new (size : Nat) (mem : Nat → Option Nat × Nat) : SimpleGC := ⟨round size, [], none, mem⟩

/-- `newChunk`, with the buffer at address `c`. -/
def newChunk (s : SimpleGC) (c : Nat) : SimpleGC :=
  { s with
    chunks := c :: s.chunks
    mem := update s.mem c (s.freeList, s.csize)
    freeList := some c }

/-- The number of cells of a chunk. -/
def cells (s : SimpleGC) : Nat := s.csize / sizeofBlock

/-- `*prev = p`, where `prev` points to `free_list` or to the field `next` of a block. -/
def setPrev (s : SimpleGC) (prev p : Option Nat) : SimpleGC :=
  match prev with
  | none => { s with freeList := p }
  | some b => { s with mem := update s.mem b (p, (s.mem b).2) }

/-- One turn of the loop of `allocFromFreeList`, on the variables `block` and `prev`. -/
def allocTurn (s : SimpleGC) (size : Nat) (state : Option Nat × Option Nat) :
    (Option Nat × Option Nat) ⊕ (Option Nat × SimpleGC) :=
  match state.1 with
  | none => .inr (none, s)
  | some block =>
    let cell := s.mem block
    if size ≤ cell.2 then
      let res := block + cell.2 - size
      let t := { s with mem := update s.mem block (cell.1, cell.2 - size) }
      .inr (some res, if cell.2 - size = 0 then t.setPrev state.2 cell.1 else t)
    else
      .inl (cell.1, some block)

/-- `allocFromFreeList`; there are at most as many free blocks as cells. -/
def allocFromFreeList (s : SimpleGC) (size : Nat) : Option (Option Nat × SimpleGC) :=
  Loop.run (allocTurn s size) (s.chunks.length * s.cells + 1) (s.freeList, none)

/-! ## Collections -/

/-- `beginGC`. -/
def beginGC (s : SimpleGC) : Option Collection :=
  let builder := SegmentBuilder.ofSegments compare none
    (s.chunks.map fun c => ((c, c + s.csize), some c))
  let bits := s.chunks.foldlM
    (fun bits c => (BitVector.new s.cells false).map fun b => update bits c b)
    fun _ => BitVector.empty
  match builder.make compare ⟨null, []⟩, bits with
  | some st, some bits => some ⟨bits, st⟩
  | _, _ => none

/-- The loop of `mark` over `k` cells from cell `i`. -/
def markCells : Nat → Nat → Bool → BitVector → Option (Bool × BitVector)
  | 0, _, res, bits => some (res, bits)
  | k + 1, i, res, bits =>
    match bits.bit i with
    | none => none
    | some true => markCells k (i + 1) res bits
    | some false => (bits.set i).bind fun bits => markCells k (i + 1) false bits

/-- `mark`. -/
def mark (coll : Collection) (data size : Nat) : Option (Bool × Collection) :=
  match Tree.getRef compare coll.st data with
  | some (some gcc) =>
    let p := (data - gcc) / sizeofBlock
    let n := (size + sizeofBlock - 1) / sizeofBlock
    (markCells n p true (coll.bits gcc)).map fun res =>
      (res.1, { coll with bits := update coll.bits gcc res.2 })
  | _ => none

/-- The calls of `collect`, in which the client marks the blocks `marks` (addresses and sizes). -/
def collect (coll : Collection) (marks : List (Nat × Nat)) : Option Collection :=
  marks.foldlM (fun coll b => (mark coll b.1 b.2).map Prod.snd) coll

/-- One turn of the loop of `endGC` over the cells of the chunk `c`. -/
def sweepTurn (bits : BitVector) (cs c : Nat) (state : SimpleGC × Nat) :
    (SimpleGC × Nat) ⊕ SimpleGC :=
  let s := state.1
  if state.2 < cs then
    let b := bits.seek true state.2
    if b < cs then
      let i := bits.seek false (b + 1)
      let blk := c + b * sizeofBlock
      .inl
        ({ s with
           mem := update s.mem blk (s.freeList, (i - b) * sizeofBlock)
           freeList := some blk }, i)
    else
      .inl (s, b)
  else
    .inr s

/-- The body of the loop of `endGC` over the chunks. -/
def sweepChunk (coll : Collection) (s : SimpleGC) (c : Nat) : Option SimpleGC :=
  Loop.run (sweepTurn (coll.bits c) s.cells c) (s.cells + 1) (s, 0)

/-- `endGC`. -/
def endGC (s : SimpleGC) (coll : Collection) : Option SimpleGC :=
  s.chunks.foldlM (sweepChunk coll) { s with freeList := none }

/-- `doGC`. -/
def doGC (s : SimpleGC) (marks : List (Nat × Nat)) : Option SimpleGC :=
  match s.beginGC with
  | none => none
  | some coll =>
    match collect coll marks with
    | none => none
    | some coll => s.endGC coll

/-- `allocate`; a collection would mark `marks`, and a new chunk would have its buffer at `c`. -/
def allocate (s : SimpleGC) (size : Nat) (marks : List (Nat × Nat)) (c : Nat) :
    Option (Option Nat × SimpleGC) :=
  if size < s.csize then
    match s.allocFromFreeList (round size) with
    | none => none
    | some (some res, s) => some (some res, s)
    | some (none, s) =>
      match s.doGC marks with
      | none => none
      | some s =>
        match s.allocFromFreeList (round size) with
        | none => none
        | some (some res, s) => some (some res, s)
        | some (none, s) => (s.newChunk c).allocFromFreeList (round size)
  else
    none

/-- The client writes a cell. -/
def write (s : SimpleGC) (a : Nat) (cell : Option Nat × Nat) : SimpleGC :=
  { s with mem := update s.mem a cell }

/-- The memory of the free list. -/
def read (s : SimpleGC) : Chain.Read Nat Nat := fun a => some (s.mem a)

end SimpleGC

end Elm.Alloc
