import Elm.Io.BufferedInStream
import Elm.Io.Swallow
import Elm.Lib.IntType

/-!
# `InStream` and `BlockInStream`

The reading of one byte of `src/io_InStream.cpp`, for any stream: it has codes of its own for the end of the stream
and for an error.  The stream of a memory block, of `src/io_BlockInStream.cpp`, is one of these streams: a reading
gives no byte at the end of the block.
-/

namespace Elm.Io

open Swallow List

/-- `InStream::FAILED`. -/
def FAILED : Int := -1

namespace InStream

/-- `read()`. -/
def readByte (s : InStream UInt8) : Int × InStream UInt8 :=
  let (s, buf, size) := s.read 1
  if size = 1 then (code (buf.headD 0), s)
  else if size = 0 then (ENDED, s)
  else (FAILED, s)

/-- No byte is read: the stream fails or is at its end. -/
def Stops (s : InStream UInt8) : Prop := s.rest = [] ∨ s.answers s.calls = .fail

variable {text : List UInt8} {calls : Nat} {answers : Nat → Chunk}

theorem readByte_cons (byte : UInt8) (h : answers calls ≠ .fail) :
    readByte ⟨byte :: text, calls, answers⟩ = (code byte, ⟨text, calls + 1, answers⟩) := by
  rw [readByte, read]
  cases hanswer : answers calls with
  | bytes count =>
    have hone : min (max count 1) 1 = 1 := min_eq_right (le_max_right _ _)
    simp only [hanswer, hone]
    rfl
  | fail => exact absurd hanswer h

theorem readByte_stop {s : InStream UInt8} (h : s.Stops) :
    s.readByte = (if s.answers s.calls = .fail then FAILED else ENDED, { s with calls := s.calls + 1 }) := by
  rw [readByte, read]
  cases hanswer : s.answers s.calls with
  | bytes count =>
    have hrest : s.rest = [] := h.resolve_right (by rw [hanswer]; exact Chunk.noConfusion)
    simp only [hrest, take_nil, drop_nil]
    rfl
  | fail =>
    simp only
    rfl

end InStream

/-! ## Memory blocks -/

/-- `BlockInStream`. -/
structure BlockInStream (α : Type) where
  block : List α
  off : Nat
  off_le : off ≤ block.length

namespace BlockInStream

variable {α : Type}

/-- The constructor. -/
def new (block : List α) : BlockInStream α := ⟨block, 0, Nat.zero_le _⟩

/-- `read(void *buffer, int size)`: the stream, the bytes and the result. -/
def read (s : BlockInStream α) (size : Nat) : Option (BlockInStream α × List α × Int) :=
  (IntType.int.checked ((s.off : Int) + size)).map fun (stop : Int) =>
    let size := if stop > s.block.length then s.block.length - s.off else size
    let chunk := (s.block.drop s.off).take size
    (⟨s.block, s.off + chunk.length, by
      have hle := s.off_le
      rw [length_take, length_drop]
      omega⟩, chunk, size)

/-- The stream of the block, before the call of number `calls`. -/
def toInStream (s : BlockInStream α) (calls : Nat) : InStream α :=
  ⟨s.block.drop s.off, calls, fun _ => .bytes s.block.length⟩

/-- The reading of a memory block is the reading of its stream. -/
theorem read_toInStream (s : BlockInStream α) {size : Nat} (calls : Nat) (hint : s.off + size < 2 ^ 31) :
    ∃ s' chunk res, s.read size = some (s', chunk, res) ∧
      (s.toInStream calls).read size = (s'.toInStream (calls + 1), chunk, res) := by
  have hle := s.off_le
  rw [read, IntType.checked_int (by omega) (by omega), Option.map_some]
  refine ⟨_, _, _, rfl, ?_⟩
  simp only [toInStream, InStream.read, Prod.mk.injEq, InStream.mk.injEq, and_true]
  by_cases hover : (s.off : Int) + size > s.block.length
  · -- the rest of the block is read
    have hrest : (s.block.drop s.off).length ≤ min (max s.block.length 1) size := by
      rw [length_drop]
      omega
    have hlen : (s.block.drop s.off).length = s.block.length - s.off := length_drop
    rw [if_pos hover, take_of_length_le hrest, take_of_length_le hlen.le, drop_eq_nil_of_le hrest,
      drop_eq_nil_of_le (by omega), hlen]
    exact ⟨rfl, rfl, rfl⟩
  · have hmin : min (max s.block.length 1) size = size := by omega
    have hlen : ((s.block.drop s.off).take size).length = size := by
      rw [length_take, length_drop]
      omega
    rw [if_neg hover, hmin, hlen, drop_drop]
    exact ⟨rfl, rfl, rfl⟩

end BlockInStream

end Elm.Io
