import Elm.Io.BufferedOutStream
import Elm.Io.InStream
import Elm.Lib.IntType

/-!
# `io::StreamPipe`

The copy of a stream to another one, of `src/io_StreamPipe.cpp`.  The loop is left for the code `ENDED`, which only
the reading of one byte has: at the end of the input, blocks without bytes are written until a read or a write fails.
-/

namespace Elm.Io

/-- What `lastErrorMessage` is about. -/
inductive PipeState
  | OK
  | IN_ERROR
  | OUT_ERROR
  deriving DecidableEq

/-- `StreamPipe`, of which the buffer only matters by its size. -/
structure StreamPipe (α : Type) where
  input : InStream α
  out : OutStream α
  state : PipeState
  bufs : Nat

namespace StreamPipe

variable {α : Type}

/-- A turn of the loop of `proceed`, with the variable `size`.  The overflow of `size` has no result. -/
def turn (s : StreamPipe α × Int) : (StreamPipe α × Int) ⊕ Option (StreamPipe α × Int) :=
  let (p, size) := s
  let (input, buf, inr) := p.input.read p.bufs
  if inr = FAILED then .inr (some ({ p with input, state := .IN_ERROR }, -1))
  else if inr = Swallow.ENDED then .inr (some ({ p with input }, size))
  else
    let (out, outr) := p.out.write buf
    if outr < 0 then .inr (some ({ p with input, out, state := .OUT_ERROR }, -1))
    else match IntType.int.checked (size + outr) with
      | some size => .inl ({ p with input, out }, size)
      | none => .inr none

/-- `proceed`: the pipe and the result. -/
def proceed (fuel : Nat) (p : StreamPipe α) : Option (StreamPipe α × Int) := (Loop.run turn fuel (p, 0)).join

/-- The failing side is recorded. -/
def Recorded (p : StreamPipe α) : Prop :=
  p.state = .IN_ERROR ∧ p.input.answers (p.input.calls - 1) = .fail ∨
    p.state = .OUT_ERROR ∧ p.out.answers (p.out.calls - 1) = .fail

/-- What a call to `proceed` has to leave. -/
def Copied (p p' : StreamPipe α) (res : Int) : Prop :=
  (p'.out.data = p.out.data ++ p.input.rest ∧ res = p.input.rest.length) ∨ (res < 0 ∧ p'.Recorded)

/-- The call ends, and everything was copied or it says which side failed. -/
def Pipes (p : StreamPipe α) : Prop := ∃ fuel p' res, proceed fuel p = some (p', res) ∧ Copied p p' res

/-! ## Turns -/

/-- The next block of the input. -/
def block (p : StreamPipe α) : List α := (p.input.read p.bufs).2.1

/-- The pipe after one more block. -/
def moved (p : StreamPipe α) : StreamPipe α :=
  { p with input := (p.input.read p.bufs).1, out := (p.out.write p.block).1 }

/-- The number of elements that the sink takes of the first `k` blocks. -/
def taken : Nat → StreamPipe α → Nat
  | 0, _ => 0
  | k + 1, p => p.out.next.taken p.block.length + taken k p.moved

/-- The reading or the writing of the block `k` fails. -/
def FailsAt (p : StreamPipe α) (k : Nat) : Prop :=
  p.input.answers (p.input.calls + k) = .fail ∨ p.out.answers (p.out.calls + k) = .fail

variable {p : StreamPipe α}

theorem failsAt_moved {k : Nat} : p.moved.FailsAt k ↔ p.FailsAt (k + 1) := by
  have hinput : p.moved.input.answers = p.input.answers ∧ p.moved.input.calls = p.input.calls + 1 := by
    unfold moved InStream.read
    cases p.input.answers p.input.calls <;> exact ⟨rfl, rfl⟩
  have hout : p.moved.out.answers = p.out.answers ∧ p.moved.out.calls = p.out.calls + 1 := ⟨rfl, rfl⟩
  rw [FailsAt, FailsAt, hinput.1, hinput.2, hout.1, hout.2, Nat.add_assoc, Nat.add_comm 1, Nat.add_assoc,
    Nat.add_comm 1]

/-- A block that is read has the length that `read` returns. -/
theorem read_eq (hread : p.input.answers p.input.calls ≠ .fail) :
    p.input.read p.bufs = (p.moved.input, p.block, (p.block.length : Int)) := by
  unfold moved block InStream.read
  cases hanswer : p.input.answers p.input.calls with
  | bytes count => rfl
  | fail => exact absurd hanswer hread

theorem turn_in_error (size : Int) (hread : p.input.answers p.input.calls = .fail) :
    turn (p, size) = .inr (some ({ p with input := p.moved.input, state := .IN_ERROR }, -1)) := by
  have heq : p.input.read p.bufs = (p.moved.input, [], FAILED) := by
    unfold moved InStream.read
    rw [hread]
    rfl
  unfold turn
  simp only [heq]
  rfl

theorem turn_out_error (size : Int) (hread : p.input.answers p.input.calls ≠ .fail) (hwrite : p.out.next = .fail) :
    turn (p, size) = .inr (some ({ p.moved with state := .OUT_ERROR }, -1)) := by
  have hlen : (p.block.length : Int) ≠ FAILED ∧ (p.block.length : Int) ≠ Swallow.ENDED := by
    unfold FAILED Swallow.ENDED
    omega
  unfold turn
  simp only [read_eq hread, if_neg hlen.1, if_neg hlen.2, OutStream.write, hwrite, Answer.result]
  rw [if_pos neg_one_lt_zero, moved, OutStream.write, hwrite]

/-- A turn that nothing stops. -/
theorem turn_moved (size : Int) (hread : p.input.answers p.input.calls ≠ .fail) (hwrite : p.out.next ≠ .fail) :
    turn (p, size) = match IntType.int.checked (size + p.out.next.taken p.block.length) with
      | some size => .inl (p.moved, size)
      | none => .inr none := by
  have hlen : (p.block.length : Int) ≠ FAILED ∧ (p.block.length : Int) ≠ Swallow.ENDED := by
    unfold FAILED Swallow.ENDED
    omega
  have hres : p.out.next.result p.block.length = (p.out.next.taken p.block.length : Nat) := by
    cases hnext : p.out.next with
    | whole => rfl
    | part count => exact (Nat.cast_min count p.block.length).symm
    | fail => exact absurd hnext hwrite
  have hnonneg : ¬ ((p.out.next.taken p.block.length : Nat) : Int) < 0 := by omega
  unfold turn
  simp only [read_eq hread, if_neg hlen.1, if_neg hlen.2, OutStream.write, hres, if_neg hnonneg]
  rfl

/-! ## The runs -/

/-- The call leaves something good, or a negative result and the failing side. -/
def Leaves (good : StreamPipe α → Int → Prop) (r : Option (StreamPipe α × Int)) : Prop :=
  ∃ p' res, r = some (p', res) ∧ (good p' res ∨ (res < 0 ∧ p'.Recorded))

/-- An error of the first turn is recorded. -/
theorem exists_turn_of_failsAt (size : Int) (h : p.FailsAt 0) :
    ∃ p', turn (p, size) = .inr (some (p', -1)) ∧ p'.Recorded := by
  by_cases hread : p.input.answers p.input.calls = .fail
  · refine ⟨_, turn_in_error size hread, Or.inl ⟨rfl, ?_⟩⟩
    unfold moved InStream.read
    rw [hread]
    exact hread
  · have hwrite : p.out.next = .fail := h.resolve_left hread
    exact ⟨_, turn_out_error size hread hwrite, Or.inr ⟨rfl, hwrite⟩⟩

/-- A loop ends well exactly if a call fails before the size has overflowed. -/
theorem ends_iff {size : Int} {good : StreamPipe α → Int → Prop} (hsize : 0 ≤ size) (hlt : size < 2 ^ 31) :
    Loop.Ends turn (Leaves good) (p, size) ↔ ∃ k, p.FailsAt k ∧ size + taken k p < 2 ^ 31 := by
  constructor
  · rintro ⟨fuel, r, hrun, hleaves⟩
    induction fuel generalizing p size with
    | zero => cases hrun
    | succ fuel ih =>
      by_cases hfails : p.FailsAt 0
      · refine ⟨0, hfails, ?_⟩
        rw [taken, Nat.cast_zero, add_zero]
        exact hlt
      · obtain ⟨hread, hwrite⟩ := not_or.mp hfails
        have hturn := turn_moved size hread hwrite
        by_cases hint : size + p.out.next.taken p.block.length < 2 ^ 31
        · rw [IntType.checked_int (by omega) hint] at hturn
          rw [Loop.run_succ_inl hturn] at hrun
          obtain ⟨k, hk, htaken⟩ := ih (by omega) hint hrun
          refine ⟨k + 1, failsAt_moved.mp hk, ?_⟩
          rw [taken, Nat.cast_add, ← add_assoc]
          exact htaken
        · -- the overflow of the size has no result
          have hnone : IntType.int.checked (size + p.out.next.taken p.block.length) = none := by
            refine if_neg fun hhas => hint ?_
            have hhigh := hhas.2
            rw [IntType.low_int, IntType.span_int] at hhigh
            omega
          rw [hnone] at hturn
          rw [Loop.run_succ_inr hturn] at hrun
          obtain rfl := Option.some.inj hrun
          obtain ⟨p', res, hres, -⟩ := hleaves
          cases hres
  · rintro ⟨k, hk, htaken⟩
    induction k generalizing p size with
    | zero =>
      obtain ⟨p', hturn, hrecorded⟩ := exists_turn_of_failsAt size hk
      exact (Loop.ends_inr hturn).mpr ⟨p', -1, rfl, Or.inr ⟨neg_one_lt_zero, hrecorded⟩⟩
    | succ k ih =>
      by_cases hfails : p.FailsAt 0
      · obtain ⟨p', hturn, hrecorded⟩ := exists_turn_of_failsAt size hfails
        exact (Loop.ends_inr hturn).mpr ⟨p', -1, rfl, Or.inr ⟨neg_one_lt_zero, hrecorded⟩⟩
      · obtain ⟨hread, hwrite⟩ := not_or.mp hfails
        have hturn := turn_moved size hread hwrite
        rw [taken, Nat.cast_add, ← add_assoc] at htaken
        rw [IntType.checked_int (by omega) (by omega)] at hturn
        exact (Loop.ends_inl hturn).mpr (ih (by omega) (by omega) (failsAt_moved.mpr hk) htaken)

theorem pipes_iff_leaves : p.Pipes ↔ Loop.Ends turn
    (Leaves fun p' res => p'.out.data = p.out.data ++ p.input.rest ∧ res = p.input.rest.length) (p, 0) := by
  constructor
  · rintro ⟨fuel, p', res, hrun, hcopied⟩
    exact ⟨fuel, some (p', res), Option.join_eq_some_iff.mp hrun, p', res, rfl, hcopied⟩
  · rintro ⟨fuel, r, hrun, p', res, rfl, hcopied⟩
    exact ⟨fuel, p', res, by rw [proceed, hrun]; rfl, hcopied⟩

/-- The copy of a memory block to a sink that never fails has no end. -/
theorem proceed_block (s : BlockInStream α) (out : OutStream α) (bufs : Nat) (hout : ∀ n, out.answers n ≠ .fail)
    (fuel : Nat) : proceed fuel ⟨s.toInStream 0, out, .OK, bufs⟩ = none := by
  cases hrun : proceed fuel ⟨s.toInStream 0, out, .OK, bufs⟩ with
  | none => rfl
  | some result =>
    have hends : Loop.Ends turn (Leaves fun _ _ => True) (⟨s.toInStream 0, out, .OK, bufs⟩, 0) :=
      ⟨fuel, some result, Option.join_eq_some_iff.mp hrun, result.1, result.2, rfl, Or.inl trivial⟩
    obtain ⟨k, hfails, -⟩ := (ends_iff le_rfl (by norm_num)).mp hends
    rcases hfails with hread | hwrite
    · cases hread
    · exact absurd hwrite (hout _)

/-- The copy is right exactly if a reading or a writing fails, before the sink has taken too many elements to be
counted. -/
theorem pipes_iff (p : StreamPipe α) : p.Pipes ↔ ∃ k, p.FailsAt k ∧ taken k p < 2 ^ 31 := by
  rw [pipes_iff_leaves, ends_iff le_rfl (by norm_num)]
  refine exists_congr fun k => and_congr_right fun _ => ?_
  rw [zero_add]
  exact_mod_cast Iff.rfl

/-- A block of one byte, which is copied, and then nothing for ever. -/
theorem not_pipes : ¬ Pipes ⟨(BlockInStream.new [(97 : UInt8)]).toInStream 0, ⟨[], 0, fun _ => .whole⟩, .OK, 4⟩ := by
  rintro ⟨fuel, p', res, hrun, -⟩
  rw [proceed_block _ _ _ fun _ => Answer.noConfusion] at hrun
  cases hrun

end StreamPipe

end Elm.Io
