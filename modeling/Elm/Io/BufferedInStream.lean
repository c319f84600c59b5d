import Elm.Data.Vector

/-!
# `io::BufferedInStream`

The stream of `src/io_BufferedInStream.cpp`, over a stream that gives its bytes in chunks of any sizes and may fail.
The buffer is the list of its first `top` bytes.  An `int` overflow has no result.
-/

namespace Elm.Io

open List

/-- The answer of the underlying stream to a call of `read`. -/
inductive Chunk
  /-- So many bytes, if they are asked for and there are as many; one byte at least. -/
  | bytes (count : Nat)
  | fail
  deriving DecidableEq

/-- An underlying stream: the bytes it has to give, the number of calls and the answers to all the calls. -/
structure InStream (α : Type) where
  rest : List α
  calls : Nat
  answers : Nat → Chunk

namespace InStream

variable {α : Type}

/-- `read`: the stream, the bytes and the result. -/
def read (input : InStream α) (size : Nat) : InStream α × List α × Int :=
  match input.answers input.calls with
  | .bytes count =>
    let count := min (max count 1) size
    let chunk := input.rest.take count
    ({ input with rest := input.rest.drop count, calls := input.calls + 1 }, chunk, chunk.length)
  | .fail => ({ input with calls := input.calls + 1 }, [], -1)

end InStream

/-- `BufferedInStream`. -/
structure BufferedInStream (α : Type) where
  input : InStream α
  bufSize : Nat
  buf : List α
  pos : Nat

namespace BufferedInStream

variable {α : Type}

/-- The constructor. -/
def new (input : InStream α) (size : Nat) : BufferedInStream α := ⟨input, size, [], 0⟩

/-- The end of the bytes of the buffer. -/
def top (s : BufferedInStream α) : Nat := s.buf.length

/-- `refill`. -/
def refill (s : BufferedInStream α) : BufferedInStream α × Int :=
  let (input, chunk, size) := s.input.read s.bufSize
  if size > 0 then ({ s with input, buf := chunk, pos := 0 }, size) else ({ s with input }, size)

/-- The transfer of `read`, from a buffer that has bytes. -/
def transfer (s : BufferedInStream α) (size : Nat) : Option (BufferedInStream α × List α × Int) := do
  let last ← Data.int (s.pos + size)
  let size := if last > s.top then s.top - s.pos else size
  return ({ s with pos := s.pos + size }, (s.buf.drop s.pos).take size, size)

/-- `read` of a buffer: the stream, the bytes and the result. -/
def readBuffer (s : BufferedInStream α) (size : Nat) : Option (BufferedInStream α × List α × Int) :=
  if s.pos ≥ s.top then
    let (s, nsize) := s.refill
    if nsize ≤ 0 then some (s, [], nsize) else s.transfer size
  else
    s.transfer size

/-- What `read` returns. -/
inductive Byte (α : Type)
  | byte (x : α)
  | ended
  | failed

/-- The end of `read`, from a buffer that has bytes. -/
def readOne (s : BufferedInStream α) : Option (BufferedInStream α × Byte α) :=
  (s.buf[s.pos]?).map fun x => ({ s with pos := s.pos + 1 }, .byte x)

/-- `read` of a byte. -/
def read (s : BufferedInStream α) : Option (BufferedInStream α × Byte α) :=
  if s.pos ≥ s.top then
    let (s, nsize) := s.refill
    if nsize ≤ 0 then some (s, if nsize = 0 then .ended else .failed) else s.readOne
  else
    s.readOne

/-! ## Runs -/

inductive Op
  | read
  | readBuffer (size : Nat)

/-- The stream, the bytes returned so far, and whether the end has been reported by the last call. -/
structure Reading (α : Type) where
  stream : BufferedInStream α
  returned : List α
  ended : Bool

/-- One call.  No byte tells the end when some were asked for. -/
def step (st : Reading α) : Op → Option (Reading α)
  | .read => st.stream.read.map fun r =>
    match r.2 with
    | .byte x => ⟨r.1, st.returned ++ [x], false⟩
    | .ended => ⟨r.1, st.returned, true⟩
    | .failed => ⟨r.1, st.returned, false⟩
  | .readBuffer size => (st.stream.readBuffer size).map fun r =>
    ⟨r.1, st.returned ++ r.2.1, 0 < size ∧ r.2.2 = 0⟩

/-- The start of a run. -/
def start (data : List α) (answers : Nat → Chunk) (size : Nat) : Reading α := ⟨new ⟨data, 0, answers⟩ size, [], false⟩

/-- The sizes are of type `int`. -/
def Op.IsInt : Op → Prop
  | .read => True
  | .readBuffer size => size < 2 ^ 31

/-- The end of the block that is asked for is of type `int`. -/
def Fits (st : Reading α) : Op → Prop
  | .read => True
  | .readBuffer size => st.stream.pos < st.stream.top → st.stream.pos + size < 2 ^ 31

/-- The calls return the first bytes, and the end is reported after the last one. -/
def Faithful (data : List α) (answers : Nat → Chunk) (size : Nat) (ops : List Op) : Prop :=
  ∃ st, Run.exec step (start data answers size) ops = some st ∧ st.returned <+: data ∧
    (st.ended → st.returned = data)

/-! ## Each call -/

/-- What is not returned yet. -/
def pending (s : BufferedInStream α) : List α := s.buf.drop s.pos ++ s.input.rest

variable {s : BufferedInStream α}

theorem refill_spec (hpos : 0 < s.bufSize) (hempty : s.pos ≥ s.top) :
    s.refill.1.pending = s.pending ∧ s.refill.1.bufSize = s.bufSize ∧
      (s.refill.2 > 0 → s.refill.1.pos = 0 ∧ 0 < s.refill.1.top) ∧ (s.refill.2 = 0 → s.pending = []) := by
  have hdrop : s.buf.drop s.pos = [] := drop_of_length_le hempty
  have hpending : s.pending = s.input.rest := by
    unfold pending
    rw [hdrop, nil_append]
  rw [hpending]
  unfold refill InStream.read
  cases s.input.answers s.input.calls with
  | fail =>
    simp only
    rw [if_neg (by decide)]
    refine ⟨?_, rfl, fun hgt => absurd hgt (show ¬ (-1 : Int) > 0 by decide),
      fun hzero => absurd hzero (show ¬ (-1 : Int) = 0 by decide)⟩
    show s.buf.drop s.pos ++ s.input.rest = s.input.rest
    rw [hdrop, nil_append]
  | bytes count =>
    simp only
    have hlen : (s.input.rest.take (min (max count 1) s.bufSize)).length =
        min (min (max count 1) s.bufSize) s.input.rest.length := length_take
    split_ifs with hgt
    · refine ⟨?_, rfl, fun _ => ⟨rfl, ?_⟩, fun hzero => ?_⟩
      · show (s.input.rest.take _).drop 0 ++ s.input.rest.drop _ = s.input.rest
        rw [drop_zero, take_append_drop]
      · show 0 < (s.input.rest.take _).length
        omega
      · have hzero' : ((s.input.rest.take (min (max count 1) s.bufSize)).length : Int) = 0 := hzero
        omega
    · have hnil : s.input.rest = [] := by
        rw [← length_eq_zero_iff]
        omega
      refine ⟨?_, rfl, fun hbad => absurd hbad hgt, fun _ => hnil⟩
      show s.buf.drop s.pos ++ s.input.rest.drop _ = s.input.rest
      rw [hdrop, hnil, drop_nil]
      rfl

/-- The block goes from the buffer to the caller. -/
theorem transfer_spec (hsome : s.pos < s.top) (size : Nat) :
    (s.pos + size < 2 ^ 31 → ∃ s' bytes, s.transfer size = some (s', bytes, bytes.length) ∧
      s.pending = bytes ++ s'.pending ∧ s'.bufSize = s.bufSize ∧ (0 < size → bytes ≠ [])) ∧
      (¬ s.pos + size < 2 ^ 31 → s.transfer size = none) := by
  constructor
  · intro hint
    let n := if s.pos + size > s.top then s.top - s.pos else size
    have hn : n ≤ s.top - s.pos := by
      show (if s.pos + size > s.top then s.top - s.pos else size) ≤ s.top - s.pos
      split_ifs <;> omega
    have hlen : ((s.buf.drop s.pos).take n).length = n := by
      rw [length_take, length_drop]
      unfold top at hn
      omega
    refine ⟨{ s with pos := s.pos + n }, (s.buf.drop s.pos).take n, ?_, ?_, rfl, fun hsize hnil => ?_⟩
    · rw [hlen]
      unfold transfer Data.int
      rw [if_pos hint]
      rfl
    · show s.buf.drop s.pos ++ s.input.rest = _ ++ (s.buf.drop (s.pos + n) ++ s.input.rest)
      rw [← append_assoc, ← drop_drop, take_append_drop]
    · have hzero : n = 0 := by
        rw [← hlen, hnil]
        rfl
      have hn' : n = if s.pos + size > s.top then s.top - s.pos else size := rfl
      split_ifs at hn' <;> omega
  · intro hint
    unfold transfer Data.int
    rw [if_neg hint]
    rfl

theorem readOne_spec (hsome : s.pos < s.top) :
    ∃ s' x, s.readOne = some (s', .byte x) ∧ s.pending = x :: s'.pending ∧ s'.bufSize = s.bufSize := by
  have hget : s.buf[s.pos]? = some s.buf[s.pos] := getElem?_eq_getElem hsome
  refine ⟨{ s with pos := s.pos + 1 }, s.buf[s.pos], ?_, ?_, rfl⟩
  · unfold readOne
    rw [hget]
    rfl
  · show s.buf.drop s.pos ++ s.input.rest = s.buf[s.pos] :: (s.buf.drop (s.pos + 1) ++ s.input.rest)
    rw [drop_eq_getElem_cons hsome, cons_append]

/-! ## Runs -/

/-- The bytes returned and the ones to come; an end that is reported is the one of the data. -/
structure Good (data : List α) (st : Reading α) : Prop where
  bufSize : 0 < st.stream.bufSize
  split : st.returned ++ st.stream.pending = data
  ended : st.ended → st.stream.pending = []

theorem step_read {data : List α} {st : Reading α} (h : Good data st) :
    ∃ st', step st .read = some st' ∧ Good data st' := by
  unfold step read
  by_cases hempty : st.stream.pos ≥ st.stream.top
  · obtain ⟨hpending, hsize, hfull, hend⟩ := refill_spec h.bufSize hempty
    simp only [if_pos hempty]
    have hsplit : st.returned ++ st.stream.refill.1.pending = data := by rw [hpending, h.split]
    have hsize' : 0 < st.stream.refill.1.bufSize := hsize ▸ h.bufSize
    by_cases hle : st.stream.refill.2 ≤ 0
    · rw [if_pos hle]
      by_cases hzero : st.stream.refill.2 = 0
      · rw [if_pos hzero]
        exact ⟨_, rfl, hsize', hsplit, fun _ => hpending.trans (hend hzero)⟩
      · rw [if_neg hzero]
        exact ⟨_, rfl, hsize', hsplit, fun hended => absurd hended Bool.false_ne_true⟩
    · rw [if_neg hle]
      obtain ⟨hzero, htop⟩ := hfull (by omega)
      obtain ⟨s', x, hread, hcons, hsame⟩ := readOne_spec (show st.stream.refill.1.pos < st.stream.refill.1.top by omega)
      rw [hread]
      refine ⟨_, rfl, hsame ▸ hsize', ?_, fun hended => absurd hended Bool.false_ne_true⟩
      show st.returned ++ [x] ++ s'.pending = data
      rw [append_assoc, singleton_append, ← hcons, hsplit]
  · simp only [if_neg hempty]
    obtain ⟨s', x, hread, hcons, hsame⟩ := readOne_spec (show st.stream.pos < st.stream.top by omega)
    rw [hread]
    refine ⟨_, rfl, hsame ▸ h.bufSize, ?_, fun hended => absurd hended Bool.false_ne_true⟩
    show st.returned ++ [x] ++ s'.pending = data
    rw [append_assoc, singleton_append, ← hcons, h.split]

/-- The reading after a block, from a buffer that has bytes. -/
theorem step_transfer {data : List α} {returned : List α} (hsize : 0 < s.bufSize)
    (hsplit : returned ++ s.pending = data) (hsome : s.pos < s.top) {size : Nat} (hint : s.pos + size < 2 ^ 31) :
    ∃ st', (s.transfer size).map (fun r => (⟨r.1, returned ++ r.2.1, 0 < size ∧ r.2.2 = 0⟩ : Reading α)) = some st' ∧
      Good data st' := by
  obtain ⟨s', bytes, htransfer, hpending, hsame, hne⟩ := (transfer_spec hsome size).1 hint
  rw [htransfer]
  refine ⟨_, rfl, hsame ▸ hsize, ?_, fun hended => ?_⟩
  · show returned ++ bytes ++ s'.pending = data
    rw [append_assoc, ← hpending, hsplit]
  · have hboth : 0 < size ∧ (bytes.length : Int) = 0 := of_decide_eq_true hended
    have hnil : bytes = [] := length_eq_zero_iff.mp (by omega)
    exact absurd hnil (hne hboth.1)

theorem step_readBuffer {data : List α} {st : Reading α} (h : Good data st) {size : Nat} (hint : size < 2 ^ 31)
    (hfits : Fits st (.readBuffer size)) : ∃ st', step st (.readBuffer size) = some st' ∧ Good data st' := by
  unfold step readBuffer
  by_cases hempty : st.stream.pos ≥ st.stream.top
  · obtain ⟨hpending, hsize, hfull, hend⟩ := refill_spec h.bufSize hempty
    simp only [if_pos hempty]
    have hsplit : st.returned ++ st.stream.refill.1.pending = data := by rw [hpending, h.split]
    have hsize' : 0 < st.stream.refill.1.bufSize := hsize ▸ h.bufSize
    by_cases hle : st.stream.refill.2 ≤ 0
    · rw [if_pos hle]
      refine ⟨_, rfl, hsize', ?_, fun hended => ?_⟩
      · show st.returned ++ [] ++ st.stream.refill.1.pending = data
        rw [append_nil, hsplit]
      · have hboth : 0 < size ∧ st.stream.refill.2 = 0 := of_decide_eq_true hended
        exact hpending.trans (hend hboth.2)
    · rw [if_neg hle]
      obtain ⟨hzero, htop⟩ := hfull (by omega)
      exact step_transfer hsize' hsplit (by omega) (by omega)
  · simp only [if_neg hempty]
    exact step_transfer h.bufSize h.split (by omega) (hfits (by omega))

theorem step_none {st : Reading α} {op : Op} (hfits : ¬ Fits st op) : step st op = none := by
  cases op with
  | read => exact absurd trivial hfits
  | readBuffer size =>
    unfold Fits at hfits
    push Not at hfits
    obtain ⟨hsome, hover⟩ := hfits
    unfold step readBuffer
    simp only
    rw [if_neg (by omega), (transfer_spec hsome size).2 (by omega)]
    rfl

theorem exec_iff {data : List α} : ∀ (ops : List Op) (st : Reading α), Good data st → (∀ op ∈ ops, op.IsInt) →
    ((∃ st', Run.exec step st ops = some st') ↔ Run.Meets Fits step st ops) ∧
      ∀ st', Run.exec step st ops = some st' → Good data st' := by
  intro ops
  induction ops with
  | nil =>
    intro st h _
    refine ⟨iff_of_true ⟨st, rfl⟩ trivial, fun st' hst' => ?_⟩
    obtain rfl := Option.some.inj hst'
    exact h
  | cons op ops ih =>
    intro st h hints
    obtain ⟨hint, hints'⟩ := forall_mem_cons.mp hints
    by_cases hfits : Fits st op
    · have hnext : ∃ st₁, step st op = some st₁ ∧ Good data st₁ := by
        cases op with
        | read => exact step_read h
        | readBuffer size => exact step_readBuffer h hint hfits
      obtain ⟨st₁, hstep, h₁⟩ := hnext
      obtain ⟨hiff, hgood⟩ := ih st₁ h₁ hints'
      have hexec : ∀ st', Run.exec step st (op :: ops) = some st' ↔ Run.exec step st₁ ops = some st' := by
        intro st'
        rw [Run.exec_cons_eq_some, hstep]
        simp
      refine ⟨?_, fun st' hst' => hgood st' ((hexec st').mp hst')⟩
      simp only [hexec]
      rw [hiff]
      constructor
      · exact fun hmeets => Run.meets_cons hfits hstep hmeets
      · exact fun hmeets => hmeets.2 st₁ hstep
    · -- the call overflows
      have hnone : ∀ st', Run.exec step st (op :: ops) ≠ some st' := by
        intro st' hst'
        obtain ⟨st₁, hstep, -⟩ := Run.exec_cons_eq_some.mp hst'
        rw [step_none hfits] at hstep
        cases hstep
      refine ⟨iff_of_false ?_ fun hmeets => hfits hmeets.1, fun st' hst' => absurd hst' (hnone st')⟩
      rintro ⟨st', hst'⟩
      exact hnone st' hst'

/-- A run returns the bytes of the stream if and only if no block ends behind the last `int`. -/
theorem faithful_iff (data : List α) (answers : Nat → Chunk) {size : Nat} (hsize : 0 < size) {ops : List Op}
    (hints : ∀ op ∈ ops, op.IsInt) :
    Faithful data answers size ops ↔ Run.Meets Fits step (start data answers size) ops := by
  have hstart : Good data (start data answers size) := ⟨hsize, rfl, fun hended => absurd hended Bool.false_ne_true⟩
  obtain ⟨hiff, hgood⟩ := exec_iff ops _ hstart hints
  rw [← hiff]
  constructor
  · rintro ⟨st, hexec, -⟩
    exact ⟨st, hexec⟩
  · rintro ⟨st, hexec⟩
    have h := hgood st hexec
    refine ⟨st, hexec, ⟨_, h.split⟩, fun hended => ?_⟩
    rw [← h.split, h.ended hended, append_nil]

theorem faithful_iff_blocks :
    Faithful [1, 2, 3] (fun _ => .bytes 2) 2 [.readBuffer 5, .read, .read] ↔
      Run.Meets Fits step (start [1, 2, 3] (fun _ => .bytes 2) 2) [.readBuffer 5, .read, .read] :=
  faithful_iff _ _ (by decide) (by simp [Op.IsInt])

/-- A block of the greatest size after one byte. -/
theorem not_faithful :
    ¬ ∀ (data : List Nat) (answers : Nat → Chunk) (size : Nat), 0 < size → ∀ ops : List Op, (∀ op ∈ ops, op.IsInt) →
      Faithful data answers size ops := by
  intro hall
  obtain ⟨st, hexec, -⟩ := hall [1, 2] (fun _ => .bytes 2) 4 (by decide) [.read, .readBuffer (2 ^ 31 - 1)]
    (by simp [Op.IsInt])
  obtain ⟨st₁, hread, hexec'⟩ := Run.exec_cons_eq_some.mp hexec
  obtain rfl := Option.some.inj hread
  obtain ⟨st₂, hblock, -⟩ := Run.exec_cons_eq_some.mp hexec'
  have hnone : ∀ st : Reading Nat, ¬ Fits st (.readBuffer (2 ^ 31 - 1)) → step st (.readBuffer (2 ^ 31 - 1)) = none :=
    fun st => step_none
  rw [hnone _ (fun hfits => absurd (hfits (by decide)) (by decide))] at hblock
  cases hblock

end BufferedInStream

end Elm.Io
