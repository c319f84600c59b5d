import Elm.Lib.Loop

/-!
# `io::BufferedOutStream`

The stream of `src/io_BufferedOutStream.cpp`, over a stream whose calls have any answers.  The bytes are of any
type; the buffer is the list of its first `top` bytes.
-/

namespace Elm.Io

/-- What the underlying stream does with a call of `write`. -/
inductive Answer
  /-- It takes all the bytes. -/
  | whole
  /-- It takes the first bytes only. -/
  | part (count : Nat)
  | fail
  deriving DecidableEq

/-- The number of bytes taken, of `size` bytes. -/
def Answer.taken (size : Nat) : Answer → Nat
  | .whole => size
  | .part count => min count size
  | .fail => 0

/-- What `write` returns. -/
def Answer.result (size : Nat) : Answer → Int
  | .whole => size
  | .part count => min count size
  | .fail => -1

/-- An underlying stream: the bytes it has taken, the number of calls and the answers to all the calls. -/
structure OutStream (α : Type) where
  data : List α
  calls : Nat
  answers : Nat → Answer

namespace OutStream

variable {α : Type}

/-- The answer to the next call. -/
def next (out : OutStream α) : Answer := out.answers out.calls

/-- `write`: the stream, and the result. -/
def write (out : OutStream α) (buffer : List α) : OutStream α × Int :=
  ({ out with data := out.data ++ buffer.take (out.next.taken buffer.length), calls := out.calls + 1 },
    out.next.result buffer.length)

end OutStream

/-- `BufferedOutStream`. -/
structure BufferedOutStream (α : Type) where
  out : OutStream α
  bufSize : Nat
  buf : List α

namespace BufferedOutStream

variable {α : Type}

/-- The constructor. -/
def new (out : OutStream α) (size : Nat) : BufferedOutStream α := ⟨out, size, []⟩

/-- The index of the first free byte of the buffer. -/
def top (s : BufferedOutStream α) : Nat := s.buf.length

/-- `flush`. -/
def flush (s : BufferedOutStream α) : BufferedOutStream α × Int :=
  if s.top = 0 then (s, 0)
  else ({ s with out := (s.out.write s.buf).1, buf := [] }, (s.out.write s.buf).2)

/-- One turn of the loop of `write`, on the bytes that are left; `none` is a failure. -/
def writeTurn (bufSize : Nat) (st : OutStream α × List α) :
    (OutStream α × List α) ⊕ (OutStream α × Option (List α)) :=
  let (out, buffer) := st
  if buffer.length > bufSize then
    let (out, res) := out.write (buffer.take bufSize)
    if res < 0 then .inr (out, none) else .inl (out, buffer.drop bufSize)
  else
    .inr (out, some buffer)

/-- `write` of a buffer; nothing when it does not return. -/
def write (s : BufferedOutStream α) (buffer : List α) : Option (BufferedOutStream α × Int) := do
  let res := buffer.length
  if s.bufSize - s.top < buffer.length then
    let s := if s.top > 0 then s.flush.1 else s
    let (out, rest) ← Loop.run (writeTurn s.bufSize) (buffer.length + 1) (s.out, buffer)
    match rest with
    | none => return ({ s with out }, -1)
    | some rest => return ({ s with out, buf := s.buf ++ rest }, res)
  else
    return ({ s with buf := s.buf ++ buffer }, res)

/-- `write` of a byte. -/
def writeByte (s : BufferedOutStream α) (byte : α) : BufferedOutStream α × Int :=
  if s.top = s.bufSize then
    let (s, rc) := s.flush
    if rc < 0 then (s, rc) else ({ s with buf := s.buf ++ [byte] }, 0)
  else
    ({ s with buf := s.buf ++ [byte] }, 0)

/-! ## Runs -/

inductive Op (α : Type)
  | writeByte (byte : α)
  | write (buffer : List α)
  | flush
  deriving DecidableEq

/-- The bytes that are written. -/
def Op.bytes : Op α → List α
  | .writeByte byte => [byte]
  | .write buffer => buffer
  | .flush => []

/-- One call, and its result. -/
def Op.run (s : BufferedOutStream α) : Op α → Option (BufferedOutStream α × Int)
  | .writeByte byte => some (s.writeByte byte)
  | .write buffer => s.write buffer
  | .flush => some s.flush

/-- One call of a run that keeps the results. -/
def step (st : BufferedOutStream α × List Int) (op : Op α) : Option (BufferedOutStream α × List Int) :=
  (op.run st.1).map fun r => (r.1, st.2 ++ [r.2])

/-- What the contract of `OutStream` promises of a call of `write`. -/
def Op.Promised : Op α → Int → Prop
  | .writeByte _, r => r = 1
  | .write buffer, r => r = buffer.length
  | .flush, _ => True

/-- A stream just built. -/
def start (answers : Nat → Answer) (size : Nat) : BufferedOutStream α := new ⟨[], 0, answers⟩ size

/-- The buffer does not overflow, a last flush delivers all that is written, and the results are the promised
ones. -/
def Delivers (answers : Nat → Answer) (size : Nat) (ops : List (Op α)) : Prop :=
  (∀ pre, pre <+: ops → ∀ st, Run.exec step (start answers size, []) pre = some st → st.1.top ≤ size) ∧
    ∃ s rs, Run.exec step (start answers size, []) ops = some (s, rs) ∧
      s.flush.1.out.data = ops.flatMap Op.bytes ∧ List.Forall₂ Op.Promised ops rs

/-- The bytes of the call `k`, each with the call and its place in it. -/
def Op.tag (k : Nat) : Op α → Op (Nat × Nat × α)
  | .writeByte byte => .writeByte (k, 0, byte)
  | .write buffer => .write (buffer.zipIdx.map fun byte => (k, byte.2, byte.1))
  | .flush => .flush

/-- The run of the calls and of a last flush, whose bytes are told apart. -/
def tagged (ops : List (Op α)) : List (Op (Nat × Nat × α)) :=
  (ops ++ [Op.flush]).zipIdx.map fun (op : Op α × Nat) => op.1.tag op.2

/-- When a byte of a successful call is not delivered, a later call returns an error. -/
def LossIsTold (ops : List (Op α)) (data : List α) (rs : List Int) : Prop :=
  ∀ (k : Nat) (op : Op α) (r : Int), ops[k]? = some op → rs[k]? = some r → 0 ≤ r →
    (∃ x ∈ op.bytes, x ∉ data) → ∃ k' > k, ∃ r', rs[k']? = some r' ∧ r' < 0

/-- A call that returns an error keeps in the buffer the bytes of the buffer that are not delivered. -/
def ErrorKeeps (answers : Nat → Answer) (size : Nat) (ops : List (Op α)) : Prop :=
  ∀ (i : Nat) (op : Op α) (s : BufferedOutStream α) (rs : List Int),
    Run.exec step (start answers size, []) (ops.take i) = some (s, rs) → ops[i]? = some op →
      ∀ s' r, op.run s = some (s', r) → r < 0 → ∀ x ∈ s.buf, x ∈ s'.out.data ∨ x ∈ s'.buf

/-- No loss is silent. -/
def NoSilentLoss (answers : Nat → Answer) (size : Nat) (ops : List (Op α)) : Prop :=
  (∃ s rs, Run.exec step (start answers size, []) (tagged ops) = some (s, rs) ∧
    LossIsTold (tagged ops) s.out.data rs) ∧ ErrorKeeps answers size (tagged ops)

end BufferedOutStream

end Elm.Io
