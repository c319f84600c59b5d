import Elm.Io.BufferedOutStream

/-!
# Runs of `io::BufferedOutStream`

A call appends its bytes to those that the stream below has taken and that are in the buffer.  What `flush` does not
pass on is lost, since the buffer is always emptied.
-/

namespace Elm.Io

open List Option

variable {α : Type}

namespace OutStream

/-- The next call takes `size` bytes. -/
def Takes (out : OutStream α) (size : Nat) : Prop := out.next.taken size = size

instance (out : OutStream α) (size : Nat) : Decidable (out.Takes size) := inferInstanceAs (Decidable (_ = _))

theorem write_takes {out : OutStream α} {buffer : List α} (h : out.Takes buffer.length) :
    (out.write buffer).1.data = out.data ++ buffer := by
  show out.data ++ buffer.take (out.next.taken buffer.length) = _
  rw [h, take_length]

theorem taken_fail (size : Nat) (answer : Answer) (h : answer.result size < 0) : answer = .fail := by
  cases answer with
  | whole =>
    have hneg : (size : Int) < 0 := h
    omega
  | part count =>
    have hneg : min (count : Int) size < 0 := h
    omega
  | fail => rfl

end OutStream

namespace BufferedOutStream

/-- What has been written and not lost. -/
def content (s : BufferedOutStream α) : List α := s.out.data ++ s.buf

/-- The stream below takes what `flush` passes on. -/
def FlushTakes (s : BufferedOutStream α) : Prop := s.top = 0 ∨ s.out.Takes s.top

/-- The stream below takes the buffers that are passed on directly, up to a failure. -/
def DirectTakes (bufSize : Nat) (out : OutStream α) (size : Nat) : Prop :=
  ∀ j < (size - 1) / bufSize, (∀ i < j, out.answers (out.calls + i) ≠ .fail) →
    out.answers (out.calls + j) = .fail ∨ (out.answers (out.calls + j)).taken bufSize = bufSize

/-- The stream below takes whole what the call passes on, but a buffer that is passed on directly may fail. -/
def Takes (s : BufferedOutStream α) : Op α → Prop
  | .writeByte _ => s.top = s.bufSize → s.FlushTakes
  | .write buffer =>
    s.bufSize - s.top < buffer.length → s.FlushTakes ∧ DirectTakes s.bufSize s.flush.1.out buffer.length
  | .flush => s.FlushTakes

instance (s : BufferedOutStream α) : Decidable s.FlushTakes := inferInstanceAs (Decidable (_ ∨ _))

instance (bufSize : Nat) (out : OutStream α) (size : Nat) : Decidable (DirectTakes bufSize out size) :=
  inferInstanceAs (Decidable (∀ j < (size - 1) / bufSize, (∀ i < j, _) → _))

instance (s : BufferedOutStream α) : ∀ op, Decidable (s.Takes op)
  | .writeByte _ => inferInstanceAs (Decidable (_ → _))
  | .write _ => inferInstanceAs (Decidable (_ → _))
  | .flush => inferInstanceAs (Decidable s.FlushTakes)

/-! ## Each call -/

theorem flush_buf (s : BufferedOutStream α) : s.flush.1.buf = [] := by
  unfold flush
  split_ifs with hzero
  · exact length_eq_zero_iff.mp hzero
  · rfl

theorem flush_same (s : BufferedOutStream α) :
    s.flush.1.bufSize = s.bufSize ∧ s.flush.1.out.answers = s.out.answers := by
  unfold flush
  split_ifs <;> exact ⟨rfl, rfl⟩

theorem flush_data {s : BufferedOutStream α} (h : s.FlushTakes) : s.flush.1.out.data = s.content := by
  unfold flush content
  split_ifs with hzero
  · have hnil : s.buf = [] := length_eq_zero_iff.mp hzero
    rw [hnil, append_nil]
  · exact OutStream.write_takes (h.resolve_left hzero)

/-- A flush that is taken whole has no error. -/
theorem flush_result {s : BufferedOutStream α} (h : s.FlushTakes) : 0 ≤ s.flush.2 := by
  unfold flush
  split_ifs with hzero
  · exact Int.le_refl 0
  · by_contra hneg
    have hfail := OutStream.taken_fail s.top s.out.next (Int.not_le.mp hneg)
    have htakes := h.resolve_left hzero
    unfold OutStream.Takes at htakes
    rw [hfail] at htakes
    exact hzero htakes.symm

/-- The bytes that `write` leaves for the buffer. -/
structure Passed (bufSize : Nat) (out : OutStream α) (buffer : List α) (r : OutStream α × Option (List α)) :
    Prop where
  answers : r.1.answers = out.answers
  rest : ∀ rest, r.2 = some rest → rest.length ≤ bufSize ∧ r.1.data ++ rest = out.data ++ buffer
  fail : r.2 = none → (∃ sent, r.1.data = out.data ++ sent ∧ sent <+: buffer) ∧ ∃ c, out.answers c = .fail

theorem writeTurn_spec {bufSize : Nat} (hpos : 0 < bufSize) :
    ∀ (fuel : Nat) (out : OutStream α) (buffer : List α), buffer.length < fuel →
      DirectTakes bufSize out buffer.length →
        ∃ r, Loop.run (writeTurn bufSize) fuel (out, buffer) = some r ∧ Passed bufSize out buffer r := by
  intro fuel
  induction fuel with
  | zero =>
    intro out buffer hlt
    omega
  | succ fuel ih =>
    intro out buffer hlt htakes
    by_cases hlong : buffer.length > bufSize
    · have hblock : (buffer.take bufSize).length = bufSize := by
        rw [length_take]
        omega
      have hcount : (buffer.length - 1) / bufSize = (buffer.length - bufSize - 1) / bufSize + 1 := by
        rw [Nat.div_eq_sub_div hpos (by omega)]
        congr 2
        omega
      have hfirst := htakes 0 (by rw [hcount]; exact Nat.succ_pos _) (by omega)
      rw [Nat.add_zero] at hfirst
      have hturn : writeTurn bufSize (out, buffer) =
          if out.next.result bufSize < 0 then .inr ((out.write (buffer.take bufSize)).1, none)
          else .inl ((out.write (buffer.take bufSize)).1, buffer.drop bufSize) := by
        unfold writeTurn
        simp only
        rw [if_pos hlong]
        show (if out.next.result (buffer.take bufSize).length < 0 then _ else _) = _
        rw [hblock]
      by_cases hfail : out.next.result bufSize < 0
      · -- the call fails
        rw [if_pos hfail] at hturn
        have hanswer := OutStream.taken_fail bufSize out.next hfail
        refine ⟨_, Loop.run_succ_inr hturn fuel, rfl, ?_, fun _ => ⟨⟨[], ?_, nil_prefix⟩, out.calls, hanswer⟩⟩
        · intro rest hrest
          cases hrest
        · show out.data ++ (buffer.take bufSize).take (out.next.taken (buffer.take bufSize).length) = _
          rw [hanswer]
          simp [Answer.taken]
      · rw [if_neg hfail] at hturn
        have hnofail : out.next ≠ .fail := by
          intro heq
          rw [heq] at hfail
          exact hfail (show (-1 : Int) < 0 by decide)
        have hblocktakes : out.Takes (buffer.take bufSize).length := by
          unfold OutStream.Takes
          rw [hblock]
          exact hfirst.resolve_left hnofail
        have hdata := OutStream.write_takes hblocktakes
        have hlen : (buffer.drop bufSize).length = buffer.length - bufSize := length_drop
        obtain ⟨r, hrun, hpassed⟩ := ih (out.write (buffer.take bufSize)).1 (buffer.drop bufSize) (by omega) (by
          rw [hlen]
          intro j hj hbefore
          have hnext := htakes (j + 1) (by rw [hcount]; exact Nat.succ_lt_succ hj) (fun i hi => by
            cases i with
            | zero => exact hnofail
            | succ i =>
              have hi' := hbefore i (by omega)
              have hcalls : out.calls + 1 + i = out.calls + (i + 1) := by omega
              rw [← hcalls]
              exact hi')
          have hcalls : out.calls + 1 + j = out.calls + (j + 1) := by omega
          rw [← hcalls] at hnext
          exact hnext)
        refine ⟨r, by rw [Loop.run_succ_inl hturn]; exact hrun, hpassed.answers, ?_, ?_⟩
        · intro rest hrest
          obtain ⟨hle, heq⟩ := hpassed.rest rest hrest
          refine ⟨hle, ?_⟩
          rw [heq, hdata, append_assoc, take_append_drop]
        · intro hnone
          obtain ⟨⟨sent, heq, hprefix⟩, hexists⟩ := hpassed.fail hnone
          refine ⟨⟨buffer.take bufSize ++ sent, ?_, ?_⟩, hexists⟩
          · rw [heq, hdata, append_assoc]
          · have hsplit := prefix_append_right_inj (buffer.take bufSize) |>.mpr hprefix
            rwa [take_append_drop] at hsplit
    · have hturn : writeTurn bufSize (out, buffer) = .inr (out, some buffer) := by
        unfold writeTurn
        simp only
        rw [if_neg hlong]
      refine ⟨_, Loop.run_succ_inr hturn fuel, rfl, ?_, fun hnone => ?_⟩
      · intro rest hrest
        obtain rfl := some.inj hrest
        exact ⟨by omega, rfl⟩
      · cases hnone

/-- What a call does: it appends its bytes, or a first part of them when it fails. -/
structure Does (s : BufferedOutStream α) (op : Op α) (r : BufferedOutStream α × Int) : Prop where
  bufSize : r.1.bufSize = s.bufSize
  answers : r.1.out.answers = s.out.answers
  top_le : r.1.top ≤ s.bufSize
  sent : ∃ sent, r.1.content = s.content ++ sent ∧ sent <+: op.bytes ∧ (0 ≤ r.2 → sent = op.bytes)
  fail : r.2 < 0 → ∃ c, s.out.answers c = .fail

theorem write_does {s : BufferedOutStream α} (hpos : 0 < s.bufSize) (htop : s.top ≤ s.bufSize) {buffer : List α}
    (htakes : s.Takes (.write buffer)) :
    ∃ r, s.write buffer = some r ∧ Does s (.write buffer) r ∧ (0 ≤ r.2 → r.2 = buffer.length) := by
  unfold write
  by_cases hlong : s.bufSize - s.top < buffer.length
  · obtain ⟨hflush, hdirect⟩ := htakes hlong
    obtain ⟨hsize, hanswers⟩ := flush_same s
    have hdata := flush_data hflush
    have hbuf := flush_buf s
    have hs : (if s.top > 0 then s.flush.1 else s) = s.flush.1 := by
      split_ifs with hgt
      · rfl
      · unfold flush
        rw [if_pos (by omega)]
    obtain ⟨⟨out, rest?⟩, hrun, hpassed⟩ := writeTurn_spec hpos (buffer.length + 1) s.flush.1.out buffer (by omega)
      hdirect
    simp only [if_pos hlong, hs, hsize, hrun, bind_eq_bind, bind_some]
    cases rest? with
    | none =>
      obtain ⟨⟨sent, heq, hprefix⟩, c, hc⟩ := hpassed.fail rfl
      refine ⟨_, rfl, ⟨rfl, hpassed.answers.trans hanswers, ?_, ?_, fun _ => ⟨c, ?_⟩⟩, ?_⟩
      · show s.flush.1.buf.length ≤ s.bufSize
        rw [hbuf]
        exact Nat.zero_le _
      · refine ⟨sent, ?_, hprefix, fun hneg => absurd hneg (show ¬ (0 : Int) ≤ -1 by decide)⟩
        show out.data ++ s.flush.1.buf = _
        rw [hbuf, append_nil, heq, hdata]
      · rw [← hanswers]
        exact hc
      · exact fun hneg => absurd hneg (show ¬ (0 : Int) ≤ -1 by decide)
    | some rest =>
      obtain ⟨hle, heq⟩ := hpassed.rest rest rfl
      refine ⟨_, rfl, ⟨rfl, hpassed.answers.trans hanswers, ?_, ?_, fun hneg => ?_⟩, fun _ => rfl⟩
      · show (s.flush.1.buf ++ rest).length ≤ s.bufSize
        rw [hbuf]
        exact hle
      · refine ⟨buffer, ?_, prefix_rfl, fun _ => rfl⟩
        show out.data ++ (s.flush.1.buf ++ rest) = _
        rw [hbuf, nil_append, heq, hdata]
      · have hneg' : ((buffer.length : Nat) : Int) < 0 := hneg
        omega
  · simp only [if_neg hlong]
    refine ⟨_, rfl, ⟨rfl, rfl, ?_, ⟨buffer, ?_, prefix_rfl, fun _ => rfl⟩, fun hneg => ?_⟩, fun _ => rfl⟩
    · show (s.buf ++ buffer).length ≤ s.bufSize
      unfold top at htop hlong
      rw [length_append]
      omega
    · exact (append_assoc _ _ _).symm
    · have hneg' : ((buffer.length : Nat) : Int) < 0 := hneg
      omega

theorem writeByte_does {s : BufferedOutStream α} (hpos : 0 < s.bufSize) (htop : s.top ≤ s.bufSize) {byte : α}
    (htakes : s.Takes (.writeByte byte)) :
    Does s (.writeByte byte) (s.writeByte byte) ∧ (s.writeByte byte).2 = 0 := by
  unfold writeByte
  by_cases hfull : s.top = s.bufSize
  · have hflush := htakes hfull
    obtain ⟨hsize, hanswers⟩ := flush_same s
    have hnonneg := flush_result hflush
    rw [if_pos hfull]
    simp only
    rw [if_neg (by omega)]
    refine ⟨⟨hsize, hanswers, ?_, ⟨[byte], ?_, prefix_rfl, fun _ => rfl⟩, fun hneg => ?_⟩, rfl⟩
    · show (s.flush.1.buf ++ [byte]).length ≤ s.bufSize
      rw [flush_buf s]
      exact hpos
    · show s.flush.1.out.data ++ (s.flush.1.buf ++ [byte]) = _
      rw [flush_buf s, flush_data hflush]
      rfl
    · exact absurd hneg (show ¬ (0 : Int) < 0 by decide)
  · rw [if_neg hfull]
    refine ⟨⟨rfl, rfl, ?_, ⟨[byte], ?_, prefix_rfl, fun _ => rfl⟩, fun hneg => ?_⟩, rfl⟩
    · show (s.buf ++ [byte]).length ≤ s.bufSize
      unfold top at htop hfull
      rw [length_append, length_singleton]
      omega
    · exact (append_assoc _ _ _).symm
    · exact absurd hneg (show ¬ (0 : Int) < 0 by decide)

theorem flush_does {s : BufferedOutStream α} (htakes : s.FlushTakes) : Does s .flush s.flush ∧ 0 ≤ s.flush.2 := by
  obtain ⟨hsize, hanswers⟩ := flush_same s
  have hnonneg := flush_result htakes
  refine ⟨⟨hsize, hanswers, ?_, ⟨[], ?_, prefix_rfl, fun _ => rfl⟩, fun hneg => ?_⟩, hnonneg⟩
  · show s.flush.1.buf.length ≤ s.bufSize
    rw [flush_buf s]
    exact Nat.zero_le _
  · show s.flush.1.out.data ++ s.flush.1.buf = _
    rw [flush_buf s, flush_data htakes]
  · omega

/-- One call of a run. -/
theorem run_does {s : BufferedOutStream α} (hpos : 0 < s.bufSize) (htop : s.top ≤ s.bufSize) {op : Op α}
    (htakes : s.Takes op) : ∃ r, op.run s = some r ∧ Does s op r := by
  cases op with
  | writeByte byte => exact ⟨_, rfl, (writeByte_does hpos htop htakes).1⟩
  | write buffer =>
    obtain ⟨r, hrun, hdoes, -⟩ := write_does hpos htop htakes
    exact ⟨r, hrun, hdoes⟩
  | flush => exact ⟨_, rfl, (flush_does htakes).1⟩

/-! ## A stream that takes all the bytes -/

/-- What each call returns. -/
def Op.Returns : Op α → Int → Prop
  | .writeByte _, r => r = 0
  | .write buffer, r => r = buffer.length
  | .flush, _ => True

theorem takes_of_whole {s : BufferedOutStream α} (hwhole : ∀ c, s.out.answers c = .whole) (op : Op α) : s.Takes op := by
  have hflush : s.FlushTakes := Or.inr (by
    unfold OutStream.Takes OutStream.next
    rw [hwhole]
    rfl)
  have hdirect : ∀ size, DirectTakes s.bufSize s.flush.1.out size := by
    intro size j _ _
    rw [(flush_same s).2, hwhole]
    exact Or.inr rfl
  cases op with
  | writeByte byte => exact fun _ => hflush
  | write buffer => exact fun _ => ⟨hflush, hdirect _⟩
  | flush => exact hflush

theorem run_whole {s : BufferedOutStream α} (hpos : 0 < s.bufSize) (htop : s.top ≤ s.bufSize)
    (hwhole : ∀ c, s.out.answers c = .whole) (op : Op α) :
    ∃ r, op.run s = some r ∧ Does s op r ∧ r.1.content = s.content ++ op.bytes ∧ op.Returns r.2 := by
  have htakes := takes_of_whole hwhole op
  have hcontent : ∀ {r : BufferedOutStream α × Int}, Does s op r → r.1.content = s.content ++ op.bytes := by
    intro r hdoes
    obtain ⟨sent, heq, -, hall⟩ := hdoes.sent
    have hnonneg : 0 ≤ r.2 := by
      by_contra hneg
      obtain ⟨c, hc⟩ := hdoes.fail (Int.not_le.mp hneg)
      rw [hwhole] at hc
      cases hc
    rw [heq, hall hnonneg]
  cases op with
  | writeByte byte =>
    obtain ⟨hdoes, hzero⟩ := writeByte_does hpos htop htakes
    exact ⟨_, rfl, hdoes, hcontent hdoes, hzero⟩
  | write buffer =>
    obtain ⟨r, hrun, hdoes, hresult⟩ := write_does hpos htop htakes
    refine ⟨r, hrun, hdoes, hcontent hdoes, hresult ?_⟩
    by_contra hneg
    obtain ⟨c, hc⟩ := hdoes.fail (Int.not_le.mp hneg)
    rw [hwhole] at hc
    cases hc
  | flush =>
    obtain ⟨hdoes, -⟩ := flush_does htakes
    exact ⟨_, rfl, hdoes, hcontent hdoes, trivial⟩

theorem exec_whole : ∀ (ops : List (Op α)) (s : BufferedOutStream α) (before : List Int), 0 < s.bufSize →
    s.top ≤ s.bufSize → (∀ c, s.out.answers c = .whole) →
      ∃ s' rs, Run.exec step (s, before) ops = some (s', before ++ rs) ∧ s'.top ≤ s.bufSize ∧
        s'.content = s.content ++ ops.flatMap Op.bytes ∧ (∀ c, s'.out.answers c = .whole) ∧
          List.Forall₂ Op.Returns ops rs := by
  intro ops
  induction ops with
  | nil =>
    intro s before _ htop hwhole
    refine ⟨s, [], ?_, htop, ?_, hwhole, .nil⟩
    · rw [append_nil]
      rfl
    · rw [flatMap_nil, append_nil]
  | cons op ops ih =>
    intro s before hpos htop hwhole
    obtain ⟨⟨s₁, r⟩, hrun, hdoes, hcontent, hreturns⟩ := run_whole hpos htop hwhole op
    have hsize : s₁.bufSize = s.bufSize := hdoes.bufSize
    have htop₁ : s₁.top ≤ s.bufSize := hdoes.top_le
    have hanswers : s₁.out.answers = s.out.answers := hdoes.answers
    obtain ⟨s', rs, hexec, htop', hcontent', hwhole', hall⟩ := ih s₁ (before ++ [r]) (by omega) (by omega)
      (fun c => by rw [hanswers]; exact hwhole c)
    have hstep : step (s, before) op = some (s₁, before ++ [r]) := by
      unfold step
      rw [hrun]
      rfl
    refine ⟨s', r :: rs, ?_, by omega, ?_, hwhole', .cons hreturns hall⟩
    · rw [append_assoc] at hexec
      exact Run.exec_cons_eq_some.mpr ⟨_, hstep, hexec⟩
    · rw [hcontent', hcontent, flatMap_cons, append_assoc]

/-- A call returns what is promised, but for the write of a byte. -/
theorem promised_iff : ∀ {ops : List (Op α)} {rs : List Int}, List.Forall₂ Op.Returns ops rs →
    (List.Forall₂ Op.Promised ops rs ↔ ∀ byte, .writeByte byte ∉ ops) := by
  intro ops
  induction ops with
  | nil =>
    intro rs hall
    cases hall
    simp
  | cons op ops ih =>
    intro rs hall
    cases hall with
    | cons hreturns hall =>
      rw [forall₂_cons, ih hall]
      cases op with
      | writeByte byte =>
        refine iff_of_false ?_ fun hnot => hnot byte mem_cons_self
        rintro ⟨hone, -⟩
        exact absurd (Eq.trans (Eq.symm hreturns) hone) (by decide)
      | write buffer => simp [show Op.Promised (.write buffer) _ from hreturns]
      | flush => simp [Op.Promised]

/-- Over a stream that takes all the bytes, a run is right if and only if no byte is written alone. -/
theorem delivers_iff {answers : Nat → Answer} (hwhole : ∀ c, answers c = .whole) {size : Nat} (hsize : 0 < size)
    (ops : List (Op α)) : Delivers answers size ops ↔ ∀ byte, .writeByte byte ∉ ops := by
  have hexec := fun ops : List (Op α) => exec_whole ops (start answers size) [] hsize (Nat.zero_le _) hwhole
  obtain ⟨s, rs, hrun, htop, hcontent, hwhole', hreturns⟩ := hexec ops
  rw [nil_append] at hrun
  have hdata : s.flush.1.out.data = ops.flatMap Op.bytes := by
    rw [flush_data (takes_of_whole hwhole' .flush), hcontent]
    rfl
  rw [← promised_iff hreturns]
  constructor
  · rintro ⟨-, s', rs', hrun', -, hpromised⟩
    obtain ⟨-, rfl⟩ := Prod.mk.inj (some.inj (hrun.symm.trans hrun'))
    exact hpromised
  · intro hpromised
    refine ⟨fun pre _ st hst => ?_, s, rs, hrun, hdata, hpromised⟩
    obtain ⟨s', rs', hrun', htop', -⟩ := hexec pre
    obtain rfl := some.inj (hrun'.symm.trans hst)
    exact htop'

theorem delivers_iff_two_writes :
    Delivers (fun _ => .whole) 4 [.write [1, 2, 3], .write [4, 5, 6], .flush] ↔
      ∀ byte : Nat, Op.writeByte byte ∉ [.write [1, 2, 3], .write [4, 5, 6], .flush] :=
  delivers_iff (fun _ => rfl) (by decide) _

/-- The write of a byte returns 0. -/
theorem not_delivers :
    ¬ ∀ (answers : Nat → Answer) (size : Nat), (∀ c, answers c = .whole) → 0 < size →
      ∀ ops : List (Op Nat), Delivers answers size ops := by
  intro hall
  obtain ⟨-, s, rs, hrun, -, hpromised⟩ := hall (fun _ => .whole) 4 (fun _ => rfl) (by decide) [.writeByte 7]
  obtain ⟨-, rfl⟩ := Prod.mk.inj (some.inj hrun)
  cases hpromised with
  | cons hone _ => exact absurd hone (show ¬ (0 : Int) = 1 by decide)

/-! ## A stream that may fail -/

/-- The calls of a run whose bytes are taken, up to the failures of buffers passed on directly. -/
def RunTakes (answers : Nat → Answer) (size : Nat) (ops : List (Op α)) : Prop :=
  Run.Meets (fun st op => st.1.Takes op) step (start answers size, []) ops

/-- A run under the condition loses no byte of a successful call. -/
theorem exec_takes : ∀ (ops : List (Op α)) (s : BufferedOutStream α) (before : List Int), 0 < s.bufSize →
    s.top ≤ s.bufSize → Run.Meets (fun st op => st.1.Takes op) step (s, before) ops →
      ∃ s' rs, Run.exec step (s, before) ops = some (s', before ++ rs) ∧ s'.bufSize = s.bufSize ∧
        s'.top ≤ s.bufSize ∧ (∀ x ∈ s.content, x ∈ s'.content) ∧
          List.Forall₂ (fun op r => 0 ≤ r → ∀ x ∈ op.bytes, x ∈ s'.content) ops rs := by
  intro ops
  induction ops with
  | nil =>
    intro s before _ htop _
    refine ⟨s, [], ?_, rfl, htop, fun _ hx => hx, .nil⟩
    rw [append_nil]
    rfl
  | cons op ops ih =>
    intro s before hpos htop hmeets
    obtain ⟨⟨s₁, r⟩, hrun, hdoes⟩ := run_does hpos htop hmeets.1
    have hstep : step (s, before) op = some (s₁, before ++ [r]) := by
      unfold step
      rw [hrun]
      rfl
    have hsize : s₁.bufSize = s.bufSize := hdoes.bufSize
    have htop₁ : s₁.top ≤ s.bufSize := hdoes.top_le
    obtain ⟨s', rs, hexec, hsize', htop', hkept, hall⟩ := ih s₁ (before ++ [r]) (by omega) (by omega)
      (hmeets.2 _ hstep)
    obtain ⟨sent, hcontent, -, hsent⟩ := hdoes.sent
    refine ⟨s', r :: rs, ?_, by omega, by omega, fun x hx => hkept x ?_, .cons (fun hnonneg x hx => hkept x ?_) hall⟩
    · rw [append_assoc] at hexec
      exact Run.exec_cons_eq_some.mpr ⟨_, hstep, hexec⟩
    · show x ∈ s₁.content
      rw [hcontent]
      exact mem_append_left _ hx
    · show x ∈ s₁.content
      rw [hcontent, hsent hnonneg]
      exact mem_append_right _ hx

/-- A last flush empties the buffer. -/
theorem exec_flush : ∀ (ops : List (Op α)) (st st' : BufferedOutStream α × List Int),
    Run.exec step st (ops ++ [.flush]) = some st' → st'.1.buf = [] := by
  intro ops
  induction ops with
  | nil =>
    intro st st' hexec
    obtain ⟨st₁, hstep, hnil⟩ := Run.exec_cons_eq_some.mp hexec
    obtain rfl := some.inj hstep
    obtain rfl := some.inj hnil
    exact flush_buf st.1
  | cons op ops ih =>
    intro st st' hexec
    obtain ⟨st₁, -, hexec'⟩ := Run.exec_cons_eq_some.mp hexec
    exact ih st₁ st' hexec'

theorem tagged_eq (ops : List (Op α)) : ∃ ops', tagged ops = ops' ++ [Op.flush] := by
  refine ⟨ops.zipIdx.map fun (op : Op α × Nat) => op.1.tag op.2, ?_⟩
  unfold tagged
  rw [zipIdx_append, map_append]
  rfl

/-- When the stream below takes what the flushes pass on, no loss is silent: there is none. -/
theorem noSilentLoss_of_takes (answers : Nat → Answer) {size : Nat} (hsize : 0 < size) (ops : List (Op α))
    (htakes : RunTakes answers size (tagged ops)) : NoSilentLoss answers size ops := by
  constructor
  · obtain ⟨s, rs, hexec, -, -, -, hall⟩ := exec_takes (tagged ops) (start answers size) [] hsize (Nat.zero_le _) htakes
    rw [nil_append] at hexec
    refine ⟨s, rs, hexec, fun k op r hop hr hnonneg hlost => ?_⟩
    obtain ⟨x, hx, hnot⟩ := hlost
    obtain ⟨ops', heq⟩ := tagged_eq ops
    rw [heq] at hexec
    have hbuf : s.buf = [] := exec_flush ops' _ _ hexec
    -- the bytes of the call are all delivered
    obtain ⟨hk, rfl⟩ := List.getElem?_eq_some_iff.mp hop
    obtain ⟨hk', rfl⟩ := List.getElem?_eq_some_iff.mp hr
    have hmem := forall₂_iff_get.mp hall |>.2 k hk hk' hnonneg x hx
    unfold content at hmem
    rw [hbuf, append_nil] at hmem
    exact absurd hmem hnot
  · intro i op s rs hexec hop s' r hrun _ x hx
    have hcond := Run.Meets.get htakes hexec hop
    have hmeets : RunTakes answers size ((tagged ops).take i) := Run.Meets.take htakes i
    obtain ⟨s₁, rs₁, hexec₁, hsize₁, htop₁, -⟩ := exec_takes _ (start answers size) [] hsize (Nat.zero_le _) hmeets
    obtain ⟨rfl, -⟩ := Prod.mk.inj (some.inj (hexec.symm.trans hexec₁))
    have hpos : 0 < s.bufSize := by
      rw [hsize₁]
      exact hsize
    have htop : s.top ≤ s.bufSize := by
      rw [hsize₁]
      exact htop₁
    obtain ⟨res, hrun', hdoes⟩ := run_does hpos htop hcond
    obtain rfl := some.inj (hrun.symm.trans hrun')
    obtain ⟨sent, hcontent, -, -⟩ := hdoes.sent
    have hmem : x ∈ s'.content := by
      show x ∈ (s', r).1.content
      rw [hcontent]
      exact mem_append_left _ (mem_append_right _ hx)
    exact mem_append.mp hmem

/-- A buffer passed on directly fails. -/
theorem noSilentLoss_direct_fail :
    NoSilentLoss (fun c => if c = 1 then .fail else .whole) 2 [.write [1], .write [2, 3, 4, 5, 6], .writeByte 7] :=
  noSilentLoss_of_takes _ (by decide) _ (by unfold RunTakes; decide)

/-- The flush of a write fails: the byte of the first write is lost, and every call succeeds. -/
theorem not_noSilentLoss :
    ¬ ∀ (answers : Nat → Answer) (size : Nat), 0 < size → ∀ ops : List (Op Nat), NoSilentLoss answers size ops := by
  intro hall
  obtain ⟨⟨s, rs, hexec, hloss⟩, -⟩ := hall (fun c => if c = 0 then .fail else .whole) 4 (by decide)
    [.write [1], .write [2, 3, 4, 5]]
  obtain ⟨hs, rfl⟩ := Prod.mk.inj (some.inj hexec)
  have hdata : s.out.data = [(1, 0, 2), (1, 1, 3), (1, 2, 4), (1, 3, 5)] := by
    rw [← hs]
    rfl
  obtain ⟨k', -, r', hr', hneg⟩ := hloss 0 (.write [(0, 0, 1)]) 1 rfl rfl (by decide)
    ⟨(0, 0, 1), by decide, by rw [hdata]; decide⟩
  have hresults : ∀ r ∈ [(1 : Int), 4, 4], ¬ r < 0 := by decide
  exact hresults r' (mem_of_getElem? hr') hneg

end BufferedOutStream

end Elm.Io
