import Elm.Checksum.MD5

/-!
# The digest of a message given in pieces

The 64 calls of `encode` are the operations of the algorithm: the code keeps the registers in place
where the algorithm moves them.  After any number of calls, the bytes of the message are the whole
blocks that have been encoded followed by the `size` first bytes of the buffer.
-/

namespace Elm.Checksum

open Md5 List Nat

/-! ## `encode` is the compression function -/

/-- The macro of the operation `i`. -/
def macroOf (i : Nat) : Macro :=
  if i < 16 then .ff else if i < 32 then .gg else if i < 48 then .hh else .ii

/-- The roles of the registers in the operation `i`. -/
def rolesOf (i : Nat) : Roles :=
  if i % 4 = 0 then .abcd else if i % 4 = 1 then .dabc else if i % 4 = 2 then .cdab else .bcda

/-- The registers in the order of their roles. -/
def Roles.view : Roles → Regs → Regs
  | .abcd, r => r
  | .dabc, r => ⟨r.d, r.a, r.b, r.c⟩
  | .cdab, r => ⟨r.c, r.d, r.a, r.b⟩
  | .bcda, r => ⟨r.b, r.c, r.d, r.a⟩

@[simp] theorem Roles.view_abcd (r : Regs) : Roles.view .abcd r = r := rfl

/-- The call for the operation `i`. -/
def callOf (i : Nat) : Call := ⟨macroOf i, rolesOf i, index i, shift i, table.getD i 0⟩

theorem calls_eq : calls = (List.range 64).map callOf := by
  decide +kernel

theorem fn_macroOf (i : Nat) (x y z : BitVec 32) : (macroOf i).fn x y z = mix i x y z := by
  unfold macroOf mix
  split_ifs
  · rfl
  · show x &&& z ||| ~~~z &&& y = x &&& z ||| y &&& ~~~z
    rw [BitVec.and_comm (~~~z)]
  · rfl
  · rfl

theorem shift_lt (i : Nat) (hi : i < 64) : shift i < 32 := by
  revert i
  decide

theorem rotateLeft_eq (w : BitVec 32) {s : Nat} (hs : s < 32) : rotateLeft w s = w.rotateLeft s := by
  have hmask : w &&& 0xFFFFFFFF#32 = w := by
    ext i hi
    have hbit : (0xFFFFFFFF#32).getLsbD i = true := by
      interval_cases i <;> rfl
    simp [← BitVec.getLsbD_eq_getElem, hbit]
  rw [BitVec.rotateLeft_def, mod_eq_of_lt hs, rotateLeft, hmask]

/-- One call of a macro is one operation, up to the places of the registers. -/
theorem view_run (x : Nat → BitVec 32) (r : Regs) {i : Nat} (hi : i < 64) :
    operation x ((rolesOf i).view r) i = (rolesOf (i + 1)).view ((callOf i).run x r) := by
  have hrot := fun w => rotateLeft_eq w (shift_lt i hi)
  have hmod : i % 4 = 0 ∨ i % 4 = 1 ∨ i % 4 = 2 ∨ i % 4 = 3 := by omega
  rcases hmod with h | h | h | h
  · have hroles : rolesOf i = .abcd := by simp [rolesOf, h]
    have hnext : rolesOf (i + 1) = .dabc := by simp [rolesOf, add_mod, h]
    simp [operation, Call.run, callOf, hroles, hnext, Roles.view, fn_macroOf, hrot]
  · have hroles : rolesOf i = .dabc := by simp [rolesOf, h]
    have hnext : rolesOf (i + 1) = .cdab := by simp [rolesOf, add_mod, h]
    simp [operation, Call.run, callOf, hroles, hnext, Roles.view, fn_macroOf, hrot]
  · have hroles : rolesOf i = .cdab := by simp [rolesOf, h]
    have hnext : rolesOf (i + 1) = .bcda := by simp [rolesOf, add_mod, h]
    simp [operation, Call.run, callOf, hroles, hnext, Roles.view, fn_macroOf, hrot]
  · have hroles : rolesOf i = .bcda := by simp [rolesOf, h]
    have hnext : rolesOf (i + 1) = .abcd := by simp [rolesOf, add_mod, h]
    simp [operation, Call.run, callOf, hroles, hnext, Roles.view, fn_macroOf, hrot]

/-- The first `n` calls are the first `n` operations. -/
theorem foldl_operation (x : Nat → BitVec 32) (r : Regs) {n : Nat} (hn : n ≤ 64) :
    (List.range n).foldl (operation x) r =
      (rolesOf n).view ((List.range n).foldl (fun r i => (callOf i).run x r) r) := by
  induction n with
  | zero => rfl
  | succ n ih =>
    rw [range_succ, foldl_append, foldl_append, ih (by omega)]
    exact view_run x _ (by omega)

theorem encode_eq (r : Regs) (buffer : List UInt8) : encode r buffer = compress r buffer := by
  have hword : (fun k => getUInt32 buffer (4 * k)) = word buffer := rfl
  have hfold : calls.foldl (Call.run (word buffer)) r =
      (List.range 64).foldl (operation (word buffer)) r := by
    rw [calls_eq, foldl_map, foldl_operation _ _ (Nat.le_refl 64), show rolesOf 64 = .abcd from rfl,
      Roles.view_abcd]
  unfold encode compress
  rw [hword, hfold]

theorem digestBytes_eq (r : Regs) : MD5.digestBytes r = output r := by
  simp [MD5.digestBytes, output, wordBytes, Nat.mul_comm]

/-! ## The buffer -/

/-- A copy inside the bounds replaces `n` bytes. -/
theorem memcpy_eq {dst src : List UInt8} {off n : Nat} (hdst : off + n ≤ dst.length)
    (hsrc : n ≤ src.length) :
    memcpy dst off src n = some (dst.take off ++ src.take n ++ dst.drop (off + n)) :=
  if_pos ⟨hdst, hsrc⟩

/-- A copy inside the bounds keeps the bytes before it. -/
theorem memcpy_spec {dst src : List UInt8} {off n : Nat} (hdst : off + n ≤ dst.length)
    (hsrc : n ≤ src.length) :
    ∃ buf, memcpy dst off src n = some buf ∧ buf.length = dst.length ∧
      buf.take off = dst.take off ∧ buf.take (off + n) = dst.take off ++ src.take n := by
  have hoff : (dst.take off).length = off := by
    rw [length_take]
    omega
  have hlen : (dst.take off ++ src.take n).length = off + n := by
    rw [length_append, length_take, length_take]
    omega
  refine ⟨_, memcpy_eq hdst hsrc, ?_, ?_, ?_⟩
  · rw [length_append, hlen, length_drop]
    omega
  · rw [append_assoc, take_left' hoff]
  · rw [take_left' hlen]

theorem md5Buffer_eq : md5Buffer = 1024 := rfl

namespace MD5

/-- The bytes `whole` have been encoded, a whole number of blocks. -/
structure Encoded (s : MD5) (whole : List UInt8) : Prop where
  notFinalized : s.finalized = false
  length_buf : s.buf.length = md5Buffer
  length_whole : whole.length % 64 = 0
  regs : s.regs = process (whole.length / 64) init whole
  bits : s.bits = whole.length % 2 ^ 32

/-- The message `m` has been put: its last bytes are in the buffer. -/
def Absorbed (s : MD5) (m : List UInt8) : Prop :=
  s.size ≤ md5Buffer ∧ ∃ whole, s.Encoded whole ∧ m = whole ++ s.buf.take s.size

theorem absorbed_new : new.Absorbed [] :=
  ⟨Nat.zero_le _, [], ⟨rfl, by simp [new], rfl, rfl, rfl⟩, rfl⟩

/-- Other registers and another number of bytes. -/
def setRegs (s : MD5) (regs : Regs) (bits : Nat) : MD5 := { s with regs, bits }

section setRegs

variable (s : MD5) (regs : Regs) (bits : Nat)

@[simp] theorem setRegs_finalized : (s.setRegs regs bits).finalized = s.finalized := rfl
@[simp] theorem setRegs_regs : (s.setRegs regs bits).regs = regs := rfl
@[simp] theorem setRegs_buf : (s.setRegs regs bits).buf = s.buf := rfl
@[simp] theorem setRegs_size : (s.setRegs regs bits).size = s.size := rfl
@[simp] theorem setRegs_bits : (s.setRegs regs bits).bits = bits := rfl

end setRegs

/-- The state when one more block has been encoded. -/
def encodeBlock (s : MD5) (block : List UInt8) : MD5 :=
  s.setRegs (encode s.regs block) ((s.bits + 64) % 2 ^ 32)

/-- One more block is encoded. -/
theorem Encoded.block {s : MD5} {whole block : List UInt8} (h : s.Encoded whole)
    (hblock : block.length = 64) : (s.encodeBlock block).Encoded (whole ++ block) := by
  have hlen : (whole ++ block).length = whole.length + 64 := by rw [length_append, hblock]
  have hdiv : (whole ++ block).length / 64 = whole.length / 64 + 1 := by omega
  have hmod := h.length_whole
  have hwhole : whole.length = 64 * (whole.length / 64) := by omega
  unfold encodeBlock
  constructor
  · rw [setRegs_finalized]
    exact h.notFinalized
  · rw [setRegs_buf]
    exact h.length_buf
  · omega
  · rw [hdiv, process_append _ 1 _ hwhole, process_one _ hblock, ← h.regs, setRegs_regs, encode_eq]
  · rw [setRegs_bits, h.bits, hlen]
    omega

/-- A turn of `update` encodes a block or finds less than 64 bytes. -/
theorem updateTurn_inl {s : MD5} {i : Nat} (h : s.size - i > 63) :
    updateTurn (s, i) = .inl (s.encodeBlock ((s.buf.drop i).take 64), i + 64) :=
  if_pos h

theorem updateTurn_inr {s : MD5} {i : Nat} (h : ¬s.size - i > 63) : updateTurn (s, i) = .inr (s, i) :=
  if_neg h

/-- In the loop of `update` on `s`, the blocks of the buffer before the place of the loop are encoded,
and `k` blocks remain. -/
structure Updating (s : MD5) (whole : List UInt8) (k : Nat) (st : MD5 × Nat) : Prop where
  encoded : st.1.Encoded (whole ++ s.buf.take st.2)
  buf : st.1.buf = s.buf
  size : st.1.size = s.size
  le : st.2 ≤ s.size
  rest : (s.size - st.2) / 64 = k

theorem Updating.turn {s t : MD5} {whole : List UInt8} {i k : Nat} (hsize : s.size ≤ md5Buffer)
    (h : s.Updating whole k (t, i)) (hturn : t.size - i > 63) :
    ∃ st, updateTurn (t, i) = .inl st ∧ s.Updating whole (k - 1) st := by
  obtain ⟨henc, hbuf, hst, hi, hk⟩ := h
  simp only at henc hbuf hst hi hk
  have hlen : s.buf.length = md5Buffer := hbuf ▸ henc.length_buf
  rw [md5Buffer_eq] at hlen hsize
  have hblock : ((t.buf.drop i).take 64).length = 64 := by
    rw [hbuf, length_take, length_drop, hlen]
    omega
  refine ⟨_, updateTurn_inl hturn, ?_⟩
  constructor
  · have hnext := henc.block hblock
    rw [append_assoc, hbuf, ← take_add] at hnext
    rw [hbuf]
    exact hnext
  · exact (setRegs_buf _ _ _).trans hbuf
  · exact (setRegs_size _ _ _).trans hst
  · show i + 64 ≤ s.size
    omega
  · show (s.size - (i + 64)) / 64 = k - 1
    omega

/-- The loop of `update` on a buffer of `size` bytes. -/
theorem run_updateTurn {s : MD5} {whole : List UInt8} (h : s.Encoded whole) (hsize : s.size ≤ md5Buffer) :
    ∃ st : MD5 × Nat, Loop.run updateTurn (s.size / 64 + 1) (s, 0) = some st ∧
      s.Updating whole 0 st ∧ s.size - st.2 < 64 := by
  have hstart : s.Updating whole (s.size / 64) (s, 0) := by
    refine ⟨?_, rfl, rfl, Nat.zero_le _, rfl⟩
    rw [take_zero, append_nil]
    exact h
  refine Loop.exists_run_eq_some updateTurn (s.Updating whole) _ ?_ _ _ _ hstart (lt_succ_self _)
  rintro k ⟨t, i⟩ hupd
  have hst : t.size = s.size := hupd.size
  have hi : i ≤ s.size := hupd.le
  have hk : (s.size - i) / 64 = k := hupd.rest
  by_cases hturn : t.size - i > 63
  · left
    obtain ⟨st, hstep, hst'⟩ := hupd.turn hsize hturn
    exact ⟨st, k - 1, hstep, by omega, hst'⟩
  · right
    have hk0 : k = 0 := by omega
    subst hk0
    exact ⟨_, updateTurn_inr hturn, hupd, by omega⟩

/-- `update` encodes the whole blocks of the buffer and leaves the other bytes in it. -/
theorem update_spec {s : MD5} {m : List UInt8} (h : s.Absorbed m) :
    ∃ s', s.update = some s' ∧ s'.Absorbed m ∧ s'.size = s.size % 64 := by
  obtain ⟨hsize, whole, henc, hm⟩ := h
  obtain ⟨⟨t, i⟩, hrun, ⟨henc', hbuf, hst, hi, -⟩, hlt⟩ := run_updateTurn henc hsize
  simp only at henc' hbuf hst hi hlt
  have hbytes : s.buf.length = md5Buffer := henc.length_buf
  have hmod : i % 64 = 0 := by
    have hwhole := henc.length_whole
    have hwhole' := henc'.length_whole
    rw [length_append, length_take] at hwhole'
    omega
  -- the bytes after the last whole block
  have hrest : ((s.buf.drop i).take (s.size - i)).length = s.size - i := by
    rw [length_take, length_drop]
    omega
  have hcopy : memcpy (replicate 64 0) 0 (t.buf.drop i) (t.size - i) =
      some ((s.buf.drop i).take (s.size - i) ++ replicate (64 - (s.size - i)) 0) := by
    rw [hbuf, hst, memcpy_eq (by rw [length_replicate]; omega) (by rw [length_drop]; omega),
      drop_replicate, Nat.zero_add, take_zero, nil_append]
  have hback : memcpy t.buf 0 ((s.buf.drop i).take (s.size - i) ++ replicate (64 - (s.size - i)) 0)
      (t.size - i) = some ((s.buf.drop i).take (s.size - i) ++ s.buf.drop (s.size - i)) := by
    rw [hbuf, hst, memcpy_eq (by omega) (by rw [length_append]; omega),
      take_append_of_le_length (by omega), take_of_length_le (Nat.le_of_eq hrest),
      Nat.zero_add, take_zero, nil_append]
  have hupdate : s.update = some { t with
      buf := (s.buf.drop i).take (s.size - i) ++ s.buf.drop (s.size - i), size := s.size - i } := by
    have hrun' : Loop.run updateTurn (s.size / 64 + 1) (s, 0) = some (t, i) := hrun
    unfold update
    rw [henc.notFinalized, hrun']
    simp only [Bool.false_eq_true, if_false, Option.pure_def, Option.bind_eq_bind, Option.bind_some,
      hcopy, hback]
    rw [hst]
  refine ⟨_, hupdate, ⟨?_, _, ⟨henc'.notFinalized, ?_, henc'.length_whole, henc'.regs, henc'.bits⟩, ?_⟩, ?_⟩
  · show s.size - i ≤ md5Buffer
    omega
  · show ((s.buf.drop i).take (s.size - i) ++ s.buf.drop (s.size - i)).length = md5Buffer
    rw [length_append, hrest, length_drop]
    omega
  · show m = whole ++ s.buf.take i ++ ((s.buf.drop i).take (s.size - i) ++ s.buf.drop (s.size - i)).take
      (s.size - i)
    rw [take_append_of_le_length (by omega), take_of_length_le (Nat.le_of_eq hrest),
      append_assoc, ← take_add, hm]
    congr 2
    omega
  · show s.size - i = s.size % 64
    omega

/-- Bytes are copied after the ones of the buffer. -/
theorem Absorbed.fill {s : MD5} {m bytes : List UInt8} (h : s.Absorbed m)
    (hroom : s.size + bytes.length ≤ md5Buffer) :
    ∃ buf, memcpy s.buf s.size bytes bytes.length = some buf ∧
      Absorbed { s with buf, size := s.size + bytes.length } (m ++ bytes) := by
  obtain ⟨hsize, whole, henc, hm⟩ := h
  have hlen : s.buf.length = md5Buffer := henc.length_buf
  have hdst : s.size + bytes.length ≤ s.buf.length := by omega
  obtain ⟨buf, hcopy, hbuf, -, htake⟩ := memcpy_spec hdst (Nat.le_refl bytes.length)
  refine ⟨buf, hcopy, hroom, whole, ?_, ?_⟩
  · exact ⟨henc.notFinalized, hbuf.trans hlen, henc.length_whole, henc.regs, henc.bits⟩
  · rw [htake, take_length, hm, append_assoc]

/-! ## `put` of a block -/

/-- A turn for a block that does not fit: the bytes already in the buffer are handled, and the block
is not. -/
theorem putTurn_inl {s : MD5} {m block : List UInt8} (h : s.Absorbed m)
    (hbig : (block.length + s.size) % 2 ^ 32 > md5Buffer) :
    ∃ s', putTurn block s = .inl s' ∧ s'.Absorbed m ∧ s'.size = s.size % 64 := by
  obtain ⟨hsize, whole, henc, hm⟩ := h
  have hlen : s.buf.length = md5Buffer := henc.length_buf
  have hdst : s.size + min block.length (md5Buffer - s.size) ≤ s.buf.length := by omega
  obtain ⟨buf, hcopy, hbuf, htake, -⟩ := memcpy_spec hdst (Nat.min_le_left block.length _)
  have habs : Absorbed { s with buf } m := by
    refine ⟨hsize, whole, ?_, hm.trans (congrArg _ htake.symm)⟩
    exact ⟨henc.notFinalized, hbuf.trans hlen, henc.length_whole, henc.regs, henc.bits⟩
  obtain ⟨s', hupdate, hs'⟩ := update_spec habs
  refine ⟨s', ?_, hs'⟩
  unfold putTurn
  rw [if_pos hbig]
  simp [hcopy, hupdate]

/-- The last turn: the block is copied. -/
theorem putTurn_inr {s : MD5} {m block : List UInt8} (h : s.Absorbed m)
    (hfits : s.size + block.length ≤ md5Buffer) :
    ∃ s', putTurn block s = .inr (some s') ∧ s'.Absorbed (m ++ block) := by
  obtain ⟨buf, hcopy, habs⟩ := h.fill hfits
  refine ⟨_, ?_, habs⟩
  have hsmall : ¬(block.length + s.size) % 2 ^ 32 > md5Buffer := by
    have hmod := mod_le (block.length + s.size) (2 ^ 32)
    omega
  unfold putTurn
  rw [if_neg hsmall, hcopy]
  rfl

/-- A block that fits in the buffer after its last whole block is put in two turns at most. -/
theorem put_spec {s : MD5} {m block : List UInt8} (h : s.Absorbed m)
    (hfits : s.size % 64 + block.length ≤ md5Buffer) {fuel : Nat} (hfuel : 2 ≤ fuel) :
    ∃ s', put fuel s block = some s' ∧ s'.Absorbed (m ++ block) := by
  obtain ⟨fuel, rfl⟩ : ∃ n, fuel = n + 1 + 1 := ⟨fuel - 2, by omega⟩
  have hsize : s.size ≤ md5Buffer := h.1
  by_cases hfirst : s.size + block.length ≤ md5Buffer
  · obtain ⟨s', hturn, habs⟩ := putTurn_inr h hfirst
    refine ⟨s', ?_, habs⟩
    rw [put, Loop.run_succ_inr hturn]
    rfl
  · have hbig : (block.length + s.size) % 2 ^ 32 > md5Buffer := by
      unfold md5Buffer at *
      omega
    obtain ⟨s₁, hturn₁, habs₁, hsize₁⟩ := putTurn_inl h hbig
    obtain ⟨s', hturn, habs⟩ := putTurn_inr habs₁ (by rw [hsize₁]; exact hfits)
    refine ⟨s', ?_, habs⟩
    rw [put, Loop.run_succ_inl hturn₁, Loop.run_succ_inr hturn]
    rfl

/-- Any other block is never put: the loop does not end or the last copy leaves the buffer. -/
theorem put_eq_none {s : MD5} {m block : List UInt8} (h : s.Absorbed m)
    (hbig : md5Buffer < s.size % 64 + block.length) (fuel : Nat) :
    put fuel s block = none := by
  induction fuel generalizing s with
  | zero => rfl
  | succ fuel ih =>
    by_cases hturn : (block.length + s.size) % 2 ^ 32 > md5Buffer
    · obtain ⟨s', hs', habs, hsize⟩ := putTurn_inl h hturn
      have hnext := ih habs (by rw [hsize, mod_mod]; exact hbig)
      rw [put] at hnext ⊢
      rw [Loop.run_succ_inl hs', hnext]
    · -- the sum of the lengths has wrapped, and the copy is as long as the block
      have hout : ¬(s.size + block.length ≤ s.buf.length ∧ block.length ≤ block.length) := by
        obtain ⟨hsize, whole, henc, -⟩ := h
        have hlen := henc.length_buf
        have hmod := mod_le s.size 64
        omega
      have hnone : putTurn block s = .inr none := by
        unfold putTurn memcpy
        rw [if_neg hturn, if_neg hout]
        rfl
      rw [put, Loop.run_succ_inr hnone]
      rfl

/-! ## `put` of a stream -/

/-- The bytes of a stream up to its end, which is the first read of no byte. -/
def streamBytes (input : InStream) : List UInt8 := (input.takeWhile (· ≠ [])).flatten

@[simp] theorem streamBytes_nil : streamBytes [] = [] := rfl

theorem streamBytes_cons {chunk : List UInt8} (h : chunk ≠ []) (chunks : InStream) :
    streamBytes (chunk :: chunks) = chunk ++ streamBytes chunks := by
  simp [streamBytes, h]

theorem streamBytes_eq_nil {input : InStream} : streamBytes input = [] ↔ input.headD [] = [] := by
  cases input with
  | nil => simp
  | cons chunk chunks =>
    by_cases h : chunk = []
    · simp [streamBytes, h]
    · rw [streamBytes_cons h]
      simp [h]

theorem read_cons (n : Nat) (chunk : List UInt8) (chunks : InStream) :
    read n (chunk :: chunks) =
      if n < chunk.length then (chunk.take n, chunk.drop n :: chunks) else (chunk, chunks) :=
  rfl

/-- A read of at most `n` bytes gives the first ones of the first chunk. -/
theorem read_fst (n : Nat) (input : InStream) : (read n input).1 = (input.headD []).take n := by
  cases input with
  | nil => simp [read]
  | cons chunk chunks =>
    rw [read_cons]
    split_ifs with h
    · rfl
    · exact (take_of_length_le (Nat.le_of_not_lt h)).symm

/-- The bytes that are read are not read again. -/
theorem streamBytes_read {n : Nat} {input : InStream} (h : input.headD [] ≠ []) :
    (read n input).1 ++ streamBytes (read n input).2 = streamBytes input := by
  cases input with
  | nil => cases h rfl
  | cons chunk chunks =>
    have hchunk : chunk ≠ [] := h
    rw [read_cons]
    split_ifs with hn
    · have hdrop : chunk.drop n ≠ [] := by
        rw [Ne, drop_eq_nil_iff]
        omega
      rw [streamBytes_cons hdrop, streamBytes_cons hchunk, ← append_assoc, take_append_drop]
    · rw [streamBytes_cons hchunk]

/-- The body of the loops puts the bytes that it reads. -/
theorem readUpdate_spec {s : MD5} {m : List UInt8} (h : s.Absorbed m) {n : Nat}
    (hn : n ≤ md5Buffer - s.size) (input : InStream) :
    ∃ s', readUpdate s n input = some ((read n input).1.length, s', (read n input).2) ∧
      s'.Absorbed (m ++ (read n input).1) ∧ s'.size = (s.size + (read n input).1.length) % 64 := by
  have hlen : (read n input).1.length ≤ n := by
    rw [read_fst, length_take]
    omega
  have hsize : s.size ≤ md5Buffer := h.1
  have hroom : s.size + (read n input).1.length ≤ md5Buffer := by omega
  obtain ⟨buf, hcopy, habs⟩ := h.fill hroom
  obtain ⟨s', hupdate, habs', hsize'⟩ := update_spec habs
  refine ⟨s', ?_, habs', hsize'⟩
  unfold readUpdate
  simp [hcopy, hupdate]

/-- A stream is put up to its end, if there is room in the buffer for the first read. -/
theorem putStream_spec {s : MD5} {m : List UInt8} (h : s.Absorbed m) {input : InStream}
    (hroom : s.size < md5Buffer ∨ streamBytes input = []) {fuel : Nat}
    (hfuel : (streamBytes input).length < fuel) :
    ∃ st, putStream fuel s input = some st ∧ st.1.Absorbed (m ++ streamBytes input) := by
  -- the bytes put and the ones that remain are those of the stream
  let inv (k : Nat) (st : MD5 × InStream) : Prop :=
    (streamBytes st.2).length = k ∧ (st.1.size < md5Buffer ∨ streamBytes st.2 = []) ∧
      ∃ m', st.1.Absorbed m' ∧ m' ++ streamBytes st.2 = m ++ streamBytes input
  have hrun := Loop.exists_run_eq_some putStreamTurn inv
    (fun r => ∃ st, r = some st ∧ st.1.Absorbed (m ++ streamBytes input)) ?_ fuel _ (s, input)
    ⟨rfl, hroom, m, h, rfl⟩ hfuel
  · obtain ⟨r, hr, st, rfl, hst⟩ := hrun
    refine ⟨st, ?_, hst⟩
    rw [putStream, hr]
    rfl
  · rintro k ⟨t, rest⟩ ⟨hk, hroom, m', habs, hm'⟩
    simp only at hk hroom habs hm'
    obtain ⟨t', hbody, habs', hsize'⟩ := readUpdate_spec habs (Nat.le_refl _) rest
    by_cases hend : streamBytes rest = []
    · right
      have hhead : (read (md5Buffer - t.size) rest).1 = [] := by
        rw [read_fst, streamBytes_eq_nil.mp hend, take_nil]
      refine ⟨some (t', (read (md5Buffer - t.size) rest).2), ?_, _, rfl, ?_⟩
      · unfold putStreamTurn
        simp [hbody, hhead]
      · rw [hhead, append_nil] at habs'
        rw [hend, append_nil] at hm'
        exact hm' ▸ habs'
    · left
      have hhead : rest.headD [] ≠ [] := fun hnil => hend (streamBytes_eq_nil.mpr hnil)
      have hread : (read (md5Buffer - t.size) rest).1 ≠ [] := by
        rw [read_fst, Ne, take_eq_nil_iff]
        have hlt := hroom.resolve_right hend
        rintro (hzero | hnil)
        · omega
        · exact hhead hnil
      have hsplit := streamBytes_read (n := md5Buffer - t.size) hhead
      refine ⟨(t', (read (md5Buffer - t.size) rest).2), _, ?_, ?_, rfl, Or.inl ?_, _, habs', ?_⟩
      · unfold putStreamTurn
        simp [hbody, hread]
      · have hlen := congrArg List.length hsplit
        have hpos := length_pos_of_ne_nil hread
        rw [length_append] at hlen
        show (streamBytes (read (md5Buffer - t.size) rest).2).length < k
        omega
      · show t'.size < md5Buffer
        rw [hsize', md5Buffer_eq]
        omega
      · rw [append_assoc, hsplit, hm']

/-! ## `put` of a part of a stream -/

/-- The room in the buffer for the first read that is not an empty one. -/
def room (s : MD5) : Nat := md5Buffer - s.size % md5Buffer

theorem putLengthTurn_eq {s s' : MD5} {n r : Nat} {input rest : InStream}
    (hbody : readUpdate s (min n (md5Buffer - s.size)) input = some (r, s', rest)) :
    putLengthTurn (s, input, n) =
      if r = 0 ∧ n - r ≠ 0 then .inl (s', rest, n - r) else .inr (some (s', rest)) := by
  unfold putLengthTurn
  rw [hbody]

/-- A turn that reads all the bytes it has to. -/
theorem putLengthTurn_inr {s : MD5} {m : List UInt8} (h : s.Absorbed m) {n : Nat} {input : InStream}
    (hhead : input.headD [] ≠ []) (hsize : s.size < md5Buffer)
    (hone : min n (streamBytes input).length ≤ min (input.headD []).length s.room) :
    ∃ st, putLengthTurn (s, input, n) = .inr (some st) ∧
      st.1.Absorbed (m ++ (streamBytes input).take n) := by
  have hroom : s.room = md5Buffer - s.size := by rw [room, mod_eq_of_lt hsize]
  obtain ⟨s', hbody, habs, -⟩ := readUpdate_spec h (Nat.min_le_right n _) input
  have hsplit := streamBytes_read (n := min n (md5Buffer - s.size)) hhead
  have hlen := congrArg List.length hsplit
  have hfst : (read (min n (md5Buffer - s.size)) input).1.length =
      min (min n (md5Buffer - s.size)) (input.headD []).length := by
    rw [read_fst, length_take]
  have hpos := length_pos_of_ne_nil hhead
  rw [length_append] at hlen
  -- the bytes read are the first `n` of the stream
  have hread : (read (min n (md5Buffer - s.size)) input).1 = (streamBytes input).take n := by
    have htake := congrArg (List.take (read (min n (md5Buffer - s.size)) input).1.length) hsplit
    rw [take_left'] at htake
    · rw [htake]
      by_cases hn : n ≤ (streamBytes input).length
      · congr 1
        omega
      · rw [take_of_length_le (by omega), take_of_length_le (by omega)]
    · rfl
  refine ⟨(s', (read (min n (md5Buffer - s.size)) input).2), ?_, hread ▸ habs⟩
  have hstop : ¬((read (min n (md5Buffer - s.size)) input).1.length = 0 ∧
      n - (read (min n (md5Buffer - s.size)) input).1.length ≠ 0) := by
    rintro ⟨hzero, hne⟩
    omega
  rw [putLengthTurn_eq hbody, if_neg hstop]

/-- A part of a stream is put when it is empty or when one read gives the whole of it. -/
theorem putLength_spec {s : MD5} {m : List UInt8} (h : s.Absorbed m) {n : Nat} {input : InStream}
    (hone : n = 0 ∨ streamBytes input ≠ [] ∧
      min n (streamBytes input).length ≤ min (input.headD []).length s.room) {fuel : Nat}
    (hfuel : 2 ≤ fuel) :
    ∃ st, putLength fuel s input n = some st ∧ st.1.Absorbed (m ++ (streamBytes input).take n) := by
  obtain ⟨fuel, rfl⟩ : ∃ k, fuel = k + 1 + 1 := ⟨fuel - 2, by omega⟩
  have hle : s.size ≤ md5Buffer := h.1
  by_cases hn : n = 0
  · subst hn
    obtain ⟨s', hbody, habs, -⟩ := readUpdate_spec h (Nat.zero_le _) input
    have hread : (read 0 input).1 = [] := by
      rw [read_fst, take_zero]
    refine ⟨(s', (read 0 input).2), ?_, ?_⟩
    · have hturn : putLengthTurn (s, input, 0) = .inr (some (s', (read 0 input).2)) := by
        rw [putLengthTurn_eq (by rw [Nat.zero_min]; exact hbody), if_neg]
        rintro ⟨-, hpos⟩
        exact hpos (Nat.zero_sub _)
      rw [putLength, Loop.run_succ_inr hturn]
      rfl
    · rw [take_zero]
      rw [hread] at habs
      exact habs
  · obtain ⟨hne, hone⟩ := hone.resolve_left hn
    have hhead : input.headD [] ≠ [] := fun hnil => hne (streamBytes_eq_nil.mpr hnil)
    by_cases hfull : s.size = md5Buffer
    · -- the buffer is full: a read of no byte, after which it is empty
      obtain ⟨s₁, hbody, habs, hsize⟩ := readUpdate_spec h (Nat.zero_le _) input
      have hread : read 0 input = ([], input) := by
        cases input with
        | nil => cases hhead rfl
        | cons chunk chunks =>
          have hpos : 0 < chunk.length := length_pos_of_ne_nil hhead
          rw [read_cons, if_pos hpos, take_zero, drop_zero]
      have hempty : (read 0 input).1.length = 0 := by rw [hread]; rfl
      rw [hread] at hbody habs
      have hsize₁ : s₁.size = 0 := by
        rw [hsize, hempty, hfull]
        norm_num [md5Buffer]
      have hroom : s₁.room = s.room := by
        rw [room, room, hsize₁, hfull, mod_self, zero_mod]
      obtain ⟨st, hturn, hst⟩ := putLengthTurn_inr habs hhead (by rw [hsize₁]; norm_num [md5Buffer])
        (by rw [hroom]; exact hone)
      rw [append_nil] at hst
      refine ⟨st, ?_, hst⟩
      have hfirst : putLengthTurn (s, input, n) = .inl (s₁, input, n) := by
        have hmin : min n (md5Buffer - s.size) = 0 := by rw [hfull, Nat.sub_self, Nat.min_zero]
        rw [putLengthTurn_eq (by rw [hmin]; exact hbody)]
        exact if_pos ⟨rfl, hn⟩
      rw [putLength, Loop.run_succ_inl hfirst, Loop.run_succ_inr hturn]
      rfl
    · obtain ⟨st, hturn, hst⟩ := putLengthTurn_inr h hhead (by omega) hone
      refine ⟨st, ?_, hst⟩
      rw [putLength, Loop.run_succ_inr hturn]
      rfl

end MD5

end Elm.Checksum
