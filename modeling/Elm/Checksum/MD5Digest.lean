import Elm.Checksum.MD5Run

/-!
# The digest of a whole run

The last block ends with the padding of the message, and a run of `put` calls gives the digest of the
bytes that they have put.
-/

namespace Elm.Checksum

open Md5 List Option

/-- A copy after a part of the destination. -/
theorem memcpy_append {xs ys src : List UInt8} {off n : Nat} (hoff : xs.length = off) (hn : n ≤ ys.length)
    (hsrc : n ≤ src.length) : memcpy (xs ++ ys) off src n = some (xs ++ src.take n ++ ys.drop n) := by
  subst hoff
  have hdst : xs.length + n ≤ (xs ++ ys).length := by
    rw [length_append]
    omega
  rw [memcpy_eq hdst hsrc, take_left, drop_length_add_append]

/-- The start of the padding. -/
theorem take_md5Padding {n : Nat} (hn : 0 < n) (hn' : n ≤ 64) :
    md5Padding.take n = 0x80 :: replicate (n - 1) 0 := by
  obtain ⟨k, rfl⟩ : ∃ k, n = k + 1 := ⟨n - 1, by omega⟩
  have hmin : min k 63 = k := by omega
  rw [md5Padding, take_succ_cons, take_replicate, hmin, Nat.add_sub_cancel]

theorem ofNat_eq_of_mod_eq {a b : Nat} (h : a % 256 = b % 256) : UInt8.ofNat a = UInt8.ofNat b := by
  rw [← UInt8.toNat_inj]
  simpa using h

/-- The eight bytes written by `addsize` are the length in bits, when it is below `2 ^ 32`. -/
theorem sizeBytes_eq {n : Nat} (hn : n % 2 ^ 61 < 2 ^ 29) :
    [UInt8.ofNat ((n % 2 ^ 32) <<< 3), UInt8.ofNat ((n % 2 ^ 32) >>> 5), UInt8.ofNat ((n % 2 ^ 32) >>> 13),
      UInt8.ofNat ((n % 2 ^ 32) >>> 21), 0, 0, 0, 0] = lengthBytes n := by
  have hzero : (0 : UInt8) = UInt8.ofNat 0 := rfl
  simp only [lengthBytes, range_succ, range_zero, nil_append, cons_append,
    map_cons, map_nil, Nat.shiftLeft_eq, Nat.shiftRight_eq_div_pow, hzero, List.cons.injEq,
    Nat.reducePow] at hn ⊢
  refine ⟨?_, ?_, ?_, ?_, ?_, ?_, ?_, ?_, trivial⟩ <;> apply ofNat_eq_of_mod_eq <;> omega

namespace MD5

theorem addsize_eq {xs ys : List UInt8} (hxs : xs.length = 56) (hys : ys.length = 8) {n : Nat}
    (hn : n % 2 ^ 61 < 2 ^ 29) : addsize (xs ++ ys) 56 (n % 2 ^ 32) = some (xs ++ lengthBytes n) := by
  have hend : ys.drop 8 = [] := drop_of_length_le (by omega)
  unfold addsize
  rw [if_pos (by norm_num), sizeBytes_eq hn, memcpy_append hxs (by omega) (by simp), hend,
    take_of_length_le (by simp), append_nil]

/-- The digest of a message whose last bytes are in the buffer. -/
theorem Encoded.digest_eq {s : MD5} {whole : List UInt8} (h : s.Encoded whole) (tail : List UInt8) :
    Md5.digest (whole ++ tail) = output (process
      ((tail ++ padding (whole ++ tail).length).length / 64) s.regs (tail ++ padding (whole ++ tail).length)) := by
  have hwhole : whole.length = 64 * (whole.length / 64) := by
    have hmod := h.length_whole
    omega
  have hblocks : (whole ++ tail ++ padding (whole ++ tail).length).length / 64 =
      whole.length / 64 + (tail ++ padding (whole ++ tail).length).length / 64 := by
    simp only [length_append]
    omega
  unfold Md5.digest
  simp only
  rw [append_assoc whole, process_blocks _ _ hwhole _ (by rw [← append_assoc]; exact hblocks),
    h.regs]

/-- The bytes of the buffer leave no room for the length: two blocks are encoded. -/
theorem finalize_long {s : MD5} (hbuf : s.buf.length = md5Buffer) (hlow : 56 ≤ s.size)
    (hhigh : s.size < 64) {n : Nat} (hbits : (s.bits + s.size) % 2 ^ 32 = n % 2 ^ 32)
    (hn : n % 2 ^ 61 < 2 ^ 29) :
    ∃ s', s.finalize = some s' ∧ s'.digest = output (compress
      (compress s.regs (s.buf.take s.size ++ 0x80 :: replicate (63 - s.size) 0))
      (replicate 56 0 ++ lengthBytes n)) := by
  have hsize : (s.buf.take s.size).length = s.size := by
    rw [length_take, hbuf, md5Buffer_eq]
    omega
  have hcopy : memcpy (replicate 64 0) 0 s.buf s.size =
      some (s.buf.take s.size ++ replicate (64 - s.size) 0) := by
    rw [memcpy_eq (by rw [length_replicate]; omega) (by rw [hbuf, md5Buffer_eq]; omega),
      drop_replicate, Nat.zero_add, take_zero, nil_append]
  have hpad : memcpy (s.buf.take s.size ++ replicate (64 - s.size) 0) s.size md5Padding (64 - s.size) =
      some (s.buf.take s.size ++ 0x80 :: replicate (63 - s.size) 0) := by
    have hone : 64 - s.size - 1 = 63 - s.size := by omega
    rw [memcpy_append hsize (by rw [length_replicate]) (by simp [md5Padding]),
      take_md5Padding (by omega) (by omega), drop_of_length_le (by rw [length_replicate]),
      append_nil, hone]
  have hlen : (s.buf.take s.size ++ 0x80 :: replicate (63 - s.size) (0 : UInt8)).length = 64 := by
    rw [length_append, hsize, length_cons, length_replicate]
    omega
  have hclear : memcpy (s.buf.take s.size ++ 0x80 :: replicate (63 - s.size) 0) 0
      (replicate 56 0) 56 = some (replicate 56 0 ++
        (s.buf.take s.size ++ 0x80 :: replicate (63 - s.size) 0).drop 56) := by
    rw [memcpy_eq (by omega) (by rw [length_replicate]), take_replicate, Nat.min_self,
      Nat.zero_add, take_zero, nil_append]
  have hfront : (replicate 56 (0 : UInt8)).length = 56 := length_replicate
  have hback : ((s.buf.take s.size ++ 0x80 :: replicate (63 - s.size) (0 : UInt8)).drop 56).length = 8 := by
    rw [length_drop, hlen]
  have hadd := addsize_eq hfront hback hn
  have hbranch : s.size + 1 > 56 := by omega
  unfold finalize
  simp only [hcopy, hpad, hclear, hbits, hadd, hbranch, if_true, bind_eq_bind, bind_some,
    Option.pure_def, some.injEq, exists_eq_left', digestBytes_eq, encode_eq]

/-- The bytes of the buffer, the padding and the length fill one block. -/
theorem finalize_short {s : MD5} (hbuf : s.buf.length = md5Buffer) (hhigh : s.size < 56) {n : Nat}
    (hbits : (s.bits + s.size) % 2 ^ 32 = n % 2 ^ 32) (hn : n % 2 ^ 61 < 2 ^ 29) :
    ∃ s', s.finalize = some s' ∧ s'.digest = output (compress s.regs
      (s.buf.take s.size ++ 0x80 :: replicate (55 - s.size) 0 ++ lengthBytes n)) := by
  have hsize : (s.buf.take s.size).length = s.size := by
    rw [length_take, hbuf, md5Buffer_eq]
    omega
  have hcopy : memcpy (replicate 64 0) 0 s.buf s.size =
      some (s.buf.take s.size ++ replicate (64 - s.size) 0) := by
    rw [memcpy_eq (by rw [length_replicate]; omega) (by rw [hbuf, md5Buffer_eq]; omega),
      drop_replicate, Nat.zero_add, take_zero, nil_append]
  have hpad : memcpy (s.buf.take s.size ++ replicate (64 - s.size) 0) s.size md5Padding (56 - s.size) =
      some (s.buf.take s.size ++ 0x80 :: replicate (55 - s.size) 0 ++ replicate 8 0) := by
    have hone : 56 - s.size - 1 = 55 - s.size := by omega
    have hrest : 64 - s.size - (56 - s.size) = 8 := by omega
    rw [memcpy_append hsize (by rw [length_replicate]; omega) (by simp [md5Padding]; omega),
      take_md5Padding (by omega) (by omega), drop_replicate, hone, hrest]
  have hlen : (s.buf.take s.size ++ 0x80 :: replicate (55 - s.size) (0 : UInt8)).length = 56 := by
    rw [length_append, hsize, length_cons, length_replicate]
    omega
  have hback : (replicate 8 (0 : UInt8)).length = 8 := length_replicate
  have hadd := addsize_eq hlen hback hn
  have hbranch : ¬s.size + 1 > 56 := by omega
  unfold finalize
  simp only [hcopy, hpad, hbits, hadd, hbranch, if_false, bind_eq_bind, bind_some,
    Option.pure_def, some.injEq, exists_eq_left', digestBytes_eq, encode_eq]

/-- `digest` of a buffer with less than a block. -/
theorem getDigest_eq {s : MD5} {m : List UInt8} (h : s.Absorbed m) (hsize : s.size < 64)
    (hlen : m.length % 2 ^ 61 < 2 ^ 29) : s.getDigest = some (Md5.digest m) := by
  obtain ⟨-, whole, henc, hm⟩ := h
  have htail : (s.buf.take s.size).length = s.size := by
    rw [length_take, henc.length_buf, md5Buffer_eq]
    omega
  have hmod := henc.length_whole
  have htotal : m.length = whole.length + s.size := by rw [hm, length_append, htail]
  have hbits : (s.bits + s.size) % 2 ^ 32 = m.length % 2 ^ 32 := by
    rw [henc.bits, htotal, Nat.mod_add_mod]
  have hdigest := henc.digest_eq (s.buf.take s.size)
  rw [← hm] at hdigest
  have hfin : ∃ s', s.finalize = some s' ∧ s'.digest = Md5.digest m := by
    by_cases hlong : 56 ≤ s.size
    · obtain ⟨s', hs', hd⟩ := finalize_long henc.length_buf hlong hsize hbits hlen
      refine ⟨s', hs', hd.trans ?_⟩
      -- the padding ends the first block and fills the second one
      have hzeros : (119 - m.length % 64) % 64 = (63 - s.size) + 56 := by omega
      have hrest : s.buf.take s.size ++ padding m.length =
          (s.buf.take s.size ++ 0x80 :: replicate (63 - s.size) 0) ++
            (replicate 56 0 ++ lengthBytes m.length) := by
        rw [padding, hzeros, replicate_add]
        simp only [append_assoc, cons_append]
      have hfirst : (s.buf.take s.size ++ 0x80 :: replicate (63 - s.size) (0 : UInt8)).length = 64 * 1 := by
        rw [length_append, htail, length_cons, length_replicate]
        omega
      have hsecond : (replicate 56 (0 : UInt8) ++ lengthBytes m.length).length = 64 := by simp
      rw [hdigest, hrest, length_append, hfirst, hsecond, process_append 1 1 _ hfirst,
        process_one _ hfirst, process_one _ hsecond]
    · obtain ⟨s', hs', hd⟩ := finalize_short henc.length_buf (by omega) hbits hlen
      refine ⟨s', hs', hd.trans ?_⟩
      have hzeros : (119 - m.length % 64) % 64 = 55 - s.size := by omega
      have hrest : s.buf.take s.size ++ padding m.length =
          s.buf.take s.size ++ 0x80 :: replicate (55 - s.size) 0 ++ lengthBytes m.length := by
        rw [padding, hzeros]
        simp only [append_assoc, cons_append]
      have hblock : (s.buf.take s.size ++ 0x80 :: replicate (55 - s.size) 0 ++
          lengthBytes m.length).length = 64 := by
        rw [length_append, length_append, htail, length_cons, length_replicate,
          length_lengthBytes]
        omega
      rw [hdigest, hrest, hblock, process_one _ hblock]
  obtain ⟨s', hs', hd⟩ := hfin
  unfold getDigest
  rw [henc.notFinalized, hs', ← hd]
  rfl

/-! ## Runs -/

/-- A call of one of the `put` functions. -/
inductive Piece
  | block (bytes : List UInt8)
  | stream (input : InStream)
  | part (input : InStream) (length : Nat)

/-- The bytes that a call has to put. -/
def Piece.bytes : Piece → List UInt8
  | .block bytes => bytes
  | .stream input => streamBytes input
  | .part input length => (streamBytes input).take length

/-- A call, whose loops make at most `fuel` turns. -/
def step (fuel : Nat) (s : MD5) : Piece → Option MD5
  | .block bytes => put fuel s bytes
  | .stream input => (putStream fuel s input).map Prod.fst
  | .part input length => (putLength fuel s input length).map Prod.fst

/-- The calls that put all their bytes: a block fits behind the last whole block of the buffer, a
stream finds some room in it, and the first read of a part of a stream gives the whole of it. -/
def Fits (s : MD5) : Piece → Prop
  | .block bytes => s.size % 64 + bytes.length ≤ md5Buffer
  | .stream input => s.size < md5Buffer ∨ streamBytes input = []
  | .part input length => length = 0 ∨ streamBytes input ≠ [] ∧
      min length (streamBytes input).length ≤ min (input.headD []).length s.room

theorem step_spec {s : MD5} {m : List UInt8} (h : s.Absorbed m) {p : Piece} (hfits : s.Fits p)
    {fuel : Nat} (hfuel : p.bytes.length + 2 ≤ fuel) :
    ∃ s', step fuel s p = some s' ∧ s'.Absorbed (m ++ p.bytes) := by
  cases p with
  | block bytes => exact put_spec h hfits (by omega)
  | stream input =>
    have hlt : (streamBytes input).length < fuel := by
      change (streamBytes input).length + 2 ≤ fuel at hfuel
      omega
    obtain ⟨st, hput, habs⟩ := putStream_spec h hfits hlt
    exact ⟨st.1, congrArg (Option.map Prod.fst) hput, habs⟩
  | part input length =>
    obtain ⟨st, hput, habs⟩ := putLength_spec h hfits (show 2 ≤ fuel by omega)
    exact ⟨st.1, congrArg (Option.map Prod.fst) hput, habs⟩

/-- A run of such calls puts the bytes of all of them. -/
theorem exec_spec {fuel : Nat} (pieces : List Piece) : ∀ {s : MD5} {m : List UInt8}, s.Absorbed m →
    Run.Meets Fits (step fuel) s pieces → (∀ p ∈ pieces, p.bytes.length + 2 ≤ fuel) →
    ∃ t, Run.exec (step fuel) s pieces = some t ∧ t.Absorbed (m ++ pieces.flatMap Piece.bytes) := by
  induction pieces with
  | nil =>
    intro s m h _ _
    refine ⟨s, rfl, ?_⟩
    rw [flatMap_nil, append_nil]
    exact h
  | cons p pieces ih =>
    intro s m h hmeets hfuel
    obtain ⟨s', hstep, habs⟩ := step_spec h hmeets.1 (hfuel p mem_cons_self)
    obtain ⟨t, hexec, ht⟩ := ih habs (hmeets.2 s' hstep) fun q hq => hfuel q (mem_cons_of_mem p hq)
    refine ⟨t, Run.exec_cons_eq_some.mpr ⟨s', hstep, hexec⟩, ?_⟩
    rw [flatMap_cons, ← append_assoc]
    exact ht

/-- A message whose pieces fit in the buffer is put, and its digest is given when less than a block is
in the buffer and its length in bits is below `2 ^ 32` modulo `2 ^ 64`. -/
theorem digest_exec (pieces : List Piece) (fuel : Nat)
    (hfuel : ∀ p ∈ pieces, p.bytes.length + 2 ≤ fuel)
    (hfits : Run.Meets Fits (step fuel) new pieces) :
    ∃ s, Run.exec (step fuel) new pieces = some s ∧
      (s.size < 64 → (pieces.flatMap Piece.bytes).length % 2 ^ 61 < 2 ^ 29 →
        s.getDigest = some (Md5.digest (pieces.flatMap Piece.bytes))) := by
  obtain ⟨s, hexec, habs⟩ := exec_spec pieces absorbed_new hfits hfuel
  exact ⟨s, hexec, fun hsize hlen => getDigest_eq habs hsize hlen⟩

/-- A stream of three bytes in two chunks. -/
theorem digest_exec_abc :
    ∃ s, Run.exec (step 5) new [.stream [[0x61], [0x62, 0x63]]] = some s ∧
      (s.size < 64 → 3 % 2 ^ 61 < 2 ^ 29 → s.getDigest = some (Md5.digest [0x61, 0x62, 0x63])) := by
  refine digest_exec [.stream [[0x61], [0x62, 0x63]]] 5 (by decide) ⟨Or.inl ?_, fun _ _ => trivial⟩
  show 0 < md5Buffer
  decide

/-- A block of 1025 bytes: the loop of `put` does not end. -/
theorem not_digest_exec :
    ¬ ∀ pieces : List Piece, ∃ fuel s, Run.exec (step fuel) new pieces = some s ∧
      s.getDigest = some (Md5.digest (pieces.flatMap Piece.bytes)) := by
  intro h
  obtain ⟨fuel, s, hexec, -⟩ := h [.block (replicate 1025 0)]
  obtain ⟨s', hput, -⟩ := Run.exec_cons_eq_some.mp hexec
  have hbig : md5Buffer < new.size % 64 + (replicate 1025 (0 : UInt8)).length := by
    rw [length_replicate, md5Buffer_eq]
    decide
  have hnone := put_eq_none absorbed_new hbig fuel
  cases hput.symm.trans hnone

end MD5

end Elm.Checksum
