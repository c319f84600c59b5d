import Mathlib.Data.List.Infix
import Mathlib.Data.UInt

/-!
# `Input::swallow`

The functions of `src/io_Input.cpp` that read an expected string, on the bytes of the stream and with the character
that can be pushed back.  When a character is not the expected one, it is the expected one that `swallow` pushes back:
what is read afterwards is not what the input had.
-/

namespace Elm.Io.Swallow

open List

/-! ## Common prefixes -/

section CommonPrefix

variable {α : Type} [DecidableEq α]

/-- The longest common prefix of two lists. -/
def commonPrefix : List α → List α → List α
  | a :: l, b :: m => if a = b then a :: commonPrefix l m else []
  | _, _ => []

@[simp] theorem commonPrefix_nil (m : List α) : commonPrefix [] m = [] := by rw [commonPrefix.eq_def]

@[simp] theorem commonPrefix_append (p l m : List α) : commonPrefix (p ++ l) (p ++ m) = p ++ commonPrefix l m := by
  induction p with
  | nil => rfl
  | cons a p ih => rw [cons_append, cons_append, commonPrefix, if_pos rfl, ih, cons_append]

theorem commonPrefix_eq_nil {l m : List α} (h : ∀ a ∈ l.head?, a ∉ m.head?) : commonPrefix l m = [] := by
  cases l with
  | nil => exact commonPrefix_nil m
  | cons a l =>
    cases m with
    | nil => rfl
    | cons b m =>
      rw [commonPrefix, if_neg]
      rintro rfl
      exact h a rfl rfl

end CommonPrefix

/-! ## `Input` -/

/-- `InStream::ENDED`. -/
def ENDED : Int := -2

/-- `IOException`. -/
structure IOException where
  message : String
  deriving DecidableEq

/-- `Input` on a stream that does not fail: the bytes that the stream has still to give, the character that was pushed
back (a negative one stands for none), and the flag of `state` that says that the end was seen. -/
structure Input where
  strm : List UInt8
  buf : Int := -1
  ended : Bool := false
  deriving DecidableEq

/-- A string that ends with its first character 0. -/
structure CString where
  chars : List UInt8
  zero_notMem : 0 ∉ chars

/-- The memory where `str` is. -/
def CString.memory (str : CString) : List UInt8 := str.chars ++ [0]

/-- A byte as a `char`, which has a sign. -/
def char (byte : UInt8) : Int := byte.toInt8.toInt

/-- A byte as an `unsigned char`. -/
def code (byte : UInt8) : Int := byte.toNat

namespace Input

/-- `get`. -/
def get (s : Input) : Int × Input :=
  if s.buf ≥ 0 then
    (s.buf, { s with buf := -1 })
  else
    match s.strm with
    | [] => (ENDED, { s with ended := true })
    | byte :: strm => (code byte, { s with strm })

/-- `back`. -/
def back (s : Input) (chr : Int) : Input := { s with buf := chr }

/-- `swallow` of a character. -/
def swallow (s : Input) (chr : UInt8) : Except IOException Unit × Input :=
  let (read, s) := s.get
  if code chr = read then
    (.ok (), s)
  else
    -- not the character that was read
    (.error ⟨"bad character"⟩, s.back (char chr))

/-- `swallow` of a `String`. -/
def swallowString (s : Input) : List UInt8 → Except IOException Unit × Input
  | [] => (.ok (), s)
  | chr :: str =>
    match s.swallow chr with
    | (.ok (), s) => swallowString s str
    | (.error e, s) => (.error e, s)

/-- The loop of `swallow` of a `CString`, from the address of a character on. -/
def swallowMemory (s : Input) : List UInt8 → Except IOException Unit × Input
  | [] => (.ok (), s)
  | chr :: memory =>
    if chr = 0 then
      (.ok (), s)
    else
      match s.swallow chr with
      | (.ok (), s) => swallowMemory s memory
      | (.error e, s) => (.error e, s)

/-- `swallow` of a `CString`. -/
def swallowCString (s : Input) (str : CString) : Except IOException Unit × Input := s.swallowMemory str.memory

/-! ## What is read afterwards -/

/-- The results of the next `n` calls of `get`. -/
def reads : Nat → Input → List Int
  | 0, _ => []
  | n + 1, s => s.get.1 :: reads n s.get.2

/-- The calls of `get` give `text`, and then the end. -/
def Gives (s : Input) (text : List Int) : Prop :=
  ∀ n, s.reads n = text.take n ++ replicate (n - text.length) ENDED

/-- The characters that are still to be got. -/
def remaining (s : Input) : List Int := (if s.buf ≥ 0 then [s.buf] else []) ++ s.strm.map code

theorem code_nonneg (byte : UInt8) : 0 ≤ code byte := Int.natCast_nonneg _

theorem nonneg_of_mem_remaining {s : Input} {chr : Int} (h : chr ∈ s.remaining) : 0 ≤ chr := by
  rcases mem_append.mp h with h | h
  · split at h
    next hbuf => exact (mem_singleton.mp h) ▸ hbuf
    next => exact absurd h not_mem_nil
  · obtain ⟨byte, -, rfl⟩ := mem_map.mp h
    exact code_nonneg byte

/-- `get` takes the first character that remains, and `buf` is empty afterwards. -/
theorem get_spec (s : Input) :
    s.get.1 = s.remaining.headD ENDED ∧ s.get.2.remaining = s.remaining.tail ∧ s.get.2.buf < 0 := by
  unfold get remaining
  by_cases hbuf : s.buf ≥ 0
  · rw [if_pos hbuf, if_pos hbuf]
    exact ⟨rfl, rfl, Int.negSucc_lt_zero 0⟩
  · rw [if_neg hbuf, if_neg hbuf, nil_append]
    cases hstrm : s.strm with
    | nil => exact ⟨rfl, by simp [hbuf], Int.not_le.mp hbuf⟩
    | cons byte strm => exact ⟨rfl, by simp [hbuf], Int.not_le.mp hbuf⟩

theorem remaining_back {s : Input} (h : s.buf < 0) (chr : Int) :
    (s.back chr).remaining = (if chr ≥ 0 then [chr] else []) ++ s.remaining := by
  have hempty : ¬ s.buf ≥ 0 := Int.not_le.mpr h
  unfold remaining back
  rw [if_neg hempty, nil_append]

/-- What remains is what is read. -/
theorem gives_remaining (s : Input) : s.Gives s.remaining := by
  intro n
  induction n generalizing s with
  | zero => simp [reads]
  | succ n ih =>
    obtain ⟨hget, hrest, -⟩ := s.get_spec
    rw [reads, ih, hget, hrest]
    cases s.remaining with
    | nil => simp [replicate_succ]
    | cons chr text =>
      rw [headD_cons, tail_cons, take_succ_cons, length_cons, Nat.add_sub_add_right,
        cons_append]

/-- Nothing else is read. -/
theorem gives_iff (s : Input) {text : List Int} (h : ∀ chr ∈ text, 0 ≤ chr) : s.Gives text ↔ s.remaining = text := by
  refine ⟨fun hgives => ?_, fun heq => heq ▸ s.gives_remaining⟩
  have hchars : ∀ {l : List Int} {n : Nat}, (∀ chr ∈ l, 0 ≤ chr) → l.length ≤ n →
      (l.take n ++ replicate (n - l.length) ENDED).takeWhile (fun chr => decide (0 ≤ chr)) = l := by
    intro l n hl hn
    rw [take_of_length_le hn, takeWhile_append_of_pos fun chr hchr => decide_eq_true (hl chr hchr),
      takeWhile_replicate, if_neg (by decide), append_nil]
  -- enough reads to see the end of both
  let n := max s.remaining.length text.length
  have hreads := (s.gives_remaining n).symm.trans (hgives n)
  rw [← hchars (fun _ => nonneg_of_mem_remaining) (le_max_left _ _), hreads, hchars h (le_max_right _ _)]

/-! ## The mismatch -/

/-- What `back` keeps of a `char`: nothing when it is negative. -/
def pushed (chr : UInt8) : List Int := if char chr ≥ 0 then [char chr] else []

theorem char_eq (chr : UInt8) : char chr = if chr.toNat < 128 then code chr else code chr - 256 := by
  have hchar : char chr = chr.toBitVec.toInt := rfl
  rw [hchar, BitVec.toInt_eq_toNat_cond]
  change (if 2 * chr.toNat < 256 then (chr.toNat : Int) else chr.toNat - 256) =
    if chr.toNat < 128 then (chr.toNat : Int) else chr.toNat - 256
  split <;> split <;> omega

theorem pushed_of_lt {chr : UInt8} (h : chr.toNat < 128) : pushed chr = [code chr] := by
  rw [pushed, char_eq, if_pos h, if_pos (code_nonneg chr)]

theorem pushed_of_le {chr : UInt8} (h : 128 ≤ chr.toNat) : pushed chr = [] := by
  have hcode : code chr < 256 := Int.ofNat_lt.mpr chr.toNat_lt
  rw [pushed, char_eq, if_neg (Nat.not_lt.mpr h), if_neg]
  omega

/-- The expected character is consumed. -/
theorem swallow_of_eq {s : Input} {chr : UInt8} {text : List Int} (h : s.remaining = code chr :: text) :
    ∃ s', s.swallow chr = (.ok (), s') ∧ s'.remaining = text := by
  obtain ⟨hget, hrest, -⟩ := s.get_spec
  rw [h] at hget hrest
  exact ⟨s.get.2, if_pos hget.symm, hrest⟩

/-- At a mismatch, the character read is lost, and the expected one comes back. -/
theorem swallow_of_ne {s : Input} {chr : UInt8} (h : code chr ∉ s.remaining.head?) :
    ∃ s', s.swallow chr = (.error ⟨"bad character"⟩, s') ∧ s'.remaining = pushed chr ++ s.remaining.tail := by
  obtain ⟨hget, hrest, hbuf⟩ := s.get_spec
  have hne : code chr ≠ s.get.1 := by
    rw [hget]
    cases htext : s.remaining with
    | nil => exact fun heq => absurd (code_nonneg chr) (heq ▸ by decide)
    | cons c text =>
      rintro rfl
      exact h (by rw [htext]; rfl)
  refine ⟨s.get.2.back (char chr), if_neg hne, ?_⟩
  rw [remaining_back hbuf, hrest]
  rfl

/-- `swallow` of a string: either the whole string is consumed, or the first mismatch stops it. -/
theorem swallowString_spec (s : Input) (str : List UInt8) :
    (∃ s' text, s.swallowString str = (.ok (), s') ∧ s.remaining = str.map code ++ text ∧ s'.remaining = text) ∨
    ∃ s' common chr str' text, s.swallowString str = (.error ⟨"bad character"⟩, s') ∧
      str = common ++ chr :: str' ∧ s.remaining = common.map code ++ text ∧ code chr ∉ text.head? ∧
      s'.remaining = pushed chr ++ text.tail := by
  induction str generalizing s with
  | nil => exact Or.inl ⟨s, s.remaining, rfl, rfl, rfl⟩
  | cons chr str ih =>
    by_cases hhead : code chr ∈ s.remaining.head?
    · -- the character is one more of the common prefix
      obtain ⟨text, htext⟩ := head?_eq_some_iff.mp hhead
      obtain ⟨s', hs', hrest⟩ := swallow_of_eq htext
      rcases ih s' with ⟨s'', text', hrun, hsplit, hleft⟩ |
        ⟨s'', common, c, str', text', hrun, hstr, hsplit, hne, hleft⟩
      · refine Or.inl ⟨s'', text', ?_, ?_, hleft⟩
        · rw [swallowString, hs']
          exact hrun
        · rw [htext, ← hrest, hsplit]
          rfl
      · refine Or.inr ⟨s'', chr :: common, c, str', text', ?_, ?_, ?_, hne, hleft⟩
        · rw [swallowString, hs']
          exact hrun
        · rw [hstr]
          rfl
        · rw [htext, ← hrest, hsplit]
          rfl
    · obtain ⟨s', hs', hrest⟩ := swallow_of_ne hhead
      refine Or.inr ⟨s', [], chr, str, s.remaining, ?_, rfl, rfl, hhead, hrest⟩
      rw [swallowString, hs']

/-- The string in memory is the one that is expected. -/
theorem swallowCString_eq (s : Input) (str : CString) : s.swallowCString str = s.swallowString str.chars := by
  obtain ⟨chars, hzero⟩ := str
  unfold swallowCString CString.memory
  induction chars generalizing s with
  | nil => rfl
  | cons chr chars ih =>
    obtain ⟨hchr, hchars⟩ := not_or.mp (mem_cons.not.mp hzero)
    rw [cons_append, swallowMemory, swallowString, if_neg (Ne.symm hchr)]
    rcases s.swallow chr with ⟨e | u, s'⟩
    · rfl
    · exact ih s' hchars

/-- What is expected from the reading of `str`: it succeeds if the input starts with `str`, and it consumes the longest
common prefix. -/
def Correct (s : Input) (str : List UInt8) (r : Except IOException Unit × Input) : Prop :=
  (r.1 = .ok () ↔ str.map code <+: s.remaining) ∧
    r.2.Gives (s.remaining.drop (commonPrefix (str.map code) s.remaining).length)

/-- The input starts with `str`, or it ends at a character of `str` that is above 127. -/
def Restored (s : Input) (str : List UInt8) : Prop :=
  str.map code <+: s.remaining ∨
    ∃ common chr str', str = common ++ chr :: str' ∧ s.remaining = common.map code ∧ 128 ≤ chr.toNat

/-- Nothing is lost when there was nothing to lose, and when what is pushed back is taken for no character. -/
theorem pushed_append_tail_eq_iff {chr : UInt8} {text : List Int} (h : code chr ∉ text.head?) :
    pushed chr ++ text.tail = text ↔ text = [] ∧ 128 ≤ chr.toNat := by
  by_cases hchr : chr.toNat < 128
  · rw [pushed_of_lt hchr]
    refine iff_of_false ?_ fun hnil => absurd hchr (Nat.not_lt.mpr hnil.2)
    intro heq
    exact h (heq ▸ rfl)
  · rw [pushed_of_le (Nat.not_lt.mp hchr), nil_append]
    cases text with
    | nil => exact iff_of_true rfl ⟨rfl, Nat.not_lt.mp hchr⟩
    | cons c text => exact iff_of_false (cons_ne_self c text).symm (by simp)

theorem restored_iff {s : Input} {str common str' : List UInt8} {chr : UInt8} {text : List Int}
    (hstr : str = common ++ chr :: str') (hsplit : s.remaining = common.map code ++ text)
    (hne : code chr ∉ text.head?) : Restored s str ↔ text = [] ∧ 128 ≤ chr.toNat := by
  constructor
  · rintro (hstarts | ⟨common', chr', str'', hstr', hsplit', hchr'⟩)
    · rw [hstr, hsplit, map_append, prefix_append_right_inj, map_cons] at hstarts
      obtain ⟨rest, rfl⟩ := hstarts
      exact absurd rfl hne
    · rw [hstr] at hstr'
      rw [hsplit] at hsplit'
      -- the two decompositions of `str` are the same one: the input ends where it stops to be a prefix
      rcases append_eq_append_iff.mp hstr' with ⟨more, hcommon, hmore⟩ | ⟨more, hcommon, hmore⟩
      · rw [hcommon, map_append, append_cancel_left_eq] at hsplit'
        cases more with
        | nil =>
          cases hmore
          exact ⟨hsplit', hchr'⟩
        | cons c more =>
          cases hmore
          exact absurd (by rw [hsplit']; rfl) hne
      · have hnil : more = [] ∧ text = [] := by simpa [hcommon] using hsplit'
        obtain ⟨rfl, rfl⟩ := hnil
        cases hmore
        exact ⟨rfl, hchr'⟩
  · rintro ⟨rfl, hchr⟩
    exact Or.inr ⟨common, chr, str', hstr, by rw [hsplit, append_nil], hchr⟩

theorem correct_swallowString_iff (s : Input) (str : List UInt8) :
    Correct s str (s.swallowString str) ↔ Restored s str := by
  have hnonneg : ∀ k, ∀ chr ∈ s.remaining.drop k, 0 ≤ chr :=
    fun k chr h => nonneg_of_mem_remaining (mem_of_mem_drop h)
  unfold Correct
  rw [gives_iff _ (hnonneg _)]
  rcases s.swallowString_spec str with ⟨s', text, hrun, hsplit, hleft⟩ |
    ⟨s', common, chr, str', text, hrun, hstr, hsplit, hne, hleft⟩
  · have hstarts : str.map code <+: s.remaining := ⟨text, hsplit.symm⟩
    refine iff_of_true ⟨iff_of_true (by rw [hrun]) hstarts, ?_⟩ (Or.inl hstarts)
    have hcommon : commonPrefix (str.map code) (str.map code ++ text) = str.map code := by
      have hself := commonPrefix_append (str.map code) [] text
      rwa [commonPrefix_nil, append_nil] at hself
    rw [hrun, hleft, hsplit, hcommon, drop_left]
  · -- the input goes on with another character than `chr`, or it ends
    have hnot : ¬ str.map code <+: s.remaining := by
      rw [hstr, hsplit, map_append, prefix_append_right_inj, map_cons]
      rintro ⟨rest, rfl⟩
      exact hne rfl
    have hcommon : commonPrefix (str.map code) s.remaining = common.map code := by
      rw [hstr, hsplit, map_append, commonPrefix_append, commonPrefix_eq_nil, append_nil]
      rintro a ha
      cases ha
      exact hne
    have hfails : ¬ (s.swallowString str).1 = .ok () := by
      rw [hrun]
      exact fun h => by cases h
    rw [and_iff_right (iff_of_false hfails hnot), hcommon, hrun, hleft, restored_iff hstr hsplit hne, hsplit,
      drop_left]
    exact pushed_append_tail_eq_iff hne

theorem swallow_eq (s : Input) (chr : UInt8) : s.swallow chr = s.swallowString [chr] := by
  rw [swallowString]
  rcases s.swallow chr with ⟨e | u, s'⟩
  · rfl
  · rfl

/-- `swallow` reads what is expected and leaves what it should exactly when there is nothing to restore, or when what
is to be restored is the end of the input and the expected character is a negative `char`. -/
theorem swallow_iff (s : Input) :
    (∀ chr : UInt8, Correct s [chr] (s.swallow chr) ↔ Restored s [chr]) ∧
      (∀ str : List UInt8, Correct s str (s.swallowString str) ↔ Restored s str) ∧
      ∀ str : CString, Correct s str.chars (s.swallowCString str) ↔ Restored s str.chars := by
  refine ⟨fun chr => ?_, s.correct_swallowString_iff, fun str => ?_⟩
  · rw [swallow_eq]
    exact s.correct_swallowString_iff [chr]
  · rw [swallowCString_eq]
    exact s.correct_swallowString_iff str.chars

/-- Where `ab` is expected in the text `ac`, the `c` is lost and a `b` is read afterwards. -/
theorem not_correct_swallow_ac :
    ¬ Correct ⟨[0x61, 0x63], -1, false⟩ [0x61, 0x62] (swallowString ⟨[0x61, 0x63], -1, false⟩ [0x61, 0x62]) := by
  rintro ⟨-, hgives⟩
  exact absurd (hgives 1) (by decide)

end Input

end Elm.Io.Swallow
