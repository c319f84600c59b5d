import Elm.Strings.String

/-!
# The runs of the strings

Against lists of characters that are copied: the strings keep their characters, `toCString` gives them with
a zero at their end, and the buffers are the ones that the strings use.
-/

namespace Elm.Strings

open RefCount List Option Function Nat

/-! ## The strings as lists of characters -/

/-- The characters of each string. -/
abbrev Vals := List (Option (List UInt8))

namespace Vals

def get (vals : Vals) (x : Nat) : List UInt8 := (slot vals x).getD []

/-- The characters of an argument. -/
def arg (vals : Vals) : Arg → List UInt8
  | .const str => str.takeWhile (· ≠ 0)
  | .toCString z => (vals.get z).takeWhile (· ≠ 0)

/-- One operation, and what it tells. -/
def step (vals : Vals) : Op → Vals × List (List UInt8)
  | .default => (vals ++ [some []], [])
  | .make str => (vals ++ [some str], [])
  | .makeC c => (vals ++ [some (vals.arg c)], [])
  | .copy y => (vals ++ [some (vals.get y)], [])
  | .substring y off len => (vals ++ [some (((vals.get y).drop off).take len)], [])
  | .concat y z => (vals ++ [some (vals.get y ++ vals.get z)], [])
  | .concatC y c => (vals ++ [some (vals.get y ++ vals.arg c)], [])
  | .assign x y => (vals.set x (some (vals.get y)), [])
  | .assignC x c => (vals.set x (some (vals.arg c)), [])
  | .toCString x => (vals, [vals.get x ++ [0]])
  | .destroy x => (vals.set x none, [])

def run (vals : Vals) : List Op → Vals × List (List UInt8)
  | [] => (vals, [])
  | op :: ops =>
    let (vals, told) := vals.step op
    let (vals, more) := vals.run ops
    (vals, told ++ more)

end Vals

/-! ## The contract of the calls -/

/-- The string has been built and is not destroyed. -/
def Live (vals : Vals) (x : Nat) : Prop := ∃ v, slot vals x = some v

def Arg.Allowed (vals : Vals) : Arg → Prop
  | .const str => str.length < 65535
  | .toCString z => Live vals z

/-- The operation is on live strings, within their length, and what it builds has fewer than 65535
characters. -/
def Op.Allowed (vals : Vals) : Op → Prop
  | .default => True
  | .make str => str.length < 65535
  | .makeC c => c.Allowed vals
  | .copy y => Live vals y
  | .substring y off len => Live vals y ∧ off + len ≤ (vals.get y).length
  | .concat y z => Live vals y ∧ Live vals z ∧ (vals.get y).length + (vals.get z).length < 65535
  | .concatC y c => Live vals y ∧ c.Allowed vals ∧ (vals.get y).length + (vals.arg c).length < 65535
  | .assign x y => Live vals x ∧ Live vals y
  | .assignC x c => Live vals x ∧ c.Allowed vals
  | .toCString x => Live vals x
  | .destroy x => Live vals x

/-- Each operation is within its contract. -/
def AllowedRun (vals : Vals) : List Op → Prop
  | [] => True
  | op :: ops => op.Allowed vals ∧ AllowedRun (vals.step op).1 ops

/-! ## What the operations need -/

/-- The number of strings that use a buffer. -/
def sharers (w : World) (buf : Nat) : Nat := refs StringObj.buf w.strings buf

/-- The counter of the buffer can count one string more. -/
def Room (w : World) (buf : Nat) : Prop := buf = emptyBuf ∨ sharers w buf + 1 < 2 ^ 16

/-- There is a zero after the last character. -/
def Ended (w : World) (s : StringObj) : Prop := w.read s.buf (s.off + s.len) 1 = some [0]

/-- A string that is not ended and starts after the start of its buffer shares it. -/
def Ends (w : World) (x : Nat) : Prop :=
  ∀ s, slot w.strings x = some s → Ended w s ∨ 2 ≤ sharers w s.buf ∨ s.off = zeroOff

def Arg.Safe (w : World) : Arg → Prop
  | .const _ => True
  | .toCString z => Ends w z

/-- No counter overflows, no offset overflows, `toc` has no zero to write but at the end of the buffer, and
`x = x.toCString()` does not free the characters that it assigns. -/
def Op.Safe (w : World) : Op → Prop
  | .makeC c => c.Safe w
  | .copy y => ∀ s, slot w.strings y = some s → Room w s.buf
  | .substring y off _ => ∀ s, slot w.strings y = some s → Room w s.buf ∧ s.off + off < 2 ^ 16
  | .concatC _ c => c.Safe w
  | .assign x y => ∀ s t, slot w.strings x = some s → slot w.strings y = some t →
      s.buf = t.buf ∨ Room w t.buf
  | .assignC x c => c.Safe w ∧ (c = .toCString x → ∀ s, slot w.strings x = some s →
      s.buf = emptyBuf ∨ Ended w s ∧ 2 ≤ sharers w s.buf)
  | .toCString x => Ends w x
  | _ => True

/-- Each operation meets these conditions. -/
def SafeRun (w : World) : List Op → Prop
  | [] => True
  | op :: ops => op.Safe w ∧ ∀ w' told, w.step op = some (w', told) → SafeRun w' ops

/-! ## A string in its buffer -/

/-- The string `s` has the characters `v` among the characters of a buffer. -/
structure Reads (s : StringObj) (buf v : List UInt8) : Prop where
  zeroOff_le : zeroOff ≤ s.off
  off_lt : s.off < 2 ^ 16
  len : s.len = v.length
  short : v.length < 65535
  room : s.off - zeroOff + s.len < buf.length
  text : (buf.drop (s.off - zeroOff)).take s.len = v

def Holds (heap : Heap (List UInt8)) : Option StringObj → Option (List UInt8) → Prop
  | none, none => True
  | some s, some v => ∃ b, heap s.buf = some b ∧ Reads s b.val v
  | _, _ => False

theorem holds_none {heap : Heap (List UInt8)} {o : Option (List UInt8)} : Holds heap none o ↔ o = none := by
  cases o with
  | none => exact ⟨fun _ => rfl, fun _ => trivial⟩
  | some v => exact ⟨fun h => h.elim, fun h => nomatch h⟩

section Reading

variable {s : StringObj} {b : Buffer} {v : List UInt8} {w : World}

theorem bytes_length (b : Buffer) : (bytes b).length = b.val.length + 2 := by
  simp [bytes]

theorem drop_bytes {off : Nat} (h : zeroOff ≤ off) (b : Buffer) :
    (bytes b).drop off = b.val.drop (off - zeroOff) := by
  obtain ⟨k, rfl⟩ := Nat.exists_eq_add_of_le h
  rw [Nat.add_sub_cancel_left, Nat.add_comm]
  rfl

theorem read_eq {off n : Nat} (hb : w.heap s.buf = some b) (hoff : zeroOff ≤ off)
    (hroom : off - zeroOff + n ≤ b.val.length) :
    w.read s.buf off n = some ((b.val.drop (off - zeroOff)).take n) := by
  have hlen := bytes_length b
  unfold zeroOff at hoff hroom
  rw [World.read, hb, bind_some, if_pos (by omega), drop_bytes hoff]

theorem chars_eq (hb : w.heap s.buf = some b) (h : Reads s b.val v) : w.chars s = some v := by
  rw [World.chars, read_eq hb h.zeroOff_le (Nat.le_of_lt h.room), h.text]

/-- The byte after the last character. -/
theorem last_eq (hb : w.heap s.buf = some b) (h : Reads s b.val v) :
    w.read s.buf (s.off + s.len) 1 =
      some (((b.val.drop (s.off - zeroOff)).drop s.len).take 1) := by
  have hle := h.zeroOff_le
  have hroom := h.room
  have hsub : s.off + s.len - zeroOff = s.off - zeroOff + s.len := by omega
  rw [read_eq hb (by omega) (by omega), hsub, drop_drop]

theorem take_succ_eq (h : Reads s b.val v) : (b.val.drop (s.off - zeroOff)).take (s.len + 1) =
    v ++ ((b.val.drop (s.off - zeroOff)).drop s.len).take 1 := by
  rw [take_add, h.text]

/-- The string is ended if the bytes of its characters and the one after them end with a zero. -/
theorem ended_iff (hb : w.heap s.buf = some b) (h : Reads s b.val v) :
    Ended w s ↔ (b.val.drop (s.off - zeroOff)).take (s.len + 1) = v ++ [0] := by
  rw [Ended, last_eq hb h, take_succ_eq h]
  simp

theorem cstring_eq (hb : w.heap s.buf = some b) (h : Reads s b.val v)
    (hend : (b.val.drop (s.off - zeroOff)).take (s.len + 1) = v ++ [0]) :
    w.cstring (.inside s.buf s.off) = some (v.takeWhile (· ≠ 0)) := by
  have hcut := take_append_drop (s.len + 1) (b.val.drop (s.off - zeroOff))
  rw [hend] at hcut
  have hzero : 0 ∈ (bytes b).drop s.off := by
    rw [drop_bytes h.zeroOff_le, ← hcut]
    simp
  have hwhile : ∀ v rest : List UInt8, (v ++ [0] ++ rest).takeWhile (· ≠ 0) = v.takeWhile (· ≠ 0) := by
    intro v rest
    induction v with
    | nil => simp
    | cons c v ih =>
      by_cases hc : c = 0
      · simp [hc]
      · simpa [hc] using ih
  rw [World.cstring, hb, bind_some, if_pos hzero, drop_bytes h.zeroOff_le, ← hcut, hwhile]

end Reading

/-! ## The buffers -/

/-- The buffers are right for the given numbers of strings. -/
structure Sound (w : World) (refs : Nat → Nat) : Prop where
  counted : Counted (2 ^ 16) (· == emptyBuf) w.heap refs
  fresh : ∀ a, w.next ≤ a → w.heap a = none
  empty : ∃ use, w.heap emptyBuf = some ⟨use, [0]⟩

/-- The buffers have kept their characters, and the strings have not changed. -/
structure Extends (w w' : World) : Prop where
  strings : w'.strings = w.strings
  next_le : w.next ≤ w'.next
  kept : Kept w.next w.heap w'.heap

theorem Extends.trans {w w' w'' : World} (h : Extends w w') (h' : Extends w' w'') : Extends w w'' where
  strings := h'.strings.trans h.strings
  next_le := h.next_le.trans h'.next_le
  kept := h.kept.trans fun a ha => h'.kept a (Nat.lt_of_lt_of_le ha h.next_le)

section Buffers

variable {w : World} {refs : Nat → Nat} {a : Nat} {b : Buffer}

theorem Sound.lt_next (h : Sound w refs) (hb : w.heap a = some b) : a < w.next := by
  by_contra hge
  rw [h.fresh a (by omega)] at hb
  cases hb

theorem ne_emptyBuf (h : Sound w refs) (ha : w.next ≤ a) : a ≠ emptyBuf := by
  obtain ⟨use, hempty⟩ := h.empty
  have hlt := h.lt_next hempty
  omega

/-- A buffer whose counter changes, or that is freed. -/
theorem Sound.update (h : Sound w refs) (hb : w.heap a = some b) {o : Option Buffer} {refs' : Nat → Nat}
    (hcount : Counted (2 ^ 16) (· == emptyBuf) (Function.update w.heap a o) refs')
    (ho : ∀ c ∈ o, b.val = c.val) (hstatic : a = emptyBuf → ∃ c, o = some c) :
    Sound { w with heap := Function.update w.heap a o } refs' ∧
      Extends w { w with heap := Function.update w.heap a o } := by
  refine ⟨⟨hcount, ?_, ?_⟩, ⟨rfl, Nat.le_refl _, kept_update hb ho⟩⟩
  · intro a' ha'
    have hlt := h.lt_next hb
    change w.next ≤ a' at ha'
    change Function.update w.heap a o a' = none
    rw [update_of_ne (by omega)]
    exact h.fresh a' ha'
  · obtain ⟨use, hempty⟩ := h.empty
    by_cases ha : a = emptyBuf
    · obtain ⟨c, rfl⟩ := hstatic ha
      subst ha
      rw [hempty] at hb
      obtain rfl := some.inj hb
      have hval : [0] = c.val := ho c rfl
      refine ⟨c.use, ?_⟩
      change Function.update w.heap emptyBuf (some c) emptyBuf = _
      rw [update_self, hval]
    · refine ⟨use, ?_⟩
      change Function.update w.heap a o emptyBuf = _
      rw [update_of_ne (Ne.symm ha)]
      exact hempty

theorem lock_spec (h : Sound w refs) (hb : w.heap a = some b) :
    ∃ w', w.lock a = some w' ∧ Sound w' (Function.update refs a (refs a + 1)) ∧ Extends w w' ∧
      w'.heap a = some { b with use := (b.use + 1) % 2 ^ 16 } ∧ w'.next = w.next := by
  obtain ⟨hsound, hext⟩ := h.update hb (h.counted.retain hb) (by simp) (fun _ => ⟨_, rfl⟩)
  refine ⟨_, ?_, hsound, hext, update_self .., rfl⟩
  rw [World.lock, retain, hb]
  rfl

theorem unlock_spec (h : Sound w refs) (hb : w.heap a = some b) (hle : a = emptyBuf ∨ refs a ≤ 2 ^ 16) :
    ∃ w', w.unlock a = some w' ∧ Sound w' (Function.update refs a (refs a - 1)) ∧ Extends w w' := by
  have hcount := h.counted.release (by decide) hb (hle.imp_left fun ha => by simp [ha])
  obtain ⟨hsound, hext⟩ := h.update hb hcount
    (by
      intro c hc
      split_ifs at hc
      · cases hc
      · obtain rfl := mem_some.mp hc
        rfl)
    (fun ha => ⟨{ b with use := (b.use + (2 ^ 16 - 1)) % 2 ^ 16 }, by simp [ha]⟩)
  refine ⟨_, ?_, hsound, hext⟩
  rw [World.unlock, release, hb]
  rfl

theorem new_spec (h : Sound w refs) (buf : List UInt8) :
    Sound (w.new 1 buf) (Function.update refs w.next (refs w.next + 1)) ∧ Extends w (w.new 1 buf) ∧
      refs w.next = 0 := by
  have hfresh := h.fresh w.next (Nat.le_refl _)
  have hne : w.next ≠ emptyBuf := ne_emptyBuf h (Nat.le_refl _)
  refine ⟨⟨h.counted.alloc (by decide) hfresh (by simpa using hne) buf, ?_, ?_⟩,
    ⟨rfl, le_succ _, kept_alloc (Nat.le_refl _) _⟩, (h.counted _ (by simpa using hne)).1.mp hfresh⟩
  · intro a ha
    change w.next + 1 ≤ a at ha
    change Function.update w.heap w.next _ a = none
    rw [update_of_ne (by omega)]
    exact h.fresh a (by omega)
  · obtain ⟨use, hempty⟩ := h.empty
    refine ⟨use, ?_⟩
    change Function.update w.heap w.next _ emptyBuf = _
    rw [update_of_ne (Ne.symm hne)]
    exact hempty

/-- The buffer of an address that has strings. -/
theorem Sound.exists_cell (h : Sound w refs) (hpos : a = emptyBuf ∨ 0 < refs a) :
    ∃ b, w.heap a = some b := by
  by_cases hempty : a = emptyBuf
  · obtain ⟨use, huse⟩ := h.empty
    exact ⟨_, hempty ▸ huse⟩
  · exact h.counted.exists_cell (by simpa using hempty) (hpos.resolve_left hempty)

/-- A buffer that has strings after some steps has kept its characters. -/
theorem cell_kept {w' : World} {refs' : Nat → Nat} (h : Sound w refs) (h' : Sound w' refs')
    (hkept : Kept w.next w.heap w'.heap) (hb : w.heap a = some b) (hpos : a = emptyBuf ∨ 0 < refs' a) :
    ∃ b', w'.heap a = some b' ∧ b'.val = b.val := by
  obtain ⟨b', hb'⟩ := h'.exists_cell hpos
  obtain ⟨c, hc, hval⟩ := hkept a (h.lt_next hb) b' hb'
  rw [hb] at hc
  obtain rfl := some.inj hc
  exact ⟨b', hb', hval.symm⟩

end Buffers

/-! ## The strings that are built -/

/-- A string that has been built: the value, and one reference more to its buffer. -/
structure Builds (w : World) (refs : Nat → Nat) (r : World × StringObj) (v : List UInt8) : Prop where
  extends_ : Extends w r.1
  sound : Sound r.1 (Function.update refs r.2.buf (refs r.2.buf + 1))
  holds : Holds r.1.heap (some r.2) (some v)

section Building

variable {w : World} {refs : Nat → Nat} {b : Buffer} {s : StringObj} {v : List UInt8}

theorem reads_whole {str rest : List UInt8} (hshort : str.length < 65535) (hrest : rest ≠ []) (buf : Nat) :
    Reads ⟨buf, zeroOff, str.length⟩ (str ++ rest) str where
  zeroOff_le := Nat.le_refl _
  off_lt := by
    change zeroOff < 2 ^ 16
    decide
  len := rfl
  short := hshort
  room := by
    have hpos := length_pos_iff.mpr hrest
    simp only [Nat.sub_self, length_append]
    omega
  text := by simp

/-- A string in a new buffer. -/
theorem builds_new (h : Sound w refs) {str : List UInt8} (hshort : str.length < 65535) :
    Builds w refs (w.new 1 (str ++ [0]), ⟨w.next, zeroOff, str.length⟩) str := by
  obtain ⟨hsound, hext, -⟩ := new_spec h (str ++ [0])
  exact ⟨hext, hsound, _, update_self .., reads_whole hshort (cons_ne_nil 0 []) _⟩

theorem holds_update {b' : Buffer} {heap : Heap (List UInt8)} (hb : heap s.buf = some b')
    (hval : b'.val = b.val) (h : Reads s b.val v) : Holds heap (some s) (some v) :=
  ⟨b', hb, hval ▸ h⟩

/-- A string in a buffer that is already used. -/
theorem builds_lock (h : Sound w refs) (hb : w.heap s.buf = some b) (hreads : Reads s b.val v) :
    ∃ w', w.lock s.buf = some w' ∧ Builds w refs (w', s) v := by
  obtain ⟨w', hlock, hsound, hext, hb', -⟩ := lock_spec h hb
  exact ⟨w', hlock, hext, hsound, holds_update hb' rfl hreads⟩

theorem copy_spec (h : Sound w refs) {str : List UInt8} (hshort : str.length < 65535) :
    ∃ r, w.copy str = some r ∧ Builds w refs r str ∧ (r.2.buf = emptyBuf ∨ refs r.2.buf = 0) := by
  unfold World.copy
  split_ifs with hlen
  · obtain rfl := eq_nil_of_length_eq_zero hlen
    obtain ⟨use, hempty⟩ := h.empty
    have hreads : Reads ⟨emptyBuf, zeroOff, 0⟩ [0] [] :=
      @reads_whole [] [0] hshort (cons_ne_nil 0 []) emptyBuf
    obtain ⟨w', hlock, hbuilds⟩ := builds_lock (s := ⟨emptyBuf, zeroOff, 0⟩) h hempty hreads
    rw [hlock]
    exact ⟨_, rfl, hbuilds, Or.inl rfl⟩
  · rw [mod_eq_of_lt (by omega)]
    exact ⟨_, rfl, builds_new h hshort, Or.inr (new_spec h []).2.2⟩

theorem share_spec (h : Sound w refs) (hb : w.heap s.buf = some b) (hreads : Reads s b.val v)
    {off len : Nat} (hle : off + len ≤ v.length) (hoff : s.off + off < 2 ^ 16) :
    ∃ r, w.share s.buf (s.off + off) len = some r ∧ Builds w refs r ((v.drop off).take len) ∧
      r.2.buf = s.buf := by
  have hshort := hreads.short
  have hlen := hreads.len
  have hroom := hreads.room
  have hzero := hreads.zeroOff_le
  have hsub : s.off + off - zeroOff = s.off - zeroOff + off := by omega
  have hlength : ((v.drop off).take len).length = len := by
    rw [length_take, length_drop]
    omega
  have hreads' : Reads ⟨s.buf, s.off + off, len⟩ b.val ((v.drop off).take len) :=
    { zeroOff_le := le_add_right_of_le hzero
      off_lt := hoff
      len := hlength.symm
      short := by omega
      room := by
        change s.off + off - zeroOff + len < _
        omega
      text := by
        change (b.val.drop (s.off + off - zeroOff)).take len = _
        conv_rhs => rw [← hreads.text]
        rw [hsub, ← drop_drop, drop_take, take_take, Nat.min_eq_left (by omega)] }
  obtain ⟨w', hlock, hbuilds⟩ := builds_lock (s := ⟨s.buf, s.off + off, len⟩) h hb hreads'
  refine ⟨(w', ⟨s.buf, s.off + off, len⟩), ?_, hbuilds, rfl⟩
  rw [World.share, hlock, mod_eq_of_lt hoff, mod_eq_of_lt (by omega)]
  rfl

theorem concat_spec (h : Sound w refs) {s1 s2 : List UInt8} (hshort : s1.length + s2.length < 65535) :
    ∃ r, w.concat s1 s2 = some r ∧ Builds w refs r (s1 ++ s2) ∧ refs r.2.buf = 0 := by
  have hlen : (s1 ++ s2).length = s1.length + s2.length := length_append
  have hlt : (s1 ++ s2).length < 65535 := by omega
  have hbuilds := builds_new h hlt
  rw [hlen] at hbuilds
  refine ⟨_, ?_, hbuilds, (new_spec h []).2.2⟩
  -- the counter goes from zero to one
  simp only [World.concat, World.share, World.lock, World.new, retain, update_self,
    map_some, update_idem]
  have hlt : s1.length + s2.length < 2 ^ 16 := by omega
  rw [mod_eq_of_lt (show zeroOff < 2 ^ 16 by decide), mod_eq_of_lt hlt]
  rfl

end Building

/-! ## The invariant -/

/-- The strings have the characters `vals`, and the buffers are theirs. -/
structure Inv (w : World) (vals : Vals) : Prop where
  sound : Sound w (sharers w)
  bounded : ∀ a, a ≠ emptyBuf → sharers w a < 2 ^ 16
  length : w.strings.length = vals.length
  holds : ∀ x, Holds w.heap (slot w.strings x) (slot vals x)

section Invariant

variable {w w' : World} {vals vals' : Vals} {x y : Nat} {s : StringObj} {v : List UInt8}

theorem Inv.live (h : Inv w vals) (hlive : Live vals x) : ∃ s b, slot w.strings x = some s ∧
    slot vals x = some (vals.get x) ∧ w.heap s.buf = some b ∧ Reads s b.val (vals.get x) := by
  obtain ⟨v, hv⟩ := hlive
  have hholds := h.holds x
  rw [Vals.get, hv]
  rw [hv] at hholds
  cases hs : slot w.strings x with
  | none =>
    rw [hs] at hholds
    exact hholds.elim
  | some s =>
    rw [hs] at hholds
    obtain ⟨b, hb, hreads⟩ := hholds
    exact ⟨s, b, rfl, rfl, hb, hreads⟩

/-- The buffer of a string that does not change. -/
theorem holds_kept {refs' : Nat → Nat} (h : Inv w vals) (hsound : Sound w' refs')
    (hkept : Kept w.next w.heap w'.heap) (hs : slot w.strings x = some s)
    (hpos : s.buf = emptyBuf ∨ 0 < refs' s.buf) :
    Holds w'.heap (slot w.strings x) (slot vals x) := by
  have hholds := h.holds x
  rw [hs] at hholds ⊢
  cases hv : slot vals x with
  | none =>
    rw [hv] at hholds
    exact hholds.elim
  | some v =>
    rw [hv] at hholds
    obtain ⟨b, hb, hreads⟩ := hholds
    obtain ⟨b', hb', hval⟩ := cell_kept h.sound hsound hkept hb hpos
    exact holds_update hb' hval hreads

/-- The invariant after an operation: each string is as before, or is built anew. -/
theorem Inv.next (h : Inv w vals) (hsound : Sound w' (sharers w'))
    (hkept : Kept w.next w.heap w'.heap) (hbounded : ∀ a, a ≠ emptyBuf → sharers w' a < 2 ^ 16)
    (hlength : w'.strings.length = vals'.length)
    (hslots : ∀ x, (slot w'.strings x = slot w.strings x ∧ slot vals' x = slot vals x) ∨
      Holds w'.heap (slot w'.strings x) (slot vals' x)) : Inv w' vals' where
  sound := hsound
  bounded := hbounded
  length := hlength
  holds := by
    intro x
    rcases hslots x with ⟨hs, hv⟩ | hholds
    · rw [hv]
      cases hsome : slot w'.strings x with
      | none =>
        have hnone := h.holds x
        rw [← hs, hsome] at hnone
        exact holds_none.mpr (holds_none.mp hnone)
      | some s =>
        rw [← hsome, hs]
        refine holds_kept h hsound hkept (hs ▸ hsome) (Or.inr ?_)
        exact refs_pos.mpr ⟨x, s, hsome, rfl⟩
    · exact hholds

/-! ## The strings that change -/

theorem Sound.congr {refs refs' : Nat → Nat} (h : Sound w refs) (hheap : w'.heap = w.heap)
    (hnext : w'.next = w.next) (hrefs : ∀ a, refs' a = refs a) : Sound w' refs' := by
  obtain rfl : refs' = refs := funext hrefs
  constructor
  · rw [hheap]
    exact h.counted
  · rw [hheap, hnext]
    exact h.fresh
  · rw [hheap]
    exact h.empty

/-- A string is added. -/
theorem inv_add {r : World × StringObj} (h : Inv w vals) (hbuilds : Builds w (sharers w) r v)
    (hroom : Room w r.2.buf) : Inv (World.add r) (vals ++ [some v]) := by
  have hsharers : ∀ a, sharers (World.add r) a = sharers w a + if a = r.2.buf then 1 else 0 := by
    intro a
    rw [sharers, World.add, hbuilds.extends_.strings]
    exact refs_append r.2 a
  have hlength : r.1.strings.length = vals.length := by
    rw [hbuilds.extends_.strings]
    exact h.length
  refine h.next (hbuilds.sound.congr rfl rfl fun a => ?_) hbuilds.extends_.kept ?_ ?_ ?_
  · rw [hsharers, update_apply]
    split_ifs with ha
    · rw [ha]
    · rfl
  · intro a ha
    rw [hsharers]
    have hbounded := h.bounded a ha
    split_ifs with hbuf
    · subst hbuf
      exact hroom.resolve_left ha
    · exact hbounded
  · simp [World.add, hlength]
  · intro x
    change (slot (r.1.strings ++ [some r.2]) x = _ ∧ _) ∨
      Holds r.1.heap (slot (r.1.strings ++ [some r.2]) x) _
    rw [slot_append, slot_append, hlength]
    split_ifs with hx
    · exact Or.inr hbuilds.holds
    · rw [hbuilds.extends_.strings]
      exact Or.inl ⟨rfl, rfl⟩

/-- A string gets other characters. -/
theorem inv_put {t : StringObj} (h : Inv w vals) (hs : slot w.strings x = some s) (hext : Extends w w')
    (hsound : Sound w' fun a =>
      sharers w a - (if a = s.buf then 1 else 0) + if a = t.buf then 1 else 0)
    (hholds : Holds w'.heap (some t) (some v)) (hroom : s.buf = t.buf ∨ Room w t.buf) :
    Inv (World.put x (w', t)) (vals.set x (some v)) := by
  have hlt := lt_of_slot hs
  have hsharers : ∀ a, sharers (World.put x (w', t)) a =
      sharers w a - (if a = s.buf then 1 else 0) + if a = t.buf then 1 else 0 := by
    intro a
    rw [sharers, World.put, hext.strings]
    exact refs_put hs t a
  have hpos : 0 < sharers w s.buf := refs_pos.mpr ⟨x, s, hs, rfl⟩
  refine h.next (hsound.congr rfl rfl hsharers) hext.kept ?_ ?_ ?_
  · intro a ha
    rw [hsharers]
    have hbounded := h.bounded a ha
    rcases hroom with heq | hroom
    · rw [heq] at hpos ⊢
      split_ifs with hbuf
      · subst hbuf
        omega
      · omega
    · split_ifs with hold hnew hnew
      · omega
      · omega
      · subst hnew
        exact hroom.resolve_left ha
      · omega
  · simp [World.put, hext.strings, h.length]
  · intro y
    change (slot (w'.strings.set x (some t)) y = _ ∧ _) ∨ Holds w'.heap (slot (w'.strings.set x (some t)) y) _
    rw [hext.strings, slot_set hlt, slot_set (h.length ▸ hlt)]
    split_ifs with hy
    · exact Or.inr hholds
    · exact Or.inl ⟨rfl, rfl⟩

/-- The buffer of a live string. -/
theorem Inv.buffer (h : Inv w vals) (hs : slot w.strings x = some s) :
    ∃ b v, slot vals x = some v ∧ w.heap s.buf = some b ∧ Reads s b.val v := by
  have hholds := h.holds x
  rw [hs] at hholds
  cases hv : slot vals x with
  | none =>
    rw [hv] at hholds
    exact hholds.elim
  | some v =>
    rw [hv] at hholds
    obtain ⟨b, hb, hreads⟩ := hholds
    exact ⟨b, v, rfl, hb, hreads⟩

/-- The buffers without one of the strings. -/
theorem unlock_string (h : Inv w vals) (hs : slot w.strings x = some s) :
    ∃ w', w.unlock s.buf = some w' ∧ Extends w w' ∧
      Sound w' fun a => sharers w a - if a = s.buf then 1 else 0 := by
  obtain ⟨b, v, -, hb, -⟩ := h.buffer hs
  have hle : s.buf = emptyBuf ∨ sharers w s.buf ≤ 2 ^ 16 := by
    by_cases hempty : s.buf = emptyBuf
    · exact Or.inl hempty
    · exact Or.inr (Nat.le_of_lt (h.bounded _ hempty))
  obtain ⟨w', hunlock, hsound, hext⟩ := unlock_spec h.sound hb hle
  refine ⟨w', hunlock, hext, hsound.congr rfl rfl fun a => ?_⟩
  rw [update_apply]
  split_ifs with ha
  · rw [ha]
  · rfl

/-- A string is destroyed. -/
theorem inv_destroy (h : Inv w vals) (hs : slot w.strings x = some s) (hext : Extends w w')
    (hsound : Sound w' fun a => sharers w a - if a = s.buf then 1 else 0) :
    Inv { w' with strings := w'.strings.set x none } (vals.set x none) := by
  have hlt := lt_of_slot hs
  have hsharers : ∀ a, sharers { w' with strings := w'.strings.set x none } a =
      sharers w a - if a = s.buf then 1 else 0 := by
    intro a
    rw [sharers]
    change refs StringObj.buf (w'.strings.set x none) a = _
    rw [hext.strings]
    exact refs_clear hs a
  refine h.next (hsound.congr rfl rfl hsharers) hext.kept ?_ ?_ ?_
  · intro a ha
    rw [hsharers]
    have hbounded := h.bounded a ha
    omega
  · simp [hext.strings, h.length]
  · intro y
    change (slot (w'.strings.set x none) y = _ ∧ _) ∨ Holds w'.heap (slot (w'.strings.set x none) y) _
    rw [hext.strings, slot_set hlt, slot_set (h.length ▸ hlt)]
    split_ifs with hy
    · exact Or.inr trivial
    · exact Or.inl ⟨rfl, rfl⟩

/-! ## `toCString` -/

/-- The string moves or not; its characters and a zero are at the pointer. -/
structure Converts (w : World) (vals : Vals) (x : Nat) (r : World × Chars) (v : List UInt8) : Prop where
  inv : Inv r.1 vals
  pointer : ∃ s b, r.2 = .inside s.buf s.off ∧ slot r.1.strings x = some s ∧ r.1.heap s.buf = some b ∧
    Reads s b.val v ∧ (b.val.drop (s.off - zeroOff)).take (s.len + 1) = v ++ [0]
  others : ∀ y, y ≠ x → slot r.1.strings y = slot w.strings y

theorem put_self (hs : slot w.strings x = some s) : World.put x (w, s) = w := by
  rw [World.put, set_slot hs]

/-- A string that is ended stays where it is. -/
theorem toCString_ended (hs : slot w.strings x = some s) (hend : Ended w s) :
    w.toCString x = some (w, .inside s.buf s.off) := by
  unfold World.toCString
  rw [hs]
  simp only [bind_eq_bind, bind_some, show w.read s.buf (s.off + s.len) 1 = some [0] from hend,
    if_pos, put_self hs]

/-- Else `toc` ends it. -/
theorem toCString_toc (h : Inv w vals) (hs : slot w.strings x = some s) (hend : ¬ Ended w s)
    {r : World × StringObj} (htoc : w.toc s = some r) :
    w.toCString x = some (World.put x r, .inside r.2.buf r.2.off) := by
  obtain ⟨b, v, -, hb, hreads⟩ := h.buffer hs
  have hlast := last_eq hb hreads
  have hne : ¬ ((b.val.drop (s.off - zeroOff)).drop s.len).take 1 = [0] := by
    intro heq
    rw [heq] at hlast
    exact hend hlast
  unfold World.toCString
  rw [hs]
  simp only [bind_eq_bind, bind_some, hlast, if_neg hne, htoc]

/-- The empty buffer ends with its zero. -/
theorem ended_emptyBuf (h : Inv w vals) (hs : slot w.strings x = some s) (hbuf : s.buf = emptyBuf) :
    Ended w s := by
  obtain ⟨b, v, -, hb, hreads⟩ := h.buffer hs
  obtain ⟨use, hempty⟩ := h.sound.empty
  rw [hbuf, hempty] at hb
  obtain rfl := some.inj hb
  have hroom := hreads.room
  simp only [length_singleton] at hroom
  have hzero : s.off - zeroOff = 0 ∧ s.len = 0 := by omega
  rw [ended_iff (by rw [hbuf, hempty]) hreads, hzero.1, hzero.2]
  have hnil : v = [] := eq_nil_of_length_eq_zero (hreads.len.symm.trans hzero.2)
  rw [hnil]
  rfl

/-- The counter of a buffer in use. -/
theorem use_eq (h : Inv w vals) {b : Buffer} (hb : w.heap s.buf = some b) (hbuf : s.buf ≠ emptyBuf) :
    b.use = sharers w s.buf := by
  rw [(h.sound.counted s.buf (by simpa using hbuf)).2 b hb]
  exact mod_eq_of_lt (h.bounded s.buf hbuf)

/-- The only string of a buffer gets a zero at the end of this buffer. -/
theorem toc_alone (h : Inv w vals) (hs : slot w.strings x = some s) (hv : slot vals x = some v)
    {b : Buffer} (hb : w.heap s.buf = some b) (hreads : Reads s b.val v) (hend : ¬ Ended w s)
    (huse : b.use ≤ 1) (hoff : s.off = zeroOff) :
    ∃ r, w.toCString x = some r ∧ Converts w vals x r v := by
  have hbuf : s.buf ≠ emptyBuf := fun hempty => hend (ended_emptyBuf h hs hempty)
  have hroom := hreads.room
  have htext := hreads.text
  rw [hoff, Nat.sub_self] at hroom htext
  rw [Nat.zero_add] at hroom
  let b' : Buffer := { b with val := b.val.set s.len 0 }
  let w' : World := { w with heap := Function.update w.heap s.buf (some b') }
  have hself : w'.heap s.buf = some b' := update_self ..
  have hother : ∀ a, a ≠ s.buf → w'.heap a = w.heap a := fun a ha => update_of_ne ha _ _
  have htake : (b.val.set s.len 0).take s.len = v := by
    rw [take_set_of_le (Nat.le_refl _)]
    exact htext
  have hreads' : Reads s b'.val v :=
    { hreads with
      room := by
        rw [hoff, Nat.sub_self, Nat.zero_add, length_set]
        exact hroom
      text := by
        rw [hoff, Nat.sub_self]
        exact htake }
  have htoc : w.toc s = some (w', s) := by
    unfold World.toc
    rw [hb]
    simp only [bind_eq_bind, bind_some, if_pos huse, if_pos hroom]
    rfl
  have hput : World.put x (w', s) = w' := put_self hs
  have hsound : Sound w' (sharers w') := by
    refine ⟨h.sound.counted.write hb _, fun a ha => ?_, ?_⟩
    · have hlt := h.sound.lt_next hb
      change w.next ≤ a at ha
      rw [hother a (by omega)]
      exact h.sound.fresh a ha
    · rw [hother _ (Ne.symm hbuf)]
      exact h.sound.empty
  have hinv : Inv w' vals := by
    refine ⟨hsound, h.bounded, h.length, fun y => ?_⟩
    have hholds := h.holds y
    change Holds w'.heap (slot w.strings y) (slot vals y)
    cases hy : slot w.strings y with
    | none =>
      rw [hy] at hholds
      exact holds_none.mpr (holds_none.mp hholds)
    | some t =>
      by_cases hsame : t.buf = s.buf
      · -- no other string is in the buffer
        rw [use_eq h hb hbuf] at huse
        obtain rfl := eq_of_refs_le_one huse hs rfl hy hsame
        rw [hs] at hy
        obtain rfl := some.inj hy
        rw [hv]
        exact ⟨b', hself, hreads'⟩
      · rw [hy] at hholds
        cases hvy : slot vals y with
        | none =>
          rw [hvy] at hholds
          exact hholds.elim
        | some v' =>
          rw [hvy] at hholds
          obtain ⟨c, hc, hreadsy⟩ := hholds
          exact ⟨c, (hother _ hsame).trans hc, hreadsy⟩
  refine ⟨_, toCString_toc h hs hend htoc, ?_⟩
  rw [hput]
  refine ⟨hinv, ⟨s, b', rfl, hs, hself, hreads', ?_⟩, fun _ _ => rfl⟩
  change ((b.val.set s.len 0).drop (s.off - zeroOff)).take (s.len + 1) = v ++ [0]
  rw [hoff, Nat.sub_self, drop_zero, take_add_one, htake, getElem?_set_self hroom]
  rfl

/-- A string that shares its buffer gets another one. -/
theorem toc_shared (h : Inv w vals) (hs : slot w.strings x = some s) (hv : slot vals x = some v)
    {b : Buffer} (hb : w.heap s.buf = some b) (hreads : Reads s b.val v) (hend : ¬ Ended w s)
    (huse : ¬ b.use ≤ 1) :
    ∃ r, w.toCString x = some r ∧ Converts w vals x r v := by
  obtain ⟨hsound, hext, hzero⟩ := new_spec h.sound (v ++ [0])
  have hne : s.buf ≠ w.next := Nat.ne_of_lt (h.sound.lt_next hb)
  have hb' : (w.new 1 (v ++ [0])).heap s.buf = some b := by
    change Function.update w.heap w.next _ s.buf = _
    rw [update_of_ne hne]
    exact hb
  have hbuf : s.buf ≠ emptyBuf := fun hempty => hend (ended_emptyBuf h hs hempty)
  have hle : Function.update (sharers w) w.next (sharers w w.next + 1) s.buf ≤ 2 ^ 16 := by
    rw [update_of_ne hne]
    exact Nat.le_of_lt (h.bounded _ hbuf)
  obtain ⟨w', hunlock, hsound', hext'⟩ := unlock_spec hsound hb' (Or.inr hle)
  have htoc : w.toc s = some (w', ⟨w.next, zeroOff, s.len⟩) := by
    unfold World.toc
    rw [hb]
    simp only [bind_eq_bind, bind_some, if_neg huse, chars_eq hb hreads, hunlock]
  have hrefs : Sound w' fun a =>
      sharers w a - (if a = s.buf then 1 else 0) + if a = w.next then 1 else 0 := by
    have hpos : 0 < sharers w s.buf := refs_pos.mpr ⟨x, s, hs, rfl⟩
    exact hsound'.congr rfl rfl fun a => (update_moved hpos a).symm
  have hself : (w.new 1 (v ++ [0])).heap w.next = some ⟨1, v ++ [0]⟩ := update_self ..
  obtain ⟨b', hnew, hval⟩ := cell_kept hsound hrefs hext'.kept hself (Or.inr (by simp))
  have hreads' : Reads ⟨w.next, zeroOff, s.len⟩ b'.val v := by
    rw [hval, hreads.len]
    exact reads_whole hreads.short (cons_ne_nil 0 []) w.next
  refine ⟨_, toCString_toc h hs hend htoc, ?_, ⟨⟨w.next, zeroOff, s.len⟩, b', rfl, ?_, hnew, hreads', ?_⟩, ?_⟩
  · have hput := inv_put (v := v) h hs (hext.trans hext') hrefs ⟨b', hnew, hreads'⟩ (Or.inr (Or.inr ?_))
    · rw [set_slot hv] at hput
      exact hput
    · change sharers w w.next + 1 < 2 ^ 16
      rw [show sharers w w.next = 0 from hzero]
      decide
  · change slot (w'.strings.set x _) x = _
    rw [(hext.trans hext').strings, slot_set (lt_of_slot hs), if_pos rfl]
  · change (b'.val.drop 0).take (s.len + 1) = _
    rw [hval, drop_zero, hreads.len]
    simp
  · intro y hy
    change slot (w'.strings.set x _) y = _
    rw [(hext.trans hext').strings, slot_set (lt_of_slot hs), if_neg hy]

theorem toCString_spec (h : Inv w vals) (hs : slot w.strings x = some s) (hv : slot vals x = some v)
    (hends : Ended w s ∨ 2 ≤ sharers w s.buf ∨ s.off = zeroOff) :
    ∃ r, w.toCString x = some r ∧ Converts w vals x r v := by
  obtain ⟨b, v', hv', hb, hreads⟩ := h.buffer hs
  rw [hv] at hv'
  obtain rfl := some.inj hv'
  by_cases hend : Ended w s
  · exact ⟨_, toCString_ended hs hend, h, ⟨s, b, rfl, hs, hb, hreads, (ended_iff hb hreads).mp hend⟩,
      fun _ _ => rfl⟩
  · by_cases huse : b.use ≤ 1
    · have hbuf : s.buf ≠ emptyBuf := fun hempty => hend (ended_emptyBuf h hs hempty)
      rw [use_eq h hb hbuf] at huse
      refine toc_alone h hs hv hb hreads hend (by rw [use_eq h hb hbuf]; exact huse) ?_
      rcases hends with hended | hshared | hoff
      · exact absurd hended hend
      · omega
      · exact hoff
    · exact toc_shared h hs hv hb hreads hend huse

/-! ## The steps -/

/-- An argument: it is what the other operations then read. -/
structure Evaluates (w : World) (vals : Vals) (r : World × Chars) (str : List UInt8) : Prop where
  inv : Inv r.1 vals
  cstring : r.1.cstring r.2 = some str

theorem length_takeWhile_lt (h : Inv w vals) (hlive : Live vals x) :
    ((vals.get x).takeWhile (· ≠ 0)).length < 65535 := by
  obtain ⟨s, b, -, -, -, hreads⟩ := h.live hlive
  exact Nat.lt_of_le_of_lt (List.takeWhile_prefix _).length_le hreads.short

theorem arg_spec (h : Inv w vals) {c : Arg} (hallowed : c.Allowed vals) (hsafe : c.Safe w) :
    ∃ r, w.arg c = some r ∧ Evaluates w vals r (vals.arg c) ∧ (vals.arg c).length < 65535 := by
  cases c with
  | const str =>
    exact ⟨_, rfl, ⟨h, rfl⟩, Nat.lt_of_le_of_lt (List.takeWhile_prefix _).length_le hallowed⟩
  | toCString z =>
    obtain ⟨s, b, hs, hv, hb, hreads⟩ := h.live hallowed
    obtain ⟨r, hr, hinv, ⟨s', b', hpointer, -, hb', hreads', hend⟩, -⟩ :=
      toCString_spec h hs hv (hsafe s hs)
    refine ⟨r, hr, ⟨hinv, ?_⟩, length_takeWhile_lt h hallowed⟩
    rw [hpointer]
    exact cstring_eq hb' hreads' hend

/-- The string that has been built is added. -/
theorem add_spec {r : World × StringObj} (h : Inv w vals) (hbuilds : Builds w (sharers w) r v)
    (hroom : r.2.buf = emptyBuf ∨ sharers w r.2.buf = 0) : Inv (World.add r) (vals ++ [some v]) := by
  refine inv_add h hbuilds (hroom.imp_right fun hzero => ?_)
  rw [hzero]
  decide

theorem assign_spec (h : Inv w vals) (hx : Live vals x) (hy : Live vals y)
    (hsafe : (Op.assign x y).Safe w) :
    ∃ w', w.step (.assign x y) = some (w', []) ∧ Inv w' (vals.set x (some (vals.get y))) := by
  obtain ⟨s, b, hs, hvs, hb, hreads⟩ := h.live hx
  obtain ⟨t, c, ht, hvt, hc, hreads'⟩ := h.live hy
  obtain ⟨w₁, hlock, hsound₁, hext₁, -, -⟩ := lock_spec h.sound hc
  have hpos : 0 < sharers w s.buf := refs_pos.mpr ⟨x, s, hs, rfl⟩
  obtain ⟨b₁, hb₁⟩ := hsound₁.exists_cell (a := s.buf) (by
    right
    rw [update_apply]
    split_ifs <;> omega)
  have hle : s.buf = emptyBuf ∨ Function.update (sharers w) t.buf (sharers w t.buf + 1) s.buf ≤ 2 ^ 16 := by
    by_cases hempty : s.buf = emptyBuf
    · exact Or.inl hempty
    · right
      have hbounded := h.bounded _ hempty
      rw [update_apply]
      split_ifs with hsame
      · rw [← hsame]
        omega
      · omega
  obtain ⟨w₂, hunlock, hsound₂, hext₂⟩ := unlock_spec hsound₁ hb₁ hle
  have hrefs : Sound w₂ fun a =>
      sharers w a - (if a = s.buf then 1 else 0) + if a = t.buf then 1 else 0 := by
    exact hsound₂.congr rfl rfl fun a => (update_moved hpos a).symm
  have hholds := holds_kept h hrefs (hext₁.trans hext₂).kept ht (Or.inr (by simp))
  rw [ht, hvt] at hholds
  refine ⟨_, ?_, inv_put h hs (hext₁.trans hext₂) hrefs hholds (hsafe s t hs ht)⟩
  simp only [World.step, hs, ht, hlock, hunlock, bind_eq_bind, bind_some]

/-- The characters of an argument are still there when the string `x` has left its buffer. -/
theorem cstring_unlock (h : Inv w vals) {c : Arg} (hallowed : c.Allowed vals)
    (hsafe : (Op.assignC x c).Safe w) {r : World × Chars} (harg : w.arg c = some r)
    (hs : slot r.1.strings x = some s) (hext : Extends r.1 w')
    (hsound : Sound w' fun a => sharers r.1 a - if a = s.buf then 1 else 0) :
    w'.cstring r.2 = some (vals.arg c) := by
  cases c with
  | const str =>
    cases harg
    rfl
  | toCString z =>
    obtain ⟨t, b, ht, hv, hb, hreads⟩ := h.live hallowed
    obtain ⟨r', hr', hinv, ⟨t', b', hpointer, ht', hb', hreads', hend⟩, hothers⟩ :=
      toCString_spec h ht hv (hsafe.1 t ht)
    obtain rfl := some.inj (hr'.symm.trans harg)
    have hpos : t'.buf = emptyBuf ∨ 0 < sharers r'.1 t'.buf - if t'.buf = s.buf then 1 else 0 := by
      have hone : 0 < sharers r'.1 t'.buf := refs_pos.mpr ⟨z, t', ht', rfl⟩
      by_cases hzx : z = x
      · -- the string has not moved, and another one is in its buffer
        subst hzx
        have hended : Ended w t := by
          rcases hsafe.2 rfl t ht with hempty | ⟨hended, -⟩
          · exact ended_emptyBuf h ht hempty
          · exact hended
        have hr := (toCString_ended ht hended).symm.trans hr'
        obtain rfl := some.inj hr
        rw [ht] at ht'
        obtain rfl := some.inj ht'
        refine (hsafe.2 rfl t ht).imp_right fun hshared => ?_
        have htwo : 2 ≤ sharers w t.buf := hshared.2
        change 0 < sharers w t.buf - _
        split_ifs <;> omega
      · right
        split_ifs with hsame
        · have htwo : ¬ sharers r'.1 t'.buf ≤ 1 :=
            fun hle => hzx (eq_of_refs_le_one hle hs hsame.symm ht' rfl)
          omega
        · omega
    obtain ⟨b'', hb'', hval⟩ := cell_kept hinv.sound hsound hext.kept hb' hpos
    rw [hpointer]
    rw [← hval] at hreads' hend
    exact cstring_eq hb'' hreads' hend

theorem assignC_spec (h : Inv w vals) {c : Arg} (hx : Live vals x) (hallowed : c.Allowed vals)
    (hsafe : (Op.assignC x c).Safe w) :
    ∃ w', w.step (.assignC x c) = some (w', []) ∧ Inv w' (vals.set x (some (vals.arg c))) := by
  obtain ⟨⟨w₁, p⟩, harg, ⟨hinv, -⟩, hshort⟩ := arg_spec h hallowed hsafe.1
  obtain ⟨s, b, hs, -, -, -⟩ := hinv.live hx
  obtain ⟨w₂, hunlock, hext, hsound⟩ := unlock_string hinv hs
  have hcstring := cstring_unlock h hallowed hsafe harg hs hext hsound
  obtain ⟨r, hcopy, hbuilds, hbuf⟩ := copy_spec hsound hshort
  have hrefs : Sound r.1 fun a =>
      sharers w₁ a - (if a = s.buf then 1 else 0) + if a = r.2.buf then 1 else 0 := by
    refine hbuilds.sound.congr rfl rfl fun a => ?_
    rw [update_apply]
    by_cases ha : a = r.2.buf
    · rw [if_pos ha, if_pos ha, ha]
    · rw [if_neg ha, if_neg ha]
      rfl
  refine ⟨World.put x (r.1, r.2), ?_, inv_put hinv hs (hext.trans hbuilds.extends_) hrefs hbuilds.holds ?_⟩
  · simp only at hs hcopy hcstring
    simp only [World.step, harg, hs, hunlock, hcstring, hcopy, bind_eq_bind, bind_some]
  · -- the new string is in a buffer of its own, or in the empty one
    refine Or.inr (hbuf.imp_right fun hzero => ?_)
    simp only at hzero ⊢
    split_ifs at hzero <;> omega

/-- One operation. -/
theorem step_spec (h : Inv w vals) {op : Op} (hallowed : op.Allowed vals) (hsafe : op.Safe w) :
    ∃ w', w.step op = some (w', (vals.step op).2) ∧ Inv w' (vals.step op).1 := by
  cases op with
  | default =>
    obtain ⟨use, hempty⟩ := h.sound.empty
    have hreads : Reads ⟨emptyBuf, zeroOff, 0⟩ [0] [] :=
      @reads_whole [] [0] (by decide) (cons_ne_nil 0 []) emptyBuf
    have hle : 0 + 0 ≤ ([] : List UInt8).length := Nat.le_refl 0
    obtain ⟨r, hshare, hbuilds, hbuf⟩ :=
      share_spec (s := ⟨emptyBuf, zeroOff, 0⟩) h.sound hempty hreads hle (by decide)
    refine ⟨_, ?_, add_spec h hbuilds (Or.inl hbuf)⟩
    change (w.share emptyBuf zeroOff 0).bind _ = _
    rw [show w.share emptyBuf zeroOff 0 = some r from hshare]
    rfl
  | make str =>
    obtain ⟨r, hcopy, hbuilds, hbuf⟩ := copy_spec h.sound hallowed
    refine ⟨_, ?_, add_spec h hbuilds hbuf⟩
    simp only [World.step, hcopy]
    rfl
  | makeC c =>
    obtain ⟨⟨w₁, p⟩, harg, ⟨hinv, hcstring⟩, hshort⟩ := arg_spec h hallowed hsafe
    obtain ⟨r, hcopy, hbuilds, hbuf⟩ := copy_spec hinv.sound hshort
    refine ⟨_, ?_, add_spec hinv hbuilds hbuf⟩
    simp only at hcstring hcopy
    simp only [World.step, harg, bind_eq_bind, bind_some, hcstring, hcopy]
    rfl
  | copy y =>
    obtain ⟨s, b, hs, hv, hb, hreads⟩ := h.live hallowed
    obtain ⟨w', hlock, hbuilds⟩ := builds_lock h.sound hb hreads
    refine ⟨_, ?_, inv_add h hbuilds (hsafe s hs)⟩
    simp only [World.step, hs, hlock, bind_eq_bind, bind_some]
    rfl
  | substring y off len =>
    obtain ⟨hlive, hle⟩ := hallowed
    obtain ⟨s, b, hs, hv, hb, hreads⟩ := h.live hlive
    obtain ⟨hroom, hoff⟩ := hsafe s hs
    obtain ⟨r, hshare, hbuilds, hbuf⟩ := share_spec h.sound hb hreads hle hoff
    refine ⟨_, ?_, inv_add h hbuilds (hbuf ▸ hroom)⟩
    simp only [World.step, hs, hshare, bind_eq_bind, bind_some]
    rfl
  | concat y z =>
    obtain ⟨hy, hz, hshort⟩ := hallowed
    obtain ⟨s, b, hs, -, hb, hreads⟩ := h.live hy
    obtain ⟨t, c, ht, -, hc, hreads'⟩ := h.live hz
    obtain ⟨r, hconcat, hbuilds, hbuf⟩ := concat_spec h.sound hshort
    refine ⟨_, ?_, add_spec h hbuilds (Or.inr hbuf)⟩
    simp only [World.step, hs, ht, chars_eq hb hreads, chars_eq hc hreads', hconcat,
      bind_eq_bind, bind_some]
    rfl
  | concatC y c =>
    obtain ⟨hy, hc, hshort⟩ := hallowed
    obtain ⟨⟨w₁, p⟩, harg, ⟨hinv, hcstring⟩, -⟩ := arg_spec h hc hsafe
    obtain ⟨s, b, hs, -, hb, hreads⟩ := hinv.live hy
    obtain ⟨r, hconcat, hbuilds, hbuf⟩ := concat_spec hinv.sound hshort
    refine ⟨_, ?_, add_spec hinv hbuilds (Or.inr hbuf)⟩
    simp only at hcstring hs hb hconcat
    simp only [World.step, harg, hs, chars_eq hb hreads, hcstring, hconcat, bind_eq_bind,
      bind_some]
    rfl
  | assign x y => exact assign_spec h hallowed.1 hallowed.2 hsafe
  | assignC x c => exact assignC_spec h hallowed.1 hallowed.2 hsafe
  | toCString x =>
    obtain ⟨s, b, hs, hv, hb, hreads⟩ := h.live hallowed
    obtain ⟨⟨w₁, p⟩, hr, hinv, ⟨s', b', hpointer, hs', hb', hreads', hend⟩, -⟩ :=
      toCString_spec h hs hv (hsafe s hs)
    simp only at hpointer hs' hb'
    subst hpointer
    have hread := read_eq (w := w₁) (n := s'.len + 1) hb' hreads'.zeroOff_le hreads'.room
    rw [hend] at hread
    refine ⟨w₁, ?_, hinv⟩
    simp only [World.step, hr, hs', hread, bind_eq_bind, bind_some]
    rfl
  | destroy x =>
    obtain ⟨s, b, hs, -, -, -⟩ := h.live hallowed
    obtain ⟨w', hunlock, hext, hsound⟩ := unlock_string h hs
    refine ⟨_, ?_, inv_destroy h hs hext hsound⟩
    simp only [World.step, hs, hunlock, bind_eq_bind, bind_some]
    rfl

/-- A sequence of operations. -/
theorem run_spec {ops : List Op} : ∀ {w : World} {vals : Vals}, Inv w vals → AllowedRun vals ops →
    SafeRun w ops → ∃ w', w.run ops = some (w', (vals.run ops).2) ∧ Inv w' (vals.run ops).1 := by
  induction ops with
  | nil => exact fun h _ _ => ⟨_, rfl, h⟩
  | cons op ops ih =>
    rintro w vals h ⟨hallowed, hallowed'⟩ ⟨hsafe, hsafe'⟩
    obtain ⟨w₁, hstep, h₁⟩ := step_spec h hallowed hsafe
    obtain ⟨w', hrun, h'⟩ := ih h₁ hallowed' (hsafe' w₁ _ hstep)
    refine ⟨w', ?_, h'⟩
    rw [World.run, hstep]
    simp only [bind_eq_bind, bind_some, hrun]
    rfl

theorem inv_start : Inv World.start [] := by
  have hrefs : ∀ a, sharers World.start a = 0 := fun a => rfl
  have hheap : ∀ a, a ≠ emptyBuf → World.start.heap a = none := by
    intro a ha
    change Function.update (fun _ => none) emptyBuf _ a = none
    rw [update_of_ne ha]
  refine ⟨⟨fun a ha => ?_, fun a ha => ?_, ⟨1, rfl⟩⟩, fun a _ => ?_, rfl, fun x => trivial⟩
  · have hne : a ≠ emptyBuf := by simpa using ha
    rw [hheap a hne, hrefs]
    simp
  · have hne : a ≠ emptyBuf := by
      unfold emptyBuf
      change 1 ≤ a at ha
      omega
    exact hheap a hne
  · rw [hrefs]
    decide

/-! ## The strings of a run -/

theorem bind_chars {o : Option StringObj} {o' : Option (List UInt8)} (h : Holds w.heap o o') :
    o.bind w.chars = o' := by
  cases o with
  | none => exact (holds_none.mp h).symm
  | some s =>
    cases o' with
    | none => exact h.elim
    | some v =>
      obtain ⟨b, hb, hreads⟩ := h
      exact chars_eq hb hreads

theorem contents_eq (h : Inv w vals) : w.contents = vals := by
  apply ext_getElem
  · rw [World.contents, length_map]
    exact h.length
  · intro x hx hx'
    have hholds := h.holds x
    have hlt : x < w.strings.length := h.length ▸ hx'
    simp only [slot, getElem?_eq_getElem hlt, getElem?_eq_getElem hx', join_some] at hholds
    simp only [World.contents, getElem_map]
    exact bind_chars hholds

/-- The buffers are the ones of the strings. -/
theorem heap_iff (h : Inv w vals) {a : Nat} (ha : a ≠ emptyBuf) :
    (∃ b, w.heap a = some b) ↔ ∃ x s, slot w.strings x = some s ∧ s.buf = a := by
  obtain ⟨hnone, -⟩ := h.sound.counted a (by simpa using ha)
  rw [← refs_pos]
  change _ ↔ 0 < sharers w a
  cases hheap : w.heap a with
  | none => simp [hnone.mp hheap]
  | some b =>
    have hne : sharers w a ≠ 0 := fun hzero => by simp [hnone.mpr hzero] at hheap
    simpa using Nat.pos_of_ne_zero hne

end Invariant

/-- The strings keep their characters, `toCString` tells them with a zero at their end, and a buffer is
freed with the last of its strings. -/
theorem run_correct {ops : List Op} (hallowed : AllowedRun [] ops) (hsafe : SafeRun World.start ops) :
    ∃ w, World.start.run ops = some (w, (Vals.run [] ops).2) ∧ w.contents = (Vals.run [] ops).1 ∧
      ∀ a, a ≠ emptyBuf →
        ((∃ b, w.heap a = some b) ↔ ∃ x s, slot w.strings x = some s ∧ s.buf = a) := by
  obtain ⟨w, hrun, h⟩ := run_spec inv_start hallowed hsafe
  exact ⟨w, hrun, contents_eq h, fun a ha => heap_iff h ha⟩

/-- A string and a part of it, which outlives it. -/
def twoStrings : List Op := [.make [97, 98, 99], .substring 0 1 2, .toCString 1, .destroy 0]

theorem run_correct_twoStrings : ∃ w, World.start.run twoStrings = some (w, [[98, 99, 0]]) ∧
    w.contents = [none, some [98, 99]] ∧ ∀ a, a ≠ emptyBuf →
      ((∃ b, w.heap a = some b) ↔ ∃ x s, slot w.strings x = some s ∧ s.buf = a) := by
  have hallowed : AllowedRun [] twoStrings := by
    refine ⟨by simp [Op.Allowed], ⟨⟨_, rfl⟩, by decide⟩, ⟨_, rfl⟩, ⟨_, rfl⟩, trivial⟩
  have hsafe : SafeRun World.start twoStrings := by
    refine ⟨trivial, fun w₁ _ h₁ => ?_⟩
    cases h₁
    refine ⟨?_, fun w₂ _ h₂ => ?_⟩
    · intro s hs
      cases hs
      exact ⟨Or.inr (by decide), by decide⟩
    cases h₂
    refine ⟨?_, fun w₃ _ h₃ => ?_⟩
    · intro s hs
      cases hs
      exact Or.inl rfl
    exact ⟨trivial, fun _ _ _ => trivial⟩
  exact run_correct hallowed hsafe

/-- The part of a string, which is then alone in the buffer. -/
def cutString : List Op := [.make [97, 98, 99, 100, 101, 102], .substring 0 2 2, .destroy 0, .toCString 1]

theorem not_run_correct : AllowedRun [] cutString ∧
    ∃ w, World.start.run cutString = some (w, [[0, 100, 101]]) ∧ w.contents = [none, some [0, 100]] ∧
      Vals.run [] cutString = ([none, some [99, 100]], [[99, 100, 0]]) := by
  refine ⟨⟨by simp [Op.Allowed], ⟨⟨_, rfl⟩, by decide⟩, ⟨_, rfl⟩, ⟨_, rfl⟩, trivial⟩, _, rfl, rfl, rfl⟩

end Elm.Strings
