import Elm.Json.Accepted
import Elm.Json.SaverText

/-!
# Writing with the saver, then reading with the parser

The text that the saver prints for a value is given to the parser.  The parser tells the maker the value
that was written only if this value is an integer: the ends of the arrays and of the objects are never
told, and the saver refuses the other scalars out of an array and of an object.
-/

namespace Elm.Json

open Io Document List

/-- A scalar of a value to write. -/
inductive Atom
  | null
  | bool (val : Bool)
  | int (x : Int) (hx : IntType.int.Holds x)
  | string (str : List Char)

/-- The values to write: their strings and their names are made of Unicode characters. -/
abbrev Data := Document (List Char) Atom

/-- The bytes of a string. -/
def utf8 (str : List Char) : List UInt8 := str.flatMap String.utf8EncodeChar

/-- The call of the saver that writes an event. -/
def writeOp : Event (List Char) Atom → Saver.Op
  | .beginObject => .beginMap
  | .endObject => .endMap
  | .beginArray => .beginList
  | .endArray => .endList
  | .field name => .key (utf8 name)
  | .leaf .null => .write .null
  | .leaf (.bool val) => .write (.bool val)
  | .leaf (.int x hx) => .write (.int .int x hx)
  | .leaf (.string str) => .write (.string (utf8 str))

/-- The call of the maker that tells an event. -/
def tellCall : Event (List Char) Atom → Call
  | .beginObject => .beginObject
  | .endObject => .endObject
  | .beginArray => .beginArray
  | .endArray => .endArray
  | .field name => .field (chars (utf8 name))
  | .leaf .null => .leaf .null
  | .leaf (.bool val) => .leaf (.bool val)
  | .leaf (.int x _) => .leaf (.int x)
  | .leaf (.string str) => .leaf (.string (chars (utf8 str)))

/-- The value is written, and what is written is parsed to the same events. -/
def RoundTrips (readable : Bool) (indent : List Char) (p : Parser) (d : Data) : Prop :=
  ∃ (s : Saver) (input : List UInt8) (s' : Parser),
    (Saver.start readable indent).run (d.events.map writeOp) = some s ∧ s.state = .END ∧
      chars input = s.out ∧ p.doParsing recorder [] input = some (.ok (d.events.map tellCall, s'))

/-! ## Values that are not scalars -/

theorem isEnd_of_parsed {p s' : Parser} {input : List UInt8} {calls : List Call}
    (h : p.doParsing recorder [] input = some (.ok (calls, s'))) : ∀ e ∈ calls, isEnd e = false := by
  obtain ⟨d, ⟨rest, hd, -⟩, -⟩ := (doParsing_ok_iff recorder [] calls p input).mp ⟨s', h⟩
  rw [calls_of_derives h hd]
  intro e he
  simpa using (mem_filter.mp he).2

/-- The end of an array or of an object is not told. -/
theorem leaf_of_notEnd {d : Data} (h : ∀ e ∈ d.events.map tellCall, isEnd e = false) :
    ∃ x, d = .leaf x := by
  cases d with
  | leaf x => exact ⟨x, rfl⟩
  | array items =>
    have hend := h .endArray (mem_map.mpr ⟨.endArray, by simp [events], rfl⟩)
    cases hend
  | object fields =>
    have hend := h .endObject (mem_map.mpr ⟨.endObject, by simp [events], rfl⟩)
    cases hend

/-! ## Integers -/

/-- What is printed before the value. -/
def lead (readable : Bool) : List Char := if readable then ['\n'] else []

theorem run_int (readable : Bool) (indent : List Char) {x : Int} (hx : IntType.int.Holds x) :
    ∃ s, (Saver.start readable indent).run [.write (.int .int x hx)] = some s ∧ s.state = .END ∧
      s.out = lead readable ++ decimal x := by
  rw [← print_decimal hx (by decide) (by decide)]
  cases readable with
  | true => exact ⟨_, rfl, rfl, rfl⟩
  | false => exact ⟨_, rfl, rfl, rfl⟩

theorem ofUInt8_toUInt8 : ∀ c ∈ '\n' :: Parser.baseChars 10, Char.ofUInt8 c.toUInt8 = c := by decide

theorem chars_map {text : List Char} (h : ∀ c ∈ text, c ∈ '\n' :: Parser.baseChars 10) :
    chars (text.map Char.toUInt8) = text := by
  rw [chars, map_map]
  exact (map_congr_left fun c hc => ofUInt8_toUInt8 c (h c hc)).trans (map_id text)

/-- What is read of an integer, which is the integer if its absolute value has 31 bits. -/
theorem derives_int (readable : Bool) (x : Int) :
    ∃ y, Derives lenient (.leaf y) (lead readable ++ decimal x) [] ∧ (y = .int x ↔ x.natAbs < 2 ^ 31) := by
  have hlead : AllBlank (lead readable) := by
    cases readable
    · simp [AllBlank, lead]
    · simp [AllBlank, lead, IsBlank]
  have hends : EndsNumber [] := fun c hc => (nomatch hc)
  obtain ⟨y, hread, hkept⟩ := readsNumber_decimal (decide (x < 0)) (isInteger_horner x.natAbs) hends
  rw [numeral_horner, signed_natAbs] at hkept
  rw [append_nil] at hread
  exact ⟨y, .scalar (blanks_of_allBlank hlead _) (.number hread), hkept⟩

/-- The bytes that are printed of an integer. -/
theorem chars_printed (readable : Bool) (x : Int) :
    chars ((lead readable ++ decimal x).map Char.toUInt8) = lead readable ++ decimal x := by
  refine chars_map fun c hc => ?_
  rcases mem_append.mp hc with hc | hc
  · cases readable with
    | true => exact mem_cons.mpr (Or.inl (mem_singleton.mp hc))
    | false => cases hc
  · exact mem_cons_of_mem _ (decimal_baseChars x c hc)

/-- A value is read back as it was written if and only if it is an integer other than `-2^31`. -/
theorem roundTrips_iff (readable : Bool) (indent : List Char) (p : Parser) (d : Data) :
    RoundTrips readable indent p d ↔ ∃ x hx, d = .leaf (.int x hx) ∧ x ≠ -2 ^ 31 := by
  constructor
  · rintro ⟨s, input, s', hrun, hend, hinput, hparse⟩
    obtain ⟨a, rfl⟩ := leaf_of_notEnd (isEnd_of_parsed hparse)
    cases a with
    | null | bool _ => cases hrun
    | string str =>
      -- the characters are looked at before the state is refused
      have hrefused : (Saver.start readable indent).step (.write (.string (utf8 str))) = none := by
        cases hcodes : Utf8.chars (utf8 str) with
        | none => simp [Saver.step, Saver.write, hcodes]
        | some codes => simp [Saver.step, Saver.write, hcodes, Saver.putText, Saver.start, Saver.isArray]
      rw [events, map_singleton, Saver.run, foldlM_cons, writeOp, hrefused] at hrun
      cases hrun
    | int x hx =>
      refine ⟨x, hx, rfl, fun hlow => ?_⟩
      obtain ⟨s₁, hrun₁, -, hout⟩ := run_int readable indent hx
      have hs : s = s₁ := Option.some.inj (hrun.symm.trans hrun₁)
      obtain ⟨y, hd, hkept⟩ := derives_int readable x
      rw [← hout, ← hs, ← hinput] at hd
      have hcalls := calls_of_derives hparse hd
      have hy : y = .int x := by
        injection hcalls with hleaf
        injection hleaf with hint
        exact hint.symm
      have hlt := hkept.mp hy
      omega
  · rintro ⟨x, hx, rfl, hlow⟩
    obtain ⟨s, hrun, hend, hout⟩ := run_int readable indent hx
    obtain ⟨y, hd, hkept⟩ := derives_int readable x
    have hbounds : -2 ^ 31 ≤ x ∧ x < 2 ^ 31 := hx
    rw [hkept.mpr (by omega), ← chars_printed] at hd
    obtain ⟨s', hparse⟩ := doParsing_of_derives hd (recorder_feed _ []) p
    exact ⟨s, _, s', hrun, hend, (chars_printed readable x).trans hout.symm, hparse⟩

/-- The value is `{}`. -/
theorem not_roundTrips : ¬ ∀ (readable : Bool) (indent : List Char) (p : Parser) (d : Data),
    RoundTrips readable indent p d := by
  intro h
  obtain ⟨s, input, s', -, -, -, hparse⟩ := h false ['\t'] fresh (.object [])
  obtain ⟨x, hobject⟩ := leaf_of_notEnd (isEnd_of_parsed hparse)
  cases hobject

end Elm.Json
