import Elm.Lib.IntType
import Elm.Lib.Loop

/-!
# `block::DynBlock`

The block of `include/elm/alloc/DynBlock.h` and `src/block_DynBlock.cpp`, whose buffer is enlarged when data are put.
`grow` allocates a new buffer and does not record its size: what was put is kept, the buffer has room for it, but from
then on `capacity` is the size of a buffer that is gone.
-/

namespace Elm.Alloc

open List Option

/-- `DynBlock`: `_size`, `cap`, `inc` and the bytes of `buf`, which are unknown before they are written. -/
structure DynBlock where
  size : Int
  cap : Int
  inc : Int
  buf : List (Option UInt8)
  deriving DecidableEq

namespace DynBlock

/-- `new char[n]`. -/
def newBuf (n : Int) : List (Option UInt8) := replicate n.toNat none

/-- The constructor. -/
def new (capacity increment : Int) : DynBlock := ⟨0, capacity, increment, newBuf capacity⟩

/-- `memcpy` to the offset `pos` of a buffer; bytes outside of it cannot be written. -/
def memcpy (buf : List (Option UInt8)) (pos : Int) (src : List (Option UInt8)) : Option (List (Option UInt8)) :=
  if 0 ≤ pos ∧ pos + src.length ≤ buf.length then
    some (buf.take pos.toNat ++ src ++ buf.drop (pos.toNat + src.length))
  else none

/-- The `n` bytes of a buffer from the offset `pos` on. -/
def read (buf : List (Option UInt8)) (pos n : Int) : Option (List (Option UInt8)) :=
  if 0 ≤ pos ∧ 0 ≤ n ∧ pos + n ≤ buf.length then some ((buf.drop pos.toNat).take n.toNat) else none

/-- `grow`; the new size is not kept. -/
def grow (b : DynBlock) (min : Int) : Option DynBlock := do
  let newSize ← IntType.int.checked (b.cap + if min > b.inc then min else b.inc)
  let old ← read b.buf 0 b.size
  let newBuf ← memcpy (newBuf newSize) 0 old
  some { b with buf := newBuf }

/-- The part of `put` and `alloc` that needs to enlarge the block, with the size of the block after it. -/
def reserve (b : DynBlock) (size : Int) : Option (DynBlock × Int) :=
  (IntType.int.checked (b.size + size)).bind fun sum =>
    (if sum > b.cap then b.grow (sum - b.cap) else some b).map fun b => (b, sum)

/-- `put`. -/
def put (b : DynBlock) (block : List UInt8) : Option DynBlock := do
  let (b, sum) ← b.reserve block.length
  let buf ← memcpy b.buf b.size (block.map some)
  some { b with buf, size := sum }

/-- `alloc`, with the offset of the block that it returns. -/
def alloc (b : DynBlock) (size : Int) : Option (DynBlock × Int) := do
  let (b, sum) ← b.reserve size
  some ({ b with size := sum }, b.size)

/-- `get`. -/
def get (b : DynBlock) (size pos : Int) : Option (List (Option UInt8)) :=
  if (0 ≤ pos ∧ pos < b.size) ∧ 0 ≤ size ∧ pos + size ≤ b.size then read b.buf pos size else none

/-- `setSize`. -/
def setSize (b : DynBlock) (newSize : Int) : DynBlock := { b with size := newSize }

/-- `reset`; the buffer is there. -/
def reset (b : DynBlock) : DynBlock := { b with size := 0 }

/-- An operation; the user of `alloc` writes the block that is returned. -/
inductive Op
  | put (block : List UInt8)
  | alloc (block : List UInt8)
  | get (size pos : Int)
  | setSize (newSize : Int)
  | reset
  deriving DecidableEq

/-- The effect of an operation. -/
def step (b : DynBlock) : Op → Option DynBlock
  | .put block => b.put block
  | .alloc block => do
    let (b, pos) ← b.alloc block.length
    let buf ← memcpy b.buf pos (block.map some)
    some { b with buf }
  | .get size pos => (b.get size pos).map fun _ => b
  | .setSize newSize => some (b.setSize newSize)
  | .reset => some b.reset

/-- What is asked of the users: a size that is set is not above the size of the block, and what is read is in the
block. -/
def Allowed (b : DynBlock) : Op → Prop
  | .put _ | .alloc _ | .reset => True
  | .get size pos => (0 ≤ pos ∧ pos < b.size) ∧ 0 ≤ size ∧ pos + size ≤ b.size
  | .setSize newSize => 0 ≤ newSize ∧ newSize ≤ b.size

instance (b : DynBlock) : (op : Op) → Decidable (b.Allowed op)
  | .put _ | .alloc _ | .reset => .isTrue trivial
  | .get _ _ => inferInstanceAs (Decidable (_ ∧ _))
  | .setSize _ => inferInstanceAs (Decidable (_ ∧ _))

/-- The data that are in the block after an operation. -/
def after (content : List UInt8) : Op → List UInt8
  | .put block | .alloc block => content ++ block
  | .get _ _ => content
  | .setSize newSize => content.take newSize.toNat
  | .reset => []

/-- An operation on a block with the data that were put. -/
def stepWith (s : DynBlock × List UInt8) (op : Op) : Option (DynBlock × List UInt8) :=
  (s.1.step op).map fun b => (b, after s.2 op)

/-- The buffer has the data, and room for them; they are what `get` reads. -/
structure Kept (s : DynBlock × List UInt8) : Prop where
  size : s.1.size = s.2.length
  room : s.1.size ≤ s.1.buf.length
  content : s.1.buf.take s.2.length = s.2.map some
  gets : ∀ size pos, s.1.Allowed (.get size pos) →
    s.1.get size pos = some (((s.2.drop pos.toNat).take size.toNat).map some)

/-- And `capacity` is the size of the buffer. -/
structure Right (s : DynBlock × List UInt8) : Prop extends Kept s where
  capacity : s.1.cap = s.1.buf.length

/-- The operation does not need to enlarge the buffer. -/
def Fits (s : DynBlock × List UInt8) : Op → Prop
  | .put block | .alloc block => s.1.size + block.length ≤ s.1.cap
  | _ => True

/-! ## Buffers -/

theorem length_newBuf {n : Int} (hn : 0 ≤ n) : ((newBuf n).length : Int) = n := by
  rw [newBuf, length_replicate, Int.toNat_of_nonneg hn]

/-- What is written follows what was there. -/
theorem memcpy_spec {buf src : List (Option UInt8)} {n : Nat} (hroom : n + src.length ≤ buf.length) :
    ∃ buf', memcpy buf n src = some buf' ∧ buf'.length = buf.length ∧
      buf'.take (n + src.length) = buf.take n ++ src := by
  refine ⟨_, if_pos ⟨Int.natCast_nonneg n, by omega⟩, ?_, ?_⟩
  · simp only [Int.toNat_natCast, length_append, length_take, length_drop]
    omega
  · have hlen : (buf.take n ++ src).length = n + src.length := by
      rw [length_append, length_take]
      omega
    rw [Int.toNat_natCast, ← hlen, take_left]

theorem memcpy_eq_some {buf src buf' : List (Option UInt8)} {n : Nat} (h : memcpy buf n src = some buf') :
    n + src.length ≤ buf.length := by
  unfold memcpy at h
  split_ifs at h with hroom
  omega

/-- What the members of a block say of each other, in all the runs. -/
structure Inv (s : DynBlock × List UInt8) : Prop where
  size : s.1.size = s.2.length
  room : s.1.size ≤ s.1.buf.length
  content : s.1.buf.take s.2.length = s.2.map some
  cap_nonneg : 0 ≤ s.1.cap
  cap_le : s.1.cap ≤ s.1.buf.length
  cap_lt : s.1.cap < 2 ^ 31

variable {b b' : DynBlock} {content block : List UInt8} {op : Op} {s s' : DynBlock × List UInt8}

theorem Inv.kept (h : Inv s) : Kept s := by
  refine ⟨h.size, h.room, h.content, fun size pos hallowed => ?_⟩
  obtain ⟨⟨hpos, hlt⟩, hsize, hlast⟩ := hallowed
  have hroom := h.room
  have hlen := h.size
  rw [get, if_pos ⟨⟨hpos, hlt⟩, hsize, hlast⟩, read, if_pos ⟨hpos, hsize, by omega⟩, some.injEq,
    map_take, map_drop, ← h.content, drop_take, take_take, min_eq_left (by omega)]

/-- The block after `reserve`: its data are there, with room for more. -/
structure Reserved (b b' : DynBlock) (size : Int) : Prop where
  size_eq : b'.size = b.size
  cap_eq : b'.cap = b.cap
  room : b.size + size ≤ b'.buf.length
  cap_le : b.cap ≤ b'.buf.length
  content : b'.buf.take b.size.toNat = b.buf.take b.size.toNat

theorem grow_eq_some {min : Int} (hsize : 0 ≤ b.size) (hcap : 0 ≤ b.cap) (hmin : 0 < min)
    (h : b.grow min = some b') :
    Reserved b b' (b.cap + min - b.size) ∧ b.cap < b'.buf.length := by
  obtain ⟨newSize, hnew, h⟩ := bind_eq_some_iff.mp h
  obtain ⟨old, hold, h⟩ := bind_eq_some_iff.mp h
  obtain ⟨buf, hbuf, h⟩ := bind_eq_some_iff.mp h
  obtain rfl := some.inj h
  obtain ⟨-, rfl⟩ := IntType.checked_eq_some.mp hnew
  have hle : min ≤ if min > b.inc then min else b.inc := by
    split_ifs with hinc <;> omega
  obtain ⟨n, hn⟩ := Int.eq_ofNat_of_zero_le hsize
  unfold read at hold
  split_ifs at hold with hroom
  obtain rfl := some.inj hold
  have hlen := length_newBuf (n := b.cap + if min > b.inc then min else b.inc) (by omega)
  have hcopy := memcpy_eq_some (n := 0) hbuf
  obtain ⟨buf', hbuf', hlen', htake⟩ := memcpy_spec (n := 0) hcopy
  obtain rfl := some.inj (hbuf.symm.trans hbuf')
  rw [Int.toNat_zero, drop_zero, take_zero, nil_append, Nat.zero_add, length_take,
    min_eq_left (by omega)] at htake
  exact ⟨⟨rfl, rfl, by simp only; omega, by simp only; omega, htake⟩, by simp only; omega⟩

/-- A block that is not enlarged stays as it is, and a block that is has a buffer larger than its capacity. -/
theorem reserve_spec {n : Nat} {sum : Int} (h : Inv (b, content)) (hreserve : b.reserve n = some (b', sum)) :
    sum = b.size + n ∧ Reserved b b' n ∧ (b.size + n ≤ b.cap → b' = b) ∧
      (¬ b.size + n ≤ b.cap → b.cap < b'.buf.length) := by
  obtain ⟨sum', hsum, hreserve⟩ := bind_eq_some_iff.mp hreserve
  obtain ⟨b'', hgrow, hreserve⟩ := map_eq_some_iff.mp hreserve
  obtain ⟨rfl, rfl⟩ := Prod.mk.inj hreserve
  obtain ⟨-, rfl⟩ := IntType.checked_eq_some.mp hsum
  have hsize : 0 ≤ b.size := by rw [h.size]; omega
  have hcap := h.cap_nonneg
  have hroom := h.room
  have hle := h.cap_le
  dsimp only at hroom hle
  refine ⟨rfl, ?_⟩
  split_ifs at hgrow with hover
  · obtain ⟨hres, hlt⟩ := grow_eq_some hsize hcap (by omega) hgrow
    have hroom' := hres.room
    exact ⟨⟨hres.size_eq, hres.cap_eq, by omega, hres.cap_le, hres.content⟩, fun hfits => absurd hover (by omega),
      fun _ => hlt⟩
  · obtain rfl := some.inj hgrow
    exact ⟨⟨rfl, rfl, by omega, hle, rfl⟩, fun _ => rfl, fun hnot => absurd hover (by omega)⟩

/-- A block with enough capacity is not enlarged. -/
theorem reserve_of_fits {n : Nat} (h : Inv (b, content)) (hfits : b.size + n ≤ b.cap) :
    b.reserve n = some (b, b.size + n) := by
  have hsize := h.size
  have hcap := h.cap_lt
  dsimp only at hsize hcap
  rw [reserve, IntType.checked_int (by omega) (by omega)]
  simp only [bind_some, if_neg (show ¬ b.size + (n : Int) > b.cap by omega), map_some]

/-- Data written after those of the block, in a buffer with room for them. -/
theorem memcpy_content (h : Inv (b, content)) (hres : Reserved b b' block.length) :
    ∃ buf, memcpy b'.buf b.size (block.map some) = some buf ∧ buf.length = b'.buf.length ∧
      buf.take (content ++ block).length = (content ++ block).map some := by
  have hroom := hres.room
  have hcontent := hres.content
  have hsize : b.size = (content.length : Nat) := h.size
  rw [hsize] at hroom hcontent ⊢
  have hlength : content.length + (block.map some).length ≤ b'.buf.length := by
    rw [length_map]
    omega
  obtain ⟨buf, hbuf, hlen, htake⟩ := memcpy_spec hlength
  refine ⟨buf, hbuf, hlen, ?_⟩
  rw [length_map] at htake
  rw [length_append, htake, map_append, ← h.content]
  rw [Int.toNat_natCast] at hcontent
  rw [hcontent]

/-- A block after data were put in it. -/
theorem inv_of_reserved {buf : List (Option UInt8)} (h : Inv (b, content)) (hres : Reserved b b' block.length)
    (hlen : buf.length = b'.buf.length)
    (htake : buf.take (content ++ block).length = (content ++ block).map some) :
    Inv (({ b' with buf, size := b.size + block.length } : DynBlock), content ++ block) := by
  have hsize := h.size
  have hroom := hres.room
  have hle := hres.cap_le
  have hcap := hres.cap_eq
  have hnonneg := h.cap_nonneg
  have hlt := h.cap_lt
  dsimp only at hsize hnonneg hlt
  refine ⟨?_, ?_, htake, ?_, ?_, ?_⟩
  · simp only [hsize, length_append, Nat.cast_add]
  · simp only [hlen, hroom]
  · simp only [hcap, hnonneg]
  · simp only [hcap, hlen, hle]
  · simp only [hcap, hlt]

/-! ## One operation -/

/-- The operations that put data in the block. -/
def Puts (op : Op) (block : List UInt8) : Prop := op = .put block ∨ op = .alloc block

/-- They reserve a place for the data, and write them there. -/
theorem puts_eq_some (hop : Puts op block) {r : DynBlock} : b.step op = some r ↔
    ∃ b' sum buf, b.reserve block.length = some (b', sum) ∧
      memcpy b'.buf b'.size (block.map some) = some buf ∧ r = { b' with buf, size := sum } := by
  rcases hop with rfl | rfl
  · constructor
    · intro h
      obtain ⟨⟨b', sum⟩, hreserve, h⟩ := bind_eq_some_iff.mp h
      obtain ⟨buf, hbuf, h⟩ := bind_eq_some_iff.mp h
      exact ⟨b', sum, buf, hreserve, hbuf, (some.inj h).symm⟩
    · rintro ⟨b', sum, buf, hreserve, hbuf, rfl⟩
      simp only [step, put, bind_eq_bind, hreserve, bind_some, hbuf]
  · constructor
    · intro h
      obtain ⟨⟨b₁, pos⟩, halloc, h⟩ := bind_eq_some_iff.mp h
      obtain ⟨⟨b', sum⟩, hreserve, halloc⟩ := bind_eq_some_iff.mp halloc
      obtain ⟨rfl, rfl⟩ := Prod.mk.inj (some.inj halloc)
      obtain ⟨buf, hbuf, h⟩ := bind_eq_some_iff.mp h
      exact ⟨b', sum, buf, hreserve, hbuf, (some.inj h).symm⟩
    · rintro ⟨b', sum, buf, hreserve, hbuf, rfl⟩
      simp only [step, alloc, bind_eq_bind, hreserve, bind_some, hbuf]

theorem after_puts (hop : Puts op block) : after content op = content ++ block := by
  rcases hop with rfl | rfl <;> rfl

theorem fits_puts (hop : Puts op block) : Fits s op ↔ s.1.size + block.length ≤ s.1.cap := by
  rcases hop with rfl | rfl <;> rfl

theorem fits_of_not_puts (hop : ∀ block, ¬ Puts op block) : Fits s op := by
  cases op with
  | put block => exact absurd (Or.inl rfl) (hop block)
  | alloc block => exact absurd (Or.inr rfl) (hop block)
  | get => trivial
  | setSize => trivial
  | reset => trivial

/-- The invariant after data were put, and what the capacity is then. -/
theorem puts_spec (h : Inv (b, content)) (hop : Puts op block) (hstep : b.step op = some b') :
    Inv (b', content ++ block) ∧
      (b.size + block.length ≤ b.cap → b'.cap = b.cap ∧ b'.buf.length = b.buf.length) ∧
      (¬ b.size + block.length ≤ b.cap → b'.cap < b'.buf.length) := by
  obtain ⟨b₁, sum, buf, hreserve, hbuf, rfl⟩ := (puts_eq_some hop).mp hstep
  obtain ⟨rfl, hres, hsame, hgrown⟩ := reserve_spec h hreserve
  obtain ⟨buf', hbuf', hlen, htake⟩ := memcpy_content h hres
  rw [hres.size_eq, hbuf'] at hbuf
  obtain rfl := some.inj hbuf
  refine ⟨inv_of_reserved h hres hlen htake, fun hfits => ?_, fun hover => ?_⟩
  · obtain rfl := hsame hfits
    exact ⟨rfl, hlen⟩
  · have hlt := hgrown hover
    have hcap := hres.cap_eq
    simp only [hlen, hcap]
    exact hlt

/-- Data that fit in the capacity are put. -/
theorem exists_step_of_fits (h : Inv (b, content)) (hop : Puts op block) (hfits : b.size + block.length ≤ b.cap) :
    ∃ b', b.step op = some b' := by
  have hle := h.cap_le
  dsimp only at hle
  have hres : Reserved b b block.length := ⟨rfl, rfl, by omega, hle, rfl⟩
  obtain ⟨buf, hbuf, -, -⟩ := memcpy_content h hres
  exact ⟨_, (puts_eq_some hop).mpr ⟨b, _, buf, reserve_of_fits h hfits, hbuf, rfl⟩⟩

/-- The other operations keep the invariant, the buffer and the capacity. -/
theorem keeps_spec (h : Inv (b, content)) (hallowed : b.Allowed op) (hop : ∀ block, ¬ Puts op block) :
    ∃ b', b.step op = some b' ∧ Inv (b', after content op) ∧ b'.buf = b.buf ∧ b'.cap = b.cap := by
  have hsize := h.size
  have hroom := h.room
  have hcontent := h.content
  dsimp only at hsize hroom hcontent
  cases op with
  | put block => exact absurd (Or.inl rfl) (hop block)
  | alloc block => exact absurd (Or.inr rfl) (hop block)
  | get size pos => exact ⟨b, by rw [step, h.kept.gets size pos hallowed, map_some], h, rfl, rfl⟩
  | setSize newSize =>
    obtain ⟨hlow, hle⟩ := hallowed
    refine ⟨_, rfl, ⟨?_, ?_, ?_, h.cap_nonneg, h.cap_le, h.cap_lt⟩, rfl, rfl⟩
    · simp only [setSize, after, length_take]
      omega
    · simp only [setSize]
      omega
    · simp only [setSize, after, map_take, ← hcontent, take_take, length_take]
  | reset =>
    refine ⟨_, rfl, ⟨rfl, ?_, rfl, h.cap_nonneg, h.cap_le, h.cap_lt⟩, rfl, rfl⟩
    simp only [reset]
    omega

/-- Every operation keeps the invariant. -/
theorem step_inv (h : Inv s) (hallowed : s.1.Allowed op) (hstep : stepWith s op = some s') : Inv s' := by
  obtain ⟨b', hb', rfl⟩ := map_eq_some_iff.mp hstep
  by_cases hop : ∃ block, Puts op block
  · obtain ⟨block, hop⟩ := hop
    rw [after_puts hop]
    exact (puts_spec h hop hb').1
  · obtain ⟨b'', hb'', hinv, -⟩ := keeps_spec h hallowed (not_exists.mp hop)
    obtain rfl := some.inj (hb'.symm.trans hb'')
    exact hinv

/-! ## Runs -/

/-- A block whose buffer has the size of its capacity. -/
def Full (s : DynBlock × List UInt8) : Prop := Inv s ∧ s.1.cap = s.1.buf.length

/-- An operation that fits keeps the capacity right. -/
theorem step_full (h : Full s) (hallowed : s.1.Allowed op) (hfits : Fits s op) :
    ∃ s', stepWith s op = some s' ∧ Full s' := by
  obtain ⟨hinv, hcap⟩ := h
  by_cases hop : ∃ block, Puts op block
  · obtain ⟨block, hop⟩ := hop
    have hfits' := (fits_puts hop).mp hfits
    obtain ⟨b', hb'⟩ := exists_step_of_fits hinv hop hfits'
    obtain ⟨hinv', hsame, -⟩ := puts_spec hinv hop hb'
    obtain ⟨hcap', hlen⟩ := hsame hfits'
    refine ⟨(b', after s.2 op), by rw [stepWith, hb', map_some], ?_, ?_⟩
    · rw [after_puts hop]
      exact hinv'
    · simp only [hcap', hlen, hcap]
  · obtain ⟨b', hb', hinv', hbuf, hcap'⟩ := keeps_spec hinv hallowed (not_exists.mp hop)
    refine ⟨(b', after s.2 op), by rw [stepWith, hb', map_some], hinv', ?_⟩
    simp only [hbuf, hcap', hcap]

/-- A buffer that is enlarged is larger than the capacity. -/
theorem step_not_right (h : Full s) (hfits : ¬ Fits s op) (hstep : stepWith s op = some s') : ¬ Right s' := by
  obtain ⟨b', hb', rfl⟩ := map_eq_some_iff.mp hstep
  by_cases hop : ∃ block, Puts op block
  · obtain ⟨block, hop⟩ := hop
    intro hright
    have hlt := (puts_spec h.1 hop hb').2.2 (fun hle => hfits ((fits_puts hop).mpr hle))
    have hcap := hright.capacity
    dsimp only at hcap
    omega
  · exact absurd (fits_of_not_puts (not_exists.mp hop)) hfits

/-- A new block; the parameters of the constructor are not negative. -/
def fresh (capacity increment : Fin (2 ^ 31)) : DynBlock × List UInt8 :=
  (new (capacity.val : Int) (increment.val : Int), [])

theorem fresh_full (capacity increment : Fin (2 ^ 31)) : Full (fresh capacity increment) := by
  have hlt := capacity.isLt
  have hlen := length_newBuf (n := (capacity.val : Int)) (Int.natCast_nonneg _)
  refine ⟨⟨rfl, Int.natCast_nonneg _, rfl, Int.natCast_nonneg _, hlen.ge, ?_⟩, hlen.symm⟩
  simp only [fresh, new]
  omega

/-- In all the runs, the block keeps the data that were put and has room for them.  The capacity is that of the buffer
all along a run exactly if nothing that is put goes over it. -/
theorem run_right_iff (capacity increment : Fin (2 ^ 31)) (ops : List Op)
    (hops : Run.Meets (fun s op => s.1.Allowed op) stepWith (fresh capacity increment) ops) :
    (∀ k t, Run.exec stepWith (fresh capacity increment) (ops.take k) = some t → Kept t) ∧
      ((∀ k, ∃ t, Run.exec stepWith (fresh capacity increment) (ops.take k) = some t ∧ Right t) ↔
        Run.Meets Fits stepWith (fresh capacity increment) ops) := by
  refine ⟨fun k t ht => ?_, ?_⟩
  · have hinv := Run.exec_invariant Inv (fun s op s' hs hop hs' => step_inv hs hop hs') (ops.take k) _ t
      (fresh_full capacity increment).1 (hops.take k) ht
    exact hinv.kept
  · exact (Run.meets_iff_forall_exists_exec Full Right (fun _ h => ⟨h.1.kept, h.2⟩)
      (fun _ _ hs hop hfits => step_full hs hop hfits)
      (fun _ _ _ hs _ hfits hstep => step_not_right hs hfits hstep) ops _ (fresh_full capacity increment) hops).symm

/-- Two bytes put in a block of 4 bytes, then taken back. -/
theorem run_right_of_two :
    (∀ k t, Run.exec stepWith (fresh 4 0) ([Op.put [1, 2], .get 1 1, .setSize 0].take k) = some t → Kept t) ∧
      ((∀ k, ∃ t, Run.exec stepWith (fresh 4 0) ([Op.put [1, 2], .get 1 1, .setSize 0].take k) = some t ∧ Right t) ↔
        Run.Meets Fits stepWith (fresh 4 0) [Op.put [1, 2], .get 1 1, .setSize 0]) :=
  run_right_iff 4 0 [.put [1, 2], .get 1 1, .setSize 0] (by decide)

/-- Two bytes put in a block of one byte. -/
theorem not_right : ¬ ∀ t, Run.exec stepWith (fresh 1 0) [Op.put [1, 2]] = some t → Right t := by
  intro h
  have hcap := (h (⟨2, 1, 0, [some 1, some 2]⟩, [1, 2]) (by decide)).capacity
  exact absurd hcap (by decide)

end DynBlock

end Elm.Alloc
