import Mathlib.Tactic

/-!
# `checksum::Fletcher`

The checksum of `include/elm/checksum/Fletcher.h` and `src/checksum_Fletcher.cpp`.  A half is read in the
order of a little endian host, and its bytes are not initialized by the constructor.

At the end of a stream, `put` adds a half of one byte with the byte that the former half has left, and `sum`
folds the sums once.
-/

namespace Elm.Checksum

open List Nat

/-- `Fletcher`; `half` has its two bytes. -/
structure Fletcher where
  sum1 : UInt32
  sum2 : UInt32
  len : UInt32
  half : UInt8 × UInt8
  size : Nat
  deriving DecidableEq

namespace Fletcher

/-- The constructor; `half` is what the memory has. -/
def new (half : UInt8 × UInt8) : Fletcher := ⟨0xffff, 0xffff, 0, half, 0⟩

/-- `(sum & 0xffff) + (sum >> 16)`. -/
def fold (sum : UInt32) : UInt32 := (sum &&& (0xffff : UInt32)) + (sum >>> 16)

/-- `shuffle`. -/
def shuffle (s : Fletcher) : Fletcher := { s with sum1 := fold s.sum1, sum2 := fold s.sum2, len := 0 }

/-- `*reinterpret_cast<t::uint16 *>(half)`. -/
def half16 (half : UInt8 × UInt8) : UInt32 := half.1.toUInt32 ||| half.2.toUInt32 <<< 8

/-- `add`. -/
def add (s : Fletcher) : Fletcher :=
  let sum1 := s.sum1 + half16 s.half
  let s := { s with sum1, sum2 := s.sum2 + sum1, len := s.len + 2 }
  if s.len = 360 then s.shuffle else s

/-- `half[size++] = b`. -/
def store (s : Fletcher) (b : UInt8) : Fletcher :=
  { s with half := if s.size = 0 then (b, s.half.2) else (s.half.1, b), size := s.size + 1 }

/-- `size = 0; add();`. -/
def addHalf (s : Fletcher) : Fletcher := { s with size := 0 }.add

/-- The two loops of `put`, on the bytes that the stream has left: the inner loop leaves a half of less than
two bytes at the end of the stream only. -/
def put (s : Fletcher) : List UInt8 → Fletcher
  | [] => if s.size = 0 then s else s.addHalf
  | b :: block =>
    let s := s.store b
    if s.size < 2 then s.put block else s.addHalf.put block

/-- `sum`, with the state that it leaves. -/
def sum (s : Fletcher) : UInt32 × Fletcher :=
  let s := if s.size = 1 then { s with half := (s.half.1, 0) }.add else s
  let s := s.shuffle
  (s.sum2 <<< 16 ||| s.sum1, s)

/-- The state after successive calls of `put`. -/
def puts (s : Fletcher) (blocks : List (List UInt8)) : Fletcher := blocks.foldl put s

end Fletcher

/-! ## The checksum of a message -/

namespace Fletcher32

/-- The half of two bytes. -/
def word (a b : UInt8) : Nat := a.toNat + 2 ^ 8 * b.toNat

/-- The halves of a message; one of odd length is padded with a zero byte. -/
def words : List UInt8 → List Nat
  | [] => []
  | [a] => [word a 0]
  | a :: b :: message => word a b :: words message

/-- The sum of the halves and the sum of the successive values of this sum. -/
def sums (ws : List Nat) : Nat × Nat := ws.foldl (fun c w => (c.1 + w, c.2 + (c.1 + w))) (0, 0)

/-- A sum reduced modulo 65535 to 16 bits; zero is `0xffff`, which both sums start from. -/
def reduce (c : Nat) : Nat := if c % 65535 = 0 then 65535 else c % 65535

/-- The checksum of halves. -/
def ofWords (ws : List Nat) : Nat := reduce (sums ws).2 * 2 ^ 16 + reduce (sums ws).1

/-- The checksum of a message. -/
def checksum (message : List UInt8) : Nat := ofWords (words message)

end Fletcher32

namespace Fletcher

open Fletcher32

/-! ## The halves that are added -/

/-- The halves that a call of `put` adds when `half[1]` is `b`, with the byte left there: the last byte of a
piece of odd length is added with the byte that is there. -/
def pieceHalves : UInt8 → List UInt8 → List Nat × UInt8
  | b, [] => ([], b)
  | b, [a] => ([word a b], b)
  | _, a :: b :: block =>
    let r := pieceHalves b block
    (word a b :: r.1, r.2)

/-- The halves that successive calls of `put` add. -/
def halves : UInt8 → List (List UInt8) → List Nat
  | _, [] => []
  | b, block :: blocks => (pieceHalves b block).1 ++ halves (pieceHalves b block).2 blocks

/-! ## Sums and folds -/

/-- A sum on 32 bits and the sum it stands for. -/
def Stands (sum : UInt32) (c : Nat) : Prop := 0 < sum.toNat ∧ sum.toNat ≡ c [MOD 65535]

theorem fold_toNat (sum : UInt32) : (fold sum).toNat = sum.toNat % 2 ^ 16 + sum.toNat / 2 ^ 16 := by
  have hlt := sum.toNat_lt
  unfold fold
  rw [UInt32.toNat_add, UInt32.toNat_and, UInt32.toNat_shiftRight]
  have hand : sum.toNat &&& (0xffff : UInt32).toNat = sum.toNat % 2 ^ 16 :=
    and_two_pow_sub_one_eq_mod sum.toNat 16
  rw [hand, show (16 : UInt32).toNat % 32 = 16 from rfl, shiftRight_eq_div_pow]
  exact mod_eq_of_lt (by omega)

/-- A fold keeps what a sum stands for, as `2 ^ 16` is one modulo 65535. -/
theorem Stands.fold {sum : UInt32} {c : Nat} (h : Stands sum c) : Stands (Fletcher.fold sum) c := by
  obtain ⟨hpos, hmod⟩ := h
  have hsplit : sum.toNat = 2 ^ 16 * (sum.toNat / 2 ^ 16) + sum.toNat % 2 ^ 16 :=
    (div_add_mod sum.toNat (2 ^ 16)).symm
  constructor
  · rw [fold_toNat]
    omega
  · refine Nat.ModEq.trans ?_ hmod
    rw [fold_toNat]
    unfold Nat.ModEq
    omega

theorem Stands.reduce_eq {sum : UInt32} {c : Nat} (h : Stands sum c) (hlt : sum.toNat < 2 ^ 16) :
    sum.toNat = reduce c := by
  obtain ⟨hpos, hmod⟩ := h
  unfold Nat.ModEq at hmod
  unfold reduce
  split_ifs with hzero <;> omega

theorem half16_toNat (half : UInt8 × UInt8) : (half16 half).toNat = word half.1 half.2 := by
  have h1 := half.1.toNat_lt
  have h2 := half.2.toNat_lt
  unfold half16 word
  rw [UInt32.toNat_or, UInt32.toNat_shiftLeft, UInt8.toNat_toUInt32, UInt8.toNat_toUInt32,
    show (8 : UInt32).toNat % 32 = 8 from rfl, shiftLeft_eq, mod_eq_of_lt (by omega),
    Nat.or_comm, ← shiftLeft_eq, ← shiftLeft_add_eq_or_of_lt (i := 8) h1, shiftLeft_eq]
  omega

theorem word_lt (a b : UInt8) : word a b < 2 ^ 16 := by
  have ha := a.toNat_lt
  have hb := b.toNat_lt
  unfold word
  omega

/-- The sums stand for those of `ws`; they are far from the bound of 32 bits, as there are less than 180
halves after a fold. -/
def Tracks (s : Fletcher) (ws : List Nat) : Prop :=
  ∃ k < 180, s.len.toNat = 2 * k ∧ s.sum1.toNat ≤ (k + 2) * 65535 ∧
    s.sum2.toNat ≤ (182 * k + 2) * 65535 ∧ Stands s.sum1 (sums ws).1 ∧ Stands s.sum2 (sums ws).2

theorem tracks_new (half : UInt8 × UInt8) : (new half).Tracks [] := by
  have hzero : Stands 0xffff 0 := by
    unfold Stands
    decide
  exact ⟨0, by decide, rfl, by simp [new], by simp [new], hzero, hzero⟩

theorem sums_append (ws : List Nat) (w : Nat) :
    sums (ws ++ [w]) = ((sums ws).1 + w, (sums ws).2 + ((sums ws).1 + w)) := by
  unfold sums
  rw [foldl_append]
  rfl

@[simp] theorem add_half (s : Fletcher) : s.add.half = s.half := by
  unfold add shuffle
  dsimp only
  split_ifs <;> rfl

@[simp] theorem add_size (s : Fletcher) : s.add.size = s.size := by
  unfold add shuffle
  dsimp only
  split_ifs <;> rfl

theorem toNat_add_of_lt {a b : UInt32} (h : a.toNat + b.toNat < 2 ^ 32) :
    (a + b).toNat = a.toNat + b.toNat := by
  rw [UInt32.toNat_add]
  exact mod_eq_of_lt h

theorem Stands.add {a b : UInt32} {c d : Nat} (ha : Stands a c) (hb : b.toNat ≡ d [MOD 65535])
    (hlt : a.toNat + b.toNat < 2 ^ 32) : Stands (a + b) (c + d) := by
  unfold Stands
  rw [toNat_add_of_lt hlt]
  exact ⟨Nat.add_pos_left ha.1 _, ha.2.add hb⟩

/-- A half is added to both sums. -/
theorem Tracks.add {s : Fletcher} {ws : List Nat} (h : s.Tracks ws) :
    s.add.Tracks (ws ++ [word s.half.1 s.half.2]) := by
  obtain ⟨k, hk, hlen, hle1, hle2, hs1, hs2⟩ := h
  have hhalf := half16_toNat s.half
  have hword := word_lt s.half.1 s.half.2
  have hlt1 : s.sum1.toNat + (half16 s.half).toNat < 2 ^ 32 := by omega
  have hsum1 := toNat_add_of_lt hlt1
  have hlt2 : s.sum2.toNat + (s.sum1 + half16 s.half).toNat < 2 ^ 32 := by omega
  have hsum2 := toNat_add_of_lt hlt2
  have hst1 : Stands (s.sum1 + half16 s.half) ((sums ws).1 + word s.half.1 s.half.2) :=
    hs1.add (by rw [hhalf]) hlt1
  have hst2 := hs2.add hst1.2 hlt2
  have hlen' : (s.len + 2).toNat = 2 * (k + 1) := by
    have hlt : s.len.toNat + (2 : UInt32).toNat < 2 ^ 32 := by
      rw [hlen, show (2 : UInt32).toNat = 2 from rfl]
      omega
    rw [toNat_add_of_lt hlt, hlen]
    rfl
  unfold Tracks
  rw [sums_append]
  unfold Fletcher.add
  simp only
  split_ifs with hfull
  · -- the sums are folded
    refine ⟨0, by decide, rfl, ?_, ?_, hst1.fold, hst2.fold⟩
    · show (Fletcher.fold (s.sum1 + half16 s.half)).toNat ≤ _
      rw [fold_toNat]
      omega
    · show (Fletcher.fold (s.sum2 + (s.sum1 + half16 s.half))).toNat ≤ _
      rw [fold_toNat]
      omega
  · have hk' : k + 1 < 180 := by
      by_contra hge
      refine hfull (UInt32.toNat_inj.mp ?_)
      rw [hlen', show (360 : UInt32).toNat = 360 from rfl]
      omega
    refine ⟨k + 1, hk', hlen', ?_, ?_, hst1, hst2⟩
    · show (s.sum1 + half16 s.half).toNat ≤ _
      omega
    · show (s.sum2 + (s.sum1 + half16 s.half)).toNat ≤ _
      omega

theorem Tracks.of_sums {s t : Fletcher} {ws : List Nat} (h : s.Tracks ws) (hlen : t.len = s.len)
    (hsum1 : t.sum1 = s.sum1) (hsum2 : t.sum2 = s.sum2) : t.Tracks ws := by
  unfold Tracks
  rw [hlen, hsum1, hsum2]
  exact h

/-! ## Pieces -/

/-- Between the calls of `put`, when the halves `ws` have been added and `half[1]` is `b`. -/
structure Between (s : Fletcher) (ws : List Nat) (b : UInt8) : Prop where
  tracks : s.Tracks ws
  size : s.size = 0
  half : s.half.2 = b

theorem between_new (half : UInt8 × UInt8) : (new half).Between [] half.2 :=
  ⟨tracks_new half, rfl, rfl⟩

theorem Between.store {s : Fletcher} {ws : List Nat} {b : UInt8} (h : s.Between ws b) (a : UInt8) :
    s.store a = { s with half := (a, b), size := 1 } := by
  unfold Fletcher.store
  rw [if_pos h.size, h.half, h.size]

theorem addHalf_spec {s : Fletcher} {ws : List Nat} (h : s.Tracks ws) :
    s.addHalf.Between (ws ++ [word s.half.1 s.half.2]) s.half.2 := by
  refine ⟨?_, ?_, ?_⟩
  · exact Tracks.add (s := { s with size := 0 }) (h.of_sums rfl rfl rfl)
  · exact add_size _
  · exact congrArg Prod.snd (add_half _)

/-- A call of `put` adds the halves of its piece. -/
theorem put_spec (b : UInt8) (block : List UInt8) : ∀ {s : Fletcher} {ws : List Nat}, s.Between ws b →
    (s.put block).Between (ws ++ (pieceHalves b block).1) (pieceHalves b block).2 := by
  induction b, block using pieceHalves.induct with
  | case1 b =>
    intro s ws h
    rw [put, if_pos h.size, pieceHalves, append_nil]
    exact h
  | case2 b a =>
    intro s ws h
    rw [put, h.store, if_pos Nat.one_lt_two, put, if_neg Nat.one_ne_zero, pieceHalves]
    exact addHalf_spec (s := { s with half := (a, b), size := 1 }) (h.tracks.of_sums rfl rfl rfl)
  | case3 b a b' block ih =>
    intro s ws h
    have hstore : ({ s with half := (a, b), size := 1 } : Fletcher).store b' =
        { s with half := (a, b'), size := 2 } := rfl
    rw [put, h.store, if_pos Nat.one_lt_two, put, hstore, if_neg (Nat.lt_irrefl 2), pieceHalves]
    have hadd := addHalf_spec (s := { s with half := (a, b'), size := 2 })
      (h.tracks.of_sums rfl rfl rfl)
    have hrest := ih hadd
    rw [append_assoc] at hrest
    exact hrest

theorem puts_spec (blocks : List (List UInt8)) : ∀ {s : Fletcher} {ws : List Nat} {b : UInt8},
    s.Between ws b → ∃ b', (s.puts blocks).Between (ws ++ halves b blocks) b' := by
  induction blocks with
  | nil =>
    intro s ws b h
    rw [halves, append_nil]
    exact ⟨b, h⟩
  | cons block blocks ih =>
    intro s ws b h
    rw [halves, ← append_assoc]
    exact ih (put_spec b block h)

/-! ## The checksum -/

/-- The fold that `sum` makes leaves no carry. -/
def NoCarry (s : Fletcher) : Prop := (fold s.sum1).toNat < 2 ^ 16 ∧ (fold s.sum2).toNat < 2 ^ 16

instance (s : Fletcher) : Decidable s.NoCarry := inferInstanceAs (Decidable (_ ∧ _))

theorem sum_eq {s : Fletcher} (h : s.size = 0) :
    s.sum = (fold s.sum2 <<< 16 ||| fold s.sum1, s.shuffle) := by
  unfold sum
  rw [if_neg (by rw [h]; exact Nat.zero_ne_one)]
  rfl

/-- The low half of two folded sums put together. -/
theorem packed_mod (a b : UInt32) : (a <<< 16 ||| b).toNat % 2 ^ 16 = b.toNat % 2 ^ 16 := by
  rw [UInt32.toNat_or, UInt32.toNat_shiftLeft, show (16 : UInt32).toNat % 32 = 16 from rfl,
    shiftLeft_eq, or_mod_two_pow, mod_mod_of_dvd _ (by decide : 2 ^ 16 ∣ 2 ^ 32),
    mul_mod_left, zero_or]

/-- The packed sums, when the low one has no carry. -/
theorem packed_toNat {a b : UInt32} (hb : b.toNat < 2 ^ 16) :
    (a <<< 16 ||| b).toNat = a.toNat % 2 ^ 16 * 2 ^ 16 + b.toNat := by
  have hshift : a.toNat * 2 ^ 16 % 2 ^ 32 = a.toNat % 2 ^ 16 * 2 ^ 16 := by omega
  rw [UInt32.toNat_or, UInt32.toNat_shiftLeft, show (16 : UInt32).toNat % 32 = 16 from rfl,
    shiftLeft_eq, hshift, ← shiftLeft_eq, ← shiftLeft_add_eq_or_of_lt hb]

/-- A fold changes nothing exactly if there is no carry, and it then changes the low half. -/
theorem fold_fold_toNat {sum : UInt32} (hle : sum.toNat ≤ 32762 * 65535) :
    ((fold sum).toNat < 2 ^ 16 → fold (fold sum) = fold sum) ∧
      (¬ (fold sum).toNat < 2 ^ 16 →
        (fold (fold sum)).toNat % 2 ^ 16 ≠ (fold sum).toNat % 2 ^ 16) := by
  have hfold := fold_toNat sum
  have hfold' := fold_toNat (fold sum)
  constructor
  · intro hlt
    refine UInt32.toNat_inj.mp ?_
    omega
  · intro hge
    omega

/-- A second call of `sum` gives the value again exactly if the first one has left no carry. -/
theorem sum_again_iff {s : Fletcher} {ws : List Nat} {b : UInt8} (h : s.Between ws b) :
    s.sum.2.sum.1 = s.sum.1 ↔ s.NoCarry := by
  obtain ⟨k, hk, -, hle1, hle2, -, -⟩ := h.tracks
  have hbound1 : s.sum1.toNat ≤ 32762 * 65535 := hle1.trans (Nat.mul_le_mul_right 65535 (by omega))
  have hbound2 : s.sum2.toNat ≤ 32762 * 65535 := hle2.trans (Nat.mul_le_mul_right 65535 (by omega))
  obtain ⟨hsame1, hdiff1⟩ := fold_fold_toNat hbound1
  obtain ⟨hsame2, hdiff2⟩ := fold_fold_toNat hbound2
  rw [sum_eq h.size, sum_eq (s := s.shuffle) h.size]
  show fold (fold s.sum2) <<< 16 ||| fold (fold s.sum1) = fold s.sum2 <<< 16 ||| fold s.sum1 ↔ _
  constructor
  · intro heq
    have hlow := congrArg (fun v : UInt32 => v.toNat % 2 ^ 16) heq
    simp only [packed_mod] at hlow
    have hlt1 : (fold s.sum1).toNat < 2 ^ 16 := by
      by_contra hge
      exact hdiff1 hge hlow
    have hhigh := congrArg UInt32.toNat heq
    rw [hsame1 hlt1, packed_toNat hlt1, packed_toNat hlt1] at hhigh
    refine ⟨hlt1, ?_⟩
    by_contra hge
    exact hdiff2 hge (by omega)
  · rintro ⟨hlt1, hlt2⟩
    rw [hsame1 hlt1, hsame2 hlt2]

theorem sum_toNat {s : Fletcher} {ws : List Nat} {b : UInt8} (h : s.Between ws b) (hcarry : s.NoCarry) :
    s.sum.1.toNat = ofWords ws := by
  obtain ⟨k, -, -, -, -, hs1, hs2⟩ := h.tracks
  rw [sum_eq h.size, packed_toNat hcarry.1, mod_eq_of_lt hcarry.2, hs1.fold.reduce_eq hcarry.1,
    hs2.fold.reduce_eq hcarry.2]
  rfl

/-- After the pieces of a message, `sum` returns the checksum of the message, and again in a second call. -/
def Sums (half : UInt8 × UInt8) (blocks : List (List UInt8)) : Prop :=
  let s := (new half).puts blocks
  s.sum.1.toNat = checksum blocks.flatten ∧ s.sum.2.sum.1 = s.sum.1

instance (half : UInt8 × UInt8) (blocks : List (List UInt8)) : Decidable (Sums half blocks) :=
  inferInstanceAs (Decidable (_ ∧ _))

/-! ## Pieces that begin at an even place -/

/-- Every piece that is not empty begins at an even place of the message. -/
def Aligned : List (List UInt8) → Prop
  | [] => True
  | block :: blocks => if block.length % 2 = 1 then blocks.flatten = [] else Aligned blocks

instance decidableAligned : DecidablePred Aligned
  | [] => inferInstanceAs (Decidable True)
  | block :: blocks =>
    have := decidableAligned blocks
    inferInstanceAs (Decidable (if block.length % 2 = 1 then blocks.flatten = [] else Aligned blocks))

/-- What `half[1]` has when the last byte of a message of odd length is added: the byte before it, or the
byte `b` of the constructor. -/
def stale (b : UInt8) (message : List UInt8) : UInt8 := message.dropLast.getLastD b

theorem halves_of_flatten {blocks : List (List UInt8)} (h : blocks.flatten = []) (b : UInt8) :
    halves b blocks = [] := by
  induction blocks with
  | nil => rfl
  | cons block blocks ih =>
    rw [flatten_cons, append_eq_nil_iff] at h
    rw [halves, h.1, pieceHalves, nil_append]
    exact ih h.2

theorem pieceHalves_append (b : UInt8) (block rest : List UInt8) (h : block.length % 2 = 0) :
    (pieceHalves b (block ++ rest)).1 =
      (pieceHalves b block).1 ++ (pieceHalves (pieceHalves b block).2 rest).1 := by
  induction b, block using pieceHalves.induct with
  | case1 b => rfl
  | case2 b a => exact absurd h Nat.one_ne_zero
  | case3 b a b' block ih =>
    rw [length_cons, length_cons] at h
    rw [cons_append, cons_append, pieceHalves, pieceHalves, ih (by omega)]
    rfl

/-- The halves of such pieces are those of the message put in one call. -/
theorem halves_of_aligned {blocks : List (List UInt8)} (h : Aligned blocks) (b : UInt8) :
    halves b blocks = (pieceHalves b blocks.flatten).1 := by
  induction blocks generalizing b with
  | nil => rfl
  | cons block blocks ih =>
    rw [Aligned] at h
    rw [halves, flatten_cons]
    split at h
    · rw [halves_of_flatten h, h, append_nil, append_nil]
    · rw [ih h, pieceHalves_append b block _ (by omega)]

theorem pieceHalves_even (b : UInt8) (message : List UInt8) (h : message.length % 2 = 0) :
    (pieceHalves b message).1 = words message := by
  induction b, message using pieceHalves.induct with
  | case1 b => rfl
  | case2 b a => exact absurd h Nat.one_ne_zero
  | case3 b a b' message ih =>
    rw [length_cons, length_cons] at h
    rw [pieceHalves, words, ih (by omega)]

theorem pieceHalves_odd (b : UInt8) (message : List UInt8) (h : message.length % 2 = 1) :
    ∃ ws a, (pieceHalves b message).1 = ws ++ [word a (stale b message)] ∧
      words message = ws ++ [word a 0] := by
  induction b, message using pieceHalves.induct with
  | case1 b => exact absurd h (by decide)
  | case2 b a => exact ⟨[], a, rfl, rfl⟩
  | case3 b a b' message ih =>
    rw [length_cons, length_cons] at h
    obtain ⟨ws, c, hhalves, hwords⟩ := ih (by omega)
    have hne : message ≠ [] := by
      rintro rfl
      exact absurd h (by decide)
    have hstale : stale b (a :: b' :: message) = stale b' message := by
      unfold stale
      rw [dropLast_cons_of_ne_nil (cons_ne_nil _ _), dropLast_cons_of_ne_nil hne,
        getLastD_cons, getLastD_cons]
    refine ⟨word a b' :: ws, c, ?_, ?_⟩
    · rw [pieceHalves, hhalves, hstale]
      rfl
    · rw [words, hwords]
      rfl

/-! ## Sums that are equal -/

theorem sums_fst (ws : List Nat) : (sums ws).1 = ws.sum := by
  induction ws using List.reverseRecOn with
  | nil => rfl
  | append_singleton ws w ih => rw [sums_append, List.sum_append, sum_singleton, ih]

theorem sum_modEq_of_ofWords {ws ws' : List Nat} (h : ofWords ws = ofWords ws') :
    ws.sum ≡ ws'.sum [MOD 65535] := by
  unfold ofWords at h
  rw [sums_fst, sums_fst] at h
  unfold reduce at h
  unfold Nat.ModEq
  split_ifs at h <;> omega

/-- The checksum of a last half says its second byte. -/
theorem ofWords_last_iff (ws : List Nat) (a b : UInt8) :
    ofWords (ws ++ [word a b]) = ofWords (ws ++ [word a 0]) ↔ b = 0 := by
  constructor
  · intro h
    have hlt := b.toNat_lt
    have hmod := sum_modEq_of_ofWords h
    unfold Nat.ModEq at hmod
    unfold word at hmod
    rw [List.sum_append, List.sum_append, sum_singleton, sum_singleton, UInt8.toNat_zero] at hmod
    exact UInt8.toNat_inj.mp (by rw [UInt8.toNat_zero]; omega)
  · rintro rfl
    rfl

theorem sums_iff_halves (half : UInt8 × UInt8) (blocks : List (List UInt8)) :
    Sums half blocks ↔
      ((new half).puts blocks).NoCarry ∧ ofWords (halves half.2 blocks) = checksum blocks.flatten := by
  obtain ⟨b, hputs⟩ := puts_spec blocks (between_new half)
  rw [nil_append] at hputs
  unfold Sums
  simp only
  rw [sum_again_iff hputs]
  constructor
  · rintro ⟨hsum, hcarry⟩
    exact ⟨hcarry, by rw [← sum_toNat hputs hcarry, hsum]⟩
  · rintro ⟨hcarry, hhalves⟩
    exact ⟨by rw [sum_toNat hputs hcarry, hhalves], hcarry⟩

theorem sums_iff_of_aligned (half : UInt8 × UInt8) {blocks : List (List UInt8)} (h : Aligned blocks) :
    Sums half blocks ↔ ((new half).puts blocks).NoCarry ∧
      (blocks.flatten.length % 2 = 1 → stale half.2 blocks.flatten = 0) := by
  rw [sums_iff_halves, halves_of_aligned h, checksum]
  refine and_congr_right fun _ => ?_
  rcases mod_two_eq_zero_or_one blocks.flatten.length with heven | hodd
  · rw [pieceHalves_even _ _ heven]
    exact iff_of_true rfl fun hodd => absurd (heven.symm.trans hodd) Nat.zero_ne_one
  · obtain ⟨ws, a, hhalves, hwords⟩ := pieceHalves_odd half.2 _ hodd
    rw [hhalves, hwords, ofWords_last_iff]
    exact ⟨fun hzero _ => hzero, fun hzero => hzero hodd⟩

/-! ## A piece that begins at an odd place

Its first byte is added as the first one of a half, and it is the second one of a half of the message. -/

theorem exists_first_piece {blocks : List (List UInt8)} (h : blocks.flatten ≠ []) :
    ∃ pre x rest post, blocks = pre ++ (x :: rest) :: post ∧ pre.flatten = [] := by
  induction blocks with
  | nil => exact absurd rfl h
  | cons block blocks ih =>
    cases block with
    | nil =>
      obtain ⟨pre, x, rest, post, rfl, hnil⟩ := ih h
      exact ⟨[] :: pre, x, rest, post, rfl, hnil⟩
    | cons x rest => exact ⟨[], x, rest, blocks, rfl, rfl⟩

theorem exists_odd_piece {blocks : List (List UInt8)} (h : ¬ Aligned blocks) :
    ∃ pre x rest post, blocks = pre ++ (x :: rest) :: post ∧ pre.flatten.length % 2 = 1 := by
  induction blocks with
  | nil => exact absurd trivial h
  | cons block blocks ih =>
    rw [Aligned] at h
    split at h
    · next hodd =>
      obtain ⟨pre, x, rest, post, rfl, hnil⟩ := exists_first_piece h
      refine ⟨block :: pre, x, rest, post, rfl, ?_⟩
      rw [flatten_cons, hnil, append_nil]
      exact hodd
    · next heven =>
      obtain ⟨pre, x, rest, post, rfl, hodd⟩ := ih h
      refine ⟨block :: pre, x, rest, post, rfl, ?_⟩
      rw [flatten_cons, length_append]
      omega

theorem words_odd (message tail : List UInt8) (h : message.length % 2 = 1) :
    ∃ l a r, ∀ x, words (message ++ x :: tail) = l ++ word a x :: r := by
  induction message using words.induct with
  | case1 => exact absurd h (by decide)
  | case2 a => exact ⟨[], a, words tail, fun x => rfl⟩
  | case3 a b message ih =>
    rw [length_cons, length_cons] at h
    obtain ⟨l, c, r, hwords⟩ := ih (by omega)
    refine ⟨word a b :: l, c, r, fun x => ?_⟩
    rw [cons_append, cons_append, words, hwords, cons_append]

theorem pieceHalves_cons (b : UInt8) (rest : List UInt8) :
    ∃ c r b', ∀ x, pieceHalves b (x :: rest) = (word x c :: r, b') := by
  cases rest with
  | nil => exact ⟨b, [], b, fun x => rfl⟩
  | cons c rest => exact ⟨c, _, _, fun x => rfl⟩

theorem halves_cons (pre : List (List UInt8)) (rest : List UInt8) (post : List (List UInt8)) :
    ∀ b, ∃ l c r, ∀ x, halves b (pre ++ (x :: rest) :: post) = l ++ word x c :: r := by
  induction pre with
  | nil =>
    intro b
    obtain ⟨c, r, b', hpiece⟩ := pieceHalves_cons b rest
    refine ⟨[], c, r ++ halves b' post, fun x => ?_⟩
    rw [nil_append, halves, hpiece]
    rfl
  | cons block pre ih =>
    intro b
    obtain ⟨l, c, r, hhalves⟩ := ih (pieceHalves b block).2
    refine ⟨(pieceHalves b block).1 ++ l, c, r, fun x => ?_⟩
    rw [cons_append, halves, hhalves, append_assoc]

/-- One value at most of a byte that begins a piece at an odd place gives the right checksum. -/
theorem eq_of_sums {half : UInt8 × UInt8} {pre post : List (List UInt8)} {x y : UInt8} {rest : List UInt8}
    (hodd : pre.flatten.length % 2 = 1) (hx : Sums half (pre ++ (x :: rest) :: post))
    (hy : Sums half (pre ++ (y :: rest) :: post)) : y = x := by
  obtain ⟨l, a, r, hwords⟩ := words_odd pre.flatten (rest ++ post.flatten) hodd
  obtain ⟨l', c, r', hhalves⟩ := halves_cons pre rest post half.2
  have hsum : ∀ z, Sums half (pre ++ (z :: rest) :: post) →
      l'.sum + (word z c + r'.sum) ≡ l.sum + (word a z + r.sum) [MOD 65535] := by
    intro z hz
    have heq := ((sums_iff_halves half _).mp hz).2
    rw [hhalves, checksum, flatten_append, flatten_cons, cons_append, hwords] at heq
    have hmod := sum_modEq_of_ofWords heq
    rw [List.sum_append, List.sum_append, sum_cons, sum_cons] at hmod
    exact hmod
  have hx' := hsum x hx
  have hy' := hsum y hy
  have hltx := x.toNat_lt
  have hlty := y.toNat_lt
  unfold Nat.ModEq word at hx' hy'
  exact UInt8.toNat_inj.mp (by omega)

/-- When the pieces begin at even places, the checksum is right exactly if the only fold of `sum` leaves no
carry and `half[1]` has a zero when a last byte is alone.  When a piece begins at an odd place, it is right
for one value at most of the first byte of this piece. -/
theorem sums_iff (half : UInt8 × UInt8) (blocks : List (List UInt8)) :
    (Aligned blocks → (Sums half blocks ↔ ((new half).puts blocks).NoCarry ∧
      (blocks.flatten.length % 2 = 1 → stale half.2 blocks.flatten = 0))) ∧
    (¬ Aligned blocks → ∃ pre x rest post, blocks = pre ++ (x :: rest) :: post ∧
      pre.flatten.length % 2 = 1 ∧
      ∀ y z, Sums half (pre ++ (y :: rest) :: post) → Sums half (pre ++ (z :: rest) :: post) → z = y) := by
  constructor
  · exact sums_iff_of_aligned half
  · intro h
    obtain ⟨pre, x, rest, post, hblocks, hodd⟩ := exists_odd_piece h
    exact ⟨pre, x, rest, post, hblocks, hodd, fun _ _ hy hz => eq_of_sums hodd hy hz⟩

/-- Pieces of even length and a last one of one byte, after a zero. -/
theorem sums_iff_aligned : Sums (0, 7) [[1, 2], [], [3, 0], [5]] :=
  ((sums_iff (0, 7) [[1, 2], [], [3, 0], [5]]).1 (by decide)).mpr (by decide)

/-- The last byte of a message of three bytes is added with the second one. -/
theorem not_sums : ¬ ∀ half blocks, Sums half blocks :=
  fun h => absurd (h (0, 0) [[1, 2, 3]]) (by decide)

end Fletcher

end Elm.Checksum
