import Elm.Data.VectorQueue
import Elm.Data.VectorRun

/-!
# Runs of `VectorQueue`

The elements of the queue are the slots from the head on, modulo the size of the buffer.  One slot stays free, so
that the two ends are apart when the queue is not empty.
-/

namespace Elm.Data.VectorQueue

open List Option Nat

variable {T : Type} {q : VectorQueue T} {xs : List T}

/-! ## The content of the buffer -/

theorem copySlots_spec {target source : List (Option T)} {off i size : Nat} (htarget : off + size ≤ target.length)
    (hsource : i + size ≤ source.length) :
    ∃ t, copySlots target source off i size = some t ∧ t.length = target.length ∧
      (∀ k < size, t[off + k]? = source[i + k]?) ∧ ∀ j < off, t[j]? = target[j]? := by
  refine Loop.exists_foldlM_range
    (fun n (t : List (Option T)) => t.length = target.length ∧ (∀ k < n, t[off + k]? = source[i + k]?) ∧
      ∀ j < off, t[j]? = target[j]?) ⟨rfl, by omega, fun _ _ => rfl⟩ ?_
  rintro n t hn ⟨hlen, hcopied, hbefore⟩
  have hget : source[i + n]? = some source[i + n] := getElem?_eq_getElem (by omega)
  refine ⟨t.set (off + n) source[i + n], ?_, by rw [length_set, hlen], fun k hk => ?_, fun j hj => ?_⟩
  · rw [hget]
    exact array.assign_eq (by omega) _
  · by_cases hkn : k = n
    · rw [hkn, hget, getElem?_set_self (by omega)]
    · rw [getElem?_set_ne (by omega)]
      exact hcopied k (by omega)
  · rw [getElem?_set_ne (by omega)]
    exact hbefore j hj

/-- The queue has the elements of the list. -/
structure Holds (q : VectorQueue T) (xs : List T) : Prop where
  pow : ∃ k, q.cap = 2 ^ k
  length : q.buffer.length = q.cap
  hd_lt : q.hd < q.cap
  free : xs.length < q.cap
  tl_eq : q.tl = (q.hd + xs.length) % q.cap
  content : ∀ k < xs.length, q.buffer[(q.hd + k) % q.cap]? = some xs[k]?

theorem Holds.after_eq (h : q.Holds xs) (i : Nat) : q.after i = (i + 1) % q.cap := by
  obtain ⟨k, hk⟩ := h.pow
  unfold after
  rw [hk, and_two_pow_sub_one_eq_mod]

/-- The place of an element, without the modulo. -/
theorem mod_cases {i n cap : Nat} (hi : i < cap) (hn : n < cap) :
    i + n < cap ∧ (i + n) % cap = i + n ∨ cap ≤ i + n ∧ (i + n) % cap = i + n - cap := by
  by_cases hlt : i + n < cap
  · exact Or.inl ⟨hlt, mod_eq_of_lt hlt⟩
  · right
    rw [mod_eq_sub_mod (by omega), mod_eq_of_lt (by omega)]
    omega

/-- The two ends are at the same slot if and only if there is no element. -/
theorem Holds.hd_eq_tl_iff (h : q.Holds xs) : q.hd = q.tl ↔ xs = [] := by
  have hlt := h.hd_lt
  rw [h.tl_eq, ← length_eq_zero_iff]
  rcases mod_cases h.hd_lt h.free with ⟨-, heq⟩ | ⟨hout, heq⟩
  · rw [heq]
    omega
  · have hfree := h.free
    rw [heq]
    omega

theorem holds_new {capacity : Nat} (hcapacity : capacity ≤ 30) :
    ∃ q : VectorQueue T, new capacity = some q ∧ q.Holds [] := by
  have hshift : 1 <<< capacity = 2 ^ capacity := by rw [shiftLeft_eq, Nat.one_mul]
  have hle : 2 ^ capacity ≤ 2 ^ 30 := Nat.pow_le_pow_right (by decide) hcapacity
  have hpos : 0 < 2 ^ capacity := Nat.two_pow_pos capacity
  refine ⟨⟨0, 0, 2 ^ capacity, Vector.newVec (2 ^ capacity)⟩, ?_, ?_⟩
  · unfold new
    rw [hshift, Vector.int_eq (by omega)]
    rfl
  · refine ⟨⟨capacity, rfl⟩, Vector.length_newVec _, hpos, hpos, ?_, by simp⟩
    exact (zero_mod _).symm

/-! ## `put` -/

/-- The free slot is the one of `tl`. -/
theorem Holds.set_tl (h : q.Holds xs) (hroom : xs.length + 1 < q.cap) (x : T) :
    ({ q with tl := q.after q.tl, buffer := q.buffer.set q.tl (some x) } : VectorQueue T).Holds (xs ++ [x]) where
  pow := h.pow
  length := by
    rw [length_set]
    exact h.length
  hd_lt := h.hd_lt
  free := by
    rw [length_append, length_singleton]
    exact hroom
  tl_eq := by
    rw [h.after_eq, h.tl_eq, mod_add_mod, length_append, length_singleton, Nat.add_assoc]
  content k hk := by
    rw [length_append, length_singleton] at hk
    have htl : q.tl < q.buffer.length := by
      rw [h.tl_eq, h.length]
      exact mod_lt _ (by omega)
    show (q.buffer.set q.tl (some x))[(q.hd + k) % q.cap]? = some (xs ++ [x])[k]?
    by_cases hlast : k = xs.length
    · rw [hlast, ← h.tl_eq, getElem?_set_self htl, getElem?_concat_length]
    · -- another slot of the buffer
      have hne : q.tl ≠ (q.hd + k) % q.cap := by
        rw [h.tl_eq]
        have hhd := h.hd_lt
        rcases mod_cases h.hd_lt h.free with ⟨_, heq⟩ | ⟨_, heq⟩ <;>
          rcases mod_cases h.hd_lt (show k < q.cap by omega) with ⟨_, heq'⟩ | ⟨_, heq'⟩ <;> omega
      rw [getElem?_set_ne hne, getElem?_append_left (by omega)]
      exact h.content k (by omega)

/-- A larger buffer, where the elements are from the first slot on. -/
theorem enlarge_spec (h : q.Holds xs) (hfull : xs.length + 1 = q.cap) (hlt : q.cap < 2 ^ 30) :
    ∃ q', q.enlarge = some q' ∧ q'.Holds xs ∧ q'.cap = q.cap * 2 ∧ q'.hd = 0 := by
  have hint : int (q.cap * 2) = some (q.cap * 2) := Vector.int_eq (by omega)
  have hlen := h.length
  have hhd := h.hd_lt
  have hnew : (Vector.newVec (q.cap * 2) : List (Option T)).length = q.cap * 2 := Vector.length_newVec _
  obtain ⟨e, he⟩ := h.pow
  have hpow : ∃ k, q.cap * 2 = 2 ^ k := ⟨e + 1, by rw [he, Nat.pow_succ]⟩
  unfold enlarge
  rcases mod_cases h.hd_lt h.free with ⟨hin, heq⟩ | ⟨hout, heq⟩
  · -- the elements are in one piece, which starts at the first slot
    have htl : q.tl = q.hd + xs.length := h.tl_eq.trans heq
    have hzero : q.hd = 0 := by omega
    obtain ⟨t, hcopy, hlent, hcopied, -⟩ := @copySlots_spec T (Vector.newVec (q.cap * 2)) q.buffer 0 q.hd
      (q.tl - q.hd) (by omega) (by omega)
    refine ⟨⟨q.hd, q.tl - q.hd, q.cap * 2, t⟩, ?_, ⟨hpow, ?_, ?_, ?_, ?_, ?_⟩, rfl, hzero⟩
    · simp only [hint, bind_eq_bind, bind_some]
      rw [if_neg (by omega), hcopy]
      rfl
    · exact hlent.trans hnew
    · show q.hd < q.cap * 2
      omega
    · show xs.length < q.cap * 2
      omega
    · show q.tl - q.hd = (q.hd + xs.length) % (q.cap * 2)
      rw [mod_eq_of_lt (by omega)]
      omega
    · intro k hk
      have hget := h.content k hk
      have hslot := hcopied k (by omega)
      show t[(q.hd + k) % (q.cap * 2)]? = some xs[k]?
      rw [mod_eq_of_lt (by omega)] at hget ⊢
      rw [Nat.zero_add] at hslot
      rw [← hget, ← hslot, hzero, Nat.zero_add]
  · have htl : q.tl = q.hd + xs.length - q.cap := h.tl_eq.trans heq
    obtain ⟨t, hcopy, hlent, hcopied, -⟩ := @copySlots_spec T (Vector.newVec (q.cap * 2)) q.buffer 0 q.hd
      (q.cap - q.hd) (by omega) (by omega)
    obtain ⟨t', hcopy', hlent', hcopied', hbefore⟩ := @copySlots_spec T t q.buffer (q.cap - q.hd) 0 q.tl
      (by omega) (by omega)
    refine ⟨⟨0, q.cap - q.hd + q.tl, q.cap * 2, t'⟩, ?_, ⟨hpow, ?_, ?_, ?_, ?_, ?_⟩, rfl, rfl⟩
    · simp only [hint, bind_eq_bind, bind_some]
      rw [if_pos (by omega), hcopy, bind_some, hcopy']
      rfl
    · exact hlent'.trans (hlent.trans hnew)
    · show 0 < q.cap * 2
      omega
    · show xs.length < q.cap * 2
      omega
    · show q.cap - q.hd + q.tl = (0 + xs.length) % (q.cap * 2)
      rw [mod_eq_of_lt (by omega)]
      omega
    · intro k hk
      show t'[(0 + k) % (q.cap * 2)]? = some xs[k]?
      rw [Nat.zero_add, mod_eq_of_lt (by omega), ← h.content k hk]
      by_cases hfirst : k < q.cap - q.hd
      · have hslot := hcopied k hfirst
        rw [Nat.zero_add] at hslot
        rw [hbefore k hfirst, hslot, mod_eq_of_lt (by omega)]
      · -- the second piece
        have hslot := hcopied' (k - (q.cap - q.hd)) (by omega)
        have hk' : q.cap - q.hd + (k - (q.cap - q.hd)) = k := by omega
        rw [hk', Nat.zero_add] at hslot
        have hmod : (q.hd + k) % q.cap = k - (q.cap - q.hd) := by
          rw [mod_eq_sub_mod (by omega), mod_eq_of_lt (by omega)]
          omega
        rw [hslot, hmod]

theorem put_spec (h : q.Holds xs) (hlt : xs.length + 1 < 2 ^ 30) (x : T) :
    ∃ q', q.put x = some q' ∧ q'.Holds (xs ++ [x]) := by
  have hlen := h.length
  have hhd := h.hd_lt
  have hfree := h.free
  have htl : q.tl < q.buffer.length := by
    rw [h.tl_eq, hlen]
    exact mod_lt _ (by omega)
  have hafter : q.after q.tl = (q.hd + (xs.length + 1)) % q.cap := by
    rw [h.after_eq, h.tl_eq, mod_add_mod, Nat.add_assoc]
  unfold put
  by_cases hfull : xs.length + 1 = q.cap
  · obtain ⟨q', henlarge, h', hcap, hzero⟩ := enlarge_spec h hfull (by omega)
    have hnext : q.after q.tl = q.hd := by
      rw [hafter, hfull, add_mod_right, mod_eq_of_lt hhd]
    have htl' : q'.tl = xs.length := by
      rw [h'.tl_eq, hzero, Nat.zero_add, mod_eq_of_lt h'.free]
    have hlen' := h'.length
    have hafter' : q'.after q'.tl = q'.tl + 1 := by
      rw [h'.after_eq, mod_eq_of_lt (by omega)]
    have hset := h'.set_tl (by omega) x
    rw [hafter'] at hset
    refine ⟨_, ?_, hset⟩
    simp only [hnext, if_true, henlarge, bind_eq_bind, bind_some,
      array.assign_eq (show q'.tl < q'.buffer.length by omega)]
    rfl
  · have hne : ¬ q.after q.tl = q.hd := by
      rw [hafter]
      rcases mod_cases h.hd_lt (show xs.length + 1 < q.cap by omega) with ⟨_, heq⟩ | ⟨_, heq⟩ <;> omega
    refine ⟨_, ?_, h.set_tl (by omega) x⟩
    simp only [hne, if_false, array.assign_eq htl, bind_eq_bind, bind_some]
    rfl

/-! ## `get` and `reset` -/

theorem get_spec {x : T} (h : q.Holds (x :: xs)) :
    ∃ q', q.get = some (x, q') ∧ q'.Holds xs := by
  have hhd := h.hd_lt
  have hfree := h.free
  rw [length_cons] at hfree
  have hne : q.hd ≠ q.tl := fun heq => cons_ne_nil x xs (h.hd_eq_tl_iff.mp heq)
  have hfirst := h.content 0 (by simp)
  rw [Nat.add_zero, mod_eq_of_lt hhd] at hfirst
  refine ⟨{ q with hd := q.after q.hd }, ?_, ⟨h.pow, h.length, ?_, ?_, ?_, fun k hk => ?_⟩⟩
  · unfold get
    rw [if_pos hne, hfirst]
    rfl
  · show q.after q.hd < q.cap
    rw [h.after_eq]
    exact mod_lt _ (by omega)
  · show xs.length < q.cap
    omega
  · show q.tl = (q.after q.hd + xs.length) % q.cap
    rw [h.after_eq, h.tl_eq, mod_add_mod, length_cons]
    congr 1
    omega
  · have hnext := h.content (k + 1) (by rw [length_cons]; omega)
    show q.buffer[(q.after q.hd + k) % q.cap]? = some xs[k]?
    rw [getElem?_cons_succ] at hnext
    rw [h.after_eq, mod_add_mod, ← hnext]
    congr 2
    omega

theorem reset_holds (h : q.Holds xs) : q.reset.Holds [] := by
  have hpos : 0 < q.cap := by
    have hhd := h.hd_lt
    omega
  exact ⟨h.pow, h.length, hpos, hpos, (zero_mod _).symm, by simp⟩

/-! ## The observers -/

theorem isEmpty_eq (h : q.Holds xs) : q.isEmpty = xs.isEmpty := by
  rw [Bool.eq_iff_iff, List.isEmpty_iff, ← h.hd_eq_tl_iff]
  exact decide_eq_true_iff

theorem head_eq (h : q.Holds xs) : q.head = xs.head? := by
  unfold head
  cases xs with
  | nil =>
    have heq := h.hd_eq_tl_iff.mpr rfl
    rw [if_neg (by simp [heq])]
    rfl
  | cons x xs =>
    have hne : q.hd ≠ q.tl := fun heq => cons_ne_nil x xs (h.hd_eq_tl_iff.mp heq)
    have hfirst := h.content 0 (by simp)
    rw [Nat.add_zero, mod_eq_of_lt h.hd_lt] at hfirst
    rw [if_pos hne, hfirst]
    rfl

/-- `size` takes two ends at one slot for a full buffer. -/
theorem size_eq_iff (h : q.Holds xs) : q.size = xs.length ↔ xs ≠ [] := by
  have hhd := h.hd_lt
  have hfree := h.free
  have htl := h.tl_eq
  unfold size
  rw [← length_pos_iff]
  rcases mod_cases h.hd_lt h.free with ⟨hin, heq⟩ | ⟨hout, heq⟩
  · split_ifs <;> omega
  · split_ifs <;> omega

theorem contains_eq (isEqual : T → T → Bool) (h : q.Holds xs) (val : T) :
    q.contains isEqual val = some (xs.any fun x => isEqual x val) := by
  have hhd := h.hd_lt
  have hfree := h.free
  have hloop : ∃ r, Loop.run (containsTurn isEqual q val) (q.cap + 1) q.hd = some r ∧
      r = some (xs.any fun x => isEqual x val) := by
    -- the elements before the slot are not equal to the value
    refine @Loop.exists_run_of_list Nat (Option Bool) T (containsTurn isEqual q val)
      (fun rest i => ∃ seen, xs = seen ++ rest ∧ i = (q.hd + seen.length) % q.cap ∧
        (seen.any fun x => isEqual x val) = false)
      (fun r => r = some (xs.any fun x => isEqual x val)) ?_ ?_ (q.cap + 1) xs q.hd
      ⟨[], rfl, (mod_eq_of_lt hhd).symm, rfl⟩ (by omega)
    · rintro x rest i ⟨seen, hsplit, rfl, hseen⟩
      have hlen : xs.length = seen.length + (rest.length + 1) := by
        rw [hsplit, length_append, length_cons]
      have hget := h.content seen.length (by omega)
      have hx : xs[seen.length]? = some x := by
        rw [hsplit, getElem?_append_right (Nat.le_refl _), Nat.sub_self]
        rfl
      have hne : (q.hd + seen.length) % q.cap ≠ q.tl := by
        rw [h.tl_eq]
        rcases mod_cases h.hd_lt h.free with ⟨_, heq⟩ | ⟨_, heq⟩ <;>
          rcases mod_cases h.hd_lt (show seen.length < q.cap by omega) with ⟨_, heq'⟩ | ⟨_, heq'⟩ <;> omega
      unfold containsTurn
      rw [if_pos hne, hget, hx]
      simp only
      split_ifs with hequal
      · refine Or.inr ⟨_, rfl, ?_⟩
        rw [hsplit, any_append, any_cons, hequal, Bool.true_or, Bool.or_true]
      · refine Or.inl ⟨_, rfl, seen ++ [x], ?_, ?_, ?_⟩
        · rw [append_assoc]
          exact hsplit
        · rw [h.after_eq, mod_add_mod, length_append, length_singleton, Nat.add_assoc]
        · rw [any_append, hseen]
          simpa using hequal
    · rintro i ⟨seen, hsplit, rfl, hseen⟩
      rw [append_nil] at hsplit
      have heq : (q.hd + seen.length) % q.cap = q.tl := by rw [h.tl_eq, hsplit]
      unfold containsTurn
      rw [if_neg (by simp [heq]), hsplit, hseen]
      exact ⟨_, rfl, rfl⟩
  obtain ⟨r, hrun, rfl⟩ := hloop
  unfold contains
  rw [hrun]
  rfl

/-! ## Runs -/

/-- The invariant of the runs. -/
def Pair.Good (s : Pair T) : Prop := s.queue.Holds s.list ∧ s.got = s.out

theorem step_good (s : Pair T) (op : Op T) (h : s.Good) (hallowed : Allowed s op) :
    ∃ s', step s op = some s' ∧ s'.Good := by
  obtain ⟨hholds, hgot⟩ := h
  cases op with
  | put value =>
    obtain ⟨q', hput, h'⟩ := put_spec hholds hallowed value
    exact ⟨{ s with queue := q', list := s.list ++ [value] }, by rw [step, hput]; rfl, h', hgot⟩
  | get =>
    obtain ⟨x, xs, hlist⟩ := exists_cons_of_ne_nil hallowed
    rw [hlist] at hholds
    obtain ⟨q', hget, h'⟩ := get_spec hholds
    refine ⟨⟨q', s.got ++ [x], xs, s.out ++ [x]⟩, ?_, h', by rw [hgot]⟩
    simp [step, hget, hlist]
  | reset => exact ⟨_, rfl, reset_holds hholds, hgot⟩

/-- Everything but the size agrees. -/
theorem Pair.Good.agrees_iff (isEqual : T → T → Bool) {s : Pair T} (h : s.Good) :
    s.Agrees isEqual ↔ s.list ≠ [] := by
  obtain ⟨hholds, hgot⟩ := h
  constructor
  · intro hagrees
    exact (size_eq_iff hholds).mp hagrees.size
  · intro hne
    exact ⟨hgot, head_eq hholds, isEmpty_eq hholds, contains_eq isEqual hholds, (size_eq_iff hholds).mpr hne⟩

end Elm.Data.VectorQueue
