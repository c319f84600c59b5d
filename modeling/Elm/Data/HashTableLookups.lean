import Elm.Data.HashTableRun

/-!
# Lookups during a traversal of a `HashTable`

A lookup is a `const` function, yet it moves the node that it finds to the front of its bucket.  A traversal
is followed move by move, the lookups between two advances of the iterator included: it stays on its track
as long as no lookup moves the iterator's node, or a node behind it in the same bucket.  A traversal that
looks up each of its own items, as `containsAll` does when its argument is the table itself, goes round in
the first bucket of two nodes or more.
-/

namespace Elm.Data.HashTable

open Chain List Option Function

/-! ## Moving to the front -/

section Front

variable {α : Type*} {p : α → Bool} {x : α} {xs ys zs : List α}

/-- The first item that passes the test comes first, the others keep their order. -/
def moveToFront (p : α → Bool) (xs : List α) : List α :=
  match xs.find? p with
  | none => xs
  | some x => x :: xs.eraseP p

theorem moveToFront_of_forall (h : ∀ x ∈ xs, p x = false) : moveToFront p xs = xs := by
  have hnone : xs.find? p = none := by
    rw [find?_eq_none]
    intro x hx
    simp [h x hx]
  rw [moveToFront, hnone]

theorem moveToFront_append (hys : ∀ y ∈ ys, p y = false) (hx : p x) :
    moveToFront p (ys ++ x :: zs) = x :: (ys ++ zs) := by
  have hfind : (ys ++ x :: zs).find? p = some x := by
    rw [find?_append, find?_eq_none.mpr fun y hy => by simp [hys y hy]]
    simp [hx]
  have herase : (ys ++ x :: zs).eraseP p = ys ++ zs := by
    rw [eraseP_append_right _ fun y hy => by simp [hys y hy]]
    simp [hx]
  rw [moveToFront, hfind, herase]

theorem perm_moveToFront (p : α → Bool) (xs : List α) : (moveToFront p xs).Perm xs := by
  cases hfind : xs.find? p with
  | none =>
    rw [moveToFront, hfind]
  | some x =>
    obtain ⟨hx, ys, zs, rfl, hys⟩ := find?_eq_some_iff_append.mp hfind
    have hys' : ∀ y ∈ ys, p y = false := fun y hy => by simpa using hys y hy
    rw [moveToFront_append hys' hx]
    exact perm_middle.symm

end Front

variable {A T : Type*} [DecidableEq A] {H : Manager T} {st st' other : HashTable A T}
  {bs bs' : Nat → List (A × T)}

/-- The nodes of bucket `i`. -/
def bucket (st : HashTable A T) (i : Nat) : List (A × T) :=
  (toList st.read st.nodes.keys.length (st.entry i)).getD []

theorem bucket_eq (h : Rep H st bs) {i : Nat} (hi : i < st.size) : st.bucket i = bs i := by
  have hlen := (h.chain i hi).length_le fun _ ha => mem_of_read ha
  rw [bucket, toList_eq_some.mpr ⟨h.chain i hi, hlen⟩, getD_some]

/-- The buckets after a lookup: the nodes that hold the key come first. -/
def frontBuckets (H : Manager T) (key : T) (bs : Nat → List (A × T)) (i : Nat) : List (A × T) :=
  moveToFront (fun x => H.isEqual x.2 key) (bs i)

omit [DecidableEq A] in
theorem perm_frontBuckets (H : Manager T) (key : T) (bs : Nat → List (A × T)) (i : Nat) :
    (frontBuckets H key bs i).Perm (bs i) :=
  perm_moveToFront _ _

theorem Rep.congr (h : Rep H st bs) (heq : ∀ i < st.size, bs' i = bs i) : Rep H st bs' := by
  constructor
  · intro i hi
    rw [heq i hi]
    exact h.chain i hi
  · intro i hi
    rw [heq i hi]
    exact h.placed i hi
  · intro i hi
    rw [heq i hi]
    exact h.distinct i hi
  · intro a ha
    obtain ⟨i, hi, hmem⟩ := h.live a ha
    exact ⟨i, hi, by rwa [heq i hi]⟩

/-- The buckets that the key is not hashed to stay as they are. -/
theorem Rep.frontBuckets_of_ne (h : Rep H st bs) (hH : H.Lawful) {key : T} {i : Nat}
    (hi : i < st.size) (hne : i ≠ st.index H key) : frontBuckets H key bs i = bs i := by
  apply moveToFront_of_forall
  intro x hx
  rw [Bool.eq_false_iff]
  intro hequal
  apply hne
  rw [← h.placed i hi x hx, index_eq_of_isEqual hH st hequal]

/-- `find` moves the node of the key to the front of its bucket. -/
theorem Rep.find_front (h : Rep H st bs) (hH : H.Lawful) (key : T) :
    ∃ found st', st.find H key = some (found, st') ∧ st'.size = st.size ∧
      Rep H st' (frontBuckets H key bs) ∧
      (found.isSome ↔ ∃ x ∈ bs (st.index H key), H.isEqual x.2 key) := by
  have hi := st.index_lt (H := H) key
  have hother : ∀ xs, frontBuckets H key bs (st.index H key) = xs → ∀ i < st.size,
      frontBuckets H key bs i = Function.update bs (st.index H key) xs i := by
    rintro xs rfl i hi'
    by_cases hne : i = st.index H key
    · rw [hne, update_self]
    · rw [update_of_ne hne, h.frontBuckets_of_ne hH hi' hne]
  obtain ⟨i, hindex⟩ : ∃ i, i = st.index H key := ⟨_, rfl⟩
  rw [← hindex] at hi hother ⊢
  rcases scan_spec (fun _ d => H.isEqual d key) (h.chain i hi) with
    ⟨hscan, hnone⟩ | ⟨ys, a, d, zs, next, hxs, hequal, hys, hread, hscan⟩
  · refine ⟨none, st, ?_, rfl, ?_, ?_⟩
    · simp [find, ← hindex, hscan]
    · refine h.congr fun j hj => ?_
      rw [hother (bs i) (moveToFront_of_forall hnone) j hj, update_eq_self]
    · simpa using hnone
  · have hmoved : frontBuckets H key bs i = (a, d) :: (ys ++ zs) := by
      rw [frontBuckets, hxs]
      exact moveToFront_append hys hequal
    have hfound : ∃ x ∈ bs i, H.isEqual x.2 key := ⟨(a, d), by simp [hxs], hequal⟩
    rcases eq_nil_or_append ys with rfl | ⟨ys, ⟨b, e⟩, rfl⟩
    · -- at the head of the bucket
      refine ⟨some a, st, ?_, rfl, ?_, by simp [hfound]⟩
      · simp [find, ← hindex, hscan]
      · refine h.congr fun j hj => ?_
        rw [hother (bs i) (by simpa [hxs] using hmoved) j hj, update_eq_self]
    · -- behind the node `b`
      obtain ⟨st', hlink, hsize, hrep, -⟩ := h.relink hH.symmetric hi hxs hread
      refine ⟨some a, st', ?_, hsize, ?_, by simp [hfound]⟩
      · rw [← hlink]
        simp [find, ← hindex, hscan]
      · refine hrep.congr fun j hj => ?_
        exact hother _ (by simpa using hmoved) j (hsize ▸ hj)

/-- What a lookup does to the table does not depend on the use that is made of its node. -/
theorem get_table (h : Rep H st bs) (hH : H.Lawful) (key : T) :
    (st.get H key).map Prod.snd = (st.find H key).map Prod.snd := by
  obtain ⟨found, st', xs, hfind, hsize, hrep, hperm, -, hfound⟩ := h.find_spec hH.symmetric key
  rcases hfound with ⟨rfl, -⟩ | ⟨a, d, rfl, hmem, -⟩
  · simp [get, hfind, deref]
  · have hmem' : (a, d) ∈ Function.update bs (st.index H key) xs (st'.index H key) := by
      rw [index_congr hsize key, update_self]
      exact hperm.mem_iff.mpr hmem
    obtain ⟨next, hread⟩ := hrep.read_of_mem (st'.index_lt key) hmem'
    simp [get, hfind, deref, read_eq_some.mp hread]

/-! ## The iterator during a lookup -/

variable {it : Iter A} {x : A × T} {ys zs rest : List (A × T)}

/-- The node of the iterator and the nodes behind it in its bucket. -/
def behind (st : HashTable A T) (it : Iter A) : List (A × T) :=
  (st.bucket it.i).dropWhile fun x => some x.1 ≠ it.node

/-- The lookup finds no node behind the iterator's one in its bucket, nor the iterator's node itself unless
it is the first of the bucket. -/
def Harmless (H : Manager T) (st : HashTable A T) (it : Iter A) (key : T) : Prop :=
  (∀ z ∈ (st.behind it).tail, H.isEqual z.2 key = false) ∧
    ((st.behind it).length = (st.bucket it.i).length ∨
      ∀ x ∈ (st.behind it).head?, H.isEqual x.2 key = false)

instance (H : Manager T) (st : HashTable A T) (it : Iter A) (key : T) :
    Decidable (Harmless H st it key) := by
  unfold Harmless
  infer_instance

theorem behind_eq (h : Rep H st bs) (hi : it.i < st.size) (hbucket : bs it.i = ys ++ x :: zs)
    (hnode : it.node = some x.1) : st.behind it = x :: zs := by
  have hnodup : ((ys ++ x :: zs).map Prod.fst).Nodup := hbucket ▸ (h.chain it.i hi).nodup
  have hys : ∀ y ∈ ys, decide (some y.1 ≠ it.node) = true := by
    intro y hy
    rw [decide_eq_true_eq, hnode, Ne, some.injEq]
    intro heq
    rw [map_append, map_cons, nodup_middle, nodup_cons] at hnodup
    exact hnodup.1 (mem_append_left _ (heq ▸ mem_map_of_mem hy))
  rw [behind, bucket_eq h hi, hbucket, dropWhile_append_of_pos hys]
  simp [hnode]

theorem harmless_iff (h : Rep H st bs) (hi : it.i < st.size) (hbucket : bs it.i = ys ++ x :: zs)
    (hnode : it.node = some x.1) (key : T) :
    Harmless H st it key ↔
      (∀ z ∈ zs, H.isEqual z.2 key = false) ∧ (ys = [] ∨ H.isEqual x.2 key = false) := by
  unfold Harmless
  have hlen : (x :: zs).length = (ys ++ x :: zs).length ↔ ys = [] := by
    rw [length_append, ← length_eq_zero_iff]
    omega
  rw [behind_eq h hi hbucket hnode, bucket_eq h hi, hbucket, hlen, tail_cons, head?_cons]
  simp only [mem_def, some.injEq, forall_eq']

theorem bucket_of_ended (hi : st.size ≤ it.i) : st.bucket it.i = [] := by
  have hentry : st.entry it.i = none := by
    have hi' : st.tab.length ≤ it.i := hi
    simp [entry, hi']
  rw [bucket, hentry]
  cases st.nodes.keys.length <;> rfl

theorem harmless_of_ended (hi : st.size ≤ it.i) (key : T) : Harmless H st it key := by
  simp [Harmless, behind, bucket_of_ended hi]

/-- Moving an item to the front leaves those behind `x` alone exactly if it is none of them, nor `x` itself
behind other ones. -/
theorem moveToFront_split {α : Type*} {p : α → Bool} {x : α} {ys zs : List α}
    (hone : (ys ++ x :: zs).Pairwise fun a b => ¬ (p a ∧ p b)) :
    ∃ ys' zs', moveToFront p (ys ++ x :: zs) = ys' ++ x :: zs' ∧
      ((∀ z ∈ zs, p z = false) ∧ (ys = [] ∨ p x = false) → zs' = zs) ∧
      (zs'.length = zs.length → (∀ z ∈ zs, p z = false) ∧ (ys = [] ∨ p x = false)) := by
  obtain ⟨-, hxs, hyx⟩ := pairwise_append.mp hone
  obtain ⟨hxz, -⟩ := pairwise_cons.mp hxs
  by_cases hy : ∃ y ∈ ys, p y
  · -- an item before `x`
    obtain ⟨y, hy, hpy⟩ := hy
    obtain ⟨y', ys₁, ys₂, hys₁, hpy', rfl, -⟩ := exists_of_eraseP hy hpy
    have hbefore : ∀ z ∈ x :: zs, p z = false := by
      intro z hz
      simpa [hpy'] using hyx y' (by simp) z hz
    refine ⟨y' :: (ys₁ ++ ys₂), zs, ?_, fun _ => rfl, fun _ => ?_⟩
    · have hys₁' : ∀ y ∈ ys₁, p y = false := fun y hy => by simpa using hys₁ y hy
      simpa using @moveToFront_append _ p y' ys₁ (ys₂ ++ x :: zs) hys₁' hpy'
    · exact ⟨fun z hz => hbefore z (mem_cons_of_mem x hz), Or.inr (hbefore x mem_cons_self)⟩
  · have hys : ∀ y ∈ ys, p y = false := by simpa using hy
    by_cases hx : p x
    · -- `x` itself
      refine ⟨[], ys ++ zs, moveToFront_append hys hx, ?_, ?_⟩
      · rintro ⟨-, rfl | hx'⟩
        · rfl
        · rw [hx] at hx'
          cases hx'
      · intro hlen
        rw [length_append] at hlen
        have hnil : ys = [] := eq_nil_of_length_eq_zero (by omega)
        exact ⟨fun z hz => by simpa [hx] using hxz z hz, Or.inl hnil⟩
    · have hx' : p x = false := by simpa using hx
      by_cases hz : ∃ z ∈ zs, p z
      · -- an item behind `x`
        obtain ⟨z, hz, hpz⟩ := hz
        obtain ⟨z', zs₁, zs₂, hzs₁, hpz', rfl, -⟩ := exists_of_eraseP hz hpz
        have hbefore : ∀ y ∈ ys ++ x :: zs₁, p y = false := by
          intro y hy
          rcases mem_append.mp hy with hy | hy
          · exact hys y hy
          · rcases mem_cons.mp hy with rfl | hy
            · exact hx'
            · simpa using hzs₁ y hy
        refine ⟨z' :: ys, zs₁ ++ zs₂, ?_, ?_, ?_⟩
        · simpa using @moveToFront_append _ p z' (ys ++ x :: zs₁) zs₂ hbefore hpz'
        · rintro ⟨hzs, -⟩
          rw [hzs z' (by simp)] at hpz'
          cases hpz'
        · intro hlen
          simp at hlen
      · have hzs : ∀ z ∈ zs, p z = false := by simpa using hz
        refine ⟨ys, zs, moveToFront_of_forall ?_, fun _ => rfl, fun _ => ⟨hzs, Or.inr hx'⟩⟩
        intro y hy
        rcases mem_append.mp hy with hy | hy
        · exact hys y hy
        · rcases mem_cons.mp hy with rfl | hy
          · exact hx'
          · exact hzs y hy

theorem IterAt.of_bucket (h : Rep H st bs) (hi : it.i < st.size) (hbucket : bs it.i = ys ++ x :: zs)
    (hnode : it.node = some x.1) :
    IterAt st bs it (x :: zs ++ nodesFrom bs st.size (it.i + 1)) := by
  refine Or.inr ⟨hi, ys, x, zs, hbucket, ?_, rfl⟩
  have hlist := h.chain it.i hi
  rw [hbucket] at hlist
  obtain ⟨q, -, hq⟩ := seg_append.mp hlist
  obtain ⟨a, d⟩ := x
  rw [hnode]
  exact hq.1 ▸ hq

omit [DecidableEq A] in
theorem perm_nodesFrom (h : ∀ i, (bs' i).Perm (bs i)) (size i : Nat) :
    (nodesFrom bs' size i).Perm (nodesFrom bs size i) :=
  Perm.flatMap_left _ fun j _ => h j

/-- A lookup keeps the iterator on its node.  The nodes that it will still meet are the same ones if the
lookup is harmless, and otherwise there are more or fewer of them. -/
theorem IterAt.lookup (hat : IterAt st bs it rest) (h : Rep H st bs) (hH : H.Lawful) {key : T}
    (hsize : st'.size = st.size) (h' : Rep H st' (frontBuckets H key bs)) :
    ∃ rest', IterAt st' (frontBuckets H key bs) it rest' ∧
      (Harmless H st it key → rest'.Perm rest) ∧
      (rest'.length = rest.length → Harmless H st it key) := by
  rcases hat with ⟨hi, rfl⟩ | ⟨hi, ys, x, zs, hbucket, hlist, rfl⟩
  · exact ⟨[], Or.inl ⟨hsize ▸ hi, rfl⟩, fun _ => Perm.refl _, fun _ => harmless_of_ended hi key⟩
  · have hnode : it.node = some x.1 := hlist.1
    have hone : (ys ++ x :: zs).Pairwise fun a b => ¬ (H.isEqual a.2 key ∧ H.isEqual b.2 key) := by
      refine (hbucket ▸ h.distinct it.i hi).imp ?_
      rintro a b hab ⟨ha, hb⟩
      exact Bool.eq_false_iff.mp hab (hH.equivalence.trans ha (hH.equivalence.symm hb))
    obtain ⟨ys', zs', hmoved, hsame, hlen⟩ := moveToFront_split hone
    have hbucket' : frontBuckets H key bs it.i = ys' ++ x :: zs' := by
      rw [frontBuckets, hbucket]
      exact hmoved
    have hlater := perm_nodesFrom (perm_frontBuckets H key bs) st.size (it.i + 1)
    refine ⟨_, IterAt.of_bucket h' (hsize ▸ hi) hbucket' hnode, ?_⟩
    rw [harmless_iff h hi hbucket hnode, hsize]
    constructor
    · intro hharmless
      rw [hsame hharmless]
      exact hlater.append_left _
    · intro hcount
      simp only [cons_append, length_cons, length_append, hlater.length_eq] at hcount
      exact hlen (by omega)

/-! ## Traversals -/

/-- A traversal under way: its iterator, the table and the items that it has visited. -/
structure Traversal (A T : Type*) where
  it : Iter A
  table : HashTable A T
  visited : List T

/-- What happens during a traversal: a lookup in the table, or the next turn of its loop. -/
inductive Move (T : Type*) where
  | get (key : T)
  | hasKey (key : T)
  | contains (x : T)
  | next

/-- The key of a lookup. -/
def Move.key : Move T → Option T
  | .get key => some key
  | .hasKey key => some key
  | .contains x => some x
  | .next => none

namespace Traversal

/-- A traversal that begins. -/
def start (st : HashTable A T) : Traversal A T := ⟨st.begin, st, []⟩

/-- One move. -/
def step (H : Manager T) (s : Traversal A T) : Move T → Option (Traversal A T)
  | .get key => (s.table.get H key).map fun r => { s with table := r.2 }
  | .hasKey key => (s.table.hasKey H key).map fun r => { s with table := r.2 }
  | .contains x => (s.table.contains H x).map fun r => { s with table := r.2 }
  | .next => (s.table.item s.it).bind fun x => (s.table.next s.it).map fun it =>
    { s with it := it, visited := s.visited ++ [x] }

/-- The loop goes on only while its iterator is not ended. -/
def Valid (s : Traversal A T) : Move T → Prop
  | .next => s.table.ended s.it = false
  | _ => True

/-- The move does not disturb the iterator. -/
def Careful (H : Manager T) (s : Traversal A T) (m : Move T) : Prop :=
  ∀ key ∈ m.key, Harmless H s.table s.it key

instance (s : Traversal A T) (m : Move T) : Decidable (Valid s m) := by
  cases m <;> unfold Valid <;> infer_instance

instance (H : Manager T) (s : Traversal A T) (m : Move T) : Decidable (Careful H s m) := by
  unfold Careful
  infer_instance

/-- The items that a traversal gives from here on, if no more lookup is made. -/
def remaining (s : Traversal A T) : Option (List T) :=
  (Loop.run (itemsTurn s.table) (s.table.nodes.keys.length + 1) (s.it, [])).join

/-- The items visited and the items still to come are the items `D`, each one once. -/
def OnTrack (D : List T) (s : Traversal A T) : Prop :=
  ∃ xs, s.remaining = some xs ∧ (s.visited ++ xs).Perm D

/-- The table is well formed and the iterator stands on its first node of `rest`. -/
def Sound (H : Manager T) (s : Traversal A T) : Prop :=
  ∃ bs rest, Rep H s.table bs ∧ IterAt s.table bs s.it rest

variable {s s' : Traversal A T} {D : List T} {m : Move T}

theorem onTrack_iff (h : Rep H s.table bs) (hat : IterAt s.table bs s.it rest) :
    OnTrack D s ↔ (s.visited ++ rest.map Prod.snd).Perm D := by
  have hremaining : s.remaining = some (rest.map Prod.snd) := itemsTurn_spec h hat
  simp [OnTrack, hremaining]

/-- Each lookup replaces the table by the one that `find` leaves. -/
theorem step_eq (h : Rep H s.table bs) (hH : H.Lawful) {key : T} (hkey : m.key = some key) :
    step H s m = (s.table.find H key).map fun r => { s with table := r.2 } := by
  cases m with
  | get key' =>
    obtain rfl := some.inj hkey
    have hget := congrArg (Option.map fun st => { s with table := st }) (get_table h hH key')
    rw [Option.map_map, Option.map_map] at hget
    exact hget
  | hasKey key' =>
    obtain rfl := some.inj hkey
    rw [step, hasKey, Option.map_map]
    rfl
  | contains x =>
    obtain rfl := some.inj hkey
    rw [step, HashTable.contains, Option.map_map]
    rfl
  | next => cases hkey

/-- One move: a lookup keeps a traversal on its track exactly if it is harmless, and the next turn of the
loop always does. -/
theorem step_spec (hH : H.Lawful) (hs : Sound H s) (hvalid : Valid s m) :
    ∃ s', step H s m = some s' ∧ Sound H s' ∧
      (∀ D, OnTrack D s → (OnTrack D s' ↔ Careful H s m)) ∧
      s'.visited.length = s.visited.length + if m.key.isNone then 1 else 0 := by
  obtain ⟨bs, rest, hrep, hat⟩ := hs
  cases hkey : m.key with
  | some key =>
    obtain ⟨found, st', hfind, hsize, hrep', -⟩ := hrep.find_front hH key
    obtain ⟨rest', hat', hperm, hlen⟩ := hat.lookup hrep hH hsize hrep'
    refine ⟨{ s with table := st' }, ?_, ⟨_, rest', hrep', hat'⟩, ?_, by simp⟩
    · rw [step_eq hrep hH hkey, hfind]
      rfl
    · intro D hgood
      rw [onTrack_iff hrep hat] at hgood
      rw [onTrack_iff hrep' hat']
      have hcareful : Careful H s m ↔ Harmless H s.table s.it key := by
        simp [Careful, hkey]
      rw [hcareful]
      constructor
      · intro hsame
        -- as many nodes are still to come as before the lookup
        have hcount := (hsame.trans hgood.symm).length_eq
        simp only [length_append, length_map] at hcount
        exact hlen (by omega)
      · intro hharmless
        exact (((hperm hharmless).map Prod.snd).append_left s.visited).trans hgood
  | none =>
    obtain rfl : m = .next := by
      cases m <;> first | rfl | cases hkey
    cases rest with
    | nil =>
      have hended : s.table.ended s.it = false := hvalid
      rw [ended_of_nil hat] at hended
      cases hended
    | cons x rest =>
      obtain ⟨-, hitem, it', hnext, hat'⟩ := next_spec hrep hat
      refine ⟨⟨it', s.table, s.visited ++ [x.2]⟩, ?_, ⟨bs, rest, hrep, hat'⟩, ?_, by simp⟩
      · simp [step, hitem, hnext]
      · intro D hgood
        rw [onTrack_iff hrep hat] at hgood
        rw [onTrack_iff (s := ⟨it', s.table, s.visited ++ [x.2]⟩) hrep hat']
        have hcareful : Careful H s .next := by simp [Careful, Move.key]
        simpa [hcareful] using hgood

theorem sound_start (h : Rep H st bs) : Sound H (start st) :=
  ⟨bs, _, h, begin_spec h⟩

theorem onTrack_start (hitems : st.items = some D) : OnTrack D (start st) := by
  refine ⟨D, hitems, ?_⟩
  simp [start]

/-- The iterator of a traversal that is on its track is ended exactly when every item has been visited. -/
theorem ended_iff (hs : Sound H s) (hgood : OnTrack D s) :
    s.visited.Subperm D ∧ (s.table.ended s.it ↔ s.visited.Perm D) := by
  obtain ⟨bs, rest, hrep, hat⟩ := hs
  rw [onTrack_iff hrep hat] at hgood
  refine ⟨(sublist_append_left _ _).subperm.trans hgood.subperm, ?_⟩
  cases rest with
  | nil =>
    simp only [ended_of_nil hat, true_iff]
    simpa using hgood
  | cons x rest =>
    rw [(next_spec hrep hat).1]
    simp only [Bool.false_eq_true, false_iff]
    intro hperm
    have hlen := (hgood.trans hperm.symm).length_eq
    simp at hlen

/-- Whatever its lookups are, a traversal goes on. -/
theorem exec_spec (hH : H.Lawful) (moves : List (Move T)) :
    ∀ s : Traversal A T, Sound H s → Run.Meets Valid (step H) s moves →
      ∃ t, Run.exec (step H) s moves = some t ∧ Sound H t ∧
        t.visited.length = s.visited.length + moves.countP fun m => m.key.isNone := by
  induction moves with
  | nil => exact fun s hs _ => ⟨s, rfl, hs, rfl⟩
  | cons m moves ih =>
    intro s hs hvalid
    obtain ⟨s', hstep, hs', -, hlen⟩ := step_spec hH hs hvalid.1
    obtain ⟨t, hexec, ht, hcount⟩ := ih s' hs' (hvalid.2 s' hstep)
    refine ⟨t, Run.exec_cons_eq_some.mpr ⟨s', hstep, hexec⟩, ht, ?_⟩
    rw [hcount, hlen, countP_cons]
    omega

/-- A traversal is on its track after each of its moves exactly if its lookups are harmless. -/
theorem careful_iff (hH : H.Lawful) (moves : List (Move T)) (hs : Sound H s) (hgood : OnTrack D s)
    (hvalid : Run.Meets Valid (step H) s moves) :
    Run.Meets (Careful H) (step H) s moves ↔
      ∀ k t, Run.exec (step H) s (moves.take k) = some t → OnTrack D t := by
  refine Run.meets_iff_forall_exec (Sound H) (OnTrack D) ?_ moves s hs hgood hvalid
  intro s m hs hgood hvalid
  obtain ⟨s', hstep, hs', hiff, -⟩ := step_spec hH hs hvalid
  exact ⟨s', hstep, hs', hiff D hgood⟩

end Traversal

/-! ## Calls made of several lookups -/

/-- `HashTable::containsAll(c)`, where `c` gives the items `xs` and is not the table itself. -/
def containsAll (H : Manager T) (st : HashTable A T) : List T → Option (Bool × HashTable A T)
  | [] => some (true, st)
  | x :: xs =>
    match st.contains H x with
    | none => none
    | some (false, st) => some (false, st)
    | some (true, st) => containsAll H st xs

/-- `HashTable::equals(h)`, where `h` is the table `other`. -/
def equals (H : Manager T) (st other : HashTable A T) :
    Option (Bool × HashTable A T × HashTable A T) :=
  other.items.bind fun xs => (st.containsAll H xs).bind fun r =>
    if r.1 then
      r.2.items.bind fun ys => (other.containsAll H ys).map fun r' => (r'.1, r.2, r'.2)
    else
      some (false, r.2, other)

theorem contains_spec (h : Rep H st bs) (hH : H.Lawful) (x : T) :
    ∃ b st', st.contains H x = some (b, st') ∧ st'.size = st.size ∧
      Rep H st' (frontBuckets H x bs) ∧ (b ↔ ∃ y ∈ bs (st.index H x), H.isEqual y.2 x) := by
  obtain ⟨found, st', hfind, hsize, hrep, hfound⟩ := h.find_front hH x
  exact ⟨found.isSome, st', by simp [HashTable.contains, hfind], hsize, hrep, hfound⟩

/-- A call of `containsAll` during a traversal is made of lookups of the first items of its argument. -/
theorem containsAll_spec (hH : H.Lawful) (xs : List T) : ∀ {st : HashTable A T} {bs},
    Rep H st bs → ∃ k b st' bs', st.containsAll H xs = some (b, st') ∧ Rep H st' bs' ∧
      ∀ it visited, Run.exec (Traversal.step H) ⟨it, st, visited⟩ ((xs.take k).map .contains) =
        some ⟨it, st', visited⟩ := by
  induction xs with
  | nil => exact fun {st bs} h => ⟨0, true, st, bs, rfl, h, fun _ _ => rfl⟩
  | cons x xs ih =>
    intro st bs h
    obtain ⟨b, st', hcontains, -, hrep, -⟩ := contains_spec h hH x
    cases b with
    | false =>
      refine ⟨1, false, st', _, by simp [containsAll, hcontains], hrep, fun it visited => ?_⟩
      simp [Run.exec, Traversal.step, hcontains]
    | true =>
      obtain ⟨k, b, st'', bs'', hall, hrep', hexec⟩ := ih hrep
      refine ⟨k + 1, b, st'', bs'', by simp [containsAll, hcontains, hall], hrep', fun it visited => ?_⟩
      exact Run.exec_cons_eq_some.mpr
        ⟨⟨it, st', visited⟩, by simp [Traversal.step, hcontains], hexec it visited⟩

/-- A call of `equals` during a traversal is made of lookups of items of the other table. -/
theorem equals_spec (hH : H.Lawful) (h : Rep H st bs) (hother : Rep H other bs') :
    ∃ (keys : List T) (b : Bool) (st' other' : HashTable A T),
      st.equals H other = some (b, st', other') ∧
      ∀ it visited, Run.exec (Traversal.step H) ⟨it, st, visited⟩ (keys.map .contains) =
        some ⟨it, st', visited⟩ := by
  obtain ⟨k, b, st', bs₁, hall, hrep, hexec⟩ := containsAll_spec hH
    ((allNodes bs' other.size).map Prod.snd) h
  cases b with
  | false => exact ⟨_, false, st', other, by simp [equals, items_spec hother, hall], hexec⟩
  | true =>
    obtain ⟨-, b, other', -, hall', -⟩ :=
      containsAll_spec hH ((allNodes bs₁ st'.size).map Prod.snd) hother
    exact ⟨_, b, st', other', by simp [equals, items_spec hother, hall, items_spec hrep, hall'], hexec⟩

/-! ## A table compared with itself -/

/-- One turn of the loop of `containsAll(c)` when `c` is the table itself: each item is looked up in the
table that the iterator goes through.  `HashSet::subsetOf` has the same loop. -/
def containsAllTurn (H : Manager T) (s : Iter A × HashTable A T) :
    (Iter A × HashTable A T) ⊕ Option (Bool × HashTable A T) :=
  if s.2.ended s.1 then
    .inr (some (true, s.2))
  else
    match s.2.item s.1 with
    | none => .inr none
    | some x =>
      match s.2.contains H x with
      | none => .inr none
      | some (false, st) => .inr (some (false, st))
      | some (true, st) =>
        match st.next s.1 with
        | none => .inr none
        | some it => .inl (it, st)

/-- `h.containsAll(h)`. -/
def containsAllSelf (H : Manager T) (st : HashTable A T) (fuel : Nat) : Option (Bool × HashTable A T) :=
  (Loop.run (containsAllTurn H) fuel (st.begin, st)).join

/-- `h.equals(h)`. -/
def equalsSelf (H : Manager T) (st : HashTable A T) (fuel : Nat) : Option (Bool × HashTable A T) :=
  (st.containsAllSelf H fuel).bind fun r =>
    if r.1 then r.2.containsAllSelf H fuel else some (false, r.2)

/-- No bucket has two nodes. -/
def Single (st : HashTable A T) : Prop :=
  ∀ i < st.size, (st.bucket i).length ≤ 1

instance (st : HashTable A T) : Decidable (Single st) := by
  unfold Single
  infer_instance

/-- In a table without shared buckets, a lookup finds its node at the front. -/
theorem find_of_single (h : Rep H st bs) (hsingle : Single st) (key : T) :
    ∃ found, st.find H key = some (found, st) ∧
      (found.isSome ↔ ∃ x ∈ bs (st.index H key), H.isEqual x.2 key) := by
  have hi := st.index_lt (H := H) key
  have hone := hsingle _ hi
  rw [bucket_eq h hi] at hone
  rcases scan_spec (fun _ d => H.isEqual d key) (h.chain _ hi) with
    ⟨hscan, hnone⟩ | ⟨ys, a, d, zs, next, hxs, hequal, -, -, hscan⟩
  · refine ⟨none, by simp [find, hscan], ?_⟩
    simpa using hnone
  · obtain rfl : ys = [] := by
      rw [hxs] at hone
      simp only [length_append, length_cons] at hone
      exact eq_nil_of_length_eq_zero (by omega)
    refine ⟨some a, by simp [find, hscan], ?_⟩
    simp only [isSome_some, true_iff]
    exact ⟨(a, d), by simp [hxs], hequal⟩

/-- The item of the iterator is in the bucket of the iterator. -/
theorem IterAt.mem_bucket (hat : IterAt st bs it (x :: rest)) (h : Rep H st bs) :
    x ∈ bs (st.index H x.2) := by
  rcases hat with ⟨-, hrest⟩ | ⟨hi, ys, y, zs, hbucket, -, hrest⟩
  · cases hrest
  · obtain ⟨rfl, -⟩ := List.cons.inj hrest
    have hmem : x ∈ bs it.i := by simp [hbucket]
    rw [h.placed it.i hi x hmem]
    exact hmem

theorem containsAllSelf_of_single (h : Rep H st bs) (hH : H.Lawful) (hsingle : Single st) :
    st.containsAllSelf H (st.nodes.keys.length + 1) = some (true, st) := by
  have hrun : ∃ r, Loop.run (containsAllTurn H) (st.nodes.keys.length + 1) (st.begin, st) = some r ∧
      r = some (true, st) := by
    refine Loop.exists_run_of_list (containsAllTurn H)
      (fun rest s => s.2 = st ∧ IterAt st bs s.1 rest) (fun r => r = some (true, st)) ?_ ?_
      ⟨rfl, begin_spec h⟩ (Nat.lt_succ_of_le (length_allNodes_le h))
    · rintro x rest ⟨it, _⟩ ⟨rfl, hat⟩
      obtain ⟨hended, hitem, it', hnext, hat'⟩ := next_spec h hat
      obtain ⟨found, hfind, hfound⟩ := find_of_single h hsingle x.2
      have hsome : found.isSome := hfound.mpr ⟨x, hat.mem_bucket h, hH.equivalence.refl x.2⟩
      refine Or.inl ⟨(it', _), ?_, rfl, hat'⟩
      simp [containsAllTurn, hended, hitem, HashTable.contains, hfind, hsome, hnext]
    · rintro ⟨it, _⟩ ⟨rfl, hat⟩
      exact ⟨_, by simp [containsAllTurn, ended_of_nil hat], rfl⟩
  obtain ⟨r, hr, rfl⟩ := hrun
  simp [containsAllSelf, hr]

/-- A turn on a node: its item is found, its node comes to the front of the bucket, and the iterator goes
on with the other nodes of the bucket, those before the node included. -/
theorem containsAllTurn_spec (h : Rep H st bs) (hH : H.Lawful) (hat : IterAt st bs it (x :: rest)) :
    ∃ it' st', containsAllTurn H (it, st) = .inl (it', st') ∧ st'.size = st.size ∧ it.i < st.size ∧
      Rep H st' (frontBuckets H x.2 bs) ∧ IterAt st' (frontBuckets H x.2 bs) it'
        ((frontBuckets H x.2 bs it.i).tail ++ nodesFrom (frontBuckets H x.2 bs) st.size (it.i + 1)) := by
  obtain ⟨hended, hitem, -⟩ := next_spec h hat
  obtain ⟨b, st', hcontains, hsize, hrep, hfound⟩ := contains_spec h hH x.2
  obtain rfl : b = true := hfound.mpr ⟨x, hat.mem_bucket h, hH.equivalence.refl x.2⟩
  rcases hat with ⟨-, hrest⟩ | ⟨hi, ys, y, zs, hbucket, hlist, hrest⟩
  · cases hrest
  obtain ⟨rfl, -⟩ := List.cons.inj hrest
  have hmoved : frontBuckets H x.2 bs it.i = [] ++ x :: (ys ++ zs) := by
    rw [frontBuckets, hbucket]
    refine moveToFront_append ?_ (hH.equivalence.refl x.2)
    intro y hy
    have hdistinct := h.distinct it.i hi
    rw [hbucket] at hdistinct
    exact (pairwise_append.mp hdistinct).2.2 y hy x mem_cons_self
  have hat' := IterAt.of_bucket hrep (hsize ▸ hi) hmoved hlist.1
  obtain ⟨-, -, it', hnext, hat''⟩ := next_spec hrep hat'
  refine ⟨it', st', ?_, hsize, hi, hrep, ?_⟩
  · simp [containsAllTurn, hended, hitem, hcontains, hnext]
  · rw [hmoved, ← hsize]
    exact hat''

theorem IterAt.mem_rest (hat : IterAt st bs it rest) {y : A × T} (hy : y ∈ rest) :
    it.i < st.size ∧ y ∈ bs it.i ∨ y ∈ nodesFrom bs st.size (it.i + 1) := by
  rcases hat with ⟨-, rfl⟩ | ⟨hi, ys, x, zs, hbucket, -, rfl⟩
  · cases hy
  · rcases mem_append.mp hy with hy | hy
    · left
      rw [hbucket]
      exact ⟨hi, mem_append_right ys hy⟩
    · exact Or.inr hy

/-- A node of a bucket of two nodes or more is still to come. -/
def Crowded (H : Manager T) (s : Iter A × HashTable A T) : Prop :=
  ∃ bs rest, Rep H s.2 bs ∧ IterAt s.2 bs s.1 rest ∧
    ∃ j < s.2.size, 2 ≤ (bs j).length ∧ ∃ y ∈ bs j, y ∈ rest

/-- The loop does not get past a bucket of two nodes. -/
theorem crowded_turn (hH : H.Lawful) {s : Iter A × HashTable A T} (hs : Crowded H s) :
    ∃ s', containsAllTurn H s = .inl s' ∧ Crowded H s' := by
  obtain ⟨it, st⟩ := s
  obtain ⟨bs, rest, hrep, hat, j, hj, htwo, y, hyj, hy⟩ := hs
  cases rest with
  | nil => cases hy
  | cons x rest =>
    obtain ⟨it', st', hturn, hsize, hi, hrep', hat'⟩ := containsAllTurn_spec hrep hH hat
    have hperm := perm_frontBuckets H x.2 bs
    refine ⟨(it', st'), hturn, _, _, hrep', hat', j, hsize ▸ hj, ?_, ?_⟩
    · rw [(hperm j).length_eq]
      exact htwo
    · by_cases hji : j = it.i
      · -- the node brought to the front leaves another one to come
        subst hji
        have hlen := (hperm it.i).length_eq
        cases htail : (frontBuckets H x.2 bs it.i).tail with
        | nil =>
          have hnil := congrArg List.length htail
          simp only [length_tail, length_nil] at hnil
          omega
        | cons z zs =>
          exact ⟨z, mem_of_mem_tail (htail ▸ mem_cons_self), by simp⟩
      · refine ⟨y, (hperm j).mem_iff.mpr hyj, mem_append_right _ ?_⟩
        rw [(perm_nodesFrom hperm st.size (it.i + 1)).mem_iff]
        rcases hat.mem_rest hy with ⟨-, hyi⟩ | hlater
        · have heq := hrep.bucket_unique hj hi (mem_map_of_mem hyj) (mem_map_of_mem hyi)
          exact absurd heq hji
        · exact hlater

theorem containsAllSelf_diverges (h : Rep H st bs) (hH : H.Lawful) (hcrowded : ¬ Single st) :
    Loop.Diverges (containsAllTurn H) (st.begin, st) := by
  refine Loop.diverges_of_invariant (Crowded H) (fun s hs => crowded_turn hH hs) ?_
  unfold Single at hcrowded
  push Not at hcrowded
  obtain ⟨j, hj, htwo⟩ := hcrowded
  rw [bucket_eq h hj] at htwo
  obtain ⟨y, hy⟩ := exists_mem_of_length_pos (Nat.zero_lt_of_lt htwo)
  exact ⟨bs, _, h, begin_spec h, j, hj, htwo, y, hy, mem_allNodes.mpr ⟨j, hj, hy⟩⟩

/-- `h.containsAll(h)` ends, with the answer `true`, exactly when no bucket has two nodes. -/
theorem containsAllSelf_iff (h : Rep H st bs) (hH : H.Lawful) :
    (∃ fuel st', st.containsAllSelf H fuel = some (true, st')) ↔ Single st := by
  constructor
  · rintro ⟨fuel, st', hself⟩
    by_contra hcrowded
    rw [containsAllSelf, containsAllSelf_diverges h hH hcrowded fuel] at hself
    cases hself
  · exact fun hsingle => ⟨_, st, containsAllSelf_of_single h hH hsingle⟩

theorem equalsSelf_of_single (h : Rep H st bs) (hH : H.Lawful) (hsingle : Single st) :
    st.equalsSelf H (st.nodes.keys.length + 1) = some (true, st) := by
  simp [equalsSelf, containsAllSelf_of_single h hH hsingle]

theorem equalsSelf_iff (h : Rep H st bs) (hH : H.Lawful) :
    (∃ fuel st', st.equalsSelf H fuel = some (true, st')) ↔ Single st := by
  constructor
  · rintro ⟨fuel, st', hself⟩
    obtain ⟨⟨b, st₁⟩, hfirst, hrest⟩ := bind_eq_some_iff.mp hself
    cases b with
    | false => simp at hrest
    | true => exact (containsAllSelf_iff h hH).mp ⟨fuel, st₁, hfirst⟩
  · exact fun hsingle => ⟨_, st, equalsSelf_of_single h hH hsingle⟩

/-! ## Traversals of reachable tables -/

/-- A run of allowed calls on an empty table gives a well-formed table. -/
theorem exists_rep (hH : H.Lawful) {size : Nat} {hsize : 0 < size} {ops : List (Op A T)}
    (hops : Run.Meets (Allowed H) (call H) (new size hsize) ops) :
    ∃ st bs, Run.exec (call H) (new size hsize) ops = some st ∧ Rep H st bs := by
  obtain ⟨st, hexec, m, bs, hrep, -⟩ := Run.exists_exec_of_meets (fun st => ∃ m, Refines H st m)
    (by
      rintro st op ⟨m, hm⟩ hop
      obtain ⟨st', hcall, -, hm'⟩ := call_refines hH hm hop
      exact ⟨st', hcall, _, hm'⟩)
    ops _ ⟨_, refines_new H size hsize⟩ hops
  exact ⟨st, bs, hexec, hrep⟩

open Traversal in
/-- A traversal of any table, with any lookups in the same table between two turns of its loop.  After each
move the items visited and the items to come are those of the table, each one once, exactly if no lookup
moves the iterator's node or one behind it; then the loop has visited every item once when it ends.  The
calls of `containsAll` and `equals` are made of such lookups, and end with the answer `true` on the table
itself exactly when no bucket has two nodes. -/
theorem traversal_iff (H : Manager T) (hH : H.Lawful) (size : Nat) (hsize : 0 < size)
    (ops : List (Op A T)) (hops : Run.Meets (Allowed H) (call H) (new size hsize) ops) :
    ∃ st D, Run.exec (call H) (new size hsize) ops = some st ∧ st.items = some D ∧
      D.Pairwise (fun x y => H.isEqual x y = false) ∧
      ∀ moves : List (Move T), Run.Meets Valid (Traversal.step H) (start st) moves →
        (Run.Meets (Careful H) (Traversal.step H) (start st) moves ↔
          ∀ k t, Run.exec (Traversal.step H) (start st) (moves.take k) = some t → OnTrack D t) ∧
        ∃ t, Run.exec (Traversal.step H) (start st) moves = some t ∧
          (Run.Meets (Careful H) (Traversal.step H) (start st) moves →
            (t.visited.length = moves.countP fun m => m.key.isNone) ∧ t.visited.Subperm D ∧
            (t.table.ended t.it ↔ t.visited.Perm D)) ∧
          (∀ xs, ∃ k b st', t.table.containsAll H xs = some (b, st') ∧
            Run.exec (Traversal.step H) t ((xs.take k).map .contains) = some { t with table := st' }) ∧
          (∀ other bs, Rep H other bs → ∃ (keys : List T) (b : Bool) (st' other' : HashTable A T),
            t.table.equals H other = some (b, st', other') ∧
            Run.exec (Traversal.step H) t (keys.map .contains) = some { t with table := st' }) ∧
          ((∃ fuel st', t.table.containsAllSelf H fuel = some (true, st')) ↔ Single t.table) ∧
          ((∃ fuel st', t.table.equalsSelf H fuel = some (true, st')) ↔ Single t.table) ∧
          (Single t.table → ∃ fuel, t.table.containsAllSelf H fuel = some (true, t.table) ∧
            t.table.equalsSelf H fuel = some (true, t.table)) := by
  obtain ⟨st, bs, hexec, hrep⟩ := exists_rep hH hops
  have hitems := items_spec hrep
  refine ⟨st, _, hexec, hitems, ?_, fun moves hvalid => ?_⟩
  · rw [pairwise_map]
    exact pairwise_allNodes hrep hH
  have hs := sound_start hrep
  have hgood := onTrack_start hitems
  have hiff := careful_iff hH moves hs hgood hvalid
  obtain ⟨t, hmoves, ht, hcount⟩ := exec_spec hH moves _ hs hvalid
  refine ⟨hiff, t, hmoves, fun hcareful => ⟨?_, ?_⟩, ?_⟩
  · rw [hcount]
    simp [start]
  · have hlast : OnTrack _ t := hiff.mp hcareful moves.length t (by rwa [take_length])
    exact ended_iff ht hlast
  · obtain ⟨bs', rest, hrep', -⟩ := ht
    refine ⟨fun xs => ?_, fun other bs₁ hother => ?_, containsAllSelf_iff hrep' hH,
      equalsSelf_iff hrep' hH, fun hsingle => ?_⟩
    · obtain ⟨k, b, st', -, hall, -, hrun⟩ := containsAll_spec hH xs hrep'
      exact ⟨k, b, st', hall, hrun t.it t.visited⟩
    · obtain ⟨keys, b, st', other', hequals, hrun⟩ := equals_spec hH hrep' hother
      exact ⟨keys, b, st', other', hequals, hrun t.it t.visited⟩
    · exact ⟨_, containsAllSelf_of_single hrep' hH hsingle, equalsSelf_of_single hrep' hH hsingle⟩

open Traversal in
/-- A traversal of a table with a bucket of two nodes; its lookups find items in front of the iterator's
node, at the front, or in another bucket. -/
theorem traversal_iff_nat :
    ∃ st D t, Run.exec (call natManager) (new 2 (by decide)) [.put 3 (0 : Nat), .put 1 1, .put 2 2] =
        some st ∧ st.items = some D ∧
      Run.exec (Traversal.step natManager) (start st)
        [.get 2, .next, .contains 1, .next, .hasKey 1, .next] = some t ∧
      t.visited.length = 3 ∧ t.visited.Subperm D ∧ (t.table.ended t.it ↔ t.visited.Perm D) := by
  obtain ⟨st, D, hexec, hitems, -, hall⟩ := traversal_iff natManager lawful_natManager 2 (by decide)
    [.put 3 (0 : Nat), .put 1 1, .put 2 2] (by decide)
  obtain rfl := some.inj hexec
  obtain ⟨-, t, hmoves, hcareful, -⟩ :=
    hall [.get 2, .next, .contains 1, .next, .hasKey 1, .next] (by decide)
  exact ⟨_, D, t, rfl, hitems, hmoves, hcareful (by decide)⟩

open Traversal in
/-- In a table of two buckets with the keys 1 and 3, a lookup of the second node of the traversal makes it
end after one item, and the table compared with itself never gives an answer. -/
theorem not_traversal :
    ∃ st t, Run.exec (call natManager) (new 2 (by decide)) [.put 1 (0 : Nat), .put 3 1] = some st ∧
      st.items = some [3, 1] ∧
      Run.exec (Traversal.step natManager) (start st) [.contains 1, .next] = some t ∧
      t.table.ended t.it ∧ t.visited = [3] ∧
      ∀ fuel, st.containsAllSelf natManager fuel = none ∧ st.equalsSelf natManager fuel = none := by
  obtain ⟨st, bs, hexec, hrep⟩ :=
    @exists_rep Nat Nat _ natManager lawful_natManager 2 (by decide) [.put 1 0, .put 3 1] (by decide)
  obtain rfl := Option.some.inj hexec
  refine ⟨_, _, hexec, by decide, rfl, by decide, by decide, fun fuel => ?_⟩
  have hself := containsAllSelf_diverges hrep lawful_natManager (by decide) fuel
  constructor
  · rw [containsAllSelf, hself]
    rfl
  · rw [equalsSelf, containsAllSelf, hself]
    rfl

end Elm.Data.HashTable
