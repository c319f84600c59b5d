import Elm.Alloc.StackAllocator

/-!
# Runs of `StackAllocator`

The blocks live at a mark lie in the chunks owned when it was taken, below the mark in the first of
them.  The chunks of a mark are the last ones of those of the newer marks and of the allocator.
-/

namespace Elm.Alloc.StackAllocator

open Runs List Option

/-- The blocks of `live` lie in the chunks `cs`, below `top` in the first one. -/
structure LiveAt (size top : Nat) (live : List (Nat × Nat)) (cs : List Nat) : Prop where
  nil : cs = [] → live = []
  cons : ∀ c ds, cs = c :: ds → c ≤ top ∧ top ≤ c + size ∧
    ∀ b ∈ live, (c ≤ b.1 ∧ b.1 + b.2 ≤ top) ∨ ∃ d ∈ ds, d ≤ b.1 ∧ b.1 + b.2 ≤ d + size
  apart : live.Pairwise fun b b' => Apart b.1 b.2 b'.1 b'.2

/-- The marks of the client, the newest first, when the allocator owns the chunks `cs`. -/
def MarksOk (size : Nat) : List (Nat × List (Nat × Nat)) → List Nat → Prop
  | [], _ => True
  | m :: marks, cs => ∃ ds, ds <:+ cs ∧ LiveAt size m.1 m.2 ds ∧ MarksOk size marks ds

/-- What every call keeps. -/
structure Invariant (s : StackAllocator) (client : Client) : Prop where
  spaced : s.chunks.Pairwise fun c d => s.Spaced c d
  liveAt : LiveAt s.size s.top client.live s.chunks
  marksOk : MarksOk s.size client.marks s.chunks

theorem MarksOk.mono {size : Nat} {marks : List (Nat × List (Nat × Nat))} {cs ds : List Nat}
    (h : MarksOk size marks ds) (hsuff : ds <:+ cs) : MarksOk size marks cs := by
  cases marks with
  | nil => trivial
  | cons m marks =>
    obtain ⟨es, hes, hat, hrest⟩ := h
    exact ⟨es, hes.trans hsuff, hat, hrest⟩

theorem MarksOk.drop {size : Nat} {marks : List (Nat × List (Nat × Nat))} {cs : List Nat}
    (h : MarksOk size marks cs) (k : Nat) : MarksOk size (marks.drop k) cs := by
  induction marks generalizing k cs with
  | nil => simp [MarksOk]
  | cons m marks ih =>
    cases k with
    | zero => exact h
    | succ k =>
      obtain ⟨ds, hds, -, hrest⟩ := h
      exact (ih hrest k).mono hds

variable {s : StackAllocator} {client : Client}

theorem Spaced.symm {c d : Nat} (h : s.Spaced c d) : s.Spaced d c := Or.symm h

theorem Invariant.spaced_of_mem (h : Invariant s client) {c d : Nat} (hc : c ∈ s.chunks)
    (hd : d ∈ s.chunks) (hne : c ≠ d) : s.Spaced c d := by
  have hsymm : Std.Symm fun c d : Nat => s.Spaced c d := ⟨fun _ _ h => h.symm⟩
  exact h.spaced.forall hc hd hne

theorem Invariant.nodup (h : Invariant s client) : s.chunks.Nodup := by
  refine h.spaced.imp fun {c d} hspaced heq => ?_
  unfold Spaced sizeofChunk at hspaced
  omega

theorem Invariant.safe (h : Invariant s client) : Safe s client := by
  refine ⟨fun b hb => ?_, h.liveAt.apart⟩
  cases hcs : s.chunks with
  | nil =>
    rw [h.liveAt.nil hcs] at hb
    cases hb
  | cons c ds =>
    obtain ⟨-, htop, hlive⟩ := h.liveAt.cons c ds hcs
    rcases hlive b hb with ⟨hlow, hhigh⟩ | ⟨d, hd, hin⟩
    · exact ⟨c, by simp [hcs], hlow, by omega⟩
    · exact ⟨d, by simp [hcs, hd], hin⟩

theorem invariant_of_new {size : Nat} (hnew : new size = some s) : Invariant s ⟨[], []⟩ := by
  unfold new at hnew
  split_ifs at hnew
  obtain rfl := some.inj hnew
  refine ⟨List.Pairwise.nil, ⟨fun _ => rfl, ?_, List.Pairwise.nil⟩, trivial⟩
  intro c ds hcs
  cases hcs

/-! ## Allocations -/

theorem newChunk_invariant (h : Invariant s client) {c : Nat}
    (hc : ∀ d ∈ s.chunks, s.Spaced c d) : Invariant (s.newChunk c) client := by
  refine ⟨pairwise_cons.mpr ⟨hc, h.spaced⟩, ⟨?_, ?_, h.liveAt.apart⟩,
    h.marksOk.mono (suffix_cons _ _)⟩
  · exact fun hnil => by cases hnil
  · intro c' ds hcs
    obtain ⟨rfl, rfl⟩ := List.cons.inj hcs
    exact ⟨le_rfl, Nat.le_add_right _ _, fun b hb => Or.inr (h.safe.owned b hb)⟩

/-- A block put at the top of a chunk that has room for it. -/
theorem push_invariant (h : Invariant s client) {c n : Nat} {ds : List Nat}
    (hcs : s.chunks = c :: ds) (hroom : s.top + n ≤ c + s.size) :
    Invariant { s with top := s.top + n } { client with live := (s.top, n) :: client.live } := by
  obtain ⟨hlow, htop, hlive⟩ := h.liveAt.cons c ds hcs
  refine ⟨h.spaced, ⟨fun hnil => ?_, fun c' ds' hcs' => ?_, ?_⟩, h.marksOk⟩
  · rw [hcs] at hnil
    cases hnil
  · obtain ⟨rfl, rfl⟩ := List.cons.inj (hcs.symm.trans hcs')
    refine ⟨by simp only; omega, hroom, fun b hb => ?_⟩
    rcases mem_cons.mp hb with rfl | hb
    · exact Or.inl ⟨hlow, le_rfl⟩
    · rcases hlive b hb with ⟨hb₁, hb₂⟩ | hother
      · exact Or.inl ⟨hb₁, by simp only; omega⟩
      · exact Or.inr hother
  · refine pairwise_cons.mpr ⟨fun b hb => ?_, h.liveAt.apart⟩
    unfold Apart
    rcases hlive b hb with hbelow | ⟨d, hd, hin⟩
    · simp only
      omega
    · -- the block is in another chunk
      have hspaced := h.spaced
      rw [hcs, pairwise_cons] at hspaced
      have hsep := hspaced.1 d hd
      unfold Spaced sizeofChunk at hsep
      simp only
      omega

theorem newChunk_filled {n c : Nat} (hn : n ≤ s.size) :
    ¬ ((s.newChunk c).chunks = [] ∨ (s.newChunk c).room < n) := by
  have hroom : (s.newChunk c).room = s.size := by simp [room, newChunk]
  rw [hroom]
  simp only [newChunk, cons_ne_nil, false_or]
  omega

/-- The result of `allocate`: the chunk that is current then is `t`'s. -/
theorem allocate_eq {n : Nat} (hn : n ≤ s.size) (c : Nat) :
    s.allocate n c =
      let t := if s.chunks = [] ∨ s.room < n then s.newChunk c else s
      some (t.top, { t with top := t.top + n }) := by
  by_cases hfilled : s.chunks = [] ∨ s.room < n
  · have hturn : allocateTurn n c s = .inl (s.newChunk c) := by
      rw [allocateTurn, if_pos hn, if_pos hfilled]
    have hagain : allocateTurn n c (s.newChunk c) =
        .inr (some (c, { s.newChunk c with top := c + n })) := by
      have hn' : n ≤ (s.newChunk c).size := hn
      rw [allocateTurn, if_pos hn', if_neg (newChunk_filled hn)]
      rfl
    rw [allocate, Loop.run_succ_inl hturn, Loop.run_succ_inr hagain, if_pos hfilled]
    rfl
  · have hturn : allocateTurn n c s = .inr (some (s.top, { s with top := s.top + n })) := by
      rw [allocateTurn, if_pos hn, if_neg hfilled]
    rw [allocate, Loop.run_succ_inr hturn, if_neg hfilled]
    rfl

/-- A block that goes over the end of the current chunk lies in no owned chunk. -/
theorem not_owned (h : Invariant s client) {c n : Nat} {ds : List Nat} (hcs : s.chunks = c :: ds)
    (hover : c + s.size < s.top + n) : ¬ s.Owned (s.top, n) := by
  obtain ⟨hlow, htop, -⟩ := h.liveAt.cons c ds hcs
  rintro ⟨d, hd, hin⟩
  simp only at hin
  by_cases hdc : c = d
  · omega
  · have hsep := h.spaced_of_mem (by simp [hcs]) hd hdc
    unfold Spaced sizeofChunk at hsep
    omega

/-- An allocation keeps the invariant, or its block lies in no owned chunk. -/
theorem allocate_spec (h : Invariant s client) {n c : Nat}
    (hop : Contract (s, client) (.allocate n c)) :
    ∃ r t, s.allocate n c = some (r, t) ∧
      (Sound (s, client) (.allocate n c) →
        Invariant t { client with live := (r, n) :: client.live }) ∧
      (¬ Sound (s, client) (.allocate n c) → ¬ t.Owned (r, n)) := by
  obtain ⟨hn, hc⟩ := hop
  simp only at hn hc
  rw [allocate_eq hn c]
  by_cases hfilled : s.chunks = [] ∨ s.room < n
  · -- a new chunk, which has room
    rw [if_pos hfilled]
    refine ⟨_, _, rfl, fun _ => ?_, fun hnot => ?_⟩
    · have hcs : (s.newChunk c).chunks = c :: s.chunks := rfl
      refine push_invariant (newChunk_invariant h hc) hcs ?_
      change c + n ≤ c + s.size
      omega
    · refine absurd ?_ hnot
      intro d hd
      rcases hfilled with hnil | hroom
      · rw [hnil] at hd
        cases hd
      · exact Or.inl hroom
  · rw [if_neg hfilled]
    rw [not_or] at hfilled
    obtain ⟨d, ds, hcs⟩ := exists_cons_of_ne_nil hfilled.1
    refine ⟨_, _, rfl, fun hsound => ?_, fun hnot => ?_⟩
    · refine push_invariant h hcs ?_
      rcases hsound d (by simp [hcs]) with hroom | hend
      · exact absurd hroom hfilled.2
      · exact hend
    · have hover : d + s.size < s.top + n := by
        by_contra hle
        refine hnot fun e he => Or.inr ?_
        rw [hcs] at he
        obtain rfl := some.inj he
        simp only
        omega
      exact not_owned h hcs hover

/-! ## Releases -/

theorem releaseFrom_spec (s : StackAllocator) (m : Nat) (cs : List Nat) :
    (∃ c ds, s.releaseFrom m cs = some { s with chunks := c :: ds, top := m } ∧ c :: ds <:+ cs ∧
      s.Inside m c) ∨ (s.releaseFrom m cs = none ∧ ∀ c ∈ cs, ¬ s.Inside m c) := by
  induction cs with
  | nil => exact Or.inr ⟨rfl, by simp⟩
  | cons c cs ih =>
    by_cases hin : s.Inside m c
    · exact Or.inl ⟨c, cs, by rw [releaseFrom, if_pos hin], suffix_refl _, hin⟩
    · rw [releaseFrom, if_neg hin]
      rcases ih with ⟨d, ds, hrel, hsuff, hind⟩ | ⟨hrel, hall⟩
      · exact Or.inl ⟨d, ds, hrel, hsuff.trans (suffix_cons _ _), hind⟩
      · refine Or.inr ⟨hrel, fun d hd => ?_⟩
        rcases mem_cons.mp hd with rfl | hd
        · exact hin
        · exact hall d hd

/-- Two ends of a list without duplicates that start with the same item are equal. -/
theorem suffix_unique {cs : List Nat} (hnodup : cs.Nodup) {c : Nat} {ds es : List Nat}
    (hds : c :: ds <:+ cs) (hes : c :: es <:+ cs) : ds = es := by
  have hshort : ∀ {ds es : List Nat}, (c :: es).Nodup → c :: ds <:+ c :: es → ds = es := by
    intro ds es hes hsuff
    rcases suffix_cons_iff.mp hsuff with heq | hin
    · exact (List.cons.inj heq).2
    · exact absurd (hin.subset (mem_cons_self ..)) (nodup_cons.mp hes).1
  rcases suffix_or_suffix_of_suffix hds hes with hsuff | hsuff
  · exact hshort (hnodup.sublist hes.sublist) hsuff
  · exact (hshort (hnodup.sublist hds.sublist) hsuff).symm

/-- The chunk of a mark that is inside an owned chunk is the one it was taken in. -/
theorem chunks_of_inside (h : Invariant s client) {m c : Nat} {live : List (Nat × Nat)}
    {cs ds : List Nat} (hat : LiveAt s.size m live ds) (hds : ds <:+ s.chunks)
    (hcs : c :: cs <:+ s.chunks) (hin : s.Inside m c) : ds = [] ∨ ds = c :: cs := by
  cases ds with
  | nil => exact Or.inl rfl
  | cons d ds =>
    right
    obtain ⟨hlow, hhigh, -⟩ := hat.cons d ds rfl
    have heq : d = c := by
      by_contra hne
      have hsep := h.spaced_of_mem (hds.subset (by simp)) (hcs.subset (by simp)) hne
      obtain ⟨hin₁, hin₂⟩ := hin
      unfold Spaced sizeofChunk at hsep
      omega
    subst heq
    rw [suffix_unique h.nodup hds hcs]

/-- A release on a mark that is inside an owned chunk. -/
theorem release_invariant (h : Invariant s client) {m c : Nat} {live : List (Nat × Nat)}
    {marks : List (Nat × List (Nat × Nat))} {cs : List Nat}
    (hmarks : MarksOk s.size ((m, live) :: marks) s.chunks) (hcs : c :: cs <:+ s.chunks)
    (hin : s.Inside m c) :
    Invariant { s with chunks := c :: cs, top := m } ⟨live, (m, live) :: marks⟩ := by
  obtain ⟨ds, hds, hat, hrest⟩ := hmarks
  obtain ⟨hlow, hhigh⟩ := hin
  have hmark : LiveAt s.size m live (c :: cs) ∧ MarksOk s.size marks (c :: cs) := by
    rcases chunks_of_inside h hat hds hcs ⟨hlow, hhigh⟩ with rfl | rfl
    · -- the mark was taken when there was no chunk
      have hlive := hat.nil rfl
      subst hlive
      refine ⟨⟨fun hnil => (by cases hnil), fun c' ds' hcs' => ?_, List.Pairwise.nil⟩,
        hrest.mono (nil_suffix)⟩
      obtain ⟨rfl, rfl⟩ := List.cons.inj hcs'
      exact ⟨hlow, hhigh.le, by simp⟩
    · exact ⟨hat, hrest⟩
  exact ⟨h.spaced.sublist hcs.sublist, hmark.1, c :: cs, suffix_refl _, hmark.1, hmark.2⟩

/-! ## Runs -/

/-- A call keeps the invariant, or its result is not safe. -/
theorem step_spec (h : Invariant s client) {op : Op} (hop : Contract (s, client) op) :
    (Sound (s, client) op →
      ∃ st, step (s, client) op = some st ∧ Invariant st.1 st.2) ∧
    (¬ Sound (s, client) op → ∀ st, step (s, client) op = some st → ¬ Safe st.1 st.2) := by
  cases op with
  | allocate n c =>
    obtain ⟨r, t, halloc, hgood, hbad⟩ := allocate_spec h hop
    have hstep : step (s, client) (.allocate n c) =
        some (t, { client with live := (r, n) :: client.live }) := by simp [step, halloc]
    refine ⟨fun hsound => ⟨_, hstep, hgood hsound⟩, fun hnot st hst hsafe => ?_⟩
    obtain rfl := some.inj (hstep.symm.trans hst)
    exact hbad hnot (hsafe.owned (r, n) (by simp))
  | mark =>
    refine ⟨fun _ => ⟨_, rfl, h.spaced, h.liveAt, s.chunks, suffix_refl _, h.liveAt, h.marksOk⟩,
      fun hnot => absurd trivial hnot⟩
  | release k =>
    have hlt : k < client.marks.length := hop
    have hdrop := drop_eq_getElem_cons hlt
    have hmarks := h.marksOk.drop k
    obtain ⟨m, live, hm⟩ : ∃ m live, client.marks[k] = (m, live) := ⟨_, _, rfl⟩
    rw [hdrop, hm] at hmarks
    have hget : client.marks[k]? = some (m, live) := by rw [getElem?_eq_getElem hlt, hm]
    have hstep : step (s, client) (.release k) =
        (s.release m).map fun t => (t, ⟨live, (m, live) :: client.marks.drop (k + 1)⟩) := by
      simp only [step, hdrop, hm]
    rcases releaseFrom_spec s m s.chunks with ⟨c, cs, hrel, hcs, hin⟩ | ⟨hrel, hall⟩
    · rw [hstep, release, hrel]
      refine ⟨fun _ => ⟨_, rfl, release_invariant h hmarks hcs hin⟩, fun hnot => ?_⟩
      refine absurd ?_ hnot
      intro m' hm'
      obtain rfl := some.inj (hget.symm.trans hm')
      exact ⟨c, hcs.subset (by simp), hin⟩
    · rw [hstep, release, hrel]
      refine ⟨fun hsound => ?_, fun _ st hst => by cases hst⟩
      obtain ⟨c, hc, hin⟩ := hsound (m, live) hget
      exact absurd hin (hall c hc)
  | clear =>
    refine ⟨fun _ => ⟨_, rfl, List.Pairwise.nil, ⟨fun _ => rfl, ?_, List.Pairwise.nil⟩, trivial⟩,
      fun hnot => absurd trivial hnot⟩
    intro c ds hcs
    cases hcs

/-- In every run whose calls meet their contract and none of the defects, the live blocks lie in owned
chunks and do not overlap; the next call keeps this if and only if it does not meet a defect. -/
theorem stackAllocator_run (size : Nat) (s₀ : StackAllocator) (ops : List Op)
    (hnew : new size = some s₀)
    (hops : Run.Meets (fun st op => Contract st op ∧ Sound st op) step (s₀, ⟨[], []⟩) ops) :
    ∃ s client, Run.exec step (s₀, ⟨[], []⟩) ops = some (s, client) ∧ Safe s client ∧
      ∀ op, Contract (s, client) op →
        (Sound (s, client) op ↔ ∃ st, step (s, client) op = some st ∧ Safe st.1 st.2) := by
  obtain ⟨⟨s, client⟩, hexec, hinv⟩ := Run.exists_exec_of_meets
    (fun st : StackAllocator × Client => Invariant st.1 st.2)
    (fun _ _ hst hop => (step_spec hst hop.1).1 hop.2) ops _ (invariant_of_new hnew) hops
  refine ⟨s, client, hexec, hinv.safe, fun op hop => ?_⟩
  obtain ⟨hgood, hbad⟩ := step_spec hinv hop
  constructor
  · intro hsound
    obtain ⟨st, hstep, hinv'⟩ := hgood hsound
    exact ⟨st, hstep, hinv'.safe⟩
  · rintro ⟨st, hstep, hsafe⟩
    by_contra hnot
    exact hbad hnot st hstep hsafe

/-- Chunks of 16 bytes: a block of 8 bytes, a mark, one more byte and the release. -/
theorem stackAllocator_run_mark :
    ∃ s client, Run.exec step (⟨[], 0, 0, 16⟩, ⟨[], []⟩)
        [.allocate 8 24, .mark, .allocate 1 80, .release 0] = some (s, client) ∧ Safe s client ∧
      ∀ op, Contract (s, client) op →
        (Sound (s, client) op ↔ ∃ st, step (s, client) op = some st ∧ Safe st.1 st.2) := by
  refine stackAllocator_run 16 _ _ rfl ?_
  refine Run.meets_cons ?_ (show _ = some (⟨[24], 40, 32, 16⟩, ⟨[(24, 8)], []⟩) from rfl) ?_
  · exact ⟨⟨by decide, by simp⟩, by simp [Sound]⟩
  refine Run.meets_cons ⟨trivial, trivial⟩ rfl ?_
  refine Run.meets_cons ?_
    (show _ = some (⟨[24], 40, 33, 16⟩, ⟨[(32, 1), (24, 8)], [(32, [(24, 8)])]⟩) from rfl) ?_
  · exact ⟨⟨by decide, by simp [Spaced, sizeofChunk]⟩, by simp [Sound]⟩
  refine Run.meets_cons ⟨Nat.zero_lt_one, ?_⟩ rfl trivial
  simp [Sound, Inside]

/-- Chunks of 16 bytes: after the release the limit is the one of the second chunk, so that the last
block goes over the end of the first one. -/
theorem not_stackAllocator_run :
    ¬ ∀ (size : Nat) (s₀ : StackAllocator) (ops : List Op), new size = some s₀ →
      Run.Meets Contract step (s₀, ⟨[], []⟩) ops →
      ∃ s client, Run.exec step (s₀, ⟨[], []⟩) ops = some (s, client) ∧ Safe s client := by
  intro h
  obtain ⟨s, client, hexec, hsafe⟩ := h 16 ⟨[], 0, 0, 16⟩
    [.allocate 8 24, .mark, .allocate 16 80, .release 0, .allocate 16 80] rfl (by
      refine Run.meets_cons ⟨by decide, by simp⟩
        (show _ = some (⟨[24], 40, 32, 16⟩, ⟨[(24, 8)], []⟩) from rfl) ?_
      refine Run.meets_cons trivial rfl ?_
      refine Run.meets_cons ⟨by decide, by simp [Spaced, sizeofChunk]⟩
        (show _ = some (⟨[80, 24], 96, 96, 16⟩, ⟨[(80, 16), (24, 8)], [(32, [(24, 8)])]⟩) from rfl) ?_
      refine Run.meets_cons Nat.zero_lt_one
        (show _ = some (⟨[24], 96, 32, 16⟩, ⟨[(24, 8)], [(32, [(24, 8)])]⟩) from rfl) ?_
      exact Run.meets_cons ⟨by decide, by simp [Spaced, sizeofChunk]⟩ rfl trivial)
  have hlast : (⟨⟨[24], 96, 48, 16⟩, ⟨[(32, 16), (24, 8)], [(32, [(24, 8)])]⟩⟩ :
      StackAllocator × Client) = (s, client) := some.inj hexec
  obtain ⟨rfl, rfl⟩ := Prod.mk.inj hlast
  obtain ⟨c, hc, hin⟩ := hsafe.owned (32, 16) (by simp)
  obtain rfl := mem_singleton.mp hc
  simp at hin

end Elm.Alloc.StackAllocator
