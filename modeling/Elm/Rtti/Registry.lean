import Elm.Data.HashMap
import Elm.Data.HashSet

/-!
# The table of the types

`Type::get` finds a type by its name in `type_map`, the map of `src/rtti.cpp`.  The types are static objects of any
compilation units, some of them built before the map: `Initializer`, of `include/elm/util/Initializer.h`, keeps
them until the first lookup.  Whatever the order of the constructions and of the lookups is, each type is put in
the map once, and a name leads to the last type that was put there under it.
-/

/-! ## `Initializer` -/

namespace Elm.Util

open List Option

/-- `Initializer<T>`: the objects of `list`, the last one first, and `initialized`. -/
structure Initializer (T : Type*) where
  list : List T
  initialized : Bool

namespace Initializer

variable {σ T : Type*} (init : σ → T → Option σ)

/-- `record`; `init` is the `initialize` of the objects, which changes the data that they share. -/
def record (s : Initializer T × σ) (object : T) : Option (Initializer T × σ) :=
  if s.1.initialized then (init s.2 object).map fun shared => (s.1, shared)
  else some ({ s.1 with list := object :: s.1.list }, s.2)

/-- `startup`. -/
def startup (s : Initializer T × σ) : Option (Initializer T × σ) :=
  if s.1.initialized then some s
  else (s.1.list.foldlM init s.2).map fun shared => (⟨[], true⟩, shared)

end Initializer

end Elm.Util

/-! ## Strings as keys -/

open Option

namespace Elm.Data.HashMap

open HashTable List

/-- A turn of the loop of `hash_string`; a `char` has a sign. -/
def hashTurn (h : BitVec 64) (c : UInt8) : BitVec 64 :=
  let h := (h <<< 4) + c.toBitVec.signExtend 64
  let g := h &&& 0xf0000000
  if g ≠ 0 then (h ^^^ (g >>> 24)) ^^^ g else h

/-- `hash_string`. -/
def hashString (chars : List UInt8) : BitVec 64 := chars.foldl hashTurn 0

/-- `HashKey<String>`. -/
def stringHashKey : Manager (List UInt8) := ⟨fun key => (hashString key).toNat, fun key1 key2 => key1 = key2⟩

theorem lawful_stringHashKey : stringHashKey.Lawful where
  equivalence := ⟨by simp [stringHashKey], by simp [stringHashKey], by simp [stringHashKey]⟩
  hash_eq key1 key2 h := congrArg _ (of_decide_eq_true h)

variable {A K V : Type*} [DecidableEq A] (H : Manager K)

/-- `put`. -/
def put (t : HashTable A (K × V)) (key : K) (val : V) (fresh : A) : Option (HashTable A (K × V)) :=
  HashTable.put (assocHashKey H) t (key, val) fresh

/-- `get` with a default; the key is looked for with the default value `null` of the values. -/
def get (t : HashTable A (K × V)) (null : V) (k : K) (dflt : V) : Option (V × HashTable A (K × V)) :=
  (HashTable.get (assocHashKey H) t (k, null)).map fun r => ((r.1.map Prod.snd).getD dflt, r.2)

end Elm.Data.HashMap

open Option

namespace Elm.Rtti

open Elm.Data Elm.Util HashTable List

/-! ## `Type` -/

section Model

/-- A map of type names to pointers to types. -/
abbrev TypeMap (A T : Type*) := HashTable A (List UInt8 × Option T)

variable {A T : Type*} [DecidableEq A] (alloc : TypeMap A T → A) (name : T → List UInt8)

/-- `Type::initialize`. -/
def initializeType (map : TypeMap A T) (t : T) : Option (TypeMap A T) :=
  if name t ≠ [] then HashMap.put HashMap.stringHashKey map (name t) (some t) (alloc map) else some map

/-- `Type::Type`. -/
def construct (s : Initializer T × TypeMap A T) (t : T) : Option (Initializer T × TypeMap A T) :=
  Initializer.record (initializeType alloc name) s t

/-- `Type::get`: the type, if any, and the state. -/
def getType (s : Initializer T × TypeMap A T) (n : List UInt8) : Option (Option T × Initializer T × TypeMap A T) :=
  (Initializer.startup (initializeType alloc name) s).bind fun s =>
    (HashMap.get HashMap.stringHashKey s.2 none n none).map fun r => (r.1, s.1, r.2)

/-- What a program does with the types. -/
inductive Call (T : Type*)
  | construct (t : T)
  | get (n : List UInt8)

/-- One call. -/
def step (s : Initializer T × TypeMap A T) : Call T → Option (Initializer T × TypeMap A T)
  | .construct t => construct alloc name s t
  | .get n => (getType alloc name s n).map Prod.snd

/-- Before the first call. -/
def start (size : Nat) (hsize : 0 < size) : Initializer T × TypeMap A T := (⟨[], false⟩, .new size hsize)

end Model

/-! ## The order of the types -/

section Order

variable {T : Type*}

/-- The types that are built. -/
def constructed (calls : List (Call T)) : List T :=
  calls.filterMap fun
    | .construct t => some t
    | .get _ => none

/-- Whether there has been a lookup, and the types in the order in which they are put in the map. -/
def note (s : Bool × List T) : Call T → Bool × List T
  | .construct t => (s.1, if s.1 then s.2 ++ [t] else t :: s.2)
  | .get _ => (true, s.2)

/-- The types in the order of the calls of `put`: those that are built before the first lookup come backwards. -/
def order (calls : List (Call T)) : List T := (calls.foldl note (false, [])).2

theorem foldl_note_perm (calls : List (Call T)) (s : Bool × List T) :
    (calls.foldl note s).2.Perm (s.2 ++ constructed calls) := by
  induction calls generalizing s with
  | nil => simp [constructed]
  | cons call calls ih =>
    refine (ih (note s call)).trans ?_
    cases call with
    | get n => exact Perm.refl _
    | construct t =>
      show ((if s.1 then s.2 ++ [t] else t :: s.2) ++ constructed calls).Perm (s.2 ++ t :: constructed calls)
      split_ifs
      · rw [append_assoc, singleton_append]
      · exact perm_middle.symm

theorem order_perm (calls : List (Call T)) : (order calls).Perm (constructed calls) := foldl_note_perm calls (false, [])

variable (name : T → List UInt8)

/-- The last type of this name; the empty name leads to no type. -/
def lastNamed (ts : List T) (n : List UInt8) : Option T := ts.reverse.find? fun t => name t = n ∧ n ≠ []

theorem lastNamed_append (ts : List T) (t : T) (n : List UInt8) :
    lastNamed name (ts ++ [t]) n = if name t = n ∧ n ≠ [] then some t else lastNamed name ts n := by
  rw [lastNamed, reverse_append, reverse_singleton, singleton_append, find?_cons]
  split_ifs with h
  · rw [decide_eq_true h]
  · rw [decide_eq_false h]
    rfl

/-- Types that have a name have different ones. -/
def Distinct (ts : List T) : Prop := ∀ t ∈ ts, ∀ u ∈ ts, name u = name t → name t ≠ [] → u = t

/-- With different names, the order of the types does not matter. -/
theorem lastNamed_iff {ts : List T} (hdistinct : Distinct name ts) (n : List UInt8) (t : T) :
    lastNamed name ts n = some t ↔ t ∈ ts ∧ name t = n ∧ n ≠ [] := by
  have hfound : ∀ {n : List UInt8} {u : T}, lastNamed name ts n = some u → u ∈ ts ∧ name u = n ∧ n ≠ [] := by
    intro n u h
    have htest : decide (name u = n ∧ n ≠ []) = true := by
      unfold lastNamed at h
      exact find?_some (p := fun t => decide (name t = n ∧ n ≠ [])) h
    exact ⟨mem_reverse.mp (mem_of_find?_eq_some h), of_decide_eq_true htest⟩
  constructor
  · exact hfound
  · rintro ⟨hmem, rfl, hne⟩
    cases hfind : lastNamed name ts (name t) with
    | none =>
      have hall := find?_eq_none.mp hfind t (mem_reverse.mpr hmem)
      exact absurd (decide_eq_true ⟨rfl, hne⟩) hall
    | some u =>
      obtain ⟨hu, hname, -⟩ := hfound hfind
      rw [hdistinct t hmem u hu hname hne]

end Order

/-! ## Runs -/

variable {A T : Type*} [DecidableEq A] {alloc : TypeMap A T → A} {name : T → List UInt8}

/-- The map of these types. -/
def entries (name : T → List UInt8) (ts : List T) : KeyMap (List UInt8 × Option T) :=
  fun key => (lastNamed name ts key.1).map fun t => (key.1, some t)

/-- The map holds the types. -/
def Holds (name : T → List UInt8) (map : TypeMap A T) (ts : List T) : Prop :=
  HashTable.Refines (HashMap.assocHashKey HashMap.stringHashKey) map (entries name ts)

theorem lawful : (HashMap.assocHashKey HashMap.stringHashKey : Manager (List UInt8 × Option T)).Lawful :=
  HashMap.lawful_assocHashKey HashMap.lawful_stringHashKey

theorem initializeType_holds (halloc : ∀ map, alloc map ∉ map.nodes) {map : TypeMap A T} {ts : List T}
    (h : Holds name map ts) (t : T) :
    ∃ map', initializeType alloc name map t = some map' ∧ Holds name map' (ts ++ [t]) := by
  unfold initializeType
  split_ifs with hne
  · obtain ⟨map', hput, -, hrefines⟩ := HashTable.put_refines lawful h (name t, some t) (halloc map)
    refine ⟨map', hput, ?_⟩
    have heq : entries name (ts ++ [t]) = (entries name ts).apply (HashMap.assocHashKey HashMap.stringHashKey)
        (.put (name t, some t)) := by
      funext key
      have hequal : (HashMap.assocHashKey HashMap.stringHashKey).isEqual (name t, some t) key =
          decide (name t = key.1) := rfl
      show _ = if (HashMap.assocHashKey HashMap.stringHashKey).isEqual (name t, some t) key then _ else _
      rw [entries, lastNamed_append, hequal]
      by_cases hkey : name t = key.1
      · rw [if_pos ⟨hkey, hkey ▸ hne⟩, if_pos (decide_eq_true hkey), map_some, hkey]
      · rw [if_neg fun h => hkey h.1, if_neg (by simpa using hkey)]
        rfl
    rw [Holds, heq]
    exact hrefines
  · refine ⟨map, rfl, ?_⟩
    have heq : entries name (ts ++ [t]) = entries name ts := by
      funext key
      have hkey : ¬ (name t = key.1 ∧ key.1 ≠ []) := fun hkey => hne (hkey.1 ▸ hkey.2)
      rw [entries, lastNamed_append, if_neg hkey]
      rfl
    rw [Holds, heq]
    exact h

theorem foldlM_holds (halloc : ∀ map, alloc map ∉ map.nodes) : ∀ (ts' : List T) {map : TypeMap A T} {ts : List T},
    Holds name map ts → ∃ map', ts'.foldlM (initializeType alloc name) map = some map' ∧ Holds name map' (ts ++ ts') := by
  intro ts'
  induction ts' with
  | nil => exact fun {map ts} h => ⟨map, rfl, by rwa [append_nil]⟩
  | cons t ts' ih =>
    intro map ts h
    obtain ⟨map₁, hinit, h₁⟩ := initializeType_holds halloc h t
    obtain ⟨map', hfold, h'⟩ := ih h₁
    refine ⟨map', ?_, by rwa [append_assoc] at h'⟩
    rw [foldlM_cons, hinit]
    exact hfold

/-- The map is the one after a `put` of each type noted; before the first lookup, these are in the list of the
initializer and the map is empty. -/
def Good (name : T → List UInt8) (noted : Bool × List T) (s : Initializer T × TypeMap A T) : Prop :=
  s.1.initialized = noted.1 ∧ if noted.1 then Holds name s.2 noted.2 else s.1.list = noted.2 ∧ Holds name s.2 []

/-- A lookup finds the last type of its name. -/
theorem getType_good (halloc : ∀ map, alloc map ∉ map.nodes) {noted : Bool × List T} {s : Initializer T × TypeMap A T}
    (h : Good name noted s) (n : List UInt8) :
    ∃ s', getType alloc name s n = some (lastNamed name noted.2 n, s') ∧ Good name (true, noted.2) s' := by
  -- after `startup`, the types are in the map
  have hstart : ∃ s₁, Initializer.startup (initializeType alloc name) s = some s₁ ∧ s₁.1.initialized = true ∧
      Holds name s₁.2 noted.2 := by
    obtain ⟨hinit, hrest⟩ := h
    unfold Initializer.startup
    cases hnoted : noted.1 with
    | true =>
      rw [hnoted] at hinit
      rw [hnoted, if_pos rfl] at hrest
      exact ⟨s, if_pos hinit, hinit, hrest⟩
    | false =>
      rw [hnoted] at hinit
      rw [hnoted, if_neg Bool.false_ne_true] at hrest
      obtain ⟨map', hfold, hholds⟩ := foldlM_holds halloc s.1.list hrest.2
      rw [nil_append, hrest.1] at hholds
      exact ⟨(⟨[], true⟩, map'), by rw [if_neg (by simp [hinit]), hfold, map_some], rfl, hholds⟩
  obtain ⟨s₁, hstartup, hinit₁, hholds⟩ := hstart
  obtain ⟨map', hget, -, hholds'⟩ := HashTable.get_refines lawful hholds (n, none)
  refine ⟨(s₁.1, map'), ?_, hinit₁, by rwa [if_pos rfl]⟩
  rw [getType, hstartup, bind_some, HashMap.get, hget, map_some, map_some, entries]
  cases lastNamed name noted.2 n <;> rfl

theorem step_good (halloc : ∀ map, alloc map ∉ map.nodes) {noted : Bool × List T} {s : Initializer T × TypeMap A T}
    (h : Good name noted s) (call : Call T) : ∃ s', step alloc name s call = some s' ∧ Good name (note noted call) s' := by
  cases call with
  | get n =>
    obtain ⟨s', hget, hgood⟩ := getType_good halloc h n
    exact ⟨s', by rw [step, hget, map_some], hgood⟩
  | construct t =>
    obtain ⟨hinit, hrest⟩ := h
    rw [step, construct, Initializer.record]
    cases hnoted : noted.1 with
    | true =>
      rw [hnoted] at hinit
      rw [hnoted, if_pos rfl] at hrest
      obtain ⟨map', hmap, hholds⟩ := initializeType_holds halloc hrest t
      refine ⟨(s.1, map'), by rw [if_pos hinit, hmap, map_some], ?_⟩
      simpa [Good, note, hnoted, hinit] using hholds
    | false =>
      rw [hnoted] at hinit
      rw [hnoted, if_neg Bool.false_ne_true] at hrest
      refine ⟨_, if_neg (by simp [hinit]), ?_⟩
      simpa [Good, note, hnoted, hinit, hrest.1] using hrest.2

theorem run_good (halloc : ∀ map, alloc map ∉ map.nodes) (calls : List (Call T)) :
    ∀ {noted : Bool × List T} {s : Initializer T × TypeMap A T}, Good name noted s →
      ∃ s', Run.exec (step alloc name) s calls = some s' ∧ Good name (calls.foldl note noted) s' := by
  induction calls with
  | nil => exact fun {noted s} h => ⟨s, rfl, h⟩
  | cons call calls ih =>
    intro noted s h
    obtain ⟨s₁, hstep, h₁⟩ := step_good halloc h call
    obtain ⟨s', hexec, h'⟩ := ih h₁
    exact ⟨s', Run.exec_cons_eq_some.mpr ⟨s₁, hstep, hexec⟩, h'⟩

/-- Whatever the order of the constructions and of the lookups is, each type is put in the map once, and a lookup
answers the last one of its name there: the only one of this name that has been built, if there are not several. -/
theorem getType_answers (halloc : ∀ map, alloc map ∉ map.nodes) (size : Nat) (hsize : 0 < size)
    (calls : List (Call T)) (n : List UInt8) :
    (order calls).Perm (constructed calls) ∧
      ∃ s s' found, Run.exec (step alloc name) (start size hsize) calls = some s ∧
        getType alloc name s n = some (found, s') ∧ found = lastNamed name (order calls) n ∧
        (Distinct name (constructed calls) →
          ∀ t, found = some t ↔ t ∈ constructed calls ∧ name t = n ∧ n ≠ []) := by
  have hstart : Good name (false, []) (start size hsize : Initializer T × TypeMap A T) :=
    ⟨rfl, rfl, HashTable.refines_new _ size hsize⟩
  obtain ⟨s, hexec, hgood⟩ := run_good halloc calls hstart
  obtain ⟨s', hget, -⟩ := getType_good halloc hgood n
  have hperm := order_perm calls
  refine ⟨hperm, s, s', _, hexec, hget, rfl, fun hdistinct t => ?_⟩
  have hsame : Distinct name (order calls) := fun t ht u hu =>
    hdistinct t (hperm.mem_iff.mp ht) u (hperm.mem_iff.mp hu)
  rw [← hperm.mem_iff]
  exact lastNamed_iff name hsame n t

/-- The names of three types, one of which has none. -/
def names : Nat → List UInt8
  | 0 => [97]
  | 1 => []
  | _ => [98]

/-- Two types are built before the first lookup, and one after it. -/
def threeTypes : List (Call Nat) := [.construct 0, .construct 1, .get [98], .construct 2]

theorem getType_answers_threeTypes :
    (order threeTypes).Perm (constructed threeTypes) ∧
      ∃ s s' found, Run.exec (step unusedAddress names) (start 211 (by decide)) threeTypes = some s ∧
        getType unusedAddress names s [98] = some (found, s') ∧ found = lastNamed names (order threeTypes) [98] ∧
        (Distinct names (constructed threeTypes) →
          ∀ t, found = some t ↔ t ∈ constructed threeTypes ∧ names t = [98] ∧ ([98] : List UInt8) ≠ []) :=
  getType_answers unusedAddress_not_mem 211 (by decide) threeTypes [98]

end Elm.Rtti
