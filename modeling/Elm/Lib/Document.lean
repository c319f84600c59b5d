import Mathlib.Tactic

/-!
# Documents and their events

A document is a leaf, an array of documents or an object, whose fields have a name and a document.
It is written or read as a sequence of events.  A `Context` is the part of a document whose events
are known: it takes one event more or refuses it, and a sequence that ends in a whole document is
the one of this document.
-/

/-- Documents with field names in `κ` and leaves in `α`. -/
inductive Document (κ α : Type*) where
  | leaf (x : α)
  | array (items : List (Document κ α))
  | object (fields : List (κ × Document κ α))

namespace Document

open List Option

variable {κ α : Type*}

inductive Event (κ α : Type*) where
  | leaf (x : α)
  | beginArray
  | endArray
  | beginObject
  | endObject
  | field (k : κ)
  deriving DecidableEq

/-! ## The events of a document -/

mutual

def events : Document κ α → List (Event κ α)
  | leaf x => [.leaf x]
  | array items => .beginArray :: (itemsEvents items ++ [.endArray])
  | object fields => .beginObject :: (fieldsEvents fields ++ [.endObject])

def itemsEvents : List (Document κ α) → List (Event κ α)
  | [] => []
  | d :: items => events d ++ itemsEvents items

def fieldsEvents : List (κ × Document κ α) → List (Event κ α)
  | [] => []
  | (k, d) :: fields => .field k :: (events d ++ fieldsEvents fields)

end

theorem itemsEvents_append (items items' : List (Document κ α)) :
    itemsEvents (items ++ items') = itemsEvents items ++ itemsEvents items' := by
  induction items with
  | nil => rfl
  | cons d items ih => rw [cons_append, itemsEvents, itemsEvents, ih, append_assoc]

theorem fieldsEvents_append (fields fields' : List (κ × Document κ α)) :
    fieldsEvents (fields ++ fields') = fieldsEvents fields ++ fieldsEvents fields' := by
  induction fields with
  | nil => rfl
  | cons x fields ih =>
    obtain ⟨k, d⟩ := x
    rw [cons_append, fieldsEvents, fieldsEvents, ih, cons_append, append_assoc]

/-! ## Contexts -/

/-- An array or an object that is not ended: the items or the fields found so far, and the name of a
field whose document is expected. -/
inductive Frame (κ α : Type*) where
  | array (items : List (Document κ α))
  | object (fields : List (κ × Document κ α))
  | field (fields : List (κ × Document κ α)) (k : κ)

/-- What is known of a document: the frames that are open, the innermost first, or all of it. -/
inductive Context (κ α : Type*) where
  | within (frames : List (Frame κ α))
  | done (d : Document κ α)

def Frame.events : Frame κ α → List (Event κ α)
  | array items => .beginArray :: itemsEvents items
  | object fields => .beginObject :: fieldsEvents fields
  | field fields k => .beginObject :: (fieldsEvents fields ++ [.field k])

/-- The events of the frames, from the outermost one. -/
def framesEvents : List (Frame κ α) → List (Event κ α)
  | [] => []
  | f :: frames => framesEvents frames ++ f.events

def Context.events : Context κ α → List (Event κ α)
  | within frames => framesEvents frames
  | done d => d.events

/-- A document ends in these frames. -/
def plug (d : Document κ α) : List (Frame κ α) → Option (Context κ α)
  | [] => some (.done d)
  | .array items :: frames => some (.within (.array (items ++ [d]) :: frames))
  | .field fields k :: frames => some (.within (.object (fields ++ [(k, d)]) :: frames))
  | .object _ :: _ => none

/-- A document may start in these frames. -/
def admits : List (Frame κ α) → Bool
  | .object _ :: _ => false
  | _ => true

/-- One event more. -/
def Context.push : Context κ α → Event κ α → Option (Context κ α)
  | .within frames, .leaf x => plug (.leaf x) frames
  | .within frames, .beginArray => if admits frames then some (.within (.array [] :: frames)) else none
  | .within frames, .beginObject =>
    if admits frames then some (.within (.object [] :: frames)) else none
  | .within (.array items :: frames), .endArray => plug (.array items) frames
  | .within (.object fields :: frames), .endObject => plug (.object fields) frames
  | .within (.object fields :: frames), .field k => some (.within (.field fields k :: frames))
  | _, _ => none

theorem plug_events {d : Document κ α} {frames : List (Frame κ α)} {c : Context κ α}
    (h : plug d frames = some c) : c.events = framesEvents frames ++ d.events := by
  cases frames with
  | nil =>
    obtain rfl := some.inj h
    rfl
  | cons f frames =>
    cases f with
    | array items =>
      obtain rfl := some.inj h
      simp [Context.events, framesEvents, Frame.events, itemsEvents_append, itemsEvents]
    | object fields => cases h
    | field fields k =>
      obtain rfl := some.inj h
      simp [Context.events, framesEvents, Frame.events, fieldsEvents_append, fieldsEvents]

/-- The events of a context are those that it has taken. -/
theorem Context.push_events {c c' : Context κ α} {e : Event κ α} (h : c.push e = some c') :
    c'.events = c.events ++ [e] := by
  unfold Context.push at h
  split at h
  · exact plug_events h
  · split_ifs at h
    obtain rfl := some.inj h
    rfl
  · split_ifs at h
    obtain rfl := some.inj h
    rfl
  · rw [plug_events h]
    simp [Context.events, framesEvents, Frame.events, Document.events]
  · rw [plug_events h]
    simp [Context.events, framesEvents, Frame.events, Document.events]
  · obtain rfl := some.inj h
    simp [Context.events, framesEvents, Frame.events]
  · cases h

/-- All the events of a sequence. -/
def Context.pushAll (c : Context κ α) (es : List (Event κ α)) : Option (Context κ α) :=
  es.foldlM Context.push c

theorem Context.pushAll_events {c c' : Context κ α} {es : List (Event κ α)}
    (h : c.pushAll es = some c') : c'.events = c.events ++ es := by
  induction es generalizing c with
  | nil =>
    obtain rfl := some.inj h
    simp
  | cons e es ih =>
    rw [pushAll, foldlM_cons] at h
    obtain ⟨c₁, hpush, hrest⟩ := bind_eq_some_iff.mp h
    rw [ih hrest, push_events hpush, append_assoc, singleton_append]

/-- A sequence that ends in a whole document is the one of this document. -/
theorem events_of_pushAll {d : Document κ α} {es : List (Event κ α)}
    (h : (Context.within []).pushAll es = some (.done d)) : es = d.events :=
  (Context.pushAll_events h).symm

end Document
