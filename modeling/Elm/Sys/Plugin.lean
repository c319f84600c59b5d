import Elm.Lib.Loop

/-!
# `Plugin` and `Plugger`

The life of the plugins of `src/system_Plugin.cpp` and `src/system_Plugger.cpp`.  The member `state` of a
plugin is its number of users when it is positive; it is negative when the plugin is unused, from -1 on,
and each call of `plug` makes the unused plugins older.  A name is the list of its characters.

The loading of a library is outside of the model: what remains of it is the object `plugin` that the
library gives, which is then plugged with the handle of the library.

The state also keeps the users, which are the calls of `plug` that returned the plugin and that no call
of `unplug` has ended, and the calls of `startup` and `cleanup`, the oldest first, with the number of
users at each one.
-/

namespace Elm.Sys

open Function

/-- `MAX_AGE`. -/
def maxAge : Int := 16

/-- The names of a plugin. -/
structure PluginInfo where
  name : List Char
  aliases : List (List Char)
  hook : List Char

/-- `matches`. -/
def PluginInfo.matches (info : PluginInfo) (name : List Char) : Bool :=
  info.name = name || info.aliases.any (name = ·)

/-- The calls of the virtual functions of a plugin. -/
inductive Event
  | startup
  | cleanup
  deriving DecidableEq

/-- A call of `startup` or `cleanup`, and the number of users of the plugin. -/
structure Call (P : Type) where
  plugin : P
  event : Event
  users : Nat

/-- A `Plugger`. -/
structure Plugger (P : Type) where
  hook : List Char
  plugins : List P

/-- The plugins and the pluggers: `statics` and `unused` are `static_plugins` and `unused_plugins`, and
`handle` tells whether the member `_handle` is set. -/
structure Plugins (P : Type) where
  state : P → Int
  handle : P → Bool
  statics : List P
  unused : List P
  pluggers : List (Plugger P)
  users : P → Nat
  calls : List (Call P)
  result : Option P

namespace Plugins

variable {P : Type} [DecidableEq P]

/-- `pluggers` and static plugins at the start of the program. -/
def new (statics : List P) (hooks : List (List Char)) : Plugins P where
  state _ := 0
  handle _ := false
  statics := statics
  unused := []
  pluggers := hooks.map fun hook => ⟨hook, []⟩
  users _ := 0
  calls := []
  result := none

omit [DecidableEq P] in
/-- A call of `startup` or `cleanup`. -/
def call (s : Plugins P) (p : P) (event : Event) : Plugins P :=
  { s with calls := s.calls ++ [⟨p, event, s.users p⟩] }

/-- The member `state` of a plugin is changed. -/
def setState (s : Plugins P) (p : P) (state : Int) : Plugins P :=
  { s with state := update s.state p state }

/-- `Plugger::leave`. -/
def leave (s : Plugins P) (p : P) : Plugins P :=
  { s with pluggers := s.pluggers.map fun g => { g with plugins := g.plugins.erase p } }

/-- `Plugin::unplug`; what remains of the call of `unlink` is outside of the model. -/
def unplug (s : Plugins P) (p : P) : Option (Plugins P) :=
  if s.state p = 0 then
    none
  else
    let s := s.setState p (s.state p - 1)
    if s.state p = 0 then
      some ({ s with unused := s.unused ++ [p] }.setState p (-1))
    else if s.state p < -maxAge then
      let s := (s.leave p).call p .cleanup
      some { s with unused := s.unused.erase p }
    else
      some s

/-- `Plugin::step`. -/
def age (s : Plugins P) : Option (Plugins P) :=
  (List.range s.unused.length).foldlM
    (fun t k => (t.unused[s.unused.length - 1 - k]?).bind t.unplug) s

/-- `Plugin::plug`. -/
def plugPlugin (s : Plugins P) (p : P) (handle : Bool) : Option (Plugins P) :=
  let s := if handle then { s with statics := s.statics.erase p } else s
  let s :=
    if s.state p > 0 then
      s.setState p (s.state p + 1)
    else if s.state p = 0 then
      let s := (s.call p .startup).setState p 1
      if handle then
        { s with handle := update s.handle p true, statics := s.statics.erase p }
      else
        s
    else
      { s with unused := s.unused.erase p }.setState p 1
  s.age

variable (info : P → PluginInfo)

/-- What `Plugger::plug` finds: a plugin of the plugger, at an index, or a static plugin. -/
def lookup (s : Plugins P) (g : Plugger P) (name : List Char) : Option (Nat ⊕ P) :=
  if name.head? = some '/' then
    none
  else
    match g.plugins.findIdx? fun p => (info p).matches name with
    | some i => some (.inl i)
    | none => (s.statics.find? fun p => (info p).hook = g.hook && (info p).matches name).map .inr

/-- `Plugger::plug` of a plugin. -/
def plugObject (s : Plugins P) (g : Nat) (p : P) (handle : Bool) : Option (P × Plugins P) := do
  let s ← s.plugPlugin p handle
  let plugger ← s.pluggers[g]?
  if p ∈ plugger.plugins then
    return (p, s)
  else
    return (p, { s with pluggers := s.pluggers.set g { plugger with plugins := plugger.plugins ++ [p] } })

/-- `Plugger::plug` of a name, when no file is loaded. -/
def plug (s : Plugins P) (g : Nat) (name : List Char) : Option (Option P × Plugins P) := do
  let plugger ← s.pluggers[g]?
  match s.lookup info plugger name with
  | none => return (none, s)
  | some (.inl i) =>
    let p ← plugger.plugins[i]?
    let s ← s.plugPlugin p false
    let plugger ← s.pluggers[g]?
    -- the plugins that are too old have left the vector of the plugger
    let p ← plugger.plugins[i]?
    return (some p, s)
  | some (.inr p) =>
    let (p, s) ← s.plugObject g p false
    return (some p, s)

/-! ## Runs -/

/-- The calls of the users. -/
inductive Op (P : Type)
  | plug (g : Nat) (name : List Char)
  /-- `plug` of a name or `plugFile`, when the library gives the plugin. -/
  | load (g : Nat) (p : P)
  | unplug (p : P)

/-- The user of the result of `plug`. -/
def returns (s : Plugins P) (result : Option P) : Plugins P :=
  match result with
  | none => { s with result := none }
  | some p => { s with users := update s.users p (s.users p + 1), result := some p }

/-- A call. -/
def step (s : Plugins P) : Op P → Option (Plugins P)
  | .plug g name => (s.plug info g name).map fun r => r.2.returns r.1
  | .load g p => (s.plugObject g p true).map fun r => r.2.returns (some r.1)
  | .unplug p => { s with users := update s.users p (s.users p - 1), result := none }.unplug p

/-- The plugger of a call exists, and a plugin is unplugged by one of its users. -/
def Contract (s : Plugins P) : Op P → Prop
  | .plug g _ => g < s.pluggers.length
  | .load g _ => g < s.pluggers.length
  | .unplug p => 0 < s.users p

omit [DecidableEq P] in
instance (s : Plugins P) : ∀ op : Op P, Decidable (s.Contract op)
  | .plug g _ => inferInstanceAs (Decidable (g < s.pluggers.length))
  | .load g _ => inferInstanceAs (Decidable (g < s.pluggers.length))
  | .unplug p => inferInstanceAs (Decidable (0 < s.users p))

/-- The plugin that is plugged has not been cleaned. -/
def Alive (s : Plugins P) (p : P) : Prop := -maxAge ≤ s.state p

/-- The plugin becomes too old at the next call of `plug`. -/
def TooOld (s : Plugins P) (p : P) : Prop := p ∈ s.unused ∧ s.state p = -maxAge

/-- The plugin that a call plugs. -/
def target (s : Plugins P) : Op P → Option P
  | .plug g name => do
    let plugger ← s.pluggers[g]?
    match ← s.lookup info plugger name with
    | .inl i => plugger.plugins[i]?
    | .inr p => some p
  | .load _ p => some p
  | .unplug _ => none

/-- The plugins in front of the one that a call finds in its plugger. -/
def inFront (s : Plugins P) : Op P → List P
  | .plug g name =>
    match s.pluggers[g]? with
    | none => []
    | some plugger =>
      match s.lookup info plugger name with
      | some (.inl i) => plugger.plugins.take i
      | _ => []
  | _ => []

/-- The plugin that is plugged has not been cleaned, and no plugin in front of it becomes too old. -/
def Sound (s : Plugins P) (op : Op P) : Prop :=
  ∀ p ∈ s.target info op, s.Alive p ∧ ∀ q ∈ s.inFront info op, ¬s.TooOld q

/-- No plugin becomes too old. -/
def Young (s : Plugins P) (op : Op P) : Prop := ∀ p ∈ s.target info op, ∀ q ≠ p, ¬s.TooOld q

/-- The calls of `startup` and `cleanup` of a plugin. -/
def events (s : Plugins P) (p : P) : List Event :=
  (s.calls.filter (·.plugin = p)).map Call.event

/-- The plugin has been started and not cleaned since. -/
def Running (s : Plugins P) (p : P) : Prop := (s.events p).getLast? = some .startup

/-- The calls alternate, from a call of `startup` on. -/
def Alternating (es : List Event) : Prop := ∀ i, ∀ e ∈ es[i]?, e = .startup ↔ i % 2 = 0

/-- What the plugins are expected to do. -/
structure Good (s : Plugins P) : Prop where
  alternate : ∀ p, Alternating (s.events p)
  cleaned : ∀ c ∈ s.calls, c.event = .cleanup → c.users = 0
  used : ∀ p, 0 < s.users p → p ∉ s.unused
  returned : ∀ p ∈ s.result, s.Running p

/-- A plugin with a negative state is unused, exactly once. -/
def NegativeOnce (s : Plugins P) : Prop := ∀ p, s.state p < 0 → s.unused.count p = 1

end Plugins

end Elm.Sys
