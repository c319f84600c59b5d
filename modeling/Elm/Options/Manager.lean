import Elm.Lib.Loop
import Mathlib.Tactic

/-!
# `option::Manager`

The parse of a command line in `src/option_Manager.cpp`.  The options and the free arguments are processed by
virtual methods: they work on a state of type `σ`, and they raise no other exception than an `OptionException`,
which is given by its message.  The state of `parse` also has the list of the events, which says what has been
done with each index of `argv`.
-/

namespace Elm.Options

/-- The characters of a C string. -/
abbrev Word := List Char

/-- `usage_t`. -/
inductive Usage
  | argNone
  | argOptional
  | argRequired
  deriving DecidableEq, Repr

/-- `SwitchOption`s of the manager, and the state of the application. -/
structure App (σ : Type) where
  helpVal : Bool
  versionVal : Bool
  user : σ

/-- `Option`: the commands of its maker, and its virtual methods. -/
structure Opt (σ : Type) where
  cmds : List Word
  usage : Usage
  process : Word → App σ → Except Word (App σ)

variable {σ : Type}

/-- An option of the application does not see the switches of the manager. -/
def Opt.user (cmds : List Word) (usage : Usage) (process : Word → σ → Except Word σ) : Opt σ :=
  ⟨cmds, usage, fun arg app => (process arg app.user).map fun user => { app with user := user }⟩

/-- The switch for `-h` and `--help`. -/
def helpSwitch : Opt σ :=
  ⟨["-h".toList, "--help".toList], .argNone, fun _ app => .ok { app with helpVal := true }⟩

/-- The switch for `--version`. -/
def versionSwitch : Opt σ := ⟨["--version".toList], .argNone, fun _ app => .ok { app with versionVal := true }⟩

/-- The fields of `Manager` that `parse` reads; `process` is the method for the free arguments. -/
structure Manager (σ : Type) where
  cmds : List (Word × Opt σ)
  shorts : List (Char × Opt σ)
  hasHelp : Bool
  hasVersion : Bool
  process : Word → σ → Except Word σ

/-! ## Building the manager -/

/-- `addShort`. -/
def Manager.addShort (m : Manager σ) (cmd : Char) (option : Opt σ) : Option (Manager σ) :=
  let str := ['-', cmd]
  -- `ASSERTP(!cmds.hasKey(str), ...)`
  if (m.cmds.lookup str).isSome then none
  else some { m with cmds := m.cmds ++ [(str, option)], shorts := m.shorts ++ [(cmd, option)] }

/-- `addCommand`. -/
def Manager.addCommand (m : Manager σ) (cmd : Word) (option : Opt σ) : Option (Manager σ) :=
  if (m.cmds.lookup cmd).isSome then none
  else some { m with cmds := m.cmds ++ [(cmd, option)] }

/-- The body of the loop of `Option::Option(make)`. -/
def Manager.addCmd (m : Manager σ) (option : Opt σ) (cmd : Word) : Option (Manager σ) :=
  match cmd with
  | ['-', c] => m.addShort c option
  | _ => m.addCommand cmd option

/-- `Option::Option(make)`. -/
def Manager.addOption (m : Manager σ) (option : Opt σ) : Option (Manager σ) :=
  option.cmds.foldlM (fun m cmd => m.addCmd option cmd) m

/-- `Manager::Make` with its switches. -/
structure Make where
  help : Bool
  version : Bool

/-- The options that `Manager(maker)` builds, and those of the application after them. -/
def Make.options (make : Make) (options : List (Opt σ)) : List (Opt σ) :=
  (if make.help then [helpSwitch] else []) ++ (if make.version then [versionSwitch] else []) ++ options

/-- A manager with these options. -/
def Manager.new (make : Make) (options : List (Opt σ)) (process : Word → σ → Except Word σ) : Option (Manager σ) :=
  (make.options options).foldlM (fun m option => m.addOption option) ⟨[], [], make.help, make.version, process⟩

/-! ## Parsing -/

/-- Where the argument of an option comes from. -/
inductive Argument
  | missing
  | equal (earg : Word)
  | next (i : Nat)

/-- What is done with an index of `argv`: it is a word that gives options, or a free argument; each option of a
word is processed with its argument. -/
inductive Event (σ : Type)
  | word (i : Nat)
  | option (option : Opt σ) (argument : Argument)
  | free (i : Nat)

/-- The state of `parse`. -/
structure Parse (σ : Type) where
  i : Nat
  app : App σ
  frees : List Word
  log : List (Event σ)

/-- The ways to leave `parse` before its end: `throw OptionException(...)`, and `System::exit(1)` once the help or
the version has been displayed. -/
inductive Stop (σ : Type)
  | exception (message : Word)
  | exit (s : Parse σ)

variable (m : Manager σ) (argv : List Word)

/-- `argv[i + 1]`, when it can be an argument: `i + 1 < argc && argv[i + 1][0] != '-'`. -/
def nextArgument (i : Nat) : Option Word := (argv[i + 1]?).filter fun arg => arg.head? ≠ some '-'

/-- The message on the argument of an option. -/
def argumentMessage (i : Nat) (text : String) : Word :=
  "option \"".toList ++ (argv[i]?).getD [] ++ text.toList

/-- The argument that `processOption` finds, and the index after it has been found. -/
def findArgument (option : Opt σ) (i : Nat) (earg : Option Word) : Except (Stop σ) (Word × Argument × Nat) :=
  match option.usage, earg with
  | .argNone, none => .ok ([], .missing, i)
  | .argNone, some _ => .error (.exception (argumentMessage argv i "\" requires no argument."))
  | .argOptional, some earg => .ok (earg, .equal earg, i)
  | .argOptional, none =>
    match nextArgument argv i with
    | some arg => .ok (arg, .next (i + 1), i + 1)
    | none => .ok ([], .missing, i)
  | .argRequired, some earg => .ok (earg, .equal earg, i)
  | .argRequired, none =>
    match nextArgument argv i with
    | some arg => .ok (arg, .next (i + 1), i + 1)
    | none => .error (.exception (argumentMessage argv i "\" requires an argument."))

/-- `processOption`. -/
def processOption (option : Opt σ) (earg : Option Word) (s : Parse σ) : Except (Stop σ) (Parse σ) := do
  let (arg, argument, i) ← findArgument argv option s.i earg
  match option.process arg s.app with
  | .error message => .error (.exception message)
  | .ok app =>
    let s' := { s with i := i, app := app, log := s.log ++ [.option option argument] }
    if (m.hasHelp ∧ app.helpVal) ∨ (m.hasVersion ∧ app.versionVal) then .error (.exit s') else .ok s'

/-- The loop over the characters of aggregated short commands. -/
def processShorts (arg : Word) (s : Parse σ) : List Char → Except (Stop σ) (Parse σ)
  | [] => .ok s
  | c :: rest =>
    match m.shorts.lookup c with
    | none => .error (.exception ("option '".toList ++ [c] ++ "' in ".toList ++ arg ++ " unknown !".toList))
    | some option => do
      let s' ← processOption m argv option none s
      processShorts arg s' rest

/-- The search for a command, with the text after `=` when the part before it has been looked for. -/
def findCommand (arg : Word) : Option (Opt σ) × Option Word :=
  match m.cmds.lookup arg with
  | some option => (some option, none)
  | none =>
    let p := arg.idxOf '='
    if p < arg.length then (m.cmds.lookup (arg.take p), some (arg.drop (p + 1))) else (none, none)

/-- A word that is not a command. -/
def parseOther (arg : Word) (s : Parse σ) : Except (Stop σ) (Parse σ) :=
  let unknown := .error (.exception ("option \"".toList ++ arg ++ "\" is unknown.".toList))
  match arg with
  | [] => unknown
  | '-' :: [] => unknown
  | '-' :: '-' :: _ => unknown
  | '-' :: rest => processShorts m argv arg { s with log := s.log ++ [.word s.i] } rest
  | _ =>
    match m.process arg s.app.user with
    | .error message => .error (.exception message)
    | .ok user =>
      .ok { s with
        app := { s.app with user := user }, frees := s.frees ++ [arg], log := s.log ++ [.free s.i] }

/-- The body of the loop of `parse`. -/
def parseWord (arg : Word) (s : Parse σ) : Except (Stop σ) (Parse σ) :=
  match findCommand m arg with
  | (some option, earg) => processOption m argv option earg { s with log := s.log ++ [.word s.i] }
  | (none, _) => parseOther m argv arg s

/-- One turn of the loop of `parse`. -/
def parseTurn (s : Parse σ) : Parse σ ⊕ Except (Stop σ) (Parse σ) :=
  match argv[s.i]? with
  | none => .inr (.ok s)
  | some arg =>
    match parseWord m argv arg s with
    | .ok s' => .inl { s' with i := s'.i + 1 }
    | .error stop => .inr (.error stop)

/-- `parse`: no result when the assertion on `argc` fails or the loop does not end. -/
def parse (app : App σ) : Option (Except (Stop σ) (Parse σ)) :=
  if argv = [] then none else Loop.run (parseTurn m argv) (argv.length + 1) ⟨1, app, [], []⟩

/-! ## What a parse has done -/

/-- The indices that an event consumes. -/
def Event.indices : Event σ → List Nat
  | .word i => [i]
  | .option _ (.next i) => [i]
  | .option _ _ => []
  | .free i => [i]

/-- The text of an argument. -/
def Argument.text : Argument → Word
  | .missing => []
  | .equal earg => earg
  | .next i => (argv[i]?).getD []

/-- Process again the options and the free arguments of a log. -/
def replay : List (Event σ) → App σ → Except Word (App σ)
  | [], app => .ok app
  | .word _ :: log, app => replay log app
  | .option option argument :: log, app => (option.process (argument.text argv) app).bind (replay log)
  | .free i :: log, app =>
    (m.process ((argv[i]?).getD []) app.user).bind fun user => replay log { app with user := user }

/-- The options that a word gives: one command, or short commands. -/
def wordOptions (arg : Word) : List (Opt σ) :=
  match findCommand m arg with
  | (some option, _) => [option]
  | (none, _) => arg.tail.filterMap fun c => m.shorts.lookup c

/-- The usage of an option agrees with its argument. -/
def Supplied (option : Opt σ) : Argument → Prop
  | .missing => option.usage ≠ .argRequired
  | .equal _ => option.usage ≠ .argNone
  | .next i => option.usage ≠ .argNone ∧ ∃ arg, argv[i]? = some arg ∧ arg.head? ≠ some '-'

/-- The options of a word are processed in their order, and those that take an index as argument take the first one
that is not yet consumed. -/
inductive Calls : List (Opt σ) → Nat → List (Event σ) → Nat → Prop
  | nil (i : Nat) : Calls [] i [] i
  | here {option : Opt σ} {options : List (Opt σ)} {argument : Argument} {i j : Nat} {log : List (Event σ)}
      (supplied : Supplied argv option argument) (hnext : ∀ k, argument ≠ .next k)
      (rest : Calls options i log j) : Calls (option :: options) i (.option option argument :: log) j
  | next {option : Opt σ} {options : List (Opt σ)} {i j : Nat} {log : List (Event σ)}
      (supplied : Supplied argv option (.next i)) (rest : Calls options (i + 1) log j) :
      Calls (option :: options) i (.option option (.next i) :: log) j

/-- The log of the indices from `i` to `j`: free arguments, and words followed by their options. -/
inductive Reads : Nat → List (Event σ) → Nat → Prop
  | nil (i : Nat) : Reads i [] i
  | free {i j : Nat} {arg : Word} {log : List (Event σ)} (harg : argv[i]? = some arg)
      (hfree : arg ≠ [] ∧ arg.head? ≠ some '-' ∧ (findCommand m arg).1 = none) (rest : Reads (i + 1) log j) :
      Reads i (.free i :: log) j
  | word {i j k : Nat} {arg : Word} {calls log : List (Event σ)} (harg : argv[i]? = some arg)
      (hoptions : wordOptions m arg ≠ []) (options : Calls argv (wordOptions m arg) (i + 1) calls j)
      (rest : Reads j log k) : Reads i (.word i :: (calls ++ log)) k

/-- A parse that has returned: each index from 1 on has been consumed once and in order, and the state is the one
that the logged calls give. -/
structure Consumed (app : App σ) (s : Parse σ) : Prop where
  reads : Reads m argv 1 s.log argv.length
  indices : s.log.flatMap Event.indices = List.range' 1 (argv.length - 1)
  replay : replay m argv s.log app = .ok s.app

/-- The parse has thrown an `OptionException`. -/
def Throws : Except (Stop σ) (Parse σ) → Prop
  | .error (.exception _) => True
  | _ => False

/-- The parse has left the program, after the switch for the help or the version. -/
def Exits : Except (Stop σ) (Parse σ) → Prop
  | .error (.exit s) => (m.hasHelp ∧ s.app.helpVal) ∨ (m.hasVersion ∧ s.app.versionVal)
  | _ => False

/-- The parse has returned, and it has consumed the whole of `argv`. -/
def Returns (app : App σ) : Except (Stop σ) (Parse σ) → Prop
  | .ok s => Consumed m argv app s
  | _ => False

end Elm.Options
