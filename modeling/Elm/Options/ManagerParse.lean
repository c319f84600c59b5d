import Elm.Options.Manager

/-!
# The parse of a command line

Each function of the parser is described by the events that it adds to the log when it returns.
-/

namespace Elm.Options

open List Option

variable {σ : Type}

/-! ## Building the manager -/

theorem lookup_isSome_iff {α β : Type} [BEq α] [LawfulBEq α] (k : α) (xs : List (α × β)) :
    (xs.lookup k).isSome ↔ k ∈ xs.map Prod.fst := by
  induction xs with
  | nil => simp
  | cons x xs ih =>
    obtain ⟨a, b⟩ := x
    rw [lookup_cons]
    by_cases hk : k = a
    · simp [hk]
    · have hbeq : (k == a) = false := by simpa using hk
      simp only [hbeq, map_cons, mem_cons, hk, false_or]
      exact ih

/-- A new command. -/
theorem addCmd_spec (m : Manager σ) (option : Opt σ) (cmd : Word) (hcmd : cmd ∉ m.cmds.map Prod.fst) :
    ∃ m', m.addCmd option cmd = some m' ∧ m'.cmds.map Prod.fst = m.cmds.map Prod.fst ++ [cmd] ∧
      m'.hasHelp = m.hasHelp ∧ m'.hasVersion = m.hasVersion := by
  have hlookup : ¬ (m.cmds.lookup cmd).isSome := fun h => hcmd ((lookup_isSome_iff cmd m.cmds).mp h)
  unfold Manager.addCmd
  split
  · unfold Manager.addShort
    rw [if_neg hlookup]
    exact ⟨_, rfl, by simp, rfl, rfl⟩
  · unfold Manager.addCommand
    rw [if_neg hlookup]
    exact ⟨_, rfl, by simp, rfl, rfl⟩

theorem addOption_spec (option : Opt σ) (cmds : List Word) (m : Manager σ)
    (hdistinct : (m.cmds.map Prod.fst ++ cmds).Nodup) :
    ∃ m', cmds.foldlM (fun m cmd => m.addCmd option cmd) m = some m' ∧
      m'.cmds.map Prod.fst = m.cmds.map Prod.fst ++ cmds ∧ m'.hasHelp = m.hasHelp ∧ m'.hasVersion = m.hasVersion := by
  induction cmds generalizing m with
  | nil => exact ⟨m, rfl, by simp, rfl, rfl⟩
  | cons cmd cmds ih =>
    have hcmd : cmd ∉ m.cmds.map Prod.fst := fun hmem =>
      (nodup_append.mp hdistinct).2.2 cmd hmem cmd mem_cons_self rfl
    obtain ⟨m₁, hadd, hkeys, hhelp, hversion⟩ := addCmd_spec m option cmd hcmd
    obtain ⟨m', hrest, hkeys', hhelp', hversion'⟩ := ih m₁ (by simpa [hkeys] using hdistinct)
    refine ⟨m', ?_, ?_, hhelp'.trans hhelp, hversion'.trans hversion⟩
    · rw [foldlM_cons, hadd]
      exact hrest
    · rw [hkeys', hkeys, append_assoc]
      rfl

/-- The options with distinct names make a manager. -/
theorem new_spec (make : Make) (options : List (Opt σ)) (process : Word → σ → Except Word σ)
    (hdistinct : ((make.options options).flatMap Opt.cmds).Nodup) :
    ∃ m, Manager.new make options process = some m ∧ m.hasHelp = make.help ∧ m.hasVersion = make.version := by
  have hfold : ∀ (os : List (Opt σ)) (m : Manager σ), (m.cmds.map Prod.fst ++ os.flatMap Opt.cmds).Nodup →
      ∃ m', os.foldlM (fun m option => m.addOption option) m = some m' ∧ m'.hasHelp = m.hasHelp ∧
        m'.hasVersion = m.hasVersion := by
    intro os
    induction os with
    | nil => exact fun m _ => ⟨m, rfl, rfl, rfl⟩
    | cons o os ih =>
      intro m hnodup
      rw [flatMap_cons, ← append_assoc] at hnodup
      obtain ⟨m₁, hadd, hkeys, hhelp, hversion⟩ := addOption_spec o o.cmds m (nodup_append.mp hnodup).1
      obtain ⟨m', hrest, hhelp', hversion'⟩ := ih m₁ (by rw [hkeys]; exact hnodup)
      refine ⟨m', ?_, hhelp'.trans hhelp, hversion'.trans hversion⟩
      rw [foldlM_cons]
      show (m.addOption o).bind _ = _
      rw [show m.addOption o = some m₁ from hadd]
      exact hrest
  exact hfold _ ⟨[], [], make.help, make.version, process⟩ hdistinct

/-! ## Logs -/

variable {m : Manager σ} {argv : List Word}

theorem Calls.append {os os' : List (Opt σ)} {i j k : Nat} {log log' : List (Event σ)}
    (h : Calls argv os i log j) (h' : Calls argv os' j log' k) :
    Calls argv (os ++ os') i (log ++ log') k := by
  induction h with
  | nil i => exact h'
  | here supplied hnext _ ih => exact Calls.here supplied hnext (ih h')
  | next supplied _ ih => exact Calls.next supplied (ih h')

theorem Reads.append {i j k : Nat} {log log' : List (Event σ)} (h : Reads m argv i log j)
    (h' : Reads m argv j log' k) : Reads m argv i (log ++ log') k := by
  induction h with
  | nil i => exact h'
  | free harg hfree _ ih => exact Reads.free harg hfree (ih h')
  | word harg hoptions options _ ih =>
    rw [cons_append, append_assoc]
    exact Reads.word harg hoptions options (ih h')

theorem Calls.indices {os : List (Opt σ)} {i j : Nat} {log : List (Event σ)} (h : Calls argv os i log j) :
    i ≤ j ∧ log.flatMap Event.indices = List.range' i (j - i) := by
  induction h with
  | nil i => simp
  | @here option options argument i j log supplied hnext rest ih =>
    refine ⟨ih.1, ?_⟩
    have hnone : (Event.option option argument).indices = [] := by
      cases argument with
      | missing => rfl
      | equal earg => rfl
      | next k => exact absurd rfl (hnext k)
    rw [flatMap_cons, hnone, nil_append, ih.2]
  | @next option options i j log supplied rest ih =>
    obtain ⟨hle, hindices⟩ := ih
    refine ⟨by omega, ?_⟩
    rw [flatMap_cons, hindices, show j - i = j - (i + 1) + 1 by omega, range'_succ]
    rfl

/-- The events of a log consume its indices, each once and in order. -/
theorem Reads.indices {i j : Nat} {log : List (Event σ)} (h : Reads m argv i log j) :
    i ≤ j ∧ log.flatMap Event.indices = List.range' i (j - i) := by
  induction h with
  | nil i => simp
  | @free i j arg log harg hfree rest ih =>
    obtain ⟨hle, hindices⟩ := ih
    refine ⟨by omega, ?_⟩
    rw [flatMap_cons, hindices, show j - i = j - (i + 1) + 1 by omega, range'_succ]
    rfl
  | @word i j k arg calls log harg hoptions options rest ih =>
    obtain ⟨hle, hindices⟩ := ih
    obtain ⟨hle', hindices'⟩ := options.indices
    refine ⟨by omega, ?_⟩
    rw [flatMap_cons, flatMap_append, hindices, hindices', show k - i = (j - (i + 1)) + (k - j) + 1 by omega,
      range'_succ, ← range'_append_1, show i + 1 + (j - (i + 1)) = j by omega]
    rfl

theorem replay_append (log log' : List (Event σ)) (app : App σ) :
    replay m argv (log ++ log') app = (replay m argv log app).bind (replay m argv log') := by
  induction log generalizing app with
  | nil => rfl
  | cons event log ih =>
    cases event with
    | word i => exact ih app
    | option option argument =>
      rw [cons_append, replay, replay]
      cases option.process (argument.text argv) app with
      | error message => rfl
      | ok app' => exact ih app'
    | free i =>
      rw [cons_append, replay, replay]
      cases m.process ((argv[i]?).getD []) app.user with
      | error message => rfl
      | ok user => exact ih _

/-! ## `processOption` -/

/-- What the functions of the parser add to the state when they return: events whose options are `os`. -/
structure Adds (m : Manager σ) (argv : List Word) (os : List (Opt σ)) (s s' : Parse σ) (log : List (Event σ)) :
    Prop where
  log_eq : s'.log = s.log ++ log
  options : Calls argv os (s.i + 1) log (s'.i + 1)
  replay : replay m argv log s.app = .ok s'.app

theorem findArgument_spec {option : Opt σ} {i k : Nat} {earg : Option Word} {arg : Word} {argument : Argument}
    (h : findArgument argv option i earg = .ok (arg, argument, k)) :
    argument.text argv = arg ∧ Supplied argv option argument ∧
      (k = i ∧ (∀ j, argument ≠ .next j) ∨ k = i + 1 ∧ argument = .next (i + 1)) := by
  have hnext : ∀ {w : Word}, nextArgument argv i = some w →
      argv[i + 1]? = some w ∧ w.head? ≠ some '-' := by
    intro w hw
    simpa [nextArgument, filter_eq_some_iff] using hw
  unfold findArgument at h
  cases husage : option.usage with
  | argNone =>
    cases earg with
    | none =>
      simp only [husage] at h
      cases h
      exact ⟨rfl, by simp [Supplied, husage], Or.inl ⟨rfl, nofun⟩⟩
    | some earg => simp [husage] at h
  | argOptional =>
    cases earg with
    | some earg =>
      simp only [husage] at h
      cases h
      exact ⟨rfl, by simp [Supplied, husage], Or.inl ⟨rfl, nofun⟩⟩
    | none =>
      cases hargument : nextArgument argv i with
      | none =>
        simp only [husage, hargument] at h
        cases h
        exact ⟨rfl, by simp [Supplied, husage], Or.inl ⟨rfl, nofun⟩⟩
      | some w =>
        simp only [husage, hargument] at h
        cases h
        obtain ⟨hget, hhead⟩ := hnext hargument
        exact ⟨by simp [Argument.text, hget], ⟨by simp [husage], _, hget, hhead⟩, Or.inr ⟨rfl, rfl⟩⟩
  | argRequired =>
    cases earg with
    | some earg =>
      simp only [husage] at h
      cases h
      exact ⟨rfl, by simp [Supplied, husage], Or.inl ⟨rfl, nofun⟩⟩
    | none =>
      cases hargument : nextArgument argv i with
      | none => simp [husage, hargument] at h
      | some w =>
        simp only [husage, hargument] at h
        cases h
        obtain ⟨hget, hhead⟩ := hnext hargument
        exact ⟨by simp [Argument.text, hget], ⟨by simp [husage], _, hget, hhead⟩, Or.inr ⟨rfl, rfl⟩⟩

/-- One option: one event, unless it stops the parse. -/
theorem processOption_ok {option : Opt σ} {earg : Option Word} {s s' : Parse σ}
    (h : processOption m argv option earg s = .ok s') : ∃ log, Adds m argv [option] s s' log := by
  unfold processOption at h
  cases hfind : findArgument argv option s.i earg with
  | error stop =>
    rw [hfind] at h
    cases h
  | ok found =>
    obtain ⟨arg, argument, k⟩ := found
    rw [hfind] at h
    obtain ⟨htext, hsupplied, hindex⟩ := findArgument_spec hfind
    cases hprocess : option.process arg s.app with
    | error message =>
      simp only [bind, Except.bind, hprocess] at h
      cases h
    | ok app =>
      simp only [bind, Except.bind, hprocess] at h
      split_ifs at h
      cases h
      refine ⟨[.option option argument], rfl, ?_, ?_⟩
      · rcases hindex with ⟨rfl, hnone⟩ | ⟨rfl, rfl⟩
        · exact Calls.here hsupplied hnone (Calls.nil _)
        · exact Calls.next hsupplied (Calls.nil _)
      · rw [replay, htext, hprocess]
        rfl

theorem processOption_exit {option : Opt σ} {earg : Option Word} {s s' : Parse σ}
    (h : processOption m argv option earg s = .error (.exit s')) : Exits m (.error (.exit s')) := by
  unfold processOption at h
  cases hfind : findArgument argv option s.i earg with
  | error stop =>
    rw [hfind] at h
    simp only [bind, Except.bind, Except.error.injEq] at h
    subst h
    -- the search for the argument only throws
    unfold findArgument at hfind
    split at hfind <;> first | cases hfind | (split at hfind <;> cases hfind)
  | ok found =>
    obtain ⟨arg, argument, k⟩ := found
    rw [hfind] at h
    cases hprocess : option.process arg s.app with
    | error message =>
      simp only [bind, Except.bind, hprocess] at h
      cases h
    | ok app =>
      simp only [bind, Except.bind, hprocess] at h
      split_ifs at h with hexit
      cases h
      exact hexit

/-! ## Words -/

theorem Adds.trans {os os' : List (Opt σ)} {s s' s'' : Parse σ} {log log' : List (Event σ)}
    (h : Adds m argv os s s' log) (h' : Adds m argv os' s' s'' log') :
    Adds m argv (os ++ os') s s'' (log ++ log') where
  log_eq := by rw [h'.log_eq, h.log_eq, append_assoc]
  options := h.options.append h'.options
  replay := by
    rw [replay_append, h.replay]
    exact h'.replay

theorem processShorts_ok {arg : Word} (cs : List Char) {s s' : Parse σ}
    (h : processShorts m argv arg s cs = .ok s') :
    ∃ log, Adds m argv (cs.filterMap fun c => m.shorts.lookup c) s s' log ∧
      ∀ c ∈ cs, (m.shorts.lookup c).isSome := by
  induction cs generalizing s with
  | nil =>
    cases h
    exact ⟨[], ⟨by simp, Calls.nil _, rfl⟩, nofun⟩
  | cons c cs ih =>
    unfold processShorts at h
    cases hlookup : m.shorts.lookup c with
    | none => simp [hlookup] at h
    | some option =>
      simp only [hlookup, bind, Except.bind] at h
      cases hprocess : processOption m argv option none s with
      | error stop => simp [hprocess] at h
      | ok s₁ =>
        simp only [hprocess] at h
        obtain ⟨log, hadds⟩ := processOption_ok hprocess
        obtain ⟨log', hadds', hknown⟩ := ih h
        refine ⟨log ++ log', ?_, ?_⟩
        · simp only [filterMap_cons, hlookup]
          exact hadds.trans hadds'
        · intro d hd
          rcases mem_cons.mp hd with rfl | hd
          · rw [hlookup]
            rfl
          · exact hknown d hd

theorem processShorts_exit {arg : Word} (cs : List Char) {s s' : Parse σ}
    (h : processShorts m argv arg s cs = .error (.exit s')) : Exits m (.error (.exit s')) := by
  induction cs generalizing s with
  | nil => cases h
  | cons c cs ih =>
    unfold processShorts at h
    cases hlookup : m.shorts.lookup c with
    | none => simp [hlookup] at h
    | some option =>
      simp only [hlookup, bind, Except.bind] at h
      cases hprocess : processOption m argv option none s with
      | error stop =>
        simp only [hprocess, Except.error.injEq] at h
        subst h
        exact processOption_exit hprocess
      | ok s₁ =>
        simp only [hprocess] at h
        exact ih h

/-- What a word adds to the state. -/
structure AddsWord (m : Manager σ) (argv : List Word) (s s' : Parse σ) (log : List (Event σ)) : Prop where
  log_eq : s'.log = s.log ++ log
  le : s.i ≤ s'.i
  reads : Reads m argv s.i log (s'.i + 1)
  replay : replay m argv log s.app = .ok s'.app

/-- A word with its options. -/
theorem Adds.addsWord {arg : Word} {s s' : Parse σ} {log : List (Event σ)} (harg : argv[s.i]? = some arg)
    (hne : wordOptions m arg ≠ [])
    (h : Adds m argv (wordOptions m arg) { s with log := s.log ++ [.word s.i] } s' log) :
    AddsWord m argv s s' (.word s.i :: log) where
  log_eq := by
    rw [h.log_eq, append_assoc]
    rfl
  le := Nat.le_of_succ_le_succ h.options.indices.1
  reads := by
    have hreads := Reads.word harg hne h.options (Reads.nil (s'.i + 1))
    rwa [append_nil] at hreads
  replay := h.replay

theorem parseOther_ok {arg : Word} {s s' : Parse σ} (harg : argv[s.i]? = some arg)
    (hcommand : (findCommand m arg).1 = none) (h : parseOther m argv arg s = .ok s') :
    ∃ log, AddsWord m argv s s' log := by
  unfold parseOther at h
  split at h
  · cases h
  · cases h
  · cases h
  · rename_i rest hnil hdash
    obtain ⟨log, hadds, hknown⟩ := processShorts_ok rest h
    have hoptions : wordOptions m ('-' :: rest) = rest.filterMap fun c => m.shorts.lookup c := by
      unfold wordOptions
      split
      · rename_i heq
        simp [heq] at hcommand
      · rfl
    rw [← hoptions] at hadds
    refine ⟨_, hadds.addsWord harg ?_⟩
    cases rest with
    | nil => exact absurd rfl hnil
    | cons c rest =>
      obtain ⟨option, hlookup⟩ := isSome_iff_exists.mp (hknown c mem_cons_self)
      rw [hoptions]
      simp only [filterMap_cons, hlookup]
      exact cons_ne_nil _ _
  · rename_i hnil hone htwo hshort
    cases hprocess : m.process arg s.app.user with
    | error message => simp [hprocess] at h
    | ok user =>
      simp only [hprocess] at h
      cases h
      have hhead : arg.head? ≠ some '-' := by
        cases arg with
        | nil => simp
        | cons c rest =>
          intro heq
          obtain rfl : c = '-' := by simpa using heq
          exact hshort rest rfl
      refine ⟨[.free s.i], rfl, Nat.le_refl s.i, Reads.free harg ⟨?_, hhead, hcommand⟩ (Reads.nil _), ?_⟩
      · rintro rfl
        exact hnil rfl
      · rw [replay, harg, getD_some, hprocess]
        rfl

theorem parseOther_exit {arg : Word} {s s' : Parse σ} (h : parseOther m argv arg s = .error (.exit s')) :
    Exits m (.error (.exit s')) := by
  unfold parseOther at h
  split at h
  · cases h
  · cases h
  · cases h
  · exact processShorts_exit _ h
  · split at h <;> cases h

theorem parseWord_ok {arg : Word} {s s' : Parse σ} (harg : argv[s.i]? = some arg)
    (h : parseWord m argv arg s = .ok s') : ∃ log, AddsWord m argv s s' log := by
  unfold parseWord at h
  cases hfind : findCommand m arg with
  | mk found earg =>
    cases found with
    | none =>
      simp only [hfind] at h
      exact parseOther_ok harg (by rw [hfind]) h
    | some option =>
      simp only [hfind] at h
      obtain ⟨log, hadds⟩ := processOption_ok h
      have hoptions : wordOptions m arg = [option] := by
        unfold wordOptions
        rw [hfind]
      rw [← hoptions] at hadds
      exact ⟨_, hadds.addsWord harg (by rw [hoptions]; exact cons_ne_nil _ _)⟩

theorem parseWord_exit {arg : Word} {s s' : Parse σ} (h : parseWord m argv arg s = .error (.exit s')) :
    Exits m (.error (.exit s')) := by
  unfold parseWord at h
  split at h
  · exact processOption_exit h
  · exact parseOther_exit h

/-! ## The loop -/

theorem Calls.le_length {os : List (Opt σ)} {i j : Nat} {log : List (Event σ)} (h : Calls argv os i log j)
    (hi : i ≤ argv.length) : j ≤ argv.length := by
  induction h with
  | nil i => exact hi
  | here _ _ _ ih => exact ih hi
  | next supplied _ ih =>
    obtain ⟨-, arg, hget, -⟩ := supplied
    obtain ⟨hlt, -⟩ := List.getElem?_eq_some_iff.mp hget
    exact ih hlt

theorem Reads.le_length {i j : Nat} {log : List (Event σ)} (h : Reads m argv i log j)
    (hi : i ≤ argv.length) : j ≤ argv.length := by
  induction h with
  | nil i => exact hi
  | free harg _ _ ih =>
    obtain ⟨hlt, -⟩ := List.getElem?_eq_some_iff.mp harg
    exact ih hlt
  | word harg _ options _ ih =>
    obtain ⟨hlt, -⟩ := List.getElem?_eq_some_iff.mp harg
    exact ih (options.le_length hlt)

/-- The log of the words that have been read. -/
structure ReadTo (m : Manager σ) (argv : List Word) (app : App σ) (n : Nat) (s : Parse σ) : Prop where
  le : s.i ≤ argv.length
  left : n = argv.length - s.i
  reads : Reads m argv 1 s.log s.i
  replay : replay m argv s.log app = .ok s.app

theorem parseTurn_spec {app : App σ} {n : Nat} {s : Parse σ} (h : ReadTo m argv app n s) :
    (∃ s' n', parseTurn m argv s = .inl s' ∧ n' < n ∧ ReadTo m argv app n' s') ∨
      ∃ r, parseTurn m argv s = .inr r ∧ (Throws r ∨ Exits m r ∨ Returns m argv app r) := by
  unfold parseTurn
  cases harg : argv[s.i]? with
  | none =>
    have hend : s.i = argv.length := Nat.le_antisymm h.le (List.getElem?_eq_none_iff.mp harg)
    refine Or.inr ⟨_, rfl, Or.inr (Or.inr ?_)⟩
    have hreads : Reads m argv 1 s.log argv.length := hend ▸ h.reads
    exact ⟨hreads, hreads.indices.2, h.replay⟩
  | some arg =>
    simp only
    cases hword : parseWord m argv arg s with
    | error stop =>
      refine Or.inr ⟨_, rfl, ?_⟩
      cases stop with
      | exception message => exact Or.inl trivial
      | exit s' => exact Or.inr (Or.inl (parseWord_exit hword))
    | ok s' =>
      obtain ⟨log, hlog, hi, hreads, hreplay⟩ := parseWord_ok harg hword
      have hle := hreads.le_length h.le
      have hlt := (List.getElem?_eq_some_iff.mp harg).1
      refine Or.inl ⟨_, argv.length - (s'.i + 1), rfl, ?_, ⟨hle, rfl, ?_, ?_⟩⟩
      · have hleft := h.left
        omega
      · show Reads m argv 1 s'.log (s'.i + 1)
        rw [hlog]
        exact h.reads.append hreads
      · show replay m argv s'.log app = .ok s'.app
        rw [hlog, replay_append, h.replay]
        exact hreplay

/-- Every parse ends: it throws, it leaves the program after a switch of the manager, or it consumes the whole of
`argv`. -/
theorem parse_ends (make : Make) (options : List (Opt σ)) (process : Word → σ → Except Word σ)
    (hdistinct : ((make.options options).flatMap Opt.cmds).Nodup) {argv : List Word} (hargc : argv ≠ []) (app : App σ) :
    ∃ m r, Manager.new make options process = some m ∧ m.hasHelp = make.help ∧ m.hasVersion = make.version ∧
      parse m argv app = some r ∧ (Throws r ∨ Exits m r ∨ Returns m argv app r) := by
  obtain ⟨m, hnew, hhelp, hversion⟩ := new_spec make options process hdistinct
  have hlen : 0 < argv.length := length_pos_iff.mpr hargc
  obtain ⟨r, hrun, hr⟩ := Loop.exists_run_eq_some (parseTurn m argv) (ReadTo m argv app)
    (fun r => Throws r ∨ Exits m r ∨ Returns m argv app r) (fun _ _ h => parseTurn_spec h) (argv.length + 1)
    (argv.length - 1) ⟨1, app, [], []⟩ ⟨hlen, rfl, Reads.nil 1, rfl⟩ (by omega)
  refine ⟨m, r, hnew, hhelp, hversion, ?_, hr⟩
  unfold parse
  rw [if_neg hargc, hrun]

/-- An option that keeps its argument. -/
def keepArgument (cmds : List Word) (usage : Usage) : Opt (List Word) :=
  Opt.user cmds usage fun arg user => .ok (user ++ [arg])

/-- A switch and an option with an argument in one word. -/
theorem parse_ends_aggregated :
    ∃ m r, Manager.new ⟨true, true⟩ [keepArgument ["-o".toList] .argRequired, keepArgument ["-v".toList] .argNone]
        (fun _ user => .ok user) = some m ∧ m.hasHelp = true ∧ m.hasVersion = true ∧
      parse m ["prog".toList, "-vo".toList, "out".toList, "in".toList] ⟨false, false, []⟩ = some r ∧
      (Throws r ∨ Exits m r ∨
        Returns m ["prog".toList, "-vo".toList, "out".toList, "in".toList] ⟨false, false, []⟩ r) :=
  parse_ends ⟨true, true⟩ _ _ (by decide) (cons_ne_nil _ _) _

/-- `-h` leaves the program before the following arguments are read. -/
theorem not_parse_ends :
    ¬ ∀ (make : Make) (options : List (Opt Unit)) (process : Word → Unit → Except Word Unit) (argv : List Word)
        (app : App Unit), ((make.options options).flatMap Opt.cmds).Nodup → argv ≠ [] →
      ∃ m r, Manager.new make options process = some m ∧ parse m argv app = some r ∧
        (Throws r ∨ Returns m argv app r) := by
  intro hall
  obtain ⟨m, r, hnew, hparse, hr⟩ := hall ⟨true, false⟩ [] (fun _ user => .ok user)
    ["prog".toList, "-h".toList, "in".toList] ⟨false, false, ()⟩ (by decide) (cons_ne_nil _ _)
  obtain rfl := some.inj hnew
  obtain rfl := some.inj hparse
  rcases hr with h | h
  · exact h
  · exact h

end Elm.Options
