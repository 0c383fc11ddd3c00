import HqlWhere.Command.Run
import HqlWhere.Proofs.Clause.Compilation
import HqlWhere.Proofs.Command.Wrong

/-!
# How a run ends

A run fails with the first thing that is wrong, and succeeds if nothing is.

* `Surroundings.course`   the ways that a compiling command can take;
* `Command.verdict_run`   a run fails with the first thing that is wrong, if any;
* `Command.run_outcome`   failure, exit code, output and announcement of every run.
-/

namespace HqlWhere

/-! ## the ways of a compiling command -/

namespace Surroundings

section
variable (w : Surroundings) (input : String) (config : Option String) (flag : Option UInt64)
  (json : Bool) (announce : Settings → Event)
  (compile : Settings → String → Told (Except CompileFault Clause))

/-- The ways that a compiling command can take: it stops at its settings, at its source or at the
document, or it prints a clause.  With the settings loaded it announces itself. -/
inductive Course : Outcome → Prop
  | unsettled {f : Failure} (settings : w.settings config flag = .error f) :
      Course (.of (.error f) (w.loadSettings config flag).2)
  | unread {s : Settings} {fault : ReadFault} (settings : w.settings config flag = .ok s)
      (unread : w.source input = .error fault) :
      Course (.of (.error (.inputRead fault)) ((w.loadSettings config flag).2 ++ [announce s]))
  | refused {s : Settings} {text : String} {fault : CompileFault} {events : List Event}
      (settings : w.settings config flag = .ok s) (read : w.source input = .ok text)
      (refused : compile s text = (.error fault, events)) :
      Course (.of (.error (.compile fault))
        ((w.loadSettings config flag).2 ++ [announce s] ++ events))
  | printed {s : Settings} {text : String} {clause : Clause} {events : List Event}
      (settings : w.settings config flag = .ok s) (read : w.source input = .ok text)
      (compiled : compile s text = (.ok clause, events)) :
      Course (.of (.ok (clause.printed json))
        ((w.loadSettings config flag).2 ++ [announce s] ++ events))

theorem course : w.Course input config flag json announce compile
    (w.compileInput input config flag json announce compile) := by
  unfold compileInput readInput
  rw [show (if input = standardInput then w.input else w.file input) = w.source input from rfl]
  simp only [loadSettings]
  cases settings : w.settings config flag with
  | error f => exact .unsettled settings
  | ok s =>
    cases read : w.source input with
    | error fault => exact .unread settings read
    | ok text =>
      dsimp only [Except.mapError]
      cases compiled : compile s text with
      | mk result events =>
        cases result with
        | error fault => exact .refused settings read compiled
        | ok clause => exact .printed settings read compiled

end

end Surroundings

namespace Command

/-! ## the first thing that is wrong -/

/-- The verdict on a run: a failure is wrong with it and comes first, and without a failure nothing is
wrong. -/
def Verdict (w : Surroundings) (c : Command) : Option Failure → Prop
  | some f => Wrong w c f ∧ ∀ g, Wrong w c g → f.rank ≤ g.rank
  | none => ∀ g, ¬ Wrong w c g

section
variable {w : Surroundings} {c : Command} {input : String}

/-- Why no settings are loaded is the first thing that is wrong with a compiling command. -/
theorem verdict_unsettled (compiles : c.input? = some input) {f : Failure}
    (h : w.Unsettled c.config? f) : Verdict w c (some f) := by
  cases h with
  | unread named unread => exact ⟨.settingsUnread named unread, fun g _ => Nat.zero_le _⟩
  | @unparsed file text _ named read unparsed =>
    refine ⟨.settingsUnparsed named read unparsed, fun g wrong => wrong.one_le ?_⟩
    intro other named'
    rw [named] at named'
    obtain rfl := Option.some.inj named'
    exact ⟨text, read⟩
  | badVariable read set noNumber =>
    exact ⟨.badVariable compiles set noNumber, fun g wrong => wrong.two_le read⟩

variable {flag : Option UInt64} {json : Bool} {announce : Settings → Event}
  {compile : Settings → String → Told (Except CompileFault Clause)}

/-- The verdict on a compiling command, given that on what it makes of a document. -/
theorem verdict_compileInput (compiles : c.input? = some input)
    (document : ∀ s text, w.settings c.config? flag = .ok s → w.source input = .ok text →
      w.SettingsRead c.config? → w.VariableRead →
      Verdict w c (match (compile s text).1 with
        | .ok _ => none
        | .error fault => some (.compile fault))) :
    Verdict w c (w.compileInput input c.config? flag json announce compile).failure := by
  have course := w.course input c.config? flag json announce compile
  generalize w.compileInput input c.config? flag json announce compile = o at course
  rcases w.settings_cases c.config? flag with ⟨s, loaded, read, number⟩ | ⟨f, failed, unsettled⟩
  · cases course with
    | unsettled settings => cases loaded.symm.trans settings
    | unread settings unread =>
      exact ⟨.inputUnread compiles unread, fun g wrong => wrong.three_le read number⟩
    | refused settings source refused =>
      have verdict := document _ _ settings source read number
      rw [refused] at verdict
      exact verdict
    | printed settings source compiled =>
      have verdict := document _ _ settings source read number
      rw [compiled] at verdict
      exact verdict
  · cases course with
    | unsettled settings =>
      obtain rfl := Except.error.inj (failed.symm.trans settings)
      exact verdict_unsettled compiles unsettled
    | unread settings _ => cases failed.symm.trans settings
    | refused settings _ _ => cases failed.symm.trans settings
    | printed settings _ _ => cases failed.symm.trans settings

end

theorem verdict_compile (w : Surroundings) (input : String) (config : Option String)
    (flag : Option UInt64) (json : Bool) :
    Verdict w (.compile input config flag json)
      ((Command.compile input config flag json).run w).failure := by
  have ran : (Command.compile input config flag json).run w
      = w.compileInput input config flag json (fun s => .compilingTree input s.maxDepth)
          Settings.compileTreeDocument := rfl
  rw [ran]
  refine verdict_compileInput rfl fun s text loaded source settings number => ?_
  have late : ∀ g, Wrong w (.compile input config flag json) g → 4 ≤ g.rank :=
    fun g wrong => wrong.four_le settings number rfl source
  cases parsed : Expr.parse text with
  | error fault =>
    rw [s.compileTreeDocument_of_error parsed]
    exact ⟨.treeRefused source parsed, late⟩
  | ok e =>
    -- Of what is left, only the depth can be wrong with a document that is read.
    have depth : ∀ g, Wrong w (.compile input config flag json) g →
        ∃ n, s.maxDepth = some n ∧ n.toNat < e.depth ∧ g = .compile (.depthExceeded ⟨n⟩) := by
      intro g wrong
      have last := late g wrong
      cases wrong with
      | settingsUnread | settingsUnparsed | badVariable | inputUnread => simp at last
      | treeRefused read refused =>
        obtain rfl := Except.ok.inj (source.symm.trans read)
        cases parsed.symm.trans refused
      | tooDeep loaded' read parsed' limit deeper =>
        obtain rfl := Except.ok.inj (loaded.symm.trans loaded')
        obtain rfl := Except.ok.inj (source.symm.trans read)
        obtain rfl := Except.ok.inj (parsed.symm.trans parsed')
        exact ⟨_, limit, deeper, rfl⟩
    rw [s.compileTreeDocument_of_ok parsed]
    rcases s.refused_or_fits e with ⟨n, limit, deeper⟩ | fits
    · rw [Settings.compile_of_lt limit deeper]
      refine ⟨.tooDeep loaded source parsed limit deeper, fun g wrong => ?_⟩
      obtain ⟨_, _, _, rfl⟩ := depth g wrong
      exact Nat.le_refl _
    · rw [Settings.compile_of_fits fits]
      intro g wrong
      obtain ⟨n, limit, deeper, _⟩ := depth g wrong
      exact absurd deeper (Nat.not_lt_of_le (fits n limit))

theorem verdict_compileAll (w : Surroundings) (input : String) (config : Option String)
    (json : Bool) :
    Verdict w (.compileAll input config json)
      ((Command.compileAll input config json).run w).failure := by
  have ran : (Command.compileAll input config json).run w
      = w.compileInput input config none json (fun _ => .compilingList input)
          Settings.compileListDocument := rfl
  rw [ran]
  refine verdict_compileInput rfl fun s text loaded source settings number => ?_
  have late : ∀ g, Wrong w (.compileAll input config json) g → 4 ≤ g.rank :=
    fun g wrong => wrong.four_le settings number rfl source
  cases parsed : Predicate.parseList text with
  | error fault =>
    rw [s.compileListDocument_of_error parsed]
    exact ⟨.listRefused source parsed, late⟩
  | ok ps =>
    rw [s.compileListDocument_of_ok parsed]
    intro g wrong
    have last := late g wrong
    cases wrong with
    | settingsUnread | settingsUnparsed | badVariable | inputUnread => simp at last
    | listRefused read refused =>
      obtain rfl := Except.ok.inj (source.symm.trans read)
      cases parsed.symm.trans refused

theorem verdict_params (w : Surroundings) (path : String) :
    Verdict w (.params path) ((Command.params path).run w).failure := by
  show Verdict w _ (Outcome.of (((Path.ofText path).mapError .path).map Path.printed) []).failure
  cases parsed : Path.ofText path with
  | error fault =>
    refine ⟨.noPath parsed, fun g wrong => ?_⟩
    obtain ⟨fault', _, rfl⟩ := wrong.of_params
    exact Nat.le_refl _
  | ok p =>
    intro g wrong
    obtain ⟨fault, refused, _⟩ := wrong.of_params
    cases parsed.symm.trans refused

theorem verdict_version (w : Surroundings) : Verdict w .version (Command.version.run w).failure := by
  intro g wrong
  cases wrong with
  | settingsUnread named _ => cases named
  | settingsUnparsed named _ _ => cases named
  | badVariable compiles _ _ => cases compiles
  | inputUnread named _ => cases named

/-- A run fails with the first thing that is wrong, and only if something is. -/
theorem verdict_run (w : Surroundings) (c : Command) : Verdict w c (c.run w).failure := by
  cases c with
  | version => exact verdict_version w
  | compile input config flag json => exact verdict_compile w input config flag json
  | compileAll input config json => exact verdict_compileAll w input config json
  | params path => exact verdict_params w path

/-- A failure is wrong with the run and comes before all else that is. -/
theorem failure_eq_some_iff {w : Surroundings} {c : Command} {f : Failure} :
    (c.run w).failure = some f ↔ Wrong w c f ∧ ∀ g, Wrong w c g → f.rank ≤ g.rank := by
  have verdict := c.verdict_run w
  constructor
  · intro failed
    rw [failed] at verdict
    exact verdict
  · rintro ⟨wrong, least⟩
    cases failed : (c.run w).failure with
    | none =>
      rw [failed] at verdict
      exact absurd wrong (verdict f)
    | some g =>
      rw [failed] at verdict
      obtain ⟨wrong', least'⟩ := verdict
      rw [wrong.eq_of_rank_eq wrong' (Nat.le_antisymm (least g wrong') (least' f wrong))]

theorem failure_eq_none_iff {w : Surroundings} {c : Command} :
    (c.run w).failure = none ↔ ∀ f, ¬ Wrong w c f := by
  have verdict := c.verdict_run w
  constructor
  · intro succeeded
    rw [succeeded] at verdict
    exact verdict
  · intro nothing
    cases failed : (c.run w).failure with
    | none => rfl
    | some f =>
      rw [failed] at verdict
      exact absurd verdict.1 (nothing f)

theorem failure_params_iff {w : Surroundings} {path : String} {f : Failure} :
    ((Command.params path).run w).failure = some f ↔
      ∃ fault, Path.ofText path = .error fault ∧ f = .path fault := by
  rw [failure_eq_some_iff]
  constructor
  · rintro ⟨wrong, _⟩
    exact wrong.of_params
  · rintro ⟨fault, refused, rfl⟩
    refine ⟨.noPath refused, fun g wrong => ?_⟩
    obtain ⟨_, _, rfl⟩ := wrong.of_params
    exact Nat.le_refl _

end Command

/-! ## what a run leaves -/

/-- An event that tells that a compilation is about to begin. -/
def Event.Announces (v : Event) : Prop :=
  v.level = .info ∧ "Compiling ".toList <+: v.message.toList

namespace Event

theorem announces_compilingTree (input : String) (limit : Option UInt64) :
    (compilingTree input limit).Announces := by
  have opening : "Compiling filter tree from " = "Compiling " ++ "filter tree from " := by decide
  refine ⟨rfl, ?_⟩
  show _ <+: ("Compiling filter tree from " ++ input ++ " (max depth: " ++ showLimit limit ++
    ")").toList
  rw [opening, String.append_assoc, String.append_assoc, String.append_assoc, String.append_assoc,
    String.toList_append]
  exact List.prefix_append _ _

theorem announces_compilingList (input : String) : (compilingList input).Announces := by
  have opening : "Compiling predicate list from " = "Compiling " ++ "predicate list from " := by
    decide
  refine ⟨rfl, ?_⟩
  show _ <+: ("Compiling predicate list from " ++ input).toList
  rw [opening, String.append_assoc, String.toList_append]
  exact List.prefix_append _ _

/-- The reading of a settings file is told in other words. -/
theorem not_announces_loadingSettings (file : String) : ¬ (loadingSettings file).Announces := by
  rintro ⟨_, rest, eq⟩
  have said : (loadingSettings file).message.toList
      = 'L' :: ("oading compiler settings from ".toList ++ file.toList) := String.toList_append
  rw [said] at eq
  exact absurd (List.cons.inj eq).1 (by decide)

end Event

namespace Command

/-- What a command prints if nothing is wrong. -/
inductive Prints (w : Surroundings) : Command → String → Prop
  | version : Prints w .version versionLine
  | tree {input text : String} {config : Option String} {flag : Option UInt64} {json : Bool}
      {s : Settings} {clause : Clause} (loaded : (w.loadSettings config flag).1 = .ok s)
      (read : w.source input = .ok text) (compiled : (s.compileTreeDocument text).1 = .ok clause) :
      Prints w (.compile input config flag json) (clause.printed json)
  | list {input text : String} {config : Option String} {json : Bool} {s : Settings}
      {clause : Clause} (loaded : (w.loadSettings config none).1 = .ok s)
      (read : w.source input = .ok text) (compiled : (s.compileListDocument text).1 = .ok clause) :
      Prints w (.compileAll input config json) (clause.printed json)
  | path {path : String} {p : Path} (parsed : Path.ofText path = .ok p) :
      Prints w (.params path) p.printed

section
variable {w : Surroundings} {c : Command}

theorem run_eq_of (w : Surroundings) (c : Command) :
    ∃ result events, c.run w = .of result events := by
  have compiling : ∀ input config flag json announce compile, ∃ result events,
      w.compileInput input config flag json announce compile = .of result events := by
    intro input config flag json announce compile
    have course := w.course input config flag json announce compile
    generalize w.compileInput input config flag json announce compile = o at course
    cases course with
    | unsettled | unread | refused | printed => exact ⟨_, _, rfl⟩
  cases c with
  | version => exact ⟨.ok versionLine, [], rfl⟩
  | compile input config flag json => exact compiling _ _ _ _ _ _
  | compileAll input config json => exact compiling _ _ _ _ _ _
  | params path => exact ⟨((Path.ofText path).mapError .path).map Path.printed, [], rfl⟩

/-- A run that fails prints nothing. -/
theorem exit_of_failure {f : Failure} (h : (c.run w).failure = some f) :
    (c.run w).exit = 1 ∧ (c.run w).stdout = "" := by
  obtain ⟨result, events, ran⟩ := c.run_eq_of w
  rw [ran] at h ⊢
  cases result with
  | error f => exact ⟨rfl, rfl⟩
  | ok text => cases h

/-- A compiling command that does not fail prints a clause. -/
theorem printed_of_compileInput {input : String} {config : Option String} {flag : Option UInt64}
    {json : Bool} {announce : Settings → Event}
    {compile : Settings → String → Told (Except CompileFault Clause)} {o : Outcome}
    (course : w.Course input config flag json announce compile o) (h : o.failure = none) :
    o.exit = 0 ∧ ∃ s text clause, (w.loadSettings config flag).1 = .ok s ∧
      w.source input = .ok text ∧ (compile s text).1 = .ok clause ∧
      o.stdout = clause.printed json ++ "\n" := by
  cases course with
  | unsettled | unread | refused => cases h
  | printed settings read compiled =>
    exact ⟨rfl, _, _, _, settings, read, by rw [compiled], rfl⟩

/-- A run that does not fail prints one text and a line feed. -/
theorem prints_of_success (h : (c.run w).failure = none) :
    (c.run w).exit = 0 ∧ ∃ text, Prints w c text ∧ (c.run w).stdout = text ++ "\n" := by
  cases c with
  | version => exact ⟨rfl, versionLine, .version, rfl⟩
  | compile input config flag json =>
    obtain ⟨exit, s, text, clause, loaded, read, compiled, printed⟩ :=
      printed_of_compileInput (w.course _ _ _ _ _ _) h
    exact ⟨exit, _, .tree loaded read compiled, printed⟩
  | compileAll input config json =>
    obtain ⟨exit, s, text, clause, loaded, read, compiled, printed⟩ :=
      printed_of_compileInput (w.course _ _ _ _ _ _) h
    exact ⟨exit, _, .list loaded read compiled, printed⟩
  | params path =>
    have ran : (Command.params path).run w
        = .of (((Path.ofText path).mapError .path).map Path.printed) [] := rfl
    rw [ran] at h ⊢
    cases parsed : Path.ofText path with
    | error fault =>
      rw [parsed] at h
      cases h
    | ok p => exact ⟨rfl, p.printed, .path parsed, rfl⟩

/-- A compiling command announces itself exactly if its settings are loaded. -/
theorem announces_iff {input : String} {config : Option String} {flag : Option UInt64}
    {json : Bool} {announce : Settings → Event}
    {compile : Settings → String → Told (Except CompileFault Clause)} {o : Outcome}
    (announces : ∀ s, (announce s).Announces)
    (course : w.Course input config flag json announce compile o) :
    (∃ v ∈ o.events, v.Announces) ↔ ∃ s, (w.loadSettings config flag).1 = .ok s := by
  have begun : ∀ s (events : List Event), announce s ∈ events → ∃ v ∈ events, v.Announces :=
    fun s _ mem => ⟨announce s, mem, announces s⟩
  have last : ∀ s, announce s ∈ (w.loadSettings config flag).2 ++ [announce s] :=
    fun s => List.mem_append_right _ (List.mem_singleton_self _)
  cases course with
  | unsettled settings =>
    constructor
    · rintro ⟨v, mem, announced⟩
      -- The reading of a settings file is all that is told.
      obtain ⟨file, _, rfl⟩ := List.mem_map.mp mem
      exact absurd announced (Event.not_announces_loadingSettings file)
    · rintro ⟨s, loaded⟩
      cases loaded.symm.trans settings
  | unread settings _ => exact ⟨fun _ => ⟨_, settings⟩, fun _ => begun _ _ (last _)⟩
  | refused settings _ _ | printed settings _ _ =>
    exact ⟨fun _ => ⟨_, settings⟩, fun _ => begun _ _ (List.mem_append_left _ (last _))⟩

end

/-- **How a run ends.**  A run fails with the first thing that is wrong, in the order of
`Failure.rank`, and succeeds if nothing is; a list is never too deep.  A failure leaves the exit code
one and prints nothing; a success leaves zero and prints one text and a line feed.  A compiling
command announces itself exactly if its settings are loaded.  The parameters of a path are shown
without a look at the world, unless the text is no path. -/
theorem run_outcome (w : Surroundings) :
    (∀ (c : Command) (f : Failure), (c.run w).failure = some f ↔
      Wrong w c f ∧ ∀ g, Wrong w c g → f.rank ≤ g.rank) ∧
    (∀ c : Command, (c.run w).failure = none ↔ ∀ f, ¬ Wrong w c f) ∧
    (∀ input config json refusal, ((Command.compileAll input config json).run w).failure ≠
      some (.compile (.depthExceeded refusal))) ∧
    (∀ (c : Command) (f : Failure), (c.run w).failure = some f →
      (c.run w).exit = 1 ∧ (c.run w).stdout = "") ∧
    (∀ c : Command, (c.run w).failure = none →
      (c.run w).exit = 0 ∧ ∃ text, Prints w c text ∧ (c.run w).stdout = text ++ "\n") ∧
    (∀ input config flag json,
      (∃ v ∈ ((Command.compile input config flag json).run w).events, v.Announces) ↔
        ∃ s, (w.loadSettings config flag).1 = .ok s) ∧
    (∀ input config json,
      (∃ v ∈ ((Command.compileAll input config json).run w).events, v.Announces) ↔
        ∃ s, (w.loadSettings config none).1 = .ok s) ∧
    ∀ path, (∀ w', (Command.params path).run w' = (Command.params path).run w) ∧
      ∀ f, ((Command.params path).run w).failure = some f ↔
        ∃ fault, Path.ofText path = .error fault ∧ f = .path fault := by
  refine ⟨fun c f => failure_eq_some_iff, fun c => failure_eq_none_iff, ?_,
    fun c f => exit_of_failure, fun c => prints_of_success, ?_, ?_, ?_⟩
  · intro input config json refusal failed
    obtain ⟨wrong, _⟩ := failure_eq_some_iff.mp failed
    cases wrong
  · intro input config flag json
    exact announces_iff (fun s => Event.announces_compilingTree input s.maxDepth)
      (w.course _ _ _ _ _ _)
  · intro input config json
    exact announces_iff (fun _ => Event.announces_compilingList input) (w.course _ _ _ _ _ _)
  · intro path
    exact ⟨fun _ => rfl, fun f => failure_params_iff⟩

/-- three faults at once, of which the first is told; two at once; an empty list; and a path with an
empty step -/
theorem run_with_faults :
    let w : Surroundings := { environment := some "deep" }
    let w' : Surroundings := { environment := some " +3 ", input := .ok "[]" }
    let c : Command := .compile "filter.json" (some "settings.json") none false
    let list : Command := .compileAll standardInput none false
    ((c.run w).failure = some (.configRead "settings.json" .missing) ∧ (c.run w).exit = 1 ∧
      (c.run w).stdout = "") ∧
    (list.run w).failure = some (.invalidEnv "deep") ∧
    ((list.run w').failure = none ∧ (list.run w').exit = 0 ∧
      ∃ text, Prints w' list text ∧ (list.run w').stdout = text ++ "\n") ∧
    ((Command.params "a..b").run w).failure = some (.path (.emptyStep 1)) := by
  intro w w' c list
  obtain ⟨first, _, _, failed, _⟩ := run_outcome w
  have unread : (c.run w).failure = some (.configRead "settings.json" .missing) :=
    (first _ _).mpr ⟨.settingsUnread rfl rfl, fun g _ => Nat.zero_le _⟩
  have number : (list.run w).failure = some (.invalidEnv "deep") := by
    refine (first _ _).mpr ⟨.badVariable rfl rfl (by decide), fun g wrong => wrong.two_le ?_⟩
    intro file named
    cases named
  have succeeds : (list.run w').failure = none := by
    decide +kernel
  obtain ⟨_, _, _, _, succeeded, _⟩ := run_outcome w'
  obtain ⟨_, _, _, _, _, _, _, paths⟩ := run_outcome w
  exact ⟨⟨unread, failed c _ unread⟩, number, ⟨succeeds, succeeded list succeeds⟩,
    ((paths "a..b").2 _).mpr ⟨.emptyStep 1, rfl, rfl⟩⟩

end Command

end HqlWhere
