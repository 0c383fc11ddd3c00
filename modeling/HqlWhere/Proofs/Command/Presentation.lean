import HqlWhere.Command.Run
import HqlWhere.Proofs.Command.Rewording

/-!
# Presentation does not touch the result

Two runs that differ in the threshold of the log, in where the document is read from or in how the
clause is printed agree in everything else.

* `Surroundings.found`           what a compiling command finds before anything is printed;
* `Threshold.keeps`              the lines of a log that are severe enough, by their first words;
* `Event.log_eq_filter`          each log is the most talkative one without the other lines;
* `SameButInput`                 logs that differ at most in the input that one line names;
* `Command.agree_on_result`      two such runs, side by side.
-/

namespace HqlWhere

/-! ## what is found, whatever is printed -/

/-- What a compiling command finds: a clause or why there is none, and the events. -/
def Surroundings.found (w : Surroundings) (input : String) (config : Option String)
    (flag : Option UInt64) (announce : Settings → Event)
    (compile : Settings → String → Told (Except CompileFault Clause)) :
    Told (Except Failure Clause) :=
  let loading := config.toList.map Event.loadingSettings
  match w.settings config flag with
  | .error f => (.error f, loading)
  | .ok s =>
    match w.source input with
    | .error fault => (.error (.inputRead fault), loading ++ [announce s])
    | .ok text =>
      ((compile s text).1.mapError .compile, loading ++ announce s :: (compile s text).2)

theorem Surroundings.compileInput_eq_found (w : Surroundings) (input : String)
    (config : Option String) (flag : Option UInt64) (json : Bool) (announce : Settings → Event)
    (compile : Settings → String → Told (Except CompileFault Clause)) :
    w.compileInput input config flag json announce compile =
      .of ((w.found input config flag announce compile).1.map fun c => c.printed json)
        (w.found input config flag announce compile).2 := by
  unfold compileInput found readInput
  rw [show (if input = standardInput then w.input else w.file input) = w.source input from rfl]
  simp only [loadSettings]
  cases w.settings config flag with
  | error f => rfl
  | ok s =>
    cases w.source input with
    | error fault => rfl
    | ok text =>
      dsimp only [Except.mapError]
      rw [List.append_assoc]
      rfl

/-- A text on standard input is compiled as from its file; the events differ where the command
announces itself. -/
theorem Surroundings.found_standardInput {w : Surroundings} {input text : String}
    (read : w.source input = .ok text) (config : Option String) (flag : Option UInt64)
    (announce announce' : Settings → Event)
    (compile : Settings → String → Told (Except CompileFault Clause)) :
    let told := w.found input config flag announce compile
    let told' := Surroundings.found { w with input := .ok text } standardInput config flag announce'
      compile
    told'.1 = told.1 ∧ (told'.2 = told.2 ∨ ∃ s loading compiling,
      told.2 = loading ++ announce s :: compiling ∧
      told'.2 = loading ++ announce' s :: compiling) := by
  have settings : Surroundings.settings { w with input := .ok text } config flag =
      w.settings config flag := rfl
  have read' : Surroundings.source { w with input := .ok text } standardInput = .ok text := rfl
  dsimp only
  unfold found
  rw [settings, read, read']
  cases w.settings config flag with
  | error f => exact ⟨rfl, .inl rfl⟩
  | ok s => exact ⟨rfl, .inr ⟨s, _, _, rfl, rfl⟩⟩

/-! ## logs -/

/-- The level that a line of a log begins with. -/
def Level.ofLine? (line : String) : Option Level :=
  [trace, debug, info, warn, error].find? fun level =>
    (level.name.toList ++ [' ']).isPrefixOf line.toList

/-- Whether a line of a log begins with a level that the threshold lets pass. -/
def Threshold.keeps (threshold : Threshold) (line : String) : Bool :=
  match threshold, Level.ofLine? line with
  | some least, some level => least.rank ≤ level.rank
  | _, _ => false

namespace Event

theorem ofLine?_sourcedLine (e : Event) : Level.ofLine? e.sourcedLine = some e.level := by
  obtain ⟨rest, line⟩ : ∃ rest, e.sourcedLine.toList = e.level.name.toList ++ ' ' :: rest := by
    refine ⟨(e.source ++ ": " ++ Text.harmless e.message).toList, ?_⟩
    rw [sourcedLine, String.append_assoc, String.append_assoc, String.append_assoc,
      String.toList_append, String.toList_append, String.append_assoc]
    rfl
  unfold Level.ofLine?
  rw [line]
  cases e.level <;> rfl

theorem keeps_sourcedLine (threshold : Threshold) (e : Event) :
    threshold.keeps e.sourcedLine = e.passes threshold := by
  unfold Threshold.keeps passes
  rw [e.ofLine?_sourcedLine]
  cases threshold <;> rfl

/-- **Each log is the most talkative one without the lines that are not severe enough.** -/
theorem log_eq_filter (threshold : Threshold) (events : List Event) :
    log threshold events = (log (some .trace) events).filter threshold.keeps := by
  have all : events.filter (passes (some .trace)) = events := by
    apply List.filter_eq_self.mpr
    intro e _
    have least : Level.trace.rank ≤ e.level.rank := Nat.zero_le _
    exact decide_eq_true least
  unfold log
  rw [all, List.filter_map]
  congr 1
  apply List.filter_congr
  intro e _
  exact (keeps_sourcedLine threshold e).symm

theorem log_append (threshold : Threshold) (a b : List Event) :
    log threshold (a ++ b) = log threshold a ++ log threshold b := by
  unfold log
  rw [List.filter_append, List.map_append]

theorem log_cons (threshold : Threshold) (e : Event) (events : List Event) :
    log threshold (e :: events) =
      (if e.passes threshold then [e.sourcedLine] else []) ++ log threshold events := by
  unfold log
  rw [List.filter_cons]
  split <;> rfl

end Event

/-- The events that tell the input of a compilation. -/
inductive TellsInput : (String → Event) → Prop
  | tree (limit : Option UInt64) : TellsInput fun input => .compilingTree input limit
  | list : TellsInput .compilingList

/-- The logs are the same, except that one line may name another input. -/
def SameButInput (input input' : String) (log log' : List String) : Prop :=
  log' = log ∨ ∃ event front back, TellsInput event ∧
    log = front ++ (event input).sourcedLine :: back ∧
    log' = front ++ (event input').sourcedLine :: back

theorem TellsInput.passes {event : String → Event} (h : TellsInput event) (threshold : Threshold)
    (input input' : String) :
    (event input).passes threshold = (event input').passes threshold := by
  cases h <;> rfl

theorem TellsInput.sameButInput {event : String → Event} (h : TellsInput event)
    (threshold : Threshold) (input input' : String) (loading compiling : List Event) :
    SameButInput input input' (Event.log threshold (loading ++ event input :: compiling))
      (Event.log threshold (loading ++ event input' :: compiling)) := by
  rw [Event.log_append, Event.log_append, Event.log_cons, Event.log_cons,
    h.passes threshold input input']
  by_cases kept : (event input').passes threshold = true
  · rw [if_pos kept, if_pos kept]
    exact .inr ⟨event, _, _, h, rfl, rfl⟩
  · rw [if_neg kept, if_neg kept]
    exact .inl rfl

/-! ## two runs -/

theorem Outcome.of_events (result : Except Failure String) (events events' : List Event) :
    (Outcome.of result events').exit = (Outcome.of result events).exit ∧
      (Outcome.of result events').stdout = (Outcome.of result events).stdout ∧
      (Outcome.of result events').failure = (Outcome.of result events).failure := by
  cases result <;> exact ⟨rfl, rfl, rfl⟩

theorem Outcome.events_of (result : Except Failure String) (events : List Event) :
    (Outcome.of result events).events = events := by
  cases result <;> rfl

/-- what is printed shows only where something is -/
theorem Outcome.of_map {α : Type} (result : Except Failure α) (print print' : α → String)
    (events : List Event) :
    (Outcome.of (result.map print') events).exit = (Outcome.of (result.map print) events).exit ∧
      (Outcome.of (result.map print') events).failure =
        (Outcome.of (result.map print) events).failure ∧
      ((Outcome.of (result.map print) events).exit ≠ 0 →
        (Outcome.of (result.map print') events).stdout =
          (Outcome.of (result.map print) events).stdout) := by
  cases result with
  | error f => exact ⟨rfl, rfl, fun _ => rfl⟩
  | ok x => exact ⟨rfl, rfl, fun failed => absurd rfl failed⟩

namespace Command

/-- What a compiling command finds. -/
def found (w : Surroundings) : Command → Told (Except Failure Clause)
  | .compile input config maxDepth _ =>
    w.found input config maxDepth (fun s => .compilingTree input s.maxDepth)
      Settings.compileTreeDocument
  | .compileAll input config _ =>
    w.found input config none (fun _ => .compilingList input) Settings.compileListDocument
  | .version | .params _ => (.ok {}, [])

section
variable {w : Surroundings} {c : Command} {input : String} (compiles : c.input? = some input)
include compiles

theorem run_eq_found :
    c.run w = .of ((c.found w).1.map fun clause => clause.printed c.json) (c.found w).2 := by
  cases c with
  | compile input config flag json => exact w.compileInput_eq_found input config flag json _ _
  | compileAll input config json => exact w.compileInput_eq_found input config none json _ _
  | version => cases compiles
  | params path => cases compiles

theorem found_withJson : c.withJson.found w = c.found w := by
  cases c <;> rfl

/-- A document on standard input is compiled as in its file. -/
theorem found_withInput {text : String} (read : w.source input = .ok text) :
    ((c.withInput standardInput).found { w with input := .ok text }).1 = (c.found w).1 ∧
      (((c.withInput standardInput).found { w with input := .ok text }).2 = (c.found w).2 ∨
        ∃ event loading compiling, TellsInput event ∧
          (c.found w).2 = loading ++ event input :: compiling ∧
          ((c.withInput standardInput).found { w with input := .ok text }).2 =
            loading ++ event standardInput :: compiling) := by
  cases c with
  | compile name config flag json =>
    obtain rfl := Option.some.inj compiles
    obtain ⟨same, events⟩ := Surroundings.found_standardInput read config flag
      (fun s => .compilingTree name s.maxDepth) (fun s => .compilingTree standardInput s.maxDepth)
      Settings.compileTreeDocument
    refine ⟨same, events.imp_right ?_⟩
    rintro ⟨s, loading, compiling, first, second⟩
    exact ⟨fun input => .compilingTree input s.maxDepth, loading, compiling, .tree s.maxDepth,
      first, second⟩
  | compileAll name config json =>
    obtain rfl := Option.some.inj compiles
    obtain ⟨same, events⟩ := Surroundings.found_standardInput read config none
      (fun _ => .compilingList name) (fun _ => .compilingList standardInput)
      Settings.compileListDocument
    refine ⟨same, events.imp_right ?_⟩
    rintro ⟨s, loading, compiling, first, second⟩
    exact ⟨.compilingList, loading, compiling, .list, first, second⟩
  | version => cases compiles
  | params path => cases compiles

/-! ## what is seen of two runs -/

theorem transcript_withInput {text : String} (read : w.source input = .ok text)
    (threshold : Threshold) :
    let t := c.transcript w threshold
    let t' := (c.withInput standardInput).transcript { w with input := .ok text } threshold
    t'.exit = t.exit ∧ t'.stdout = t.stdout ∧ t'.failure = t.failure ∧
      SameButInput input standardInput t.log t'.log := by
  have renamed : (c.withInput standardInput).input? = some standardInput := by
    cases c with
    | compile | compileAll => rfl
    | version | params => cases compiles
  have json : (c.withInput standardInput).json = c.json := by
    cases c <;> rfl
  obtain ⟨same, events⟩ := found_withInput compiles read
  dsimp only [transcript]
  rw [run_eq_found compiles, run_eq_found renamed, json, same]
  obtain ⟨exit, stdout, failure⟩ := Outcome.of_events
    ((c.found w).1.map fun clause => clause.printed c.json) (c.found w).2
    ((c.withInput standardInput).found { w with input := .ok text }).2
  refine ⟨exit, stdout, failure, ?_⟩
  rw [Outcome.events_of, Outcome.events_of]
  rcases events with alike | ⟨event, loading, compiling, tells, first, second⟩
  · rw [alike]
    exact .inl rfl
  · rw [first, second]
    exact tells.sameButInput threshold input standardInput loading compiling

theorem transcript_withJson (threshold : Threshold) :
    let t := c.transcript w threshold
    let t' := c.withJson.transcript w threshold
    t'.exit = t.exit ∧ t'.failure = t.failure ∧ t'.log = t.log ∧
      (t.exit ≠ 0 → t'.stdout = t.stdout) := by
  have same : c.withJson.input? = some input := by
    cases c with
    | compile | compileAll => exact compiles
    | version | params => cases compiles
  dsimp only [transcript]
  rw [run_eq_found compiles, run_eq_found same, found_withJson compiles]
  obtain ⟨exit, failure, stdout⟩ := Outcome.of_map (c.found w).1
    (fun clause => clause.printed c.json) (fun clause => clause.printed c.withJson.json)
    (c.found w).2
  refine ⟨exit, failure, ?_, stdout⟩
  rw [Outcome.events_of, Outcome.events_of]

end

/-- The names of the thresholds. -/
def thresholdNames : List String := ["off", "error", "warn", "info", "debug", "trace"]

/-- **Runs that differ only in presentation agree on the result.**  The threshold of the log decides
which lines of the most talkative log are left, and nothing else.  A document on standard input is
compiled as in its file, and at most one line of the log names another input.  A clause that is
printed as JSON is printed by the same runs, with the same log.  Arguments can be changed
accordingly. -/
theorem agree_on_result (w : Surroundings) :
    (∀ (c : Command) (input : String), c.input? = some input →
      (∀ name ∈ thresholdNames,
        let t := c.transcript w (.ofName (some name))
        let all := c.transcript w (.ofName (some "trace"))
        t.exit = all.exit ∧ t.stdout = all.stdout ∧ t.failure = all.failure ∧
          t.log = all.log.filter (Threshold.ofName (some name)).keeps) ∧
      (∀ text, w.source input = .ok text → ∀ threshold,
        let t := c.transcript w threshold
        let t' := (c.withInput standardInput).transcript { w with input := .ok text } threshold
        t'.exit = t.exit ∧ t'.stdout = t.stdout ∧ t'.failure = t.failure ∧
          SameButInput input standardInput t.log t'.log) ∧
      ∀ threshold,
        let t := c.transcript w threshold
        let t' := c.withJson.transcript w threshold
        t'.exit = t.exit ∧ t'.failure = t.failure ∧ t'.log = t.log ∧
          (t.exit ≠ 0 → t'.stdout = t.stdout)) ∧
    ∀ first, first = "compile" ∨ first = "compile-all" →
      (∀ joined pre post input (c : Command),
        ofArguments? (first :: (pre ++ (spelledInput joined input ++ post))) = some c →
        c.input? = some input ∧
          ofArguments? (first :: (pre ++ (spelledInput joined standardInput ++ post))) =
            some (c.withInput standardInput)) ∧
      ∀ rest (c : Command), ofArguments? (first :: rest) = some c → c.json = false →
        ofArguments? (first :: "--json" :: rest) = some c.withJson := by
  constructor
  · intro c input compiles
    refine ⟨?_, fun text => transcript_withInput compiles, transcript_withJson compiles⟩
    intro name _
    have lowest := Threshold.ofName_of_mem ("trace", some .trace) (by decide)
    refine ⟨rfl, rfl, rfl, ?_⟩
    rw [lowest]
    exact Event.log_eq_filter _ _
  · intro first compiles
    constructor
    · intro joined pre post input c accepted
      exact ofArguments?_replaced compiles joined accepted
    · intro rest c accepted plain
      exact ofArguments?_json compiles accepted plain

/-- An empty list of predicates in a file, on standard input, and printed as JSON. -/
theorem agree_on_emptyList :
    let w : Surroundings := { file := fun name =>
      if name = "filter.json" then .ok "[]" else .error .missing }
    let c : Command := .compileAll "filter.json" none false
    (c.transcript w (some .warn)).log = (c.transcript w (some .trace)).log.filter
        (Threshold.keeps (some .warn)) ∧
      ((c.withInput standardInput).transcript { w with input := .ok "[]" } (some .info)).stdout =
        (c.transcript w (some .info)).stdout ∧
      (c.withJson.transcript w (some .info)).log = (c.transcript w (some .info)).log ∧
      ofArguments? ["compile-all", "--input", "-"] = some (c.withInput standardInput) ∧
      ofArguments? ["compile-all", "--json", "--input=filter.json"] = some c.withJson := by
  intro w c
  obtain ⟨runs, arguments⟩ := agree_on_result w
  obtain ⟨thresholds, inputs, switch⟩ := runs c "filter.json" rfl
  obtain ⟨replaced, set⟩ := arguments "compile-all" (.inr rfl)
  obtain ⟨_, _, _, log⟩ := thresholds "warn" (by decide)
  rw [Threshold.ofName_of_mem ("warn", some .warn) (by decide),
    Threshold.ofName_of_mem ("trace", some .trace) (by decide)] at log
  obtain ⟨_, stdout, _⟩ := inputs "[]" rfl (some .info)
  obtain ⟨_, _, same, _⟩ := switch (some .info)
  have apart : ofArguments? ("compile-all" :: ([] ++ (spelledInput false "filter.json" ++ []))) =
      some c := by decide +kernel
  have joined : ofArguments? ["compile-all", "--input=filter.json"] = some c := by decide +kernel
  exact ⟨log, stdout, same, (replaced false [] [] _ c apart).2, set _ c joined rfl⟩

end Command

end HqlWhere
