import HqlWhere.Command.Arguments
import HqlWhere.Proofs.Command.Sources

/-!
# What can be wrong with a run

A run depends on its arguments, a settings file, the environment variable, the source of a document
and the document itself, and any of these can be bad.  `Command.Wrong` lists what can be wrong with a
run, each point for itself, whatever else is wrong, and `Failure.rank` puts the points into an order,
with at most one at each place.  A stage that is passed leaves the points behind it: `Wrong.one_le`,
`two_le`, `three_le`, `four_le`.
-/

namespace HqlWhere

/-- The text of a file or of standard input. -/
def Surroundings.source (w : Surroundings) (name : String) : Except ReadFault String :=
  if name = standardInput then w.input else w.file name

/-- The place of a failure in the order in which failures are looked for. -/
@[simp]
def Failure.rank : Failure → Nat
  | .configRead _ _ => 0
  | .configParse _ _ => 1
  | .invalidEnv _ => 2
  | .inputRead _ => 3
  | .compile (.invalidDocument _) => 4
  | .compile (.depthExceeded _) => 5
  | .path _ => 6

namespace Command

/-- The settings file that a command names. -/
def config? : Command → Option String
  | .compile _ config _ _ | .compileAll _ config _ => config
  | .version | .params _ => none

/-- The source of the document that a command compiles. -/
def input? : Command → Option String
  | .compile input _ _ _ | .compileAll input _ _ => some input
  | .version | .params _ => none

/-- What can be wrong with a run of a command.  No point says anything about the others, except that
a document has to be read before it is judged, and that only loaded settings limit the depth. -/
inductive Wrong (w : Surroundings) : Command → Failure → Prop
  | settingsUnread {c : Command} {file : String} {fault : ReadFault}
      (named : c.config? = some file) (unread : w.file file = .error fault) :
      Wrong w c (.configRead file fault)
  | settingsUnparsed {c : Command} {file text : String} {fault : Json.Fault}
      (named : c.config? = some file) (read : w.file file = .ok text)
      (unparsed : Settings.parse text = .error fault) : Wrong w c (.configParse file fault)
  | badVariable {c : Command} {input value : String} (compiles : c.input? = some input)
      (set : w.environment = some value)
      (noNumber : Word.ofText? (Text.trim value.toList) = none) : Wrong w c (.invalidEnv value)
  | inputUnread {c : Command} {input : String} {fault : ReadFault} (named : c.input? = some input)
      (unread : w.source input = .error fault) : Wrong w c (.inputRead fault)
  | treeRefused {input text : String} {config : Option String} {flag : Option UInt64} {json : Bool}
      {fault : Json.Fault} (read : w.source input = .ok text)
      (refused : Expr.parse text = .error fault) :
      Wrong w (.compile input config flag json) (.compile (.invalidDocument fault))
  | listRefused {input text : String} {config : Option String} {json : Bool} {fault : Json.Fault}
      (read : w.source input = .ok text) (refused : Predicate.parseList text = .error fault) :
      Wrong w (.compileAll input config json) (.compile (.invalidDocument fault))
  | tooDeep {input text : String} {config : Option String} {flag : Option UInt64} {json : Bool}
      {s : Settings} {e : Expr} {n : UInt64} (loaded : (w.loadSettings config flag).1 = .ok s)
      (read : w.source input = .ok text) (parsed : Expr.parse text = .ok e)
      (limit : s.maxDepth = some n) (deeper : n.toNat < e.depth) :
      Wrong w (.compile input config flag json) (.compile (.depthExceeded ⟨n⟩))
  | noPath {path : String} {fault : Path.Fault} (refused : Path.ofText path = .error fault) :
      Wrong w (.params path) (.path fault)

/-! ## what is wrong when a stage is passed -/

namespace Wrong

variable {w : Surroundings} {c : Command} {f g : Failure}

/-- At each place in the order at most one thing is wrong. -/
theorem eq_of_rank_eq (hf : Wrong w c f) (hg : Wrong w c g) (same : f.rank = g.rank) : f = g := by
  cases hf <;> cases hg <;> simp_all

/-- A settings file that can be read leaves the later points. -/
theorem one_le (h : Wrong w c f)
    (read : ∀ file, c.config? = some file → ∃ text, w.file file = .ok text) : 1 ≤ f.rank := by
  cases h with
  | settingsUnread named unread =>
    obtain ⟨text, read⟩ := read _ named
    rw [read] at unread
    cases unread
  | _ => simp

/-- A settings file in order leaves the environment variable and the later points. -/
theorem two_le (h : Wrong w c f) (settings : w.SettingsRead c.config?) : 2 ≤ f.rank := by
  have read : ∀ file, c.config? = some file → ∃ text, w.file file = .ok text := by
    intro file named
    obtain ⟨text, _, read, _⟩ := settings file named
    exact ⟨text, read⟩
  have first := h.one_le read
  cases h with
  | settingsUnread => simp at first
  | settingsUnparsed named read unparsed =>
    obtain ⟨text, s, read', parsed⟩ := settings _ named
    rw [read] at read'
    obtain rfl := Except.ok.inj read'
    rw [parsed] at unparsed
    cases unparsed
  | _ => simp

/-- Loaded settings leave the source and the document. -/
theorem three_le (h : Wrong w c f) (settings : w.SettingsRead c.config?)
    (number : w.VariableRead) : 3 ≤ f.rank := by
  have first := h.two_le settings
  cases h with
  | settingsUnread | settingsUnparsed => simp at first
  | badVariable _ set noNumber => exact absurd noNumber (number _ set)
  | _ => simp

/-- A source that can be read leaves the document. -/
theorem four_le (h : Wrong w c f) (settings : w.SettingsRead c.config?) (number : w.VariableRead)
    {input text : String} (named : c.input? = some input) (read : w.source input = .ok text) :
    4 ≤ f.rank := by
  have first := h.three_le settings number
  cases h with
  | settingsUnread | settingsUnparsed | badVariable => simp at first
  | inputUnread named' unread =>
    rw [named] at named'
    obtain rfl := Option.some.inj named'
    rw [read] at unread
    cases unread
  | _ => simp

/-- the parameters of a path can have nothing wrong but the path -/
theorem of_params {path : String} (wrong : Wrong w (.params path) f) :
    ∃ fault, Path.ofText path = .error fault ∧ f = .path fault := by
  cases wrong with
  | settingsUnread named _ => cases named
  | settingsUnparsed named _ _ => cases named
  | badVariable compiles _ _ => cases compiles
  | inputUnread named _ => cases named
  | noPath refused => exact ⟨_, refused, rfl⟩

end Wrong

end Command

end HqlWhere
