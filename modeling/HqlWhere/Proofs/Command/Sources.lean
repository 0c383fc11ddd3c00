import HqlWhere.Command.Sources

/-!
# Settings loaded or not

Loading settings either succeeds, and then the settings file and the environment variable are in
order, or fails with the first of them that is not.

* `Surroundings.SettingsRead`, `Surroundings.VariableRead`   file and variable are in order;
* `Surroundings.Unsettled`                                   why no settings are loaded;
* `Surroundings.settings_cases`                              one or the other.
-/

namespace HqlWhere

namespace Surroundings

/-- The settings file can be read and tells settings, if one is named. -/
def SettingsRead (w : Surroundings) (config : Option String) : Prop :=
  ∀ file, config = some file → ∃ text s, w.file file = .ok text ∧ Settings.parse text = .ok s

/-- The environment variable tells a number, if it is set. -/
def VariableRead (w : Surroundings) : Prop :=
  ∀ value, w.environment = some value → Word.ofText? (Text.trim value.toList) ≠ none

/-- Why no settings are loaded: the reasons in the order in which they are found. -/
inductive Unsettled (w : Surroundings) (config : Option String) : Failure → Prop
  | unread {file : String} {fault : ReadFault} (named : config = some file)
      (unread : w.file file = .error fault) : Unsettled w config (.configRead file fault)
  | unparsed {file text : String} {fault : Json.Fault} (named : config = some file)
      (read : w.file file = .ok text) (unparsed : Settings.parse text = .error fault) :
      Unsettled w config (.configParse file fault)
  | badVariable {value : String} (read : w.SettingsRead config) (set : w.environment = some value)
      (noNumber : Word.ofText? (Text.trim value.toList) = none) :
      Unsettled w config (.invalidEnv value)

theorem variableLimit_cases (w : Surroundings) :
    (∃ limit, variableLimit w.environment = .ok limit ∧ w.VariableRead) ∨
      ∃ value, variableLimit w.environment = .error (.invalidEnv value) ∧
        w.environment = some value ∧ Word.ofText? (Text.trim value.toList) = none := by
  unfold VariableRead
  cases set : w.environment with
  | none => exact .inl ⟨none, rfl, fun _ h => by cases h⟩
  | some value =>
    cases number : Word.ofText? (Text.trim value.toList) with
    | none => exact .inr ⟨value, by rw [variableLimit, number], rfl, number⟩
    | some n =>
      refine .inl ⟨some n, by rw [variableLimit, number], ?_⟩
      rintro _ ⟨⟩
      rw [number]
      exact Option.some_ne_none n

/-- The settings that the file tells, or the default settings if none is named. -/
def fileSettings (w : Surroundings) : Option String → Except Failure Settings
  | none => .ok {}
  | some file => w.settingsFile file

theorem settings_eq (w : Surroundings) (config : Option String) (flag : Option UInt64) :
    w.settings config flag = w.fileSettings config >>= fun s =>
      variableLimit w.environment >>= fun limit =>
        .ok { s with maxDepth := flag.or (limit.or s.maxDepth) } := by
  cases config <;> rfl

theorem fileSettings_cases (w : Surroundings) (config : Option String) :
    (∃ s, w.fileSettings config = .ok s ∧ w.SettingsRead config) ∨
      ∃ f, w.fileSettings config = .error f ∧ w.Unsettled config f := by
  cases config with
  | none => exact .inl ⟨{}, rfl, fun _ named => by cases named⟩
  | some file =>
    cases read : w.file file with
    | error fault =>
      exact .inr ⟨_, by rw [fileSettings, settingsFile, read]; rfl, .unread rfl read⟩
    | ok text =>
      cases parsed : Settings.parse text with
      | error fault =>
        have failed : w.fileSettings (some file) = .error (.configParse file fault) := by
          rw [fileSettings, settingsFile, read]
          show (Settings.parse text).mapError _ = _
          rw [parsed]
          rfl
        exact .inr ⟨_, failed, .unparsed rfl read parsed⟩
      | ok s =>
        have told : w.fileSettings (some file) = .ok s := by
          rw [fileSettings, settingsFile, read]
          show (Settings.parse text).mapError _ = _
          rw [parsed]
          rfl
        refine .inl ⟨s, told, ?_⟩
        rintro _ ⟨⟩
        exact ⟨text, s, read, parsed⟩

/-- Settings are loaded, or it is told why not. -/
theorem settings_cases (w : Surroundings) (config : Option String) (flag : Option UInt64) :
    (∃ s, w.settings config flag = .ok s ∧ w.SettingsRead config ∧ w.VariableRead) ∨
      ∃ f, w.settings config flag = .error f ∧ w.Unsettled config f := by
  rw [settings_eq]
  rcases w.fileSettings_cases config with ⟨s, told, read⟩ | ⟨f, failed, unsettled⟩
  · rw [told]
    rcases w.variableLimit_cases with ⟨limit, number, told⟩ | ⟨value, failed, set, noNumber⟩
    · exact .inl ⟨_, by rw [number]; rfl, read, told⟩
    · exact .inr ⟨_, by rw [failed]; rfl, .badVariable read set noNumber⟩
  · exact .inr ⟨f, by rw [failed]; rfl, unsettled⟩

end Surroundings

end HqlWhere
