import HqlWhere.Main
import HqlWhere.Proofs.Command.Sources
import HqlWhere.Proofs.Json.Readers
import Mathlib.Data.List.Basic

/-!
# Which settings prevail

Settings come from a file, from the environment variable and from the flag.  A later source replaces
the limit of an earlier one, and no source can take a limit away.  Whether a run has settings at all
is up to the file and the variable; the flag has no say in it.

* `Surroundings.Resolved`            the settings that the sources tell, each by itself;
* `Surroundings.loaded_error_iff`, `Surroundings.loaded_ok_iff`   a run has none for the first fault,
                                     and these otherwise;
* `asText_eq_ok`, `asText_eq_error`  what a file has to hold in order to be read;
* `Surroundings.settings_resolved`   the rules of precedence, in one statement.
-/

namespace HqlWhere

/-! ## files -/

theorem asText_eq_ok {bytes : ByteArray} {text : String} :
    asText bytes = .ok text ↔ text.toUTF8 = bytes := by
  unfold asText String.fromUTF8?
  constructor
  · intro h
    split at h
    · rename_i s read
      obtain rfl := Except.ok.inj h
      split at read
      · obtain rfl := Option.some.inj read
        rfl
      · cases read
    · cases h
  · rintro rfl
    rw [String.toUTF8_eq_toByteArray, dif_pos text.isValidUTF8]
    rfl

/-- Bytes are refused for one reason only, that no text has them as its UTF-8. -/
theorem asText_eq_error {bytes : ByteArray} {fault : ReadFault} :
    asText bytes = .error fault ↔ fault = .notText ∧ ∀ text : String, text.toUTF8 ≠ bytes := by
  constructor
  · intro refused
    have only : fault = .notText := by
      unfold asText at refused
      split at refused
      · cases refused
      · exact (Except.error.inj refused).symm
    refine ⟨only, fun text same => ?_⟩
    cases refused.symm.trans (asText_eq_ok.mpr same)
  · rintro ⟨rfl, none⟩
    cases read : asText bytes with
    | ok text => exact absurd (asText_eq_ok.mp read) (none text)
    | error fault =>
      unfold asText at read
      split at read
      · cases read
      · exact read.symm

namespace Surroundings

/-! ## what each source tells -/

/-- The settings that the file tells; without a file, no limit and warnings. -/
inductive FileTells (w : Surroundings) : Option String → Settings → Prop
  | unnamed : FileTells w none { maxDepth := none, warnOnCollision := true }
  | named {file text : String} {s : Settings} (read : w.file file = .ok text)
      (parsed : Settings.parse text = .ok s) : FileTells w (some file) s

/-- The limit that the environment variable tells, if it is set. -/
inductive VariableTells (w : Surroundings) : Option UInt64 → Prop
  | unset (h : w.environment = none) : VariableTells w none
  | set {value : String} {n : UInt64} (h : w.environment = some value)
      (number : Word.ofText? (Text.trim value.toList) = some n) : VariableTells w (some n)

/-- Of the limits of the flag, the variable and the file, in this order, the one that prevails. -/
inductive Prevails : Option UInt64 → Option UInt64 → Option UInt64 → Option UInt64 → Prop
  | ofFlag {n : UInt64} {told filed : Option UInt64} : Prevails (some n) told filed (some n)
  | ofVariable {n : UInt64} {filed : Option UInt64} : Prevails none (some n) filed (some n)
  | ofFile {filed : Option UInt64} : Prevails none none filed filed

/-- The settings that file, variable and flag tell together. -/
def Resolved (w : Surroundings) (config : Option String) (flag : Option UInt64) (s : Settings) :
    Prop :=
  ∃ filed told, w.FileTells config filed ∧ w.VariableTells told ∧
    Prevails flag told filed.maxDepth s.maxDepth ∧ s.warnOnCollision = filed.warnOnCollision

/-- The same world with the environment variable not set. -/
def withoutVariable (w : Surroundings) : Surroundings := { w with environment := none }

theorem prevails_iff {flag told filed limit : Option UInt64} :
    Prevails flag told filed limit ↔ limit = flag.or (told.or filed) := by
  constructor
  · rintro (_ | _ | _) <;> rfl
  · rintro rfl
    cases flag with
    | some n => exact .ofFlag
    | none =>
      cases told with
      | some n => exact .ofVariable
      | none => exact .ofFile

section
variable {w : Surroundings} {config : Option String}

theorem fileSettings_eq_ok {s : Settings} : w.fileSettings config = .ok s ↔ w.FileTells config s := by
  constructor
  · intro told
    cases config with
    | none =>
      obtain rfl := Except.ok.inj told
      exact .unnamed
    | some file =>
      obtain ⟨text, read, told⟩ := Json.bind_eq_ok.mp told
      exact .named (Json.mapError_eq_ok.mp read) (Json.mapError_eq_ok.mp told)
  · intro told
    cases told with
    | unnamed => rfl
    | named read parsed =>
      exact Json.bind_eq_ok.mpr ⟨_, Json.mapError_eq_ok.mpr read, Json.mapError_eq_ok.mpr parsed⟩

theorem variableLimit_eq_ok {told : Option UInt64} :
    variableLimit w.environment = .ok told ↔ w.VariableTells told := by
  constructor
  · intro found
    cases set : w.environment with
    | none =>
      rw [set] at found
      obtain rfl := Except.ok.inj found
      exact .unset set
    | some value =>
      rw [set, variableLimit] at found
      cases number : Word.ofText? (Text.trim value.toList) with
      | none =>
        rw [number] at found
        cases found
      | some n =>
        rw [number] at found
        obtain rfl := Except.ok.inj found
        exact .set set number
  · intro tells
    cases tells with
    | unset unset => rw [unset, variableLimit]
    | set set number => rw [set, variableLimit, number]

/-! ## whether there are settings -/

/-- The first fault of the file and the variable is the outcome, whatever the flag says. -/
theorem Unsettled.settings_eq {f : Failure} (h : w.Unsettled config f) (flag : Option UInt64) :
    w.settings config flag = .error f := by
  rw [Surroundings.settings_eq]
  cases h with
  | unread named unread =>
    subst named
    rw [fileSettings, settingsFile, unread]
    rfl
  | unparsed named read unparsed =>
    subst named
    rw [fileSettings, settingsFile, read]
    show ((Settings.parse _).mapError _ >>= _) = _
    rw [unparsed]
    rfl
  | badVariable read set noNumber =>
    have filed : ∃ s, w.FileTells config s := by
      cases config with
      | none => exact ⟨_, .unnamed⟩
      | some file =>
        obtain ⟨text, s, read, parsed⟩ := read file rfl
        exact ⟨s, .named read parsed⟩
    obtain ⟨s, filed⟩ := filed
    rw [fileSettings_eq_ok.mpr filed, set]
    show (variableLimit (some _) >>= _) = _
    rw [variableLimit, noNumber]
    rfl

theorem loaded_error_iff {flag : Option UInt64} {f : Failure} :
    (w.loadSettings config flag).1 = .error f ↔ w.Unsettled config f := by
  show w.settings config flag = .error f ↔ _
  constructor
  · intro failed
    rcases w.settings_cases config flag with ⟨s, loaded, _⟩ | ⟨f', failed', unsettled⟩
    · cases loaded.symm.trans failed
    · obtain rfl := Except.error.inj (failed'.symm.trans failed)
      exact unsettled
  · intro unsettled
    exact unsettled.settings_eq flag

theorem loaded_ok_iff {flag : Option UInt64} {s : Settings} :
    (w.loadSettings config flag).1 = .ok s ↔ w.Resolved config flag s := by
  show w.settings config flag = .ok s ↔ _
  rw [settings_eq]
  constructor
  · intro loaded
    obtain ⟨filed, file, loaded⟩ := Json.bind_eq_ok.mp loaded
    obtain ⟨told, variable_, loaded⟩ := Json.bind_eq_ok.mp loaded
    obtain rfl := Except.ok.inj loaded
    exact ⟨filed, told, fileSettings_eq_ok.mp file, variableLimit_eq_ok.mp variable_,
      prevails_iff.mpr rfl, rfl⟩
  · rintro ⟨filed, told, file, tells, prevails, warn⟩
    rw [fileSettings_eq_ok.mpr file, variableLimit_eq_ok.mpr tells]
    obtain ⟨limit, warning⟩ := s
    obtain rfl := prevails_iff.mp prevails
    obtain rfl := warn
    rfl

/-! ## replacing a limit -/

theorem Prevails.eq_none {flag told filed : Option UInt64} (h : Prevails flag told filed none) :
    flag = none ∧ told = none ∧ filed = none := by
  cases h
  exact ⟨rfl, rfl, rfl⟩

/-- The flag replaces the limit of the other sources and leaves everything else as it is. -/
theorem loaded_flag (flag : Option UInt64) : (w.loadSettings config flag).1 =
    (w.loadSettings config none).1.map fun s => { s with maxDepth := flag.or s.maxDepth } := by
  show w.settings config flag = (w.settings config none).map _
  rw [settings_eq, settings_eq]
  cases w.fileSettings config with
  | error f => rfl
  | ok filed =>
    cases variableLimit w.environment with
    | error f => rfl
    | ok told => rfl

/-- The variable replaces the limit of the file and leaves everything else as it is. -/
theorem loaded_variable {told : Option UInt64} (tells : w.VariableTells told) :
    (w.loadSettings config none).1 =
      (w.withoutVariable.loadSettings config none).1.map fun s =>
        { s with maxDepth := told.or s.maxDepth } := by
  have unset : w.withoutVariable.fileSettings config
      = w.fileSettings config := by
    cases config <;> rfl
  show w.settings config none = (Surroundings.settings _ config none).map _
  rw [settings_eq, settings_eq, unset, variableLimit_eq_ok.mpr tells]
  cases w.fileSettings config with
  | error f => rfl
  | ok filed => rfl

end

/-- **Which settings prevail.**  Settings are refused for the first fault of the file and then the
variable, whatever the flag says.  Otherwise they are those of the sources: the limit is that of the
flag, else of the variable, else of the file, and the warnings are up to the file.  The naming of a
file is told, and nothing else.  A source that comes later can only replace a limit, and there is
none only if no source tells one.  A file is read if it holds the UTF-8 of a text. -/
theorem settings_resolved (w : Surroundings) (config : Option String) (flag : Option UInt64) :
    (∀ f, (w.loadSettings config flag).1 = .error f ↔ w.Unsettled config f) ∧
    (∀ s, (w.loadSettings config flag).1 = .ok s ↔ w.Resolved config flag s) ∧
    ((w.loadSettings config flag).2 = config.toList.map .loadingSettings ∧
      ∀ file, (Event.loadingSettings file).line =
        "INFO Loading compiler settings from " ++ file) ∧
    ((w.loadSettings config flag).1 = (w.loadSettings config none).1.map fun s =>
      { s with maxDepth := flag.or s.maxDepth }) ∧
    (∀ told, w.VariableTells told → (w.loadSettings config none).1 =
      (w.withoutVariable.loadSettings config none).1.map fun s =>
        { s with maxDepth := told.or s.maxDepth }) ∧
    (∀ s, (w.loadSettings config flag).1 = .ok s → s.maxDepth = none →
      flag = none ∧ w.VariableTells none ∧ ∃ filed, w.FileTells config filed ∧
        filed.maxDepth = none) ∧
    ∀ bytes text fault, (asText bytes = .ok text ↔ text.toUTF8 = bytes) ∧
      (asText bytes = .error fault ↔ fault = .notText ∧ ∀ text : String, text.toUTF8 ≠ bytes) := by
  refine ⟨fun f => loaded_error_iff, fun s => loaded_ok_iff, ⟨rfl, fun file => ?_⟩,
    loaded_flag flag, fun told => loaded_variable, fun s loaded unlimited => ?_,
    fun bytes text fault => ⟨asText_eq_ok, asText_eq_error⟩⟩
  · show "INFO" ++ " " ++ ("Loading compiler settings from " ++ file) = _
    rw [← String.append_assoc]
    rfl
  · obtain ⟨filed, told, file, tells, prevails, _⟩ := loaded_ok_iff.mp loaded
    rw [unlimited] at prevails
    obtain ⟨noFlag, rfl, noLimit⟩ := prevails.eq_none
    exact ⟨noFlag, tells, filed, file, noLimit⟩

/-- A file with the limit 8, the variable with 16, and the flag with 2. -/
def threeSources : Surroundings where
  file name := if name = "settings.json" then
      .ok (Settings.toJson { maxDepth := some 8, warnOnCollision := false }).compact
    else .error .missing
  environment := some " 16 "

/-- The flag prevails over the variable and the variable over the file, but neither over a variable
that tells no number, nor that over a file that is not there. -/
theorem settings_of_threeSources :
    let w := threeSources
    let w' : Surroundings := { w with environment := some "deep" }
    (w.loadSettings (some "settings.json") (some 2)).1
      = .ok { maxDepth := some 2, warnOnCollision := false } ∧
    (w.loadSettings (some "settings.json") none).1
      = .ok { maxDepth := some 16, warnOnCollision := false } ∧
    (w'.loadSettings (some "settings.json") (some 2)).1 = .error (.invalidEnv "deep") ∧
    (w'.loadSettings (some "other.json") (some 2)).1
      = .error (.configRead "other.json" .missing) := by
  intro w w'
  have parsed : Settings.parse
      (Settings.toJson { maxDepth := some 8, warnOnCollision := false }).compact
      = .ok { maxDepth := some 8, warnOnCollision := false } := by
    decide +kernel
  have filed : w.FileTells (some "settings.json")
      { maxDepth := some 8, warnOnCollision := false } := .named rfl parsed
  have told : w.VariableTells (some 16) := .set rfl (by decide)
  have read : w'.SettingsRead (some "settings.json") := by
    rintro _ ⟨⟩
    exact ⟨_, _, rfl, parsed⟩
  obtain ⟨_, withFlag, _⟩ := settings_resolved w (some "settings.json") (some 2)
  obtain ⟨_, without, _⟩ := settings_resolved w (some "settings.json") none
  obtain ⟨badVariable, _⟩ := settings_resolved w' (some "settings.json") (some 2)
  obtain ⟨noFile, _⟩ := settings_resolved w' (some "other.json") (some 2)
  exact ⟨(withFlag _).mpr ⟨_, _, filed, told, .ofFlag, rfl⟩,
    (without _).mpr ⟨_, _, filed, told, .ofVariable, rfl⟩,
    (badVariable _).mpr (.badVariable read rfl (by decide)),
    (noFile _).mpr (.unread rfl rfl)⟩

end Surroundings

end HqlWhere
