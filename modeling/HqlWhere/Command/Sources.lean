import HqlWhere.Command.Failure
import HqlWhere.Document.Settings

/-!
# Where settings come from

Settings are read from a file if one is named; then the environment variable, and then the flag, may
replace the depth limit.  Neither can remove a limit.  The sources are checked in this order, so a
fault of an earlier one is reported even where a later one would have prevailed.

* `Surroundings`     what a command can see of the world;
* `variableLimit`    the limit that the environment variable tells;
* `loadSettings`     the settings of all sources;
* `readInput`        the text of a file or of standard input.
-/

namespace HqlWhere

/-- What a command can see of the world: the text of each file, the value of the environment
variable if it is set, and the text of standard input.  A value that is no text counts as none. -/
structure Surroundings where
  file : String → Except ReadFault String := fun _ => .error .missing
  environment : Option String := none
  input : Except ReadFault String := .ok ""

/-- The depth limit that the environment variable tells, between blanks. -/
def variableLimit : Option String → Except Failure (Option UInt64)
  | none => .ok none
  | some value =>
    match Word.ofText? (Text.trim value.toList) with
    | some n => .ok (some n)
    | none => .error (.invalidEnv value)

def Surroundings.settingsFile (w : Surroundings) (name : String) : Except Failure Settings := do
  let text ← (w.file name).mapError (.configRead name)
  (Settings.parse text).mapError (.configParse name)

/-- The settings of all sources, without the events. -/
def Surroundings.settings (w : Surroundings) (config : Option String) (flag : Option UInt64) :
    Except Failure Settings := do
  let fromFile ← match config with
    | some name => w.settingsFile name
    | none => pure {}
  let limit ← variableLimit w.environment
  pure { fromFile with maxDepth := flag.or (limit.or fromFile.maxDepth) }

/-- The settings of all sources.  The reading of a file is told before it begins. -/
def Surroundings.loadSettings (w : Surroundings) (config : Option String) (flag : Option UInt64) :
    Told (Except Failure Settings) :=
  (w.settings config flag, config.toList.map .loadingSettings)

def standardInput : String := "-"

def Surroundings.readInput (w : Surroundings) (name : String) : Except Failure String :=
  (if name = standardInput then w.input else w.file name).mapError .inputRead

end HqlWhere
