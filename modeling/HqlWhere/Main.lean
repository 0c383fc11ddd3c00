import HqlWhere.Command.Help
import HqlWhere.Command.Run

/-!
# The command line

The outer layer of the command: it reads the files, the environment and standard input that a
command asks for, runs the command, and prints what the run leaves.
-/

namespace HqlWhere

def usageExit : UInt32 := 2

/-- The name of the environment variable that sets the threshold of the log. -/
def logVariable : String := "RUST_LOG"

def asText (bytes : ByteArray) : Except ReadFault String :=
  match String.fromUTF8? bytes with
  | some s => .ok s
  | none => .error .notText

/-- The fault that the system tells when something cannot be read. -/
def ReadFault.ofError : IO.Error → ReadFault
  | .noFileOrDirectory _ _ _ => .missing
  | .alreadyExists _ number name | .invalidArgument _ number name
  | .permissionDenied _ number name | .resourceExhausted _ number name
  | .inappropriateType _ number name | .noSuchThing _ number name
  | .interrupted _ number name | .otherError number name | .resourceBusy number name
  | .resourceVanished number name | .unsupportedOperation number name
  | .hardwareFault number name | .unsatisfiedConstraints number name
  | .illegalOperation number name | .protocolError number name | .timeExpired number name =>
    .system number.toNat name
  | .unexpectedEof => .system 0 "unexpected end of file"
  | .userError name => .system 0 name

/-- The text that is read, or the reason why there is none. -/
def textOf (read : IO ByteArray) : IO (Except ReadFault String) := do
  try
    return asText (← read)
  catch e => return .error (.ofError e)

def fileText (name : String) : IO (Except ReadFault String) := textOf (IO.FS.readBinFile name)

def Command.files : Command → List String
  | .compile input config _ _ | .compileAll input config _ =>
    config.toList ++ (if input = standardInput then [] else [input])
  | .version | .params _ => []

def Command.readsInput : Command → Bool
  | .compile input _ _ _ | .compileAll input _ _ => input = standardInput
  | .version | .params _ => false

/-- What a command sees of the world: only what it reads is looked at. -/
def surroundings (c : Command) : IO Surroundings := do
  let files ← c.files.mapM fun name => do return (name, ← fileText name)
  let environment ← IO.getEnv maxDepthVariable
  let input ← if c.readsInput then textOf (← IO.getStdin).readBinToEnd else pure (.ok "")
  return { file := fun name => (files.lookup name).getD (.error .missing), environment, input }

end HqlWhere

open HqlWhere in
/-- Runs the command, with the log and any failure on standard error. -/
def main (arguments : List String) : IO UInt32 := do
  match Command.ofArguments? arguments with
  | none =>
    match Command.helpTopic? arguments with
    | some topic =>
      IO.print topic.text
      return 0
    | none =>
      IO.eprintln ("Usage: " ++ Topic.command.usage)
      return usageExit
  | some command =>
    let threshold := Threshold.ofName (← IO.getEnv logVariable)
    let t := command.transcript (← surroundings command) threshold
    t.log.forM IO.eprintln
    IO.print t.stdout
    if let some f := t.failure then
      IO.eprintln ("Error: " ++ f.dump)
    return t.exit.toUInt32
