import HqlWhere.Clause.Compiler

/-!
# Failures of the command

* `ReadFault`   why a file or standard input gives no text;
* `Failure`     why a command fails.

A failure has a `message` for its reader, and a `dump`, which names the failure and its parts and is
what the command shows at its end.
-/

namespace HqlWhere

/-- The reasons why a file or standard input gives no text. -/
inductive ReadFault
  | missing
  /-- Any other fault of the system, such as a directory in place of a file or a missing permission,
  by its number and its name. -/
  | system (number : Nat) (name : String)
  /-- The bytes are no UTF-8. -/
  | notText
deriving DecidableEq

/-- A fault of the system as a message tells it. -/
def systemMessage (number : Nat) (name : String) : String :=
  name ++ " (os error " ++ toString number ++ ")"

namespace ReadFault

def missingName : String := "No such file or directory"

def notTextName : String := "stream did not contain valid UTF-8"

def message : ReadFault → String
  | missing => systemMessage 2 missingName
  | system number name => systemMessage number name
  | notText => notTextName

end ReadFault

/-- The name of the environment variable that sets the depth limit. -/
def maxDepthVariable : String := "FILTERC_MAX_DEPTH"

/-- The reasons why a command fails. -/
inductive Failure
  | inputRead (fault : ReadFault)
  | configRead (file : String) (fault : ReadFault)
  | configParse (file : String) (fault : Json.Fault)
  /-- The environment variable does not hold a word; its value is told as it is. -/
  | invalidEnv (value : String)
  | compile (fault : CompileFault)
  | path (fault : Path.Fault)
deriving DecidableEq

def Failure.message : Failure → String
  | .inputRead f => "Failed to read input: " ++ f.message
  | .configRead file f => "Failed to read the settings file '" ++ file ++ "': " ++ f.message
  | .configParse file f => "Failed to parse the settings file '" ++ file ++ "': " ++ f.message
  | .invalidEnv value => "Invalid value for " ++ maxDepthVariable ++ ": " ++ value
  | .compile f => "Failed to compile filter: " ++ f.message
  | .path f => "Invalid field path: " ++ f.message

/-! ## dumps -/

namespace Dump

/-- Something of a kind, with what it is made of. -/
def wrapped (kind inner : String) : String := kind ++ "(" ++ inner ++ ")"

/-- Something of a kind, with its parts by their names. -/
def parts (kind : String) (named : List (String × String)) : String :=
  let shown := named.map fun (name, part) => name ++ ": " ++ part
  kind ++ " \x7b " ++ ", ".intercalate shown ++ " \x7d"

/-- The kinds of the system's faults that reading a file can meet, by their numbers. -/
def systemKinds : List (Nat × String) :=
  [(1, "PermissionDenied"), (2, "NotFound"), (4, "Interrupted"), (11, "WouldBlock"),
    (12, "OutOfMemory"), (13, "PermissionDenied"), (16, "ResourceBusy"), (20, "NotADirectory"),
    (21, "IsADirectory"), (22, "InvalidInput"), (27, "FileTooLarge"), (36, "InvalidFilename"),
    (40, "FilesystemLoop"), (110, "TimedOut"), (116, "StaleNetworkFileHandle")]

def system (number : Nat) (name : String) : String :=
  parts "Os" [("code", toString number), ("kind", (systemKinds.lookup number).getD "Uncategorized"),
    ("message", Text.quoted name)]

end Dump

open Dump

def ReadFault.dump : ReadFault → String
  | .missing => Dump.system 2 missingName
  | .system number name => Dump.system number name
  | .notText => parts "Error" [("kind", "InvalidData"), ("message", Text.quoted notTextName)]

/-- The fault without its place in the text. -/
def Json.Fault.dump (f : Json.Fault) : String := wrapped "Error" (Text.quoted f.message)

def CompileFault.dump : CompileFault → String
  | .depthExceeded e => parts "DepthExceeded" [("max_depth", toString e.limit.toNat)]
  | .invalidDocument f => wrapped "InvalidDocument" f.dump

def Path.Fault.dump : Path.Fault → String
  | .noStep => "EmptyPath"
  | .emptyStep i => parts "EmptyStep" [("index", toString i)]

def Failure.dump : Failure → String
  | .inputRead f => wrapped "InputRead" f.dump
  | .configRead file f => parts "ConfigRead" [("path", Text.quoted file), ("source", f.dump)]
  | .configParse file f => parts "ConfigParse" [("path", Text.quoted file), ("source", f.dump)]
  | .invalidEnv value =>
    parts "InvalidEnv" [("name", Text.quoted maxDepthVariable), ("value", Text.quoted value)]
  | .compile f => wrapped "Compile" f.dump
  | .path f => wrapped "Path" f.dump

/-- A directory that is named as a settings file. -/
example : (Failure.configRead "conf" (.system 21 "Is a directory")).dump =
    "ConfigRead \x7b path: \"conf\", source: Os \x7b code: 21, kind: IsADirectory, " ++
      "message: \"Is a directory\" \x7d \x7d" := by decide +kernel

end HqlWhere
