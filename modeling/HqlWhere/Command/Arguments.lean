import HqlWhere.Text.Numeral

/-!
# Arguments of the command

The first argument names a subcommand or asks for the version.  Behind a subcommand stand options,
in any order and each at most once: `--name value` or `--name=value`, or `--name` alone for a
switch.  A value that follows a blank may not start with a hyphen, unless it is just a hyphen.  A
last argument `--` is passed over.
-/

namespace HqlWhere

/-- What the command is asked to do. -/
inductive Command
  | version
  | compile (input : String) (config : Option String) (maxDepth : Option UInt64) (json : Bool)
  | compileAll (input : String) (config : Option String) (json : Bool)
  | params (path : String)
deriving DecidableEq

namespace Command

/-- The options that any subcommand knows, in one record. -/
structure Options where
  input : Option String := none
  config : Option String := none
  maxDepth : Option UInt64 := none
  path : Option String := none
  json : Bool := false

/-- Sets an option that takes a value; an option that is already set, and a value that it cannot
take, are refused. -/
def Options.set? (o : Options) (name value : String) : Option Options :=
  if name = "input" then
    if o.input.isSome then none else some { o with input := some value }
  else if name = "config" then
    if o.config.isSome then none else some { o with config := some value }
  else if name = "path" then
    if o.path.isSome then none else some { o with path := some value }
  else if name = "max-depth" then
    if o.maxDepth.isSome then none
    else (Word.ofText? value.toList).map fun n => { o with maxDepth := some n }
  else none

/-- The text behind two hyphens, split at the first equals sign if there is one. -/
def splitOption? (argument : String) : Option (String × Option String) :=
  match argument.toList with
  | '-' :: '-' :: s =>
    let name := s.takeWhile (· != '=')
    let value := match s.drop name.length with
      | _ :: v => some (String.ofList v)
      | [] => none
    if s.isEmpty then none else some (String.ofList name, value)
  | _ => none

/-- Whether an argument can be the value of the option before it. -/
def isValue (argument : String) : Bool := argument == "-" || argument.toList.head? != some '-'

/-- Takes the first option off a list of arguments: the options with it set, and the other
arguments.  The subcommand knows the options of the given names. -/
def takeOption? (names : List String) (o : Options) (argument : String) (rest : List String) :
    Option (Options × List String) := do
  let (name, value) ← splitOption? argument
  if names.contains name then
    if name = "json" then
      if value.isSome ∨ o.json then none else some ({ o with json := true }, rest)
    else match value, rest with
      | some v, _ => (o.set? name v).map (·, rest)
      | none, v :: rest => if isValue v then (o.set? name v).map (·, rest) else none
      | none, [] => none
  else none

/-- Reads the options of a subcommand that knows those of the given names.  `fuel` bounds their
number; the number of arguments suffices. -/
def readOptions (names : List String) : Nat → List String → Options → Option Options
  | _, [], o => some o
  | _, ["--"], o => some o
  | 0, _, _ => none
  | fuel + 1, argument :: rest, o => do
    let (o, rest) ← takeOption? names o argument rest
    readOptions names fuel rest o

def options? (names arguments : List String) : Option Options :=
  readOptions names arguments.length arguments {}

def compileOptions : List String := ["input", "config", "max-depth", "json"]

def compileAllOptions : List String := ["input", "config", "json"]

def paramsOptions : List String := ["path"]

/-- Reads the arguments; `none` if the command is used wrongly or asked for help. -/
def ofArguments? : List String → Option Command
  | "compile" :: rest => do
    let o ← options? compileOptions rest
    let input ← o.input
    pure (.compile input o.config o.maxDepth o.json)
  | "compile-all" :: rest => do
    let o ← options? compileAllOptions rest
    let input ← o.input
    pure (.compileAll input o.config o.json)
  | "params" :: rest => do
    let o ← options? paramsOptions rest
    let path ← o.path
    pure (.params path)
  | first :: _ =>
    if first = "--version" ∨ "-V".toList.isPrefixOf first.toList then some .version else none
  | [] => none

end Command

end HqlWhere
