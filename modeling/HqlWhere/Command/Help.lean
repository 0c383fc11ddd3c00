import HqlWhere.Command.Arguments

/-!
# Help

Help is asked for by `--help` or `-h` in place of a subcommand or of an option, or by the word `help`,
alone or in front of a subcommand.  What stands behind such an argument is not looked at, and neither
is what is still missing; what stands in front of it has to be in order.

* `Command.helpTopic?`   what help is asked for, if it is;
* `Topic.text`           the help.
-/

namespace HqlWhere

/-- What help can be about. -/
inductive Topic
  | command
  | compile
  | compileAll
  | params
deriving DecidableEq

namespace Command

/-- Whether an argument asks for help.  Behind the short form other letters may follow. -/
def isHelp (argument : String) : Bool :=
  argument == "--help" || "-h".toList.isPrefixOf argument.toList

/-- Whether options of a subcommand that knows those of the given names ask for help.  `fuel` bounds
their number; the number of arguments suffices. -/
def asksHelp (names : List String) : Nat → List String → Options → Bool
  | fuel + 1, argument :: rest, o =>
    if isHelp argument then true
    else match takeOption? names o argument rest with
      | some (o, rest) => asksHelp names fuel rest o
      | none => false
  | _, _, _ => false

/-- The topic of a subcommand, and the names of the options that it knows. -/
def subcommand? : String → Option (Topic × List String)
  | "compile" => some (.compile, compileOptions)
  | "compile-all" => some (.compileAll, compileAllOptions)
  | "params" => some (.params, paramsOptions)
  | _ => none

/-- What help is asked for behind the word `help`. -/
def helpBehind? : List String → Option Topic
  | [] => some .command
  | [name] => (subcommand? name).map Prod.fst
  | _ => none

/-- What help is asked for, if it is. -/
def helpTopic? : List String → Option Topic
  | [] => none
  | first :: rest =>
    match subcommand? first with
    | some (topic, names) => if asksHelp names rest.length rest {} then some topic else none
    | none =>
      if isHelp first then some .command
      else if first = "help" then helpBehind? rest
      else none

end Command

namespace Topic

/-- Entries below one another, what they are about in a column of its own. -/
def entries (l : List (String × String)) : String :=
  let width := (l.map fun entry => entry.1.length).foldl max 0
  String.join (l.map fun (entry, about) =>
    "  " ++ entry ++ String.ofList (List.replicate (width - entry.length + 2) ' ') ++ about ++ "\n")

def inputOption (about : String) : String × String :=
  ("    --input <INPUT>", about ++ " document path, or '-' for stdin")

def configOption : String × String := ("    --config <CONFIG>", "Compiler settings file (JSON)")

def depthOption : String × String :=
  ("    --max-depth <MAX_DEPTH>", "Reject trees nested deeper than this")

def jsonOption : String × String :=
  ("    --json", "Print the clause, its parameters and collisions as JSON")

def pathOption : String × String :=
  ("    --path <PATH>", "Dotted field path, e.g. \"author.books.title\"")

def helpOption : String × String := ("-h, --help", "Print help")

def about : Topic → String
  | command => "Compiles filter expressions into HQL WHERE clauses"
  | compile => "Compile a JSON filter expression tree into a WHERE clause"
  | compileAll => "Compile a JSON array of predicates into an AND-joined WHERE clause"
  | params => "Show how a field path appears in a compiled clause"

def usage : Topic → String
  | command => "filterc <COMMAND>"
  | compile => "filterc compile [OPTIONS] --input <INPUT>"
  | compileAll => "filterc compile-all [OPTIONS] --input <INPUT>"
  | params => "filterc params --path <PATH>"

def options : Topic → List (String × String)
  | command => [helpOption, ("-V, --version", "Print version")]
  | compile => [inputOption "Filter", configOption, depthOption, jsonOption, helpOption]
  | compileAll => [inputOption "Predicate", configOption, jsonOption, helpOption]
  | params => [pathOption, helpOption]

/-- The subcommands, for the command as a whole. -/
def subcommands : Topic → String
  | command =>
    "Commands:\n" ++ entries
      [("compile", compile.about), ("compile-all", compileAll.about), ("params", params.about),
        ("help", "Print this message or the help of the given subcommand(s)")] ++ "\n"
  | compile | compileAll | params => ""

def text (t : Topic) : String :=
  t.about ++ "\n\nUsage: " ++ t.usage ++ "\n\n" ++ t.subcommands ++ "Options:\n" ++ entries t.options

end Topic

end HqlWhere
