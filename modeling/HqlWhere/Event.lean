import HqlWhere.Text.Quoted
import HqlWhere.Text.Terminal

/-!
# Events

What the compiler and the command tell while they run.  An event has a level, a source and a text; a
log keeps the events of some level and above.
-/

namespace HqlWhere

/-- How urgent an event is, from the least urgent. -/
inductive Level
  | trace
  | debug
  | info
  | warn
  | error
deriving DecidableEq

namespace Level

def rank : Level → Nat
  | trace => 0
  | debug => 1
  | info => 2
  | warn => 3
  | error => 4

def name : Level → String
  | trace => "TRACE"
  | debug => "DEBUG"
  | info => "INFO"
  | warn => "WARN"
  | error => "ERROR"

end Level

/-- What a clause was compiled from. -/
inductive Subject
  | expression
  | conjunction
deriving DecidableEq

def Subject.name : Subject → String
  | .expression => "expression"
  | .conjunction => "conjunction"

/-- Something that happened. -/
inductive Event
  | loadingSettings (file : String)
  | compilingTree (input : String) (limit : Option UInt64)
  | compilingList (input : String)
  | walked (depth : Nat)
  | compiled (subject : Subject) (placeholders : Nat) (sql : String)
  /-- Parameter names of a clause are bound more than once. -/
  | collision (names : List String) (sql : String)
deriving DecidableEq

namespace Event

def level : Event → Level
  | loadingSettings _ | compilingTree _ _ | compilingList _ => .info
  | walked _ | compiled _ _ _ => .debug
  | collision _ _ => .warn

/-- The part of the program that an event comes from. -/
def source : Event → String
  | loadingSettings _ => "filterc::config"
  | compilingTree _ _ | compilingList _ => "filterc"
  | walked _ | compiled _ _ _ | collision _ _ => "filter_planner::query::compiler"

/-- A depth limit as the log shows it. -/
def showLimit : Option UInt64 → String
  | none => "None"
  | some n => "Some(" ++ toString n.toNat ++ ")"

def message : Event → String
  | loadingSettings file => "Loading compiler settings from " ++ file
  | compilingTree input limit =>
    "Compiling filter tree from " ++ input ++ " (max depth: " ++ showLimit limit ++ ")"
  | compilingList input => "Compiling predicate list from " ++ input
  | walked depth => "Walked expression tree to depth " ++ toString depth
  | compiled subject n sql =>
    "Compiled " ++ subject.name ++ " filter with " ++ toString n ++ " placeholder(s): " ++ sql
  | collision names sql =>
    "Parameter name(s) " ++ Text.quotedList names ++ " are bound more than once in: " ++ sql ++
      "; each occurrence receives the same value"

def line (e : Event) : String := e.level.name ++ " " ++ e.message

/-- An event with its level and its source, for a terminal. -/
def sourcedLine (e : Event) : String :=
  e.level.name ++ " " ++ e.source ++ ": " ++ Text.harmless e.message

end Event

/-- What a log keeps: the events of a level and above, or nothing. -/
abbrev Threshold := Option Level

/-- The names of the thresholds, in lower case, and their numbers. -/
def Threshold.names : List (String × Threshold) :=
  [("off", none), ("error", some .error), ("warn", some .warn), ("info", some .info),
    ("debug", some .debug), ("trace", some .trace), ("0", none), ("1", some .error),
    ("2", some .warn), ("3", some .info), ("4", some .debug), ("5", some .trace)]

/-- The threshold of a name, in any case of letters.  Without a name a log keeps the events from
INFO on, and so it does with every other text, the empty one among them.  One threshold serves for
all sources: a text of directives, each for a source of its own, is not taken apart. -/
def Threshold.ofName (name : Option String) : Threshold :=
  (name.bind fun s => names.lookup (s.map Char.toLower)).getD (some .info)

theorem Threshold.ofName_of_mem : ∀ entry ∈ names, ofName (some entry.1) = entry.2 := by
  decide +kernel

def Event.passes (threshold : Threshold) (e : Event) : Bool :=
  match threshold with
  | none => false
  | some level => level.rank ≤ e.level.rank

def Event.log (threshold : Threshold) (events : List Event) : List String :=
  (events.filter (Event.passes threshold)).map Event.sourcedLine

end HqlWhere
