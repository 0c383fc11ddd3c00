import HqlWhere.Clause.Report
import HqlWhere.Command.Arguments
import HqlWhere.Command.Sources

/-!
# Running the command

A command reads its settings, then its input, then compiles; the first thing that fails is its
failure.  It prints one text and a line feed if nothing fails, and nothing otherwise.

* `Command.run`          what a run leaves, with all events;
* `Command.transcript`   what is seen of it from outside, with the log at a threshold.
-/

namespace HqlWhere

/-- What a run of the command leaves: the exit code, the printed text, the failure if there was one,
and all events. -/
structure Outcome where
  exit : Nat
  stdout : String
  failure : Option Failure
  events : List Event

def versionLine : String := "filterc 0.1.0"

/-- The outcome of a result that is printed if there is one. -/
def Outcome.of (result : Except Failure String) (events : List Event) : Outcome :=
  match result with
  | .ok text => ⟨0, text ++ "\n", none, events⟩
  | .error f => ⟨1, "", some f, events⟩

/-- Loads the settings, tells what is about to be compiled, reads the input and compiles it. -/
def Surroundings.compileInput (w : Surroundings) (input : String) (config : Option String)
    (flag : Option UInt64) (json : Bool) (announce : Settings → Event)
    (compile : Settings → String → Told (Except CompileFault Clause)) : Outcome :=
  let (settings, loading) := w.loadSettings config flag
  match settings with
  | .error f => .of (.error f) loading
  | .ok settings =>
    let announced := loading ++ [announce settings]
    match w.readInput input with
    | .error f => .of (.error f) announced
    | .ok text =>
      let (result, compiling) := compile settings text
      .of ((result.mapError .compile).map fun c => c.printed json) (announced ++ compiling)

def Command.run (w : Surroundings) : Command → Outcome
  | .version => .of (.ok versionLine) []
  | .compile input config maxDepth json =>
    w.compileInput input config maxDepth json (fun s => .compilingTree input s.maxDepth)
      Settings.compileTreeDocument
  | .compileAll input config json =>
    w.compileInput input config none json (fun _ => .compilingList input)
      Settings.compileListDocument
  | .params path => .of (((Path.ofText path).mapError .path).map Path.printed) []

/-- What is seen of a run from outside, with the log at a threshold in place of the events. -/
structure Transcript where
  exit : Nat
  stdout : String
  failure : Option Failure
  log : List String
deriving DecidableEq

def Command.transcript (w : Surroundings) (threshold : Threshold) (c : Command) : Transcript :=
  let o := c.run w
  ⟨o.exit, o.stdout, o.failure, Event.log threshold o.events⟩

end HqlWhere
