import HqlWhere.Clause.Basic
import HqlWhere.Clause.Conjunction
import HqlWhere.Clause.Walk
import HqlWhere.Document.Expr
import HqlWhere.Event
import HqlWhere.Settings

/-!
# Compiling filters into clauses

A tree compiles to a clause that is never empty, or is refused for its depth; a list of predicates
always compiles, the empty list to the empty clause.  Both tell what they did in events, and warn of
parameter names that are bound more than once if the settings ask for it.

* `Settings.compile`, `Settings.compileAll`   compile a tree and a list;
* `Settings.compileTreeDocument`, `Settings.compileListDocument`   read a document in full and then
  compile it, so a document that is refused tells nothing.
-/

namespace HqlWhere

/-- A result with the events that led to it. -/
abbrev Told (α : Type) := α × List Event

/-- The reasons why a document does not compile. -/
inductive CompileFault
  | depthExceeded (refusal : DepthExceeded)
  | invalidDocument (fault : Json.Fault)
deriving DecidableEq

def CompileFault.message : CompileFault → String
  | .depthExceeded e => e.message
  | .invalidDocument f => "Invalid filter document: " ++ f.message

/-- The clause of a single predicate, without the introducing word. -/
def Predicate.compile (p : Predicate) : Clause := (p.render {}).finish

namespace Settings

/-- The events about a compiled clause. -/
def report (s : Settings) (subject : Subject) (c : Clause) : List Event :=
  let warning := if s.warnOnCollision ∧ c.colliding ≠ [] then [.collision c.colliding c.sql] else []
  .compiled subject c.params.size c.sql :: warning

def compile (s : Settings) (e : Expr) : Told (Except DepthExceeded Clause) :=
  match e.render s.maxDepth (Fragment.text {} introducer) with
  | (.error refusal, _) => (.error refusal, [])
  | (.ok depth, f) =>
    let c := f.finish
    (.ok c, .walked depth :: s.report .expression c)

def compileAll (s : Settings) (ps : List Predicate) : Told Clause :=
  let c := (renderConjunction ps {}).finish
  (c, s.report .conjunction c)

def compileTreeDocument (s : Settings) (text : String) : Told (Except CompileFault Clause) :=
  match Expr.parse text with
  | .error f => (.error (.invalidDocument f), [])
  | .ok e =>
    let (result, events) := s.compile e
    (result.mapError .depthExceeded, events)

def compileListDocument (s : Settings) (text : String) : Told (Except CompileFault Clause) :=
  match Predicate.parseList text with
  | .error f => (.error (.invalidDocument f), [])
  | .ok ps =>
    let (c, events) := s.compileAll ps
    (.ok c, events)

end Settings

end HqlWhere
