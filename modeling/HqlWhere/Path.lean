/-!
# Field paths

A `Path` leads from an entity through relationships to a field: a list of step names, with at least
one step and no empty one.  Both conditions are part of the type.

* `ofSteps`, `ofText`      check the conditions and report the first that fails;
* `dotted`, `parameter`    the steps with dots between, as a path is shown, and with underscores
                           between, the name of its parameter.  Two paths may share a parameter;
* `leaf`                   the last step.
-/

namespace HqlWhere

/-- A non-empty list of non-empty step names. -/
structure Path where
  steps : List String
  ne_nil : steps ≠ []
  step_ne_empty : ∀ s ∈ steps, s ≠ ""
deriving DecidableEq

namespace Path

/-- The reasons why a list of steps is no path. -/
inductive Fault
  | noStep
  /-- A step has no characters; the first such step is told, counted from zero. -/
  | emptyStep (index : Nat)
deriving DecidableEq

def Fault.message : Fault → String
  | .noStep => "Field path must contain at least one step"
  | .emptyStep i => "Field path step " ++ toString i ++ " is empty"

def ofSteps (steps : List String) : Except Fault Path :=
  if none : steps = [] then .error .noStep
  else if empty : "" ∈ steps then .error (.emptyStep (steps.idxOf ""))
  else .ok ⟨steps, none, fun _ mem eq => empty (eq ▸ mem)⟩

/-- The pieces of a text between dots. -/
def splitDots : List Char → List (List Char)
  | [] => [[]]
  | c :: s =>
    if c = '.' then [] :: splitDots s
    else match splitDots s with
      | [] => [[c]]
      | piece :: pieces => (c :: piece) :: pieces

theorem splitDots_ne_nil (s : List Char) : splitDots s ≠ [] := by
  cases s with
  | nil => exact List.cons_ne_nil _ _
  | cons c s =>
    rw [splitDots]
    split
    · exact List.cons_ne_nil _ _
    · split <;> exact List.cons_ne_nil _ _

/-- The path that a dotted text tells; the empty text has no step. -/
def ofText (s : String) : Except Fault Path :=
  if s = "" then .error .noStep else ofSteps ((splitDots s.toList).map String.ofList)

/-- The steps with dots between, as a path is shown. -/
def dotted (p : Path) : String := ".".intercalate p.steps

/-- The steps with underscores between, the name of the parameter bound for the path. -/
def parameter (p : Path) : String := "_".intercalate p.steps

/-- The last step, the field that the path leads to. -/
def leaf (p : Path) : String := p.steps.getLast p.ne_nil

end Path

end HqlWhere
