import HqlWhere.Clause.Template
import HqlWhere.Expr

/-!
# Clause text of a tree

Every node that joins others is put between parentheses, so the text needs no rules of precedence:
`((A OR B) AND NOT (C))`.

* `Task`          what remains to be done: a tree to visit, or a text to emit;
* `walk`          carries out a list of tasks.  There is no recursion on the tree, so a tree may be
                  of any depth.  It keeps the depth of the deepest node so far, stops at the first
                  node that lies deeper than the limit, and leaves the text as it stands;
* `taskSteps`     the number of steps of a walk, by which it ends;
* `Expr.render`   the walk of one tree.
-/

namespace HqlWhere

/-- The greatest depth was `limit`, and a node lies deeper. -/
structure DepthExceeded where
  limit : UInt64
deriving DecidableEq

def DepthExceeded.message (e : DepthExceeded) : String :=
  "Filter expression exceeds the maximum depth of " ++ toString e.limit.toNat

/-- What remains to be done in a walk. -/
inductive Task
  /-- Walk a tree whose root lies at the given depth. -/
  | visit (e : Expr) (depth : Nat)
  | emit (t : String)

/-- The number of steps that a tree takes. -/
def Expr.steps : Expr → Nat
  | leaf _ => 1
  | and l r => 4 + l.steps + r.steps
  | or l r => 4 + l.steps + r.steps
  | not e => 3 + e.steps

def Task.steps : Task → Nat
  | visit e _ => e.steps
  | emit _ => 1

def taskSteps (tasks : List Task) : Nat := tasks.foldr (fun t n => t.steps + n) 0

theorem taskSteps_nil : taskSteps [] = 0 := rfl

theorem taskSteps_cons (t : Task) (tasks : List Task) :
    taskSteps (t :: tasks) = t.steps + taskSteps tasks := rfl

theorem taskSteps_append (a b : List Task) : taskSteps (a ++ b) = taskSteps a + taskSteps b := by
  induction a with
  | nil => exact (Nat.zero_add _).symm
  | cons t a ih => rw [List.cons_append, taskSteps_cons, ih, taskSteps_cons, Nat.add_assoc]

/-- The tasks of a node with two parts, the second part after the text `joiner`. -/
def pairTasks (left : Expr) (joiner : String) (right : Expr) (depth : Nat) : List Task :=
  [.emit "(", .visit left (depth + 1), .emit joiner, .visit right (depth + 1), .emit ")"]

/-- Carries out a list of tasks in order.  Gives the depth of the deepest node, or the refusal, and
the text at the end of the walk. -/
def walk (limit : Option UInt64) : List Task → Nat → Fragment → Except DepthExceeded Nat × Fragment
  | [], deepest, f => (.ok deepest, f)
  | .emit t :: tasks, deepest, f => walk limit tasks deepest (f.text t)
  | .visit e depth :: tasks, deepest, f =>
    match limit.filter (·.toNat < depth) with
    | some n => (.error ⟨n⟩, f)
    | none =>
      let deepest := max deepest depth
      match e with
      | .leaf p => walk limit tasks deepest (p.render f)
      | .and l r => walk limit (pairTasks l " AND " r depth ++ tasks) deepest f
      | .or l r => walk limit (pairTasks l " OR " r depth ++ tasks) deepest f
      | .not e =>
        walk limit (.emit "NOT (" :: .visit e (depth + 1) :: .emit ")" :: tasks) deepest f
termination_by tasks => taskSteps tasks
decreasing_by
  all_goals simp [taskSteps, Task.steps, Expr.steps, pairTasks]; try omega

/-- Adds the text of a tree.  Gives the tree's depth, or the refusal of a tree that is too deep, and
the text. -/
def Expr.render (e : Expr) (limit : Option UInt64) (f : Fragment) :
    Except DepthExceeded Nat × Fragment :=
  walk limit [.visit e 1] 0 f

end HqlWhere
