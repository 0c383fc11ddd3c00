import HqlWhere.Clause.Fragment

/-!
# Compiled clauses

A `Clause` is a finished text with the names of its parameters, repetitions kept.

* `distinct`    the names in ascending order, each once;
* `colliding`   the names that occur more than once, in ascending order, each once;
* `runs`        the runs of equal neighbours of a sorted list, from which both are read off.
-/

namespace HqlWhere

structure Clause where
  sql : String := ""
  params : Array String := #[]
deriving DecidableEq

/-- The lengths of the runs of equal neighbours in a list, each with what is repeated. -/
def runs {α : Type} [DecidableEq α] : List α → List (α × Nat)
  | [] => []
  | x :: xs =>
    match runs xs with
    | [] => [(x, 1)]
    | (y, n) :: rest => if x = y then (y, n + 1) :: rest else (x, 1) :: (y, n) :: rest

theorem runs_nil {α : Type} [DecidableEq α] : runs ([] : List α) = [] := rfl

theorem runs_eq_nil_iff {α : Type} [DecidableEq α] {l : List α} : runs l = [] ↔ l = [] := by
  cases l with
  | nil => exact ⟨fun _ => rfl, fun _ => rfl⟩
  | cons x xs =>
    rw [runs]
    split
    · simp
    · split <;> simp

namespace Clause

def isEmpty (c : Clause) : Bool := c.sql.isEmpty

/-- The names of the parameters in ascending order, each with the number of its occurrences. -/
def occurrences (c : Clause) : List (String × Nat) :=
  runs (c.params.toList.mergeSort fun a b => decide (a ≤ b))

/-- The names of the parameters in ascending order, each once. -/
def distinct (c : Clause) : List String := c.occurrences.map Prod.fst

/-- The names that occur more than once, in ascending order, each once. -/
def colliding (c : Clause) : List String :=
  (c.occurrences.filter fun o => 1 < o.2).map Prod.fst

end Clause

def Fragment.finish (f : Fragment) : Clause := ⟨f.sql, f.params⟩

end HqlWhere
