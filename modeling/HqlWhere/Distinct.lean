import Std.Data.HashSet

/-!
# Telling items apart

`firstEqual` gives for each item of a list the place of the first item equal to it, and
`distinctCount` the size of a hash set of all items.
-/

namespace HqlWhere

/-- For each item the place of the first item equal to it. -/
def firstEqual {α : Type} [BEq α] (items : List α) : List Nat :=
  items.map fun x => items.findIdx (· == x)

/-- The number of elements of a hash set that holds every item. -/
def distinctCount {α : Type} [BEq α] [Hashable α] (items : List α) : Nat :=
  (Std.HashSet.ofList items).size

end HqlWhere
