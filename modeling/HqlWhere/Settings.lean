/-!
# Compiler settings

How deep a tree may be and whether a parameter name that is bound twice is worth a warning.
-/

namespace HqlWhere

/-- What the compiler can be told. -/
structure Settings where
  /-- The greatest depth of a tree, if there is a limit. -/
  maxDepth : Option UInt64 := none
  /-- Whether to warn about a parameter name that is bound more than once. -/
  warnOnCollision : Bool := true
deriving DecidableEq

end HqlWhere
