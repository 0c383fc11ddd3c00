import HqlWhere.Json.Skip
import HqlWhere.Json.Wanted
import HqlWhere.Json.Writing
import HqlWhere.Settings

/-!
# Settings in documents

Settings are an object with the members `max_depth` and `warn_on_param_collision` in any order, or a
list of the two.  What is left out has its default, and a `max_depth` of `null` means no limit.
Members of other names are passed over.
-/

namespace HqlWhere.Settings

def maxDepthName : String := "max_depth"

def warnName : String := "warn_on_param_collision"

/-- A depth limit or `null`. -/
def readMaxDepth : Json.Reader (Option UInt64) := fun s =>
  match Json.skipSpace s with
  | 'n' :: r => (Json.readWord "ull".toList r).map (none, ·)
  | s => do
    let (n, r) ← Json.readInteger 0 0xFFFFFFFFFFFFFFFF "usize" s
    pure (some (UInt64.ofNat n.toNat), r)

def readWarn : Json.Reader Bool := Json.readBoolean "a boolean"

/-- What the members read so far have told. -/
structure Draft where
  maxDepth : Option (Option UInt64) := none
  warn : Option Bool := none

def Draft.finish (d : Draft) : Settings :=
  { maxDepth := d.maxDepth.getD none, warnOnCollision := d.warn.getD true }

def readMember (name : String) (d : Draft) : Json.Reader Draft := fun s =>
  if name = maxDepthName then do
    Json.refuseTwice name d.maxDepth
    let s ← Json.readColon s
    let (n, r) ← readMaxDepth s
    pure ({ d with maxDepth := some n }, r)
  else if name = warnName then do
    Json.refuseTwice name d.warn
    let s ← Json.readColon s
    let (b, r) ← readWarn s
    pure ({ d with warn := some b }, r)
  else do
    let s ← Json.readColon s
    let r ← Json.skipValue s
    pure (d, r)

/-- The items from behind the opening bracket. -/
def readItems : Json.Reader Settings := fun s => do
  match ← Json.Items.next true s with
  | .ended r => pure ({}, r)
  | .more _ r =>
    let (maxDepth, r) ← readMaxDepth r
    match ← Json.Items.next false r with
    | .ended r => pure ({ maxDepth }, r)
    | .more _ r =>
      let (warn, r) ← readWarn r
      let r ← Json.Items.close r
      pure ({ maxDepth, warnOnCollision := warn }, r)

/-- Settings in either form. -/
def read : Json.Reader Settings := fun s =>
  match Json.skipSpace s with
  | '{' :: r => do
    let (d, r) ← Json.readObject readMember {} r
    pure (d.finish, r)
  | '[' :: r => readItems r
  | s => .error (Json.unwanted "struct CompilerSettings" s)

def parse (text : String) : Except Json.Fault Settings := Json.readAll read text.toList

def toJson (s : Settings) : Json :=
  .object [(maxDepthName, match s.maxDepth with
      | none => .null
      | some n => .integer n.toNat),
    (warnName, .boolean s.warnOnCollision)]

end HqlWhere.Settings
