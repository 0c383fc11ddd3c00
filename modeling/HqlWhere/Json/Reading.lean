import HqlWhere.Json.Wanted

/-!
# Reading any JSON value

* `readValue`   a value of any kind inside which a number of brackets may be open at once;
* `parse`       the value that a whole text stands for.
-/

namespace HqlWhere.Json

/-- A value of any kind, inside which `budget` brackets may be open at once. -/
def readValue (budget : Nat) : Reader Json := fun s =>
  match skipSpace s with
  | [] => .error (.endOfText .value)
  | c :: r =>
    if c = 'n' then (readWord "ull".toList r).map (.null, ·)
    else if c = 't' then (readWord "rue".toList r).map (.boolean true, ·)
    else if c = 'f' then (readWord "alse".toList r).map (.boolean false, ·)
    else if c = '"' then do
      let (t, r) ← readText r
      pure (.string t, r)
    else if startsNumber c then do
      let (n, r) ← readNumber (c :: r)
      pure (.number n, r)
    else if c = '[' then
      match budget with
      | 0 => .error (.malformed .tooDeep)
      | budget + 1 => do
        let (items, r) ← readList (readValue budget) r
        pure (.array items, r)
    else if c = '{' then
      match budget with
      | 0 => .error (.malformed .tooDeep)
      | budget + 1 => do
        let member (name : String) (found : List (String × Json)) :
            Reader (List (String × Json)) := fun s => do
          let s ← readColon s
          let (x, r) ← readValue budget s
          pure ((name, x) :: found, r)
        let (members, r) ← readObject member [] r
        pure (.object members.reverse, r)
    else .error (.malformed .noValue)

/-- The value that a whole text stands for. -/
def parse (text : String) : Except Fault Json := readAll (readValue nesting) text.toList

end HqlWhere.Json
