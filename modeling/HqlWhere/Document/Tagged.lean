import HqlWhere.Json.Wanted

/-!
# Tagged values

A value with alternatives is an object with one member, whose name is the tag of the alternative and
whose value is its content.  A bare string is the tag of an alternative without content.

* `readTag`, `closeTagged`   what stands before and behind the content;
* `readBareTag`              a tag without content;
* `tagged`                   the object that a tag and a content make.
-/

namespace HqlWhere.Json

/-- The alternative of a tag, from a table of all tags. -/
def tagOf {τ : Type} (tags : List (String × τ)) (name : String) : Except Fault τ :=
  match tags.lookup name with
  | some tag => .ok tag
  | none => .error (.mismatch (.unknownTag name (tags.map Prod.fst)))

/-- The tag and the colon from behind the opening brace. -/
def readTag {τ : Type} (tags : List (String × τ)) : Reader τ := fun s =>
  match skipSpace s with
  | [] => .error (.endOfText .object)
  | c :: r =>
    if c = '"' then do
      let (name, r) ← readText r
      let tag ← tagOf tags name
      let r ← readColon r
      pure (tag, r)
    else .error (.malformed (if c = '}' then .noValue else .nameNotString))

/-- The tag from behind the opening quote of a bare string. -/
def readBareTag {τ : Type} (tags : List (String × τ)) : Reader τ := fun s => do
  let (name, r) ← readText s
  let tag ← tagOf tags name
  pure (tag, r)

/-- The closing brace behind the content. -/
def closeTagged (s : List Char) : Except Fault (List Char) :=
  match skipSpace s with
  | [] => .error (.endOfText .object)
  | c :: r => if c = '}' then .ok r else .error (.malformed .noValue)

/-- The object with one member that a tag and a content make. -/
def tagged (tag : String) (content : Json) : Json := .object [(tag, content)]

end HqlWhere.Json
