import HqlWhere.Json.Fault

/-!
# Readers

A reader takes a text and gives what it read with the rest of the text, or the first fault.

* `skipSpace`   the text from its next token on;
* `readWord`    the text behind a given word;
* `readAll`     a reader applied to a whole text;
* `nesting`     the number of brackets that may be open at once.
-/

namespace HqlWhere.Json

/-- A reader of values of type `α`. -/
abbrev Reader (α : Type) := List Char → Except Fault (α × List Char)

/-- Whether a character may stand between tokens. -/
def isSpace (c : Char) : Bool := c == ' ' || c == '\t' || c == '\n' || c == '\r'

/-- The text from its next token on. -/
def skipSpace (s : List Char) : List Char := s.dropWhile isSpace

theorem skipSpace_nil : skipSpace [] = [] := rfl

theorem skipSpace_cons_of_isSpace {c : Char} {s : List Char} (h : isSpace c = true) :
    skipSpace (c :: s) = skipSpace s := by
  rw [skipSpace, List.dropWhile_cons, if_pos h]; rfl

theorem skipSpace_cons_of_not_isSpace {c : Char} {s : List Char} (h : isSpace c = false) :
    skipSpace (c :: s) = c :: s := by
  rw [skipSpace, List.dropWhile_cons, h]; rfl

/-- The text behind a word that it has to start with. -/
def readWord : List Char → List Char → Except Fault (List Char)
  | [], s => .ok s
  | _ :: _, [] => .error (.endOfText .value)
  | c :: word, d :: s => if c = d then readWord word s else .error (.malformed .badWord)

theorem readWord_append (word s : List Char) : readWord word (word ++ s) = .ok s := by
  induction word with
  | nil => rfl
  | cons c word ih => rw [List.cons_append, readWord, if_pos rfl, ih]

/-- Reads a whole text: a value with nothing but spaces behind it. -/
def readAll {α : Type} (read : Reader α) (s : List Char) : Except Fault α := do
  let (x, r) ← read s
  if skipSpace r = [] then pure x else throw (.malformed .textAfterEnd)

/-- The number of brackets and braces that may be open at once. -/
def nesting : Nat := 127

end HqlWhere.Json
