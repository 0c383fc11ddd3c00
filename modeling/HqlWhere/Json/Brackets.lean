import HqlWhere.Json.Strings

/-!
# Reading lists and objects

* `Items.next`, `Members.next`   stand where a list or an object goes on or ends, and tell which;
* `Items.close`                  wants the end of a list;
* `readList`, `readObject`       go from behind the opening bracket through the closing one.
-/

namespace HqlWhere.Json

/-- What a list or an object does next: it has ended, or it goes on, each with the text from there.
-/
inductive Next (α : Type)
  | ended (rest : List Char)
  | more (found : α) (rest : List Char)

/-- Where an item or the closing bracket stands; `first` tells that no item stands before. -/
def Items.next (first : Bool) (s : List Char) : Except Fault (Next Unit) :=
  match skipSpace s with
  | [] => .error (.endOfText .list)
  | c :: r =>
    if c = ']' then .ok (.ended r)
    else if first then .ok (.more () (c :: r))
    else if c = ',' then
      match skipSpace r with
      | [] => .error (.endOfText .value)
      | d :: r => if d = ']' then .error (.malformed .commaAtEnd) else .ok (.more () (d :: r))
    else .error (.malformed .itemsNotClosed)

/-- The closing bracket of a list of which no more items are wanted. -/
def Items.close (s : List Char) : Except Fault (List Char) :=
  match skipSpace s with
  | [] => .error (.endOfText .list)
  | c :: r =>
    if c = ']' then .ok r
    else if c = ',' ∧ (skipSpace r).head? = some ']' then .error (.malformed .commaAtEnd)
    else .error (.malformed .textAfterEnd)

/-- A member's name at the head of a text; `otherwise` tells the fault of a character that opens no
string. -/
def Members.name (otherwise : Char → Malformed) : List Char → Except Fault (Next String)
  | [] => .error (.endOfText .value)
  | c :: s =>
    if c = '"' then do
      let (name, r) ← readText s
      pure (.more name r)
    else .error (.malformed (otherwise c))

/-- Where a member or the closing brace stands: the member's name is read; `first` tells that no
member stands before. -/
def Members.next (first : Bool) (s : List Char) : Except Fault (Next String) :=
  match skipSpace s with
  | [] => .error (.endOfText .object)
  | c :: r =>
    if c = '}' then .ok (.ended r)
    else if first then Members.name (fun _ => .nameNotString) (c :: r)
    else if c = ',' then
      Members.name (fun d => if d = '}' then .commaAtEnd else .nameNotString) (skipSpace r)
    else .error (.malformed .membersNotClosed)

/-- The colon behind a member's name. -/
def readColon (s : List Char) : Except Fault (List Char) :=
  match skipSpace s with
  | [] => .error (.endOfText .object)
  | c :: r => if c = ':' then .ok r else .error (.malformed .noColon)

/-- The items of a list up to its closing bracket.  The length of `bound` bounds their number. -/
def readItems {α : Type} (item : Reader α) : List Char → Bool → Reader (List α)
  | [], _, _ => .error (.endOfText .list)
  | _ :: bound, first, s => do
    match ← Items.next first s with
    | .ended r => pure ([], r)
    | .more _ r =>
      let (x, r) ← item r
      let (xs, r) ← readItems item bound false r
      pure (x :: xs, r)

/-- The items of a list from behind its opening bracket.  The text itself is the bound: no item is
empty, so when the bound is used up nothing is left of the text. -/
def readList {α : Type} (item : Reader α) : Reader (List α) := fun s => readItems item s true s

/-- The members of an object up to its closing brace.  `member` takes a name, what the members
before it gave, and the text from behind the name.  The length of `bound` bounds their number. -/
def readMembers {σ : Type} (member : String → σ → Reader σ) : List Char → Bool → σ → Reader σ
  | [], _, _, _ => .error (.endOfText .object)
  | _ :: bound, first, found, s => do
    match ← Members.next first s with
    | .ended r => pure (found, r)
    | .more name r =>
      let (found, r) ← member name found r
      readMembers member bound false found r

/-- The members of an object from behind its opening brace, with the text itself as the bound. -/
def readObject {σ : Type} (member : String → σ → Reader σ) (start : σ) : Reader σ := fun s =>
  readMembers member s true start s

/-- The fault of a member that comes again. -/
def refuseTwice {α : Type} (name : String) (known : Option α) : Except Fault Unit :=
  if known.isSome then .error (.mismatch (.repeatedMember name)) else .ok ()

end HqlWhere.Json
