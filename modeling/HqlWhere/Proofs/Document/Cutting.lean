import HqlWhere.Proofs.Clause.Compilation
import HqlWhere.Proofs.Document.RoundTrip
import HqlWhere.Proofs.Json.CutNumbers

/-!
# Documents have an end of their own

A document that misses its end is found to end too early, wherever it was cut: inside a name, a tag,
an escape, a number, a word, or between two tokens.  It is never taken for a smaller tree.  Spaces
may stand behind a document, and nothing else.

* `Value.waits_read`, `Path.waits_read`, `Operator.waits_read`   the parts of a predicate;
* `Predicate.waits_read`   a predicate, one member after the other;
* `Expr.waits_read`        a tree, by induction on it, one lemma for each kind of node;
* `Expr.self_delimiting`   whole documents, trees and lists, and what compiling them gives.
-/

namespace HqlWhere

open Json

/-! ## values -/

namespace Value

/-- A number as content may be taken for a smaller one, and then the closing brace is missing. -/
theorem waits_tagged {budget : Nat} {tag : String} {content : Json} {v : Value}
    {k : List Char} (kind : Kind) (spaces : List Char) (inside : budget ≠ 0)
    (known : tagOf tags tag = .ok kind) (blank : skipSpace spaces = [])
    (reads : Guesses (fun _ => True) (readContent kind) v (content.write ('}' :: k))
      (spaces ++ '}' :: k)) :
    Waits (read budget) (v, ·) ((tagged tag content).write k) k := by
  have closing : Waits (fun q => closeTagged q >>= fun r => .ok (v, r)) (v, ·)
      (spaces ++ '}' :: k) k :=
    (waits_closeTagged spaces blank k).bind (waits_ok (v, ·) k)
  have braces : Waits readBraces (v, ·) (writeString tag (':' :: content.write ('}' :: k))) k :=
    (waits_readTag known _).bind (reads.bind (fun _ _ => ⟨.object, rfl⟩) closing)
  exact Waits.head ⟨.value, rfl⟩ (fun _ => if_neg inside) braces

theorem waits_readTold {α ε : Type} (expected : String) {ofText : List Char → Except ε α}
    (cause : ε → Mismatch) {text : List Char} {x : α} (tells : ofText text = .ok x)
    (k : List Char) :
    Waits (readTold expected ofText cause) (x, ·) (writeString (String.ofList text) k) k := by
  refine (waits_readString expected (String.ofList text) k).bind ?_
  dsimp only
  rw [String.toList_ofList, tells]
  exact waits_ok (x, ·) k

/-- **A value that survives is waited for.** -/
theorem waits_read {v : Value} (survives : v.Survives) {budget : Nat} (h : v ≠ .null → budget ≠ 0)
    (k : List Char) : Waits (read budget) (v, ·) (v.toJson.write k) k := by
  cases v with
  | int n =>
    have least : -0x8000000000000000 ≤ n.toInt := n.le_toInt
    have greatest := n.toInt_lt
    have number := guesses_readInteger "i64" least (by omega) least
      (by omega : n.toInt ≤ 0x7FFFFFFFFFFFFFFF) (by omega) (ends_brace k)
    have content := number.map fun m => Value.int (Int64.ofInt m)
    rw [Int64.ofInt_toInt] at content
    exact waits_tagged .int [] (h nofun) rfl rfl content
  | uint n =>
    have greatest := n.toNat_lt
    have number := guesses_readInteger "u64" (by omega) (by omega) (Int.natCast_nonneg n.toNat)
      (by omega : (n.toNat : Int) ≤ 0xFFFFFFFFFFFFFFFF) (by omega) (ends_brace k)
    have content := number.map fun m => Value.uint (UInt64.ofNat m.toNat)
    rw [Int.toNat_natCast, UInt64.ofNat_toNat] at content
    exact waits_tagged .uint [] (h nofun) rfl rfl content
  | float x =>
    obtain ⟨spaces, blank, number⟩ := guesses_writeFloat k survives
    exact waits_tagged .float spaces (h nofun) rfl blank (number.map Value.float)
  | string s =>
    have content := (waits_readString "a string" s ('}' :: k)).guesses.map Value.string
    exact waits_tagged .string [] (h nofun) rfl rfl content
  | boolean b =>
    have content := (waits_readBoolean "a boolean" b ('}' :: k)).guesses.map Value.boolean
    exact waits_tagged .boolean [] (h nofun) rfl rfl content
  | uuid u =>
    have told := waits_readTold "a formatted UUID string" .uuid u.ofText_write ('}' :: k)
    have content := told.guesses.map Value.uuid
    exact waits_tagged .uuid [] (h nofun) rfl rfl content
  | date d =>
    have told := waits_readTold "a formatted date string" .calendar survives ('}' :: k)
    have content := told.guesses.map Value.date
    exact waits_tagged .date [] (h nofun) rfl rfl content
  | timestamp t =>
    have told := waits_readTold "an RFC 3339 formatted date and time string" .calendar survives
      ('}' :: k)
    have content := told.guesses.map Value.timestamp
    exact waits_tagged .timestamp [] (h nofun) rfl rfl content
  | null =>
    have known : tagOf tags "Null" = .ok Kind.null := rfl
    have quotes : Waits readQuotes (Value.null, ·) ("Null".toList.foldr writeChar ('"' :: k)) k :=
      (waits_readBareTag known k).bind (waits_ok (Value.null, ·) k)
    exact Waits.head ⟨.value, rfl⟩ (fun _ => rfl) quotes

end Value

/-! ## paths, operators and lists of values -/

theorem Json.waits_readValue_string (budget : Nat) (s : String) (k : List Char) :
    Waits (readValue budget) (Json.string s, ·) ((Json.string s).write k) k := by
  have behind : Waits (fun q => readText q >>= fun x => .ok (Json.string x.1, x.2))
      (Json.string s, ·) (s.toList.foldr writeChar ('"' :: k)) k :=
    (waits_readText s k).give Json.string
  refine Waits.head ⟨.value, ?_⟩ (fun q => ?_) behind
  · rw [readValue.eq_def]
    rfl
  · rw [readValue.eq_def]
    rfl

theorem Json.waits_readValue_strings (budget : Nat) (l : List String) (k : List Char) :
    Waits (readValue (budget + 1)) (Json.strings l, ·) ((Json.strings l).write k) k := by
  have opens : ∀ j ∈ l.map Json.string, ∀ k, Opens ((id j).write k) := by
    intro j hj k
    obtain ⟨s, _, rfl⟩ := List.mem_map.mp hj
    exact ⟨'"', _, rfl, rfl, by decide⟩
  have each : ∀ j ∈ l.map Json.string, ∀ k, Waits (readValue budget) (j, ·) ((id j).write k) k := by
    intro j hj k
    obtain ⟨s, _, rfl⟩ := List.mem_map.mp hj
    exact waits_readValue_string budget s k
  have list := waits_readList opens each k
  rw [List.map_id] at list
  have behind : Waits
      (fun q => readList (readValue budget) q >>= fun x => .ok (Json.array x.1, x.2))
      (Json.strings l, ·) (writeList (l.map Json.string) k) k := list.give Json.array
  rw [Json.strings, write_array]
  refine Waits.head ⟨.value, ?_⟩ (fun q => ?_) behind
  · rw [readValue.eq_def]
    rfl
  · rw [readValue.eq_def]
    rfl

theorem Path.waits_read (p : Path) (budget : Nat) (k : List Char) :
    Waits (read (budget + 1)) (p, ·) (p.toJson.write k) k := by
  refine (waits_readValue_strings budget p.steps k).bind ?_
  have told : ofJson (Json.strings p.steps) = (ofSteps p.steps).mapError fun f => .filter (.path f) :=
    (RawPath.steps p.steps).ofJson_toJson
  dsimp only
  rw [told, p.ofSteps_steps]
  exact waits_ok (p, ·) k

theorem Operator.waits_read (op : Operator) (k : List Char) :
    Waits read (op, ·) (op.toJson.write k) k := by
  refine (waits_readString "a string" op.name k).bind ?_
  dsimp only
  rw [op.ofText_name]
  exact waits_ok (op, ·) k

namespace Predicate

theorem waits_readValues {vs : List Value} (survive : ∀ v ∈ vs, v.Survives) {budget : Nat}
    (room : (∃ v ∈ vs, v ≠ .null) → budget ≠ 0) (k : List Char) :
    Waits (readValues (budget + 1)) (vs, ·) ((array (vs.map Value.toJson)).write k) k := by
  have opens : ∀ v ∈ vs, ∀ k, Opens (v.toJson.write k) := fun v _ => v.opens_toJson
  have each : ∀ v ∈ vs, ∀ k, Waits (Value.read budget) (v, ·) (v.toJson.write k) k :=
    fun v hv => Value.waits_read (survive v hv) fun ne => room ⟨v, hv, ne⟩
  rw [write_array]
  exact Waits.head ⟨.value, rfl⟩ (fun _ => rfl) (waits_readList opens each k)

/-! ## predicates -/

theorem waits_pathMember (path : Path) (budget : Nat) (k : List Char) :
    Waits (readMember (budget + 1) "path" {}) ({ path := some path }, ·)
      (':' :: path.toJson.write k) k :=
  Waits.head ⟨.object, rfl⟩ (fun _ => readMember_path)
    ((path.waits_read budget k).give fun path => ({ path := some path } : Draft))

theorem waits_operatorMember (path : Path) (operator : Operator) (budget : Nat) (k : List Char) :
    Waits (readMember budget "operator" { path := some path })
      ({ path := some path, operator := some operator }, ·) (':' :: operator.toJson.write k) k :=
  Waits.head ⟨.object, rfl⟩ (fun _ => readMember_operator path)
    ((operator.waits_read k).give fun operator =>
      ({ path := some path, operator := some operator } : Draft))

theorem waits_valuesMember (path : Path) (operator : Operator) {values : List Value} {budget : Nat}
    {s r : List Char} (content : Waits (readValues budget) (values, ·) s r) :
    Waits (readMember budget "values" { path := some path, operator := some operator })
      ({ path := some path, operator := some operator, values := some values }, ·) (':' :: s) r :=
  Waits.head ⟨.object, rfl⟩ (fun _ => readMember_values path operator)
    (content.give fun values =>
      ({ path := some path, operator := some operator, values := some values } : Draft))

/-- **A predicate that survives is waited for**, one member after the other. -/
theorem waits_read {p : Predicate} (survives : p.Survives) {budget : Nat} (fits : p.nest ≤ budget)
    (k : List Char) : Waits (read budget) (p, ·) (p.toJson.write k) k := by
  obtain ⟨inside, rfl⟩ : ∃ n, budget = n + 2 := by
    have two : 2 ≤ p.nest := by
      unfold nest
      split <;> decide
    exact ⟨budget - 2, by omega⟩
  have room : (∃ v ∈ p.values, v ≠ .null) → inside ≠ 0 := by
    intro deep
    rw [nest, if_pos deep] at fits
    omega
  have values := waits_valuesMember p.path p.operator (waits_readValues survives room ('}' :: k))
  have third := waits_readMembers_cons (waits_nextName "values" _) values
    (waits_readMembers_nil false _ k)
  have second := waits_readMembers_cons (waits_nextName "operator" _)
    (waits_operatorMember p.path p.operator (inside + 1) _) third
  have first := waits_readMembers_cons (waits_firstName "path" _)
    (waits_pathMember p.path inside _) second
  have members : Waits (readMembers (inside + 1)) (p, ·) _ k :=
    (waits_readObject first).bind (waits_ok (p, ·) k)
  exact Waits.head ⟨.value, rfl⟩ (fun _ => rfl) members

end Predicate

/-! ## trees -/

namespace Expr

/-- a node, if its content is waited for -/
theorem waits_tagged (kind : Kind) {inside : Nat} {tag : String} {j : Json} {e : Expr}
    {k : List Char} (known : tagOf tags tag = .ok kind)
    (content : Waits (readContent inside kind) (e, ·) (j.write ('}' :: k)) ('}' :: k)) :
    Waits (read (inside + 1)) (e, ·) ((tagged tag j).write k) k := by
  have closing : Waits (fun q => closeTagged q >>= fun r => .ok (e, r)) (e, ·) ('}' :: k) k :=
    (waits_closeTagged [] rfl k).bind (waits_ok (e, ·) k)
  have closed : Waits (fun q => readContent inside kind q >>= fun y => closeTagged y.2 >>= fun r =>
      .ok (y.1, r)) (e, ·) (j.write ('}' :: k)) k := content.bind closing
  have behind : Waits (fun q => readTag tags q >>= fun x => readContent inside x.1 x.2 >>= fun y =>
      closeTagged y.2 >>= fun r => .ok (y.1, r)) (e, ·)
      (writeString tag (':' :: j.write ('}' :: k))) k := (waits_readTag known _).bind closed
  refine Waits.head ⟨.value, ?_⟩ (fun q => read_brace rfl) behind
  rw [read.eq_def]
  rfl

theorem waits_readPair (kind : Kind) {budget : Nat} {left right : Expr} {k : List Char}
    (first : ∀ k, Waits (read budget) (left, ·) (left.toJson.write k) k)
    (second : ∀ k, Waits (read budget) (right, ·) (right.toJson.write k) k) :
    Waits (readPair kind (some (read budget))) ((left, right), ·)
      ((array [left.toJson, right.toJson]).write k) k := by
  have closing : Waits (fun q => Items.close q >>= fun r => .ok ((left, right), r))
      ((left, right), ·) (']' :: k) k :=
    (waits_closeItems k).bind (waits_ok ((left, right), ·) k)
  refine Waits.head ⟨.value, rfl⟩ (fun _ => rfl) ?_
  refine Waits.bind (waits_first (left.opens_toJson _)) ?_
  refine Waits.bind (first _) ?_
  refine Waits.bind (waits_comma (right.opens_toJson _)) ?_
  exact Waits.bind (second _) closing

/-- **A tree is waited for**, where its brackets have room. -/
theorem waits_read {e : Expr} (survives : e.Survives) {budget : Nat} (fits : e.nest ≤ budget)
    (k : List Char) : Waits (read budget) (e, ·) (e.toJson.write k) k := by
  induction e generalizing budget k with
  | leaf p =>
    rw [nest_leaf] at fits
    obtain ⟨inside, rfl, room⟩ := exists_inside fits
    have content := Predicate.waits_read (survives p (List.mem_singleton.mpr rfl)) room ('}' :: k)
    exact waits_tagged .leaf rfl (content.give leaf)
  | and l r ihl ihr =>
    rw [nest] at fits
    obtain ⟨inside, rfl⟩ : ∃ n, budget = n + 2 := ⟨budget - 2, by omega⟩
    obtain ⟨survivesLeft, survivesRight⟩ := List.forall_mem_append.mp survives
    have left := ihl survivesLeft (by omega : l.nest ≤ inside)
    have right := ihr survivesRight (by omega : r.nest ≤ inside)
    exact waits_tagged .and rfl
      ((waits_readPair .and left right).give fun pair => and pair.1 pair.2)
  | or l r ihl ihr =>
    rw [nest] at fits
    obtain ⟨inside, rfl⟩ : ∃ n, budget = n + 2 := ⟨budget - 2, by omega⟩
    obtain ⟨survivesLeft, survivesRight⟩ := List.forall_mem_append.mp survives
    have left := ihl survivesLeft (by omega : l.nest ≤ inside)
    have right := ihr survivesRight (by omega : r.nest ≤ inside)
    exact waits_tagged .or rfl
      ((waits_readPair .or left right).give fun pair => or pair.1 pair.2)
  | not e ih =>
    rw [nest] at fits
    obtain ⟨inside, rfl, room⟩ := exists_inside fits
    have content := ih survives room ('}' :: k)
    exact waits_tagged .not rfl (content.give not)

end Expr

/-! ## whole documents -/

section
variable {α : Type} {read : Reader α} {x : α} {j : Json}

theorem Json.readAll_cut (waits : Waits read (x, ·) (j.write []) []) {a b : String}
    (text : a ++ b = j.compact) (some : b ≠ "") :
    ∃ place, Json.readAll read a.toList = .error (.endOfText place) := by
  have chars : a.toList ++ b.toList = j.write [] := by
    rw [← String.toList_append, text, compact, String.toList_ofList]
  exact readAll_of_waits waits chars fun empty => some (String.toList_eq_nil_iff.mp empty)

theorem Json.readAll_followed (reads : ∀ k, read (j.write k) = .ok (x, k)) (w : String) :
    Json.readAll read (j.compact ++ w).toList =
      if Blank w.toList then .ok x else .error (.malformed .textAfterEnd) := by
  have whole := reads w.toList
  rw [← List.nil_append w.toList, j.write_append] at whole
  rw [String.toList_append, compact, String.toList_ofList]
  exact readAll_append whole

end

namespace Expr

theorem parse_cut {e : Expr} (survives : e.Survives) (fits : e.nest ≤ nesting) {a b : String}
    (text : a ++ b = e.toJson.compact) (some : b ≠ "") :
    ∃ place, parse a = .error (.endOfText place) :=
  readAll_cut (waits_read survives fits []) text some

theorem parse_followed {e : Expr} (survives : e.Survives) (fits : e.nest ≤ nesting) (w : String) :
    parse (e.toJson.compact ++ w) =
      if Blank w.toList then .ok e else .error (.malformed .textAfterEnd) := by
  refine readAll_followed (fun k => ?_) w
  rw [read_toJson survives, within_of_le fits]
  rfl

end Expr

namespace Predicate

variable {ps : List Predicate} (survive : ∀ p ∈ ps, p.Survives)
include survive

theorem parseList_cut {a b : String} (text : a ++ b = (Json.array (ps.map toJson)).compact)
    (some : b ≠ "") : ∃ place, parseList a = .error (.endOfText place) := by
  have opens : ∀ p ∈ ps, ∀ k, Opens (p.toJson.write k) := fun p _ => p.opens_toJson
  have each : ∀ p ∈ ps, ∀ k, Waits (read (nesting - 1)) (p, ·) (p.toJson.write k) k :=
    fun p hp => waits_read (survive p hp) p.nest_le
  refine readAll_cut (x := ps) ?_ text some
  rw [write_array]
  exact Waits.head ⟨.value, rfl⟩ (fun _ => rfl) (waits_readList opens each [])

theorem parseList_followed (w : String) :
    parseList ((Json.array (ps.map toJson)).compact ++ w) =
      if Blank w.toList then .ok ps else .error (.malformed .textAfterEnd) :=
  readAll_followed (readArray_toJson survive) w

end Predicate

/-- **Damage at the end of a document is always noticed.**  Take a tree whose brackets are not too
deep and whose floating point numbers, dates and timestamps are read back from their own texts, so
that the numbers are finite.  Its text cut at any character is found to end too early; spaces behind
it do not matter; anything else behind it is refused.  So it is for lists of predicates, and
compiling their documents reports these faults and nothing else. -/
theorem Expr.self_delimiting :
    (∀ e : Expr, e.Survives → e.toJson.height ≤ nesting →
      (∀ a b : String, a ++ b = e.toJson.compact → b ≠ "" →
        ∃ fault, parse a = .error fault ∧ fault.kind = "eof") ∧
      (∀ w : String, Blank w.toList → parse (e.toJson.compact ++ w) = .ok e) ∧
      ∀ w : String, ¬ Blank w.toList → ∃ fault,
        parse (e.toJson.compact ++ w) = .error fault ∧ fault.message = "trailing characters") ∧
    ∀ (ps : List Predicate) (s : Settings) (text : String), (∀ p ∈ ps, p.Survives) →
      text = (Json.array (ps.map Predicate.toJson)).compact →
      (∀ a b : String, a ++ b = text → b ≠ "" → ∃ fault,
        s.compileListDocument a = (.error (.invalidDocument fault), []) ∧ fault.kind = "eof") ∧
      (∀ w : String, Blank w.toList →
        s.compileListDocument (text ++ w) = (.ok (s.compileAll ps).1, (s.compileAll ps).2)) ∧
      ∀ w : String, ¬ Blank w.toList → ∃ fault,
        s.compileListDocument (text ++ w) = (.error (.invalidDocument fault), []) ∧
        fault.message = "trailing characters" := by
  constructor
  · intro e survives fits
    rw [e.height_toJson] at fits
    have followed := parse_followed survives fits
    refine ⟨fun a b text some => ?_, fun w blank => ?_, fun w other => ?_⟩
    · obtain ⟨place, starved⟩ := parse_cut survives fits text some
      exact ⟨_, starved, rfl⟩
    · rw [followed, if_pos blank]
    · exact ⟨_, (followed w).trans (if_neg other), rfl⟩
  · intro ps s text survive written
    subst written
    have followed := Predicate.parseList_followed survive
    refine ⟨fun a b text some => ?_, fun w blank => ?_, fun w other => ?_⟩
    · obtain ⟨place, starved⟩ := Predicate.parseList_cut survive text some
      exact ⟨_, s.compileListDocument_of_error starved, rfl⟩
    · exact s.compileListDocument_of_ok ((followed w).trans (if_pos blank))
    · exact ⟨_, s.compileListDocument_of_error ((followed w).trans (if_neg other)), rfl⟩

/-- A condition on a fraction. -/
def Predicate.cheap : Predicate :=
  ⟨⟨["price"], by decide, by decide⟩, .lt, [.float ⟨0x3FF8000000000000⟩]⟩

theorem Predicate.cheap_survives : cheap.Survives := by
  intro v hv
  obtain rfl := List.mem_singleton.mp hv
  show readAll _ _ = .ok _
  decide +kernel

/-- The condition cut inside a step of its path, cut inside its number, and whole with a line's end
or a bracket behind it. -/
theorem Expr.self_delimiting_cheap :
    (∃ fault, parse "\x7b\"predicate\":\x7b\"path\":[\"pri" = .error fault ∧
        fault.kind = "eof") ∧
      parse ((leaf .cheap).toJson.compact ++ "\r\n") = .ok (leaf .cheap) ∧
      (∃ fault, parse ((leaf .cheap).toJson.compact ++ " ]") = .error fault ∧
        fault.message = "trailing characters") ∧
      ∃ fault, Settings.compileListDocument {}
          "[\x7b\"path\":[\"price\"],\"operator\":\"LT\",\"values\":[\x7b\"Float\":1." =
        (.error (.invalidDocument fault), []) ∧ fault.kind = "eof" := by
  have each : ∀ p ∈ [Predicate.cheap], p.Survives := by
    intro p hp
    obtain rfl := List.mem_singleton.mp hp
    exact Predicate.cheap_survives
  have shallow : (leaf .cheap).toJson.height ≤ nesting := by decide
  obtain ⟨trees, lists⟩ := self_delimiting
  obtain ⟨cut, blank, other⟩ := trees (leaf .cheap) each shallow
  obtain ⟨cutList, _⟩ := lists [.cheap] {} _ each rfl
  refine ⟨?_, blank "\r\n" (by decide), other " ]" (by decide), ?_⟩
  · have rest : "\x7b\"predicate\":\x7b\"path\":[\"pri" ++
        "ce\"],\"operator\":\"LT\",\"values\":[\x7b\"Float\":1.5\x7d]\x7d\x7d" =
          (leaf .cheap).toJson.compact := by
      decide +kernel
    exact cut _ _ rest (by decide)
  · have rest : "[\x7b\"path\":[\"price\"],\"operator\":\"LT\",\"values\":[\x7b\"Float\":1." ++
        "5\x7d]\x7d]" = (Json.array ([Predicate.cheap].map Predicate.toJson)).compact := by
      decide +kernel
    exact cutList _ _ rest (by decide)

end HqlWhere
