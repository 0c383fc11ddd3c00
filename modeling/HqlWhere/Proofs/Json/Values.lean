import HqlWhere.Json.Reading
import HqlWhere.Proofs.Json.Objects

/-!
# Any value is read back as it was written

The two writers lay out the same tokens, one with nothing between them and one with every item and
member on a line of its own.  From its tokens a value is read whatever it holds, if no more brackets
are open at once than may be and its numbers survive: an integer does if it fits a 64-bit word.

* `Json.numbers`, `Number.Survives`   the numbers in a value, and those that are read back;
* `reads_value`                       a value is read from its tokens, by recursion on the value;
* `laid_writeIndented`                the tokens in what the indenting writer writes;
* `parse_written`                     so both texts of a value stand for it.
-/

namespace HqlWhere.Json

/-! ## numbers -/

/-- The number is read as it is written. -/
def Number.Survives (n : Number) : Prop := readAll readNumber (n.write []) = .ok n

/-- What is written as `null` does not survive as a number. -/
theorem Number.Survives.starts {n : Number} (h : n.Survives) :
    ∃ c r, n.write [] = c :: r ∧ startsNumber c = true := by
  obtain ⟨c, r, text, starts | rfl⟩ := n.write_eq_cons []
  · exact ⟨c, r, text, starts⟩
  · unfold Survives at h
    rw [text] at h
    have refused : readNumber ('n' :: r) = .error (.malformed .badNumber) := rfl
    unfold readAll at h
    rw [refused] at h
    cases h

mutual

/-- The numbers in a value, in the order of its text. -/
def numbers : Json → List Number
  | .number n => [n]
  | .array l => numbersOfItems l
  | .object ms => numbersOfMembers ms
  | _ => []

def numbersOfItems : List Json → List Number
  | [] => []
  | x :: l => x.numbers ++ numbersOfItems l

def numbersOfMembers : List (String × Json) → List Number
  | [] => []
  | (_, x) :: ms => x.numbers ++ numbersOfMembers ms

end

@[simp] theorem numbers_strings (l : List String) : (strings l).numbers = [] := by
  show numbersOfItems (l.map .string) = []
  induction l with
  | nil => rfl
  | cons s l ih => exact ih

/-! ## values without brackets -/

section
variable (budget : Nat)

theorem reads_null : Reads (readValue budget) Json.null.tokens .null := by
  intro ts s _ laid
  obtain ⟨r, front, rest⟩ := laid.lexeme
  refine ⟨r, ?_, rest⟩
  rw [readValue.eq_def]
  dsimp only
  rw [front]
  show (readWord "ull".toList ("ull".toList ++ r)).map (Json.null, ·) = _
  rw [readWord_append]
  rfl

theorem reads_booleanValue (b : Bool) :
    Reads (readValue budget) (Json.boolean b).tokens (.boolean b) := by
  intro ts s _ laid
  obtain ⟨r, front, rest⟩ := laid.lexeme
  refine ⟨r, ?_, rest⟩
  rw [readValue.eq_def]
  dsimp only
  rw [front]
  cases b with
  | true =>
    show (readWord "rue".toList ("rue".toList ++ r)).map (Json.boolean true, ·) = _
    rw [readWord_append]
    rfl
  | false =>
    show (readWord "alse".toList ("alse".toList ++ r)).map (Json.boolean false, ·) = _
    rw [readWord_append]
    rfl

theorem reads_stringValue (x : String) :
    Reads (readValue budget) (Json.string x).tokens (.string x) := by
  intro ts s _ laid
  obtain ⟨r, t, front, text, rest⟩ := laid.string
  refine ⟨t, ?_, rest⟩
  rw [readValue.eq_def]
  dsimp only
  rw [front]
  show (readText r >>= _) = _
  rw [text]
  rfl

theorem readValue_of_startsNumber {c : Char} {s r : List Char} (starts : startsNumber c = true)
    (front : skipSpace s = c :: r) :
    readValue budget s = (readNumber (c :: r) >>= fun n => .ok (.number n.1, n.2)) := by
  have other : ∀ d, startsNumber d = false → c ≠ d := by
    rintro d no rfl
    rw [starts] at no
    cases no
  rw [readValue.eq_def]
  dsimp only
  rw [front]
  dsimp only
  rw [if_neg (other 'n' rfl), if_neg (other 't' rfl), if_neg (other 'f' rfl),
    if_neg (other '"' rfl), if_pos starts]
  rfl

theorem reads_number {n : Number} (survives : n.Survives) :
    Reads (readValue budget) (Json.number n).tokens (.number n) := by
  intro ts s stops laid
  obtain ⟨r, front, rest⟩ := laid.lexeme
  obtain ⟨k, alone, blank⟩ := readAll_eq_ok.mp survives
  obtain ⟨_, more⟩ := local_readNumber _ _ _ alone
  obtain ⟨c, t, text, starts⟩ := survives.starts
  refine ⟨k ++ r, ?_, rest.blank (List.dropWhile_eq_nil_iff.mp blank)⟩
  rw [text, List.cons_append] at front
  have read := more r fun _ => rest.ends stops
  rw [text, List.cons_append] at read
  rw [readValue_of_startsNumber budget starts front, read]
  rfl

end

/-! ## objects -/

section
variable {value : Reader Json}

/-- A member in front of those that were read before it. -/
def pushMember (value : Reader Json) (name : String) (found : List (String × Json)) :
    Reader (List (String × Json)) := fun s => do
  let s ← readColon s
  let (x, r) ← value s
  pure ((name, x) :: found, r)

/-- A member's tokens and the name and value that they are read as. -/
def ReadsMember (value : Reader Json) (tokens : List Token) (m : String × Json) : Prop :=
  ∃ content, tokens = memberTokens m.1 content ∧ Reads value content m.2

theorem steps_pushMember {name : String} {x : Json} {content : List Token}
    (reads : Reads value content x) (found : List (String × Json)) :
    Steps (pushMember value) (name, content) found ((name, x) :: found) := by
  intro ts s stops laid
  obtain ⟨t, colon, behind⟩ := laid.readColon
  obtain ⟨r, read, rest⟩ := reads ts t stops behind
  refine ⟨r, ?_, rest⟩
  unfold pushMember
  rw [colon, ok_bind, read]
  rfl

theorem run_pushMember {rows : List (List Token)} {ms : List (String × Json)}
    (h : List.Forall₂ (ReadsMember value) rows ms) (found : List (String × Json)) :
    ∃ rs : List Row, rows = rs.map Row.tokens ∧
      Run (Steps (pushMember value)) rs found (ms.reverse ++ found) := by
  induction h generalizing found with
  | nil => exact ⟨[], rfl, .nil⟩
  | @cons row m rows ms head tail ih =>
    obtain ⟨content, rfl, reads⟩ := head
    obtain ⟨rs, rfl, run⟩ := ih (m :: found)
    refine ⟨(m.1, content) :: rs, rfl, .cons (steps_pushMember reads found) ?_⟩
    rw [List.reverse_cons, List.append_assoc]
    exact run

/-- **An object is read member by member**, from behind its opening brace. -/
theorem reads_members {rows : List (List Token)} {ms : List (String × Json)}
    (h : List.Forall₂ (ReadsMember value) rows ms) :
    Reads (readObject (pushMember value) []) (separated rows ++ [.mark '}']) ms.reverse := by
  obtain ⟨rs, rfl, run⟩ := run_pushMember h []
  rw [List.append_nil] at run
  rw [separated_rows]
  exact reads_object run

end

/-! ## any value -/

theorem starts_tokens (j : Json) : Starts ']' j.tokens := by
  cases j with
  | null => exact ⟨_, _, rfl, by decide⟩
  | boolean b => cases b <;> exact ⟨_, _, rfl, by decide⟩
  | number n =>
    obtain ⟨c, r, text, starts⟩ := n.write_eq_cons []
    refine ⟨_, _, rfl, ?_⟩
    rw [text]
    rintro (rfl : c = ']')
    rcases starts with starts | other
    · cases starts
    · cases other
  | string s => exact ⟨_, _, rfl, by simp [Token.head]⟩
  | array l => exact ⟨_, _, rfl, by decide⟩
  | object ms => exact ⟨_, _, rfl, by decide⟩

mutual

/-- **A value is read from its tokens**, whatever it holds. -/
theorem reads_value : ∀ (j : Json) {budget : Nat}, j.height ≤ budget →
    (∀ n ∈ j.numbers, n.Survives) → Reads (readValue budget) j.tokens j
  | .null, budget, _, _ => reads_null budget
  | .boolean b, budget, _, _ => reads_booleanValue budget b
  | .number n, budget, _, survive => reads_number budget (survive n List.mem_cons_self)
  | .string s, budget, _, _ => reads_stringValue budget s
  | .array l, budget, fits, survive => by
    obtain ⟨inside, rfl, room⟩ := exists_inside fits
    intro ts s stops laid
    obtain ⟨r, front, behind⟩ := laid.mark
    obtain ⟨u, found, rest⟩ := reads_list (reads_items l room survive) ts r stops behind
    refine ⟨u, ?_, rest⟩
    rw [readValue.eq_def]
    dsimp only
    rw [front]
    show (readList (readValue inside) r >>= _) = _
    rw [found]
    rfl
  | .object ms, budget, fits, survive => by
    obtain ⟨inside, rfl, room⟩ := exists_inside fits
    intro ts s stops laid
    obtain ⟨r, front, behind⟩ := laid.mark
    obtain ⟨u, found, rest⟩ := reads_members (reads_rows ms room survive) ts r stops behind
    refine ⟨u, ?_, rest⟩
    rw [readValue.eq_def]
    dsimp only
    rw [front]
    show (readObject (pushMember (readValue inside)) [] r >>= fun x =>
      Except.ok (Json.object x.1.reverse, x.2)) = _
    rw [found, ok_bind, List.reverse_reverse]

theorem reads_items : ∀ (l : List Json) {budget : Nat}, heightItems l ≤ budget →
    (∀ n ∈ numbersOfItems l, n.Survives) →
    List.Forall₂ (ReadsItem (readValue budget)) (itemsTokens l) l
  | [], _, _, _ => .nil
  | x :: l, budget, fits, survive => by
    obtain ⟨first, others⟩ := Nat.max_le.mp fits
    obtain ⟨own, rest⟩ := List.forall_mem_append.mp survive
    exact .cons ⟨starts_tokens x, reads_value x first own⟩ (reads_items l others rest)

theorem reads_rows : ∀ (ms : List (String × Json)) {budget : Nat}, heightMembers ms ≤ budget →
    (∀ n ∈ numbersOfMembers ms, n.Survives) →
    List.Forall₂ (ReadsMember (readValue budget)) (membersTokens ms) ms
  | [], _, _, _ => .nil
  | (name, x) :: ms, budget, fits, survive => by
    obtain ⟨first, others⟩ := Nat.max_le.mp fits
    obtain ⟨own, rest⟩ := List.forall_mem_append.mp survive
    exact .cons ⟨x.tokens, rfl, reads_value x first own⟩ (reads_rows ms others rest)

end

/-! ## the indented text -/

section
variable {ts : List Token} {k : List Char}

theorem laid_newLine (level : Nat) (h : Laid ts k) : Laid ts (newLine level k) := by
  have blank : Blank ('\n' :: List.replicate (2 * level) ' ') := by
    refine List.forall_mem_cons.mpr ⟨rfl, fun c hc => ?_⟩
    rw [List.eq_of_mem_replicate hc]
    rfl
  exact h.blank blank

theorem laid_indentedMember (name : String) {value : List Token} (level : Nat)
    (h : Laid (value ++ ts) k) :
    Laid (memberTokens name value ++ ts) (newLine level (writeString name (':' :: ' ' :: k))) := by
  have blank : Blank [' '] := List.forall_mem_singleton.mpr rfl
  exact laid_newLine level (laid_member name (h.blank blank))

end

mutual

/-- **The indenting writer writes the same tokens**, on lines of their own. -/
theorem laid_writeIndented : ∀ (j : Json) (level : Nat) {ts : List Token} {k : List Char},
    Laid ts k → Laid (j.tokens ++ ts) (j.writeIndented level k)
  | .null, _, _, _, h => h.text (.lexeme rfl)
  | .boolean b, _, _, _, h => laid_writeBool b h
  | .number n, _, _, _, h => laid_writeNumber n h
  | .string s, _, _, _, h => laid_writeString s h
  | .array [], _, _, _, h => laid_mark rfl (laid_mark rfl h)
  | .array (x :: l), level, ts, k, h => by
    have items := laid_writeIndented x (level + 1) (laid_indentedItems l level h)
    simp only [tokens, listTokens, itemsTokens, separated, List.cons_append, List.append_assoc]
    exact laid_mark rfl (laid_newLine (level + 1) items)
  | .object [], _, _, _, h => laid_mark rfl (laid_mark rfl h)
  | .object ((name, x) :: ms), level, ts, k, h => by
    have members := laid_indentedMember name (level + 1)
      (laid_writeIndented x (level + 1) (laid_indentedMembers ms level h))
    simp only [tokens, objectTokens, membersTokens, separated, List.cons_append,
      List.append_assoc]
    exact laid_mark rfl members

theorem laid_indentedItems : ∀ (l : List Json) (level : Nat) {ts : List Token} {k : List Char},
    Laid ts k →
    Laid ((itemsTokens l).flatMap (.mark ',' :: ·) ++ .mark ']' :: ts) (indentedItems l level k)
  | [], level, _, _, h => laid_newLine level (laid_mark rfl h)
  | x :: l, level, ts, k, h => by
    have items := laid_writeIndented x (level + 1) (laid_indentedItems l level h)
    simp only [itemsTokens, List.flatMap_cons, List.cons_append, List.append_assoc]
    exact laid_mark rfl (laid_newLine (level + 1) items)

theorem laid_indentedMembers : ∀ (ms : List (String × Json)) (level : Nat) {ts : List Token}
    {k : List Char}, Laid ts k →
    Laid ((membersTokens ms).flatMap (.mark ',' :: ·) ++ .mark '}' :: ts)
      (indentedMembers ms level k)
  | [], level, _, _, h => laid_newLine level (laid_mark rfl h)
  | (name, x) :: ms, level, ts, k, h => by
    have members := laid_indentedMember name (level + 1)
      (laid_writeIndented x (level + 1) (laid_indentedMembers ms level h))
    simp only [membersTokens, List.flatMap_cons, List.cons_append, List.append_assoc]
    exact laid_mark rfl members

end

/-! ## whole texts -/

/-- **Both texts of a value stand for it.** -/
theorem parse_written {j : Json} (fits : j.height ≤ nesting)
    (survive : ∀ n ∈ j.numbers, n.Survives) :
    parse j.compact = .ok j ∧ parse j.indented = .ok j := by
  have reads := reads_value j fits survive
  have compact := laid_write j (.nil (w := []) nofun)
  have indented := laid_writeIndented j 0 (.nil (w := []) nofun)
  rw [List.append_nil] at compact indented
  unfold parse Json.compact Json.indented
  rw [String.toList_ofList, String.toList_ofList]
  exact ⟨reads.readAll compact, reads.readAll indented⟩

end HqlWhere.Json
