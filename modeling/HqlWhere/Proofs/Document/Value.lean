import HqlWhere.Document.Value
import HqlWhere.Proofs.Json.Brackets
import HqlWhere.Proofs.Json.Wanted
import HqlWhere.Proofs.Uuid

/-!
# Values are read back

Every value is written as an object with one member or as a bare string, so its text has an end of
its own and the reader of values is `Local`.

* `Value.Survives`      a floating point number, a date or a timestamp is read back from its text;
* `Value.read_write`    a value that survives is read back, if a brace may be opened for it;
* `Value.Decodes`       a text is read as a value by itself;
* `Value.Decodes.read`  it is then read as the same value in front of any item of a list.
-/

namespace HqlWhere

namespace Value

/-! ## how far the reader of values looks -/

open Json

theorem local_readTold {α ε : Type} (expected : String) (ofText : List Char → Except ε α)
    (cause : ε → Mismatch) : Local (readTold expected ofText cause) := by
  refine (local_readString expected).bind fun text => ?_
  exact Local.check _ fun x => local_ok x

theorem local_readContent (kind : Kind) : Local (readContent kind) := by
  cases kind with
  | int => exact (local_readInteger _ _ "i64").bind fun n => local_ok (Value.int (Int64.ofInt n))
  | uint =>
    exact (local_readInteger _ _ "u64").bind fun n => local_ok (Value.uint (UInt64.ofNat n.toNat))
  | float => exact (local_readFloat "f64").bind fun x => local_ok (Value.float x)
  | string => exact (local_readString "a string").bind fun t => local_ok (Value.string t)
  | boolean => exact (local_readBoolean "a boolean").bind fun b => local_ok (Value.boolean b)
  | uuid => exact (local_readTold _ Uuid.ofText .uuid).bind fun u => local_ok (Value.uuid u)
  | date => exact (local_readTold _ Date.ofText .calendar).bind fun d => local_ok (Value.date d)
  | timestamp =>
    exact (local_readTold _ Timestamp.ofText .calendar).bind fun t => local_ok (Value.timestamp t)
  | null => exact (local_readNull "unit").bind fun _ => local_ok Value.null

/-- what stands in braces -/
def readBraces (s : List Char) : Except Fault (Value × List Char) := do
  let (kind, r) ← readTag tags s
  let (v, r) ← readContent kind r
  let r ← closeTagged r
  pure (v, r)

theorem local_readBraces : Local readBraces := by
  refine (local_readTag tags).bind fun kind => ?_
  refine (local_readContent kind).bind fun v => ?_
  exact local_closeTagged.andThen (local_ok v)

/-- what stands in quotes -/
def readQuotes (s : List Char) : Except Fault (Value × List Char) := do
  let (kind, r) ← readBareTag tags s
  let v ← ofBareTag kind
  pure (v, r)

theorem local_readQuotes : Local readQuotes := by
  refine (local_readBareTag tags).bind fun kind => ?_
  exact Local.check (ofBareTag kind) fun v => local_ok v

/-- The reader of values from its first character on. -/
def readHere (budget : Nat) : Reader Value
  | [] => .error (.endOfText .value)
  | '{' :: r => if budget = 0 then .error (.malformed .tooDeep) else readBraces r
  | '"' :: r => readQuotes r
  | _ => .error (.malformed .noValue)

theorem local_read (budget : Nat) : Local (read budget) := by
  have here : Local (readHere budget) := by
    refine Local.ofHead fun s x r h => ?_
    unfold readHere at h
    split at h
    · cases h
    · split at h
      · cases h
      · refine ⟨'{', _, _, rfl, local_readBraces, fun t => ?_⟩
        exact if_neg ‹_›
    · exact ⟨'"', _, _, rfl, local_readQuotes, fun t => rfl⟩
    · cases h
  exact here.afterSpace fun x r h => by cases h

/-! ## values that are written are read back -/

/-- A floating point number, a date or a timestamp is read back from its own text. -/
def Survives : Value → Prop
  | .float x => readAll (readFloat "f64") ((Number.float x).write []) = .ok x
  | .date d => Date.ofText d.write = .ok d
  | .timestamp t => Timestamp.ofText t.write = .ok t
  | _ => True

/-- The content of a tagged value, and perhaps spaces, up to the closing brace. -/
theorem read_tagged {budget : Nat} {tag : String} {content : Json} {v : Value} {k : List Char}
    (kind : Kind) (spaces : List Char) (blank : skipSpace spaces = []) (inside : budget ≠ 0)
    (known : tagOf tags tag = .ok kind)
    (reads : readContent kind (content.write ('}' :: k)) = .ok (v, spaces ++ '}' :: k)) :
    read budget ((tagged tag content).write k) = .ok (v, k) := by
  show (if budget = 0 then _
    else readBraces (writeString tag (':' :: content.write ('}' :: k)))) = _
  rw [if_neg inside]
  unfold readBraces
  rw [readTag_write known, ok_bind]
  dsimp only
  rw [reads, ok_bind]
  dsimp only
  rw [closeTagged_append blank]
  rfl

theorem readTold_write {α ε : Type} {expected : String} {ofText : List Char → Except ε α}
    {cause : ε → Mismatch} {text : List Char} {x : α} (tells : ofText text = .ok x)
    (k : List Char) :
    readTold expected ofText cause (writeString (String.ofList text) k) = .ok (x, k) := by
  unfold readTold
  rw [readString_write, ok_bind]
  dsimp only
  rw [String.toList_ofList, tells]
  rfl

/-- **A value that survives is read back.** -/
theorem read_write {v : Value} (survives : v.Survives) {budget : Nat} (h : v ≠ .null → budget ≠ 0)
    (k : List Char) : read budget (v.toJson.write k) = .ok (v, k) := by
  cases v with
  | int n =>
    refine read_tagged .int [] rfl (h nofun) rfl ?_
    have least : -0x8000000000000000 ≤ n.toInt := n.le_toInt
    have greatest := n.toInt_lt
    have number := readInteger_writeInt "i64" least (by omega) least
      (by omega : n.toInt ≤ 0x7FFFFFFFFFFFFFFF) (ends_brace k)
    show (readInteger _ _ _ (Numeral.writeInt n.toInt ++ '}' :: k) >>= _) = _
    rw [number, ok_bind]
    dsimp only
    rw [Int64.ofInt_toInt]
    rfl
  | uint n =>
    refine read_tagged .uint [] rfl (h nofun) rfl ?_
    have greatest := n.toNat_lt
    have number := readInteger_writeInt "u64" (by omega) (by omega) (Int.natCast_nonneg n.toNat)
      (by omega : (n.toNat : Int) ≤ 0xFFFFFFFFFFFFFFFF) (ends_brace k)
    show (readInteger _ _ _ (Numeral.writeInt n.toNat ++ '}' :: k) >>= _) = _
    rw [number, ok_bind]
    dsimp only
    rw [Int.toNat_natCast, UInt64.ofNat_toNat]
    rfl
  | float x =>
    obtain ⟨r, alone, blank⟩ := readAll_eq_ok.mp survives
    refine read_tagged .float r blank (h nofun) rfl ?_
    obtain ⟨_, more⟩ := local_readFloat "f64" _ _ _ alone
    have text : (Number.float x).write ('}' :: k) = (Number.float x).write [] ++ '}' :: k :=
      (Number.float x).write_append [] _
    show (readFloat _ ((Number.float x).write ('}' :: k)) >>= _) = _
    rw [text, more _ fun _ => ends_brace k]
    rfl
  | string s =>
    refine read_tagged .string [] rfl (h nofun) rfl ?_
    show (readString _ (writeString s _) >>= _) = _
    rw [readString_write]
    rfl
  | boolean b =>
    refine read_tagged .boolean [] rfl (h nofun) rfl ?_
    show (readBoolean _ (writeBool b _) >>= _) = _
    rw [readBoolean_write]
    rfl
  | uuid u =>
    refine read_tagged .uuid [] rfl (h nofun) rfl ?_
    show (readTold _ _ _ (writeString _ _) >>= _) = _
    rw [readTold_write u.ofText_write]
    rfl
  | date d =>
    refine read_tagged .date [] rfl (h nofun) rfl ?_
    show (readTold _ _ _ (writeString _ _) >>= _) = _
    rw [readTold_write survives]
    rfl
  | timestamp t =>
    refine read_tagged .timestamp [] rfl (h nofun) rfl ?_
    show (readTold _ _ _ (writeString _ _) >>= _) = _
    rw [readTold_write survives]
    rfl
  | null => rfl

/-! ## texts that are read as a value -/

/-- What the text of `j` by itself is read as. -/
def decode (j : Json) : Except Fault Value := readAll (read nesting) j.compact.toList

/-- The text of `j` by itself is read as the value. -/
def Decodes (j : Json) (v : Value) : Prop := decode j = .ok v

theorem decodes_toJson {v : Value} (survives : v.Survives) : Decodes v.toJson v := by
  unfold Decodes decode readAll compact
  rw [String.toList_ofList, read_write survives fun _ => by decide]
  rfl

theorem read_cons_of_ne {c : Char} {s : List Char} {budget : Nat} (space : isSpace c = false)
    (brace : c ≠ '{') (quote : c ≠ '"') : read budget (c :: s) = .error (.malformed .noValue) := by
  unfold read
  rw [skipSpace_cons_of_not_isSpace space]
  split
  · cases ‹_ = []›
  · obtain ⟨rfl, _⟩ := List.cons.inj ‹_›
    exact absurd rfl brace
  · obtain ⟨rfl, _⟩ := List.cons.inj ‹_›
    exact absurd rfl quote
  · rfl

theorem writeMembers_closed (ms : List (String × Json)) :
    ∃ t, writeMembers ms [] = t ++ ['}'] := by
  induction ms with
  | nil => exact ⟨[], rfl⟩
  | cons m ms ih =>
    obtain ⟨t, rest⟩ := ih
    refine ⟨',' :: writeString m.1 (':' :: m.2.write t), ?_⟩
    rw [writeMembers, rest, write_append, ← List.cons_append, writeString_append, List.cons_append]

/-- a number is no value, since values are tagged -/
theorem read_number (n : Number) (budget : Nat) (k : List Char) :
    read budget (n.write k) = .error (.malformed .noValue) := by
  obtain ⟨c, r, text, starts⟩ := n.write_eq_cons k
  rw [text]
  rcases starts with starts | rfl
  · refine read_cons_of_ne (isSpace_of_startsNumber starts) ?_ ?_
    · rintro rfl
      cases starts
    · rintro rfl
      cases starts
  · exact read_cons_of_ne rfl (by decide) (by decide)

/-- Only an object or a string is read as a value, and neither ends with a space. -/
theorem Decodes.closed {j : Json} {v : Value} (h : Decodes j v) :
    ∃ t c, j.write [] = t ++ [c] ∧ isSpace c = false := by
  unfold Decodes decode readAll compact at h
  rw [String.toList_ofList] at h
  cases j with
  | null => cases h
  | boolean b => cases b <;> cases h
  | number n =>
    rw [write, read_number] at h
    cases h
  | string s =>
    refine ⟨'"' :: s.toList.foldr writeChar [], '"', ?_, rfl⟩
    rw [write]
    exact congrArg ('"' :: ·) (foldr_writeChar_append s.toList [] ['"'])
  | array l =>
    rw [write_array] at h
    cases h
  | object ms =>
    cases ms with
    | nil => exact ⟨['{'], '}', rfl, rfl⟩
    | cons m ms =>
      obtain ⟨t, rest⟩ := writeMembers_closed ms
      refine ⟨'{' :: writeString m.1 (':' :: m.2.write t), '}', ?_, rfl⟩
      rw [write, rest, write_append, ← List.cons_append, writeString_append, List.cons_append]

theorem eq_nil_of_blank_suffix {r t : List Char} {c : Char} (back : r <:+ t ++ [c])
    (blank : skipSpace r = []) (mark : isSpace c = false) : r = [] := by
  rcases List.eq_nil_or_concat r with rfl | ⟨u, d, rfl⟩
  · rfl
  · have last : d = c := by
      obtain ⟨w, text⟩ := back
      rw [List.concat_eq_append, ← List.append_assoc] at text
      exact List.singleton_inj.mp (List.append_inj_right' text rfl)
    have space : isSpace d = true :=
      List.dropWhile_eq_nil_iff.mp blank d (by simp)
    rw [last, mark] at space
    cases space

/-- **A text that is read as a value by itself is read so in front of a list's next mark.** -/
theorem Decodes.read_eq {j : Json} {v : Value} (h : Decodes j v) {k : List Char} (ends : Ends k) :
    read nesting (j.write k) = .ok (v, k) := by
  obtain ⟨t, c, text, mark⟩ := h.closed
  unfold Decodes decode compact at h
  rw [String.toList_ofList] at h
  obtain ⟨r, alone, blank⟩ := readAll_eq_ok.mp h
  obtain ⟨back, more⟩ := local_read nesting _ _ _ alone
  rw [text] at back
  obtain rfl := eq_nil_of_blank_suffix back blank mark
  have all := more k fun _ => ends
  rwa [← write_append] at all

theorem read_of_ne_zero {budget : Nat} (h : budget ≠ 0) : read budget = read nesting := by
  funext s
  unfold read
  simp only [if_neg h, if_neg (by decide : nesting ≠ 0)]

theorem Decodes.opens {j : Json} {v : Value} (h : Decodes j v) (k : List Char) :
    Opens (j.write k) := by
  unfold Decodes decode readAll compact at h
  rw [String.toList_ofList] at h
  cases j with
  | null => cases h
  | boolean b => cases b <;> cases h
  | number n =>
    rw [write, read_number] at h
    cases h
  | string s => exact ⟨'"', _, rfl, rfl, by decide⟩
  | array l =>
    rw [write_array] at h
    cases h
  | object ms =>
    cases ms with
    | nil => exact ⟨'{', _, rfl, rfl, by decide⟩
    | cons m ms => exact ⟨'{', _, rfl, rfl, by decide⟩

/-- The same inside any number of brackets that the text's own brackets leave room for. -/
theorem Decodes.read_within {j : Json} {v : Value} (h : Decodes j v) {budget : Nat}
    (fits : j.height ≤ budget) {k : List Char} (ends : Ends k) :
    read budget (j.write k) = .ok (v, k) := by
  have whole := h.read_eq ends
  by_cases zero : budget = 0
  · subst zero
    cases j with
    | null => cases whole
    | boolean b => cases b <;> cases whole
    | number n =>
      rw [write, read_number] at whole
      cases whole
    | string s => exact whole
    | array l => exact absurd fits (by rw [height]; omega)
    | object ms => exact absurd fits (by rw [height]; omega)
  · rw [read_of_ne_zero zero]
    exact whole

end Value

end HqlWhere
