import HqlWhere.Document.Tagged
import HqlWhere.Proofs.Json.Numbers
import Mathlib.Data.List.TakeWhile

/-!
# Wanted values

The readers of strings, numbers, truth values and `null`, and those of what stands around the
content of a tagged value.

* `local_readString` and its like   how far they look;
* `readString_write` and its like   what is written for them is read back.
-/

namespace HqlWhere.Json

/-- The reader of strings from its first character on. -/
def readStringHere (expected : String) : Reader String
  | '"' :: r => readText r
  | s => .error (unwanted expected s)

theorem local_readString (expected : String) : Local (readString expected) := by
  have here : Local (readStringHere expected) := by
    refine Local.ofHead fun s x r h => ?_
    unfold readStringHere at h
    split at h
    · exact ⟨'"', _, _, rfl, local_readText, fun t => rfl⟩
    · cases h
  exact here.afterSpace fun x r h => by cases h

/-- The reader of numbers from its first character on. -/
def readNumericHere (expected : String) : Reader Number
  | [] => .error (.endOfText .value)
  | c :: r => if startsNumber c then readNumber (c :: r) else .error (unwanted expected (c :: r))

theorem local_readNumeric (expected : String) : Local (readNumeric expected) := by
  have here : Local (readNumericHere expected) := by
    intro s x r h
    cases s with
    | nil => cases h
    | cons c s =>
      rw [readNumericHere] at h
      by_cases starts : startsNumber c = true
      · rw [if_pos starts] at h
        obtain ⟨back, again⟩ := local_readNumber _ x r h
        refine ⟨back, fun k ends => ?_⟩
        rw [List.cons_append, readNumericHere, if_pos starts]
        exact again k ends
      · rw [if_neg starts] at h
        cases h
  exact here.afterSpace fun x r h => by cases h

theorem local_readInteger (low high : Int) (expected : String) :
    Local (readInteger low high expected) := by
  refine (local_readNumeric expected).bind fun n => ?_
  cases n with
  | integer n =>
    exact Local.ite (local_ok n) (local_error fun _ => .mismatch (.wrongInteger n expected))
  | float x => exact local_error fun _ => .mismatch (.wrongType (.number (.float x)) expected)

theorem local_readFloat (expected : String) : Local (readFloat expected) := by
  refine (local_readNumeric expected).bind fun n => ?_
  cases n with
  | integer n => exact local_ok (Binary64.ofInt n)
  | float x => exact local_ok x

/-- The reader of truth values from its first character on. -/
def readBooleanHere (expected : String) : Reader Bool
  | 't' :: r => (readWord "rue".toList r).map (true, ·)
  | 'f' :: r => (readWord "alse".toList r).map (false, ·)
  | s => .error (unwanted expected s)

theorem local_readBoolean (expected : String) : Local (readBoolean expected) := by
  have here : Local (readBooleanHere expected) := by
    refine Local.ofHead fun s x r h => ?_
    unfold readBooleanHere at h
    split at h
    · exact ⟨'t', _, _, rfl, (local_readWord _).map true, fun t => rfl⟩
    · exact ⟨'f', _, _, rfl, (local_readWord _).map false, fun t => rfl⟩
    · cases h
  exact here.afterSpace fun x r h => by cases h

/-- The reader of `null` from its first character on. -/
def readNullHere (expected : String) : Reader Unit
  | 'n' :: r => (readWord "ull".toList r).map ((), ·)
  | s => .error (unwanted expected s)

theorem local_readNull (expected : String) : Local (readNull expected) := by
  have here : Local (readNullHere expected) := by
    refine Local.ofHead fun s x r h => ?_
    unfold readNullHere at h
    split at h
    · exact ⟨'n', _, _, rfl, (local_readWord _).map (), fun t => rfl⟩
    · cases h
  exact here.afterSpace fun x r h => by cases h

/-! ## tagged values -/

/-- One mark that has to stand behind spaces, as the colon behind a name. -/
def readMark (mark : Char) (missing : Fault) (other : Char → Fault) (s : List Char) :
    Except Fault (List Char) :=
  match skipSpace s with
  | [] => .error missing
  | c :: r => if c = mark then .ok r else .error (other c)

theorem local_readMark (mark : Char) (missing : Fault) (other : Char → Fault) :
    LocalRest (readMark mark missing other) := by
  intro s r found
  unfold readMark at found
  cases front : skipSpace s with
  | nil =>
    rw [front] at found
    cases found
  | cons c t =>
    rw [front] at found
    dsimp only at found
    split at found
    · obtain rfl := Except.ok.inj found
      refine ⟨(List.suffix_cons c t).trans (front ▸ skipSpace_suffix s), fun k _ => ?_⟩
      have nonempty : skipSpace s ≠ [] := by
        rw [front]
        exact List.cons_ne_nil c t
      unfold readMark
      rw [skipSpace_append nonempty, front]
      exact if_pos ‹_›
    · cases found

theorem local_readColon : LocalRest readColon :=
  local_readMark ':' (.endOfText .object) fun _ => .malformed .noColon

theorem local_closeTagged : LocalRest closeTagged :=
  local_readMark '}' (.endOfText .object) fun _ => .malformed .noValue

/-- A lookup that may fail, between two readers. -/
theorem Local.check {α β : Type} (found : Except Fault α) {next : α → Reader β}
    (h : ∀ x, Local (next x)) : Local fun s => found >>= fun x => next x s := by
  cases found with
  | error f => exact local_error fun _ => f
  | ok x => exact h x

section
variable {τ : Type} (tags : List (String × τ))

/-- The tag from behind its opening quote, and the colon. -/
def readTagName : Reader τ := fun s => do
  let (name, r) ← readText s
  let tag ← tagOf tags name
  let r ← readColon r
  pure (tag, r)

/-- The reader of tags from its first character on. -/
def readTagHere : Reader τ
  | [] => .error (.endOfText .object)
  | c :: r =>
    if c = '"' then readTagName tags r
    else .error (.malformed (if c = '}' then .noValue else .nameNotString))

theorem local_readTagName : Local (readTagName tags) := by
  refine local_readText.bind fun name => ?_
  exact Local.check (tagOf tags name) fun tag => local_readColon.andThen (local_ok tag)

theorem local_readTag : Local (readTag tags) := by
  have here : Local (readTagHere tags) := by
    refine Local.ofHead fun s x r h => ?_
    cases s with
    | nil => cases h
    | cons c s =>
      rw [readTagHere] at h
      split at h
      · subst c
        exact ⟨'"', s, _, rfl, local_readTagName tags, fun t => rfl⟩
      · cases h
  exact here.afterSpace fun x r h => by cases h

theorem local_readBareTag : Local (readBareTag tags) := by
  refine local_readText.bind fun name => ?_
  exact Local.check (tagOf tags name) fun tag => local_ok tag

end

/-! ## what is written is read back -/

theorem readString_write (expected s : String) (k : List Char) :
    readString expected (writeString s k) = .ok (s, k) := readText_write s k

theorem readBoolean_write (expected : String) (b : Bool) (k : List Char) :
    readBoolean expected (writeBool b k) = .ok (b, k) := by
  cases b <;> rfl

theorem startsNumber_of_isDigit {c : Char} (h : c.isDigit = true) : startsNumber c = true := by
  rw [startsNumber, h, Bool.or_true]

theorem isSpace_of_startsNumber {c : Char} (h : startsNumber c = true) : isSpace c = false := by
  cases space : isSpace c with
  | false => rfl
  | true =>
    simp only [isSpace, Bool.or_eq_true, beq_iff_eq] at space
    rcases space with ((rfl | rfl) | rfl) | rfl <;> cases h

theorem startsNumber_writeInt (n : Int) : ∃ c r, Numeral.writeInt n = c :: r ∧
    startsNumber c = true := by
  cases n with
  | ofNat n =>
    obtain ⟨c, r, digits, digit⟩ := Numeral.write_eq_cons n
    exact ⟨c, r, digits, startsNumber_of_isDigit digit⟩
  | negSucc n => exact ⟨'-', _, rfl, rfl⟩

theorem startsNumber_write (x : Binary64) : ∃ c r, x.write = c :: r ∧ startsNumber c = true := by
  obtain ⟨c, r, digits, digit⟩ := (Shortest.decimal x).write_eq_cons
  unfold Binary64.write
  dsimp only
  split
  · exact ⟨'-', _, rfl, rfl⟩
  · exact ⟨c, r, digits, startsNumber_of_isDigit digit⟩

/-- how a number's text starts; a number that is not finite is written as `null` -/
theorem Number.write_eq_cons (n : Number) (k : List Char) :
    ∃ c r, n.write k = c :: r ∧ (startsNumber c = true ∨ c = 'n') := by
  cases n with
  | integer n =>
    obtain ⟨c, r, text, starts⟩ := startsNumber_writeInt n
    refine ⟨c, r ++ k, ?_, .inl starts⟩
    rw [write, text, List.cons_append]
  | float x =>
    obtain ⟨c, r, text, starts⟩ := startsNumber_write x
    unfold write
    dsimp only
    split
    · refine ⟨c, r ++ k, ?_, .inl starts⟩
      rw [text, List.cons_append]
    · exact ⟨'n', _, rfl, .inr rfl⟩

theorem readNumeric_cons {expected : String} {c : Char} {s : List Char}
    (h : startsNumber c = true) : readNumeric expected (c :: s) = readNumber (c :: s) := by
  unfold readNumeric
  rw [skipSpace_cons_of_not_isSpace (isSpace_of_startsNumber h)]
  exact if_pos h

theorem readNumeric_writeInt (expected : String) {n : Int} (low : -0x8000000000000000 ≤ n)
    (high : n < 0x10000000000000000)
    {k : List Char} (ends : Ends k) :
    readNumeric expected (Numeral.writeInt n ++ k) = .ok (.integer n, k) := by
  obtain ⟨c, r, text, starts⟩ := startsNumber_writeInt n
  have alone := readNumber_writeInt low high
  obtain ⟨_, more⟩ := local_readNumber _ _ _ alone
  rw [text] at more ⊢
  rw [List.cons_append, readNumeric_cons starts]
  exact more k fun _ => ends

theorem readInteger_writeInt (expected : String) {n low high : Int}
    (least : -0x8000000000000000 ≤ n) (greatest : n < 0x10000000000000000) (atLeast : low ≤ n)
    (atMost : n ≤ high) {k : List Char} (ends : Ends k) :
    readInteger low high expected (Numeral.writeInt n ++ k) = .ok (n, k) := by
  unfold readInteger
  rw [readNumeric_writeInt expected least greatest ends, ok_bind]
  exact if_pos ⟨atLeast, atMost⟩

section
variable {τ : Type} {tags : List (String × τ)} {name : String} {tag : τ}

theorem readTag_write (known : tagOf tags name = .ok tag) (s : List Char) :
    readTag tags (writeString name (':' :: s)) = .ok (tag, s) := by
  show (readText (name.toList.foldr writeChar ('"' :: ':' :: s)) >>= _) = _
  rw [readText_write, ok_bind]
  dsimp only
  rw [known]
  rfl

end

theorem skipSpace_append_of_nil {r : List Char} (h : skipSpace r = []) (k : List Char) :
    skipSpace (r ++ k) = skipSpace k := by
  have spaces : ∀ c ∈ r, isSpace c = true := List.dropWhile_eq_nil_iff.mp h
  exact List.dropWhile_append_of_pos spaces

theorem closeTagged_append {r : List Char} (h : skipSpace r = []) (k : List Char) :
    closeTagged (r ++ '}' :: k) = .ok k := by
  unfold closeTagged
  rw [skipSpace_append_of_nil h, skipSpace_cons_of_not_isSpace rfl]
  rfl

theorem ends_brace (k : List Char) : Ends ('}' :: k) :=
  ends_cons k rfl (by decide) (by decide) (by decide)

end HqlWhere.Json
