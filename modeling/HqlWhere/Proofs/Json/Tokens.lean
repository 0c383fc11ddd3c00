import HqlWhere.Proofs.Json.Escapes
import HqlWhere.Proofs.Json.Wanted
import Mathlib.Data.List.DropRight

/-!
# Tokens and the space around them

A JSON text is a row of tokens with any space around them.  What a reader makes of the text is told
by the tokens alone.

* `Token`, `Laid`     tokens, and the texts in which they are laid out;
* `Reads`             a reader takes certain tokens for a value, wherever they are laid out;
* `Json.tokens`       the tokens of a value; `laid_write` finds them in what the writer writes;
* `reads_list`        a list is read item by item;
* `Laid.firstName`, `Laid.nextName`, `Laid.noName`   an object is read member by member.
-/

namespace HqlWhere.Json

/-- A mark, a word or a number as it stands in the text, or a string in any spelling. -/
inductive Token
  | lexeme (t : List Char)
  | string (s : String)

/-- A token of a single character. -/
abbrev Token.mark (c : Char) : Token := .lexeme [c]

/-- The texts of a token.  None is empty and none starts with a space. -/
inductive Token.Text : Token → List Char → Prop
  | lexeme {c : Char} {t : List Char} (dark : isSpace c = false) : Text (.lexeme (c :: t)) (c :: t)
  | string {s : String} {t : List Char} (h : Spells s.toList t) :
      Text (.string s) ('"' :: (t ++ ['"']))

/-- Nothing but space. -/
def Blank (w : List Char) : Prop := ∀ c ∈ w, isSpace c = true

instance (w : List Char) : Decidable (Blank w) := decidable_of_iff _ List.all_eq_true

/-- The texts that consist of certain tokens, with any space before, between and behind them. -/
inductive Laid : List Token → List Char → Prop
  | nil {w : List Char} (blank : Blank w) : Laid [] w
  | cons {w t s : List Char} {token : Token} {tokens : List Token} (blank : Blank w)
      (text : token.Text t) (rest : Laid tokens s) : Laid (token :: tokens) (w ++ (t ++ s))

/-! ## what stands at the head of a text -/

theorem skipSpace_of_blank {w : List Char} (h : Blank w) : skipSpace w = [] :=
  List.dropWhile_eq_nil_iff.mpr h

def Token.head : Token → Char
  | .lexeme t => t.headD ' '
  | .string _ => '"'

theorem Token.Text.eq_cons {token : Token} {t : List Char} (h : token.Text t) :
    ∃ u, t = token.head :: u ∧ isSpace token.head = false := by
  cases h with
  | lexeme dark => exact ⟨_, rfl, dark⟩
  | string h => exact ⟨_, rfl, rfl⟩

section
variable {token : Token} {ts : List Token} {s : List Char}

theorem Laid.blank {w : List Char} (blank : Blank w) (h : Laid ts s) : Laid ts (w ++ s) := by
  cases h with
  | nil back =>
    apply Laid.nil
    exact List.forall_mem_append.mpr ⟨blank, back⟩
  | cons front text rest =>
    rw [← List.append_assoc]
    exact .cons (List.forall_mem_append.mpr ⟨blank, front⟩) text rest

theorem Laid.skipSpace_nil (h : Laid [] s) : skipSpace s = [] := by
  cases h with
  | nil blank => exact skipSpace_of_blank blank

theorem Laid.first (h : Laid (token :: ts) s) :
    ∃ t r, token.Text t ∧ skipSpace s = t ++ r ∧ Laid ts r := by
  cases h with
  | cons blank text rest =>
    refine ⟨_, _, text, ?_, rest⟩
    obtain ⟨u, rfl, dark⟩ := text.eq_cons
    rw [skipSpace_append_of_nil (skipSpace_of_blank blank)]
    exact skipSpace_cons_of_not_isSpace dark

theorem Laid.lexeme {t : List Char} (h : Laid (.lexeme t :: ts) s) :
    ∃ r, skipSpace s = t ++ r ∧ Laid ts r := by
  obtain ⟨_, r, text, front, rest⟩ := h.first
  cases text
  exact ⟨r, front, rest⟩

theorem Laid.mark {c : Char} (h : Laid (.mark c :: ts) s) :
    ∃ r, skipSpace s = c :: r ∧ Laid ts r := h.lexeme

theorem Laid.string {x : String} (h : Laid (.string x :: ts) s) :
    ∃ r t, skipSpace s = '"' :: r ∧ readText r = .ok (x, t) ∧ Laid ts t := by
  obtain ⟨_, r, text, front, rest⟩ := h.first
  cases text with
  | @string _ t spelled =>
    refine ⟨t ++ '"' :: r, r, ?_, readText_spelled spelled r, rest⟩
    rw [front, List.cons_append, List.append_assoc]
    rfl

theorem Laid.head (h : Laid (token :: ts) s) : ∃ r, skipSpace s = token.head :: r := by
  obtain ⟨t, r, text, front, _⟩ := h.first
  obtain ⟨u, rfl, _⟩ := text.eq_cons
  exact ⟨u ++ r, front⟩

theorem Laid.skipSpace (h : Laid ts s) : Laid ts (skipSpace s) := by
  cases h with
  | nil blank =>
    rw [skipSpace_of_blank blank]
    exact .nil nofun
  | cons blank text rest =>
    obtain ⟨u, rfl, dark⟩ := text.eq_cons
    rw [skipSpace_append_of_nil (skipSpace_of_blank blank), List.cons_append,
      skipSpace_cons_of_not_isSpace dark]
    exact .cons (w := []) nofun text rest

theorem Laid.length_le (h : Laid ts s) : ts.length ≤ s.length := by
  induction h with
  | nil blank => exact Nat.zero_le _
  | cons blank text rest ih =>
    -- no token is empty
    obtain ⟨u, rfl, _⟩ := text.eq_cons
    simp only [List.length_append, List.length_cons]
    omega

/-- The tokens do not start with `close`, so that a bracket is not taken for an item. -/
def Starts (close : Char) (tokens : List Token) : Prop :=
  ∃ token rest, tokens = token :: rest ∧ token.head ≠ close

theorem Starts.head {close : Char} {tokens : List Token} (starts : Starts close tokens)
    (h : Laid (tokens ++ ts) s) : ∃ c r, skipSpace s = c :: r ∧ c ≠ close := by
  obtain ⟨token, rest, rfl, other⟩ := starts
  obtain ⟨r, front⟩ := h.head
  exact ⟨_, r, front, other⟩

theorem Starts.ne_nil {close : Char} {tokens : List Token} (starts : Starts close tokens) :
    tokens ≠ [] := by
  obtain ⟨token, rest, rfl, _⟩ := starts
  exact List.cons_ne_nil _ _

/-- Nothing follows, or a mark that ends a number. -/
def Stops (ts : List Token) : Prop :=
  ∀ token ∈ ts.head?, token = .mark ',' ∨ token = .mark ']' ∨ token = .mark '}'

theorem stops_nil : Stops [] := nofun

theorem stops_cons {c : Char} (h : c = ',' ∨ c = ']' ∨ c = '}') : Stops (.mark c :: ts) := by
  intro token first
  obtain rfl := Option.some.inj first
  rcases h with rfl | rfl | rfl
  · exact .inl rfl
  · exact .inr (.inl rfl)
  · exact .inr (.inr rfl)

theorem ends_of_isSpace {c : Char} (h : isSpace c = true) (k : List Char) : Ends (c :: k) := by
  simp only [isSpace, Bool.or_eq_true, beq_iff_eq] at h
  rcases h with ((rfl | rfl) | rfl) | rfl <;>
    exact ends_cons k rfl (by decide) (by decide) (by decide)

theorem Laid.ends (stops : Stops ts) (h : Laid ts s) : Ends s := by
  cases h with
  | nil blank =>
    cases s with
    | nil => exact nofun
    | cons c s => exact ends_of_isSpace (blank c List.mem_cons_self) s
  | @cons w _ r token tokens blank text rest =>
    cases w with
    | cons c w => exact ends_of_isSpace (blank c List.mem_cons_self) _
    | nil =>
      rcases stops token rfl with rfl | rfl | rfl
      all_goals
        cases text
        exact ends_cons r rfl (by decide) (by decide) (by decide)

end

/-! ## what readers make of tokens -/

section
variable {α β : Type} {read : Reader α} {tokens ts : List Token} {s : List Char} {x : α}

/-- The reader takes the tokens for the value and stands behind them, wherever they are laid out and
whatever follows, but for a number that would go on. -/
def Reads (read : Reader α) (tokens : List Token) (x : α) : Prop :=
  ∀ ts s, Stops ts → Laid (tokens ++ ts) s → ∃ r, read s = .ok (x, r) ∧ Laid ts r

theorem Reads.readAll (h : Reads read tokens x) (laid : Laid tokens s) :
    readAll read s = .ok x := by
  rw [← List.append_nil tokens] at laid
  obtain ⟨r, found, rest⟩ := h [] s stops_nil laid
  unfold Json.readAll
  rw [found, ok_bind]
  exact if_pos rest.skipSpace_nil

theorem Reads.andThen {f : α × List Char → Except Fault (β × List Char)} {y : β}
    (h : Reads read tokens x) (step : ∀ r, f (x, r) = .ok (y, r)) :
    Reads (fun s => read s >>= f) tokens y := by
  intro ts s stops laid
  obtain ⟨r, found, rest⟩ := h ts s stops laid
  refine ⟨r, ?_, rest⟩
  dsimp only
  rw [found, ok_bind, step]

theorem reads_string (expected x : String) : Reads (readString expected) [.string x] x := by
  intro ts s _ laid
  obtain ⟨r, t, front, text, rest⟩ := laid.string
  refine ⟨t, ?_, rest⟩
  unfold readString
  rw [front]
  exact text

/-- A local reader takes a token wherever it stands for what it takes it for alone. -/
theorem reads_lexeme {t r : List Char} (behind : Local read)
    (spaces : ∀ s, read (skipSpace s) = read s) (alone : read t = .ok (x, r))
    (blank : Blank r) : Reads read [.lexeme t] x := by
  intro ts s stops laid
  obtain ⟨k, front, rest⟩ := laid.lexeme
  obtain ⟨_, more⟩ := behind t x r alone
  refine ⟨r ++ k, ?_, rest.blank blank⟩
  rw [← spaces, front]
  exact more k fun _ => rest.ends stops

theorem skipSpace_skipSpace (s : List Char) : skipSpace (skipSpace s) = skipSpace s :=
  List.dropWhile_idempotent isSpace s

theorem Laid.readMark {c : Char} (missing : Fault) (other : Char → Fault)
    (h : Laid (.mark c :: ts) s) : ∃ r, readMark c missing other s = .ok r ∧ Laid ts r := by
  obtain ⟨r, front, rest⟩ := h.mark
  refine ⟨r, ?_, rest⟩
  unfold Json.readMark
  rw [front]
  exact if_pos rfl

theorem Laid.readColon (h : Laid (.mark ':' :: ts) s) :
    ∃ r, readColon s = .ok r ∧ Laid ts r := h.readMark _ _

theorem Laid.closeTagged (h : Laid (.mark '}' :: ts) s) :
    ∃ r, closeTagged s = .ok r ∧ Laid ts r := h.readMark _ _

theorem Laid.readTag {τ : Type} {tags : List (String × τ)} {name : String} {tag : τ}
    (known : tagOf tags name = .ok tag) (h : Laid (.string name :: .mark ':' :: ts) s) :
    ∃ r, readTag tags s = .ok (tag, r) ∧ Laid ts r := by
  obtain ⟨r, t, front, text, behind⟩ := h.string
  obtain ⟨u, colon, rest⟩ := behind.readColon
  refine ⟨u, ?_, rest⟩
  unfold Json.readTag
  rw [front]
  dsimp only
  rw [if_pos rfl, text, ok_bind]
  dsimp only
  rw [known, ok_bind, colon]
  rfl

end

/-! ## lists -/

/-- Rows of tokens with a comma between each two. -/
def separated : List (List Token) → List Token
  | [] => []
  | t :: l => t ++ l.flatMap (.mark ',' :: ·)

def listTokens (items : List (List Token)) : List Token :=
  .mark '[' :: (separated items ++ [.mark ']'])

section
variable {α : Type} {item : Reader α} {tokens ts : List Token} {s : List Char} {first : Bool}

theorem Laid.firstItem (starts : Starts ']' tokens) (h : Laid (tokens ++ ts) s) :
    ∃ r, Items.next true s = .ok (.more () r) ∧ Laid (tokens ++ ts) r := by
  obtain ⟨c, r, front, other⟩ := starts.head h
  have behind := h.skipSpace
  rw [front] at behind
  refine ⟨c :: r, ?_, behind⟩
  unfold Items.next
  rw [front]
  dsimp only
  rw [if_neg other, if_pos rfl]

theorem Laid.nextItem (starts : Starts ']' tokens) (h : Laid (.mark ',' :: tokens ++ ts) s) :
    ∃ r, Items.next false s = .ok (.more () r) ∧ Laid (tokens ++ ts) r := by
  obtain ⟨t, comma, items⟩ := h.mark
  obtain ⟨c, r, front, other⟩ := starts.head items
  have behind := items.skipSpace
  rw [front] at behind
  refine ⟨c :: r, ?_, behind⟩
  unfold Items.next
  rw [comma]
  dsimp only
  rw [if_neg (by decide), if_neg Bool.false_ne_true, if_pos rfl, front]
  dsimp only
  rw [if_neg other]

theorem Laid.noItem (first : Bool) (h : Laid (.mark ']' :: ts) s) :
    ∃ r, Items.next first s = .ok (.ended r) ∧ Laid ts r := by
  obtain ⟨r, front, rest⟩ := h.mark
  refine ⟨r, ?_, rest⟩
  unfold Items.next
  rw [front]
  exact if_pos rfl

theorem Laid.closeItems (h : Laid (.mark ']' :: ts) s) :
    ∃ r, Items.close s = .ok r ∧ Laid ts r := by
  obtain ⟨r, front, rest⟩ := h.mark
  refine ⟨r, ?_, rest⟩
  unfold Items.close
  rw [front]
  exact if_pos rfl

theorem readItems_more {b : Char} {bound s r t u : List Char} {x : α} {xs : List α}
    (next : Items.next first s = .ok (.more () r)) (reads : item r = .ok (x, t))
    (rest : readItems item bound false t = .ok (xs, u)) :
    readItems item (b :: bound) first s = .ok (x :: xs, u) := by
  rw [readItems, next, ok_bind]
  dsimp only
  rw [reads, ok_bind]
  dsimp only
  rw [rest]
  rfl

theorem length_le_flatMap (items : List (List Token)) :
    items.length ≤ (items.flatMap (.mark ',' :: ·)).length := by
  induction items with
  | nil => exact Nat.zero_le _
  | cons t items ih =>
    rw [List.flatMap_cons, List.length_append, List.length_cons, List.length_cons]
    omega

/-- A text is its own bound: it is longer than the number of its items, the first left aside. -/
theorem Laid.bound {t : List Token} {items : List (List Token)} {close : Token} (some : t ≠ [])
    (h : Laid (separated (t :: items) ++ close :: ts) s) :
    ∃ b bound, s = b :: bound ∧ items.length < bound.length := by
  have long := h.length_le
  have count := length_le_flatMap items
  have first := List.length_pos_iff.mpr some
  simp only [separated, List.length_append, List.length_cons] at long
  have nonempty : 0 < s.length := by omega
  obtain ⟨b, bound, rfl⟩ := List.exists_cons_of_length_pos nonempty
  rw [List.length_cons] at long
  exact ⟨b, bound, rfl, by omega⟩

theorem stops_separated {close : Char} (h : close = ',' ∨ close = ']' ∨ close = '}')
    (items : List (List Token)) (ts : List Token) :
    Stops (items.flatMap (.mark ',' :: ·) ++ .mark close :: ts) := by
  cases items with
  | nil => exact stops_cons h
  | cons t items => exact stops_cons (.inl rfl)

/-- An item's tokens and the value that they are read as. -/
def ReadsItem (item : Reader α) (tokens : List Token) (x : α) : Prop :=
  Starts ']' tokens ∧ Reads item tokens x

theorem readItems_laid {items : List (List Token)} {xs : List α}
    (h : List.Forall₂ (ReadsItem item) items xs) {bound : List Char}
    (long : items.length < bound.length)
    (laid : Laid (items.flatMap (.mark ',' :: ·) ++ .mark ']' :: ts) s) :
    ∃ r, readItems item bound false s = .ok (xs, r) ∧ Laid ts r := by
  obtain ⟨b, bound, rfl⟩ := List.exists_cons_of_length_pos (Nat.zero_lt_of_lt long)
  induction h generalizing b bound s with
  | nil =>
    obtain ⟨r, next, rest⟩ := laid.noItem false
    refine ⟨r, ?_, rest⟩
    rw [readItems, next]
    rfl
  | @cons t x items xs head tail ih =>
    obtain ⟨starts, reads⟩ := head
    have more := Nat.lt_of_succ_lt_succ long
    obtain ⟨b', bound', rfl⟩ := List.exists_cons_of_length_pos (Nat.zero_lt_of_lt more)
    rw [List.flatMap_cons, List.append_assoc] at laid
    obtain ⟨r, next, behind⟩ := laid.nextItem starts
    obtain ⟨u, found, others⟩ := reads _ r (stops_separated (by simp) items ts) behind
    obtain ⟨k, rest, done⟩ := ih others b' bound' more
    exact ⟨k, readItems_more next found rest, done⟩

/-- **A list is read item by item**, from behind its opening bracket. -/
theorem reads_list {items : List (List Token)} {xs : List α}
    (h : List.Forall₂ (ReadsItem item) items xs) :
    Reads (readList item) (separated items ++ [.mark ']']) xs := by
  intro ts s _ laid
  rw [List.append_assoc] at laid
  cases h with
  | nil =>
    obtain ⟨r, next, rest⟩ := laid.noItem true
    have some : 0 < s.length := Nat.lt_of_lt_of_le (Nat.succ_pos _) laid.length_le
    obtain ⟨b, bound, text⟩ := List.exists_cons_of_length_pos some
    refine ⟨r, ?_, rest⟩
    show readItems item s true s = _
    rw [text] at next ⊢
    rw [readItems, next]
    rfl
  | @cons t x items xs head tail =>
    obtain ⟨starts, reads⟩ := head
    obtain ⟨b, bound, text, more⟩ := laid.bound starts.ne_nil
    rw [separated, List.append_assoc] at laid
    obtain ⟨r, next, behind⟩ := laid.firstItem starts
    obtain ⟨u, found, others⟩ := reads _ r (stops_separated (by simp) items ts) behind
    obtain ⟨k, rest, done⟩ := readItems_laid tail more others
    refine ⟨k, ?_, done⟩
    have whole := readItems_more (b := b) next found rest
    rw [← text] at whole
    exact whole

theorem reads_array (expected : String) {items : List (List Token)} {xs : List α}
    (h : List.Forall₂ (ReadsItem item) items xs) :
    Reads (readArray expected (some item)) (listTokens items) xs := by
  intro ts s stops laid
  obtain ⟨r, front, behind⟩ := laid.mark
  obtain ⟨u, found, rest⟩ := reads_list h ts r stops behind
  refine ⟨u, ?_, rest⟩
  unfold readArray
  rw [front]
  exact found

end

/-! ## objects -/

def memberTokens (name : String) (value : List Token) : List Token :=
  .string name :: .mark ':' :: value

def objectTokens (members : List (List Token)) : List Token :=
  .mark '{' :: (separated members ++ [.mark '}'])

def taggedTokens (tag : String) (content : List Token) : List Token :=
  objectTokens [memberTokens tag content]

section
variable {name : String} {ts : List Token} {s : List Char}

theorem Laid.firstName (h : Laid (.string name :: ts) s) :
    ∃ r, Members.next true s = .ok (.more name r) ∧ Laid ts r := by
  obtain ⟨r, t, front, text, rest⟩ := h.string
  refine ⟨t, ?_, rest⟩
  unfold Members.next
  rw [front]
  show (readText r >>= _) = _
  rw [text]
  rfl

theorem Laid.nextName (h : Laid (.mark ',' :: .string name :: ts) s) :
    ∃ r, Members.next false s = .ok (.more name r) ∧ Laid ts r := by
  obtain ⟨u, comma, behind⟩ := h.mark
  obtain ⟨r, t, front, text, rest⟩ := behind.string
  refine ⟨t, ?_, rest⟩
  unfold Members.next
  rw [comma]
  dsimp only
  rw [if_neg (by decide), if_neg Bool.false_ne_true, if_pos rfl, front]
  show (readText r >>= _) = _
  rw [text]
  rfl

theorem Laid.noName (first : Bool) (h : Laid (.mark '}' :: ts) s) :
    ∃ r, Members.next first s = .ok (.ended r) ∧ Laid ts r := by
  obtain ⟨r, front, rest⟩ := h.mark
  refine ⟨r, ?_, rest⟩
  unfold Members.next
  rw [front]
  exact if_pos rfl

section
variable {α τ : Type} {tags : List (String × τ)} {tag : String} {kind : τ} {tokens : List Token}

/-- the brace and the tag in front of a tagged value -/
theorem Laid.openTagged (known : tagOf tags tag = .ok kind)
    (laid : Laid (taggedTokens tag tokens ++ ts) s) :
    ∃ r t, Json.skipSpace s = '{' :: r ∧ Json.readTag tags r = .ok (kind, t) ∧
      Laid (tokens ++ .mark '}' :: ts) t := by
  simp only [taggedTokens, objectTokens, memberTokens, separated, List.flatMap_nil, List.append_nil,
    List.cons_append, List.append_assoc, List.nil_append] at laid
  obtain ⟨r, front, inner⟩ := laid.mark
  obtain ⟨t, tag, behind⟩ := inner.readTag known
  exact ⟨r, t, front, tag, behind⟩

/-- **What a tag says is read between the tag and the closing brace.** -/
theorem Laid.tagged {content : Reader α} {x : α} (known : tagOf tags tag = .ok kind)
    (reads : Reads content tokens x) (laid : Laid (taggedTokens tag tokens ++ ts) s) :
    ∃ r t u v, Json.skipSpace s = '{' :: r ∧ Json.readTag tags r = .ok (kind, t) ∧
      content t = .ok (x, u) ∧ Json.closeTagged u = .ok v ∧ Laid ts v := by
  obtain ⟨r, t, front, tag, behind⟩ := laid.openTagged known
  obtain ⟨u, found, close⟩ := reads _ t (stops_cons (.inr (.inr rfl))) behind
  obtain ⟨v, closed, rest⟩ := close.closeTagged
  exact ⟨r, t, u, v, front, tag, found, closed, rest⟩

end

end

/-! ## the tokens of a value -/

mutual

def tokens : Json → List Token
  | .null => [.lexeme "null".toList]
  | .boolean b => [.lexeme (writeBool b [])]
  | .number n => [.lexeme (n.write [])]
  | .string s => [.string s]
  | .array l => listTokens (itemsTokens l)
  | .object ms => objectTokens (membersTokens ms)

def itemsTokens : List Json → List (List Token)
  | [] => []
  | x :: l => x.tokens :: itemsTokens l

def membersTokens : List (String × Json) → List (List Token)
  | [] => []
  | (name, x) :: ms => memberTokens name x.tokens :: membersTokens ms

end

theorem itemsTokens_eq (l : List Json) : itemsTokens l = l.map tokens := by
  induction l with
  | nil => rfl
  | cons x l ih => rw [itemsTokens, ih, List.map_cons]

section
variable {token : Token} {ts : List Token} {t k : List Char}

theorem Laid.text (text : token.Text t) (h : Laid ts k) : Laid (token :: ts) (t ++ k) :=
  .cons (w := []) nofun text h

theorem laid_mark {c : Char} (dark : isSpace c = false) (h : Laid ts k) :
    Laid (.mark c :: ts) (c :: k) := h.text (.lexeme dark)

theorem laid_writeString (s : String) (h : Laid ts k) :
    Laid (.string s :: ts) (writeString s k) := by
  have text : writeString s k = '"' :: (s.toList.foldr writeChar [] ++ ['"']) ++ k := by
    unfold writeString
    rw [List.cons_append, List.append_assoc, ← foldr_writeChar_append]
    rfl
  rw [text]
  exact h.text (.string (spells_write s.toList))

theorem laid_member (name : String) {value : List Token} (h : Laid (value ++ ts) k) :
    Laid (memberTokens name value ++ ts) (writeString name (':' :: k)) :=
  laid_writeString name (laid_mark (c := ':') rfl h)

theorem laid_writeBool (b : Bool) (h : Laid ts k) :
    Laid (.lexeme (writeBool b []) :: ts) (writeBool b k) := by
  cases b with
  | false => exact h.text (.lexeme rfl)
  | true => exact h.text (.lexeme rfl)

theorem laid_writeNumber (n : Number) (h : Laid ts k) :
    Laid (.lexeme (n.write []) :: ts) (n.write k) := by
  have front : n.write k = n.write [] ++ k := n.write_append [] k
  rw [front]
  obtain ⟨c, r, text, starts⟩ := n.write_eq_cons []
  rw [text]
  apply h.text
  apply Token.Text.lexeme
  rcases starts with starts | rfl
  · exact isSpace_of_startsNumber starts
  · rfl

end

mutual

/-- **What the writer writes consists of the value's tokens.** -/
theorem laid_write : ∀ (j : Json) {ts : List Token} {k : List Char}, Laid ts k →
    Laid (j.tokens ++ ts) (j.write k)
  | .null, _, _, h => h.text (.lexeme rfl)
  | .boolean b, _, _, h => laid_writeBool b h
  | .number n, _, _, h => laid_writeNumber n h
  | .string s, _, _, h => laid_writeString s h
  | .array [], _, _, h => laid_mark rfl (laid_mark rfl h)
  | .array (x :: l), ts, k, h => by
    have items := laid_write x (laid_writeItems l h)
    simp only [tokens, listTokens, itemsTokens, separated, List.cons_append, List.append_assoc]
    exact laid_mark rfl items
  | .object [], _, _, h => laid_mark rfl (laid_mark rfl h)
  | .object ((name, x) :: ms), ts, k, h => by
    have members := laid_member name (laid_write x (laid_writeMembers ms h))
    simp only [tokens, objectTokens, membersTokens, separated, List.cons_append,
      List.append_assoc]
    exact laid_mark rfl members

theorem laid_writeItems : ∀ (l : List Json) {ts : List Token} {k : List Char}, Laid ts k →
    Laid ((itemsTokens l).flatMap (.mark ',' :: ·) ++ .mark ']' :: ts) (writeItems l k)
  | [], _, _, h => laid_mark rfl h
  | x :: l, ts, k, h => by
    have items := laid_write x (laid_writeItems l h)
    simp only [itemsTokens, List.flatMap_cons, List.cons_append, List.append_assoc]
    exact laid_mark rfl items

theorem laid_writeMembers : ∀ (ms : List (String × Json)) {ts : List Token} {k : List Char},
    Laid ts k →
    Laid ((membersTokens ms).flatMap (.mark ',' :: ·) ++ .mark '}' :: ts) (writeMembers ms k)
  | [], _, _, h => laid_mark rfl h
  | (name, x) :: ms, ts, k, h => by
    have members := laid_member name (laid_write x (laid_writeMembers ms h))
    simp only [membersTokens, List.flatMap_cons, List.cons_append, List.append_assoc]
    exact laid_mark rfl members

end

/-! ## numbers and truth values -/

theorem readNumeric_skipSpace (expected : String) (s : List Char) :
    readNumeric expected (skipSpace s) = readNumeric expected s := by
  unfold readNumeric
  rw [skipSpace_skipSpace]

theorem readInteger_skipSpace (low high : Int) (expected : String) (s : List Char) :
    readInteger low high expected (skipSpace s) = readInteger low high expected s := by
  unfold readInteger
  rw [readNumeric_skipSpace]

theorem reads_integer (expected : String) {n low high : Int} (least : -0x8000000000000000 ≤ n)
    (greatest : n < 0x10000000000000000) (atLeast : low ≤ n) (atMost : n ≤ high) :
    Reads (readInteger low high expected) (Json.integer n).tokens n := by
  have alone := readInteger_writeInt expected least greatest atLeast atMost (k := []) nofun
  exact reads_lexeme (local_readInteger low high expected) (readInteger_skipSpace low high expected)
    alone nofun

theorem reads_float {x : Binary64}
    (survives : Json.readAll (readFloat "f64") ((Number.float x).write []) = .ok x) :
    Reads (readFloat "f64") (Json.number (.float x)).tokens x := by
  have spaces : ∀ s, readFloat "f64" (skipSpace s) = readFloat "f64" s := by
    intro s
    unfold readFloat
    rw [readNumeric_skipSpace]
  obtain ⟨r, alone, blank⟩ := readAll_eq_ok.mp survives
  exact reads_lexeme (local_readFloat "f64") spaces alone (List.dropWhile_eq_nil_iff.mp blank)

theorem reads_boolean (expected : String) (b : Bool) :
    Reads (readBoolean expected) (Json.boolean b).tokens b := by
  have spaces : ∀ s, readBoolean expected (skipSpace s) = readBoolean expected s := by
    intro s
    unfold readBoolean
    rw [skipSpace_skipSpace]
  have alone := readBoolean_write expected b []
  exact reads_lexeme (local_readBoolean expected) spaces alone nofun

end HqlWhere.Json
