import HqlWhere.Proofs.Document.Members

/-!
# How a tree is spelled does not matter

* `Expr.reads_spelling`    each spelling of a tree is read as the tree;
* `Expr.spelledBy_plain`   the written form is one of the spellings;
* `Expr.parse_spelled`     so all texts of a tree are decoded alike and compiled alike.
-/

namespace HqlWhere

open Json

namespace Expr

variable {budget : Nat} {l r : List Token} {x y : Expr}

theorem reads_pair (kind : Kind) (startsLeft : Starts ']' l) (startsRight : Starts ']' r)
    (left : Reads (read budget) l x) (right : Reads (read budget) r y) :
    Reads (readPair kind (some (read budget))) (listTokens [l, r]) (x, y) := by
  intro ts s _ laid
  simp only [listTokens, separated, List.flatMap_cons, List.flatMap_nil, List.append_nil,
    List.cons_append, List.append_assoc, List.nil_append] at laid
  obtain ⟨t, front, inner⟩ := laid.mark
  obtain ⟨u, first, behind⟩ := inner.firstItem startsLeft
  obtain ⟨u', foundLeft, more⟩ := left _ u (stops_cons (.inl rfl)) behind
  obtain ⟨v, second, behind⟩ := more.nextItem startsRight
  obtain ⟨v', foundRight, close⟩ := right _ v (stops_cons (.inr (.inl rfl))) behind
  obtain ⟨w, closed, rest⟩ := close.closeItems
  refine ⟨w, ?_, rest⟩
  unfold readPair
  rw [front]
  show (Items.next true t >>= _) = _
  rw [first, ok_bind]
  show (read budget u >>= _) = _
  rw [foundLeft, ok_bind]
  show (Items.next false u' >>= _) = _
  rw [second, ok_bind]
  show (read budget v >>= _) = _
  rw [foundRight, ok_bind]
  show (Items.close v' >>= _) = _
  rw [closed]
  rfl

theorem reads_tagged (kind : Kind) {tag : String} {tokens : List Token} {e : Expr} {inside : Nat}
    (known : tagOf tags tag = .ok kind) (reads : Reads (readContent inside kind) tokens e) :
    Reads (read (inside + 1)) (taggedTokens tag tokens) e := by
  intro ts s _ laid
  obtain ⟨r, t, u, v, front, tag, content, closed, rest⟩ := laid.tagged known reads
  refine ⟨v, ?_, rest⟩
  rw [read_brace front, tag, ok_bind, content, ok_bind, closed]
  rfl

end Expr

theorem Spelling.starts (u : Spelling) : Starts ']' u.tokens := by
  cases u <;> exact ⟨_, _, rfl, by decide⟩

theorem Member.height_le {ms : List Member} {n : Nat} :
    ms.foldr (fun m n => max m.height n) 0 ≤ n ↔ ∀ m ∈ ms, m.height ≤ n := by
  induction ms with
  | nil => simp
  | cons m ms ih => rw [List.foldr_cons, Nat.max_le, ih, List.forall_mem_cons]

/-- **Every spelling of a tree is read as the tree**, where its brackets have room. -/
theorem Expr.reads_spelling {e : Expr} {u : Spelling} (survives : e.Survives) (h : e.SpelledBy u)
    {budget : Nat} (fits : u.height ≤ budget) : Reads (read budget) u.tokens e := by
  induction h generalizing budget with
  | @leaf p ms told =>
    rw [Spelling.height] at fits
    obtain ⟨inside, rfl⟩ : ∃ n, budget = n + 2 := ⟨budget - 2, by omega⟩
    have survives : p.Survives := survives p (List.mem_singleton.mpr rfl)
    have room : ∀ m ∈ ms, m.height ≤ inside := Member.height_le.mp (by omega)
    have predicate := Predicate.reads_spelling survives told room
    exact reads_tagged .leaf rfl (predicate.andThen fun _ => rfl)
  | @and x y l r _ _ ihl ihr =>
    rw [Spelling.height] at fits
    obtain ⟨inside, rfl⟩ : ∃ n, budget = n + 2 := ⟨budget - 2, by omega⟩
    obtain ⟨survivesLeft, survivesRight⟩ := List.forall_mem_append.mp survives
    have left := ihl survivesLeft (by omega : l.height ≤ inside)
    have right := ihr survivesRight (by omega : r.height ≤ inside)
    exact reads_tagged .and rfl
      ((reads_pair .and l.starts r.starts left right).andThen fun _ => rfl)
  | @or x y l r _ _ ihl ihr =>
    rw [Spelling.height] at fits
    obtain ⟨inside, rfl⟩ : ∃ n, budget = n + 2 := ⟨budget - 2, by omega⟩
    obtain ⟨survivesLeft, survivesRight⟩ := List.forall_mem_append.mp survives
    have left := ihl survivesLeft (by omega : l.height ≤ inside)
    have right := ihr survivesRight (by omega : r.height ≤ inside)
    exact reads_tagged .or rfl
      ((reads_pair .or l.starts r.starts left right).andThen fun _ => rfl)
  | @not e u _ ih =>
    rw [Spelling.height] at fits
    obtain ⟨inside, rfl, room⟩ := exists_inside fits
    have inner := ih survives room
    exact reads_tagged .not rfl (inner.andThen fun _ => rfl)

theorem Expr.parse_of_spelledIn {e : Expr} {text : String} (survives : e.Survives)
    (h : e.SpelledIn text) : parse text = .ok e := by
  obtain ⟨u, told, fits, laid⟩ := h
  exact (reads_spelling survives told fits).readAll laid

/-! ## the written form is a spelling -/

def Predicate.plain (p : Predicate) : List Member :=
  [.path (.steps p.path.steps), .operator p.operator.name, .values p.values]

/-- The spelling that is written. -/
def Expr.plain : Expr → Spelling
  | leaf p => .leaf p.plain
  | and l r => .and l.plain r.plain
  | or l r => .or l.plain r.plain
  | not e => .not e.plain

theorem Operator.spelledBy_name (op : Operator) : op.SpelledBy op.name := by
  refine ⟨[], op.name.toList, [], (List.append_nil _).symm, nofun, ?_, nofun⟩
  have capitals : op.name.toList.all fun c => c = c.toUpper := by
    cases op <;> rfl
  apply List.forall₂_same.mpr
  intro c hc
  exact .inl (of_decide_eq_true (List.all_eq_true.mp capitals c hc))

theorem Predicate.spelledBy_plain (p : Predicate) : p.SpelledBy p.plain := by
  have others : ∀ m ∈ ([] : List Member), m.Foreign := nofun
  exact .members .steps p.operator.spelledBy_name (.inl rfl) others (.refl _)

namespace Expr

theorem spelledBy_plain (e : Expr) : e.SpelledBy e.plain := by
  induction e with
  | leaf p => exact .leaf p.spelledBy_plain
  | and l r ihl ihr => exact .and ihl ihr
  | or l r ihl ihr => exact .or ihl ihr
  | not e ih => exact .not ih

theorem tokens_plain (e : Expr) : e.plain.tokens = e.toJson.tokens := by
  induction e with
  | leaf p => rfl
  | and l r ihl ihr =>
    rw [plain, Spelling.tokens, ihl, ihr]
    rfl
  | or l r ihl ihr =>
    rw [plain, Spelling.tokens, ihl, ihr]
    rfl
  | not e ih =>
    rw [plain, Spelling.tokens, ih]
    rfl

theorem height_plain (e : Expr) : e.plain.height = e.nest := by
  induction e with
  | leaf p =>
    have json := height_toJson (leaf p)
    rw [toJson, height_tagged, ← p.raw_toJson, RawLeaf.height_toJson] at json
    have values : (Json.array (p.values.map Value.toJson)).height =
        1 + heightItems (p.values.map Value.toJson) := by rw [Json.height]
    rw [← json, plain, Spelling.height, Predicate.plain]
    simp only [List.foldr_cons, List.foldr_nil, Member.height, values, Predicate.raw]
    omega
  | and l r ihl ihr => rw [plain, Spelling.height, ihl, ihr, nest]
  | or l r ihl ihr => rw [plain, Spelling.height, ihl, ihr, nest]
  | not e ih => rw [plain, Spelling.height, ih, nest]

theorem spelledIn_compact {e : Expr} (fits : e.nest ≤ nesting) :
    e.SpelledIn e.toJson.compact := by
  refine ⟨e.plain, e.spelledBy_plain, ?_, ?_⟩
  · rw [e.height_plain]
    exact fits
  · have laid := laid_write e.toJson (.nil (w := []) nofun)
    rw [List.append_nil, ← e.tokens_plain] at laid
    rw [compact, String.toList_ofList]
    exact laid

/-- **How a tree is spelled does not matter.**  Its written form is one of its spellings, and all
texts in which the tree is spelled are decoded to the tree and compiled alike, as long as each
floating point number, date and timestamp is read back from its own text. -/
theorem parse_spelled :
    (∀ e : Expr, e.nest ≤ nesting → e.SpelledIn e.toJson.compact) ∧
      ∀ e : Expr, e.Survives → ∀ text, e.SpelledIn text → parse text = .ok e ∧
        ∀ text', e.SpelledIn text' → ∀ s : Settings,
          s.compileTreeDocument text' = s.compileTreeDocument text := by
  refine ⟨fun e fits => spelledIn_compact fits, ?_⟩
  intro e survives text spelled
  have parsed := parse_of_spelledIn survives spelled
  refine ⟨parsed, fun text' spelled' s => ?_⟩
  have parsed' := parse_of_spelledIn survives spelled'
  unfold Settings.compileTreeDocument
  rw [parsed, parsed']

/-! ## an odd text -/

def placed : Predicate :=
  { path := .order
    operator := .le
    values := [.leapDay] }

theorem survives_placed : (not (leaf placed)).Survives := by
  intro p hp
  obtain rfl := List.mem_singleton.mp hp
  exact List.forall_mem_singleton.mpr Value.leapDay_survives

-- a number beyond all floating point numbers
def huge : List Char := ['1', 'e', '9', '9', '9']

-- half of a surrogate pair
def half : List Char := ['\\', 'u', 'd', '8', '0', '0']

/-- A list of a list with the number, and of the half pair. -/
def note : List Token := listTokens [listTokens [[.lexeme huge]], [quotedToken half]]

theorem wellFormed_note : WellFormed note := by
  have number : WellFormed [.lexeme huge] := .number
    { sign := [], whole := ['1'], fraction := [], exponent := ['e', '9', '9', '9']
      sign_minus := .inl rfl
      whole_digits := by decide
      whole_zero := by decide
      fraction_point := .inl rfl
      exponent_letter := .inr ⟨'e', [], ['9', '9', '9'], .inl rfl, .inl rfl, by decide, rfl⟩ }
  have string : WellFormed [quotedToken half] := .string (.code (List.all_eq_true.mp rfl) .nil)
  have inner : WellFormed (listTokens [[.lexeme huge]]) := .list (by simpa using number)
  exact .list (by simpa using ⟨inner, string⟩)

/-- The members of the leaf from the last to the first, with a note before them, and the path in
one. -/
def oddMembers : List Member :=
  [.other "note" note, .values [.leapDay], .operator "\tlE ", .path (.dotted "order.placed")]

theorem spelledBy_oddMembers : placed.SpelledBy oddMembers := by
  have path : placed.path.SpelledBy (.dotted "order.placed") := by
    have text : placed.path.dotted = "order.placed" := by decide
    rw [← text]
    exact .dotted (by decide)
  have operator : placed.operator.SpelledBy "\tlE " := by
    have front : ∀ c ∈ ['\t'], Text.isBlank c = true := List.all_eq_true.mp rfl
    have back : ∀ c ∈ [' '], Text.isBlank c = true := List.all_eq_true.mp rfl
    have word : Recased ['L', 'E'] ['l', 'E'] := .cons (.inr rfl) (.cons (.inl rfl) .nil)
    exact ⟨['\t'], ['l', 'E'], [' '], rfl, front, word, back⟩
  have foreign : ∀ m ∈ [Member.other "note" note], m.Foreign :=
    List.forall_mem_singleton.mpr ⟨by decide, wellFormed_note⟩
  have order : oddMembers.Perm oddMembers.reverse := (List.reverse_perm oddMembers).symm
  exact .members path operator (.inl rfl) foreign order

def noteText (k : List Char) : List Char :=
  '[' :: '[' :: (huge ++ ']' :: ',' :: ' ' :: '"' :: (half ++ '"' :: ']' :: k))

/-- The negated condition, with some space between its tokens. -/
def oddText : String := String.ofList <|
  '{' :: ' ' :: writeString "not" (':' :: ' ' ::
    '{' :: writeString "predicate" (':' :: '\n' ::
      '{' :: writeString "note" (':' :: noteText (',' :: '\n' ::
        writeString "values" (':' :: (Json.array [Value.leapDay.toJson]).write (',' :: '\n' ::
        writeString "operator" (':' :: writeString "\tlE " (',' :: '\n' ::
        writeString "path" (':' :: writeString "order.placed" ['}', '}', ' ', '}', '\n'])))))))))

theorem laid_note {ts : List Token} {k : List Char} (h : Laid ts k) :
    Laid (note ++ ts) (noteText k) := by
  have blank : Blank [' '] := by decide
  have number : (Token.lexeme huge).Text huge := .lexeme rfl
  have string : (quotedToken half).Text ('"' :: (half ++ ['"'])) := .lexeme rfl
  have second := (laid_mark (c := ']') rfl h).text string
  have first := (laid_mark (c := ',') rfl (second.blank blank))
  exact laid_mark rfl (laid_mark rfl ((laid_mark (c := ']') rfl first).text number))

theorem laid_oddText : Laid (Spelling.not (.leaf oddMembers)).tokens oddText.toList := by
  have blank : Blank [' '] := by decide
  have line : Blank ['\n'] := by decide
  have closed : Laid [.mark '}', .mark '}', .mark '}'] ['}', '}', ' ', '}', '\n'] :=
    laid_mark rfl (laid_mark rfl (.blank blank (laid_mark rfl (.nil line))))
  have path := laid_writeString "path" (laid_mark (c := ':') rfl
    (laid_writeString "order.placed" closed))
  have next := laid_mark (c := ',') rfl (path.blank line)
  have operator := laid_writeString "operator" (laid_mark (c := ':') rfl
    (laid_writeString "\tlE " next))
  have next := laid_mark (c := ',') rfl (operator.blank line)
  have values := laid_member "values" (laid_write (.array [Value.leapDay.toJson]) next)
  have next := laid_mark (c := ',') rfl (values.blank line)
  have foreign := laid_member "note" (laid_note next)
  have leaf := laid_writeString "predicate" (laid_mark (c := ':') rfl
    (.blank line (laid_mark (c := '{') rfl foreign)))
  have tree := laid_writeString "not" (laid_mark (c := ':') rfl
    (.blank blank (laid_mark (c := '{') rfl leaf)))
  rw [oddText, String.toList_ofList]
  exact laid_mark rfl (tree.blank blank)

/-- The odd text and the written form of the same tree. -/
theorem parse_oddText :
    (not (leaf placed)).Survives ∧ (not (leaf placed)).SpelledIn oddText ∧
      parse oddText = .ok (not (leaf placed)) ∧
      ∀ s : Settings, s.compileTreeDocument (not (leaf placed)).toJson.compact =
        s.compileTreeDocument oddText := by
  have spelled : (not (leaf placed)).SpelledIn oddText :=
    ⟨_, .not (.leaf spelledBy_oddMembers), by decide, laid_oddText⟩
  obtain ⟨written, any⟩ := parse_spelled
  obtain ⟨parsed, alike⟩ := any (not (leaf placed)) survives_placed oddText spelled
  exact ⟨survives_placed, spelled, parsed, alike _ (written _ (by decide))⟩

end Expr

end HqlWhere
