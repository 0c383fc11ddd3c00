import HqlWhere.Proofs.Clause.Skeleton
import HqlWhere.Proofs.Document.Operators
import HqlWhere.Proofs.Document.RoundTrip
import HqlWhere.Proofs.Json.Skipping
import HqlWhere.Proofs.Json.Values

/-!
# The spellings of a tree

A document may spell a tree in many ways: a path as its steps or as its dotted text, an operator in
any case and between blanks, the members of a leaf in any order and with others among them, empty
values not at all, strings with any escapes, and with any space between the tokens.

* `Path.SpelledBy`, `Operator.SpelledBy`, `Predicate.SpelledBy`, `Expr.SpelledBy`   the spellings;
* `Expr.SpelledIn`         the texts in which a spelling of the tree is laid out;
* `Path.reads_spelling`, `Operator.reads_spelling`   paths and operators are read from any spelling;
* `Value.reads_list`       and values from their tokens.
-/

namespace HqlWhere

open Json

/-! ## spellings -/

/-- A path is told by its steps or, where no step has a dot in it, by its dotted text. -/
inductive Path.SpelledBy (p : Path) : RawPath → Prop
  | steps : SpelledBy p (.steps p.steps)
  | dotted (whole : ∀ s ∈ p.steps, '.' ∉ s.toList) : SpelledBy p (.dotted p.dotted)

/-- An operator is told by its name in any mix of cases, with any blanks around it. -/
def Operator.SpelledBy (op : Operator) (name : String) : Prop :=
  ∃ front word back, name.toList = front ++ (word ++ back) ∧
    (∀ c ∈ front, Text.isBlank c = true) ∧ Recased op.name.toList word ∧
    ∀ c ∈ back, Text.isBlank c = true

/-- A member of a leaf.  Of a member that nobody asked for the tokens are kept. -/
inductive Member
  | path (p : RawPath)
  | operator (name : String)
  | values (vs : List Value)
  | other (name : String) (value : List Token)

namespace Member

def name : Member → String
  | path _ => "path"
  | operator _ => "operator"
  | values _ => "values"
  | other name _ => name

def value : Member → List Token
  | path p => p.toJson.tokens
  | operator name => [.string name]
  | values vs => (Json.array (vs.map Value.toJson)).tokens
  | other _ value => value

def tokens (m : Member) : List Token := memberTokens m.name m.value

/-- The brackets that are open at once in the member, which count only where it is asked for. -/
def height : Member → Nat
  | path p => p.toJson.height
  | operator _ => 0
  | values vs => (Json.array (vs.map Value.toJson)).height
  | other _ _ => 0

/-- A member of another name, with any JSON as its value. -/
def Foreign : Member → Prop
  | other name value => name ∉ ["path", "operator", "values"] ∧ WellFormed value
  | _ => False

end Member

/-- A predicate is told by the members of its leaf, in any order and with foreign members among
them.  Its values may be left out if there are none. -/
inductive Predicate.SpelledBy (p : Predicate) : List Member → Prop
  | members {path : RawPath} {name : String} {values foreign ms : List Member}
      (path_spelled : p.path.SpelledBy path) (operator_spelled : p.operator.SpelledBy name)
      (values_told : values = [.values p.values] ∨ p.values = [] ∧ values = [])
      (others : ∀ m ∈ foreign, m.Foreign)
      (order : ms.Perm (.path path :: .operator name :: (values ++ foreign))) : SpelledBy p ms

/-- A tree in one of its spellings. -/
inductive Spelling
  | leaf (members : List Member)
  | and (left right : Spelling)
  | or (left right : Spelling)
  | not (inner : Spelling)

namespace Spelling

def tokens : Spelling → List Token
  | leaf ms => taggedTokens "predicate" (objectTokens (ms.map Member.tokens))
  | and l r => taggedTokens "and" (listTokens [l.tokens, r.tokens])
  | or l r => taggedTokens "or" (listTokens [l.tokens, r.tokens])
  | not u => taggedTokens "not" u.tokens

/-- The brackets that are open at once, those inside foreign members not counted. -/
def height : Spelling → Nat
  | leaf ms => 2 + ms.foldr (fun m n => max m.height n) 0
  | and l r => 2 + max l.height r.height
  | or l r => 2 + max l.height r.height
  | not u => 1 + u.height

end Spelling

/-- The tree is told by the spelling. -/
inductive Expr.SpelledBy : Expr → Spelling → Prop
  | leaf {p : Predicate} {ms : List Member} (told : p.SpelledBy ms) : SpelledBy (.leaf p) (.leaf ms)
  | and {x y : Expr} {l r : Spelling} (left : SpelledBy x l) (right : SpelledBy y r) :
      SpelledBy (.and x y) (.and l r)
  | or {x y : Expr} {l r : Spelling} (left : SpelledBy x l) (right : SpelledBy y r) :
      SpelledBy (.or x y) (.or l r)
  | not {e : Expr} {u : Spelling} (inner : SpelledBy e u) : SpelledBy (.not e) (.not u)

/-- The text is a spelling of the tree with any space between its tokens, and it opens no more
brackets at once than may be open. -/
def Expr.SpelledIn (e : Expr) (text : String) : Prop :=
  ∃ u : Spelling, e.SpelledBy u ∧ u.height ≤ nesting ∧ Laid u.tokens text.toList

/-! ## paths -/

namespace Path

theorem splitDots_of_not_mem {s : List Char} (h : '.' ∉ s) : splitDots s = [s] := by
  induction s with
  | nil => rfl
  | cons c s ih =>
    obtain ⟨first, rest⟩ := List.ne_and_not_mem_of_not_mem_cons h
    rw [splitDots, if_neg fun eq => first eq.symm, ih rest]

theorem splitDots_append {s : List Char} (h : '.' ∉ s) (t : List Char) :
    splitDots (s ++ '.' :: t) = s :: splitDots t := by
  induction s with
  | nil => rfl
  | cons c s ih =>
    obtain ⟨first, rest⟩ := List.ne_and_not_mem_of_not_mem_cons h
    rw [List.cons_append, splitDots, if_neg fun eq => first eq.symm, ih rest]

theorem splitDots_intercalate {pieces : List (List Char)} (nonempty : pieces ≠ [])
    (h : ∀ s ∈ pieces, '.' ∉ s) : splitDots (['.'].intercalate pieces) = pieces := by
  induction pieces with
  | nil => exact absurd rfl nonempty
  | cons s pieces ih =>
    obtain ⟨first, rest⟩ := List.forall_mem_cons.mp h
    cases pieces with
    | nil =>
      rw [List.intercalate_singleton]
      exact splitDots_of_not_mem first
    | cons t pieces =>
      rw [List.intercalate_cons_cons, List.append_assoc]
      exact (splitDots_append first _).trans (congrArg _ (ih (List.cons_ne_nil _ _) rest))

/-- Joined steps are told apart again.  The list of one empty step is left out, since its text is
that of no step at all. -/
theorem ofText_intercalate {steps : List String} (whole : ∀ t ∈ steps, '.' ∉ t.toList)
    (some : steps ≠ [""]) : ofText (".".intercalate steps) = ofSteps steps := by
  rcases eq_or_ne steps [] with rfl | nonempty
  · rfl
  · have pieces : splitDots (".".intercalate steps).toList = steps.map String.toList := by
      rw [String.toList_intercalate]
      refine splitDots_intercalate (by simpa using nonempty) ?_
      intro s hs
      obtain ⟨step, mem, rfl⟩ := List.mem_map.mp hs
      exact whole step mem
    have again : (splitDots (".".intercalate steps).toList).map String.ofList = steps := by
      rw [pieces, List.map_map]
      exact List.map_id'' (fun s => String.ofList_toList) _
    have full : ".".intercalate steps ≠ "" := by
      intro empty
      rw [empty] at again
      exact some again.symm
    unfold ofText
    rw [if_neg full, again]

theorem ofText_dotted {p : Path} (whole : ∀ s ∈ p.steps, '.' ∉ s.toList) :
    ofText p.dotted = .ok p := by
  have some : p.steps ≠ [""] := by
    intro empty
    exact p.step_ne_empty "" (empty ▸ List.mem_singleton.mpr rfl) rfl
  exact (ofText_intercalate whole some).trans p.ofSteps_steps

theorem SpelledBy.path_eq {p : Path} {raw : RawPath} (h : p.SpelledBy raw) : raw.path = .ok p := by
  cases h with
  | steps => exact p.ofSteps_steps
  | dotted whole => exact ofText_dotted whole

end Path

theorem RawPath.readsValue (raw : RawPath) {budget : Nat} (fits : raw.toJson.height ≤ budget) :
    Reads (readValue budget) raw.toJson.tokens raw.toJson := by
  refine reads_value raw.toJson fits ?_
  have none : raw.toJson.numbers = [] := by
    cases raw with
    | steps l => exact numbers_strings l
    | dotted s => rfl
  rw [none]
  exact List.forall_mem_nil _

theorem Path.reads_spelling {p : Path} {raw : RawPath} (h : p.SpelledBy raw) {budget : Nat}
    (fits : raw.toJson.height ≤ budget) : Reads (Path.read budget) raw.toJson.tokens p := by
  refine (raw.readsValue fits).andThen fun r => ?_
  dsimp only
  rw [raw.ofJson_toJson, h.path_eq]
  rfl

/-! ## operators -/

namespace Operator

theorem letters (op : Operator) : ∀ c ∈ op.name.toList, ∀ d,
    d = c.toUpper ∨ d = c.toLower → d.toUpper = c ∧ Text.isBlank d = false := by
  have upper : op.name.toList.all fun c =>
      c.toUpper.toUpper = c ∧ Text.isBlank c.toUpper = false := by
    cases op <;> rfl
  have lower : op.name.toList.all fun c =>
      c.toLower.toUpper = c ∧ Text.isBlank c.toLower = false := by
    cases op <;> rfl
  rintro c hc d (rfl | rfl)
  · exact of_decide_eq_true (List.all_eq_true.mp upper c hc)
  · exact of_decide_eq_true (List.all_eq_true.mp lower c hc)

theorem recased {s word : List Char} (same : Recased s word)
    (letters : ∀ c ∈ s, ∀ d, d = c.toUpper ∨ d = c.toLower →
      d.toUpper = c ∧ Text.isBlank d = false) :
    word.map Char.toUpper = s ∧ ∀ c ∈ word, Text.isBlank c = false := by
  induction same with
  | nil => exact ⟨rfl, nofun⟩
  | cons first rest ih =>
    obtain ⟨letter, others⟩ := List.forall_mem_cons.mp letters
    obtain ⟨upper, dark⟩ := letter _ first
    obtain ⟨map, all⟩ := ih others
    exact ⟨by rw [List.map_cons, upper, map], List.forall_mem_cons.mpr ⟨dark, all⟩⟩

theorem SpelledBy.namedBy {op : Operator} {name : String} (h : op.SpelledBy name) :
    op.NamedBy name := by
  obtain ⟨front, word, back, text, blankFront, same, blankBack⟩ := h
  obtain ⟨upper, dark⟩ := recased same op.letters
  have inside : ∀ c ∈ word, c.toNat ∉ Text.whiteSpace := by
    intro c hc white
    cases (Text.isBlank_iff.mpr white).symm.trans (dark c hc)
  refine ⟨word, ⟨front, back, text, ?_, ?_, ?_, ?_⟩, ?_⟩
  · exact fun c hc => Text.isBlank_iff.mp (blankFront c hc)
  · exact fun c hc => Text.isBlank_iff.mp (blankBack c hc)
  · exact fun c hc => inside c (List.mem_of_mem_head? hc)
  · exact fun c hc => inside c (List.mem_of_mem_getLast? hc)
  · rw [Text.sameButCase_iff, map_toUpper_name, upper]

theorem reads_spelling {op : Operator} {name : String} (h : op.SpelledBy name) :
    Reads Operator.read [.string name] op := by
  refine (reads_string "a string" name).andThen fun r => ?_
  dsimp only
  rw [ofText_eq_ok.mpr h.namedBy]
  rfl

end Operator

/-! ## values -/

namespace Value

theorem reads_tagged (kind : Kind) {tag : String} {tokens : List Token} {v : Value} {budget : Nat}
    (known : tagOf tags tag = .ok kind) (inside : budget ≠ 0)
    (reads : Reads (readContent kind) tokens v) :
    Reads (read budget) (taggedTokens tag tokens) v := by
  intro ts s _ laid
  obtain ⟨r, t, u, w, front, tag, content, closed, rest⟩ := laid.tagged known reads
  refine ⟨w, ?_, rest⟩
  unfold read
  rw [front]
  show (if budget = 0 then _ else readBraces r) = _
  rw [if_neg inside]
  unfold readBraces
  rw [tag, ok_bind]
  dsimp only
  rw [content, ok_bind]
  dsimp only
  rw [closed]
  rfl

theorem reads_told {α ε : Type} {expected : String} {ofText : List Char → Except ε α}
    {cause : ε → Mismatch} {text : List Char} {x : α} (tells : ofText text = .ok x) :
    Reads (readTold expected ofText cause) [.string (String.ofList text)] x := by
  refine (reads_string expected _).andThen fun r => ?_
  dsimp only
  rw [String.toList_ofList, tells]
  rfl

end Value

/-- **A value that survives is read**, where a brace may be opened for it. -/
theorem Value.reads_tokens {v : Value} (survives : v.Survives) {budget : Nat}
    (room : v ≠ .null → budget ≠ 0) : Reads (read budget) v.toJson.tokens v := by
  cases v with
  | int n =>
    have least : -0x8000000000000000 ≤ n.toInt := n.le_toInt
    have greatest := n.toInt_lt
    have content := reads_integer "i64" least (by omega) least
      (by omega : n.toInt ≤ 0x7FFFFFFFFFFFFFFF)
    refine reads_tagged .int rfl (room nofun) (content.andThen fun r => ?_)
    dsimp only
    rw [Int64.ofInt_toInt]
    rfl
  | uint n =>
    have greatest := n.toNat_lt
    have content := reads_integer "u64" (by omega) (by omega) (Int.natCast_nonneg n.toNat)
      (by omega : (n.toNat : Int) ≤ 0xFFFFFFFFFFFFFFFF)
    refine reads_tagged .uint rfl (room nofun) (content.andThen fun r => ?_)
    dsimp only
    rw [Int.toNat_natCast, UInt64.ofNat_toNat]
    rfl
  | float x =>
    exact reads_tagged .float rfl (room nofun)
      ((reads_float survives).andThen fun _ => rfl)
  | string s =>
    exact reads_tagged .string rfl (room nofun)
      ((reads_string "a string" s).andThen fun _ => rfl)
  | boolean b =>
    exact reads_tagged .boolean rfl (room nofun)
      ((reads_boolean "a boolean" b).andThen fun _ => rfl)
  | uuid u =>
    exact reads_tagged .uuid rfl (room nofun)
      ((reads_told u.ofText_write).andThen fun _ => rfl)
  | date d =>
    exact reads_tagged .date rfl (room nofun)
      ((reads_told survives).andThen fun _ => rfl)
  | timestamp t =>
    exact reads_tagged .timestamp rfl (room nofun)
      ((reads_told survives).andThen fun _ => rfl)
  | null =>
    intro ts s _ laid
    obtain ⟨r, t, front, text, rest⟩ := laid.string
    refine ⟨t, ?_, rest⟩
    unfold read
    rw [front]
    show (readBareTag tags r >>= _) = _
    unfold readBareTag
    rw [text]
    rfl

theorem Value.reads_list {vs : List Value} (survive : ∀ v ∈ vs, v.Survives) {budget : Nat}
    (fits : (Json.array (vs.map toJson)).height ≤ budget) :
    Reads (Predicate.readValues budget) (Json.array (vs.map toJson)).tokens vs := by
  rw [Json.height] at fits
  obtain ⟨inside, rfl, each⟩ := exists_inside fits
  have room : ∀ v ∈ vs, v ≠ .null → inside ≠ 0 := by
    intro v hv notNull
    have bracket : v.toJson.height ≤ inside :=
      heightItems_le.mp each _ (List.mem_map_of_mem hv)
    rw [v.height_toJson, if_neg notNull] at bracket
    omega
  have items : List.Forall₂ (ReadsItem (read inside)) ((vs.map toJson).map Json.tokens) vs := by
    rw [List.map_map, List.forall₂_map_left_iff, List.forall₂_same]
    intro v hv
    refine ⟨?_, reads_tokens (survive v hv) (room v hv)⟩
    cases v with
    | null => exact ⟨_, _, rfl, by simp [Token.head]⟩
    | _ => exact ⟨_, _, rfl, by decide⟩
  rw [Json.tokens, itemsTokens_eq]
  exact reads_array "a sequence" items

end HqlWhere
