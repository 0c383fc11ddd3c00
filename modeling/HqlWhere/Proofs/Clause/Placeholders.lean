import HqlWhere.Proofs.Clause.Parameters
import HqlWhere.Proofs.Clause.Readability

/-!
# Placeholders in the text and names beside it

A clause keeps its text and the names of its parameters apart.  Here the text alone is scanned for
placeholders, and the scan finds exactly the recorded names, as long as no step of a path holds a
colon or a character that ends a name.

`scan` reads a name behind each colon.  What it finds in a text depends on the text behind it, since
a name at the end of a template goes on into that text unless the text opens with a character that
ends names (`Closed`).  So `scan_pieces` and `Expr.scan_text` speak of a text in front of ANY closed
text, and the texts that the compiler puts behind a template or a tree, `)`, ` AND ` and ` OR `, are
all closed.
-/

namespace HqlWhere

/-! ## scanning -/

/-- Whether a character ends the name of a placeholder. -/
def endsName (c : Char) : Bool := c == ' ' || c == ')' || c == ','

/-- The names that a scan finds: behind each colon, the characters up to the next blank, closing
parenthesis or comma, or up to the end. -/
def scan : List Char → List String
  | [] => []
  | c :: s =>
    if c = ':' then String.ofList (s.takeWhile fun d => !endsName d) :: scan s else scan s

theorem scan_nil : scan [] = [] := rfl

theorem scan_colon (s : List Char) :
    scan (':' :: s) = String.ofList (s.takeWhile fun d => !endsName d) :: scan s := rfl

theorem scan_cons_of_ne {c : Char} (h : c ≠ ':') (s : List Char) : scan (c :: s) = scan s := by
  rw [scan, if_neg h]

/-- A scan finds as many names as there are colons. -/
theorem length_scan (s : List Char) : (scan s).length = s.count ':' := by
  induction s with
  | nil => rfl
  | cons c s ih =>
    by_cases h : c = ':'
    · subst h
      rw [scan_colon, List.length_cons, ih, List.count_cons_self]
    · rw [scan_cons_of_ne h, ih, List.count_cons_of_ne h]

/-- a text without a colon plays no part -/
theorem scan_append_of_not_mem {t : List Char} (h : ':' ∉ t) (s : List Char) :
    scan (t ++ s) = scan s := by
  induction t with
  | nil => rfl
  | cons c t ih =>
    have hc : c ≠ ':' := fun eq => h (eq ▸ List.mem_cons_self)
    rw [List.cons_append, scan_cons_of_ne hc, ih fun mem => h (List.mem_cons_of_mem c mem)]

/-- A text behind which a name cannot go on: it is empty or opens with a character that ends
names. -/
def Closed (s : List Char) : Prop := ∀ c ∈ s.head?, endsName c = true

theorem closed_nil : Closed [] := by
  intro c h
  cases h

theorem closed_cons {c : Char} (h : endsName c = true) (s : List Char) : Closed (c :: s) := by
  intro d hd
  obtain rfl := Option.some.inj hd
  exact h

/-- a name in front of a closed text is found whole -/
theorem scan_placeholder {name : String} (h : ∀ c ∈ name.toList, c ≠ ':' ∧ endsName c = false)
    {s : List Char} (closed : Closed s) :
    scan (':' :: (name.toList ++ s)) = name :: scan s := by
  have inside : ∀ c ∈ name.toList, (!endsName c) = true := fun c hc => by rw [(h c hc).2]; rfl
  have behind : s.takeWhile (fun d => !endsName d) = [] := by
    cases s with
    | nil => rfl
    | cons c s =>
      rw [List.takeWhile_cons_of_neg]
      rw [closed c rfl]
      exact Bool.false_ne_true
  have colon : ':' ∉ name.toList := fun mem => (h ':' mem).1 rfl
  rw [scan_colon, List.takeWhile_append_of_pos inside, behind, List.append_nil,
    String.ofList_toList, scan_append_of_not_mem colon]

/-! ## paths -/

namespace Path

/-- No step has one of the given characters. -/
def Avoids (p : Path) (chars : List Char) : Prop := ∀ s ∈ p.steps, ∀ c ∈ s.toList, c ∉ chars

instance (p : Path) (chars : List Char) : Decidable (p.Avoids chars) :=
  decidable_of_iff (p.steps.all fun s => s.toList.all fun c => !chars.contains c)
    (by simp only [Avoids, List.all_eq_true, Bool.not_eq_true', List.contains_eq_mem,
      decide_eq_false_iff_not])

theorem toList_parameter (p : Path) :
    p.parameter.toList = ['_'].intercalate (p.steps.map String.toList) := by
  rw [parameter, String.toList_intercalate]
  rfl

/-- the steps, joined by any character, hold that character and what the steps hold -/
theorem mem_joined {p : Path} {x c : Char}
    (h : c ∈ [x].intercalate (p.steps.map String.toList)) :
    c = x ∨ ∃ s ∈ p.steps, c ∈ s.toList := by
  rcases mem_intercalate h with rfl | ⟨l, hl, hc⟩
  · exact .inl rfl
  · obtain ⟨s, hs, rfl⟩ := List.mem_map.mp hl
    exact .inr ⟨s, hs, hc⟩

theorem Avoids.not_mem_dotted {p : Path} {chars : List Char} (h : p.Avoids chars) {c : Char}
    (hc : c ∈ chars) (dot : c ≠ '.') : c ∉ p.dotted.toList := by
  intro mem
  rw [toList_dotted] at mem
  rcases mem_joined mem with rfl | ⟨s, hs, hcs⟩
  · exact dot rfl
  · exact h s hs c hcs hc

theorem Avoids.not_mem_parameter {p : Path} {chars : List Char} (h : p.Avoids chars) {c : Char}
    (hc : c ∈ chars) (underscore : c ≠ '_') : c ∉ p.parameter.toList := by
  intro mem
  rw [toList_parameter] at mem
  rcases mem_joined mem with rfl | ⟨s, hs, hcs⟩
  · exact underscore rfl
  · exact h s hs c hcs hc

/-- A path that a scan can follow: no step has a colon or a character that ends names. -/
abbrev Scannable (p : Path) : Prop := p.Avoids [':', ' ', ')', ',']

theorem Scannable.colon {p : Path} (h : p.Scannable) : ':' ∉ p.dotted.toList :=
  h.not_mem_dotted (by decide) (by decide)

theorem Scannable.name {p : Path} (h : p.Scannable) :
    ∀ c ∈ p.parameter.toList, c ≠ ':' ∧ endsName c = false := by
  intro c hc
  have other : ∀ d ∈ [':', ' ', ')', ','], c ≠ d := by
    rintro d hd rfl
    have underscore : c ≠ '_' := fun eq => absurd (eq ▸ hd) (by decide)
    exact h.not_mem_parameter hd underscore hc
  refine ⟨other ':' (by decide), ?_⟩
  have blank := other ' ' (by decide)
  have paren := other ')' (by decide)
  have comma := other ',' (by decide)
  simp [endsName, blank, paren, comma]

end Path

/-! ## templates -/

/-- Whether a part of a template is a text that a name cannot go on into. -/
def Piece.endsName : Piece → Bool
  | .text t => t.toList.head?.any HqlWhere.endsName
  | .path | .placeholder => false

/-- Whether the texts of a template have no colon, and a text that ends names stands behind each
placeholder but a last one. -/
def punctuated : List Piece → Bool
  | [] => true
  | .text t :: pieces => !t.toList.contains ':' && punctuated pieces
  | .path :: pieces => punctuated pieces
  | .placeholder :: pieces => pieces.head?.all Piece.endsName && punctuated pieces

/-- Every operator's template is punctuated. -/
theorem Operator.punctuated_template (op : Operator) (hasValues : Bool) :
    punctuated (op.template hasValues) = true := by
  cases op <;> cases hasValues <;> decide

theorem closed_pieces {path : Path} {pieces : List Piece}
    (h : pieces.head?.all Piece.endsName = true) {s : List Char} (closed : Closed s) :
    Closed (pieces.flatMap (Piece.chars path) ++ s) := by
  cases pieces with
  | nil => exact closed
  | cons p pieces =>
    cases p with
    | text t =>
      rw [List.flatMap_cons, List.append_assoc, Piece.chars]
      cases ht : t.toList with
      | nil => simp [Piece.endsName, ht] at h
      | cons c r => exact closed_cons (by simpa [Piece.endsName, ht] using h) _
    | path => simp [Piece.endsName] at h
    | placeholder => simp [Piece.endsName] at h

/-- In front of a closed text, a scan finds the names that a template records. -/
theorem scan_pieces {path : Path} (scannable : path.Scannable) {pieces : List Piece}
    (h : punctuated pieces = true) {s : List Char} (closed : Closed s) :
    scan (pieces.flatMap (Piece.chars path) ++ s)
      = pieces.flatMap (Piece.names path) ++ scan s := by
  induction pieces with
  | nil => rfl
  | cons p pieces ih =>
    rw [List.flatMap_cons, List.flatMap_cons, List.append_assoc, List.append_assoc]
    cases p with
    | text t =>
      obtain ⟨quiet, rest⟩ := Bool.and_eq_true_iff.mp h
      rw [Piece.chars, scan_append_of_not_mem (by simpa using quiet), ih rest]
      rfl
    | path =>
      rw [Piece.chars, scan_append_of_not_mem scannable.colon, ih h]
      rfl
    | placeholder =>
      obtain ⟨next, rest⟩ := Bool.and_eq_true_iff.mp h
      rw [Piece.chars, List.cons_append,
        scan_placeholder scannable.name (closed_pieces next closed), ih rest]
      rfl

theorem Predicate.scan_text {p : Predicate} (h : p.path.Scannable) {s : List Char}
    (closed : Closed s) : scan (p.text.toList ++ s) = p.names ++ scan s := by
  rw [p.toList_text, p.names_template]
  exact scan_pieces h (p.operator.punctuated_template _) closed

/-! ## trees and lists -/

namespace Expr

/-- Every path can be followed by a scan. -/
def Scannable (e : Expr) : Prop := ∀ p ∈ e.leaves, p.path.Scannable

theorem Scannable.left {l r : Expr} (h : (and l r).Scannable) : l.Scannable :=
  fun p hp => h p (List.mem_append_left _ hp)

theorem Scannable.right {l r : Expr} (h : (and l r).Scannable) : r.Scannable :=
  fun p hp => h p (List.mem_append_right _ hp)

/-- In front of a closed text, a scan finds the names of a tree from left to right. -/
theorem scan_text {e : Expr} (h : e.Scannable) {s : List Char} (closed : Closed s) :
    scan (e.text.toList ++ s) = e.names ++ scan s := by
  induction e generalizing s with
  | leaf p =>
    rw [names_leaf]
    exact Predicate.scan_text (h p List.mem_cons_self) closed
  | and l r ihl ihr =>
    have joiner : ':' ∉ [' ', 'A', 'N', 'D', ' '] := by decide
    rw [toList_and, scan_cons_of_ne (by decide), ihl h.left (closed_cons rfl _)]
    show l.names ++ scan ([' ', 'A', 'N', 'D', ' '] ++ (r.text.toList ++ ')' :: s)) = _
    rw [scan_append_of_not_mem joiner, ihr h.right (closed_cons rfl _),
      scan_cons_of_ne (by decide), names_and, List.append_assoc]
  | or l r ihl ihr =>
    have joiner : ':' ∉ [' ', 'O', 'R', ' '] := by decide
    rw [toList_or, scan_cons_of_ne (by decide), ihl h.left (closed_cons rfl _)]
    show l.names ++ scan ([' ', 'O', 'R', ' '] ++ (r.text.toList ++ ')' :: s)) = _
    rw [scan_append_of_not_mem joiner, ihr h.right (closed_cons rfl _),
      scan_cons_of_ne (by decide), names_or, List.append_assoc]
  | not e ih =>
    have opening : ':' ∉ ['N', 'O', 'T', ' ', '('] := by decide
    rw [toList_not]
    show scan (['N', 'O', 'T', ' ', '('] ++ (e.text.toList ++ ')' :: s)) = _
    rw [scan_append_of_not_mem opening, ih h (closed_cons rfl _), scan_cons_of_ne (by decide),
      names_not]

end Expr

/-- The text of the predicates behind the first opens with a blank, if there are any. -/
theorem closed_joinedText (ps : List Predicate) : Closed (joinedText ps).toList := by
  cases ps with
  | nil => exact closed_nil
  | cons p ps =>
    rw [joinedText, String.append_assoc, String.toList_append]
    exact closed_cons rfl _

theorem scan_joinedText {ps : List Predicate} (h : ∀ p ∈ ps, p.path.Scannable) :
    scan (joinedText ps).toList = ps.flatMap Predicate.names := by
  induction ps with
  | nil => rfl
  | cons p ps ih =>
    have joiner : ':' ∉ " AND ".toList := by decide
    rw [joinedText, String.append_assoc, String.toList_append, scan_append_of_not_mem joiner,
      String.toList_append, Predicate.scan_text (h p List.mem_cons_self) (closed_joinedText ps),
      ih fun q hq => h q (List.mem_cons_of_mem p hq), List.flatMap_cons]

theorem scan_textOfAll {ps : List Predicate} (h : ∀ p ∈ ps, p.path.Scannable) :
    scan (textOfAll ps).toList = ps.flatMap Predicate.names := by
  cases ps with
  | nil => rfl
  | cons p ps =>
    have introduced : ':' ∉ introducer.toList := by decide
    rw [textOfAll, String.append_assoc, String.toList_append, scan_append_of_not_mem introduced,
      String.toList_append, Predicate.scan_text (h p List.mem_cons_self) (closed_joinedText ps),
      scan_joinedText fun q hq => h q (List.mem_cons_of_mem p hq), List.flatMap_cons]

theorem Expr.scan_clause {e : Expr} (h : e.Scannable) : scan e.clause.sql.toList = e.names := by
  have introduced : ':' ∉ introducer.toList := by decide
  have whole := scan_text h closed_nil
  rw [List.append_nil, scan_nil, List.append_nil] at whole
  rw [clause, String.toList_append, scan_append_of_not_mem introduced, whole]

/-- **Placeholders and names never drift apart.**  If no step has a colon or a character that ends a
name, a scan of the text of a clause finds its parameters, in their order and with their
repetitions, whether the clause was compiled from a tree without a depth limit or from a list.  So
there are as many colons in the text as there are parameters. -/
theorem Settings.scan_sql_eq_params (s : Settings) :
    (s.maxDepth = none → ∀ e : Expr, e.Scannable → ∃ c, (s.compile e).1 = .ok c ∧
      scan c.sql.toList = c.params.toList ∧ c.sql.toList.count ':' = c.params.size) ∧
    ∀ ps : List Predicate, (∀ p ∈ ps, p.path.Scannable) →
      scan (s.compileAll ps).1.sql.toList = (s.compileAll ps).1.params.toList ∧
      (s.compileAll ps).1.sql.toList.count ':' = (s.compileAll ps).1.params.size := by
  have counted : ∀ c : Clause, scan c.sql.toList = c.params.toList →
      c.sql.toList.count ':' = c.params.size := by
    intro c found
    rw [← length_scan, found, Array.length_toList]
  constructor
  · intro unlimited e scannable
    have fits : ∀ n ∈ s.maxDepth, e.depth ≤ n.toNat := by simp [unlimited]
    have found : scan e.clause.sql.toList = e.clause.params.toList := Expr.scan_clause scannable
    exact ⟨e.clause, by rw [s.compile_of_fits fits], found, counted _ found⟩
  · intro ps scannable
    rw [s.compileAll_eq]
    have found : scan (clauseOfAll ps).sql.toList = (clauseOfAll ps).params.toList :=
      scan_textOfAll scannable
    exact ⟨found, counted _ found⟩

/-- one name bound twice, behind it a parenthesis, a comma and the end, and a step named like a
template's text -/
theorem Settings.scan_sql_of_prices :
    let s : Settings := {}
    let price : Path := ⟨["item", "price"], by decide, by decide⟩
    let concat : Path := ⟨["CONCAT('%'"], by decide, by decide⟩
    let within : Predicate := ⟨price, .isIn, [.int 1, .int 2]⟩
    let named : Predicate := ⟨concat, .contains, []⟩
    let below : Predicate := ⟨price, .lt, [.int 3]⟩
    let e : Expr := .or (.not (.leaf within)) (.and (.leaf named) (.leaf below))
    s.maxDepth = none ∧ e.Scannable ∧ (∀ p ∈ [named, below], p.path.Scannable) ∧
      (∃ c, (s.compile e).1 = .ok c ∧
        scan c.sql.toList = ["item_price", "CONCAT('%'", "item_price"]) ∧
      (s.compileAll [named, below]).1.sql.toList.count ':' = 2 := by
  intro s price concat within named below e
  have tree : e.Scannable := by
    unfold Expr.Scannable
    decide
  have list : ∀ p ∈ [named, below], p.path.Scannable := by
    decide
  obtain ⟨trees, lists⟩ := Settings.scan_sql_eq_params s
  obtain ⟨c, compiled, found, _⟩ := trees rfl e tree
  refine ⟨rfl, tree, list, ⟨c, compiled, ?_⟩, ?_⟩
  · rw [s.compile_of_fits (by simp [s])] at compiled
    obtain rfl := Except.ok.inj compiled
    rw [found]
    rfl
  · rw [(lists _ list).2, s.compileAll_eq]
    rfl

end HqlWhere
