import HqlWhere.Proofs.Clause.Compilation
import HqlWhere.Proofs.Document.Tree

/-!
# Documents hold no tree that is too deep

The reader of trees may open 127 brackets at once.  Each level of a tree takes at least one of them,
and a leaf takes a second one, its own, so a tree that is read has at most 126 levels, whatever the
text looks like otherwise.

* `Expr.read_eq_ok`      a node that is read, taken apart;
* `Expr.Found`           a tree comes out of the reader, of some text, with a number of brackets;
* `Expr.Found.cases`     what then came out of the reader for its parts;
* `Expr.Found.depth_lt`  each level has taken a bracket;
* `Expr.depth_of_parse`  the bound for documents, which is attained.
-/

namespace HqlWhere

open Json

/-- a predicate takes a bracket of its own, in either form -/
theorem Predicate.pos_of_read {budget : Nat} {s r : List Char} {p : Predicate}
    (h : read budget s = .ok (p, r)) : 0 < budget := by
  cases budget with
  | succ inside => exact Nat.succ_pos inside
  | zero =>
    unfold read at h
    split at h
    · cases h
    · cases h
    · cases ‹0 = _›
    · cases ‹0 = _›
    · cases h

namespace Expr

/-- The reader gives the tree for some text, where `budget` brackets may be opened. -/
def Found (budget : Nat) (e : Expr) : Prop := ∃ s r, read budget s = .ok (e, r)

/-- the two parts of AND and OR, with the marks around them -/
theorem readPair_eq_ok {kind : Kind} {node : Option (Reader Expr)} {s r : List Char} {x y : Expr}
    (h : readPair kind node s = .ok ((x, y), r)) :
    ∃ read t t' u u' v, node = some read ∧ skipSpace s = '[' :: t ∧
      Items.next true t = .ok (.more () t') ∧ read t' = .ok (x, u) ∧
      Items.next false u = .ok (.more () u') ∧ read u' = .ok (y, v) ∧ Items.close v = .ok r := by
  unfold readPair at h
  split at h
  · cases h
  · rename_i t read front
    obtain ⟨next, first, h⟩ := bind_eq_ok.mp h
    cases next with
    | ended _ => cases h
    | more _ t' =>
      obtain ⟨⟨left, u⟩, foundLeft, h⟩ := bind_eq_ok.mp h
      obtain ⟨next, second, h⟩ := bind_eq_ok.mp h
      cases next with
      | ended _ => cases h
      | more _ u' =>
        obtain ⟨⟨right, v⟩, foundRight, h⟩ := bind_eq_ok.mp h
        obtain ⟨r, closed, h⟩ := bind_eq_ok.mp h
        obtain ⟨pair, rfl⟩ := Prod.mk.inj (Except.ok.inj h)
        obtain ⟨rfl, rfl⟩ := Prod.mk.inj pair
        exact ⟨read, t, t', u, u', v, rfl, front, first, foundLeft, second, foundRight, closed⟩
  · cases h

/-- a node that is read, with the marks around its content -/
theorem read_eq_ok {budget : Nat} {s r : List Char} {e : Expr} (h : read budget s = .ok (e, r)) :
    ∃ inside t kind u v, budget = inside + 1 ∧ skipSpace s = '{' :: t ∧
      readTag tags t = .ok (kind, u) ∧ readContent inside kind u = .ok (e, v) ∧
      closeTagged v = .ok r := by
  cases budget with
  | zero =>
    rw [read.eq_def] at h
    dsimp only at h
    split at h
    · cases h
    · cases h
    · obtain ⟨_, _, h⟩ := bind_eq_ok.mp h
      cases h
    · cases h
  | succ inside =>
    by_cases brace : ∃ t, skipSpace s = '{' :: t
    · obtain ⟨t, front⟩ := brace
      rw [read_brace front] at h
      obtain ⟨⟨kind, u⟩, tag, h⟩ := bind_eq_ok.mp h
      obtain ⟨⟨e, v⟩, content, h⟩ := bind_eq_ok.mp h
      obtain ⟨r, closed, h⟩ := bind_eq_ok.mp h
      obtain ⟨rfl, rfl⟩ := Prod.mk.inj (Except.ok.inj h)
      exact ⟨inside, t, kind, u, v, rfl, front, tag, content, closed⟩
    · rw [read.eq_def] at h
      dsimp only at h
      split at h
      · cases h
      · exact absurd ⟨_, ‹_›⟩ brace
      · obtain ⟨_, _, h⟩ := bind_eq_ok.mp h
        cases h
      · cases h

/-- the two parts of AND and OR are read with one bracket less -/
theorem pairFound {kind : Kind} {inside : Nat} {s r : List Char} {x y : Expr}
    (h : readPair kind (match inside with | 0 => none | room + 1 => some (read room)) s
      = .ok ((x, y), r)) :
    ∃ room, inside = room + 1 ∧ Found room x ∧ Found room y := by
  obtain ⟨_, t, t', u, u', v, node, _, _, left, _, right, _⟩ := readPair_eq_ok h
  cases inside with
  | zero => cases node
  | succ room =>
    obtain rfl := Option.some.inj node
    exact ⟨room, rfl, ⟨t', u, left⟩, u', v, right⟩

/-- What the reader has found for the parts of a node, where `inside` brackets may be opened behind
the node's first. -/
def PartsFound (inside : Nat) : Expr → Prop
  | leaf p => ∃ s r, Predicate.read inside s = .ok (p, r)
  | and x y => ∃ room, inside = room + 1 ∧ Found room x ∧ Found room y
  | or x y => ∃ room, inside = room + 1 ∧ Found room x ∧ Found room y
  | not x => Found inside x

theorem Found.cases {budget : Nat} {e : Expr} (h : Found budget e) :
    ∃ inside, budget = inside + 1 ∧ PartsFound inside e := by
  obtain ⟨s, r, h⟩ := h
  obtain ⟨inside, t, kind, u, v, rfl, _, _, content, _⟩ := read_eq_ok h
  refine ⟨inside, rfl, ?_⟩
  cases kind with
  | leaf =>
    obtain ⟨⟨p, w⟩, found, same⟩ := bind_eq_ok.mp content
    obtain ⟨rfl, rfl⟩ := Prod.mk.inj (Except.ok.inj same)
    exact ⟨u, w, found⟩
  | and =>
    obtain ⟨⟨⟨x, y⟩, w⟩, found, same⟩ := bind_eq_ok.mp content
    obtain ⟨rfl, rfl⟩ := Prod.mk.inj (Except.ok.inj same)
    exact pairFound found
  | or =>
    obtain ⟨⟨⟨x, y⟩, w⟩, found, same⟩ := bind_eq_ok.mp content
    obtain ⟨rfl, rfl⟩ := Prod.mk.inj (Except.ok.inj same)
    exact pairFound found
  | not =>
    obtain ⟨⟨x, w⟩, found, same⟩ := bind_eq_ok.mp content
    obtain ⟨rfl, rfl⟩ := Prod.mk.inj (Except.ok.inj same)
    exact ⟨u, w, found⟩

/-- **Each level has taken a bracket, and the leaf below the last level another one.** -/
theorem Found.depth_lt {budget : Nat} {e : Expr} (h : Found budget e) : e.depth < budget := by
  induction e generalizing budget with
  | leaf p =>
    obtain ⟨inside, rfl, s, r, read⟩ := h.cases
    exact Nat.succ_lt_succ (Predicate.pos_of_read read)
  | and x y ihx ihy =>
    obtain ⟨_, rfl, room, rfl, left, right⟩ := h.cases
    have first := ihx left
    have second := ihy right
    rw [depth]
    omega
  | or x y ihx ihy =>
    obtain ⟨_, rfl, room, rfl, left, right⟩ := h.cases
    have first := ihx left
    have second := ihy right
    rw [depth]
    omega
  | not x ih =>
    obtain ⟨inside, rfl, inner⟩ := h.cases
    have below := ih inner
    rw [depth]
    omega

theorem found_of_parse {text : String} {e : Expr} (h : parse text = .ok e) : Found nesting e := by
  obtain ⟨r, found, _⟩ := readAll_eq_ok.mp h
  exact ⟨_, r, found⟩

/-! ## a deepest tree -/

/-- The condition that holds always, on a field `a`. -/
def flatLeaf : Predicate := ⟨⟨["a"], by decide, by decide⟩, .always, []⟩

/-- The same with a dotted path and without its values, so that it opens one bracket only. -/
def flatJson : Json := .object [("path", .string "a"), ("operator", .string "TRUE")]

theorem read_flatJson (budget : Nat) (k : List Char) :
    Predicate.read (budget + 1) (flatJson.write k) = .ok (flatLeaf, k) := by
  cases budget <;> rfl

theorem read_negations (n budget : Nat) (k : List Char) :
    read (n + (budget + 2)) ((Nat.repeat (tagged "not") n (tagged "predicate" flatJson)).write k)
      = .ok (Nat.repeat not n (leaf flatLeaf), k) := by
  induction n generalizing k with
  | zero =>
    rw [Nat.zero_add]
    exact read_leaf (x := .ok flatLeaf) (read_flatJson budget)
  | succ n ih =>
    rw [Nat.succ_add]
    exact read_not (x := .ok (Nat.repeat not n (leaf flatLeaf))) ih

theorem depth_negations (n : Nat) (e : Expr) : (Nat.repeat not n e).depth = n + e.depth := by
  induction n with
  | zero => exact (Nat.zero_add _).symm
  | succ n ih =>
    rw [Nat.repeat, depth, ih]
    omega

/-- The text of the condition under `n` negations. -/
def negated (n : Nat) : String :=
  (Nat.repeat (tagged "not") n (tagged "predicate" flatJson)).compact

theorem parse_negated {n : Nat} (h : n ≤ 125) :
    parse (negated n) = .ok (Nat.repeat not n (leaf flatLeaf)) := by
  have whole := read_negations n (125 - n) []
  have brackets : n + (125 - n + 2) = nesting := by
    unfold nesting
    omega
  rw [brackets] at whole
  unfold parse readAll negated compact
  rw [String.toList_ofList, whole]
  rfl

/-- The text of 125 negations. -/
def deepest : String := (Nat.repeat (tagged "not") 125 (tagged "predicate" flatJson)).compact

theorem parse_deepest : parse deepest = .ok (Nat.repeat not 125 (leaf flatLeaf)) :=
  parse_negated (Nat.le_refl 125)

/-- **A document holds a tree of at most 126 levels**, whatever its text looks like, and some
document holds a tree of just so many.  So a document is refused for its depth only by a limit below
126. -/
theorem depth_of_parse :
    (∀ text e, parse text = .ok e → e.depth ≤ 126) ∧
      (∃ text e, parse text = .ok e ∧ e.depth = 126) ∧
      ∀ s : Settings, (∀ n ∈ s.maxDepth, 126 ≤ n.toNat) → ∀ text refusal,
        (s.compileTreeDocument text).1 ≠ .error (.depthExceeded refusal) := by
  have bound : ∀ text e, parse text = .ok e → e.depth ≤ 126 := by
    intro text e parsed
    exact Nat.le_of_lt_succ (found_of_parse parsed).depth_lt
  refine ⟨bound, ⟨deepest, _, parse_deepest, depth_negations 125 _⟩, ?_⟩
  intro s wide text refusal
  cases parsed : parse text with
  | error fault =>
    rw [s.compileTreeDocument_of_error parsed]
    rintro ⟨⟩
  | ok e =>
    have fits : ∀ n ∈ s.maxDepth, e.depth ≤ n.toNat := fun n hn =>
      Nat.le_trans (bound text e parsed) (wide n hn)
    rw [s.compileTreeDocument_of_ok parsed, Settings.compile_of_fits fits]
    rintro ⟨⟩

/-- the deepest document under the limit 126, where the bound is of use, and under 125 -/
theorem depth_of_deepest :
    (Nat.repeat not 125 (leaf flatLeaf)).depth ≤ 126 ∧
      (∀ refusal, (Settings.compileTreeDocument { maxDepth := some 126 } deepest).1
        ≠ .error (.depthExceeded refusal)) ∧
      (Settings.compileTreeDocument { maxDepth := some 125 } deepest).1
        = .error (.depthExceeded ⟨125⟩) := by
  obtain ⟨bound, _, wide⟩ := depth_of_parse
  refine ⟨bound _ _ parse_deepest, wide _ ?_ _, ?_⟩
  · intro n hn
    obtain rfl := Option.some.inj hn
    decide
  · have deeper : (125 : UInt64).toNat < (Nat.repeat not 125 (leaf flatLeaf)).depth := by
      rw [depth_negations]
      decide
    rw [Settings.compileTreeDocument_of_ok _ parse_deepest, Settings.compile_of_lt rfl deeper]
    rfl

end Expr

end HqlWhere
