import HqlWhere.Clause.Compiler
import HqlWhere.Proofs.Document.Tree

/-!
# Written trees are read back, unless they are too deep

`Expr.nest` counts the brackets that are open at once in the text of a tree.  AND and OR take two of
them, NOT takes one, and a leaf three or, for a value in braces, four.

* `Expr.height_toJson`   the brackets are counted rightly;
* `Expr.read_toJson`     a tree is read back where its brackets have room, else it is too deep;
* `Expr.read_back`       so it is for whole documents, and they compile as what they hold does.
-/

namespace HqlWhere

open Json

theorem Path.ofSteps_steps (p : Path) : ofSteps p.steps = .ok p := by
  unfold ofSteps
  rw [dif_neg p.ne_nil, dif_neg fun mem => p.step_ne_empty "" mem rfl]

theorem Operator.ofText_name (op : Operator) : ofText op.name = .ok op := by
  cases op <;> rfl

/-- What is read of `x` if it wants `n` brackets where `budget` may be opened. -/
def within {α : Type} (n budget : Nat) (x : α) : Except Fault α :=
  if n ≤ budget then .ok x else .error (.malformed .tooDeep)

theorem within_of_le {α : Type} {n budget : Nat} (h : n ≤ budget) (x : α) :
    within n budget x = .ok x := if_pos h

theorem within_of_lt {α : Type} {n budget : Nat} (h : budget < n) (x : α) :
    within n budget x = .error (.malformed .tooDeep) := if_neg (Nat.not_le.mpr h)

namespace Value

theorem height_toJson (v : Value) : v.toJson.height = if v = .null then 0 else 1 := by
  cases v <;> rfl

theorem opens_toJson (v : Value) (k : List Char) : Opens (v.toJson.write k) := by
  cases v with
  | null => exact ⟨'"', _, rfl, rfl, by decide⟩
  | _ => exact opens_tagged _ _ k

/-- What is read where no bracket may be opened. -/
def shallow (v : Value) : Except Fault Value :=
  if v = .null then .ok v else .error (.malformed .tooDeep)

theorem read_zero (v : Value) (k : List Char) :
    read 0 (v.toJson.write k) = v.shallow.map (·, k) := by
  cases v <;> rfl

theorem mapM_shallow {vs : List Value} (h : ∃ v ∈ vs, v ≠ .null) :
    vs.mapM shallow = .error (.malformed .tooDeep) := by
  induction vs with
  | nil => cases h with | intro v h => cases h.1
  | cons v vs ih =>
    rw [List.mapM_cons]
    by_cases null : v = .null
    · have rest : ∃ w ∈ vs, w ≠ .null := by
        rcases h with ⟨w, hw, ne⟩
        rcases List.mem_cons.mp hw with rfl | hw
        · exact absurd null ne
        · exact ⟨w, hw, ne⟩
      rw [ih rest, shallow, if_pos null]
      rfl
    · rw [shallow, if_neg null]
      rfl

end Value

namespace Predicate

/-- Each value is read back. -/
def Survives (p : Predicate) : Prop := ∀ v ∈ p.values, v.Survives

/-- The predicate as a leaf of a document. -/
def raw (p : Predicate) : RawLeaf :=
  ⟨.steps p.path.steps, p.operator.name, p.values.map Value.toJson⟩

theorem raw_toJson (p : Predicate) : p.raw.toJson = p.toJson := rfl

theorem raw_tells {p : Predicate} (h : p.Survives) : p.raw.Tells p := by
  refine ⟨p.path.ofSteps_steps, p.operator.ofText_name, ?_⟩
  apply List.forall₂_map_left_iff.mpr
  apply List.forall₂_same.mpr
  intro v hv
  exact Value.decodes_toJson (h v hv)

/-- The brackets open at once in the text of a predicate. -/
def nest (p : Predicate) : Nat := if ∃ v ∈ p.values, v ≠ .null then 3 else 2

theorem heightItems_values (vs : List Value) :
    heightItems (vs.map Value.toJson) = if ∃ v ∈ vs, v ≠ .null then 1 else 0 := by
  induction vs with
  | nil => rfl
  | cons v vs ih =>
    rw [List.map_cons, heightItems, ih, v.height_toJson]
    by_cases null : v = .null <;> by_cases rest : ∃ w ∈ vs, w ≠ .null <;> simp [null, rest]

theorem height_path (p : Predicate) : p.raw.path.toJson.height = 1 := height_strings p.path.steps

theorem height_toJson (p : Predicate) : p.toJson.height = p.nest := by
  rw [← p.raw_toJson, RawLeaf.height_toJson, height_path]
  show 1 + max 1 (1 + heightItems (p.values.map Value.toJson)) = _
  rw [heightItems_values, nest]
  split <;> rfl

/-- the list of values where one bracket may be opened, the list's own -/
theorem readValues_one {p : Predicate} (deep : ∃ v ∈ p.values, v ≠ .null) (k : List Char) :
    readValues 1 ((array p.raw.values).write k) = .error (.malformed .tooDeep) := by
  have opens : ∀ v ∈ p.values, ∀ k, Opens (v.toJson.write k) := fun v _ => v.opens_toJson
  have reads : ∀ v ∈ p.values, ∀ k, Ends k →
      Value.read 0 (v.toJson.write k) = v.shallow.map (·, k) := fun v _ k _ => v.read_zero k
  have all := readList_write opens reads k
  rw [Value.mapM_shallow deep] at all
  rw [write_array]
  exact all

theorem readPath_zero (p : Predicate) (k : List Char) :
    Path.read 0 (p.raw.path.toJson.write k) = .error (.malformed .tooDeep) := by
  show (readValue 0 ((array (p.path.steps.map Json.string)).write k) >>= _) = _
  rw [write_array, readValue.eq_def]
  rfl

/-- each of the three brackets refused in turn -/
theorem read_toJson_of_lt {p : Predicate} {budget : Nat} (h : budget < p.nest) (k : List Char) :
    read budget (p.toJson.write k) = .error (.malformed .tooDeep) := by
  have small : p.nest ≤ 3 := by
    unfold nest
    split <;> decide
  obtain rfl | rfl | rfl : budget = 0 ∨ budget = 1 ∨ budget = 2 := by omega
  · rfl
  · have values : ∀ k,
        readValues 0 ((array p.raw.values).write k) = .error (.malformed .tooDeep) := by
      intro k
      rw [write_array]
      rfl
    exact p.raw.read_write (.error (.malformed .tooDeep)) (.error (.malformed .tooDeep))
      p.readPath_zero values k
  · have deep : ∃ v ∈ p.values, v ≠ .null := by
      by_contra flat
      rw [nest, if_neg flat] at h
      omega
    have path := p.raw.path.read_write (Nat.le_of_eq p.height_path)
    have whole := p.raw.read_write _ (.error (.malformed .tooDeep)) path (readValues_one deep) k
    rw [p.raw_toJson] at whole
    rw [whole]
    have told : p.raw.path.path = .ok p.path := p.path.ofSteps_steps
    have named : Operator.ofText p.raw.operator = .ok p.operator := p.operator.ofText_name
    rw [told, named]
    rfl

theorem read_toJson {p : Predicate} (h : p.Survives) (budget : Nat) (k : List Char) :
    read budget (p.toJson.write k) = (within p.nest budget p).map (·, k) := by
  by_cases fits : p.nest ≤ budget
  · rw [within_of_le fits, ← p.raw_toJson]
    have values := forall_decodes_iff.mpr ⟨p.values, (raw_tells h).values⟩
    rw [← p.height_toJson, ← p.raw_toJson] at fits
    rw [RawLeaf.read_of_fits values fits, RawLeaf.decode_eq_ok.mpr (raw_tells h)]
  · rw [within_of_lt (Nat.not_le.mp fits), read_toJson_of_lt (Nat.not_le.mp fits)]
    rfl

end Predicate

namespace Expr

/-- Each value of each leaf is read back. -/
def Survives (e : Expr) : Prop := ∀ p ∈ e.leaves, ∀ v ∈ p.values, v.Survives

/-- The brackets open at once in the text of a tree. -/
def nest : Expr → Nat
  | leaf p => if ∃ v ∈ p.values, v ≠ .null then 4 else 3
  | and l r => 2 + max l.nest r.nest
  | or l r => 2 + max l.nest r.nest
  | not e => 1 + e.nest

theorem nest_leaf (p : Predicate) : (leaf p).nest = 1 + p.nest := by
  rw [nest, Predicate.nest]
  split <;> rfl

theorem height_toJson (e : Expr) : e.toJson.height = e.nest := by
  induction e with
  | leaf p => rw [toJson, height_tagged, p.height_toJson, nest_leaf]
  | and l r ihl ihr => rw [toJson, height_tagged, height_pair, ihl, ihr, nest, ← Nat.add_assoc]
  | or l r ihl ihr => rw [toJson, height_tagged, height_pair, ihl, ihr, nest, ← Nat.add_assoc]
  | not e ih => rw [toJson, height_tagged, ih, nest]

theorem opens_toJson (e : Expr) (k : List Char) : Opens (e.toJson.write k) := by
  cases e <;> exact opens_tagged _ _ k

/-- a node around one part wants one bracket more -/
theorem within_map {α β : Type} (x : α) (n budget : Nat) (node : α → β) :
    (within n budget x).map node = within (1 + n) (budget + 1) (node x) := by
  by_cases room : n ≤ budget
  · rw [within_of_le room, within_of_le (by omega)]
    rfl
  · rw [within_of_lt (by omega), within_of_lt (by omega)]
    rfl

/-- a node around two parts wants two brackets more than the deeper of them -/
theorem within_pair (l r : Expr) (m n budget : Nat) (node : Expr → Expr → Expr) :
    (within m budget l >>= fun x => within n budget r >>= fun y => .ok (node x y)) =
      within (2 + max m n) (budget + 2) (node l r) := by
  by_cases left : m ≤ budget
  · rw [within_of_le left, ok_bind]
    by_cases right : n ≤ budget
    · rw [within_of_le right, ok_bind, within_of_le (by omega)]
    · rw [within_of_lt (by omega), error_bind, within_of_lt (by omega)]
  · rw [within_of_lt (by omega), error_bind, within_of_lt (by omega)]

/-- AND and OR, given what is read of the parts where they have room for the node's own brackets. -/
theorem read_toJson_pair {tag : String} {node : Expr → Expr → Expr} {l r : Expr}
    (pair : tag = "and" ∨ tag = "or")
    (reads : ∀ budget k, read (budget + 2) ((tagged tag (array [l.toJson, r.toJson])).write k) =
      (within l.nest budget l >>= fun x => within r.nest budget r >>= fun y =>
        (Except.ok (node x y) : Except Fault Expr)).map (·, k)) (budget : Nat) (k : List Char) :
    read budget ((tagged tag (array [l.toJson, r.toJson])).write k) =
      (within (2 + max l.nest r.nest) budget (node l r)).map (·, k) := by
  match budget with
  | 0 =>
    rw [within_of_lt (by omega), read_tagged_zero]
    rfl
  | 1 =>
    rw [within_of_lt (by omega), read_pair_one _ pair]
    rfl
  | budget + 2 => rw [reads, within_pair]

/-- **A tree is read back where its brackets have room, and is too deep elsewhere.** -/
theorem read_toJson {e : Expr} (h : e.Survives) (budget : Nat) (k : List Char) :
    read budget (e.toJson.write k) = (within e.nest budget e).map (·, k) := by
  induction e generalizing budget k with
  | leaf p =>
    rw [nest_leaf]
    cases budget with
    | zero =>
      rw [within_of_lt (by omega)]
      exact read_tagged_zero _ _
    | succ budget =>
      have inner := p.read_toJson (h p (List.mem_singleton.mpr rfl)) budget
      rw [← within_map p _ _ leaf]
      exact read_leaf inner
  | and l r ihl ihr =>
    obtain ⟨survivesLeft, survivesRight⟩ := List.forall_mem_append.mp h
    have left := ihl survivesLeft
    have right := ihr survivesRight
    exact read_toJson_pair (.inl rfl)
      (fun budget k => read_and l.opens_toJson r.opens_toJson (left budget) (right budget)) budget k
  | or l r ihl ihr =>
    obtain ⟨survivesLeft, survivesRight⟩ := List.forall_mem_append.mp h
    have left := ihl survivesLeft
    have right := ihr survivesRight
    exact read_toJson_pair (.inr rfl)
      (fun budget k => read_or l.opens_toJson r.opens_toJson (left budget) (right budget)) budget k
  | not e ih =>
    rw [nest]
    cases budget with
    | zero =>
      rw [within_of_lt (by omega)]
      exact read_tagged_zero _ _
    | succ budget =>
      rw [← within_map e _ _ not]
      exact read_not (ih h budget)

theorem parse_toJson {e : Expr} (h : e.Survives) :
    parse e.toJson.compact = within e.nest nesting e := by
  unfold parse readAll compact
  rw [String.toList_ofList, read_toJson h]
  cases within e.nest nesting e <;> rfl

end Expr

namespace Predicate

theorem opens_toJson (p : Predicate) (k : List Char) : Opens (p.toJson.write k) :=
  ⟨'{', _, rfl, rfl, by decide⟩

theorem nest_le (p : Predicate) : p.nest ≤ nesting - 1 := by
  unfold nest
  split <;> decide

/-- a list of predicates, in front of any text -/
theorem readArray_toJson {ps : List Predicate} (h : ∀ p ∈ ps, p.Survives) (k : List Char) :
    readArray "a sequence" (some (read (nesting - 1))) ((array (ps.map toJson)).write k) =
      .ok (ps, k) := by
  have opens : ∀ p ∈ ps, ∀ k, Opens (p.toJson.write k) := fun p _ => p.opens_toJson
  have reads : ∀ p ∈ ps, ∀ k, Ends k →
      read (nesting - 1) (p.toJson.write k) = (Except.ok p).map (·, k) := by
    intro p hp k _
    rw [read_toJson (h p hp), within_of_le p.nest_le]
  have all : (ps.mapM fun p => Except.ok p : Except Fault (List Predicate)) = .ok ps := by
    rw [show (ps.mapM fun p => Except.ok p : Except Fault (List Predicate)) = .ok (ps.map id) from
      List.mapM_pure, List.map_id]
  have items := readList_write opens reads k
  rw [all] at items
  rw [write_array]
  exact items

theorem parseList_toJson {ps : List Predicate} (h : ∀ p ∈ ps, p.Survives) :
    parseList (Json.array (ps.map toJson)).compact = .ok ps := by
  unfold parseList compact
  rw [String.toList_ofList, readAll_eq_ok]
  exact ⟨[], readArray_toJson h [], rfl⟩

end Predicate

/-- **Decoding undoes encoding**, for trees up to the limit on open brackets and for lists of any
length, as long as each floating point number, date and timestamp is read back from its own text.
What is read then compiles as what was written.  A tree beyond the limit is refused. -/
theorem Expr.read_back :
    (∀ e : Expr, e.toJson.height = e.nest) ∧
      (∀ e : Expr, e.Survives → e.nest ≤ nesting → parse e.toJson.compact = .ok e ∧
        ∀ s : Settings, s.compileTreeDocument e.toJson.compact =
          ((s.compile e).1.mapError .depthExceeded, (s.compile e).2)) ∧
      (∀ e : Expr, e.Survives → nesting < e.nest →
        parse e.toJson.compact = .error (.malformed .tooDeep) ∧
        (Fault.malformed .tooDeep).message = "recursion limit exceeded") ∧
      ∀ ps : List Predicate, (∀ p ∈ ps, p.Survives) →
        Predicate.parseList (Json.array (ps.map Predicate.toJson)).compact = .ok ps ∧
        ∀ s : Settings, s.compileListDocument (Json.array (ps.map Predicate.toJson)).compact =
          (.ok (s.compileAll ps).1, (s.compileAll ps).2) := by
  refine ⟨height_toJson, ?_, ?_, ?_⟩
  · intro e survives shallow
    have parsed := parse_toJson survives
    rw [within_of_le shallow] at parsed
    refine ⟨parsed, fun s => ?_⟩
    unfold Settings.compileTreeDocument
    rw [parsed]
  · intro e survives deep
    have parsed := parse_toJson survives
    rw [within_of_lt deep] at parsed
    exact ⟨parsed, rfl⟩
  · intro ps survives
    have parsed := Predicate.parseList_toJson survives
    refine ⟨parsed, fun s => ?_⟩
    unfold Settings.compileListDocument
    rw [parsed]

def Path.order : Path := ⟨["order", "placed"], by decide, by decide⟩

def Value.leapDay : Value := .date ⟨2024, 2, 29, by decide⟩

theorem Value.leapDay_survives : leapDay.Survives := by
  show Date.ofText _ = .ok _
  decide +kernel

/-- A condition on a leap day, the moment after it and a fraction. -/
def Predicate.timed : Predicate :=
  { path := .order
    operator := .isIn
    values := [.leapDay,
      .timestamp ⟨⟨2024, 3, 1, by decide⟩, 45296, 500000000⟩, .float ⟨0x3FF8000000000000⟩, .null] }

theorem Predicate.timed_survives : timed.Survives := by
  have moment :
      Value.Survives (.timestamp ⟨⟨2024, 3, 1, by decide⟩, 45296, 500000000⟩) := by
    show Timestamp.ofText _ = .ok _
    decide +kernel
  have fraction : Value.Survives (.float ⟨0x3FF8000000000000⟩) := by
    show readAll _ _ = .ok _
    decide +kernel
  intro v hv
  simp only [timed, List.mem_cons, List.not_mem_nil, or_false] at hv
  rcases hv with rfl | rfl | rfl | rfl
  · exact Value.leapDay_survives
  · exact moment
  · exact fraction
  · trivial

theorem Expr.survives_repeat {e : Expr} (h : e.Survives) (n : Nat) :
    (Nat.repeat not n e).Survives := by
  induction n with
  | zero => exact h
  | succ n ih => exact ih

theorem Expr.nest_repeat (e : Expr) (n : Nat) : (Nat.repeat not n e).nest = n + e.nest := by
  induction n with
  | zero => exact (Nat.zero_add _).symm
  | succ n ih =>
    rw [Nat.repeat, nest, ih]
    omega

/-- The condition under 123 negations just fits, under 124 it is too deep. -/
theorem Expr.read_back_timed :
    parse (Nat.repeat not 123 (leaf .timed)).toJson.compact =
        .ok (Nat.repeat not 123 (leaf .timed)) ∧
      parse (Nat.repeat not 124 (leaf .timed)).toJson.compact = .error (.malformed .tooDeep) ∧
      Predicate.parseList (Json.array ([.timed, .timed].map Predicate.toJson)).compact =
        .ok [.timed, .timed] := by
  have survives : Survives (leaf .timed) := by
    intro p hp
    obtain rfl := List.mem_singleton.mp hp
    exact Predicate.timed_survives
  have four : (leaf .timed).nest = 4 := by decide
  have both : ∀ p ∈ [Predicate.timed, .timed], p.Survives := by
    intro p hp
    rcases List.mem_cons.mp hp with rfl | hp
    · exact Predicate.timed_survives
    · obtain rfl := List.mem_singleton.mp hp
      exact Predicate.timed_survives
  obtain ⟨_, fits, deep, lists⟩ := read_back
  refine ⟨(fits _ (survives_repeat survives 123) ?_).1,
    (deep _ (survives_repeat survives 124) ?_).1, (lists _ both).1⟩
  · rw [nest_repeat, four]
    decide
  · rw [nest_repeat, four]
    decide

end HqlWhere
