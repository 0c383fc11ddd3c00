import HqlWhere.Clause.Compiler
import HqlWhere.Proofs.Document.Tree

/-!
# The first bad leaf decides

A document whose values are right and whose brackets are not too deep is refused exactly for what is
wrong with paths and operators, and of all that is wrong the first is told.

* `RawExpr.exists_tells`      a tree whose leaves are all accepted is understood;
* `RawExpr.decode_of_fault`   otherwise the first fault is told;
* `Expr.parse_raw`            so it is for whole documents, and nothing is compiled.
-/

namespace HqlWhere

open Json

namespace RawLeaf

/-- Both the path and the operator are understood. -/
def Accepted (l : RawLeaf) : Prop :=
  (∃ p, l.path.path = .ok p) ∧ ∃ op, Operator.ofText l.operator = .ok op

theorem faults_eq_nil {l : RawLeaf} : l.faults = [] ↔ l.Accepted := by
  unfold faults Accepted
  cases l.path.path <;> cases Operator.ofText l.operator <;> simp

theorem decode_of_fault {l : RawLeaf} {f : FilterFault} {fs : List FilterFault}
    (h : l.faults = f :: fs) : l.decode = .error (.mismatch (.filter f)) := by
  unfold faults at h
  unfold decode
  cases path : l.path.path with
  | error g =>
    rw [path] at h
    obtain ⟨rfl, _⟩ := List.cons.inj h
    rfl
  | ok p =>
    rw [path] at h
    cases operator : Operator.ofText l.operator with
    | error g =>
      rw [operator] at h
      obtain ⟨rfl, _⟩ := List.cons.inj h
      rfl
    | ok op =>
      rw [operator] at h
      cases h

theorem exists_tells {l : RawLeaf} (accepted : l.Accepted)
    (values : ∀ j ∈ l.values, ∃ v, Value.Decodes j v) : ∃ p, l.Tells p := by
  obtain ⟨⟨path, hp⟩, operator, ho⟩ := accepted
  obtain ⟨vs, hv⟩ := forall_decodes_iff.mp values
  exact ⟨⟨path, operator, vs⟩, hp, ho, hv⟩

end RawLeaf

namespace RawExpr

theorem faults_leaf (l : RawLeaf) : (leaf l).faults = l.faults := by
  rw [faults, leaves, List.flatMap_singleton]

theorem faults_and (l r : RawExpr) : (and l r).faults = l.faults ++ r.faults := by
  rw [faults, leaves, List.flatMap_append, faults, faults]

theorem faults_or (l r : RawExpr) : (or l r).faults = l.faults ++ r.faults := by
  rw [faults, leaves, List.flatMap_append, faults, faults]

theorem faults_not (u : RawExpr) : (not u).faults = u.faults := rfl

theorem faults_eq_nil {u : RawExpr} : u.faults = [] ↔ ∀ l ∈ u.leaves, l.Accepted := by
  rw [faults, List.flatMap_eq_nil_iff]
  exact forall₂_congr fun l _ => RawLeaf.faults_eq_nil

theorem Tells.accepted {u : RawExpr} {e : Expr} (h : u.Tells e) : ∀ l ∈ u.leaves, l.Accepted := by
  induction h with
  | leaf tells =>
    intro l hl
    obtain rfl := List.mem_singleton.mp hl
    exact ⟨⟨_, tells.path⟩, _, tells.operator⟩
  | and _ _ ihl ihr => exact List.forall_mem_append.mpr ⟨ihl, ihr⟩
  | or _ _ ihl ihr => exact List.forall_mem_append.mpr ⟨ihl, ihr⟩
  | not _ ih => exact ih

theorem exists_tells {u : RawExpr} (values : u.ValuesDecode)
    (accepted : ∀ l ∈ u.leaves, l.Accepted) : ∃ e, u.Tells e := by
  induction u with
  | leaf l =>
    have here : l ∈ (leaf l).leaves := List.mem_singleton.mpr rfl
    obtain ⟨p, hp⟩ := RawLeaf.exists_tells (accepted l here) (values l here)
    exact ⟨_, .leaf hp⟩
  | and l r ihl ihr =>
    obtain ⟨valuesLeft, valuesRight⟩ := List.forall_mem_append.mp values
    obtain ⟨acceptedLeft, acceptedRight⟩ := List.forall_mem_append.mp accepted
    obtain ⟨x, hx⟩ := ihl valuesLeft acceptedLeft
    obtain ⟨y, hy⟩ := ihr valuesRight acceptedRight
    exact ⟨_, .and hx hy⟩
  | or l r ihl ihr =>
    obtain ⟨valuesLeft, valuesRight⟩ := List.forall_mem_append.mp values
    obtain ⟨acceptedLeft, acceptedRight⟩ := List.forall_mem_append.mp accepted
    obtain ⟨x, hx⟩ := ihl valuesLeft acceptedLeft
    obtain ⟨y, hy⟩ := ihr valuesRight acceptedRight
    exact ⟨_, .or hx hy⟩
  | not u ih =>
    obtain ⟨e, he⟩ := ih values accepted
    exact ⟨_, .not he⟩

/-- of two trees in a row, the left is blamed first -/
theorem decode_pair_of_fault {l r : RawExpr} {node : Expr → Expr → Expr} {f : FilterFault}
    {fs : List FilterFault} (h : l.faults ++ r.faults = f :: fs) (values : l.ValuesDecode)
    (left : ∀ fs, l.faults = f :: fs → l.decode = .error (.mismatch (.filter f)))
    (right : ∀ fs, r.faults = f :: fs → r.decode = .error (.mismatch (.filter f))) :
    (l.decode >>= fun x => r.decode >>= fun y => (Except.ok (node x y) : Except Fault Expr)) =
      .error (.mismatch (.filter f)) := by
  cases faults : l.faults with
  | nil =>
    rw [faults] at h
    obtain ⟨x, hx⟩ := exists_tells values (faults_eq_nil.mp faults)
    rw [decode_eq_ok.mpr hx, ok_bind, right fs h, error_bind]
  | cons g gs =>
    rw [faults, List.cons_append] at h
    obtain ⟨rfl, _⟩ := List.cons.inj h
    rw [left gs faults, error_bind]

theorem decode_of_fault {u : RawExpr} (values : u.ValuesDecode) {f : FilterFault}
    {fs : List FilterFault} (h : u.faults = f :: fs) :
    u.decode = .error (.mismatch (.filter f)) := by
  induction u generalizing fs with
  | leaf l =>
    rw [faults_leaf] at h
    rw [decode, RawLeaf.decode_of_fault h]
    rfl
  | and l r ihl ihr =>
    rw [faults_and] at h
    obtain ⟨valuesLeft, valuesRight⟩ := List.forall_mem_append.mp values
    exact decode_pair_of_fault h valuesLeft (fun _ => ihl valuesLeft) fun _ => ihr valuesRight
  | or l r ihl ihr =>
    rw [faults_or] at h
    obtain ⟨valuesLeft, valuesRight⟩ := List.forall_mem_append.mp values
    exact decode_pair_of_fault h valuesLeft (fun _ => ihl valuesLeft) fun _ => ihr valuesRight
  | not u ih =>
    rw [faults_not] at h
    rw [decode, ih values h]
    rfl

end RawExpr

/-- A tree whose brackets are not too deep is parsed as its leaves are understood. -/
theorem Expr.parse_eq_decode {u : RawExpr} (values : u.ValuesDecode)
    (shallow : u.toJson.height ≤ nesting) : parse u.toJson.compact = u.decode := by
  unfold parse readAll compact
  rw [String.toList_ofList, RawExpr.read_write values shallow]
  cases u.decode <;> rfl

/-- **Bad leaves are refused wherever they sit, and the first of them is told.**  `u` is any tree
whose values are right by themselves.  If all paths and operators are accepted, its document is read
as the same tree with its leaves understood.  Otherwise the first fault in the order of the document
is the fault of the document, and nothing is compiled and nothing told. -/
theorem Expr.parse_raw {u : RawExpr} (values : u.ValuesDecode)
    (shallow : u.toJson.height ≤ nesting) :
    ((∃ e, parse u.toJson.compact = .ok e) ↔ ∀ l ∈ u.leaves, l.Accepted) ∧
      (∀ e, parse u.toJson.compact = .ok e ↔ u.Tells e) ∧
      ((∃ l ∈ u.leaves, ¬ l.Accepted) →
        ∃ f, u.faults.head? = some f ∧
          parse u.toJson.compact = .error (.mismatch (.filter f)) ∧
          (Fault.mismatch (.filter f)).kind = "data" ∧
          (Fault.mismatch (.filter f)).message = withoutPlace f.message ∧
          ∀ s : Settings, s.compileTreeDocument u.toJson.compact =
            (.error (.invalidDocument (.mismatch (.filter f))), [])) := by
  have parsed := parse_eq_decode values shallow
  have tells : ∀ e, parse u.toJson.compact = .ok e ↔ u.Tells e := by
    intro e
    rw [parsed]
    exact RawExpr.decode_eq_ok
  refine ⟨⟨?_, fun accepted => ?_⟩, tells, ?_⟩
  · rintro ⟨e, he⟩
    exact ((tells e).mp he).accepted
  · obtain ⟨e, he⟩ := RawExpr.exists_tells values accepted
    exact ⟨e, (tells e).mpr he⟩
  · rintro ⟨l, hl, bad⟩
    cases faults : u.faults with
    | nil => exact absurd (RawExpr.faults_eq_nil.mp faults l hl) bad
    | cons f fs =>
      have refused : parse u.toJson.compact = .error (.mismatch (.filter f)) := by
        rw [parsed, RawExpr.decode_of_fault values faults]
      refine ⟨f, rfl, refused, rfl, rfl, fun s => ?_⟩
      unfold Settings.compileTreeDocument
      rw [refused]

/-- A tree with a right leaf before two that are bad, the first of them in both of its parts. -/
def threeFaults : RawExpr :=
  .and (.or (.leaf ⟨.dotted "order.total", " ge ", [Value.toJson (.int 5), Value.toJson .null]⟩)
      (.not (.leaf ⟨.dotted "order..total", "LIKE", []⟩)))
    (.leaf ⟨.steps [], "IN", []⟩)

theorem Expr.parse_threeFaults :
    threeFaults.faults = [.path (.emptyStep 1), .operator ⟨"LIKE"⟩, .path .noStep] ∧
      parse threeFaults.toJson.compact = .error (.mismatch (.filter (.path (.emptyStep 1)))) ∧
      ∀ s : Settings, s.compileTreeDocument threeFaults.toJson.compact =
        (.error (.invalidDocument (.mismatch (.filter (.path (.emptyStep 1))))), []) := by
  have faults : threeFaults.faults =
      [.path (.emptyStep 1), .operator ⟨"LIKE"⟩, .path .noStep] := by decide
  have values : threeFaults.ValuesDecode := by
    have all : ∀ l ∈ threeFaults.leaves, ∀ j ∈ l.values,
        j = Value.toJson (.int 5) ∨ j = Value.toJson .null := by
      simp [threeFaults, RawExpr.leaves]
    intro l hl j hj
    rcases all l hl j hj with rfl | rfl
    · exact ⟨.int 5, Value.decodes_toJson trivial⟩
    · exact ⟨.null, Value.decodes_toJson trivial⟩
  have bad : ∃ l ∈ threeFaults.leaves, ¬ l.Accepted := by
    by_contra! accepted
    rw [RawExpr.faults_eq_nil.mpr accepted] at faults
    cases faults
  obtain ⟨_, _, refusal⟩ := parse_raw values (by decide)
  obtain ⟨f, first, refused, _, _, nothing⟩ := refusal bad
  rw [faults] at first
  obtain rfl := Option.some.inj first
  exact ⟨faults, refused, nothing⟩

end HqlWhere
