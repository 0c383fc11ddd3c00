import HqlWhere.Document.Expr
import HqlWhere.Proofs.Document.Value
import Mathlib.Data.List.Forall2

/-!
# Documents whose leaves need not be right

A tree as a document may give it: paths in either form, operators as any text, values as any JSON.

* `RawPath`, `RawLeaf`, `RawExpr`   such trees, each with its JSON;
* `RawExpr.faults`                  what is wrong with paths and operators, in the order of the
                                    document: leaves from left to right, in a leaf the path first;
* `RawExpr.Tells`                   the tree with its leaves as they are understood;
* `RawLeaf.read_of_tells`, `RawLeaf.read_of_fault`   what the reader of predicates makes of a leaf.
-/

namespace HqlWhere

/-- A path as a document gives it: its steps or its dotted text. -/
inductive RawPath
  | steps (l : List String)
  | dotted (s : String)

namespace RawPath

def toJson : RawPath → Json
  | steps l => .strings l
  | dotted s => .string s

/-- The path that is meant. -/
def path : RawPath → Except Path.Fault Path
  | steps l => Path.ofSteps l
  | dotted s => Path.ofText s

end RawPath

/-- A leaf as a document gives it. -/
structure RawLeaf where
  path : RawPath
  operator : String
  values : List Json

namespace RawLeaf

def toJson (l : RawLeaf) : Json :=
  .object [("path", l.path.toJson), ("operator", .string l.operator), ("values", .array l.values)]

/-- What is wrong with the path and the operator. -/
def faults (l : RawLeaf) : List FilterFault :=
  (match l.path.path with
    | .ok _ => []
    | .error f => [.path f]) ++
  match Operator.ofText l.operator with
    | .ok _ => []
    | .error f => [.operator f]

/-- The leaf is understood as a predicate. -/
structure Tells (l : RawLeaf) (p : Predicate) : Prop where
  path : l.path.path = .ok p.path
  operator : Operator.ofText l.operator = .ok p.operator
  values : List.Forall₂ Value.Decodes l.values p.values

end RawLeaf

/-- A tree as a document gives it. -/
inductive RawExpr
  | leaf (l : RawLeaf)
  | and (left right : RawExpr)
  | or (left right : RawExpr)
  | not (inner : RawExpr)

namespace RawExpr

def toJson : RawExpr → Json
  | leaf l => Json.tagged "predicate" l.toJson
  | and l r => Json.tagged "and" (.array [l.toJson, r.toJson])
  | or l r => Json.tagged "or" (.array [l.toJson, r.toJson])
  | not e => Json.tagged "not" e.toJson

/-- The leaves from left to right. -/
def leaves : RawExpr → List RawLeaf
  | leaf l => [l]
  | and l r => l.leaves ++ r.leaves
  | or l r => l.leaves ++ r.leaves
  | not e => e.leaves

/-- What is wrong with paths and operators, in the order of the document. -/
def faults (u : RawExpr) : List FilterFault := u.leaves.flatMap RawLeaf.faults

/-- The same tree with its leaves understood. -/
inductive Tells : RawExpr → Expr → Prop
  | leaf {l : RawLeaf} {p : Predicate} (tells : l.Tells p) : Tells (.leaf l) (.leaf p)
  | and {l r : RawExpr} {x y : Expr} (left : Tells l x) (right : Tells r y) :
      Tells (.and l r) (.and x y)
  | or {l r : RawExpr} {x y : Expr} (left : Tells l x) (right : Tells r y) :
      Tells (.or l r) (.or x y)
  | not {u : RawExpr} {e : Expr} (inner : Tells u e) : Tells (.not u) (.not e)

end RawExpr

/-! ## paths, operators and values -/

open Json

theorem Path.texts?_map (l : List String) : texts? (l.map .string) = some l := by
  induction l with
  | nil => rfl
  | cons s l ih =>
    rw [List.map_cons, texts?, ih]
    rfl

theorem readList_strings (budget : Nat) (l : List String) (k : List Char) :
    readList (readValue budget) (writeList (l.map .string) k) = .ok (l.map .string, k) := by
  have opens : ∀ s ∈ l, ∀ k, Opens ((Json.string s).write k) := fun s _ k =>
    ⟨'"', _, rfl, rfl, by decide⟩
  have reads : ∀ s ∈ l, ∀ k, Ends k → readValue budget ((Json.string s).write k) =
      (Except.ok (Json.string s)).map (·, k) := by
    intro s _ k _
    unfold readValue
    show (readText (s.toList.foldr writeChar ('"' :: k)) >>= _) = _
    rw [readText_write]
    rfl
  have all : (l.mapM fun s => Except.ok (Json.string s) : Except Fault (List Json)) =
      .ok (l.map .string) := List.mapM_pure
  rw [readList_write opens reads, all]
  rfl

namespace RawPath

theorem ofJson_toJson (p : RawPath) :
    Path.ofJson p.toJson = p.path.mapError fun f => .filter (.path f) := by
  cases p with
  | steps l => rw [toJson, strings, Path.ofJson, Path.texts?_map, path]
  | dotted s => rfl

theorem readValue_write (p : RawPath) {budget : Nat} (fits : p.toJson.height ≤ budget)
    (k : List Char) : readValue budget (p.toJson.write k) = .ok (p.toJson, k) := by
  cases p with
  | steps l =>
    obtain ⟨inside, rfl, _⟩ := exists_inside fits
    rw [toJson, strings, write_array, readValue.eq_def]
    show (readList (readValue inside) (writeList (l.map .string) k) >>= _) = _
    rw [readList_strings]
    rfl
  | dotted s =>
    rw [readValue.eq_def]
    show (readText (s.toList.foldr writeChar ('"' :: k)) >>= _) = _
    rw [readText_write]
    rfl

/-- A path in either form, inside brackets that leave room for its own. -/
theorem read_write (p : RawPath) {budget : Nat} (fits : p.toJson.height ≤ budget) (k : List Char) :
    Path.read budget (p.toJson.write k) =
      (p.path.mapError fun f => Fault.mismatch (.filter (.path f))).map (·, k) := by
  unfold Path.read
  rw [p.readValue_write fits, ok_bind]
  dsimp only
  rw [p.ofJson_toJson]
  cases p.path <;> rfl

end RawPath

/-- An operator by its name, any text. -/
theorem Operator.read_write (s : String) (k : List Char) : Operator.read (writeString s k) =
    ((ofText s).mapError fun f => Fault.mismatch (.filter (.operator f))).map (·, k) := by
  unfold Operator.read
  rw [readString_write, ok_bind]
  dsimp only
  cases ofText s <;> rfl

theorem forall_decodes_iff {js : List Json} :
    (∀ j ∈ js, ∃ v, Value.Decodes j v) ↔ ∃ vs, List.Forall₂ Value.Decodes js vs := by
  induction js with
  | nil => exact ⟨fun _ => ⟨[], .nil⟩, fun _ => nofun⟩
  | cons j js ih =>
    rw [List.forall_mem_cons, ih]
    constructor
    · rintro ⟨⟨v, head⟩, vs, tail⟩
      exact ⟨v :: vs, .cons head tail⟩
    · rintro ⟨_, _ | ⟨head, tail⟩⟩
      exact ⟨⟨_, head⟩, _, tail⟩

theorem mapM_decode {js : List Json} {vs : List Value} (h : List.Forall₂ Value.Decodes js vs) :
    js.mapM Value.decode = .ok vs := by
  induction h with
  | nil => rfl
  | cons head tail ih =>
    rw [List.mapM_cons, head, ok_bind, ih]
    rfl

/-- The values of a leaf, inside brackets that leave room for the list and for each item. -/
theorem readValues_write {js : List Json} {vs : List Value}
    (h : List.Forall₂ Value.Decodes js vs) {budget : Nat} (fits : heightItems js ≤ budget)
    (k : List Char) : Predicate.readValues (budget + 1) ((array js).write k) = .ok (vs, k) := by
  have decodes := forall_decodes_iff.mpr ⟨vs, h⟩
  have opens : ∀ j ∈ js, ∀ k, Opens ((id j).write k) := by
    intro j hj k
    obtain ⟨v, hv⟩ := decodes j hj
    exact hv.opens k
  have reads : ∀ j ∈ js, ∀ k, Ends k →
      Value.read budget ((id j).write k) = (Value.decode j).map (·, k) := by
    intro j hj k ends
    obtain ⟨v, hv⟩ := decodes j hj
    have alone : Value.decode j = .ok v := hv
    rw [alone]
    exact hv.read_within (heightItems_le.mp fits j hj) ends
  have all := readList_write opens reads k
  rw [List.map_id, mapM_decode h] at all
  rw [write_array]
  exact all

/-! ## leaves -/

namespace Predicate

section
variable {budget : Nat} {s : List Char}

theorem readMember_path :
    readMember budget "path" {} (':' :: s) =
      (Path.read budget s >>= fun x => .ok ({ path := some x.1 }, x.2)) := rfl

theorem readMember_operator (path : Path) :
    readMember budget "operator" { path := some path } (':' :: s) =
      (Operator.read s >>= fun x => .ok ({ path := some path, operator := some x.1 }, x.2)) := rfl

theorem readMember_values (path : Path) (operator : Operator) :
    readMember budget "values" { path := some path, operator := some operator } (':' :: s) =
      (readValues budget s >>= fun x =>
        .ok ({ path := some path, operator := some operator, values := some x.1 }, x.2)) := rfl

end

end Predicate

namespace RawLeaf

/-- **A leaf is read member by member, the path first**, whatever its parts are read as. -/
theorem read_write (l : RawLeaf) {budget : Nat} (path : Except Fault Path)
    (values : Except Fault (List Value))
    (readsPath : ∀ k, Path.read budget (l.path.toJson.write k) = path.map (·, k))
    (readsValues : ∀ k, Predicate.readValues budget ((array l.values).write k) = values.map (·, k))
    (k : List Char) :
    Predicate.read (budget + 1) (l.toJson.write k) =
      (path >>= fun path =>
        ((Operator.ofText l.operator).mapError fun f => Fault.mismatch (.filter (.operator f))) >>=
          fun operator => values >>= fun values =>
            (Except.ok ⟨path, operator, values⟩ : Except Fault Predicate)).map (·, k) := by
  let behindOperator := ',' :: writeString "values" (':' :: (array l.values).write ('}' :: k))
  let behindPath := ',' :: writeString "operator" (':' :: writeString l.operator behindOperator)
  let members := writeString "path" (':' :: l.path.toJson.write behindPath)
  -- The text is its own bound; four of its characters are enough.
  have bound : Predicate.read (budget + 1) (l.toJson.write k) =
      (readMembers (Predicate.readMember budget) ('"' :: 'p' :: 'a' :: 't' :: members.drop 4)
        true {} members >>= fun x => x.1.finish >>= fun p => .ok (p, x.2)) := rfl
  rw [bound, readMembers_more (Members.next_name "path" _), Predicate.readMember_path, readsPath]
  cases path with
  | error f => rfl
  | ok path =>
    show (readMembers _ ('p' :: 'a' :: 't' :: members.drop 4) false _ behindPath >>= _) = _
    rw [readMembers_more (Members.next_comma "operator" _), Predicate.readMember_operator,
      Operator.read_write]
    cases Operator.ofText l.operator with
    | error f => rfl
    | ok operator =>
      show (readMembers _ ('a' :: 't' :: members.drop 4) false _ behindOperator >>= _) = _
      rw [readMembers_more (Members.next_comma "values" _), Predicate.readMember_values,
        readsValues]
      cases values with
      | error f => rfl
      | ok values => rfl

end RawLeaf

end HqlWhere
