import HqlWhere.Document.Predicate
import HqlWhere.Expr

/-!
# Filter expressions in documents

A node of a tree is tagged with its kind.  The content of AND and OR is a list of exactly two nodes,
that of NOT is a node and that of a leaf a predicate.
-/

namespace HqlWhere.Expr

inductive Kind
  | leaf
  | and
  | or
  | not
deriving DecidableEq

def tags : List (String × Kind) :=
  [("predicate", .leaf), ("and", .and), ("or", .or), ("not", .not)]

/-- What a message calls the content of AND and OR. -/
def pairName : Kind → String
  | .and => "tuple variant FilterExpression::And"
  | _ => "tuple variant FilterExpression::Or"

/-- The fault of a bare tag, since every node has content. -/
def bareTagFault : Kind → Json.Fault
  | .and | .or => .mismatch (.wrongType .bareTag "tuple variant")
  | .leaf | .not => .mismatch (.wrongType .bareTag "newtype variant")

/-- A list of exactly two nodes.  `node` reads a node inside one bracket more; `none` tells that no
bracket may be opened. -/
def readPair (kind : Kind) (node : Option (Json.Reader Expr)) : Json.Reader (Expr × Expr) :=
  fun s =>
  let wrongLength (n : Nat) : Json.Fault :=
    .mismatch (.wrongLength n (pairName kind ++ " with 2 elements"))
  match Json.skipSpace s, node with
  | '[' :: _, none => .error (.malformed .tooDeep)
  | '[' :: r, some node => do
    match ← Json.Items.next true r with
    | .ended _ => throw (wrongLength 0)
    | .more _ r =>
      let (left, r) ← node r
      match ← Json.Items.next false r with
      | .ended _ => throw (wrongLength 1)
      | .more _ r =>
        let (right, r) ← node r
        let r ← Json.Items.close r
        pure ((left, right), r)
  | s, _ => .error (Json.unwanted (pairName kind) s)

/-- A tree, inside which `budget` brackets may be open at once. -/
def read : Nat → Json.Reader Expr
  | budget, s =>
    match Json.skipSpace s with
    | [] => .error (.endOfText .value)
    | '{' :: r =>
      match budget with
      | 0 => .error (.malformed .tooDeep)
      | inside + 1 => do
        let (kind, r) ← Json.readTag tags r
        let node : Option (Json.Reader Expr) := match inside with
          | 0 => none
          | budget + 1 => some (read budget)
        let (e, r) ← match kind with
          | .leaf => do
            let (p, r) ← Predicate.read inside r
            pure (leaf p, r)
          | .and => do
            let ((left, right), r) ← readPair .and node r
            pure (and left right, r)
          | .or => do
            let ((left, right), r) ← readPair .or node r
            pure (or left right, r)
          | .not => do
            let (e, r) ← read inside r
            pure (not e, r)
        let r ← Json.closeTagged r
        pure (e, r)
    | '"' :: r => do
      let (kind, _) ← Json.readBareTag tags r
      throw (bareTagFault kind)
    | _ => .error (.malformed .noValue)

def parse (text : String) : Except Json.Fault Expr := Json.readAll (read Json.nesting) text.toList

def toJson : Expr → Json
  | leaf p => Json.tagged "predicate" p.toJson
  | and l r => Json.tagged "and" (.array [l.toJson, r.toJson])
  | or l r => Json.tagged "or" (.array [l.toJson, r.toJson])
  | not e => Json.tagged "not" e.toJson

end HqlWhere.Expr
