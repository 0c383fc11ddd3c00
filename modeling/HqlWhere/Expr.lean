import HqlWhere.Predicate

/-!
# Filter expressions

A filter expression joins predicates by AND, OR and NOT into a tree.

* `Expr.same`     what `==` means for trees: it compares them node by node;
* `Expr.depth`    the number of levels, one for a lone predicate;
* `Expr.leaves`   the predicates from left to right;
* `Expr.words`    what a tree feeds to a hash.
-/

namespace HqlWhere

/-- A tree of predicates. -/
inductive Expr
  | leaf (p : Predicate)
  | and (left right : Expr)
  | or (left right : Expr)
  | not (inner : Expr)

namespace Expr

/-- Whether two trees have the same shape and the same predicates at their leaves. -/
def same : Expr → Expr → Bool
  | leaf p, leaf q => p == q
  | and l r, and l' r' => l.same l' && r.same r'
  | or l r, or l' r' => l.same l' && r.same r'
  | not e, not f => e.same f
  | _, _ => false

instance : BEq Expr := ⟨same⟩

theorem same_iff {e f : Expr} : e.same f = true ↔ e = f := by
  induction e generalizing f with
  | leaf p => cases f <;> simp [same]
  | and l r ihl ihr => cases f <;> simp [same, ihl, ihr]
  | or l r ihl ihr => cases f <;> simp [same, ihl, ihr]
  | not e ih => cases f <;> simp [same, ih]

instance : LawfulBEq Expr where
  eq_of_beq := same_iff.mp
  rfl := same_iff.mpr rfl

instance : DecidableEq Expr := fun _ _ => decidable_of_iff _ same_iff

/-- The number of levels. -/
def depth : Expr → Nat
  | leaf _ => 1
  | and l r => 1 + max l.depth r.depth
  | or l r => 1 + max l.depth r.depth
  | not e => 1 + e.depth

/-- The predicates from left to right. -/
def leaves : Expr → List Predicate
  | leaf p => [p]
  | and l r => l.leaves ++ r.leaves
  | or l r => l.leaves ++ r.leaves
  | not e => e.leaves

theorem depth_pos (e : Expr) : 0 < e.depth := by
  cases e <;> simp only [depth] <;> omega

theorem leaves_ne_nil (e : Expr) : e.leaves ≠ [] := by
  induction e with
  | leaf p => exact List.cons_ne_nil _ _
  | and l r ihl _ => exact List.append_ne_nil_of_left_ne_nil ihl _
  | or l r ihl _ => exact List.append_ne_nil_of_left_ne_nil ihl _
  | not e ih => exact ih

/-- The words of a tree: at each node the number of its kind, then its parts. -/
def words : Expr → List UInt64
  | leaf p => 0 :: feed p
  | and l r => 1 :: l.words ++ r.words
  | or l r => 2 :: l.words ++ r.words
  | not e => 3 :: e.words

instance : Feeds Expr where
  feed := words

instance : Hashable Expr where
  hash e := mixAll (feed e)

instance : Coe Predicate Expr := ⟨leaf⟩

end Expr

end HqlWhere
