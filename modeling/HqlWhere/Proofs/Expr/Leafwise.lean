import HqlWhere.Expr

/-!
# Trees of one shape

`Expr.Leafwise R` relates two trees that have AND, OR and NOT in the same places and whose leaves
are pairwise related by `R`.  Such trees have one depth, and a weaker relation of the leaves relates
them too.
-/

namespace HqlWhere.Expr

/-- Two trees of one shape with related leaves. -/
inductive Leafwise (R : Predicate → Predicate → Prop) : Expr → Expr → Prop
  | leaf {p q : Predicate} (related : R p q) : Leafwise R (.leaf p) (.leaf q)
  | and {l₁ r₁ l₂ r₂ : Expr} (left : Leafwise R l₁ l₂) (right : Leafwise R r₁ r₂) :
      Leafwise R (.and l₁ r₁) (.and l₂ r₂)
  | or {l₁ r₁ l₂ r₂ : Expr} (left : Leafwise R l₁ l₂) (right : Leafwise R r₁ r₂) :
      Leafwise R (.or l₁ r₁) (.or l₂ r₂)
  | not {e₁ e₂ : Expr} (inner : Leafwise R e₁ e₂) : Leafwise R (.not e₁) (.not e₂)

namespace Leafwise

variable {R S : Predicate → Predicate → Prop} {e₁ e₂ : Expr}

theorem mono (weaker : ∀ p q, R p q → S p q) (h : e₁.Leafwise R e₂) : e₁.Leafwise S e₂ := by
  induction h with
  | leaf related => exact .leaf (weaker _ _ related)
  | and _ _ left right => exact .and left right
  | or _ _ left right => exact .or left right
  | not _ inner => exact .not inner

theorem depth_eq (h : e₁.Leafwise R e₂) : e₁.depth = e₂.depth := by
  induction h with
  | leaf _ => rfl
  | and _ _ left right => rw [depth, depth, left, right]
  | or _ _ left right => rw [depth, depth, left, right]
  | not _ inner => rw [depth, depth, inner]

end Leafwise

end HqlWhere.Expr
