import HqlWhere.Clause.Walk

/-!
# The text of a tree by recursion

`walk` goes through a tree with a list of tasks, and every step of it only adds text.  Here the text
of a tree is told by recursion on the tree, and the two are shown to agree.

* `Fragment.append`           one fragment behind another;
* `Expr.text`, `Expr.names`   the text of a tree and the names of its parameters, by recursion;
* `Expr.added`                what a visit means in front of ANY list of tasks: if the tree fits,
                              its text is added and the walk goes on with the other tasks;
* `Expr.refused`              if it does not fit, the walk ends there, whatever the other tasks are;
* `Expr.render_eq_recursion`  a walk of one tree, from any text on.
-/

namespace HqlWhere

/-! ## fragments behind fragments -/

namespace Fragment

/-- A fragment with another behind it. -/
def append (f g : Fragment) : Fragment := ⟨f.sql ++ g.sql, f.params ++ g.params⟩

theorem append_empty (f : Fragment) : f.append {} = f := by
  show (⟨f.sql ++ "", f.params ++ #[]⟩ : Fragment) = f
  rw [String.append_empty, Array.append_empty]

theorem append_assoc (f g h : Fragment) : (f.append g).append h = f.append (g.append h) := by
  simp only [append, String.append_assoc, Array.append_assoc]

theorem append_text (f g : Fragment) (t : String) : (f.append g).text t = f.append (g.text t) := by
  simp only [append, text, String.append_assoc]

theorem append_bind (f g : Fragment) (name : String) :
    (f.append g).bind name = f.append (g.bind name) := by
  simp only [append, bind, String.append_assoc, Array.append_push]

theorem append_piece (path : Path) (f g : Fragment) (p : Piece) :
    (f.append g).piece path p = f.append (g.piece path p) := by
  cases p with
  | text t => exact append_text f g t
  | path => exact append_text f g path.dotted
  | placeholder => exact append_bind f g path.parameter

end Fragment

/-- The clause of a predicate is added behind what is there. -/
theorem Predicate.render_append (p : Predicate) (f g : Fragment) :
    p.render (f.append g) = f.append (p.render g) := by
  unfold Predicate.render
  induction p.template generalizing g with
  | nil => rfl
  | cons piece pieces ih => rw [List.foldl_cons, List.foldl_cons, Fragment.append_piece, ih]

theorem Predicate.render_eq (p : Predicate) (f : Fragment) :
    p.render f = f.append (p.render {}) := by
  rw [← p.render_append f {}, Fragment.append_empty]

/-! ## the recursion -/

/-- The text that a predicate adds. -/
def Predicate.text (p : Predicate) : String := (p.render {}).sql

/-- The names of the parameters that a predicate adds. -/
def Predicate.names (p : Predicate) : List String := (p.render {}).params.toList

namespace Expr

/-- The text of a tree. -/
def text : Expr → String
  | leaf p => p.text
  | and l r => "(" ++ l.text ++ " AND " ++ r.text ++ ")"
  | or l r => "(" ++ l.text ++ " OR " ++ r.text ++ ")"
  | not e => "NOT (" ++ e.text ++ ")"

/-- The names of the parameters of a tree, from left to right. -/
def names (e : Expr) : List String := e.leaves.flatMap Predicate.names

/-- The text of a tree with the names of its parameters. -/
def fragment (e : Expr) : Fragment := ⟨e.text, e.names.toArray⟩

theorem names_leaf (p : Predicate) : (leaf p).names = p.names := List.append_nil _

theorem names_and (l r : Expr) : (and l r).names = l.names ++ r.names := List.flatMap_append

theorem names_or (l r : Expr) : (or l r).names = l.names ++ r.names := List.flatMap_append

theorem names_not (e : Expr) : (not e).names = e.names := rfl

theorem fragment_leaf (p : Predicate) : (leaf p).fragment = p.render {} := by
  rw [fragment, names_leaf, Predicate.names, Array.toArray_toList]; rfl

/-- A node with two parts adds a bracket, the left part, the joiner, the right part, a bracket. -/
theorem append_fragment_and (f : Fragment) (l r : Expr) :
    f.append (and l r).fragment
      = ((((f.text "(").append l.fragment).text " AND ").append r.fragment).text ")" := by
  simp [Fragment.append, Fragment.text, fragment, text, names_and, String.append_assoc]

theorem append_fragment_or (f : Fragment) (l r : Expr) :
    f.append (or l r).fragment
      = ((((f.text "(").append l.fragment).text " OR ").append r.fragment).text ")" := by
  simp [Fragment.append, Fragment.text, fragment, text, names_or, String.append_assoc]

theorem append_fragment_not (f : Fragment) (e : Expr) :
    f.append (not e).fragment = ((f.text "NOT (").append e.fragment).text ")" := by
  simp [Fragment.append, Fragment.text, fragment, text, names_not, String.append_assoc]

end Expr

/-! ## steps of a walk -/

section
variable {limit : Option UInt64} {tasks : List Task} {deepest depth : Nat} {f : Fragment}

theorem walk_nil : walk limit [] deepest f = (.ok deepest, f) := by rw [walk]

theorem walk_emit (t : String) :
    walk limit (.emit t :: tasks) deepest f = walk limit tasks deepest (f.text t) := by rw [walk]

/-- a node below the limit ends the walk -/
theorem walk_below {n : UInt64} (e : Expr) (hn : limit = some n) (h : n.toNat < depth) :
    walk limit (.visit e depth :: tasks) deepest f = (.error ⟨n⟩, f) := by
  have below : limit.filter (·.toNat < depth) = some n := by simp [hn, h]
  rw [walk, below]

/-- no node down to a depth within the limit is refused -/
theorem filter_within (h : ∀ n ∈ limit, depth ≤ n.toNat) :
    limit.filter (·.toNat < depth) = none := by
  rw [Option.filter_eq_none_iff]
  intro n hn
  simpa using h n hn

theorem walk_leaf (p : Predicate) (h : ∀ n ∈ limit, depth ≤ n.toNat) :
    walk limit (.visit (.leaf p) depth :: tasks) deepest f
      = walk limit tasks (max deepest depth) (p.render f) := by
  rw [walk, filter_within h]

theorem walk_and (l r : Expr) (h : ∀ n ∈ limit, depth ≤ n.toNat) :
    walk limit (.visit (.and l r) depth :: tasks) deepest f
      = walk limit (pairTasks l " AND " r depth ++ tasks) (max deepest depth) f := by
  rw [walk, filter_within h]

theorem walk_or (l r : Expr) (h : ∀ n ∈ limit, depth ≤ n.toNat) :
    walk limit (.visit (.or l r) depth :: tasks) deepest f
      = walk limit (pairTasks l " OR " r depth ++ tasks) (max deepest depth) f := by
  rw [walk, filter_within h]

theorem walk_not (e : Expr) (h : ∀ n ∈ limit, depth ≤ n.toNat) :
    walk limit (.visit (.not e) depth :: tasks) deepest f
      = walk limit (.visit e (depth + 1) :: .emit ")" :: tasks) (max deepest depth)
          (f.text "NOT (") := by
  rw [walk, filter_within h]
  exact walk_emit _

end

/-! ## what a visit means -/

namespace Expr

/-- if the deepest node lies within the limit, so does the root -/
theorem root_within {limit : Option UInt64} {e : Expr} {d : Nat}
    (h : ∀ n ∈ limit, d + e.depth ≤ n.toNat) : ∀ n ∈ limit, d + 1 ≤ n.toNat := by
  intro n hn
  have deepest := h n hn
  have pos := e.depth_pos
  omega

/-- In front of any tasks, a visit of the tree at depth `d + 1` adds the tree's text and goes on
with the tasks, if no node lies below the limit. -/
def Added (limit : Option UInt64) (e : Expr) : Prop :=
  ∀ (d : Nat) (tasks : List Task) (deepest : Nat) (f : Fragment),
    (∀ n ∈ limit, d + e.depth ≤ n.toNat) →
    walk limit (.visit e (d + 1) :: tasks) deepest f
      = walk limit tasks (max deepest (d + e.depth)) (f.append e.fragment)

/-- In front of any tasks, a visit of the tree at depth `d + 1` ends the walk, if a node lies below
the limit. -/
def Refused (limit : UInt64) (e : Expr) : Prop :=
  ∀ (d : Nat) (tasks : List Task) (deepest : Nat) (f : Fragment), limit.toNat < d + e.depth →
    (walk (some limit) (.visit e (d + 1) :: tasks) deepest f).1 = .error ⟨limit⟩

theorem Added.pair {limit : Option UInt64} {l r : Expr} (hl : l.Added limit) (hr : r.Added limit)
    (joiner : String) (d : Nat) (tasks : List Task) (deepest : Nat) (f : Fragment)
    (h : ∀ n ∈ limit, d + (1 + max l.depth r.depth) ≤ n.toNat) :
    walk limit (pairTasks l joiner r (d + 1) ++ tasks) deepest f
      = walk limit tasks (max (max deepest (d + 1 + l.depth)) (d + 1 + r.depth))
          (((((f.text "(").append l.fragment).text joiner).append r.fragment).text ")") := by
  have left : ∀ n ∈ limit, d + 1 + l.depth ≤ n.toNat := fun n hn => by
    have := h n hn
    omega
  have right : ∀ n ∈ limit, d + 1 + r.depth ≤ n.toNat := fun n hn => by
    have := h n hn
    omega
  show walk limit (.emit "(" :: .visit l (d + 1 + 1) :: .emit joiner :: .visit r (d + 1 + 1) ::
    .emit ")" :: tasks) deepest f = _
  rw [walk_emit, hl _ _ _ _ left, walk_emit, hr _ _ _ _ right, walk_emit]

/-- **A tree that fits adds its text**, whatever tasks stand behind it. -/
theorem added (limit : Option UInt64) (e : Expr) : e.Added limit := by
  induction e with
  | leaf p =>
    intro d tasks deepest f h
    rw [walk_leaf p (root_within h), p.render_eq, fragment_leaf]
    rfl
  | and l r ihl ihr =>
    intro d tasks deepest f h
    rw [walk_and l r (root_within h), ihl.pair ihr _ _ _ _ _ h, append_fragment_and]
    congr 1
    simp only [depth]
    omega
  | or l r ihl ihr =>
    intro d tasks deepest f h
    rw [walk_or l r (root_within h), ihl.pair ihr _ _ _ _ _ h, append_fragment_or]
    congr 1
    simp only [depth]
    omega
  | not e ih =>
    intro d tasks deepest f h
    have inner : ∀ n ∈ limit, d + 1 + e.depth ≤ n.toNat := fun n hn => by
      have := h n hn
      simp only [depth] at this
      omega
    rw [walk_not e (root_within h), ih _ _ _ _ inner, walk_emit, append_fragment_not]
    congr 1
    simp only [depth]
    omega

/-- The left part is refused, or it fits and the right part is refused behind its text. -/
theorem Refused.pair {limit : UInt64} {l r : Expr} (hl : l.Refused limit) (hr : r.Refused limit)
    (joiner : String) (d : Nat) (tasks : List Task) (deepest : Nat) (f : Fragment)
    (h : limit.toNat < d + (1 + max l.depth r.depth)) :
    (walk (some limit) (pairTasks l joiner r (d + 1) ++ tasks) deepest f).1 = .error ⟨limit⟩ := by
  show (walk (some limit) (.emit "(" :: .visit l (d + 1 + 1) :: .emit joiner ::
    .visit r (d + 1 + 1) :: .emit ")" :: tasks) deepest f).1 = _
  rw [walk_emit]
  by_cases left : limit.toNat < d + 1 + l.depth
  · exact hl _ _ _ _ left
  · have fits : ∀ n ∈ some limit, d + 1 + l.depth ≤ n.toNat := by
      intro n hn
      obtain rfl := Option.some.inj hn
      omega
    rw [added _ l _ _ _ _ fits, walk_emit]
    exact hr _ _ _ _ (by omega)

/-- **A tree that does not fit ends the walk**, whatever tasks stand behind it. -/
theorem refused (limit : UInt64) (e : Expr) : e.Refused limit := by
  induction e with
  | leaf p =>
    intro d tasks deepest f h
    have root : limit.toNat < d + 1 := h
    rw [walk_below _ rfl root]
  | and l r ihl ihr =>
    intro d tasks deepest f h
    by_cases root : limit.toNat < d + 1
    · rw [walk_below _ rfl root]
    · rw [walk_and l r (by simpa using root)]
      exact ihl.pair ihr _ _ _ _ _ h
  | or l r ihl ihr =>
    intro d tasks deepest f h
    by_cases root : limit.toNat < d + 1
    · rw [walk_below _ rfl root]
    · rw [walk_or l r (by simpa using root)]
      exact ihl.pair ihr _ _ _ _ _ h
  | not e ih =>
    intro d tasks deepest f h
    by_cases root : limit.toNat < d + 1
    · rw [walk_below _ rfl root]
    · rw [walk_not e (by simpa using root)]
      simp only [depth] at h
      exact ih _ _ _ _ (by omega)

theorem render_of_fits {limit : Option UInt64} {e : Expr} (f : Fragment)
    (h : ∀ n ∈ limit, e.depth ≤ n.toNat) :
    e.render limit f = (.ok e.depth, f.append e.fragment) := by
  have fits : ∀ n ∈ limit, 0 + e.depth ≤ n.toNat := by simpa using h
  rw [render, added limit e _ _ _ _ fits, walk_nil]
  simp

theorem render_of_lt {limit : UInt64} {e : Expr} (f : Fragment) (h : limit.toNat < e.depth) :
    (e.render (some limit) f).1 = .error ⟨limit⟩ :=
  refused limit e 0 [] 0 f (by omega)

/-- **The walk of a tree is its recursion.**  From any text on, a tree that is no deeper than the
limit adds its text and its names and gives its depth; any other tree is refused with the limit. -/
theorem render_eq_recursion (e : Expr) (limit : Option UInt64) (f : Fragment) :
    ((∀ n ∈ limit, e.depth ≤ n.toNat) →
      e.render limit f = (.ok e.depth, ⟨f.sql ++ e.text, f.params ++ e.names.toArray⟩)) ∧
    ∀ n ∈ limit, n.toNat < e.depth → (e.render limit f).1 = .error ⟨n⟩ := by
  constructor
  · intro fits
    exact render_of_fits f fits
  · rintro n rfl deeper
    exact render_of_lt f deeper

/-- two levels fit under the limit two and not under the limit one -/
theorem render_not_price :
    let price : Expr := .leaf ⟨⟨["price"], by decide, by decide⟩, .lt, [.int 10]⟩
    price.not.depth = 2 ∧
      price.not.render (some 2) ⟨"WHERE ", #[]⟩
        = (.ok 2, ⟨"WHERE NOT (price < :price)", #["price"]⟩) ∧
      (price.not.render (some 1) ⟨"WHERE ", #[]⟩).1 = .error ⟨1⟩ := by
  intro price
  have fits : ∀ n ∈ some (2 : UInt64), price.not.depth ≤ n.toNat := by
    intro n hn
    obtain rfl := Option.some.inj hn
    decide
  have deeper : (1 : UInt64).toNat < price.not.depth := by decide
  refine ⟨rfl, ?_, (render_eq_recursion price.not (some 1) ⟨"WHERE ", #[]⟩).2 1 rfl deeper⟩
  rw [(render_eq_recursion price.not (some 2) ⟨"WHERE ", #[]⟩).1 fits]
  rfl

end Expr

end HqlWhere
