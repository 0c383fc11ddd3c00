import HqlWhere.Proofs.Clause.Compilation
import HqlWhere.Proofs.Clause.Parameters
import HqlWhere.Proofs.Clause.Places
import HqlWhere.Proofs.Document.Paths

/-!
# What a refused walk leaves behind

A walk that comes to a node below the limit ends there.  What it leaves is the unlimited text cut
exactly in front of that node, with the names of the leaves before it, and it has come to no node
behind it.

* `visited`                   the nodes that a walk comes to, in order;
* `visited_cut`               with a limit they are the nodes without one, up to the first below;
* `params_walk`               a walk records the names of the leaves that it comes to;
* `Place.reaches`             a walk comes to a place with the text in front of it;
* `Place.render_refused`      what a walk leaves that is refused there;
* `Expr.render_cut`           the refused walk of a tree that is too deep.
-/

namespace HqlWhere

/-! ## the nodes that a walk comes to -/

namespace Expr

/-- The tasks that a node at the given depth leaves for its parts. -/
def partTasks (depth : Nat) : Expr → List Task
  | leaf _ => []
  | and l r => pairTasks l " AND " r depth
  | or l r => pairTasks l " OR " r depth
  | not e => [.emit "NOT (", .visit e (depth + 1), .emit ")"]

/-- What a node adds before its parts are walked: a leaf its clause, another node nothing. -/
def enter (f : Fragment) : Expr → Fragment
  | leaf p => p.render f
  | and _ _ | or _ _ | not _ => f

theorem params_enter (e : Expr) (f : Fragment) :
    (e.enter f).params.toList = f.params.toList ++ e.leaf?.toList.flatMap Predicate.names := by
  cases e with
  | leaf p =>
    rw [enter, p.render_eq]
    simp [Fragment.append, leaf?, Predicate.names]
  | _ => exact (List.append_nil _).symm

theorem taskSteps_partTasks (e : Expr) (depth : Nat) : taskSteps (e.partTasks depth) < e.steps := by
  cases e <;> simp [partTasks, pairTasks, taskSteps, Task.steps, steps] <;> omega

end Expr

/-- Whether a node at the given depth lies below the limit. -/
def isBelow (limit : Option UInt64) (depth : Nat) : Bool := limit.any (·.toNat < depth)

theorem isBelow_eq_false_iff {limit : Option UInt64} {depth : Nat} :
    isBelow limit depth = false ↔ ∀ n ∈ limit, depth ≤ n.toNat := by
  cases limit <;> simp [isBelow]

theorem isBelow_eq_true_iff {limit : Option UInt64} {depth : Nat} :
    isBelow limit depth = true ↔ ∃ n, limit = some n ∧ n.toNat < depth := by
  cases limit <;> simp [isBelow]

/-- The nodes that a walk comes to, each with its depth, in order.  It takes the steps of `walk`
(`walk_visit`, `walk_below`), so from a node below the limit it comes to no other. -/
def visited (limit : Option UInt64) : List Task → List (Expr × Nat)
  | [] => []
  | .emit _ :: tasks => visited limit tasks
  | .visit e depth :: tasks =>
    (e, depth) ::
      if isBelow limit depth then [] else visited limit (e.partTasks depth ++ tasks)
termination_by tasks => taskSteps tasks
decreasing_by
  · simp [taskSteps_cons, Task.steps]
  · rw [taskSteps_append, taskSteps_cons]
    have := e.taskSteps_partTasks depth
    show _ < e.steps + _
    omega

section
variable {limit : Option UInt64} {tasks : List Task} {depth deepest : Nat} {f : Fragment}

theorem visited_emit (t : String) : visited limit (.emit t :: tasks) = visited limit tasks := by
  rw [visited]

theorem visited_enter (e : Expr) (depth : Nat) (tasks : List Task) :
    visited none (.visit e depth :: tasks)
      = (e, depth) :: visited none (e.partTasks depth ++ tasks) := by
  rw [visited]
  rfl

/-- a node that is not below the limit is entered, and then its parts are walked -/
theorem walk_visit (e : Expr) (h : isBelow limit depth = false) :
    walk limit (.visit e depth :: tasks) deepest f
      = walk limit (e.partTasks depth ++ tasks) (max deepest depth) (e.enter f) := by
  have within : ∀ n ∈ limit, depth ≤ n.toNat := isBelow_eq_false_iff.mp h
  cases e with
  | leaf p => exact walk_leaf p within
  | and l r => exact walk_and l r within
  | or l r => exact walk_or l r within
  | not e => rw [walk_not e within, ← walk_emit]; rfl

/-- **A walk records the names of the leaves that it comes to**, but not that of a leaf below the
limit. -/
theorem params_walk (tasks : List Task) (deepest : Nat) (f : Fragment) :
    (walk limit tasks deepest f).2.params.toList = f.params.toList ++
      (((visited limit tasks).filter fun v => !isBelow limit v.2).filterMap
        fun v => v.1.leaf?).flatMap Predicate.names := by
  fun_induction visited limit tasks generalizing deepest f with
  | case1 => simp [walk_nil]
  | case2 t tasks ih => rw [walk_emit, ih, Fragment.params_text]
  | case3 e depth tasks ih =>
    cases below : isBelow limit depth with
    | true =>
      obtain ⟨n, limited, deeper⟩ := isBelow_eq_true_iff.mp below
      rw [walk_below e limited deeper]
      simp [below]
    | false =>
      rw [walk_visit e below, ih, e.params_enter, List.append_assoc]
      cases e <;> simp [below, Expr.leaf?]

end

/-- A node with its depth, where the root of the tree lies at depth `d + 1`. -/
def Node.visit (d : Nat) (n : Node) : Expr × Nat := (n.tree, d + n.depth)

theorem Node.map_visit_under (fr : Frame) (d : Nat) (ns : List Node) :
    (ns.map (Node.under fr)).map (Node.visit d) = ns.map (Node.visit (d + 1)) := by
  rw [List.map_map]
  refine List.map_congr_left fun n _ => Prod.ext rfl ?_
  show d + (n.depth + 1) = d + 1 + n.depth
  omega

/-- the nodes of two parts, if the nodes of each are known -/
theorem visited_pair {l r : Expr} {d : Nat} {ls rs : List (Expr × Nat)}
    (left : ∀ tasks, visited none (.visit l (d + 1) :: tasks) = ls ++ visited none tasks)
    (right : ∀ tasks, visited none (.visit r (d + 1) :: tasks) = rs ++ visited none tasks)
    (joiner : String) (tasks : List Task) :
    visited none (pairTasks l joiner r d ++ tasks) = ls ++ rs ++ visited none tasks := by
  show visited none (.emit "(" :: .visit l (d + 1) :: .emit joiner :: .visit r (d + 1) ::
    .emit ")" :: tasks) = _
  rw [visited_emit, left, visited_emit, right, visited_emit, List.append_assoc]

/-- Without a limit a visit comes to all nodes of the tree, in pre-order. -/
theorem visited_visit (e : Expr) (d : Nat) (tasks : List Task) :
    visited none (.visit e (d + 1) :: tasks)
      = e.nodes.map (Node.visit d) ++ visited none tasks := by
  induction e generalizing d tasks with
  | leaf p => exact visited_enter _ (d + 1) tasks
  | and l r ihl ihr =>
    rw [visited_enter, Expr.partTasks, visited_pair (ihl (d + 1)) (ihr (d + 1)), Expr.nodes,
      List.map_cons, List.map_append, Node.map_visit_under, Node.map_visit_under]
    rfl
  | or l r ihl ihr =>
    rw [visited_enter, Expr.partTasks, visited_pair (ihl (d + 1)) (ihr (d + 1)), Expr.nodes,
      List.map_cons, List.map_append, Node.map_visit_under, Node.map_visit_under]
    rfl
  | not e ih =>
    rw [visited_enter, Expr.partTasks, List.cons_append, visited_emit, List.cons_append, ih,
      List.cons_append, visited_emit, Expr.nodes, List.map_cons, Node.map_visit_under]
    rfl

/-- **With a limit a walk comes to the same nodes up to the first below the limit**, and to that. -/
theorem visited_cut {n : UInt64} {tasks : List Task} {as bs : List (Expr × Nat)} {v : Expr × Nat}
    (all : visited none tasks = as ++ v :: bs) (within : ∀ a ∈ as, a.2 ≤ n.toNat)
    (below : n.toNat < v.2) : visited (some n) tasks = as ++ [v] := by
  fun_induction visited (some n) tasks generalizing as with
  | case1 =>
    rw [visited] at all
    cases as <;> cases all
  | case2 t tasks ih => exact ih (visited_emit t ▸ all) within
  | case3 e depth tasks ih =>
    rw [visited_enter] at all
    cases as with
    | nil =>
      obtain ⟨rfl, _⟩ := List.cons.inj all
      rw [if_pos (isBelow_eq_true_iff.mpr ⟨n, rfl, below⟩), List.nil_append]
    | cons a as =>
      obtain ⟨rfl, rest⟩ := List.cons.inj all
      have root : isBelow (some n) depth = false := by
        simpa [isBelow] using within _ List.mem_cons_self
      rw [root, ih rest fun a ha => within a (List.mem_cons_of_mem _ ha)]
      rfl

/-! ## the text in front of a place -/

section
variable {limit : Option UInt64}

/-- A tree whose nodes are all within the limit fits. -/
theorem Expr.fits_of_nodes {e : Expr} {d : Nat}
    (within : ∀ m ∈ e.nodes, ∀ n ∈ limit, d + m.depth ≤ n.toNat) :
    ∀ n ∈ limit, d + e.depth ≤ n.toNat := by
  obtain ⟨deepest, mem, depth⟩ := e.exists_deepest
  exact depth ▸ within deepest mem

/-- In front of any tasks, a walk that visits the tree `e` at depth `d` comes to the tree `x` at
depth `k`, and on the way it adds the text `t`. -/
def Reaches (limit : Option UInt64) (e : Expr) (d : Nat) (x : Expr) (k : Nat) (t : String) : Prop :=
  ∀ (tasks : List Task) (deepest : Nat) (f : Fragment), ∃ rest reached g,
    walk limit (.visit e d :: tasks) deepest f = walk limit (.visit x k :: rest) reached g ∧
      g.sql = f.sql ++ t

theorem Reaches.refl (e : Expr) (d : Nat) : Reaches limit e d e d "" :=
  fun tasks deepest f => ⟨tasks, deepest, f, rfl, String.append_empty.symm⟩

theorem Reaches.trans {e x y : Expr} {d k m : Nat} {t u : String} (first : Reaches limit e d x k t)
    (second : Reaches limit x k y m u) : Reaches limit e d y m (t ++ u) := by
  intro tasks deepest f
  obtain ⟨rest, reached, g, walked, added⟩ := first tasks deepest f
  obtain ⟨rest₂, reached₂, g₂, walked₂, added₂⟩ := second rest reached g
  exact ⟨rest₂, reached₂, g₂, walked.trans walked₂, by rw [added₂, added, String.append_assoc]⟩

/-- behind a left part that fits, a walk comes to the right part -/
theorem walk_pair_right (l x : Expr) (joiner : String) {d : Nat}
    (fits : ∀ n ∈ limit, d + l.depth ≤ n.toNat) (tasks : List Task) (deepest : Nat) (f : Fragment) :
    ∃ rest reached g, walk limit (pairTasks l joiner x d ++ tasks) deepest f
        = walk limit (.visit x (d + 1) :: rest) reached g ∧
      g.sql = f.sql ++ ("(" ++ l.text ++ joiner) := by
  refine ⟨.emit ")" :: tasks, max deepest (d + l.depth),
    ((f.text "(").append l.fragment).text joiner, ?_, ?_⟩
  · show walk limit (.emit "(" :: .visit l (d + 1) :: .emit joiner :: .visit x (d + 1) ::
      .emit ")" :: tasks) deepest f = _
    rw [walk_emit, Expr.added limit l _ _ _ _ fits, walk_emit]
  · simp [Fragment.append, Fragment.text, Expr.fragment, String.append_assoc]

/-- A walk comes from a node to its part with the text of the node in front of the part, if the
nodes before the part are within the limit. -/
theorem Frame.reaches (fr : Frame) (x : Expr) {d : Nat}
    (within : ∀ m ∈ fr.opening x, ∀ n ∈ limit, d + m.depth ≤ n.toNat) :
    Reaches limit (fr.fill x) (d + 1) x (d + 1 + 1) fr.before := by
  intro tasks deepest f
  have root : ∀ n ∈ limit, d + 1 ≤ n.toNat := within _ List.mem_cons_self
  -- The nodes of a part further left come before this part, so that part fits.
  have left {l : Expr} {side : Frame}
      (listed : fr.opening x = ⟨[], fr.fill x⟩ :: l.nodes.map (Node.under side)) :
      ∀ n ∈ limit, d + 1 + l.depth ≤ n.toNat := by
    refine Expr.fits_of_nodes fun m mem n limited => ?_
    have inside : m.under side ∈ fr.opening x :=
      listed ▸ List.mem_cons_of_mem _ (List.mem_map_of_mem mem)
    have near := within _ inside n limited
    rw [Node.depth_under] at near
    omega
  cases fr with
  | andLeft r =>
    rw [fill, walk_and x r root]
    exact ⟨_, _, f.text "(", walk_emit _, rfl⟩
  | andRight l =>
    rw [fill, walk_and l x root]
    exact walk_pair_right l x " AND " (left rfl) _ _ _
  | orLeft r =>
    rw [fill, walk_or x r root]
    exact ⟨_, _, f.text "(", walk_emit _, rfl⟩
  | orRight l =>
    rw [fill, walk_or l x root]
    exact walk_pair_right l x " OR " (left rfl) _ _ _
  | not => exact ⟨_, _, f.text "NOT (", walk_not x root, rfl⟩

/-- **A walk comes to a place with the text in front of it**, if the nodes before the place are
within the limit. -/
theorem Place.reaches (p : Place) (x : Expr) {d : Nat}
    (within : ∀ m ∈ p.earlier x, ∀ n ∈ limit, d + m.depth ≤ n.toNat) :
    Reaches limit (p.fill x) (d + 1) x (d + (Node.mk p x).depth) p.before := by
  induction p generalizing d with
  | nil => exact .refl x _
  | cons fr p ih =>
    have first := fr.reaches (fill p x) fun m mem => within m (List.mem_append_left _ mem)
    have second : Reaches limit (fill p x) (d + 1 + 1) x (d + 1 + (Node.mk p x).depth)
        (before p) := by
      refine ih fun m mem n limited => ?_
      have near := within _ (List.mem_append_right _ (List.mem_map_of_mem mem)) n limited
      rw [Node.depth_under] at near
      omega
    have depth : d + (Node.mk (fr :: p) x).depth = d + 1 + (Node.mk p x).depth := by
      show d + (p.length + 1 + 1) = d + 1 + (p.length + 1)
      omega
    rw [depth]
    exact first.trans second

end

/-! ## the refused walk -/

theorem Expr.text_ne_empty (e : Expr) : e.text ≠ "" := by
  cases e with
  | leaf p => exact p.sql_ne_empty
  | and l r => simp [text]
  | or l r => simp [text]
  | not e => simp [text]

/-- The walk of a tree comes to the nodes before the first one below the limit, and to that. -/
theorem visited_tree {e : Expr} {n : UInt64} {earlier later : List Node} {node : Node}
    (split : e.nodes = earlier ++ node :: later) (above : ∀ m ∈ earlier, m.depth ≤ n.toNat)
    (below : n.toNat < node.depth) :
    visited (some n) [.visit e 1] = (earlier ++ [node]).map (Node.visit 0) := by
  have all := visited_visit e 0 []
  rw [split, List.map_append, List.map_cons, List.append_assoc, List.cons_append] at all
  rw [List.map_append]
  refine visited_cut all ?_ (by simpa [Node.visit] using below)
  intro a ha
  obtain ⟨m, hm, rfl⟩ := List.mem_map.mp ha
  simpa [Node.visit] using above m hm

/-- The walk of a tree records the parameters of the leaves before the first node below the
limit. -/
theorem params_tree {e : Expr} {n : UInt64} {earlier later : List Node} {node : Node}
    (split : e.nodes = earlier ++ node :: later) (above : ∀ m ∈ earlier, m.depth ≤ n.toNat)
    (below : n.toNat < node.depth) (f : Fragment) :
    (e.render (some n) f).2.params = f.params ++
      ((earlier.filterMap Node.leaf?).filterMap Predicate.parameter?).toArray := by
  have kept : ((earlier ++ [node]).map (Node.visit 0)).filter (fun v => !isBelow (some n) v.2)
      = earlier.map (Node.visit 0) := by
    have dropped : isBelow (some n) (Node.visit 0 node).2 = true :=
      isBelow_eq_true_iff.mpr ⟨n, rfl, by simpa [Node.visit] using below⟩
    have all : ∀ v ∈ earlier.map (Node.visit 0), (!isBelow (some n) v.2) = true := by
      intro v hv
      obtain ⟨m, hm, rfl⟩ := List.mem_map.mp hv
      simpa [isBelow, Node.visit] using above m hm
    rw [List.map_append, List.filter_append, List.filter_eq_self.mpr all]
    simp [dropped]
  have leaves : (earlier.map (Node.visit 0)).filterMap (fun v => v.1.leaf?)
      = earlier.filterMap Node.leaf? := List.filterMap_map
  have recorded : (e.render (some n) f).2.params.toList = _ := params_walk [.visit e 1] 0 f
  rw [visited_tree split above below, kept, leaves, names_all_eq] at recorded
  rw [← Array.toList_inj, Array.toList_append]
  exact recorded

/-- **A walk is refused at a place below the limit with the text in front of it**, if the nodes
before the place are within the limit. -/
theorem Place.render_refused (p : Place) (x : Expr) {n : UInt64} {later : List Node}
    (split : (p.fill x).nodes = p.earlier x ++ ⟨p, x⟩ :: later)
    (above : ∀ m ∈ p.earlier x, m.depth ≤ n.toNat) (below : n.toNat < (Node.mk p x).depth)
    (f : Fragment) : (p.fill x).render (some n) f = (.error ⟨n⟩, ⟨f.sql ++ p.before, f.params ++
      (((p.earlier x).filterMap Node.leaf?).filterMap Predicate.parameter?).toArray⟩) := by
  have within : ∀ m ∈ p.earlier x, ∀ l ∈ some n, 0 + m.depth ≤ l.toNat := by
    intro m hm l limit
    obtain rfl := Option.some.inj limit
    rw [Nat.zero_add]
    exact above m hm
  obtain ⟨rest, reached, g, walked, added⟩ := p.reaches x within [] 0 f
  have refused : (p.fill x).render (some n) f = (.error ⟨n⟩, g) := by
    rw [Expr.render, walked, walk_below x rfl (by omega)]
  have recorded := params_tree split above below f
  rw [refused] at recorded ⊢
  rw [← added, ← recorded]

namespace Expr

theorem sql_render (e : Expr) : (e.render none {}).2.sql = e.text := by
  rw [render_of_fits {} (by simp)]
  exact String.empty_append

/-- **A tree that is too deep is cut exactly in front of the first node below the limit.**  Of the
nodes of the tree in pre-order, `node` is the first whose depth is the limit and one more; those
before it are `earlier`, and the leaves among these are the first leaves of the tree.  Whatever text
and parameters a refused walk started with, it leaves the same with two things added: the text that
stands in front of the node's place when the tree is rendered without a limit, be it this node that
stands there or another tree, and the parameters of the leaves among `earlier`.  The text is a
proper part of the whole, since the node has a text.  The walk has come to the nodes before the node
and to the node, and to no other.  Compiling the tree gives the refusal and nothing else. -/
theorem render_cut {e : Expr} {n : UInt64} (deeper : n.toNat < e.depth) :
    ∃ (earlier : List Node) (node : Node) (later : List Node),
      e.nodes = earlier ++ node :: later ∧
      e.leaves = earlier.filterMap Node.leaf? ++ (node :: later).filterMap Node.leaf? ∧
      node.depth = n.toNat + 1 ∧ (∀ m ∈ earlier, m.depth ≤ n.toNat) ∧
      (∀ f : Fragment, e.render (some n) f = (.error ⟨n⟩, ⟨f.sql ++ node.place.before,
        f.params ++ ((earlier.filterMap Node.leaf?).filterMap Predicate.parameter?).toArray⟩)) ∧
      node.place.fill node.tree = e ∧
      (∀ x : Expr, ((node.place.fill x).render none {}).2.sql
        = node.place.before ++ (x.render none {}).2.sql ++ node.place.behind) ∧
      (∃ rest, rest ≠ "" ∧ (e.render none {}).2.sql = node.place.before ++ rest) ∧
      visited (some n) [.visit e 1] = (earlier ++ [node]).map (Node.visit 0) ∧
      ∀ s : Settings, s.maxDepth = some n → s.compile e = (.error ⟨n⟩, []) := by
  obtain ⟨p, x, rfl, depth, above⟩ := exists_first_below deeper
  obtain ⟨later, split⟩ := p.nodes_fill x
  have below : n.toNat < (Node.mk p x).depth := by omega
  have leaves := filterMap_nodes (p.fill x)
  rw [split, List.filterMap_append] at leaves
  refine ⟨p.earlier x, ⟨p, x⟩, later, split, leaves.symm, depth, above,
    p.render_refused x split above below, rfl, ?_, ?_, visited_tree split above below,
    fun s limit => s.compile_of_lt limit deeper⟩
  · intro y
    rw [sql_render, sql_render, p.text_fill]
  · refine ⟨x.text ++ p.behind, ?_, ?_⟩
    · intro empty
      exact x.text_ne_empty (String.append_eq_empty_iff.mp empty).1
    · rw [sql_render, p.text_fill, String.append_assoc]

/-- The second operand of OR has parts at the third level, of which the first is not rendered. -/
theorem render_cut_of_ages :
    let age (op : Operator) : Expr := .leaf ⟨⟨["age"], by decide, by decide⟩, op, [.int 5]⟩
    let e : Expr := .or (age .lt) (.and (age .gt) (age .notNull).not)
    e.depth = 4 ∧
      e.render (some 2) ⟨"WHERE ", #[]⟩ = (.error ⟨2⟩, ⟨"WHERE (age < :age OR (", #["age"]⟩) ∧
      (visited (some 2) [.visit e 1]).map Prod.snd = [1, 2, 2, 3] ∧
      Settings.compile { maxDepth := some 2 } e = (.error ⟨2⟩, []) := by
  intro age e
  have deeper : (2 : UInt64).toNat < e.depth := by decide
  obtain ⟨earlier, node, later, split, _, depth, above, rendered, _, _, _, seen, compiled⟩ :=
    render_cut deeper
  have inside : ∀ m ∈ earlier, decide (m.depth ≤ 2) = true := fun m hm =>
    decide_eq_true (above m hm)
  have outside : ¬ decide (node.depth ≤ 2) = true := by rw [depth]; decide
  have front : earlier = e.nodes.takeWhile fun m => decide (m.depth ≤ 2) := by
    rw [split, List.takeWhile_append_of_pos inside, List.takeWhile_cons, if_neg outside,
      List.append_nil]
  have back : node :: later = e.nodes.dropWhile fun m => decide (m.depth ≤ 2) := by
    rw [split, List.dropWhile_append_of_pos inside, List.dropWhile_cons, if_neg outside]
  obtain ⟨rfl, _⟩ := List.cons.inj back
  subst front
  refine ⟨rfl, ?_, ?_, compiled _ rfl⟩
  · rw [rendered]
    rfl
  · rw [seen]
    rfl

end Expr

end HqlWhere
