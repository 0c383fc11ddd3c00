import HqlWhere.Proofs.Clause.Recursion

/-!
# Places in a tree

A place in a tree is told by the nodes above it, from the root on, each with its other part.  So a
place knows all of the tree but what stands there, and any tree can be put there.

* `Frame`, `Place`, `Place.fill`   one node above a place, all of them, and the whole tree;
* `Place.text_fill`                the text around a place depends on the place alone;
* `Expr.nodes`                     the nodes of a tree with their places, in pre-order;
* `Expr.mem_nodes`                 they are all the ways to see the tree from one of its places;
* `Place.earlier`                  the nodes that come before a place;
* `Expr.exists_first_below`        the first node below a limit lies just below it.
-/

namespace HqlWhere

/-- A node above a place.  One of its parts leads to the place; it may have another. -/
inductive Frame
  | andLeft (right : Expr)
  | andRight (left : Expr)
  | orLeft (right : Expr)
  | orRight (left : Expr)
  | not

/-- The nodes above a place, from the root on. -/
abbrev Place := List Frame

/-- A node of a tree: its place and the tree that stands there. -/
structure Node where
  place : Place
  tree : Expr

/-- The predicate of a leaf. -/
def Expr.leaf? : Expr → Option Predicate
  | leaf p => some p
  | and _ _ | or _ _ | not _ => none

namespace Node

/-- The level of a node, one for the root. -/
def depth (n : Node) : Nat := n.place.length + 1

/-- A node of a part as a node of the whole. -/
def under (fr : Frame) (n : Node) : Node := ⟨fr :: n.place, n.tree⟩

/-- The predicate of a node, if it is a leaf. -/
def leaf? (n : Node) : Option Predicate := n.tree.leaf?

theorem depth_under (fr : Frame) (n : Node) : (n.under fr).depth = n.depth + 1 := rfl

theorem under_inj {fr : Frame} {n m : Node} (h : n.under fr = m.under fr) : n = m := by
  cases n
  cases m
  cases h
  rfl

theorem filterMap_under (fr : Frame) (ns : List Node) :
    (ns.map (under fr)).filterMap leaf? = ns.filterMap leaf? := List.filterMap_map

end Node

/-! ## nodes in pre-order -/

namespace Expr

/-- The nodes of a tree in pre-order: the root, then the nodes of the left part, then those of the
right part. -/
def nodes : Expr → List Node
  | leaf p => [⟨[], leaf p⟩]
  | and l r =>
    ⟨[], and l r⟩ ::
      (l.nodes.map (Node.under (.andLeft r)) ++ r.nodes.map (Node.under (.andRight l)))
  | or l r =>
    ⟨[], or l r⟩ ::
      (l.nodes.map (Node.under (.orLeft r)) ++ r.nodes.map (Node.under (.orRight l)))
  | not e => ⟨[], not e⟩ :: e.nodes.map (Node.under .not)

theorem nodes_eq_cons (e : Expr) : ∃ below, e.nodes = ⟨[], e⟩ :: below := by
  cases e <;> exact ⟨_, rfl⟩

/-- The leaves among the nodes are the leaves, from left to right. -/
theorem filterMap_nodes (e : Expr) : e.nodes.filterMap Node.leaf? = e.leaves := by
  induction e with
  | leaf p => rfl
  | and l r ihl ihr =>
    rw [nodes, List.filterMap_cons_none rfl, List.filterMap_append, Node.filterMap_under,
      Node.filterMap_under, ihl, ihr, leaves]
  | or l r ihl ihr =>
    rw [nodes, List.filterMap_cons_none rfl, List.filterMap_append, Node.filterMap_under,
      Node.filterMap_under, ihl, ihr, leaves]
  | not e ih => rw [nodes, List.filterMap_cons_none rfl, Node.filterMap_under, ih, leaves]

end Expr

/-! ## the tree around a place -/

namespace Frame

/-- The tree with its part put in. -/
def fill : Frame → Expr → Expr
  | andLeft r, x => .and x r
  | andRight l, x => .and l x
  | orLeft r, x => .or x r
  | orRight l, x => .or l x
  | not, x => .not x

/-- The text in front of the part. -/
def before : Frame → String
  | andLeft _ | orLeft _ => "("
  | andRight l => "(" ++ l.text ++ " AND "
  | orRight l => "(" ++ l.text ++ " OR "
  | not => "NOT ("

/-- The text behind the part. -/
def behind : Frame → String
  | andLeft r => " AND " ++ r.text ++ ")"
  | orLeft r => " OR " ++ r.text ++ ")"
  | andRight _ | orRight _ | not => ")"

theorem text_fill (fr : Frame) (x : Expr) :
    (fr.fill x).text = fr.before ++ x.text ++ fr.behind := by
  cases fr <;> simp only [fill, Expr.text, before, behind, String.append_assoc]

/-- The nodes that come before those of the part: the root, and the nodes of a part further left. -/
def opening (fr : Frame) (x : Expr) : List Node :=
  ⟨[], fr.fill x⟩ :: match fr with
    | andRight l => l.nodes.map (Node.under (.andLeft x))
    | orRight l => l.nodes.map (Node.under (.orLeft x))
    | andLeft _ | orLeft _ | not => []

/-- The nodes that come after those of the part. -/
def closing (fr : Frame) (x : Expr) : List Node :=
  match fr with
  | andLeft r => r.nodes.map (Node.under (.andRight x))
  | orLeft r => r.nodes.map (Node.under (.orRight x))
  | andRight _ | orRight _ | not => []

theorem nodes_fill (fr : Frame) (x : Expr) :
    (fr.fill x).nodes = fr.opening x ++ x.nodes.map (Node.under fr) ++ fr.closing x := by
  cases fr <;> simp [fill, Expr.nodes, opening, closing]

/-- a node that comes before those of the part is none of them -/
theorem under_not_mem_opening (fr : Frame) (x : Expr) (n : Node) : n.under fr ∉ fr.opening x := by
  cases fr <;> simp [opening, Node.under]

end Frame

namespace Place

/-- The tree with another put in at a place. -/
def fill : Place → Expr → Expr
  | [], x => x
  | fr :: p, x => fr.fill (fill p x)

/-- The text in front of a place. -/
def before : Place → String
  | [] => ""
  | fr :: p => fr.before ++ before p

/-- The text behind a place. -/
def behind : Place → String
  | [] => ""
  | fr :: p => behind p ++ fr.behind

/-- Whatever stands at a place, the text around it is the same. -/
theorem text_fill (p : Place) (x : Expr) : (p.fill x).text = p.before ++ x.text ++ p.behind := by
  induction p with
  | nil => rw [fill, before, behind, String.empty_append, String.append_empty]
  | cons fr p ih =>
    rw [fill, before, behind, fr.text_fill, ih]
    simp only [String.append_assoc]

/-- The nodes that come before a place in pre-order. -/
def earlier : Place → Expr → List Node
  | [], _ => []
  | fr :: p, x => fr.opening (fill p x) ++ (earlier p x).map (Node.under fr)

theorem nodes_fill (p : Place) (x : Expr) :
    ∃ later, (p.fill x).nodes = p.earlier x ++ ⟨p, x⟩ :: later := by
  induction p with
  | nil => exact x.nodes_eq_cons
  | cons fr p ih =>
    obtain ⟨later, split⟩ := ih
    refine ⟨later.map (Node.under fr) ++ fr.closing (fill p x), ?_⟩
    rw [fill, fr.nodes_fill, split, earlier]
    simp [Node.under]

theorem not_mem_earlier (p : Place) (x : Expr) : ⟨p, x⟩ ∉ p.earlier x := by
  induction p with
  | nil => exact List.not_mem_nil
  | cons fr p ih =>
    intro mem
    rcases List.mem_append.mp mem with opening | deeper
    · exact fr.under_not_mem_opening _ ⟨p, x⟩ opening
    · obtain ⟨n, hn, same⟩ := List.mem_map.mp deeper
      obtain rfl : n = ⟨p, x⟩ := Node.under_inj same
      exact ih hn

/-- The node just above a place comes before it. -/
theorem exists_above (fr : Frame) (p : Place) (x : Expr) :
    ∃ n ∈ earlier (fr :: p) x, n.depth = p.length + 1 := by
  induction p generalizing fr with
  | nil => exact ⟨_, List.mem_append_left _ List.mem_cons_self, rfl⟩
  | cons inner p ih =>
    obtain ⟨n, mem, depth⟩ := ih inner
    refine ⟨n.under fr, List.mem_append_right _ (List.mem_map_of_mem mem), ?_⟩
    rw [Node.depth_under, depth, List.length_cons]

theorem length_le_of_above {p : Place} {x : Expr} {limit : Nat}
    (above : ∀ n ∈ p.earlier x, n.depth ≤ limit) : p.length ≤ limit := by
  cases p with
  | nil => exact Nat.zero_le _
  | cons fr p =>
    obtain ⟨n, mem, depth⟩ := exists_above fr p x
    rw [List.length_cons, ← depth]
    exact above n mem

end Place

namespace Expr

/-- **The nodes of a tree** are all the ways to fill a place so that the tree comes out. -/
theorem mem_nodes {e : Expr} {n : Node} : n ∈ e.nodes ↔ n.place.fill n.tree = e := by
  constructor
  · intro mem
    induction e generalizing n with
    | leaf p => rw [List.mem_singleton.mp mem]; rfl
    | and l r ihl ihr =>
      rcases List.mem_cons.mp mem with rfl | inner
      · rfl
      · rcases List.mem_append.mp inner with left | right
        · obtain ⟨m, hm, rfl⟩ := List.mem_map.mp left
          exact congrArg (and · r) (ihl hm)
        · obtain ⟨m, hm, rfl⟩ := List.mem_map.mp right
          exact congrArg (and l) (ihr hm)
    | or l r ihl ihr =>
      rcases List.mem_cons.mp mem with rfl | inner
      · rfl
      · rcases List.mem_append.mp inner with left | right
        · obtain ⟨m, hm, rfl⟩ := List.mem_map.mp left
          exact congrArg (or · r) (ihl hm)
        · obtain ⟨m, hm, rfl⟩ := List.mem_map.mp right
          exact congrArg (or l) (ihr hm)
    | not e ih =>
      rcases List.mem_cons.mp mem with rfl | inner
      · rfl
      · obtain ⟨m, hm, rfl⟩ := List.mem_map.mp inner
        exact congrArg not (ih hm)
  · rintro rfl
    obtain ⟨later, split⟩ := n.place.nodes_fill n.tree
    rw [split]
    exact List.mem_append_right _ List.mem_cons_self

/-- a node of a part, as a node of the whole -/
theorem under_mem_nodes {fr : Frame} {x : Expr} {n : Node} (h : n ∈ x.nodes) :
    n.under fr ∈ (fr.fill x).nodes := by
  rw [fr.nodes_fill]
  exact List.mem_append_left _ (List.mem_append_right _ (List.mem_map_of_mem h))

/-- A tree that is no leaf is one level deeper than one of its parts. -/
theorem depth_eq_part (e : Expr) :
    e.depth = 1 ∨ ∃ (fr : Frame) (x : Expr), fr.fill x = e ∧ e.depth = x.depth + 1 := by
  cases e with
  | leaf p => exact .inl rfl
  | and l r =>
    rcases Nat.le_total l.depth r.depth with shorter | shorter
    · exact .inr ⟨.andRight l, r, rfl, by rw [depth, Nat.max_eq_right shorter, Nat.add_comm]⟩
    · exact .inr ⟨.andLeft r, l, rfl, by rw [depth, Nat.max_eq_left shorter, Nat.add_comm]⟩
  | or l r =>
    rcases Nat.le_total l.depth r.depth with shorter | shorter
    · exact .inr ⟨.orRight l, r, rfl, by rw [depth, Nat.max_eq_right shorter, Nat.add_comm]⟩
    · exact .inr ⟨.orLeft r, l, rfl, by rw [depth, Nat.max_eq_left shorter, Nat.add_comm]⟩
  | not e => exact .inr ⟨.not, e, rfl, Nat.add_comm 1 _⟩

/-- Some node lies as deep as the tree is. -/
theorem exists_deepest (e : Expr) : ∃ n ∈ e.nodes, n.depth = e.depth := by
  induction h : e.depth generalizing e with
  | zero => exact absurd h (Nat.ne_of_gt e.depth_pos)
  | succ k ih =>
    rcases e.depth_eq_part with alone | ⟨fr, x, rfl, deeper⟩
    · obtain ⟨below, first⟩ := e.nodes_eq_cons
      exact ⟨⟨[], e⟩, first ▸ List.mem_cons_self, h ▸ alone.symm⟩
    · obtain ⟨n, mem, depth⟩ := ih x (by omega)
      exact ⟨n.under fr, under_mem_nodes mem, by rw [Node.depth_under, depth]⟩

/-- what stands in front of an element where it occurs first stands in front of it anywhere -/
theorem mem_front_of_eq {α : Type} {as bs cs ds : List α} {x y : α}
    (h : as ++ x :: bs = cs ++ x :: ds) (new : x ∉ cs) (hy : y ∈ cs) : y ∈ as := by
  rcases List.append_eq_append_iff.mp h with ⟨m, hm, rest⟩ | ⟨m, rfl, _⟩
  · cases m with
    | nil => rwa [hm, List.append_nil] at hy
    | cons z m =>
      obtain ⟨rfl, _⟩ := List.cons.inj rest
      exact absurd (hm ▸ List.mem_append_right as List.mem_cons_self) new
  · exact List.mem_append_left m hy

/-- **The first node below a limit lies just below it**, since the node above it comes before it.
There is one if the tree is deeper than the limit. -/
theorem exists_first_below {e : Expr} {limit : Nat} (deeper : limit < e.depth) :
    ∃ (p : Place) (x : Expr), p.fill x = e ∧ (Node.mk p x).depth = limit + 1 ∧
      ∀ n ∈ p.earlier x, n.depth ≤ limit := by
  obtain ⟨deepest, mem, depth⟩ := e.exists_deepest
  cases found : e.nodes.find? (fun n => limit < n.depth) with
  | none =>
    have within := List.find?_eq_none.mp found deepest mem
    simp only [decide_eq_true_eq] at within
    omega
  | some first =>
    obtain ⟨below, as, bs, split, within⟩ := List.find?_eq_some_iff_append.mp found
    obtain ⟨p, x⟩ := first
    have whole : p.fill x = e := mem_nodes.mp (split ▸ List.mem_append_right as List.mem_cons_self)
    obtain ⟨later, around⟩ := p.nodes_fill x
    rw [whole, split] at around
    have above : ∀ n ∈ p.earlier x, n.depth ≤ limit := by
      intro n hn
      simpa using within n (mem_front_of_eq around (p.not_mem_earlier x) hn)
    have near := Place.length_le_of_above above
    refine ⟨p, x, whole, ?_, above⟩
    have below : limit < p.length + 1 := of_decide_eq_true below
    show p.length + 1 = limit + 1
    omega

end Expr

end HqlWhere
