import HqlWhere.Expr

/-!
# Tearing a tree down

A node that is released takes its parts with it, so releasing a tree as it stands would go as deep
as the tree.  Instead every node is stripped before it is released: its composite parts are taken
away and put on a list of pending nodes, and leaves that mean nothing fill their places.  The
pending nodes are popped one by one, stripped in their turn and released.

* `Torn`         a tree in memory, where fillers may stand in place of parts;
* `detachParts`  strips a node, with its composite parts put on the list;
* `popAll`       the loop, and `total` the number of nodes by which it ends;
* `release`      all that is released together with a tree, if calls may nest only so deep.
-/

namespace HqlWhere

/-- A tree in memory.  Every node has the name of the box that it lies in; fillers are no nodes of
the tree and have none. -/
inductive Torn (ι : Type)
  | leaf (name : ι) (p : Predicate)
  /-- The leaf that fills the place of a part that was taken away: a condition that always holds, on a
  path without steps. -/
  | filler
  | and (name : ι) (left right : Torn ι)
  | or (name : ι) (left right : Torn ι)
  | not (name : ι) (inner : Torn ι)

namespace Torn

variable {ι : Type}

def name? : Torn ι → Option ι
  | leaf name _ | and name _ _ | or name _ _ | not name _ => some name
  | filler => none

/-- Whether a node joins others. -/
def isComposite : Torn ι → Bool
  | leaf _ _ | filler => false
  | and _ _ _ | or _ _ _ | not _ _ => true

def parts : Torn ι → List (Torn ι)
  | leaf _ _ | filler => []
  | and _ l r | or _ l r => [l, r]
  | not _ x => [x]

/-- Takes a composite part away.  Gives what stands in its place, and the pending nodes with the
part on top. -/
def detach (part : Torn ι) (pending : List (Torn ι)) : Torn ι × List (Torn ι) :=
  if part.isComposite then (filler, part :: pending) else (part, pending)

/-- Takes the composite ones of two parts away, the left one first; `node` joins what is left. -/
def detachPair (node : Torn ι → Torn ι → Torn ι) (l r : Torn ι) (pending : List (Torn ι)) :
    Torn ι × List (Torn ι) :=
  let (l, pending) := l.detach pending
  let (r, pending) := r.detach pending
  (node l r, pending)

/-- Takes the composite parts of a node away. -/
def detachParts (t : Torn ι) (pending : List (Torn ι)) : Torn ι × List (Torn ι) :=
  match t with
  | leaf name p => (leaf name p, pending)
  | filler => (filler, pending)
  | and name l r => detachPair (and name) l r pending
  | or name l r => detachPair (or name) l r pending
  | not name x =>
    let (x, pending) := x.detach pending
    (not name x, pending)

/-- The number of nodes, fillers among them. -/
def size : Torn ι → Nat
  | leaf _ _ | filler => 1
  | and _ l r | or _ l r => 1 + l.size + r.size
  | not _ x => 1 + x.size

/-- The number of nodes of all pending trees. -/
def total : List (Torn ι) → Nat
  | [] => 0
  | t :: pending => t.size + total pending

theorem total_detach (t : Torn ι) (pending : List (Torn ι)) :
    total (t.detach pending).2 ≤ t.size + total pending := by
  unfold detach
  split
  · exact Nat.le_refl _
  · exact Nat.le_add_left _ _

theorem total_detachPair (node : Torn ι → Torn ι → Torn ι) (l r : Torn ι)
    (pending : List (Torn ι)) :
    total (detachPair node l r pending).2 ≤ l.size + r.size + total pending := by
  have left := l.total_detach pending
  have right := r.total_detach (l.detach pending).2
  show total (r.detach (l.detach pending).2).2 ≤ _
  omega

/-- A node that is popped is no longer pending, and of its parts each at most once. -/
theorem total_detachParts (t : Torn ι) (pending : List (Torn ι)) :
    total (t.detachParts pending).2 < total (t :: pending) := by
  show _ < t.size + total pending
  cases t with
  | leaf name p => exact Nat.lt_add_of_pos_left Nat.one_pos
  | filler => exact Nat.lt_add_of_pos_left Nat.one_pos
  | and name l r =>
    have parts := total_detachPair (and name) l r pending
    simp only [detachParts, size]
    omega
  | or name l r =>
    have parts := total_detachPair (or name) l r pending
    simp only [detachParts, size]
    omega
  | not name x =>
    have part := x.total_detach pending
    simp only [detachParts, size]
    omega

/-- Pops the pending nodes from the top until there are none.  Gives the nodes in the order in which
they are popped, each as it stands when it is released. -/
def popAll (pending : List (Torn ι)) : List (Torn ι) :=
  match pending with
  | [] => []
  | t :: pending => (t.detachParts pending).1 :: popAll (t.detachParts pending).2
termination_by total pending
decreasing_by exact total_detachParts t pending

/-- A node that is released, as it stands then.  It is released on its own, or as a part of its
owner. -/
structure Release (ι : Type) where
  owner : Option ι
  node : Torn ι

/-- All that is released with a tree, in order, if calls may nest `levels` deep; `none` if that is not
deep enough.  The nodes that are popped are released by a call each, and so are, at last, the parts
that are left. -/
def release : Nat → Option ι → Torn ι → Option (List (Release ι))
  | 0, _, _ => none
  | levels + 1, owner, t => do
    let (node, pending) := t.detachParts []
    let popped ← (popAll pending).mapM (release levels none)
    let parts ← node.parts.mapM (release levels node.name?)
    pure (popped.flatten ++ parts.flatten ++ [⟨owner, node⟩])

end Torn

end HqlWhere
