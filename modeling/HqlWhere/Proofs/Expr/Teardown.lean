import HqlWhere.Proofs.Clause.Places
import HqlWhere.Proofs.Expr.Stripping
import Mathlib.Data.List.Forall2
import Mathlib.Data.List.Nodup

/-!
# The teardown of a tree

A tree is torn down by a loop, and nothing of it is forgotten or released twice.

* `Expr.boxed`              a tree in memory: the boxes are named for the places of its nodes;
* `Expr.nodup_places`       different nodes are at different places;
* `Expr.joints_boxed`, `Expr.leaves_boxed`   composite nodes and leaves in memory are those of the tree;
* `Expr.popAll_boxed`       the loop pops the composite nodes other than the root;
* `TornDown`                what it means that a tree is torn down completely;
* `Expr.teardown_complete`  every tree is.
-/

namespace HqlWhere

/-! ## trees in memory -/

/-- A tree in memory before it is torn down.  The boxes are named for the places of the nodes, and `p`
is the place of the root. -/
def Expr.boxed : Place → Expr → Torn Place
  | p, leaf q => .leaf p q
  | p, and l r => .and p (l.boxed (p ++ [.andLeft r])) (r.boxed (p ++ [.andRight l]))
  | p, or l r => .or p (l.boxed (p ++ [.orLeft r])) (r.boxed (p ++ [.orRight l]))
  | p, not e => .not p (e.boxed (p ++ [.not]))

namespace Node

/-- Whether a node joins others. -/
def isComposite (n : Node) : Bool := n.leaf?.isNone

/-- A node in memory, of a tree at the place `p`. -/
def boxed (p : Place) (n : Node) : Torn Place := n.tree.boxed (p ++ n.place)

/-- A leaf with the place of the node above it and its own, in a tree at the place `p` with the node
`owner` above. -/
def leafPart? (owner : Option Place) (p : Place) (n : Node) :
    Option (Option Place × Place × Predicate) :=
  n.leaf?.map fun q => (if n.place = [] then owner else some (p ++ n.place.dropLast), p ++ n.place, q)

theorem boxed_under (p : Place) (fr : Frame) (n : Node) :
    (n.under fr).boxed p = n.boxed (p ++ [fr]) := by
  rw [boxed, boxed, List.append_assoc]
  rfl

theorem leafPart?_under (owner : Option Place) (p : Place) (fr : Frame) (n : Node) :
    (n.under fr).leafPart? owner p = n.leafPart? (some p) (p ++ [fr]) := by
  obtain ⟨place, x⟩ := n
  cases place with
  | nil => simp [leafPart?, under, leaf?]
  | cons inner place => simp [leafPart?, under, leaf?]

theorem boxed_root (p : Place) (e : Expr) : (Node.mk [] e).boxed p = e.boxed p := by
  rw [boxed, List.append_nil]

theorem isComposite_boxed (p : Place) (n : Node) : (n.boxed p).isComposite = n.isComposite := by
  obtain ⟨place, x⟩ := n
  cases x <;> rfl

/-- The composite nodes of a part as nodes of the whole. -/
theorem boxed_filter_under (p : Place) (fr : Frame) (ns : List Node) :
    ((ns.map (under fr)).filter isComposite).map (boxed p)
      = (ns.filter isComposite).map (boxed (p ++ [fr])) := by
  rw [List.filter_map, List.map_map]
  exact congrArg (List.map · _) (funext fun n => boxed_under p fr n)

theorem filterMap_leafPart?_under (owner : Option Place) (p : Place) (fr : Frame) (ns : List Node) :
    (ns.map (under fr)).filterMap (leafPart? owner p)
      = ns.filterMap (leafPart? (some p) (p ++ [fr])) := by
  rw [List.filterMap_map]
  exact congrArg (List.filterMap · ns) (funext fun n => leafPart?_under owner p fr n)

end Node

namespace Expr

theorem name?_boxed (p : Place) (e : Expr) : (e.boxed p).name? = some p := by cases e <;> rfl

theorem boxed_ne_filler (p : Place) (e : Expr) : e.boxed p ≠ .filler := by cases e <;> nofun

theorem parts_boxed {p : Place} {e : Expr} {part : Torn Place} (h : part ∈ (e.boxed p).parts) :
    part ≠ .filler := by
  cases e with
  | leaf q => cases h
  | and l r =>
    rcases List.mem_pair.mp h with rfl | rfl
    · exact l.boxed_ne_filler _
    · exact r.boxed_ne_filler _
  | or l r =>
    rcases List.mem_pair.mp h with rfl | rfl
    · exact l.boxed_ne_filler _
    · exact r.boxed_ne_filler _
  | not e =>
    rw [List.mem_singleton.mp h]
    exact e.boxed_ne_filler _

/-- Places under two different nodes are different. -/
theorem nodup_under {left right : Frame} (differ : left ≠ right) {ls rs : List Place}
    (hl : ls.Nodup) (hr : rs.Nodup) :
    ([] :: (ls.map (left :: ·) ++ rs.map (right :: ·))).Nodup := by
  have apart (fr : Frame) {ps : List Place} (h : ps.Nodup) : (ps.map (fr :: ·)).Nodup :=
    h.map fun _ _ same => (List.cons.inj same).2
  refine List.nodup_cons.mpr ⟨by simp, List.nodup_append.mpr ⟨apart left hl, apart right hr, ?_⟩⟩
  rintro _ first _ second rfl
  obtain ⟨_, _, rfl⟩ := List.mem_map.mp first
  obtain ⟨_, _, same⟩ := List.mem_map.mp second
  exact differ (List.cons.inj same).1.symm

/-- **No two nodes of a tree are at one place.** -/
theorem nodup_places (e : Expr) : (e.nodes.map Node.place).Nodup := by
  have under (fr : Frame) (ns : List Node) :
      (ns.map (Node.under fr)).map Node.place = (ns.map Node.place).map (fr :: ·) := by
    rw [List.map_map, List.map_map]
    rfl
  induction e with
  | leaf q => exact List.nodup_singleton _
  | and l r ihl ihr =>
    rw [nodes, List.map_cons, List.map_append, under, under]
    have differ : Frame.andLeft r ≠ Frame.andRight l := by simp
    exact nodup_under differ ihl ihr
  | or l r ihl ihr =>
    rw [nodes, List.map_cons, List.map_append, under, under]
    have differ : Frame.orLeft r ≠ Frame.orRight l := by simp
    exact nodup_under differ ihl ihr
  | not e ih =>
    rw [nodes, List.map_cons, under, List.nodup_cons]
    exact ⟨by simp, ih.map fun _ _ same => (List.cons.inj same).2⟩

/-- **The composite nodes of a tree in memory** are the composite nodes of the tree. -/
theorem joints_boxed (p : Place) (e : Expr) :
    (e.boxed p).joints.Perm ((e.nodes.filter Node.isComposite).map (Node.boxed p)) := by
  induction e generalizing p with
  | leaf q => exact .nil
  | and l r ihl ihr =>
    rw [nodes, List.filter_cons_of_pos rfl, List.filter_append, List.map_cons, List.map_append,
      Node.boxed_filter_under, Node.boxed_filter_under, Node.boxed_root]
    exact .cons _ (List.perm_append_comm.trans ((ihl _).append (ihr _)))
  | or l r ihl ihr =>
    rw [nodes, List.filter_cons_of_pos rfl, List.filter_append, List.map_cons, List.map_append,
      Node.boxed_filter_under, Node.boxed_filter_under, Node.boxed_root]
    exact .cons _ (List.perm_append_comm.trans ((ihl _).append (ihr _)))
  | not e ih =>
    rw [nodes, List.filter_cons_of_pos rfl, List.map_cons, Node.boxed_filter_under, Node.boxed_root]
    exact .cons _ (ih _)

/-- What is there of two parts and then below them, the last one first, is there of one part and then
of the other. -/
theorem perm_parts {α : Type} {a b c d l r : List α} (left : (a ++ c).Perm l)
    (right : (b ++ d).Perm r) : ((a ++ b) ++ (d ++ c)).Perm (l ++ r) := by
  have swap : (a ++ ((b ++ d) ++ c)).Perm (a ++ (c ++ (b ++ d))) :=
    List.perm_append_comm.append_left a
  have both := left.append right
  simp only [List.append_assoc] at swap both ⊢
  exact swap.trans both

/-- **The leaves of a tree in memory** are the leaves of the tree. -/
theorem leaves_boxed (owner : Option Place) (p : Place) (e : Expr) :
    ((Torn.Release.leaf? ⟨owner, e.boxed p⟩).toList ++ (e.boxed p).joints.flatMap Torn.leafParts).Perm
      (e.nodes.filterMap (Node.leafPart? owner p)) := by
  -- A part is released by its owner, the node above it, so the owner goes down with the place.
  induction e generalizing owner p with
  | leaf q =>
    have root : Node.leafPart? owner p ⟨[], leaf q⟩ = some (owner, p, q) := by
      simp [Node.leafPart?, Node.leaf?, leaf?]
    rw [nodes, List.filterMap_cons_some root]
    exact .refl _
  | and l r ihl ihr =>
    rw [nodes, List.filterMap_cons_none rfl, List.filterMap_append, Node.filterMap_leafPart?_under,
      Node.filterMap_leafPart?_under, boxed, Torn.joints, List.flatMap_cons, List.flatMap_append,
      Torn.leafParts_eq, Torn.parts, List.flatMap_cons, List.flatMap_singleton]
    exact perm_parts (ihl _ _) (ihr _ _)
  | or l r ihl ihr =>
    rw [nodes, List.filterMap_cons_none rfl, List.filterMap_append, Node.filterMap_leafPart?_under,
      Node.filterMap_leafPart?_under, boxed, Torn.joints, List.flatMap_cons, List.flatMap_append,
      Torn.leafParts_eq, Torn.parts, List.flatMap_cons, List.flatMap_singleton]
    exact perm_parts (ihl _ _) (ihr _ _)
  | not e ih =>
    rw [nodes, List.filterMap_cons_none rfl, Node.filterMap_leafPart?_under, boxed, Torn.joints,
      List.flatMap_cons, Torn.leafParts_eq, Torn.parts, List.flatMap_singleton]
    exact ih _ _

/-! ## the teardown of a tree -/

/-- The composite nodes other than the root. -/
def inner (e : Expr) : List Node := e.nodes.tail.filter Node.isComposite

/-- The composite nodes that are pending or below a pending one, when the root has been stripped. -/
theorem joints_taken_boxed (e : Expr) :
    ((e.boxed []).taken.flatMap Torn.joints).Perm (e.inner.map (Node.boxed [])) := by
  have all := e.joints_boxed []
  obtain ⟨below, nodes⟩ := e.nodes_eq_cons
  rw [inner, nodes, List.tail_cons]
  rw [nodes] at all
  have root := Node.isComposite_boxed [] ⟨[], e⟩
  rw [Node.boxed_root] at root
  cases composite : (e.boxed []).isComposite with
  | true =>
    rw [composite] at root
    rw [Torn.joints_eq composite, List.filter_cons_of_pos root.symm, List.map_cons,
      Node.boxed_root] at all
    exact all.cons_inv
  | false =>
    rw [composite] at root
    rw [Torn.joints_of_leaf composite, List.filter_cons_of_neg (by simp [← root])] at all
    rw [Torn.taken_eq_nil (by simp [Torn.parts_eq_nil composite])]
    exact all

theorem inner_sublist (e : Expr) : e.inner.Sublist e.nodes :=
  List.filter_sublist.trans (List.tail_sublist _)

theorem leaf_places_sublist (owner : Option Place) (ns : List Node) :
    ((ns.filterMap (Node.leafPart? owner [])).map (·.2.1)).Sublist (ns.map Node.place) := by
  induction ns with
  | nil => exact .slnil
  | cons n ns ih =>
    cases leaf : n.leafPart? owner [] with
    | none =>
      rw [List.filterMap_cons_none leaf]
      exact .cons _ ih
    | some part =>
      obtain ⟨q, _, rfl⟩ := Option.map_eq_some_iff.mp leaf
      rw [List.filterMap_cons_some leaf]
      exact .cons_cons _ ih

/-- The nodes that are popped are the composite nodes other than the root, stripped. -/
theorem popAll_boxed (e : Expr) :
    (Torn.popAll (e.boxed []).taken).Perm (e.inner.map fun n => (n.boxed []).shell) := by
  rw [Torn.popAll_taken]
  have joints := e.joints_taken_boxed.map Torn.shell
  rwa [List.map_map] at joints

theorem names_popAll_boxed (e : Expr) :
    ((Torn.popAll (e.boxed []).taken).map Torn.name?).Perm (e.inner.map fun n => some n.place) := by
  have named := e.popAll_boxed.map Torn.name?
  rw [List.map_map] at named
  simpa [Function.comp_def, Torn.name?_shell, Node.boxed, name?_boxed] using named

theorem nodup_inner_places (e : Expr) : (e.inner.map fun n => some n.place).Nodup := by
  have places := (e.nodup_places.sublist (e.inner_sublist.map _)).map fun _ _ => Option.some.inj
  rwa [List.map_map] at places

/-- The root and all nodes that are popped are nodes of the tree, stripped. -/
theorem exists_eq_shell {e : Expr} {t : Torn Place}
    (h : t ∈ (e.boxed []).shell :: Torn.popAll (e.boxed []).taken) :
    ∃ n ∈ e.nodes, t = (n.boxed []).shell := by
  rcases List.mem_cons.mp h with rfl | popped
  · obtain ⟨below, nodes⟩ := e.nodes_eq_cons
    exact ⟨⟨[], e⟩, nodes ▸ List.mem_cons_self, by rw [Node.boxed_root]⟩
  · obtain ⟨n, mem, rfl⟩ := List.mem_map.mp (e.popAll_boxed.mem_iff.mp popped)
    exact ⟨n, e.inner_sublist.subset mem, rfl⟩

/-- A node that is stripped has the place of the node in the tree, and each part stands or is
covered. -/
theorem stands_shell (n : Node) : (n.boxed []).shell.name? = some n.place ∧
    List.Forall₂ Torn.Stands (n.boxed []).parts (n.boxed []).shell.parts := by
  constructor
  · rw [Torn.name?_shell, Node.boxed, name?_boxed, List.nil_append]
  · rw [Torn.parts_shell, List.forall₂_map_right_iff, List.forall₂_same]
    exact fun part mem => Torn.stands_covered (parts_boxed mem)

end Expr

/-- A tree that is torn down completely: `root` is the root when it has been stripped, `popped` are the
nodes that are popped, and `released` is all that is released. -/
structure TornDown (e : Expr) (root : Torn Place) (popped : List (Torn Place))
    (released : List (Torn.Release Place)) : Prop where
  /-- There are as many pops as composite nodes other than the root. -/
  length : popped.length = e.inner.length
  /-- Each of these nodes is popped. -/
  names : (popped.map Torn.name?).Perm (e.inner.map fun n => some n.place)
  /-- None is popped twice. -/
  nodup : (popped.map Torn.name?).Nodup
  /-- When a node is released its parts are leaves. -/
  leaves : ∀ t ∈ root :: popped, ∀ part ∈ t.parts, part.isComposite = false
  /-- It is released by one call, in which there is one for each part. -/
  nested : ∀ t ∈ root :: popped, ∀ owner,
    Torn.release 2 owner t = some (Torn.releasedAlone owner t)
  /-- Nodes are released in the order of the pops, the root last. -/
  order : released = popped.flatMap (Torn.releasedAlone none) ++ Torn.releasedAlone none root
  /-- The parts of a node are those that it had in the tree, with fillers for the composite ones. -/
  fillers : ∀ t ∈ root :: popped, ∃ n ∈ e.nodes,
    t.name? = some n.place ∧ List.Forall₂ Torn.Stands (n.boxed []).parts t.parts
  /-- The leaves of the tree are released as parts of the nodes above them. -/
  owned : (released.filterMap Torn.Release.leaf?).Perm
    (e.nodes.filterMap (Node.leafPart? none []))
  /-- No leaf is released twice. -/
  once : ((released.filterMap Torn.Release.leaf?).map (·.2.1)).Nodup

namespace Expr

/-- **A tree is torn down completely and without deep recursion.**  The loop ends.  It pops every
composite node but the root, each once, and so as often as there are such nodes.  When a node is
released, its leaves stand as they stood in the tree and fillers stand where composite parts were, so
that its release goes no deeper than to its parts.  Every leaf is released once, as a part of the node
that it had above it in the tree.  The whole tree is released by calls that nest three times, however
deep it is. -/
theorem teardown_complete (e : Expr) :
    ∃ released, Torn.release 3 none (e.boxed []) = some released ∧
      TornDown e ((e.boxed []).detachParts []).1 (Torn.popAll ((e.boxed []).detachParts []).2)
        released := by
  refine ⟨_, Torn.release_eq none (e.boxed []), ?_⟩
  rw [Torn.detachParts_eq, List.append_nil]
  dsimp only
  have leaves : ∀ t ∈ (e.boxed []).shell :: Torn.popAll (e.boxed []).taken,
      ∀ part ∈ t.parts, part.isComposite = false := by
    intro t mem part h
    obtain ⟨n, _, rfl⟩ := exists_eq_shell mem
    exact Torn.isComposite_of_mem_parts_shell h
  have owned := (Torn.filterMap_releasedAll none (e.boxed [])).trans (e.leaves_boxed none [])
  constructor
  · rw [e.popAll_boxed.length_eq, List.length_map]
  · exact e.names_popAll_boxed
  · exact e.names_popAll_boxed.nodup_iff.mpr e.nodup_inner_places
  · exact leaves
  · exact fun t mem owner => Torn.release_alone (leaves t mem)
  · rfl
  · intro t mem
    obtain ⟨n, hn, rfl⟩ := exists_eq_shell mem
    exact ⟨n, hn, stands_shell n⟩
  · exact owned
  · exact (owned.map _).nodup_iff.mpr (e.nodup_places.sublist (leaf_places_sublist none e.nodes))

/-- Three composite nodes are popped, on both sides and below one another; the leaves have three
different owners. -/
theorem teardown_of_ages :
    let age (op : Operator) : Predicate := ⟨⟨["age"], by decide, by decide⟩, op, [.int 5]⟩
    let high : Expr := .and (.leaf (age .gt)) (.not (.leaf (age .notNull)))
    let low : Expr := .not (.leaf (age .lt))
    let e : Expr := .or low high
    (Torn.popAll ((e.boxed []).detachParts []).2).length = 3 ∧
      ∃ released, Torn.release 3 none (e.boxed []) = some released ∧
        (released.filterMap Torn.Release.leaf?).Perm
          [(some [.orLeft high], [.orLeft high, .not], age .lt),
            (some [.orRight low], [.orRight low, .andLeft (.not (.leaf (age .notNull)))], age .gt),
            (some [.orRight low, .andRight (.leaf (age .gt))],
              [.orRight low, .andRight (.leaf (age .gt)), .not], age .notNull)] := by
  intro age high low e
  obtain ⟨released, found, complete⟩ := teardown_complete e
  exact ⟨complete.length, released, found, complete.owned⟩

end Expr

end HqlWhere
