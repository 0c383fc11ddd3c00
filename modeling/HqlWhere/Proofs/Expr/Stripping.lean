import HqlWhere.Expr.Teardown
import Mathlib.Data.List.Basic

/-!
# Stripping and releasing

What one pop does to a node and to the pending ones, what the loop does in the end, and what is
released.  A node is stripped before it is released, so a release never comes to a deep node.

* `Torn.detachParts_eq`     a node that is stripped, and the parts that are taken away from it;
* `Torn.joints_eq`          one pop: which composite nodes are pending or below a pending one then;
* `Torn.popAll_eq`          the whole loop pops all of these, and nothing else;
* `Torn.release_alone`      a node whose parts are leaves is released by calls that nest twice;
* `Torn.release_eq`         any tree is released by calls that nest three times;
* `Torn.filterMap_releasedAll`   the leaves among what is released.
-/

namespace HqlWhere

namespace Torn

variable {ι : Type}

/-! ## a node that is stripped -/

/-- What stands in place of a part when its node has been stripped. -/
def covered (part : Torn ι) : Torn ι := if part.isComposite then filler else part

/-- A node that has been stripped. -/
def shell : Torn ι → Torn ι
  | leaf name p => leaf name p
  | filler => filler
  | and name l r => and name l.covered r.covered
  | or name l r => or name l.covered r.covered
  | not name x => not name x.covered

/-- The parts that are taken away, the last one first. -/
def taken (t : Torn ι) : List (Torn ι) := (t.parts.filter isComposite).reverse

section
variable {t : Torn ι}

theorem detach_eq (t : Torn ι) (pending : List (Torn ι)) :
    t.detach pending = (t.covered, [t].filter isComposite ++ pending) := by
  unfold detach covered
  cases composite : t.isComposite <;> simp [composite]

theorem detachPair_eq (node : Torn ι → Torn ι → Torn ι) (l r : Torn ι) (pending : List (Torn ι)) :
    detachPair node l r pending
      = (node l.covered r.covered, ([l, r].filter isComposite).reverse ++ pending) := by
  have order : ([l, r].filter isComposite).reverse
      = [r].filter isComposite ++ [l].filter isComposite := by
    cases left : l.isComposite <;> cases right : r.isComposite <;> simp [left, right]
  simp only [detachPair, detach_eq, order, List.append_assoc]

/-- **Stripping a node** takes its composite parts away and covers their places. -/
theorem detachParts_eq (t : Torn ι) (pending : List (Torn ι)) :
    t.detachParts pending = (t.shell, t.taken ++ pending) := by
  cases t with
  | leaf name p => rfl
  | filler => rfl
  | and name l r => exact detachPair_eq (and name) l r pending
  | or name l r => exact detachPair_eq (or name) l r pending
  | not name x =>
    rw [detachParts, detach_eq]
    cases composite : x.isComposite <;> simp [taken, parts, shell, composite]

theorem isComposite_covered (t : Torn ι) : t.covered.isComposite = false := by
  unfold covered
  cases composite : t.isComposite with
  | true => rfl
  | false => exact composite

theorem covered_eq_self (h : t.isComposite = false) : t.covered = t := by
  rw [covered, h]
  rfl

theorem parts_shell (t : Torn ι) : t.shell.parts = t.parts.map covered := by cases t <;> rfl

theorem name?_shell (t : Torn ι) : t.shell.name? = t.name? := by cases t <;> rfl

/-- The parts of a stripped node are leaves. -/
theorem isComposite_of_mem_parts_shell {part : Torn ι} (h : part ∈ t.shell.parts) :
    part.isComposite = false := by
  rw [parts_shell] at h
  obtain ⟨before, _, rfl⟩ := List.mem_map.mp h
  exact before.isComposite_covered

theorem parts_eq_nil (h : t.isComposite = false) : t.parts = [] := by
  cases t <;> first | rfl | cases h

/-- Where the parts are leaves there is nothing to strip. -/
theorem shell_eq_self (h : ∀ part ∈ t.parts, part.isComposite = false) : t.shell = t := by
  cases t with
  | leaf name p => rfl
  | filler => rfl
  | and name l r =>
    rw [shell, covered_eq_self (h l (by simp [parts])), covered_eq_self (h r (by simp [parts]))]
  | or name l r =>
    rw [shell, covered_eq_self (h l (by simp [parts])), covered_eq_self (h r (by simp [parts]))]
  | not name x => rw [shell, covered_eq_self (h x (by simp [parts]))]

theorem taken_eq_nil (h : ∀ part ∈ t.parts, part.isComposite = false) : t.taken = [] := by
  have none : t.parts.filter isComposite = [] :=
    List.filter_eq_nil_iff.mpr fun part mem => by simp [h part mem]
  rw [taken, none]
  rfl

theorem isComposite_of_mem_taken {part : Torn ι} (h : part ∈ t.taken) : part.isComposite = true :=
  (List.mem_filter.mp (List.mem_reverse.mp h)).2

end

/-- What stands in place of a part when its node is released. -/
inductive Stands : Torn ι → Torn ι → Prop
  | taken {part : Torn ι} (composite : part.isComposite = true) : Stands part filler
  | kept (name : ι) (p : Predicate) : Stands (leaf name p) (leaf name p)

theorem stands_covered {part : Torn ι} (h : part ≠ filler) : Stands part part.covered := by
  cases part with
  | leaf name p => exact .kept name p
  | filler => exact absurd rfl h
  | and name l r => exact .taken rfl
  | or name l r => exact .taken rfl
  | not name x => exact .taken rfl

/-! ## the loop -/

/-- The composite nodes of a tree, each in front of those of its parts, the last part first. -/
def joints : Torn ι → List (Torn ι)
  | leaf _ _ | filler => []
  | and name l r => and name l r :: (r.joints ++ l.joints)
  | or name l r => or name l r :: (r.joints ++ l.joints)
  | not name x => not name x :: x.joints

theorem joints_of_leaf {t : Torn ι} (h : t.isComposite = false) : t.joints = [] := by
  cases t <;> first | rfl | cases h

theorem flatMap_joints_filter (ts : List (Torn ι)) :
    (ts.filter isComposite).flatMap joints = ts.flatMap joints := by
  induction ts with
  | nil => rfl
  | cons t ts ih =>
    cases composite : t.isComposite with
    | true => rw [List.filter_cons_of_pos composite, List.flatMap_cons, ih, List.flatMap_cons]
    | false =>
      rw [List.filter_cons_of_neg (by simp [composite]), ih, List.flatMap_cons,
        joints_of_leaf composite, List.nil_append]

theorem flatMap_joints_taken (t : Torn ι) :
    t.taken.flatMap joints = t.parts.reverse.flatMap joints := by
  rw [taken, ← List.filter_reverse, flatMap_joints_filter]

/-- **One pop**: of the composite nodes of a tree, its root is popped, and those of the parts that are
taken away are pending. -/
theorem joints_eq {t : Torn ι} (h : t.isComposite = true) :
    t.joints = t :: t.taken.flatMap joints := by
  rw [flatMap_joints_taken]
  cases t with
  | leaf name p => cases h
  | filler => cases h
  | and name l r => simp [joints, parts]
  | or name l r => simp [joints, parts]
  | not name x => simp [joints, parts]

theorem popAll_cons (t : Torn ι) (pending : List (Torn ι)) :
    popAll (t :: pending) = t.shell :: popAll (t.taken ++ pending) := by
  rw [popAll, detachParts_eq]

/-- **The whole loop**: the composite nodes of all pending trees are popped, and no others, as long as
only composite nodes are pending. -/
theorem popAll_eq (pending : List (Torn ι)) (composite : ∀ t ∈ pending, t.isComposite = true) :
    popAll pending = (pending.flatMap joints).map shell := by
  induction pending using popAll.induct with
  | case1 => rw [popAll]; rfl
  | case2 t pending ih =>
    -- What is taken away from a node is composite, so no leaf is ever pending.
    obtain ⟨first, others⟩ := List.forall_mem_cons.mp composite
    rw [detachParts_eq] at ih
    have taken : ∀ x ∈ t.taken ++ pending, x.isComposite = true :=
      List.forall_mem_append.mpr ⟨fun _ => isComposite_of_mem_taken, others⟩
    rw [popAll_cons, ih taken, List.flatMap_cons, List.flatMap_append, joints_eq first]
    rfl

/-! ## releasing -/

theorem mapM_eq_some {α β : Type} {f : α → Option β} {g : α → β} {l : List α}
    (h : ∀ a ∈ l, f a = some (g a)) : l.mapM f = some (l.map g) := by
  induction l with
  | nil => rfl
  | cons a l ih =>
    obtain ⟨first, rest⟩ := List.forall_mem_cons.mp h
    rw [List.mapM_cons, first, ih rest]
    rfl

section
variable {levels : Nat} {owner : Option ι} {t : Torn ι}

/-- If all calls that a release makes come to their ends, so does it. -/
theorem release_of (popped parts : Torn ι → List (Release ι))
    (hpopped : ∀ s ∈ popAll t.taken, release levels none s = some (popped s))
    (hparts : ∀ s ∈ t.shell.parts, release levels t.name? s = some (parts s)) :
    release (levels + 1) owner t = some ((popAll t.taken).flatMap popped ++
      t.shell.parts.flatMap parts ++ [⟨owner, t.shell⟩]) := by
  rw [release, detachParts_eq, List.append_nil]
  dsimp only
  rw [name?_shell, mapM_eq_some hpopped, mapM_eq_some hparts]
  rfl

/-- Nothing is popped for a node whose parts are leaves. -/
theorem release_of_leaves (parts : Torn ι → List (Release ι))
    (leaves : ∀ part ∈ t.parts, part.isComposite = false)
    (hparts : ∀ s ∈ t.parts, release levels t.name? s = some (parts s)) :
    release (levels + 1) owner t = some (t.parts.flatMap parts ++ [⟨owner, t⟩]) := by
  have none : popAll t.taken = [] := by rw [taken_eq_nil leaves, popAll]
  have hpopped : ∀ s ∈ popAll t.taken, release levels Option.none s = some [] := by
    rw [none]
    exact List.forall_mem_nil _
  rw [← shell_eq_self leaves] at hparts
  rw [release_of (fun _ => []) parts hpopped (by rwa [name?_shell] at hparts), none,
    shell_eq_self leaves]
  rfl

/-- A leaf is released by one call. -/
theorem release_leaf (h : t.isComposite = false) :
    release (levels + 1) owner t = some [⟨owner, t⟩] := by
  have none := parts_eq_nil h
  have leaves : ∀ part ∈ t.parts, part.isComposite = false := none ▸ List.forall_mem_nil _
  have hparts : ∀ s ∈ t.parts, release levels t.name? s = some [] := none ▸ List.forall_mem_nil _
  rw [release_of_leaves (fun _ => []) leaves hparts, none]
  rfl

/-- What is released with a node whose parts are leaves: these, and then the node. -/
def releasedAlone (owner : Option ι) (t : Torn ι) : List (Release ι) :=
  t.parts.map (⟨t.name?, ·⟩) ++ [⟨owner, t⟩]

/-- **A node whose parts are leaves is released by calls that nest twice**: one for the node, and in
it one for each part. -/
theorem release_alone (leaves : ∀ part ∈ t.parts, part.isComposite = false) :
    release (levels + 2) owner t = some (releasedAlone owner t) := by
  have parts : ∀ s ∈ t.parts, release (levels + 1) t.name? s = some [⟨t.name?, s⟩] :=
    fun s mem => release_leaf (leaves s mem)
  rw [release_of_leaves (fun s => [⟨t.name?, s⟩]) leaves parts, releasedAlone, List.map_eq_flatMap]

theorem leaves_of_mem_popAll {pending : List (Torn ι)}
    (composite : ∀ t ∈ pending, t.isComposite = true) {s : Torn ι} (h : s ∈ popAll pending) :
    ∀ part ∈ s.parts, part.isComposite = false := by
  rw [popAll_eq pending composite] at h
  obtain ⟨before, _, rfl⟩ := List.mem_map.mp h
  exact fun part mem => isComposite_of_mem_parts_shell mem

/-- All that is released with a tree, in order. -/
def releasedAll (owner : Option ι) (t : Torn ι) : List (Release ι) :=
  (popAll t.taken).flatMap (releasedAlone none) ++ releasedAlone owner t.shell

/-- **A tree of any depth is released by calls that nest three times**: one for the root, in it one
for each node that is popped, and in that one for each leaf. -/
theorem release_eq (owner : Option ι) (t : Torn ι) :
    release (levels + 3) owner t = some (releasedAll owner t) := by
  have popped : ∀ s ∈ popAll t.taken, release (levels + 2) none s = some (releasedAlone none s) :=
    fun s mem => release_alone (leaves_of_mem_popAll (fun _ => isComposite_of_mem_taken) mem)
  have parts : ∀ s ∈ t.shell.parts, release (levels + 2) t.name? s = some [⟨t.name?, s⟩] :=
    fun s mem => release_leaf (isComposite_of_mem_parts_shell mem)
  rw [release_of (releasedAlone none) (fun s => [⟨t.name?, s⟩]) popped parts, List.append_assoc,
    releasedAll, releasedAlone, List.map_eq_flatMap, name?_shell]

end

/-! ## leaves with their owners -/

/-- The leaf that is released, with its owner and its name. -/
def Release.leaf? : Release ι → Option (Option ι × ι × Predicate)
  | ⟨owner, leaf name p⟩ => some (owner, name, p)
  | _ => none

/-- The leaves among the parts of a node. -/
def leafParts (t : Torn ι) : List (Option ι × ι × Predicate) :=
  t.parts.filterMap fun part => Release.leaf? ⟨t.name?, part⟩

theorem leafParts_eq (t : Torn ι) :
    t.leafParts = t.parts.flatMap fun part => (Release.leaf? ⟨t.name?, part⟩).toList :=
  List.filterMap_eq_flatMap_toList _ _

theorem leaf?_eq_none {owner : Option ι} {t : Torn ι} (h : t.isComposite = true) :
    Release.leaf? ⟨owner, t⟩ = none := by
  cases t <;> first | rfl | cases h

theorem leaf?_covered (owner : Option ι) (t : Torn ι) :
    Release.leaf? ⟨owner, t.covered⟩ = Release.leaf? ⟨owner, t⟩ := by
  unfold covered
  split
  next composite => exact (leaf?_eq_none composite).symm
  next => rfl

/-- Stripping a node takes no leaf of it away and adds none. -/
theorem leafParts_shell (t : Torn ι) : t.shell.leafParts = t.leafParts := by
  rw [leafParts, parts_shell, name?_shell, List.filterMap_map, leafParts]
  exact congrArg (List.filterMap · t.parts) (funext fun part => leaf?_covered _ part)

theorem isComposite_shell (t : Torn ι) : t.shell.isComposite = t.isComposite := by cases t <;> rfl

/-- Of what is released with a composite node, the leaves are its parts. -/
theorem filterMap_releasedAlone {owner : Option ι} {t : Torn ι} (h : t.isComposite = true) :
    (releasedAlone owner t).filterMap Release.leaf? = t.leafParts := by
  rw [releasedAlone, List.filterMap_append, List.filterMap_map,
    List.filterMap_cons_none (leaf?_eq_none h)]
  exact List.append_nil _

theorem popAll_taken (t : Torn ι) : popAll t.taken = (t.taken.flatMap joints).map shell :=
  popAll_eq t.taken fun _ => isComposite_of_mem_taken

theorem isComposite_of_mem_joints {t s : Torn ι} (h : s ∈ t.joints) : s.isComposite = true := by
  induction t with
  | leaf name p => cases h
  | filler => cases h
  | and name l r ihl ihr =>
    rcases List.mem_cons.mp h with rfl | h
    · rfl
    · exact (List.mem_append.mp h).elim ihr ihl
  | or name l r ihl ihr =>
    rcases List.mem_cons.mp h with rfl | h
    · rfl
    · exact (List.mem_append.mp h).elim ihr ihl
  | not name x ih =>
    rcases List.mem_cons.mp h with rfl | h
    · rfl
    · exact ih h

/-- The leaves that are popped nodes' parts are those of the composite nodes below the root. -/
theorem filterMap_popped (t : Torn ι) :
    ((popAll t.taken).flatMap (releasedAlone none)).filterMap Release.leaf?
      = (t.taken.flatMap joints).flatMap leafParts := by
  rw [popAll_taken, List.filterMap_flatMap, List.flatMap_map]
  refine List.flatMap_congr fun s mem => ?_
  obtain ⟨part, _, joint⟩ := List.mem_flatMap.mp mem
  have composite : s.shell.isComposite = true := by
    rw [isComposite_shell]
    exact isComposite_of_mem_joints joint
  rw [filterMap_releasedAlone composite, leafParts_shell]

/-- **Every leaf is released as a part of its node**, and a lone leaf on its own. -/
theorem filterMap_releasedAll (owner : Option ι) (t : Torn ι) :
    ((releasedAll owner t).filterMap Release.leaf?).Perm
      ((Release.leaf? ⟨owner, t⟩).toList ++ t.joints.flatMap leafParts) := by
  rw [releasedAll, List.filterMap_append, filterMap_popped]
  cases composite : t.isComposite with
  | true =>
    have root : t.shell.isComposite = true := by rw [isComposite_shell, composite]
    -- The root is released behind the nodes that are popped, but stands in front of them in the tree.
    rw [filterMap_releasedAlone root, leafParts_shell, leaf?_eq_none composite, joints_eq composite,
      List.flatMap_cons]
    exact List.perm_append_comm
  | false =>
    have none : ∀ part ∈ t.parts, part.isComposite = false := by
      rw [parts_eq_nil composite]
      exact List.forall_mem_nil _
    rw [taken_eq_nil none, shell_eq_self none, joints_of_leaf composite, releasedAlone,
      parts_eq_nil composite]
    cases alone : Release.leaf? ⟨owner, t⟩ <;> simp [alone]

end Torn

end HqlWhere
