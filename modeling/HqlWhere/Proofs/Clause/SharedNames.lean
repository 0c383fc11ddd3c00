import HqlWhere.Proofs.Clause.Collisions
import HqlWhere.Proofs.Clause.Compilation
import HqlWhere.Proofs.Clause.Parameters
import HqlWhere.Proofs.Clause.Placeholders
import HqlWhere.Proofs.Text.Bytes

/-!
# Shared names and shared paths

Two paths may have one parameter, as `a_b` and `a.b` have.  If no step holds an underscore, the
parameter tells its path, so a name is bound twice exactly if a path is, and the colliding names of
a clause are those of the paths that are bound more than once.

* `Path.eq_of_parameter_eq`     without underscores the parameter tells the path;
* `PathBoundTwice`              two predicates at different places bind the parameter of one path;
* `boundTwice_iff_path`         which, without underscores, is to bind one name;
* `Settings.colliding_exact`    what a clause tells of its names, and what the colliding ones mean.
-/

namespace HqlWhere

/-- Paths without underscores are told by their parameters. -/
theorem Path.eq_of_parameter_eq {p q : Path} (hp : p.Avoids ['_']) (hq : q.Avoids ['_'])
    (h : p.parameter = q.parameter) : p = q := by
  have joined := congrArg String.toList h
  rw [toList_parameter, toList_parameter] at joined
  exact eq_of_joined_eq (fun s hs mem => hp s hs '_' mem List.mem_cons_self)
    (fun s hs mem => hq s hs '_' mem List.mem_cons_self) joined

theorem Predicate.parameter?_eq_some_iff {p : Predicate} {name : String} :
    p.parameter? = some name ↔ p.parameter?.isSome ∧ p.path.parameter = name := by
  unfold parameter?
  split <;> simp

/-- Two predicates at different places of a list bind a parameter, their path is the same, and
`name` is its parameter. -/
def PathBoundTwice (ps : List Predicate) (name : String) : Prop :=
  ∃ (i j : Nat) (p q : Predicate), i < j ∧ ps[i]? = some p ∧ ps[j]? = some q ∧
    p.parameter?.isSome ∧ q.parameter?.isSome ∧ p.path = q.path ∧ p.path.parameter = name

/-- Without underscores a name is bound twice exactly if its path is. -/
theorem boundTwice_iff_path {ps : List Predicate} (plain : ∀ p ∈ ps, p.path.Avoids ['_'])
    {name : String} : BoundTwice ps name ↔ PathBoundTwice ps name := by
  constructor
  · rintro ⟨i, j, below, first, second⟩
    obtain ⟨p, hp, bindsP⟩ := Option.bind_eq_some_iff.mp first
    obtain ⟨q, hq, bindsQ⟩ := Option.bind_eq_some_iff.mp second
    obtain ⟨someP, nameP⟩ := Predicate.parameter?_eq_some_iff.mp bindsP
    obtain ⟨someQ, nameQ⟩ := Predicate.parameter?_eq_some_iff.mp bindsQ
    have plainP := plain p (List.mem_of_getElem? hp)
    have plainQ := plain q (List.mem_of_getElem? hq)
    have path : p.path = q.path :=
      Path.eq_of_parameter_eq plainP plainQ (nameP.trans nameQ.symm)
    exact ⟨i, j, p, q, below, hp, hq, someP, someQ, path, nameP⟩
  · rintro ⟨i, j, p, q, below, hp, hq, someP, someQ, path, name⟩
    refine ⟨i, j, below, Option.bind_eq_some_iff.mpr ⟨p, hp, ?_⟩,
      Option.bind_eq_some_iff.mpr ⟨q, hq, ?_⟩⟩
    · exact Predicate.parameter?_eq_some_iff.mpr ⟨someP, name⟩
    · exact Predicate.parameter?_eq_some_iff.mpr ⟨someQ, path ▸ name⟩

/-- The colliding names of a clause, if its parameters are those of some predicates without
underscores. -/
theorem Clause.mem_colliding_iff_path {ps : List Predicate} (plain : ∀ p ∈ ps, p.path.Avoids ['_'])
    {c : Clause} (names : c.params.toList = ps.filterMap Predicate.parameter?) (name : String) :
    name ∈ c.colliding ↔ PathBoundTwice ps name := by
  rw [c.mem_colliding_iff, names, ← boundTwice_iff, boundTwice_iff_path plain]

namespace Settings

/-- **Collisions are told exactly.**  Of any clause, whatever its names, `distinct` has the same
names as the parameters and is strictly ascending in the order of UTF-8 bytes, and so is
`colliding`, which has the names that occur at least twice; there are none if and only if `distinct`
is as long as the list of parameters.  In a clause that was compiled from a tree without a depth
limit, or from a list, and where no step of a path has an underscore, the colliding names are those
of the paths that two predicates at different places bind. -/
theorem colliding_exact (s : Settings) :
    (∀ c : Clause,
      c.distinct.Pairwise (fun a b => Text.utf8 a < Text.utf8 b) ∧
      (∀ name, name ∈ c.distinct ↔ name ∈ c.params) ∧
      c.colliding.Pairwise (fun a b => Text.utf8 a < Text.utf8 b) ∧
      (∀ name, name ∈ c.colliding ↔ 2 ≤ c.params.toList.count name) ∧
      (c.colliding = [] ↔ c.distinct.length = c.params.size)) ∧
    (s.maxDepth = none → ∀ e : Expr, (∀ p ∈ e.leaves, p.path.Avoids ['_']) →
      ∃ c events, s.compile e = (.ok c, events) ∧
        ∀ name, name ∈ c.colliding ↔ PathBoundTwice e.leaves name) ∧
    ∀ ps : List Predicate, (∀ p ∈ ps, p.path.Avoids ['_']) →
      ∀ name, name ∈ (s.compileAll ps).1.colliding ↔ PathBoundTwice ps name := by
  refine ⟨fun c => ?_, ?_, ?_⟩
  · exact ⟨c.ascending_distinct.imp Text.utf8_lt_iff.mpr, c.mem_distinct_iff,
      c.ascending_colliding.imp Text.utf8_lt_iff.mpr, c.mem_colliding_iff, c.colliding_eq_nil_iff⟩
  · intro unlimited e plain
    exact ⟨e.clause, _, compile_of_unlimited unlimited e,
      Clause.mem_colliding_iff_path plain e.names_eq⟩
  · intro ps plain
    rw [s.compileAll_eq]
    exact Clause.mem_colliding_iff_path plain (names_all_eq ps)

/-- Two bounds on one path collide; the same path without a parameter, and another path with the
same last step, do not. -/
theorem colliding_exact_of_prices :
    let s : Settings := {}
    let price : Path := ⟨["item", "price"], by decide, by decide⟩
    let other : Path := ⟨["price"], by decide, by decide⟩
    let ps : List Predicate :=
      [⟨price, .notNull, []⟩, ⟨price, .lt, [.int 3]⟩, ⟨other, .gt, []⟩, ⟨price, .gt, [.int 1]⟩]
    let e : Expr := .or (.leaf ⟨price, .notNull, []⟩) (.not (.leaf ⟨price, .lt, []⟩))
    s.maxDepth = none ∧ (∀ p ∈ ps, p.path.Avoids ['_']) ∧ (∀ p ∈ e.leaves, p.path.Avoids ['_']) ∧
      "item_price" ∈ (s.compileAll ps).1.colliding ∧
      ∃ c events, s.compile e = (.ok c, events) ∧ "item_price" ∉ c.colliding := by
  intro s price other ps e
  have list : ∀ p ∈ ps, p.path.Avoids ['_'] := by decide
  have tree : ∀ p ∈ e.leaves, p.path.Avoids ['_'] := by decide
  obtain ⟨_, trees, lists⟩ := colliding_exact s
  obtain ⟨c, events, compiled, exact⟩ := trees rfl e tree
  refine ⟨rfl, list, tree, (lists ps list _).mpr ?_, c, events, compiled, fun mem => ?_⟩
  · exact ⟨1, 3, _, _, by decide, rfl, rfl, by decide, by decide, rfl, by decide +kernel⟩
  · obtain ⟨i, j, p, q, below, hp, hq, someP, _⟩ := (exact _).mp mem
    obtain ⟨inside, _⟩ := List.getElem?_eq_some_iff.mp hq
    have first : i = 0 := by
      have : j < 2 := inside
      omega
    subst first
    obtain rfl := Option.some.inj hp
    cases someP

end Settings

end HqlWhere
