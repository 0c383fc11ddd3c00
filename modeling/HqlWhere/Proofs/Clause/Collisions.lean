import HqlWhere.Clause.Basic
import HqlWhere.Predicate
import Mathlib.Data.List.Dedup
import Mathlib.Data.List.NodupEquivFin
import Mathlib.Data.String.Basic

/-!
# Names that are bound more than once

A clause counts its names by sorting them and taking the runs of equal neighbours.  Here the runs of
a sorted list are shown to be its census: each element once, in ascending order, with the number of
its occurrences.  So the colliding names of a clause are those that occur twice or more, and in
terms of the predicates, those that two of them bind.

* `Census`, `census_runs`       what the runs of a sorted list tell;
* `Clause.mem_colliding_iff`    a name collides if it occurs at least twice;
* `Clause.colliding_eq_nil_iff` none does if the names all differ;
* `BoundTwice`                  two predicates at different places bind one name;
* `boundTwice_iff`              which is to say that the name occurs at least twice.
-/

namespace HqlWhere

/-! ## the census of a list -/

section
variable {α : Type} [DecidableEq α] [PartialOrder α] {l : List α} {rest : List (α × Nat)}

/-- A list of the elements of `l`, each once and in ascending order, with the numbers of their
occurrences. -/
structure Census (l : List α) (c : List (α × Nat)) : Prop where
  ascending : (c.map Prod.fst).Pairwise (· < ·)
  mem_iff : ∀ x n, (x, n) ∈ c ↔ 0 < n ∧ l.count x = n

theorem Census.mem_keys_iff (h : Census l rest) (x : α) :
    x ∈ rest.map Prod.fst ↔ x ∈ l := by
  constructor
  · intro mem
    obtain ⟨⟨y, n⟩, hy, rfl⟩ := List.mem_map.mp mem
    obtain ⟨pos, rfl⟩ := (h.mem_iff y n).mp hy
    exact List.count_pos_iff.mp pos
  · intro mem
    have counted : (x, l.count x) ∈ rest := (h.mem_iff x _).mpr ⟨List.count_pos_iff.mpr mem, rfl⟩
    exact List.mem_map_of_mem counted

theorem census_nil : Census ([] : List α) [] := by
  refine ⟨List.Pairwise.nil, fun x n => ?_⟩
  rw [List.count_nil]
  constructor
  · intro mem
    cases mem
  · rintro ⟨pos, rfl⟩
    exact absurd pos (Nat.lt_irrefl 0)

/-- an element that is below all others and is not there yet opens a run -/
theorem Census.start (h : Census l rest) {x : α} (least : ∀ y ∈ l, x ≤ y) (new : x ∉ l) :
    Census (x :: l) ((x, 1) :: rest) := by
  have none : l.count x = 0 := List.count_eq_zero.mpr new
  constructor
  · rw [List.map_cons, List.pairwise_cons]
    refine ⟨fun y hy => ?_, h.ascending⟩
    have mem : y ∈ l := (h.mem_keys_iff y).mp hy
    refine lt_of_le_of_ne (least y mem) ?_
    rintro rfl
    exact new mem
  · intro y n
    rw [List.mem_cons, h.mem_iff, Prod.mk.injEq]
    by_cases hy : y = x
    · subst hy
      rw [List.count_cons_self, none, eq_self, true_and]
      omega
    · rw [List.count_cons_of_ne (Ne.symm hy)]
      constructor
      · rintro (⟨eq, _⟩ | counted)
        · exact absurd eq hy
        · exact counted
      · exact .inr

/-- the element of the first run makes that run longer -/
theorem Census.grow {x : α} {n : Nat} (h : Census l ((x, n) :: rest)) :
    Census (x :: l) ((x, n + 1) :: rest) := by
  obtain ⟨pos, count⟩ := (h.mem_iff x n).mp List.mem_cons_self
  -- No other run is one of `x`, since the runs behind the first are above it.
  have single : ∀ m, (x, m) ∉ rest := by
    intro m mem
    have above := (List.pairwise_cons.mp h.ascending).1 x (List.mem_map_of_mem mem)
    exact absurd above (lt_irrefl x)
  refine ⟨h.ascending, fun y m => ?_⟩
  by_cases hy : y = x
  · subst hy
    have first : (y, m) ∈ (y, n + 1) :: rest ↔ m = n + 1 := by simp [single]
    rw [first, List.count_cons_self, count]
    omega
  · have other : (y, m) ∈ (x, n + 1) :: rest ↔ (y, m) ∈ (x, n) :: rest := by simp [hy]
    rw [other, h.mem_iff, List.count_cons_of_ne (Ne.symm hy)]

/-- A census has one entry for each element, so as many as the list if none is repeated. -/
theorem Census.length_keys_eq_iff {c : List (α × Nat)} (h : Census l c) :
    (c.map Prod.fst).length = l.length ↔ l.Nodup := by
  have nodup : (c.map Prod.fst).Nodup := h.ascending.imp ne_of_lt
  have once : (c.map Prod.fst).Perm l.dedup :=
    (List.perm_ext_iff_of_nodup nodup l.nodup_dedup).mpr fun x => by
      rw [h.mem_keys_iff, List.mem_dedup]
  rw [once.length_eq, ← List.dedup_eq_self]
  exact ⟨l.dedup_sublist.eq_of_length, congrArg List.length⟩

/-- **The runs of a sorted list are its census.** -/
theorem census_runs (sorted : l.Pairwise (· ≤ ·)) : Census l (runs l) := by
  induction l with
  | nil => exact census_nil
  | cons x xs ih =>
    obtain ⟨least, sorted⟩ := List.pairwise_cons.mp sorted
    have census := ih sorted
    rw [runs]
    cases hr : runs xs with
    | nil =>
      obtain rfl := runs_eq_nil_iff.mp hr
      exact census_nil.start least List.not_mem_nil
    | cons run rest =>
      obtain ⟨y, n⟩ := run
      rw [hr] at census
      show Census (x :: xs) (if x = y then (y, n + 1) :: rest else (x, 1) :: (y, n) :: rest)
      by_cases same : x = y
      · subst same
        rw [if_pos rfl]
        exact census.grow
      · rw [if_neg same]
        refine census.start least fun mem => ?_
        -- `y` is in the list, so it is not below `x`; but the first run is the lowest.
        have first : y ∈ xs := (census.mem_keys_iff y).mp List.mem_cons_self
        rcases List.mem_cons.mp ((census.mem_keys_iff x).mpr mem) with eq | later
        · exact same eq
        · have above := (List.pairwise_cons.mp census.ascending).1 x later
          exact absurd above (not_lt_of_ge (least y first))

end

/-! ## the colliding names of a clause -/

namespace Clause

theorem census_occurrences (c : Clause) : Census c.params.toList c.occurrences := by
  have sorted : (c.params.toList.mergeSort fun a b => decide (a ≤ b)).Pairwise (· ≤ ·) := by
    have trans : ∀ a b d : String, decide (a ≤ b) = true → decide (b ≤ d) = true →
        decide (a ≤ d) = true := fun a b d hab hbd =>
      decide_eq_true (le_trans (of_decide_eq_true hab) (of_decide_eq_true hbd))
    have total : ∀ a b : String, (decide (a ≤ b) || decide (b ≤ a)) = true := fun a b => by
      simpa using le_total a b
    have ordered := List.pairwise_mergeSort trans total c.params.toList
    exact ordered.imp of_decide_eq_true
  have census := census_runs sorted
  have counts : ∀ x : String, (c.params.toList.mergeSort fun a b => decide (a ≤ b)).count x
      = c.params.toList.count x := fun x => (List.mergeSort_perm _ _).count_eq x
  exact ⟨census.ascending, fun x n => counts x ▸ census.mem_iff x n⟩

/-- A name collides exactly if it occurs at least twice. -/
theorem mem_colliding_iff (c : Clause) (name : String) :
    name ∈ c.colliding ↔ 2 ≤ c.params.toList.count name := by
  have counted := c.census_occurrences.mem_iff name
  simp only [colliding, List.mem_map, List.mem_filter, decide_eq_true_eq, Prod.exists]
  constructor
  · rintro ⟨_, n, ⟨mem, many⟩, rfl⟩
    have count := ((c.census_occurrences.mem_iff _ n).mp mem).2
    omega
  · intro many
    exact ⟨name, _, ⟨(counted _).mpr ⟨by omega, rfl⟩, many⟩, rfl⟩

theorem ascending_colliding (c : Clause) : c.colliding.Pairwise (· < ·) :=
  c.census_occurrences.ascending.sublist (List.filter_sublist.map Prod.fst)

theorem mem_distinct_iff (c : Clause) (name : String) : name ∈ c.distinct ↔ name ∈ c.params := by
  rw [distinct, c.census_occurrences.mem_keys_iff, Array.mem_toList_iff]

theorem ascending_distinct (c : Clause) : c.distinct.Pairwise (· < ·) :=
  c.census_occurrences.ascending

/-- No name collides exactly if there are as many names that differ as there are parameters. -/
theorem colliding_eq_nil_iff (c : Clause) :
    c.colliding = [] ↔ c.distinct.length = c.params.size := by
  rw [distinct, ← Array.length_toList, c.census_occurrences.length_keys_eq_iff,
    List.nodup_iff_count_le_one, List.eq_nil_iff_forall_not_mem]
  refine forall_congr' fun name => ?_
  rw [c.mem_colliding_iff]
  omega

end Clause

/-! ## predicates that bind one name -/

/-- Two predicates at different places of a list bind the same name. -/
def BoundTwice (ps : List Predicate) (name : String) : Prop :=
  ∃ i j : Nat, i < j ∧ ps[i]?.bind Predicate.parameter? = some name ∧
    ps[j]?.bind Predicate.parameter? = some name

theorem boundTwice_iff {ps : List Predicate} {name : String} :
    BoundTwice ps name ↔ 2 ≤ (ps.filterMap Predicate.parameter?).count name := by
  have twice : List.Duplicate (some name) (ps.map Predicate.parameter?) ↔
      2 ≤ (ps.filterMap Predicate.parameter?).count name := by
    have counts : (ps.filterMap Predicate.parameter?).count name
        = (ps.map Predicate.parameter?).count (some name) := by
      rw [List.count_filterMap, List.count_eq_countP, List.countP_map]
      rfl
    rw [List.duplicate_iff_sublist, counts, ← List.replicate_sublist_iff]
    rfl
  have place : ∀ i, ps[i]?.bind Predicate.parameter? = some name ↔
      ∃ h : i < (ps.map Predicate.parameter?).length,
        some name = (ps.map Predicate.parameter?).get ⟨i, h⟩ := by
    intro i
    constructor
    · intro told
      obtain ⟨p, hp, binds⟩ := Option.bind_eq_some_iff.mp told
      obtain ⟨h, rfl⟩ := List.getElem?_eq_some_iff.mp hp
      exact ⟨by simpa using h, by simpa using binds.symm⟩
    · rintro ⟨h, binds⟩
      have inside : i < ps.length := by simpa using h
      rw [List.getElem?_eq_getElem inside]
      simpa using binds.symm
  rw [← twice, List.duplicate_iff_exists_distinct_get]
  constructor
  · rintro ⟨i, j, below, first, second⟩
    obtain ⟨hi, first⟩ := (place i).mp first
    obtain ⟨hj, second⟩ := (place j).mp second
    exact ⟨⟨i, hi⟩, ⟨j, hj⟩, below, first, second⟩
  · rintro ⟨⟨i, hi⟩, ⟨j, hj⟩, below, first, second⟩
    exact ⟨i, j, below, (place i).mpr ⟨hi, first⟩, (place j).mpr ⟨hj, second⟩⟩

end HqlWhere
