import HqlWhere.Clause.Report
import HqlWhere.Proofs.Clause.Collisions
import HqlWhere.Proofs.Json.Grammar

/-!
# The report of a clause tells the clause

The report of a clause is an indented JSON text.  Read as JSON it gives back the text of the clause,
its names and the names that collide, whatever characters are in them.

* `Clause.wellFormed_report`       the printed report is JSON, by the grammar of values;
* `Clause.parse_report`            what it stands for;
* `Clause.report_eq_iff`           two clauses have one report if they agree in these three;
* `Clause.printed_report_faithful` both, for the text that is printed.
-/

namespace HqlWhere

open Json

theorem Json.strings_injective : Function.Injective strings := by
  intro l m same
  exact List.map_injective_iff.mpr (fun _ _ => Json.string.inj) (Json.array.inj same)

/-- Two ascending lists with the same names are the same list. -/
theorem eq_of_ascending {l m : List String} (hl : l.Pairwise (· < ·)) (hm : m.Pairwise (· < ·))
    (same : ∀ name, name ∈ l ↔ name ∈ m) : l = m :=
  List.Perm.eq_of_pairwise' hl hm
    ((List.perm_ext_iff_of_nodup (hl.imp ne_of_lt) (hm.imp ne_of_lt)).mpr same)

namespace Clause

theorem height_report (c : Clause) : c.report.height = 2 := by
  simp only [report, height, heightMembers, height_strings]
  rfl

theorem numbers_report (c : Clause) : c.report.numbers = [] := by
  simp only [report, numbers, numbersOfMembers, numbers_strings, List.append_nil]

/-- **The printed report stands for the report.** -/
theorem parse_report (c : Clause) : parse c.report.indented = .ok c.report := by
  have fits : c.report.height ≤ nesting := by
    rw [height_report]
    decide
  have survive : ∀ n ∈ c.report.numbers, n.Survives := by
    rw [numbers_report]
    exact nofun
  exact (parse_written fits survive).2

theorem wellFormed_report (c : Clause) : ∃ v, WellFormed v ∧ Laid v c.report.indented.toList := by
  refine wellFormed_indented ?_
  rw [numbers_report]
  exact nofun

theorem distinct_eq_iff {c d : Clause} :
    c.distinct = d.distinct ↔ ∀ name, name ∈ c.params ↔ name ∈ d.params := by
  constructor
  · intro same name
    rw [← mem_distinct_iff, ← mem_distinct_iff, same]
  · intro same
    refine eq_of_ascending c.ascending_distinct d.ascending_distinct fun name => ?_
    rw [mem_distinct_iff, mem_distinct_iff, same]

theorem colliding_eq_iff {c d : Clause} : c.colliding = d.colliding ↔
    ∀ name, 2 ≤ c.params.toList.count name ↔ 2 ≤ d.params.toList.count name := by
  constructor
  · intro same name
    rw [← mem_colliding_iff, ← mem_colliding_iff, same]
  · intro same
    refine eq_of_ascending c.ascending_colliding d.ascending_colliding fun name => ?_
    rw [mem_colliding_iff, mem_colliding_iff, same]

/-- Two reports are the same if they tell the same text, names and repeated names. -/
theorem report_eq_iff {c d : Clause} : c.report = d.report ↔
    c.sql = d.sql ∧ c.distinct = d.distinct ∧ c.colliding = d.colliding := by
  constructor
  · intro same
    simp only [report, Json.object.injEq, List.cons.injEq, Prod.mk.injEq, Json.string.injEq,
      true_and, and_true] at same
    exact ⟨same.1, strings_injective same.2.1, strings_injective same.2.2⟩
  · rintro ⟨sql, params, collisions⟩
    rw [report, report, sql, params, collisions]

/-- **The report is faithful.**  What is printed for a clause as JSON is well-formed and the text of
an object of three members: the text that is printed otherwise, the names in ascending order, and
those that occur more than once.  So two clauses have one report exactly if they have the same text,
the same names and the same repeated names. -/
theorem printed_report_faithful :
    (∀ c : Clause, (∃ v, WellFormed v ∧ Laid v (c.printed true).toList) ∧
      parse (c.printed true) = .ok (.object
        [("clause", .string (c.printed false)), ("params", .strings c.distinct),
          ("collisions", .strings c.colliding)])) ∧
    ∀ c d : Clause, c.printed true = d.printed true ↔
      c.sql = d.sql ∧ (∀ name, name ∈ c.params ↔ name ∈ d.params) ∧
        ∀ name, 2 ≤ c.params.toList.count name ↔ 2 ≤ d.params.toList.count name := by
  refine ⟨fun c => ⟨c.wellFormed_report, c.parse_report⟩, fun c d => ?_⟩
  have texts : c.printed true = d.printed true ↔ c.report = d.report := by
    constructor
    · intro same
      have told : (.ok c.report : Except Fault Json) = .ok d.report := by
        rw [← c.parse_report, ← d.parse_report]
        exact congrArg parse same
      exact Except.ok.inj told
    · intro same
      exact congrArg indented same
  rw [texts, report_eq_iff, distinct_eq_iff, colliding_eq_iff]

/-- A name may be any text; `"`, `\` and a line feed are escaped, and the order of the names and how
often more than twice one occurs are not told. -/
theorem report_of_oddNames :
    printed ⟨"a = :\"\\\n", #["\"\\\n", "é", "é", "é"]⟩ true =
      printed ⟨"a = :\"\\\n", #["é", "\"\\\n", "é"]⟩ true := by
  refine (printed_report_faithful.2 _ _).mpr ⟨rfl, fun name => ?_, fun name => ?_⟩
  · simp
    tauto
  · simp only [List.count_cons, List.count_nil]
    split <;> split <;> omega

end Clause

end HqlWhere
