import HqlWhere.Proofs.Document.Spelling

/-!
# Leaves in any spelling

The members of a leaf each tell a part of a predicate or, under another name, nothing.  What they
tell together does not depend on their order.

* `Member.tell`, `Member.steps`  what a member tells, and that it is read so;
* `Predicate.run_members`        members are read one after the other;
* `Predicate.reads_spelling`     a leaf is read as the predicate that it spells.
-/

namespace HqlWhere

open Json

namespace Member

variable {p : Predicate} {budget : Nat} {d : Predicate.Draft} {m : Member}

/-- The member tells a part of the predicate, or nothing. -/
def Tells (p : Predicate) : Member → Prop
  | path raw => p.path.SpelledBy raw
  | operator name => p.operator.SpelledBy name
  | values vs => vs = p.values
  | other name value => Foreign (other name value)

/-- What the draft of the predicate becomes by the member. -/
def tell (p : Predicate) (d : Predicate.Draft) : Member → Predicate.Draft
  | path _ => { d with path := some p.path }
  | operator _ => { d with operator := some p.operator }
  | values _ => { d with values := some p.values }
  | other _ _ => d

/-- The draft knows nothing yet of what the member tells. -/
def Fresh (d : Predicate.Draft) : Member → Prop
  | path _ => d.path = none
  | operator _ => d.operator = none
  | values _ => d.values = none
  | other _ _ => True

/-- Two members do not tell the same part. -/
def Apart : Member → Member → Prop
  | path _, path _ => False
  | operator _, operator _ => False
  | values _, values _ => False
  | _, _ => True

theorem Apart.symm {a b : Member} (h : Apart a b) : Apart b a := by
  cases a <;> cases b <;> trivial

theorem Apart.fresh {a b : Member} (h : Apart a b) (fresh : b.Fresh d) : b.Fresh (a.tell p d) := by
  cases a with
  | path _ =>
    cases b with
    | path _ => cases h
    | _ => exact fresh
  | operator _ =>
    cases b with
    | operator _ => cases h
    | _ => exact fresh
  | values _ =>
    cases b with
    | values _ => cases h
    | _ => exact fresh
  | other _ _ => exact fresh

theorem tell_comm (p : Predicate) (d : Predicate.Draft) (a b : Member) :
    (b.tell p (a.tell p d)) = a.tell p (b.tell p d) := by
  cases a <;> cases b <;> rfl

/-- The member as a row of an object. -/
def row (m : Member) : Row := (m.name, m.value)

/-- **One member is read**, from behind its name. -/
theorem steps (survives : p.Survives) (tells : m.Tells p) (fits : m.height ≤ budget)
    (fresh : m.Fresh d) : Steps (Predicate.readMember budget) m.row d (m.tell p d) := by
  cases m with
  | path raw =>
    have once : Predicate.readMember budget "path" d =
        readOnce "path" d.path (Path.read budget) fun path => { d with path := some path } := by
      funext s
      exact if_pos rfl
    show Reads (Predicate.readMember budget "path" d) _ _
    rw [once]
    exact reads_once fresh (Path.reads_spelling tells fits)
  | operator text =>
    have once : Predicate.readMember budget "operator" d =
        readOnce "operator" d.operator Operator.read fun op => { d with operator := some op } := by
      funext s
      unfold Predicate.readMember
      rw [if_neg (by decide), if_pos rfl]
      rfl
    show Reads (Predicate.readMember budget "operator" d) _ _
    rw [once]
    exact reads_once fresh (Operator.reads_spelling tells)
  | values vs =>
    obtain rfl := tells
    have once : Predicate.readMember budget "values" d =
        readOnce "values" d.values (Predicate.readValues budget)
          fun values => { d with values := some values } := by
      funext s
      unfold Predicate.readMember
      rw [if_neg (by decide), if_neg (by decide), if_pos rfl]
      rfl
    show Reads (Predicate.readMember budget "values" d) _ _
    rw [once]
    exact reads_once fresh (Value.reads_list survives fits)
  | other text value =>
    obtain ⟨foreign, form⟩ := tells
    simp only [List.mem_cons, List.not_mem_nil, or_false, not_or] at foreign
    have passed : Predicate.readMember budget text d = passOver d := by
      funext s
      unfold Predicate.readMember
      rw [if_neg foreign.1, if_neg foreign.2.1, if_neg foreign.2.2]
      rfl
    show Reads (Predicate.readMember budget text d) _ _
    rw [passed]
    exact reads_passOver form d

theorem Tells.of_foreign {m : Member} (h : m.Foreign) : m.Tells p := by
  cases m with
  | other name value => exact h
  | _ => cases h

theorem foldl_tell_foreign {foreign : List Member} (h : ∀ m ∈ foreign, m.Foreign)
    (d : Predicate.Draft) : foreign.foldl (tell p) d = d := by
  induction foreign generalizing d with
  | nil => rfl
  | cons m foreign ih =>
    obtain ⟨first, others⟩ := List.forall_mem_cons.mp h
    cases m with
    | other name value => exact ih others d
    | _ => cases first

theorem Apart.of_foreign {m : Member} (h : m.Foreign) (a : Member) : a.Apart m := by
  cases m with
  | other name value => cases a <;> trivial
  | _ => cases h

end Member

namespace Predicate

variable {p : Predicate} {budget : Nat} {d : Draft} {ms : List Member}

/-- **The members are read one after the other**, each telling its part. -/
theorem run_members (survives : p.Survives) (tells : ∀ m ∈ ms, m.Tells p)
    (fits : ∀ m ∈ ms, m.height ≤ budget) (fresh : ∀ m ∈ ms, m.Fresh d)
    (apart : ms.Pairwise Member.Apart) :
    Run (Steps (readMember budget)) (ms.map Member.row) d (ms.foldl (Member.tell p) d) := by
  induction ms generalizing d with
  | nil => exact .nil
  | cons m ms ih =>
    obtain ⟨tellsFirst, tells⟩ := List.forall_mem_cons.mp tells
    obtain ⟨fitsFirst, fits⟩ := List.forall_mem_cons.mp fits
    obtain ⟨freshFirst, fresh⟩ := List.forall_mem_cons.mp fresh
    obtain ⟨apartFirst, apart⟩ := List.pairwise_cons.mp apart
    have freshThen : ∀ m' ∈ ms, m'.Fresh (m.tell p d) := fun m' hm' =>
      (apartFirst m' hm').fresh (fresh m' hm')
    exact .cons (m.steps survives tellsFirst fitsFirst freshFirst) (ih tells fits freshThen apart)

theorem fresh_empty (m : Member) : m.Fresh {} := by
  cases m <;> trivial

namespace SpelledBy

theorem tells (h : p.SpelledBy ms) : ∀ m ∈ ms, m.Tells p := by
  obtain ⟨path, operator, values, others, order⟩ := h
  intro m hm
  rcases List.mem_cons.mp (order.mem_iff.mp hm) with rfl | hm
  · exact path
  rcases List.mem_cons.mp hm with rfl | hm
  · exact operator
  rcases List.mem_append.mp hm with hm | hm
  · rcases values with rfl | ⟨_, rfl⟩
    · obtain rfl := List.mem_singleton.mp hm
      exact rfl
    · cases hm
  · exact .of_foreign (others m hm)

theorem apart (h : p.SpelledBy ms) : ms.Pairwise Member.Apart := by
  obtain ⟨path, operator, values, others, order⟩ := h
  have foreign (a : Member) : ∀ m ∈ _, a.Apart m := fun m hm => .of_foreign (others m hm) a
  have rest := List.pairwise_of_forall_mem_list fun a _ => foreign a
  rw [order.pairwise_iff Member.Apart.symm]
  rcases values with rfl | ⟨_, rfl⟩
  · simp only [List.singleton_append, List.pairwise_cons, List.forall_mem_cons]
    exact ⟨⟨trivial, trivial, foreign _⟩, ⟨trivial, foreign _⟩, foreign _, rest⟩
  · simp only [List.nil_append, List.pairwise_cons, List.forall_mem_cons]
    exact ⟨⟨trivial, foreign _⟩, foreign _, rest⟩

theorem finish (h : p.SpelledBy ms) : (ms.foldl (Member.tell p) {}).finish = .ok p := by
  obtain ⟨path, operator, values, others, order⟩ := h
  rw [order.foldl_eq' fun a _ b _ d => Member.tell_comm p d a b, List.foldl_cons,
    List.foldl_cons, List.foldl_append, Member.foldl_tell_foreign others]
  rcases values with rfl | ⟨none, rfl⟩
  · rfl
  · show Except.ok (⟨p.path, p.operator, []⟩ : Predicate) = _
    rw [← none]

end SpelledBy

theorem reads_spelling (survives : p.Survives) (h : p.SpelledBy ms)
    (fits : ∀ m ∈ ms, m.height ≤ budget) :
    Reads (read (budget + 1)) (objectTokens (ms.map Member.tokens)) p := by
  have run := run_members survives h.tells fits (fun m _ => fresh_empty m) h.apart
  have rows : ms.map Member.tokens = (ms.map Member.row).map Row.tokens := by
    rw [List.map_map]
    rfl
  rw [rows, objectTokens_rows]
  intro ts s stops laid
  obtain ⟨r, front, behind⟩ := laid.mark
  obtain ⟨t, found, rest⟩ := reads_object run ts r stops behind
  refine ⟨t, ?_, rest⟩
  unfold read
  rw [front]
  show (Json.readObject (readMember budget) {} r >>= _) = _
  rw [found, ok_bind]
  dsimp only
  rw [h.finish]
  rfl

end Predicate

end HqlWhere
