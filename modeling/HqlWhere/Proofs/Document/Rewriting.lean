import HqlWhere.Proofs.Document.Origins
import HqlWhere.Proofs.Document.RoundTrip

/-!
# Rewriting a document

A document that was accepted is written again from the tree that it holds.  Its paths then are lists
and its leaves have their values, so the new text may open a bracket more than the old one did.

* `Predicate.nest_le_of_read`, `Expr.Found.nest_le`   it opens one bracket more at most;
* `Expr.parse_rewritten`                  the new text is read as the same tree, unless that bracket
                                          is one too many;
* `Expr.parse_rewritten_deepest`          a document for which it is.
-/

namespace HqlWhere

open Json

namespace Value

/-- A value of a kind whose text always tells it: all but floating point numbers, dates and
timestamps. -/
def Exact : Value → Prop
  | .float _ | .date _ | .timestamp _ => False
  | _ => True

theorem Exact.survives {v : Value} (h : v.Exact) : v.Survives := by
  cases v with
  | float x => cases h
  | date d => cases h
  | timestamp t => cases h
  | _ => trivial

/-- only the null value can do without a brace -/
theorem pos_of_read {budget : Nat} {s r : List Char} {v : Value} (h : read budget s = .ok (v, r))
    (some : v ≠ .null) : 0 < budget := by
  unfold read at h
  split at h
  · cases h
  · split at h
    · cases h
    · exact Nat.pos_of_ne_zero ‹_›
  · obtain ⟨⟨kind, t⟩, _, h⟩ := bind_eq_ok.mp h
    obtain ⟨w, bare, h⟩ := bind_eq_ok.mp h
    obtain ⟨rfl, rfl⟩ := Prod.mk.inj (Except.ok.inj h)
    cases kind with
    | null => exact absurd (Except.ok.inj bare).symm some
    | _ => cases bare
  · cases h

end Value

/-- A predicate in its written form wants one bracket more at most than it was read with: the list
of its values was read if it holds more than nulls, the list of its steps need not have been. -/
theorem Predicate.nest_le_of_read {budget : Nat} {s r : List Char} {p : Predicate}
    (h : read budget s = .ok (p, r)) : p.nest ≤ budget + 1 := by
  obtain ⟨_, inside, rfl, _, values⟩ := parts_of_read h
  unfold nest
  split
  · rename_i deep
    obtain ⟨v, hv, some⟩ := deep
    rcases values with none | ⟨t, u, _, found⟩
    · rw [none] at hv
      cases hv
    · obtain ⟨room, rfl, array⟩ := readValues_eq_ok found
      obtain ⟨_, each⟩ := readArray_forward (Value.local_read room).forward array
      obtain ⟨w, x, _, one⟩ := each v hv
      have brace : 0 < room := Value.pos_of_read one some
      omega
  · omega

namespace Expr

/-- All values of the tree are of kinds whose text always tells them. -/
def Exact (e : Expr) : Prop := ∀ p ∈ e.leaves, ∀ v ∈ p.values, v.Exact

theorem Exact.survives {e : Expr} (h : e.Exact) : e.Survives :=
  fun p hp v hv => (h p hp v hv).survives

/-- **A tree in its written form wants one bracket more at most than it was read with.** -/
theorem Found.nest_le {budget : Nat} {e : Expr} (h : Found budget e) : e.nest ≤ budget + 1 := by
  induction e generalizing budget with
  | leaf p =>
    obtain ⟨inside, rfl, s, r, read⟩ := h.cases
    have below := Predicate.nest_le_of_read read
    rw [nest_leaf]
    omega
  | and x y ihx ihy =>
    obtain ⟨_, rfl, room, rfl, left, right⟩ := h.cases
    have first := ihx left
    have second := ihy right
    rw [nest]
    omega
  | or x y ihx ihy =>
    obtain ⟨_, rfl, room, rfl, left, right⟩ := h.cases
    have first := ihx left
    have second := ihy right
    rw [nest]
    omega
  | not x ih =>
    obtain ⟨inside, rfl, inner⟩ := h.cases
    have below := ih inner
    rw [nest]
    omega

/-- **A document is read again as the same tree when it is written again**, unless the one bracket
that it may then open in addition is one too many. -/
theorem parse_rewritten {text : String} {e : Expr} (parsed : parse text = .ok e)
    (exact : e.Exact) :
    e.toJson.height ≤ nesting + 1 ∧
      (e.toJson.height ≤ nesting → parse e.toJson.compact = .ok e) ∧
      (nesting < e.toJson.height → parse e.toJson.compact = .error (.malformed .tooDeep)) := by
  have written := parse_toJson exact.survives
  rw [height_toJson, written]
  refine ⟨(found_of_parse parsed).nest_le, ?_, ?_⟩
  · intro fits
    exact within_of_le fits e
  · intro deep
    exact within_of_lt deep e

theorem exact_negations (n : Nat) : (Nat.repeat not n (leaf flatLeaf)).Exact := by
  induction n with
  | zero =>
    intro p hp v hv
    obtain rfl := List.mem_singleton.mp hp
    cases hv
  | succ n ih => exact ih

theorem height_negations (n : Nat) : (Nat.repeat not n (leaf flatLeaf)).toJson.height = n + 3 := by
  rw [height_toJson, nest_repeat]
  rfl

/-- One negation less than in the deepest document. -/
theorem parse_rewritten_negated :
    parse (negated 124) = .ok (Nat.repeat not 124 (leaf flatLeaf)) ∧
      (Nat.repeat not 124 (leaf flatLeaf)).Exact ∧
      parse (Nat.repeat not 124 (leaf flatLeaf)).toJson.compact =
        .ok (Nat.repeat not 124 (leaf flatLeaf)) := by
  have parsed : parse (negated 124) = .ok (Nat.repeat not 124 (leaf flatLeaf)) :=
    parse_negated (by decide)
  obtain ⟨_, fits, _⟩ := parse_rewritten parsed (exact_negations 124)
  refine ⟨parsed, exact_negations 124, fits ?_⟩
  rw [height_negations]
  decide

/-- **The deepest document is not read again when it is written again**: its dotted path becomes a
list, inside 127 brackets that are open already. -/
theorem parse_rewritten_deepest :
    parse deepest = .ok (Nat.repeat not 125 (leaf flatLeaf)) ∧
      (Nat.repeat not 125 (leaf flatLeaf)).Exact ∧
      parse (Nat.repeat not 125 (leaf flatLeaf)).toJson.compact =
        .error (.malformed .tooDeep) := by
  refine ⟨parse_deepest, exact_negations 125, ?_⟩
  rw [parse_toJson (exact_negations 125).survives]
  apply within_of_lt
  rw [← height_toJson, height_negations]
  decide

end Expr

end HqlWhere
