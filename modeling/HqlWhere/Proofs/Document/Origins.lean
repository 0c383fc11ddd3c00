import HqlWhere.Proofs.Document.Depth
import HqlWhere.Proofs.Json.Forward

/-!
# Where the parts of a document were read

The readers of documents go forward, so the path and the values of each predicate that comes out of
them were read in the text, by the readers of paths and of lists of values.

* `Predicate.Parts`           the path and the values of a predicate were read in a text;
* `Predicate.parts_of_read`   so it is for predicates in either form;
* `Expr.leaves_of_read`       and for each leaf of a tree.
-/

namespace HqlWhere

open Json

theorem Path.forward_read (budget : Nat) : Forward (read budget) := by
  intro s p r h
  obtain ⟨⟨j, t⟩, value, h⟩ := bind_eq_ok.mp h
  obtain ⟨path, _, h⟩ := bind_eq_ok.mp h
  obtain ⟨rfl, rfl⟩ := Prod.mk.inj (Except.ok.inj h)
  exact forward_readValue budget _ _ _ value

theorem Operator.forward_read : Forward read := by
  intro s op r h
  obtain ⟨⟨name, t⟩, text, h⟩ := bind_eq_ok.mp h
  obtain ⟨op, _, h⟩ := bind_eq_ok.mp h
  obtain ⟨rfl, rfl⟩ := Prod.mk.inj (Except.ok.inj h)
  exact (local_readString _).forward _ _ _ text

namespace Predicate

variable {budget inside : Nat} {s r : List Char} {p : Predicate}

theorem readValues_eq_ok {vs : List Value} (h : readValues budget s = .ok (vs, r)) :
    ∃ inside, budget = inside + 1 ∧
      readArray "a sequence" (some (Value.read inside)) s = .ok (vs, r) := by
  cases budget with
  | succ inside => exact ⟨inside, rfl, h⟩
  | zero =>
    obtain ⟨_, _, none, _⟩ := readArray_eq_ok h
    cases none

theorem forward_readValues (budget : Nat) : Forward (readValues budget) := by
  intro s vs r h
  obtain ⟨inside, _, array⟩ := readValues_eq_ok h
  exact (readArray_forward (Value.local_read inside).forward array).1

/-- In the text the path was read by the reader of paths, and the values by the reader of their
lists, if they were given.  `inside` brackets could be opened for each. -/
structure Parts (inside : Nat) (s : List Char) (p : Predicate) : Prop where
  path : ∃ t r, t <:+ s ∧ Path.read inside t = .ok (p.path, r)
  values : p.values = [] ∨ ∃ t r, t <:+ s ∧ readValues inside t = .ok (p.values, r)

theorem Parts.within {t : List Char} (h : Parts inside s p) (behind : s <:+ t) :
    Parts inside t p := by
  obtain ⟨⟨u, v, found, path⟩, values⟩ := h
  refine ⟨⟨u, v, found.trans behind, path⟩, values.imp_right ?_⟩
  rintro ⟨u, v, found, values⟩
  exact ⟨u, v, found.trans behind, values⟩

/-- What a draft holds was read in the text. -/
structure Draft.Holds (inside : Nat) (s : List Char) (d : Draft) : Prop where
  path : ∀ path ∈ d.path, ∃ t r, t <:+ s ∧ Path.read inside t = .ok (path, r)
  values : ∀ vs ∈ d.values, ∃ t r, t <:+ s ∧ readValues inside t = .ok (vs, r)

theorem readMember_holds {whole t u : List Char} {name : String} {d d' : Draft}
    (front : t <:+ whole) (known : d.Holds inside whole)
    (h : readMember inside name d t = .ok (d', u)) : u <:+ t ∧ d'.Holds inside whole := by
  unfold readMember at h
  split at h
  · obtain ⟨_, _, h⟩ := bind_eq_ok.mp h
    obtain ⟨v, colon, h⟩ := bind_eq_ok.mp h
    obtain ⟨⟨path, w⟩, found, h⟩ := bind_eq_ok.mp h
    obtain ⟨rfl, rfl⟩ := Prod.mk.inj (Except.ok.inj h)
    have behind := readColon_suffix colon
    refine ⟨(Path.forward_read inside _ _ _ found).trans behind, ?_, known.values⟩
    intro path' same
    obtain rfl := Option.some.inj same
    exact ⟨v, w, behind.trans front, found⟩
  split at h
  · obtain ⟨_, _, h⟩ := bind_eq_ok.mp h
    obtain ⟨v, colon, h⟩ := bind_eq_ok.mp h
    obtain ⟨⟨operator, w⟩, found, h⟩ := bind_eq_ok.mp h
    obtain ⟨rfl, rfl⟩ := Prod.mk.inj (Except.ok.inj h)
    exact ⟨(Operator.forward_read _ _ _ found).trans (readColon_suffix colon), known.path,
      known.values⟩
  split at h
  · obtain ⟨_, _, h⟩ := bind_eq_ok.mp h
    obtain ⟨v, colon, h⟩ := bind_eq_ok.mp h
    obtain ⟨⟨vs, w⟩, found, h⟩ := bind_eq_ok.mp h
    obtain ⟨rfl, rfl⟩ := Prod.mk.inj (Except.ok.inj h)
    have behind := readColon_suffix colon
    refine ⟨(forward_readValues inside _ _ _ found).trans behind, known.path, ?_⟩
    intro vs' same
    obtain rfl := Option.some.inj same
    exact ⟨v, w, behind.trans front, found⟩
  · obtain ⟨v, colon, h⟩ := bind_eq_ok.mp h
    obtain ⟨w, passed, h⟩ := bind_eq_ok.mp h
    obtain ⟨rfl, rfl⟩ := Prod.mk.inj (Except.ok.inj h)
    exact ⟨(skipValue_suffix passed).trans (readColon_suffix colon), known⟩

theorem Draft.Holds.parts {d : Draft} (h : d.Holds inside s) (finished : d.finish = .ok p) :
    Parts inside s p := by
  unfold Draft.finish at finished
  split at finished
  · cases finished
  · cases finished
  · rename_i path operator known _
    obtain rfl := Except.ok.inj finished
    refine ⟨h.path path known, ?_⟩
    cases values : d.values with
    | none => exact .inl rfl
    | some vs => exact .inr (h.values vs values)

theorem readMembers_parts (h : readMembers inside s = .ok (p, r)) :
    r <:+ s ∧ Parts inside s p := by
  obtain ⟨⟨d, t⟩, members, h⟩ := bind_eq_ok.mp h
  obtain ⟨p', finished, h⟩ := bind_eq_ok.mp h
  obtain ⟨rfl, rfl⟩ := Prod.mk.inj (Except.ok.inj h)
  have step : ∀ name d t d' u, t <:+ s → Draft.Holds inside s d →
      readMember inside name d t = .ok (d', u) → u <:+ t ∧ d'.Holds inside s :=
    fun _ _ _ _ _ => readMember_holds
  have empty : Draft.Holds inside s {} := ⟨nofun, nofun⟩
  obtain ⟨back, holds⟩ := readMembers_forward _ step List.suffix_rfl empty members
  exact ⟨back, holds.parts finished⟩

theorem readItems_parts (h : readItems inside s = .ok (p, r)) : r <:+ s ∧ Parts inside s p := by
  obtain ⟨next, first, h⟩ := bind_eq_ok.mp h
  have atPath := Items.next_suffix first
  cases next with
  | ended _ => cases h
  | more _ t =>
    obtain ⟨⟨path, u⟩, foundPath, h⟩ := bind_eq_ok.mp h
    have behindPath := (Path.forward_read _ _ _ _ foundPath).trans atPath
    obtain ⟨next, second, h⟩ := bind_eq_ok.mp h
    have atOperator := (Items.next_suffix second).trans behindPath
    cases next with
    | ended _ => cases h
    | more _ v =>
      obtain ⟨⟨operator, w⟩, foundOperator, h⟩ := bind_eq_ok.mp h
      have behindOperator := (Operator.forward_read _ _ _ foundOperator).trans atOperator
      obtain ⟨next, third, h⟩ := bind_eq_ok.mp h
      have atValues := (Items.next_suffix third).trans behindOperator
      cases next with
      | ended x =>
        obtain ⟨rfl, rfl⟩ := Prod.mk.inj (Except.ok.inj h)
        exact ⟨atValues, ⟨t, u, atPath, foundPath⟩, .inl rfl⟩
      | more _ x =>
        obtain ⟨⟨vs, y⟩, foundValues, h⟩ := bind_eq_ok.mp h
        obtain ⟨z, closed, h⟩ := bind_eq_ok.mp h
        obtain ⟨rfl, rfl⟩ := Prod.mk.inj (Except.ok.inj h)
        have behindValues := (forward_readValues _ _ _ _ foundValues).trans atValues
        exact ⟨(Items.close_suffix closed).trans behindValues, ⟨t, u, atPath, foundPath⟩,
          .inr ⟨x, y, atValues, foundValues⟩⟩

/-- **The parts of a predicate were read behind its own bracket**, in either form. -/
theorem parts_of_read (h : read budget s = .ok (p, r)) :
    r <:+ s ∧ ∃ inside, budget = inside + 1 ∧ Parts inside s p := by
  unfold read at h
  split at h
  · cases h
  · cases h
  · rename_i t inside front
    have behind := suffix_of_skipSpace front
    obtain ⟨back, parts⟩ := readMembers_parts h
    exact ⟨back.trans behind, inside, rfl, parts.within behind⟩
  · rename_i t inside front
    have behind := suffix_of_skipSpace front
    obtain ⟨back, parts⟩ := readItems_parts h
    exact ⟨back.trans behind, inside, rfl, parts.within behind⟩
  · cases h

theorem forward_read (budget : Nat) : Forward (read budget) := fun _ _ _ h => (parts_of_read h).1

/-- each predicate of a list was read in the text of the list -/
theorem parts_of_parseList {text : String} {ps : List Predicate} (h : parseList text = .ok ps) :
    ∀ p ∈ ps, ∃ inside, Parts inside text.toList p := by
  obtain ⟨r, found, _⟩ := readAll_eq_ok.mp h
  intro p hp
  obtain ⟨t, u, behind, one⟩ := (readArray_forward (forward_read _) found).2 p hp
  obtain ⟨_, inside, _, parts⟩ := parts_of_read one
  exact ⟨inside, parts.within behind⟩

end Predicate

namespace Expr

/-- In the text the parts of each leaf were read. -/
def Parts (s : List Char) (e : Expr) : Prop := ∀ p ∈ e.leaves, ∃ inside, Predicate.Parts inside s p

theorem Parts.within {s t : List Char} {e : Expr} (h : Parts s e) (behind : s <:+ t) :
    Parts t e := by
  intro p hp
  obtain ⟨inside, parts⟩ := h p hp
  exact ⟨inside, parts.within behind⟩

/-- the two parts of AND and OR, given what the reader of parts does -/
theorem pair_parts {kind : Kind} {node : Option (Reader Expr)} {s r : List Char} {x y : Expr}
    (inner : ∀ read ∈ node, ∀ s r e, read s = .ok (e, r) → r <:+ s ∧ Parts s e)
    (h : readPair kind node s = .ok ((x, y), r)) : r <:+ s ∧ Parts s x ∧ Parts s y := by
  obtain ⟨read, t, t', u, u', v, node, front, first, left, second, right, closed⟩ :=
    readPair_eq_ok h
  obtain ⟨pastLeft, partsLeft⟩ := inner read node t' u x left
  obtain ⟨pastRight, partsRight⟩ := inner read node u' v y right
  have atLeft : t' <:+ s := (Items.next_suffix first).trans (suffix_of_skipSpace front)
  have atRight : u' <:+ s := ((Items.next_suffix second).trans pastLeft).trans atLeft
  exact ⟨((Items.close_suffix closed).trans pastRight).trans atRight, partsLeft.within atLeft,
    partsRight.within atRight⟩

/-- the reader of parts, given what the readers with less room do -/
theorem parts_of_room {inside : Nat}
    (less : ∀ room < inside, ∀ {s r : List Char} {e : Expr}, read room s = .ok (e, r) →
      r <:+ s ∧ Parts s e) :
    ∀ reader ∈ (match inside with | 0 => none | room + 1 => some (read room)),
      ∀ s r e, reader s = .ok (e, r) → r <:+ s ∧ Parts s e := by
  intro reader known s r e found
  cases inside with
  | zero => cases known
  | succ room =>
    obtain rfl := Option.some.inj known
    exact less room (Nat.lt_succ_self room) found

/-- **The parts of each leaf were read in the text of the tree.** -/
theorem parts_of_read {budget : Nat} {s r : List Char} {e : Expr}
    (h : read budget s = .ok (e, r)) : r <:+ s ∧ Parts s e := by
  induction budget using Nat.strongRecOn generalizing s r e with
  | ind budget ih =>
    obtain ⟨inside, t, kind, u, v, rfl, front, tag, content, closed⟩ := read_eq_ok h
    have atContent : u <:+ s :=
      ((local_readTag tags).forward _ _ _ tag).trans (suffix_of_skipSpace front)
    have inner : v <:+ u ∧ Parts u e := by
      have pairs := parts_of_room fun room below => ih room (Nat.lt_succ_of_lt below)
      cases kind with
      | leaf =>
        obtain ⟨⟨p, w⟩, found, same⟩ := bind_eq_ok.mp content
        obtain ⟨rfl, rfl⟩ := Prod.mk.inj (Except.ok.inj same)
        obtain ⟨back, deeper, _, parts⟩ := Predicate.parts_of_read found
        refine ⟨back, fun q hq => ?_⟩
        obtain rfl := List.mem_singleton.mp hq
        exact ⟨deeper, parts⟩
      | and =>
        obtain ⟨⟨⟨x, y⟩, w⟩, found, same⟩ := bind_eq_ok.mp content
        obtain ⟨rfl, rfl⟩ := Prod.mk.inj (Except.ok.inj same)
        obtain ⟨back, left, right⟩ := pair_parts pairs found
        exact ⟨back, List.forall_mem_append.mpr ⟨left, right⟩⟩
      | or =>
        obtain ⟨⟨⟨x, y⟩, w⟩, found, same⟩ := bind_eq_ok.mp content
        obtain ⟨rfl, rfl⟩ := Prod.mk.inj (Except.ok.inj same)
        obtain ⟨back, left, right⟩ := pair_parts pairs found
        exact ⟨back, List.forall_mem_append.mpr ⟨left, right⟩⟩
      | not =>
        obtain ⟨⟨x, w⟩, found, same⟩ := bind_eq_ok.mp content
        obtain ⟨rfl, rfl⟩ := Prod.mk.inj (Except.ok.inj same)
        obtain ⟨back, parts⟩ := ih inside (Nat.lt_succ_self inside) found
        exact ⟨back, parts⟩
    obtain ⟨pastContent, parts⟩ := inner
    exact ⟨((local_closeTagged.suffix closed).trans pastContent).trans atContent,
      parts.within atContent⟩

theorem parts_of_parse {text : String} {e : Expr} (h : parse text = .ok e) :
    Parts text.toList e := by
  obtain ⟨r, found, _⟩ := readAll_eq_ok.mp h
  exact (parts_of_read found).2

end Expr

end HqlWhere
