import HqlWhere.Json.Brackets
import HqlWhere.Proofs.Json.Locality

/-!
# Written lists and objects are read back

The readers of lists and objects do not know what their items are; they know brackets, commas and
names.  So what they do to a written list or object is told by what the reader of one item does.

* `write_append`       what is written in front of a text stands in front of it, unchanged;
* `readList_write`     a written list is read item by item, and the first fault of an item is the
                       fault of the list;
* `Members.next_name`  stands before a written name, with or without a comma, and reads it.
-/

namespace HqlWhere.Json

/-! ## what is written stands in front of the text behind it -/

theorem foldr_writeChar_append (s t k : List Char) :
    s.foldr writeChar (t ++ k) = s.foldr writeChar t ++ k := by
  induction s with
  | nil => rfl
  | cons c s ih =>
    rw [List.foldr_cons, List.foldr_cons, ih]
    unfold writeChar
    cases escapeLetter? c with
    | some e => rfl
    | none =>
      dsimp only
      split
      · rw [← List.append_assoc, List.cons_append, List.cons_append]
      · rfl

theorem writeString_append (s : String) (t k : List Char) :
    writeString s (t ++ k) = writeString s t ++ k :=
  congrArg ('"' :: ·) (foldr_writeChar_append s.toList ('"' :: t) k)

theorem Number.write_append (n : Number) (t k : List Char) : n.write (t ++ k) = n.write t ++ k := by
  cases n with
  | integer n => exact (List.append_assoc _ _ _).symm
  | float x =>
    unfold Number.write
    dsimp only
    split <;> rw [List.append_assoc]

mutual

theorem write_append : ∀ (j : Json) (t k : List Char), j.write (t ++ k) = j.write t ++ k
  | .null, t, k => rfl
  | .boolean b, t, k => by rw [write, write, writeBool, writeBool, List.append_assoc]
  | .number n, t, k => by rw [write, write, n.write_append]
  | .string s, t, k => by rw [write, write, writeString_append]
  | .array [], t, k => rfl
  | .array (x :: xs), t, k => by
    rw [write, write, writeItems_append, write_append x, List.cons_append]
  | .object [], t, k => rfl
  | .object ((name, x) :: ms), t, k => by
    rw [write, write, writeMembers_append, write_append x, ← List.cons_append, writeString_append,
      List.cons_append]

theorem writeItems_append : ∀ (l : List Json) (t k : List Char),
    writeItems l (t ++ k) = writeItems l t ++ k
  | [], t, k => rfl
  | x :: xs, t, k => by
    rw [writeItems, writeItems, writeItems_append xs, write_append x, List.cons_append]

theorem writeMembers_append : ∀ (ms : List (String × Json)) (t k : List Char),
    writeMembers ms (t ++ k) = writeMembers ms t ++ k
  | [], t, k => rfl
  | (name, x) :: ms, t, k => by
    rw [writeMembers, writeMembers, writeMembers_append ms, write_append x, ← List.cons_append,
      writeString_append, List.cons_append]

end

/-! ## how many brackets are open at once -/

mutual

/-- The number of brackets and braces that are open at once in the text of a value. -/
def height : Json → Nat
  | .array l => 1 + heightItems l
  | .object ms => 1 + heightMembers ms
  | _ => 0

/-- The greatest height of an item. -/
def heightItems : List Json → Nat
  | [] => 0
  | x :: l => max x.height (heightItems l)

/-- The greatest height of a member. -/
def heightMembers : List (String × Json) → Nat
  | [] => 0
  | (_, x) :: ms => max x.height (heightMembers ms)

end

theorem heightItems_le {l : List Json} {n : Nat} :
    heightItems l ≤ n ↔ ∀ x ∈ l, x.height ≤ n := by
  induction l with
  | nil => simp [heightItems]
  | cons x l ih => rw [heightItems, Nat.max_le, ih, List.forall_mem_cons]

/-- a bracket fits where there is room for it and, in what is left, for what it holds -/
theorem exists_inside {n budget : Nat} (fits : 1 + n ≤ budget) :
    ∃ inside, budget = inside + 1 ∧ n ≤ inside :=
  ⟨budget - 1, by omega, by omega⟩

theorem height_strings (l : List String) : (strings l).height = 1 := by
  have flat : heightItems (l.map Json.string) ≤ 0 := by
    refine heightItems_le.mpr fun j hj => ?_
    obtain ⟨s, _, rfl⟩ := List.mem_map.mp hj
    exact Nat.le_refl 0
  rw [strings, height, Nat.le_zero.mp flat]

/-! ## lists -/

/-- The items of a list from behind its opening bracket, and its closing bracket. -/
def writeList : List Json → List Char → List Char
  | [], k => ']' :: k
  | x :: xs, k => x.write (writeItems xs k)

theorem write_array (l : List Json) (k : List Char) : (array l).write k = '[' :: writeList l k := by
  cases l <;> rfl

/-- A value or a closing bracket may not be taken for one another: the text starts a value. -/
def Opens (s : List Char) : Prop := ∃ c r, s = c :: r ∧ isSpace c = false ∧ c ≠ ']'

theorem Items.next_first {s : List Char} (h : Opens s) : Items.next true s = .ok (.more () s) := by
  obtain ⟨c, r, rfl, space, bracket⟩ := h
  unfold Items.next
  rw [skipSpace_cons_of_not_isSpace space]
  dsimp only
  rw [if_neg bracket]
  rfl

theorem Items.next_comma {s : List Char} (h : Opens s) :
    Items.next false (',' :: s) = .ok (.more () s) := by
  obtain ⟨c, r, rfl, space, bracket⟩ := h
  unfold Items.next
  rw [skipSpace_cons_of_not_isSpace rfl]
  dsimp only
  rw [if_neg (by decide), if_neg Bool.false_ne_true, if_pos rfl,
    skipSpace_cons_of_not_isSpace space]
  dsimp only
  rw [if_neg bracket]

/-- The texts of items are long enough to bound the number of the items. -/
theorem length_writeItems (l : List Json) (k : List Char) :
    l.length + k.length < (writeItems l k).length := by
  induction l generalizing k with
  | nil => exact Nat.lt_succ_of_le (Nat.le_of_eq (Nat.zero_add _))
  | cons x l ih =>
    have tail := ih k
    have front := congrArg List.length (x.write_append [] (writeItems l k))
    rw [List.nil_append, List.length_append] at front
    rw [writeItems, List.length_cons, List.length_cons, front]
    omega

theorem ends_writeItems (l : List Json) (k : List Char) : Ends (writeItems l k) := by
  cases l with
  | nil => exact ends_cons k rfl (by decide) (by decide) (by decide)
  | cons x l => exact ends_cons _ rfl (by decide) (by decide) (by decide)

section
variable {α β : Type} {item : Reader α} {toJson : β → Json} {read : β → Except Fault α}

/-- one item, read where the list goes on with it, and then the others -/
theorem readItems_cons {x : β} {xs : List β} {b : Char} {bound s t k : List Char} {first : Bool}
    (next : Items.next first s = .ok (.more () ((toJson x).write t)))
    (reads : item ((toJson x).write t) = (read x).map (·, t))
    (rest : readItems item bound false t = (xs.mapM read).map (·, k)) :
    readItems item (b :: bound) first s = ((x :: xs).mapM read).map (·, k) := by
  unfold readItems
  rw [next, ok_bind]
  show (item ((toJson x).write t) >>= _) = _
  rw [reads, List.mapM_cons]
  cases read x with
  | error f => rfl
  | ok a =>
    show (readItems item bound false t >>= _) = _
    rw [rest]
    cases xs.mapM read <;> rfl

theorem readItems_write {xs : List β} (opens : ∀ x ∈ xs, ∀ k, Opens ((toJson x).write k))
    (reads : ∀ x ∈ xs, ∀ k, Ends k → item ((toJson x).write k) = (read x).map (·, k))
    (bound k : List Char) (long : xs.length < bound.length) :
    readItems item bound false (writeItems (xs.map toJson) k) = (xs.mapM read).map (·, k) := by
  induction xs generalizing bound with
  | nil =>
    obtain ⟨b, bound, rfl⟩ := List.exists_cons_of_length_pos long
    rfl
  | cons x xs ih =>
    obtain ⟨b, bound, rfl⟩ := List.exists_cons_of_length_pos (Nat.zero_lt_of_lt long)
    have rest := ih (fun y hy => opens y (List.mem_cons_of_mem _ hy))
      (fun y hy => reads y (List.mem_cons_of_mem _ hy)) bound (Nat.lt_of_succ_lt_succ long)
    exact readItems_cons (Items.next_comma (opens x List.mem_cons_self _))
      (reads x List.mem_cons_self _ (ends_writeItems _ k)) rest

/-- **A written list is read item by item.** -/
theorem readList_write {xs : List β} (opens : ∀ x ∈ xs, ∀ k, Opens ((toJson x).write k))
    (reads : ∀ x ∈ xs, ∀ k, Ends k → item ((toJson x).write k) = (read x).map (·, k))
    (k : List Char) : readList item (writeList (xs.map toJson) k) = (xs.mapM read).map (·, k) := by
  cases xs with
  | nil => rfl
  | cons x xs =>
    have opensAll := fun y hy => opens y (List.mem_cons_of_mem x hy)
    have readsAll := fun y hy => reads y (List.mem_cons_of_mem x hy)
    -- The text is its own bound, and the first item takes at least one character of it.
    obtain ⟨c, r, front, _⟩ := opens x List.mem_cons_self []
    have text : (toJson x).write (writeItems (xs.map toJson) k) =
        c :: (r ++ writeItems (xs.map toJson) k) := by
      rw [← List.cons_append, ← front]
      exact (toJson x).write_append [] _
    have long : xs.length < (r ++ writeItems (xs.map toJson) k).length := by
      have tail := length_writeItems (xs.map toJson) k
      rw [List.length_map] at tail
      rw [List.length_append]
      omega
    have rest := readItems_write opensAll readsAll _ k long
    have next := Items.next_first (opens x List.mem_cons_self (writeItems (xs.map toJson) k))
    have bound : readList item (writeList ((x :: xs).map toJson) k) =
        readItems item (c :: (r ++ writeItems (xs.map toJson) k)) true
          ((toJson x).write (writeItems (xs.map toJson) k)) :=
      congrArg (readItems item · true _) text
    rw [bound]
    exact readItems_cons next (reads x List.mem_cons_self _ (ends_writeItems _ k)) rest

end

/-! ## objects -/

theorem readMembers_more {σ : Type} {member : String → σ → Reader σ} {first : Bool} {found : σ}
    {b : Char} {bound s r : List Char} {name : String}
    (next : Members.next first s = .ok (.more name r)) :
    readMembers member (b :: bound) first found s =
      (member name found r >>= fun x => readMembers member bound false x.1 x.2) := by
  rw [readMembers, next]
  rfl

theorem Members.next_name (name : String) (k : List Char) :
    Members.next true (writeString name k) = .ok (.more name k) := by
  show (readText (name.toList.foldr writeChar ('"' :: k)) >>= _) = _
  rw [readText_write]
  rfl

theorem Members.next_comma (name : String) (k : List Char) :
    Members.next false (',' :: writeString name k) = .ok (.more name k) := by
  show (readText (name.toList.foldr writeChar ('"' :: k)) >>= _) = _
  rw [readText_write]
  rfl

end HqlWhere.Json
