import HqlWhere.Distinct
import HqlWhere.Document.Value
import HqlWhere.Expr
import Mathlib.Data.Finset.Card
import Mathlib.Data.Fintype.Basic

/-!
# Equality and hashing agree

Items that are equal feed the same words to a hash.  So whatever a hasher makes of these words, a
hash set holds each item of a list once, and its size is told by the list: it is the number of the
places whose item is equal to none before it.

* `newPlaces`, `card_newPlaces`   these places, as many as a list without repetitions has items;
* `hashBy`, `setBy`               a hasher of the words, and the set that it makes of a list;
* `HashesAsEqual`                 what equality and hashing of a type are then like;
* `equality_and_hashing_agree`    values, paths, operators, predicates and trees are so.
-/

namespace HqlWhere

/-! ## the places of new items -/

section
variable {α : Type} [BEq α]

/-- The places whose item is equal to none before it. -/
def newPlaces (items : List α) : Finset (Fin items.length) :=
  {i | ∀ j < i, (items[j] == items[i]) = false}

theorem mem_newPlaces {items : List α} {i : Fin items.length} :
    i ∈ newPlaces items ↔ ∀ j < i, (items[j] == items[i]) = false := by
  rw [newPlaces, Finset.mem_filter, and_iff_right (Finset.mem_univ i)]

variable [LawfulBEq α]

/-- every item of the list stands at a new place: its first -/
theorem exists_newPlace {items : List α} {a : α} (mem : a ∈ items) :
    ∃ i ∈ newPlaces items, items[i] = a := by
  have inside : items.findIdx (· == a) < items.length :=
    List.findIdx_lt_length_of_exists ⟨a, mem, BEq.rfl⟩
  have here : items[items.findIdx (· == a)] = a := eq_of_beq (List.findIdx_getElem (p := (· == a)))
  refine ⟨⟨_, inside⟩, mem_newPlaces.mpr fun j before => ?_, here⟩
  have other := List.not_of_lt_findIdx (Fin.lt_def.mp before)
  rw [Fin.getElem_fin, Fin.getElem_fin, here]
  exact other

/-- A list of the same items, each once, is as long as there are new places. -/
theorem card_newPlaces {items once : List α} (nodup : once.Nodup)
    (same : ∀ a, a ∈ once ↔ a ∈ items) : (newPlaces items).card = once.length := by
  classical
  rw [← List.toFinset_card_of_nodup nodup]
  refine Finset.card_bij (fun i _ => items[i]) ?_ ?_ ?_
  · intro i _
    exact List.mem_toFinset.mpr ((same _).mpr (items.getElem_mem i.isLt))
  · intro i hi j hj eq
    -- of two places with one item the later is not new
    rcases lt_trichotomy i j with before | at_same | behind
    · have other := mem_newPlaces.mp hj i before
      rw [eq, beq_self_eq_true] at other
      cases other
    · exact at_same
    · have other := mem_newPlaces.mp hi j behind
      rw [← eq, beq_self_eq_true] at other
      cases other
  · intro a mem
    obtain ⟨i, new, here⟩ := exists_newPlace ((same a).mp (List.mem_toFinset.mp mem))
    exact ⟨i, new, here⟩

variable [Hashable α] [LawfulHashable α]

/-- **The size of a hash set is told by any list of its items**, in whatever order they were put in.
-/
theorem size_ofList {items order : List α} (perm : order.Perm items) :
    (Std.HashSet.ofList order).size = (newPlaces items).card := by
  have nodup : (Std.HashSet.ofList order).toList.Nodup :=
    Std.HashSet.distinct_toList.imp fun other eq => by
      rw [eq, beq_self_eq_true] at other
      cases other
  have same : ∀ a, a ∈ (Std.HashSet.ofList order).toList ↔ a ∈ items := by
    intro a
    rw [Std.HashSet.mem_toList, Std.HashSet.mem_ofList, List.contains_iff_mem, perm.mem_iff]
  rw [card_newPlaces nodup same, Std.HashSet.length_toList]

theorem contains_ofList_iff {items order : List α} (perm : order.Perm items) (a : α) :
    (Std.HashSet.ofList order).contains a = true ↔ a ∈ items := by
  rw [Std.HashSet.contains_ofList, List.contains_iff_mem, perm.mem_iff]

end

/-! ## hashing what an item feeds -/

section
variable {α : Type} [BEq α] [Feeds α]

/-- Hashing by a hasher, which makes one word of those that it is fed. -/
@[reducible] def hashBy (hasher : List UInt64 → UInt64) : Hashable α := ⟨fun a => hasher (feed a)⟩

/-- The hash set in which the items are put one after the other. -/
def setBy (hasher : List UInt64 → UInt64) (items : List α) : @Std.HashSet α _ (hashBy hasher) :=
  @Std.HashSet.ofList α _ (hashBy hasher) items

theorem feed_eq_of_beq [LawfulBEq α] {a b : α} (h : (a == b) = true) : feed a = feed b :=
  congrArg feed (eq_of_beq h)

theorem lawfulHashable_hashBy [LawfulBEq α] (hasher : List UInt64 → UInt64) :
    @LawfulHashable α _ (hashBy hasher) :=
  @LawfulHashable.mk α _ (hashBy hasher) fun _ _ h => congrArg hasher (feed_eq_of_beq h)

/-- Equality is an equivalence and equal items feed the same words, so that a hash set tells items
apart as equality does: under any hasher, and under the one by which the items are hashed. -/
structure HashesAsEqual (α : Type) [BEq α] [Feeds α] [Hashable α] : Prop where
  refl : ∀ a : α, (a == a) = true
  symm : ∀ a b : α, (a == b) = true → (b == a) = true
  trans : ∀ a b c : α, (a == b) = true → (b == c) = true → (a == c) = true
  feed_eq : ∀ a b : α, (a == b) = true → feed a = feed b
  size_eq : ∀ (hasher : List UInt64 → UInt64) (items order : List α), order.Perm items →
    (setBy hasher order).size = (newPlaces items).card
  contains_iff : ∀ (hasher : List UInt64 → UInt64) (items order : List α), order.Perm items →
    ∀ a, (setBy hasher order).contains a = true ↔ a ∈ items
  count_eq : ∀ items order : List α, order.Perm items →
    distinctCount order = (newPlaces items).card

theorem hashesAsEqual [LawfulBEq α] [Hashable α] (hash_eq : ∀ a : α, hash a = mixAll (feed a)) :
    HashesAsEqual α := by
  have lawful : LawfulHashable α := ⟨fun a b h => by rw [hash_eq, hash_eq, feed_eq_of_beq h]⟩
  exact
    { refl := fun _ => BEq.rfl
      symm := fun _ _ => BEq.symm
      trans := fun _ _ _ => BEq.trans
      feed_eq := fun _ _ => feed_eq_of_beq
      size_eq := fun hasher _ _ =>
        @size_ofList α _ _ (hashBy hasher) (lawfulHashable_hashBy hasher) _ _
      contains_iff := fun hasher _ _ =>
        @contains_ofList_iff α _ _ (hashBy hasher) (lawfulHashable_hashBy hasher) _ _
      count_eq := fun _ _ => size_ofList }

end

/-! ## values -/

namespace Value

def kind : Value → Kind
  | int _ => .int
  | uint _ => .uint
  | float _ => .float
  | string _ => .string
  | boolean _ => .boolean
  | uuid _ => .uuid
  | date _ => .date
  | timestamp _ => .timestamp
  | null => .null

theorem kind_eq_of_beq {v w : Value} (h : (v == w) = true) : v.kind = w.kind :=
  congrArg kind (eq_of_beq h)

theorem float_beq_iff {x y : Binary64} :
    (Value.float x == Value.float y) = true ↔ x.bits = y.bits := by
  rw [beq_iff_eq, Value.float.injEq, Binary64.bits_inj]

end Value

/-- **Equality and hashing agree at every level**, on values, paths, operators, predicates and
trees.  Equal values are of one kind, and two floating point numbers are equal exactly if their bits
are, be they numbers or not. -/
theorem equality_and_hashing_agree :
    HashesAsEqual Value ∧ HashesAsEqual Path ∧ HashesAsEqual Operator ∧
      HashesAsEqual Predicate ∧ HashesAsEqual Expr ∧
      (∀ v w : Value, (v == w) = true → v.kind = w.kind) ∧
      ∀ x y : Binary64, (Value.float x == Value.float y) = true ↔ x.bits = y.bits :=
  ⟨hashesAsEqual fun _ => rfl, hashesAsEqual fun _ => rfl, hashesAsEqual fun _ => rfl,
    hashesAsEqual fun _ => rfl, hashesAsEqual fun _ => rfl, fun _ _ => Value.kind_eq_of_beq,
    fun _ _ => Value.float_beq_iff⟩

namespace Value

def zero : Value := float ⟨0⟩

def minusZero : Value := float ⟨0x8000000000000000⟩

def notANumber : Value := float ⟨0x7FF8000000000000⟩

/-- Both zeros and twice the same not-a-number are three values under any hasher, and `1` is another
value with a sign than without. -/
theorem distinct_zeros (hasher : List UInt64 → UInt64) :
    (setBy hasher [notANumber, zero, minusZero, notANumber]).size = 3 ∧
      (setBy hasher [zero, minusZero, notANumber, notANumber]).contains notANumber = true ∧
      (int 1 == uint 1) = false := by
  obtain ⟨values, _, _, _, _, kinds, _⟩ := equality_and_hashing_agree
  refine ⟨?_, ?_, ?_⟩
  · have size := values.size_eq hasher [zero, minusZero, notANumber, notANumber]
      [notANumber, zero, minusZero, notANumber] (by decide)
    exact size.trans (by decide)
  · exact (values.contains_iff hasher _ _ (.refl _) notANumber).mpr (by decide)
  · rw [Bool.eq_false_iff]
    exact fun same => absurd (kinds _ _ same) (by decide)

end Value

end HqlWhere
