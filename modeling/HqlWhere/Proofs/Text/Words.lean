import HqlWhere.Text.Blank
import Mathlib.Data.List.Forall2

/-!
# Words between white space

What is left of a text without the white space at its two ends, and when two texts are the same but
for the case of ASCII letters.

* `whiteSpace`, `isBlank_iff`        the white space of Unicode, character by character;
* `Strips`, `strips_iff`             a text between white space, and that `trim` finds it;
* `SameButCase`, `sameButCase_iff`   texts up to case, letter by letter, and that `Char.toUpper` on
                                     both sides decides it.
-/

namespace HqlWhere.Text

/-! ## white space -/

/-- The numbers of the characters with the property White_Space. -/
def whiteSpace : List Nat :=
  [0x0009, 0x000A, 0x000B, 0x000C, 0x000D, 0x0020, 0x0085, 0x00A0, 0x1680, 0x2000, 0x2001, 0x2002,
    0x2003, 0x2004, 0x2005, 0x2006, 0x2007, 0x2008, 0x2009, 0x200A, 0x2028, 0x2029, 0x202F, 0x205F,
    0x3000]

theorem isBlank_iff {c : Char} : isBlank c = true ↔ c.toNat ∈ whiteSpace := by
  simp only [isBlank, whiteSpace, Bool.or_eq_true, Bool.and_eq_true, decide_eq_true_eq,
    beq_iff_eq, List.mem_cons, List.not_mem_nil, or_false]
  omega

/-- `word` is what is left of `s` without the white space at its two ends. -/
def Strips (s word : List Char) : Prop :=
  ∃ front back, s = front ++ (word ++ back) ∧
    (∀ c ∈ front, c.toNat ∈ whiteSpace) ∧ (∀ c ∈ back, c.toNat ∈ whiteSpace) ∧
    (∀ c ∈ word.head?, c.toNat ∉ whiteSpace) ∧ ∀ c ∈ word.getLast?, c.toNat ∉ whiteSpace

section
variable {s t word : List Char}

theorem dropWhile_blank (blank : ∀ c ∈ s, c.toNat ∈ whiteSpace)
    (dark : ∀ c ∈ t.head?, c.toNat ∉ whiteSpace) : (s ++ t).dropWhile isBlank = t := by
  rw [List.dropWhile_append_of_pos fun c hc => isBlank_iff.mpr (blank c hc)]
  cases t with
  | nil => rfl
  | cons c t =>
    have first : ¬ isBlank c = true := fun h => dark c rfl (isBlank_iff.mp h)
    rw [List.dropWhile_cons, if_neg first]

/-- the text is white space and what `dropWhile` leaves of it, which starts with none -/
theorem exists_blank (s : List Char) : ∃ front, s = front ++ s.dropWhile isBlank ∧
    (∀ c ∈ front, c.toNat ∈ whiteSpace) ∧
    ∀ c ∈ (s.dropWhile isBlank).head?, c.toNat ∉ whiteSpace := by
  refine ⟨s.takeWhile isBlank, List.takeWhile_append_dropWhile.symm, ?_, ?_⟩
  · intro c hc
    exact isBlank_iff.mp (List.all_eq_true.mp List.all_takeWhile c hc)
  · intro c hc blank
    have dark := List.head?_dropWhile_not isBlank s
    rw [hc] at dark
    exact absurd (isBlank_iff.mpr blank) (Bool.eq_false_iff.mp dark)

theorem strips_trim (s : List Char) : Strips s (trim s) := by
  obtain ⟨front, text, blankFront, head⟩ := exists_blank s
  obtain ⟨back, rest, blankBack, last⟩ := exists_blank (trimStart s).reverse
  -- Read from its end, what is left behind the first white space is the other white space and the
  -- word.
  have word : trimStart s = trim s ++ back.reverse := by
    have reversed := congrArg List.reverse rest
    rwa [List.reverse_reverse, List.reverse_append] at reversed
  refine ⟨front, back.reverse, ?_, blankFront, ?_, ?_, ?_⟩
  · rw [← word]
    exact text
  · simpa using blankBack
  · intro c hc
    have first : c ∈ (trimStart s).head? := by
      rw [word, List.head?_append, Option.mem_def.mp hc]
      rfl
    exact head c first
  · intro c hc
    rw [trim, trimEnd, List.getLast?_reverse] at hc
    exact last c hc

/-- **What is left of a text without white space at its ends is what `trim` finds**, and nothing
else. -/
theorem strips_iff : Strips s word ↔ trim s = word := by
  constructor
  · rintro ⟨front, back, rfl, blankFront, blankBack, head, last⟩
    have blankReversed : ∀ c ∈ back.reverse, c.toNat ∈ whiteSpace := by simpa using blankBack
    rw [trim, trimStart]
    cases word with
    | nil =>
      have blank : ∀ c ∈ front ++ back, c.toNat ∈ whiteSpace :=
        List.forall_mem_append.mpr ⟨blankFront, blankBack⟩
      have nothing := dropWhile_blank (t := []) blank nofun
      rw [List.append_nil] at nothing
      rw [List.nil_append, nothing]
      rfl
    | cons c word =>
      rw [dropWhile_blank blankFront (by simpa using head), trimEnd, List.reverse_append,
        dropWhile_blank blankReversed (by rwa [List.head?_reverse]), List.reverse_reverse]
  · rintro rfl
    exact strips_trim s

/-- more white space around a text leaves its word as it is -/
theorem trim_surrounded {front back : List Char} (blankFront : ∀ c ∈ front, c.toNat ∈ whiteSpace)
    (blankBack : ∀ c ∈ back, c.toNat ∈ whiteSpace) : trim (front ++ (s ++ back)) = trim s := by
  obtain ⟨front', back', text, blankFront', blankBack', head, last⟩ := strips_trim s
  refine strips_iff.mp ⟨front ++ front', back' ++ back, ?_,
    List.forall_mem_append.mpr ⟨blankFront, blankFront'⟩,
    List.forall_mem_append.mpr ⟨blankBack', blankBack⟩, head, last⟩
  conv_lhs => rw [text]
  simp only [List.append_assoc]

end

/-! ## letters -/

/-- The ASCII letters, each capital with its small letter. -/
def letterPairs : List (Char × Char) :=
  "ABCDEFGHIJKLMNOPQRSTUVWXYZ".toList.zip "abcdefghijklmnopqrstuvwxyz".toList

/-- One of the ASCII letters, in either case. -/
def IsLetter (c : Char) : Prop := ∃ p ∈ letterPairs, c = p.1 ∨ c = p.2

/-- The same character, or the same ASCII letter in the other case. -/
def SameLetter (c d : Char) : Prop := c = d ∨ (c, d) ∈ letterPairs ∨ (d, c) ∈ letterPairs

instance (c : Char) : Decidable (IsLetter c) :=
  inferInstanceAs (Decidable (∃ p ∈ letterPairs, c = p.1 ∨ c = p.2))

instance (c d : Char) : Decidable (SameLetter c d) :=
  inferInstanceAs (Decidable (_ ∨ _ ∨ _))

/-- The same text but for the case of ASCII letters. -/
def SameButCase (s t : List Char) : Prop := List.Forall₂ SameLetter s t

theorem toUpper_cases (c : Char) : c.toUpper = c ∨ (c.toUpper, c) ∈ letterPairs := by
  have table : ∀ i : Fin 26, (Char.ofNat (97 + i.val)).toUpper = Char.ofNat (65 + i.val) ∧
      (Char.ofNat (65 + i.val), Char.ofNat (97 + i.val)) ∈ letterPairs := by decide
  by_cases small : 'a'.val ≤ c.val ∧ c.val ≤ 'z'.val
  · have low : 97 ≤ c.toNat := UInt32.le_iff_toNat_le.mp small.1
    have high : c.toNat ≤ 122 := UInt32.le_iff_toNat_le.mp small.2
    obtain ⟨upper, pair⟩ := table ⟨c.toNat - 97, by omega⟩
    have same : Char.ofNat (97 + (c.toNat - 97)) = c := by
      rw [Nat.add_sub_cancel' low, Char.ofNat_toNat]
    dsimp only at upper pair
    rw [same] at upper pair
    rw [upper]
    exact .inr pair
  · exact .inl (dif_neg small)

theorem sameLetter_iff {c d : Char} : SameLetter c d ↔ c.toUpper = d.toUpper := by
  have upper : ∀ p ∈ letterPairs, p.1.toUpper = p.2.toUpper := by decide
  have small : ∀ p ∈ letterPairs, ∀ q ∈ letterPairs, p.1 = q.1 → p.2 = q.2 := by decide
  constructor
  · rintro (rfl | pair | pair)
    · rfl
    · exact upper _ pair
    · exact (upper _ pair).symm
  · intro same
    rcases toUpper_cases c with first | first <;> rcases toUpper_cases d with second | second
    · rw [first, second] at same
      exact .inl same
    · rw [← same, first] at second
      exact .inr (.inl second)
    · rw [same, second] at first
      exact .inr (.inr first)
    · exact .inl (small _ first _ second same)

theorem sameButCase_iff {s t : List Char} :
    SameButCase s t ↔ s.map Char.toUpper = t.map Char.toUpper := by
  rw [← List.forall₂_eq_eq_eq, List.forall₂_map_left_iff, List.forall₂_map_right_iff]
  have same : SameLetter = fun c d => c.toUpper = d.toUpper := by
    funext c d
    exact propext sameLetter_iff
  rw [SameButCase, same]

/-- letters are not white space in either case -/
theorem isBlank_toUpper (c : Char) : isBlank c.toUpper = isBlank c := by
  have dark : ∀ p ∈ letterPairs, isBlank p.1 = false ∧ isBlank p.2 = false := by decide
  rcases toUpper_cases c with same | pair
  · rw [same]
  · obtain ⟨capital, small⟩ := dark (c.toUpper, c) pair
    dsimp only at capital small
    rw [capital, small]

/-- the case of a text does not matter to where its word begins and ends -/
theorem trim_map_toUpper (s : List Char) : trim (s.map Char.toUpper) = (trim s).map Char.toUpper := by
  have blank : isBlank ∘ Char.toUpper = isBlank := funext isBlank_toUpper
  simp only [trim, trimEnd, trimStart, List.dropWhile_map, ← List.map_reverse, blank]

end HqlWhere.Text
