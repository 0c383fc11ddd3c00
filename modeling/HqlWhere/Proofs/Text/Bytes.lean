import Mathlib.Data.List.Lex
import Mathlib.Data.String.Basic

/-!
# The order of UTF-8 bytes

Texts are ordered by their characters.  UTF-8 keeps that order: of two texts the one with the lesser
bytes, compared from the first on, is the lesser.  Where two characters differ, the bytes of neither
are the first bytes of the other, so what stands behind them plays no part.

* `utf8`                      the bytes of a text;
* `utf8EncodeChar_append_lt`  the lesser character has the lesser bytes, in front of any bytes;
* `utf8_lt_iff`               the order of texts is the order of their bytes.
-/

namespace HqlWhere.Text

/-- The bytes of a text in UTF-8. -/
def utf8 (s : String) : List UInt8 := s.toUTF8.data.toList

theorem utf8_eq (s : String) : utf8 s = s.toList.flatMap String.utf8EncodeChar := by
  have whole := String.toByteArray_ofList (l := s.toList)
  rw [String.ofList_toList] at whole
  show s.toByteArray.data.toList = _
  rw [whole, List.utf8Encode, List.toList_data_toByteArray]

/-- A lesser first byte decides, -/
theorem byte_cons_lt_of_lt {a b : Nat} {s t : List UInt8} (less : a < b) (byte : b < 256) :
    UInt8.ofNat a :: s < UInt8.ofNat b :: t := by
  rw [List.cons_lt_cons_iff]
  exact .inl ((UInt8.ofNat_lt_iff_lt (Nat.lt_trans less byte) byte).mpr less)

/-- and equal first bytes leave it to what stands behind them. -/
theorem byte_cons_lt_of_le {a b : Nat} {s t : List UInt8} (le : a ≤ b) (byte : b < 256)
    (tie : a = b → s < t) : UInt8.ofNat a :: s < UInt8.ofNat b :: t := by
  rcases Nat.lt_or_eq_of_le le with less | rfl
  · exact byte_cons_lt_of_lt less byte
  · exact List.cons_lt_cons_iff.mpr (.inr ⟨rfl, tie rfl⟩)

/-- **The lesser character has the lesser bytes**, whatever bytes stand behind. -/
theorem utf8EncodeChar_append_lt {c d : Char} (h : c < d) (s t : List UInt8) :
    String.utf8EncodeChar c ++ s < String.utf8EncodeChar d ++ t := by
  have less : c.val.toNat < d.val.toNat := h
  have bound : d.val.toNat < 1114112 := by
    rcases d.valid with low | ⟨_, high⟩ <;> omega
  unfold String.utf8EncodeChar
  dsimp only
  generalize c.val.toNat = v at less ⊢
  generalize d.val.toNat = w at less bound ⊢
  -- A character of more bytes has the greater first byte.  Two of as many bytes differ in one of
  -- these, since all bits of a character stand in them.
  by_cases one : w ≤ 127
  · rw [if_pos (by omega : v ≤ 127), if_pos one]
    exact byte_cons_lt_of_lt (by omega) (by omega)
  rw [if_neg one]
  by_cases two : w ≤ 2047
  · rw [if_pos two]
    split
    · exact byte_cons_lt_of_lt (by omega) (by omega)
    rw [if_pos (by omega)]
    refine byte_cons_lt_of_le (by omega) (by omega) fun first => ?_
    exact byte_cons_lt_of_lt (by omega) (by omega)
  rw [if_neg two]
  by_cases three : w ≤ 65535
  · rw [if_pos three]
    split
    · exact byte_cons_lt_of_lt (by omega) (by omega)
    split
    · exact byte_cons_lt_of_lt (by omega) (by omega)
    rw [if_pos (by omega)]
    refine byte_cons_lt_of_le (by omega) (by omega) fun first => ?_
    refine byte_cons_lt_of_le (by omega) (by omega) fun second => ?_
    exact byte_cons_lt_of_lt (by omega) (by omega)
  rw [if_neg three]
  split
  · exact byte_cons_lt_of_lt (by omega) (by omega)
  split
  · exact byte_cons_lt_of_lt (by omega) (by omega)
  split
  · exact byte_cons_lt_of_lt (by omega) (by omega)
  refine byte_cons_lt_of_le (by omega) (by omega) fun first => ?_
  refine byte_cons_lt_of_le (by omega) (by omega) fun second => ?_
  refine byte_cons_lt_of_le (by omega) (by omega) fun third => ?_
  exact byte_cons_lt_of_lt (by omega) (by omega)

theorem flatMap_lt {s t : List Char} (h : s < t) :
    s.flatMap String.utf8EncodeChar < t.flatMap String.utf8EncodeChar := by
  induction s generalizing t with
  | nil =>
    cases t with
    | nil => exact absurd h (List.not_lt_nil _)
    | cons d t =>
      obtain ⟨b, bytes, first⟩ := List.exists_cons_of_ne_nil (String.utf8EncodeChar_ne_nil (c := d))
      rw [List.flatMap_nil, List.flatMap_cons, first]
      exact List.nil_lt_cons _ _
  | cons c s ih =>
    cases t with
    | nil => exact absurd h (List.not_lt_nil _)
    | cons d t =>
      rw [List.flatMap_cons, List.flatMap_cons]
      rcases List.cons_lt_cons_iff.mp h with less | ⟨rfl, behind⟩
      · exact utf8EncodeChar_append_lt less _ _
      · exact List.append_left_lt (ih behind)

/-- **Texts are ordered as their bytes are.** -/
theorem utf8_lt_iff {a b : String} : utf8 a < utf8 b ↔ a < b := by
  have mono : ∀ {x y : String}, x < y → utf8 x < utf8 y := by
    intro x y less
    rw [utf8_eq, utf8_eq]
    exact flatMap_lt (String.lt_iff_toList_lt.mp less)
  refine ⟨fun bytes => ?_, mono⟩
  rcases lt_trichotomy a b with less | rfl | greater
  · exact less
  · exact absurd bytes (List.lt_irrefl _)
  · exact absurd (mono greater) (List.lt_asymm bytes)

end HqlWhere.Text
