import HqlWhere.Uuid

/-!
# Written identifiers are read back

`Uuid.ofText_write`: the digits in groups are told apart from a wrapped text by their first
character, and their hyphens stand where they are looked for.
-/

namespace HqlWhere

theorem Hex.mem_digits {count n : Nat} {c : Char} (h : c ∈ digits count n) :
    ∃ d < 16, c = Nat.digitChar d := by
  induction count generalizing n with
  | zero => cases h
  | succ count ih =>
    rw [digits, List.mem_append] at h
    rcases h with front | last
    · exact ih front
    · exact ⟨n % 16, Nat.mod_lt n (by decide), List.mem_singleton.mp last⟩

namespace Uuid

theorem total_nil : total [] = 0 := rfl

theorem total_cons (n : Nat) (ns : List Nat) : total (n :: ns) = n + total ns := rfl

theorem isJoined_join {ns : List Nat} (some : ns ≠ []) {s : List Char} (h : s.length = total ns) :
    isJoined ns (join ns s) = true := by
  induction ns generalizing s with
  | nil => exact absurd rfl some
  | cons n ns ih =>
    rw [total_cons] at h
    cases ns with
    | nil =>
      rw [total_nil, Nat.add_zero] at h
      rw [join, isJoined, List.take_of_length_le (Nat.le_of_eq h), h]
      exact beq_self_eq_true n
    | cons m ns =>
      have front : (s.take n).length = n := by
        rw [List.length_take]
        omega
      have rest : (s.drop n).length = total (m :: ns) := by
        rw [List.length_drop]
        omega
      have drop : (s.take n ++ '-' :: join (m :: ns) (s.drop n)).drop n =
          '-' :: join (m :: ns) (s.drop n) := List.drop_left' front
      rw [join, isJoined, drop]
      · exact ih (List.cons_ne_nil m ns) rest
      · exact List.cons_ne_nil m ns
      · exact List.cons_ne_nil m ns

theorem unjoin_join {ns : List Nat} {s : List Char} (h : s.length = total ns)
    (plain : ∀ c ∈ s, c ≠ '-') : unjoin (join ns s) = s := by
  induction ns generalizing s with
  | nil => rw [List.eq_nil_of_length_eq_zero h]; rfl
  | cons n ns ih =>
    rw [total_cons] at h
    have keep : ∀ t : List Char, (∀ c ∈ t, c ≠ '-') → unjoin t = t := by
      intro t ht
      exact List.filter_eq_self.mpr fun c hc => bne_iff_ne.mpr (ht c hc)
    cases ns with
    | nil =>
      rw [total_nil, Nat.add_zero] at h
      rw [join, List.take_of_length_le (Nat.le_of_eq h), keep s plain]
    | cons m ns =>
      have rest : (s.drop n).length = total (m :: ns) := by
        rw [List.length_drop]
        omega
      have behind := ih rest fun c hc => plain c (List.mem_of_mem_drop hc)
      have front := keep (s.take n) fun c hc => plain c (List.mem_of_mem_take hc)
      rw [join, unjoin, List.filter_append]
      · show unjoin (s.take n) ++ unjoin (join (m :: ns) (s.drop n)) = s
        rw [front, behind, List.take_append_drop]
      · exact List.cons_ne_nil m ns

/-- the digits of an identifier, as a list that is not empty -/
theorem digits_eq_cons (n : Nat) :
    ∃ c s, Hex.digits digitCount n = c :: s ∧ ∃ d < 16, c = Nat.digitChar d := by
  cases digits : Hex.digits digitCount n with
  | nil =>
    have length := Hex.length_digits digitCount n
    rw [digits] at length
    cases length
  | cons c s => exact ⟨c, s, rfl, Hex.mem_digits (digits ▸ List.mem_cons_self)⟩

/-- nothing that starts with a digit is wrapped -/
theorem unwrap_digit {d : Nat} (h : d < 16) (s : List Char) :
    unwrap (Nat.digitChar d :: s) = (0, Nat.digitChar d :: s) := by
  have notBrace : ∀ d : Fin 16, Nat.digitChar d ≠ '{' := by decide
  have notUrn : ∀ d : Fin 16, (Nat.digitChar d).toLower ≠ 'u' := by decide
  unfold unwrap
  rw [if_neg, if_neg]
  · intro urn
    exact notUrn ⟨d, h⟩ (List.cons.inj urn).1
  · rintro ⟨brace, _⟩
    exact notBrace ⟨d, h⟩ (Option.some.inj brace)

theorem number?_write (u : Uuid) : number? u.write = some u.bits.toNat := by
  have length : (Hex.digits digitCount u.bits.toNat).length = digitCount :=
    Hex.length_digits _ _
  have plain : ∀ c ∈ Hex.digits digitCount u.bits.toNat, c ≠ '-' := by
    intro c hc
    obtain ⟨d, hd, rfl⟩ := Hex.mem_digits hc
    have notHyphen : ∀ d : Fin 16, Nat.digitChar d ≠ '-' := by decide
    exact notHyphen ⟨d, hd⟩
  have bare : unwrap u.write = (0, u.write) := by
    obtain ⟨c, s, digits, d, hd, rfl⟩ := digits_eq_cons u.bits.toNat
    unfold write
    rw [digits]
    exact unwrap_digit hd _
  have joined : isJoined groups u.write = true := isJoined_join (List.cons_ne_nil _ _) length
  have digits : unjoin u.write = Hex.digits digitCount u.bits.toNat := unjoin_join length plain
  have small : u.bits.toNat < Nat.pow 16 digitCount := u.bits.isLt
  unfold number?
  rw [bare]
  dsimp only
  rw [digits, if_pos ⟨length, .inl joined⟩, Hex.number?_digits, Nat.mod_eq_of_lt small]

/-- **A written identifier is read back.** -/
theorem ofText_write (u : Uuid) : ofText u.write = .ok u := by
  unfold ofText
  rw [number?_write]
  show Except.ok (ofNumber u.bits.toNat) = .ok u
  rw [ofNumber, BitVec.ofNat_toNat, BitVec.setWidth_eq]

end Uuid

end HqlWhere
