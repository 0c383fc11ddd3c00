import HqlWhere.Proofs.Json.Locality

/-!
# Written integers are read back

The digits of a written integer have no leading zero, so they are a number's whole part.

* `readNumberText_writeInt`, `NumberText.integer?_ofInt`   the parts of a written integer of any size,
                                                            and what they make up;
* `readNumber_writeInt`                                    one that fits a 64-bit word is read back.
-/

namespace HqlWhere

theorem Numeral.head?_write {n : Nat} (h : n ≠ 0) : (write n).head? ≠ some '0' := by
  induction n using Nat.strongRecOn with
  | ind n ih =>
    unfold write at ih ⊢
    rw [Nat.toDigits_eq_if (by decide)]
    split
    · have digit : ∀ d : Fin 10, d.val ≠ 0 → Nat.digitChar d.val ≠ '0' := by decide
      simpa using digit ⟨n, ‹_›⟩ h
    · have front := ih (n / 10) (by omega) (by omega)
      cases digits : Nat.toDigits 10 (n / 10) with
      | nil => exact absurd digits Nat.toDigits_ne_nil
      | cons c s =>
        rw [digits] at front
        exact front

theorem Numeral.write_eq_cons (n : Nat) : ∃ c r, write n = c :: r ∧ c.isDigit = true := by
  cases digits : write n with
  | nil => exact absurd digits (write_ne_nil n)
  | cons c r => exact ⟨c, r, rfl, isDigit_of_mem_write (digits ▸ List.mem_cons_self : c ∈ write n)⟩

/-- the notation of a decimal starts with a digit -/
theorem Decimal.write_eq_cons (d : Decimal) : ∃ c r, d.write = c :: r ∧ c.isDigit = true := by
  obtain ⟨c, r, digits, digit⟩ := Numeral.write_eq_cons d.digits
  unfold write
  split
  · unfold positional
    rw [digits]
    dsimp only
    split
    · exact ⟨'0', _, rfl, rfl⟩
    · split
      · exact ⟨c, _, rfl, digit⟩
      · obtain ⟨n, whole⟩ : ∃ n, (d.leading + 1).toNat = n + 1 := by
          exact ⟨d.leading.toNat, by omega⟩
        rw [whole]
        exact ⟨c, _, rfl, digit⟩
  · unfold scientific
    rw [digits]
    exact ⟨c, _, rfl, digit⟩

namespace Json

theorem readWhole_eq_ok {missing : List Char → Fault} {s r digits : List Char} :
    readWhole missing s = .ok (digits, r) ↔
      readDigits missing s = .ok (digits, r) ∧
        ¬(digits.head? = some '0' ∧ digits.length ≠ 1) := by
  unfold readWhole
  rw [bind_eq_ok]
  constructor
  · rintro ⟨⟨found, rest⟩, read, h⟩
    dsimp only at h
    split at h
    · cases h
    · obtain ⟨rfl, rfl⟩ := Prod.mk.inj (Except.ok.inj h)
      exact ⟨read, ‹_›⟩
  · rintro ⟨read, zero⟩
    refine ⟨_, read, ?_⟩
    dsimp only
    rw [if_neg zero]
    rfl

/-- digits without a leading zero are read as a whole part -/
theorem readWhole_write (missing : List Char → Fault) (n : Nat) :
    readWhole missing (Numeral.write n) = .ok (Numeral.write n, []) := by
  have digits : ∀ c ∈ Numeral.write n, c.isDigit = true := fun c hc =>
    Numeral.isDigit_of_mem_write hc
  have take : (Numeral.write n ++ []).takeWhile Char.isDigit = Numeral.write n ++ [] :=
    List.takeWhile_append_of_pos digits
  have drop : (Numeral.write n ++ []).dropWhile Char.isDigit = [] :=
    List.dropWhile_append_of_pos digits
  rw [List.append_nil] at take drop
  refine readWhole_eq_ok.mpr ⟨readDigits_eq_ok.mpr ⟨take, drop, Numeral.write_ne_nil n⟩, ?_⟩
  · rintro ⟨zero, long⟩
    by_cases hn : n = 0
    · subst hn
      exact long rfl
    · exact Numeral.head?_write hn zero

theorem numberSign_write (n : Nat) : numberSign (Numeral.write n) = (false, Numeral.write n) := by
  obtain ⟨c, s, digits, digit⟩ := Numeral.write_eq_cons n
  rw [digits, numberSign_of_isDigit digit]

/-- The parts of a written integer. -/
def NumberText.ofInt (n : Int) : NumberText := ⟨decide (n < 0), Numeral.write n.natAbs, none, none⟩

/-- an integer of any size is taken apart as it is written -/
theorem readNumberText_writeInt (missing : List Char → Fault) (n : Int) :
    readNumberText missing (Numeral.writeInt n) = .ok (.ofInt n, []) := by
  cases n with
  | ofNat n =>
    rw [readNumberText_eq, Numeral.writeInt, numberSign_write, readWhole_write]
    rfl
  | negSucc n =>
    have sign : numberSign (Numeral.writeInt (.negSucc n)) = (true, Numeral.write (n + 1)) := rfl
    rw [readNumberText_eq, sign, readWhole_write, NumberText.ofInt,
      decide_eq_true (Int.negSucc_lt_zero n)]
    rfl

/-- The parts make up an integer again only if it fits a 64-bit word. -/
theorem NumberText.integer?_ofInt (n : Int) : (ofInt n).integer? =
    if -0x8000000000000000 ≤ n ∧ n < 0x10000000000000000 then some n else none := by
  unfold integer? ofInt
  dsimp only
  rw [Numeral.value_write, if_neg (by simp)]
  by_cases sign : n < 0
  · rw [if_pos (by simpa using sign), ← Int.eq_neg_natAbs_of_nonpos (by omega)]
    split <;> split <;> first | rfl | omega
  · rw [if_neg (by simpa using sign), Int.natAbs_of_nonneg (by omega)]
    split <;> split <;> first | rfl | omega

/-- **A written integer that fits a word is read back.** -/
theorem readNumber_writeInt {n : Int} (low : -0x8000000000000000 ≤ n)
    (high : n < 0x10000000000000000) :
    readNumber (Numeral.writeInt n) = .ok (.integer n, []) := by
  unfold readNumber
  rw [readNumberText_writeInt, ok_bind]
  dsimp only
  rw [NumberText.number?, NumberText.integer?_ofInt, if_pos ⟨low, high⟩]
  rfl

end Json

end HqlWhere
