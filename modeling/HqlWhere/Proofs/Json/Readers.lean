import HqlWhere.Json.Reader

/-!
# Readers one after the other

A reader that calls others goes on where the last of them stopped, and ends at the first fault.
-/

namespace HqlWhere.Json

variable {ε α β : Type}

theorem ok_bind (x : α) (f : α → Except ε β) : (Except.ok x >>= f) = f x := rfl

theorem error_bind (e : ε) (f : α → Except ε β) : (Except.error e >>= f) = .error e := rfl

theorem bind_eq_ok {x : Except ε α} {f : α → Except ε β} {b : β} :
    (x >>= f) = .ok b ↔ ∃ a, x = .ok a ∧ f a = .ok b := by
  cases x with
  | error e =>
    rw [error_bind]
    constructor
    · intro h
      cases h
    · rintro ⟨a, h, _⟩
      cases h
  | ok a =>
    rw [ok_bind]
    constructor
    · intro h
      exact ⟨a, rfl, h⟩
    · rintro ⟨a', h, hb⟩
      obtain rfl := Except.ok.inj h
      exact hb

theorem map_eq_ok {x : Except ε α} {f : α → β} {b : β} :
    x.map f = .ok b ↔ ∃ a, x = .ok a ∧ f a = b := by
  cases x with
  | error e =>
    constructor
    · intro h
      cases h
    · rintro ⟨a, h, _⟩
      cases h
  | ok a =>
    constructor
    · intro h
      exact ⟨a, rfl, Except.ok.inj h⟩
    · rintro ⟨a', h, hb⟩
      obtain rfl := Except.ok.inj h
      exact congrArg _ hb

theorem mapError_eq_ok {ε' : Type} {x : Except ε α} {f : ε → ε'} {a : α} :
    x.mapError f = .ok a ↔ x = .ok a := by
  cases x with
  | error e => exact ⟨nofun, nofun⟩
  | ok b =>
    constructor
    · intro h
      exact congrArg _ (Except.ok.inj h)
    · intro h
      exact congrArg _ (Except.ok.inj h)

/-- what a whole text is read as stands in front of nothing but spaces -/
theorem readAll_eq_ok {read : Reader α} {s : List Char} {x : α} :
    readAll read s = .ok x ↔ ∃ r, read s = .ok (x, r) ∧ skipSpace r = [] := by
  unfold readAll
  rw [bind_eq_ok]
  constructor
  · rintro ⟨⟨y, r⟩, found, h⟩
    dsimp only at h
    split at h
    · obtain rfl := Except.ok.inj h
      exact ⟨r, found, ‹_›⟩
    · cases h
  · rintro ⟨r, found, blank⟩
    refine ⟨_, found, ?_⟩
    dsimp only
    rw [if_pos blank]
    rfl

end HqlWhere.Json
