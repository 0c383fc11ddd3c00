import HqlWhere.Json.Reading
import HqlWhere.Json.Skip
import HqlWhere.Proofs.Json.Wanted

/-!
# Readers only go forward

What a reader leaves is the end of its text, so everything it has read stands in the text, one thing
behind the other.

* `Forward`               the reader leaves an end of its text; each `Local` reader does;
* `readItems_forward`     each item of a list was read somewhere in the text of the list;
* `readMembers_forward`   what each member of an object keeps, the object keeps;
* `forward_readValue`, `skipValue_suffix`   values, read or passed over.
-/

namespace HqlWhere.Json

variable {α β σ : Type}

/-- What the reader leaves is the end of its text. -/
def Forward (read : Reader α) : Prop := ∀ s x r, read s = .ok (x, r) → r <:+ s

theorem Local.forward {read : Reader α} (h : Local read) : Forward read :=
  fun s x r found => (h s x r found).1

theorem LocalRest.suffix {pass : List Char → Except Fault (List Char)} (h : LocalRest pass)
    {s r : List Char} (found : pass s = .ok r) : r <:+ s := (h s r found).1

theorem readColon_suffix {s r : List Char} (h : readColon s = .ok r) : r <:+ s :=
  local_readColon.suffix h

/-- what stands behind the first character of a token -/
theorem suffix_of_skipSpace {s r : List Char} {c : Char} (h : skipSpace s = c :: r) : r <:+ s :=
  (List.suffix_cons c r).trans (h ▸ skipSpace_suffix s)

/-! ## lists -/

/-- The text from where a list or an object goes on or behind its end. -/
def Next.rest : Next α → List Char
  | .ended r => r
  | .more _ r => r

theorem Items.next_suffix {first : Bool} {s : List Char} {n : Next Unit}
    (h : Items.next first s = .ok n) : n.rest <:+ s := by
  unfold Items.next at h
  split at h
  · cases h
  · rename_i c r front
    have here : c :: r <:+ s := front ▸ skipSpace_suffix s
    have behind : r <:+ s := suffix_of_skipSpace front
    split at h
    · obtain rfl := Except.ok.inj h
      exact behind
    · split at h
      · obtain rfl := Except.ok.inj h
        exact here
      · split at h
        · split at h
          · cases h
          · rename_i d t next
            split at h
            · cases h
            · obtain rfl := Except.ok.inj h
              exact (next ▸ skipSpace_suffix r).trans behind
        · cases h

theorem Items.close_suffix {s r : List Char} (h : Items.close s = .ok r) : r <:+ s := by
  unfold Items.close at h
  split at h
  · cases h
  · rename_i c t front
    split at h
    · obtain rfl := Except.ok.inj h
      exact suffix_of_skipSpace front
    · split at h <;> cases h

/-- **Each item of a list was read in the text of the list**, and what is left is the text's end. -/
theorem readItems_forward {item : Reader α} (forward : Forward item) {bound : List Char}
    {first : Bool} {s r : List Char} {xs : List α}
    (h : readItems item bound first s = .ok (xs, r)) :
    r <:+ s ∧ ∀ x ∈ xs, ∃ t u, t <:+ s ∧ item t = .ok (x, u) := by
  induction bound generalizing first s xs with
  | nil => cases h
  | cons b bound ih =>
    rw [readItems] at h
    obtain ⟨next, found, h⟩ := bind_eq_ok.mp h
    have front := Items.next_suffix found
    cases next with
    | ended t =>
      obtain ⟨rfl, rfl⟩ := Prod.mk.inj (Except.ok.inj h)
      exact ⟨front, nofun⟩
    | more _ t =>
      obtain ⟨⟨x, u⟩, one, h⟩ := bind_eq_ok.mp h
      obtain ⟨⟨ys, v⟩, others, h⟩ := bind_eq_ok.mp h
      obtain ⟨rfl, rfl⟩ := Prod.mk.inj (Except.ok.inj h)
      have behind : u <:+ s := (forward t x u one).trans front
      obtain ⟨back, each⟩ := ih others
      refine ⟨back.trans behind, fun y hy => ?_⟩
      rcases List.mem_cons.mp hy with rfl | hy
      · exact ⟨t, u, front, one⟩
      · obtain ⟨t', u', inside, read⟩ := each y hy
        exact ⟨t', u', inside.trans behind, read⟩

theorem readArray_eq_ok {expected : String} {item : Option (Reader α)} {s r : List Char}
    {xs : List α} (h : readArray expected item s = .ok (xs, r)) :
    ∃ read t, item = some read ∧ skipSpace s = '[' :: t ∧ readList read t = .ok (xs, r) := by
  unfold readArray at h
  split at h
  · cases h
  · rename_i t read front
    exact ⟨read, t, rfl, front, h⟩
  · cases h

theorem readArray_forward {item : Reader α} (forward : Forward item) {expected : String}
    {s r : List Char} {xs : List α} (h : readArray expected (some item) s = .ok (xs, r)) :
    r <:+ s ∧ ∀ x ∈ xs, ∃ t u, t <:+ s ∧ item t = .ok (x, u) := by
  obtain ⟨_, t, same, front, list⟩ := readArray_eq_ok h
  obtain rfl := Option.some.inj same
  have inside := suffix_of_skipSpace front
  obtain ⟨back, each⟩ := readItems_forward forward list
  refine ⟨back.trans inside, fun x hx => ?_⟩
  obtain ⟨u, v, deeper, read⟩ := each x hx
  exact ⟨u, v, deeper.trans inside, read⟩

/-! ## objects -/

theorem Members.name_suffix {otherwise : Char → Malformed} {s : List Char} {n : Next String}
    (h : Members.name otherwise s = .ok n) : n.rest <:+ s := by
  unfold Members.name at h
  split at h
  · cases h
  · split at h
    · obtain ⟨⟨name, r⟩, found, h⟩ := bind_eq_ok.mp h
      obtain rfl := Except.ok.inj h
      exact (local_readText.forward _ _ _ found).trans (List.suffix_cons _ _)
    · cases h

theorem Members.next_suffix {first : Bool} {s : List Char} {n : Next String}
    (h : Members.next first s = .ok n) : n.rest <:+ s := by
  unfold Members.next at h
  split at h
  · cases h
  · rename_i c r front
    have here : c :: r <:+ s := front ▸ skipSpace_suffix s
    have behind : r <:+ s := suffix_of_skipSpace front
    split at h
    · obtain rfl := Except.ok.inj h
      exact behind
    · split at h
      · exact (Members.name_suffix h).trans here
      · split at h
        · exact ((Members.name_suffix h).trans (skipSpace_suffix r)).trans behind
        · cases h

/-- **What each member keeps, the object keeps.**  `whole` is a text that holds all of them. -/
theorem readMembers_forward {member : String → σ → Reader σ} (keeps : σ → Prop)
    {whole : List Char}
    (step : ∀ name found t found' u, t <:+ whole → keeps found →
      member name found t = .ok (found', u) → u <:+ t ∧ keeps found')
    {bound : List Char} {first : Bool} {found result : σ} {s r : List Char} (inside : s <:+ whole)
    (start : keeps found) (h : readMembers member bound first found s = .ok (result, r)) :
    r <:+ s ∧ keeps result := by
  induction bound generalizing first found s with
  | nil => cases h
  | cons b bound ih =>
    rw [readMembers] at h
    obtain ⟨next, told, h⟩ := bind_eq_ok.mp h
    have front := Members.next_suffix told
    cases next with
    | ended t =>
      obtain ⟨rfl, rfl⟩ := Prod.mk.inj (Except.ok.inj h)
      exact ⟨front, start⟩
    | more name t =>
      obtain ⟨⟨found', u⟩, one, h⟩ := bind_eq_ok.mp h
      obtain ⟨past, kept⟩ := step name found t found' u (front.trans inside) start one
      have behind : u <:+ s := past.trans front
      obtain ⟨back, last⟩ := ih (behind.trans inside) kept h
      exact ⟨back.trans behind, last⟩

/-! ## values -/

theorem readWord_map_suffix {word s r : List Char} {x y : α}
    (h : (readWord word s).map (x, ·) = .ok (y, r)) : r <:+ s :=
  ((local_readWord word).map x).forward s y r h

/-- one value, given that the readers of what stands inside its bracket go forward -/
theorem forward_readValue_of {budget : Nat}
    (inner : ∀ inside, budget = inside + 1 → Forward (readValue inside)) :
    Forward (readValue budget) := by
  intro s x r h
  rw [readValue.eq_def] at h
  dsimp only at h
  split at h
  · cases h
  · rename_i c t front
    have behind : t <:+ s := suffix_of_skipSpace front
    split at h
    · exact (readWord_map_suffix h).trans behind
    split at h
    · exact (readWord_map_suffix h).trans behind
    split at h
    · exact (readWord_map_suffix h).trans behind
    split at h
    · obtain ⟨⟨text, u⟩, found, h⟩ := bind_eq_ok.mp h
      obtain ⟨rfl, rfl⟩ := Prod.mk.inj (Except.ok.inj h)
      exact (local_readText.forward _ _ _ found).trans behind
    split at h
    · obtain ⟨⟨n, u⟩, found, h⟩ := bind_eq_ok.mp h
      obtain ⟨rfl, rfl⟩ := Prod.mk.inj (Except.ok.inj h)
      exact (local_readNumber.forward _ _ _ found).trans (front ▸ skipSpace_suffix s)
    split at h
    · cases budget with
      | zero => cases h
      | succ inside =>
        obtain ⟨⟨items, u⟩, found, h⟩ := bind_eq_ok.mp h
        obtain ⟨rfl, rfl⟩ := Prod.mk.inj (Except.ok.inj h)
        exact (readItems_forward (inner inside rfl) found).1.trans behind
    split at h
    · cases budget with
      | zero => cases h
      | succ inside =>
        obtain ⟨⟨members, u⟩, found, h⟩ := bind_eq_ok.mp h
        obtain ⟨rfl, rfl⟩ := Prod.mk.inj (Except.ok.inj h)
        refine (readMembers_forward (fun _ => True) ?_ List.suffix_rfl trivial found).1.trans behind
        intro name members t members' u _ _ one
        obtain ⟨v, colon, one⟩ := bind_eq_ok.mp one
        obtain ⟨⟨x, w⟩, value, one⟩ := bind_eq_ok.mp one
        obtain ⟨rfl, rfl⟩ := Prod.mk.inj (Except.ok.inj one)
        exact ⟨(inner inside rfl v x w value).trans (readColon_suffix colon), trivial⟩
    cases h

theorem forward_readValue (budget : Nat) : Forward (readValue budget) := by
  induction budget with
  | zero => exact forward_readValue_of fun _ none => nomatch none
  | succ inside ih =>
    refine forward_readValue_of fun inside' same => ?_
    obtain rfl := Nat.succ.inj same
    exact ih

/-! ## values that are passed over -/

theorem skipChars_suffix {s r : List Char} (h : skipChars s = .ok r) : r <:+ s := by
  fun_induction skipChars s
  case case2 =>
    obtain rfl := Except.ok.inj h
    exact List.suffix_cons _ _
  case case4 a b c d s _ ih => exact (ih h).trans (List.suffix_append ['\\', 'u', a, b, c, d] s)
  case case7 e s _ _ _ ih => exact (ih h).trans (List.suffix_append ['\\', e] s)
  case case10 c s _ _ _ _ _ _ ih => exact (ih h).trans (List.suffix_cons c s)
  all_goals cases h

theorem skipNumber_suffix {s r : List Char} (h : skipNumber s = .ok r) : r <:+ s := by
  obtain ⟨⟨text, u⟩, found, h⟩ := bind_eq_ok.mp h
  obtain rfl := Except.ok.inj h
  exact (local_readNumberText _).forward _ _ _ found

theorem Bracket.skipName_suffix {b : Bracket} {s r : List Char} (h : b.skipName s = .ok r) :
    r <:+ s := by
  cases b with
  | list =>
    obtain rfl := Except.ok.inj h
    exact List.suffix_rfl
  | object =>
    rw [skipName] at h
    split at h
    · cases h
    · rename_i c t front
      split at h
      · obtain ⟨u, name, colon⟩ := bind_eq_ok.mp h
        exact ((readColon_suffix colon).trans (skipChars_suffix name)).trans
          (suffix_of_skipSpace front)
      · cases h

theorem skipOpening_suffix {b : Option Bracket} {s r : List Char}
    (h : skipOpening s = .ok (b, r)) : r <:+ s := by
  unfold skipOpening at h
  split at h
  · cases h
  · rename_i c t front
    have behind : t <:+ s := suffix_of_skipSpace front
    split at h
    · exact (readWord_map_suffix h).trans behind
    split at h
    · exact (readWord_map_suffix h).trans behind
    split at h
    · exact (readWord_map_suffix h).trans behind
    split at h
    · obtain ⟨u, found, same⟩ := map_eq_ok.mp h
      obtain ⟨_, rfl⟩ := Prod.mk.inj same
      exact (skipChars_suffix found).trans behind
    split at h
    · obtain ⟨u, found, same⟩ := map_eq_ok.mp h
      obtain ⟨_, rfl⟩ := Prod.mk.inj same
      exact (skipNumber_suffix found).trans (front ▸ skipSpace_suffix s)
    split at h
    · obtain ⟨_, rfl⟩ := Prod.mk.inj (Except.ok.inj h)
      exact behind
    split at h
    · obtain ⟨_, rfl⟩ := Prod.mk.inj (Except.ok.inj h)
      exact behind
    cases h

theorem skipClosing_suffix {opened left : List Bracket} {fresh : Bool} {s r : List Char}
    (h : skipClosing opened fresh s = .ok (left, r)) : r <:+ s := by
  induction opened generalizing fresh s with
  | nil =>
    obtain ⟨_, rfl⟩ := Prod.mk.inj (Except.ok.inj h)
    exact List.suffix_rfl
  | cons b outer ih =>
    rw [skipClosing] at h
    split at h
    · cases h
    · rename_i c t front
      have behind : t <:+ s := suffix_of_skipSpace front
      split at h
      · exact (ih h).trans behind
      split at h
      · obtain ⟨u, found, same⟩ := map_eq_ok.mp h
        obtain ⟨_, rfl⟩ := Prod.mk.inj same
        exact (Bracket.skipName_suffix found).trans (front ▸ skipSpace_suffix s)
      split at h
      · obtain ⟨u, found, same⟩ := map_eq_ok.mp h
        obtain ⟨_, rfl⟩ := Prod.mk.inj same
        exact (Bracket.skipName_suffix found).trans behind
      cases h

theorem skipValues_suffix {bound : List Char} {opened : List Bracket} {s r : List Char}
    (h : skipValues bound opened s = .ok r) : r <:+ s := by
  induction bound generalizing opened s with
  | nil => cases h
  | cons b bound ih =>
    rw [skipValues] at h
    obtain ⟨⟨bracket, t⟩, opening, h⟩ := bind_eq_ok.mp h
    obtain ⟨⟨left, u⟩, closing, h⟩ := bind_eq_ok.mp h
    have behind : u <:+ s := (skipClosing_suffix closing).trans (skipOpening_suffix opening)
    dsimp only at h
    split at h
    · obtain rfl := Except.ok.inj h
      exact behind
    · exact (ih h).trans behind

theorem skipValue_suffix {s r : List Char} (h : skipValue s = .ok r) : r <:+ s :=
  skipValues_suffix h

end HqlWhere.Json
