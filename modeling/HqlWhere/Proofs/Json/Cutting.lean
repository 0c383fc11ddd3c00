import HqlWhere.Proofs.Json.Brackets
import HqlWhere.Proofs.Json.Tokens

/-!
# Readers of texts that are cut off

A reader that is given a front part of a text only has to wait for more, wherever the text was cut.
It must not complain of what it has read, and it must not be content with less.

* `Starved`   the fault of a text that ends too early;
* `Waits`     a reader is starved, or it does what it does to the whole text;
* `Waits.bind`, `Waits.head`, `Waits.front`   one reader after the other, and what stands in front;
* `waits_readText`, `waits_readTag`, `waits_readList`, `waits_readObject`   strings, tags, lists and
  objects;
* `readAll_of_waits`, `readAll_append`   whole texts, cut off or with something behind them.
-/

namespace HqlWhere.Json

/-- The text ended before what was wanted. -/
def Starved {β : Type} (x : Except Fault β) : Prop := ∃ place, x = .error (.endOfText place)

/-- What takes `s` and leaves `r`, making `made r`, is given a front part of `s` only: it is
starved, or it makes the same and leaves what the front part has of `r`. -/
def Waits {β : Type} (read : List Char → Except Fault β) (made : List Char → β)
    (s r : List Char) : Prop :=
  ∀ p k, p ++ k = s → Starved (read p) ∨ ∃ q, read p = .ok (made q) ∧ q ++ k = r

section
variable {β γ : Type} {read next : List Char → Except Fault β} {made : List Char → β}
  {f : β → Except Fault γ} {made' : List Char → γ} {s t r : List Char} {c : Char}

theorem Starved.bind {x : Except Fault β} (h : Starved x) (f : β → Except Fault γ) :
    Starved (x >>= f) := by
  obtain ⟨place, rfl⟩ := h
  exact ⟨place, rfl⟩

theorem waits_ok (made : List Char → β) (s : List Char) :
    Waits (fun q => .ok (made q)) made s s := by
  intro p k text
  exact .inr ⟨p, rfl, text⟩

/-- **Two readers wait, one after the other.** -/
theorem Waits.bind (first : Waits read made s t) (second : Waits (fun q => f (made q)) made' t r) :
    Waits (fun s => read s >>= f) made' s r := by
  intro p k text
  rcases first p k text with starved | ⟨q, found, rest⟩
  · exact .inl (starved.bind f)
  · dsimp only
    rw [found, ok_bind]
    exact second q k rest

theorem Waits.map (h : Waits read made s r) (g : β → γ) :
    Waits (fun s => (read s).map g) (fun q => g (made q)) s r := by
  intro p k text
  dsimp only
  rcases h p k text with ⟨place, starved⟩ | ⟨q, found, rest⟩
  · rw [starved]
    exact .inl ⟨place, rfl⟩
  · rw [found]
    exact .inr ⟨q, rfl, rest⟩

/-- a reader that does no more than give what was read another form -/
theorem Waits.give {α δ : Type} {read : Reader α} {x : α} (h : Waits read (x, ·) s r) (g : α → δ) :
    Waits (fun s => read s >>= fun y => .ok (g y.1, y.2)) (g x, ·) s r :=
  h.bind (waits_ok (g x, ·) r)

/-- a step that is known by what it does to one character -/
theorem Waits.head (empty : Starved (read [])) (step : ∀ q, read (c :: q) = next q)
    (behind : Waits next made s r) : Waits read made (c :: s) r := by
  intro p k text
  cases p with
  | nil => exact .inl empty
  | cons d p =>
    obtain ⟨rfl, rest⟩ := List.cons.inj text
    rw [step]
    exact behind p k rest

/-- a step that is known by what it does to several characters -/
theorem Waits.front {front : List Char}
    (short : ∀ p q, p ++ q = front → q ≠ [] → Starved (read p))
    (step : ∀ q, read (front ++ q) = next q) (behind : Waits next made s r) :
    Waits read made (front ++ s) r := by
  intro p k text
  rcases List.append_eq_append_iff.mp text with ⟨q, whole, rest⟩ | ⟨q, rfl, rest⟩
  · by_cases all : q = []
    · subst all
      rw [List.append_nil] at whole
      subst whole
      have here := behind [] k rest
      rwa [← step, List.append_nil] at here
    · exact .inl (short p q whole.symm all)
  · rw [step]
    exact behind q k rest.symm

/-- a front part that misses some of what is wanted -/
theorem Waits.starved {p k : List Char} (h : Waits read made s r) (text : p ++ k = s)
    (short : r.length < k.length) : Starved (read p) := by
  rcases h p k text with starved | ⟨q, _, rest⟩
  · exact starved
  · rw [← rest, List.length_append] at short
    omega

end

/-! ## words and strings -/

theorem waits_readWord (word k : List Char) : Waits (readWord word) id (word ++ k) k := by
  induction word with
  | nil => exact waits_ok id k
  | cons c word ih => exact Waits.head ⟨.value, rfl⟩ (fun _ => if_pos rfl) ih

section
variable {made : List Char → List Char × List Char} {done s r : List Char}

theorem starved_escape (done : List Char) {p q : List Char} {e : Char} (text : p ++ q = ['\\', e])
    (rest : q ≠ []) : Starved (readChars done p) := by
  rcases p with _ | ⟨c, _ | ⟨d, p⟩⟩
  · exact ⟨.string, rfl⟩
  · obtain rfl := (List.cons.inj text).1
    exact ⟨.string, rfl⟩
  · have both : p ++ q = [] := (List.cons.inj (List.cons.inj text).2).2
    exact absurd (List.append_eq_nil_iff.mp both).2 rest

theorem length_lt_of_append {p q front : List Char} (text : p ++ q = front) (rest : q ≠ []) :
    p.length < front.length := by
  rw [← text, List.length_append]
  exact Nat.lt_add_of_pos_right (List.length_pos_iff.mpr rest)

/-- a digit takes one byte, so fewer than four of them are taken for the end of the text -/
theorem byteCount_digits {n : Nat} {p q : List Char} (text : p ++ q = Hex.digits 4 n) :
    Text.byteCount p = p.length := by
  have single : ∀ c ∈ Hex.digits 4 n, c.utf8Size = 1 := by
    have digit : ∀ d : Fin 16, (Nat.digitChar d.val).utf8Size = 1 := by decide
    have last : ∀ m, (Nat.digitChar (m % 16)).utf8Size = 1 := fun m =>
      digit ⟨m % 16, Nat.mod_lt m (by decide)⟩
    intro c hc
    simp only [Hex.digits, List.nil_append, List.cons_append, List.mem_cons, List.not_mem_nil,
      or_false] at hc
    rcases hc with rfl | rfl | rfl | rfl <;> exact last _
  have all : ∀ c ∈ p, c.utf8Size = 1 := fun c hc => single c (text ▸ List.mem_append_left q hc)
  clear text
  induction p with
  | nil => rfl
  | cons c p ih =>
    obtain ⟨head, tail⟩ := List.forall_mem_cons.mp all
    show c.utf8Size + Text.byteCount p = p.length + 1
    rw [head, ih tail, Nat.add_comm]

theorem starved_digits (done : List Char) {n : Nat} {p q : List Char}
    (text : p ++ q = '\\' :: 'u' :: Hex.digits 4 n) (rest : q ≠ []) :
    Starved (readChars done p) := by
  rcases p with _ | ⟨c, _ | ⟨d, p⟩⟩
  · exact ⟨.string, rfl⟩
  · obtain rfl := (List.cons.inj text).1
    exact ⟨.string, rfl⟩
  · obtain rfl := (List.cons.inj text).1
    obtain rfl := (List.cons.inj (List.cons.inj text).2).1
    have digits : p ++ q = Hex.digits 4 n := (List.cons.inj (List.cons.inj text).2).2
    have few := length_lt_of_append digits rest
    rw [Hex.length_digits] at few
    have short : shortEscape p = .endOfText .string := by
      rw [shortEscape, byteCount_digits digits, if_pos few]
    refine ⟨.string, ?_⟩
    rw [← short]
    match p, few with
    | [], _ => rfl
    | [_], _ => rfl
    | [_, _], _ => rfl
    | [_, _, _], _ => rfl

/-- one character, wherever its escape is cut -/
theorem waits_writeChar {c : Char} (behind : Waits (readChars (c :: done)) made s r) :
    Waits (readChars done) made (writeChar c s) r := by
  have step := readChars_writeChar c done
  unfold writeChar at step ⊢
  cases letter : escapeLetter? c with
  | some e =>
    simp only [letter] at step
    show Waits _ made (['\\', e] ++ s) r
    exact Waits.front (fun p q => starved_escape done) step behind
  | none =>
    simp only [letter] at step
    dsimp only
    split
    · simp only [if_pos ‹c.toNat < 0x20›] at step
      show Waits _ made ('\\' :: 'u' :: Hex.digits 4 c.toNat ++ s) r
      exact Waits.front (fun p q => starved_digits done) step behind
    · simp only [if_neg ‹¬c.toNat < 0x20›] at step
      exact Waits.head ⟨.string, rfl⟩ step behind

end

theorem waits_readChars (t done k : List Char) :
    Waits (readChars done) (done.reverse ++ t, ·) (t.foldr writeChar ('"' :: k)) k := by
  induction t generalizing done with
  | nil =>
    rw [List.append_nil]
    exact Waits.head ⟨.string, rfl⟩ (fun _ => rfl) (waits_ok _ k)
  | cons c t ih =>
    have behind := ih (c :: done)
    rw [List.reverse_cons, List.append_assoc] at behind
    exact waits_writeChar behind

/-- **A written string is waited for up to its closing quote.** -/
theorem waits_readText (s : String) (k : List Char) :
    Waits readText (s, ·) (s.toList.foldr writeChar ('"' :: k)) k := by
  have behind : Waits (fun q => .ok (String.ofList s.toList, q)) (s, ·) k k := by
    rw [String.ofList_toList]
    exact waits_ok _ k
  exact (waits_readChars s.toList [] k).bind behind

theorem waits_readString (expected s : String) (k : List Char) :
    Waits (readString expected) (s, ·) (writeString s k) k :=
  Waits.head ⟨.value, rfl⟩ (fun _ => rfl) (waits_readText s k)

theorem waits_word {α : Type} (x : α) (word k : List Char) :
    Waits (fun q => (readWord word q).map (x, ·)) (x, ·) (word ++ k) k :=
  (waits_readWord word k).map (x, ·)

theorem waits_readBoolean (expected : String) (b : Bool) (k : List Char) :
    Waits (readBoolean expected) (b, ·) (writeBool b k) k := by
  cases b with
  | true => exact Waits.head ⟨.value, rfl⟩ (fun _ => rfl) (waits_word true "rue".toList k)
  | false => exact Waits.head ⟨.value, rfl⟩ (fun _ => rfl) (waits_word false "alse".toList k)

/-! ## tags -/

theorem waits_readColon (k : List Char) : Waits readColon id (':' :: k) k :=
  Waits.head ⟨.object, rfl⟩ (fun _ => rfl) (waits_ok id k)

/-- the closing brace, behind spaces or none -/
theorem waits_closeTagged (spaces : List Char) (blank : skipSpace spaces = []) (k : List Char) :
    Waits closeTagged id (spaces ++ '}' :: k) k := by
  rw [List.append_cons]
  refine Waits.front ?_ ?_ (waits_ok id k)
  · intro p q text rest
    rcases List.eq_nil_or_concat q with rfl | ⟨q, c, rfl⟩
    · exact absurd rfl rest
    · rw [List.concat_eq_append, ← List.append_assoc] at text
      have front : p ++ q = spaces := (List.append_inj' text rfl).1
      have all : ∀ c ∈ spaces, isSpace c = true := List.dropWhile_eq_nil_iff.mp blank
      have nothing : skipSpace p = [] :=
        List.dropWhile_eq_nil_iff.mpr fun c hc => all c (front ▸ List.mem_append_left q hc)
      refine ⟨.object, ?_⟩
      rw [closeTagged, nothing]
  · intro q
    rw [← List.append_cons]
    exact closeTagged_append blank q

section
variable {τ : Type} {tags : List (String × τ)} {name : String} {tag : τ}

theorem waits_readTag (known : tagOf tags name = .ok tag) (k : List Char) :
    Waits (readTag tags) (tag, ·) (writeString name (':' :: k)) k := by
  have behind : Waits (readTagName tags) (tag, ·)
      (name.toList.foldr writeChar ('"' :: ':' :: k)) k := by
    refine (waits_readText name (':' :: k)).bind ?_
    dsimp only
    rw [known]
    exact (waits_readColon k).bind (waits_ok (tag, ·) k)
  exact Waits.head ⟨.object, rfl⟩ (fun _ => rfl) behind

theorem waits_readBareTag (known : tagOf tags name = .ok tag) (k : List Char) :
    Waits (readBareTag tags) (tag, ·) (name.toList.foldr writeChar ('"' :: k)) k := by
  refine (waits_readText name k).bind ?_
  dsimp only
  rw [known]
  exact waits_ok (tag, ·) k

end

/-! ## lists -/

theorem waits_first {s : List Char} (opens : Opens s) :
    Waits (Items.next true) (.more ()) s s := by
  obtain ⟨c, r, rfl, space, bracket⟩ := opens
  intro p k text
  cases p with
  | nil => exact .inl ⟨.list, rfl⟩
  | cons d p =>
    obtain ⟨rfl, _⟩ := List.cons.inj text
    exact .inr ⟨d :: p, Items.next_first ⟨d, p, rfl, space, bracket⟩, text⟩

theorem waits_comma {s : List Char} (opens : Opens s) :
    Waits (Items.next false) (.more ()) (',' :: s) s := by
  obtain ⟨c, r, rfl, space, bracket⟩ := opens
  intro p k text
  rcases p with _ | ⟨d, _ | ⟨e, p⟩⟩
  · exact .inl ⟨.list, rfl⟩
  · obtain rfl := (List.cons.inj text).1
    exact .inl ⟨.value, rfl⟩
  · obtain ⟨rfl, tail⟩ := List.cons.inj text
    obtain rfl := (List.cons.inj tail).1
    exact .inr ⟨e :: p, Items.next_comma ⟨e, p, rfl, space, bracket⟩, tail⟩

theorem waits_noItem (first : Bool) (k : List Char) :
    Waits (Items.next first) .ended (']' :: k) k :=
  Waits.head ⟨.list, rfl⟩ (fun _ => rfl) (waits_ok (Next.ended : List Char → Next Unit) k)

theorem waits_closeItems (k : List Char) : Waits Items.close id (']' :: k) k :=
  Waits.head ⟨.list, rfl⟩ (fun _ => rfl) (waits_ok id k)

section
variable {α : Type} {item : Reader α} {toJson : α → Json}

/-- No bound is too small: when it is used up, the list is taken to be cut off. -/
theorem waits_readItems_cons {x : α} {xs : List α} {first : Bool} {s t u r : List Char}
    (next : Waits (Items.next first) (.more ()) s t) (one : Waits item (x, ·) t u)
    (rest : ∀ bound, Waits (readItems item bound false) (xs, ·) u r) (bound : List Char) :
    Waits (readItems item bound first) (x :: xs, ·) s r := by
  cases bound with
  | nil => exact fun _ _ _ => .inl ⟨.list, rfl⟩
  | cons b bound => exact next.bind (one.bind ((rest bound).bind (waits_ok (x :: xs, ·) r)))

theorem waits_readItems_nil (first : Bool) (k bound : List Char) :
    Waits (readItems item bound first) ([], ·) (']' :: k) k := by
  cases bound with
  | nil => exact fun _ _ _ => .inl ⟨.list, rfl⟩
  | cons b bound => exact (waits_noItem first k).bind (waits_ok ([], ·) k)

variable {xs : List α} (opens : ∀ x ∈ xs, ∀ k, Opens ((toJson x).write k))
  (each : ∀ x ∈ xs, ∀ k, Waits item (x, ·) ((toJson x).write k) k)
include opens each

theorem waits_readItems (k bound : List Char) :
    Waits (readItems item bound false) (xs, ·) (writeItems (xs.map toJson) k) k := by
  induction xs generalizing bound with
  | nil => exact waits_readItems_nil false k bound
  | cons x xs ih =>
    obtain ⟨opensFirst, opensRest⟩ := List.forall_mem_cons.mp opens
    obtain ⟨one, others⟩ := List.forall_mem_cons.mp each
    exact waits_readItems_cons (waits_comma (opensFirst _)) (one _) (ih opensRest others) bound

/-- **A written list is waited for up to its closing bracket**, if its items are. -/
theorem waits_readList (k : List Char) :
    Waits (readList item) (xs, ·) (writeList (xs.map toJson) k) k := by
  have all : ∀ bound,
      Waits (readItems item bound true) (xs, ·) (writeList (xs.map toJson) k) k := by
    cases xs with
    | nil => exact waits_readItems_nil true k
    | cons x xs =>
      obtain ⟨opensFirst, opensRest⟩ := List.forall_mem_cons.mp opens
      obtain ⟨one, others⟩ := List.forall_mem_cons.mp each
      have rest := waits_readItems opensRest others k
      exact waits_readItems_cons (waits_first (opensFirst _)) (one _) rest
  -- The front part that is read is its own bound.
  exact fun p => all p p

end

/-! ## objects -/

theorem waits_name (name : String) (k : List Char) :
    Waits (fun q => readText q >>= fun x => .ok (Next.more x.1 x.2)) (Next.more name)
      (name.toList.foldr writeChar ('"' :: k)) k :=
  (waits_readText name k).bind (waits_ok (Next.more name) k)

theorem waits_firstName (name : String) (k : List Char) :
    Waits (Members.next true) (.more name) (writeString name k) k :=
  Waits.head ⟨.object, rfl⟩ (fun _ => rfl) (waits_name name k)

theorem waits_nextName (name : String) (k : List Char) :
    Waits (Members.next false) (.more name) (',' :: writeString name k) k := by
  have behind : Waits (fun q => Members.next false (',' :: q)) (.more name)
      (writeString name k) k :=
    Waits.head ⟨.value, rfl⟩ (fun _ => rfl) (waits_name name k)
  exact Waits.head ⟨.object, rfl⟩ (fun _ => rfl) behind

theorem waits_noName (first : Bool) (k : List Char) :
    Waits (Members.next first) .ended ('}' :: k) k :=
  Waits.head ⟨.object, rfl⟩ (fun _ => rfl) (waits_ok (Next.ended : List Char → Next String) k)

section
variable {σ : Type} {member : String → σ → Reader σ} {name : String} {known found made : σ}
  {s t u r : List Char}

theorem waits_readMembers_cons {first : Bool}
    (next : Waits (Members.next first) (.more name) s t)
    (one : Waits (member name known) (found, ·) t u)
    (rest : ∀ bound, Waits (readMembers member bound false found) (made, ·) u r)
    (bound : List Char) : Waits (readMembers member bound first known) (made, ·) s r := by
  cases bound with
  | nil => exact fun _ _ _ => .inl ⟨.object, rfl⟩
  | cons b bound => exact next.bind (one.bind (rest bound))

theorem waits_readMembers_nil (first : Bool) (known : σ) (k bound : List Char) :
    Waits (readMembers member bound first known) (known, ·) ('}' :: k) k := by
  cases bound with
  | nil => exact fun _ _ _ => .inl ⟨.object, rfl⟩
  | cons b bound => exact (waits_noName first k).bind (waits_ok (known, ·) k)

theorem waits_readObject
    (all : ∀ bound, Waits (readMembers member bound true known) (made, ·) s r) :
    Waits (readObject member known) (made, ·) s r :=
  fun p => all p p

end

/-! ## whole texts -/

section
variable {α : Type} {read : Reader α} {x : α} {s : List Char}

/-- a text that is cut anywhere before its end -/
theorem readAll_of_waits {p k : List Char} (h : Waits read (x, ·) s []) (text : p ++ k = s)
    (some : k ≠ []) : Starved (readAll read p) :=
  (h.starved text (List.length_pos_iff.mpr some)).bind _

/-- a value with another text behind it -/
theorem readAll_append {k : List Char} (found : read (s ++ k) = .ok (x, k)) :
    readAll read (s ++ k) = if Blank k then .ok x else .error (.malformed .textAfterEnd) := by
  have nothing : skipSpace k = [] ↔ Blank k := List.dropWhile_eq_nil_iff
  unfold readAll
  rw [found, ok_bind]
  dsimp only
  simp only [nothing]
  rfl

end

end HqlWhere.Json
