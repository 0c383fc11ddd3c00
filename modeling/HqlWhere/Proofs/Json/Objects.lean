import HqlWhere.Proofs.Json.Integers

/-!
# Objects, member by member

The reader of an object carries along what the members have told so far.  So an object leads from one
state to another as its members do, one after the other.

* `Row`              a member of an object: its name and the tokens of its value;
* `Run`              steps that the members of an object make, one after the other;
* `reads_object`     if each member is read, the object is read to where they lead;
* `admits_object`    an object that is read was read member by member;
* `readOnce`, `passOver`   the members that may come once, and those that nobody asked for.
-/

namespace HqlWhere.Json

/-- A member of an object: its name and the tokens of its value. -/
abbrev Row := String × List Token

def Row.tokens (m : Row) : List Token := memberTokens m.1 m.2

/-- The tokens from where a member or the closing brace stands; `first` tells that no member stands
before. -/
def rowsTokens : Bool → List Row → List Token
  | _, [] => [.mark '}']
  | true, m :: ms => m.tokens ++ rowsTokens false ms
  | false, m :: ms => .mark ',' :: m.tokens ++ rowsTokens false ms

/-- Each member in its turn leads from one state to the next. -/
inductive Run {σ : Type} (step : Row → σ → σ → Prop) : List Row → σ → σ → Prop
  | nil {x : σ} : Run step [] x x
  | cons {m : Row} {ms : List Row} {x y z : σ} (first : step m x y) (rest : Run step ms y z) :
      Run step (m :: ms) x z

theorem Run.mem {σ : Type} {step : Row → σ → σ → Prop} {m : Row} {ms : List Row} {x y : σ}
    (run : Run step ms x y) (h : m ∈ ms) : ∃ x' y', step m x' y' := by
  induction run with
  | nil => cases h
  | cons first rest ih =>
    rcases List.mem_cons.mp h with rfl | h
    · exact ⟨_, _, first⟩
    · exact ih h

section
variable {ms : List Row} {ts : List Token} {s : List Char}

theorem rowsTokens_behind (ms : List Row) :
    rowsTokens false ms = (ms.map Row.tokens).flatMap (.mark ',' :: ·) ++ [.mark '}'] := by
  induction ms with
  | nil => rfl
  | cons m ms ih => rw [rowsTokens, ih, List.map_cons, List.flatMap_cons, List.append_assoc]

theorem separated_rows (ms : List Row) :
    separated (ms.map Row.tokens) ++ [.mark '}'] = rowsTokens true ms := by
  cases ms with
  | nil => rfl
  | cons m ms => rw [rowsTokens, rowsTokens_behind, List.map_cons, separated, List.append_assoc]

theorem objectTokens_rows (ms : List Row) :
    objectTokens (ms.map Row.tokens) = .mark '{' :: rowsTokens true ms := by
  rw [objectTokens, separated_rows]

theorem length_lt_rowsTokens (first : Bool) (ms : List Row) :
    ms.length < (rowsTokens first ms).length := by
  induction ms generalizing first with
  | nil => exact Nat.zero_lt_one
  | cons m ms ih =>
    have behind := ih false
    cases first <;> simp only [rowsTokens, Row.tokens, memberTokens, List.length_append,
      List.length_cons] <;> omega

theorem stops_rowsTokens (ms : List Row) (ts : List Token) :
    Stops (rowsTokens false ms ++ ts) := by
  cases ms with
  | nil => exact stops_cons (.inr (.inr rfl))
  | cons m ms => exact stops_cons (.inl rfl)

/-! ## one member -/

variable {σ : Type} {member : String → σ → Reader σ} {first : Bool} {x y : σ}

/-- Where a member stands, it is read and then what stands behind it. -/
theorem readMembers_row {m : Row} (laid : Laid (rowsTokens first (m :: ms) ++ ts) s) :
    ∃ t, Laid (.mark ':' :: m.2 ++ (rowsTokens false ms ++ ts)) t ∧
      ∀ b bound x, readMembers member (b :: bound) first x s =
        (member m.1 x t >>= fun y => readMembers member bound false y.1 y.2) := by
  cases first with
  | true =>
    rw [rowsTokens, List.append_assoc] at laid
    obtain ⟨t, next, behind⟩ := laid.firstName
    exact ⟨t, behind, fun b bound x => readMembers_more next⟩
  | false =>
    rw [rowsTokens, List.append_assoc] at laid
    obtain ⟨t, next, behind⟩ := laid.nextName
    exact ⟨t, behind, fun b bound x => readMembers_more next⟩

theorem readMembers_end (laid : Laid (rowsTokens first [] ++ ts) s) :
    ∃ r, Laid ts r ∧ ∀ b bound x, readMembers member (b :: bound) first x s = .ok (x, r) := by
  rw [rowsTokens] at laid
  obtain ⟨r, next, rest⟩ := laid.noName first
  refine ⟨r, rest, fun b bound x => ?_⟩
  rw [readMembers, next]
  rfl

/-! ## from the members to the object -/

/-- The member is read, and what is told with it is told. -/
def Steps (member : String → σ → Reader σ) (m : Row) (x y : σ) : Prop :=
  Reads (member m.1 x) (.mark ':' :: m.2) y

theorem reads_run (run : Run (Steps member) ms x y) {bound : List Char}
    (long : ms.length < bound.length) (laid : Laid (rowsTokens first ms ++ ts) s) :
    ∃ r, readMembers member bound first x s = .ok (y, r) ∧ Laid ts r := by
  obtain ⟨b, bound, rfl⟩ := List.exists_cons_of_length_pos (Nat.zero_lt_of_lt long)
  induction run generalizing first b bound s with
  | nil =>
    obtain ⟨r, rest, done⟩ := readMembers_end laid
    exact ⟨r, done b bound _, rest⟩
  | @cons m ms x y z one run ih =>
    have more := Nat.lt_of_succ_lt_succ long
    obtain ⟨b', bound', rfl⟩ := List.exists_cons_of_length_pos (Nat.zero_lt_of_lt more)
    obtain ⟨t, value, step⟩ := readMembers_row laid
    obtain ⟨u, found, behind⟩ := one _ t (stops_rowsTokens ms ts) value
    obtain ⟨r, done, rest⟩ := ih behind b' bound' more
    refine ⟨r, ?_, rest⟩
    rw [step, found]
    exact done

/-- **An object is read to where its members lead**, from behind its opening brace. -/
theorem reads_object (run : Run (Steps member) ms x y) :
    Reads (readObject member x) (rowsTokens true ms) y := by
  intro ts s _ laid
  have long := laid.length_le
  rw [List.length_append] at long
  have count := length_lt_rowsTokens true ms
  exact reads_run run (by omega) laid

/-! ## from the object to the members -/

variable {step : Row → σ → σ → Prop}

theorem admits_run (each : ∀ m ∈ ms, ∀ x, Admits (member m.1 x) (.mark ':' :: m.2) (step m x))
    {bound r : List Char} (laid : Laid (rowsTokens first ms ++ ts) s)
    (found : readMembers member bound first x s = .ok (y, r)) : Run step ms x y ∧ Laid ts r := by
  induction ms generalizing first x bound s with
  | nil =>
    obtain ⟨k, rest, done⟩ := readMembers_end laid
    cases bound with
    | nil => cases found
    | cons b bound =>
      rw [done] at found
      obtain ⟨rfl, rfl⟩ := Prod.mk.inj (Except.ok.inj found)
      exact ⟨.nil, rest⟩
  | cons m ms ih =>
    obtain ⟨here, others⟩ := List.forall_mem_cons.mp each
    obtain ⟨t, value, step⟩ := readMembers_row laid
    cases bound with
    | nil => cases found
    | cons b bound =>
      rw [step] at found
      obtain ⟨⟨z, u⟩, one, found⟩ := bind_eq_ok.mp found
      obtain ⟨told, behind⟩ := here x _ t z u (stops_rowsTokens ms ts) value one
      obtain ⟨run, rest⟩ := ih others behind found
      exact ⟨.cons told run, rest⟩

/-- **An object that is read was read member by member.** -/
theorem admits_object
    (each : ∀ m ∈ ms, ∀ x, Admits (member m.1 x) (.mark ':' :: m.2) (step m x)) :
    Admits (readObject member x) (rowsTokens true ms) (Run step ms x) :=
  fun _ _ _ _ _ laid found => admits_run each laid found

/-! ## kinds of members -/

/-- A member that may not come again; `known` is what it told before. -/
def readOnce {α : Type} (name : String) (known : Option α) (read : Reader α) (keep : α → σ) :
    Reader σ := fun s => do
  refuseTwice name known
  let s ← readColon s
  let (a, r) ← read s
  pure (keep a, r)

/-- A member that nobody asked for. -/
def passOver (x : σ) : Reader σ := fun s => do
  let s ← readColon s
  let r ← skipValue s
  pure (x, r)

section
variable {α : Type} {name : String} {known : Option α} {read : Reader α} {keep : α → σ}
  {v : List Token}

theorem reads_once {a : α} (fresh : known = none) (h : Reads read v a) :
    Reads (readOnce name known read keep) (.mark ':' :: v) (keep a) := by
  subst fresh
  intro ts s stops laid
  obtain ⟨t, colon, behind⟩ := laid.readColon
  obtain ⟨r, found, rest⟩ := h ts t stops behind
  refine ⟨r, ?_, rest⟩
  show (readColon s >>= _) = _
  rw [colon, ok_bind, found]
  rfl

theorem admits_once {values : α → Prop} (h : Admits read v values) :
    Admits (readOnce name known read keep) (.mark ':' :: v)
      fun x => known = none ∧ ∃ a, values a ∧ x = keep a := by
  intro ts s x r stops laid found
  obtain ⟨t, colon, behind⟩ := laid.readColon
  cases known with
  | some a => cases found
  | none =>
    change (readColon s >>= _) = _ at found
    rw [colon, ok_bind] at found
    obtain ⟨⟨a, k⟩, here, found⟩ := bind_eq_ok.mp found
    obtain ⟨value, rest⟩ := h ts t a k stops behind here
    obtain ⟨rfl, rfl⟩ := Prod.mk.inj (Except.ok.inj found)
    exact ⟨⟨rfl, a, value, rfl⟩, rest⟩

theorem reads_passOver (form : WellFormed v) (x : σ) : Reads (passOver x) (.mark ':' :: v) x := by
  intro ts s stops laid
  obtain ⟨t, colon, behind⟩ := laid.readColon
  obtain ⟨r, passed, rest⟩ := skipValue_of_wellFormed form stops behind
  refine ⟨r, ?_, rest⟩
  unfold passOver
  rw [colon, ok_bind, passed]
  rfl

end

end

end HqlWhere.Json
