import HqlWhere.Proofs.Command.Wrong

/-!
# The same command in other words

Arguments can name another input or ask for JSON and leave everything else as it is.  What an
argument asks for does not depend on the options before it; these only tell whether it is granted.

* `asked?`, `Options.grant?`   what an argument asks for, and the options with that granted;
* `readOptions_cons`           options are read argument by argument;
* `ofArguments?_replaced`      arguments that name another input, at the same place;
* `ofArguments?_json`          arguments with the switch for JSON in front.
-/

namespace HqlWhere.Command

/-- The command with another source of its document. -/
def withInput (name : String) : Command → Command
  | .compile _ config maxDepth json => .compile name config maxDepth json
  | .compileAll _ config json => .compileAll name config json
  | .version => .version
  | .params path => .params path

/-- The command with its clause printed as JSON. -/
def withJson : Command → Command
  | .compile input config maxDepth _ => .compile input config maxDepth true
  | .compileAll input config _ => .compileAll input config true
  | .version => .version
  | .params path => .params path

/-- Whether the command prints its clause as JSON. -/
def json : Command → Bool
  | .compile _ _ _ json | .compileAll _ _ json => json
  | .version | .params _ => false

/-- The option that names an input, in one argument or in two. -/
def spelledInput (joined : Bool) (input : String) : List String :=
  if joined then ["--input=" ++ input] else ["--input", input]

/-! ## one argument -/

/-- What an argument asks for, a setting by its name and its value or the switch, and the arguments
behind it. -/
def asked? (names : List String) (argument : String) (rest : List String) :
    Option (Option (String × String) × List String) :=
  (splitOption? argument).bind fun (name, value) =>
    if names.contains name then
      if name = "json" then (if value.isSome then none else some (none, rest))
      else match value, rest with
        | some v, _ => some (some (name, v), rest)
        | none, v :: rest => if isValue v then some (some (name, v), rest) else none
        | none, [] => none
    else none

/-- The options with a setting or the switch granted, if they do not have it yet. -/
def Options.grant? (o : Options) : Option (String × String) → Option Options
  | none => if o.json then none else some { o with json := true }
  | some (name, value) => o.set? name value

/-- A setting is made by its name, if it is not made yet. -/
inductive Options.Sets (o : Options) : String → String → Options → Prop
  | input {value : String} (unset : o.input = none) :
      Sets o "input" value { o with input := some value }
  | config {value : String} (unset : o.config = none) :
      Sets o "config" value { o with config := some value }
  | path {value : String} (unset : o.path = none) :
      Sets o "path" value { o with path := some value }
  | maxDepth {value : String} {n : UInt64} (unset : o.maxDepth = none)
      (number : Word.ofText? value.toList = some n) :
      Sets o "max-depth" value { o with maxDepth := some n }

theorem Options.set?_eq_some {o o₁ : Options} {name value : String} :
    o.set? name value = some o₁ ↔ o.Sets name value o₁ := by
  constructor
  · intro h
    unfold set? at h
    split at h
    · subst name
      split at h
      · cases h
      · obtain rfl := Option.some.inj h
        exact .input (Option.not_isSome_iff_eq_none.mp ‹_›)
    split at h
    · subst name
      split at h
      · cases h
      · obtain rfl := Option.some.inj h
        exact .config (Option.not_isSome_iff_eq_none.mp ‹_›)
    split at h
    · subst name
      split at h
      · cases h
      · obtain rfl := Option.some.inj h
        exact .path (Option.not_isSome_iff_eq_none.mp ‹_›)
    split at h
    · subst name
      split at h
      · cases h
      · obtain ⟨n, number, rfl⟩ := Option.map_eq_some_iff.mp h
        exact .maxDepth (Option.not_isSome_iff_eq_none.mp ‹_›) number
    cases h
  · rintro (unset | unset | unset | ⟨unset, number⟩)
    · simp [set?, unset]
    · simp [set?, unset]
    · simp [set?, unset]
    · simp [set?, unset, number]

section
variable {names : List String}

theorem takeOption?_eq (o : Options) (argument : String) (rest : List String) :
    takeOption? names o argument rest =
      (asked? names argument rest).bind fun t => (o.grant? t.1).map (·, t.2) := by
  unfold takeOption? asked?
  cases splitOption? argument with
  | none => rfl
  | some option =>
    obtain ⟨name, value⟩ := option
    show (if _ then _ else _) = Option.bind (if _ then _ else _) _
    by_cases known : names.contains name = true
    · rw [if_pos known, if_pos known]
      by_cases switch : name = "json"
      · rw [if_pos switch, if_pos switch]
        cases value with
        | some v => rfl
        | none =>
          show _ = (if o.json = true then none else some { o with json := true }).map (·, rest)
          by_cases set : o.json = true <;> simp [set]
      · rw [if_neg switch, if_neg switch]
        cases value with
        | some v => rfl
        | none =>
          cases rest with
          | nil => rfl
          | cons v rest =>
            dsimp only
            by_cases fits : isValue v = true
            · rw [if_pos fits, if_pos fits]
              rfl
            · rw [if_neg fits, if_neg fits]
              rfl
    · rw [if_neg known, if_neg known]
      rfl

theorem readOptions_last (fuel : Nat) (o : Options) :
    readOptions names fuel ["--"] o = some o := by
  cases fuel <;> rfl

theorem readOptions_zero {argument : String} {rest : List String}
    (more : ¬(argument = "--" ∧ rest = [])) (o : Options) :
    readOptions names 0 (argument :: rest) o = none := by
  rw [readOptions]
  · rintro ⟨⟩
  · intro last
    exact more (List.cons.inj last)

theorem readOptions_cons {argument : String} {rest : List String}
    (more : ¬(argument = "--" ∧ rest = [])) (fuel : Nat) (o : Options) :
    readOptions names (fuel + 1) (argument :: rest) o =
      (asked? names argument rest).bind fun t => (o.grant? t.1).bind fun o =>
        readOptions names fuel t.2 o := by
  rw [readOptions, takeOption?_eq]
  · cases asked? names argument rest with
    | none => rfl
    | some t =>
      show Option.bind (Option.map _ (o.grant? t.1)) _ = Option.bind (o.grant? t.1) _
      cases o.grant? t.1 <;> rfl
  · rintro rfl rfl
    exact more ⟨rfl, rfl⟩

/-- Options are read argument by argument: what each asks for is granted, until none are left. -/
inductive Granted (names : List String) : Nat → List String → Options → Options → Prop
  | done {fuel : Nat} {arguments : List String} {o : Options}
      (last : arguments = [] ∨ arguments = ["--"]) : Granted names fuel arguments o o
  | step {fuel : Nat} {argument : String} {rest : List String}
      {t : Option (String × String) × List String} {o o₁ o' : Options}
      (more : ¬(argument = "--" ∧ rest = [])) (asked : asked? names argument rest = some t)
      (granted : o.grant? t.1 = some o₁) (behind : Granted names fuel t.2 o₁ o') :
      Granted names (fuel + 1) (argument :: rest) o o'

theorem readOptions_eq_some {fuel : Nat} {arguments : List String} {o o' : Options} :
    readOptions names fuel arguments o = some o' ↔ Granted names fuel arguments o o' := by
  constructor
  · intro h
    induction fuel generalizing arguments o with
    | zero =>
      cases arguments with
      | nil =>
        obtain rfl := Option.some.inj h
        exact .done (.inl rfl)
      | cons argument rest =>
        by_cases last : argument = "--" ∧ rest = []
        · obtain ⟨rfl, rfl⟩ := last
          obtain rfl := Option.some.inj h
          exact .done (.inr rfl)
        · rw [readOptions_zero last] at h
          cases h
    | succ fuel ih =>
      cases arguments with
      | nil =>
        obtain rfl := Option.some.inj h
        exact .done (.inl rfl)
      | cons argument rest =>
        by_cases last : argument = "--" ∧ rest = []
        · obtain ⟨rfl, rfl⟩ := last
          obtain rfl := Option.some.inj h
          exact .done (.inr rfl)
        · rw [readOptions_cons last] at h
          obtain ⟨t, asked, h⟩ := Option.bind_eq_some_iff.mp h
          obtain ⟨o₁, granted, h⟩ := Option.bind_eq_some_iff.mp h
          exact .step last asked granted (ih h)
  · intro h
    induction h with
    | done last =>
      rcases last with rfl | rfl
      · rw [readOptions]
      · exact readOptions_last _ _
    | step more asked granted _ ih =>
      rw [readOptions_cons more, asked, Option.bind_some, granted, Option.bind_some, ih]

/-! ## another input -/

/-- an input that is named stays named, and any other could stand in its place -/
theorem grant?_input {o o₁ : Options} {x : String} (named : o.input = some x)
    {a : Option (String × String)} (h : o.grant? a = some o₁) (y : String) :
    o₁.input = some x ∧
      Options.grant? { o with input := some y } a = some { o₁ with input := some y } := by
  cases a with
  | none =>
    rw [Options.grant?] at h ⊢
    split at h
    · cases h
    · obtain rfl := Option.some.inj h
      exact ⟨named, if_neg ‹_›⟩
  | some setting =>
    obtain ⟨name, value⟩ := setting
    cases Options.set?_eq_some.mp h with
    | input unset => cases named.symm.trans unset
    | config unset => exact ⟨named, Options.set?_eq_some.mpr (.config unset)⟩
    | path unset => exact ⟨named, Options.set?_eq_some.mpr (.path unset)⟩
    | maxDepth unset number => exact ⟨named, Options.set?_eq_some.mpr (.maxDepth unset number)⟩

theorem Granted.input {fuel : Nat} {arguments : List String} {o o' : Options} {x : String}
    (h : Granted names fuel arguments o o') (named : o.input = some x) (y : String) :
    o'.input = some x ∧
      Granted names fuel arguments { o with input := some y } { o' with input := some y } := by
  induction h with
  | done last => exact ⟨named, .done last⟩
  | step more asked granted _ ih =>
    obtain ⟨named₁, granted₁⟩ := grant?_input named granted y
    obtain ⟨named', behind⟩ := ih named₁
    exact ⟨named', .step more asked granted₁ behind⟩

/-- An argument takes arguments that can be values, and does not look at those behind them. -/
theorem asked?_taken {argument : String} {rest : List String}
    {t : Option (String × String) × List String} (h : asked? names argument rest = some t) :
    ∃ taken, rest = taken ++ t.2 ∧ (∀ v ∈ taken, isValue v = true) ∧
      ∀ behind, asked? names argument (taken ++ behind) = some (t.1, behind) := by
  unfold asked? at h ⊢
  obtain ⟨⟨name, value⟩, split, h⟩ := Option.bind_eq_some_iff.mp h
  simp only [split, Option.bind_some]
  dsimp only at h
  by_cases known : names.contains name = true
  · rw [if_pos known] at h
    simp only [if_pos known]
    by_cases switch : name = "json"
    · rw [if_pos switch] at h
      simp only [if_pos switch]
      split at h
      · cases h
      · obtain rfl := Option.some.inj h
        exact ⟨[], rfl, nofun, fun behind => if_neg ‹_›⟩
    · rw [if_neg switch] at h
      simp only [if_neg switch]
      cases value with
      | some v =>
        obtain rfl := Option.some.inj h
        exact ⟨[], rfl, nofun, fun behind => rfl⟩
      | none =>
        cases rest with
        | nil => cases h
        | cons v rest =>
          dsimp only at h
          split at h
          next fits =>
            obtain rfl := Option.some.inj h
            exact ⟨[v], rfl, List.forall_mem_singleton.mpr fits, fun behind => if_pos fits⟩
          next => cases h
  · rw [if_neg known] at h
    cases h

/-- an argument looks one argument ahead, and only at one that can be a value -/
theorem asked?_append {argument head : String} {pre behind : List String}
    {t : Option (String × String) × List String} (noValue : isValue head = false)
    (h : asked? names argument (pre ++ head :: behind) = some t) :
    ∃ pre', t.2 = pre' ++ head :: behind ∧ ∀ head' behind',
      asked? names argument (pre ++ head' :: behind') = some (t.1, pre' ++ head' :: behind') := by
  obtain ⟨taken, whole, values, asked⟩ := asked?_taken h
  rcases List.append_eq_append_iff.mp whole with ⟨ahead, rfl, last⟩ | ⟨pre', rfl, last⟩
  · cases ahead with
    | nil => exact ⟨[], last.symm, fun head' behind' => by rw [← asked, List.append_nil]; rfl⟩
    | cons v ahead =>
      obtain ⟨rfl, _⟩ := List.cons.inj last
      have fits := values head (by simp)
      rw [noValue] at fits
      cases fits
  · exact ⟨pre', last, fun head' behind' => by rw [List.append_assoc, asked]⟩

theorem grant?_named {o o₁ : Options} {x : String}
    (h : o.grant? (some ("input", x)) = some o₁) :
    o₁ = { o with input := some x } ∧
      ∀ y, o.grant? (some ("input", y)) = some { o with input := some y } := by
  have sets := Options.set?_eq_some.mp h
  generalize same : "input" = name at sets
  cases sets with
  | input unset => exact ⟨rfl, fun y => Options.set?_eq_some.mpr (.input unset)⟩
  | config _ => exact absurd same (by decide)
  | path _ => exact absurd same (by decide)
  | maxDepth _ _ => exact absurd same (by decide)

/-- **Options that name another input at the same place are read alike.** -/
theorem Granted.replaced (tail tail' : List String) {fuel : Nat} {pre post : List String}
    {head head' x y : String} {o o' : Options} (noValue : isValue head = false)
    (notLast : head ≠ "--")
    (asks : ∀ t, asked? names head (tail ++ post) = some t → t = (some ("input", x), post))
    (asks' : asked? names head' (tail' ++ post) = some (some ("input", y), post))
    (h : Granted names fuel (pre ++ head :: (tail ++ post)) o o') :
    o'.input = some x ∧
      Granted names fuel (pre ++ head' :: (tail' ++ post)) o { o' with input := some y } := by
  generalize whole : pre ++ head :: (tail ++ post) = arguments at h
  induction h generalizing pre with
  | done last =>
    have mem : head ∈ pre ++ head :: (tail ++ post) := by simp
    rw [whole] at mem
    rcases last with rfl | rfl
    · cases mem
    · exact absurd (List.mem_singleton.mp mem) notLast
  | @step fuel argument rest t o o₁ o' more asked granted behind ih =>
    cases pre with
    | nil =>
      obtain ⟨rfl, rfl⟩ := List.cons.inj whole
      obtain rfl := asks t asked
      obtain ⟨rfl, granted'⟩ := grant?_named granted
      obtain ⟨named, behind'⟩ := behind.input rfl y
      refine ⟨named, .step ?_ asks' (granted' y) behind'⟩
      rintro ⟨rfl, _⟩
      cases asks'
    | cons a pre =>
      obtain ⟨rfl, rfl⟩ := List.cons.inj whole
      obtain ⟨pre', left, asked'⟩ := asked?_append noValue asked
      obtain ⟨named, behind'⟩ := ih left.symm
      refine ⟨named, .step ?_ (asked' head' (tail' ++ post)) granted behind'⟩
      rintro ⟨_, none⟩
      exact List.append_ne_nil_of_right_ne_nil pre (List.cons_ne_nil head' _) none

/-! ## the switch -/

/-- options that do not set the switch could have had it set before -/
theorem grant?_json {o o₁ : Options} {a : Option (String × String)} (h : o.grant? a = some o₁)
    (plain : o₁.json = false) :
    o.json = false ∧ Options.grant? { o with json := true } a = some { o₁ with json := true } := by
  cases a with
  | none =>
    rw [Options.grant?] at h
    split at h
    · cases h
    · obtain rfl := Option.some.inj h
      cases plain
  | some setting =>
    obtain ⟨name, value⟩ := setting
    cases Options.set?_eq_some.mp h with
    | input unset => exact ⟨plain, Options.set?_eq_some.mpr (.input unset)⟩
    | config unset => exact ⟨plain, Options.set?_eq_some.mpr (.config unset)⟩
    | path unset => exact ⟨plain, Options.set?_eq_some.mpr (.path unset)⟩
    | maxDepth unset number => exact ⟨plain, Options.set?_eq_some.mpr (.maxDepth unset number)⟩

/-- **Options that do not set the switch are read alike with the switch set before them.** -/
theorem Granted.json {fuel : Nat} {arguments : List String} {o o' : Options}
    (h : Granted names fuel arguments o o') (plain : o'.json = false) :
    o.json = false ∧
      Granted names fuel arguments { o with json := true } { o' with json := true } := by
  induction h with
  | done last => exact ⟨plain, .done last⟩
  | step more asked granted _ ih =>
    obtain ⟨plain₁, behind⟩ := ih plain
    obtain ⟨plain₀, granted₁⟩ := grant?_json granted plain₁
    exact ⟨plain₀, .step more asked granted₁ behind⟩

end

/-! ## whole commands -/

/-- What a compiling command is made of: the first argument, the names of the options that it knows,
and their values. -/
inductive Built : String → List String → Options → Command → Prop
  | tree {o : Options} {input : String} (named : o.input = some input) :
      Built "compile" compileOptions o (.compile input o.config o.maxDepth o.json)
  | list {o : Options} {input : String} (named : o.input = some input) :
      Built "compile-all" compileAllOptions o (.compileAll input o.config o.json)

theorem ofArguments?_eq_some {first : String} (compiles : first = "compile" ∨ first = "compile-all")
    {rest : List String} {c : Command} :
    ofArguments? (first :: rest) = some c ↔
      ∃ names o, Built first names o c ∧ Granted names rest.length rest {} o := by
  constructor
  · intro h
    rcases compiles with rfl | rfl
    · obtain ⟨o, read, h⟩ := Option.bind_eq_some_iff.mp h
      obtain ⟨input, named, h⟩ := Option.bind_eq_some_iff.mp h
      obtain rfl := Option.some.inj h
      exact ⟨_, o, .tree named, readOptions_eq_some.mp read⟩
    · obtain ⟨o, read, h⟩ := Option.bind_eq_some_iff.mp h
      obtain ⟨input, named, h⟩ := Option.bind_eq_some_iff.mp h
      obtain rfl := Option.some.inj h
      exact ⟨_, o, .list named, readOptions_eq_some.mp read⟩
  · rintro ⟨names, o, built, granted⟩
    have read := readOptions_eq_some.mpr granted
    cases built with
    | tree named =>
      show ((options? _ rest).bind fun o => o.input.bind fun input => _) = _
      rw [options?, read, Option.bind_some, named]
      rfl
    | list named =>
      show ((options? _ rest).bind fun o => o.input.bind fun input => _) = _
      rw [options?, read, Option.bind_some, named]
      rfl

theorem splitOption?_joined (input : String) :
    splitOption? ("--input=" ++ input) = some ("input", some input) := by
  unfold splitOption?
  rw [String.toList_append]
  show some ("input", some (String.ofList input.toList)) = _
  rw [String.ofList_toList]

theorem isValue_joined (input : String) : isValue ("--input=" ++ input) = false := by
  have long : ("--input=" ++ input == "-") = false := by
    rw [beq_eq_false_iff_ne]
    intro same
    have chars := congrArg String.toList same
    rw [String.toList_append] at chars
    cases chars
  rw [isValue, long, String.toList_append]
  rfl

section
variable {names : List String} (known : names.contains "input" = true)
include known

theorem asked?_joined (input : String) (rest : List String) :
    asked? names ("--input=" ++ input) rest = some (some ("input", input), rest) := by
  rw [asked?, splitOption?_joined, Option.bind_some]
  dsimp only
  rw [if_pos known, if_neg (by decide)]

theorem asked?_apart (input : String) (rest : List String) :
    asked? names "--input" (input :: rest) =
      if isValue input then some (some ("input", input), rest) else none := by
  have split : splitOption? "--input" = some ("input", none) := rfl
  rw [asked?, split, Option.bind_some]
  dsimp only
  rw [if_pos known, if_neg (by decide)]

/-- options with another input in either spelling -/
theorem Granted.respelled (joined : Bool) {fuel : Nat} {pre post : List String} {x y : String}
    {o o' : Options} (fits : isValue y = true)
    (h : Granted names fuel (pre ++ (spelledInput joined x ++ post)) o o') :
    o'.input = some x ∧
      Granted names fuel (pre ++ (spelledInput joined y ++ post)) o
        { o' with input := some y } := by
  cases joined with
  | true =>
    have notLast : "--input=" ++ x ≠ "--" := by
      intro same
      have split := splitOption?_joined x
      rw [same] at split
      cases split
    refine Granted.replaced [] [] (isValue_joined x) notLast ?_ (asked?_joined known y post) h
    intro t asked
    exact (Option.some.inj ((asked?_joined known x post).symm.trans asked)).symm
  | false =>
    have asks : asked? names "--input" (y :: post) = some (some ("input", y), post) := by
      rw [asked?_apart known, if_pos fits]
    refine Granted.replaced [x] [y] rfl (by decide) ?_ asks h
    intro t asked
    have told : asked? names "--input" (x :: post) = some t := asked
    rw [asked?_apart known] at told
    split at told
    · exact (Option.some.inj told).symm
    · cases told

end

/-- **Another input can be named at the same place**, in one argument or in two. -/
theorem ofArguments?_replaced {first : String}
    (compiles : first = "compile" ∨ first = "compile-all") (joined : Bool) {pre post : List String}
    {input : String} {c : Command}
    (h : ofArguments? (first :: (pre ++ (spelledInput joined input ++ post))) = some c) :
    c.input? = some input ∧
      ofArguments? (first :: (pre ++ (spelledInput joined standardInput ++ post))) =
        some (c.withInput standardInput) := by
  obtain ⟨names, o, built, granted⟩ := (ofArguments?_eq_some compiles).mp h
  have known : names.contains "input" = true := by
    cases built <;> rfl
  have length : (pre ++ (spelledInput joined input ++ post)).length =
      (pre ++ (spelledInput joined standardInput ++ post)).length := by
    cases joined <;> simp [spelledInput]
  obtain ⟨named, granted'⟩ := granted.respelled known joined (y := standardInput) rfl
  rw [length] at granted'
  rw [ofArguments?_eq_some compiles]
  cases built with
  | tree named' =>
    obtain rfl := Option.some.inj (named'.symm.trans named)
    exact ⟨rfl, _, { o with input := some standardInput }, .tree rfl, granted'⟩
  | list named' =>
    obtain rfl := Option.some.inj (named'.symm.trans named)
    exact ⟨rfl, _, { o with input := some standardInput }, .list rfl, granted'⟩

/-- **The switch can be set in front.** -/
theorem ofArguments?_json {first : String} (compiles : first = "compile" ∨ first = "compile-all")
    {rest : List String} {c : Command} (h : ofArguments? (first :: rest) = some c)
    (plain : c.json = false) : ofArguments? (first :: "--json" :: rest) = some c.withJson := by
  obtain ⟨names, o, built, granted⟩ := (ofArguments?_eq_some compiles).mp h
  rw [ofArguments?_eq_some compiles]
  have more : ¬("--json" = "--" ∧ rest = []) := fun last => absurd last.1 (by decide)
  cases built with
  | tree named =>
    obtain ⟨_, behind⟩ := granted.json plain
    exact ⟨_, { o with json := true }, .tree named, .step more rfl rfl behind⟩
  | list named =>
    obtain ⟨_, behind⟩ := granted.json plain
    exact ⟨_, { o with json := true }, .list named, .step more rfl rfl behind⟩

end HqlWhere.Command
