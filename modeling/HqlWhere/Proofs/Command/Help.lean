import HqlWhere.Command.Help
import HqlWhere.Proofs.Command.Rewording

/-!
# Help and commands

Arguments of a subcommand ask for help as soon as one of them does so behind options that are in
order, whatever comes then.  They are no command, so it does not matter which of the two is looked for
first.

* `Granted.of_fuel`                as many arguments are fuel enough for the options that they set;
* `asked?_of_isHelp`               an argument that asks for help is no option;
* `exists_of_asksHelp`, `asksHelp_of_granted`   where it has to stand;
* `helpTopic?_eq_some_iff`         the help that is given for the arguments of a subcommand;
* `ofArguments?_of_helpTopic?`     arguments that ask for help are no command.
-/

namespace HqlWhere.Command

section
variable {names : List String} {fuel : Nat} {argument : String} {arguments rest : List String}
  {o o' : Options}

theorem Granted.more (h : Granted names fuel arguments o o') (n : Nat) :
    Granted names (fuel + n) arguments o o' := by
  induction h with
  | done last => exact .done last
  | @step fuel _ _ _ _ _ _ more asked granted _ ih =>
    rw [Nat.add_right_comm]
    exact .step more asked granted ih

theorem Granted.of_fuel (h : Granted names fuel arguments o o') :
    Granted names arguments.length arguments o o' := by
  induction h with
  | done last => exact .done last
  | @step fuel argument rest t _ _ _ more asked granted _ ih =>
    obtain ⟨taken, rfl, _⟩ := asked?_taken asked
    refine .step more asked granted ?_
    rw [List.length_append, Nat.add_comm]
    exact ih.more taken.length

theorem options?_eq_some :
    options? names arguments = some o ↔ ∃ fuel, Granted names fuel arguments {} o := by
  rw [options?, readOptions_eq_some]
  constructor
  · exact fun granted => ⟨_, granted⟩
  · rintro ⟨fuel, granted⟩
    exact granted.of_fuel

/-! ## an argument that asks for help -/

theorem isHelp_iff : isHelp argument = true ↔
    argument = "--help" ∨ ∃ letters, argument.toList = '-' :: 'h' :: letters := by
  have short : "-h".toList.isPrefixOf argument.toList = true ↔
      ∃ letters, argument.toList = '-' :: 'h' :: letters := by
    rw [List.isPrefixOf_iff_prefix]
    exact exists_congr fun letters => eq_comm
  rw [isHelp, Bool.or_eq_true, beq_iff_eq, short]

theorem asked?_of_isHelp (unknown : names.contains "help" = false)
    (asks : isHelp argument = true) (rest : List String) : asked? names argument rest = none := by
  rcases isHelp_iff.mp asks with rfl | ⟨letters, short⟩
  · have split : splitOption? "--help" = some ("help", none) := rfl
    rw [asked?, split, Option.bind_some]
    dsimp only
    rw [unknown, if_neg Bool.false_ne_true]
  · have split : splitOption? argument = none := by
      rw [splitOption?, short]
      rfl
    rw [asked?, split]
    rfl

theorem ne_end_of_isHelp (asks : isHelp argument = true) : argument ≠ "--" := by
  rintro rfl
  exact absurd asks (by decide)

theorem asksHelp_of_isHelp (asks : isHelp argument = true) :
    asksHelp names (fuel + 1) (argument :: rest) o = true := by
  rw [asksHelp, if_pos asks]

theorem asksHelp_cons (plain : isHelp argument = false) :
    asksHelp names (fuel + 1) (argument :: rest) o = true ↔
      ∃ t o₁, asked? names argument rest = some t ∧ o.grant? t.1 = some o₁ ∧
        asksHelp names fuel t.2 o₁ = true := by
  rw [asksHelp, if_neg (by simp [plain]), takeOption?_eq]
  cases asked? names argument rest with
  | none => simp
  | some t => cases granted : o.grant? t.1 <;> simp [granted]

theorem ne_end_of_asked? {t : Option (String × String) × List String}
    (asked : asked? names argument rest = some t) : argument ≠ "--" := by
  rintro rfl
  cases asked

/-- Options that ask for help do so by one argument, behind options that are in order. -/
theorem exists_of_asksHelp (asks : asksHelp names fuel arguments o = true) :
    ∃ n before head behind o', arguments = before ++ head :: behind ∧ isHelp head = true ∧
      "--" ∉ before ∧ Granted names n before o o' := by
  induction fuel generalizing arguments o with
  | zero => cases asks
  | succ fuel ih =>
    cases arguments with
    | nil => cases asks
    | cons argument rest =>
      cases help : isHelp argument with
      | true => exact ⟨0, [], argument, rest, o, rfl, help, List.not_mem_nil, .done (.inl rfl)⟩
      | false =>
        obtain ⟨t, o₁, asked, granted, later⟩ := (asksHelp_cons help).mp asks
        obtain ⟨n, before, head, behind, o', split, found, noEnd, others⟩ := ih later
        -- The arguments that the first one takes stand in front of the others.
        obtain ⟨taken, rfl, values, again⟩ := asked?_taken asked
        have first := ne_end_of_asked? asked
        have inside : "--" ∉ taken := fun mem => absurd (values _ mem) (by decide)
        refine ⟨n + 1, argument :: (taken ++ before), head, behind, o', ?_, found, ?_, ?_⟩
        · rw [split, List.cons_append, List.append_assoc]
        · simp [first.symm, inside, noEnd]
        · exact .step (fun last => first last.1) (again before) granted others

/-- Options that are in order ask for help as soon as the next argument does. -/
theorem asksHelp_of_granted (unknown : names.contains "help" = false) {before : List String}
    (granted : Granted names fuel before o o') (noEnd : "--" ∉ before) {head : String}
    (found : isHelp head = true) (behind : List String) :
    asksHelp names (fuel + 1) (before ++ head :: behind) o = true := by
  induction granted with
  | done last =>
    rcases last with rfl | rfl
    · exact asksHelp_of_isHelp found
    · exact absurd (List.mem_singleton.mpr rfl) noEnd
  | @step fuel argument rest t o o₁ o' more asked granted _ ih =>
    obtain ⟨taken, rfl, _, again⟩ := asked?_taken asked
    have plain : isHelp argument = false := by
      rw [Bool.eq_false_iff]
      intro help
      cases (asked?_of_isHelp unknown help _).symm.trans asked
    have later := ih fun mem => noEnd (by simp [mem])
    rw [List.cons_append, asksHelp_cons plain, List.append_assoc]
    exact ⟨_, o₁, again _, granted, later⟩

/-- Options that ask for help cannot be read. -/
theorem readOptions_of_asksHelp (unknown : names.contains "help" = false)
    (asks : asksHelp names fuel arguments o = true) :
    readOptions names fuel arguments o = none := by
  induction fuel generalizing arguments o with
  | zero => cases asks
  | succ fuel ih =>
    cases arguments with
    | nil => cases asks
    | cons argument rest =>
      cases help : isHelp argument with
      | true =>
        have more : ¬(argument = "--" ∧ rest = []) := fun last => ne_end_of_isHelp help last.1
        rw [readOptions_cons more, asked?_of_isHelp unknown help, Option.bind_none]
      | false =>
        obtain ⟨t, o₁, asked, granted, later⟩ := (asksHelp_cons help).mp asks
        have more : ¬(argument = "--" ∧ rest = []) := fun last => ne_end_of_asked? asked last.1
        rw [readOptions_cons more, asked, Option.bind_some, granted, Option.bind_some, ih later]

end

/-! ## whole commands -/

section
variable {first : String} {rest : List String} {topic : Topic} {names : List String}

/-- A subcommand knows no option by the name of help. -/
theorem unknown_of_subcommand? (h : subcommand? first = some (topic, names)) :
    names.contains "help" = false := by
  unfold subcommand? at h
  split at h <;> cases h <;> decide

/-- **A subcommand's help is given if and only if an argument asks for it behind options that are in
order.** -/
theorem helpTopic?_eq_some_iff (sub : subcommand? first = some (topic, names)) {t : Topic} :
    helpTopic? (first :: rest) = some t ↔
      t = topic ∧ ∃ before head behind o, rest = before ++ head :: behind ∧ isHelp head = true ∧
        "--" ∉ before ∧ options? names before = some o := by
  have unknown := unknown_of_subcommand? sub
  rw [helpTopic?, sub]
  dsimp only
  constructor
  · intro given
    split at given
    next asks =>
      obtain rfl := Option.some.inj given
      obtain ⟨n, before, head, behind, o, split, found, noEnd, granted⟩ := exists_of_asksHelp asks
      exact ⟨rfl, before, head, behind, o, split, found, noEnd, options?_eq_some.mpr ⟨n, granted⟩⟩
    next => cases given
  · rintro ⟨rfl, before, head, behind, o, rfl, found, noEnd, granted⟩
    have enough : (before ++ head :: behind).length = before.length + behind.length + 1 := by
      rw [List.length_append, List.length_cons, Nat.add_assoc]
    have within := (readOptions_eq_some.mp granted).more behind.length
    rw [enough, if_pos (asksHelp_of_granted unknown within noEnd found behind)]

/-- An argument in place of a subcommand that asks for help does not ask for the version. -/
theorem not_version_of_helpTopic? (sub : subcommand? first = none)
    (given : helpTopic? (first :: rest) = some topic) :
    ¬(first = "--version" ∨ "-V".toList.isPrefixOf first.toList = true) := by
  rw [helpTopic?, sub] at given
  dsimp only at given
  split at given
  next asks =>
    rcases isHelp_iff.mp asks with rfl | ⟨letters, short⟩
    · decide
    · rw [short]
      rintro (rfl | version)
      · cases short
      · cases version
  split at given
  next same =>
    subst same
    decide
  next => cases given

/-- A subcommand is none whose options cannot be read. -/
theorem ofArguments?_of_unread (sub : subcommand? first = some (topic, names))
    (unread : options? names rest = none) : ofArguments? (first :: rest) = none := by
  unfold subcommand? at sub
  split at sub <;> cases sub
  · show (options? compileOptions rest).bind _ = none
    rw [unread, Option.bind_none]
  · show (options? compileAllOptions rest).bind _ = none
    rw [unread, Option.bind_none]
  · show (options? paramsOptions rest).bind _ = none
    rw [unread, Option.bind_none]

/-- Without a subcommand only the version can be asked for. -/
theorem ofArguments?_of_no_subcommand (sub : subcommand? first = none) :
    ofArguments? (first :: rest) =
      if first = "--version" ∨ "-V".toList.isPrefixOf first.toList then some .version
      else none := by
  unfold ofArguments?
  split
  next same => cases same; cases sub
  next same => cases same; cases sub
  next same => cases same; cases sub
  next same => cases same; rfl
  next same => cases same

/-- **Arguments that ask for help are no command.** -/
theorem ofArguments?_of_helpTopic? {arguments : List String}
    (given : helpTopic? arguments = some topic) : ofArguments? arguments = none := by
  cases arguments with
  | nil => rfl
  | cons first rest =>
    cases sub : subcommand? first with
    | some found =>
      obtain ⟨topic', names⟩ := found
      rw [helpTopic?, sub] at given
      dsimp only at given
      split at given
      next asks =>
        exact ofArguments?_of_unread sub (readOptions_of_asksHelp (unknown_of_subcommand? sub) asks)
      next => cases given
    | none => rw [ofArguments?_of_no_subcommand sub, if_neg (not_version_of_helpTopic? sub given)]

end

end HqlWhere.Command
