import HqlWhere.Document.Settings
import HqlWhere.Proofs.Json.Objects
import HqlWhere.Proofs.Json.Values

/-!
# Settings mean what they list

A settings object lists either of its members or both, in any order, and others between them that
nobody asked for.  What is listed counts, and what is not has its default.  A limit that no word
holds is refused, and so is a member that is listed twice.

* `Settings.Lists`             the members of an object and what they list;
* `Settings.Lists.run`         listed members are read one after the other;
* `Settings.Draft.Takes`       what can be said of any member that is read;
* `Settings.Draft.takes_once`  so none of the two is read twice;
* `Settings.parse_listed`      all of this, in one statement.
-/

namespace HqlWhere.Settings

open Json

/-- The names of the members that settings have. -/
def memberNames : List String := [maxDepthName, warnName]

/-- A limit as it is written; no limit is `null`. -/
def limitJson : Option Int → Json
  | none => .null
  | some n => .integer n

def limitRow (limit : Option Int) : Row := (maxDepthName, (limitJson limit).tokens)

def warnRow (warn : Bool) : Row := (warnName, (Json.boolean warn).tokens)

/-- The members list a limit and a warning flag, or leave them out.  Other members may hold any
value. -/
inductive Lists : List Row → Option (Option Int) → Option Bool → Prop
  | nil : Lists [] none none
  | limit {ms : List Row} {warn : Option Bool} (n : Option Int) (rest : Lists ms none warn) :
      Lists (limitRow n :: ms) (some n) warn
  | warn {ms : List Row} {limit : Option (Option Int)} (b : Bool) (rest : Lists ms limit none) :
      Lists (warnRow b :: ms) limit (some b)
  | other {ms : List Row} {limit : Option (Option Int)} {warn : Option Bool} {name : String}
      {value : List Token} (foreign : name ∉ memberNames) (form : WellFormed value)
      (rest : Lists ms limit warn) : Lists ((name, value) :: ms) limit warn

/-- A word holds the limit, if one is listed. -/
def Fits (limit : Option (Option Int)) : Prop :=
  ∀ n, limit = some (some n) → 0 ≤ n ∧ n ≤ 0xFFFFFFFFFFFFFFFF

/-- The limit that an integer tells. -/
def word (n : Int) : UInt64 := UInt64.ofNat n.toNat

/-! ## limits -/

section
variable {s r : List Char}

theorem readMaxDepth_integer {c : Char} (starts : startsNumber c = true) {t : List Char}
    (front : skipSpace s = c :: t) : readMaxDepth s =
      (readInteger 0 0xFFFFFFFFFFFFFFFF "usize" s >>= fun x => .ok (some (word x.1), x.2)) := by
  rw [← readInteger_skipSpace]
  unfold readMaxDepth
  rw [front]
  split
  · obtain ⟨rfl, _⟩ := List.cons.inj ‹_›
    cases starts
  · rfl

theorem readMaxDepth_eq_ok {limit : Option UInt64} (h : readMaxDepth s = .ok (limit, r)) :
    skipSpace s = "null".toList ++ r ∨
      ∃ n, readInteger 0 0xFFFFFFFFFFFFFFFF "usize" s = .ok (n, r) := by
  unfold readMaxDepth at h
  split at h
  · obtain ⟨u, null, same⟩ := map_eq_ok.mp h
    obtain ⟨rfl, rfl⟩ := Prod.mk.inj same
    left
    rw [‹skipSpace s = _›, readWord_eq_ok null]
    rfl
  · obtain ⟨⟨n, u⟩, integer, same⟩ := bind_eq_ok.mp h
    obtain ⟨_, rfl⟩ := Prod.mk.inj (Except.ok.inj same)
    rw [readInteger_skipSpace] at integer
    exact .inr ⟨n, integer⟩

/-- Of any value the reader of limits takes nothing or all, and of an integer only a limit. -/
theorem admits_maxDepth {v : List Token} (form : WellFormed v) : Admits readMaxDepth v fun _ =>
    ∀ n : Int, v = (Json.integer n).tokens → 0 ≤ n ∧ n ≤ 0xFFFFFFFFFFFFFFFF := by
  intro ts s limit r stops laid found
  rcases readMaxDepth_eq_ok found with null | ⟨m, integer⟩
  · refine ⟨?_, form.behindWord laid (by decide) null⟩
    rintro n rfl
    obtain ⟨c, u, front, starts⟩ := laid.startsInteger
    rw [null] at front
    obtain ⟨rfl, _⟩ := List.cons.inj front
    cases starts
  · refine ⟨?_, (form.admitsInteger ts s m r stops laid integer).2⟩
    rintro n rfl
    exact (admits_integer n ts s m r stops laid integer).1.2

theorem reads_maxDepth {limit : Option Int} (fits : Fits (some limit)) :
    Reads readMaxDepth (limitJson limit).tokens (limit.map word) := by
  intro ts s stops laid
  cases limit with
  | none =>
    obtain ⟨k, front, rest⟩ := laid.lexeme
    refine ⟨k, ?_, rest⟩
    unfold readMaxDepth
    rw [front]
    show (readWord "ull".toList ("ull".toList ++ k)).map _ = _
    rw [readWord_append]
    rfl
  | some n =>
    obtain ⟨low, high⟩ := fits n rfl
    obtain ⟨k, found, rest⟩ := reads_integer "usize" (by omega) (by omega) low high ts s stops laid
    obtain ⟨c, u, front, starts⟩ := laid.startsInteger
    refine ⟨k, ?_, rest⟩
    rw [readMaxDepth_integer starts front, found]
    rfl

end

/-! ## one member -/

section
variable {d d' : Draft} {m : Row}

theorem readMember_maxDepth (d : Draft) : readMember maxDepthName d =
    readOnce maxDepthName d.maxDepth readMaxDepth fun n => { d with maxDepth := some n } := by
  funext s
  exact if_pos rfl

theorem readMember_warn (d : Draft) : readMember warnName d =
    readOnce warnName d.warn readWarn fun b => { d with warn := some b } := by
  funext s
  unfold readMember
  rw [if_neg (by decide), if_pos rfl]
  rfl

theorem readMember_other {name : String} (foreign : name ∉ memberNames) (d : Draft) :
    readMember name d = passOver d := by
  obtain ⟨notLimit, notWarn⟩ : name ≠ maxDepthName ∧ name ≠ warnName := by
    simpa [memberNames] using foreign
  funext s
  unfold readMember
  rw [if_neg notLimit, if_neg notWarn]
  rfl

/-! ## what is listed is read -/

/-- **Listed members are read one after the other.** -/
theorem Lists.run {ms : List Row} {limit : Option (Option Int)} {warn : Option Bool}
    (h : Lists ms limit warn) (fits : Fits limit) (freshLimit : limit ≠ none → d.maxDepth = none)
    (freshWarn : warn ≠ none → d.warn = none) :
    Run (Steps readMember) ms d ⟨(limit.map (Option.map word)).or d.maxDepth, warn.or d.warn⟩ := by
  induction h generalizing d with
  | nil => exact .nil
  | limit n rest ih =>
    have first : Steps readMember (limitRow n) d { d with maxDepth := some (n.map word) } := by
      unfold Steps limitRow
      rw [readMember_maxDepth]
      exact reads_once (freshLimit nofun) (reads_maxDepth fits)
    exact .cons first (ih nofun (fun h => absurd rfl h) freshWarn)
  | warn b rest ih =>
    have first : Steps readMember (warnRow b) d { d with warn := some b } := by
      unfold Steps warnRow
      rw [readMember_warn]
      exact reads_once (freshWarn nofun) (reads_boolean _ b)
    exact .cons first (ih fits freshLimit fun h => absurd rfl h)
  | @other ms limit warn name value foreign form rest ih =>
    have first : Steps readMember (name, value) d d := by
      unfold Steps
      rw [readMember_other foreign]
      exact reads_passOver form d
    exact .cons first (ih fits freshLimit freshWarn)

/-! ## what is read was listed -/

/-- The draft knows what a member of this name tells. -/
def Draft.Knows (d : Draft) (name : String) : Prop :=
  (name = maxDepthName ∧ d.maxDepth ≠ none) ∨ (name = warnName ∧ d.warn ≠ none)

/-- What can be said of any member that is read, whatever it tells. -/
structure Draft.Takes (m : Row) (d d' : Draft) : Prop where
  fresh : ¬ d.Knows m.1
  told : m.1 ∈ memberNames → d'.Knows m.1
  kept : ∀ name, d.Knows name → d'.Knows name
  within : ∀ n : Int, m = limitRow (some n) → 0 ≤ n ∧ n ≤ 0xFFFFFFFFFFFFFFFF

theorem Draft.Takes.maxDepth {value : List Token} {n : Option UInt64} (fresh : d.maxDepth = none)
    (within : ∀ i : Int, value = (Json.integer i).tokens → 0 ≤ i ∧ i ≤ 0xFFFFFFFFFFFFFFFF) :
    Draft.Takes (maxDepthName, value) d { d with maxDepth := some n } where
  fresh := by
    rintro (⟨_, known⟩ | ⟨other, _⟩)
    · exact known fresh
    · exact absurd other (by decide : maxDepthName ≠ warnName)
  told _ := .inl ⟨rfl, nofun⟩
  kept := by
    rintro name (⟨rfl, _⟩ | warn)
    · exact .inl ⟨rfl, nofun⟩
    · exact .inr warn
  within i same := within i (Prod.mk.inj same).2

theorem Draft.Takes.warn {value : List Token} {b : Bool} (fresh : d.warn = none) :
    Draft.Takes (warnName, value) d { d with warn := some b } where
  fresh := by
    rintro (⟨other, _⟩ | ⟨_, known⟩)
    · exact absurd other (by decide : warnName ≠ maxDepthName)
    · exact known fresh
  told _ := .inr ⟨rfl, nofun⟩
  kept := by
    rintro name (limit | ⟨rfl, _⟩)
    · exact .inl limit
    · exact .inr ⟨rfl, nofun⟩
  within i same := absurd (Prod.mk.inj same).1 (by decide)

theorem Draft.Takes.other {name : String} {value : List Token} (foreign : name ∉ memberNames) :
    Draft.Takes (name, value) d d where
  fresh := by
    rintro (⟨rfl, _⟩ | ⟨rfl, _⟩)
    · exact foreign (by decide)
    · exact foreign (by decide)
  told mem := absurd mem foreign
  kept _ := id
  within i same := by
    obtain ⟨rfl, _⟩ := Prod.mk.inj same
    exact absurd (by decide) foreign

theorem admits_member (form : WellFormed m.2) (d : Draft) :
    Admits (readMember m.1 d) (.mark ':' :: m.2) (Draft.Takes m d) := by
  obtain ⟨name, value⟩ := m
  dsimp only
  by_cases limit : name = maxDepthName
  · subst limit
    rw [readMember_maxDepth]
    refine (admits_once (admits_maxDepth form)).mono ?_
    rintro d' ⟨fresh, n, within, rfl⟩
    exact .maxDepth fresh within
  · by_cases warn : name = warnName
    · subst warn
      rw [readMember_warn]
      refine (admits_once form.admitsBoolean).mono ?_
      rintro d' ⟨fresh, b, _, rfl⟩
      exact .warn fresh
    · have foreign : name ∉ memberNames := by simp [memberNames, limit, warn]
      rw [readMember_other foreign]
      refine (reads_passOver form d).admits.mono ?_
      rintro d' rfl
      exact .other foreign

/-- **Behind a member of that name there is none, and altogether there is one at most.** -/
theorem Draft.takes_once {ms : List Row} (run : Run Draft.Takes ms d d') {name : String}
    (mem : name ∈ memberNames) :
    (d.Knows name → name ∉ ms.map Prod.fst) ∧ (ms.map Prod.fst).count name ≤ 1 := by
  induction run with
  | nil => exact ⟨fun _ => List.not_mem_nil, Nat.zero_le 1⟩
  | @cons m ms d e d' first rest ih =>
    obtain ⟨absent, once⟩ := ih
    constructor
    · intro known again
      rcases List.mem_cons.mp again with rfl | again
      · exact first.fresh known
      · exact absent (first.kept name known) again
    · rw [List.map_cons, List.count_cons]
      by_cases same : m.1 = name
      · have none := List.count_eq_zero.mpr (absent (same ▸ first.told (same ▸ mem)))
        rw [none, if_pos (beq_iff_eq.mpr same)]
      · rw [if_neg (by simpa using same)]
        exact once

end

/-! ## settings -/

section
variable {ms : List Row} {d : Draft}

theorem reads_settings (run : Run (Steps readMember) ms {} d) :
    Reads read (objectTokens (ms.map Row.tokens)) d.finish := by
  rw [objectTokens_rows]
  intro ts s stops laid
  obtain ⟨t, front, inner⟩ := laid.mark
  obtain ⟨r, found, rest⟩ := reads_object run ts t stops inner
  refine ⟨r, ?_, rest⟩
  unfold read
  rw [front]
  show (readObject readMember {} t >>= _) = _
  rw [found]
  rfl

theorem admits_settings (each : ∀ m ∈ ms, WellFormed m.2) :
    Admits read (objectTokens (ms.map Row.tokens)) fun _ => ∃ d, Run Draft.Takes ms {} d := by
  rw [objectTokens_rows]
  intro ts s v r stops laid found
  obtain ⟨t, front, inner⟩ := laid.mark
  unfold read at found
  rw [front] at found
  change (readObject readMember {} t >>= _) = _ at found
  obtain ⟨⟨d, k⟩, here, found⟩ := bind_eq_ok.mp found
  obtain ⟨run, rest⟩ := admits_object (fun m hm d => admits_member (each m hm) d) ts t d k stops
    inner here
  obtain ⟨_, rfl⟩ := Prod.mk.inj (Except.ok.inj found)
  exact ⟨⟨d, run⟩, rest⟩

variable {limit : Option (Option Int)} {warn : Option Bool} {text : String}

theorem wellFormed_warnRow (b : Bool) : WellFormed (warnRow b).2 := by
  show WellFormed [.lexeme (writeBool b [])]
  rw [writeBool, List.append_nil]
  exact .word (by cases b <;> decide)

theorem wellFormed_limitRow (limit : Option Int) : WellFormed (limitRow limit).2 := by
  cases limit with
  | none => exact .word (w := "null") (by decide)
  | some n => exact wellFormed_integer n

theorem Lists.wellFormed (h : Lists ms limit warn) : ∀ m ∈ ms, WellFormed m.2 := by
  induction h with
  | nil => exact nofun
  | limit n rest ih => exact List.forall_mem_cons.mpr ⟨wellFormed_limitRow n, ih⟩
  | warn b rest ih => exact List.forall_mem_cons.mpr ⟨wellFormed_warnRow b, ih⟩
  | other foreign form rest ih => exact List.forall_mem_cons.mpr ⟨form, ih⟩

theorem Lists.mem_limitRow {n : Option Int} (h : Lists ms limit warn) (listed : limit = some n) :
    limitRow n ∈ ms := by
  induction h with
  | nil => cases listed
  | limit n rest ih =>
    obtain rfl := Option.some.inj listed
    exact List.mem_cons_self
  | warn b rest ih => exact List.mem_cons_of_mem _ (ih listed)
  | other foreign form rest ih => exact List.mem_cons_of_mem _ (ih listed)

/-- **What is listed counts, and what is not has its default.** -/
theorem Lists.reads (h : Lists ms limit warn) (fits : Fits limit) :
    Reads read (objectTokens (ms.map Row.tokens))
      { maxDepth := (limit.getD none).map word, warnOnCollision := warn.getD true } := by
  have run := h.run fits (d := {}) (fun _ => rfl) fun _ => rfl
  have finish : Draft.finish ⟨(limit.map (Option.map word)).or none, warn.or none⟩ =
      { maxDepth := (limit.getD none).map word, warnOnCollision := warn.getD true } := by
    cases limit <;> cases warn <;> rfl
  rw [← finish]
  exact reads_settings run

/-- A limit that no word holds is refused. -/
theorem Lists.fits (h : Lists ms limit warn)
    (laid : Laid (objectTokens (ms.map Row.tokens)) text.toList) {s : Settings}
    (found : parse text = .ok s) : Fits limit := by
  intro n listed
  obtain ⟨d, run⟩ := (admits_settings h.wellFormed).readAll laid found
  obtain ⟨_, _, takes⟩ := run.mem (h.mem_limitRow listed)
  exact takes.within n rfl

theorem Lists.parse_iff (h : Lists ms limit warn)
    (laid : Laid (objectTokens (ms.map Row.tokens)) text.toList) {s : Settings} :
    parse text = .ok s ↔ Fits limit ∧
      s = { maxDepth := (limit.getD none).map word, warnOnCollision := warn.getD true } := by
  constructor
  · intro found
    have fits := h.fits laid found
    exact ⟨fits, Except.ok.inj (found.symm.trans ((h.reads fits).readAll laid))⟩
  · rintro ⟨fits, rfl⟩
    exact (h.reads fits).readAll laid

/-- A member that comes again is refused, whatever else the object holds. -/
theorem parse_twice (each : ∀ m ∈ ms, WellFormed m.2)
    (laid : Laid (objectTokens (ms.map Row.tokens)) text.toList) {name : String}
    (mem : name ∈ memberNames) (twice : 1 < (ms.map Prod.fst).count name) :
    ∃ f, parse text = .error f := by
  cases found : parse text with
  | error f => exact ⟨f, rfl⟩
  | ok s =>
    obtain ⟨d, run⟩ := (admits_settings each).readAll laid found
    exact absurd twice (Nat.not_lt.mpr (Draft.takes_once run mem).2)

/-! ## settings as they are written -/

theorem lists_toJson (s : Settings) :
    ∃ ms, s.toJson.tokens = objectTokens (ms.map Row.tokens) ∧
      Lists ms (some (s.maxDepth.map fun n => (n.toNat : Int))) (some s.warnOnCollision) := by
  refine ⟨[limitRow _, warnRow _], ?_, .limit _ (.warn _ .nil)⟩
  obtain ⟨limit, warn⟩ := s
  cases limit <;> rfl

/-- Any text of the settings' own tokens stands for them. -/
theorem parse_tokens (s : Settings) (laid : Laid s.toJson.tokens text.toList) :
    parse text = .ok s := by
  obtain ⟨ms, tokens, lists⟩ := lists_toJson s
  rw [tokens] at laid
  refine (lists.parse_iff laid).mpr ⟨?_, ?_⟩
  · intro n listed
    obtain ⟨m, _, rfl⟩ := Option.map_eq_some_iff.mp (Option.some.inj listed)
    have least := m.toNat_lt
    omega
  · obtain ⟨limit, warn⟩ := s
    have same : (limit.map fun n => (n.toNat : Int)).map word = limit := by
      cases limit with
      | none => rfl
      | some n =>
        show some (UInt64.ofNat (Int.toNat n.toNat)) = _
        rw [Int.toNat_natCast, UInt64.ofNat_toNat]
    rw [Option.getD_some, Option.getD_some, same]

/-- **Settings mean what they list.**  Both texts of settings stand for them.  An object that lists
either member or both, in any order and with any others between them, is decoded if and only if a
word holds the limit, if there is one.  Then the limit is exactly the listed one, or none for `null`,
and so is the flag; what is not listed has its default, no limit and warnings.  An object that lists
one of the two members again is refused. -/
theorem parse_listed :
    (∀ s : Settings, parse s.toJson.compact = .ok s ∧ parse s.toJson.indented = .ok s) ∧
    (∀ (ms : List Row) limit warn text, Lists ms limit warn →
      Laid (objectTokens (ms.map Row.tokens)) text.toList →
      ((∃ s, parse text = .ok s) ↔ Fits limit) ∧
      ∀ s, parse text = .ok s →
        s.maxDepth.map (fun n => (n.toNat : Int)) = limit.getD none ∧
        s.warnOnCollision = warn.getD true) ∧
    ∀ (ms : List Row) text, (∀ m ∈ ms, WellFormed m.2) →
      Laid (objectTokens (ms.map Row.tokens)) text.toList →
      ∀ name ∈ memberNames, 1 < (ms.map Prod.fst).count name → ∃ f, parse text = .error f := by
  refine ⟨fun s => ?_, ?_, fun ms text each laid name mem => parse_twice each laid mem⟩
  · have compact := laid_write s.toJson (.nil (w := []) nofun)
    have indented := laid_writeIndented s.toJson 0 (.nil (w := []) nofun)
    rw [List.append_nil] at compact indented
    constructor
    · exact parse_tokens s (by rwa [Json.compact, String.toList_ofList])
    · exact parse_tokens s (by rwa [Json.indented, String.toList_ofList])
  · intro ms limit warn text lists laid
    constructor
    · constructor
      · rintro ⟨s, found⟩
        exact lists.fits laid found
      · intro fits
        exact ⟨_, (lists.parse_iff laid).mpr ⟨fits, rfl⟩⟩
    · intro s found
      obtain ⟨fits, rfl⟩ := (lists.parse_iff laid).mp found
      refine ⟨?_, rfl⟩
      rcases limit with _ | _ | n
      · rfl
      · rfl
      · exact congrArg some (toNat_unsigned (fits n rfl).1 (fits n rfl).2)

end

/-- A member that nobody asked for, the flag and the limit. -/
def laterText (n : Int) : String := String.ofList <|
  '{' :: writeString "later" (':' :: ' ' :: '[' :: '[' :: ']' :: ']' :: ',' ::
    writeString warnName (':' :: writeBool false (',' :: ' ' ::
      writeString maxDepthName (':' :: (Json.integer n).write ['}']))))

theorem laid_laterText (n : Int) : Laid (objectTokens
    ([("later", listTokens [listTokens []]), warnRow false, limitRow (some n)].map Row.tokens))
    (laterText n).toList := by
  have space : Blank [' '] := by decide
  have limit := laid_member maxDepthName (laid_write (.integer n)
    (laid_mark (c := '}') rfl (.nil (w := []) nofun)))
  have warn := laid_member warnName (laid_write (.boolean false)
    (laid_mark (c := ',') rfl (limit.blank space)))
  have later := laid_mark (c := '[') rfl (laid_mark (c := '[') rfl (laid_mark (c := ']') rfl
    (laid_mark (c := ']') rfl (laid_mark (c := ',') rfl warn))))
  have all := laid_mark (c := '{') rfl (laid_writeString "later" (laid_mark (c := ':') rfl
    (later.blank space)))
  rw [objectTokens_rows, laterText, String.toList_ofList]
  exact all

theorem lists_laterRows (n : Int) :
    Lists [("later", listTokens [listTokens []]), warnRow false, limitRow (some n)]
      (some (some n)) (some false) := by
  have empty : WellFormed (listTokens []) := .list nofun
  have later : WellFormed (listTokens [listTokens []]) := .list (List.forall_mem_singleton.mpr empty)
  exact .other (by decide) later (.warn false (.limit (some n) .nil))

/-- Behind a member of brackets and the flag, the greatest limit that a word holds, and the next
number.  A limit that comes again is refused, even behind `null`. -/
theorem parse_listed_last :
    laterText 18446744073709551615 =
      "\x7b\"later\": [[]],\"warn_on_param_collision\":false, \"max_depth\":18446744073709551615\x7d" ∧
    (∃ s, parse (laterText 18446744073709551615) = .ok s ∧
      s.maxDepth.map (fun n => (n.toNat : Int)) = some 18446744073709551615 ∧
      s.warnOnCollision = false) ∧
    (¬ ∃ s, parse (laterText 18446744073709551616) = .ok s) ∧
    ∃ f, parse "\x7b\"max_depth\":null,\"max_depth\":8\x7d" = .error f := by
  obtain ⟨_, listed, twice⟩ := parse_listed
  refine ⟨by decide, ?_, fun read => ?_, ?_⟩
  · obtain ⟨fits, value⟩ := listed _ _ _ (laterText 18446744073709551615) (lists_laterRows _)
      (laid_laterText _)
    obtain ⟨s, read⟩ := fits.mpr fun n same => by
      obtain rfl := Option.some.inj (Option.some.inj same)
      decide
    exact ⟨s, read, value s read⟩
  · obtain ⟨fits, _⟩ := listed _ _ _ (laterText 18446744073709551616) (lists_laterRows _)
      (laid_laterText _)
    exact absurd (fits.mp read _ rfl) (by decide)
  · have rows : ∀ m ∈ [limitRow none, limitRow (some 8)], WellFormed m.2 := by
      have each := wellFormed_limitRow
      simp [each]
    have inner := laid_member maxDepthName (laid_write .null (laid_mark (c := ',') rfl
      (laid_member maxDepthName (laid_write (.integer 8)
        (laid_mark (c := '}') rfl (.nil (w := []) nofun))))))
    have all := laid_mark (c := '{') rfl inner
    refine twice _ _ rows ?_ maxDepthName (by decide) (by decide)
    rw [objectTokens_rows]
    exact all

end HqlWhere.Settings
