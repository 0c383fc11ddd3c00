import HqlWhere.Proofs.Document.Spelling
import HqlWhere.Proofs.Json.Integers

/-!
# Integers in documents

Under the tags `Int` and `Uint` an integer of any magnitude may be written in plain decimal.  It is
decoded to itself if the word of its kind holds it, and otherwise to nothing: it is not wrapped, not
rounded and not cut down to the word.

* `Value.admits_tagged`      what stands under a tag is read as its kind says;
* `Value.IntegerDecoded`     what is made of the texts of an integer under a tag;
* `Value.integers_exact`     for either tag.
-/

namespace HqlWhere.Value

open Json

section
variable {budget : Nat} {tag : String}

theorem admits_tagged (kind : Kind) (known : tagOf tags tag = .ok kind) {tokens : List Token}
    {values : Value → Prop} (content : Admits (readContent kind) tokens values) :
    Admits (read budget) (taggedTokens tag tokens) values := by
  intro ts s v r stops laid found
  obtain ⟨t, u, front, named, behind⟩ := laid.openTagged known
  unfold read at found
  rw [front] at found
  change (if budget = 0 then _ else readBraces t) = _ at found
  split at found
  · cases found
  · unfold readBraces at found
    rw [named, ok_bind] at found
    obtain ⟨⟨x, k⟩, here, found⟩ := bind_eq_ok.mp found
    obtain ⟨value, close⟩ := content _ u x k (stops_cons (.inr (.inr rfl))) behind here
    obtain ⟨w, closed, rest⟩ := close.closeTagged
    dsimp only at found
    rw [closed] at found
    obtain ⟨rfl, rfl⟩ := Prod.mk.inj (Except.ok.inj found)
    exact ⟨value, rest⟩

/-- An integer in plain decimal under a tag, with nothing between the tokens. -/
def integerText (tag : String) (n : Int) : List Char :=
  '{' :: '"' :: (tag.toList ++ '"' :: ':' :: (Numeral.writeInt n ++ ['}']))

/-- What is made of the texts of an integer under a tag, where a brace may be opened. -/
structure IntegerDecoded (budget : Nat) (tag : String) (n : Int) (fits : Prop) (is : Value → Prop) :
    Prop where
  /-- The plain text is one of them. -/
  plain : Laid (tagged tag (.integer n)).tokens (integerText tag n)
  /-- If the integer fits they are decoded, and otherwise they are not. -/
  decoded : ∀ text, Laid (tagged tag (.integer n)).tokens text →
    ((∃ v, readAll (read (budget + 1)) text = .ok v) ↔ fits)
  /-- They are decoded to the integer. -/
  value : ∀ text v, Laid (tagged tag (.integer n)).tokens text →
    readAll (read (budget + 1)) text = .ok v → is v
  /-- What they are decoded to is encoded with the same digits. -/
  again : ∀ text v, Laid (tagged tag (.integer n)).tokens text →
    readAll (read (budget + 1)) text = .ok v → v.toJson.compact.toList = integerText tag n

/-- A kind whose content is read as an integer between two bounds, and is made of it. -/
theorem integerDecoded_of {n low high : Int} {expected : String} {is : Value → Prop} (kind : Kind)
    (known : tagOf tags tag = .ok kind) (make : Int → Value)
    (reads : readContent kind =
      fun s => readInteger low high expected s >>= fun x => .ok (make x.1, x.2))
    (plain : (tagged tag (.integer n)).write [] = integerText tag n) (survives : (make n).Survives)
    (stays : low ≤ n ∧ n ≤ high → is (make n) ∧ (make n).toJson = tagged tag (.integer n)) :
    IntegerDecoded budget tag n (low ≤ n ∧ n ≤ high) is := by
  have content : Admits (readContent kind) (Json.integer n).tokens
      fun v => v = make n ∧ low ≤ n ∧ n ≤ high := by
    rw [reads]
    refine (admits_integer n).andThen ?_
    rintro m r v k ⟨rfl, within⟩ made
    obtain ⟨rfl, rfl⟩ := Prod.mk.inj (Except.ok.inj made)
    exact ⟨⟨rfl, within⟩, rfl⟩
  have admits : Admits (read (budget + 1)) (tagged tag (.integer n)).tokens _ :=
    admits_tagged kind known content
  constructor
  · rw [← plain, ← List.append_nil (tagged tag (.integer n)).tokens]
    exact laid_write _ (.nil (w := []) nofun)
  · intro text laid
    constructor
    · rintro ⟨v, found⟩
      exact (admits.readAll laid found).2
    · intro within
      rw [← (stays within).2] at laid
      exact ⟨make n, (reads_tokens survives fun _ => Nat.succ_ne_zero budget).readAll laid⟩
  · intro text v laid found
    obtain ⟨rfl, within⟩ := admits.readAll laid found
    exact (stays within).1
  · intro text v laid found
    obtain ⟨rfl, within⟩ := admits.readAll laid found
    rw [(stays within).2, ← plain]
    exact String.toList_ofList

end

/-- **Integers are read exactly or not at all.**  An integer of any magnitude, written in plain
decimal under the tag of signed or of unsigned words, is decoded if and only if it lies between the
limits of such a word.  It is decoded to itself then, and encoding it again gives back the same
digits. -/
theorem integers_exact (budget : Nat) (n : Int) :
    IntegerDecoded budget "Int" n (-0x8000000000000000 ≤ n ∧ n ≤ 0x7FFFFFFFFFFFFFFF)
      (fun v => ∃ m : Int64, v = .int m ∧ m.toInt = n) ∧
    IntegerDecoded budget "Uint" n (0 ≤ n ∧ n ≤ 0xFFFFFFFFFFFFFFFF)
      (fun v => ∃ m : UInt64, v = .uint m ∧ (m.toNat : Int) = n) := by
  constructor
  · refine integerDecoded_of .int rfl (fun n => .int (Int64.ofInt n)) rfl rfl trivial ?_
    rintro ⟨low, high⟩
    have same : (Int64.ofInt n).toInt = n := Int64.toInt_ofInt_of_le low (by omega)
    refine ⟨⟨_, rfl, same⟩, ?_⟩
    show tagged "Int" (.integer (Int64.ofInt n).toInt) = _
    rw [same]
  · refine integerDecoded_of .uint rfl (fun n => .uint (UInt64.ofNat n.toNat)) rfl rfl trivial ?_
    rintro ⟨low, high⟩
    have same := toNat_unsigned low high
    refine ⟨⟨_, rfl, same⟩, ?_⟩
    show tagged "Uint" (.integer (UInt64.ofNat n.toNat).toNat) = _
    rw [same]

/-- At the limits: the first integer that is too large for a signed word is the same number as an
unsigned one, and the first that is too large for either is none. -/
theorem integers_exact_at_limits :
    integerText "Int" 9223372036854775808 = "\x7b\"Int\":9223372036854775808\x7d".toList ∧
    (¬ ∃ v, readAll (read nesting) (integerText "Int" 9223372036854775808) = .ok v) ∧
    (∃ m : UInt64, readAll (read nesting) (integerText "Uint" 9223372036854775808) =
      .ok (.uint m) ∧ m.toNat = 9223372036854775808) ∧
    (∃ m : Int64, readAll (read nesting) (integerText "Int" (-9223372036854775808)) =
      .ok (.int m) ∧ m.toInt = -9223372036854775808) ∧
    ¬ ∃ v, readAll (read nesting) (integerText "Uint" 18446744073709551616) = .ok v := by
  obtain ⟨int, uint⟩ := integers_exact 126 9223372036854775808
  refine ⟨by decide, fun read => ?_, ?_, ?_, fun read => ?_⟩
  · exact absurd ((int.decoded _ int.plain).mp read) (by decide)
  · obtain ⟨v, read⟩ := (uint.decoded _ uint.plain).mpr (by decide)
    obtain ⟨m, rfl, same⟩ := uint.value _ v uint.plain read
    exact ⟨m, read, by omega⟩
  · obtain ⟨least, _⟩ := integers_exact 126 (-9223372036854775808)
    obtain ⟨v, read⟩ := (least.decoded _ least.plain).mpr (by decide)
    obtain ⟨m, rfl, same⟩ := least.value _ v least.plain read
    exact ⟨m, read, same⟩
  · obtain ⟨_, large⟩ := integers_exact 126 18446744073709551616
    exact absurd ((large.decoded _ large.plain).mp read) (by decide)

end HqlWhere.Value
