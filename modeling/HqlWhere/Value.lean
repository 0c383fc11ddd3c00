import HqlWhere.Calendar.Timestamp
import HqlWhere.Decimal.Binary64
import HqlWhere.Hashing
import HqlWhere.Uuid

/-!
# Values

The literal values that a predicate may carry.  They never appear in a clause; whoever runs the
query binds them to the parameters that the clause names.

* `Value.same`   whether two values are of one kind and hold the same content, which is what `==`
                 means for values.  Floating point numbers are compared by their bit patterns, so
                 that a not-a-number is the same as itself and the two zeros differ.
-/

namespace HqlWhere

/-- A literal to compare a field with. -/
inductive Value
  | int (n : Int64)
  | uint (n : UInt64)
  | float (x : Binary64)
  | string (s : String)
  | boolean (b : Bool)
  | uuid (u : Uuid)
  | date (d : Date)
  | timestamp (t : Timestamp)
  | null

namespace Value

/-- Whether two values are of one kind and hold the same content. -/
def same : Value → Value → Bool
  | int m, int n => m == n
  | uint m, uint n => m == n
  -- not the comparison of numbers: a hash goes by the bits, too
  | float x, float y => x.bits == y.bits
  | string s, string t => s == t
  | boolean b, boolean c => b == c
  | uuid u, uuid v => u == v
  | date d, date e => d == e
  | timestamp t, timestamp u => t == u
  | null, null => true
  | _, _ => false

instance : BEq Value := ⟨same⟩

/-- Every kind is the same as itself only, and its content is compared by an equality. -/
theorem same_iff {v w : Value} : v.same w = true ↔ v = w := by
  cases v <;> cases w <;> simp [same, Binary64.bits_inj]

instance : LawfulBEq Value where
  eq_of_beq := same_iff.mp
  rfl := same_iff.mpr rfl

instance : DecidableEq Value := fun _ _ => decidable_of_iff _ same_iff

end Value

/-- The words of an integer that may be negative. -/
def feedInt (n : Int) : List UInt64 := [if n < 0 then 1 else 0, n.natAbs.toUInt64]

instance : Feeds Uuid where
  feed u := [(u.bits.toNat >>> 64).toUInt64, u.bits.toNat.toUInt64]

instance : Feeds Date where
  feed d := feedInt d.year ++ [d.month.toUInt64, d.day.toUInt64]

instance : Feeds Timestamp where
  feed t := feed t.date ++ [t.second.toUInt64, t.nano.toUInt64]

/-- A value feeds the number of its kind and then its content. -/
instance : Feeds Value where
  feed
    | .int n => [0, n.toUInt64]
    | .uint n => [1, n]
    | .float x => [2, x.bits]
    | .string s => 3 :: feed s
    | .boolean b => [4, if b then 1 else 0]
    | .uuid u => 5 :: feed u
    | .date d => 6 :: feed d
    | .timestamp t => 7 :: feed t
    | .null => [8]

instance : Hashable Value where
  hash v := mixAll (feed v)

instance : Coe Int64 Value := ⟨Value.int⟩
instance : Coe UInt64 Value := ⟨Value.uint⟩
instance : Coe Binary64 Value := ⟨Value.float⟩
instance : Coe Bool Value := ⟨Value.boolean⟩
instance : Coe String Value := ⟨Value.string⟩

end HqlWhere
