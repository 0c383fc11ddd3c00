/-!
# Hashing by feeding

A value is hashed by feeding a sequence of words to one mixing function.  A type says what its
values feed by an instance of `Feeds`; equal values then hash equally because they feed the same
words.
-/

namespace HqlWhere

/-- The types whose values feed words to a hash. -/
class Feeds (α : Type) where
  feed : α → List UInt64

export Feeds (feed)

/-- Mixes a sequence of words into one. -/
def mixAll (words : List UInt64) : UInt64 := words.foldl mixHash 7

/-- A text feeds its characters and then a word that is no character. -/
instance : Feeds String where
  feed s := s.toList.map (fun c => c.toNat.toUInt64) ++ [0xFFFFFFFF]

/-- A list feeds its length and then its items. -/
instance {α : Type} [Feeds α] : Feeds (List α) where
  feed l := l.length.toUInt64 :: l.flatMap feed

end HqlWhere
