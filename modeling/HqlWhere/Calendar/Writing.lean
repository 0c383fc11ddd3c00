import HqlWhere.Calendar.Timestamp
import HqlWhere.Text.Numeral

/-!
# Writing dates and timestamps

A date is written year, month and day with hyphens between, a year outside 0 to 9999 with its sign.
A timestamp is written after the letter T with a final Z, and with as many digits of the second's
fraction as it needs, three, six or nine.
-/

namespace HqlWhere

/-- A year in four digits, with its sign when they do not suffice. -/
def Date.writeYear (year : Int) : List Char :=
  if 0 ≤ year ∧ year ≤ 9999 then Numeral.padded 4 year.toNat
  else (if year < 0 then '-' else '+') :: Numeral.padded 4 year.natAbs

/-- A date, for instance `2024-02-29`. -/
def Date.write (d : Date) : List Char :=
  writeYear d.year ++ '-' :: Numeral.padded 2 d.month ++ '-' :: Numeral.padded 2 d.day

namespace Timestamp

/-- The fraction of a second after its point, nothing for a whole second. -/
def writeFraction (nano : Nat) : List Char :=
  if nano = 0 then []
  else if nano % 1000000 = 0 then '.' :: Numeral.padded 3 (nano / 1000000)
  else if nano % 1000 = 0 then '.' :: Numeral.padded 6 (nano / 1000)
  else '.' :: Numeral.padded 9 nano

/-- A timestamp, for instance `2024-02-29T12:34:56.500Z`. -/
def write (t : Timestamp) : List Char :=
  let second := t.second % 60 + t.nano / 1000000000
  t.date.write ++ 'T' :: Numeral.padded 2 (t.second / 3600) ++
    ':' :: Numeral.padded 2 (t.second / 60 % 60) ++ ':' :: Numeral.padded 2 second ++
    writeFraction (t.nano % 1000000000) ++ ['Z']

end Timestamp

end HqlWhere
