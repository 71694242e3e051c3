/-!
The Gregorian calendar, extended without limit to both sides. Days are counted from 1970-01-01.
Main statement: every day lies in the year that is computed for it.
-/

namespace TemporalGraph.Calendar

def isLeapYear (y : Int) : Bool := y % 4 = 0 && (y % 100 ≠ 0 || y % 400 = 0)

def daysBeforeYear (y : Int) : Int := 365 * (y - 1) + (y - 1) / 4 - (y - 1) / 100 + (y - 1) / 400

/-- The year of a day counted from the first of January of the year 1. Dividing by the mean length
of a year misses it by one at most. -/
def yearOfDay (d : Int) : Int :=
  let y := 400 * d / 146097 + 1
  if d < daysBeforeYear y then y - 1
  else if daysBeforeYear (y + 1) ≤ d then y + 1
  else y

theorem daysBeforeYear_yearOfDay (d : Int) :
    daysBeforeYear (yearOfDay d) ≤ d ∧ d < daysBeforeYear (yearOfDay d + 1) := by
  unfold yearOfDay daysBeforeYear
  dsimp only
  split
  · omega
  · split <;> omega

def monthLengths (leap : Bool) : List Nat :=
  [31, if leap then 29 else 28, 31, 30, 31, 30, 31, 31, 30, 31, 30, 31]

def splitDays : List Nat → Nat → Nat × Nat
  | [], n => (0, n)
  | l :: ls, n =>
    if n < l then (0, n)
    else
      let (months, rest) := splitDays ls (n - l)
      (months + 1, rest)

structure Date where
  year : Int
  month : Nat
  day : Nat
  deriving Repr, DecidableEq

namespace Date

def isReal (d : Date) : Bool :=
  1 ≤ d.month && d.month ≤ 12 && 1 ≤ d.day
    && d.day ≤ (monthLengths (isLeapYear d.year)).getD (d.month - 1) 0

def epoch : Int := 719162

def toDay (d : Date) : Int :=
  let earlier : Nat := ((monthLengths (isLeapYear d.year)).take (d.month - 1)).foldl (· + ·) 0
  daysBeforeYear d.year + earlier + (d.day - 1 : Nat) - epoch

def ofDay (day : Int) : Date :=
  let d := day + epoch
  let year := yearOfDay d
  let (months, rest) := splitDays (monthLengths (isLeapYear year)) (d - daysBeforeYear year).toNat
  ⟨year, months + 1, rest + 1⟩

end Date

end TemporalGraph.Calendar
