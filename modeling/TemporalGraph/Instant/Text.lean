import TemporalGraph.Decimal.Digits
import TemporalGraph.Error
import TemporalGraph.Instant.Basic
import TemporalGraph.Json.Printer
import TemporalGraph.Text.Blank
import TemporalGraph.Text.Search
/-!
Instants as text. The stored form is in UTC and has three digits behind the second, so that texts of
equal length compare like the instants. Reading accepts any offset and any number of digits; a text
that cannot be read is refused for the first reason met from the left.
-/

namespace TemporalGraph

open Calendar (Date)

namespace Instant

structure Civil where
  date : Date
  hour : Nat
  minute : Nat
  second : Nat
  nano : Nat
  deriving Repr, DecidableEq

def civil (t : Instant) : Civil :=
  let time := (t.second % 86400).toNat
  let leap := t.isLeap
  { date := Date.ofDay (t.second / 86400)
    hour := time / 3600
    minute := time / 60 % 60
    second := time % 60 + if leap then 1 else 0
    nano := t.nano - if leap then 1000000000 else 0 }

/-- Four digits; a year of more digits or before the year 0 has a sign. -/
def renderYear (y : Int) : List Char :=
  let ds := Decimal.natural y.natAbs
  if 0 ≤ y && y ≤ 9999 then Decimal.fixed 4 y.toNat
  else (if y < 0 then '-' else '+') :: List.replicate (4 - ds.length) '0' ++ ds

def Civil.render (c : Civil) (fraction : List Char) : List Char :=
  renderYear c.date.year ++ '-' :: Decimal.fixed 2 c.date.month ++ '-' :: Decimal.fixed 2 c.date.day
    ++ 'T' :: Decimal.fixed 2 c.hour ++ ':' :: Decimal.fixed 2 c.minute
    ++ ':' :: Decimal.fixed 2 c.second ++ fraction ++ ['Z']

def render (t : Instant) : List Char :=
  let c := t.civil
  c.render ('.' :: Decimal.fixed 3 (c.nano / 1000000))

def toText (t : Instant) : String := String.ofList t.render

/-- The fewest of no, three, six or nine digits behind the second that are exact. -/
def renderExact (t : Instant) : List Char :=
  let c := t.civil
  c.render <|
    if c.nano = 0 then []
    else if c.nano % 1000000 = 0 then '.' :: Decimal.fixed 3 (c.nano / 1000000)
    else if c.nano % 1000 = 0 then '.' :: Decimal.fixed 6 (c.nano / 1000)
    else '.' :: Decimal.fixed 9 c.nano

inductive Refusal where
  | tooShort
  | invalid
  | outOfRange
  | trailing
  deriving Repr, DecidableEq

def Refusal.message : Refusal → String
  | tooShort => "premature end of input"
  | invalid => "input contains invalid characters"
  | outOfRange => "input is out of range"
  | trailing => "trailing input"

def takeDigits (n : Nat) (cs : List Char) : Except Refusal (Nat × List Char) :=
  let ds := cs.take n
  if ds.length = n && ds.all Char.isDigit then .ok (Decimal.value ds, cs.drop n)
  else .error .invalid

def takeOne (accepted : List Char) : List Char → Except Refusal (List Char)
  | c :: cs => if accepted.contains c then .ok cs else .error .invalid
  | [] => .error .invalid

/-- The nanoseconds behind a point: at least one digit, and those behind the ninth are dropped. -/
def takeNanos (cs : List Char) : Except Refusal (Nat × List Char) :=
  let ds := cs.takeWhile Char.isDigit
  if cs.isEmpty then .error .tooShort
  else if ds.isEmpty then .error .invalid
  else
    let kept := ds.take 9
    .ok (Decimal.value kept * Nat.pow 10 (9 - kept.length), cs.dropWhile Char.isDigit)

def takePair (cs : List Char) : Except Refusal (Nat × List Char) :=
  if Text.byteLength cs < 2 then .error .tooShort else takeDigits 2 cs

/-- An offset from UTC in minutes: `Z`, or a sign, two digits of hours, what `separator` takes, and
two digits of minutes. -/
def takeOffset (separator : List Char → Except Refusal (List Char)) :
    List Char → Except Refusal (Int × List Char)
  | [] => .error .tooShort
  | c :: cs =>
    if c = 'Z' || c = 'z' then .ok (0, cs)
    else if c = '+' || c = '-' || c = '\u2212' then do
      let (hours, cs) ← takePair cs
      let cs ← separator cs
      let (minutes, cs) ← takePair cs
      if 59 < minutes then .error .outOfRange
      let offset : Int := hours * 60 + minutes
      return (if c = '+' then offset else -offset, cs)
    else .error .invalid

def ofCivil? (c : Civil) (offset : Int) : Option Instant :=
  if h : c.date.isReal ∧ c.hour ≤ 23 ∧ c.minute ≤ 59 ∧ c.second ≤ 60 ∧ c.nano < 1000000000 then
    let minute := c.date.toDay * 1440 + c.hour * 60 + c.minute - offset
    let year := (Date.ofDay (minute / 1440)).year
    if firstYear ≤ year ∧ year ≤ lastYear then
      if hs : c.second = 60 then
        some { second := minute * 60 + 59, nano := c.nano + 1000000000,
               nano_lt := by omega, leap_ends_minute := by omega }
      else
        some { second := minute * 60 + c.second, nano := c.nano,
               nano_lt := by omega, leap_ends_minute := by omega }
    else none
  else none

def takeColon : List Char → Except Refusal (List Char)
  | [] => .error .tooShort
  | c :: cs => if c = ':' then .ok cs else .error .invalid

def parse (cs : List Char) : Except Refusal Instant := do
  if Text.byteLength cs < 19 then .error .tooShort
  let (year, cs) ← takeDigits 4 cs
  let cs ← takeOne ['-'] cs
  let (month, cs) ← takeDigits 2 cs
  let cs ← takeOne ['-'] cs
  let (day, cs) ← takeDigits 2 cs
  let date : Date := ⟨year, month, day⟩
  if !date.isReal then .error .outOfRange
  let cs ← takeOne ['T', 't', ' '] cs
  let (hour, cs) ← takeDigits 2 cs
  let cs ← takeOne [':'] cs
  let (minute, cs) ← takeDigits 2 cs
  let cs ← takeOne [':'] cs
  let (second, cs) ← takeDigits 2 cs
  let (nano, cs) ← match cs with
    | '.' :: cs => takeNanos cs
    | cs => .ok (0, cs)
  if 23 < hour || 59 < minute || 60 < second then .error .outOfRange
  let (offset, cs) ← takeOffset takeColon cs
  if !cs.isEmpty then .error .trailing
  if 1440 ≤ offset.natAbs then .error .outOfRange
  match ofCivil? ⟨date, hour, minute, second, nano⟩ offset with
  | some t => .ok t
  | none => .error .outOfRange

def ofText (text : String) : Except Error Instant :=
  match parse text.toList with
  | .ok t => .ok t
  | .error r => .error (.invalidInstant text r.message)

def normalize : Json.Value → Except Error Json.Value
  | .string s => do return .string (← ofText s).toText
  | v => .error (.invalidInstant v.toText "expected an RFC 3339 string")

def takeNumber? (width : Nat) (cs : List Char) : Option (Nat × List Char) :=
  let cs := Text.trimStart cs
  let ds := (cs.take width).takeWhile Char.isDigit
  if ds.isEmpty then none else some (Decimal.value ds, cs.drop ds.length)

def takeYear? (cs : List Char) : Option (Int × List Char) :=
  match Text.trimStart cs with
  | '-' :: cs => do
    if (cs.head?.map Char.isDigit) != some true then none
    let (year, cs) ← takeNumber? cs.length cs
    return (-(year : Int), cs)
  | '+' :: cs => do
    if (cs.head?.map Char.isDigit) != some true then none
    let (year, cs) ← takeNumber? cs.length cs
    return (year, cs)
  | cs => (takeNumber? 4 cs).map fun (year, cs) => ((year : Int), cs)

def takeMark? (mark : Char) (cs : List Char) : Option (List Char) :=
  match Text.trimStart cs with
  | c :: cs => if c = mark then some (Text.trimStart cs) else none
  | [] => none

/-- The reading used inside documents: blanks may stand between the parts, numbers may be short,
years may have a sign, `UTC` is an offset and the colon of an offset may be missing. -/
def readRelaxed? (cs : List Char) : Option Instant := do
  let (year, cs) ← takeYear? cs
  let cs ← takeMark? '-' cs
  let (month, cs) ← takeNumber? 2 cs
  let cs ← takeMark? '-' cs
  let (day, cs) ← takeNumber? 2 cs
  let cs ← (takeOne ['T', 't', ' '] cs).toOption
  let (hour, cs) ← takeNumber? 2 cs
  let cs ← takeMark? ':' cs
  let (minute, cs) ← takeNumber? 2 cs
  let cs ← takeMark? ':' cs
  let (second, cs) ← takeNumber? 2 cs
  let (nano, cs) ← match cs with
    | '.' :: cs => (takeNanos cs).toOption
    | cs => some (0, cs)
  let cs := Text.trimStart cs
  let (offset, cs) ←
    if (cs.take 3).map Char.toUpper = ['U', 'T', 'C'] then some ((0 : Int), cs.drop 3)
    else (takeOffset (fun cs => .ok (cs.dropWhile fun c => c = ':' || Text.isBlank c)) cs).toOption
  if !(Text.trimStart cs).isEmpty || 1440 ≤ offset.natAbs then none
  ofCivil? ⟨⟨year, month, day⟩, hour, minute, second, nano⟩ offset

end Instant

end TemporalGraph
