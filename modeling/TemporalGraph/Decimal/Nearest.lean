import TemporalGraph.Decimal.Digits
/-! Decimal numbers as 64-bit binary numbers: the nearest one, if it is in range. -/

namespace TemporalGraph.Decimal

/-- The bits of the binary number nearest to `significand * 10 ^ exponent`, with a sign; nothing
beyond the greatest one. -/
def nearest? (negative : Bool) (significand : Nat) (exponent : Int) : Option UInt64 :=
  let lead : Int := exponent + (natural significand).length
  let signed (f : Float) : UInt64 := (if negative then -f else f).toBits
  if significand = 0 || lead < -400 then some (signed 0.0)
  else if 400 < lead then none
  else
    let f := Float.ofScientific significand (exponent < 0) exponent.natAbs
    if f.isInf then none else some (signed f)

/-- A number without its sign: digits, perhaps a point among them or at one of their ends, perhaps
an exponent. The parts are the digits as a whole number and the power of ten behind it. -/
def parts? (cs : List Char) : Option (Nat × Int) := do
  let whole := cs.takeWhile Char.isDigit
  let (fraction, cs) := match cs.dropWhile Char.isDigit with
    | '.' :: cs => (cs.takeWhile Char.isDigit, cs.dropWhile Char.isDigit)
    | cs => ([], cs)
  if whole.isEmpty && fraction.isEmpty then none
  let significand := value (whole ++ fraction)
  let places : Int := fraction.length
  match cs with
  | [] => some (significand, -places)
  | e :: cs =>
    if e != 'e' && e != 'E' then none
    let (down, ds) := match cs with
      | '-' :: ds => (true, ds)
      | '+' :: ds => (false, ds)
      | ds => (false, ds)
    if ds.isEmpty || !ds.all Char.isDigit then none
    let exponent : Int := value ds
    some (significand, (if down then -exponent else exponent) - places)

end TemporalGraph.Decimal
