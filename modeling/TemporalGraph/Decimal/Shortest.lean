import TemporalGraph.Decimal.Digits
/-!
The shortest decimal text of a binary number: the fewest digits that read back as the same number,
and of those the nearest. All arithmetic is exact.
-/

namespace TemporalGraph.Decimal

/-- The magnitude `significand * 2 ^ exponent` of a finite binary number, with its sign. -/
structure Binary where
  negative : Bool
  significand : Nat
  exponent : Int
  /-- The distance to the next smaller number is half the distance to the next larger one. -/
  atPower : Bool
  deriving Repr, DecidableEq

def Binary.ofBits (bits : UInt64) : Binary :=
  let n := bits.toNat
  let fraction : Nat := n % 0x10000000000000
  let biased : Nat := n / 0x10000000000000 % 0x800
  let negative := n / 0x8000000000000000 = 1
  if biased = 0 then ⟨negative, fraction, -1074, false⟩
  else ⟨negative, fraction + 0x10000000000000, (biased : Int) - 1075, fraction = 0 && 1 < biased⟩

structure Scientific where
  digits : Nat
  exponent : Int
  deriving Repr, DecidableEq

/-- The numbers that read back as a given one, in quarters of its last place over `scale`. -/
structure Interval where
  low : Nat
  middle : Nat
  high : Nat
  scale : Nat
  closed : Bool

def Interval.ofBinary (b : Binary) : Interval :=
  let quarter := b.exponent - 2
  let up := Nat.pow 2 quarter.toNat
  let m := 4 * b.significand
  ⟨(m - if b.atPower then 1 else 2) * up, m * up, (m + 2) * up, Nat.pow 2 (-quarter).toNat,
    b.significand % 2 = 0⟩

def Interval.contains (i : Interval) (d : Nat) (k : Int) : Bool :=
  let x := d * Nat.pow 10 k.toNat * i.scale
  let unit := Nat.pow 10 (-k).toNat
  if i.closed then i.low * unit ≤ x && x ≤ i.high * unit else i.low * unit < x && x < i.high * unit

/-- On the grid of multiples of `10 ^ k`, the point of the interval nearest to its middle; of two
equally near ones the even multiple. -/
def Interval.nearest? (i : Interval) (k : Int) : Option Scientific :=
  let unit := Nat.pow 10 k.toNat * i.scale
  let x := i.middle * Nat.pow 10 (-k).toNat
  let below := x / unit
  let rest := x % unit
  let lower := 0 < below && i.contains below k
  let upper := i.contains (below + 1) k
  if lower && upper then
    let goUp := unit < 2 * rest || (2 * rest = unit && below % 2 = 1)
    some ⟨if goUp then below + 1 else below, k⟩
  else if lower then some ⟨below, k⟩
  else if upper then some ⟨below + 1, k⟩
  else none

/-- The coarsest grid that has a point in the interval gives the fewest digits. -/
def shortest (b : Binary) : Scientific :=
  let i := Interval.ofBinary b
  let top := (b.exponent + Int.ofNat (Nat.log2 b.significand)) * 30103 / 100000 + 2
  ((List.range 24).findSome? fun n => i.nearest? (top - Int.ofNat n)).getD ⟨0, 0⟩

/-- Where a number leaves positional notation: the exponents of the leading digit that are still
written out. -/
structure Layout where
  leastPositional : Int
  greatestPositional : Int

def Layout.render (l : Layout) (s : Scientific) : List Char :=
  let ds := natural s.digits
  let lead : Int := s.exponent + ds.length - 1
  let zeros (n : Nat) : List Char := List.replicate n '0'
  if l.leastPositional ≤ lead && lead ≤ l.greatestPositional then
    if 0 ≤ s.exponent then ds ++ zeros s.exponent.toNat ++ ['.', '0']
    else if 0 ≤ lead then ds.take (lead.toNat + 1) ++ '.' :: ds.drop (lead.toNat + 1)
    else '0' :: '.' :: zeros (-lead - 1).toNat ++ ds
  else
    let mark := if lead < 0 then ['e', '-'] else ['e', '+']
    let fraction := ds.drop 1
    ds.take 1 ++ (if fraction.isEmpty then [] else '.' :: fraction) ++ mark ++ natural lead.natAbs

def Layout.renderBinary (l : Layout) (b : Binary) : List Char :=
  let magnitude := if b.significand = 0 then ['0', '.', '0'] else l.render (shortest b)
  if b.negative then '-' :: magnitude else magnitude

end TemporalGraph.Decimal
