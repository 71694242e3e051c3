import TemporalGraph.Decimal.Digits
import TemporalGraph.Document.Basic
import TemporalGraph.Text.Escape
/-!
Reading JSON text as a document. The grammar is strict: no comments, no trailing commas, no leading
zeros, no raw control characters. A number beyond the range of 64-bit binary numbers, a string with
a lone surrogate and a container nested too deeply are unreadable, which only their reader notices.
-/

namespace TemporalGraph.Json

def depthLimit : Nat := 127

def isSpace (c : Char) : Bool := c = ' ' || c = '\n' || c = '\t' || c = '\r'

def skipSpace (cs : List Char) : List Char := cs.dropWhile isSpace

def unescape? (c : Char) : Option Char :=
  if c = '"' || c = '\\' || c = '/' then some c
  else if c = 'b' then some '\x08'
  else if c = 'f' then some '\x0c'
  else if c = 'n' then some '\n'
  else if c = 'r' then some '\r'
  else if c = 't' then some '\t'
  else none

def prepend (c : Option Char) (rest : Option (Option (List Char) × List Char)) :
    Option (Option (List Char) × List Char) :=
  rest.map fun (body, after) => ((do return (← c) :: (← body)), after)

/-- The characters of a string up to its closing quote; `none` in the place of the characters if a
surrogate stands alone. -/
def stringBody : List Char → Option (Option (List Char) × List Char)
  | [] => none
  | '"' :: rest => some (some [], rest)
  | '\\' :: 'u' :: a :: b :: c :: d :: rest =>
    match Text.valueIn? 16 [a, b, c, d] with
    | none => none
    | some high =>
      if high < 0xD800 || 0xE000 ≤ high then prepend (some (Char.ofNat high)) (stringBody rest)
      else
        match rest with
        | '\\' :: 'u' :: e :: f :: g :: h :: after =>
          match Text.valueIn? 16 [e, f, g, h] with
          | none => none
          | some low =>
            if high < 0xDC00 && 0xDC00 ≤ low && low < 0xE000 then
              let code := 0x10000 + (high - 0xD800) * 0x400 + (low - 0xDC00)
              prepend (some (Char.ofNat code)) (stringBody after)
            else prepend none (stringBody after)
        | rest => prepend none (stringBody rest)
  | '\\' :: e :: rest =>
    match unescape? e with
    | some c => prepend (some c) (stringBody rest)
    | none => none
  | c :: rest => if c.toNat < 32 || c = '\\' then none else prepend (some c) (stringBody rest)

/-- The digits that fit 64 bits when read after `acc`, and those that do not. -/
def gather (acc : Nat) : List Char → Nat × List Char
  | [] => (acc, [])
  | d :: ds =>
    let n := 10 * acc + Decimal.digitValue d
    if Decimal.isNat64 n then gather n ds else (acc, d :: ds)

/-- `significand * 10 ^ exponent` by one correctly rounded multiplication or division, or by
repeated division far below the range; `none` above the range. -/
def scale : Nat → Float → Int → Option Float
  | 0, f, _ => some f
  | fuel + 1, f, exponent =>
    let power (n : Nat) : Float := Float.ofScientific 1 false n
    if exponent.natAbs ≤ 308 then
      if 0 ≤ exponent then
        let g := f * power exponent.toNat
        if g.isInf then none else some g
      else some (f / power exponent.natAbs)
    else if f == 0.0 then some f
    else if 0 ≤ exponent then none
    else scale fuel (f / power 308) (exponent + 308)

def exponent? : List Char → Option ((Bool × List Char) × List Char)
  | cs =>
    let (negative, cs) := match cs with
      | '+' :: cs => (false, cs)
      | '-' :: cs => (true, cs)
      | cs => (false, cs)
    let ds := cs.takeWhile Char.isDigit
    if ds.isEmpty then none else some ((negative, ds), cs.dropWhile Char.isDigit)

/-- The number with the given whole digits, digits behind the point and exponent; `none` if it is
out of range. Whole numbers of 64 bits stay whole, and `-0` is not one of them. -/
def number? (negative : Bool) (whole : List Char) (fraction : Option (List Char))
    (exponent : Option (Bool × List Char)) : Option Number :=
  let (significand, dropped) := gather 0 whole
  let float (significand : Nat) (exponent : Int) : Option Number :=
    (scale 4 significand.toUInt64.toFloat exponent).map fun f =>
      .float (if negative then -f else f).toBits
  match fraction, exponent, dropped with
  | none, none, [] =>
    if !negative then some (.int significand)
    else if 0 < significand && Decimal.isInt64 (-significand) then some (.int (-significand))
    else float significand 0
  | _, _, _ =>
    let digits := fraction.getD []
    let (significand, rest) := gather significand digits
    let start : Int := dropped.length - (digits.length - rest.length : Nat)
    match exponent with
    | none => float significand start
    | some (down, ds) =>
      let e := Decimal.value ds
      if e < 0x80000000 then float significand (if down then start - e else start + e)
      else if significand = 0 || down then float 0 0
      else none

def readNumber (cs : List Char) : Option (Document × List Char) := do
  let (negative, cs) := match cs with
    | '-' :: cs => (true, cs)
    | cs => (false, cs)
  let whole := cs.takeWhile Char.isDigit
  let cs := cs.dropWhile Char.isDigit
  if whole.isEmpty || (whole.head? = some '0' && 1 < whole.length) then none
  let (fraction, cs) ← match cs with
    | '.' :: cs =>
      let ds := cs.takeWhile Char.isDigit
      if ds.isEmpty then none else some (some ds, cs.dropWhile Char.isDigit)
    | cs => some (none, cs)
  let (exponent, cs) ← match cs with
    | 'e' :: cs | 'E' :: cs => (exponent? cs).map fun (e, rest) => (some e, rest)
    | cs => some (none, cs)
  match number? negative whole fraction exponent with
  | some n => some (.scalar none (.number n), cs)
  | none => some (.unreadable, cs)

def readString (cs : List Char) : Option (Option String × List Char) :=
  (stringBody cs).map fun (body, rest) => (body.map String.ofList, rest)

def contain (depth : Nat) (d : Document) : Document := if depth = 0 then .unreadable else d

mutual

def readValue : Nat → Nat → List Char → Option (Document × List Char)
  | 0, _, _ => none
  | fuel + 1, depth, cs =>
    match skipSpace cs with
    | '"' :: cs =>
      (readString cs).map fun (s, rest) => ((s.map Document.text).getD .unreadable, rest)
    | '[' :: cs =>
      match skipSpace cs with
      | ']' :: rest => some (contain depth (.list []), rest)
      | cs => (readItems fuel (depth - 1) cs).map fun (ds, rest) => (contain depth (.list ds), rest)
    | '\x7b' :: cs =>
      match skipSpace cs with
      | '\x7d' :: rest => some (contain depth (.table []), rest)
      | cs => (readMembers fuel (depth - 1) cs).map fun (es, rest) =>
        (contain depth ((es.map .table).getD .unreadable), rest)
    | 't' :: 'r' :: 'u' :: 'e' :: rest => some (.scalar none (.bool true), rest)
    | 'f' :: 'a' :: 'l' :: 's' :: 'e' :: rest => some (.scalar none (.bool false), rest)
    | 'n' :: 'u' :: 'l' :: 'l' :: rest => some (.scalar none .null, rest)
    | cs => readNumber cs

def readItems : Nat → Nat → List Char → Option (List Document × List Char)
  | 0, _, _ => none
  | fuel + 1, depth, cs => do
    let (d, cs) ← readValue fuel depth cs
    match skipSpace cs with
    | ',' :: cs => (readItems fuel depth cs).map fun (ds, rest) => (d :: ds, rest)
    | ']' :: rest => some ([d], rest)
    | _ => none

def readMembers : Nat → Nat → List Char → Option (Option (List (String × Document)) × List Char)
  | 0, _, _ => none
  | fuel + 1, depth, cs => do
    let (key, cs) ← match skipSpace cs with
      | '"' :: cs => readString cs
      | _ => none
    let (d, cs) ← match skipSpace cs with
      | ':' :: cs => readValue fuel depth cs
      | _ => none
    let entry := key.map fun k => (k, d)
    match skipSpace cs with
    | ',' :: cs =>
      (readMembers fuel depth cs).map fun (es, rest) => ((do return (← entry) :: (← es)), rest)
    | '\x7d' :: rest => some (entry.map fun e => [e], rest)
    | _ => none

end

def parse? (text : String) : Option Document := do
  let cs := text.toList
  let (d, rest) ← readValue (2 * cs.length + 2) depthLimit cs
  if (skipSpace rest).isEmpty then some d else none

end TemporalGraph.Json
