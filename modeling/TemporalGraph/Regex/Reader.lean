import TemporalGraph.Decimal.Digits
import TemporalGraph.Regex.Bracket
/-!
Reading regular expressions. Look-around and references to groups are refused, so that every
expression has an automaton.
-/

namespace TemporalGraph.Regex

open Reader

def nestLimit : Nat := 250

def setFlag? (f : Flags) (c : Char) (on : Bool) : Option Flags :=
  match c with
  | 'i' => some { f with anyCase := on }
  | 'm' => some { f with multiLine := on }
  | 's' => some { f with dotAll := on }
  | 'U' => some { f with swapGreed := on }
  | 'u' => some { f with unicode := on }
  | 'R' => some { f with crlf := on }
  | 'x' => some { f with verbose := on }
  | _ => none

/-- Flags behind `(?`: letters, and behind one hyphen letters of flags to clear. No letter comes
twice. -/
def readFlags (fs : List Char) (f : Flags) : Option Flags := do
  let on := fs.takeWhile (· != '-')
  let off := fs.drop (on.length + 1)
  let hasHyphen := on.length < fs.length
  if hasHyphen && off.isEmpty then none
  if !decide (on ++ off).Nodup then none
  let f ← on.foldlM (fun f c => setFlag? f c true) f
  off.foldlM (fun f c => setFlag? f c false) f

def isNameChar (first : Bool) (c : Char) : Bool :=
  let category := Text.category c
  let isLetter := ["Lu", "Ll", "Lt", "Lm", "Lo", "Nl"].contains category
    || Text.isEnclosedLetter c.toNat
  if first then c = '_' || isLetter
  else c = '_' || c = '.' || c = '[' || c = ']' || isLetter || ["Nd", "No"].contains category

def readName : Reader Unit := do
  let name ← Reader.takeWhile fun c => c != '>'
  if !(← accept ">") then refuse
  match name with
  | c :: cs =>
    if isNameChar true c && cs.all (isNameChar false) then newName (String.ofList name) else refuse
  | [] => refuse

def readCount : Reader Nat := do
  let _ ← Reader.takeWhile Text.isBlank
  let ds ← Reader.takeWhile Char.isDigit
  let _ ← Reader.takeWhile Text.isBlank
  let n := Decimal.value ds
  if ds.isEmpty || 0xFFFFFFFF < n then refuse
  return n

def readBounds : Reader (Nat × Option Nat) := do
  skipSpace
  let least ← readCount
  skipSpace
  let most ← if ← accept "," then do
      skipSpace
      if ← isNext "\x7d" then pure none else pure (some (← readCount))
    else pure (some least)
  skipSpace
  if !(← accept "\x7d") then refuse
  if most.any fun m => m < least then refuse
  return (least, most)

def pieceExpr : Piece → Reader Expr
  | .char c => do
    if (← flags).anyCase then return .set (← folded (.single c)) else return .set (.single c)
  | .set s => return .set s
  | .look l => return .look l

def readPrimitive : Reader Expr := do
  let f ← flags
  let c ← next
  match c with
  | '\\' => pieceExpr (← readEscape)
  | '.' =>
    if !f.unicode then refuse
    if f.dotAll then return .set .all
    else if f.crlf then return .set (.complement (.union (.single '\n') (.single '\r')))
    else return .set (.complement (.single '\n'))
  | '^' => return .look (if f.multiLine then .lineStart f.crlf else .textStart)
  | '$' => return .look (if f.multiLine then .lineEnd f.crlf else .textEnd)
  | c => pieceExpr (.char c)

/-- The last of some items repeated. A change of flags cannot be repeated. -/
def repeatLast (items : List (Option Expr)) (least : Nat) (most : Option Nat) :
    Reader (List (Option Expr)) := do
  let lazy ← accept "?"
  let greedy := lazy == (← flags).swapGreed
  match items with
  | some e :: items => return some (e.times least most greedy) :: items
  | _ => refuse

def sequence (items : List (Option Expr)) : Expr :=
  match items.filterMap id with
  | [] => .empty
  | e :: es => es.foldl (fun acc e => .seq e acc) e

mutual

def readGroup : Nat → Nat → Reader (Option Expr)
  | 0, _ => refuse
  | fuel + 1, depth => do
    if nestLimit ≤ depth then refuse
    let outer ← flags
    skipSpace
    if (← isNext "?=") || (← isNext "?!") || (← isNext "?<=") || (← isNext "?<!") then refuse
    let body (wrap : Expr → Expr) : Reader (Option Expr) := do
      let e ← readAlternatives fuel (depth + 1) [] none
      if !(← accept ")") then refuse
      setFlags outer
      return some (wrap e)
    if (← accept "?P<") || (← accept "?<") then
      let index ← newGroup
      readName
      body (.group index)
    else if ← accept "?" then
      let letters ← Reader.takeWhile fun c => c != ':' && c != ')'
      let inner ← readFlags letters outer
      if ← accept ":" then
        setFlags inner
        body id
      else if letters.isEmpty then refuse
      else if ← accept ")" then
        setFlags inner
        return none
      else refuse
    else
      let index ← newGroup
      body (.group index)

/-- Alternatives up to a closing bracket or the end. The items of the current one come last first,
and `before` holds the alternatives before it. -/
def readAlternatives : Nat → Nat → List (Option Expr) → Option Expr → Reader Expr
  | 0, _, _, _ => refuse
  | fuel + 1, depth, items, before => do
    skipSpace
    let alternative (e : Expr) : Expr := (before.map fun b => Expr.alt b e).getD e
    match ← peek with
    | none => return alternative (sequence items)
    | some ')' => return alternative (sequence items)
    | some '|' =>
      drop 1
      readAlternatives fuel depth [] (some (alternative (sequence items)))
    | some '(' =>
      drop 1
      let g ← readGroup fuel depth
      readAlternatives fuel depth (g :: items) before
    | some '[' =>
      drop 1
      let s ← readSet fuel
      readAlternatives fuel depth (some (.set s) :: items) before
    | some '?' =>
      drop 1
      readAlternatives fuel depth (← repeatLast items 0 (some 1)) before
    | some '*' =>
      drop 1
      readAlternatives fuel depth (← repeatLast items 0 none) before
    | some '+' =>
      drop 1
      readAlternatives fuel depth (← repeatLast items 1 none) before
    | some '\x7b' =>
      drop 1
      let (least, most) ← readBounds
      readAlternatives fuel depth (← repeatLast items least most) before
    | some _ =>
      let e ← readPrimitive
      readAlternatives fuel depth (some e :: items) before

end

def readExpr? (text : String) : Option (Expr × Nat) := do
  let cs := text.toList
  let (e, s) ← (readAlternatives (2 * cs.length + 2) 0 [] none).run { rest := cs }
  if s.rest.isEmpty && e.weight ≤ Expr.weightLimit then some (e, s.groups) else none

end TemporalGraph.Regex
