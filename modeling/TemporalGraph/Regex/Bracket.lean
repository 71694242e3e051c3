import TemporalGraph.Regex.Basic
import TemporalGraph.Regex.Cursor
import TemporalGraph.Regex.Named
import TemporalGraph.Text.Escape
/-!
Reading what stands for one character or one place: escapes, and sets in brackets.
-/

namespace TemporalGraph.Regex

open Reader

inductive Piece where
  | char (c : Char)
  | set (s : CharSet)
  | look (l : Look)

def isEscapable (c : Char) : Bool :=
  metaCharacters.contains c || (c.toNat < 128 && !c.isAlphanum && c != '<' && c != '>')

def readHex (width : Nat) : Reader Char := do
  skipSpace
  if ← accept "\x7b" then
    skipSpace
    let ds ← takeWhile fun c => c != '\x7d'
    if !(← accept "\x7d") then refuse
    Text.charOfHex? ds
  else
    let ds ← (List.range width).mapM fun _ => next
    Text.charOfHex? ds

/-- A set or its complement. Without Unicode no set has characters beyond ASCII. -/
def negateIf (negated : Bool) (s : CharSet) : Reader CharSet := do
  if negated then
    if (← flags).unicode then return .complement s else refuse
  else return s

def shorthandSet (c : Char) : Reader CharSet := do
  let unicode := (← flags).unicode
  let set : CharSet :=
    if c.toLower = 'd' then if unicode then .categories ["Nd"] else asciiDigits
    else if c.toLower = 's' then if unicode then .blank else asciiBlanks
    else if unicode then .word else asciiWord
  negateIf c.isUpper set

def readProperty (negated : Bool) : Reader CharSet := do
  skipSpace
  if !(← flags).unicode then refuse
  if ← accept "\x7b" then
    let name ← takeWhile fun c => c != '\x7d'
    if !(← accept "\x7d") then refuse
    let (inverted, name) := match name with
      | '^' :: name => (true, name)
      | name => (false, name)
    let (differs, name) :=
      let behind := name.dropWhile fun c => c != '=' && c != ':'
      let key := (name.takeWhile fun c => c != '=' && c != ':')
      if behind.isEmpty then (false, name)
      else
        let plain := (key.filter Char.isAlpha).map Char.toLower
        if ["gc".toList, "generalcategory".toList].contains plain then
          (key.getLast? == some '!', behind.drop 1)
        else (false, ['='])
    let set ← property? (String.ofList name)
    let set : CharSet := if (← flags).anyCase then .anyCase set else set
    negateIf ((negated != inverted) != differs) set
  else
    let set ← property? (String.singleton (← next))
    let set : CharSet := if (← flags).anyCase then .anyCase set else set
    negateIf negated set

/-- The kinds of `\b`, with the kind in braces. Braces that begin with no letter are left to a
repetition. -/
def readBoundary : Reader Look := do
  let ascii := !(← flags).unicode
  let s ← get
  if ← accept "\x7b" then
    skipSpace
    let isKindChar (c : Char) : Bool := c.isAlpha || c = '-'
    match ← peek with
    | none => refuse
    | some c =>
      if isKindChar c then
        let kind ← takeWhile isKindChar
        skipSpace
        if !(← accept "\x7d") then refuse
        match String.ofList kind with
        | "start" => return .wordStart ascii
        | "end" => return .wordEnd ascii
        | "start-half" => return .wordStartHalf ascii
        | "end-half" => return .wordEndHalf ascii
        | _ => refuse
      else
        set s
        return .wordBoundary ascii
  else return .wordBoundary ascii

def readEscape : Reader Piece := do
  let ascii := !(← flags).unicode
  let c ← next
  match c with
  | 'x' => return .char (← readHex 2)
  | 'u' => return .char (← readHex 4)
  | 'U' => return .char (← readHex 8)
  | 'p' => return .set (← readProperty false)
  | 'P' => return .set (← readProperty true)
  | 'd' | 's' | 'w' | 'D' | 'S' | 'W' => return .set (← shorthandSet c)
  | 'a' => return .char '\x07'
  | 'f' => return .char '\x0c'
  | 't' => return .char '\t'
  | 'n' => return .char '\n'
  | 'r' => return .char '\r'
  | 'v' => return .char '\x0b'
  | 'A' => return .look .textStart
  | 'z' => return .look .textEnd
  | 'b' => return .look (← readBoundary)
  | 'B' => return .look (.notWordBoundary ascii)
  | '<' => return .look (.wordStart ascii)
  | '>' => return .look (.wordEnd ascii)
  | c => if isEscapable c then return .char c else refuse

def folded (s : CharSet) : Reader CharSet := do
  let f ← flags
  if f.anyCase then
    if f.unicode then return .anyCase s
    else return .inter (.anyCase s) (.range 0 127)
  else return s

def readNamed : Reader (Option CharSet) := do
  let s ← get
  if ← accept "[:" then
    let negated ← accept "^"
    let name ← takeWhile fun c => c != ':'
    if ← accept ":]" then
      match namedSet? (String.ofList name) with
      | some set => return some (← negateIf negated set)
      | none =>
        set s
        return none
    else
      set s
      return none
  else return none

inductive SetOp where
  | inter
  | diff
  | exactlyOne

def SetOp.apply : SetOp → CharSet → CharSet → CharSet
  | inter => .inter
  | diff => .diff
  | exactlyOne => .exactlyOne

def closeOp (left : Option (CharSet × SetOp)) (right : CharSet) : Reader CharSet := do
  match left with
  | some (set, op) => return op.apply (← folded set) (← folded right)
  | none => return right

def pieceSet : Piece → Reader CharSet
  | .char c => do
    if !(← flags).unicode && 127 < c.toNat then refuse
    return .single c
  | .set s => return s
  | .look _ => refuse

def readItem : Reader Piece := do
  if ← accept "\\" then readEscape
  else return .char (← next)

def readRange : Reader CharSet := do
  let first ← readItem
  skipSpace
  match ← peek with
  | none => refuse
  | some '-' =>
    let s ← get
    drop 1
    skipSpace
    if (← isNext "]") || (← isNext "-") then
      set s
      pieceSet first
    else
      let last ← readItem
      match first, last with
      | .char a, .char b =>
        if b < a then refuse
        if !(← flags).unicode && 127 < b.toNat then refuse
        return .range a.toNat b.toNat
      | _, _ => refuse
  | some _ => pieceSet first

mutual

def readSet : Nat → Reader CharSet
  | 0 => refuse
  | fuel + 1 => do
    skipSpace
    let negated ← accept "^"
    skipSpace
    let hyphens ← takeWhile fun c => c = '-'
    skipSpace
    let start : CharSet := if hyphens.isEmpty then .empty else .single '-'
    let bracket ← if hyphens.isEmpty then accept "]" else pure false
    let start : CharSet := if bracket then .single ']' else start
    let set ← readUnion fuel none start
    negateIf negated (← folded set)

def readUnion : Nat → Option (CharSet × SetOp) → CharSet → Reader CharSet
  | 0, _, _ => refuse
  | fuel + 1, left, set => do
    skipSpace
    match ← peek with
    | none => refuse
    | some '[' =>
      match ← readNamed with
      | some named => readUnion fuel left (.union set named)
      | none =>
        drop 1
        let inner ← readSet fuel
        readUnion fuel left (.union set inner)
    | some ']' =>
      drop 1
      closeOp left set
    | some _ =>
      if ← accept "&&" then readUnion fuel (some (← closeOp left set, .inter)) .empty
      else if ← accept "--" then readUnion fuel (some (← closeOp left set, .diff)) .empty
      else if ← accept "~~" then readUnion fuel (some (← closeOp left set, .exactlyOne)) .empty
      else readUnion fuel left (.union set (← readRange))

end

end TemporalGraph.Regex
