import TemporalGraph.Yaml.Scalar
/-!
The tokens of a text: indicators, scalars, and the beginnings and ends of blocks, which the
indentation tells. A key is known as such only at the colon behind it; its token is then put where
the key began.
-/

namespace TemporalGraph.Yaml

inductive Token where
  | directive
  | documentStart
  | documentEnd
  | blockList
  | blockTable
  | blockEnd
  | openList
  | closeList
  | openTable
  | closeTable
  | item
  | comma
  | key
  | value
  | reference (name : String)
  | anchor (name : String)
  | tag (core : Option String)
  | scalar (plain : Bool) (text : String)
  deriving Repr, BEq

/-- A place at which a key may begin: the number of its token, and whether a key must begin
there. -/
structure Candidate where
  token : Nat
  required : Bool
  mark : Mark

def keyLimit : Nat := 1024

def Candidate.isStale (c : Candidate) (m : Mark) : Bool :=
  c.mark.line < m.line || c.mark.index + keyLimit < m.index

/-- The tokens so far, and what the next one depends on. There is one possible candidate for each
open bracket, innermost first, and one for the block around them. -/
structure Scan where
  place : Place
  /-- More than the number of characters of the text. -/
  size : Nat
  tokens : Array Token := #[]
  /-- The column of the current block, or -1 outside. -/
  indent : Int := -1
  outer : List Int := []
  keyAllowed : Bool := true
  candidates : List (Option Candidate) := [none]
  /-- Where a colon may stand directly behind a quoted key. -/
  adjacent : Option Nat := none

namespace Scan

def bracketLimit : Nat := 255

def inFlow (s : Scan) : Bool := 1 < s.candidates.length

def push (s : Scan) (t : Token) : Scan := { s with tokens := s.tokens.push t }

def take (s : Scan) (count : Nat) (t : Token) : Scan :=
  { s with place := s.place.behind (s.place.rest.take count), tokens := s.tokens.push t }

def indentTo (s : Scan) (column index : Nat) (t : Token) : Scan :=
  if s.inFlow || column ≤ s.indent then s
  else
    { s with
      tokens := s.tokens.insertIdxIfInBounds index t
      indent := column
      outer := s.indent :: s.outer }

def unindentFrom (column : Int) (tokens : Array Token) (indent : Int) :
    List Int → Array Token × Int × List Int
  | [] => (tokens, indent, [])
  | o :: os =>
    if column < indent then unindentFrom column (tokens.push .blockEnd) o os
    else (tokens, indent, o :: os)

def unindentTo (s : Scan) (column : Int) : Scan :=
  if s.inFlow then s
  else
    let (tokens, indent, outer) := unindentFrom column s.tokens s.indent s.outer
    { s with tokens, indent, outer }

def dropStale (s : Scan) : Option Scan :=
  let isStale (c : Candidate) : Bool := c.isStale s.place.mark
  if s.candidates.any fun c => c.any fun c => isStale c && c.required then none
  else some { s with candidates := s.candidates.map fun c => c.filter fun c => !isStale c }

def dropCandidate (s : Scan) : Option Scan :=
  match s.candidates with
  | some c :: cs => if c.required then none else some { s with candidates := none :: cs }
  | _ => some s

def offerKey (s : Scan) : Option Scan := do
  if !s.keyAllowed then return s
  let s ← s.dropCandidate
  let required := s.inFlow && s.indent = s.place.column
  return { s with
    candidates := some ⟨s.tokens.size, required, s.place.mark⟩ :: s.candidates.tail }

/-- Skip blanks, line breaks and comments. Tabs are left where a key may begin in a block. -/
def spaceFrom (inFlow : Bool) : List Char → Mark → (keyAllowed inComment : Bool) → Place × Bool
  | [], m, keyAllowed, _ => (⟨[], m⟩, keyAllowed)
  | c :: cs, m, keyAllowed, inComment =>
    if isBreak c then spaceFrom inFlow cs (m.behind c) (keyAllowed || !inFlow) false
    else if inComment then spaceFrom inFlow cs (m.behind c) keyAllowed true
    else if c = ' ' || (c = '\t' && (inFlow || !keyAllowed)) then
      spaceFrom inFlow cs (m.behind c) keyAllowed false
    else if c = '#' then spaceFrom inFlow cs (m.behind c) keyAllowed true
    else (⟨c :: cs, m⟩, keyAllowed)

def skipSpace (s : Scan) : Scan :=
  let (place, keyAllowed) := spaceFrom s.inFlow s.place.rest s.place.mark s.keyAllowed false
  { s with place, keyAllowed }

def isNameChar (c : Char) : Bool := c.isAlphanum || c = '-' || c = '_'

def isVersion (cs : List Char) : Bool :=
  let isNumber (ds : List Char) : Bool := !ds.isEmpty && ds.all Char.isDigit && ds.length ≤ 9
  match cs.dropWhile Char.isDigit with
  | '.' :: minor => isNumber (cs.takeWhile Char.isDigit) && isNumber minor
  | _ => false

def readDirective (s : Scan) : Option Scan := do
  let s ← (s.unindentTo (-1)).dropCandidate
  let (line, p) := s.place.takeWhile fun c => !isBreak c
  let words := ((String.ofList (line.drop 1)).splitToList fun c => isBlank c).filter (!·.isEmpty)
  let words := words.takeWhile fun w => !w.startsWith "#"
  let name := line.drop 1 |>.takeWhile isNameChar
  if name.isEmpty || !endsWord (line.drop (name.length + 1)) then none
  match words with
  | ["YAML", version] => if isVersion version.toList then some () else none
  | "YAML" :: _ => none
  | ["TAG", handle, _] => if handle.startsWith "!" && handle.endsWith "!" then some () else none
  | "TAG" :: _ => none
  | _ => some ()
  return { s with place := p.next, keyAllowed := false, tokens := s.tokens.push .directive }

def readDocumentMark (s : Scan) (t : Token) : Option Scan := do
  let s ← (s.unindentTo (-1)).dropCandidate
  return { s.take 3 t with keyAllowed := false }

def readOpen (s : Scan) (t : Token) : Option Scan := do
  let s ← s.offerKey
  if bracketLimit < s.candidates.length then none
  return { s.take 1 t with candidates := none :: s.candidates, keyAllowed := true }

def readClose (s : Scan) (t : Token) : Option Scan := do
  let s ← s.dropCandidate
  let candidates := if s.inFlow then s.candidates.tail else s.candidates
  return { s.take 1 t with candidates, keyAllowed := false }

def readComma (s : Scan) : Option Scan := do
  let s ← s.dropCandidate
  return { s.take 1 .comma with keyAllowed := true }

def readItem (s : Scan) : Option Scan := do
  if s.inFlow || !s.keyAllowed then none
  let s ← (s.indentTo s.place.column s.tokens.size .blockList).dropCandidate
  return { s.take 1 .item with keyAllowed := true }

def readKey (s : Scan) : Option Scan := do
  if !s.inFlow && !s.keyAllowed then none
  let s ← (s.indentTo s.place.column s.tokens.size .blockTable).dropCandidate
  return { s.take 1 .key with keyAllowed := !s.inFlow }

/-- A colon: if there is a candidate, it was a key. -/
def readValue (s : Scan) : Option Scan := do
  match s.candidates with
  | some c :: cs =>
    let s := { s with tokens := s.tokens.insertIdxIfInBounds c.token .key }
    let s := s.indentTo c.mark.column c.token .blockTable
    return { s.take 1 .value with candidates := none :: cs, keyAllowed := false }
  | _ =>
    if !s.inFlow && !s.keyAllowed then none
    let s := s.indentTo s.place.column s.tokens.size .blockTable
    return { s.take 1 .value with keyAllowed := !s.inFlow }

def readAnchor (s : Scan) (token : String → Token) : Option Scan := do
  let s ← s.offerKey
  let (name, p) := s.place.next.takeWhile isNameChar
  let isEnd (c : Char) : Bool := "?:,]\x7d%@\x60".toList.contains c
  if name.isEmpty || !(endsWord p.rest || p.peek.any isEnd) then none
  let s := s.push (token (String.ofList name))
  return { s with place := p, keyAllowed := false }

def isTagChar (c : Char) : Bool := isNameChar c || ";/?:@&=+$,.!~*'()[]%".toList.contains c

def readTag (s : Scan) : Option Scan := do
  let s ← s.offerKey
  let (core, p) ← match s.place.rest with
    | '!' :: '<' :: _ =>
      let (name, p) := s.place.next.next.takeWhile isTagChar
      if name.isEmpty || p.peek != some '>' then none else some (none, p.next)
    | '!' :: '!' :: _ =>
      let (name, p) := s.place.next.next.takeWhile isTagChar
      if name.isEmpty then none else some (some (String.ofList name), p)
    | _ =>
      let (name, p) := s.place.next.takeWhile isTagChar
      let behind := name.dropWhile isNameChar
      if behind == ['!'] then none else some (none, p)
  if !endsWord p.rest then none
  return { s with place := p, keyAllowed := false, tokens := s.tokens.push (.tag core) }

def readQuoted (s : Scan) (double : Bool) : Option Scan := do
  let s ← s.offerKey
  let start := s.place.next
  let (text, p) ← if double then doubleQuoted s.size start else singleQuoted s.size start
  return { s with
    place := p
    keyAllowed := false
    adjacent := some p.mark.index
    tokens := s.tokens.push (.scalar false (String.ofList text)) }

def readBlockText (s : Scan) (literal : Bool) : Option Scan := do
  let s ← s.offerKey
  let (text, p) ← readBlockScalar literal s.indent s.size s.place.next
  return { s with
    place := p
    keyAllowed := true
    tokens := s.tokens.push (.scalar false (String.ofList text)) }

def readPlainText (s : Scan) : Option Scan := do
  let s ← s.offerKey
  let (text, broken, p) ← readPlain s.inFlow (s.indent + 1).toNat s.size s.place
  return { s with
    place := p
    keyAllowed := broken
    tokens := s.tokens.push (.scalar true (String.ofList text)) }

def readToken (s : Scan) (c : Char) (cs : List Char) : Option Scan :=
  let atEnd := endsWord cs
  if s.place.column = 0 && c = '%' then s.readDirective
  else if s.place.beginsLine ['-', '-', '-'] then s.readDocumentMark .documentStart
  else if s.place.beginsLine ['.', '.', '.'] then s.readDocumentMark .documentEnd
  else if c = '[' then s.readOpen .openList
  else if c = '\x7b' then s.readOpen .openTable
  else if c = ']' then s.readClose .closeList
  else if c = '\x7d' then s.readClose .closeTable
  else if c = ',' then s.readComma
  else if c = '-' && atEnd then s.readItem
  else if c = '?' && (s.inFlow || atEnd) then s.readKey
  else if c = ':' && (atEnd || (s.inFlow
      && (cs.head?.any isFlowIndicator || s.adjacent == some s.place.mark.index))) then s.readValue
  else if c = '*' then s.readAnchor .reference
  else if c = '&' then s.readAnchor .anchor
  else if c = '!' then s.readTag
  else if (c = '|' || c = '>') && !s.inFlow then s.readBlockText (c = '|')
  else if c = '\'' then s.readQuoted false
  else if c = '"' then s.readQuoted true
  else if c = '%' || c = '@' || c = '\x60' then none
  else s.readPlainText

def run : Nat → Scan → Option (Array Token)
  | 0, _ => none
  | fuel + 1, s => do
    let s ← s.skipSpace.dropStale
    let s := s.unindentTo s.place.column
    match s.place.rest with
    | [] => (s.unindentTo (-1)).dropCandidate.map Scan.tokens
    | c :: cs => run fuel (← s.readToken c cs)

end Scan

def normalized : List Char → List Char
  | [] => []
  | '\x00' :: _ => []
  | '\r' :: '\n' :: cs => '\n' :: normalized cs
  | c :: cs => c :: normalized cs

def tokens? (text : String) : Option (List Token) :=
  let cs := normalized text.toList
  let size := cs.length + 1
  (Scan.run size { place := { rest := cs }, size }).map Array.toList

end TemporalGraph.Yaml
