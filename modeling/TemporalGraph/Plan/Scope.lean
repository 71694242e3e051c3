import TemporalGraph.Text.Blank
import TemporalGraph.Text.Search
import TemporalGraph.Text.Word
/-!
Projections of a statement text: where a `WITH` clause starts, where its list of items ends, and how
further items are put behind the list.
-/

namespace TemporalGraph.Plan.Scope

/-- Whether `c` is the letter, in either case. The long s is an s in lower case. -/
def isLetter (letter c : Char) : Bool := c.toLower = letter || (letter = 's' && c = 'ſ')

def afterKeyword? : List Char → List Char → Option (List Char)
  | [], text => some text
  | _ :: _, [] => none
  | k :: ks, c :: cs => if isLetter k c then afterKeyword? ks cs else none

def afterKeywordBlank? (keyword text : List Char) : Option (List Char) :=
  match afterKeyword? keyword text with
  | some (c :: cs) => if Text.isBlank c then some (Text.trimStart cs) else none
  | _ => none

/-- The length of `WITH` and blanks, and of `DISTINCT` and blanks behind it. -/
def withLength? (text : List Char) : Option Nat :=
  match afterKeywordBlank? "with".toList text with
  | some rest =>
    let items := (afterKeywordBlank? "distinct".toList rest).getD rest
    some (text.length - items.length)
  | none => none

structure Clause where
  start : Nat
  items : Nat
  deriving Repr, DecidableEq

/-- The `WITH` clauses of a text, from left to right. A clause starts at the start of a word, and
none starts within another. `skip` characters still belong to the last one; `inWord` tells whether
the character before is part of a word. -/
def clausesFrom (index skip : Nat) (inWord : Bool) : List Char → List Clause
  | [] => []
  | c :: cs =>
    match skip with
    | skip + 1 => clausesFrom (index + 1) skip (Text.isWordChar c) cs
    | 0 =>
      match if inWord then none else withLength? (c :: cs) with
      | some n =>
        ⟨index, index + n⟩ :: clausesFrom (index + 1) (n - 1) (Text.isWordChar c) cs
      | none => clausesFrom (index + 1) 0 (Text.isWordChar c) cs

def clauses (text : List Char) : List Clause := clausesFrom 0 0 false text

def clauseKeywords : List String :=
  ["CALL", "CREATE", "DELETE", "DETACH", "FOREACH", "LIMIT", "MATCH", "MERGE", "OPTIONAL",
    "ORDER", "REMOVE", "RETURN", "SET", "SKIP", "UNION", "UNWIND", "WHERE", "WITH"]

def isWordByte (c : Char) : Bool := c.isAlphanum || c = '_'

/-- What a scan of a list knows of the text before: the quote it is in, how many brackets are open,
and whether a word may not start here. -/
structure Scan where
  quote : Option Char := none
  depth : Nat := 0
  inWord : Bool := false
  deriving Repr, DecidableEq

namespace Scan

def isQuote (c : Char) : Bool := c = '\'' || c = '"' || c = '\x60'

def opens (c : Char) : Bool := c = '(' || c = '[' || c = '\x7b'

def closes (c : Char) : Bool := c = ')' || c = ']' || c = '\x7d'

/-- A bracket that closes none counts for nothing. -/
def step (s : Scan) (c : Char) : Scan :=
  let inWord := isWordByte c || c = '.' || c = '$'
  match s.quote with
  | some q => { s with quote := if c = q then none else some q, inWord }
  | none =>
    if isQuote c then { s with quote := some c, inWord }
    else if opens c then { s with depth := s.depth + 1, inWord }
    else if closes c then { s with depth := s.depth - 1, inWord }
    else { s with inWord }

def endsAt (s : Scan) (text : List Char) : Bool :=
  s.quote.isNone && s.depth = 0 && !s.inWord && (text.head?.any Char.isAlpha)
    && clauseKeywords.contains (String.ofList ((text.takeWhile isWordByte).map Char.toUpper))

end Scan

def projectionLength (s : Scan) : List Char → Nat
  | [] => 0
  | c :: cs => if s.endsAt (c :: cs) then 0 else projectionLength (s.step c) cs + 1

def splitItems (depth : Nat) : List Char → List (List Char)
  | [] => [[]]
  | c :: cs =>
    if c = ',' && depth = 0 then [] :: splitItems 0 cs
    else
      let depth := if Scan.opens c then depth + 1 else if Scan.closes c then depth - 1 else depth
      match splitItems depth cs with
      | item :: items => (c :: item) :: items
      | [] => [[c]]

def endsInWord (word : String) (text : List Char) : Bool :=
  (word.toList.reverse).isPrefixOf ((text.map Char.toUpper).reverse)

def isPredicate (before : List Char) : Bool :=
  let before := Text.trimEnd before
  endsInWord "STARTS" before || endsInWord "ENDS" before

def passedEnd? (key text : List Char) (clause : Clause) : Option Nat :=
  if isPredicate (text.take clause.start) then none
  else
    let rest := text.drop clause.items
    let items := Text.trimEnd (rest.take (projectionLength {} rest))
    if (splitItems 0 items).any fun item => Text.trim item == key then
      some (clause.items + items.length)
    else none

def passedEnds (key text : List Char) : List Nat := (clauses text).filterMap (passedEnd? key text)

/-- A text with `extra` inserted at the given places, of which `copied` characters are already
written. No place may lie before what is already written. -/
def insertAll? (extra : List Char) : Nat → List Nat → List Char → Option (List Char)
  | _, [], rest => some rest
  | copied, place :: places, rest =>
    if place < copied then none
    else
      let n := place - copied
      (insertAll? extra place places (rest.drop n)).map fun tail => rest.take n ++ extra ++ tail

def carry? (extra key text : List Char) : Option (List Char) :=
  insertAll? extra 0 (passedEnds key text) text

end TemporalGraph.Plan.Scope
