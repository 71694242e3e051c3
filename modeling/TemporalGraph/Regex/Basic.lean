import TemporalGraph.Text.Blank
import TemporalGraph.Text.Fold
import TemporalGraph.Text.Word
/-!
Regular expressions: sets of characters, conditions on a place in the text, and expressions over
them. Groups are numbered by their opening brackets; group 0 is the whole match.
-/

namespace TemporalGraph.Regex

inductive CharSet where
  | range (low high : Nat)
  | categories (names : List String)
  | word
  | blank
  | union (a b : CharSet)
  | inter (a b : CharSet)
  | diff (a b : CharSet)
  | exactlyOne (a b : CharSet)
  | complement (a : CharSet)
  | anyCase (a : CharSet)
  deriving Repr, DecidableEq

namespace CharSet

def empty : CharSet := range 1 0

def all : CharSet := range 0 0x10FFFF

def single (c : Char) : CharSet := range c.toNat c.toNat

def contains : CharSet → Char → Bool
  | range low high, c => low ≤ c.toNat && c.toNat ≤ high
  | categories names, c => names.contains (Text.category c)
  | word, c => Text.isWordChar c
  | blank, c => Text.isBlank c
  | union a b, c => a.contains c || b.contains c
  | inter a b, c => a.contains c && b.contains c
  | diff a b, c => a.contains c && !b.contains c
  | exactlyOne a b, c => a.contains c != b.contains c
  | complement a, c => !a.contains c
  | anyCase a, c => (Text.caseVariants c).any a.contains

def weight : CharSet → Nat
  | range _ high =>
    if high < 0x80 then 1 else if high < 0x800 then 2 else if high < 0x10000 then 3 else 4
  | categories names => 150 * names.length
  | word => 600
  | blank => 10
  | union a b | inter a b | diff a b | exactlyOne a b => a.weight + b.weight
  | complement a | anyCase a => a.weight + 4

end CharSet

inductive Look where
  | textStart
  | textEnd
  /-- Behind a line feed; with `crlf`, also behind a carriage return that no line feed follows. -/
  | lineStart (crlf : Bool)
  | lineEnd (crlf : Bool)
  | wordBoundary (ascii : Bool)
  | notWordBoundary (ascii : Bool)
  | wordStart (ascii : Bool)
  | wordEnd (ascii : Bool)
  | wordStartHalf (ascii : Bool)
  | wordEndHalf (ascii : Bool)
  deriving Repr, DecidableEq

namespace Look

def isWord (ascii : Bool) (c : Option Char) : Bool :=
  c.any fun c => if ascii then c.isAlphanum || c = '_' else Text.isWordChar c

def holds (look : Look) (before after : Option Char) : Bool :=
  match look with
  | textStart => before.isNone
  | textEnd => after.isNone
  | lineStart crlf =>
    before.isNone || before == some '\n' || (crlf && before == some '\r' && after != some '\n')
  | lineEnd crlf =>
    after.isNone || (after == some '\n' && !(crlf && before == some '\r'))
      || (crlf && after == some '\r')
  | wordBoundary ascii => isWord ascii before != isWord ascii after
  | notWordBoundary ascii => isWord ascii before == isWord ascii after
  | wordStart ascii => !isWord ascii before && isWord ascii after
  | wordEnd ascii => isWord ascii before && !isWord ascii after
  | wordStartHalf ascii => !isWord ascii before
  | wordEndHalf ascii => !isWord ascii after

end Look

inductive Expr where
  | empty
  | set (s : CharSet)
  | look (l : Look)
  | group (index : Nat) (body : Expr)
  | seq (first second : Expr)
  | alt (first second : Expr)
  /-- At least `least` times and at most `most` times, as often as possible if `greedy`. -/
  | repeated (body : Expr) (least : Nat) (most : Option Nat) (greedy : Bool)
  deriving Repr, DecidableEq

namespace Expr

def minLength : Expr → Nat
  | empty | look _ => 0
  | set _ => 1
  | group _ e => e.minLength
  | seq a b => a.minLength + b.minLength
  | alt a b => min a.minLength b.minLength
  | repeated e least _ _ => least * e.minLength

def isNarrow : Expr → Bool
  | empty | look _ => true
  | set _ => false
  | group _ e => e.isNarrow
  | seq a b | alt a b => a.isNarrow && b.isNarrow
  | repeated e _ most _ => most == some 0 || e.isNarrow

/-- A repetition. What has no characters need not be repeated, and no times is nothing at all. -/
def times (e : Expr) (least : Nat) (most : Option Nat) (greedy : Bool) : Expr :=
  let (least, most) :=
    if e.isNarrow then (min least 1, some (min (most.getD 1) 1)) else (least, most)
  if least = 0 && most == some 0 then empty
  else if least = 1 && most == some 1 then e
  else repeated e least most greedy

/-- About how many states of a byte automaton the expression takes. -/
def weight : Expr → Nat
  | empty | look _ => 1
  | set s => s.weight
  | group _ e => e.weight + 2
  | seq a b => a.weight + b.weight
  | alt a b => a.weight + b.weight + 1
  | repeated e least most _ => (e.weight + 1) * max (most.getD (least + 1)) 1

def weightLimit : Nat := 327680

end Expr

def metaCharacters : List Char := "\\.+*?()|[]\x7b\x7d^$#&-~".toList

def quote (s : String) : String :=
  String.ofList (s.toList.flatMap fun c => if metaCharacters.contains c then ['\\', c] else [c])

end TemporalGraph.Regex
