import Std.Data.HashSet
import TemporalGraph.Regex.Program
/-!
Matches of regular expressions in a text. A search tries the preferred ways first, from each place
of the text in turn; matches are found from left to right and do not overlap.
-/

namespace TemporalGraph.Regex

structure Span where
  start : Nat
  stop : Nat
  deriving Repr, DecidableEq

namespace Span

def isEmpty (s : Span) : Bool := s.start == s.stop

end Span

/-- A match, and what its groups matched; of two entries of one group the first counts. -/
structure Match where
  span : Span
  groups : List (Nat × Span)
  deriving Repr, DecidableEq

namespace Match

def group? (m : Match) (index : Nat) : Option Span :=
  if index = 0 then some m.span else (m.groups.find? fun g => g.1 == index).map Prod.snd

end Match

/-- A way through a program: the next instruction, the place in the text, where the groups that are
open were opened, innermost first, and the groups that are closed, latest first. -/
structure Thread where
  instruction : Nat
  place : Nat
  opened : List Nat
  groups : List (Nat × Span)

namespace Thread

def before? (text : Array Char) (place : Nat) : Option Char :=
  if place = 0 then none else text[place - 1]?

def next (program : Array Instruction) (text : Array Char) (t : Thread) : List Thread :=
  match program[t.instruction]? with
  | none => []
  | some (.take s) =>
    if (text[t.place]?).any s.contains then
      [{ t with instruction := t.instruction + 1, place := t.place + 1 }]
    else []
  | some (.require l) =>
    if l.holds (before? text t.place) text[t.place]? then
      [{ t with instruction := t.instruction + 1 }]
    else []
  | some (.opening _) =>
    [{ t with instruction := t.instruction + 1, opened := t.place :: t.opened }]
  | some (.closing i) =>
    match t.opened with
    | start :: opened =>
      [⟨t.instruction + 1, t.place, opened, (i, ⟨start, t.place⟩) :: t.groups⟩]
    | [] => []
  | some (.jump target) => [{ t with instruction := target }]
  | some (.fork preferred other) =>
    [{ t with instruction := preferred }, { t with instruction := other }]

end Thread

/-- Pairs of an instruction and a place that were tried without success, or are being tried. -/
abbrev Tried := Std.HashSet (Nat × Nat)

def firstThrough (program : Array Instruction) (text : Array Char) :
    Nat → Tried → List Thread → Option Thread × Tried
  | 0, tried, _ => (none, tried)
  | _ + 1, tried, [] => (none, tried)
  | fuel + 1, tried, t :: ts =>
    if tried.contains (t.instruction, t.place) then firstThrough program text fuel tried ts
    else if t.instruction = program.size then (some t, tried)
    else
      firstThrough program text fuel (tried.insert (t.instruction, t.place))
        (t.next program text ++ ts)

/-- More steps than a search takes: each pair brings at most two more. -/
def stepLimit (program : Array Instruction) (text : Array Char) : Nat :=
  2 * ((program.size + 1) * (text.size + 1)) + 2

def firstMatchFrom (program : Array Instruction) (text : Array Char) :
    Nat → Nat → Tried → Option Match
  | 0, _, _ => none
  | count + 1, start, tried =>
    match firstThrough program text (stepLimit program text) tried [⟨0, start, [], []⟩] with
    | (some t, _) => some ⟨⟨start, t.place⟩, t.groups⟩
    | (none, tried) => firstMatchFrom program text count (start + 1) tried

def nextMatch (program : Array Instruction) (text : Array Char) (start : Nat) : Option Match :=
  firstMatchFrom program text (text.size + 1 - start) start {}

/-- Up to `count` matches behind a match that ends at `last`. An empty match does not follow upon
another match at once: then the search goes on one character further. -/
def matchesBehind (program : Array Instruction) (text : Array Char) : Nat → Nat → List Match
  | 0, _ => []
  | count + 1, last =>
    let found := match nextMatch program text last with
      | some m => if m.span = ⟨last, last⟩ then nextMatch program text (last + 1) else some m
      | none => none
    match found with
    | some m => m :: matchesBehind program text count m.span.stop
    | none => []

namespace Expr

def firstMatches (e : Expr) (text : Array Char) : Nat → List Match
  | 0 => []
  | count + 1 =>
    let program := e.program
    match nextMatch program text 0 with
    | some m => m :: matchesBehind program text count m.span.stop
    | none => []

def allMatches (e : Expr) (text : Array Char) : List Match := e.firstMatches text (text.size + 1)

end Expr

end TemporalGraph.Regex
