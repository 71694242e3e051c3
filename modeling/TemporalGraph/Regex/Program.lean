import TemporalGraph.Regex.Basic
/-!
Programs of regular expressions. A program is run from its first instruction; behind its last one a
match is complete. Of two ways to go on, the first is preferred.
-/

namespace TemporalGraph.Regex

inductive Instruction where
  | take (s : CharSet)
  | require (l : Look)
  | opening (group : Nat)
  | closing (group : Nat)
  | jump (target : Nat)
  | fork (preferred other : Nat)
  deriving Repr, DecidableEq

namespace Instruction

def again (greedy : Bool) (body exit : Nat) : Instruction :=
  if greedy then .fork body exit else .fork exit body

end Instruction

abbrev Code := Nat → List Instruction

namespace Code

def append (a b : Code) : Code := fun start =>
  let first := a start
  first ++ b (start + first.length)

def copies (body : Code) : Nat → Code
  | 0, _ => []
  | n + 1, start => body.append (body.copies n) start

def plus (body : Code) (greedy : Bool) : Code := fun start =>
  let round := body start
  round ++ [.again greedy start (start + round.length + 1)]

def maybe (body : Code) (greedy : Bool) : Code := fun start =>
  let once := body (start + 1)
  .again greedy (start + 1) (start + once.length + 1) :: once

/-- At most `n` times, each time only behind the time before. -/
def upTo (body : Code) (greedy : Bool) : Nat → Code
  | 0 => fun _ => []
  | n + 1 => maybe (append body (upTo body greedy n)) greedy

end Code

/-- Of a repetition without end, only rounds behind the least number come back to themselves: a
round without characters is then never repeated. -/
def Expr.code : Expr → Code
  | empty, _ => []
  | set s, _ => [.take s]
  | look l, _ => [.require l]
  | group i e, start => .opening i :: (e.code (start + 1) ++ [.closing i])
  | seq a b, start => Code.append a.code b.code start
  | alt a b, start =>
    let first := a.code (start + 1)
    let other := start + first.length + 2
    let second := b.code other
    .fork (start + 1) other :: (first ++ .jump (other + second.length) :: second)
  | repeated e 0 none greedy, start => Code.maybe (Code.plus e.code greedy) greedy start
  | repeated e (n + 1) none greedy, start =>
    Code.append (Code.copies e.code n) (Code.plus e.code greedy) start
  | repeated e least (some most) greedy, start =>
    Code.append (Code.copies e.code least) (Code.upTo e.code greedy (most - least)) start

def Expr.program (e : Expr) : Array Instruction := (e.code 0).toArray

end TemporalGraph.Regex
