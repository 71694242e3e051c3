import TemporalGraph.Config
import TemporalGraph.Outcome
import TemporalGraph.Text.Search
/-!
The fragments of a statement that a plan looks for. A statement without the fragment is left as it
is, or refused under the strict policy.
-/

namespace TemporalGraph.Plan

def unmatched (c : Config) (operation pattern : String) : Outcome Unit :=
  match c.matchPolicy with
  | .strict => Outcome.fail (.patternNotFound operation pattern)
  | .lenient =>
    Outcome.report ⟨.warn, "Rewrite pattern not found, fragment left unversioned",
      [("operation", operation), ("pattern", pattern)]⟩

/-- A node match with one property: `MATCH (node:label { property: $parameter })`. -/
structure NodeClause where
  node : List Char
  property : List Char
  parameter : List Char
  deriving Repr, DecidableEq

namespace NodeClause

def run? (excluded : List Char) (cs : List Char) : Option (List Char × List Char) :=
  let word := cs.takeWhile fun c => !excluded.contains c
  if word.isEmpty then none else some (word, cs.dropWhile fun c => !excluded.contains c)

def read? (label cs : List Char) : Option (NodeClause × List Char) := do
  let cs ← Text.afterLiteral? "MATCH (".toList cs
  let (node, cs) ← run? [' ', ':', ')'] cs
  let cs ← Text.afterLiteral? (':' :: label ++ " \x7b ".toList) cs
  let (property, cs) ← run? [' ', ':', ')', '\x7d'] cs
  let cs ← Text.afterLiteral? ": $".toList cs
  let (parameter, cs) ← run? [' ', '\x7d', ')'] cs
  let cs ← Text.afterLiteral? " \x7d)".toList cs
  return (⟨node, property, parameter⟩, cs)

def render (n : NodeClause) (label : List Char) : List Char :=
  "MATCH (".toList ++ n.node ++ ':' :: label ++ " \x7b ".toList ++ n.property ++ ": $".toList
    ++ n.parameter ++ " \x7d)".toList

def renderBatch (n : NodeClause) (label : List Char) (batch : String) : List Char :=
  "MATCH (".toList ++ n.node ++ ':' :: label ++ ") WHERE ".toList ++ n.node
    ++ ".id IN $".toList ++ batch.toList

end NodeClause

end TemporalGraph.Plan
