import TemporalGraph.Plan.Fragment
import TemporalGraph.Plan.Scope
import TemporalGraph.Statement
/-!
Writing a version. Around the construction of the node, the statement merges the resource, deletes
an instance written at the same instant, binds the version that is valid then and the next later
start, links the new instance with its window, and closes the version that was valid.
-/

namespace TemporalGraph.Plan.Create

def carried : List Char := ", _r, _prev, _next_from".toList

def terminal (key : String) : String := s!"WITH {key} RETURN"

/-- The lines before the construction: up to an instance of the same instant, then up to the
version that is valid, then up to the next start. -/
def prelude (c : Config) (typeName : String) : String :=
  let resource := c.labels.resourceLabels typeName
  let edge := c.labels.versionEdge
  let embedded := c.labels.embedded
  let version := c.versionParam
  s!"MERGE (_r:{resource} \x7bid: $id\x7d) WITH _r\n"
    ++ s!"OPTIONAL MATCH (_r)<-[:{edge} \x7bfrom: ${version}\x7d]-(_stale)\n"
    ++ s!"OPTIONAL MATCH (_stale)-[*]->(_embedded:{embedded})\n"
    ++ "DETACH DELETE _stale, _embedded WITH DISTINCT _r\n"
    ++ s!"OPTIONAL MATCH (_r)<-[_v:{edge}]-() WHERE _v.from <= ${version} "
    ++ s!"AND coalesce(${version} < _v.to, true) WITH _r, _v AS _prev\n"
    ++ s!"OPTIONAL MATCH (_r)<-[_v:{edge}]-() WHERE _v.from > ${version} "
    ++ "WITH _r, _prev, min(_v.from) AS _next_from\n"

def epilogue (c : Config) (key : String) : String :=
  let inst := c.labels.instanceLabel
  let edge := c.labels.versionEdge
  let version := c.versionParam
  "\n"
    ++ s!"SET {key}:{inst}\n"
    ++ s!"CREATE (_r)<-[:{edge} \x7bfrom: ${version}, "
    ++ s!"to: coalesce(_prev.to, _next_from)\x7d]-({key})\n"
    ++ s!"SET _prev.to = ${version}\n"

/-- The write of a version of `typeName`. The construction ends at the last terminal, and everything
from there on stays as it is. -/
def apply (typeName : String) (call : Call) (s : Statement) (c : Config) : Outcome Statement := do
  let key := call.resultKey
  match Text.splitLast? (terminal key).toList s.query.toList with
  | none =>
    unmatched c call.field (terminal key)
    return s
  | some (construction, rest) =>
    match Scope.carry? carried key.toList (Text.trimEnd construction) with
    | none => Outcome.fault .scopeOutOfOrder
    | some widened =>
      let query := (prelude c typeName).toList ++ widened ++ (epilogue c key).toList
        ++ (terminal key).toList ++ rest
      return { s with query := String.ofList query }

theorem apply_of_carry? {typeName : String} {call : Call} {s : Statement} {c : Config}
    {construction rest widened : List Char}
    (hs : Text.splitLast? (terminal call.resultKey).toList s.query.toList =
      some (construction, rest))
    (hw : Scope.carry? carried call.resultKey.toList (Text.trimEnd construction) = some widened) :
    apply typeName call s c = pure { s with
      query := String.ofList ((prelude c typeName).toList ++ widened ++
        (epilogue c call.resultKey).toList ++ (terminal call.resultKey).toList ++ rest) } := by
  simp only [apply, hs, hw]

theorem apply_of_carry?_eq_none {typeName : String} {call : Call} {s : Statement} {c : Config}
    {construction rest : List Char}
    (hs : Text.splitLast? (terminal call.resultKey).toList s.query.toList =
      some (construction, rest))
    (hw : Scope.carry? carried call.resultKey.toList (Text.trimEnd construction) = none) :
    apply typeName call s c = Outcome.fault .scopeOutOfOrder := by
  simp only [apply, hs, hw]

end TemporalGraph.Plan.Create
