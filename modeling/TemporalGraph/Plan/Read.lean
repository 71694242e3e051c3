import TemporalGraph.Plan.Fragment
import TemporalGraph.Regex.Basic
import TemporalGraph.Statement
/-!
Reading a version. The match of the root node goes through its resource and the version edge, and
the filter asks first that the window of the edge holds the version.

The fragments are reported as patterns but looked for as literals. Left out: with a result key so
long that its pattern passes the size limit of `Regex.Expr.ofText`, a read fails.
-/

namespace TemporalGraph.Plan.Read

def anchor (key typeName : String) : List Char := s!"MATCH ({key}:{typeName}) WHERE".toList

def filterPattern (key typeName : String) : String :=
  s!"MATCH \\({Regex.quote key}:{Regex.quote typeName}\\) WHERE( )"

def matchPattern (key typeName : String) : String :=
  s!"MATCH (\\({Regex.quote key}:{Regex.quote typeName}\\)) WHERE"

def windowFilter (c : Config) : String :=
  let version := c.versionParam
  s!" (_v.from <= ${version} AND coalesce(${version} < _v.to, true)) AND "

def traversal (c : Config) (key typeName : String) : String :=
  let resource := c.labels.resourceLabels typeName
  let edge := c.labels.versionEdge
  let inst := c.labels.instanceLabels typeName
  s!"MATCH (_r:{resource})<-[_v:{edge}]-({key}:{inst}) WHERE"

/-- The read of `typeName` at the version: the first root match with a filter gets the window
filter, and the first root match becomes the traversal. -/
def apply (typeName : String) (call : Call) (s : Statement) (c : Config) : Outcome Statement := do
  let key := call.resultKey
  let root := anchor key typeName
  match Text.splitFirst? (root ++ [' ']) s.query.toList with
  | none =>
    unmatched c call.field (filterPattern key typeName)
    return s
  | some (before, after) =>
    match Text.splitFirst? root (before ++ root ++ (windowFilter c).toList ++ after) with
    | none =>
      unmatched c call.field (matchPattern key typeName)
      return s
    | some (before, after) =>
      let query := before ++ (traversal c key typeName).toList ++ after
      return { s with query := String.ofList query }

end TemporalGraph.Plan.Read
