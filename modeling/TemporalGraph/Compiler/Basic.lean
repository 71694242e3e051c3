import TemporalGraph.Error
import TemporalGraph.Schema.Registry
import TemporalGraph.Statement
import TemporalGraph.Text.Escape
/-!
The compiler of a schema is a collaborator: from a registry it makes the fields of the query and the
mutation root, each with what kind of handler it has and a way to resolve calls into statements.
-/

namespace TemporalGraph

inductive ResolverKind where
  | query
  | create
  | addRelation (target : String)
  | other
  deriving Repr, DecidableEq

def ResolverKind.display : ResolverKind → String
  | query => "Query"
  | create => "Create"
  | addRelation target => "AddRelation \x7b target_type: " ++ Text.literal target ++ " \x7d"
  | other => "Other"

structure CompiledField where
  name : String
  type : Schema.TypeRef
  kind : ResolverKind
  resolve : Call → Except Error Statement

structure CompiledSchema where
  queries : List CompiledField
  mutations : List CompiledField

abbrev Compiler := Schema.Registry → Except Error CompiledSchema

end TemporalGraph
