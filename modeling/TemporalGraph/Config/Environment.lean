import TemporalGraph.Config
import TemporalGraph.Decimal.Digits
/-!
The configuration that environment variables describe. A variable that is not set, or whose value
cannot be read, leaves the standard value.
-/

namespace TemporalGraph

abbrev Environment := List (String × String)

namespace Environment

def get? (env : Environment) (name : String) : Option String :=
  (env.find? fun e => e.1 == name).map Prod.snd

end Environment

namespace Config

def readInt64? (text : String) : Option Int :=
  let (negative, ds) := match text.toList with
    | '-' :: ds => (true, ds)
    | '+' :: ds => (false, ds)
    | ds => (false, ds)
  if ds.isEmpty || !ds.all Char.isDigit then none
  else
    let n : Int := if negative then -(Decimal.value ds : Int) else Decimal.value ds
    if Decimal.isInt64 n then some n else none

def lowerCase (s : String) : String := String.ofList (s.toList.map Char.toLower)

/-- The store, if its address is set. A provider that is not known stands for the standard one. -/
def storeOfEnvironment? (env : Environment) : Option StoreConfig :=
  (env.get? "TBV_GRAPH_URL").map fun url =>
    let provider := (env.get? "TBV_GRAPH_PROVIDER").bind fun p =>
      StoreProvider.ofText? (lowerCase p)
    { provider := provider.getD .neo4j
      url := url
      username := env.get? "TBV_GRAPH_USERNAME"
      password := env.get? "TBV_GRAPH_PASSWORD"
      database := env.get? "TBV_GRAPH_DATABASE" }

def ofEnvironment (env : Environment) : Config :=
  let standard : Config := {}
  let policy := (env.get? "TBV_MATCH_POLICY").bind fun p => MatchPolicy.ofText? (lowerCase p)
  let offset := (env.get? "TBV_READ_OFFSET_SECS").bind readInt64?
  let domain := (env.get? "TBV_DOMAIN_QUERIES_ONLY").map fun v => ["1", "true", "yes"].contains v
  let serialize := (env.get? "TBV_SERIALIZE_WRITES").map fun v => !(["0", "false", "no"].contains v)
  { standard with
    matchPolicy := policy.getD standard.matchPolicy
    readOffset := offset.getD standard.readOffset
    domainQueriesOnly := domain.getD standard.domainQueriesOnly
    serializeWrites := serialize.getD standard.serializeWrites
    store := storeOfEnvironment? env }

end Config

end TemporalGraph
