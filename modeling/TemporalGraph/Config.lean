import TemporalGraph.Document.Basic
/-!
The configuration of the engine: the labels of the versioned storage layout, the names of the schema
directives, the parameter that carries the version, and the graph store.
-/

namespace TemporalGraph

structure Labels where
  /-- Behind a type name it forms the label of the resources of that type. -/
  resourceSuffix : String := "_R"
  resource : String := "RESOURCE"
  instanceLabel : String := "INSTANCE"
  versionEdge : String := "VERSION_OF"
  embedded : String := "EMBEDDED"
  deriving Repr, DecidableEq

structure DirectiveNames where
  link : String := "link"
  cypher : String := "cypher"
  relation : String := "relation"
  domain : String := "domain"
  deriving Repr, DecidableEq

/-- What to do with a statement that lacks the fragment that a plan looks for: leave it and warn, or
fail. -/
inductive MatchPolicy where
  | lenient
  | strict
  deriving Repr, DecidableEq

inductive StoreProvider where
  | neo4j
  | memgraph
  | recording
  deriving Repr, DecidableEq

structure StoreConfig where
  provider : StoreProvider := .neo4j
  url : String := "bolt://localhost:7687"
  username : Option String := none
  password : Option String := none
  database : Option String := none
  deriving Repr, DecidableEq

structure Config where
  labels : Labels := {}
  directives : DirectiveNames := {}
  /-- The argument added to link fields. -/
  versionArgument : String := "ver"
  versionArgumentType : String := "String"
  /-- The statement parameter that carries the version. -/
  versionParam : String := "_version"
  matchPolicy : MatchPolicy := .lenient
  domainQueriesOnly : Bool := false
  /-- Seconds from the write instant of a run to its read instant. -/
  readOffset : Int := 1
  serializeWrites : Bool := true
  store : Option StoreConfig := none
  deriving Repr, DecidableEq

namespace Labels

def resourceLabels (l : Labels) (typeName : String) : String :=
  s!"{typeName}{l.resourceSuffix}:{l.resource}"

def instanceLabels (l : Labels) (typeName : String) : String := s!"{typeName}:{l.instanceLabel}"

def ofDocument? (d : Document) : Option Labels :=
  let standard : Labels := {}
  match d.slots? ["resource_suffix", "resource", "instance", "version_edge", "embedded"] with
  | some [suffix, resource, inst, edge, embedded] => do
    let suffix ← suffix.default? standard.resourceSuffix Document.string?
    let resource ← resource.default? standard.resource Document.string?
    let inst ← inst.default? standard.instanceLabel Document.string?
    let edge ← edge.default? standard.versionEdge Document.string?
    let embedded ← embedded.default? standard.embedded Document.string?
    return ⟨suffix, resource, inst, edge, embedded⟩
  | _ => none

def toJson (l : Labels) : Json.Value :=
  .object [("resource_suffix", .string l.resourceSuffix), ("resource", .string l.resource),
    ("instance", .string l.instanceLabel), ("version_edge", .string l.versionEdge),
    ("embedded", .string l.embedded)]

end Labels

namespace DirectiveNames

def ofDocument? (d : Document) : Option DirectiveNames :=
  let standard : DirectiveNames := {}
  match d.slots? ["link", "cypher", "relation", "domain"] with
  | some [link, cypher, relation, domain] => do
    let link ← link.default? standard.link Document.string?
    let cypher ← cypher.default? standard.cypher Document.string?
    let relation ← relation.default? standard.relation Document.string?
    let domain ← domain.default? standard.domain Document.string?
    return ⟨link, cypher, relation, domain⟩
  | _ => none

def toJson (n : DirectiveNames) : Json.Value :=
  .object [("link", .string n.link), ("cypher", .string n.cypher),
    ("relation", .string n.relation), ("domain", .string n.domain)]

end DirectiveNames

namespace MatchPolicy

def text : MatchPolicy → String
  | lenient => "lenient"
  | strict => "strict"

def ofText? (s : String) : Option MatchPolicy := [lenient, strict].find? fun p => p.text == s

end MatchPolicy

namespace StoreProvider

def all : List StoreProvider := [neo4j, memgraph, recording]

def text : StoreProvider → String
  | neo4j => "neo4j"
  | memgraph => "memgraph"
  | recording => "recording"

def ofText? (s : String) : Option StoreProvider := all.find? fun p => p.text == s

def title : StoreProvider → String
  | neo4j => "Neo4j"
  | memgraph => "Memgraph"
  | recording => "Recording"

end StoreProvider

namespace StoreConfig

def ofDocument? (d : Document) : Option StoreConfig :=
  match d.slots? ["provider", "url", "username", "password", "database"] with
  | some [provider, url, username, password, database] => do
    let provider ← provider.required? fun d => d.name?.bind StoreProvider.ofText?
    let url ← url.required? Document.string?
    let username ← username.optional? Document.string?
    let password ← password.optional? Document.string?
    let database ← database.optional? Document.string?
    return ⟨provider, url, username, password, database⟩
  | _ => none

def toJson (s : StoreConfig) : Json.Value :=
  let member (key : String) (value : Option String) : List (String × Json.Value) :=
    value.toList.map fun v => (key, .string v)
  .object <| [("provider", .string s.provider.text), ("url", .string s.url)]
    ++ member "username" s.username ++ member "password" s.password ++ member "database" s.database

end StoreConfig

namespace Config

/-- A field that the document leaves out has its standard value. -/
def ofDocument? (d : Document) : Option Config :=
  let standard : Config := {}
  match d.slots? ["labels", "directives", "version_argument", "version_argument_type",
    "version_param", "match_policy", "domain_queries_only", "read_offset_secs",
    "serialize_writes", "graph_store"] with
  | some [labels, directives, argument, argumentType, param, policy, domain, offset, serialize,
      store] => do
    let labels ← labels.default? standard.labels Labels.ofDocument?
    let directives ← directives.default? standard.directives DirectiveNames.ofDocument?
    let argument ← argument.default? standard.versionArgument Document.string?
    let argumentType ← argumentType.default? standard.versionArgumentType Document.string?
    let param ← param.default? standard.versionParam Document.string?
    let policy ← policy.default? standard.matchPolicy fun d => d.name?.bind MatchPolicy.ofText?
    let domain ← domain.default? standard.domainQueriesOnly Document.bool?
    let offset ← offset.default? standard.readOffset Document.int64?
    let serialize ← serialize.default? standard.serializeWrites Document.bool?
    let store ← store.default? none (Document.nullable? StoreConfig.ofDocument?)
    return ⟨labels, directives, argument, argumentType, param, policy, domain, offset, serialize,
      store⟩
  | _ => none

def toJson (c : Config) : Json.Value :=
  .object <| [("labels", c.labels.toJson), ("directives", c.directives.toJson),
    ("version_argument", .string c.versionArgument),
    ("version_argument_type", .string c.versionArgumentType),
    ("version_param", .string c.versionParam), ("match_policy", .string c.matchPolicy.text),
    ("domain_queries_only", .bool c.domainQueriesOnly),
    ("read_offset_secs", .number (.int c.readOffset)),
    ("serialize_writes", .bool c.serializeWrites)]
    ++ c.store.toList.map fun s => ("graph_store", s.toJson)

end Config

end TemporalGraph
