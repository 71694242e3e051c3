import TemporalGraph.Compiler.Basic
import TemporalGraph.Plan
import TemporalGraph.Schema.Versioned
/-!
Schemas whose fields resolve to statements that respect versions. The plan of a field is decided
once: queries read, `create` mutations write, `add` mutations attach, other mutations are refused.

Left out: a plan to read or to attach looks for patterns that are made of names, and a name can be
so long that its pattern passes the size limit of `Regex.Expr.ofText`. Here such a name has its plan
like any other.
-/

namespace TemporalGraph

structure Dispatch where
  field : CompiledField
  plan : Plan

/-- The fields that have plans so far, under their names, and which of them one loop has entered. -/
structure Entries where
  table : Dictionary Dispatch := .empty
  names : Dictionary Unit := .empty

def Entries.enter (es : Entries) (f : CompiledField) (p : Plan) : Entries :=
  ⟨es.table.insert f.name ⟨f, p⟩, es.names.insert f.name ()⟩

structure VersionedSchema where
  registry : Schema.Registry
  config : Config
  table : Dictionary Dispatch
  queryNames : Dictionary Unit
  mutationNames : Dictionary Unit

namespace VersionedSchema

open Schema (Registry)

def entityType (r : Registry) (f : CompiledField) : Except Error String :=
  let name := f.type.baseName
  match r.get? name with
  | some t =>
    if t.kind = .object then .ok name else .error (unsupportedReturn f)
  | none => .error (unsupportedReturn f)
where
  unsupportedReturn (f : CompiledField) : Error :=
    .consistency s!"'{f.name}' returns {f.type.render}, which is not an object type"
      .unsupportedReturnType

def resolverMismatch (f : CompiledField) (expected : String) : Error :=
  let kind := f.kind.display
  .consistency s!"resolver of '{f.name}' is {kind}, expected a {expected} handler" .resolverMismatch

def hasStart (start name : String) : Bool := (Text.afterLiteral? start.toList name.toList).isSome

def mutationPlan (r : Registry) (f : CompiledField) : Outcome Plan := do
  if hasStart "create" f.name then
    match f.kind with
    | .create => return .create (← Outcome.ofExcept (entityType r f))
    | _ => Outcome.fail (resolverMismatch f "create")
  else if hasStart "add" f.name then
    match f.kind with
    | .addRelation target => return .attach target
    | _ => Outcome.fail (resolverMismatch f "relation-creation")
  else
    Outcome.report ⟨.debug, s!"Mutation '{f.name}' has no versioning rewrite", []⟩
    return .unsupported

/-- Enter a query, unless only domain types have queries and its type is none. A later query takes
the place of an earlier one of its name. -/
def addQuery (r : Registry) (c : Config) (domain : List String) (es : Entries)
    (f : CompiledField) : Outcome Entries := do
  let typeName ← Outcome.ofExcept (entityType r f)
  if c.domainQueriesOnly && !domain.contains typeName then
    Outcome.report ⟨.debug, s!"Dropping query '{f.name}': {typeName} is not a domain type", []⟩
    return es
  else return es.enter f (.read typeName)

def addMutation (r : Registry) (es : Entries) (f : CompiledField) : Outcome Entries := do
  if es.table.contains f.name then
    Outcome.report ⟨.warn, s!"Mutation '{f.name}' shadowed by a query of the same name", []⟩
    return es
  else return es.enter f (← mutationPlan r f)

/-- Compile a registry that is ready for versions. The compiler does not see the domain
directive. -/
def build (r : Registry) (compile : Compiler) (c : Config) : Outcome VersionedSchema := do
  let (bare, domain) := r.withoutDirective c.directives.domain
  let compiled ← Outcome.ofExcept (compile bare)
  let queries ← compiled.queries.foldlM (addQuery bare c domain) {}
  let mutations ← compiled.mutations.foldlM (addMutation bare) { table := queries.table }
  Outcome.report ⟨.info, s!"Built versioned schema: {queries.names.size} queries, "
    ++ s!"{mutations.names.size} mutations", []⟩
  return ⟨bare, c, mutations.table, queries.names, mutations.names⟩

def ofRegistry (r : Registry) (compile : Compiler) (c : Config) : Outcome VersionedSchema := do
  build (← r.versioned c) compile c

def plan? (s : VersionedSchema) (field : String) : Option Plan :=
  (s.table.get? field).map Dispatch.plan

def queryFields (s : VersionedSchema) : List String := s.queryNames.keys

def mutationFields (s : VersionedSchema) : List String := s.mutationNames.keys

def isQuery (s : VersionedSchema) (field : String) : Bool := s.queryNames.contains field

def isMutation (s : VersionedSchema) (field : String) : Bool := s.mutationNames.contains field

def resolve (s : VersionedSchema) (call : Call) : Outcome Statement := do
  match s.table.get? call.field with
  | none =>
    Outcome.fail (.unsupported call.field "not a query or mutation of this schema")
  | some d =>
    let versioned ← d.plan.apply call d.field.resolve s.config
    Outcome.report ⟨.debug, s!"Rewrote operation: {versioned.query}",
      [("field", call.field), ("plan", d.plan.name)]⟩
    return versioned

end VersionedSchema

end TemporalGraph
