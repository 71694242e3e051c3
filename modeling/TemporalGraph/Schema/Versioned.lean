import TemporalGraph.Config
import TemporalGraph.Outcome
import TemporalGraph.Schema.Registry
/-!
Registries made ready for versions. A link field becomes a computed field whose statement walks to
the resource of its target and back to the instance that is valid at the version argument. Every
other field that points to an object or interface names its relation after itself, so that writes
and link statements use the same relationship type.
-/

namespace TemporalGraph.Schema

def linkStatement (c : Config) (relation target : String) : String :=
  let resource := c.labels.resourceLabels target
  let edge := c.labels.versionEdge
  let inst := c.labels.instanceLabels target
  let ver := c.versionArgument
  s!"MATCH (this)-[:{relation}]->(:{resource})<-[v:{edge}]-(n:{inst}) "
    ++ s!"WHERE v.from <= ${ver} AND coalesce(${ver} < v.to, true) RETURN n"

namespace Directive

/-- A directive in the place of the first of its name, without the later ones; last if none has its
name. -/
def replaceIn (d : Directive) : List Directive → List Directive
  | [] => [d]
  | e :: es =>
    if e.name = d.name then d :: es.filter fun f => f.name != d.name
    else e :: d.replaceIn es

def relation (c : Config) (f : FieldDefinition) : Directive :=
  (⟨c.directives.relation, .empty⟩ : Directive).withArgument "name" (.string f.name)

def statement (c : Config) (text : String) : Directive :=
  (⟨c.directives.cypher, .empty⟩ : Directive).withArgument "statement" (.string text)

end Directive

namespace FieldDefinition

def withRelation (f : FieldDefinition) (c : Config) : FieldDefinition :=
  { f with directives := (Directive.relation c f).replaceIn f.directives }

/-- Whether the field has relations and all of them are named after it. -/
def isRelated (f : FieldDefinition) (c : Config) : Bool :=
  let relations := f.directives.filter fun d => d.name == c.directives.relation
  !relations.isEmpty && relations.all fun d => d.stringArgument? "name" == some f.name

def linkTarget? (f : FieldDefinition) : Option String :=
  if f.type.isList then f.type.listElement?.bind TypeRef.simpleName? else some f.type.baseName

/-- The computed field of a link: every link directive becomes the statement, and the version
argument is the last one. -/
def linked (f : FieldDefinition) (c : Config) (target : String) : FieldDefinition :=
  let text := linkStatement c f.name target
  let computed := f.directives.map fun d =>
    if d.name = c.directives.link then Directive.statement c text else d
  let arguments := f.arguments.filter fun a => a.name != c.versionArgument
  { f with
    directives := (Directive.relation c f).replaceIn computed
    arguments := arguments ++ [⟨c.versionArgument, .named c.versionArgumentType, []⟩] }

def versioned? (f : FieldDefinition) (c : Config) (r : Registry) (owner : String) :
    Outcome (Option FieldDefinition) := do
  if f.hasDirective c.directives.link then
    match f.linkTarget? with
    | some target =>
      Outcome.report
        ⟨.debug, s!"{owner}.{f.name}: resolving link to {target} through version edges", []⟩
      return some (f.linked c target)
    | none =>
      Outcome.fail <| .schema owner f.name
        s!"list element of link field type {f.type.render} is not a named type" .nestedListTarget
  else
    match r.resolve f.type with
    | .builtin => return none
    | .undeclared =>
      let target := f.type.baseName
      Outcome.report ⟨.debug,
        s!"{owner}.{f.name}: type '{target}' is not declared, treating it as a scalar", []⟩
      return none
    | .declared target =>
      match target.kind with
      | .object | .interface => return if f.isRelated c then none else some (f.withRelation c)
      | .scalar | .enum | .union | .inputObject => return none
      | .unknown =>
        Outcome.fail <| .consistency
          s!"{owner}.{f.name} targets '{target.name}' whose definition kind is not recognized"
          .unknownTypeKind

end FieldDefinition

namespace TypeDefinition

def nameFault? (t : TypeDefinition) : Option Error :=
  if isValidName t.name then
    (t.fields.find? fun f => !isValidName f.name).map fun f => .invalidName t.name f.name
  else some (.invalidName t.name "")

def versioned? (t : TypeDefinition) (c : Config) (r : Registry) :
    Outcome (Option TypeDefinition) := do
  match t.nameFault? with
  | some e => Outcome.fail e
  | none =>
    let fields ← t.fields.mapM fun f => do return (f, ← f.versioned? c r t.name)
    return if fields.any fun p => p.2.isSome then
      some { t with fields := fields.map fun p => p.2.getD p.1 }
    else none

end TypeDefinition

namespace Registry

/-- The registry made ready for versions. Definitions that do not change are shared with it. -/
def versioned (r : Registry) (c : Config) : Outcome Registry := do
  let changed ← r.objectTypes.mapM fun t => t.versioned? c r
  return r.addAll (changed.filterMap id)

/-- The registry without a directive on its object types, and the names of those that carried it.
The other definitions are shared. -/
def withoutDirective (r : Registry) (directive : String) : Registry × List String :=
  let marked := r.objectTypes.filter fun t => t.hasDirective directive
  let bare (t : TypeDefinition) : TypeDefinition :=
    { t with directives := t.directives.filter fun d => d.name != directive }
  (r.addAll (marked.map bare), marked.map TypeDefinition.name)

end Registry

end TemporalGraph.Schema
