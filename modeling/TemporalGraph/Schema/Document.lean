import TemporalGraph.Document.Basic
import TemporalGraph.Schema.Registry
/-!
The document form of type references, definitions and registries: how they are read from a document
and which JSON value they are written as. Empty lists and argument tables are left out.
-/

namespace TemporalGraph.Schema

open Document (Slot)

def TypeRef.ofDocument? : Document → Option TypeRef
  | .table [(name, content)] =>
    match name with
    | "named" => content.string?.map .named
    | "list" => (ofDocument? content).map .list
    | "non_null" => (ofDocument? content).map .nonNull
    | _ => none
  | _ => none

def TypeRef.toJson : TypeRef → Json.Value
  | .named name => .object [("named", .string name)]
  | .list t => .object [("list", t.toJson)]
  | .nonNull t => .object [("non_null", t.toJson)]

def DirectiveValue.ofDocument? (d : Document) : Option DirectiveValue :=
  match d with
  | .scalar _ (.bool b) => some (.bool b)
  | .scalar _ (.number _) => d.int64?.map .int
  | .scalar _ (.text s) => some (.string s)
  | _ => none

def DirectiveValue.toJson : DirectiveValue → Json.Value
  | .bool b => .bool b
  | .int i => .number (.int i)
  | .string s => .string s

def listMember {α : Type} (key : String) (toJson : α → Json.Value) (items : List α) :
    List (String × Json.Value) :=
  if items.isEmpty then [] else [(key, .array (items.map toJson))]

def Directive.ofDocument? (d : Document) : Option Directive :=
  match d.slots? ["name", "arguments"] with
  | some [name, arguments] => do
    let name ← name.required? Document.string?
    let arguments ← arguments.default? [] (Document.table? DirectiveValue.ofDocument?)
    return ⟨name, .ofList arguments⟩
  | _ => none

def Directive.toJson (d : Directive) : Json.Value :=
  .object <| ("name", .string d.name) ::
    if d.arguments.isEmpty then []
    else [("arguments", .object (d.arguments.entries.map fun e => (e.1, e.2.toJson)))]

def InputValue.ofDocument? (d : Document) : Option InputValue :=
  match d.slots? ["name", "type", "directives"] with
  | some [name, type, directives] => do
    let name ← name.required? Document.string?
    let type ← type.required? TypeRef.ofDocument?
    let directives ← directives.default? [] (Document.list? Directive.ofDocument?)
    return ⟨name, type, directives⟩
  | _ => none

def InputValue.toJson (a : InputValue) : Json.Value :=
  .object <| [("name", .string a.name), ("type", a.type.toJson)]
    ++ listMember "directives" Directive.toJson a.directives

def FieldDefinition.ofDocument? (d : Document) : Option FieldDefinition :=
  match d.slots? ["name", "type", "arguments", "directives"] with
  | some [name, type, arguments, directives] => do
    let name ← name.required? Document.string?
    let type ← type.required? TypeRef.ofDocument?
    let arguments ← arguments.default? [] (Document.list? InputValue.ofDocument?)
    let directives ← directives.default? [] (Document.list? Directive.ofDocument?)
    return ⟨name, type, arguments, directives⟩
  | _ => none

def FieldDefinition.toJson (f : FieldDefinition) : Json.Value :=
  .object <| [("name", .string f.name), ("type", f.type.toJson)]
    ++ listMember "arguments" InputValue.toJson f.arguments
    ++ listMember "directives" Directive.toJson f.directives

/-- A name that is no kind stands for the unknown kind. -/
def TypeKind.ofDocument? (d : Document) : Option TypeKind :=
  d.name?.map fun name => (TypeKind.ofText? name).getD .unknown

def TypeDefinition.ofDocument? (d : Document) : Option TypeDefinition :=
  match d.slots? ["name", "kind", "fields", "directives"] with
  | some [name, kind, fields, directives] => do
    let name ← name.required? Document.string?
    let kind ← kind.required? TypeKind.ofDocument?
    let fields ← fields.default? [] (Document.list? FieldDefinition.ofDocument?)
    let directives ← directives.default? [] (Document.list? Directive.ofDocument?)
    return ⟨name, kind, fields, directives⟩
  | _ => none

def TypeDefinition.toJson (t : TypeDefinition) : Json.Value :=
  .object <| [("name", .string t.name), ("kind", .string t.kind.text)]
    ++ listMember "fields" FieldDefinition.toJson t.fields
    ++ listMember "directives" Directive.toJson t.directives

/-- Of two definitions of one name the later stays. -/
def Registry.ofDocument? (d : Document) : Option Registry :=
  match d.slots? ["types"] with
  | some [types] => do
    let types ← types.default? [] (Document.list? TypeDefinition.ofDocument?)
    return .ofList types
  | _ => none

def Registry.toJson (r : Registry) : Json.Value :=
  .object [("types", .array (r.types.map TypeDefinition.toJson))]

end TemporalGraph.Schema
