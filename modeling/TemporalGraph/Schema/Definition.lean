import TemporalGraph.Dictionary
import TemporalGraph.Schema.TypeRef
/-! Type definitions with their fields, arguments and directives. -/

namespace TemporalGraph.Schema

inductive DirectiveValue where
  | bool (b : Bool)
  | int (i : Int)
  | string (s : String)
  deriving Repr, DecidableEq

structure Directive where
  name : String
  arguments : Dictionary DirectiveValue := .empty
  deriving DecidableEq

namespace Directive

def withArgument (d : Directive) (name : String) (value : DirectiveValue) : Directive :=
  { d with arguments := d.arguments.insert name value }

def stringArgument? (d : Directive) (name : String) : Option String :=
  match d.arguments.get? name with
  | some (.string s) => some s
  | _ => none

end Directive

structure InputValue where
  name : String
  type : TypeRef
  directives : List Directive := []
  deriving DecidableEq

structure FieldDefinition where
  name : String
  type : TypeRef
  arguments : List InputValue := []
  directives : List Directive := []
  deriving DecidableEq

namespace FieldDefinition

def directive? (f : FieldDefinition) (name : String) : Option Directive :=
  f.directives.find? fun d => d.name == name

def hasDirective (f : FieldDefinition) (name : String) : Bool := (f.directive? name).isSome

def argument? (f : FieldDefinition) (name : String) : Option InputValue :=
  f.arguments.find? fun a => a.name == name

end FieldDefinition

inductive TypeKind where
  | object
  | interface
  | union
  | enum
  | scalar
  | inputObject
  /-- A kind that the engine does not know how to treat. -/
  | unknown
  deriving Repr, DecidableEq

namespace TypeKind

def all : List TypeKind := [.object, .interface, .union, .enum, .scalar, .inputObject, .unknown]

def text : TypeKind → String
  | object => "object"
  | interface => "interface"
  | union => "union"
  | enum => "enum"
  | scalar => "scalar"
  | inputObject => "input_object"
  | unknown => "unknown"

def ofText? (s : String) : Option TypeKind := all.find? fun k => k.text == s

theorem ofText?_text (k : TypeKind) : ofText? k.text = some k := by
  cases k <;> decide

end TypeKind

structure TypeDefinition where
  name : String
  kind : TypeKind
  fields : List FieldDefinition := []
  directives : List Directive := []
  deriving DecidableEq

namespace TypeDefinition

def object (name : String) : TypeDefinition := ⟨name, .object, [], []⟩

def withField (t : TypeDefinition) (f : FieldDefinition) : TypeDefinition :=
  { t with fields := t.fields ++ [f] }

def withDirective (t : TypeDefinition) (d : Directive) : TypeDefinition :=
  { t with directives := t.directives ++ [d] }

def field? (t : TypeDefinition) (name : String) : Option FieldDefinition :=
  t.fields.find? fun f => f.name == name

def hasDirective (t : TypeDefinition) (name : String) : Bool :=
  t.directives.any fun d => d.name == name

end TypeDefinition

end TemporalGraph.Schema
