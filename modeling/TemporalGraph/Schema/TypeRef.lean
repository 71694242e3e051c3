/-!
Names of schema types, and references to types with their list and non-null wrappers.
-/

namespace TemporalGraph.Schema

def builtinScalars : List String := ["ID", "String", "Int", "Float", "Boolean"]

def isNameStart (c : Char) : Bool := c.isAlpha || c = '_'

def isNameChar (c : Char) : Bool := c.isAlphanum || c = '_'

/-- A name starts with an ASCII letter or underscore and goes on with those and digits. Such a name
can stand unquoted as a label, a relationship type or a variable. -/
def isValidName (name : String) : Bool :=
  match name.toList with
  | [] => false
  | c :: cs => isNameStart c && cs.all isNameChar

inductive TypeRef where
  | named (name : String)
  | list (element : TypeRef)
  | nonNull (inner : TypeRef)
  deriving Repr, DecidableEq

namespace TypeRef

def baseName : TypeRef → String
  | named name => name
  | list t | nonNull t => t.baseName

def render : TypeRef → String
  | named name => name
  | list t => s!"[{t.render}]"
  | nonNull t => t.render ++ "!"

def stripNonNull : TypeRef → TypeRef
  | nonNull t => t
  | t => t

def isList (t : TypeRef) : Bool :=
  match t.stripNonNull with
  | list _ => true
  | _ => false

/-- The element of a list, less one non-null wrapper. -/
def listElement? (t : TypeRef) : Option TypeRef :=
  match t.stripNonNull with
  | list element => some element.stripNonNull
  | _ => none

def simpleName? (t : TypeRef) : Option String :=
  match t.stripNonNull with
  | named name => some name
  | _ => none

def depth : TypeRef → Nat
  | named _ => 0
  | list t | nonNull t => t.depth + 1

end TypeRef

end TemporalGraph.Schema
