import TemporalGraph.Document.Basic
import TemporalGraph.Json.Printer
/-!
Statements of the graph store with their parameters, and the calls of schema fields from which they
are made.
-/

namespace TemporalGraph

abbrev Params := Json.Record

abbrev Row := Json.Record

structure Statement where
  query : String
  params : Params := .empty

namespace Statement

def setParam (s : Statement) (key : String) (value : Json.Value) : Statement :=
  { s with params := s.params.set key value }

def setParamIfAbsent (s : Statement) (key : String) (value : Json.Value) : Statement :=
  { s with params := s.params.setIfAbsent key value }

def display (s : Statement) : String :=
  if s.params.isEmpty then s.query else s.query ++ " " ++ s.params.toValue.toText

def ofDocument? (d : Document) : Option Statement :=
  match d.slots? ["query", "params"] with
  | some [query, params] => do
    let query ← query.required? Document.string?
    let params ← params.default? .empty Document.record?
    return ⟨query, params⟩
  | _ => none

def toJson (s : Statement) : Json.Value :=
  .object [("query", .string s.query), ("params", s.params.toValue)]

end Statement

structure Call where
  field : String
  givenName : Option String := none
  params : Params := .empty

namespace Call

/-- The variable that holds the result: the given name, or else the field. -/
def resultKey (c : Call) : String := c.givenName.getD c.field

def setParam (c : Call) (key : String) (value : Json.Value) : Call :=
  { c with params := c.params.set key value }

def setParamIfAbsent (c : Call) (key : String) (value : Json.Value) : Call :=
  { c with params := c.params.setIfAbsent key value }

def ofDocument? (d : Document) : Option Call :=
  match d.slots? ["field", "alias", "params"] with
  | some [field, givenName, params] => do
    let field ← field.required? Document.string?
    let givenName ← givenName.default? none (Document.nullable? Document.string?)
    let params ← params.default? .empty Document.record?
    return ⟨field, givenName, params⟩
  | _ => none

def toJson (c : Call) : Json.Value :=
  .object <| ("field", .string c.field) ::
    (c.givenName.toList.map fun a => ("alias", .string a)) ++ [("params", c.params.toValue)]

end Call

end TemporalGraph
