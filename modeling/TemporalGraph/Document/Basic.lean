import TemporalGraph.Decimal.Digits
import TemporalGraph.Json.Basic
/-!
Documents: what a configuration or schema text says, before anything is known of the type that is
read from it. A reader for a type looks at a document and accepts or refuses it; parts that no
reader looks at are never refused.
-/

namespace TemporalGraph

/-- The meaning of a leaf. A number that is not finite and a date are `special`. -/
inductive Scalar where
  | null
  | bool (b : Bool)
  | number (n : Json.Number)
  | text (s : String)
  | special
  deriving Repr, BEq

/-- A leaf has a spelling where it can stand for a text. A part that breaks a rule of its format
in a way that only its reader notices is `unreadable`. -/
inductive Document where
  | scalar (spelling : Option String) (meaning : Scalar)
  | list (items : List Document)
  | table (entries : List (String × Document))
  | unreadable
  deriving Repr, BEq

namespace Document

def text (s : String) : Document := .scalar (some s) (.text s)

def string? : Document → Option String
  | .scalar spelling _ => spelling
  | _ => none

def bool? : Document → Option Bool
  | .scalar _ (.bool b) => some b
  | _ => none

def int64? : Document → Option Int
  | .scalar _ (.number (.int i)) => if Decimal.isInt64 i then some i else none
  | _ => none

def isNull : Document → Bool
  | .scalar _ .null => true
  | _ => false

def nullable? {α : Type} (read : Document → Option α) (d : Document) : Option (Option α) :=
  if d.isNull then some none else (read d).map some

def list? {α : Type} (read : Document → Option α) : Document → Option (List α)
  | .list items => items.mapM read
  | _ => none

def table? {α : Type} (read : Document → Option α) : Document → Option (List (String × α))
  | .table entries => entries.mapM fun e => (read e.2).map fun v => (e.1, v)
  | _ => none

/-- A choice among names: the name alone, or a table with the name over the choice's content. -/
def choice? : Document → Option (String × Option Document)
  | .scalar (some name) _ => some (name, none)
  | .table [(name, content)] => some (name, some content)
  | _ => none

def name? (d : Document) : Option String :=
  match d.choice? with
  | some (name, none) => some name
  | some (name, some content) => if content.isNull then some name else none
  | none => none

mutual

def value? : Document → Option Json.Value
  | .scalar _ .null => some .null
  | .scalar _ (.bool b) => some (.bool b)
  | .scalar _ (.number n) => some (.number n)
  | .scalar _ (.text s) => some (.string s)
  | .scalar _ .special => none
  | .list items => (values? items).map .array
  | .table entries => (members? entries).map fun ms => (Json.Record.ofList ms).toValue
  | .unreadable => none

def values? : List Document → Option (List Json.Value)
  | [] => some []
  | d :: ds => do
    let v ← value? d
    let vs ← values? ds
    return v :: vs

def members? : List (String × Document) → Option (List (String × Json.Value))
  | [] => some []
  | (key, d) :: es => do
    let v ← value? d
    let ms ← members? es
    return (key, v) :: ms

end

def record? : Document → Option Json.Record
  | .table entries => (members? entries).map Json.Record.ofList
  | _ => none

/-- What a document holds for one field of a structure. In a list the fields stand in their order,
and those behind the end are `cut`. -/
inductive Slot where
  | given (d : Document)
  | absent
  | cut

/-- The slots of a structure with the fields `names`. A table may hold other entries too, but none
of the fields twice; a list holds no more items than there are fields. -/
def slots? (names : List String) : Document → Option (List Slot)
  | .table entries =>
    names.mapM fun name =>
      match entries.filter fun e => e.1 == name with
      | [] => some .absent
      | [e] => some (.given e.2)
      | _ => none
  | .list items =>
    if items.length ≤ names.length then
      some (items.map .given ++ List.replicate (names.length - items.length) .cut)
    else none
  | _ => none

namespace Slot

variable {α : Type}

def required? (read : Document → Option α) : Slot → Option α
  | .given d => read d
  | _ => none

def default? (fallback : α) (read : Document → Option α) : Slot → Option α
  | .given d => read d
  | _ => some fallback

def optional? (read : Document → Option α) : Slot → Option (Option α)
  | .given d => d.nullable? read
  | .absent => some none
  | .cut => none

end Slot

end Document

end TemporalGraph
