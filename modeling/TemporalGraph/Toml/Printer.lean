import TemporalGraph.Json.Printer
/-!
TOML texts of JSON values: a line for each member of the outermost object, and arrays and inline
tables inside. There is no TOML text for null or for a value that is no object.
-/

namespace TemporalGraph.Toml

def escape (c : Char) : List Char :=
  if c.toNat = 127 then "\\u007f".toList else Json.escape c

def renderString (s : String) : List Char := '"' :: s.toList.flatMap escape ++ ['"']

mutual

def renderValue? : Json.Value → Option (List Char)
  | .null => none
  | .bool b => some (Json.Value.bool b).render
  | .number n => some n.render
  | .string s => some (renderString s)
  | .array items => do
    let ts ← renderItems? items
    some ('[' :: Json.separated ts ++ [']'])
  | .object members => do
    let ts ← renderMembers? members
    some ('\x7b' :: Json.separated ts ++ ['\x7d'])

def renderItems? : List Json.Value → Option (List (List Char))
  | [] => some []
  | v :: vs => do return (← renderValue? v) :: (← renderItems? vs)

def renderMembers? : List (String × Json.Value) → Option (List (List Char))
  | [] => some []
  | (key, v) :: ms => do
    return (renderString key ++ [' ', '=', ' '] ++ (← renderValue? v)) :: (← renderMembers? ms)

end

def render? : Json.Value → Option String
  | .object members =>
    (renderMembers? members).map fun ts => String.ofList (ts.flatMap fun t => t ++ ['\n'])
  | _ => none

end TemporalGraph.Toml
