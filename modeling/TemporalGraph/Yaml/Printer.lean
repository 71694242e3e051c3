import TemporalGraph.Decimal.Nearest
import TemporalGraph.Json.Printer
/-!
YAML texts of JSON values, in blocks. A string is plain unless it may be taken for something else;
numbers to another base than ten are not looked for, so that their texts come back as numbers.
-/

namespace TemporalGraph.Yaml

def reservedWords : List String :=
  ["yes", "Yes", "YES", "no", "No", "NO", "true", "True", "TRUE", "false", "False", "FALSE", "on",
    "On", "ON", "off", "Off", "OFF", "null", "Null", "NULL", "~"]

def isDelicate (c : Char) : Bool :=
  ":\x7b\x7d[],#\x60\"'\\".toList.contains c || c.toNat < 7 || c = '\t' || c = '\n' || c = '\r'
    || (14 ≤ c.toNat && c.toNat < 32 && c.toNat != 27)

def isDecimal (cs : List Char) : Bool :=
  let body := match cs with
    | '+' :: cs => cs
    | cs => cs
  (Decimal.parts? body).isSome

def needsQuotes (s : String) : Bool :=
  let cs := s.toList
  cs.isEmpty || cs.head? == some ' ' || cs.getLast? == some ' '
    || cs.head?.any (fun c => "&*?|-<>=!%@.".toList.contains c)
    || cs.any isDelicate || reservedWords.contains s || ['0', 'x'].isPrefixOf cs || isDecimal cs

def renderString (s : String) : List Char :=
  if needsQuotes s then Json.renderString s else s.toList

mutual

/-- A value behind a key or a hyphen. A collection begins on the next line. -/
def renderBehind (margin : Nat) : Json.Value → List Char
  | .array [] => [' ', '[', ']', '\n']
  | .array items => '\n' :: renderItems margin items
  | .object [] => [' ', '\x7b', '\x7d', '\n']
  | .object members => '\n' :: renderMembers margin members
  | .string s => ' ' :: renderString s ++ ['\n']
  | .null => [' ', '~', '\n']
  | .bool b => ' ' :: (Json.Value.bool b).render ++ ['\n']
  | .number n => ' ' :: n.render ++ ['\n']

def renderItems (margin : Nat) : List Json.Value → List Char
  | [] => []
  | v :: vs =>
    List.replicate margin ' ' ++ '-' :: renderBehind (margin + 2) v ++ renderItems margin vs

def renderMembers (margin : Nat) : List (String × Json.Value) → List Char
  | [] => []
  | (key, v) :: ms =>
    List.replicate margin ' ' ++ renderString key ++ ':' :: renderBehind (margin + 2) v
      ++ renderMembers margin ms

end

def render (v : Json.Value) : String := String.ofList ("---".toList ++ renderBehind 0 v)

end TemporalGraph.Yaml
