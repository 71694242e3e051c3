import TemporalGraph.Decimal.Shortest
import TemporalGraph.Json.Basic
/-!
Compact JSON text: no blanks between the tokens, members in their order.
-/

namespace TemporalGraph.Json

def numberLayout : Decimal.Layout := ⟨-5, 15⟩

def Number.render : Number → List Char
  | .int i => Decimal.integer i
  | .float bits => numberLayout.renderBinary (.ofBits bits)

def hexDigit (n : Nat) : Char := Char.ofNat (if n < 10 then 48 + n else 87 + n)

/-- Quotes, backslashes and control characters below U+0020 are escaped; everything else is raw. -/
def escape (c : Char) : List Char :=
  if c = '"' then ['\\', '"']
  else if c = '\\' then ['\\', '\\']
  else if c = '\n' then ['\\', 'n']
  else if c = '\r' then ['\\', 'r']
  else if c = '\t' then ['\\', 't']
  else if c.toNat = 8 then ['\\', 'b']
  else if c.toNat = 12 then ['\\', 'f']
  else if c.toNat < 32 then
    ['\\', 'u', '0', '0', hexDigit (c.toNat / 16), hexDigit (c.toNat % 16)]
  else [c]

def renderString (s : String) : List Char := '"' :: s.toList.flatMap escape ++ ['"']

def separated : List (List Char) → List Char
  | [] => []
  | [t] => t
  | t :: ts => t ++ ',' :: separated ts

mutual

def Value.render : Value → List Char
  | .null => "null".toList
  | .bool true => "true".toList
  | .bool false => "false".toList
  | .number n => n.render
  | .string s => renderString s
  | .array items => '[' :: separated (renderItems items) ++ [']']
  | .object members => '\x7b' :: separated (renderMembers members) ++ ['\x7d']

def renderItems : List Value → List (List Char)
  | [] => []
  | v :: vs => v.render :: renderItems vs

def renderMembers : List (String × Value) → List (List Char)
  | [] => []
  | (key, v) :: ms => (renderString key ++ ':' :: v.render) :: renderMembers ms

end

def Value.toText (v : Value) : String := String.ofList v.render

end TemporalGraph.Json
