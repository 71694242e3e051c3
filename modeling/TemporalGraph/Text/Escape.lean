import TemporalGraph.Text.Word
/-!
Escapes of characters: the character with given digits, and texts as quoted literals in messages, in
which what cannot be seen on its own is escaped.
-/

namespace TemporalGraph.Text

def hexValue? (c : Char) : Option Nat :=
  if c.isDigit then some (c.toNat - 48)
  else if 'a' ≤ c && c ≤ 'f' then some (c.toNat - 87)
  else if 'A' ≤ c && c ≤ 'F' then some (c.toNat - 55)
  else none

def valueIn? (base : Nat) (ds : List Char) : Option Nat :=
  if ds.isEmpty then none
  else
    ds.foldlM (fun n d =>
      match hexValue? d with
      | some v => if v < base then some (base * n + v) else none
      | none => none) 0

/-- The character with a code point; surrogates have none. -/
def charOfCode? (n : Nat) : Option Char :=
  if n < 0xD800 || (0xDFFF < n && n ≤ 0x10FFFF) then some (Char.ofNat n) else none

def charOfHex? (ds : List Char) : Option Char := (valueIn? 16 ds).bind charOfCode?

def escapeLiteral (c : Char) : List Char :=
  if c.toNat = 0 then ['\\', '0']
  else if c = '\t' then ['\\', 't']
  else if c = '\r' then ['\\', 'r']
  else if c = '\n' then ['\\', 'n']
  else if c = '"' || c = '\\' then ['\\', c]
  else if isVisible c && !isExtender c then [c]
  else ['\\', 'u', '\x7b'] ++ Nat.toDigits 16 c.toNat ++ ['\x7d']

def literal (s : String) : String := String.ofList ('"' :: s.toList.flatMap escapeLiteral ++ ['"'])

end TemporalGraph.Text
