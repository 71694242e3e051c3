import TemporalGraph.Regex.Basic
/-!
Sets of characters by name: those of ASCII, general categories with their long names, and other
properties.
-/

namespace TemporalGraph.Regex

def asciiDigits : CharSet := .range 48 57

def asciiBlanks : CharSet := .union (.range 9 13) (.single ' ')

def asciiWord : CharSet :=
  .union (.union asciiDigits (.range 65 90)) (.union (.range 97 122) (.single '_'))

def namedSet? (name : String) : Option CharSet :=
  let lower : CharSet := .range 97 122
  let upper : CharSet := .range 65 90
  let alpha : CharSet := .union lower upper
  match name with
  | "alnum" => some (.union alpha asciiDigits)
  | "alpha" => some alpha
  | "ascii" => some (.range 0 127)
  | "blank" => some (.union (.single ' ') (.single '\t'))
  | "cntrl" => some (.union (.range 0 31) (.range 127 127))
  | "digit" => some asciiDigits
  | "graph" => some (.range 33 126)
  | "lower" => some lower
  | "print" => some (.range 32 126)
  | "punct" => some (.diff (.range 33 126) (.union alpha asciiDigits))
  | "space" => some asciiBlanks
  | "upper" => some upper
  | "word" => some asciiWord
  | "xdigit" => some (.union asciiDigits (.union (.range 65 70) (.range 97 102)))
  | _ => none

def categoryAliases : List (String × List String) :=
  let letters := ["Lu", "Ll", "Lt", "Lm", "Lo"]
  let marks := ["Mn", "Mc", "Me"]
  let numbers := ["Nd", "Nl", "No"]
  let punctuation := ["Pc", "Pd", "Ps", "Pe", "Pi", "Pf", "Po"]
  let symbols := ["Sm", "Sc", "Sk", "So"]
  let separators := ["Zs", "Zl", "Zp"]
  let others := ["Cc", "Cf", "Cs", "Co", "Cn"]
  [("l", letters), ("letter", letters), ("lc", ["Lu", "Ll", "Lt"]),
    ("casedletter", ["Lu", "Ll", "Lt"]), ("uppercaseletter", ["Lu"]), ("lowercaseletter", ["Ll"]),
    ("titlecaseletter", ["Lt"]), ("modifierletter", ["Lm"]), ("otherletter", ["Lo"]),
    ("m", marks), ("mark", marks), ("combiningmark", marks), ("nonspacingmark", ["Mn"]),
    ("spacingmark", ["Mc"]), ("enclosingmark", ["Me"]), ("n", numbers), ("number", numbers),
    ("decimalnumber", ["Nd"]), ("digit", ["Nd"]), ("letternumber", ["Nl"]), ("othernumber", ["No"]),
    ("p", punctuation), ("punctuation", punctuation), ("punct", punctuation),
    ("connectorpunctuation", ["Pc"]), ("dashpunctuation", ["Pd"]), ("openpunctuation", ["Ps"]),
    ("closepunctuation", ["Pe"]), ("initialpunctuation", ["Pi"]), ("finalpunctuation", ["Pf"]),
    ("otherpunctuation", ["Po"]), ("s", symbols), ("symbol", symbols), ("mathsymbol", ["Sm"]),
    ("currencysymbol", ["Sc"]), ("modifiersymbol", ["Sk"]), ("othersymbol", ["So"]),
    ("z", separators), ("separator", separators), ("spaceseparator", ["Zs"]),
    ("lineseparator", ["Zl"]), ("paragraphseparator", ["Zp"]), ("c", others), ("other", others),
    ("control", ["Cc"]), ("cntrl", ["Cc"]), ("format", ["Cf"]), ("privateuse", ["Co"]),
    ("unassigned", ["Cn"]), ("surrogate", ["Cs"])]

/-- The set of a property, by a name in which case, blanks, hyphens and underscores do not count. -/
def property? (name : String) : Option CharSet :=
  let plain := (name.toList.filter fun c => c.toNat < 128 && c != ' ' && c != '-' && c != '_').map
    Char.toLower
  let key := String.ofList (if ['i', 's'].isPrefixOf plain then plain.drop 2 else plain)
  match categoryAliases.find? fun a => a.1 == key with
  | some (_, names) => some (.categories names)
  | none =>
    match Text.categoryNames.find? fun n => String.ofList (n.toList.map Char.toLower) == key with
    | some n => some (.categories [n])
    | none =>
      match key with
      | "any" => some .all
      | "ascii" => some (.range 0 127)
      | "assigned" => some (.complement (.categories ["Cn"]))
      | "whitespace" | "wspace" | "space" => some .blank
      | _ => none

end TemporalGraph.Regex
