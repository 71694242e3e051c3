import TemporalGraph.Decimal.Digits
import TemporalGraph.Decimal.Nearest
import TemporalGraph.Text.Escape
import TemporalGraph.Toml.Table
/-!
Documents from TOML texts. A line defines a key, or begins a table with a header in brackets. Dates
are read for their form only: no structure holds one.
-/

namespace TemporalGraph.Toml

abbrev Reader := StateT (List Char) Option

namespace Reader

def peek : Reader (Option Char) := fun cs => some (cs.head?, cs)

def drop (n : Nat) : Reader Unit := fun cs => some ((), cs.drop n)

def refuse {α : Type} : Reader α := fun _ => none

def require (b : Bool) : Reader Unit := fun cs => if b then some ((), cs) else none

def accept (text : String) : Reader Bool := fun cs =>
  if text.toList.isPrefixOf cs then some (true, cs.drop text.length) else some (false, cs)

def takeWhile (f : Char → Bool) : Reader (List Char) := fun cs =>
  some (cs.takeWhile f, cs.dropWhile f)

def skipBlanks : Reader Unit := fun cs => some ((), cs.dropWhile fun c => c = ' ' || c = '\t')

end Reader

open Reader

/-- Control characters other than the tab have no place in a text, except for line breaks. -/
def isAllowed (c : Char) : Bool := c = '\t' || (32 ≤ c.toNat && c.toNat != 127)

/-- How many arrays and inline tables may be open at once, and how many keys one path may have. -/
def depthLimit : Nat := 79

def skipComment : Reader Unit := do
  if ← accept "#" then
    let _ ← Reader.takeWhile isAllowed

def endLine : Reader Unit := do
  skipBlanks
  skipComment
  match ← peek with
  | none => return
  | some c =>
    require (c = '\n')
    drop 1

def skipLines : Nat → Reader Unit
  | 0 => refuse
  | fuel + 1 => do
    skipBlanks
    skipComment
    if ← accept "\n" then skipLines fuel

def readEscape : Reader Char := do
  let hex (width : Nat) : Reader Char := fun cs =>
    if cs.length < width then none
    else (Text.charOfHex? (cs.take width)).map fun c => (c, cs.drop width)
  let c ← peek
  drop 1
  match c with
  | some 'b' => return '\x08'
  | some 't' => return '\t'
  | some 'n' => return '\n'
  | some 'f' => return '\x0c'
  | some 'r' => return '\r'
  | some '"' => return '"'
  | some '\\' => return '\\'
  | some 'u' => hex 4
  | some 'U' => hex 8
  | _ => refuse

def basicBody : Nat → List Char → Reader (List Char)
  | 0, _ => refuse
  | fuel + 1, text => do
    match ← peek with
    | some '"' =>
      drop 1
      return text.reverse
    | some '\\' =>
      drop 1
      basicBody fuel ((← readEscape) :: text)
    | some c =>
      require (isAllowed c)
      drop 1
      basicBody fuel (c :: text)
    | none => refuse

/-- A backslash at the end of a line takes all blanks and line breaks behind it away. -/
def isLineJoint (cs : List Char) : Bool :=
  (cs.dropWhile fun c => c = ' ' || c = '\t').head? == some '\n'

/-- The rest of a text between three quotes. Up to two quotes may stand before the closing ones. -/
def longBody (quote : Char) : Nat → List Char → Reader (List Char)
  | 0, _ => refuse
  | fuel + 1, text => do
    let quotes := (← get).takeWhile (· == quote)
    if 3 ≤ quotes.length then
      require (quotes.length ≤ 5)
      drop quotes.length
      return text.reverse ++ quotes.drop 3
    match ← peek with
    | some c =>
      drop 1
      if c = '\\' && quote = '"' then
        if isLineJoint (← get) then
          let _ ← Reader.takeWhile fun c => c = ' ' || c = '\t' || c = '\n'
          longBody quote fuel text
        else longBody quote fuel ((← readEscape) :: text)
      else
        require (c = '\n' || isAllowed c)
        longBody quote fuel (c :: text)
    | none => refuse

def readShortText (size : Nat) : Reader (List Char) := do
  if ← accept "\"" then basicBody size []
  else if ← accept "'" then
    let text ← Reader.takeWhile fun c => isAllowed c && c != '\''
    require (← accept "'")
    return text
  else refuse

def readText (size : Nat) : Reader (List Char) := do
  let long (quote : Char) : Reader (List Char) := do
    let _ ← accept "\n"
    longBody quote size []
  if ← accept "\"\"\"" then long '"'
  else if ← accept "'''" then long '\''
  else readShortText size

def isBareKeyChar (c : Char) : Bool := c.isAlphanum || c = '-' || c = '_'

def readSimpleKey (size : Nat) : Reader String := do
  match ← peek with
  | some '"' | some '\'' => return String.ofList (← readShortText size)
  | _ =>
    let key ← Reader.takeWhile isBareKeyChar
    require (!key.isEmpty)
    return String.ofList key

def readPath (size : Nat) : Nat → Reader (List String)
  | 0 => refuse
  | fuel + 1 => do
    skipBlanks
    let key ← readSimpleKey size
    skipBlanks
    if ← accept "." then return key :: (← readPath size fuel) else return [key]

def readKey (size : Nat) : Reader (List String × String) := do
  let keys ← readPath size depthLimit
  match keys.getLast? with
  | some key => return (keys.dropLast, key)
  | none => refuse

def digits? (base : Nat) (cs : List Char) : Option (List Char) :=
  let isDigit (c : Char) : Bool := (Text.hexValue? c).any (· < base)
  let ok := cs.head?.any isDigit && cs.getLast?.any isDigit
    && cs.all (fun c => isDigit c || c = '_')
    && (cs.zip (cs.drop 1)).all (fun (a, b) => a != '_' || b != '_')
  if ok then some (cs.filter (· != '_')) else none

def wholeDigits? (cs : List Char) : Option (List Char) :=
  (digits? 10 cs).filter fun ds => ds.length = 1 || ds.head? != some '0'

def integer? (negative : Bool) (magnitude : Nat) : Option Document :=
  let i : Int := if negative then -magnitude else magnitude
  if Decimal.isInt64 i then some (.scalar none (.number (.int i))) else none

/-- A number with a point or an exponent, without its sign. What lies above all finite numbers is
refused, and what lies below them is not a finite number. -/
def real? (negative : Bool) (cs : List Char) : Option Document := do
  let isMark (c : Char) : Bool := c = 'e' || c = 'E'
  let mantissa := cs.takeWhile fun c => !isMark c
  let exponent := cs.dropWhile fun c => !isMark c
  let whole ← wholeDigits? (mantissa.takeWhile (· != '.'))
  let fraction ← match mantissa.dropWhile (· != '.') with
    | [] => some []
    | _ :: ds => digits? 10 ds
  let power ← match exponent.drop 1 with
    | '-' :: ds => (digits? 10 ds).map fun ds => '-' :: ds
    | '+' :: ds => digits? 10 ds
    | ds => if exponent.isEmpty then some [] else digits? 10 ds
  let plain := whole ++ (if fraction.isEmpty then [] else '.' :: fraction)
  let (significand, scale) ← Decimal.parts? (plain ++ if power.isEmpty then [] else 'e' :: power)
  match Decimal.nearest? negative significand scale with
  | some bits => return .scalar none (.number (.float bits))
  | none => if negative then return .scalar none .special else none

def number? (cs : List Char) : Option Document :=
  let based (base : Nat) (ds : List Char) : Option Document := do
    integer? false (← Text.valueIn? base (← digits? base ds))
  let (negative, body) := match cs with
    | '-' :: cs => (true, cs)
    | '+' :: cs => (false, cs)
    | cs => (false, cs)
  match cs with
  | '0' :: 'x' :: ds => based 16 ds
  | '0' :: 'o' :: ds => based 8 ds
  | '0' :: 'b' :: ds => based 2 ds
  | _ =>
    if body == "inf".toList || body == "nan".toList then some (.scalar none .special)
    else
      match wholeDigits? body with
      | some ds => integer? negative (Decimal.value ds)
      | none => real? negative body

def daysInMonth (year month : Nat) : Nat :=
  if month = 2 then
    if year % 4 = 0 && (year % 100 != 0 || year % 400 = 0) then 29 else 28
  else if [4, 6, 9, 11].contains month then 30
  else 31

def hasForm (form : String) (cs : List Char) : Bool :=
  form.length = cs.length
    && (form.toList.zip cs).all fun (f, c) => if f = '#' then c.isDigit else f = c

def isDate (cs : List Char) : Bool :=
  let month := Decimal.value ((cs.drop 5).take 2)
  let day := Decimal.value ((cs.drop 8).take 2)
  hasForm "####-##-##" cs && 1 ≤ month && month ≤ 12 && 1 ≤ day
    && day ≤ daysInMonth (Decimal.value (cs.take 4)) month

def isTime (cs : List Char) : Bool :=
  let clock := cs.take 8
  let fraction := match cs.drop 8 with
    | [] => true
    | '.' :: ds => !ds.isEmpty && ds.all Char.isDigit
    | _ => false
  hasForm "##:##:##" clock && Decimal.value (clock.take 2) ≤ 23
    && Decimal.value ((clock.drop 3).take 2) ≤ 59 && Decimal.value (clock.drop 6) ≤ 60 && fraction

def isOffset (cs : List Char) : Bool :=
  match cs with
  | [] | ['Z'] | ['z'] => true
  | sign :: cs =>
    (sign = '+' || sign = '-') && hasForm "##:##" cs
      && Decimal.value (cs.take 2) ≤ 23 && Decimal.value (cs.drop 3) ≤ 59

def isMoment (cs : List Char) : Bool :=
  let behind := cs.drop 11
  let isClockChar (c : Char) : Bool := c.isDigit || c = ':' || c = '.'
  isDate cs || isTime cs
    || (isDate (cs.take 10) && ['T', 't', ' '].contains (cs.getD 10 '?')
      && isTime (behind.takeWhile isClockChar) && isOffset (behind.dropWhile isClockChar))

/-- A value without quotes or brackets. A date may be followed by a time behind one blank. -/
def readWord : Reader Document := do
  let isWordChar (c : Char) : Bool := isBareKeyChar c || c = '+' || c = '.' || c = ':'
  let word ← Reader.takeWhile isWordChar
  let cs ← get
  let goesOn := isDate word && cs.head? == some ' ' && (cs.drop 1).head?.any Char.isDigit
  let word ← if goesOn then
      drop 1
      pure (word ++ ' ' :: (← Reader.takeWhile isWordChar))
    else pure word
  match String.ofList word with
  | "true" => return .scalar none (.bool true)
  | "false" => return .scalar none (.bool false)
  | _ =>
    match number? word with
    | some d => return d
    | none => if isMoment word then return .unreadable else refuse

mutual

def readValue : Nat → Nat → Reader Document
  | 0, _ => refuse
  | fuel + 1, depth => do
    match ← peek with
    | some '"' | some '\'' => return .text (String.ofList (← readText fuel))
    | some '[' =>
      require (0 < depth)
      drop 1
      return .list (← readItems fuel (depth - 1))
    | some '\x7b' =>
      require (0 < depth)
      drop 1
      skipBlanks
      if ← accept "\x7d" then return .table []
      return .table (documents (← readEntries fuel (depth - 1) []))
    | _ => readWord

def readItems : Nat → Nat → Reader (List Document)
  | 0, _ => refuse
  | fuel + 1, depth => do
    skipLines fuel
    if ← accept "]" then return []
    let d ← readValue fuel depth
    skipLines fuel
    if ← accept "," then return d :: (← readItems fuel depth)
    require (← accept "]")
    return [d]

def readEntries : Nat → Nat → Entries → Reader Entries
  | 0, _, _ => refuse
  | fuel + 1, depth, es => do
    let (path, key) ← readKey fuel
    require (← accept "=")
    skipBlanks
    let d ← readValue fuel depth
    let es ← Entries.define path key d es
    skipBlanks
    if ← accept "," then readEntries fuel depth es
    else
      require (← accept "\x7d")
      return es

end

/-- The lines of a text of less than `size` characters. `current` is the path of the last header. -/
def readLines (size : Nat) : Nat → List String → Entries → Reader Entries
  | 0, _, _ => refuse
  | fuel + 1, current, root => do
    skipBlanks
    match ← peek with
    | none => return root
    | some '\n' | some '#' =>
      endLine
      readLines size fuel current root
    | some '[' =>
      drop 1
      let repeated ← accept "["
      let (path, key) ← readKey size
      require (← accept (if repeated then "]]" else "]"))
      endLine
      let root ← if repeated then root.addTable path key else root.openTable path key
      readLines size fuel (path ++ [key]) root
    | some _ =>
      let (path, key) ← readKey size
      require (← accept "=")
      skipBlanks
      let d ← readValue (2 * size) depthLimit
      endLine
      let root ← root.defineAt current path key d
      readLines size fuel current root

def normalized : List Char → List Char
  | [] => []
  | '\r' :: '\n' :: cs => '\n' :: normalized cs
  | c :: cs => c :: normalized cs

def parse? (text : String) : Option Document := do
  let cs := normalized text.toList
  let cs := if cs.head? == some '\ufeff' then cs.drop 1 else cs
  let size := cs.length + 1
  let (root, _) ← (readLines size size [] []).run cs
  return .table (documents root)

end TemporalGraph.Toml
