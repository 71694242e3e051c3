import TemporalGraph.Decimal.Digits
import TemporalGraph.Decimal.Nearest
import TemporalGraph.Document.Basic
import TemporalGraph.Yaml.Token
/-!
Documents from YAML texts. Plain scalars have the meaning of their text; a reference stands for
the document behind its anchor. A text holds one document.
-/

namespace TemporalGraph.Yaml

/-- A whole number: decimal, or to another base behind a letter that tells it. Leading zeros make a
text of a decimal number. -/
def wholeNumber? (cs : List Char) : Option Int :=
  let (negative, cs) := match cs with
    | '-' :: cs => (true, cs)
    | '+' :: cs => (false, cs)
    | cs => (false, cs)
  let based (base : Nat) (ds : List Char) : Option Int :=
    (Text.valueIn? base ds).bind fun n =>
      let i : Int := if negative then -n else n
      if (if negative then Decimal.isInt64 i else Decimal.isNat64 n) then some i else none
  match cs with
  | '0' :: 'x' :: ds => based 16 ds
  | '0' :: 'o' :: ds => based 8 ds
  | '0' :: 'b' :: ds => based 2 ds
  | ds =>
    if ds.isEmpty || !ds.all Char.isDigit || (ds.head? == some '0' && 1 < ds.length) then none
    else if negative then some (-(Decimal.value ds : Int))
    else some (Decimal.value ds)

def realNumber? (cs : List Char) : Option Scalar :=
  let (negative, body) := match cs with
    | '-' :: cs => (true, cs)
    | '+' :: cs => (false, cs)
    | cs => (false, cs)
  let word := String.ofList body
  if [".inf", ".Inf", ".INF"].contains word then some .special
  else if [".nan", ".NaN", ".NAN"].contains (String.ofList cs) then some .special
  else if body.all Char.isDigit then none
  else do
    let (significand, exponent) ← Decimal.parts? body
    return .number (.float (← Decimal.nearest? negative significand exponent))

def plainMeaning (text : String) : Scalar :=
  match text with
  | "" | "~" | "null" => .null
  | "true" => .bool true
  | "false" => .bool false
  | _ =>
    match wholeNumber? text.toList with
    | some i => .number (.int i)
    | none => (realNumber? text.toList).getD (.text text)

/-- The meaning of a scalar with a tag of a core type; `special` if its text is not of the type. -/
def taggedMeaning (core : String) (text : String) : Scalar :=
  let refused (s : Option Scalar) : Scalar := s.getD .special
  match core with
  | "bool" =>
    match text with
    | "true" => .bool true
    | "false" => .bool false
    | _ => .special
  | "null" => if text == "~" || text == "null" then .null else .special
  | "int" =>
    let ds := match text.toList with
      | '-' :: ds | '+' :: ds => ds
      | ds => ds
    let sign : Int := if text.startsWith "-" then -1 else 1
    if ds.isEmpty || !ds.all Char.isDigit then .special
    else .number (.int (sign * Decimal.value ds))
  | "float" =>
    let (negative, body) := match text.toList with
      | '-' :: cs => (true, cs)
      | '+' :: cs => (false, cs)
      | cs => (false, cs)
    refused do
      let (significand, exponent) ← Decimal.parts? body
      return .number (.float (← Decimal.nearest? negative significand exponent))
  | _ => .text text

def scalarDocument (tag : Option (Option String)) (plain : Bool) (text : String) : Document :=
  let meaning := match tag with
    | some (some core) => taggedMeaning core text
    | some none => .text text
    | none => if plain then plainMeaning text else .text text
  .scalar (some text) meaning

/-- The tokens to come, and the anchors: their numbers by name, latest first, and what the finished
ones stand for. -/
structure NodeState where
  tokens : List Token
  anchors : List (String × Nat) := []
  finished : List (Nat × Document) := []

abbrev NodeReader := StateT NodeState Option

namespace NodeReader

def peek : NodeReader (Option Token) := fun s => some (s.tokens.head?, s)

def drop : NodeReader Unit := fun s => some ((), { s with tokens := s.tokens.tail })

def accept (t : Token) : NodeReader Bool := fun s =>
  if s.tokens.head? == some t then some (true, { s with tokens := s.tokens.tail })
  else some (false, s)

def refuse {α : Type} : NodeReader α := fun _ => none

def isNext (ts : List Token) : NodeReader Bool := fun s => some (s.tokens.head?.any ts.contains, s)

def resolve (name : String) : NodeReader Document := fun s =>
  match s.anchors.find? fun a => a.1 == name with
  | some (_, number) =>
    some (((s.finished.find? fun f => f.1 == number).map Prod.snd).getD .unreadable, s)
  | none => none

def declare (name : String) : NodeReader Nat := fun s =>
  let number := s.anchors.length
  some (number, { s with anchors := (name, number) :: s.anchors })

def finish (number : Option Nat) (d : Document) : NodeReader Unit := fun s =>
  match number with
  | some number => some ((), { s with finished := (number, d) :: s.finished })
  | none => some ((), s)

def acceptAnchor : NodeReader (Option Nat) := do
  match ← peek with
  | some (.anchor name) =>
    drop
    return some (← declare name)
  | _ => return none

def acceptTag : NodeReader (Option (Option String)) := do
  match ← peek with
  | some (.tag core) =>
    drop
    return some core
  | _ => return none

end NodeReader

open NodeReader

def missing : Document := .scalar (some "~") .null

def tableOf (entries : List (Document × Document)) : Document :=
  match entries.mapM fun e => e.1.string?.map fun key => (key, e.2) with
  | some entries => .table entries
  | none => .unreadable

mutual

/-- A node. Block collections may begin in a block only, and the items of a list at the column of
its key where `indentless` tells so. -/
def readNode : Nat → (block indentless : Bool) → NodeReader Document
  | 0, _, _ => refuse
  | fuel + 1, block, indentless => do
    if let some (.reference name) := ← peek then
      drop
      return ← resolve name
    let early ← acceptAnchor
    let tag ← acceptTag
    let number ← if early.isSome then pure early else acceptAnchor
    let d ← readContent fuel block indentless tag (tag.isSome || number.isSome)
    finish number d
    return d

def readContent : Nat → (block indentless : Bool) → Option (Option String) → Bool →
    NodeReader Document
  | 0, _, _, _, _ => refuse
  | fuel + 1, block, indentless, tag, marked => do
    match ← peek with
    | some .item =>
      if indentless then return .list (← readItems fuel false)
      else if marked then return scalarDocument tag true ""
      else refuse
    | some (.scalar plain text) =>
      drop
      return scalarDocument tag plain text
    | some .openList =>
      drop
      return .list (← readFlowItems fuel true)
    | some .openTable =>
      drop
      return tableOf (← readFlowEntries fuel true)
    | some .blockList =>
      if block then
        drop
        return .list (← readItems fuel true)
      else if marked then return scalarDocument tag true ""
      else refuse
    | some .blockTable =>
      if block then
        drop
        return tableOf (← readEntries fuel)
      else if marked then return scalarDocument tag true ""
      else refuse
    | _ => if marked then return scalarDocument tag true "" else refuse

/-- Items behind hyphens. A list with its own indentation ends with its block. -/
def readItems : Nat → (indented : Bool) → NodeReader (List Document)
  | 0, _ => refuse
  | fuel + 1, indented => do
    if ← accept .item then
      let ends : List Token :=
        if indented then [.item, .blockEnd] else [.item, .key, .value, .blockEnd]
      let d ← if ← isNext ends then pure missing else readNode fuel true false
      return d :: (← readItems fuel indented)
    else if !indented then return []
    else if ← accept .blockEnd then return []
    else refuse

def readEntries : Nat → NodeReader (List (Document × Document))
  | 0 => refuse
  | fuel + 1 => do
    if ← accept .blockEnd then return []
    let key ← if ← accept .key then
        if ← isNext [.key, .value, .blockEnd] then pure missing else readNode fuel true true
      else if ← isNext [.value] then pure missing
      else refuse
    let value ← if ← accept .value then
        if ← isNext [.key, .value, .blockEnd] then pure missing else readNode fuel true true
      else pure missing
    return (key, value) :: (← readEntries fuel)

/-- Items up to a closing bracket. An item with a colon is a table of one entry. -/
def readFlowItems : Nat → (first : Bool) → NodeReader (List Document)
  | 0, _ => refuse
  | fuel + 1, first => do
    if ← accept .closeList then return []
    if !first then
      if !(← accept .comma) then refuse
    if ← accept .closeList then return []
    let d ← if ← accept .key then
        let key ← if ← isNext [.value, .comma, .closeList] then pure missing
          else readNode fuel false false
        let value ← if ← accept .value then
            if ← isNext [.comma, .closeList] then pure missing else readNode fuel false false
          else pure missing
        pure (tableOf [(key, value)])
      else readNode fuel false false
    return d :: (← readFlowItems fuel false)

def readFlowEntries : Nat → (first : Bool) → NodeReader (List (Document × Document))
  | 0, _ => refuse
  | fuel + 1, first => do
    if ← accept .closeTable then return []
    if !first then
      if !(← accept .comma) then refuse
    if ← accept .closeTable then return []
    let entry ← if ← accept .key then
        let key ← if ← isNext [.value, .comma, .closeTable] then pure missing
          else readNode fuel false false
        pure (key, ← readFlowValue fuel)
      else if ← isNext [.value] then pure (missing, ← readFlowValue fuel)
      else pure (← readNode fuel false false, missing)
    return entry :: (← readFlowEntries fuel false)

def readFlowValue : Nat → NodeReader Document
  | 0 => refuse
  | fuel + 1 => do
    if ← accept .value then
      if ← isNext [.comma, .closeTable] then return missing else readNode fuel false false
    else return missing

end

def readDocument (fuel : Nat) : NodeReader Document := do
  let marks : List Token := [.directive, .documentStart]
  let d ← if ← isNext marks then
      let s ← get
      set { s with tokens := s.tokens.dropWhile (· == Token.directive) }
      if !(← accept .documentStart) then refuse
      match ← peek with
      | none => pure missing
      | some t =>
        if t == .directive || t == .documentStart || t == .documentEnd then pure missing
        else readNode fuel true false
    else readNode fuel true false
  let s ← get
  if (s.tokens.dropWhile (· == Token.documentEnd)).isEmpty then return d else refuse

def parse? (text : String) : Option Document := do
  let tokens ← tokens? text
  let (d, _) ← (readDocument (4 * tokens.length + 4)).run { tokens }
  some d

end TemporalGraph.Yaml
