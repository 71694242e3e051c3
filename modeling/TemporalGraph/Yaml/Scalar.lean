import TemporalGraph.Text.Escape
import TemporalGraph.Yaml.Place
/-!
Scalars: plain ones, which end where the structure goes on; quoted ones; and block scalars, whose
lines are kept or folded.
-/

namespace TemporalGraph.Yaml

def isFlowIndicator (c : Char) : Bool :=
  c = ',' || c = '[' || c = ']' || c = '\x7b' || c = '\x7d'

/-- A word of a plain scalar at the front of a text. A colon belongs to it unless the word ends
there. -/
def plainWord (inFlow : Bool) : List Char → List Char
  | [] => []
  | c :: cs =>
    let ends := isSpace c || (inFlow && isFlowIndicator c)
      || (c = ':' && (endsWord cs || (inFlow && cs.head?.any isFlowIndicator)))
    if ends then [] else c :: plainWord inFlow cs

/-- The rest of a plain scalar whose words so far make `text`, with `gap` before the next one. The
flag tells whether a line break was met behind the last word. In a block, lines before column
`margin` do not belong to the scalar. -/
def plainFrom (inFlow : Bool) (margin : Nat) : Nat → Place → List Char → Gap →
    Option (List Char × Bool × Place)
  | 0, _, _, _ => none
  | fuel + 1, p, text, gap =>
    if p.atDocumentMark || p.peek == some '#' then some (text, 0 < gap.breaks, p)
    else
      let word := plainWord inFlow p.rest
      let (text, gap) := if word.isEmpty then (text, gap) else (text ++ gap.text ++ word, {})
      let p := p.behind word
      if p.rest.isEmpty || !endsWord p.rest then some (text, 0 < gap.breaks, p)
      else do
        let (gap, p) ← readGap margin p.rest p.mark gap
        if !inFlow && p.column < margin then some (text, 0 < gap.breaks, p)
        else plainFrom inFlow margin fuel p text gap

def readPlain (inFlow : Bool) (margin size : Nat) (p : Place) :
    Option (List Char × Bool × Place) :=
  plainFrom inFlow margin size p [] {}

def singleQuoted : Nat → Place → Option (List Char × Place)
  | 0, _ => none
  | fuel + 1, p =>
    if p.atDocumentMark then none
    else
      match p.rest with
      | [] => none
      | '\'' :: '\'' :: _ =>
        (singleQuoted fuel p.next.next).map fun (text, p) => ('\'' :: text, p)
      | '\'' :: _ => some ([], p.next)
      | c :: cs =>
        if isSpace c then do
          let (gap, p) ← readGap 0 (c :: cs) p.mark {}
          let (text, p) ← singleQuoted fuel p
          some (gap.text ++ text, p)
        else (singleQuoted fuel p.next).map fun (text, p) => (c :: text, p)

def unescape? (c : Char) : Option Char :=
  match c with
  | '0' => some '\x00'
  | 'a' => some '\x07'
  | 'b' => some '\x08'
  | 't' | '\t' => some '\t'
  | 'n' => some '\n'
  | 'v' => some '\x0b'
  | 'f' => some '\x0c'
  | 'r' => some '\r'
  | 'e' => some '\x1b'
  | ' ' | '"' | '\'' | '\\' => some c
  | 'N' => some '\u0085'
  | '_' => some '\u00a0'
  | 'L' => some '\u2028'
  | 'P' => some '\u2029'
  | _ => none

def hexWidth? (c : Char) : Option Nat :=
  match c with
  | 'x' => some 2
  | 'u' => some 4
  | 'U' => some 8
  | _ => none

def doubleQuoted : Nat → Place → Option (List Char × Place)
  | 0, _ => none
  | fuel + 1, p =>
    if p.atDocumentMark then none
    else
      match p.rest with
      | [] => none
      | '"' :: _ => some ([], p.next)
      | '\\' :: e :: cs =>
        if isBreak e then do
          let start := p.next.next
          let (gap, p) ← readGap 0 start.rest start.mark { breaks := 1 }
          let (text, p) ← doubleQuoted fuel p
          some (List.replicate (gap.breaks - 1) '\n' ++ text, p)
        else
          match hexWidth? e with
          | some width => do
            let ds := cs.take width
            if ds.length < width then none
            let c ← Text.charOfHex? ds
            let (text, p) ← doubleQuoted fuel (p.behind ('\\' :: e :: ds))
            some (c :: text, p)
          | none => do
            let c ← unescape? e
            let (text, p) ← doubleQuoted fuel p.next.next
            some (c :: text, p)
      | '\\' :: [] => none
      | c :: cs =>
        if isSpace c then do
          let (gap, p) ← readGap 0 (c :: cs) p.mark {}
          let (text, p) ← doubleQuoted fuel p
          some (gap.text ++ text, p)
        else (doubleQuoted fuel p.next).map fun (text, p) => (c :: text, p)

inductive Chomping where
  | strip
  | clip
  | keep

def blockHeader? (p : Place) : Option (Chomping × Nat × Place) :=
  let chomping? (p : Place) : Option (Chomping × Place) :=
    match p.peek with
    | some '+' => some (.keep, p.next)
    | some '-' => some (.strip, p.next)
    | _ => none
  let width? (p : Place) : Option (Nat × Place) :=
    match p.peek with
    | some c =>
      if c = '0' then none
      else if c.isDigit then some (c.toNat - 48, p.next)
      else some (0, p)
    | none => some (0, p)
  match chomping? p with
  | some (chomping, p) => (width? p).map fun (width, p) => (chomping, width, p)
  | none => do
    let (width, p) ← width? p
    match if width = 0 then none else chomping? p with
    | some (chomping, p) => some (chomping, width, p)
    | none => some (.clip, width, p)

/-- Line breaks and the indentation behind them, up to column `indent`, or as far as it goes if that
is 0; also the widest indentation met. -/
def blockBreaks (indent : Nat) : List Char → Mark → Nat → Nat → Option (Nat × Nat × Place)
  | [], m, breaks, widest => some (breaks, max widest m.column, ⟨[], m⟩)
  | c :: cs, m, breaks, widest =>
    let isMargin := indent = 0 || m.column < indent
    if c = ' ' && isMargin then blockBreaks indent cs (m.behind c) breaks widest
    else
      let widest := max widest m.column
      if c = '\t' && isMargin then none
      else if isBreak c then blockBreaks indent cs (m.behind c) (breaks + 1) widest
      else some (breaks, widest, ⟨c :: cs, m⟩)

/-- Lines of a block scalar. `pending` is the number of breaks (0 or 1) that end the last line,
`empty` the number of empty lines behind it, and `indented` tells whether it began with a blank. -/
def blockLines (literal : Bool) (chomping : Chomping) (indent : Nat) : Nat → Place → List Char →
    (pending empty : Nat) → (indented : Bool) → Option (List Char × Place)
  | 0, _, _, _, _, _ => none
  | fuel + 1, p, text, pending, empty, indented =>
    let breaks (n : Nat) : List Char := List.replicate n '\n'
    let finish (pending empty : Nat) (text : List Char) (p : Place) : List Char × Place :=
      match chomping with
      | .strip => (text, p)
      | .clip => (text ++ breaks pending, p)
      | .keep => (text ++ breaks pending ++ breaks empty, p)
    match p.rest with
    | [] => some (finish pending empty text p)
    | c :: _ =>
      if p.column != indent then some (finish pending empty text p)
      else
        let folds := !literal && 0 < pending && !indented && !isBlank c
        let joint := if folds then (if empty = 0 then [' '] else []) else breaks pending
        let (line, p) := p.takeWhile fun c => !isBreak c
        let text := text ++ joint ++ breaks empty ++ line
        if p.rest.isEmpty then some (finish 0 0 text p)
        else do
          let p := p.next
          let (empty, _, p) ← blockBreaks indent p.rest p.mark 0 0
          blockLines literal chomping indent fuel p text 1 empty (isBlank c)

def readBlockScalar (literal : Bool) (parent : Int) (size : Nat) (p : Place) :
    Option (List Char × Place) := do
  let (chomping, width, p) ← blockHeader? p
  let p := p.skipWhile isBlank
  let p := if p.peek == some '#' then p.skipWhile fun c => !isBreak c else p
  if !p.rest.isEmpty && !p.peek.any isBreak then none
  let p := p.next
  let given := if width = 0 then 0 else if 0 ≤ parent then parent.toNat + width else width
  let (empty, widest, p) ← blockBreaks given p.rest p.mark 0 0
  let indent := if given = 0 then max (max widest (parent + 1).toNat) 1 else given
  blockLines literal chomping indent size p [] 0 empty false

end TemporalGraph.Yaml
