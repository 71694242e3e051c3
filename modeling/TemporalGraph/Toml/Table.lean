import TemporalGraph.Document.Basic
/-!
Tables that a text defines piece by piece. How a table came to be tells what may be added to it: no
key is defined twice, and a table is defined by one header or by dotted keys, not by both.
-/

namespace TemporalGraph.Toml

/-- How a table came to be. -/
inductive Origin where
  /-- By a header of its own. -/
  | header
  /-- By a header of a table inside it. -/
  | path
  /-- By a dotted key. -/
  | dotted
  deriving Repr, DecidableEq

inductive Node where
  | leaf (d : Document)
  | table (origin : Origin) (entries : List (String × Node))
  /-- The tables under one repeated header. -/
  | tables (items : List (List (String × Node)))

abbrev Entries := List (String × Node)

namespace Entries

def get? (es : Entries) (key : String) : Option Node := (es.find? fun e => e.1 == key).map Prod.snd

def put (es : Entries) (key : String) (n : Node) : Entries :=
  if (get? es key).isSome then es.map fun e => if e.1 == key then (key, n) else e
  else es ++ [(key, n)]

/-- Change the table at the end of a path of keys. Missing tables on the way come to be as `origin`;
of repeated tables the last one is meant. A dotted key does not go through a table with a header. -/
def change (origin : Origin) (f : Origin → Entries → Option Entries) :
    List String → Origin → Entries → Option Entries
  | [], here, es => f here es
  | key :: keys, _, es =>
    match get? es key with
    | none => do
      let inner ← change origin f keys origin []
      return put es key (.table origin inner)
    | some (.leaf _) => none
    | some (.table there inner) =>
      if origin = .dotted && there = .header then none
      else do
        let inner ← change origin f keys there inner
        return put es key (.table there inner)
    | some (.tables items) => do
      let inner ← change origin f keys .header (items.getLast?.getD [])
      return put es key (.tables (items.dropLast ++ [inner]))

def openTable (path : List String) (key : String) (root : Entries) : Option Entries :=
  change .path (fun _ es =>
    match get? es key with
    | none => some (put es key (.table .header []))
    | some (.table .path inner) => some (put es key (.table .header inner))
    | some _ => none) path .header root

def addTable (path : List String) (key : String) (root : Entries) : Option Entries :=
  change .path (fun _ es =>
    match get? es key with
    | none => some (put es key (.tables [[]]))
    | some (.tables items) => some (put es key (.tables (items ++ [[]])))
    | some _ => none) path .header root

def define (path : List String) (key : String) (d : Document) (es : Entries) : Option Entries :=
  change .dotted (fun origin es =>
    if (path.isEmpty || origin = .dotted) && (get? es key).isNone then some (put es key (.leaf d))
    else none) path .header es

def defineAt (current path : List String) (key : String) (d : Document) (root : Entries) :
    Option Entries :=
  change .path (fun _ es => define path key d es) current .header root

end Entries

mutual

def Node.document : Node → Document
  | .leaf d => d
  | .table _ es => .table (documents es)
  | .tables items => .list (lists items)

def documents : List (String × Node) → List (String × Document)
  | [] => []
  | (key, n) :: es => (key, n.document) :: documents es

def lists : List (List (String × Node)) → List Document
  | [] => []
  | es :: items => .table (documents es) :: lists items

end

end TemporalGraph.Toml
