import TemporalGraph.Text.Blank
/-!
The steps of reading a regular expression: what is still to be read, the flags that are set, and the
groups that were met.
-/

namespace TemporalGraph.Regex

structure Flags where
  anyCase : Bool := false
  multiLine : Bool := false
  dotAll : Bool := false
  swapGreed : Bool := false
  unicode : Bool := true
  crlf : Bool := false
  verbose : Bool := false

structure ReaderState where
  rest : List Char
  flags : Flags := {}
  groups : Nat := 1
  names : List String := []

abbrev Reader := StateT ReaderState Option

namespace Reader

def peek : Reader (Option Char) := fun s => some (s.rest.head?, s)

def drop (n : Nat) : Reader Unit := fun s => some ((), { s with rest := s.rest.drop n })

def next : Reader Char := fun s =>
  match s.rest with
  | c :: cs => some (c, { s with rest := cs })
  | [] => none

def refuse {α : Type} : Reader α := fun _ => none

def flags : Reader Flags := fun s => some (s.flags, s)

def setFlags (flags : Flags) : Reader Unit := fun s => some ((), { s with flags })

def accept (text : String) : Reader Bool := fun s =>
  if text.toList.isPrefixOf s.rest then some (true, { s with rest := s.rest.drop text.length })
  else some (false, s)

def isNext (text : String) : Reader Bool := fun s => some (text.toList.isPrefixOf s.rest, s)

/-- A text without the blanks and comments at its front. `inComment` tells whether a comment goes
on. -/
def withoutComments (inComment : Bool) : List Char → List Char
  | [] => []
  | c :: cs =>
    if inComment then withoutComments (c != '\n') cs
    else if Text.isBlank c then withoutComments false cs
    else if c = '#' then withoutComments true cs
    else c :: cs

/-- In verbose expressions blanks and comments stand for nothing. -/
def skipSpace : Reader Unit := fun s =>
  some ((), if s.flags.verbose then { s with rest := withoutComments false s.rest } else s)

def newGroup : Reader Nat := fun s => some (s.groups, { s with groups := s.groups + 1 })

def newName (name : String) : Reader Unit := fun s =>
  if s.names.contains name then none else some ((), { s with names := name :: s.names })

def takeWhile (p : Char → Bool) : Reader (List Char) := fun s =>
  some (s.rest.takeWhile p, { s with rest := s.rest.dropWhile p })

end Reader

end TemporalGraph.Regex
