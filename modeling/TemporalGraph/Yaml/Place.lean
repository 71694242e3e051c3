/-!
Places in a text, by index, line and column, and the runs of spaces and line breaks between words.
-/

namespace TemporalGraph.Yaml

structure Mark where
  index : Nat := 0
  line : Nat := 0
  column : Nat := 0

def Mark.behind (m : Mark) (c : Char) : Mark :=
  if c = '\n' then ⟨m.index + 1, m.line + 1, 0⟩ else ⟨m.index + 1, m.line, m.column + 1⟩

structure Place where
  rest : List Char
  mark : Mark := {}

def isBreak (c : Char) : Bool := c = '\n' || c = '\r'

def isBlank (c : Char) : Bool := c = ' ' || c = '\t'

def isSpace (c : Char) : Bool := isBlank c || isBreak c

def endsWord (cs : List Char) : Bool := cs.head?.all isSpace

namespace Place

def column (p : Place) : Nat := p.mark.column

def peek (p : Place) : Option Char := p.rest.head?

def next (p : Place) : Place :=
  match p.rest with
  | [] => p
  | c :: cs => ⟨cs, p.mark.behind c⟩

def behind (p : Place) (text : List Char) : Place :=
  ⟨p.rest.drop text.length, text.foldl Mark.behind p.mark⟩

def takeWhile (p : Place) (f : Char → Bool) : List Char × Place :=
  let run := p.rest.takeWhile f
  (run, p.behind run)

def skipWhile (p : Place) (f : Char → Bool) : Place := (p.takeWhile f).2

def beginsLine (p : Place) (word : List Char) : Bool :=
  p.column = 0 && p.rest.take 3 == word && endsWord (p.rest.drop 3)

def atDocumentMark (p : Place) : Bool :=
  p.beginsLine ['-', '-', '-'] || p.beginsLine ['.', '.', '.']

end Place

structure Gap where
  blanks : List Char := []
  breaks : Nat := 0

/-- What a gap stands for inside a scalar: a single break is a blank, and of more breaks the first
is dropped. -/
def Gap.text (g : Gap) : List Char :=
  if g.breaks = 0 then g.blanks
  else if g.breaks = 1 then [' ']
  else List.replicate (g.breaks - 1) '\n'

/-- The gap at the front of a text. Behind a line break no tab stands before column `margin`. -/
def readGap (margin : Nat) : List Char → Mark → Gap → Option (Gap × Place)
  | [], m, g => some (g, ⟨[], m⟩)
  | c :: cs, m, g =>
    if isBreak c then readGap margin cs (m.behind c) { g with breaks := g.breaks + 1 }
    else if !isBlank c then some (g, ⟨c :: cs, m⟩)
    else if g.breaks = 0 then readGap margin cs (m.behind c) { g with blanks := g.blanks ++ [c] }
    else if c = '\t' && m.column < margin then none
    else readGap margin cs (m.behind c) g

end TemporalGraph.Yaml
