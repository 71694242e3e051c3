import TemporalGraph.Error
import TemporalGraph.Regex.Match
import TemporalGraph.Regex.Reader
import TemporalGraph.Text.Search
/-!
Replacing what one group of one match stands for. Matches are counted from 1.
-/

namespace TemporalGraph.Regex

namespace Span

def inBytes (s : Span) (text : List Char) : Span :=
  ⟨Text.byteLength (text.take s.start), Text.byteLength (text.take s.stop)⟩

def replace (s : Span) (text replacement : List Char) : List Char :=
  text.take s.start ++ replacement ++ text.drop s.stop

end Span

namespace Expr

def ofText (text : String) : Except Error Expr :=
  match readExpr? text with
  | some (e, _) => .ok e
  | none => .error (.internal ("invalid rewrite pattern: " ++ text))

def groupSpan? (e : Expr) (text : List Char) (group : Nat) : (occurrence : Nat) → Option Span
  | 0 => none
  | i + 1 => (e.firstMatches text.toArray (i + 1))[i]?.bind fun m => m.group? group

def tryReplaceGroup (e : Expr) (text : List Char) (group occurrence : Nat)
    (replacement : List Char) : Option (List Char) :=
  (e.groupSpan? text group occurrence).map fun s => s.replace text replacement

def replaceGroup (e : Expr) (text : List Char) (group occurrence : Nat) (replacement : List Char) :
    List Char :=
  (e.tryReplaceGroup text group occurrence replacement).getD text

end Expr

end TemporalGraph.Regex
