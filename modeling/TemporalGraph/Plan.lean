import TemporalGraph.Plan.Attach
import TemporalGraph.Plan.Create
import TemporalGraph.Plan.Read
/-! How the statement of one field is made to respect versions. -/

namespace TemporalGraph

inductive Plan where
  | read (typeName : String)
  | create (typeName : String)
  | attach (target : String)
  | unsupported
  deriving Repr, DecidableEq

namespace Plan

def name : Plan → String
  | read _ => "read"
  | create _ => "create"
  | attach _ => "attach"
  | unsupported => "unsupported"

def typeName? : Plan → Option String
  | read t | create t | attach t => some t
  | unsupported => none

/-- The versioned form of what `resolve` answers; a refused call is not resolved. -/
def apply (p : Plan) (call : Call) (resolve : Call → Except Error Statement) (c : Config) :
    Outcome Statement := do
  match p with
  | read t => Read.apply t call (← Outcome.ofExcept (resolve call)) c
  | create t => Create.apply t call (← Outcome.ofExcept (resolve call)) c
  | attach t => Attach.apply t call (← Outcome.ofExcept (resolve call)) c
  | unsupported =>
    Outcome.fail (.unsupported call.field "only create and add mutations are versioned")

end Plan

end TemporalGraph
