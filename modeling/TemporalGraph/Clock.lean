import TemporalGraph.Instant.Text
import TemporalGraph.Outcome
/-!
The clock of a run. All writes of a run share one instant; its reads come `readOffset` seconds
later, so that they see the writes.
-/

namespace TemporalGraph

structure Clock where
  writeInstant : Instant
  readOffset : Int
  deriving DecidableEq

namespace Clock

/-- Offsets of more seconds than this, to either side, are not counted in milliseconds. -/
def offsetLimit : Int := 9223372036854775

def startAt (t : Instant) (readOffset : Int) : Except Fault Clock :=
  if readOffset.natAbs ≤ offsetLimit.natAbs then .ok ⟨t, readOffset⟩ else .error .instantOutOfRange

def readInstant (c : Clock) : Except Fault Instant :=
  match c.writeInstant.addSeconds? c.readOffset with
  | some t => .ok t
  | none => .error .instantOutOfRange

end Clock

end TemporalGraph
