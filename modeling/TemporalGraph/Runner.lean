import TemporalGraph.Clock
import TemporalGraph.Session.Factory
import TemporalGraph.Timeline
import TemporalGraph.VersionedSchema
/-!
Runs of calls against a session. The mutations of a run share its write instant and its queries the
read instant, unless a call brings a version of its own. An error of one call does not stop the
others.
-/

namespace TemporalGraph

abbrev Answer := Except Error (List Row)

structure Runner where
  schema : VersionedSchema
  clock : Clock

namespace Runner

def instantValue (t : Instant) : Json.Value := .string t.toText

def normalizeParam (params : Params) (key : String) : Except Error Params :=
  match params.get? key with
  | some v => do return params.set key (← Instant.normalize v)
  | none => .ok params

/-- The call with its versions in the stored form, and at `t` unless it has a version. -/
def versionedCall (c : Config) (call : Call) (t : Instant) : Except Error Call := do
  let params ← normalizeParam call.params c.versionParam
  let params ← normalizeParam params c.versionArgument
  return { call with params := params.setIfAbsent c.versionParam (instantValue t) }

def prepare (schema : VersionedSchema) (call : Call) (t : Instant) : Outcome Statement := do
  let c := schema.config
  let call ← Outcome.ofExcept (versionedCall c call t)
  let s ← schema.resolve call
  match call.params.get? c.versionParam with
  | some version => return s.setParamIfAbsent c.versionParam version
  | none => return s

variable {σ : Type}

def submit (session : Session σ) (s : Statement) (state : σ) : Outcome (Answer × σ) :=
  let reply := session s state
  ⟨reply.events, .ok (reply.rows, reply.state)⟩

def execute (schema : VersionedSchema) (session : Session σ) (call : Call) (t : Instant)
    (state : σ) : Outcome (Answer × σ) := do
  match ← (prepare schema call t).attempt with
  | .error e => return (.error e, state)
  | .ok s =>
    Outcome.report ⟨.debug, s!"Executing: {s.display}", [("field", call.field)]⟩
    submit session s state

def executeAll (schema : VersionedSchema) (session : Session σ) :
    List (Call × Instant) → σ → Outcome (List Answer × σ)
  | [], state => return ([], state)
  | (call, t) :: rest, state => do
    let (answer, state) ← execute schema session call t state
    let (answers, state) ← executeAll schema session rest state
    return (answer :: answers, state)

def runAt (r : Runner) (session : Session σ) (calls : List Call) (t : Instant) (state : σ) :
    Outcome (List Answer × σ) :=
  executeAll r.schema session (calls.map fun call => (call, t)) state

def runMutations (r : Runner) (session : Session σ) (calls : List Call) (state : σ) :
    Outcome (List Answer × σ) := do
  Outcome.report ⟨.info, s!"Running {calls.length} mutations", []⟩
  r.runAt session calls r.clock.writeInstant state

def runQueries (r : Runner) (session : Session σ) (calls : List Call) (state : σ) :
    Outcome (List Answer × σ) := do
  Outcome.report ⟨.info, s!"Running {calls.length} queries", []⟩
  match r.clock.readInstant with
  | .ok t => r.runAt session calls t state
  | .error f => Outcome.fault f

def auditStatement (c : Config) (typeName id : String) : Statement :=
  let resource := c.labels.resourceLabels typeName
  let edge := c.labels.versionEdge
  let query := s!"MATCH (r:{resource} \x7bid: $id\x7d)<-[v:{edge}]-() "
    ++ "RETURN v.from AS from, v.to AS to ORDER BY v.from"
  (⟨query, .empty⟩ : Statement).setParam "id" (.string id)

def displayValue : Json.Value → String
  | .null => "Null"
  | .bool b => if b then "Bool(true)" else "Bool(false)"
  | .number n => "Number(" ++ String.ofList n.render ++ ")"
  | .string s => "String(" ++ Text.literal s ++ ")"
  | .array items => "Array [" ++ ", ".intercalate (displayItems items) ++ "]"
  | .object members => "Object \x7b" ++ ", ".intercalate (displayMembers members) ++ "\x7d"
where
  displayItems : List Json.Value → List String
    | [] => []
    | v :: vs => displayValue v :: displayItems vs
  displayMembers : List (String × Json.Value) → List String
    | [] => []
    | (key, v) :: ms => (Text.literal key ++ ": " ++ displayValue v) :: displayMembers ms

def displayOptional : Option Json.Value → String
  | none => "None"
  | some v => "Some(" ++ displayValue v ++ ")"

/-- The window that a row describes. It has the start as text, and the end as text unless it is
open. -/
def windowOfRow (row : Row) : Except Error Window := do
  let start ← match row.get? "from" with
    | some (.string s) => Instant.ofText s
    | other =>
      .error (.internal ("version edge without a valid 'from': " ++ displayOptional other))
  match row.get? "to" with
  | none | some .null => return ⟨start, none⟩
  | some (.string s) => return ⟨start, some (← Instant.ofText s)⟩
  | some other => .error (.internal ("version edge with invalid 'to': " ++ other.toText))

def timelineOfRows (rows : List Row) : Except Error Timeline := do
  let tl := Timeline.ofWindows (← rows.mapM windowOfRow)
  tl.validate
  return tl

def audit (c : Config) (session : Session σ) (typeName id : String) (state : σ) :
    Outcome (Except Error Timeline × σ) := do
  let (answer, state) ← submit session (auditStatement c typeName id) state
  match answer.bind timelineOfRows with
  | .error e => return (.error e, state)
  | .ok tl =>
    Outcome.report
      ⟨.debug, s!"Audited {typeName} '{id}': {tl.windows.length} versions", []⟩
    return (.ok tl, state)

def writeKey? (schema : VersionedSchema) (call : Call) : Option (String × String) :=
  if schema.config.serializeWrites then
    match schema.plan? call.field, call.params.get? "id" with
    | some (.create typeName), some (.string id) => some (typeName, id)
    | some (.create typeName), some id => some (typeName, id.toText)
    | _, _ => none
  else none

end Runner

end TemporalGraph
