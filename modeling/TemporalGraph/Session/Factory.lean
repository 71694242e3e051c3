import TemporalGraph.Config
import TemporalGraph.Outcome
import TemporalGraph.Statement
/-!
Storage sessions. A session answers a statement with rows or with an error; what it answers may
depend on its state, which it carries from one statement to the next. Of the stores of a
configuration, only that of recording sessions needs no server.
-/

namespace TemporalGraph

structure Reply (σ : Type) where
  events : List Event
  rows : Except Error (List Row)
  state : σ

abbrev Session (σ : Type) := Statement → σ → Reply σ

structure Recording where
  statements : List Statement := []
  responses : List (List Row) := []

namespace Recording

def session : Session Recording := fun s r =>
  let rows := r.responses.headD []
  let report : Event := ⟨.debug, s!"Recorded statement, answering with {rows.length} rows", []⟩
  ⟨[report], .ok rows, ⟨r.statements ++ [s], r.responses.drop 1⟩⟩

def respond (r : Recording) (rows : List Row) : Recording :=
  { r with responses := r.responses ++ [rows] }

end Recording

structure Failing (σ : Type) where
  errors : List Error
  inner : σ

/-- Answer with the next prepared error without passing the statement on; without one, as the
session behind. -/
def Failing.session {σ : Type} (session : Session σ) : Session (Failing σ) := fun s f =>
  match f.errors with
  | e :: es => ⟨[], .error e, { f with errors := es }⟩
  | [] =>
    let reply := session s f.inner
    ⟨reply.events, reply.rows, { f with inner := reply.state }⟩

def StoreConfig.openSession (c : StoreConfig) : Outcome Recording := do
  Outcome.report ⟨.debug, s!"Creating {c.provider.title} session for {c.url}", []⟩
  match c.provider with
  | .recording => return {}
  | .neo4j | .memgraph => Outcome.fail (.unsupportedProvider c.provider.title)

end TemporalGraph
