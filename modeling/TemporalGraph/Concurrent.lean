import TemporalGraph.Runner
/-!
Calls that are executed at the same time. Each call goes through atomic steps, and the steps of
different calls follow one another in any order. Writes to one resource wait for one another at a
mutex, which a table holds as long as some call has a handle to it.
-/

namespace TemporalGraph.Concurrent

abbrev Resource := String × String

/-- How far a call has come. Mutexes are known by their numbers. -/
inductive Stage where
  | ready
  /-- With a handle to the mutex. -/
  | waiting (mutex : Nat)
  | holding (mutex : Nat)
  /-- Behind the answer, with the mutex still held. -/
  | answered (mutex : Nat)
  | released (mutex : Nat)
  | done
  deriving Repr, DecidableEq

namespace Stage

def handle? : Stage → Option Nat
  | waiting m | holding m | answered m | released m => some m
  | ready | done => none

def isRunning : Stage → Bool
  | holding _ | answered _ => true
  | _ => false

end Stage

structure Task where
  prepared : Except Error Statement
  resource : Option Resource
  stage : Stage := .ready
  answer : Option Answer := none

def Task.ofCall (schema : VersionedSchema) (call : Call) (t : Instant) : Outcome Task := do
  let prepared ← (Runner.prepare schema call t).attempt
  let resource := match Runner.versionedCall schema.config call t with
    | .ok call => Runner.writeKey? schema call
    | .error _ => none
  return { prepared, resource }

/-- The calls and what they share: the session, the statements that it received, the table of
mutexes, the mutexes that are locked, and the number of the next new one. -/
structure State (σ : Type) where
  session : σ
  tasks : List Task
  submitted : List Statement := []
  table : List (Resource × Nat) := []
  locked : List Nat := []
  fresh : Nat := 0

namespace State

variable {σ : Type}

def setTask (s : State σ) (i : Nat) (task : Task) : State σ :=
  { s with tasks := s.tasks.set i task }

def mutex? (s : State σ) (r : Resource) : Option Nat :=
  (s.table.find? fun e => e.1 == r).map Prod.snd

def handles (s : State σ) (mutex : Nat) : Nat :=
  s.tasks.countP fun task => task.stage.handle? == some mutex

def submit (session : Session σ) (i : Nat) (task : Task) (statement : Statement) (stage : Stage)
    (s : State σ) : State σ :=
  let reply := session statement s.session
  let s := s.setTask i { task with stage, answer := some reply.rows }
  { s with session := reply.state, submitted := s.submitted ++ [statement] }

def enter (i : Nat) (task : Task) (r : Resource) (s : State σ) : State σ :=
  match s.mutex? r with
  | some m => s.setTask i { task with stage := .waiting m }
  | none =>
    let s := s.setTask i { task with stage := .waiting s.fresh }
    { s with table := s.table ++ [(r, s.fresh)], fresh := s.fresh + 1 }

/-- Drop the handle, and the entry of the table if nothing else holds its mutex. -/
def leave (i : Nat) (task : Task) (s : State σ) : State σ :=
  let s := s.setTask i { task with stage := .done }
  match task.resource with
  | none => s
  | some r =>
    if (s.mutex? r).any fun m => s.handles m = 0 then
      { s with table := s.table.filter fun e => e.1 != r }
    else s

/-- The next atomic step of a call. A call that is done, or that waits for a locked mutex, has
none. -/
def step (session : Session σ) (i : Nat) (s : State σ) : Option (State σ) :=
  match s.tasks[i]? with
  | none => none
  | some task =>
    match task.stage, task.prepared with
    | .ready, .error e => some (s.setTask i { task with stage := .done, answer := some (.error e) })
    | .ready, .ok statement =>
      match task.resource with
      | none => some (s.submit session i task statement .done)
      | some r => some (s.enter i task r)
    | .waiting m, _ =>
      if s.locked.contains m then none
      else
        let s := s.setTask i { task with stage := .holding m }
        some { s with locked := m :: s.locked }
    | .holding m, .ok statement => some (s.submit session i task statement (.answered m))
    | .holding m, .error _ => some (s.setTask i { task with stage := .answered m })
    | .answered m, _ =>
      let s := s.setTask i { task with stage := .released m }
      some { s with locked := s.locked.filter (· != m) }
    | .released _, _ => some (s.leave i task)
    | .done, _ => none

def run (session : Session σ) (schedule : List Nat) (s : State σ) : Option (State σ) :=
  schedule.foldlM (fun s i => s.step session i) s

def isDone (s : State σ) : Bool := s.tasks.all fun task => task.stage = .done

def answers? (s : State σ) : Option (List Answer) := s.tasks.mapM Task.answer

end State

def start {σ : Type} (schema : VersionedSchema) (calls : List (Call × Instant)) (session : σ) :
    Outcome (State σ) := do
  let tasks ← calls.mapM fun (call, t) => Task.ofCall schema call t
  return { session, tasks }

end TemporalGraph.Concurrent
