import Mathlib.Algebra.Order.Ring.Nat
import TemporalGraph.Proofs.Concurrent.Exclusion
import TemporalGraph.Proofs.Runner.Batch
/-!
What calls that are executed at the same time come to. Main statement: if the answer to a statement
depends on the statement alone, then every schedule can be completed, and whichever one is, the
calls have the answers that they have one after another, and the session receives the same
statements.
-/

namespace TemporalGraph.Concurrent

namespace Stage

def rank : Stage → Nat
  | ready => 5
  | waiting _ => 4
  | holding _ => 3
  | answered _ => 2
  | released _ => 1
  | done => 0

def hasAnswer : Stage → Bool
  | answered _ | released _ | done => true
  | _ => false

def isPending : Stage → Bool
  | waiting _ | holding _ => true
  | _ => false

end Stage

namespace Task

def sent? (task : Task) : Option Statement :=
  if task.stage.hasAnswer then task.prepared.toOption else none

/-- A call has an answer from its stage on, the one to its statement or its own error; and a call on
its way has a statement. -/
structure Sound (reply : Statement → Answer) (task : Task) : Prop where
  answer : task.answer = if task.stage.hasAnswer then some (task.prepared.bind reply) else none
  pending : task.stage.isPending → ∃ statement, task.prepared = .ok statement

inductive Move {σ : Type} (session : Session σ) (state : σ) :
    Task → Task → Option Statement → Prop where
  | refuse {resource : Option Resource} {answer : Option Answer} {e : Error} :
      Move session state ⟨.error e, resource, .ready, answer⟩
        ⟨.error e, resource, .done, some (.error e)⟩ none
  | submit {statement : Statement} {answer : Option Answer} :
      Move session state ⟨.ok statement, none, .ready, answer⟩
        ⟨.ok statement, none, .done, some (session statement state).rows⟩ (some statement)
  | enter {statement : Statement} {r : Resource} {answer : Option Answer} (m : Nat) :
      Move session state ⟨.ok statement, some r, .ready, answer⟩
        ⟨.ok statement, some r, .waiting m, answer⟩ none
  | acquire {prepared : Except Error Statement} {resource : Option Resource}
      {answer : Option Answer} {m : Nat} :
      Move session state ⟨prepared, resource, .waiting m, answer⟩
        ⟨prepared, resource, .holding m, answer⟩ none
  | submitHolding {statement : Statement} {resource : Option Resource} {answer : Option Answer}
      {m : Nat} :
      Move session state ⟨.ok statement, resource, .holding m, answer⟩
        ⟨.ok statement, resource, .answered m, some (session statement state).rows⟩ (some statement)
  | skip {resource : Option Resource} {answer : Option Answer} {e : Error} {m : Nat} :
      Move session state ⟨.error e, resource, .holding m, answer⟩
        ⟨.error e, resource, .answered m, answer⟩ none
  | release {prepared : Except Error Statement} {resource : Option Resource}
      {answer : Option Answer} {m : Nat} :
      Move session state ⟨prepared, resource, .answered m, answer⟩
        ⟨prepared, resource, .released m, answer⟩ none
  | leave {prepared : Except Error Statement} {resource : Option Resource}
      {answer : Option Answer} {m : Nat} :
      Move session state ⟨prepared, resource, .released m, answer⟩
        ⟨prepared, resource, .done, answer⟩ none

namespace Move

variable {σ : Type} {session : Session σ} {state : σ} {a b : Task} {sent : Option Statement}

theorem rank_lt (h : Move session state a b sent) : b.stage.rank < a.stage.rank := by
  cases h <;> simp [Stage.rank]

theorem prepared_eq (h : Move session state a b sent) : b.prepared = a.prepared := by
  cases h <;> rfl

theorem sent?_eq {reply : Statement → Answer} (h : Move session state a b sent)
    (ha : a.Sound reply) : b.sent?.toList = a.sent?.toList ++ sent.toList := by
  cases h with
  | skip =>
    obtain ⟨statement, hs⟩ := ha.pending rfl
    cases hs
  | acquire => rfl
  | release => exact (List.append_nil _).symm
  | leave => exact (List.append_nil _).symm
  | _ => rfl

theorem sound {reply : Statement → Answer}
    (hreply : ∀ statement state, (session statement state).rows = reply statement)
    (h : Move session state a b sent) (ha : a.Sound reply) : b.Sound reply := by
  cases h with
  | refuse => exact ⟨rfl, nofun⟩
  | submit => exact ⟨congrArg some (hreply _ _), nofun⟩
  | enter m => exact ⟨ha.answer, fun _ => ⟨_, rfl⟩⟩
  | acquire => exact ⟨ha.answer, fun _ => ha.pending rfl⟩
  | submitHolding => exact ⟨congrArg some (hreply _ _), nofun⟩
  | skip =>
    obtain ⟨statement, hs⟩ := ha.pending rfl
    cases hs
  | release => exact ⟨ha.answer, nofun⟩
  | leave => exact ⟨ha.answer, nofun⟩

end Move

end Task

namespace State

variable {σ : Type} {session : Session σ} {s s' : State σ} {i : Nat}

structure Moved (session : Session σ) (s s' : State σ) (a b : Task) (sent : Option Statement)
    (left right : List Task) : Prop where
  before : s.tasks = left ++ a :: right
  after : s'.tasks = left ++ b :: right
  submitted : s'.submitted = s.submitted ++ sent.toList
  move : a.Move session s.session b sent

theorem leave_submitted (s : State σ) (i : Nat) (task : Task) :
    (s.leave i task).submitted = s.submitted := by
  unfold leave
  dsimp only
  split
  · rfl
  · split <;> rfl

theorem leave_tasks (s : State σ) (i : Nat) (task : Task) :
    (s.leave i task).tasks = s.tasks.set i { task with stage := .done } := by
  unfold leave
  dsimp only
  split
  · rfl
  · split <;> rfl

theorem enter_submitted (s : State σ) (i : Nat) (task : Task) (r : Resource) :
    (s.enter i task r).submitted = s.submitted := by
  unfold enter
  split <;> rfl

theorem exists_enter_tasks (s : State σ) (i : Nat) (task : Task) (r : Resource) :
    ∃ m, (s.enter i task r).tasks = s.tasks.set i { task with stage := .waiting m } := by
  unfold enter
  split
  · exact ⟨_, rfl⟩
  · exact ⟨_, rfl⟩

theorem moved_of_set {a b : Task} {sent : Option Statement} (hi : s.tasks[i]? = some a)
    (ht : s'.tasks = s.tasks.set i b) (hs : s'.submitted = s.submitted ++ sent.toList)
    (h : a.Move session s.session b sent) :
    ∃ a b sent left right, Moved session s s' a b sent left right := by
  obtain ⟨hlt, rfl⟩ := List.getElem?_eq_some_iff.1 hi
  obtain ⟨left, right, hbefore, -, hafter⟩ := @List.exists_of_set _ i b s.tasks hlt
  exact ⟨_, b, sent, left, right, hbefore, ht.trans hafter, hs, h⟩

theorem moved_of_step (h : s.step session i = some s') :
    ∃ a b sent left right, Moved session s s' a b sent left right := by
  cases step_cases h with
  | refuse hi => exact moved_of_set hi rfl (List.append_nil _).symm .refuse
  | submit hi => exact moved_of_set hi rfl rfl .submit
  | @enter statement r answer hi =>
    obtain ⟨m, hm⟩ := s.exists_enter_tasks i ⟨.ok statement, some r, .ready, answer⟩ r
    exact moved_of_set hi hm ((enter_submitted ..).trans (List.append_nil _).symm) (.enter m)
  | acquire hi hm => exact moved_of_set hi rfl (List.append_nil _).symm .acquire
  | submitHolding hi => exact moved_of_set hi rfl rfl .submitHolding
  | skip hi => exact moved_of_set hi rfl (List.append_nil _).symm .skip
  | release hi => exact moved_of_set hi rfl (List.append_nil _).symm .release
  | leave hi =>
    exact moved_of_set hi (leave_tasks ..) ((leave_submitted ..).trans (List.append_nil _).symm)
      .leave

/- Every schedule ends. -/

def rank (s : State σ) : Nat := (s.tasks.map fun task => task.stage.rank).sum

theorem rank_lt_of_step (h : s.step session i = some s') : s'.rank < s.rank := by
  obtain ⟨a, b, sent, left, right, hmoved⟩ := moved_of_step h
  have hlt := hmoved.move.rank_lt
  rw [rank, rank, hmoved.before, hmoved.after]
  simp only [List.map_append, List.map_cons, List.sum_append, List.sum_cons]
  omega

theorem run_cons {schedule : List Nat} (h : s.step session i = some s') :
    s.run session (i :: schedule) = s'.run session schedule := by
  rw [run, List.foldlM_cons, h]
  rfl

theorem Exclusive.exists_run (h : Exclusive s) :
    ∃ schedule s', s.run session schedule = some s' ∧ s'.isDone := by
  induction hn : s.rank using Nat.strong_induction_on generalizing s with
  | _ n ih =>
    by_cases hd : s.isDone
    · exact ⟨[], s, rfl, hd⟩
    · obtain ⟨i, u, hu⟩ : ∃ i u, s.step session i = some u := h.exists_step hd
      obtain ⟨before, after, hturn⟩ := turn_of_step hu
      obtain ⟨schedule, s', hrun, hdone⟩ := ih u.rank (hn ▸ rank_lt_of_step hu) (h.turn hturn) rfl
      exact ⟨i :: schedule, s', (run_cons hu).trans hrun, hdone⟩

/- What a schedule submits and answers. -/

/-- The calls are those of `made`, each with its own answer or still without one, and the session
received the statements of those with an answer, each once. -/
structure Faithful (reply : Statement → Answer) (made : List (Except Error Statement))
    (s : State σ) : Prop where
  prepared : s.tasks.map Task.prepared = made
  sound : ∀ task ∈ s.tasks, task.Sound reply
  submitted : s.submitted.Perm (s.tasks.flatMap fun task => task.sent?.toList)

section

variable {reply : Statement → Answer} {made : List (Except Error Statement)}

theorem Faithful.step (hreply : ∀ statement state, (session statement state).rows = reply statement)
    (h : Faithful reply made s) (hs : s.step session i = some s') : Faithful reply made s' := by
  obtain ⟨a, b, sent, left, right, hbefore, hafter, hsubmitted, hmove⟩ := moved_of_step hs
  obtain ⟨hprepared, hsound, hperm⟩ := h
  rw [hbefore] at hprepared hsound hperm
  have ha : a.Sound reply := hsound a (by simp)
  constructor
  · rw [hafter, ← hprepared]
    simp [hmove.prepared_eq]
  · intro task htask
    rw [hafter] at htask
    rcases List.mem_append.1 htask with hl | hr
    · exact hsound task (by simp [hl])
    · rcases List.mem_cons.1 hr with rfl | hr
      · exact hmove.sound hreply ha
      · exact hsound task (by simp [hr])
  · rw [hafter, hsubmitted]
    simp only [List.flatMap_append, List.flatMap_cons] at hperm ⊢
    rw [hmove.sent?_eq ha]
    refine (hperm.append_right _).trans ?_
    simp only [List.append_assoc]
    exact List.perm_append_comm.append_left _ |>.append_left _

theorem Faithful.run (hreply : ∀ statement state, (session statement state).rows = reply statement)
    {schedule : List Nat} (h : Faithful reply made s) (hs : s.run session schedule = some s') :
    Faithful reply made s' := by
  induction schedule generalizing s with
  | nil =>
    obtain rfl := Option.some.inj hs
    exact h
  | cons i schedule ih =>
    obtain ⟨u, hu, hs⟩ := Option.bind_eq_some_iff.1 hs
    exact ih (h.step hreply hu) hs

theorem faithful_of_ready {tasks : List Task} {state : σ}
    (h : ∀ task ∈ tasks, task.stage = .ready ∧ task.answer = none) :
    Faithful reply (tasks.map Task.prepared) ({ session := state, tasks } : State σ) := by
  refine ⟨rfl, fun task ht => ?_, ?_⟩
  · obtain ⟨hs, ha⟩ := h task ht
    exact ⟨by rw [ha, hs]; rfl, by rw [hs]; nofun⟩
  · have hnone : ∀ task ∈ tasks, task.sent?.toList = [] := fun task ht => by
      rw [Task.sent?, (h task ht).1]
      rfl
    rw [List.flatMap_eq_nil_iff.2 hnone]

theorem Faithful.answers?_eq (h : Faithful reply made s) (hd : s.isDone) :
    s.answers? = some (made.map fun p => p.bind reply) := by
  have hanswer : ∀ task ∈ s.tasks, task.answer = some (task.prepared.bind reply) := by
    intro task ht
    have hdone : task.stage = .done := of_decide_eq_true (List.all_eq_true.1 hd task ht)
    rw [(h.sound task ht).answer, hdone]
    rfl
  rw [← h.prepared, List.map_map]
  exact Option.mapM_eq_some_map hanswer

theorem Faithful.submitted_perm (h : Faithful reply made s) (hd : s.isDone) :
    s.submitted.Perm (statementsOf made) := by
  have hsent : ∀ task ∈ s.tasks, task.sent?.toList = task.prepared.toOption.toList := by
    intro task ht
    have hdone : task.stage = .done := of_decide_eq_true (List.all_eq_true.1 hd task ht)
    rw [Task.sent?, hdone]
    rfl
  have hperm := h.submitted
  rw [List.flatMap_congr hsent] at hperm
  rw [statementsOf, ← h.prepared, List.filterMap_map, List.filterMap_eq_flatMap_toList]
  exact hperm

end

end State

variable {σ : Type} {schema : VersionedSchema}

theorem exists_ofCall {call : Call} {t : Instant} {p : Except Error Statement}
    (h : Runner.Prepares schema t call p) :
    ∃ resource, (Task.ofCall schema call t).result = .ok { prepared := p, resource } := by
  rw [Task.ofCall, Outcome.result_bind, h.result_attempt]
  exact ⟨_, rfl⟩

theorem exists_start {calls : List (Call × Instant)} {made : List (Except Error Statement)}
    (h : List.Forall₂ (fun call p => Runner.Prepares schema call.2 call.1 p) calls made)
    (state : σ) :
    ∃ tasks, (start schema calls state).result = .ok { session := state, tasks } ∧
      tasks.map Task.prepared = made ∧
      ∀ task ∈ tasks, task.stage = .ready ∧ task.answer = none := by
  suffices hs : ∃ tasks,
      List.Forall₂ (fun call task => (Task.ofCall schema call.1 call.2).result = .ok task)
        calls tasks ∧
      tasks.map Task.prepared = made ∧
      ∀ task ∈ tasks, task.stage = .ready ∧ task.answer = none by
    obtain ⟨tasks, htasks, hready⟩ := hs
    have hmap := Outcome.mapM_eq_ok_iff.2 htasks
    exact ⟨tasks, Outcome.result_bind_eq_ok_iff.2 ⟨tasks, hmap, rfl⟩, hready⟩
  induction h with
  | nil => exact ⟨[], .nil, rfl, List.forall_mem_nil _⟩
  | cons hp _ ih =>
    obtain ⟨resource, hcall⟩ := exists_ofCall hp
    obtain ⟨tasks, htasks, rfl, hready⟩ := ih
    exact ⟨_ :: tasks, .cons hcall htasks, rfl, List.forall_mem_cons.2 ⟨⟨rfl, rfl⟩, hready⟩⟩

/-- Queries are executed at the same time, their steps in any order, and no create rewrite fails. If
the session answers a statement by the statement alone, then no schedule gets stuck, and one that
ends has the answers of the calls as if they were executed in their order, each in its place, and
the session received the same statements, up to their order. -/
theorem run_start_answers (r : Runner) (session : Session σ) (reply : Statement → Answer)
    (calls : List Call) (t : Instant) (state : σ)
    (hreply : ∀ statement state, (session statement state).rows = reply statement)
    (ht : r.clock.readInstant = .ok t)
    (hp : ∀ call ∈ calls, ¬Runner.CreateFails r.schema call t) :
    ∃ (s₀ : State σ) (answers : List Answer) (state' : σ) (statements : List Statement),
      (start r.schema (calls.map fun call => (call, t)) state).result = .ok s₀ ∧
      (r.runAt session.logged calls t (state, [])).result = .ok (answers, state', statements) ∧
      (r.runQueries session.logged calls (state, [])).result =
        .ok (answers, state', statements) ∧
      ∀ schedule s, s₀.run session schedule = some s →
        (∃ more s', s.run session more = some s' ∧ s'.isDone) ∧
        (s.isDone → s.answers? = some answers ∧ s.submitted.Perm statements) := by
  obtain ⟨made, hmade⟩ := Runner.exists_forall₂_prepares hp
  have hrun := Runner.result_runAt_logged session hmade state []
  rw [List.nil_append] at hrun
  have hqueries : (r.runQueries session.logged calls (state, [])).result =
      (r.runAt session.logged calls t (state, [])).result := by
    simp only [Runner.runQueries, ht]
    rfl
  have hcalls : List.Forall₂ (fun call p => Runner.Prepares r.schema call.2 call.1 p)
      (calls.map fun call => (call, t)) made := List.forall₂_map_left_iff.2 hmade
  obtain ⟨tasks, hstart, rfl, hready⟩ := exists_start hcalls state
  refine ⟨_, _, _, _, hstart, hrun, hqueries.trans hrun, fun schedule s hs => ⟨?_, fun hd => ?_⟩⟩
  · let s₀ : State σ := { session := state, tasks }
    obtain ⟨htracked, hexclusive⟩ : s₀.Tracked ∧ s₀.Exclusive :=
      State.tracked_exclusive_of_ready fun task hmem => (hready task hmem).1
    exact (State.run_tracked_exclusive htracked hexclusive hs).2.exists_run
  · have hfaithful := (State.faithful_of_ready hready).run hreply hs
    rw [Session.answers_eq_map hreply]
    exact ⟨hfaithful.answers?_eq hd, hfaithful.submitted_perm hd⟩

/-- A read and two writes of one person, the second of which overtakes the first. -/
theorem run_start_answers_overtaken :
    let resolve : Call → Except Error Statement := fun call =>
      .ok ⟨"CREATE (person) WITH person RETURN person", call.params⟩
    let base : Statement := ⟨"MATCH (person:Person) WHERE true RETURN person", .empty⟩
    let create : Dispatch :=
      ⟨⟨"createPerson", .named "Person", .create, resolve⟩, .create "Person"⟩
    let read : Dispatch := ⟨⟨"person", .named "Person", .query, fun _ => .ok base⟩, .read "Person"⟩
    let schema : VersionedSchema :=
      ⟨.empty, {}, .ofList [("createPerson", create), ("person", read)], .ofList [("person", ())],
        .ofList [("createPerson", ())]⟩
    let r : Runner := ⟨schema, ⟨Instant.startOf 0, 1⟩⟩
    let write (name : String) : Call :=
      { field := "createPerson", params := .ofList [("id", .string "1"), ("name", .string name)] }
    let calls := [write "Neo", write "Trinity", { field := "person" }]
    let session : Session Unit := fun s state => ⟨[], .ok [s.params], state⟩
    let schedule := [0, 1, 1, 1, 2, 1, 0, 1, 0, 0, 0]
    ∃ s₀ s answers statements,
      (start r.schema (calls.map fun call => (call, Instant.startOf 1)) ()).result = .ok s₀ ∧
      s₀.run session schedule = some s ∧ s.isDone ∧
      (r.runQueries session.logged calls ((), [])).result = .ok (answers, (), statements) ∧
      s.answers? = some answers ∧ s.submitted.Perm statements := by
  intro resolve base create read schema r write calls session schedule
  have ht : r.clock.readInstant = .ok (Instant.startOf 1) := by decide
  have hp : ∀ call ∈ calls, ¬Runner.CreateFails r.schema call (Instant.startOf 1) := by
    have hok : ∀ call ∈ calls,
        (Runner.prepare r.schema call (Instant.startOf 1)).result.isOk := by
      decide +kernel
    intro call hcall hfails
    have h := hok call hcall
    rw [hfails.result_prepare] at h
    cases h
  obtain ⟨s₀, answers, state', statements, hstart, -, hqueries, hall⟩ :=
    run_start_answers r session (fun s => .ok [s.params]) calls (Instant.startOf 1) ()
      (fun _ _ => rfl) ht hp
  have hok : (start r.schema (calls.map fun call => (call, Instant.startOf 1)) ()).result.toOption
      |>.any fun s₀ => (s₀.run session schedule).any State.isDone := by
    decide +kernel
  rw [hstart] at hok
  obtain ⟨s, hrun, hd⟩ := (Option.any_eq_true _ (s₀.run session schedule)).1 hok
  obtain ⟨hanswers, hperm⟩ := (hall schedule s hrun).2 hd
  exact ⟨s₀, s, answers, statements, hstart, hrun, hd, hqueries, hanswers, hperm⟩

end TemporalGraph.Concurrent
