import TemporalGraph.Proofs.Runner.Preparation
/-!
Calls that are executed one after another. Main statement: every call gets one answer, in the order
of the calls; the session receives the statements of the calls that are not refused, and no others;
and a refused call among them adds its own error and changes nothing else.
-/

namespace List

variable {α β : Type} {R : α → β → Prop} {xs : List α} {ys : List β}

theorem Forall₂.insertIdx (h : Forall₂ R xs ys) {x : α} {y : β} (hxy : R x y) (n : Nat) :
    Forall₂ R (xs.insertIdx n x) (ys.insertIdx n y) := by
  induction h generalizing n with
  | nil =>
    cases n with
    | zero => exact .cons hxy .nil
    | succ n => exact .nil
  | cons hab h ih =>
    cases n with
    | zero => exact .cons hxy (.cons hab h)
    | succ n => exact .cons hab (ih n)

end List

namespace TemporalGraph

def statementsOf (made : List (Except Error Statement)) : List Statement :=
  made.filterMap Except.toOption

namespace Session

variable {σ : Type}

def after (session : Session σ) (state : σ) (ss : List Statement) : σ :=
  ss.foldl (fun state s => (session s state).state) state

def logged (session : Session σ) : Session (σ × List Statement) := fun s state =>
  let reply := session s state.1
  ⟨reply.events, reply.rows, (reply.state, state.2 ++ [s])⟩

/-- The errors of the calls that are refused, and what the session answers to the statements of the
others. -/
def answers (session : Session σ) (state : σ) : List (Except Error Statement) → List Answer
  | [] => []
  | .error e :: made => .error e :: answers session state made
  | .ok s :: made => (session s state).rows :: answers session (session s state).state made

theorem length_answers (session : Session σ) (state : σ) (made : List (Except Error Statement)) :
    (session.answers state made).length = made.length := by
  induction made generalizing state with
  | nil => rfl
  | cons p made ih =>
    cases p with
    | error e => simp [answers, ih]
    | ok s => simp [answers, ih]

theorem getElem?_answers (session : Session σ) (state : σ)
    {made : List (Except Error Statement)} {i : Nat} {p : Except Error Statement}
    (h : made[i]? = some p) :
    (session.answers state made)[i]? =
      some (p.bind fun s =>
        (session s (session.after state (statementsOf (made.take i)))).rows) := by
  induction made generalizing state i with
  | nil => cases h
  | cons q made ih =>
    cases i with
    | zero =>
      obtain rfl := Option.some.inj h
      cases q with
      | error e => rfl
      | ok s => rfl
    | succ i =>
      cases q with
      | error e => exact ih state h
      | ok s => exact ih (session s state).state h

theorem answers_insertIdx (session : Session σ) (state : σ) (made : List (Except Error Statement))
    (n : Nat) (e : Error) :
    session.answers state (made.insertIdx n (.error e)) =
      (session.answers state made).insertIdx n (.error e) := by
  induction made generalizing state n with
  | nil =>
    cases n with
    | zero => rfl
    | succ n => rfl
  | cons p made ih =>
    cases n with
    | zero => rfl
    | succ n =>
      cases p with
      | error e => simp [answers, ih]
      | ok s => simp [answers, ih]

theorem answers_eq_map {session : Session σ} {reply : Statement → Answer}
    (hreply : ∀ s state, (session s state).rows = reply s) (state : σ)
    (made : List (Except Error Statement)) :
    session.answers state made = made.map fun p => p.bind reply := by
  induction made generalizing state with
  | nil => rfl
  | cons p made ih =>
    cases p with
    | error e => exact congrArg _ (ih state)
    | ok s => rw [answers, ih, hreply]; rfl

theorem answers_logged (session : Session σ) (state : σ) (received : List Statement)
    (made : List (Except Error Statement)) :
    session.logged.answers (state, received) made = session.answers state made := by
  induction made generalizing state received with
  | nil => rfl
  | cons p made ih =>
    cases p with
    | error e => exact congrArg _ (ih state received)
    | ok s => exact congrArg _ (ih (session s state).state (received ++ [s]))

theorem after_logged (session : Session σ) (state : σ) (received ss : List Statement) :
    session.logged.after (state, received) ss = (session.after state ss, received ++ ss) := by
  induction ss generalizing state received with
  | nil => simp [after]
  | cons s ss ih =>
    have h := ih (session s state).state (received ++ [s])
    rw [List.append_assoc] at h
    exact h

end Session

theorem statementsOf_insertIdx (made : List (Except Error Statement)) (n : Nat) (e : Error) :
    statementsOf (made.insertIdx n (.error e)) = statementsOf made := by
  induction made generalizing n with
  | nil =>
    cases n with
    | zero => rfl
    | succ n => rfl
  | cons p made ih =>
    cases n with
    | zero => rfl
    | succ n =>
      cases p with
      | error e => exact ih n
      | ok s => exact congrArg (s :: ·) (ih n)

namespace Runner

variable {σ : Type} {schema : VersionedSchema} {session : Session σ}

theorem result_execute {call : Call} {t : Instant} {p : Except Error Statement}
    (h : Prepares schema t call p) (state : σ) :
    (execute schema session call t state).result = match p with
      | .error e => .ok (.error e, state)
      | .ok s => .ok ((session s state).rows, (session s state).state) := by
  rw [execute, Outcome.result_bind, h.result_attempt, Except.ok_bind]
  cases p with
  | error e => rfl
  | ok s => rfl

theorem result_executeAll {calls : List (Call × Instant)} {made : List (Except Error Statement)}
    (h : List.Forall₂ (fun call p => Prepares schema call.2 call.1 p) calls made) (state : σ) :
    (executeAll schema session calls state).result =
      .ok (session.answers state made, session.after state (statementsOf made)) := by
  induction h generalizing state with
  | nil => rfl
  | @cons call p calls made hp h ih =>
    rw [executeAll, Outcome.result_bind, result_execute hp]
    cases p with
    | error e =>
      rw [Except.ok_bind, Outcome.result_bind, ih]
      rfl
    | ok s =>
      rw [Except.ok_bind, Outcome.result_bind, ih]
      rfl

theorem result_runAt {r : Runner} {calls : List Call} {t : Instant}
    {made : List (Except Error Statement)} (h : List.Forall₂ (Prepares r.schema t) calls made)
    (state : σ) :
    (r.runAt session calls t state).result =
      .ok (session.answers state made, session.after state (statementsOf made)) :=
  result_executeAll (List.forall₂_map_left_iff.2 h) state

theorem result_runAt_logged {r : Runner} {calls : List Call} {t : Instant}
    {made : List (Except Error Statement)} (session : Session σ)
    (h : List.Forall₂ (Prepares r.schema t) calls made) (state : σ) (received : List Statement) :
    (r.runAt session.logged calls t (state, received)).result =
      .ok (session.answers state made, session.after state (statementsOf made),
        received ++ statementsOf made) := by
  rw [result_runAt h, Session.answers_logged, Session.after_logged]

theorem exists_forall₂_prepares {calls : List Call} {t : Instant}
    (hp : ∀ call ∈ calls, ¬CreateFails schema call t) :
    ∃ made, List.Forall₂ (Prepares schema t) calls made :=
  List.exists_forall₂_iff.2 fun call hc => exists_prepares (hp call hc)

/-- Calls are executed at one instant, one after another, and no create rewrite fails. Each call is
refused or makes a statement, resolved at that instant unless the call has a version of its own. The
session receives these statements in their order. Each call has its answer in its place: its own
error, or what the session answers behind the statements before. A refused call more, wherever it
stands, adds its error and changes nothing else. -/
theorem runAt_answers (r : Runner) (session : Session σ) (calls : List Call) (t : Instant)
    (state : σ) (received : List Statement)
    (hp : ∀ call ∈ calls, ¬CreateFails r.schema call t) :
    ∃ (made : List (Except Error Statement)) (answers : List Answer) (state' : σ),
      List.Forall₂ (Prepares r.schema t) calls made ∧
      (r.runAt session calls t state).result = .ok (answers, state') ∧
      (r.runAt session.logged calls t (state, received)).result =
        .ok (answers, state', received ++ statementsOf made) ∧
      (t = r.clock.writeInstant →
        (r.runMutations session.logged calls (state, received)).result =
          .ok (answers, state', received ++ statementsOf made)) ∧
      answers.length = calls.length ∧
      (∀ (i : Nat) (p : Except Error Statement), made[i]? = some p →
        answers[i]? = some (p.bind fun s =>
          (session s (session.after state (statementsOf (made.take i)))).rows)) ∧
      (∀ call ∈ calls, call.params.get? r.schema.config.versionParam = none →
        ∀ c, versionedCall r.schema.config call t = .ok c →
          c.params.get? r.schema.config.versionParam = some (.string t.toText)) ∧
      ∀ n call e, n ≤ calls.length → Refused r.schema call t e →
        (r.runAt session.logged (calls.insertIdx n call) t (state, received)).result =
          .ok (answers.insertIdx n (.error e), state', received ++ statementsOf made) := by
  obtain ⟨made, hmade⟩ := exists_forall₂_prepares hp
  have hrun := result_runAt_logged session hmade state received
  refine ⟨made, session.answers state made, _, hmade, result_runAt hmade state, hrun, ?_, ?_,
    fun i p => session.getElem?_answers state, ?_, ?_⟩
  · rintro rfl
    exact hrun
  · rw [Session.length_answers, hmade.length_eq]
  · intro call _ hnone c hc
    obtain ⟨version, hversion, hown⟩ := get?_versionedCall hc
    rw [hversion, hown hnone]
  · intro n call e _ he
    have hmore : Prepares r.schema t call (.error e) := he
    rw [result_runAt_logged session (hmade.insertIdx hmore n), Session.answers_insertIdx,
      statementsOf_insertIdx]

/-- Between two reads of a person stands a call of a field that the schema does not have. -/
theorem runAt_answers_person :
    let base : Statement := ⟨"MATCH (person:Person) WHERE true RETURN person", .empty⟩
    let field : CompiledField := ⟨"person", .named "Person", .query, fun _ => .ok base⟩
    let schema : VersionedSchema :=
      ⟨.empty, {}, .ofList [("person", ⟨field, .read "Person"⟩)], .ofList [("person", ())], .empty⟩
    let person : Call := { field := "person" }
    let movie : Call := { field := "movie" }
    let e : Error := .unsupported "movie" "not a query or mutation of this schema"
    let t := Instant.startOf 0
    let r : Runner := ⟨schema, ⟨t, 1⟩⟩
    (∀ call ∈ [person, person], ¬CreateFails schema call t) ∧ Refused schema movie t e ∧
      (∃ seen, versionedCall {} person t = .ok seen ∧
        seen.params.get? "_version" = some (.string "1970-01-01T00:00:00.000Z")) ∧
      ∃ (a b : Answer) (state : Recording) (ss : List Statement),
        (r.runMutations Recording.session.logged [person, person] ({}, [])).result =
          .ok ([a, b], state, ss) ∧
        (r.runAt Recording.session.logged [person, movie, person] t ({}, [])).result =
          .ok ([a, .error e, b], state, ss) := by
  intro base field schema person movie e t r
  have hp : ∀ call ∈ [person, person], ¬CreateFails schema call t := by
    rintro call hcall ⟨c, d, base, name, hc, ⟨hd, -⟩, hplan, -⟩
    obtain rfl : call = person := by simpa using hcall
    rw [field_versionedCall hc] at hd
    obtain rfl : ⟨field, .read "Person"⟩ = d := Option.some.inj hd
    cases hplan
  have he : Refused schema movie t e := by
    obtain ⟨c, hc⟩ : ∃ c, versionedCall schema.config movie t = .ok c := ⟨_, rfl⟩
    exact .unknownField hc rfl
  have ht : t.toText = "1970-01-01T00:00:00.000Z" := by decide +kernel
  obtain ⟨seen, hseen⟩ : ∃ seen, versionedCall {} person t = .ok seen := ⟨_, rfl⟩
  obtain ⟨made, answers, state, -, -, -, hmutations, hlength, -, hversion, hmore⟩ :=
    runAt_answers r Recording.session [person, person] t {} [] hp
  have hversion := ht ▸ hversion person (by simp) rfl seen hseen
  obtain ⟨a, b, rfl⟩ := List.length_eq_two.1 hlength
  exact ⟨hp, he, ⟨seen, hseen, hversion⟩, a, b, state, _, hmutations rfl,
    hmore 1 movie e (by decide) he⟩

end Runner

end TemporalGraph
