import TemporalGraph.Proofs.Instant.Reading
import TemporalGraph.Proofs.Runner.Batch
/-!
Versions among the parameters of a call. Main statement: a version that is no text of an instant is
refused before anybody is asked; else the resolver is asked about the call with its versions in
their places in the stored form, and behind them that of the run if the call has none; and the
statement carries the same version, last unless the resolver has placed it.
-/

namespace TemporalGraph

namespace Plan

variable {p : Plan} {call : Call} {resolve resolve' : Call → Except Error Statement} {c : Config}

theorem apply_congr (h : resolve call = resolve' call) :
    p.apply call resolve c = p.apply call resolve' c := by
  cases p <;> simp only [Plan.apply, h]

theorem params_of_apply {out : Statement} (h : (p.apply call resolve c).result = .ok out) :
    ∃ base, resolve call = .ok base ∧ out.params = base.params := by
  cases hr : resolve call with
  | error e =>
    by_cases hp : p = .unsupported
    · subst hp
      cases h
    · rw [apply_of_resolve_error c hp hr] at h
      cases h
  | ok base =>
    refine ⟨base, rfl, ?_⟩
    by_cases hf : p.Finds call base
    · rcases apply_of_finds c hr hf with ⟨f, -, hfail⟩ | ⟨s, hs, hout⟩
      · have hfail : p.apply call resolve c = _ := hfail c.matchPolicy
        rw [hfail] at h
        cases h
      · have hout : p.apply call resolve c = _ := hout c.matchPolicy
        rw [hout] at h
        obtain rfl := Except.ok.inj h
        exact hs.params
    · rw [apply_of_not_finds c hr hf] at h
      obtain ⟨_, -, h⟩ := Outcome.result_bind_eq_ok_iff.1 h
      rw [← Except.ok.inj h]

end Plan

namespace Runner

def IsVersion (v : Json.Value) : Prop := ∃ s t, v = .string s ∧ Instant.ofText s = .ok t

def StoredAs (v w : Json.Value) : Prop :=
  ∃ s t, v = .string s ∧ Instant.ofText s = .ok t ∧ w = .string t.toText

theorem normalize_of_isVersion {v : Json.Value} (h : IsVersion v) :
    ∃ w, Instant.normalize v = .ok w ∧ StoredAs v w := by
  obtain ⟨s, t, rfl, ht⟩ := h
  refine ⟨.string t.toText, ?_, s, t, rfl, ht, rfl⟩
  rw [Instant.normalize, ht]
  rfl

theorem normalize_of_not_isVersion {v : Json.Value} (h : ¬IsVersion v) :
    ∃ e, Instant.normalize v = .error e ∧ e.code.text = "VER_005" := by
  cases v with
  | string s =>
    cases hp : Instant.parse s.toList with
    | ok t => exact absurd ⟨s, t, rfl, by rw [Instant.ofText, hp]⟩ h
    | error reason =>
      refine ⟨.invalidInstant s reason.message, ?_, rfl⟩
      rw [Instant.normalize, Instant.ofText, hp]
      rfl
  | _ => exact ⟨_, rfl, rfl⟩

/-- Entries in their places, with the stored form of the versions under `names`. -/
def Normalized (names : List String) : List (String × Json.Value) → List (String × Json.Value) →
    Prop :=
  List.Forall₂ fun e e' => e'.1 = e.1 ∧ if e.1 ∈ names then StoredAs e.2 e'.2 else e'.2 = e.2

theorem Normalized.trans {a b : String} (hne : a ≠ b) {es es' es'' : List (String × Json.Value)}
    (h : Normalized [a] es es') (h' : Normalized [b] es' es'') : Normalized [a, b] es es'' := by
  induction h generalizing es'' with
  | nil =>
    cases h'
    exact .nil
  | @cons e e' es es' he h ih =>
    cases h' with
    | @cons _ e'' _ es'' he' h' =>
    refine .cons ?_ (ih h')
    obtain ⟨hkey, hvalue⟩ := he
    obtain ⟨hkey', hvalue'⟩ := he'
    refine ⟨hkey'.trans hkey, ?_⟩
    rw [hkey] at hvalue'
    by_cases ha : e.1 = a
    · have hb : e.1 ≠ b := ha ▸ hne
      simp_all
    · simp_all

theorem normalizeParam_of_versions {params : Params} {key : String}
    (h : ∀ v, params.get? key = some v → IsVersion v) :
    ∃ params', normalizeParam params key = .ok params' ∧
      Normalized [key] params.entries params'.entries ∧ params'.keys = params.keys ∧
      ∀ k, k ≠ key → params'.get? k = params.get? k := by
  cases hv : params.get? key with
  | none =>
    refine ⟨params, by rw [normalizeParam, hv], ?_, rfl, fun _ _ => rfl⟩
    refine List.forall₂_same.2 fun e he => ⟨rfl, ?_⟩
    have hne : e.1 ∉ [key] := by
      intro hk
      have hmem := Json.Record.mem_entries_iff.1 he
      rw [List.mem_singleton.1 hk, hv] at hmem
      cases hmem
    rw [if_neg hne]
  | some v =>
    obtain ⟨w, hw, hs⟩ := normalize_of_isVersion (h v hv)
    have hkey : key ∈ params.keys := Json.Record.mem_keys_iff.2 ⟨v, hv⟩
    refine ⟨params.set key w, by rw [normalizeParam, hv]; simp only [hw]; rfl, ?_, ?_, ?_⟩
    · rw [Json.Record.entries_set_of_mem hkey, Json.Record.overwrite, Normalized,
        List.forall₂_map_right_iff, List.forall₂_same]
      intro e he
      by_cases hk : e.1 = key
      · have hmem := Json.Record.mem_entries_iff.1 he
        rw [hk, hv] at hmem
        simp [hk, ← Option.some.inj hmem, hs]
      · simp [hk]
    · exact (Json.Record.keys_set _ _ _).trans (if_pos (List.contains_iff_mem.2 hkey))
    · intro k hk
      rw [Json.Record.get?_set, if_neg hk]

theorem normalizeParam_of_not_version {params : Params} {key : String} {v : Json.Value}
    (hv : params.get? key = some v) (h : ¬IsVersion v) :
    ∃ e, normalizeParam params key = .error e ∧ e.code.text = "VER_005" := by
  obtain ⟨e, he, hcode⟩ := normalize_of_not_isVersion h
  refine ⟨e, ?_, hcode⟩
  rw [normalizeParam, hv]
  simp only [he]
  rfl

def HasBadVersion (c : Config) (call : Call) : Prop :=
  ∃ key ∈ [c.versionParam, c.versionArgument],
    ∃ v, call.params.get? key = some v ∧ ¬IsVersion v

/-- `seen` is `call` with its versions in the stored form, in their places, and behind its other
parameters the version `t` if it has none. -/
structure At (c : Config) (t : Instant) (call seen : Call) : Prop where
  field : seen.field = call.field
  givenName : seen.givenName = call.givenName
  params : ∃ es, Normalized [c.versionParam, c.versionArgument] call.params.entries es ∧
    seen.params.entries =
      es ++ if c.versionParam ∈ call.params.keys then [] else [(c.versionParam, .string t.toText)]

variable {c : Config} {call seen : Call} {t : Instant}

theorem versionedCall_of_badVersion (hne : c.versionParam ≠ c.versionArgument)
    (h : HasBadVersion c call) (t : Instant) :
    ∃ e, versionedCall c call t = .error e ∧ e.code.text = "VER_005" := by
  obtain ⟨key, hkey, v, hv, hbad⟩ := h
  by_cases hp : ∀ v, call.params.get? c.versionParam = some v → IsVersion v
  · have hk : key = c.versionArgument := by
      rcases List.mem_pair.1 hkey with rfl | rfl
      · exact absurd (hp v hv) hbad
      · rfl
    obtain ⟨params, hparams, -, -, hothers⟩ := normalizeParam_of_versions hp
    rw [hk, ← hothers _ hne.symm] at hv
    obtain ⟨e, he, hcode⟩ := normalizeParam_of_not_version hv hbad
    refine ⟨e, ?_, hcode⟩
    rw [versionedCall, hparams, Except.ok_bind, he]
    rfl
  · push Not at hp
    obtain ⟨v, hv, hbad⟩ := hp
    obtain ⟨e, he, hcode⟩ := normalizeParam_of_not_version hv hbad
    refine ⟨e, ?_, hcode⟩
    rw [versionedCall, he]
    rfl

theorem versionedCall_of_versions (hne : c.versionParam ≠ c.versionArgument)
    (h : ¬HasBadVersion c call) (t : Instant) :
    ∃ seen, versionedCall c call t = .ok seen ∧ At c t call seen := by
  have hversions : ∀ key ∈ [c.versionParam, c.versionArgument],
      ∀ v, call.params.get? key = some v → IsVersion v := by
    intro key hkey v hv
    by_contra hbad
    exact h ⟨key, hkey, v, hv, hbad⟩
  obtain ⟨params, hparams, hnorm, hkeys, hothers⟩ :=
    normalizeParam_of_versions (hversions c.versionParam (by simp))
  have hargument : ∀ v, params.get? c.versionArgument = some v → IsVersion v := fun v hv =>
    hversions c.versionArgument (by simp) v (by rwa [hothers _ hne.symm] at hv)
  obtain ⟨params', hparams', hnorm', hkeys', -⟩ := normalizeParam_of_versions hargument
  refine ⟨{ call with params := params'.setIfAbsent c.versionParam (instantValue t) }, ?_,
    rfl, rfl, params'.entries, hnorm.trans hne hnorm', ?_⟩
  · rw [versionedCall, hparams, Except.ok_bind, hparams']
    rfl
  · rw [Json.Record.entries_setIfAbsent, hkeys', hkeys, instantValue]

end Runner

namespace VersionedSchema

def withResolver (s : VersionedSchema) (field : String)
    (resolve : Call → Except Error Statement) : VersionedSchema :=
  match s.table.get? field with
  | some d => { s with table := s.table.insert field { d with field := { d.field with resolve } } }
  | none => s

theorem config_withResolver (s : VersionedSchema) (field : String)
    (resolve : Call → Except Error Statement) :
    (s.withResolver field resolve).config = s.config := by
  rw [withResolver]
  split
  · rfl
  · rfl

/-- Of its resolver a schema asks the statement of the call, and nothing else. -/
theorem resolve_withResolver {s : VersionedSchema} {call : Call}
    {resolve : Call → Except Error Statement}
    (h : ∀ d, s.table.get? call.field = some d → resolve call = d.field.resolve call) :
    (s.withResolver call.field resolve).resolve call = s.resolve call := by
  cases hd : s.table.get? call.field with
  | none => rw [withResolver, hd]
  | some d =>
    have hd' : (s.withResolver call.field resolve).table.get? call.field =
        some { d with field := { d.field with resolve } } := by
      rw [withResolver, hd]
      exact (Dictionary.get?_insert _ _ _ _).trans (if_pos rfl)
    rw [resolve_eq hd, resolve_eq hd', config_withResolver, Plan.apply_congr (h d hd)]

theorem params_of_resolve {s : VersionedSchema} {call : Call} {out : Statement}
    (h : (s.resolve call).result = .ok out) :
    ∃ d base, s.Answers call d base ∧ out.params = base.params := by
  cases hd : s.table.get? call.field with
  | none =>
    simp only [resolve, hd] at h
    cases h
  | some d =>
    rw [resolve_eq hd] at h
    obtain ⟨out', hout, h⟩ := Outcome.result_bind_eq_ok_iff.1 h
    obtain rfl : out' = out := Except.ok.inj h
    obtain ⟨base, hbase, hparams⟩ := Plan.params_of_apply hout
    exact ⟨d, base, ⟨hd, hbase⟩, hparams⟩

end VersionedSchema

namespace Runner

variable {σ : Type} {schema schema' : VersionedSchema} {session : Session σ} {state state' : σ}
  {call seen : Call} {t : Instant} {received sent : List Statement} {answer : Answer}

theorem execute_of_prepare_fail {e : Error} (h : prepare schema call t = Outcome.fail e) :
    execute schema session call t state = ⟨[], .ok (.error e, state)⟩ := by
  rw [execute, h]
  rfl

theorem result_execute_of_prepare {s : Statement} (h : (prepare schema call t).result = .ok s)
    (session : Session σ) (state : σ) : (execute schema session call t state).result =
      .ok ((session s state).rows, (session s state).state) := by
  simp only [execute, Outcome.result_bind, Outcome.attempt, h]
  rfl

theorem prepare_congr (hc : schema'.config = schema.config)
    (hseen : versionedCall schema.config call t = .ok seen)
    (h : schema'.resolve seen = schema.resolve seen) :
    prepare schema' call t = prepare schema call t := by
  rw [prepare, prepare, hc, hseen, Outcome.ofExcept_ok, pure_bind, pure_bind, h]

theorem received_of_execute
    (h : (execute schema session.logged call t (state, received)).result =
      .ok (answer, state', sent)) :
    ((∃ e, answer = .error e) ∧ state' = state ∧ sent = received) ∨
    ∃ s, (prepare schema call t).result = .ok s ∧ sent = received ++ [s] := by
  obtain ⟨p, hp, h⟩ := Outcome.result_bind_eq_ok_iff.1 h
  cases p with
  | error e =>
    cases h
    exact .inl ⟨⟨e, rfl⟩, rfl, rfl⟩
  | ok s =>
    cases h
    refine .inr ⟨s, ?_, rfl⟩
    rw [Outcome.attempt] at hp
    split at hp
    · next hs => rwa [Except.ok.inj (Except.ok.inj hp)] at hs
    · cases hp
    · cases hp

theorem entries_of_prepare {s : Statement} (hseen : versionedCall schema.config call t = .ok seen)
    (h : (prepare schema call t).result = .ok s) :
    ∃ d base version, schema.Answers seen d base ∧
      (schema.config.versionParam, version) ∈ seen.params.entries ∧
      s.params.entries = base.params.entries ++
        if schema.config.versionParam ∈ base.params.keys then []
        else [(schema.config.versionParam, version)] := by
  rw [prepare, hseen, Outcome.ofExcept_ok, pure_bind] at h
  obtain ⟨out, hout, h⟩ := Outcome.result_bind_eq_ok_iff.1 h
  obtain ⟨d, base, hbase, hparams⟩ := VersionedSchema.params_of_resolve hout
  obtain ⟨version, hversion, -⟩ := get?_versionedCall hseen
  rw [hversion] at h
  obtain rfl := Except.ok.inj h
  refine ⟨d, base, version, hbase, Json.Record.mem_entries_iff.2 hversion, ?_⟩
  rw [Statement.setParamIfAbsent, Json.Record.entries_setIfAbsent, hparams]

/-- A call brings versions under two keys. If one of them is no text of an instant, the call is
refused, and neither a resolver nor the session is asked. Else the resolver is asked about the call
with its versions in the stored form, and with that of the run behind its parameters if it has none:
what it would answer to other calls has no part in the execution, and what it refuses is refused. A
statement that the session receives has the parameters of the resolver's statement, and last the
version that the resolver saw, unless the resolver's statement has one. -/
theorem execute_versions (schema : VersionedSchema) (session : Session σ) (call : Call)
    (t : Instant) (state : σ) (received : List Statement)
    (hne : schema.config.versionParam ≠ schema.config.versionArgument) :
    (HasBadVersion schema.config call →
      ∃ e, e.code.text = "VER_005" ∧ ∀ table,
        execute { schema with table } session.logged call t (state, received) =
          ⟨[], .ok (.error e, state, received)⟩) ∧
    (¬HasBadVersion schema.config call →
      ∃ seen, At schema.config t call seen ∧
        (∀ resolve, (∀ d, schema.table.get? call.field = some d →
            resolve seen = d.field.resolve seen) →
          execute (schema.withResolver call.field resolve) session.logged call t
              (state, received) =
            execute schema session.logged call t (state, received)) ∧
        (∀ d e, schema.table.get? call.field = some d → d.plan ≠ .unsupported →
          d.field.resolve seen = .error e →
          execute schema session.logged call t (state, received) =
            ⟨[], .ok (.error e, state, received)⟩) ∧
        ∀ answer state' sent,
          (execute schema session.logged call t (state, received)).result =
            .ok (answer, state', sent) →
          ((∃ e, answer = .error e) ∧ state' = state ∧ sent = received) ∨
          ∃ d base version s, schema.Answers seen d base ∧
            (schema.config.versionParam, version) ∈ seen.params.entries ∧
            s.params.entries = base.params.entries ++
              (if schema.config.versionParam ∈ base.params.keys then []
                else [(schema.config.versionParam, version)]) ∧
            sent = received ++ [s]) := by
  refine ⟨fun hbad => ?_, fun hgood => ?_⟩
  · obtain ⟨e, he, hcode⟩ := versionedCall_of_badVersion hne hbad t
    refine ⟨e, hcode, fun table => execute_of_prepare_fail ?_⟩
    rw [prepare, he, Outcome.ofExcept_error_bind]
  obtain ⟨seen, hseen, hat⟩ := versionedCall_of_versions hne hgood t
  refine ⟨seen, hat, fun resolve hresolve => ?_, fun d e hd hplan he => ?_,
    fun answer state' sent hrun => ?_⟩
  · have hsame := VersionedSchema.resolve_withResolver (hat.field ▸ hresolve)
    rw [hat.field] at hsame
    rw [execute, execute, prepare_congr (VersionedSchema.config_withResolver ..) hseen hsame]
  · refine execute_of_prepare_fail ?_
    rw [← hat.field] at hd
    rw [prepare, hseen, Outcome.ofExcept_ok, pure_bind, VersionedSchema.resolve_eq hd,
      Plan.apply_of_resolve_error _ hplan he]
    rfl
  · refine (received_of_execute hrun).imp_right ?_
    rintro ⟨s, hs, hsent⟩
    obtain ⟨d, base, version, hbase, hversion, hentries⟩ := entries_of_prepare hseen hs
    exact ⟨d, base, version, s, hbase, hversion, hentries, hsent⟩

/-- The resolver drops the parameters of the call, among them the version of the run. -/
theorem execute_versions_person :
    let base : Statement := ⟨"MATCH (person:Person) WHERE true RETURN person", .empty⟩
    let field : CompiledField := ⟨"person", .named "Person", .query, fun _ => .ok base⟩
    let schema : VersionedSchema :=
      ⟨.empty, {}, .ofList [("person", ⟨field, .read "Person"⟩)], .ofList [("person", ())], .empty⟩
    let person : Call :=
      ⟨"person", none, .ofList [("ver", .string "2020-01-01T01:00:00+01:00"), ("id", .null)]⟩
    let numbered : Call := ⟨"person", none, .ofList [("_version", .number (.int 3))]⟩
    let t := Instant.startOf 0
    schema.config.versionParam ≠ schema.config.versionArgument ∧
      (∃ e, e.code.text = "VER_005" ∧
        execute schema Recording.session.logged numbered t ({}, []) =
          ⟨[], .ok (.error e, {}, [])⟩) ∧
      ∃ seen s, At {} t person seen ∧
        seen.params.entries = [("ver", .string "2020-01-01T00:00:00.000Z"), ("id", .null),
          ("_version", .string "1970-01-01T00:00:00.000Z")] ∧
        s.params.entries = [("_version", .string "1970-01-01T00:00:00.000Z")] ∧
        (execute schema Recording.session.logged person t ({}, [])).result =
          .ok (.ok [], { statements := [s] }, [s]) := by
  intro base field schema person numbered t
  have hne : schema.config.versionParam ≠ schema.config.versionArgument := by decide
  have hbad : HasBadVersion schema.config numbered :=
    ⟨"_version", by decide, .number (.int 3), rfl, fun ⟨_, _, h, _⟩ => by cases h⟩
  have hgood : ¬HasBadVersion schema.config person := by
    rintro ⟨key, hkey, v, hv, hbad⟩
    rcases List.mem_pair.1 hkey with rfl | rfl
    · cases hv
    · obtain rfl := Option.some.inj hv
      exact hbad ⟨_, _, rfl, rfl⟩
  refine ⟨hne, ?_, ?_⟩
  · obtain ⟨e, hcode, he⟩ :=
      (execute_versions schema Recording.session numbered t {} [] hne).1 hbad
    exact ⟨e, hcode, he schema.table⟩
  · obtain ⟨seen, hat, -, -, hsent⟩ :=
      (execute_versions schema Recording.session person t {} [] hne).2 hgood
    obtain ⟨s, hs⟩ : ∃ s, (prepare schema person t).result = .ok s := by
      unfold schema field base person t
      exact ⟨_, rfl⟩
    have hrun : (execute schema Recording.session.logged person t ({}, [])).result =
        .ok (.ok [], { statements := [s] }, [s]) :=
      result_execute_of_prepare hs Recording.session.logged ({}, [])
    rcases hsent _ _ _ hrun with ⟨-, -, hnone⟩ | ⟨d, b, version, s', ⟨hd, hb⟩, hv, he, hsame⟩
    · cases hnone
    · rw [hat.field] at hd
      obtain rfl : ⟨field, .read "Person"⟩ = d := Option.some.inj hd
      obtain rfl : base = b := Except.ok.inj hb
      obtain rfl : s = s' := (List.cons.inj hsame).1
      have hseen : seen.params.entries = [("ver", .string "2020-01-01T00:00:00.000Z"),
          ("id", .null), ("_version", .string "1970-01-01T00:00:00.000Z")] := by
        obtain ⟨es, hes, hentries⟩ := hat.params
        have hperson : person.params.entries =
            [("ver", .string "2020-01-01T01:00:00+01:00"), ("id", .null)] := rfl
        rw [hperson] at hes
        cases hes with
        | @cons _ ver _ _ hver hes =>
        cases hes with
        | @cons _ id _ _ hid hes =>
        cases hes
        obtain ⟨hkey, text, t', htext, ht', hvalue⟩ : ver.1 = "ver" ∧
            StoredAs (.string "2020-01-01T01:00:00+01:00") ver.2 := hver
        obtain ⟨hkey', hvalue'⟩ : id.1 = "id" ∧ id.2 = .null := hid
        obtain rfl := Json.Value.string.inj htext
        obtain rfl : Instant.startOf 1577836800 = t' := Except.ok.inj ht'
        have hstored : (Instant.startOf 1577836800).toText = "2020-01-01T00:00:00.000Z" := by
          decide +kernel
        have ht : t.toText = "1970-01-01T00:00:00.000Z" := by decide +kernel
        rw [hentries, ht, ← hstored, ← hvalue, ← hkey, ← hvalue', ← hkey']
        rfl
      have hversion : version = .string "1970-01-01T00:00:00.000Z" := by
        rw [hseen, show schema.config.versionParam = "_version" from rfl] at hv
        simpa using hv
      rw [hversion] at he
      exact ⟨seen, s, hat, hseen, he, hrun⟩

end Runner

end TemporalGraph
