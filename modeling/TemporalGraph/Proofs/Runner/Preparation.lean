import TemporalGraph.Proofs.VersionedSchema.Policy
import TemporalGraph.Runner
/-!
What becomes of a call before anything is submitted. Main statements: a call is refused for one of
five causes, or makes a statement, or else its create rewrite fails; and a call without a version of
its own is resolved at the instant of the run.
-/

namespace TemporalGraph

namespace Plan

variable {p : Plan} {call : Call} {resolve : Call → Except Error Statement} {s : Statement}

theorem apply_of_resolve_error {e : Error} (c : Config) (hp : p ≠ .unsupported)
    (hs : resolve call = .error e) : p.apply call resolve c = Outcome.fail e := by
  cases p with
  | unsupported => exact absurd rfl hp
  | _ => simp only [Plan.apply, hs, Outcome.ofExcept_error_bind]

/-- Only the rewrite of a create can break off with the fragment in place. -/
theorem result_apply_of_finds (c : Config) (hp : p ≠ .unsupported) (hs : resolve call = .ok s)
    (h : p.Finds call s) :
    (∃ out, (p.apply call resolve c).result = .ok out) ∨
    ∃ t, p = .create t ∧ (Create.apply t call s c).result = .error .scopeOutOfOrder := by
  cases p with
  | read t =>
    obtain ⟨out, -, hout⟩ := Read.apply_of_finds c h
    simp only [Plan.apply, hs, Outcome.ofExcept_ok, pure_bind]
    exact .inl ⟨out, congrArg Outcome.result (hout c.matchPolicy)⟩
  | create t =>
    simp only [Plan.apply, hs, Outcome.ofExcept_ok, pure_bind]
    cases Create.apply_of_finds c h with
    | inl hfail => exact .inr ⟨t, rfl, congrArg Outcome.result (hfail c.matchPolicy)⟩
    | inr hout =>
      obtain ⟨out, -, hout⟩ := hout
      exact .inl ⟨out, congrArg Outcome.result (hout c.matchPolicy)⟩
  | attach t =>
    obtain ⟨out, -, hout⟩ := Attach.apply_of_finds c h
    simp only [Plan.apply, hs, Outcome.ofExcept_ok, pure_bind]
    exact .inl ⟨out, congrArg Outcome.result (hout c.matchPolicy)⟩
  | unsupported => exact absurd rfl hp

end Plan

namespace Runner

open Json (Record)

/- Versions among the parameters. -/

theorem get?_normalizeParam {params params' : Params} {key : String}
    (h : normalizeParam params key = .ok params') (k : String) :
    params'.get? k = none ↔ params.get? k = none := by
  rw [normalizeParam] at h
  cases hk : params.get? key with
  | none =>
    rw [hk] at h
    rw [Except.ok.inj h]
  | some v =>
    rw [hk] at h
    obtain ⟨w, -, h⟩ := Except.bind_eq_ok h
    obtain rfl := Except.ok.inj h
    rw [Record.get?_set]
    split
    · next he => simp [he, hk]
    · rfl

theorem field_versionedCall {c : Config} {call call' : Call} {t : Instant}
    (h : versionedCall c call t = .ok call') : call'.field = call.field := by
  obtain ⟨_, -, h⟩ := Except.bind_eq_ok h
  obtain ⟨_, -, h⟩ := Except.bind_eq_ok h
  rw [← Except.ok.inj h]

theorem get?_versionedCall {c : Config} {call call' : Call} {t : Instant}
    (h : versionedCall c call t = .ok call') :
    ∃ version, call'.params.get? c.versionParam = some version ∧
      (call.params.get? c.versionParam = none → version = .string t.toText) := by
  obtain ⟨params, hparams, h⟩ := Except.bind_eq_ok h
  obtain ⟨params', hparams', h⟩ := Except.bind_eq_ok h
  obtain rfl := Except.ok.inj h
  have hnone := (get?_normalizeParam hparams' c.versionParam).trans
    (get?_normalizeParam hparams c.versionParam)
  simp only [Record.get?_setIfAbsent, true_and]
  cases hv : params'.get? c.versionParam with
  | none => exact ⟨.string t.toText, by simp [instantValue], fun _ => rfl⟩
  | some version => exact ⟨version, by simp, fun hc => by simp [hnone.2 hc] at hv⟩

inductive Refused (schema : VersionedSchema) (call : Call) (t : Instant) : Error → Prop where
  | badInstant {e : Error} (h : versionedCall schema.config call t = .error e) :
      Refused schema call t e
  | unknownField {c : Call} (h : versionedCall schema.config call t = .ok c)
      (hd : schema.table.get? call.field = none) :
      Refused schema call t (.unsupported call.field "not a query or mutation of this schema")
  | unsupported {c : Call} {d : Dispatch} (h : versionedCall schema.config call t = .ok c)
      (hd : schema.table.get? call.field = some d) (hp : d.plan = .unsupported) :
      Refused schema call t
        (.unsupported call.field "only create and add mutations are versioned")
  | resolver {c : Call} {d : Dispatch} {e : Error}
      (h : versionedCall schema.config call t = .ok c)
      (hd : schema.table.get? call.field = some d) (hp : d.plan ≠ .unsupported)
      (hr : d.field.resolve c = .error e) : Refused schema call t e
  | pattern {c : Call} {d : Dispatch} {base : Statement}
      (h : versionedCall schema.config call t = .ok c) (ha : schema.Answers c d base)
      (hn : ¬d.plan.Finds c base) (hs : schema.config.matchPolicy = .strict) :
      Refused schema call t (.patternNotFound call.field (d.plan.fragment c))

/-- The call at `t`, with its versions in the stored form, resolves to the statement, which gets the
version of the call unless it has one. -/
def Submits (schema : VersionedSchema) (call : Call) (t : Instant) (s : Statement) : Prop :=
  ∃ c base version, versionedCall schema.config call t = .ok c ∧
    (schema.resolve c).result = .ok base ∧
    c.params.get? schema.config.versionParam = some version ∧
    s = base.setParamIfAbsent schema.config.versionParam version

/-- The create rewrite of the call at `t` cannot copy the construction in order. -/
def CreateFails (schema : VersionedSchema) (call : Call) (t : Instant) : Prop :=
  ∃ c d base typeName, versionedCall schema.config call t = .ok c ∧ schema.Answers c d base ∧
    d.plan = .create typeName ∧
    (Plan.Create.apply typeName c base schema.config).result = .error .scopeOutOfOrder

def Prepares (schema : VersionedSchema) (t : Instant) (call : Call) :
    Except Error Statement → Prop
  | .error e => Refused schema call t e
  | .ok s => Submits schema call t s

variable {schema : VersionedSchema} {call c : Call} {t : Instant}

theorem result_resolve_of_plan {d : Dispatch} {f : Fault} (hd : schema.table.get? c.field = some d)
    (h : (d.plan.apply c d.field.resolve schema.config).result = .error f) :
    (schema.resolve c).result = .error f := by
  rw [VersionedSchema.resolve_eq hd]
  exact Outcome.result_bind_eq_error_iff.2 (.inl h)

theorem result_prepare_of_resolve {f : Fault} (h : versionedCall schema.config call t = .ok c)
    (hr : (schema.resolve c).result = .error f) : (prepare schema call t).result = .error f := by
  rw [prepare, h, Outcome.ofExcept_ok, pure_bind]
  exact Outcome.result_bind_eq_error_iff.2 (.inl hr)

theorem Refused.result_prepare {e : Error} (h : Refused schema call t e) :
    (prepare schema call t).result = .error (.error e) := by
  cases h with
  | badInstant h =>
    rw [prepare, h, Outcome.ofExcept_error_bind]
    rfl
  | @unknownField c h hd =>
    refine result_prepare_of_resolve h ?_
    rw [← field_versionedCall h] at hd ⊢
    simp only [VersionedSchema.resolve, hd]
    rfl
  | @unsupported c d h hd hp =>
    refine result_prepare_of_resolve h ?_
    rw [← field_versionedCall h] at hd ⊢
    refine result_resolve_of_plan hd ?_
    rw [hp]
    rfl
  | @resolver c d e h hd hp hr =>
    rw [← field_versionedCall h] at hd
    refine result_prepare_of_resolve h (result_resolve_of_plan hd ?_)
    rw [Plan.apply_of_resolve_error _ hp hr]
    rfl
  | @pattern c d base h ha hn hs =>
    refine result_prepare_of_resolve h (result_resolve_of_plan ha.1 ?_)
    rw [Plan.apply_of_not_finds _ ha.2 hn, Plan.unmatched, hs, field_versionedCall h]
    rfl

theorem CreateFails.result_prepare (h : CreateFails schema call t) :
    (prepare schema call t).result = .error .scopeOutOfOrder := by
  obtain ⟨c, d, base, typeName, hc, ha, hplan, hfail⟩ := h
  refine result_prepare_of_resolve hc (result_resolve_of_plan ha.1 ?_)
  simp only [hplan, Plan.apply, ha.2, Outcome.ofExcept_ok, pure_bind]
  exact hfail

theorem Submits.result_prepare {s : Statement} (h : Submits schema call t s) :
    (prepare schema call t).result = .ok s := by
  obtain ⟨c, base, version, hc, hr, hversion, rfl⟩ := h
  rw [prepare, hc, Outcome.ofExcept_ok, pure_bind, Outcome.result_bind_eq_ok_iff]
  exact ⟨base, hr, by rw [hversion]; rfl⟩

theorem Prepares.result_attempt {p : Except Error Statement} (h : Prepares schema t call p) :
    (prepare schema call t).attempt.result = .ok p := by
  cases p with
  | error e =>
    have hr : (prepare schema call t).result = .error (.error e) := Refused.result_prepare h
    simp only [Outcome.attempt, hr]
  | ok s =>
    have hr : (prepare schema call t).result = .ok s := Submits.result_prepare h
    simp only [Outcome.attempt, hr]

theorem exists_prepares (hp : ¬CreateFails schema call t) : ∃ p, Prepares schema t call p := by
  cases hv : versionedCall schema.config call t with
  | error e => exact ⟨.error e, .badInstant hv⟩
  | ok c =>
    cases hd : schema.table.get? call.field with
    | none => exact ⟨.error _, .unknownField hv hd⟩
    | some d =>
      by_cases hu : d.plan = .unsupported
      · exact ⟨.error _, .unsupported hv hd hu⟩
      cases hr : d.field.resolve c with
      | error e => exact ⟨.error e, .resolver hv hd hu hr⟩
      | ok base =>
        have hd' : schema.table.get? c.field = some d := by rw [field_versionedCall hv, hd]
        obtain ⟨version, hversion, -⟩ := get?_versionedCall hv
        have hsubmits (out : Statement)
            (h : (d.plan.apply c d.field.resolve schema.config).result = .ok out) :
            Submits schema call t (out.setParamIfAbsent schema.config.versionParam version) := by
          refine ⟨c, out, version, hv, ?_, hversion, rfl⟩
          rw [VersionedSchema.resolve_eq hd']
          exact Outcome.result_bind_eq_ok_iff.2 ⟨out, h, rfl⟩
        by_cases hfinds : d.plan.Finds c base
        · rcases Plan.result_apply_of_finds schema.config hu hr hfinds with ⟨out, h⟩ | ⟨n, hn, h⟩
          · exact ⟨.ok _, hsubmits out h⟩
          · exact absurd ⟨c, d, base, n, hv, ⟨hd', hr⟩, hn, h⟩ hp
        · cases hs : schema.config.matchPolicy with
          | strict => exact ⟨.error _, .pattern hv ⟨hd', hr⟩ hfinds hs⟩
          | lenient =>
            refine ⟨.ok _, hsubmits base ?_⟩
            rw [Plan.apply_of_not_finds _ hr hfinds, Plan.unmatched, hs]
            rfl

end Runner

end TemporalGraph
