import TemporalGraph.Proofs.Plan.Policy
import TemporalGraph.VersionedSchema
/-!
One schema under the strict and under the lenient policy. Main statement: the two answer every call
the same, except that a statement without the fragment that its plan looks for first is refused by
the one and left as it is by the other; no statement is rewritten in part.
-/

namespace TemporalGraph.VersionedSchema

open Schema (Registry)

def withPolicy (s : VersionedSchema) (p : MatchPolicy) : VersionedSchema :=
  { s with config := s.config.withPolicy p }

theorem build_withPolicy (r : Registry) (compile : Compiler) (c : Config) (p : MatchPolicy) :
    build r compile (c.withPolicy p) = (fun s => s.withPolicy p) <$> build r compile c := by
  simp only [build, map_bind, map_pure]
  rfl

theorem build_policies {r : Registry} {compile : Compiler} {c : Config} {S L : VersionedSchema}
    {p q : MatchPolicy} (hS : (build r compile (c.withPolicy p)).result = .ok S)
    (hL : (build r compile (c.withPolicy q)).result = .ok L) : L = S.withPolicy q := by
  rw [build_withPolicy, Outcome.result_map_eq_ok_iff] at hS hL
  obtain ⟨s, hs, rfl⟩ := hS
  obtain ⟨s', hs', rfl⟩ := hL
  obtain rfl := Except.ok.inj (hs.symm.trans hs')
  rfl

/-- The compiler's resolver of the called field, dispatched as `d`, makes the statement `base`. -/
def Answers (s : VersionedSchema) (call : Call) (d : Dispatch) (base : Statement) : Prop :=
  s.table.get? call.field = some d ∧ d.field.resolve call = .ok base

def warnings {α : Type} (x : Outcome α) : List Event := x.events.filter fun e => e.level = .warn

def notFound (operation pattern : String) : Event :=
  ⟨.warn, "Rewrite pattern not found, fragment left unversioned",
    [("operation", operation), ("pattern", pattern)]⟩

def rewrote (call : Call) (p : Plan) (s : Statement) : Event :=
  ⟨.debug, s!"Rewrote operation: {s.query}", [("field", call.field), ("plan", p.name)]⟩

inductive Resolution (s : VersionedSchema) (call : Call) :
    Outcome Statement → Outcome Statement → Prop where
  | refused {f : Fault} (hf : ¬f.isPatternNotFound)
      (h : ∀ d base, s.Answers call d base → d.plan.Finds call base) :
      Resolution s call ⟨[], .error f⟩ ⟨[], .error f⟩
  | lacking {d : Dispatch} {base : Statement} (h : s.Answers call d base)
      (hn : ¬d.plan.Finds call base) :
      Resolution s call
        ⟨[], .error (.error (.patternNotFound call.field (d.plan.fragment call)))⟩
        ⟨[notFound call.field (d.plan.fragment call), rewrote call d.plan base], .ok base⟩
  | rewritten {d : Dispatch} {base out : Statement} (h : s.Answers call d base)
      (hf : d.plan.Finds call base) (hr : Plan.Rewritten s.config call base d.plan out) :
      Resolution s call ⟨[rewrote call d.plan out], .ok out⟩ ⟨[rewrote call d.plan out], .ok out⟩

theorem Answers.unique {s : VersionedSchema} {call : Call} {d d' : Dispatch}
    {base base' : Statement} (h : s.Answers call d base) (h' : s.Answers call d' base') :
    d' = d ∧ base' = base := by
  obtain rfl := Option.some.inj (h.1.symm.trans h'.1)
  exact ⟨rfl, Except.ok.inj (h'.2.symm.trans h.2)⟩

theorem resolve_eq {s : VersionedSchema} {call : Call} {d : Dispatch}
    (hd : s.table.get? call.field = some d) :
    s.resolve call = (do
      let out ← d.plan.apply call d.field.resolve s.config
      Outcome.report (rewrote call d.plan out)
      return out) := by
  simp only [resolve, hd]
  rfl

theorem resolution {s : VersionedSchema} {call : Call}
    (hr : ∀ d e, s.table.get? call.field = some d → d.field.resolve call = .error e →
      ¬(Fault.error e).isPatternNotFound) :
    Resolution s call ((s.withPolicy .strict).resolve call)
      ((s.withPolicy .lenient).resolve call) := by
  cases hd : s.table.get? call.field with
  | none =>
    have hq (q : MatchPolicy) : (s.withPolicy q).resolve call =
        Outcome.fail (.unsupported call.field "not a query or mutation of this schema") := by
      simp only [resolve, withPolicy, hd]
    rw [hq, hq]
    exact .refused (by simp [Fault.isPatternNotFound]) fun d base h => by simp [h.1] at hd
  | some d =>
    have hq (q : MatchPolicy) : (s.withPolicy q).resolve call = (do
        let out ← d.plan.apply call d.field.resolve (s.config.withPolicy q)
        Outcome.report (rewrote call d.plan out)
        return out) := resolve_eq hd
    rw [hq, hq]
    cases hb : d.field.resolve call with
    | error e =>
      obtain ⟨f, hf, ha⟩ := Plan.apply_of_error (p := d.plan) s.config hb (hr d e hd hb)
      rw [ha, ha]
      refine .refused hf fun d' base h => ?_
      obtain rfl := Option.some.inj (hd.symm.trans h.1)
      simp [h.2] at hb
    | ok base =>
      have hans : s.Answers call d base := ⟨hd, hb⟩
      by_cases hfind : d.plan.Finds call base
      · rcases Plan.apply_of_finds s.config hb hfind with ⟨f, hf, ha⟩ | ⟨out, hout, ha⟩
        · rw [ha, ha]
          refine .refused hf fun d' base' h => ?_
          obtain ⟨rfl, rfl⟩ := hans.unique h
          exact hfind
        · rw [ha, ha]
          exact .rewritten hans hfind hout
      · rw [Plan.apply_of_not_finds _ hb hfind, Plan.apply_of_not_finds _ hb hfind]
        exact .lacking hans hfind

section Resolution

variable {s : VersionedSchema} {call : Call} {x y : Outcome Statement}

theorem Resolution.lenient_of_ok {out : Statement} (h : Resolution s call x y)
    (hx : x.result = .ok out) : y.result = .ok out ∧ warnings y = [] := by
  cases h with
  | refused hf h => cases hx
  | lacking h hn => cases hx
  | rewritten h hf hr =>
    obtain rfl := Except.ok.inj hx
    exact ⟨rfl, rfl⟩

theorem Resolution.patternNotFound_iff {op pattern : String} (h : Resolution s call x y) :
    x.result = .error (.error (.patternNotFound op pattern)) ↔
      ∃ d base, s.Answers call d base ∧ ¬d.plan.Finds call base ∧ op = call.field ∧
        pattern = d.plan.fragment call := by
  cases h with
  | refused hf h =>
    constructor
    · intro hx
      obtain rfl := Except.error.inj hx
      exact absurd rfl hf
    · rintro ⟨d, base, ha, hn, -⟩
      exact absurd (h d base ha) hn
  | @lacking d base h hn =>
    constructor
    · intro hx
      simp only [Except.error.injEq, Fault.error.injEq, Error.patternNotFound.injEq] at hx
      exact ⟨d, base, h, hn, hx.1.symm, hx.2.symm⟩
    · rintro ⟨d', base', ha, -, rfl, rfl⟩
      rw [(h.unique ha).1]
  | rewritten h hf hr =>
    constructor
    · intro hx
      cases hx
    · rintro ⟨d', base', ha, hn, -⟩
      obtain ⟨rfl, rfl⟩ := h.unique ha
      exact absurd hf hn

theorem Resolution.lenient_of_patternNotFound {op pattern : String} (h : Resolution s call x y)
    (hx : x.result = .error (.error (.patternNotFound op pattern))) :
    ∃ d base, s.Answers call d base ∧ y.result = .ok base ∧ warnings y = [notFound op pattern] := by
  cases h with
  | refused hf h =>
    obtain rfl := Except.error.inj hx
    exact absurd rfl hf
  | @lacking d base h hn =>
    simp only [Except.error.injEq, Fault.error.injEq, Error.patternNotFound.injEq] at hx
    obtain ⟨rfl, rfl⟩ := hx
    exact ⟨d, base, h, rfl, rfl⟩
  | rewritten h hf hr => cases hx

theorem Resolution.error_iff {f : Fault} (h : Resolution s call x y)
    (hf : ¬f.isPatternNotFound) : x.result = .error f ↔ y.result = .error f := by
  cases h with
  | refused hf h => exact Iff.rfl
  | lacking h hn =>
    constructor
    · intro hx
      obtain rfl := Except.error.inj hx
      exact absurd rfl hf
    · intro hy
      cases hy
  | rewritten h hf hr => exact Iff.rfl

theorem Resolution.whole_of_ok {out : Statement} (h : Resolution s call x y)
    (hy : y.result = .ok out) : ∃ d base, s.Answers call d base ∧ out.params = base.params ∧
      (d.plan.Finds call base ∧ Plan.Rewritten s.config call base d.plan out ∨
        ¬d.plan.Finds call base ∧ out = base) := by
  cases h with
  | refused hf h => cases hy
  | @lacking d base h hn =>
    obtain rfl := Except.ok.inj hy
    exact ⟨d, base, h, rfl, .inr ⟨hn, rfl⟩⟩
  | @rewritten d base out' h hf hr =>
    obtain rfl := Except.ok.inj hy
    exact ⟨d, base, h, hr.params, .inl ⟨hf, hr⟩⟩

end Resolution

/-- Under the lenient policy a call succeeds as it does under the strict one. What the strict policy
refuses for a missing fragment, namely a statement without the first fragment of its plan, comes
back under the lenient one as the compiler made it, with one warning. Any other failure is common to
both, and a statement that comes back otherwise has every edit of its plan. -/
theorem resolve_strict_lenient (r : Registry) (compile : Compiler) (c : Config)
    {S L : VersionedSchema} (hS : (build r compile (c.withPolicy .strict)).result = .ok S)
    (hL : (build r compile (c.withPolicy .lenient)).result = .ok L) (call : Call)
    (hr : ∀ d e, S.table.get? call.field = some d → d.field.resolve call = .error e →
      ¬(Fault.error e).isPatternNotFound) :
    (∀ out, (S.resolve call).result = .ok out →
      (L.resolve call).result = .ok out ∧ warnings (L.resolve call) = []) ∧
    (∀ op pattern, (S.resolve call).result = .error (.error (.patternNotFound op pattern)) →
      ∃ d base, S.Answers call d base ∧ (L.resolve call).result = .ok base ∧
        warnings (L.resolve call) = [notFound op pattern]) ∧
    (∀ f : Fault, ¬f.isPatternNotFound →
      ((S.resolve call).result = .error f ↔ (L.resolve call).result = .error f)) ∧
    (∀ op pattern, (S.resolve call).result = .error (.error (.patternNotFound op pattern)) ↔
      ∃ d base, S.Answers call d base ∧ ¬d.plan.Finds call base ∧ op = call.field ∧
        pattern = d.plan.fragment call) ∧
    ∀ out, (L.resolve call).result = .ok out → ∃ d base, S.Answers call d base ∧
      out.params = base.params ∧
      (d.plan.Finds call base ∧ Plan.Rewritten S.config call base d.plan out ∨
        ¬d.plan.Finds call base ∧ out = base) := by
  have h := resolution hr
  rw [← build_policies hS hS, ← build_policies hS hL] at h
  exact ⟨fun _ => h.lenient_of_ok, fun _ _ => h.lenient_of_patternNotFound,
    fun _ => h.error_iff, fun _ _ => h.patternNotFound_iff, fun _ => h.whole_of_ok⟩

/-- Of four fields, one lacks the root match that its plan looks for. -/
theorem resolve_strict_lenient_person :
    let field (name : String) (kind : ResolverKind) (query : String) : CompiledField :=
      ⟨name, .named "Person", kind, fun call => .ok ⟨query, call.params⟩⟩
    let person := field "person" .query "MATCH (person:Person) RETURN person"
    let people := field "people" .query "MATCH (people:Person) WHERE true RETURN people"
    let create := field "createPerson" .create "CREATE (p:Person) WITH p RETURN p"
    let attach := field "addPersonActedIn" (.addRelation "Movie")
      "MATCH (p:Person \x7b id: $id \x7d) MATCH (to:Movie \x7b id: $toActedIn \x7d) RETURN p"
    let r := Registry.ofList [.object "Person"]
    let compile : Compiler := fun _ => .ok ⟨[person, people], [create, attach]⟩
    let s (p : MatchPolicy) : VersionedSchema :=
      ⟨r, ({} : Config).withPolicy p,
        .ofList [("person", ⟨person, .read "Person"⟩), ("people", ⟨people, .read "Person"⟩),
          ("createPerson", ⟨create, .create "Person"⟩),
          ("addPersonActedIn", ⟨attach, .attach "Movie"⟩)],
        .ofList [("person", ()), ("people", ())],
        .ofList [("createPerson", ()), ("addPersonActedIn", ())]⟩
    let call : Call := { field := "person" }
    let pattern := "MATCH \\(person:Person\\) WHERE( )"
    let written := "MERGE (_r:Person_R:RESOURCE \x7bid: $id\x7d) WITH _r\n" ++
      "OPTIONAL MATCH (_r)<-[:VERSION_OF \x7bfrom: $_version\x7d]-(_stale)\n" ++
      "OPTIONAL MATCH (_stale)-[*]->(_embedded:EMBEDDED)\n" ++
      "DETACH DELETE _stale, _embedded WITH DISTINCT _r\n" ++
      "OPTIONAL MATCH (_r)<-[_v:VERSION_OF]-() WHERE _v.from <= $_version " ++
        "AND coalesce($_version < _v.to, true) WITH _r, _v AS _prev\n" ++
      "OPTIONAL MATCH (_r)<-[_v:VERSION_OF]-() WHERE _v.from > $_version " ++
        "WITH _r, _prev, min(_v.from) AS _next_from\n" ++
      "CREATE (p:Person)\nSET p:INSTANCE\nCREATE (_r)<-[:VERSION_OF \x7bfrom: $_version, " ++
        "to: coalesce(_prev.to, _next_from)\x7d]-(p)\nSET _prev.to = $_version\nWITH p RETURN p"
    let ids : Params := .ofList [("id", .string "1"), ("toActedIn", .array [.string "2"])]
    (∀ p, (build r compile (({} : Config).withPolicy p)).result = .ok (s p)) ∧
    ((s .strict).resolve call).result = .error (.error (.patternNotFound "person" pattern)) ∧
    ((s .lenient).resolve call).result =
      .ok ⟨"MATCH (person:Person) RETURN person", .empty⟩ ∧
    warnings ((s .lenient).resolve call) = [notFound "person" pattern] ∧
    ∀ p, ((s p).resolve { field := "people" }).result =
        .ok ⟨"MATCH (_r:Person_R:RESOURCE)<-[_v:VERSION_OF]-(people:Person:INSTANCE) WHERE " ++
          "(_v.from <= $_version AND coalesce($_version < _v.to, true)) AND true RETURN people",
          .empty⟩ ∧
      ((s p).resolve ⟨"createPerson", some "p", ids⟩).result =
        .ok ⟨written, ids⟩ ∧
      ((s p).resolve { field := "addPersonActedIn", params := ids }).result =
        .ok ⟨"MATCH (p:Person \x7b id: $id \x7d) " ++
          "MATCH (to:Movie_R:RESOURCE) WHERE to.id IN $toActedIn RETURN p", ids⟩ := by
  intro field person people create attach r compile s call pattern written ids
  have hb : ∀ p, (build r compile (({} : Config).withPolicy p)).result = .ok (s p) := by
    unfold s r compile person people create attach field
    exact fun _ => rfl
  have hentries : (s .strict).table.entries =
      [("addPersonActedIn", ⟨attach, .attach "Movie"⟩),
        ("createPerson", ⟨create, .create "Person"⟩), ("people", ⟨people, .read "Person"⟩),
        ("person", ⟨person, .read "Person"⟩)] := by
    unfold s person people create attach field
    rfl
  have hr (call : Call) : ∀ d e, (s .strict).table.get? call.field = some d →
      d.field.resolve call = .error e → ¬(Fault.error e).isPatternNotFound := by
    intro d e hd he
    have hmem := Dictionary.mem_of_get? hd
    rw [hentries] at hmem
    simp only [List.mem_cons, Prod.mk.injEq, List.not_mem_nil, or_false] at hmem
    obtain ⟨-, rfl⟩ | ⟨-, rfl⟩ | ⟨-, rfl⟩ | ⟨-, rfl⟩ := hmem <;> cases he
  have hresolve (call : Call) :=
    resolve_strict_lenient r compile {} (hb .strict) (hb .lenient) call (hr call)
  -- A rewritten call has the parameters of the resolver's statement under both policies.
  have hboth {call : Call} {query : String} {d : Dispatch} {base : Statement}
      (hd : (call.field, d) ∈ (s .strict).table.entries) (hb : d.field.resolve call = .ok base)
      (hq : (d.plan.apply call d.field.resolve (s .strict).config).result.toOption.map
        Statement.query = some query) :
      ∀ p, ((s p).resolve call).result = .ok ⟨query, base.params⟩ := by
    have hd := Dictionary.get?_of_mem hd
    cases hx : (d.plan.apply call d.field.resolve (s .strict).config).result with
    | error e => simp [hx, Except.toOption] at hq
    | ok out =>
    rw [hx] at hq
    obtain rfl : out.query = query := Option.some.inj hq
    have hstrict : ((s .strict).resolve call).result = .ok out := by
      rw [resolve_eq hd]
      exact Outcome.result_bind_eq_ok_iff.2 ⟨out, hx, rfl⟩
    obtain ⟨hlenient, -⟩ := (hresolve call).1 out hstrict
    obtain ⟨d', base', ha, hparams, -⟩ := (hresolve call).2.2.2.2 out hlenient
    obtain ⟨-, rfl⟩ := Answers.unique ⟨hd, hb⟩ ha
    rintro ⟨⟩
    · rw [hlenient, ← hparams]
    · rw [hstrict, ← hparams]
  let write : Call := ⟨"createPerson", some "p", ids⟩
  let unwritten : Statement := ⟨"CREATE (p:Person) WITH p RETURN p", ids⟩
  have hwrite : Plan.Create.apply "Person" write unwritten (s .strict).config =
      pure ⟨written, ids⟩ := by
    have hsplit : Text.splitLast? (Plan.Create.terminal write.resultKey).toList
        unwritten.query.toList = some ("CREATE (p:Person) ".toList, " p".toList) := by
      decide +kernel
    have hcarry : Plan.Scope.carry? Plan.Create.carried write.resultKey.toList
        (Text.trimEnd "CREATE (p:Person) ".toList) = some "CREATE (p:Person)".toList := by
      decide +kernel
    have hwritten : Plan.Create.prelude {} "Person" ++ String.ofList "CREATE (p:Person)".toList ++
        Plan.Create.epilogue {} "p" ++ Plan.Create.terminal "p" ++ String.ofList " p".toList =
          written := by decide +kernel
    rw [Plan.Create.apply_of_carry? hsplit hcarry, ← hwritten]
    simp only [String.ofList_append, String.ofList_toList]
    rfl
  have hlacks :
      ¬(Plan.read "Person").Finds call ⟨"MATCH (person:Person) RETURN person", .empty⟩ := by
    simp only [Plan.Finds]
    decide
  have hpattern : pattern = (Plan.read "Person").fragment call := by decide
  have ha : (s .strict).Answers call ⟨person, .read "Person"⟩
      ⟨"MATCH (person:Person) RETURN person", .empty⟩ :=
    ⟨Dictionary.get?_of_mem (by simp [hentries, call]), rfl⟩
  obtain ⟨-, hlenient, -, hstrict, -⟩ := hresolve call
  have hs := (hstrict "person" pattern).2 ⟨_, _, ha, hlacks, rfl, hpattern⟩
  obtain ⟨d, base, ha', hl, hw⟩ := hlenient "person" pattern hs
  obtain rfl := (ha.unique ha').2
  refine ⟨hb, hs, hl, hw, fun p => ⟨?_, ?_, ?_⟩⟩
  · exact hboth (d := ⟨people, .read "Person"⟩) (by simp [hentries]) rfl (by decide +kernel) p
  · refine hboth (d := ⟨create, .create "Person"⟩) (by simp [hentries]) rfl ?_ p
    exact congrArg (fun x => x.result.toOption.map Statement.query) hwrite
  · exact hboth (d := ⟨attach, .attach "Movie"⟩) (by simp [hentries]) rfl (by decide +kernel) p

end TemporalGraph.VersionedSchema
