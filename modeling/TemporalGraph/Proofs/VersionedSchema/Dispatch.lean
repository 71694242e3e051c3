import TemporalGraph.Proofs.Outcome
import TemporalGraph.Proofs.Schema.TypeDirective
import TemporalGraph.Proofs.Text.Search
import TemporalGraph.VersionedSchema
/-!
How the plans of a schema are decided. Main statement: the first field that cannot have a plan
decides the error; else the last kept query of a name gives its plan, and if there is none the first
mutation of the name does.
-/

namespace TemporalGraph.VersionedSchema

open Schema (Registry)

variable {r : Registry} {c : Config}

def returnsObject (r : Registry) (f : CompiledField) : Bool :=
  (r.get? f.type.baseName).any fun t => t.kind = .object

/-- Whether a query is kept by the configuration: unless only domain types have queries, or its type
carries the domain directive. -/
def isKept (r : Registry) (c : Config) (f : CompiledField) : Bool :=
  !c.domainQueriesOnly ||
    (r.get? f.type.baseName).any fun t => t.hasDirective c.directives.domain

def returnFault? (r : Registry) (f : CompiledField) : Option Error :=
  if returnsObject r f then none else some (entityType.unsupportedReturn f)

def mutationFault? (r : Registry) (f : CompiledField) : Option Error :=
  if "create".toList <+: f.name.toList then
    if f.kind = .create then returnFault? r f else some (resolverMismatch f "create")
  else if "add".toList <+: f.name.toList then
    match f.kind with
    | .addRelation _ => none
    | _ => some (resolverMismatch f "relation-creation")
  else none

def writePlan (f : CompiledField) : Plan :=
  if "create".toList <+: f.name.toList then .create f.type.baseName
  else if "add".toList <+: f.name.toList then
    match f.kind with
    | .addRelation target => .attach target
    | _ => .unsupported
  else .unsupported

/-- The fields whose name is neither taken nor that of a field before. -/
def newcomers (taken : List String) : List CompiledField → List CompiledField
  | [] => []
  | f :: fs =>
    if f.name ∈ taken then newcomers taken fs else f :: newcomers (f.name :: taken) fs

def lastNamed (name : String) (fs : List CompiledField) : Option CompiledField :=
  (fs.filter fun f => f.name = name).getLast?

def firstNamed (name : String) (fs : List CompiledField) : Option CompiledField :=
  fs.find? fun f => f.name = name

theorem lastNamed_cons {name : String} (f : CompiledField) (fs : List CompiledField) :
    lastNamed name (f :: fs) = (lastNamed name fs).or (if f.name = name then some f else none) := by
  by_cases h : f.name = name
  · simp [lastNamed, h, List.getLast?_cons]
  · simp [lastNamed, h]

theorem lastNamed_isSome_iff {name : String} {fs : List CompiledField} :
    (lastNamed name fs).isSome ↔ ∃ f ∈ fs, f.name = name := by
  simp [lastNamed]

theorem firstNamed_cons {name : String} (f : CompiledField) (fs : List CompiledField) :
    firstNamed name (f :: fs) = if f.name = name then some f else firstNamed name fs := by
  by_cases h : f.name = name
  · simp [firstNamed, h]
  · simp [firstNamed, h]

theorem firstNamed_isSome_iff {name : String} {fs : List CompiledField} :
    (firstNamed name fs).isSome ↔ ∃ f ∈ fs, f.name = name := by
  simp [firstNamed]

theorem hasStart_iff {start name : String} :
    hasStart start name ↔ start.toList <+: name.toList := by
  rw [hasStart, Option.isSome_iff_ne_none, Ne, Text.afterLiteral?_eq_none_iff, not_not]

section Step

variable {domain : List String} {es : Entries} {f : CompiledField}

theorem entityType_eq : entityType r f =
    if returnsObject r f then .ok f.type.baseName else .error (entityType.unsupportedReturn f) := by
  simp only [entityType, returnsObject]
  split
  · rename_i t ht
    simp [ht]
  · rename_i ht
    simp [ht]

theorem result_addQuery : (addQuery r c domain es f).result =
    match returnFault? r f with
    | some e => .error (.error e)
    | none => .ok (if c.domainQueriesOnly && !domain.contains f.type.baseName then es
        else es.enter f (.read f.type.baseName)) := by
  rw [addQuery, entityType_eq, returnFault?]
  by_cases ho : returnsObject r f
  · rw [if_pos ho, if_pos ho, Outcome.ofExcept_ok, pure_bind]
    by_cases hd : (c.domainQueriesOnly && !domain.contains f.type.baseName) = true
    · rw [if_pos hd, if_pos hd]
      rfl
    · rw [if_neg hd, if_neg hd]
      rfl
  · rw [if_neg ho, if_neg ho]
    rfl

theorem result_mutationPlan : (mutationPlan r f).result =
    match mutationFault? r f with
    | some e => .error (.error e)
    | none => .ok (writePlan f) := by
  rw [mutationPlan, mutationFault?, writePlan]
  by_cases hcreate : hasStart "create" f.name
  · rw [if_pos hcreate, if_pos (hasStart_iff.1 hcreate), if_pos (hasStart_iff.1 hcreate)]
    cases f.kind with
    | create =>
      rw [if_pos rfl, returnFault?, entityType_eq]
      by_cases ho : returnsObject r f
      · rw [if_pos ho, if_pos ho]
        rfl
      · rw [if_neg ho, if_neg ho]
        rfl
    | _ => rfl
  · rw [if_neg hcreate, if_neg (mt hasStart_iff.2 hcreate), if_neg (mt hasStart_iff.2 hcreate)]
    by_cases hadd : hasStart "add" f.name
    · rw [if_pos hadd, if_pos (hasStart_iff.1 hadd), if_pos (hasStart_iff.1 hadd)]
      cases f.kind <;> rfl
    · rw [if_neg hadd, if_neg (mt hasStart_iff.2 hadd), if_neg (mt hasStart_iff.2 hadd)]
      rfl

theorem result_addMutation : (addMutation r es f).result =
    if es.table.contains f.name then .ok es
    else match mutationFault? r f with
      | some e => .error (.error e)
      | none => .ok (es.enter f (writePlan f)) := by
  rw [addMutation]
  by_cases ht : es.table.contains f.name
  · rw [if_pos ht, if_pos ht]
    rfl
  · rw [if_neg ht, if_neg ht, Outcome.result_bind, result_mutationPlan]
    cases mutationFault? r f <;> rfl

end Step

section Run

variable {domain taken : List String} {es : Entries} {fs : List CompiledField}
  {plan : CompiledField → Plan} {name : String}

def enterAll (plan : CompiledField → Plan) (es : Entries) (fs : List CompiledField) : Entries :=
  fs.foldl (fun es f => es.enter f (plan f)) es

theorem get?_enterAll : (enterAll plan es fs).table.get? name =
    ((lastNamed name fs).map fun f => ⟨f, plan f⟩).or (es.table.get? name) := by
  induction fs generalizing es with
  | nil => rfl
  | cons f fs ih =>
    have hrest := @ih (es.enter f (plan f))
    rw [enterAll, List.foldl_cons, ← enterAll, hrest, lastNamed_cons, Entries.enter,
      Dictionary.get?_insert]
    by_cases hn : f.name = name
    · cases lastNamed name fs <;> simp [hn]
    · cases lastNamed name fs <;> simp [hn, Ne.symm hn]

theorem contains_enterAll_iff (name : String) :
    (enterAll plan {} fs).table.contains name ↔ name ∈ fs.map CompiledField.name := by
  rw [Dictionary.contains, get?_enterAll, List.mem_map, ← lastNamed_isSome_iff]
  cases lastNamed name fs <;> rfl

theorem contains_names_enterAll_iff : (enterAll plan es fs).names.contains name ↔
    es.names.contains name ∨ ∃ f ∈ fs, f.name = name := by
  induction fs generalizing es with
  | nil => simp [enterAll]
  | cons f fs ih =>
    have hrest := @ih (es.enter f (plan f))
    rw [enterAll, List.foldl_cons, ← enterAll, hrest, Entries.enter, Dictionary.contains_insert,
      List.exists_mem_cons_iff, or_left_comm, eq_comm, or_assoc]

/-- The first faulty query stops the loop, also if it is one that would be dropped. -/
theorem result_addQueries : (fs.foldlM (addQuery r c domain) es).result =
    match fs.findSome? (returnFault? r) with
    | some e => .error (.error e)
    | none => .ok (enterAll (fun f => .read f.type.baseName) es
        (fs.filter fun f => !(c.domainQueriesOnly && !domain.contains f.type.baseName))) := by
  induction fs generalizing es with
  | nil => rfl
  | cons f fs ih =>
    rw [List.foldlM_cons, Outcome.result_bind, result_addQuery, List.findSome?_cons]
    cases returnFault? r f with
    | some e => rfl
    | none =>
      rw [List.filter_cons]
      by_cases hf : (c.domainQueriesOnly && !domain.contains f.type.baseName) = true
      · rw [if_pos hf, if_neg (by rw [hf]; exact Bool.false_ne_true)]
        exact ih
      · rw [if_neg hf, if_pos (by rw [Bool.eq_false_iff.2 hf]; rfl)]
        exact ih

theorem result_addMutations {table : Dictionary Dispatch} {names : Dictionary Unit}
    (ht : ∀ name, table.contains name ↔ name ∈ taken) :
    (fs.foldlM (addMutation r) ⟨table, names⟩).result =
      match (newcomers taken fs).findSome? (mutationFault? r) with
      | some e => .error (.error e)
      | none => .ok (enterAll writePlan ⟨table, names⟩ (newcomers taken fs)) := by
  induction fs generalizing table names taken with
  | nil => rfl
  | cons f fs ih =>
    rw [List.foldlM_cons, Outcome.result_bind, result_addMutation, newcomers]
    by_cases hf : f.name ∈ taken
    · rw [if_pos ((ht f.name).2 hf), if_pos hf]
      exact ih ht
    · rw [if_neg (mt (ht f.name).1 hf), if_neg hf, List.findSome?_cons]
      cases mutationFault? r f with
      | some e => rfl
      | none =>
        refine ih fun name => ?_
        rw [Dictionary.contains_insert, List.mem_cons, ht]

theorem lastNamed_newcomers : lastNamed name (newcomers taken fs) =
    if name ∈ taken then none else firstNamed name fs := by
  induction fs generalizing taken with
  | nil => exact (ite_self none).symm
  | cons f fs ih =>
    rw [newcomers, firstNamed_cons]
    by_cases hf : f.name ∈ taken
    · rw [if_pos hf, ih]
      by_cases hn : f.name = name
      · rw [if_pos (hn ▸ hf), if_pos (hn ▸ hf)]
      · rw [if_neg hn]
    · rw [if_neg hf, lastNamed_cons, ih]
      by_cases hn : f.name = name
      · simp [← hn, hf]
      · simp [hn, Ne.symm hn]

theorem mem_newcomers_iff :
    (∃ f ∈ newcomers taken fs, f.name = name) ↔ name ∉ taken ∧ ∃ f ∈ fs, f.name = name := by
  rw [← lastNamed_isSome_iff, lastNamed_newcomers, ← firstNamed_isSome_iff]
  by_cases hn : name ∈ taken <;> simp [hn]

end Run

/-! The registry that is compiled answers for the return types as the given one does. -/

section Bare

variable {directive : String} {f : CompiledField}

theorem returnsObject_withoutDirective :
    returnsObject (r.withoutDirective directive).1 f = returnsObject r f := by
  rw [returnsObject, returnsObject, Registry.get?_withoutDirective]
  cases r.get? f.type.baseName with
  | none => rfl
  | some t => by_cases hk : t.kind = .object <;> simp [hk, Schema.TypeDefinition.without]

theorem returnFault?_withoutDirective :
    returnFault? (r.withoutDirective directive).1 = returnFault? r := by
  funext f
  rw [returnFault?, returnFault?, returnsObject_withoutDirective]

theorem mutationFault?_withoutDirective :
    mutationFault? (r.withoutDirective directive).1 = mutationFault? r := by
  funext f
  rw [mutationFault?, mutationFault?, returnFault?_withoutDirective]

theorem isKept_eq (h : returnsObject r f) : isKept r c f =
    !(c.domainQueriesOnly &&
      !(r.withoutDirective c.directives.domain).2.contains f.type.baseName) := by
  obtain ⟨t, ht, hk⟩ := (Option.any_eq_true _ _).1 h
  have hmarked : (r.withoutDirective c.directives.domain).2.contains f.type.baseName =
      t.hasDirective c.directives.domain := by
    rw [Bool.eq_iff_iff, List.contains_iff_mem, Registry.mem_snd_withoutDirective]
    constructor
    · rintro ⟨u, hu, hn, -, hd⟩
      rw [Registry.mem_types, hn, ht] at hu
      rw [Option.some.inj hu]
      exact hd
    · intro hd
      exact ⟨t, Registry.mem_types_of_get? ht, Registry.name_of_get? ht, of_decide_eq_true hk, hd⟩
  rw [isKept, ht, hmarked, Bool.not_and, Bool.not_not]
  rfl

end Bare

def keptQueries (r : Registry) (c : Config) (fields : CompiledSchema) : List CompiledField :=
  fields.queries.filter (isKept r c)

def newMutations (r : Registry) (c : Config) (fields : CompiledSchema) : List CompiledField :=
  newcomers ((keptQueries r c fields).map CompiledField.name) fields.mutations

def firstFault? (r : Registry) (c : Config) (fields : CompiledSchema) : Option Error :=
  (fields.queries.findSome? (returnFault? r)).or
    ((newMutations r c fields).findSome? (mutationFault? r))

def decided? (r : Registry) (c : Config) (fields : CompiledSchema) (name : String) : Option Plan :=
  match lastNamed name (keptQueries r c fields) with
  | some q => some (.read q.type.baseName)
  | none => (firstNamed name fields.mutations).map writePlan

section Build

variable {compile : Compiler} {fields : CompiledSchema}

theorem result_build_of_error {e : Error}
    (h : compile (r.withoutDirective c.directives.domain).1 = .error e) :
    (build r compile c).result = .error (.error e) := by
  simp only [build, h]
  rfl

theorem filter_isKept (h : fields.queries.findSome? (returnFault? r) = none) :
    (fields.queries.filter fun f => !(c.domainQueriesOnly &&
      !(r.withoutDirective c.directives.domain).2.contains f.type.baseName)) =
      keptQueries r c fields := by
  refine List.filter_congr fun f hf => (isKept_eq ?_).symm
  simpa [returnFault?] using List.findSome?_eq_none_iff.1 h f hf

theorem result_build (h : compile (r.withoutDirective c.directives.domain).1 = .ok fields) :
    (build r compile c).result =
      match firstFault? r c fields with
      | some e => .error (.error e)
      | none =>
        let queries := enterAll (fun f => .read f.type.baseName) {} (keptQueries r c fields)
        let mutations := enterAll writePlan { table := queries.table } (newMutations r c fields)
        .ok ⟨(r.withoutDirective c.directives.domain).1, c, mutations.table, queries.names,
          mutations.names⟩ := by
  simp only [build, h, Outcome.ofExcept_ok, pure_bind, Outcome.result_bind, result_addQueries,
    returnFault?_withoutDirective, firstFault?]
  cases hq : fields.queries.findSome? (returnFault? r) with
  | some e => rfl
  | none =>
    rw [filter_isKept hq, Except.ok_bind, result_addMutations contains_enterAll_iff,
      mutationFault?_withoutDirective, Option.none_or, ← newMutations]
    cases (newMutations r c fields).findSome? (mutationFault? r) <;> rfl

theorem exists_build (h : compile (r.withoutDirective c.directives.domain).1 = .ok fields)
    (hf : firstFault? r c fields = none) : ∃ s, (build r compile c).result = .ok s ∧
      s.registry = (r.withoutDirective c.directives.domain).1 ∧ s.config = c ∧
      (∀ name, s.plan? name = decided? r c fields name) ∧
      (∀ name, name ∈ s.queryFields ↔ ∃ q ∈ keptQueries r c fields, q.name = name) ∧
      ∀ name, name ∈ s.mutationFields ↔ ∃ m ∈ newMutations r c fields, m.name = name := by
  refine ⟨_, by rw [result_build h, hf], rfl, rfl, fun name => ?_, fun name => ?_, fun name => ?_⟩
  · have hkept : name ∈ (keptQueries r c fields).map CompiledField.name ↔
        (lastNamed name (keptQueries r c fields)).isSome := by
      rw [List.mem_map, lastNamed_isSome_iff]
    rw [plan?, decided?, get?_enterAll, get?_enterAll, newMutations, lastNamed_newcomers]
    cases hq : lastNamed name (keptQueries r c fields) with
    | some q =>
      rw [if_pos (hkept.2 (by rw [hq]; rfl))]
      rfl
    | none =>
      rw [if_neg (mt hkept.1 (by rw [hq]; exact Bool.false_ne_true))]
      cases firstNamed name fields.mutations <;> rfl
  · rw [queryFields, ← Dictionary.contains_iff, contains_names_enterAll_iff]
    exact or_iff_right Bool.false_ne_true
  · rw [mutationFields, ← Dictionary.contains_iff, contains_names_enterAll_iff]
    exact or_iff_right Bool.false_ne_true

end Build

section Decided

variable {fields : CompiledSchema} {name : String}

theorem writePlan_ne_read (f : CompiledField) (typeName : String) :
    writePlan f ≠ .read typeName := by
  rw [writePlan]
  split
  · simp
  · split
    · cases f.kind <;> simp
    · simp

theorem decided?_eq_read_iff :
    (∃ typeName, decided? r c fields name = some (.read typeName)) ↔
      ∃ q ∈ keptQueries r c fields, q.name = name := by
  rw [← lastNamed_isSome_iff, decided?]
  cases lastNamed name (keptQueries r c fields) with
  | some q => simp
  | none =>
    refine iff_of_false ?_ Bool.false_ne_true
    rintro ⟨typeName, h⟩
    obtain ⟨f, -, hf⟩ := Option.map_eq_some_iff.1 h
    exact writePlan_ne_read f typeName hf

theorem decided?_isSome_iff : (decided? r c fields name).isSome ↔
    (∃ q ∈ keptQueries r c fields, q.name = name) ∨ ∃ m ∈ fields.mutations, m.name = name := by
  rw [← lastNamed_isSome_iff, ← firstNamed_isSome_iff, decided?]
  cases lastNamed name (keptQueries r c fields) <;> simp

theorem mem_newMutations_iff : (∃ m ∈ newMutations r c fields, m.name = name) ↔
    ¬(∃ q ∈ keptQueries r c fields, q.name = name) ∧ ∃ m ∈ fields.mutations, m.name = name := by
  rw [newMutations, mem_newcomers_iff, List.mem_map]

end Decided

/-- The compiler is given the registry without the domain directive. The schema cannot be built if
it fails or if one of its fields has a fault, and the first of these decides the error. Else the
names of the kept queries read, as the last of their name does, the names of the new mutations write
as the first of their name does, and there are no other names. -/
theorem build_dispatch (r : Registry) (compile : Compiler) (c : Config) :
    let bare := (r.withoutDirective c.directives.domain).1
    (∀ f, (entityType.unsupportedReturn f).code.text = "INT_004") ∧
    (∀ f expected, (resolverMismatch f expected).code.text = "INT_003") ∧
    (∀ e, compile bare = .error e → (build r compile c).result = .error (.error e)) ∧
    ∀ fields, compile bare = .ok fields →
      (∀ e, firstFault? r c fields = some e → (build r compile c).result = .error (.error e)) ∧
      (firstFault? r c fields = none → ∃ s, (build r compile c).result = .ok s ∧
        s.registry = bare ∧ s.config = c ∧
        (∀ name, s.plan? name = decided? r c fields name) ∧
        (∀ name, name ∈ s.queryFields ↔ ∃ q ∈ keptQueries r c fields, q.name = name) ∧
        (∀ name, name ∈ s.mutationFields ↔ ∃ m ∈ newMutations r c fields, m.name = name) ∧
        (∀ name, s.isQuery name ↔ ∃ typeName, s.plan? name = some (.read typeName)) ∧
        s.queryFields.Disjoint s.mutationFields ∧
        ∀ name, name ∈ s.queryFields ∨ name ∈ s.mutationFields ↔ (s.plan? name).isSome) := by
  intro bare
  refine ⟨fun _ => rfl, fun _ _ => rfl, fun e => result_build_of_error, fun fields h =>
    ⟨fun e he => by rw [result_build h, he], fun hf => ?_⟩⟩
  obtain ⟨s, hs, hregistry, hconfig, hplan, hquery, hmutation⟩ := exists_build h hf
  refine ⟨s, hs, hregistry, hconfig, hplan, hquery, hmutation, fun name => ?_,
    fun name hq hm => ?_, fun name => ?_⟩
  · rw [isQuery, Dictionary.contains_iff, ← queryFields, hquery, hplan, decided?_eq_read_iff]
  · exact (mem_newMutations_iff.1 ((hmutation name).1 hm)).1 ((hquery name).1 hq)
  · rw [hquery, hmutation, hplan, decided?_isSome_iff, mem_newMutations_iff]
    by_cases hq : ∃ q ∈ keptQueries r c fields, q.name = name <;> simp [hq]

/-- A dropped query leaves its name to a mutation, a kept one does not, and a second mutation of a
name is not looked at. A query that is dropped can still be at fault. -/
theorem build_dispatch_person :
    let field (name typeName : String) (kind : ResolverKind) : CompiledField :=
      ⟨name, .named typeName, kind, fun _ => .ok ⟨"RETURN 1", .empty⟩⟩
    let fields : CompiledSchema :=
      ⟨[field "person" "Movie" .query, field "movie" "Movie" .query,
          field "person" "Person" .query],
        [field "movie" "Movie" .other, field "person" "Person" .other,
          field "createPerson" "Person" .create, field "createPerson" "Person" .other,
          field "addPersonMovie" "Person" (.addRelation "Movie")]⟩
    let faulty : CompiledSchema := ⟨[field "movie" "Movie" .query, field "now" "String" .query], []⟩
    let r := Registry.ofList [⟨"Person", .object, [], [⟨"domain", .empty⟩]⟩, .object "Movie"]
    let c : Config := { domainQueriesOnly := true }
    (∃ s, (build r (fun _ => .ok fields) c).result = .ok s ∧
      s.plan? "person" = some (.read "Person") ∧ s.plan? "movie" = some .unsupported ∧
      s.plan? "createPerson" = some (.create "Person") ∧
      s.plan? "addPersonMovie" = some (.attach "Movie") ∧ s.plan? "now" = none ∧
      "person" ∈ s.queryFields ∧ "movie" ∈ s.mutationFields) ∧
    ∃ e, (build r (fun _ => .ok faulty) c).result = .error (.error e) ∧
      e.code.text = "INT_004" := by
  intro field fields faulty r c
  constructor
  · obtain ⟨-, -, -, hfields⟩ := build_dispatch r (fun _ => .ok fields) c
    obtain ⟨s, hs, -, -, hplan, hquery, hmutation, -⟩ := (hfields fields rfl).2 (by decide)
    refine ⟨s, hs, ?_⟩
    simp only [hplan, hquery, hmutation]
    decide
  · obtain ⟨hcode, -, -, hfields⟩ := build_dispatch r (fun _ => .ok faulty) c
    exact ⟨_, (hfields faulty rfl).1 _ (by decide), hcode (field "now" "String" .query)⟩

end TemporalGraph.VersionedSchema
