import TemporalGraph.Proofs.Schema.Versioned
/-!
Which registries cannot be made ready for versions, and why. Main statement: the transformation
fails exactly if an object type is refused, and it fails with the refusal of the first such type in
the order of names. Of a type its name is looked at first, then the names of its fields, and then
the fields themselves.
-/

namespace TemporalGraph.Schema

variable {c : Config} {r : Registry}

namespace TypeRef

variable {t : TypeRef}

theorem listElement?_of_list {e : TypeRef} (h : t = .list e ∨ t = .nonNull (.list e)) :
    t.listElement? = some e.stripNonNull := by
  rcases h with rfl | rfl
  · rfl
  · rfl

theorem isList_iff : t.isList ↔ ∃ e, t = .list e ∨ t = .nonNull (.list e) := by
  cases t with
  | named name => simp [isList, stripNonNull]
  | list e => simp [isList, stripNonNull]
  | nonNull t => cases t <;> simp [isList, stripNonNull]

theorem simpleName?_eq_none_iff :
    t.simpleName? = none ↔ ∀ name, t ≠ .named name ∧ t ≠ .nonNull (.named name) := by
  cases t with
  | named name => simp [simpleName?, stripNonNull]
  | list e => simp [simpleName?, stripNonNull]
  | nonNull t => cases t <;> simp [simpleName?, stripNonNull]

end TypeRef

namespace FieldDefinition

variable {f : FieldDefinition} {owner : String} {e : Error}

inductive Refused (f : FieldDefinition) (c : Config) (r : Registry) (owner : String) :
    Error → Prop where
  /-- A link leads to a list, and the element less one non-null is neither `T` nor `T!`. -/
  | nestedList {element : TypeRef} (hl : f.hasDirective c.directives.link)
      (ht : f.type = .list element ∨ f.type = .nonNull (.list element))
      (he : ∀ name, element.stripNonNull ≠ .named name ∧
        element.stripNonNull ≠ .nonNull (.named name)) :
      Refused f c r owner (.schema owner f.name
        s!"list element of link field type {f.type.render} is not a named type" .nestedListTarget)
  /-- A field that is no link leads to a definition whose kind is not known. -/
  | unknownKind {t : TypeDefinition} (hl : ¬f.hasDirective c.directives.link)
      (ht : r.get? f.type.baseName = some t) (hk : t.kind = .unknown) :
      Refused f c r owner (.consistency
        s!"{owner}.{f.name} targets '{t.name}' whose definition kind is not recognized"
        .unknownTypeKind)

theorem linkTarget?_eq_none_iff : f.linkTarget? = none ↔
    ∃ element, (f.type = .list element ∨ f.type = .nonNull (.list element)) ∧
      ∀ name, element.stripNonNull ≠ .named name ∧
        element.stripNonNull ≠ .nonNull (.named name) := by
  simp only [← TypeRef.simpleName?_eq_none_iff]
  by_cases hl : f.type.isList
  · obtain ⟨element, ht⟩ := TypeRef.isList_iff.1 hl
    rw [linkTarget?, if_pos hl, TypeRef.listElement?_of_list ht, Option.bind_some]
    constructor
    · exact fun h => ⟨element, ht, h⟩
    · rintro ⟨element', ht', h⟩
      have hsame := TypeRef.listElement?_of_list ht
      rw [TypeRef.listElement?_of_list ht'] at hsame
      rwa [← Option.some.inj hsame]
  · rw [linkTarget?, if_neg hl]
    refine iff_of_false (Option.some_ne_none _) ?_
    rintro ⟨element, ht, -⟩
    exact hl (TypeRef.isList_iff.2 ⟨element, ht⟩)

theorem versioned?_eq_error_iff {fault : Fault} : (f.versioned? c r owner).result = .error fault ↔
    ∃ e, f.Refused c r owner e ∧ fault = .error e := by
  constructor
  · intro h
    by_cases hl : f.hasDirective c.directives.link
    · rw [versioned?_of_link hl] at h
      cases ht : f.linkTarget? with
      | some target =>
        rw [ht] at h
        cases h
      | none =>
        rw [ht] at h
        obtain ⟨element, ht, he⟩ := linkTarget?_eq_none_iff.1 ht
        exact ⟨_, .nestedList hl ht he, (Except.error.inj h).symm⟩
    · cases ht : r.get? f.type.baseName with
      | none =>
        rw [versioned?_of_undeclared hl ht] at h
        cases h
      | some t =>
        rw [versioned?_of_declared hl ht] at h
        cases hk : t.kind with
        | unknown =>
          rw [hk] at h
          exact ⟨_, .unknownKind hl ht hk, (Except.error.inj h).symm⟩
        | _ =>
          rw [hk] at h
          cases h
  · rintro ⟨e, h, rfl⟩
    cases h with
    | nestedList hl ht he => rw [versioned?_of_link hl, linkTarget?_eq_none_iff.2 ⟨_, ht, he⟩]
    | unknownKind hl ht hk => rw [versioned?_of_declared hl ht, hk]

theorem Refused.code (h : f.Refused c r owner e) :
    e.code.text = if f.hasDirective c.directives.link then "SCH_001" else "INT_002" := by
  cases h with
  | nestedList hl ht he => simp only [if_pos hl, Error.code, ErrorCode.text]
  | unknownKind hl ht hk => simp only [if_neg hl, Error.code, ErrorCode.text]

theorem Refused.names (h : f.Refused c r owner e) :
    (owner ++ "." ++ f.name).toList <:+: e.message.toList := by
  have hmessage : ∃ front back, e.message = front ++ (owner ++ "." ++ f.name) ++ back := by
    cases h with
    | nestedList hl ht he =>
      let detail := s!"list element of link field type {f.type.render} is not a named type"
      exact ⟨"Schema validation error in ", ": " ++ detail, calc
        _ = "Schema validation error in " ++ owner ++ "." ++ f.name ++ ": " ++ detail := rfl
        _ = _ := by simp only [String.append_assoc]⟩
    | @unknownKind t hl ht hk =>
      let detail := " targets '" ++ t.name ++ "' whose definition kind is not recognized"
      exact ⟨"Internal consistency error: ", detail, calc
        _ = "Internal consistency error: " ++ (owner ++ "." ++ f.name ++ " targets '" ++ t.name ++
          "' whose definition kind is not recognized") := rfl
        _ = _ := by simp only [detail, String.append_assoc]⟩
  obtain ⟨front, back, h⟩ := hmessage
  rw [h]
  simp only [String.toList_append]
  exact List.infix_append front.toList _ back.toList

end FieldDefinition

namespace TypeDefinition

variable {t : TypeDefinition} {e : Error}

inductive Refused (t : TypeDefinition) (c : Config) (r : Registry) : Error → Prop where
  | typeName (hn : ¬isValidName t.name) : Refused t c r (.invalidName t.name "")
  | fieldName {f : FieldDefinition} (hn : isValidName t.name)
      (hf : t.fields.IsFirst (fun g => ¬isValidName g.name) f) :
      Refused t c r (.invalidName t.name f.name)
  | field {f : FieldDefinition} {e : Error}
      (hn : isValidName t.name ∧ ∀ g ∈ t.fields, isValidName g.name)
      (hf : t.fields.IsFirst (fun g => ∃ e, g.Refused c r t.name e) f)
      (he : f.Refused c r t.name e) : Refused t c r e

theorem nameFault?_eq_some_iff : t.nameFault? = some e ↔
    ¬isValidName t.name ∧ e = .invalidName t.name "" ∨
      isValidName t.name ∧ ∃ f, t.fields.IsFirst (fun g => ¬isValidName g.name) f ∧
        e = .invalidName t.name f.name := by
  have hfind (f : FieldDefinition) : t.fields.find? (fun g => !isValidName g.name) = some f ↔
      t.fields.IsFirst (fun g => ¬isValidName g.name) f := by
    simp only [List.find?_eq_some_iff_append, List.IsFirst, Bool.not_eq_true', Bool.not_eq_true,
      Bool.not_eq_false', Bool.not_eq_false]
    constructor
    · intro ⟨hf, before, after, h, hb⟩
      exact ⟨before, after, h, hf, hb⟩
    · intro ⟨before, after, h, hf, hb⟩
      exact ⟨hf, before, after, h, hb⟩
  rw [nameFault?]
  by_cases hn : isValidName t.name
  · rw [if_pos hn, Option.map_eq_some_iff]
    simp only [hfind, hn, not_true_eq_false, false_and, true_and, false_or, eq_comm]
  · rw [if_neg hn, Option.some.injEq]
    simp only [hn, not_false_eq_true, true_and, Bool.false_eq_true, false_and, or_false, eq_comm]

theorem refused_iff : t.Refused c r e ↔ t.nameFault? = some e ∨ t.nameFault? = none ∧
    ∃ f, t.fields.IsFirst (fun g => ∃ e, g.Refused c r t.name e) f ∧ f.Refused c r t.name e := by
  constructor
  · intro h
    cases h with
    | typeName hn => exact .inl (nameFault?_eq_some_iff.2 (.inl ⟨hn, rfl⟩))
    | fieldName hn hf => exact .inl (nameFault?_eq_some_iff.2 (.inr ⟨hn, _, hf, rfl⟩))
    | field hn hf he => exact .inr ⟨nameFault?_eq_none_iff.2 hn, _, hf, he⟩
  · rintro (h | ⟨hn, f, hf, he⟩)
    · rcases nameFault?_eq_some_iff.1 h with ⟨hn, rfl⟩ | ⟨hn, f, hf, rfl⟩
      · exact .typeName hn
      · exact .fieldName hn hf
    · exact .field (nameFault?_eq_none_iff.1 hn) hf he

theorem versioned?_eq_error_iff {fault : Fault} : (t.versioned? c r).result = .error fault ↔
    ∃ e, t.Refused c r e ∧ fault = .error e := by
  have hstep (f : FieldDefinition) (fault : Fault) :
      (do return (f, ← f.versioned? c r t.name) : Outcome _).result = .error fault ↔
        ∃ e, f.Refused c r t.name e ∧ fault = .error e :=
    Outcome.result_bind_pure_eq_error_iff.trans FieldDefinition.versioned?_eq_error_iff
  simp only [refused_iff]
  cases hn : t.nameFault? with
  | some e =>
    have hfail : (t.versioned? c r).result = .error (.error e) := by
      rw [versioned?, hn]
      rfl
    simp [hfail, eq_comm]
  | none =>
    have hresult : (t.versioned? c r).result = .error fault ↔
        ∃ f e, t.fields.IsFirst (fun g => ∃ e, g.Refused c r t.name e) f ∧
          f.Refused c r t.name e ∧ fault = .error e := by
      rw [versioned?, hn]
      exact Outcome.result_bind_pure_eq_error_iff.trans (Outcome.mapM_eq_refused_iff hstep)
    rw [hresult]
    constructor
    · rintro ⟨f, e, hf, he, h⟩
      exact ⟨e, .inr ⟨rfl, f, hf, he⟩, h⟩
    · rintro ⟨e, h | ⟨-, f, hf, he⟩, hfault⟩
      · cases h
      · exact ⟨f, e, hf, he, hfault⟩

theorem not_exists_refused_iff : (¬∃ e, t.Refused c r e) ↔
    isValidName t.name ∧ ∀ f ∈ t.fields, isValidName f.name ∧ f.Accepted c r := by
  rw [← exists_versioned?_iff]
  cases h : (t.versioned? c r).result with
  | ok o =>
    refine iff_of_true ?_ ⟨o, rfl⟩
    intro ⟨e, he⟩
    have hfail := versioned?_eq_error_iff.2 ⟨e, he, rfl⟩
    rw [h] at hfail
    cases hfail
  | error fault =>
    obtain ⟨e, he, -⟩ := versioned?_eq_error_iff.1 h
    refine iff_of_false (not_not.2 ⟨e, he⟩) ?_
    rintro ⟨o, ho⟩
    cases ho

end TypeDefinition

namespace Registry

theorem sorted_objectTypes (r : Registry) :
    (r.objectTypes.map TypeDefinition.name).Pairwise (· < ·) := by
  have hsorted : (r.types.map TypeDefinition.name).Pairwise (· < ·) := by
    rw [map_name_types]
    exact r.table.sorted
  exact hsorted.sublist (List.filter_sublist.map _)

theorem versioned_eq_error_iff {fault : Fault} : (r.versioned c).result = .error fault ↔
    ∃ t e, r.objectTypes.IsFirst (fun u => ∃ e, u.Refused c r e) t ∧ t.Refused c r e ∧
      fault = .error e := by
  rw [versioned, Outcome.result_bind_pure_eq_error_iff]
  exact Outcome.mapM_eq_refused_iff fun _ _ => TypeDefinition.versioned?_eq_error_iff

/-- Object types stand in the order of their names. The transformation fails exactly if one of them
is refused, and it fails with the refusal of the first of these. A name that is not valid, of a type
or of a field, a link to a list of lists and a field of unknown kind have codes of their own, and
the message names the type and the field. -/
theorem versioned_refused (r : Registry) (c : Config) :
    (r.objectTypes.map TypeDefinition.name).Pairwise (· < ·) ∧
    ((∃ fault, (r.versioned c).result = .error fault) ↔
      ∃ t ∈ r.objectTypes, ∃ e, t.Refused c r e) ∧
    (∀ fault, (r.versioned c).result = .error fault ↔
      ∃ t e, r.objectTypes.IsFirst (fun u => ∃ e, u.Refused c r e) t ∧ t.Refused c r e ∧
        fault = .error e) ∧
    (∀ typeName field, (Error.invalidName typeName field).code.text = "SCH_002") ∧
    ∀ (owner : String) (f : FieldDefinition) (e : Error), f.Refused c r owner e →
      e.code.text = (if f.hasDirective c.directives.link then "SCH_001" else "INT_002") ∧
        (owner ++ "." ++ f.name).toList <:+: e.message.toList := by
  refine ⟨r.sorted_objectTypes, ?_, fun _ => versioned_eq_error_iff, fun _ _ => rfl,
    fun _ _ _ h => ⟨h.code, h.names⟩⟩
  rw [← List.exists_isFirst_iff]
  simp only [versioned_eq_error_iff]
  constructor
  · intro ⟨_, t, _, ht, _⟩
    exact ⟨t, ht⟩
  · intro ⟨t, ht⟩
    obtain ⟨_, _, _, ⟨e, he⟩, _⟩ := id ht
    exact ⟨_, t, e, ht, he, rfl⟩

/-- The second object type has a link to a list of lists, before a field of unknown kind. -/
theorem versioned_refused_movie :
    let best : FieldDefinition := ⟨"best", .named "Movie", [], []⟩
    let shots : FieldDefinition :=
      ⟨"shots", .nonNull (.list (.nonNull (.list (.named "Shot")))), [], [⟨"link", .empty⟩]⟩
    let poster : FieldDefinition := ⟨"poster", .named "Shot", [], []⟩
    let actor : TypeDefinition := ⟨"Actor", .object, [best], []⟩
    let movie : TypeDefinition := ⟨"Movie", .object, [shots, poster], []⟩
    let zoo : TypeDefinition := ⟨"Z o o", .object, [poster], []⟩
    let r := ofList [zoo, ⟨"Shot", .unknown, [], []⟩, movie, actor]
    ∃ e, (r.versioned {}).result = .error (.error e) ∧ e.code.text = "SCH_001" ∧
      "Movie.shots".toList <:+: e.message.toList := by
  intro best shots poster actor movie zoo r
  obtain ⟨-, -, hfirst, -, hcode⟩ := versioned_refused r {}
  have hobjects : r.objectTypes = [actor, movie, zoo] := by decide
  have hactor : ¬∃ e, actor.Refused {} r e := by
    refine TypeDefinition.not_exists_refused_iff.2 ⟨by decide, fun f hf => ?_⟩
    obtain rfl := List.mem_singleton.1 hf
    have htarget : r.get? "Movie" = some movie := by decide
    refine ⟨by decide, fun hl => absurd hl (by decide), fun _ t ht => ?_⟩
    obtain rfl := Option.some.inj (htarget.symm.trans ht)
    decide
  have helement : ∀ name, (TypeRef.list (.named "Shot")) ≠ .named name ∧
      (TypeRef.list (.named "Shot")) ≠ .nonNull (.named name) := by simp
  have hshots : shots.Refused {} r "Movie" _ := .nestedList rfl (.inr rfl) helement
  have hmovie : movie.Refused {} r _ :=
    .field (by decide) ⟨[], [poster], rfl, ⟨_, hshots⟩, List.forall_mem_nil _⟩ hshots
  have hresult := (hfirst _).2 ⟨movie, _, ⟨[actor], [zoo], hobjects, ⟨_, hmovie⟩,
    List.forall_mem_singleton.2 hactor⟩, hmovie, rfl⟩
  obtain ⟨htext, hnames⟩ := hcode "Movie" shots _ hshots
  exact ⟨_, hresult, htext, hnames⟩

end Registry

end TemporalGraph.Schema
