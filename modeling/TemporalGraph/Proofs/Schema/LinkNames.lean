import TemporalGraph.Proofs.Schema.Versioned
/-!
The names in the statements of links. Main statement: a statement that the transformation writes
leads along the name of the field, which is valid, to the target of its type, which has a valid name
if an object type of the registry is named so. The targets of other kinds and those without a
definition are not looked at; any text is taken for the name of such a target.
-/

namespace TemporalGraph.Schema

variable {c : Config} {r r' : Registry}

namespace Directive

variable {d e : Directive} {ds : List Directive}

theorem mem_replaceIn (h : e ∈ d.replaceIn ds) : e = d ∨ e ∈ ds := by
  induction ds with
  | nil => exact .inl (List.mem_singleton.1 h)
  | cons a ds ih =>
    rw [replaceIn] at h
    split at h
    · cases h with
      | head => exact .inl rfl
      | tail _ h => exact .inr (List.mem_cons_of_mem _ (List.mem_of_mem_filter h))
    · cases h with
      | head => exact .inr List.mem_cons_self
      | tail _ h => exact (ih h).imp_right (List.mem_cons_of_mem _)

theorem mem_replaceIn_of_ne (h : e ∈ ds) (hn : e.name ≠ d.name) : e ∈ d.replaceIn ds := by
  induction ds with
  | nil => cases h
  | cons a ds ih =>
    rw [replaceIn]
    split
    · rename_i ha
      cases h with
      | head => exact absurd ha hn
      | tail _ h => exact List.mem_cons_of_mem _ (List.mem_filter.2 ⟨h, bne_iff_ne.2 hn⟩)
    · cases h with
      | head => exact List.mem_cons_self
      | tail _ h => exact List.mem_cons_of_mem _ (ih h)

end Directive

namespace FieldDefinition

variable {f : FieldDefinition} {o : Option FieldDefinition} {target : String} {d : Directive}

theorem mem_directives_linked (h : d ∈ (f.linked c target).directives) :
    d = Directive.relation c f ∨ d = Directive.statement c (linkStatement c f.name target) ∨
      d ∈ f.directives := by
  cases Directive.mem_replaceIn h with
  | inl h => exact .inl h
  | inr h =>
    obtain ⟨e, he, rfl⟩ := List.mem_map.1 h
    by_cases hn : e.name = c.directives.link
    · rw [if_pos hn]
      exact .inr (.inl rfl)
    · rw [if_neg hn]
      exact .inr (.inr he)

theorem statement_mem_linked (hl : f.hasDirective c.directives.link)
    (hn : c.directives.cypher ≠ c.directives.relation) :
    Directive.statement c (linkStatement c f.name target) ∈ (f.linked c target).directives := by
  obtain ⟨d, hd, hname⟩ := hasDirective_iff.1 hl
  exact Directive.mem_replaceIn_of_ne (List.mem_map.2 ⟨d, hd, if_pos hname⟩) hn

theorem Change.name_type (h : f.Change c r o) :
    (o.getD f).name = f.name ∧ (o.getD f).type = f.type := by
  cases h <;> exact ⟨rfl, rfl⟩

/-- A statement of the changed field was there before, or leads to the target of the link. -/
theorem Change.statement (h : f.Change c r o) (hd : d ∈ (o.getD f).directives)
    (hs : (d.stringArgument? "statement").isSome) : d ∈ f.directives ∨
      ∃ target, f.linkTarget? = some target ∧
        d = Directive.statement c (linkStatement c f.name target) := by
  have hrelation : d ≠ Directive.relation c f := by
    rintro rfl
    cases hs
  cases h with
  | linked hl ht =>
    cases mem_directives_linked hd with
    | inl h => exact absurd h hrelation
    | inr h =>
      cases h with
      | inl h => exact .inr ⟨_, ht, h⟩
      | inr h => exact .inl h
  | related hl ht hk hr =>
    cases Directive.mem_replaceIn hd with
    | inl h => exact absurd h hrelation
    | inr h => exact .inl h
  | kept hl h => exact .inl hd

end FieldDefinition

namespace Registry

theorem statement_of_versioned (h : (r.versioned c).result = .ok r') {t' : TypeDefinition}
    (ht' : t' ∈ r'.types) {f' : FieldDefinition} (hf' : f' ∈ t'.fields) {d : Directive}
    (hd : d ∈ f'.directives) (hs : (d.stringArgument? "statement").isSome) :
    (∃ t ∈ r.types, t.name = t'.name ∧ ∃ f ∈ t.fields, f.name = f'.name ∧ d ∈ f.directives) ∨
      ∃ t ∈ r.objectTypes, ∃ f ∈ t.fields, f.name = f'.name ∧ ∃ target,
        f'.linkTarget? = some target ∧
          d = Directive.statement c (linkStatement c f'.name target) := by
  cases mem_types_of_versioned h ht' with
  | inl ht => exact .inl ⟨t', ht, rfl, f', hf', rfl, hd⟩
  | inr hex =>
    obtain ⟨t, ht, hv⟩ := hex
    obtain ⟨f, hf, o, hc, rfl⟩ := TypeDefinition.exists_field_of_versioned? hv hf'
    obtain ⟨hname, htype⟩ := hc.name_type
    cases hc.statement hd hs with
    | inl hd =>
      exact .inl ⟨t, (mem_objectTypes.1 ht).1, (TypeDefinition.name_of_versioned? hv).symm, f, hf,
        hname.symm, hd⟩
    | inr hl =>
      obtain ⟨target, htarget, hstatement⟩ := hl
      refine .inr ⟨t, ht, f, hf, hname.symm, target, ?_, ?_⟩
      · rwa [FieldDefinition.linkTarget?, htype]
      · rwa [hname]

/-- The transformation succeeds exactly if the object types and their fields have valid names and
every field is accepted. A statement in its result was in the registry, or is that of a link, with
the valid name of its field and the target of its type, whose name is valid if it is the name of an
object type. Every link gets such a statement. -/
theorem versioned_link_names (r : Registry) (c : Config) :
    ((∃ r', (r.versioned c).result = .ok r') ↔
      ∀ t ∈ r.objectTypes, isValidName t.name ∧ ∀ f ∈ t.fields, isValidName f.name ∧
        f.Accepted c r) ∧
    ∀ r', (r.versioned c).result = .ok r' →
      (∀ t' ∈ r'.types, ∀ f' ∈ t'.fields, ∀ d ∈ f'.directives,
        (d.stringArgument? "statement").isSome →
        (∃ t ∈ r.types, t.name = t'.name ∧ ∃ f ∈ t.fields, f.name = f'.name ∧ d ∈ f.directives) ∨
        ∃ target, f'.linkTarget? = some target ∧
          d = Directive.statement c (linkStatement c f'.name target) ∧ isValidName f'.name ∧
          ∀ t ∈ r.objectTypes, t.name = target → isValidName target) ∧
      (c.directives.cypher ≠ c.directives.relation →
        ∀ t ∈ r.objectTypes, ∀ f ∈ t.fields, f.hasDirective c.directives.link →
          ∃ target, f.linkTarget? = some target ∧
            ∃ t' ∈ r'.types, t'.name = t.name ∧ ∃ f' ∈ t'.fields, f'.name = f.name ∧
              Directive.statement c (linkStatement c f.name target) ∈ f'.directives) := by
  refine ⟨exists_versioned_iff, fun r' h => ?_⟩
  have hvalid := exists_versioned_iff.1 ⟨r', h⟩
  constructor
  · intro t' ht' f' hf' d hd hs
    refine (statement_of_versioned h ht' hf' hd hs).imp_right fun hex => ?_
    obtain ⟨t, ht, f, hf, hname, target, htarget, hstatement⟩ := hex
    have hfield : isValidName f'.name := hname ▸ ((hvalid t ht).2 f hf).1
    refine ⟨target, htarget, hstatement, hfield, fun u hu hn => ?_⟩
    exact hn ▸ (hvalid u hu).1
  · intro hne t ht f hf hl
    obtain ⟨target, htarget⟩ := Option.isSome_iff_exists.1 (((hvalid t ht).2 f hf).2.target hl)
    obtain ⟨o, ho⟩ := TypeDefinition.exists_versioned?_iff.2 (hvalid t ht)
    obtain ⟨t', rfl, hf'⟩ := TypeDefinition.exists_versioned?_of_change ho hf (.linked hl htarget)
    exact ⟨target, htarget, t', mem_types_versioned h ht ho, TypeDefinition.name_of_versioned? ho,
      _, hf', rfl, FieldDefinition.statement_mem_linked hl hne⟩

/-- The name of an interface is not looked at, and ends one clause and begins another one. -/
theorem versioned_link_names_interface :
    let target := "Movie) DETACH DELETE (x"
    let friend : FieldDefinition := ⟨"friend", .named target, [], [⟨"link", .empty⟩]⟩
    let person := (TypeDefinition.object "Person").withField friend
    let r := ofList [person, ⟨target, .interface, [], []⟩]
    let statement := "MATCH (this)-[:friend]->(:Movie) DETACH DELETE (x_R:RESOURCE)"
      ++ "<-[v:VERSION_OF]-(n:Movie) DETACH DELETE (x:INSTANCE) "
      ++ "WHERE v.from <= $ver AND coalesce($ver < v.to, true) RETURN n"
    ¬isValidName target ∧ ∃ r', (r.versioned {}).result = .ok r' ∧ ∃ t' ∈ r'.types,
      t'.name = "Person" ∧ ∃ f' ∈ t'.fields, f'.name = "friend" ∧
        Directive.statement {} statement ∈ f'.directives := by
  intro target friend person r statement
  have hobjects : r.objectTypes = [person] := by decide
  have hvalid : ∀ t ∈ r.objectTypes, isValidName t.name ∧ ∀ f ∈ t.fields, isValidName f.name ∧
      f.Accepted {} r := by
    intro t ht
    obtain rfl := List.mem_singleton.1 (hobjects ▸ ht)
    refine ⟨by decide, fun f hf => ?_⟩
    obtain rfl := List.mem_singleton.1 hf
    exact ⟨by decide, fun _ => rfl, fun hn => absurd rfl hn⟩
  obtain ⟨hiff, hrun⟩ := versioned_link_names r {}
  obtain ⟨r', hr'⟩ := hiff.2 hvalid
  have hperson : person ∈ r.objectTypes := hobjects ▸ List.mem_singleton_self _
  obtain ⟨target', htarget, t', ht', hname, f', hf', hfield, hd⟩ :=
    (hrun r' hr').2 (by decide) person hperson friend (List.mem_singleton_self _) rfl
  obtain rfl : target = target' := Option.some.inj htarget
  have hstatement : linkStatement {} friend.name target = statement := by
    decide +kernel
  rw [hstatement] at hd
  exact ⟨by decide, r', hr', t', ht', hname, f', hf', hfield, hd⟩

end Registry

end TemporalGraph.Schema
