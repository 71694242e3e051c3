import TemporalGraph.Proofs.Schema.FieldShape
/-!
The transformation for versions, made a second time. Main statement: nothing changes, unless a link
led to a type of unknown kind, which the second pass refuses.
-/

namespace TemporalGraph.Schema

variable {c : Config} {r r' : Registry}

namespace FieldDefinition

variable {f g : FieldDefinition}

theorem Becomes.cases (h : Becomes c r f g) :
    ComputedFrom c f g ∨ ¬f.hasDirective c.directives.link ∧
      (RelatedFrom c f g ∨ (f.PointsAtNode r → f.Named c) ∧ g = f) := by
  by_cases hl : f.hasDirective c.directives.link
  · exact .inl (h.linked hl)
  · refine .inr ⟨hl, ?_⟩
    by_cases hk : f.PointsAtNode r → f.Named c
    · exact .inr ⟨hk, h.kept hl hk⟩
    · obtain ⟨hpoints, hnot⟩ := Classical.not_imp.1 hk
      exact .inl (h.related hl hpoints hnot)

theorem Becomes.unlinked (hn : c.directives.Distinct) (h : Becomes c r f g) :
    ¬g.hasDirective c.directives.link := by
  obtain hcomputed | ⟨hl, hrelated | ⟨-, rfl⟩⟩ := h.cases
  · exact hcomputed.unlinked
  · rw [hasDirective_iff]
    rintro ⟨d, hd, hname⟩
    cases hrelated.directives.mem hd with
    | inl h =>
      rw [h] at hname
      exact hn.link_relation hname.symm
    | inr h =>
      obtain ⟨e, he, rfl⟩ := h
      exact hl (hasDirective_iff.2 ⟨e, he, hname⟩)
  · exact hl

theorem named_of_relations (hg : g.name = f.name)
    (h : (g.directives.filter fun d => d.name = c.directives.relation) =
      [.single c.directives.relation "name" f.name]) : g.Named c := by
  have hmem : ∀ d ∈ g.directives, d.name = c.directives.relation →
      d = .single c.directives.relation "name" f.name := by
    intro d hd hname
    have hd' : d ∈ g.directives.filter fun d => d.name = c.directives.relation :=
      List.mem_filter.2 ⟨hd, decide_eq_true hname⟩
    rw [h] at hd'
    exact List.mem_singleton.1 hd'
  have hfirst : Directive.single c.directives.relation "name" f.name ∈ g.directives := by
    have hsingle := List.mem_singleton_self (Directive.single c.directives.relation "name" f.name)
    rw [← h] at hsingle
    exact List.mem_of_mem_filter hsingle
  refine ⟨hasDirective_iff.2 ⟨_, hfirst, rfl⟩, fun d hd hname => ?_⟩
  rw [hmem d hd hname, hg]
  rfl

theorem Becomes.named (h : Becomes c r f g) (hp : g.PointsAtNode r) : g.Named c := by
  obtain hcomputed | ⟨-, hrelated | ⟨hnamed, rfl⟩⟩ := h.cases
  · exact named_of_relations h.name hcomputed.relations
  · exact named_of_relations h.name hrelated.relations
  · exact hnamed hp

end FieldDefinition

structure Registry.Settled (c : Config) (r : Registry) : Prop where
  names : ∀ t ∈ r.objectTypes, isValidName t.name ∧ ∀ f ∈ t.fields, isValidName f.name
  unlinked : ∀ t ∈ r.objectTypes, ∀ f ∈ t.fields, ¬f.hasDirective c.directives.link
  named : ∀ t ∈ r.objectTypes, ∀ f ∈ t.fields, f.PointsAtNode r → f.Named c

namespace Registry

section FirstPass

variable {t' : TypeDefinition} {f g : FieldDefinition}

theorem pointsAt_of_versioned (hn : c.directives.Distinct) (h : (r.versioned c).result = .ok r')
    (hg : g.type = f.type) (kind : TypeKind) : g.PointsAt r' kind ↔ f.PointsAt r kind := by
  rw [FieldDefinition.PointsAt, FieldDefinition.PointsAt, hg, get?_of_versioned h]
  cases ht : r.get? f.type.baseName with
  | none => rfl
  | some t => simp [(becomes_of_versioned hn h (mem_types_of_get? ht)).kind]

theorem exists_becomes (hn : c.directives.Distinct) (h : (r.versioned c).result = .ok r')
    (ht' : t' ∈ r'.objectTypes) : ∃ t ∈ r.objectTypes, TypeDefinition.Becomes c r t t' := by
  obtain ⟨hmem, hk⟩ := mem_objectTypes.1 ht'
  rw [types_of_versioned h] at hmem
  obtain ⟨t, ht, rfl⟩ := List.mem_map.1 hmem
  have hb := becomes_of_versioned hn h ht
  exact ⟨t, mem_objectTypes.2 ⟨ht, hb.kind.symm.trans hk⟩, hb⟩

theorem exists_field_becomes (hn : c.directives.Distinct) (h : (r.versioned c).result = .ok r')
    (ht' : t' ∈ r'.objectTypes) (hg : g ∈ t'.fields) :
    ∃ t ∈ r.objectTypes, ∃ f ∈ t.fields, FieldDefinition.Becomes c r f g := by
  obtain ⟨t, ht, hb⟩ := exists_becomes hn h ht'
  obtain ⟨f, hf, hbf⟩ := (hb.fields (mem_objectTypes.1 ht).2).flip.exists_of_mem hg
  exact ⟨t, ht, f, hf, hbf⟩

theorem settled_of_versioned (hn : c.directives.Distinct) (h : (r.versioned c).result = .ok r') :
    r'.Settled c := by
  have hvalid := exists_versioned_iff.1 ⟨r', h⟩
  refine ⟨fun t' ht' => ?_, fun t' ht' g hg => ?_, fun t' ht' g hg hp => ?_⟩
  · obtain ⟨t, ht, hb⟩ := exists_becomes hn h ht'
    refine ⟨hb.name ▸ (hvalid t ht).1, fun g hg => ?_⟩
    obtain ⟨f, hf, hbf⟩ := (hb.fields (mem_objectTypes.1 ht).2).flip.exists_of_mem hg
    exact hbf.name ▸ ((hvalid t ht).2 f hf).1
  · obtain ⟨t, ht, f, hf, hb⟩ := exists_field_becomes hn h ht' hg
    exact hb.unlinked hn
  · obtain ⟨t, ht, f, hf, hb⟩ := exists_field_becomes hn h ht' hg
    have hiff := pointsAt_of_versioned hn h (rfl : g.type = g.type)
    exact hb.named (hp.imp (hiff _).1 (hiff _).1)

/-- What leads to a type of unknown kind in the result was a link, since any other field is refused
in the first pass. -/
theorem exists_unknown_iff (hn : c.directives.Distinct) (h : (r.versioned c).result = .ok r') :
    (∃ t' ∈ r'.objectTypes, ∃ g ∈ t'.fields, g.PointsAt r' .unknown) ↔
      ∃ t ∈ r.objectTypes, ∃ f ∈ t.fields, f.hasDirective c.directives.link ∧
        f.PointsAt r .unknown := by
  constructor
  · intro ⟨t', ht', g, hg, hp⟩
    obtain ⟨t, ht, f, hf, hb⟩ := exists_field_becomes hn h ht' hg
    have hpf := (pointsAt_of_versioned hn h hb.type _).1 hp
    have hlink : f.hasDirective c.directives.link := by
      by_contra hl
      obtain ⟨u, hu, hk⟩ := FieldDefinition.pointsAt_iff.1 hpf
      exact ((exists_versioned_iff.1 ⟨r', h⟩ t ht).2 f hf).2.known hl u hu hk
    exact ⟨t, ht, f, hf, hlink, hpf⟩
  · rintro ⟨t, ht, f, hf, -, hp⟩
    obtain ⟨hmem, hk⟩ := mem_objectTypes.1 ht
    have hb := becomes_of_versioned hn h hmem
    obtain ⟨g, hg, hbf⟩ := (hb.fields hk).exists_of_mem hf
    have hmem' : (t.replacement? c r).getD t ∈ r'.types := by
      rw [types_of_versioned h]
      exact List.mem_map_of_mem hmem
    exact ⟨_, mem_objectTypes.2 ⟨hmem', hb.kind.trans hk⟩, g, hg,
      (pointsAt_of_versioned hn h hbf.type _).2 hp⟩

end FirstPass

namespace Settled

theorem nameFault?_eq_none (h : r.Settled c) {t : TypeDefinition} (ht : t ∈ r.objectTypes) :
    t.nameFault? = none :=
  TypeDefinition.nameFault?_eq_none_iff.2 (h.names t ht)

theorem not_change (h : r.Settled c) {t : TypeDefinition} (ht : t ∈ r.objectTypes)
    {f f' : FieldDefinition} (hf : f ∈ t.fields) : ¬f.Change c r (some f') := by
  intro hc
  cases hc with
  | linked hl _ => exact h.unlinked t ht f hf hl
  | related _ hu hk hr =>
    have hpoints := FieldDefinition.pointsAtNode_iff.2 ⟨_, hu, hk⟩
    exact hr (FieldDefinition.isRelated_iff.2 (h.named t ht f hf hpoints))

theorem eq_of_eq_ok (h : r.Settled c) (hr : (r.versioned c).result = .ok r') : r' = r := by
  have hnone : ∀ t ∈ r.types, t.replacement? c r = none := by
    intro t ht
    by_cases hobject : t.kind = .object
    · have hmem : t ∈ r.objectTypes := mem_objectTypes.2 ⟨ht, hobject⟩
      have hv := versioned?_eq_replacement? hr hmem
      cases hu : t.replacement? c r with
      | none => rfl
      | some u =>
        rw [hu] at hv
        obtain ⟨f, hf, f', hc⟩ := TypeDefinition.exists_change_of_versioned? hv
        exact absurd hc (h.not_change hmem hf)
    · exact TypeDefinition.replacement?_of_ne hobject
  rw [versioned_eq_addAll hr, List.filterMap_eq_nil_iff.2 hnone]
  rfl

theorem of_eq_error (h : r.Settled c) {e : Fault} (he : (r.versioned c).result = .error e) :
    (∃ t ∈ r.objectTypes, ∃ f ∈ t.fields, f.PointsAt r .unknown) ∧
      ∃ detail, e = .error (.consistency detail .unknownTypeKind) := by
  obtain ⟨t, ht, he⟩ := exists_of_versioned_eq_error he
  obtain ⟨f, hf, he⟩ :=
    TypeDefinition.exists_of_versioned?_eq_error (h.nameFault?_eq_none ht) he
  have hl := h.unlinked t ht f hf
  cases hu : r.get? f.type.baseName with
  | none =>
    rw [FieldDefinition.versioned?_of_undeclared hl hu] at he
    cases he
  | some u =>
    rw [FieldDefinition.versioned?_of_declared hl hu] at he
    cases hk : u.kind with
    | unknown =>
      rw [hk] at he
      exact ⟨⟨t, ht, f, hf, FieldDefinition.pointsAt_iff.2 ⟨u, hu, hk⟩⟩,
        _, (Except.error.inj he).symm⟩
    | _ =>
      rw [hk] at he
      cases he

theorem exists_eq_error_iff (h : r.Settled c) : (∃ e, (r.versioned c).result = .error e) ↔
    ∃ t ∈ r.objectTypes, ∃ f ∈ t.fields, f.PointsAt r .unknown := by
  constructor
  · intro ⟨e, he⟩
    exact (h.of_eq_error he).1
  · intro ⟨t, ht, f, hf, hp⟩
    cases hr : (r.versioned c).result with
    | error e => exact ⟨e, rfl⟩
    | ok r' =>
      obtain ⟨u, hu, hk⟩ := FieldDefinition.pointsAt_iff.1 hp
      have haccepted := ((exists_versioned_iff.1 ⟨r', hr⟩ t ht).2 f hf).2
      exact absurd hk (haccepted.known (h.unlinked t ht f hf) u hu)

end Settled

/-- After one pass a second one leaves every definition as it is and shares it, or it fails for an
unknown kind. It fails exactly if a link of the registry led to a type of unknown kind. -/
theorem versioned_versioned (r : Registry) (c : Config) (hn : c.directives.Distinct) {r' : Registry}
    (h : (r.versioned c).result = .ok r') :
    (∀ r'', (r'.versioned c).result = .ok r'' → r''.sameTypes r' ∧
      r'.shared r'' = r'.types.map TypeDefinition.name) ∧
    (∀ e, (r'.versioned c).result = .error e →
      ∃ e', e = .error e' ∧ e'.code = .unknownTypeKind ∧ e'.code.text = "INT_002") ∧
    ((∃ e, (r'.versioned c).result = .error e) ↔
      ∃ t ∈ r.objectTypes, ∃ f ∈ t.fields, f.hasDirective c.directives.link ∧
        f.PointsAt r .unknown) := by
  have hs : r'.Settled c := settled_of_versioned hn h
  refine ⟨fun r'' h' => ?_, fun e he => ?_, ?_⟩
  · obtain rfl := hs.eq_of_eq_ok h'
    exact ⟨decide_eq_true rfl, shared_self _⟩
  · obtain ⟨-, detail, rfl⟩ := hs.of_eq_error he
    exact ⟨_, rfl, rfl, rfl⟩
  · rw [hs.exists_eq_error_iff]
    exact exists_unknown_iff hn h

/-- A link to a type of unknown kind passes once. -/
theorem versioned_versioned_shape :
    let shape : FieldDefinition := ⟨"shape", .named "Shape", [], [⟨"link", .empty⟩]⟩
    let person : TypeDefinition := ⟨"Person", .object, [shape], []⟩
    let r := ofList [person, ⟨"Shape", .unknown, [], []⟩]
    ({} : Config).directives.Distinct ∧ ∃ r', (r.versioned {}).result = .ok r' ∧
      ∃ e, (r'.versioned {}).result = .error (.error e) ∧ e.code.text = "INT_002" := by
  intro shape person r
  have hn : ({} : Config).directives.Distinct := ⟨by decide, by decide, by decide⟩
  have hobjects : r.objectTypes = [person] := by decide
  have haccepted : shape.Accepted {} r := ⟨fun _ => rfl, fun hl => absurd rfl hl⟩
  obtain ⟨r', hr'⟩ := exists_versioned_iff.2 fun t ht => by
    obtain rfl := List.mem_singleton.1 (hobjects ▸ ht)
    exact ⟨by decide, List.forall_mem_singleton.2 ⟨by decide, haccepted⟩⟩
  obtain ⟨-, hcode, hiff⟩ := versioned_versioned r {} hn hr'
  have hperson : person ∈ r.objectTypes := hobjects ▸ List.mem_singleton_self _
  obtain ⟨e, he⟩ := hiff.2 ⟨person, hperson, shape, List.mem_singleton_self _, rfl, by decide⟩
  obtain ⟨e', rfl, -, htext⟩ := hcode e he
  exact ⟨hn, r', hr', e', he, htext⟩

end Registry

end TemporalGraph.Schema
