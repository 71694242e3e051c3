import TemporalGraph.Proofs.Schema.SecondPass
/-!
What the transformation for versions copies. Main statement: a definition is shared with the source
exactly if it is equal to the one there, and one that is copied is an object with another field.
-/

namespace TemporalGraph.Schema

variable {c : Config} {r r' : Registry}

theorem FieldDefinition.Change.ne {f f' : FieldDefinition} (hn : c.directives.Distinct)
    (h : f.Change c r (some f')) : f' ≠ f := by
  intro he
  cases h with
  | linked hl ht =>
    obtain rfl := linkTarget?_eq ht
    have hunlinked := (computedFrom_linked hn f).unlinked
    rw [he] at hunlinked
    exact hunlinked hl
  | related hl ht hk hr =>
    have hnamed : (f.withRelation c).Named c :=
      named_of_relations rfl (relatedFrom_withRelation c f).relations
    rw [he] at hnamed
    exact hr (isRelated_iff.2 hnamed)

namespace TypeDefinition

variable {t t' : TypeDefinition}

def FieldDiffers (t t' : TypeDefinition) : Prop := ∃ p ∈ t.fields.zip t'.fields, p.1 ≠ p.2

theorem FieldDiffers.ne (h : t.FieldDiffers t') : t ≠ t' := by
  rintro rfl
  obtain ⟨p, hp, hne⟩ := h
  have hself : t.fields.zip t.fields = t.fields.map fun f => (f, f) := by
    simpa using List.zip_map' (f := id) (g := id) (l := t.fields)
  rw [hself] at hp
  obtain ⟨f, -, rfl⟩ := List.mem_map.1 hp
  exact hne rfl

theorem fieldDiffers_of_versioned? (hn : c.directives.Distinct)
    (h : (t.versioned? c r).result = .ok (some t')) : t.FieldDiffers t' := by
  obtain ⟨-, ps, hps, h⟩ := versioned?_eq_ok_iff.1 h
  obtain ⟨hany, h⟩ := Option.ite_none_right_eq_some.1 h
  have hfields : t.fields = ps.map Prod.fst := by
    rw [← List.forall₂_eq_eq_eq, List.forall₂_map_right_iff]
    exact hps.imp fun f p hp => hp.1.symm
  have hzip : t.fields.zip t'.fields = ps.map fun p => (p.1, p.2.getD p.1) := by
    rw [← Option.some.inj h, hfields]
    exact List.zip_map'
  obtain ⟨p, hp, hsome⟩ := List.any_eq_true.1 hany
  obtain ⟨f', hf'⟩ := Option.isSome_iff_exists.1 hsome
  obtain ⟨f, -, rfl, hc⟩ := hps.flip.exists_of_mem hp
  rw [hf'] at hc
  refine ⟨(p.1, f'), ?_, (hc.ne hn).symm⟩
  rw [hzip, List.mem_map]
  exact ⟨p, hp, by rw [hf']; rfl⟩

end TypeDefinition

namespace Registry

variable {t : TypeDefinition}

theorem mem_shared_versioned (h : (r.versioned c).result = .ok r') (ht : t ∈ r.types) :
    t.name ∈ r.shared r' ↔ t.replacement? c r = none := by
  rw [versioned_eq_addAll h]
  exact mem_shared_addAll_filterMap (fun t ht u => name_of_replacement? h ht) ht

theorem fieldDiffers_of_replacement? {t' : TypeDefinition} (hn : c.directives.Distinct)
    (h : (r.versioned c).result = .ok r') (ht : t ∈ r.types) (hr : t.replacement? c r = some t') :
    t.kind = .object ∧ t.FieldDiffers t' := by
  by_cases hk : t.kind = .object
  · have hv := versioned?_eq_replacement? h (mem_objectTypes.2 ⟨ht, hk⟩)
    rw [hr] at hv
    exact ⟨hk, TypeDefinition.fieldDiffers_of_versioned? hn hv⟩
  · rw [TypeDefinition.replacement?_of_ne hk] at hr
    cases hr

/-- Each definition of the result stands for the one of its name in the source. The two registries
share it exactly if the two are equal, and they do unless it is an object that has another field in
some place. -/
theorem versioned_shared (r : Registry) (c : Config) (hn : c.directives.Distinct) {r' : Registry}
    (h : (r.versioned c).result = .ok r') {name : String} {t' : TypeDefinition}
    (ht' : r'.get? name = some t') :
    ∃ t, r.get? name = some t ∧ (name ∈ r.shared r' ↔ t' = t) ∧
      (name ∉ r.shared r' ↔ t.kind = .object ∧ t.FieldDiffers t') := by
  rw [get?_of_versioned h] at ht'
  obtain ⟨t, ht, rfl⟩ := Option.map_eq_some_iff.1 ht'
  refine ⟨t, ht, ?_⟩
  obtain ⟨hmem, rfl⟩ := get?_eq_some_iff.1 ht
  rw [mem_shared_versioned h hmem]
  cases hr : t.replacement? c r with
  | none =>
    refine ⟨iff_of_true rfl rfl, iff_of_false (fun hn => hn rfl) ?_⟩
    rintro ⟨-, hdiffers⟩
    exact hdiffers.ne rfl
  | some u =>
    obtain ⟨hk, hdiffers⟩ := fieldDiffers_of_replacement? hn h hmem hr
    exact ⟨iff_of_false (by simp) hdiffers.ne.symm, iff_of_true (by simp) ⟨hk, hdiffers⟩⟩

/-- A person with a link is copied. A movie whose only field is named already is shared. -/
theorem versioned_shared_movies :
    let acted : FieldDefinition := ⟨"acted", .list (.named "Movie"), [], [⟨"link", .empty⟩]⟩
    let remake : FieldDefinition := ⟨"remake", .named "Movie", [],
      [.single "relation" "name" "remake"]⟩
    let movie : TypeDefinition := ⟨"Movie", .object, [remake], []⟩
    let person : TypeDefinition := ⟨"Person", .object, [acted], []⟩
    let r := ofList [movie, person]
    ({} : Config).directives.Distinct ∧ ∃ r', (r.versioned {}).result = .ok r' ∧
      "Movie" ∈ r.shared r' ∧ "Person" ∉ r.shared r' ∧
      ∃ person', r'.get? "Person" = some person' ∧ person' ≠ person := by
  intro acted remake movie person r
  have hn : ({} : Config).directives.Distinct := ⟨by decide, by decide, by decide⟩
  have hok : (r.versioned {}).result.isOk := by decide +kernel
  obtain ⟨r', hr'⟩ : ∃ r', (r.versioned {}).result = .ok r' := by
    cases hr : (r.versioned {}).result with
    | error e =>
      rw [hr] at hok
      cases hok
    | ok r' => exact ⟨r', rfl⟩
  have hget (t : TypeDefinition) (ht : r.get? t.name = some t) :
      r'.get? t.name = some ((t.replacement? {} r).getD t) := by
    rw [get?_of_versioned hr', ht, Option.map_some]
  have hperson : r.get? "Person" = some person := by decide
  have hmovie : r.get? "Movie" = some movie := by decide
  obtain ⟨t, ht, hshared, -⟩ := versioned_shared r {} hn hr' (hget movie hmovie)
  obtain ⟨u, hu, hshared', -⟩ := versioned_shared r {} hn hr' (hget person hperson)
  obtain rfl : movie = t := Option.some.inj (hmovie.symm.trans ht)
  obtain rfl : person = u := Option.some.inj (hperson.symm.trans hu)
  have hkept : (movie.replacement? {} r).getD movie = movie := by decide +kernel
  have hcopied : (person.replacement? {} r).getD person ≠ person := by decide +kernel
  exact ⟨hn, r', hr', hshared.2 hkept, fun h => hcopied (hshared'.1 h), _, hget person hperson,
    hcopied⟩

end Registry

end TemporalGraph.Schema
