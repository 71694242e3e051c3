import TemporalGraph.Proofs.Outcome
import TemporalGraph.Proofs.Schema.Registry
import TemporalGraph.Schema.Versioned
/-!
What the transformation for versions does to a field, to a type and to a registry, and which ones it
accepts.
-/

namespace TemporalGraph.Schema

variable {c : Config} {r r' : Registry}

namespace FieldDefinition

variable {f : FieldDefinition} {o : Option FieldDefinition} {owner : String}

theorem hasDirective_iff {name : String} :
    f.hasDirective name ↔ ∃ d ∈ f.directives, d.name = name := by
  simp [hasDirective, directive?]

inductive Change (f : FieldDefinition) (c : Config) (r : Registry) :
    Option FieldDefinition → Prop where
  | linked {target : String} (hl : f.hasDirective c.directives.link)
      (ht : f.linkTarget? = some target) : Change f c r (some (f.linked c target))
  | related {t : TypeDefinition} (hl : ¬f.hasDirective c.directives.link)
      (ht : r.get? f.type.baseName = some t) (hk : t.kind = .object ∨ t.kind = .interface)
      (hr : ¬f.isRelated c) : Change f c r (some (f.withRelation c))
  | kept (hl : ¬f.hasDirective c.directives.link)
      (h : ∀ t, r.get? f.type.baseName = some t → t.kind ≠ .unknown ∧
        (t.kind = .object ∨ t.kind = .interface → f.isRelated c)) : Change f c r none

/-- A field that is no link does not point to a definition of unknown kind, and a link to a list has
a named element. -/
structure Accepted (f : FieldDefinition) (c : Config) (r : Registry) : Prop where
  target : f.hasDirective c.directives.link → f.linkTarget?.isSome
  known : ¬f.hasDirective c.directives.link → ∀ t, r.get? f.type.baseName = some t →
    t.kind ≠ .unknown

theorem exists_change_iff : (∃ o, f.Change c r o) ↔ f.Accepted c r := by
  constructor
  · intro ⟨o, h⟩
    cases h with
    | linked hl ht => exact ⟨fun _ => by rw [ht]; rfl, fun hn => absurd hl hn⟩
    | related hl ht hk hr =>
      refine ⟨fun hl' => absurd hl' hl, fun _ u hu hk' => ?_⟩
      obtain rfl := Option.some.inj (ht.symm.trans hu)
      rw [hk'] at hk
      cases hk with
      | inl hk => cases hk
      | inr hk => cases hk
    | kept hl h => exact ⟨fun hl' => absurd hl' hl, fun _ u hu => (h u hu).1⟩
  · intro h
    by_cases hl : f.hasDirective c.directives.link
    · obtain ⟨target, ht⟩ := Option.isSome_iff_exists.1 (h.target hl)
      exact ⟨_, .linked hl ht⟩
    · by_cases hr : ∃ t, r.get? f.type.baseName = some t ∧
          (t.kind = .object ∨ t.kind = .interface) ∧ ¬f.isRelated c
      · obtain ⟨t, ht, hk, hr⟩ := hr
        exact ⟨_, .related hl ht hk hr⟩
      · refine ⟨_, .kept hl fun t ht => ⟨h.known hl t ht, fun hk => ?_⟩⟩
        by_contra hn
        exact hr ⟨t, ht, hk, hn⟩

theorem Change.kept_of_declared {t : TypeDefinition} (hl : ¬f.hasDirective c.directives.link)
    (ht : r.get? f.type.baseName = some t) (hk : t.kind ≠ .unknown)
    (hr : t.kind = .object ∨ t.kind = .interface → f.isRelated c) : f.Change c r none := by
  refine .kept hl fun u hu => ?_
  obtain rfl := Option.some.inj (ht.symm.trans hu)
  exact ⟨hk, hr⟩

theorem versioned?_of_declared {t : TypeDefinition} (hl : ¬f.hasDirective c.directives.link)
    (ht : r.get? f.type.baseName = some t) :
    (f.versioned? c r owner).result = match t.kind with
      | .object | .interface => .ok (if f.isRelated c then none else some (f.withRelation c))
      | .scalar | .enum | .union | .inputObject => .ok none
      | .unknown => .error <| .error <| .consistency
          s!"{owner}.{f.name} targets '{t.name}' whose definition kind is not recognized"
          .unknownTypeKind := by
  have hr : r.resolve f.type = .declared t := by rw [Registry.resolve, ht]
  rw [versioned?, if_neg hl, hr]
  obtain ⟨name, kind, fields, directives⟩ := t
  cases kind <;> rfl

theorem versioned?_of_undeclared (hl : ¬f.hasDirective c.directives.link)
    (ht : r.get? f.type.baseName = none) : (f.versioned? c r owner).result = .ok none := by
  rw [versioned?, if_neg hl, Registry.resolve, ht]
  by_cases hb : builtinScalars.contains f.type.baseName = true
  · simp only [if_pos hb]
    rfl
  · simp only [if_neg hb]
    rfl

theorem versioned?_of_link (hl : f.hasDirective c.directives.link) :
    (f.versioned? c r owner).result = match f.linkTarget? with
      | some target => .ok (some (f.linked c target))
      | none => .error <| .error <| .schema owner f.name
          s!"list element of link field type {f.type.render} is not a named type"
          .nestedListTarget := by
  rw [versioned?, if_pos hl]
  cases f.linkTarget? <;> rfl

theorem versioned?_eq_ok_iff : (f.versioned? c r owner).result = .ok o ↔ f.Change c r o := by
  constructor
  · intro h
    by_cases hl : f.hasDirective c.directives.link
    · rw [versioned?_of_link hl] at h
      cases ht : f.linkTarget? with
      | none =>
        rw [ht] at h
        cases h
      | some target =>
        rw [ht] at h
        obtain rfl := Except.ok.inj h
        exact .linked hl ht
    · cases ht : r.get? f.type.baseName with
      | none =>
        rw [versioned?_of_undeclared hl ht] at h
        obtain rfl := Except.ok.inj h
        exact .kept hl fun t ht' => by simp [ht] at ht'
      | some t =>
        rw [versioned?_of_declared hl ht] at h
        cases hk : t.kind with
        | unknown =>
          rw [hk] at h
          cases h
        | object | interface =>
          rw [hk] at h
          obtain rfl := Except.ok.inj h
          by_cases hr : f.isRelated c
          · rw [if_pos hr]
            exact .kept_of_declared hl ht (by simp [hk]) fun _ => hr
          · rw [if_neg hr]
            exact .related hl ht (by simp [hk]) hr
        | _ =>
          rw [hk] at h
          obtain rfl := Except.ok.inj h
          exact .kept_of_declared hl ht (by simp [hk]) (by simp [hk])
  · intro h
    cases h with
    | linked hl ht => rw [versioned?_of_link hl, ht]
    | related hl ht hk hr =>
      rw [versioned?_of_declared hl ht]
      cases hk with
      | inl hk => rw [hk, if_neg hr]
      | inr hk => rw [hk, if_neg hr]
    | kept hl h =>
      cases ht : r.get? f.type.baseName with
      | none => exact versioned?_of_undeclared hl ht
      | some t =>
        obtain ⟨hk, hr⟩ := h t ht
        rw [versioned?_of_declared hl ht]
        cases hkind : t.kind with
        | object => simp [hr (.inl hkind)]
        | interface => simp [hr (.inr hkind)]
        | unknown => exact absurd hkind hk
        | _ => rfl

theorem Change.unique {o' : Option FieldDefinition} (h : f.Change c r o) (h' : f.Change c r o') :
    o = o' := by
  have hs : (f.versioned? c r "").result = .ok o := versioned?_eq_ok_iff.2 h
  have hs' : (f.versioned? c r "").result = .ok o' := versioned?_eq_ok_iff.2 h'
  exact Except.ok.inj (hs.symm.trans hs')

end FieldDefinition

namespace TypeDefinition

variable {t t' : TypeDefinition} {o : Option TypeDefinition}

theorem nameFault?_eq_none_iff :
    t.nameFault? = none ↔ isValidName t.name ∧ ∀ f ∈ t.fields, isValidName f.name := by
  unfold nameFault?
  by_cases hn : isValidName t.name
  · simp [hn]
  · simp [hn]

theorem versioned?_eq_ok_iff : (t.versioned? c r).result = .ok o ↔ t.nameFault? = none ∧
    ∃ ps : List (FieldDefinition × Option FieldDefinition),
      List.Forall₂ (fun f p => p.1 = f ∧ f.Change c r p.2) t.fields ps ∧
      (if ps.any fun p => p.2.isSome then
          some { t with fields := ps.map fun p => p.2.getD p.1 }
        else none) = o := by
  have hfield (f : FieldDefinition) (p : FieldDefinition × Option FieldDefinition) :
      (do return (f, ← f.versioned? c r t.name) : Outcome _).result = .ok p ↔
        p.1 = f ∧ f.Change c r p.2 := by
    rw [Outcome.result_bind_eq_ok_iff]
    constructor
    · intro ⟨o, ho, hp⟩
      obtain rfl := Except.ok.inj hp
      exact ⟨rfl, FieldDefinition.versioned?_eq_ok_iff.1 ho⟩
    · intro ⟨hp, ho⟩
      exact ⟨p.2, FieldDefinition.versioned?_eq_ok_iff.2 ho, by rw [← hp]; rfl⟩
  unfold versioned?
  cases hn : t.nameFault? with
  | some e =>
    constructor
    · intro h
      cases h
    · intro h
      cases h.1
  | none =>
    rw [Outcome.result_bind_eq_ok_iff]
    simp only [Outcome.mapM_eq_ok_iff, hfield, true_and]
    constructor
    · intro ⟨ps, hps, h⟩
      exact ⟨ps, hps, Except.ok.inj h⟩
    · intro ⟨ps, hps, h⟩
      exact ⟨ps, hps, congrArg _ h⟩

theorem exists_versioned?_iff : (∃ o, (t.versioned? c r).result = .ok o) ↔
    isValidName t.name ∧ ∀ f ∈ t.fields, isValidName f.name ∧ f.Accepted c r := by
  have hnames : (t.nameFault? = none ∧ ∀ f ∈ t.fields, f.Accepted c r) ↔
      isValidName t.name ∧ ∀ f ∈ t.fields, isValidName f.name ∧ f.Accepted c r := by
    rw [nameFault?_eq_none_iff, and_assoc, forall₂_and]
  have hps : (∃ ps : List (FieldDefinition × Option FieldDefinition),
      List.Forall₂ (fun f p => p.1 = f ∧ f.Change c r p.2) t.fields ps) ↔
        ∀ f ∈ t.fields, f.Accepted c r := by
    simp [List.exists_forall₂_iff, FieldDefinition.exists_change_iff]
  simp only [versioned?_eq_ok_iff, ← hnames, ← hps]
  constructor
  · intro ⟨o, hn, ps, h, _⟩
    exact ⟨hn, ps, h⟩
  · intro ⟨hn, ps, h⟩
    exact ⟨_, hn, ps, h, rfl⟩

theorem name_of_versioned? (h : (t.versioned? c r).result = .ok (some t')) : t'.name = t.name := by
  obtain ⟨-, ps, -, h⟩ := versioned?_eq_ok_iff.1 h
  obtain ⟨-, h⟩ := Option.ite_none_right_eq_some.1 h
  rw [← Option.some.inj h]

theorem exists_field_of_versioned? {f' : FieldDefinition}
    (h : (t.versioned? c r).result = .ok (some t')) (hf : f' ∈ t'.fields) :
    ∃ f ∈ t.fields, ∃ o, f.Change c r o ∧ f' = o.getD f := by
  obtain ⟨-, ps, hps, h⟩ := versioned?_eq_ok_iff.1 h
  obtain ⟨-, h⟩ := Option.ite_none_right_eq_some.1 h
  rw [← Option.some.inj h] at hf
  obtain ⟨p, hp, rfl⟩ := List.mem_map.1 hf
  obtain ⟨f, hmem, rfl, hc⟩ := hps.flip.exists_of_mem hp
  exact ⟨p.1, hmem, p.2, hc, rfl⟩

/-- A type keeps all but its fields, each of which becomes another one in its place. -/
theorem fields_of_versioned? (h : (t.versioned? c r).result = .ok o) :
    ∃ fields, o.getD t = { t with fields := fields } ∧
      List.Forall₂ (fun f f' => ∃ p, f.Change c r p ∧ p.getD f = f') t.fields fields := by
  obtain ⟨-, ps, hps, rfl⟩ := versioned?_eq_ok_iff.1 h
  refine ⟨ps.map fun p => p.2.getD p.1, ?_, ?_⟩
  · by_cases hany : ps.any fun p => p.2.isSome
    · rw [if_pos hany]
      rfl
    · have hfst : ps.map Prod.fst = t.fields := by
        rw [eq_comm, ← List.forall₂_eq_eq_eq, List.forall₂_map_right_iff]
        exact hps.imp fun f p hp => hp.1.symm
      have hsame : ps.map (fun p => p.2.getD p.1) = ps.map Prod.fst := by
        refine List.map_congr_left fun p hp => ?_
        have hnone : p.2 = none := by simpa using fun hs => hany (List.any_eq_true.2 ⟨p, hp, hs⟩)
        rw [hnone]
        rfl
      rw [if_neg hany, hsame, hfst]
      rfl
  · rw [List.forall₂_map_right_iff]
    refine hps.imp fun f p hp => ?_
    obtain ⟨rfl, hc⟩ := hp
    exact ⟨p.2, hc, rfl⟩

theorem exists_versioned?_of_change {f f' : FieldDefinition}
    (h : (t.versioned? c r).result = .ok o) (hf : f ∈ t.fields) (hc : f.Change c r (some f')) :
    ∃ t', o = some t' ∧ f' ∈ t'.fields := by
  obtain ⟨-, ps, hps, rfl⟩ := versioned?_eq_ok_iff.1 h
  obtain ⟨p, hp, rfl, hc'⟩ := hps.exists_of_mem hf
  have hp' : p.2 = some f' := hc'.unique hc
  have hany : ps.any fun p => p.2.isSome := List.any_eq_true.2 ⟨p, hp, by rw [hp']; rfl⟩
  rw [if_pos hany]
  exact ⟨_, rfl, List.mem_map.2 ⟨p, hp, by rw [hp']; rfl⟩⟩

theorem exists_change_of_versioned? (h : (t.versioned? c r).result = .ok (some t')) :
    ∃ f ∈ t.fields, ∃ f', f.Change c r (some f') := by
  obtain ⟨-, ps, hps, h⟩ := versioned?_eq_ok_iff.1 h
  obtain ⟨hany, -⟩ := Option.ite_none_right_eq_some.1 h
  obtain ⟨p, hp, hsome⟩ := List.any_eq_true.1 hany
  obtain ⟨f, hf, -, hc⟩ := hps.flip.exists_of_mem hp
  obtain ⟨f', hf'⟩ := Option.isSome_iff_exists.1 hsome
  exact ⟨f, hf, f', hf' ▸ hc⟩

theorem exists_of_versioned?_eq_error {e : Fault} (hn : t.nameFault? = none)
    (h : (t.versioned? c r).result = .error e) :
    ∃ f ∈ t.fields, (f.versioned? c r t.name).result = .error e := by
  rw [versioned?, hn] at h
  cases Outcome.result_bind_eq_error_iff.1 h with
  | inl h =>
    obtain ⟨f, hf, h⟩ := Outcome.exists_of_mapM_eq_error h
    cases Outcome.result_bind_eq_error_iff.1 h with
    | inl h => exact ⟨f, hf, h⟩
    | inr h =>
      obtain ⟨o, -, h⟩ := h
      cases h
  | inr h =>
    obtain ⟨ps, -, h⟩ := h
    cases h

def replacement? (c : Config) (r : Registry) (t : TypeDefinition) : Option TypeDefinition :=
  match t.kind, (t.versioned? c r).result with
  | .object, .ok o => o
  | _, _ => none

theorem replacement?_of_ne (hk : t.kind ≠ .object) : t.replacement? c r = none := by
  rw [replacement?]
  split
  · rename_i h _
    exact absurd h hk
  · rfl

theorem replacement?_of_eq_ok (hk : t.kind = .object) (h : (t.versioned? c r).result = .ok o) :
    t.replacement? c r = o := by
  rw [replacement?, hk, h]

end TypeDefinition

namespace Registry

variable {t t' : TypeDefinition}

theorem versioned_eq_ok_iff : (r.versioned c).result = .ok r' ↔
    ∃ os, List.Forall₂ (fun t o => (t.versioned? c r).result = .ok o) r.objectTypes os ∧
      r.addAll (os.filterMap id) = r' := by
  rw [versioned, Outcome.result_bind_eq_ok_iff]
  simp only [Outcome.mapM_eq_ok_iff]
  constructor
  · intro ⟨os, hos, h⟩
    exact ⟨os, hos, Except.ok.inj h⟩
  · intro ⟨os, hos, h⟩
    exact ⟨os, hos, congrArg _ h⟩

theorem exists_versioned_iff : (∃ r', (r.versioned c).result = .ok r') ↔
    ∀ t ∈ r.objectTypes, isValidName t.name ∧ ∀ f ∈ t.fields, isValidName f.name ∧
      f.Accepted c r := by
  simp only [versioned_eq_ok_iff, ← TypeDefinition.exists_versioned?_iff, ← List.exists_forall₂_iff]
  constructor
  · intro ⟨_, os, h, _⟩
    exact ⟨os, h⟩
  · intro ⟨os, h⟩
    exact ⟨_, os, h, rfl⟩

theorem exists_of_versioned_eq_error {e : Fault} (h : (r.versioned c).result = .error e) :
    ∃ t ∈ r.objectTypes, (t.versioned? c r).result = .error e := by
  cases Outcome.result_bind_eq_error_iff.1 h with
  | inl h => exact Outcome.exists_of_mapM_eq_error h
  | inr h =>
    obtain ⟨os, -, h⟩ := h
    cases h

theorem versioned?_eq_replacement? (h : (r.versioned c).result = .ok r') (ht : t ∈ r.objectTypes) :
    (t.versioned? c r).result = .ok (t.replacement? c r) := by
  obtain ⟨o, ho⟩ := TypeDefinition.exists_versioned?_iff.2 (exists_versioned_iff.1 ⟨r', h⟩ t ht)
  rw [TypeDefinition.replacement?_of_eq_ok (mem_objectTypes.1 ht).2 ho, ho]

theorem versioned_eq_addAll (h : (r.versioned c).result = .ok r') :
    r' = r.addAll (r.types.filterMap (TypeDefinition.replacement? c r)) := by
  obtain ⟨os, hos, rfl⟩ := versioned_eq_ok_iff.1 h
  have hkind : ∀ t ∈ r.objectTypes, t.kind = .object := fun t ht => (mem_objectTypes.1 ht).2
  have hmap : r.objectTypes.map (TypeDefinition.replacement? c r) = os := by
    rw [← List.forall₂_eq_eq_eq, List.forall₂_map_left_iff]
    refine ((List.forall₂_and_left _ _).2 ⟨hkind, hos⟩).imp fun t o ho => ?_
    exact TypeDefinition.replacement?_of_eq_ok ho.1 ho.2
  rw [← hmap, List.filterMap_map, objectTypes, List.filterMap_filter]
  congr 2
  funext t
  by_cases hk : t.kind = .object
  · simp [hk]
  · simp [hk, TypeDefinition.replacement?_of_ne hk]

theorem name_of_replacement? (h : (r.versioned c).result = .ok r') (ht : t ∈ r.types)
    (hr : t.replacement? c r = some t') : t'.name = t.name := by
  by_cases hk : t.kind = .object
  · have hv := versioned?_eq_replacement? h (mem_objectTypes.2 ⟨ht, hk⟩)
    rw [hr] at hv
    exact TypeDefinition.name_of_versioned? hv
  · rw [TypeDefinition.replacement?_of_ne hk] at hr
    cases hr

theorem types_of_versioned (h : (r.versioned c).result = .ok r') :
    r'.types = r.types.map fun t => (t.replacement? c r).getD t := by
  rw [versioned_eq_addAll h]
  exact types_addAll_filterMap fun t ht u => name_of_replacement? h ht

theorem mem_types_of_versioned (h : (r.versioned c).result = .ok r') (ht : t' ∈ r'.types) :
    t' ∈ r.types ∨ ∃ t ∈ r.objectTypes, (t.versioned? c r).result = .ok (some t') := by
  rw [types_of_versioned h] at ht
  obtain ⟨t, hmem, rfl⟩ := List.mem_map.1 ht
  by_cases hk : t.kind = .object
  · have hobject : t ∈ r.objectTypes := mem_objectTypes.2 ⟨hmem, hk⟩
    have hv := versioned?_eq_replacement? h hobject
    cases hu : t.replacement? c r with
    | none => exact .inl hmem
    | some u => exact .inr ⟨t, hobject, hu ▸ hv⟩
  · rw [TypeDefinition.replacement?_of_ne hk]
    exact .inl hmem

theorem mem_types_versioned (h : (r.versioned c).result = .ok r') (ht : t ∈ r.objectTypes)
    (hv : (t.versioned? c r).result = .ok (some t')) : t' ∈ r'.types := by
  obtain ⟨hmem, hk⟩ := mem_objectTypes.1 ht
  rw [types_of_versioned h, List.mem_map]
  exact ⟨t, hmem, by rw [TypeDefinition.replacement?_of_eq_ok hk hv]; rfl⟩

theorem get?_of_versioned (h : (r.versioned c).result = .ok r') (name : String) :
    r'.get? name = (r.get? name).map fun t => (t.replacement? c r).getD t := by
  rw [versioned_eq_addAll h]
  exact get?_addAll_filterMap (fun t ht u => name_of_replacement? h ht) name

end Registry

end TemporalGraph.Schema
