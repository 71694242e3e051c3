import TemporalGraph.Proofs.Schema.Registry
import TemporalGraph.Schema.Versioned
/-!
Registries without a type directive. Main statement: the object types lose the directive and are
the ones that are named; a type of another kind keeps it and is not named.
-/

namespace TemporalGraph.Schema

variable {directive : String}

namespace TypeDefinition

variable {t : TypeDefinition}

def without (t : TypeDefinition) (directive : String) : TypeDefinition :=
  { t with directives := t.directives.filter fun d => d.name != directive }

theorem not_hasDirective_without : ¬(t.without directive).hasDirective directive := by
  simp [hasDirective, without]

theorem without_eq_self (h : ¬t.hasDirective directive) : t.without directive = t := by
  obtain ⟨name, kind, fields, directives⟩ := t
  simpa [hasDirective, without, List.filter_eq_self] using h

def stripped? (directive : String) (t : TypeDefinition) : Option TypeDefinition :=
  if t.kind = .object ∧ t.hasDirective directive then some (t.without directive) else none

theorem stripped?_eq_none_iff :
    t.stripped? directive = none ↔ ¬(t.kind = .object ∧ t.hasDirective directive) := by
  simp [stripped?]

theorem getD_stripped? :
    (t.stripped? directive).getD t = if t.kind = .object then t.without directive else t := by
  by_cases hk : t.kind = .object
  · by_cases hd : t.hasDirective directive
    · simp [stripped?, hk, hd]
    · simp [stripped?, hk, hd, without_eq_self hd]
  · simp [stripped?, hk]

theorem name_of_stripped? {u : TypeDefinition} (h : t.stripped? directive = some u) :
    u.name = t.name := by
  obtain ⟨-, h⟩ := Option.ite_none_right_eq_some.1 h
  rw [← Option.some.inj h]
  rfl

end TypeDefinition

namespace Registry

variable {r : Registry} {name : String}

theorem fst_withoutDirective : (r.withoutDirective directive).1 =
    r.addAll (r.types.filterMap (TypeDefinition.stripped? directive)) := by
  have hmarked : (r.objectTypes.filter fun t => t.hasDirective directive).map
      (fun t => t.without directive) = r.types.filterMap (TypeDefinition.stripped? directive) := by
    rw [objectTypes, List.filter_filter, ← List.filterMap_eq_map, List.filterMap_filter]
    congr 1
    funext t
    simp [TypeDefinition.stripped?, and_comm]
  exact congrArg r.addAll hmarked

theorem get?_withoutDirective : (r.withoutDirective directive).1.get? name =
    (r.get? name).map fun t => if t.kind = .object then t.without directive else t := by
  rw [fst_withoutDirective, get?_addAll_filterMap fun _ _ _ => TypeDefinition.name_of_stripped?]
  simp only [TypeDefinition.getD_stripped?]

theorem types_withoutDirective : (r.withoutDirective directive).1.types =
    r.types.map fun t => if t.kind = .object then t.without directive else t := by
  rw [fst_withoutDirective, types_addAll_filterMap fun _ _ _ => TypeDefinition.name_of_stripped?]
  simp only [TypeDefinition.getD_stripped?]

theorem mem_snd_withoutDirective : name ∈ (r.withoutDirective directive).2 ↔
    ∃ t ∈ r.types, t.name = name ∧ t.kind = .object ∧ t.hasDirective directive := by
  simp only [withoutDirective, List.mem_map, List.mem_filter, mem_objectTypes]
  constructor
  · intro ⟨t, ⟨⟨ht, hk⟩, hd⟩, hn⟩
    exact ⟨t, ht, hn, hk, hd⟩
  · intro ⟨t, ht, hn, hk, hd⟩
    exact ⟨t, ⟨⟨ht, hk⟩, hd⟩, hn⟩

theorem mem_shared_withoutDirective {t : TypeDefinition} (ht : t ∈ r.types) :
    t.name ∈ r.shared (r.withoutDirective directive).1 ↔
      ¬(t.kind = .object ∧ t.hasDirective directive) := by
  rw [fst_withoutDirective, ← TypeDefinition.stripped?_eq_none_iff]
  exact mem_shared_addAll_filterMap (fun _ _ _ => TypeDefinition.name_of_stripped?) ht

theorem mem_types_withoutDirective_iff {t : TypeDefinition} :
    t ∈ (r.withoutDirective directive).1.types ∧ t.hasDirective directive ↔
      t ∈ r.types ∧ t.hasDirective directive ∧ t.kind ≠ .object := by
  rw [types_withoutDirective]
  constructor
  · intro ⟨ht, hd⟩
    obtain ⟨u, hu, rfl⟩ := List.mem_map.1 ht
    by_cases hk : u.kind = .object
    · rw [if_pos hk] at hd
      exact absurd hd TypeDefinition.not_hasDirective_without
    · rw [if_neg hk] at hd ⊢
      exact ⟨hu, hd, hk⟩
  · intro ⟨ht, hd, hk⟩
    exact ⟨List.mem_map.2 ⟨t, ht, if_neg hk⟩, hd⟩

/-- The directive is taken from the object types, and their names are the ones returned. All else
stays as it is, and every type that is no object with the directive is shared. So the directive is
gone exactly if no type of another kind carried it. -/
theorem withoutDirective_objects (r : Registry) (directive : String) :
    let bare := (r.withoutDirective directive).1
    let marked := (r.withoutDirective directive).2
    (∀ name, name ∈ marked ↔
      ∃ t ∈ r.types, t.name = name ∧ t.kind = .object ∧ t.hasDirective directive) ∧
    (bare.types = r.types.map fun t =>
      if t.kind = .object then
        { t with directives := t.directives.filter fun d => d.name != directive }
      else t) ∧
    (∀ t ∈ r.types, t.name ∈ r.shared bare ↔ ¬(t.kind = .object ∧ t.hasDirective directive)) ∧
    (∀ t, t ∈ bare.types ∧ t.hasDirective directive ↔
      t ∈ r.types ∧ t.hasDirective directive ∧ t.kind ≠ .object) ∧
    ((∀ t ∈ bare.types, ¬t.hasDirective directive) ↔
      ∀ t ∈ r.types, t.hasDirective directive → t.kind = .object) := by
  intro bare marked
  have hkept : ∀ t, t ∈ bare.types ∧ t.hasDirective directive ↔
      t ∈ r.types ∧ t.hasDirective directive ∧ t.kind ≠ .object :=
    fun _ => mem_types_withoutDirective_iff
  refine ⟨fun _ => mem_snd_withoutDirective, types_withoutDirective,
    fun _ => mem_shared_withoutDirective, hkept, ?_⟩
  constructor
  · intro hgone t ht hd
    by_contra hk
    exact hgone t ((hkept t).2 ⟨ht, hd, hk⟩).1 hd
  · intro hobjects t ht hd
    obtain ⟨hmem, -, hk⟩ := (hkept t).1 ⟨ht, hd⟩
    exact hk (hobjects t hmem hd)

/-- An interface keeps the directive, and its name is not returned. -/
theorem withoutDirective_interface :
    let node : TypeDefinition := ⟨"Node", .interface, [], [⟨"domain", .empty⟩]⟩
    let bare := ((ofList [node]).withoutDirective "domain").1
    let marked := ((ofList [node]).withoutDirective "domain").2
    node ∈ bare.types ∧ node.hasDirective "domain" ∧ "Node" ∉ marked := by
  intro node bare marked
  have hmem : node ∈ (ofList [node]).types := by decide
  obtain ⟨hmarked, -, -, hkept, -⟩ := withoutDirective_objects (ofList [node]) "domain"
  obtain ⟨hnode, hd⟩ := (hkept node).2 ⟨hmem, by decide, by decide⟩
  refine ⟨hnode, hd, fun hn => ?_⟩
  obtain ⟨t, ht, hname, hk, -⟩ := (hmarked "Node").1 hn
  obtain rfl : t = node := eq_of_mem_types ht hmem hname
  cases hk

end Registry

end TemporalGraph.Schema
