import TemporalGraph.Proofs.Schema.Versioned
/-!
What the fields of a registry become in the transformation for versions. Main statement: types and
fields stay where they are under their names; a link is computed by its statement, a field that
points to an object or interface has a relation named after itself, and nothing else changes.
-/

namespace TemporalGraph

structure DirectiveNames.Distinct (n : DirectiveNames) : Prop where
  link_cypher : n.link ≠ n.cypher
  link_relation : n.link ≠ n.relation
  cypher_relation : n.cypher ≠ n.relation

namespace Schema

variable {c : Config} {r r' : Registry}

namespace TypeRef

variable {t e : TypeRef} {name : String}

theorem baseName_stripNonNull (t : TypeRef) : t.stripNonNull.baseName = t.baseName := by
  cases t <;> rfl

theorem baseName_of_listElement? (h : t.listElement? = some e) : e.baseName = t.baseName := by
  rw [listElement?] at h
  split at h
  · rename_i element hs
    rw [← Option.some.inj h, baseName_stripNonNull, ← baseName_stripNonNull t, hs]
    rfl
  · cases h

theorem baseName_of_simpleName? (h : t.simpleName? = some name) : t.baseName = name := by
  rw [simpleName?] at h
  split at h
  · rename_i hs
    rw [← Option.some.inj h, ← baseName_stripNonNull t, hs]
    rfl
  · cases h

end TypeRef

namespace Directive

variable {d e : Directive} {sub : Directive → Directive} {ds es : List Directive}

def single (name argument text : String) : Directive :=
  ⟨name, ⟨[(argument, .string text)], by simp⟩⟩

/-- `d` stands in the place of the first directive of its name, or last if there is none. The later
ones of its name are gone, and all others went through `sub`. -/
inductive Placed (d : Directive) (sub : Directive → Directive) :
    List Directive → List Directive → Prop where
  | first {before after : List Directive} {e : Directive} (hb : ∀ f ∈ before, f.name ≠ d.name)
      (he : e.name = d.name) : Placed d sub (before ++ e :: after)
        (before.map sub ++ d :: (after.filter fun f => f.name != d.name).map sub)
  | last {ds : List Directive} (h : ∀ f ∈ ds, f.name ≠ d.name) : Placed d sub ds (ds.map sub ++ [d])

theorem Placed.cons (h : Placed d sub ds es) (he : e.name ≠ d.name) :
    Placed d sub (e :: ds) (sub e :: es) := by
  cases h with
  | first hb hf => exact .first (List.forall_mem_cons.2 ⟨he, hb⟩) hf
  | last h => exact .last (List.forall_mem_cons.2 ⟨he, h⟩)

theorem placed_replaceIn (hsub : ∀ e, (sub e).name = d.name ↔ e.name = d.name)
    (ds : List Directive) : Placed d sub ds (d.replaceIn (ds.map sub)) := by
  induction ds with
  | nil => exact .last (by simp)
  | cons e es ih =>
    rw [List.map_cons, replaceIn]
    by_cases he : e.name = d.name
    · have hfilter : (es.map sub).filter (fun f => f.name != d.name) =
          (es.filter fun f => f.name != d.name).map sub := by
        rw [List.filter_map]
        congr 2
        funext f
        simp [bne, hsub f]
      rw [if_pos ((hsub e).2 he), hfilter]
      exact @Placed.first d sub [] es e (by simp) he
    · rw [if_neg (mt (hsub e).1 he)]
      exact ih.cons he

theorem Placed.filter_eq (hsub : ∀ e, (sub e).name = d.name → e.name = d.name)
    (h : Placed d sub ds es) : (es.filter fun f => f.name = d.name) = [d] := by
  have hmap : ∀ fs : List Directive, (∀ f ∈ fs, f.name ≠ d.name) →
      (fs.map sub).filter (fun f => f.name = d.name) = [] := by
    intro fs hfs
    simp only [List.filter_eq_nil_iff, List.mem_map, decide_eq_true_eq]
    rintro - ⟨f, hf, rfl⟩
    exact mt (hsub f) (hfs f hf)
  cases h with
  | first hb he =>
    rw [List.filter_append, hmap _ hb, List.filter_cons_of_pos (by simp), hmap _ (by simp)]
    rfl
  | last h =>
    rw [List.filter_append, hmap _ h]
    simp

theorem Placed.mem (h : Placed d sub ds es) (he : e ∈ es) : e = d ∨ ∃ f ∈ ds, sub f = e := by
  cases h with
  | first hb hf =>
    simp only [List.mem_append, List.mem_cons, List.mem_map, List.mem_filter] at he ⊢
    obtain ⟨f, hf, rfl⟩ | rfl | ⟨f, ⟨hf, -⟩, rfl⟩ := he
    · exact .inr ⟨f, .inl hf, rfl⟩
    · exact .inl rfl
    · exact .inr ⟨f, .inr (.inr hf), rfl⟩
  | last h =>
    simp only [List.mem_append, List.mem_map, List.mem_singleton] at he
    exact he.symm

end Directive

namespace FieldDefinition

variable {f g : FieldDefinition} {o : Option FieldDefinition} {target : String}

def PointsAt (f : FieldDefinition) (r : Registry) (kind : TypeKind) : Prop :=
  (r.get? f.type.baseName).map TypeDefinition.kind = some kind

instance (f : FieldDefinition) (r : Registry) (kind : TypeKind) : Decidable (f.PointsAt r kind) :=
  inferInstanceAs (Decidable ((r.get? f.type.baseName).map TypeDefinition.kind = some kind))

def PointsAtNode (f : FieldDefinition) (r : Registry) : Prop :=
  f.PointsAt r .object ∨ f.PointsAt r .interface

def Named (f : FieldDefinition) (c : Config) : Prop :=
  f.hasDirective c.directives.relation ∧
    ∀ d ∈ f.directives, d.name = c.directives.relation → d.stringArgument? "name" = some f.name

def resolveLink (c : Config) (f : FieldDefinition) (d : Directive) : Directive :=
  if d.name = c.directives.link then
    .single c.directives.cypher "statement" (linkStatement c f.name f.type.baseName)
  else d

structure ComputedFrom (c : Config) (f g : FieldDefinition) : Prop where
  directives : (Directive.single c.directives.relation "name" f.name).Placed (f.resolveLink c)
    f.directives g.directives
  relations : (g.directives.filter fun d => d.name = c.directives.relation) =
    [.single c.directives.relation "name" f.name]
  unlinked : ¬g.hasDirective c.directives.link
  arguments : g.arguments = (f.arguments.filter fun a => a.name != c.versionArgument) ++
    [⟨c.versionArgument, .named c.versionArgumentType, []⟩]

structure RelatedFrom (c : Config) (f g : FieldDefinition) : Prop where
  directives : (Directive.single c.directives.relation "name" f.name).Placed id
    f.directives g.directives
  relations : (g.directives.filter fun d => d.name = c.directives.relation) =
    [.single c.directives.relation "name" f.name]
  arguments : g.arguments = f.arguments

structure Becomes (c : Config) (r : Registry) (f g : FieldDefinition) : Prop where
  name : g.name = f.name
  type : g.type = f.type
  linked : f.hasDirective c.directives.link → ComputedFrom c f g
  related : ¬f.hasDirective c.directives.link → f.PointsAtNode r → ¬f.Named c → RelatedFrom c f g
  kept : ¬f.hasDirective c.directives.link → (f.PointsAtNode r → f.Named c) → g = f

theorem isRelated_iff : f.isRelated c ↔ f.Named c := by
  rw [isRelated, Named, hasDirective_iff, Bool.and_eq_true]
  have hsome : (!(f.directives.filter fun d => d.name == c.directives.relation).isEmpty) ↔
      ∃ d ∈ f.directives, d.name = c.directives.relation := by
    simp
  have hall : ((f.directives.filter fun d => d.name == c.directives.relation).all fun d =>
      d.stringArgument? "name" == some f.name) ↔
      ∀ d ∈ f.directives, d.name = c.directives.relation →
        d.stringArgument? "name" = some f.name := by
    simp [imp_iff_not_or]
  exact and_congr hsome hall

theorem pointsAt_iff {kind : TypeKind} :
    f.PointsAt r kind ↔ ∃ t, r.get? f.type.baseName = some t ∧ t.kind = kind :=
  Option.map_eq_some_iff

theorem pointsAtNode_iff : f.PointsAtNode r ↔
    ∃ t, r.get? f.type.baseName = some t ∧ (t.kind = .object ∨ t.kind = .interface) := by
  simp only [PointsAtNode, pointsAt_iff, and_or_left, exists_or]

theorem name_resolveLink (hn : c.directives.Distinct) (d : Directive) :
    (f.resolveLink c d).name = c.directives.relation ↔ d.name = c.directives.relation := by
  rw [resolveLink]
  split
  · rename_i hd
    rw [hd]
    exact iff_of_false hn.cypher_relation hn.link_relation
  · rfl

theorem name_resolveLink_ne (hn : c.directives.Distinct) (d : Directive) :
    (f.resolveLink c d).name ≠ c.directives.link := by
  rw [resolveLink]
  split
  · exact hn.link_cypher.symm
  · assumption

theorem linkTarget?_eq (h : f.linkTarget? = some target) : target = f.type.baseName := by
  rw [linkTarget?] at h
  split at h
  · obtain ⟨e, he, hs⟩ := Option.bind_eq_some_iff.1 h
    rw [← TypeRef.baseName_of_listElement? he, TypeRef.baseName_of_simpleName? hs]
  · exact (Option.some.inj h).symm

theorem computedFrom_linked (hn : c.directives.Distinct) (f : FieldDefinition) :
    ComputedFrom c f (f.linked c f.type.baseName) := by
  have hplaced : (Directive.single c.directives.relation "name" f.name).Placed (f.resolveLink c)
      f.directives (f.linked c f.type.baseName).directives :=
    Directive.placed_replaceIn (name_resolveLink hn) f.directives
  refine ⟨hplaced, hplaced.filter_eq fun d => (name_resolveLink hn d).1, ?_, ?_⟩
  · rw [hasDirective_iff]
    rintro ⟨d, hd, hname⟩
    cases hplaced.mem hd with
    | inl h =>
      rw [h] at hname
      exact hn.link_relation hname.symm
    | inr h =>
      obtain ⟨e, -, rfl⟩ := h
      exact name_resolveLink_ne hn e hname
  · rfl

theorem relatedFrom_withRelation (c : Config) (f : FieldDefinition) :
    RelatedFrom c f (f.withRelation c) := by
  have hsub (e : Directive) : (id e).name = c.directives.relation ↔
      e.name = c.directives.relation := Iff.rfl
  have hplaced : (Directive.single c.directives.relation "name" f.name).Placed id f.directives
      (Directive.replaceIn _ (f.directives.map id)) := Directive.placed_replaceIn hsub f.directives
  rw [List.map_id] at hplaced
  exact ⟨hplaced, hplaced.filter_eq fun _ => id, rfl⟩

theorem Change.becomes (hn : c.directives.Distinct) (h : f.Change c r o) :
    Becomes c r f (o.getD f) := by
  cases h with
  | linked hl ht =>
    obtain rfl := linkTarget?_eq ht
    exact ⟨rfl, rfl, fun _ => computedFrom_linked hn f, fun hl' => absurd hl hl',
      fun hl' => absurd hl hl'⟩
  | related hl ht hk hr =>
    refine ⟨rfl, rfl, fun hl' => absurd hl' hl, fun _ _ _ => relatedFrom_withRelation c f,
      fun _ hnamed => ?_⟩
    exact absurd (isRelated_iff.2 (hnamed (pointsAtNode_iff.2 ⟨_, ht, hk⟩))) hr
  | kept hl h =>
    refine ⟨rfl, rfl, fun hl' => absurd hl' hl, fun _ hpoints hnot => ?_, fun _ _ => rfl⟩
    obtain ⟨t, ht, hk⟩ := pointsAtNode_iff.1 hpoints
    exact absurd (isRelated_iff.1 ((h t ht).2 hk)) hnot

end FieldDefinition

structure TypeDefinition.Becomes (c : Config) (r : Registry) (t u : TypeDefinition) : Prop where
  name : u.name = t.name
  kind : u.kind = t.kind
  directives : u.directives = t.directives
  kept : t.kind ≠ .object → u = t
  fields : t.kind = .object → List.Forall₂ (FieldDefinition.Becomes c r) t.fields u.fields

namespace Registry

theorem becomes_of_versioned (hn : c.directives.Distinct) (h : (r.versioned c).result = .ok r')
    {t : TypeDefinition} (ht : t ∈ r.types) :
    TypeDefinition.Becomes c r t ((t.replacement? c r).getD t) := by
  by_cases hk : t.kind = .object
  · have hv := versioned?_eq_replacement? h (mem_objectTypes.2 ⟨ht, hk⟩)
    obtain ⟨fields, hfields, hall⟩ := TypeDefinition.fields_of_versioned? hv
    rw [hfields]
    refine ⟨rfl, rfl, rfl, fun hne => absurd hk hne, fun _ => hall.imp fun f g hg => ?_⟩
    obtain ⟨o, hc, rfl⟩ := hg
    exact hc.becomes hn
  · rw [TypeDefinition.replacement?_of_ne hk]
    exact ⟨rfl, rfl, rfl, fun _ => rfl, fun hk' => absurd hk' hk⟩

/-- The transformation succeeds exactly if the names of the object types and of their fields are
valid and every field is accepted. Then each type and each of its fields is in its old place, and
has become what `TypeDefinition.Becomes` and `FieldDefinition.Becomes` say. -/
theorem versioned_fields (r : Registry) (c : Config) (hn : c.directives.Distinct) :
    ((∃ r', (r.versioned c).result = .ok r') ↔
      ∀ t ∈ r.objectTypes, isValidName t.name ∧ ∀ f ∈ t.fields, isValidName f.name ∧
        f.Accepted c r) ∧
    ∀ r', (r.versioned c).result = .ok r' →
      List.Forall₂ (TypeDefinition.Becomes c r) r.types r'.types := by
  refine ⟨exists_versioned_iff, fun r' h => ?_⟩
  rw [types_of_versioned h, List.forall₂_map_right_iff, List.forall₂_same]
  exact fun t ht => becomes_of_versioned hn h ht

/-- A link with two relations and a version argument of its own. -/
theorem versioned_fields_movies :
    let movies : FieldDefinition := ⟨"movies", .nonNull (.list (.named "Movie")),
      [⟨"ver", .named "Int", []⟩, ⟨"first", .named "Int", []⟩],
      [.single "relation" "name" "OLD", ⟨"link", .empty⟩, .single "relation" "name" "OLDER"]⟩
    let person : TypeDefinition := ⟨"Person", .object, [movies], []⟩
    let r := ofList [.object "Movie", person]
    ({} : Config).directives.Distinct ∧ ∃ r', (r.versioned {}).result = .ok r' ∧
      ∃ movie person' g, r'.types = [movie, person'] ∧ person'.fields = [g] ∧
        movies.ComputedFrom {} g ∧
        g.arguments = [⟨"first", .named "Int", []⟩, ⟨"ver", .named "String", []⟩] := by
  intro movies person r
  have hn : ({} : Config).directives.Distinct := ⟨by decide, by decide, by decide⟩
  have htypes : r.types = [.object "Movie", person] := by decide
  have hobjects : r.objectTypes = [.object "Movie", person] := by decide
  have haccepted : movies.Accepted {} r := ⟨fun _ => rfl, fun hl => absurd rfl hl⟩
  have hvalid : ∀ t ∈ r.objectTypes, isValidName t.name ∧ ∀ f ∈ t.fields, isValidName f.name ∧
      f.Accepted {} r := by
    simp only [hobjects, List.forall_mem_cons]
    exact ⟨⟨by decide, by simp [TypeDefinition.object]⟩,
      ⟨by decide, List.forall_mem_singleton.2 ⟨by decide, haccepted⟩⟩, by simp⟩
  obtain ⟨hiff, hrun⟩ := versioned_fields r {} hn
  obtain ⟨r', hr'⟩ := hiff.2 hvalid
  have hall := hrun r' hr'
  rw [htypes] at hall
  obtain ⟨movie, _, -, hall, hts⟩ := List.forall₂_cons_left_iff.1 hall
  obtain ⟨person', _, hperson, hnil, rfl⟩ := List.forall₂_cons_left_iff.1 hall
  cases hnil
  obtain ⟨g, _, hg, hnil, hgs⟩ := List.forall₂_cons_left_iff.1 (hperson.fields rfl)
  cases hnil
  have hcomputed := hg.linked rfl
  exact ⟨hn, r', hr', movie, person', g, hts, hgs, hcomputed, hcomputed.arguments⟩

end Registry

end Schema

end TemporalGraph
