import Mathlib.Data.List.Basic
import TemporalGraph.Schema.Registry
/-!
What a registry holds. Each definition stands under its name, and an addition takes the place of the
definition of its name only.
-/

namespace TemporalGraph.Schema.Registry

variable {r : Registry} {t u : TypeDefinition} {ts : List TypeDefinition} {name : String}

theorem mem_types : t ∈ r.types ↔ r.get? t.name = some t := by
  constructor
  · intro h
    obtain ⟨e, he, rfl⟩ := List.mem_map.1 h
    obtain ⟨⟨key, e⟩, hmem, rfl⟩ := List.mem_map.1 he
    have hkey : e.definition.name = key := r.named (key, e) hmem
    rw [get?, hkey, Dictionary.get?_of_mem hmem]
    rfl
  · intro h
    obtain ⟨e, he, hd⟩ := Option.map_eq_some_iff.1 h
    exact List.mem_map.2 ⟨e, List.mem_map_of_mem (Dictionary.mem_of_get? he), hd⟩

theorem mem_objectTypes : t ∈ r.objectTypes ↔ t ∈ r.types ∧ t.kind = .object := by
  rw [objectTypes, List.mem_filter, decide_eq_true_iff]

theorem name_of_get? (h : r.get? name = some t) : t.name = name := by
  obtain ⟨e, he, rfl⟩ := Option.map_eq_some_iff.1 h
  exact r.named (name, e) (Dictionary.mem_of_get? he)

theorem mem_types_of_get? (h : r.get? name = some t) : t ∈ r.types := by
  rw [mem_types, name_of_get? h, h]

theorem eq_of_mem_types (ht : t ∈ r.types) (hu : u ∈ r.types) (h : t.name = u.name) : t = u := by
  rw [mem_types] at ht hu
  rw [h, hu] at ht
  exact (Option.some.inj ht).symm

theorem entry_addAll_of_ne (h : ∀ u ∈ ts, u.name ≠ name) :
    (r.addAll ts).table.get? name = r.table.get? name := by
  induction ts generalizing r with
  | nil => rfl
  | cons u ts ih =>
    have hu : name ≠ u.name := (h u List.mem_cons_self).symm
    have hadd : (r.add u).table.get? name = r.table.get? name := by
      rw [add, Dictionary.get?_insert, if_neg hu]
    rw [← hadd]
    exact ih fun v hv => h v (List.mem_cons_of_mem _ hv)

theorem get?_addAll_of_ne (h : ∀ u ∈ ts, u.name ≠ name) :
    (r.addAll ts).get? name = r.get? name := by
  rw [get?, entry_addAll_of_ne h, get?]

theorem mem_types_addAll_of_mem (h : t ∈ ts) (hu : ∀ u ∈ ts, u.name = t.name → u = t) :
    t ∈ (r.addAll ts).types := by
  induction ts generalizing r with
  | nil => cases h
  | cons v ts ih =>
    by_cases hts : t ∈ ts
    · exact ih hts fun u hmem => hu u (List.mem_cons_of_mem _ hmem)
    · have hv : t = v := by simpa [hts] using h
      subst hv
      have hne : ∀ u ∈ ts, u.name ≠ t.name := by
        intro u hmem hn
        obtain rfl := hu u (List.mem_cons_of_mem _ hmem) hn
        exact hts hmem
      have hlast : ((r.add t).addAll ts).get? t.name = some t := by
        rw [get?_addAll_of_ne hne, get?_add, if_pos rfl]
      exact mem_types.2 hlast

/-! What additions leave of a registry: its names, and the definitions that it still shares. -/

theorem map_name_types (r : Registry) : r.types.map TypeDefinition.name = r.table.keys := by
  simp only [types, Dictionary.values, Dictionary.keys, List.map_map]
  exact List.map_congr_left r.named

/-- Additions in the order of their names, behind all names that are there, go last. -/
theorem types_addAll_of_sorted
    (h : ((r.types ++ ts).map TypeDefinition.name).Pairwise (· < ·)) :
    (r.addAll ts).types = r.types ++ ts := by
  induction ts generalizing r with
  | nil => exact (List.append_nil _).symm
  | cons t ts ih =>
    have hlast : (r.add t).types = r.types ++ [t] := by
      have hlt : ∀ k ∈ r.table.keys, k < t.name := by
        rw [List.map_append, List.map_cons, List.pairwise_append, map_name_types] at h
        exact fun k hk => h.2.2 k hk t.name List.mem_cons_self
      have hplace : (r.add t).table.entries = r.table.entries ++ [(t.name, ⟨t, r.additions⟩)] :=
        Dictionary.place_of_lt hlt
      simp only [types, Dictionary.values, hplace, List.map_append, List.map_cons, List.map_nil]
    rw [List.append_cons, ← hlast] at h ⊢
    exact ih h

theorem types_ofList_types (r : Registry) : (ofList r.types).types = r.types := by
  refine types_addAll_of_sorted (r := empty) ?_
  rw [show empty.types ++ r.types = r.types from rfl, map_name_types]
  exact r.table.sorted

theorem get?_eq_some_iff : r.get? name = some t ↔ t ∈ r.types ∧ t.name = name := by
  constructor
  · exact fun h => ⟨mem_types_of_get? h, name_of_get? h⟩
  · rintro ⟨h, rfl⟩
    exact mem_types.1 h

theorem get?_eq_of_types_eq {s : Registry} (h : r.types = s.types) : r.get? = s.get? := by
  funext name
  refine Option.ext fun t => ?_
  rw [get?_eq_some_iff, get?_eq_some_iff, h]

theorem types_eq_filterMap (r : Registry) : r.types = r.table.keys.filterMap r.get? := by
  have hget : ∀ e ∈ r.table.entries, r.get? e.1 = some e.2.definition := by
    intro e he
    rw [get?, Dictionary.get?_of_mem he]
    rfl
  calc r.types = r.table.entries.map fun e => e.2.definition := by
        simp [types, Dictionary.values]
    _ = r.table.entries.filterMap fun e => r.get? e.1 := by
        rw [← List.filterMap_eq_map]
        exact List.filterMap_congr fun e he => (hget e he).symm
    _ = r.table.keys.filterMap r.get? := by
        rw [Dictionary.keys, List.filterMap_map]
        rfl

theorem keys_addAll (h : ∀ u ∈ ts, u.name ∈ r.table.keys) :
    (r.addAll ts).table.keys = r.table.keys := by
  induction ts generalizing r with
  | nil => rfl
  | cons u ts ih =>
    have hadd : (r.add u).table.keys = r.table.keys :=
      Dictionary.keys_insert_of_mem (h u List.mem_cons_self) _
    rw [← hadd]
    exact ih fun v hv => hadd ▸ h v (List.mem_cons_of_mem _ hv)

theorem additions_le_revision {e : Entry} (hu : ∃ u ∈ ts, u.name = name)
    (he : (r.addAll ts).table.get? name = some e) : r.additions ≤ e.revision := by
  induction ts generalizing r with
  | nil =>
    obtain ⟨u, hu, -⟩ := hu
    cases hu
  | cons v ts ih =>
    by_cases hlater : ∃ u ∈ ts, u.name = name
    · exact Nat.le_of_succ_le (ih (r := r.add v) hlater he)
    · have hv : name = v.name := by
        obtain ⟨u, hmem, hn⟩ := hu
        cases hmem with
        | head => exact hn.symm
        | tail _ hmem => exact absurd ⟨u, hmem, hn⟩ hlater
      have hlast : (r.add v).table.get? name = some e := by
        have hrest : ∀ u ∈ ts, u.name ≠ name := fun u hmem hn => hlater ⟨u, hmem, hn⟩
        rw [← entry_addAll_of_ne hrest]
        exact he
      rw [add, Dictionary.get?_insert, if_pos hv] at hlast
      exact Nat.le_of_eq (congrArg Entry.revision (Option.some.inj hlast))

theorem mem_shared_addAll : name ∈ r.shared (r.addAll ts) ↔
    (∃ t ∈ r.types, t.name = name) ∧ ∀ u ∈ ts, u.name ≠ name := by
  rw [← List.mem_map, map_name_types, shared, List.mem_map]
  constructor
  · intro ⟨⟨key, e⟩, he, hkey⟩
    obtain rfl : key = name := hkey
    obtain ⟨hmem, hany⟩ := List.mem_filter.1 he
    obtain ⟨f, hf, hrev⟩ := (Option.any_eq_true _ _).1 hany
    refine ⟨List.mem_map_of_mem hmem, fun u hu hn => ?_⟩
    have hold : e.revision < r.additions := r.numbered _ hmem
    have hnew : r.additions ≤ f.revision := additions_le_revision ⟨u, hu, hn⟩ hf
    have hsame : f.revision = e.revision := beq_iff_eq.1 hrev
    omega
  · intro ⟨hkey, hne⟩
    obtain ⟨e, he⟩ := Dictionary.mem_keys_iff.1 hkey
    refine ⟨(name, e), List.mem_filter.2 ⟨Dictionary.mem_of_get? he, ?_⟩, rfl⟩
    simp [entry_addAll_of_ne hne, he]

theorem shared_self (r : Registry) : r.shared r = r.types.map TypeDefinition.name := by
  have hall : ∀ e ∈ r.table.entries,
      (r.table.get? e.1).any (fun f => f.revision == e.2.revision) := by
    intro ⟨key, e⟩ he
    simp [Dictionary.get?_of_mem he]
  rw [shared, List.filter_eq_self.2 hall, map_name_types]
  rfl

section Rewritten

variable {g : TypeDefinition → Option TypeDefinition}

theorem get?_addAll_filterMap (hg : ∀ t ∈ r.types, ∀ u, g t = some u → u.name = t.name)
    (name : String) :
    (r.addAll (r.types.filterMap g)).get? name = (r.get? name).map fun t => (g t).getD t := by
  cases ht : r.get? name with
  | none =>
    refine (get?_addAll_of_ne fun u hu hn => ?_).trans ht
    obtain ⟨t, hmem, hgt⟩ := List.mem_filterMap.1 hu
    have hname : t.name = name := (hg t hmem u hgt).symm.trans hn
    rw [mem_types, hname, ht] at hmem
    cases hmem
  | some t =>
    have hname : t.name = name := name_of_get? ht
    obtain rfl := hname
    have hunique : ∀ s ∈ r.types, s.name = t.name → s = t :=
      fun s hs hn => eq_of_mem_types hs (mem_types.2 ht) hn
    rw [Option.map_some]
    cases hgt : g t with
    | none =>
      refine (get?_addAll_of_ne fun u hu hn => ?_).trans ht
      obtain ⟨s, hmem, hgs⟩ := List.mem_filterMap.1 hu
      obtain rfl := hunique s hmem ((hg s hmem u hgs).symm.trans hn)
      simp [hgt] at hgs
    | some u =>
      have hname : u.name = t.name := hg t (mem_types.2 ht) u hgt
      have hu : u ∈ r.types.filterMap g := List.mem_filterMap.2 ⟨t, mem_types.2 ht, hgt⟩
      have hmem : u ∈ (r.addAll (r.types.filterMap g)).types := by
        refine mem_types_addAll_of_mem hu fun v hv hn => ?_
        obtain ⟨s, hs, hgs⟩ := List.mem_filterMap.1 hv
        obtain rfl := hunique s hs ((hg s hs v hgs).symm.trans (hn.trans hname))
        exact Option.some.inj (hgs.symm.trans hgt)
      rw [mem_types, hname] at hmem
      exact hmem

theorem types_addAll_filterMap (hg : ∀ t ∈ r.types, ∀ u, g t = some u → u.name = t.name) :
    (r.addAll (r.types.filterMap g)).types = r.types.map fun t => (g t).getD t := by
  have hkeys : (r.addAll (r.types.filterMap g)).table.keys = r.table.keys := by
    refine keys_addAll fun u hu => ?_
    obtain ⟨t, ht, hgt⟩ := List.mem_filterMap.1 hu
    rw [hg t ht u hgt, ← map_name_types]
    exact List.mem_map_of_mem ht
  have hget : (r.addAll (r.types.filterMap g)).get? = fun name =>
      (r.get? name).map fun t => (g t).getD t := funext (get?_addAll_filterMap hg)
  rw [types_eq_filterMap, hkeys, hget, types_eq_filterMap r, List.map_filterMap]

theorem mem_shared_addAll_filterMap (hg : ∀ t ∈ r.types, ∀ u, g t = some u → u.name = t.name)
    (ht : t ∈ r.types) :
    t.name ∈ r.shared (r.addAll (r.types.filterMap g)) ↔ g t = none := by
  rw [mem_shared_addAll]
  constructor
  · rintro ⟨-, hne⟩
    rw [Option.eq_none_iff_forall_ne_some]
    intro u hu
    exact hne u (List.mem_filterMap.2 ⟨t, ht, hu⟩) (hg t ht u hu)
  · intro hnone
    refine ⟨⟨t, ht, rfl⟩, fun u hu hn => ?_⟩
    obtain ⟨v, hv, hgv⟩ := List.mem_filterMap.1 hu
    obtain rfl := eq_of_mem_types hv ht ((hg v hv u hgv).symm.trans hn)
    simp [hnone] at hgv

end Rewritten

end TemporalGraph.Schema.Registry
