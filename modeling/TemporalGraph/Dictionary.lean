/-!
Dictionaries: values under names, kept in the order of the names. Main statements: what insertion
and removal do to a look-up, and that a dictionary is that of its entries.
-/

namespace TemporalGraph

variable {α β : Type}

structure Dictionary (α : Type) where
  entries : List (String × α)
  sorted : (entries.map Prod.fst).Pairwise (· < ·) := by simp
  deriving DecidableEq

namespace Dictionary

theorem lt_of_not_lt {a b : String} (h : ¬a < b) (hne : a ≠ b) : b < a :=
  Std.lt_of_le_of_ne (String.not_lt.1 h) (Ne.symm hne)

def empty : Dictionary α := ⟨[], by simp⟩

def keys (d : Dictionary α) : List String := d.entries.map Prod.fst

def values (d : Dictionary α) : List α := d.entries.map Prod.snd

def size (d : Dictionary α) : Nat := d.entries.length

def isEmpty (d : Dictionary α) : Bool := d.entries.isEmpty

def lookup (key : String) (entries : List (String × α)) : Option α :=
  (entries.find? fun e => e.1 == key).map Prod.snd

def get? (d : Dictionary α) (key : String) : Option α := lookup key d.entries

def contains (d : Dictionary α) (key : String) : Bool := (d.get? key).isSome

/-- A value under its name: in the place of an entry of that name, or before the first greater
one. -/
def place (key : String) (value : α) : List (String × α) → List (String × α)
  | [] => [(key, value)]
  | (k, v) :: es =>
    if key < k then (key, value) :: (k, v) :: es
    else if key = k then (key, value) :: es
    else (k, v) :: place key value es

theorem mem_place {key : String} {value : α} {es : List (String × α)} {e : String × α}
    (h : e ∈ place key value es) : e = (key, value) ∨ e ∈ es := by
  induction es with
  | nil => simpa [place] using h
  | cons f es ih =>
    obtain ⟨k, v⟩ := f
    simp only [place] at h
    split at h
    · simpa using h
    · split at h
      · rcases List.mem_cons.1 h with h | h
        · exact .inl h
        · exact .inr (List.mem_cons_of_mem _ h)
      · rcases List.mem_cons.1 h with h | h
        · exact .inr (h ▸ List.mem_cons_self)
        · exact (ih h).imp_right (List.mem_cons_of_mem _)

theorem sorted_place {key : String} {value : α} {es : List (String × α)}
    (h : (es.map Prod.fst).Pairwise (· < ·)) :
    ((place key value es).map Prod.fst).Pairwise (· < ·) := by
  induction es with
  | nil => simp [place]
  | cons e es ih =>
    obtain ⟨k, v⟩ := e
    simp only [List.map_cons, List.pairwise_cons] at h
    simp only [place]
    split
    · rename_i hlt
      simp only [List.map_cons, List.pairwise_cons, List.mem_cons, forall_eq_or_imp]
      exact ⟨⟨hlt, fun a ha => String.lt_trans hlt (h.1 a ha)⟩, h⟩
    · rename_i hlt
      split
      · rename_i he
        subst he
        simpa using h
      · rename_i hne
        simp only [List.map_cons, List.pairwise_cons]
        refine ⟨fun a ha => ?_, ih h.2⟩
        obtain ⟨f, hf, rfl⟩ := List.mem_map.1 ha
        rcases mem_place hf with rfl | hf
        · exact lt_of_not_lt hlt hne
        · exact h.1 _ (List.mem_map_of_mem hf)

def insert (d : Dictionary α) (key : String) (value : α) : Dictionary α :=
  ⟨place key value d.entries, sorted_place d.sorted⟩

theorem sorted_filter {es : List (String × α)} (h : (es.map Prod.fst).Pairwise (· < ·))
    (p : String × α → Bool) : ((es.filter p).map Prod.fst).Pairwise (· < ·) :=
  h.sublist (List.filter_sublist.map _)

def filter (d : Dictionary α) (p : String → α → Bool) : Dictionary α :=
  ⟨d.entries.filter fun e => p e.1 e.2, sorted_filter d.sorted _⟩

def erase (d : Dictionary α) (key : String) : Dictionary α := d.filter fun k _ => k != key

/-- Of two entries under one name the later gives the value. -/
def ofList (entries : List (String × α)) : Dictionary α :=
  entries.foldl (fun d e => d.insert e.1 e.2) empty

def map (d : Dictionary α) (f : String → α → β) : Dictionary β :=
  ⟨d.entries.map fun e => (e.1, f e.1 e.2), by
    have h : (Prod.fst ∘ fun e : String × α => (e.1, f e.1 e.2)) = Prod.fst := rfl
    rw [List.map_map, h]
    exact d.sorted⟩

theorem lookup_cons (k key : String) (value : α) (es : List (String × α)) :
    lookup k ((key, value) :: es) = if k = key then some value else lookup k es := by
  by_cases h : k = key
  · simp [lookup, h]
  · simp [lookup, h, beq_eq_false_iff_ne.2 (Ne.symm h)]

theorem lookup_place (key k : String) (value : α) (es : List (String × α)) :
    lookup k (place key value es) = if k = key then some value else lookup k es := by
  induction es with
  | nil => rw [place, lookup_cons]
  | cons e es ih =>
    obtain ⟨a, v⟩ := e
    simp only [place]
    split
    · rw [lookup_cons]
    · split
      · rename_i he
        subst he
        simp only [lookup_cons]
        split <;> rfl
      · rename_i hne
        rw [lookup_cons, ih, lookup_cons]
        by_cases h : k = a
        · simp [h, Ne.symm hne]
        · simp [h]

theorem get?_insert (d : Dictionary α) (key k : String) (value : α) :
    (d.insert key value).get? k = if k = key then some value else d.get? k :=
  lookup_place key k value d.entries

theorem mem_of_get? {d : Dictionary α} {key : String} {value : α} (h : d.get? key = some value) :
    (key, value) ∈ d.entries := by
  obtain ⟨e, he, rfl⟩ := Option.map_eq_some_iff.1 h
  have hk : e.1 = key := by simpa using List.find?_some he
  exact hk ▸ List.mem_of_find?_eq_some he

theorem get?_of_mem {d : Dictionary α} {key : String} {value : α} (h : (key, value) ∈ d.entries) :
    d.get? key = some value := by
  obtain ⟨es, hs⟩ := d
  simp only [get?, lookup] at h ⊢
  induction es with
  | nil => simp at h
  | cons e es ih =>
    simp only [List.map_cons, List.pairwise_cons] at hs
    rcases List.mem_cons.1 h with h | h
    · simp [← h]
    · have hne : e.1 ≠ key := fun he =>
        String.lt_irrefl key (he ▸ hs.1 key (List.mem_map_of_mem h))
      simpa [List.find?_cons, hne] using ih hs.2 h

theorem get?_eq_some_iff {d : Dictionary α} {key : String} {value : α} :
    d.get? key = some value ↔ (key, value) ∈ d.entries :=
  ⟨mem_of_get?, get?_of_mem⟩

theorem mem_keys_iff {d : Dictionary α} {key : String} :
    key ∈ d.keys ↔ ∃ value, d.get? key = some value := by
  simp [keys, get?_eq_some_iff]

theorem contains_iff {d : Dictionary α} {key : String} : d.contains key ↔ key ∈ d.keys := by
  rw [contains, Option.isSome_iff_exists, mem_keys_iff]

theorem contains_insert {d : Dictionary α} {key k : String} {value : α} :
    (d.insert key value).contains k ↔ k = key ∨ d.contains k := by
  rw [contains, get?_insert]
  by_cases h : k = key
  · simp [h]
  · simp [h, contains]

theorem map_fst_place {key : String} {value : α} {es : List (String × α)}
    (hs : (es.map Prod.fst).Pairwise (· < ·)) (h : key ∈ es.map Prod.fst) :
    (place key value es).map Prod.fst = es.map Prod.fst := by
  induction es with
  | nil => cases h
  | cons e es ih =>
    obtain ⟨k, v⟩ := e
    simp only [List.map_cons, List.pairwise_cons, List.mem_cons] at hs h
    simp only [place]
    split
    · rename_i hlt
      have hle : ¬key < k := by
        cases h with
        | inl h => exact h ▸ String.lt_irrefl key
        | inr h => exact fun hlt => String.lt_irrefl key (String.lt_trans hlt (hs.1 key h))
      exact absurd hlt hle
    · split
      · rename_i he
        rw [he]
        rfl
      · rename_i hne
        rw [List.map_cons, ih hs.2 (h.resolve_left hne)]
        rfl

theorem place_of_lt {key : String} {value : α} {es : List (String × α)}
    (h : ∀ k ∈ es.map Prod.fst, k < key) : place key value es = es ++ [(key, value)] := by
  induction es with
  | nil => rfl
  | cons e es ih =>
    obtain ⟨k, v⟩ := e
    simp only [List.map_cons, List.mem_cons, forall_eq_or_imp] at h
    have hlt : ¬key < k := fun hlt => String.lt_irrefl k (String.lt_trans h.1 hlt)
    have hne : key ≠ k := fun he => String.lt_irrefl k (he ▸ h.1)
    rw [place, if_neg hlt, if_neg hne, ih h.2, List.cons_append]

theorem entries_insertAll {d : Dictionary α} {es : List (String × α)}
    (h : ((d.entries ++ es).map Prod.fst).Pairwise (· < ·)) :
    (es.foldl (fun d e => d.insert e.1 e.2) d).entries = d.entries ++ es := by
  induction es generalizing d with
  | nil => exact (List.append_nil _).symm
  | cons e es ih =>
    have hlast : (d.insert e.1 e.2).entries = d.entries ++ [e] := by
      refine place_of_lt fun k hk => ?_
      rw [List.map_append, List.map_cons, List.pairwise_append] at h
      exact h.2.2 k hk e.1 List.mem_cons_self
    rw [List.append_cons, ← hlast] at h ⊢
    exact ih h

theorem eq_of_entries_eq {d d' : Dictionary α} (h : d.entries = d'.entries) : d = d' := by
  obtain ⟨es, hs⟩ := d
  obtain ⟨es', hs'⟩ := d'
  obtain rfl : es = es' := h
  rfl

theorem ofList_entries (d : Dictionary α) : ofList d.entries = d :=
  eq_of_entries_eq (entries_insertAll d.sorted)

theorem keys_insert_of_mem {d : Dictionary α} {key : String} (h : key ∈ d.keys) (value : α) :
    (d.insert key value).keys = d.keys :=
  map_fst_place d.sorted h

end Dictionary

end TemporalGraph
