import TemporalGraph.Dictionary
/-!
JSON values, and records: values under distinct keys in the order in which the keys were first
written. Main statements: what `set` and `setIfAbsent` do to the keys and to a look-up.
-/

namespace TemporalGraph.Json

inductive Number where
  | int (value : Int)
  | float (bits : UInt64)
  deriving Repr, DecidableEq

inductive Value where
  | null
  | bool (b : Bool)
  | number (n : Number)
  | string (s : String)
  | array (items : List Value)
  | object (members : List (String × Value))
  deriving Repr, BEq

/-- Values under distinct keys, in the order in which the keys were first set. -/
structure Record where
  entries : List (String × Value)
  nodup : (entries.map Prod.fst).Nodup := by simp

namespace Record

def empty : Record := ⟨[], by simp⟩

def keys (r : Record) : List String := r.entries.map Prod.fst

def contains (r : Record) (key : String) : Bool := r.keys.contains key

def get? (r : Record) (key : String) : Option Value :=
  (r.entries.find? fun e => e.1 == key).map Prod.snd

def isEmpty (r : Record) : Bool := r.entries.isEmpty

def overwrite (entries : List (String × Value)) (key : String) (value : Value) :
    List (String × Value) :=
  entries.map fun e => if e.1 == key then (key, value) else e

theorem keys_overwrite (entries : List (String × Value)) (key : String) (value : Value) :
    (overwrite entries key value).map Prod.fst = entries.map Prod.fst := by
  simp only [overwrite, List.map_map]
  refine List.map_congr_left fun e _ => ?_
  by_cases h : e.1 = key <;> simp [h]

/-- A key already there keeps its place and takes the new value; a new key goes last. -/
def set (r : Record) (key : String) (value : Value) : Record :=
  if h : r.contains key then
    ⟨overwrite r.entries key value, by rw [keys_overwrite]; exact r.nodup⟩
  else
    ⟨r.entries ++ [(key, value)], by
      have hk : key ∉ r.entries.map Prod.fst := by simpa [contains, keys] using h
      rw [List.map_append, List.nodup_append]
      refine ⟨r.nodup, by simp, fun a ha b hb => ?_⟩
      have hb : b = key := by simpa using hb
      exact fun hab => hk (hb ▸ hab ▸ ha)⟩

def setIfAbsent (r : Record) (key : String) (value : Value) : Record :=
  if r.contains key then r else r.set key value

def ofList (entries : List (String × Value)) : Record :=
  entries.foldl (fun r e => r.set e.1 e.2) empty

def toValue (r : Record) : Value := .object r.entries

theorem keys_set (r : Record) (key : String) (value : Value) :
    (r.set key value).keys = if r.contains key then r.keys else r.keys ++ [key] := by
  by_cases h : r.contains key
  · simp [set, h, keys, keys_overwrite]
  · simp [set, h, keys]

open Dictionary (lookup lookup_cons)

theorem lookup_overwrite (k key : String) (value : Value) (es : List (String × Value)) :
    lookup k (overwrite es key value) =
      if k = key ∧ key ∈ es.map Prod.fst then some value else lookup k es := by
  induction es with
  | nil => simp [overwrite]
  | cons e es ih =>
    have hcons : overwrite (e :: es) key value =
        (if e.1 == key then (key, value) else e) :: overwrite es key value := rfl
    rw [hcons, lookup_cons, lookup_cons, ih]
    grind

theorem lookup_append_singleton (k key : String) (value : Value) {es : List (String × Value)}
    (h : key ∉ es.map Prod.fst) :
    lookup k (es ++ [(key, value)]) = if k = key then some value else lookup k es := by
  induction es with
  | nil => exact lookup_cons k key value []
  | cons e es ih =>
    rw [List.cons_append, lookup_cons, ih fun hm => h (List.mem_cons_of_mem _ hm), lookup_cons]
    grind

theorem get?_set (r : Record) (key k : String) (value : Value) :
    (r.set key value).get? k = if k = key then some value else r.get? k := by
  by_cases h : r.contains key
  · have hk : key ∈ r.entries.map Prod.fst := by simpa [contains, keys] using h
    simp only [set, dif_pos h]
    exact (lookup_overwrite k key value r.entries).trans (by simp [hk, lookup, get?])
  · have hk : key ∉ r.entries.map Prod.fst := by simpa [contains, keys] using h
    simp only [set, dif_neg h]
    exact lookup_append_singleton k key value hk

theorem contains_eq_isSome (r : Record) (key : String) : r.contains key = (r.get? key).isSome := by
  rw [Bool.eq_iff_iff]
  simp [contains, keys, get?, List.find?_isSome]

theorem get?_setIfAbsent (r : Record) (key k : String) (value : Value) :
    (r.setIfAbsent key value).get? k =
      if k = key ∧ r.get? key = none then some value else r.get? k := by
  rw [setIfAbsent, contains_eq_isSome]
  cases h : r.get? key with
  | none => simp [get?_set]
  | some v => simp

theorem mem_entries_iff {r : Record} {key : String} {value : Value} :
    (key, value) ∈ r.entries ↔ r.get? key = some value := by
  obtain ⟨es, hes⟩ := r
  change (key, value) ∈ es ↔ lookup key es = some value
  induction es with
  | nil => simp [lookup]
  | cons e es ih =>
    obtain ⟨k, v⟩ := e
    obtain ⟨hk, hrest⟩ := List.nodup_cons.1 hes
    rw [List.mem_cons, ih hrest, lookup_cons]
    by_cases he : key = k
    · subst he
      have hnone : lookup key es ≠ some value := by
        rw [Ne, ← ih hrest]
        exact fun hmem => hk (List.mem_map.2 ⟨_, hmem, rfl⟩)
      simp [hnone, eq_comm]
    · simp [he]

theorem mem_keys_iff {r : Record} {key : String} :
    key ∈ r.keys ↔ ∃ value, r.get? key = some value := by
  simp only [← mem_entries_iff, keys, List.mem_map, Prod.exists, exists_and_right, exists_eq_right]

theorem entries_set_of_mem {r : Record} {key : String} (h : key ∈ r.keys) (value : Value) :
    (r.set key value).entries = overwrite r.entries key value := by
  have hc : r.contains key := List.contains_iff_mem.2 h
  rw [set, dif_pos hc]

theorem entries_setIfAbsent (r : Record) (key : String) (value : Value) :
    (r.setIfAbsent key value).entries =
      r.entries ++ if key ∈ r.keys then [] else [(key, value)] := by
  by_cases h : key ∈ r.keys
  · have hc : r.contains key := List.contains_iff_mem.2 h
    rw [setIfAbsent, if_pos hc, if_pos h, List.append_nil]
  · have hc : ¬r.contains key := mt List.contains_iff_mem.1 h
    rw [setIfAbsent, if_neg hc, if_neg h, set, dif_neg hc]

end Record

end TemporalGraph.Json
