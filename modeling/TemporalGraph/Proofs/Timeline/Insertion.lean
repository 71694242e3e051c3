import TemporalGraph.Proofs.Timeline.Seamless
/-!
What an insertion does to windows in order: it cuts the window that holds the instant in two, or
else puts its own window in front of the next one. Main statement: reads change inside the window of
the new version only.
-/

namespace TemporalGraph.Timeline

open Window

/- Halving finds the place where the starts reach `t`. -/

theorem boundary_eq {t : Instant} {ws : List Window} {n : Nat}
    (hb : ∀ i, (ws[i]?).any (fun w => decide (w.start < t)) = decide (i < n))
    {fuel size base : Nat} (hf : size ≤ fuel) (hl : base ≤ n) (hr : n ≤ base + size) :
    boundary t ws fuel size base = n := by
  induction fuel generalizing size base with
  | zero => simp only [boundary]; omega
  | succ fuel ih =>
    simp only [boundary, hb, decide_eq_true_eq]
    split
    · split <;> omega
    · split
      · exact ih (by omega) (by omega) (by omega)
      · exact ih (by omega) hl (by omega)

theorem position_append {t : Instant} {before after : List Window}
    (hb : ∀ w ∈ before, w.start < t) (ha : ∀ w ∈ after, t ≤ w.start) :
    position t (before ++ after) = before.length := by
  refine boundary_eq (fun i => ?_) (Nat.le_refl _) (Nat.zero_le _) (by simp)
  by_cases hi : i < before.length
  · have hw := hb before[i] (List.getElem_mem hi)
    simp [List.getElem?_append_left hi, hi, hw]
  · rw [List.getElem?_append_right (by omega)]
    cases h : after[i - before.length]? with
    | none => simp [hi]
    | some w =>
      have hw := ha w (List.mem_of_getElem? h)
      simp [hi, Instant.not_lt.2 hw]

theorem insertIdx_append {α : Type} (a : α) (before after : List α) :
    (before ++ after).insertIdx before.length a = before ++ a :: after := by
  induction before with
  | nil => rfl
  | cons b before ih => simpa using ih

theorem closeAt_append (t : Instant) (w : Window) (before after : List Window) :
    closeAt (before ++ w :: after) before.length t = before ++ ⟨w.start, some t⟩ :: after := by
  induction before with
  | nil => rfl
  | cons b before ih => simpa [closeAt] using ih

theorem findIdx?_append_cons {α : Type} {p : α → Bool} {a : α} {before after : List α}
    (hb : ∀ b ∈ before, ¬p b) (ha : p a) :
    (before ++ a :: after).findIdx? p = some before.length := by
  rw [List.findIdx?_append, List.findIdx?_eq_none_iff.2 (by simpa using hb)]
  simp [List.findIdx?_cons, ha]

theorem earliest?_of_pairwise {ts : List Instant} (h : ts.Pairwise (· < ·)) :
    earliest? ts = ts.head? := by
  induction ts with
  | nil => rfl
  | cons t ts ih =>
    obtain ⟨ht, hp⟩ := List.pairwise_cons.1 h
    cases ts with
    | nil => rfl
    | cons u ts =>
      have hu : ¬u < t := Instant.not_lt.2 (Instant.le_of_lt (ht u (by simp)))
      rw [earliest?, ih hp]
      simp [hu]

theorem earliest?_append {t : Instant} {before after : List Window}
    (hb : ∀ w ∈ before, w.start < t) (ha : ∀ w ∈ after, t < w.start)
    (hp : after.Pairwise Precedes) :
    earliest? (((before ++ after).map Window.start).filter fun s => decide (t < s)) =
      after.head?.map Window.start := by
  have hnone : (before.map Window.start).filter (fun s => decide (t < s)) = [] := by
    simpa using fun w hw => Instant.not_lt.2 (Instant.le_of_lt (hb w hw))
  have hall : (after.map Window.start).filter (fun s => decide (t < s)) =
      after.map Window.start := by
    simpa using ha
  have hstarts : (after.map Window.start).Pairwise (· < ·) :=
    List.pairwise_map.2 (hp.imp fun h => h.1)
  rw [List.map_append, List.filter_append, hnone, hall, List.nil_append,
    earliest?_of_pairwise hstarts, List.head?_map]

theorem not_contains_of_lt {w : Window} {t : Instant} (h : t < w.start) : ¬w.contains t :=
  fun hc => Instant.lt_irrefl t (Instant.lt_of_lt_of_le h (contains_iff.1 hc).1)

def insertInto (kept : List Window) (replaced : Option Window) (t : Instant) :
    Timeline × WindowChange :=
  let enclosing := kept.findIdx? fun w => w.contains t
  let closed := enclosing.bind fun i => kept[i]?
  let next := earliest? ((kept.map Window.start).filter fun s => t < s)
  let inserted : Window := ⟨t, (closed.bind Window.stop).or next⟩
  let cut := (enclosing.map fun i => closeAt kept i t).getD kept
  (⟨cut.insertIdx (position t cut) inserted⟩, ⟨replaced, closed, inserted⟩)

theorem insert_append {t : Instant} {before after : List Window} {same : Option Window}
    (hb : ∀ v ∈ before, v.start < t) (hs : ∀ v ∈ same, v.start = t)
    (ha : ∀ v ∈ after, t < v.start) :
    insert ⟨before ++ same.toList ++ after⟩ t = insertInto (before ++ after) same t := by
  have hbefore : ∀ v ∈ before, ¬decide (v.start = t) := by grind
  cases same with
  | none =>
    have hnone : (before ++ after).findIdx? (fun v => decide (v.start = t)) = none := by
      rw [List.findIdx?_eq_none_iff]
      grind
    simp only [insert, insertInto, Option.toList_none, List.append_nil, hnone]
    rfl
  | some w =>
    have hfound : (before ++ w :: after).findIdx? (fun v => decide (v.start = t)) =
        some before.length :=
      findIdx?_append_cons hbefore (by simpa using hs)
    have herase : (before ++ w :: after).eraseIdx before.length = before ++ after := by
      simp [List.eraseIdx_append_of_length_le]
    simp only [insert, insertInto, Option.toList_some, List.append_assoc, List.singleton_append,
      hfound, Option.map_some, Option.getD_some, herase, Option.bind_some]
    simp

theorem insertInto_split {t : Instant} {before after : List Window} {w : Window}
    {replaced : Option Window} (hp : (before ++ w :: after).Pairwise Precedes)
    (hs : w.start < t) (he : w.EndsAfter t) (ha : ∀ v ∈ after, t < v.start) :
    insertInto (before ++ w :: after) replaced t =
      (⟨before ++ ⟨w.start, some t⟩ :: ⟨t, w.stop⟩ :: after⟩, ⟨replaced, some w, ⟨t, w.stop⟩⟩) := by
  obtain ⟨-, hpw, hbw⟩ := List.pairwise_append.1 hp
  obtain ⟨hwa, hpa⟩ := List.pairwise_cons.1 hpw
  have hc : w.contains t := contains_iff.2 ⟨Instant.le_of_lt hs, he⟩
  have hlt (stop : Option Instant) : ∀ v ∈ before ++ [⟨w.start, stop⟩], v.start < t := by
    have := fun v hv => Instant.lt_trans (hbw v hv w (by simp)).1 hs
    simpa [or_imp, forall_and, hs] using this
  have hhold : (before ++ w :: after).findIdx? (fun v => v.contains t) = some before.length :=
    findIdx?_append_cons (fun v hv => not_contains_of_precedes (hbw v hv w (by simp)) hc) hc
  have hget : (before ++ w :: after)[before.length]? = some w := by simp
  have hfirst := earliest?_append (hlt w.stop) ha hpa
  -- An open window is the last one, so that there is no next start to end at.
  have hnext : w.stop.or (after.head?.map Window.start) = w.stop := by
    cases after with
    | nil => simp
    | cons v after =>
      obtain ⟨stop, hstop, -⟩ := not_endsAfter_iff.1 (hwa v (by simp)).2
      simp [hstop]
  have hpos := position_append (hlt (some t)) fun v hv => Instant.le_of_lt (ha v hv)
  have hput := insertIdx_append (⟨t, w.stop⟩ : Window) (before ++ [⟨w.start, some t⟩]) after
  simp only [List.append_assoc, List.singleton_append] at hfirst hpos hput
  simp only [insertInto, hhold, Option.bind_some, Option.map_some, Option.getD_some,
    closeAt_append, hget, hfirst, hnext, hpos, hput]

theorem insertInto_place {t : Instant} {before after : List Window} {replaced : Option Window}
    (hb : ∀ v ∈ before, v.start < t ∧ ¬v.EndsAfter t) (hpa : after.Pairwise Precedes)
    (ha : ∀ v ∈ after, t < v.start) :
    insertInto (before ++ after) replaced t =
      (⟨before ++ ⟨t, after.head?.map Window.start⟩ :: after⟩,
        ⟨replaced, none, ⟨t, after.head?.map Window.start⟩⟩) := by
  have hhold : (before ++ after).findIdx? (fun v => v.contains t) = none := by
    rw [List.findIdx?_eq_none_iff]
    intro v hv
    rw [Bool.eq_false_iff]
    intro hc
    rcases List.mem_append.1 hv with hv | hv
    · exact (hb v hv).2 (contains_iff.1 hc).2
    · exact not_contains_of_lt (ha v hv) hc
  have hfirst := earliest?_append (fun v hv => (hb v hv).1) ha hpa
  have hpos := position_append (fun v hv => (hb v hv).1) fun v hv => Instant.le_of_lt (ha v hv)
  simp only [insertInto, hhold, Option.bind_none, Option.none_or, Option.map_none, Option.getD_none,
    hfirst, hpos, insertIdx_append]

/-- What the insertion of `t` makes of windows in order, and what it reports. -/
inductive Insertion (t : Instant) : List Window → List Window → WindowChange → Prop where
  /-- The window that is valid at `t` is cut in two. -/
  | split {before after : List Window} {w : Window} (hs : w.start < t) (he : w.EndsAfter t)
      (ha : ∀ v ∈ after, t < v.start) :
      Insertion t (before ++ w :: after) (before ++ ⟨w.start, some t⟩ :: ⟨t, w.stop⟩ :: after)
        ⟨none, some w, ⟨t, w.stop⟩⟩
  /-- No earlier window reaches beyond `t`, and the new one lasts up to the next start. -/
  | place {before after : List Window} {same : Option Window}
      (hb : ∀ v ∈ before, v.start < t ∧ ¬v.EndsAfter t) (hs : ∀ v ∈ same, v.start = t)
      (ha : ∀ v ∈ after, t < v.start) :
      Insertion t (before ++ same.toList ++ after)
        (before ++ ⟨t, after.head?.map Window.start⟩ :: after)
        ⟨same, none, ⟨t, after.head?.map Window.start⟩⟩

theorem exists_cut {ws : List Window} (h : ws.Pairwise Precedes) (t : Instant) :
    ∃ before same after, ws = before ++ Option.toList same ++ after ∧
      (∀ v ∈ before, v.start < t) ∧ (∀ v ∈ same, v.start = t) ∧ ∀ v ∈ after, t < v.start := by
  induction ws with
  | nil => exact ⟨[], none, [], by simp⟩
  | cons w ws ih =>
    obtain ⟨hw, hp⟩ := List.pairwise_cons.1 h
    by_cases hlt : w.start < t
    · obtain ⟨before, same, after, he, hb, hs, ha⟩ := ih hp
      exact ⟨w :: before, same, after, by simp [he], by simpa using ⟨hlt, hb⟩, hs, ha⟩
    · have hle := Instant.not_lt.1 hlt
      have hafter : ∀ v ∈ ws, t < v.start := fun v hv => Instant.lt_of_le_of_lt hle (hw v hv).1
      by_cases heq : w.start = t
      · exact ⟨[], some w, ws, by simp, by simp, by simpa using heq, hafter⟩
      · have hgt : t < w.start := by grind
        exact ⟨[], none, w :: ws, by simp, by simp, by simp, by simpa using ⟨hgt, hafter⟩⟩

theorem endsAfter_cases {ws : List Window} {t : Instant} (h : ws.Pairwise Precedes)
    (hlt : ∀ v ∈ ws, v.start < t) :
    (∀ v ∈ ws, v.start < t ∧ ¬v.EndsAfter t) ∨
      ∃ before w, ws = before ++ [w] ∧ w.start < t ∧ w.EndsAfter t := by
  rcases List.eq_nil_or_concat' ws with rfl | ⟨before, w, rfl⟩
  · simp
  · by_cases hw : w.EndsAfter t
    · exact .inr ⟨before, w, rfl, hlt w (by simp), hw⟩
    · left
      intro v hv
      refine ⟨hlt v hv, ?_⟩
      rcases List.mem_append.1 hv with hb | hb
      · have hvw := (List.pairwise_append.1 h).2.2 v hb w (by simp)
        exact fun he => hvw.2 (he.mono (Instant.le_of_lt (hlt w (by simp))))
      · exact List.mem_singleton.1 hb ▸ hw

theorem insertion {tl : Timeline} (h : tl.windows.Pairwise Precedes) (t : Instant) :
    Insertion t tl.windows (tl.insert t).1.windows (tl.insert t).2 := by
  obtain ⟨ws⟩ := tl
  obtain ⟨before, same, after, rfl, hb, hs, ha⟩ := exists_cut h t
  obtain ⟨hbs, hpa, -⟩ := List.pairwise_append.1 h
  obtain ⟨hpb, -, hbs⟩ := List.pairwise_append.1 hbs
  rw [insert_append hb hs ha]
  rcases endsAfter_cases hpb hb with hb | ⟨before, w, rfl, hw, he⟩
  · rw [insertInto_place hb hpa ha]
    exact .place hb hs ha
  · cases same with
    | some v =>
      have hv : v.start = t := hs v rfl
      exact absurd (hv ▸ he) (hbs w (by simp) v (by simp)).2
    | none =>
      simp only [Option.toList_none, List.append_nil, List.append_assoc,
        List.singleton_append] at h ⊢
      rw [insertInto_split h hw he ha]
      exact .split hw he ha

theorem contains_cut {w : Window} {t u : Instant} (he : w.EndsAfter t)
    (hu : ¬contains ⟨t, w.stop⟩ u) : contains ⟨w.start, some t⟩ u ↔ w.contains u := by
  have hcut : EndsAfter ⟨w.start, some t⟩ u ↔ u < t := by simp [EndsAfter]
  rw [contains_iff, contains_iff, hcut]
  by_cases hlt : u < t
  · simp [hlt, he.mono (Instant.le_of_lt hlt)]
  · have hw : ¬w.EndsAfter u := fun hw => hu (contains_iff.2 ⟨Instant.not_lt.1 hlt, hw⟩)
    simp [hlt, hw]

theorem find?_eq_none_of_not_endsAfter {ws : List Window} {t u : Instant}
    (h : ∀ v ∈ ws, ¬v.EndsAfter t) (htu : t ≤ u) : ws.find? (·.contains u) = none :=
  List.find?_eq_none.2 fun v hv hc => h v hv ((contains_iff.1 hc).2.mono htu)

theorem Insertion.find?_inserted {t u : Instant} {ws ws' : List Window} {change : WindowChange}
    (h : Insertion t ws ws' change) (hp : ws.Pairwise Precedes)
    (hu : change.inserted.contains u) :
    ws'.find? (·.contains u) = some change.inserted := by
  have htu := (contains_iff.1 hu).1
  cases h with
  | @split before after w hs he ha =>
    have hb : ∀ v ∈ before ++ [⟨w.start, some t⟩], ¬v.EndsAfter t := by
      intro v hv
      rcases List.mem_append.1 hv with hv | hv
      · have hvw := (List.pairwise_append.1 hp).2.2 v hv w (by simp)
        exact fun hve => hvw.2 (hve.mono (Instant.le_of_lt hs))
      · rw [List.mem_singleton.1 hv]
        exact fun hve => Instant.lt_irrefl t (hve t rfl)
    have hnone := find?_eq_none_of_not_endsAfter hb htu
    rw [← List.singleton_append, ← List.append_assoc, List.find?_append, hnone]
    simp [hu]
  | place hb hs ha =>
    have hnone := find?_eq_none_of_not_endsAfter (fun v hv => (hb v hv).2) htu
    simp [hnone, hu]

theorem Insertion.find?_outside {t u : Instant} {ws ws' : List Window} {change : WindowChange}
    (h : Insertion t ws ws' change) (hp : ws.Pairwise Precedes)
    (hu : ¬change.inserted.contains u) :
    (ws'.find? (·.contains u)).map Window.start = (ws.find? (·.contains u)).map Window.start := by
  cases h with
  | @split before after w hs he ha =>
    have hw : contains ⟨w.start, some t⟩ u = w.contains u := Bool.eq_iff_iff.2 (contains_cut he hu)
    simp only [List.find?_append, List.find?_cons, hw, hu]
    cases before.find? (·.contains u) <;> cases w.contains u <;> rfl
  | @place before after same hb hs ha =>
    -- The new window covers a replaced one, which ended by the next start.
    have hsame : same.toList.find? (·.contains u) = none := by
      refine List.find?_eq_none.2 fun v hv hc => hu ?_
      obtain ⟨hvu, hve⟩ := contains_iff.1 hc
      have hvt : v.start = t := hs v (by simpa using hv)
      refine contains_iff.2 ⟨hvt ▸ hvu, fun stop hstop => ?_⟩
      obtain ⟨a, ha', rfl⟩ := Option.map_eq_some_iff.1 hstop
      have hva : v.Precedes a := (List.pairwise_append.1 hp).2.2 v
        (by simp [Option.mem_toList.1 hv]) a (List.mem_of_head? ha')
      exact Instant.not_le.1 fun hle => hva.2 (hve.mono hle)
    simp only [List.find?_append, List.find?_cons, hsame, hu, Option.or_none]

/-- An insertion into a valid timeline changes reads inside the window of the new version only:
there they find the new version, and elsewhere a version of the same start as before, if any. -/
theorem windowAt?_insert (tl : Timeline) (h : tl.validate = .ok ()) (t u : Instant) :
    ((tl.insert t).2.inserted.contains u →
      (tl.insert t).1.windowAt? u = some (tl.insert t).2.inserted) ∧
    (¬(tl.insert t).2.inserted.contains u →
      ((tl.insert t).1.windowAt? u = none ↔ tl.windowAt? u = none) ∧
      ((tl.insert t).1.windowAt? u).map Window.start = (tl.windowAt? u).map Window.start) := by
  have hp := (validate_eq_ok_iff.1 h).pairwise
  have hi := insertion hp t
  refine ⟨hi.find?_inserted hp, fun hu => ?_⟩
  have hstart := hi.find?_outside hp hu
  refine ⟨?_, hstart⟩
  rw [windowAt?, windowAt?, ← Option.map_eq_none_iff, hstart, Option.map_eq_none_iff]

theorem windowAt?_insert_noon :
    let dawn := Instant.startOf 21600
    let noon := Instant.startOf 43200
    let night := Instant.startOf 79200
    let tl : Timeline := ⟨[⟨dawn, some night⟩]⟩
    tl.validate = .ok () ∧ (tl.insert noon).1.windowAt? noon = some ⟨noon, some night⟩ ∧
      ((tl.insert noon).1.windowAt? dawn).map Window.start = some dawn := by
  intro dawn noon night tl
  have h : tl.validate = .ok () := by decide
  have hnoon := (windowAt?_insert tl h noon noon).1 (by decide)
  have hdawn := ((windowAt?_insert tl h noon dawn).2 (by decide)).2
  exact ⟨h, hnoon, hdawn⟩

end TemporalGraph.Timeline
