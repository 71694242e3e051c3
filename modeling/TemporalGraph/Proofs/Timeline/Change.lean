import Mathlib.Data.List.Perm.Basic
import TemporalGraph.Proofs.Timeline.History
/-!
What an insertion changes. Main statements: it touches no windows but those that it reports, so that
a valid timeline is got back from the report; and it leaves a valid timeline valid unless the new
version starts behind the end of the last one.
-/

namespace TemporalGraph

namespace Window

def endedAt (t : Instant) (w : Window) : Window := { w with stop := some t }

end Window

namespace Timeline

open Window

/-- Take an insertion back: drop its window, put back the window that it closed and the one that it
replaced, and order by start. -/
def undo (tl : Timeline) (change : WindowChange) : Timeline :=
  let cut := (change.closed.map (endedAt change.inserted.start)).toList
  ofWindows (change.replaced.toList ++ change.closed.toList ++
    (tl.windows.erase change.inserted).diff cut)

variable {t : Instant} {ws ws' : List Window} {change : WindowChange}

/- Windows as a multiset. -/

/-- Halving stays within the windows, be they in order or not. -/
theorem boundary_le {fuel size base : Nat} (h : base + size ≤ ws.length) :
    boundary t ws fuel size base ≤ ws.length := by
  induction fuel generalizing size base with
  | zero =>
    rw [boundary]
    omega
  | succ fuel ih =>
    simp only [boundary]
    split
    · split
      · next hbefore =>
        obtain ⟨w, hw, -⟩ := (Option.any_eq_true _ _).1 hbefore
        exact (List.getElem?_eq_some_iff.1 hw).1
      · omega
    · split
      · exact ih (by omega)
      · exact ih (by omega)

theorem position_le (t : Instant) (ws : List Window) : position t ws ≤ ws.length :=
  boundary_le (by omega)

variable {found : Option Nat}

theorem perm_taken (h : ∀ i ∈ found, i < ws.length) :
    ws.Perm ((found.bind fun i => ws[i]?).toList ++ (found.map ws.eraseIdx).getD ws) := by
  cases found with
  | none => exact .refl ws
  | some i => simpa [h i rfl] using (List.getElem_cons_eraseIdx_perm (h i rfl)).symm

theorem perm_closeAt (h : ∀ i ∈ found, i < ws.length) :
    ((found.map fun i => closeAt ws i t).getD ws).Perm
      (((found.bind fun i => ws[i]?).map (endedAt t)).toList ++
        (found.map ws.eraseIdx).getD ws) := by
  cases found with
  | none => exact .refl ws
  | some i =>
    have hi := h i rfl
    have hset : closeAt ws i t = ws.set i (endedAt t ws[i]) := by
      have hsplit : ws = ws.take i ++ ws[i] :: ws.drop (i + 1) := by simp
      have hclose := closeAt_append t ws[i] (ws.take i) (ws.drop (i + 1))
      rw [← hsplit, List.length_take_of_le hi.le] at hclose
      rw [hclose, List.set_eq_take_append_cons_drop, if_pos hi, endedAt]
    simpa [hi, hset] using List.set_perm_cons_eraseIdx hi (endedAt t ws[i])

theorem lt_length_of_findIdx? {p : Window → Bool} : ∀ i ∈ ws.findIdx? p, i < ws.length :=
  fun _ hi => (List.findIdx?_eq_some_iff_getElem.1 hi).1

theorem insertInto_perm (kept : List Window) (replaced : Option Window) (t : Instant) :
    ∃ rest, kept.Perm ((insertInto kept replaced t).2.closed.toList ++ rest) ∧
      (insertInto kept replaced t).1.windows.Perm ((insertInto kept replaced t).2.inserted ::
        (((insertInto kept replaced t).2.closed.map (endedAt t)).toList ++ rest)) := by
  have hfound : ∀ i ∈ kept.findIdx? fun w => w.contains t, i < kept.length :=
    lt_length_of_findIdx?
  refine ⟨_, perm_taken hfound, ?_⟩
  exact (List.perm_insertIdx _ _ (position_le _ _)).trans ((perm_closeAt hfound).cons _)

theorem insert_perm (tl : Timeline) (t : Instant) :
    ∃ kept, tl.windows.Perm
        ((tl.insert t).2.replaced.toList ++ ((tl.insert t).2.closed.toList ++ kept)) ∧
      (tl.insert t).1.windows.Perm ((tl.insert t).2.inserted ::
        (((tl.insert t).2.closed.map (endedAt t)).toList ++ kept)) := by
  have hsame : ∀ i ∈ tl.windows.findIdx? fun w => w.start = t, i < tl.windows.length :=
    lt_length_of_findIdx?
  obtain ⟨kept, hkept, hafter⟩ := insertInto_perm _ _ t
  exact ⟨kept, (perm_taken hsame).trans (hkept.append_left _), hafter⟩

theorem Insertion.replaced_or_closed (h : Insertion t ws ws' change) :
    change.replaced = none ∨ change.closed = none := by
  cases h with
  | split hs he ha => exact .inl rfl
  | place hb hs ha => exact .inr rfl

theorem exists_undo_eq (tl : Timeline) (t : Instant) :
    ∃ ws, (tl.insert t).1.undo (tl.insert t).2 = ofWindows ws ∧ ws.Perm tl.windows := by
  obtain ⟨kept, hbefore, hafter⟩ := insert_perm tl t
  have hrest := hafter.erase (tl.insert t).2.inserted
  rw [List.erase_cons_head] at hrest
  have hkept := hrest.diff_right ((tl.insert t).2.closed.map (endedAt t)).toList
  have hdiff : (((tl.insert t).2.closed.map (endedAt t)).toList ++ kept).diff
      ((tl.insert t).2.closed.map (endedAt t)).toList = kept := by
    cases (tl.insert t).2.closed with
    | none => rfl
    | some w => simp
  rw [hdiff] at hkept
  refine ⟨_, rfl, (hkept.append_left _).trans ?_⟩
  rw [List.append_assoc]
  exact hbefore.symm

/-- An insertion takes away the window that it replaces, cuts the one that it closes and adds its
own; all others stay. In a valid timeline it does not both replace and close, and it can be undone
from what it reports. -/
theorem insert_undo (tl : Timeline) (t : Instant) :
    (∃ kept, tl.windows.Perm
        ((tl.insert t).2.replaced.toList ++ ((tl.insert t).2.closed.toList ++ kept)) ∧
      (tl.insert t).1.windows.Perm ((tl.insert t).2.inserted ::
        (((tl.insert t).2.closed.map (endedAt t)).toList ++ kept))) ∧
    (tl.validate = .ok () →
      ((tl.insert t).2.replaced = none ∨ (tl.insert t).2.closed = none) ∧
      (tl.insert t).1.undo (tl.insert t).2 = tl) := by
  refine ⟨insert_perm tl t, fun h => ?_⟩
  have hs := validate_eq_ok_iff.1 h
  obtain ⟨ws, hundo, hperm⟩ := exists_undo_eq tl t
  exact ⟨(insertion hs.pairwise t).replaced_or_closed, hundo.trans (hs.ofWindows_of_perm hperm)⟩

theorem insert_undo_noon :
    let dawn := Instant.startOf 21600
    let noon := Instant.startOf 43200
    let night := Instant.startOf 79200
    let tl : Timeline := ⟨[⟨dawn, some night⟩, ⟨night, none⟩]⟩
    tl.validate = .ok () ∧
      (tl.insert noon).2 = ⟨none, some ⟨dawn, some night⟩, ⟨noon, some night⟩⟩ ∧
      undo ⟨[⟨dawn, some noon⟩, ⟨noon, some night⟩, ⟨night, none⟩]⟩
        ⟨none, some ⟨dawn, some night⟩, ⟨noon, some night⟩⟩ = tl := by
  intro dawn noon night tl
  have h : tl.validate = .ok () := by decide
  have hchange : (tl.insert noon).2 =
      ⟨none, some ⟨dawn, some night⟩, ⟨noon, some night⟩⟩ := by decide
  have hwindows : (tl.insert noon).1 =
      ⟨[⟨dawn, some noon⟩, ⟨noon, some night⟩, ⟨night, none⟩]⟩ := by decide
  have hundo := ((insert_undo tl noon).2 h).2
  rw [hchange, hwindows] at hundo
  exact ⟨h, hchange, hundo⟩

/- Gaps. -/

def EndsBefore (ws : List Window) (t : Instant) : Prop :=
  ∃ w ∈ ws.getLast?, ∃ stop ∈ w.stop, stop < t

theorem firstConflict?_append {w : Window} (h : ws.IsChain Meets) :
    firstConflict? (ws ++ [w]) = ws.getLast?.bind fun v => conflict? v w := by
  induction ws with
  | nil => rfl
  | cons a ws ih =>
    cases ws with
    | nil => simp [firstConflict?]
    | cons b ws =>
      have hab : conflict? a b = none := conflict?_eq_none_iff.2 h.rel
      have htail := ih h.tail
      rw [List.cons_append] at htail
      simp only [List.cons_append, firstConflict?, hab, Option.none_or, htail,
        List.getLast?_cons_cons]

theorem conflict?_of_lt {v : Window} {stop : Instant} (hv : v.stop = some stop) (hlt : stop < t) :
    conflict? v ⟨t, none⟩ =
      some (.invariant s!"no version between {stop.toText} and {t.toText}" .gap) := by
  have hnot : ¬t < stop := fun h => Instant.lt_irrefl t (Instant.lt_trans h hlt)
  simp [conflict?, hv, hnot, hlt]

theorem EndsBefore.not_endsAfter (h : EndsBefore ws t) (hs : Seamless ws) :
    ∀ v ∈ ws, ¬v.EndsAfter t := by
  obtain ⟨w, hw, stop, hstop, hlt⟩ := h
  obtain ⟨before, rfl⟩ := List.getLast?_eq_some_iff.1 hw
  have hstart : w.start < stop := nonempty_iff.1 (hs.nonempty w (by simp)) stop hstop
  intro v hv
  rcases List.mem_append.1 hv with hv | hv
  · have hvw := (List.pairwise_append.1 hs.pairwise).2.2 v hv w (by simp)
    exact fun he => hvw.2 (he.mono (Instant.le_of_lt (Instant.lt_trans hstart hlt)))
  · rw [List.mem_singleton.1 hv]
    exact not_endsAfter_iff.2 ⟨stop, hstop, Instant.le_of_lt hlt⟩

theorem start_lt_of_not_endsAfter {v : Window} (hv : v.nonempty) (h : ¬v.EndsAfter t) :
    v.start < t :=
  Instant.not_le.1 fun hle => h ((nonempty_iff.1 hv).mono hle)

theorem Insertion.eq_append (h : Insertion t ws ws' change) (hs : Seamless ws)
    (hb : EndsBefore ws t) : ws' = ws ++ [⟨t, none⟩] := by
  have hend := hb.not_endsAfter hs
  have hlt (v : Window) (hv : v ∈ ws) : v.start < t :=
    start_lt_of_not_endsAfter (hs.nonempty v hv) (hend v hv)
  cases h with
  | @split before after w hws he ha => exact absurd he (hend w (by simp))
  | @place before after same hb hsame ha =>
    cases after with
    | cons a after =>
      exact absurd (Instant.lt_trans (ha a (by simp)) (hlt a (by simp))) (Instant.lt_irrefl t)
    | nil =>
      cases same with
      | some v => exact absurd (hsame v rfl ▸ hlt v (by simp)) (Instant.lt_irrefl t)
      | none => simp

theorem Insertion.validate_eq_error (h : Insertion t ws ws' change) (hs : Seamless ws)
    {w : Window} {stop : Instant} (hw : ws.getLast? = some w) (hstop : w.stop = some stop)
    (hlt : stop < t) :
    validate ⟨ws'⟩ =
      .error (.invariant s!"no version between {stop.toText} and {t.toText}" .gap) := by
  have hfault : (ws ++ [(⟨t, none⟩ : Window)]).findSome? fault? = none := by
    rw [List.findSome?_eq_none_iff]
    intro v hv
    rcases List.mem_append.1 hv with hv | hv
    · exact fault?_eq_none_iff.2 (hs.nonempty v hv)
    · rw [List.mem_singleton.1 hv]
      rfl
  have hconflict := firstConflict?_append (w := ⟨t, none⟩) hs.meets
  rw [hw, Option.bind_some, conflict?_of_lt hstop hlt] at hconflict
  rw [h.eq_append hs ⟨w, hw, stop, hstop, hlt⟩, validate, hfault, hconflict]
  rfl

/-- An insertion leaves a valid timeline valid, unless the last window is closed and ends before the
new version; then there is a gap between the two. -/
theorem validate_insert (tl : Timeline) (h : tl.validate = .ok ()) (t : Instant) :
    ((tl.insert t).1.validate = .ok () ↔ ¬EndsBefore tl.windows t) ∧
    (∀ e, (tl.insert t).1.validate = .error e → e.code.text = "VER_002") ∧
    ∀ w ∈ tl.windows.getLast?, ∀ stop ∈ w.stop, stop < t → (tl.insert t).1.validate =
      .error (.invariant s!"no version between {stop.toText} and {t.toText}" .gap) := by
  have hs := validate_eq_ok_iff.1 h
  have hi := insertion hs.pairwise t
  have hvalid (hn : ¬EndsBefore tl.windows t) : (tl.insert t).1.validate = .ok () := by
    refine validate_eq_ok_iff.2 (hi.seamless hs fun w hw stop hstop => ?_)
    exact Instant.not_lt.1 fun hlt => hn ⟨w, hw, stop, hstop, hlt⟩
  have hgap {w : Window} {stop : Instant} (hw : w ∈ tl.windows.getLast?) (hstop : stop ∈ w.stop)
      (hlt : stop < t) := hi.validate_eq_error hs hw hstop hlt
  refine ⟨⟨fun hok => ?_, hvalid⟩, fun e he => ?_, fun w hw stop hstop hlt => hgap hw hstop hlt⟩
  · rintro ⟨w, hw, stop, hstop, hlt⟩
    cases hok.symm.trans (hgap hw hstop hlt)
  · by_cases hb : EndsBefore tl.windows t
    · obtain ⟨w, hw, stop, hstop, hlt⟩ := hb
      cases he.symm.trans (hgap hw hstop hlt)
      rfl
    · cases he.symm.trans (hvalid hb)

/-- The last window ends at noon: a version at noon follows it, and one in the evening does not. -/
theorem validate_insert_evening :
    let dawn := Instant.startOf 21600
    let noon := Instant.startOf 43200
    let evening := Instant.startOf 64800
    let tl : Timeline := ⟨[⟨dawn, some noon⟩]⟩
    tl.validate = .ok () ∧ (tl.insert noon).1.validate = .ok () ∧
      (tl.insert evening).1.validate =
        .error (.invariant s!"no version between {noon.toText} and {evening.toText}" .gap) := by
  intro dawn noon evening tl
  have h : tl.validate = .ok () := by decide
  have hnoon : ¬EndsBefore tl.windows noon := by
    rintro ⟨w, hw, stop, hstop, hlt⟩
    cases hw
    cases hstop
    exact absurd hlt (by decide)
  have hlt : noon < evening := by decide
  exact ⟨h, (validate_insert tl h noon).1.2 hnoon,
    (validate_insert tl h evening).2.2 _ rfl noon rfl hlt⟩

end Timeline

end TemporalGraph
