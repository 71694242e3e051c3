import TemporalGraph.Proofs.Instant.Reading
import TemporalGraph.Proofs.Timeline.History
import TemporalGraph.Runner
/-!
Histories read back from a store. Main statement: rows that hold the windows of a history in the
stored form, in any order, are audited as that history.
-/

namespace TemporalGraph

namespace Timeline

theorem stop_mem_of_mem_consecutive {starts : List Instant} {w : Window}
    (h : w ∈ consecutive starts) {t : Instant} (ht : w.stop = some t) : t ∈ starts := by
  fun_induction consecutive starts with
  | case1 => simp at h
  | case2 u =>
    obtain rfl := List.mem_singleton.1 h
    cases ht
  | case3 u v us ih =>
    cases h with
    | head =>
      obtain rfl := Option.some.inj ht
      exact List.mem_cons_of_mem u List.mem_cons_self
    | tail _ h => exact List.mem_cons_of_mem u (ih h)

theorem History.mem_of_window {ts : List Instant} {ws : List Window} (h : History ts ws)
    {w : Window} (hw : w ∈ ws) : w.start ∈ ts ∧ ∀ t, w.stop = some t → t ∈ ts := by
  refine ⟨(h.mem_starts _).1 (List.mem_map_of_mem hw), fun t ht => (h.mem_starts t).1 ?_⟩
  rw [h.eq_consecutive] at hw
  exact stop_mem_of_mem_consecutive hw ht

end Timeline

namespace Runner

variable {σ : Type}

/-- The row has the start of the window, and its end unless the window is open, in the stored
form. -/
structure Describes (row : Row) (w : Window) : Prop where
  start : row.get? "from" = some (.string w.start.toText)
  stop : match w.stop with
    | some t => row.get? "to" = some (.string t.toText)
    | none => row.get? "to" = none ∨ row.get? "to" = some .null

theorem Describes.windowOfRow {row : Row} {w : Window} (h : Describes row w)
    (hstart : w.start.IsStored) (hstop : ∀ t, w.stop = some t → t.IsStored) :
    windowOfRow row = .ok w := by
  obtain ⟨start, stop⟩ := w
  obtain ⟨hfrom, hto⟩ := h
  simp only at hstart hstop hfrom hto
  rw [Runner.windowOfRow, hfrom]
  cases stop with
  | none =>
    cases hto with
    | inl hto =>
      simp only [hstart.ofText_toText, hto]
      rfl
    | inr hto =>
      simp only [hstart.ofText_toText, hto]
      rfl
  | some t =>
    simp only [hstart.ofText_toText, hto, (hstop t rfl).ofText_toText]
    rfl

theorem timelineOfRows_of_describes {tl : Timeline} {ws : List Window} {rows : List Row}
    (h : Timeline.Seamless tl.windows)
    (hs : ∀ w ∈ tl.windows, w.start.IsStored ∧ ∀ t, w.stop = some t → t.IsStored)
    (hp : ws.Perm tl.windows) (hr : List.Forall₂ Describes rows ws) :
    timelineOfRows rows = .ok tl := by
  have hstored :=
    (List.forall₂_and_left ws rows).2 ⟨fun w hw => hs w (hp.mem_iff.1 hw), hr.flip⟩
  have hread : List.Forall₂ (fun w row => windowOfRow row = .ok w) ws rows :=
    hstored.imp fun w row ⟨hw, hd⟩ => hd.windowOfRow hw.1 hw.2
  rw [timelineOfRows, Except.mapM_eq_ok hread.flip, Except.ok_bind]
  simp only [h.ofWindows_of_perm hp, Timeline.validate_eq_ok_iff.2 h]
  rfl

theorem audit_of_rows {c : Config} {session : Session σ} {typeName id : String} {state : σ}
    {rows : List Row} {tl : Timeline}
    (ha : (session (auditStatement c typeName id) state).rows = .ok rows)
    (hr : timelineOfRows rows = .ok tl) :
    (audit c session typeName id state).result =
      .ok (.ok tl, (session (auditStatement c typeName id) state).state) := by
  have hanswer : (session (auditStatement c typeName id) state).rows.bind timelineOfRows =
      .ok tl := by rw [ha]; exact hr
  simp only [audit, submit, Outcome.bind_ok, hanswer]
  rfl

/-- Versions are written at instants that the stored form keeps, and a session answers with one row
for each window that they leave, in any order. Then the audit finds these windows. -/
theorem audit_ofInstants (c : Config) (session : Session σ) (typeName id : String) (state : σ)
    {ts : List Instant} {ws : List Window} {rows : List Row} (hs : ∀ t ∈ ts, t.IsStored)
    (hp : ws.Perm (Timeline.ofInstants ts).windows) (hr : List.Forall₂ Describes rows ws)
    (ha : (session (auditStatement c typeName id) state).rows = .ok rows) :
    (audit c session typeName id state).result = .ok
      (.ok (Timeline.ofInstants ts), (session (auditStatement c typeName id) state).state) := by
  have hh := Timeline.history_ofInstants ts
  refine audit_of_rows ha (timelineOfRows_of_describes hh.seamless (fun w hw => ?_) hp hr)
  obtain ⟨hstart, hstop⟩ := hh.mem_of_window hw
  exact ⟨hs _ hstart, fun t ht => hs t (hstop t ht)⟩

theorem audit_ofInstants_leap_second :
    let leap : Instant := { second := 1435708799, nano := 1250000000 }
    let noon := Instant.startOf 1435752000
    let rows : List Row :=
      [.ofList [("from", .string "2015-07-01T12:00:00.000Z"), ("to", .null)],
        .ofList [("to", .string "2015-07-01T12:00:00.000Z"),
          ("from", .string "2015-06-30T23:59:60.250Z")]]
    (audit {} Recording.session "Person" "ne" { responses := [rows] }).result = .ok
      (.ok (Timeline.ofInstants [noon, leap]),
        { statements := [auditStatement {} "Person" "ne"] }) := by
  intro leap noon rows
  have hs : ∀ t ∈ [noon, leap], t.IsStored := by
    have hnoon : noon.IsStored := ⟨by decide, by decide⟩
    have hleap : leap.IsStored := ⟨by decide, by decide⟩
    simpa using ⟨hnoon, hleap⟩
  have hwindows : (Timeline.ofInstants [noon, leap]).windows = [⟨leap, some noon⟩, ⟨noon, none⟩] :=
    by decide
  have hp : [⟨noon, none⟩, ⟨leap, some noon⟩].Perm (Timeline.ofInstants [noon, leap]).windows := by
    rw [hwindows]
    exact List.Perm.swap _ _ _
  have hr : List.Forall₂ Describes rows [⟨noon, none⟩, ⟨leap, some noon⟩] := by
    have hnoon : noon.toText = "2015-07-01T12:00:00.000Z" := by decide
    have hleap : leap.toText = "2015-06-30T23:59:60.250Z" := by decide
    refine .cons ⟨?_, .inr rfl⟩ (.cons ⟨?_, ?_⟩ .nil)
    · simp only [hnoon]
      rfl
    · simp only [hleap]
      rfl
    · simp only [hnoon]
      rfl
  exact audit_ofInstants {} Recording.session "Person" "ne" _ hs hp hr rfl

end Runner

end TemporalGraph
