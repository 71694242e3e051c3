import Mathlib.Data.List.Sort
import TemporalGraph.Proofs.Timeline.Insertion
/-!
Timelines that arise by insertion alone. Main statement: whatever the order and the repetitions of
the instants, their windows last from each instant up to the next greater one, and the last window
is open.
-/

namespace TemporalGraph.Timeline

open Window

def ofInstants (ts : List Instant) : Timeline := ts.foldl (fun tl t => (tl.insert t).1) .empty

/-- The windows from each start up to the next one; the last one is open. -/
def consecutive : List Instant → List Window
  | [] => []
  | [t] => [⟨t, none⟩]
  | t :: u :: ts => ⟨t, some u⟩ :: consecutive (u :: ts)

theorem seamless_append {before after : List Window} :
    Seamless (before ++ after) ↔ Seamless before ∧ Seamless after ∧
      ∀ a ∈ before.getLast?, ∀ b ∈ after.head?, a.Meets b := by
  constructor
  · intro ⟨hn, hm⟩
    obtain ⟨hb, ha, hj⟩ := List.isChain_append.1 hm
    exact ⟨⟨fun w hw => hn w (by simp [hw]), hb⟩, ⟨fun w hw => hn w (by simp [hw]), ha⟩, hj⟩
  · intro ⟨hb, ha, hj⟩
    refine ⟨fun w hw => ?_, List.isChain_append.2 ⟨hb.meets, ha.meets, hj⟩⟩
    exact (List.mem_append.1 hw).elim (hb.nonempty w) (ha.nonempty w)

theorem seamless_cons {w : Window} {ws : List Window} :
    Seamless (w :: ws) ↔ w.nonempty ∧ (∀ b ∈ ws.head?, w.Meets b) ∧ Seamless ws := by
  constructor
  · intro h
    exact ⟨h.nonempty w (by simp), (List.isChain_cons.1 h.meets).1, h.tail⟩
  · intro ⟨hw, hj, h⟩
    exact ⟨by simpa using ⟨hw, h.nonempty⟩, List.isChain_cons.2 ⟨hj, h.meets⟩⟩

def OpenEnded (ws : List Window) : Prop := ∀ w ∈ ws.getLast?, w.stop = none

theorem Insertion.seamless {t : Instant} {ws ws' : List Window} {change : WindowChange}
    (h : Insertion t ws ws' change) (hs : Seamless ws)
    (hr : ∀ w ∈ ws.getLast?, ∀ stop, w.stop = some stop → t ≤ stop) : Seamless ws' := by
  cases h with
  | @split before after w hlt he ha =>
    obtain ⟨hb, hwa, hj⟩ := seamless_append.1 hs
    obtain ⟨-, hjw, ha⟩ := seamless_cons.1 hwa
    refine seamless_append.2 ⟨hb, seamless_cons.2 ⟨?_, ?_, seamless_cons.2 ⟨?_, hjw, ha⟩⟩, ?_⟩
    · simpa [nonempty] using hlt
    · simp [Meets]
    · exact nonempty_iff.2 he
    · simpa [Meets] using hj
  | @place before after same hb hsame ha =>
    rw [List.append_assoc] at hs hr
    obtain ⟨hsb, hsr, hj⟩ := seamless_append.1 hs
    have hsa := (seamless_append.1 hsr).2.1
    have hrest : ∀ b ∈ (same.toList ++ after).head?, t ≤ b.start := by
      intro b hb
      rcases List.mem_append.1 (List.mem_of_head? hb) with hb | hb
      · exact Instant.not_lt.1 fun hlt => Instant.lt_irrefl t (hsame b (by simpa using hb) ▸ hlt)
      · exact Instant.le_of_lt (ha b hb)
    refine seamless_append.2 ⟨hsb, seamless_cons.2 ⟨?_, ?_, hsa⟩, ?_⟩
    · refine nonempty_iff.2 fun stop hstop => ?_
      obtain ⟨a, ha', rfl⟩ := Option.map_eq_some_iff.1 hstop
      exact ha a (List.mem_of_head? ha')
    · intro b hb
      simp [Meets, Option.mem_def.1 hb]
    · -- The last window before `t` ends by `t`, and not before what comes next.
      intro v hv b hb'
      obtain rfl : ⟨t, after.head?.map Window.start⟩ = b := by simpa using hb'
      obtain ⟨stop, hstop, hle⟩ := not_endsAfter_iff.1 (hb v (List.mem_of_getLast? hv)).2
      rw [Meets, hstop, Option.some.injEq]
      refine Instant.le_antisymm hle ?_
      cases hrest' : same.toList ++ after with
      | nil => exact hr v (by simpa [hrest'] using hv) stop hstop
      | cons a rest =>
        have hm : v.stop = some a.start := hj v hv a (by simp [hrest'])
        rw [hstop, Option.some.injEq] at hm
        exact hm ▸ hrest a (by simp [hrest'])

theorem Insertion.openEnded {t : Instant} {ws ws' : List Window} {change : WindowChange}
    (h : Insertion t ws ws' change) (ho : OpenEnded ws) : OpenEnded ws' := by
  cases h with
  | @split before after w hs he ha => cases after <;> simpa [OpenEnded] using ho
  | @place before after same hb hs ha =>
    cases after with
    | nil => simp [OpenEnded]
    | cons a after => simpa [OpenEnded] using ho

theorem Insertion.mem_starts {t u : Instant} {ws ws' : List Window} {change : WindowChange}
    (h : Insertion t ws ws' change) :
    u ∈ ws'.map Window.start ↔ u = t ∨ u ∈ ws.map Window.start := by
  cases h with
  | split hs he ha =>
    simp only [List.map_append, List.map_cons, List.mem_append, List.mem_cons]
    tauto
  | @place before after same hb hs ha =>
    cases same with
    | none =>
      simp only [List.map_append, List.map_cons, List.mem_append, List.mem_cons, Option.toList_none,
        List.append_nil]
      tauto
    | some v =>
      have hv : v.start = t := hs v rfl
      simp only [List.map_append, List.map_cons, List.mem_append, List.mem_cons, Option.toList_some,
        List.map_nil, hv]
      tauto

theorem Seamless.starts_pairwise {ws : List Window} (h : Seamless ws) :
    (ws.map Window.start).Pairwise (· < ·) :=
  List.pairwise_map.2 (h.pairwise.imp fun h => h.1)

/-- Windows that leave no gap are put into order in one way only. -/
theorem Seamless.ofWindows_of_perm {tl : Timeline} {ws : List Window} (h : Seamless tl.windows)
    (hp : ws.Perm tl.windows) : ofWindows ws = tl := by
  have hperm := (ofWindows_perm ws).trans hp
  have hstarts := h.starts_pairwise
  have hnodup : (tl.windows.map Window.start).Nodup :=
    hstarts.imp fun {t u} (hlt : t < u) (he : t = u) => Instant.lt_irrefl u (he ▸ hlt)
  have hsorted : tl.windows.Pairwise fun a b => a.start ≤ b.start :=
    (List.pairwise_map.1 hstarts).imp Instant.le_of_lt
  refine congrArg Timeline.mk (List.Perm.eq_of_pairwise ?_ (ofWindows_sorted ws) hsorted hperm)
  intro a b ha hb hab hba
  exact List.inj_on_of_nodup_map hnodup (hperm.mem_iff.1 ha) hb (Instant.le_antisymm hab hba)

theorem Seamless.eq_consecutive {ws : List Window} (h : Seamless ws) (ho : OpenEnded ws) :
    ws = consecutive (ws.map Window.start) := by
  induction ws with
  | nil => rfl
  | cons w ws ih =>
    cases ws with
    | nil =>
      have hw : w.stop = none := ho w (by simp)
      simp [consecutive, ← hw]
    | cons v ws =>
      have hm : w.stop = some v.start := h.meets.rel
      have htail := ih h.tail (by simpa [OpenEnded] using ho)
      simp only [List.map_cons, consecutive] at htail ⊢
      rw [← hm, ← htail]

theorem consecutive_filter_isOpen (starts : List Instant) :
    (consecutive starts).filter Window.isOpen = (consecutive starts).getLast?.toList := by
  fun_induction consecutive starts with
  | case1 => rfl
  | case2 t => rfl
  | case3 t u ts ih =>
    have hne : consecutive (u :: ts) ≠ [] := by cases ts <;> simp [consecutive]
    rw [List.filter_cons_of_neg (by simp [isOpen]), ih, List.getLast?_cons_of_ne_nil hne]

structure History (ts : List Instant) (ws : List Window) : Prop where
  seamless : Seamless ws
  openEnded : OpenEnded ws
  mem_starts : ∀ t, t ∈ ws.map Window.start ↔ t ∈ ts

theorem History.insert {ts : List Instant} {tl : Timeline} (h : History ts tl.windows)
    (t : Instant) : History (ts ++ [t]) (tl.insert t).1.windows := by
  have hi := insertion h.seamless.pairwise t
  refine ⟨hi.seamless h.seamless ?_, hi.openEnded h.openEnded, fun u => ?_⟩
  · intro w hw stop hstop
    simp [h.openEnded w hw] at hstop
  · rw [hi.mem_starts, h.mem_starts, List.mem_append, List.mem_singleton, or_comm]

theorem history_ofInstants (ts : List Instant) : History ts (ofInstants ts).windows := by
  induction ts using List.reverseRecOn with
  | nil =>
    exact ⟨⟨by simp [ofInstants, empty], by simp [ofInstants, empty]⟩,
      by simp [OpenEnded, ofInstants, empty], by simp [ofInstants, empty]⟩
  | append_singleton ts t ih =>
    rw [ofInstants, List.foldl_append]
    exact ih.insert t

theorem History.eq_consecutive {ts : List Instant} {ws : List Window} (h : History ts ws) :
    ws = consecutive (ws.map Window.start) :=
  h.seamless.eq_consecutive h.openEnded

theorem History.unique {ts us : List Instant} {ws vs : List Window} (h : History ts ws)
    (h' : History us vs) (hm : ∀ t, t ∈ ts ↔ t ∈ us) : ws = vs := by
  have hirrefl : Std.Irrefl (α := Instant) (· < ·) := ⟨Instant.lt_irrefl⟩
  have hasymm : Std.Asymm (α := Instant) (· < ·) :=
    ⟨fun a b hab hba => Instant.lt_irrefl a (Instant.lt_trans hab hba)⟩
  have hstarts : ws.map Window.start = vs.map Window.start :=
    h.seamless.starts_pairwise.eq_of_mem_iff h'.seamless.starts_pairwise fun t => by
      rw [h.mem_starts, h'.mem_starts, hm]
  rw [h.eq_consecutive, h'.eq_consecutive, hstarts]

/-- Versions written at any instants, in any order, last from each distinct instant up to the next
greater one, and the last is open. So the timeline is valid throughout, and neither the order nor
repetitions of the instants matter. -/
theorem ofInstants_windows (ts : List Instant) :
    (∃ starts : List Instant, starts.Pairwise (· < ·) ∧ (∀ t, t ∈ starts ↔ t ∈ ts) ∧
      (ofInstants ts).windows = consecutive starts) ∧
    (∀ n, (ofInstants (ts.take n)).validate = .ok () ∧
      (ofInstants (ts.take n)).windows.filter Window.isOpen =
        (ofInstants (ts.take n)).windows.getLast?.toList) ∧
    ∀ us, (∀ t, t ∈ us ↔ t ∈ ts) → ofInstants us = ofInstants ts := by
  have hh := history_ofInstants
  refine ⟨⟨_, (hh ts).seamless.starts_pairwise, (hh ts).mem_starts, (hh ts).eq_consecutive⟩,
    fun n => ⟨validate_eq_ok_iff.2 (hh (ts.take n)).seamless, ?_⟩, fun us hm => ?_⟩
  · rw [(hh (ts.take n)).eq_consecutive]
    exact consecutive_filter_isOpen _
  · exact congrArg Timeline.mk ((hh us).unique (hh ts) hm)

theorem ofInstants_windows_repeated :
    let dawn := Instant.startOf 21600
    let noon := Instant.startOf 43200
    (∀ t, t ∈ [noon, dawn, noon] ↔ t ∈ [dawn, noon]) ∧
      ofInstants [noon, dawn, noon] = ofInstants [dawn, noon] := by
  intro dawn noon
  have hm : ∀ t, t ∈ [noon, dawn, noon] ↔ t ∈ [dawn, noon] := fun t => by simp; tauto
  exact ⟨hm, (ofInstants_windows [dawn, noon]).2.2 [noon, dawn, noon] hm⟩

end TemporalGraph.Timeline
