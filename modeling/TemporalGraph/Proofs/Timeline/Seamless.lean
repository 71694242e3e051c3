import Mathlib.Data.List.Chain
import TemporalGraph.Timeline
/-!
Timelines without gap or overlap. Main statement: validation accepts some windows, given in any
order, exactly if each of them holds an instant and together they hold each instant of their span
once; a read then finds the one window that holds its instant.
-/

namespace TemporalGraph

namespace Window

def EndsAfter (w : Window) (t : Instant) : Prop := ∀ stop, w.stop = some stop → t < stop

def Meets (a b : Window) : Prop := a.stop = some b.start

def Precedes (a b : Window) : Prop := a.start < b.start ∧ ¬a.EndsAfter b.start

theorem EndsAfter.mono {w : Window} {t u : Instant} (h : w.EndsAfter u) (htu : t ≤ u) :
    w.EndsAfter t :=
  fun stop hs => Instant.lt_of_le_of_lt htu (h stop hs)

theorem not_endsAfter_iff {w : Window} {t : Instant} :
    ¬w.EndsAfter t ↔ ∃ stop, w.stop = some stop ∧ stop ≤ t := by
  simp [EndsAfter, Instant.not_lt]

theorem contains_iff {w : Window} {t : Instant} :
    w.contains t ↔ w.start ≤ t ∧ w.EndsAfter t := by
  simp [contains, EndsAfter, Option.all_eq_true]

theorem nonempty_iff {w : Window} : w.nonempty ↔ w.EndsAfter w.start := by
  simp [nonempty, EndsAfter, Option.all_eq_true]

theorem contains_start {w : Window} (h : w.nonempty) : w.contains w.start :=
  contains_iff.2 ⟨Instant.le_refl _, nonempty_iff.1 h⟩

theorem fault?_eq_none_iff {w : Window} : w.fault? = none ↔ w.nonempty := by
  cases h : w.stop with
  | none => simp [fault?, nonempty, h]
  | some stop => simp [fault?, nonempty, h, Instant.not_le]

theorem not_contains_of_precedes {a b : Window} {t : Instant} (h : a.Precedes b)
    (hb : b.contains t) : ¬a.contains t :=
  fun ha => h.2 ((contains_iff.1 ha).2.mono (contains_iff.1 hb).1)

end Window

namespace Timeline

open Window

theorem conflict?_eq_none_iff {a b : Window} : conflict? a b = none ↔ a.Meets b := by
  cases h : a.stop with
  | none => cases hb : b.isOpen <;> simp [conflict?, Meets, h, hb]
  | some stop =>
    simp only [conflict?, Meets, h, Option.some.injEq]
    split
    · grind
    · split <;> grind

theorem firstConflict?_eq_none_iff {ws : List Window} :
    firstConflict? ws = none ↔ ws.IsChain Meets := by
  fun_induction firstConflict? ws with
  | case1 a b ws ih => simp [conflict?_eq_none_iff, ih]
  | case2 ws h =>
    cases ws with
    | nil => simp
    | cons a ws =>
      cases ws with
      | nil => simp
      | cons b ws => exact absurd rfl (h a b ws)

structure Seamless (ws : List Window) : Prop where
  nonempty : ∀ w ∈ ws, w.nonempty
  meets : ws.IsChain Meets

theorem validate_eq_ok_iff {tl : Timeline} : tl.validate = .ok () ↔ Seamless tl.windows := by
  have h : tl.validate = .ok () ↔
      tl.windows.findSome? fault? = none ∧ firstConflict? tl.windows = none := by
    rw [validate, ← Option.or_eq_none_iff]
    split
    · next e he => simp [he]
    · next he => simp [he]
  rw [h, List.findSome?_eq_none_iff, firstConflict?_eq_none_iff]
  simp only [fault?_eq_none_iff]
  exact ⟨fun h => ⟨h.1, h.2⟩, fun h => ⟨h.1, h.2⟩⟩

theorem Seamless.tail {w : Window} {ws : List Window} (h : Seamless (w :: ws)) : Seamless ws :=
  ⟨fun v hv => h.nonempty v (List.mem_cons_of_mem w hv), h.meets.tail⟩

theorem Seamless.pairwise {ws : List Window} (h : Seamless ws) : ws.Pairwise Precedes := by
  induction ws with
  | nil => exact .nil
  | cons a ws ih =>
    have hp := ih h.tail
    refine List.pairwise_cons.2 ⟨?_, hp⟩
    cases ws with
    | nil => simp
    | cons b ws =>
      have hm : a.stop = some b.start := h.meets.rel
      have ha := nonempty_iff.1 (h.nonempty a (by simp)) _ hm
      intro w hw
      rcases List.mem_cons.1 hw with rfl | hw
      · exact ⟨ha, not_endsAfter_iff.2 ⟨_, hm, Instant.le_refl _⟩⟩
      · have hb := (List.pairwise_cons.1 hp).1 w hw
        exact ⟨Instant.lt_trans ha hb.1, not_endsAfter_iff.2 ⟨_, hm, Instant.le_of_lt hb.1⟩⟩

/-- From the earliest start up to the latest end; without limit when a window is open. -/
def InSpan (ws : List Window) (t : Instant) : Prop :=
  (∃ w ∈ ws, w.start ≤ t) ∧ ∃ w ∈ ws, w.EndsAfter t

theorem inSpan_perm {vs ws : List Window} (h : vs.Perm ws) (t : Instant) :
    InSpan vs t ↔ InSpan ws t := by
  simp only [InSpan, h.mem_iff]

theorem inSpan_of_contains {ws : List Window} {w : Window} {t : Instant} (hw : w ∈ ws)
    (hc : w.contains t) : InSpan ws t :=
  ⟨⟨w, hw, (contains_iff.1 hc).1⟩, w, hw, (contains_iff.1 hc).2⟩

theorem Seamless.exists_contains {ws : List Window} {t : Instant} (h : Seamless ws)
    (ht : InSpan ws t) : ∃ w ∈ ws, w.contains t := by
  induction ws with
  | nil => simp [InSpan] at ht
  | cons a ws ih =>
    obtain ⟨⟨v, hv, hle⟩, w, hw, he⟩ := ht
    have hp := List.pairwise_cons.1 h.pairwise
    have ha : a.start ≤ t := by
      rcases List.mem_cons.1 hv with rfl | hv
      · exact hle
      · exact Instant.le_of_lt (Instant.lt_of_lt_of_le (hp.1 v hv).1 hle)
    by_cases hc : a.EndsAfter t
    · exact ⟨a, by simp, contains_iff.2 ⟨ha, hc⟩⟩
    · have hw' : w ∈ ws := (List.mem_cons.1 hw).resolve_left fun e => hc (e ▸ he)
      cases ws with
      | nil => simp at hw'
      | cons b ws =>
        have hm : a.stop = some b.start := h.meets.rel
        have hb : b.start ≤ t :=
          Instant.not_lt.1 fun hlt => hc (by simpa [EndsAfter, hm] using hlt)
        obtain ⟨u, hu, huc⟩ := ih h.tail ⟨⟨b, by simp, hb⟩, w, hw', he⟩
        exact ⟨u, List.mem_cons_of_mem a hu, huc⟩

theorem countP_contains_le_one {ws : List Window} (h : ws.Pairwise Precedes) (t : Instant) :
    ws.countP (·.contains t) ≤ 1 := by
  induction ws with
  | nil => simp
  | cons a ws ih =>
    obtain ⟨ha, hp⟩ := List.pairwise_cons.1 h
    by_cases hc : a.contains t
    · have hn : ws.countP (·.contains t) = 0 :=
        List.countP_eq_zero.2 fun w hw hw' => not_contains_of_precedes (ha w hw) hw' hc
      simp [hc, hn]
    · simpa [hc] using ih hp

theorem Seamless.countP_contains {ws : List Window} {t : Instant} (h : Seamless ws)
    (ht : InSpan ws t) : ws.countP (·.contains t) = 1 := by
  have hle := countP_contains_le_one h.pairwise t
  have hpos := List.countP_pos_iff.2 (h.exists_contains ht)
  omega

theorem pairwise_precedes {ws : List Window} (hs : ws.Pairwise fun a b => a.start ≤ b.start)
    (hn : ∀ w ∈ ws, w.nonempty) (hc : ∀ t, InSpan ws t → ws.countP (·.contains t) ≤ 1) :
    ws.Pairwise Precedes := by
  refine List.pairwise_iff_forall_sublist.2 fun {a b} hab => ?_
  have ha : a ∈ ws := hab.subset (by simp)
  have hb : b ∈ ws := hab.subset (by simp)
  have hle : a.start ≤ b.start := List.pairwise_iff_forall_sublist.1 hs hab
  have hcb := contains_start (hn b hb)
  have he : ¬a.EndsAfter b.start := by
    intro he
    have hca : a.contains b.start := contains_iff.2 ⟨hle, he⟩
    have htwo : [a, b].countP (·.contains b.start) = 2 := by simp [hca, hcb]
    have hone := hc b.start (inSpan_of_contains hb hcb)
    have := hab.countP_le (p := (·.contains b.start))
    omega
  obtain ⟨stop, hstop, hsb⟩ := not_endsAfter_iff.1 he
  exact ⟨Instant.lt_of_lt_of_le (nonempty_iff.1 (hn a ha) stop hstop) hsb, he⟩

/-- Neighbours leave no gap, because nobody would hold the instant at which it starts. -/
theorem isChain_meets {ws : List Window} (hp : ws.Pairwise Precedes)
    (hn : ∀ w ∈ ws, w.nonempty) (hc : ∀ t, InSpan ws t → ∃ w ∈ ws, w.contains t) :
    ws.IsChain Meets := by
  refine List.isChain_iff_forall_rel_of_append_cons_cons.2 fun a b before after he => ?_
  subst he
  obtain ⟨-, hab, hba⟩ := List.pairwise_append.1 hp
  obtain ⟨hab, hb⟩ := List.pairwise_cons.1 hab
  have hb := (List.pairwise_cons.1 hb).1
  obtain ⟨stop, hstop, hle⟩ := not_endsAfter_iff.1 (hab b (by simp)).2
  rw [Meets, hstop, Option.some.injEq]
  refine Instant.le_antisymm hle (Instant.not_lt.1 fun hlt => ?_)
  have ha : a.start < stop := nonempty_iff.1 (hn a (by simp)) stop hstop
  have hspan : InSpan (before ++ a :: b :: after) stop :=
    ⟨⟨a, by simp, Instant.le_of_lt ha⟩, b, by simp,
      (nonempty_iff.1 (hn b (by simp))).mono (Instant.le_of_lt hlt)⟩
  obtain ⟨w, hw, hwc⟩ := hc stop hspan
  obtain ⟨hws, hwe⟩ := contains_iff.1 hwc
  simp only [List.mem_append, List.mem_cons] at hw
  rcases hw with hw | rfl | rfl | hw
  · exact (hba w hw a (by simp)).2 (hwe.mono (Instant.le_of_lt ha))
  · exact Instant.lt_irrefl stop (hwe stop hstop)
  · exact Instant.lt_irrefl stop (Instant.lt_of_lt_of_le hlt hws)
  · have hbw := Instant.le_of_lt (hb w hw).1
    exact Instant.lt_irrefl stop (Instant.lt_of_lt_of_le hlt (Instant.le_trans hbw hws))

theorem ofWindows_perm (ws : List Window) : (ofWindows ws).windows.Perm ws :=
  List.mergeSort_perm ws _

theorem ofWindows_sorted (ws : List Window) :
    (ofWindows ws).windows.Pairwise fun a b => a.start ≤ b.start := by
  have h : (ofWindows ws).windows.Pairwise fun a b => decide (a.start ≤ b.start) :=
    List.pairwise_mergeSort (fun a b c => by simpa using Instant.le_trans)
      (fun a b => by simpa using Instant.le_total a.start b.start) ws
  exact h.imp fun h => by simpa using h

theorem ofWindows_of_sorted {ws : List Window} (h : ws.Pairwise fun a b => a.start ≤ b.start) :
    (ofWindows ws).windows = ws :=
  List.mergeSort_of_pairwise (h.imp fun h => by simpa using h)

theorem seamless_ofWindows_iff (ws : List Window) :
    Seamless (ofWindows ws).windows ↔
      (∀ w ∈ ws, w.nonempty) ∧ ∀ t, InSpan ws t → ws.countP (·.contains t) = 1 := by
  have hp := ofWindows_perm ws
  simp only [← hp.mem_iff, ← inSpan_perm hp, ← hp.countP_eq]
  constructor
  · intro h
    exact ⟨h.nonempty, fun t ht => h.countP_contains ht⟩
  · intro ⟨hn, hc⟩
    have hpair := pairwise_precedes (ofWindows_sorted ws) hn fun t ht => (hc t ht).le
    refine ⟨hn, isChain_meets hpair hn fun t ht => ?_⟩
    exact List.countP_pos_iff.1 (Nat.lt_of_lt_of_eq Nat.zero_lt_one (hc t ht).symm)

theorem windowAt?_eq_some_iff {tl : Timeline} (h : tl.windows.Pairwise Precedes) {t : Instant}
    {w : Window} : tl.windowAt? t = some w ↔ w ∈ tl.windows ∧ w.contains t := by
  constructor
  · intro hw
    exact ⟨List.mem_of_find?_eq_some hw, by simpa using List.find?_some hw⟩
  · intro ⟨hw, hc⟩
    obtain ⟨before, after, he⟩ := List.append_of_mem hw
    rw [he] at h
    have hb := (List.pairwise_append.1 h).2.2
    have hnone : before.find? (·.contains t) = none :=
      List.find?_eq_none.2 fun v hv => not_contains_of_precedes (hb v hv w (by simp)) hc
    simp [windowAt?, he, hnone, hc]

theorem windowAt?_isSome_iff {tl : Timeline} (h : Seamless tl.windows) {t : Instant} :
    (tl.windowAt? t).isSome ↔ InSpan tl.windows t := by
  rw [windowAt?, List.find?_isSome]
  exact ⟨fun ⟨w, hw, hc⟩ => inSpan_of_contains hw hc, h.exists_contains⟩

/-- Windows in any order are valid exactly if each of them holds an instant and they hold each
instant of their span once. A read then finds the one window that holds its instant. -/
theorem validate_ofWindows (ws : List Window) :
    ((ofWindows ws).validate = .ok () ↔
      (∀ w ∈ ws, w.nonempty) ∧ ∀ t, InSpan ws t → ws.countP (·.contains t) = 1) ∧
    (∀ vs, vs.Perm ws → ((ofWindows vs).validate = .ok () ↔ (ofWindows ws).validate = .ok ())) ∧
    ((ofWindows ws).validate = .ok () → ∀ t,
      (((ofWindows ws).windowAt? t).isSome ↔ InSpan ws t) ∧
      ∀ w, (ofWindows ws).windowAt? t = some w ↔ w ∈ ws ∧ w.contains t) := by
  have hp := ofWindows_perm ws
  simp only [validate_eq_ok_iff]
  refine ⟨seamless_ofWindows_iff ws, fun vs h => ?_, fun h t => ⟨?_, fun w => ?_⟩⟩
  · rw [seamless_ofWindows_iff, seamless_ofWindows_iff]
    simp only [h.mem_iff, inSpan_perm h, h.countP_eq]
  · rw [windowAt?_isSome_iff h, inSpan_perm hp]
  · rw [windowAt?_eq_some_iff h.pairwise, hp.mem_iff]

theorem validate_ofWindows_reversed :
    let dawn := Instant.startOf 21600
    let noon := Instant.startOf 43200
    let ws : List Window := [⟨noon, none⟩, ⟨dawn, some noon⟩]
    ws.Perm ws.reverse ∧ (ofWindows ws).validate = .ok () ∧
      (ofWindows ws).windowAt? noon = some ⟨noon, none⟩ := by
  intro dawn noon ws
  have hp : ws.Perm ws.reverse := ws.reverse_perm.symm
  have hsorted : (ofWindows ws.reverse).windows = ws.reverse := ofWindows_of_sorted (by decide)
  have hr : (ofWindows ws.reverse).validate = .ok () := by
    rw [show ofWindows ws.reverse = ⟨ws.reverse⟩ from congrArg Timeline.mk hsorted]
    decide
  have h := ((validate_ofWindows ws.reverse).2.1 ws hp).2 hr
  exact ⟨hp, h, (((validate_ofWindows ws).2.2 h noon).2 _).2 (by decide)⟩

end Timeline

end TemporalGraph
