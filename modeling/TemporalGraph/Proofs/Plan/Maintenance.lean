import TemporalGraph.Proofs.Instant.StoredForm
import TemporalGraph.Proofs.Plan.Policy
import TemporalGraph.Proofs.Plan.Storage
import TemporalGraph.Proofs.Timeline.Insertion
/-!
Writes and timelines. Main statement: a store that runs the text of a write is left with the version
edges of the timeline into which the version is inserted.
-/

namespace TemporalGraph

def Window.IsStored (w : Window) : Prop :=
  w.start.IsStored ∧ ∀ stop, w.stop = some stop → stop.IsStored

def VersionEdge.ofWindow (w : Window) : VersionEdge := ⟨w.start.toText, w.stop.map Instant.toText⟩

def Timeline.edges (tl : Timeline) : List VersionEdge := tl.windows.map VersionEdge.ofWindow

namespace Plan.Create

open VersionEdge (ofWindow)
open scoped List

variable {es : List VersionEdge} {t : Instant}

theorem encloses_ofWindow {w : Window} (hw : w.IsStored) (ht : t.IsStored) :
    (ofWindow w).encloses t.toText = w.contains t := by
  have hstart := hw.1.toText_le_iff ht
  cases hstop : w.stop with
  | none =>
    simp only [VersionEdge.encloses, ofWindow, Window.contains, hstop, hstart, Option.map_none,
      Option.all_none]
  | some stop =>
    have hlt := ht.toText_lt_iff (hw.2 stop hstop)
    simp only [VersionEdge.encloses, ofWindow, Window.contains, hstop, hstart, hlt, Option.map_some,
      Option.all_some]

theorem start_ofWindow_eq_iff {w : Window} (hw : w.IsStored) (ht : t.IsStored) :
    (ofWindow w).start = t.toText ↔ w.start = t := hw.1.toText_eq_iff ht

theorem leastStartAfter_eq {front after : List Window}
    (hes : es ~ (front ++ after).map ofWindow) (hw : ∀ w ∈ front ++ after, w.IsStored)
    (ht : t.IsStored) (hf : ∀ w ∈ front, w.start ≤ t) (ha : ∀ w ∈ after, t < w.start)
    (hp : after.Pairwise Window.Precedes) :
    leastStartAfter t.toText es = (after.head?.map Window.start).map Instant.toText := by
  have hmem : ∀ s, s ∈ (es.map VersionEdge.start).filter (fun start => t.toText < start) ↔
      ∃ w ∈ after, w.start.toText = s := by
    intro s
    rw [List.mem_filter, (hes.map _).mem_iff, List.map_map, List.mem_map, decide_eq_true_eq]
    constructor
    · rintro ⟨⟨w, hwm, rfl⟩, hlt⟩
      have hlt : t < w.start := (ht.toText_lt_iff (hw w hwm).1).1 hlt
      rcases List.mem_append.1 hwm with hwf | hwa
      · exact absurd hlt (Instant.not_lt.2 (hf w hwf))
      · exact ⟨w, hwa, rfl⟩
    · rintro ⟨w, hwa, rfl⟩
      have hwm : w ∈ front ++ after := List.mem_append.2 (.inr hwa)
      exact ⟨⟨w, hwm, rfl⟩, (ht.toText_lt_iff (hw w hwm).1).2 (ha w hwa)⟩
  cases after with
  | nil =>
    have hnil : (es.map VersionEdge.start).filter (fun start => t.toText < start) = [] :=
      List.eq_nil_iff_forall_not_mem.2 fun s hs => by
        obtain ⟨w, hwa, -⟩ := (hmem s).1 hs
        cases hwa
    rw [leastStartAfter, hnil]
    rfl
  | cons a after =>
    refine List.min?_eq_some_iff.2 ⟨(hmem _).2 ⟨a, by simp, rfl⟩, fun s hs => ?_⟩
    obtain ⟨w, hwa, rfl⟩ := (hmem s).1 hs
    have hle : a.start ≤ w.start := by
      rcases List.mem_cons.1 hwa with rfl | hwa
      · exact Instant.le_refl _
      · exact Instant.le_of_lt ((List.pairwise_cons.1 hp).1 w hwa).1
    exact ((hw a (by simp)).1.toText_le_iff (hw w (by simp [hwa])).1).2 hle

theorem not_encloses_of_perm {ws : List Window} (hes : es ~ ws.map ofWindow)
    (hw : ∀ w ∈ ws, w.IsStored) (ht : t.IsStored) (hn : ∀ w ∈ ws, ¬w.contains t) :
    ∀ e ∈ es, ¬e.encloses t.toText := by
  intro e hm
  obtain ⟨w, hwm, rfl⟩ := List.mem_map.1 (hes.mem_iff.1 hm)
  rw [encloses_ofWindow (hw w hwm) ht]
  exact hn w hwm

theorem filter_start_ne {before after : List Window} {same : Option Window}
    (hb : ∀ v ∈ before, v.start < t) (hs : ∀ v ∈ same, v.start = t)
    (ha : ∀ v ∈ after, t < v.start) :
    (before ++ same.toList ++ after).filter (fun w => decide (w.start ≠ t)) = before ++ after := by
  have hkeep {ws : List Window} (h : ∀ v ∈ ws, v.start ≠ t) :
      ws.filter (fun w => decide (w.start ≠ t)) = ws :=
    List.filter_eq_self.2 fun v hv => decide_eq_true (h v hv)
  have hbefore := hkeep fun v hv he => Instant.lt_irrefl t (he ▸ hb v hv)
  have hafter := hkeep fun v hv he => Instant.lt_irrefl t (he ▸ ha v hv)
  have hsame : same.toList.filter (fun w => decide (w.start ≠ t)) = [] :=
    List.filter_eq_nil_iff.2 fun v hv => by
      rw [decide_eq_true_eq]
      exact fun hne => hne (hs v (Option.mem_toList.1 hv))
  rw [List.filter_append, List.filter_append, hbefore, hsame, hafter, List.append_nil]

theorem kept_perm {before after : List Window} {same : Option Window}
    (hes : es ~ (before ++ same.toList ++ after).map ofWindow)
    (hw : ∀ w ∈ before ++ same.toList ++ after, w.IsStored) (ht : t.IsStored)
    (hb : ∀ v ∈ before, v.start < t) (hs : ∀ v ∈ same, v.start = t)
    (ha : ∀ v ∈ after, t < v.start) :
    (es.filter fun e => e.start ≠ t.toText) ~ (before ++ after).map ofWindow := by
  have hsame : ((before ++ same.toList ++ after).map ofWindow).filter
      (fun e => decide (e.start ≠ t.toText)) = (before ++ after).map ofWindow := by
    rw [← filter_start_ne hb hs ha, List.filter_map]
    refine congrArg (List.map ofWindow) (List.filter_congr fun w hm => ?_)
    simp only [Function.comp, ne_eq, start_ofWindow_eq_iff (hw w hm) ht]
  rw [← hsame]
  exact hes.filter _

theorem stop_or_next {w : Window} {after : List Window} (h : ∀ v ∈ after, w.Precedes v) :
    w.stop.or (after.head?.map Window.start) = w.stop := by
  cases after with
  | nil => simp
  | cons v after =>
    obtain ⟨stop, hstop, -⟩ := Window.not_endsAfter_iff.1 (h v (by simp)).2
    simp [hstop]

theorem perm_of_rest {α : Type} {ds fs before after : List α} (h : ds ++ fs ~ before ++ after)
    (a b : α) : ds ++ a :: fs ++ [b] ~ before ++ a :: b :: after :=
  calc ds ++ a :: fs ++ [b]
    _ ~ b :: (ds ++ a :: fs) := List.perm_append_singleton b _
    _ ~ b :: a :: (ds ++ fs) := List.perm_middle.cons b
    _ ~ b :: a :: (before ++ after) := (h.cons a).cons b
    _ ~ b :: (before ++ a :: after) := List.perm_middle.symm.cons b
    _ ~ before ++ b :: a :: after := List.perm_middle.symm
    _ ~ before ++ a :: b :: after := (List.Perm.swap a b after).append_left before

/-- The lines reach the construction with one row, however many nodes a stale version embeds, and
leave the edges of the windows `ws`. The construction runs once for that row and adds no edge to the
resource. -/
def Maintains (version : String) (es : List VersionEdge) (ws : List Window) : Prop :=
  ∀ embedded, (runSteps version embedded opening { edges := es }).rows.length = 1 ∧
    (runSteps version embedded closing (runSteps version embedded opening { edges := es })).edges ~
      ws.map ofWindow

theorem maintains_place {before after : List Window} {same : Option Window}
    (hes : es ~ (before ++ same.toList ++ after).map ofWindow)
    (hw : ∀ v ∈ before ++ same.toList ++ after, v.IsStored) (ht : t.IsStored)
    (hp : after.Pairwise Window.Precedes) (hb : ∀ v ∈ before, v.start < t ∧ ¬v.EndsAfter t)
    (hs : ∀ v ∈ same, v.start = t) (ha : ∀ v ∈ after, t < v.start) :
    Maintains t.toText es (before ++ ⟨t, after.head?.map Window.start⟩ :: after) := by
  have hkept := kept_perm hes hw ht (fun v hv => (hb v hv).1) hs ha
  have hw : ∀ v ∈ before ++ after, v.IsStored := fun v hv =>
    hw v (by simp only [List.mem_append] at hv ⊢; tauto)
  have hn := not_encloses_of_perm hkept hw ht fun v hv hc => by
    rcases List.mem_append.1 hv with hv | hv
    · exact (hb v hv).2 (Window.contains_iff.1 hc).2
    · exact Timeline.not_contains_of_lt (ha v hv) hc
  have hleast := leastStartAfter_eq hkept hw ht (fun v hv => Instant.le_of_lt (hb v hv).1) ha hp
  intro embedded
  rw [run_opening_of_none rfl hn, hleast]
  refine ⟨rfl, ?_⟩
  rw [run_closing_of_none, List.map_append, List.map_cons]
  refine (hkept.append_right _).trans ?_
  rw [List.map_append, List.append_assoc]
  exact List.perm_append_comm.append_left _

theorem maintains_split {before after : List Window} {w : Window}
    (hes : es ~ (before ++ w :: after).map ofWindow)
    (hw : ∀ v ∈ before ++ w :: after, v.IsStored) (ht : t.IsStored)
    (hp : (before ++ w :: after).Pairwise Window.Precedes) (hlt : w.start < t)
    (he : w.EndsAfter t) (ha : ∀ v ∈ after, t < v.start) :
    Maintains t.toText es (before ++ ⟨w.start, some t⟩ :: ⟨t, w.stop⟩ :: after) := by
  obtain ⟨-, hpw, hbw⟩ := List.pairwise_append.1 hp
  obtain ⟨hwa, hpa⟩ := List.pairwise_cons.1 hpw
  have hc : w.contains t := Window.contains_iff.2 ⟨Instant.le_of_lt hlt, he⟩
  have hfront : ∀ v ∈ before ++ [w], v.start < t := by
    intro v hv
    rcases List.mem_append.1 hv with hv | hv
    · exact Instant.lt_trans (hbw v hv w (by simp)).1 hlt
    · exact List.mem_singleton.1 hv ▸ hlt
  have hcut : before ++ w :: after = before ++ [w] ++ (none : Option Window).toList ++ after := by
    simp
  have hkept := kept_perm (hcut ▸ hes) (hcut ▸ hw) ht hfront (by simp) ha
  have hleast := leastStartAfter_eq hkept (by simpa using hw) ht
    (fun v hv => Instant.le_of_lt (hfront v hv)) ha hpa
  rw [List.append_assoc, List.singleton_append, List.map_append, List.map_cons] at hkept
  -- The edge of the window that is cut stands somewhere among those that are kept.
  obtain ⟨ds, fs, hsplit⟩ := List.append_of_mem (a := ofWindow w) (hkept.mem_iff.2 (by simp))
  rw [hsplit] at hkept hleast
  have hrest : ds ++ fs ~ (before ++ after).map ofWindow := by
    rw [List.map_append]
    exact (List.perm_middle.symm.trans (hkept.trans List.perm_middle)).cons_inv
  have hn := not_encloses_of_perm hrest (fun v hv => hw v (by grind)) ht fun v hv hv' => by
    rcases List.mem_append.1 hv with hv | hv
    · exact Window.not_contains_of_precedes (hbw v hv w (by simp)) hc hv'
    · exact Timeline.not_contains_of_lt (ha v hv) hv'
  have hencloses : (ofWindow w).encloses t.toText := by rwa [encloses_ofWindow (hw w (by simp)) ht]
  have hstop : (ofWindow w).stop.or ((after.head?.map Window.start).map Instant.toText) =
      w.stop.map Instant.toText := by
    rw [ofWindow, ← Option.map_or, stop_or_next hwa]
  intro embedded
  rw [run_opening_of_some hsplit hencloses hn, hleast]
  refine ⟨rfl, ?_⟩
  rw [run_closing_of_some, hstop, List.map_append, List.map_cons, List.map_cons]
  rw [List.map_append] at hrest
  exact perm_of_rest hrest _ _

theorem maintains_insertion {ws ws' : List Window} {change : WindowChange}
    (h : Timeline.Insertion t ws ws' change) (hp : ws.Pairwise Window.Precedes)
    (hw : ∀ w ∈ ws, w.IsStored) (ht : t.IsStored) (hes : es ~ ws.map ofWindow) :
    Maintains t.toText es ws' := by
  cases h with
  | split hlt he ha => exact maintains_split hes hw ht hp hlt he ha
  | place hb hs ha => exact maintains_place hes hw ht (List.pairwise_append.1 hp).2.1 hb hs ha

theorem prelude_eq_join (c : Config) (typeName : String) :
    prelude c typeName = String.join ((linesBefore c typeName).map Prod.fst) := by
  unfold prelude linesBefore Labels.resourceLabels
  refine String.toList_inj.1 ?_
  simp only [List.map_cons, List.map_nil, String.join_cons, String.join_nil, String.append_empty,
    String.toList_append, List.append_assoc, toString]

theorem epilogue_eq_join (c : Config) (key : String) :
    epilogue c key = "\n" ++ String.join ((linesBehind c key).map Prod.fst) := by
  unfold epilogue linesBehind
  refine String.toList_inj.1 ?_
  simp only [List.map_cons, List.map_nil, String.join_cons, String.join_nil, String.append_empty,
    String.toList_append, List.append_assoc, toString]

theorem join_parts (c : Config) (typeName key : String) (widened returned : List Char) :
    String.join (parts c typeName key (String.ofList widened) (String.ofList returned)) =
      String.ofList ((prelude c typeName).toList ++ widened ++ (epilogue c key).toList ++
        returned) := by
  rw [prelude_eq_join, epilogue_eq_join, parts]
  simp only [String.join_append, String.join_cons, String.join_nil, String.append_empty,
    String.ofList_append, String.ofList_toList, String.append_assoc]

/-- A store that acts on the lines as their words say runs a statement that was made to write a
version as the insertion into the timeline: it reaches the construction with one row, and leaves
the edges of the timeline with the version in it. -/
theorem apply_maintains_windows {typeName : String} {call : Call} {s out : Statement} {c : Config}
    (hout : (apply typeName call s c).result = .ok out)
    (hf : (terminal call.resultKey).toList <:+: s.query.toList) {tl : Timeline}
    (hv : tl.validate = .ok ()) (hw : ∀ w ∈ tl.windows, w.IsStored) (ht : t.IsStored)
    (hes : es ~ tl.edges) :
    ∃ construction widened rest,
      Text.LastAt (terminal call.resultKey).toList s.query.toList construction rest ∧
      Scope.carry? carried call.resultKey.toList (Text.trimEnd construction) = some widened ∧
      let returned := String.ofList ((terminal call.resultKey).toList ++ rest)
      let before := String.join ((linesBefore c typeName).map Prod.fst)
      out.query = String.join (parts c typeName call.resultKey (String.ofList widened) returned) ∧
      before.toList ++ widened <+: out.query.toList ∧
      ∀ (store : Store) (embedded : Binding → Nat),
        store.Acts c typeName call.resultKey (String.ofList widened) returned t.toText embedded →
        (store before { edges := es }).rows.length = 1 ∧
          (store out.query { edges := es }).edges ~ (tl.insert t).1.edges := by
  have hp := (Timeline.validate_eq_ok_iff.1 hv).pairwise
  have hmaintains := maintains_insertion (Timeline.insertion hp t) hp hw ht hes
  obtain ⟨construction, rest, hlast⟩ := Text.exists_splitLast? hf
  cases hcarry : Scope.carry? carried call.resultKey.toList (Text.trimEnd construction) with
  | none =>
    rw [apply_of_carry?_eq_none hlast hcarry] at hout
    cases hout
  | some widened =>
    rw [apply_of_carry? hlast hcarry] at hout
    obtain rfl := Except.ok.inj hout
    have hquery := join_parts c typeName call.resultKey widened
      ((terminal call.resultKey).toList ++ rest)
    rw [← List.append_assoc] at hquery
    refine ⟨construction, widened, rest, Text.lastAt_of_splitLast? hlast, hcarry, hquery.symm,
      ?_, fun store embedded hstore => ?_⟩
    · rw [← hquery]
      simp [parts]
    · dsimp only
      rw [← hquery, hstore.run_before, hstore.run_parts]
      exact hmaintains embedded

theorem apply_maintains_windows_noon :
    let call : Call := ⟨"createPerson", some "p", .empty⟩
    let s : Statement :=
      ⟨"CREATE (p:Person) WITH p SET p.name = $name WITH p RETURN p", .empty⟩
    let noon := Instant.startOf 43200
    let tl : Timeline := ⟨[⟨Instant.startOf 21600, some (Instant.startOf 64800)⟩,
      ⟨Instant.startOf 64800, none⟩]⟩
    let known := linesBefore {} "Person" ++ linesBehind {} "p"
    let query := "MERGE (_r:Person_R:RESOURCE \x7bid: $id\x7d) WITH _r\n" ++
      "OPTIONAL MATCH (_r)<-[:VERSION_OF \x7bfrom: $_version\x7d]-(_stale)\n" ++
      "OPTIONAL MATCH (_stale)-[*]->(_embedded:EMBEDDED)\n" ++
      "DETACH DELETE _stale, _embedded WITH DISTINCT _r\n" ++
      "OPTIONAL MATCH (_r)<-[_v:VERSION_OF]-() WHERE _v.from <= $_version " ++
        "AND coalesce($_version < _v.to, true) WITH _r, _v AS _prev\n" ++
      "OPTIONAL MATCH (_r)<-[_v:VERSION_OF]-() WHERE _v.from > $_version " ++
        "WITH _r, _prev, min(_v.from) AS _next_from\n" ++
      "CREATE (p:Person) WITH p, _r, _prev, _next_from SET p.name = $name\n" ++
      "SET p:INSTANCE\n" ++
      "CREATE (_r)<-[:VERSION_OF \x7bfrom: $_version, " ++
        "to: coalesce(_prev.to, _next_from)\x7d]-(p)\n" ++
      "SET _prev.to = $_version\n" ++
      "WITH p RETURN p"
    tl.validate = .ok () ∧
      (∃ out, (apply "Person" call s {}).result = .ok out ∧ out.query = query) ∧
      (tl.insert noon).1.edges =
        [⟨"1970-01-01T06:00:00.000Z", some "1970-01-01T12:00:00.000Z"⟩,
          ⟨"1970-01-01T12:00:00.000Z", some "1970-01-01T18:00:00.000Z"⟩,
          ⟨"1970-01-01T18:00:00.000Z", none⟩] ∧
      (lineStore known "1970-01-01T12:00:00.000Z" query { edges := [
          ⟨"1970-01-01T18:00:00.000Z", none⟩,
          ⟨"1970-01-01T06:00:00.000Z", some "1970-01-01T18:00:00.000Z"⟩] }).edges ~
        (tl.insert noon).1.edges := by
  intro call s noon tl known query
  let front := "CREATE (p:Person) WITH p SET p.name = $name ".toList
  let widened := "CREATE (p:Person) WITH p, _r, _prev, _next_from SET p.name = $name"
  have hok : (apply "Person" call s {}).result.isOk := by decide +kernel
  obtain ⟨out, hout⟩ : ∃ out, (apply "Person" call s {}).result = .ok out := by
    cases hr : (apply "Person" call s {}).result with
    | error e =>
      rw [hr] at hok
      cases hok
    | ok out => exact ⟨out, rfl⟩
  have hf : (terminal call.resultKey).toList <:+: s.query.toList := by decide +kernel
  have hv : tl.validate = .ok () := by decide
  have ht : noon.IsStored := ⟨by decide, by decide⟩
  have hw : ∀ w ∈ tl.windows, w.IsStored := by
    have hdusk : (Instant.startOf 64800).IsStored := ⟨by decide, by decide⟩
    simp only [tl, List.forall_mem_cons]
    exact ⟨⟨⟨by decide, by decide⟩, by simp [hdusk]⟩, ⟨hdusk, by simp⟩, by simp⟩
  have hes : [⟨"1970-01-01T18:00:00.000Z", none⟩,
      ⟨"1970-01-01T06:00:00.000Z", some "1970-01-01T18:00:00.000Z"⟩] ~ tl.edges := by
    decide +kernel
  have hafter : (tl.insert noon).1.edges =
      [⟨"1970-01-01T06:00:00.000Z", some "1970-01-01T12:00:00.000Z"⟩,
        ⟨"1970-01-01T12:00:00.000Z", some "1970-01-01T18:00:00.000Z"⟩,
        ⟨"1970-01-01T18:00:00.000Z", none⟩] := by decide +kernel
  obtain ⟨construction, widened', rest, hlast, hcarry, hparts, -, hrun⟩ :=
    apply_maintains_windows hout hf hv hw ht hes
  have hsplit : Text.splitLast? (terminal call.resultKey).toList s.query.toList =
      some (front, [' ', 'p']) := by decide +kernel
  obtain ⟨rfl, rfl⟩ := hlast.unique (Text.lastAt_of_splitLast? hsplit)
  have hwidened : Scope.carry? carried call.resultKey.toList (Text.trimEnd front) =
      some widened.toList := by decide +kernel
  obtain rfl : widened.toList = widened' := Option.some.inj (hwidened.symm.trans hcarry)
  have hback : String.ofList ((terminal call.resultKey).toList ++ [' ', 'p']) =
      "WITH p RETURN p" := by decide +kernel
  have hquery : out.query = query := by
    rw [hparts, hback, String.ofList_toList]
    decide +kernel
  have hstore : (lineStore known "1970-01-01T12:00:00.000Z").Acts {} "Person" "p" widened
      "WITH p RETURN p" "1970-01-01T12:00:00.000Z" fun _ => 0 :=
    lineStore_acts rfl (by decide +kernel) (by decide +kernel) (by decide +kernel)
      (by decide +kernel) (by decide +kernel)
  have hnoon : noon.toText = "1970-01-01T12:00:00.000Z" := by decide +kernel
  rw [hback, String.ofList_toList, hnoon] at hrun
  refine ⟨hv, ⟨out, hout, hquery⟩, hafter, ?_⟩
  rw [← hquery]
  exact (hrun _ _ hstore).2

end Plan.Create

end TemporalGraph
