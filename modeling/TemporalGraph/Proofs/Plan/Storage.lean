import Mathlib.Data.List.Basic
import Mathlib.Data.String.Basic
import TemporalGraph.Plan.Create
/-!
What a store does to the version edges of one resource when it runs the text of a write. The
assumptions on the store are those of `Store.Acts`: it runs the text line by line, and every line
does what its words say. Main statements: a store that looks up every line acts so; the lines before
the construction leave one row, which names the edge that holds the version if there is one; the
lines behind it add one edge and end the named one.
-/

namespace TemporalGraph

structure VersionEdge where
  start : String
  stop : Option String
  deriving DecidableEq

/-- The condition of a write on the edge that is valid at `version`. A missing end is null. -/
def VersionEdge.encloses (version : String) (e : VersionEdge) : Bool :=
  e.start ≤ version && e.stop.all fun stop => version < stop

namespace Plan.Create

/-- The variables of one row. An edge is named by its place among the edges. -/
structure Binding where
  stale : Option Nat := none
  previous : Option Nat := none
  nextStart : Option String := none

structure Table where
  edges : List VersionEdge
  rows : List Binding := [{}]

/-- The places of the edges that match, or else null once. -/
def optionalPlaces (p : VersionEdge → Bool) (es : List VersionEdge) : List (Option Nat) :=
  let found := es.findIdxs p
  if found.isEmpty then [none] else found.map some

def leastStartAfter (version : String) (es : List VersionEdge) : Option String :=
  ((es.map VersionEdge.start).filter fun start => version < start).min?

def Table.stopOf (σ : Table) (r : Binding) : Option String :=
  ((r.previous.bind fun i => σ.edges[i]?).bind VersionEdge.stop).or r.nextStart

def closeEdge (version : String) (es : List VersionEdge) (r : Binding) : List VersionEdge :=
  match r.previous with
  | some i => es.modify i fun e => { e with stop := some version }
  | none => es

inductive Step where
  | mergeResource
  | matchStale
  | matchEmbedded
  | deleteStale
  | bindPrevious
  | bindNext
  | labelInstance
  | linkInstance
  | closePrevious
  deriving DecidableEq

/-- The effect on all rows. Texts compare character by character, which is to say bytewise
(`Text.bytes_lt_iff`), and `embedded` is the number of nodes that the stale version of a row
embeds. -/
def Step.run (version : String) (embedded : Binding → Nat) (σ : Table) : Step → Table
  | mergeResource => σ
  | matchStale =>
    let places := optionalPlaces (fun e => e.start = version) σ.edges
    { σ with rows := σ.rows.flatMap fun r => places.map fun i => { r with stale := i } }
  | matchEmbedded =>
    { σ with rows := σ.rows.flatMap fun r => List.replicate (max 1 (embedded r)) r }
  | deleteStale =>
    { edges := (σ.edges.zipIdx.filter fun e => σ.rows.all fun r => r.stale ≠ some e.2).map Prod.fst
      rows := (σ.rows.take 1).map fun _ => {} }
  | bindPrevious =>
    let places := optionalPlaces (·.encloses version) σ.edges
    { σ with rows := σ.rows.flatMap fun r => places.map fun i => { r with previous := i } }
  | bindNext =>
    -- Rows name different edges, so the aggregate is taken for each row.
    { σ with rows := σ.rows.map fun r => { r with nextStart := leastStartAfter version σ.edges } }
  | labelInstance => σ
  | linkInstance => { σ with edges := σ.edges ++ σ.rows.map fun r => ⟨version, σ.stopOf r⟩ }
  | closePrevious => { σ with edges := σ.rows.foldl (closeEdge version) σ.edges }

/- The text of a write. -/

def linesBefore (c : Config) (typeName : String) : List (String × Step) :=
  let edge := c.labels.versionEdge
  let version := c.versionParam
  let labels := s!"{typeName}{c.labels.resourceSuffix}:{c.labels.resource}"
  [(s!"MERGE (_r:{labels} \x7bid: $id\x7d) WITH _r\n", .mergeResource),
    (s!"OPTIONAL MATCH (_r)<-[:{edge} \x7bfrom: ${version}\x7d]-(_stale)\n", .matchStale),
    (s!"OPTIONAL MATCH (_stale)-[*]->(_embedded:{c.labels.embedded})\n", .matchEmbedded),
    ("DETACH DELETE _stale, _embedded WITH DISTINCT _r\n", .deleteStale),
    (s!"OPTIONAL MATCH (_r)<-[_v:{edge}]-() WHERE _v.from <= ${version} "
        ++ s!"AND coalesce(${version} < _v.to, true) WITH _r, _v AS _prev\n", .bindPrevious),
    (s!"OPTIONAL MATCH (_r)<-[_v:{edge}]-() WHERE _v.from > ${version} "
        ++ "WITH _r, _prev, min(_v.from) AS _next_from\n", .bindNext)]

def linesBehind (c : Config) (key : String) : List (String × Step) :=
  let edge := c.labels.versionEdge
  let version := c.versionParam
  [(s!"SET {key}:{c.labels.instanceLabel}\n", .labelInstance),
    (s!"CREATE (_r)<-[:{edge} \x7bfrom: ${version}, "
        ++ s!"to: coalesce(_prev.to, _next_from)\x7d]-({key})\n", .linkInstance),
    (s!"SET _prev.to = ${version}\n", .closePrevious)]

def parts (c : Config) (typeName key construction returned : String) : List String :=
  (linesBefore c typeName).map Prod.fst ++
    (construction ++ "\n") :: ((linesBehind c key).map Prod.fst ++ [returned])

abbrev Store := String → Table → Table

/-- What is assumed of a store for one statement and one version. The construction is run once for
every row, and neither it nor what is returned writes a version edge of the resource. -/
structure Store.Acts (store : Store) (c : Config) (typeName key construction returned : String)
    (version : String) (embedded : Binding → Nat) : Prop where
  inOrder : ∀ first, first <+: parts c typeName key construction returned →
    ∀ σ, store (String.join first) σ = first.foldl (fun σ text => store text σ) σ
  line : ∀ l ∈ linesBefore c typeName ++ linesBehind c key,
    ∀ σ, store l.1 σ = l.2.run version embedded σ
  construction : ∀ σ, store (construction ++ "\n") σ = σ
  returned : ∀ σ, (store returned σ).edges = σ.edges

variable {version : String} {embedded : Binding → Nat} {es : List VersionEdge} {σ : Table}

def runSteps (version : String) (embedded : Binding → Nat) (steps : List Step) (σ : Table) :
    Table :=
  steps.foldl (Step.run version embedded) σ

def opening : List Step :=
  [.mergeResource, .matchStale, .matchEmbedded, .deleteStale, .bindPrevious, .bindNext]

def closing : List Step := [.labelInstance, .linkInstance, .closePrevious]

theorem runSteps_append (steps steps' : List Step) :
    runSteps version embedded (steps ++ steps') σ =
      runSteps version embedded steps' (runSteps version embedded steps σ) := List.foldl_append

namespace Store.Acts

variable {store : Store} {c : Config} {typeName key construction returned : String}

theorem foldl_lines (h : store.Acts c typeName key construction returned version embedded)
    {ls : List (String × Step)} (hls : ls ⊆ linesBefore c typeName ++ linesBehind c key) :
    (ls.map Prod.fst).foldl (fun σ text => store text σ) σ =
      runSteps version embedded (ls.map Prod.snd) σ := by
  induction ls generalizing σ with
  | nil => rfl
  | cons l ls ih =>
    rw [List.map_cons, List.foldl_cons, h.line l (hls (by simp)),
      ih fun l' hl' => hls (List.mem_cons_of_mem l hl')]
    rfl

theorem run_before (h : store.Acts c typeName key construction returned version embedded) :
    store (String.join ((linesBefore c typeName).map Prod.fst)) σ =
      runSteps version embedded opening σ := by
  rw [h.inOrder _ (List.prefix_append _ _), h.foldl_lines (List.subset_append_left _ _)]
  rfl

theorem run_parts (h : store.Acts c typeName key construction returned version embedded) :
    (store (String.join (parts c typeName key construction returned)) σ).edges =
      (runSteps version embedded closing (runSteps version embedded opening σ)).edges := by
  rw [h.inOrder _ (List.prefix_refl _), parts, List.foldl_append, List.foldl_cons,
    List.foldl_append, List.foldl_cons, List.foldl_nil, h.returned, h.construction,
    h.foldl_lines (List.subset_append_left _ _), h.foldl_lines (List.subset_append_right _ _)]
  rfl

end Store.Acts

/- A store that reads a statement line by line. -/

def linesOf : List Char → List (List Char)
  | [] => []
  | '\n' :: text => ['\n'] :: linesOf text
  | c :: text =>
    match linesOf text with
    | [] => [[c]]
    | line :: lines => (c :: line) :: lines

theorem linesOf_eq_nil_iff {text : List Char} : linesOf text = [] ↔ text = [] := by
  cases text with
  | nil => simp [linesOf]
  | cons c text =>
    rcases eq_or_ne c '\n' with rfl | hn
    · simp [linesOf]
    · cases h : linesOf text <;> simp [linesOf, h]

theorem linesOf_append {text : List Char} (h : text.getLast? = some '\n') (rest : List Char) :
    linesOf (text ++ rest) = linesOf text ++ linesOf rest := by
  induction text with
  | nil => cases h
  | cons c text ih =>
    by_cases hc : text = []
    · obtain rfl : c = '\n' := by simpa [hc] using h
      subst hc
      rfl
    · have ih := ih (by rwa [List.getLast?_cons_of_ne_nil hc] at h)
      obtain ⟨line, lines, hlines⟩ := List.exists_cons_of_ne_nil (mt linesOf_eq_nil_iff.1 hc)
      rw [hlines] at ih
      rcases eq_or_ne c '\n' with rfl | hn
      · simp [linesOf, ih, hlines]
      · simp [linesOf, ih, hlines]

/-- The store knows the effect of some lines, and passes over the others. -/
def lineStore (known : List (String × Step)) (version : String) : Store := fun text σ =>
  (linesOf text.toList).foldl (fun σ line =>
    (known.lookup (String.ofList line)).elim σ (Step.run version (fun _ => 0) σ)) σ

theorem lineStore_join {known : List (String × Step)} {texts : List String}
    (h : ∀ text ∈ texts.dropLast, text.toList.getLast? = some '\n') (σ : Table) :
    lineStore known version (String.join texts) σ =
      texts.foldl (fun σ text => lineStore known version text σ) σ := by
  induction texts generalizing σ with
  | nil => rfl
  | cons text texts ih =>
    cases texts with
    | nil => simp
    | cons next texts =>
      have hlines := linesOf_append (h text (by simp)) (String.join (next :: texts)).toList
      rw [String.join_cons, List.foldl_cons, ← ih fun text ht => h text (by simp_all)]
      simp only [lineStore, String.toList_append, hlines, List.foldl_append]

theorem lineStore_of_line {known : List (String × Step)} {text : String}
    (h : linesOf text.toList = [text.toList]) (σ : Table) : lineStore known version text σ =
      (known.lookup text).elim σ (Step.run version (fun _ => 0) σ) := by
  simp [lineStore, h]

theorem lineStore_acts {c : Config} {typeName key construction returned : String}
    {known : List (String × Step)} (hk : linesBefore c typeName ++ linesBehind c key = known)
    (hline : ∀ text ∈ (construction ++ "\n") :: known.map Prod.fst,
      linesOf text.toList = [text.toList] ∧ text.toList.getLast? = some '\n')
    (hrest : linesOf returned.toList = [returned.toList])
    (hknown : ∀ l ∈ known, known.lookup l.1 = some l.2)
    (hconstruction : known.lookup (construction ++ "\n") = none)
    (hreturned : known.lookup returned = none) :
    (lineStore known version).Acts c typeName key construction returned version fun _ => 0 where
  inOrder first hfirst σ := by
    refine lineStore_join (fun text ht => (hline text ?_).2) σ
    obtain ⟨rest, hrest⟩ := hfirst
    have hfront : text ∈ (parts c typeName key construction returned).dropLast := by
      rw [← hrest, List.dropLast_append]
      split
      · exact ht
      · exact List.mem_append_left _ (List.dropLast_subset _ ht)
    rw [parts, List.dropLast_append_cons, ← List.cons_append, List.dropLast_concat] at hfront
    rw [← hk, List.map_append]
    simp only [List.mem_append, List.mem_cons] at hfront ⊢
    tauto
  line l hl σ := by
    have hl : l ∈ known := hk ▸ hl
    rw [lineStore_of_line (hline _ (by simp [List.mem_map_of_mem hl])).1, hknown l hl]
    rfl
  construction σ := by
    rw [lineStore_of_line (hline _ (by simp)).1, hconstruction]
    rfl
  returned σ := by
    rw [lineStore_of_line hrest, hreturned]
    rfl

/- The lines before the construction. -/

theorem mem_optionalPlaces_iff {p : VersionEdge → Bool} {i : Nat} :
    some i ∈ optionalPlaces p es ↔ i ∈ es.findIdxs p := by
  simp only [optionalPlaces]
  split
  · next h => simp [List.isEmpty_iff.1 h]
  · simp

theorem optionalPlaces_ne_nil (p : VersionEdge → Bool) (es : List VersionEdge) :
    optionalPlaces p es ≠ [] := by
  simp only [optionalPlaces]
  split
  · simp
  · next h => simpa using h

theorem optionalPlaces_of_none {p : VersionEdge → Bool} (h : ∀ e ∈ es, ¬p e) :
    optionalPlaces p es = [none] := by
  have hfound : es.findIdxs p = [] := List.findIdxs_eq_nil_iff.2 (by simpa using h)
  simp [optionalPlaces, hfound]

theorem optionalPlaces_append_cons {p : VersionEdge → Bool} {before after : List VersionEdge}
    {e : VersionEdge} (he : p e) (hn : ∀ d ∈ before ++ after, ¬p d) :
    optionalPlaces p (before ++ e :: after) = [some before.length] := by
  have hbefore : before.findIdxs p = [] :=
    List.findIdxs_eq_nil_iff.2 fun d hd => by simpa using hn d (by simp [hd])
  have hafter (n : Nat) : after.findIdxs p n = [] :=
    List.findIdxs_eq_nil_iff.2 fun d hd => by simpa using hn d (by simp [hd])
  simp [optionalPlaces, List.findIdxs_append, List.findIdxs_cons, he, hbefore, hafter]

theorem mem_rows_matchEmbedded {r : Binding} :
    r ∈ (Step.run version embedded σ .matchEmbedded).rows ↔ r ∈ σ.rows := by
  simp only [Step.run, List.mem_flatMap]
  constructor
  · rintro ⟨r', hr', hr⟩
    rwa [(List.mem_replicate.1 hr).2]
  · intro hr
    exact ⟨r, hr, List.mem_replicate.2 ⟨by omega, rfl⟩⟩

theorem run_deleteStale (version : String) (embedded : Binding → Nat) {p : VersionEdge → Bool}
    (hne : σ.rows ≠ []) (hs : ∀ i, (∃ r ∈ σ.rows, r.stale = some i) ↔ i ∈ σ.edges.findIdxs p) :
    Step.run version embedded σ .deleteStale = { edges := σ.edges.filter fun e => !p e } := by
  have hkeep : ∀ e ∈ σ.edges.zipIdx,
      (σ.rows.all fun r => decide (r.stale ≠ some e.2)) = !p e.1 := by
    rintro ⟨e, i⟩ he
    have he : σ.edges[i]? = some e := List.mem_zipIdx_iff_getElem?.1 he
    obtain ⟨hi, rfl⟩ := List.getElem?_eq_some_iff.1 he
    have hsi := (hs i).trans (List.mem_findIdxs_iff_pos_getElem hi)
    cases hp : p σ.edges[i] with
    | true =>
      obtain ⟨r, hr, hri⟩ := hsi.2 hp
      refine List.all_eq_false.2 ⟨r, hr, ?_⟩
      rw [decide_eq_true_eq]
      exact fun hne => hne hri
    | false =>
      refine List.all_eq_true.2 fun r hr => ?_
      rw [decide_eq_true_eq]
      intro hri
      simp [hsi.1 ⟨r, hr, hri⟩] at hp
  have hedges := List.filter_map (f := Prod.fst) (p := fun e => !p e) (l := σ.edges.zipIdx)
  rw [List.zipIdx_map_fst] at hedges
  have hrows : (σ.rows.take 1).map (fun _ => ({} : Binding)) = [{}] := by
    cases hr : σ.rows with
    | nil => exact absurd hr hne
    | cons r rs => rfl
  simp only [Step.run, hrows, List.filter_congr hkeep]
  exact congrArg (Table.mk · [{}]) hedges.symm

theorem run_replace (version : String) (embedded : Binding → Nat) (es : List VersionEdge) :
    runSteps version embedded [.matchStale, .matchEmbedded, .deleteStale] { edges := es } =
      { edges := es.filter fun e => e.start ≠ version } := by
  let named := Step.run version embedded { edges := es } .matchStale
  let repeated := Step.run version embedded named .matchEmbedded
  have hrows : ∀ r, r ∈ repeated.rows ↔
      ∃ i ∈ optionalPlaces (fun e => e.start = version) es, { stale := i } = r := by
    intro r
    rw [mem_rows_matchEmbedded]
    simp only [named, Step.run, List.flatMap_singleton, List.mem_map]
  have hne : repeated.rows ≠ [] := by
    obtain ⟨i, hi⟩ := List.exists_mem_of_ne_nil _
      (optionalPlaces_ne_nil (fun e => e.start = version) es)
    exact List.ne_nil_of_mem ((hrows _).2 ⟨i, hi, rfl⟩)
  have hstale : ∀ i, (∃ r ∈ repeated.rows, r.stale = some i) ↔
      i ∈ es.findIdxs fun e => e.start = version := by
    intro i
    rw [← mem_optionalPlaces_iff]
    constructor
    · rintro ⟨r, hr, hri⟩
      obtain ⟨j, hj, rfl⟩ := (hrows r).1 hr
      exact hri ▸ hj
    · intro hi
      exact ⟨_, (hrows _).2 ⟨some i, hi, rfl⟩, rfl⟩
  have hdelete := run_deleteStale version embedded hne hstale
  simp only [ne_eq, decide_not]
  exact hdelete

theorem run_opening :
    runSteps version embedded opening { edges := es } =
      let kept := es.filter fun e => e.start ≠ version
      { edges := kept
        rows := (optionalPlaces (·.encloses version) kept).map fun i =>
          ⟨none, i, leastStartAfter version kept⟩ } := by
  have hopening : opening = [.mergeResource] ++ [.matchStale, .matchEmbedded, .deleteStale] ++
      [.bindPrevious, .bindNext] := rfl
  have hmerge : runSteps version embedded [.mergeResource] { edges := es } = { edges := es } := rfl
  rw [hopening, runSteps_append, runSteps_append, hmerge, run_replace]
  simp only [runSteps, List.foldl_cons, List.foldl_nil, Step.run, List.flatMap_singleton,
    List.map_map]
  rfl

theorem run_opening_of_none {kept : List VersionEdge}
    (hkept : (es.filter fun e => e.start ≠ version) = kept) (hn : ∀ e ∈ kept, ¬e.encloses version) :
    runSteps version embedded opening { edges := es } =
      ⟨kept, [⟨none, none, leastStartAfter version kept⟩]⟩ := by
  have hplaces := optionalPlaces_of_none hn
  rw [run_opening]
  simp only [hkept, hplaces, List.map_cons, List.map_nil]

theorem run_opening_of_some {before after : List VersionEdge} {e : VersionEdge}
    (hkept : (es.filter fun e => e.start ≠ version) = before ++ e :: after)
    (he : e.encloses version) (hn : ∀ d ∈ before ++ after, ¬d.encloses version) :
    runSteps version embedded opening { edges := es } =
      ⟨before ++ e :: after, [⟨none, some before.length,
        leastStartAfter version (before ++ e :: after)⟩]⟩ := by
  have hplaces := optionalPlaces_append_cons he hn
  rw [run_opening]
  simp only [hkept, hplaces, List.map_cons, List.map_nil]

/- The lines behind the construction, for one row. -/

theorem modify_append_cons {α : Type} (f : α → α) (before after : List α) (a : α) :
    (before ++ a :: after).modify before.length f = before ++ f a :: after := by
  induction before with
  | nil => rfl
  | cons b before ih => simpa using ih

theorem run_closing_of_none (next : Option String) :
    (runSteps version embedded closing ⟨es, [⟨none, none, next⟩]⟩).edges =
      es ++ [⟨version, next⟩] := rfl

theorem run_closing_of_some {before after : List VersionEdge} {e : VersionEdge}
    (next : Option String) :
    (runSteps version embedded closing
      ⟨before ++ e :: after, [⟨none, some before.length, next⟩]⟩).edges =
      before ++ { e with stop := some version } :: after ++ [⟨version, e.stop.or next⟩] := by
  let σ : Table := ⟨before ++ e :: after, [⟨none, some before.length, next⟩]⟩
  have hstop : σ.stopOf ⟨none, some before.length, next⟩ = e.stop.or next := by
    simp [σ, Table.stopOf]
  calc (runSteps version embedded closing σ).edges
    _ = closeEdge version (σ.edges ++ [⟨version, σ.stopOf ⟨none, some before.length, next⟩⟩])
        ⟨none, some before.length, next⟩ := rfl
    _ = _ := by
      simp only [hstop, σ, closeEdge, List.append_assoc, List.cons_append, modify_append_cons]

end Plan.Create

end TemporalGraph
