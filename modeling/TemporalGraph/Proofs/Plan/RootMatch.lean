import TemporalGraph.Plan.Read
import TemporalGraph.Proofs.Regex.Quoted
/-!
The root match of a read. Main statement: the two edits of a read, each by its own pattern, are one
replacement of the first root match, whatever the names are.
-/

namespace TemporalGraph.Plan.Read

open Text (FirstAt)

def node (key typeName : String) : String := s!"({key}:{typeName})"

def path (c : Config) (key typeName : String) : String :=
  let resource := c.labels.resourceLabels typeName
  let edge := c.labels.versionEdge
  let inst := c.labels.instanceLabels typeName
  s!"(_r:{resource})<-[_v:{edge}]-({key}:{inst})"

variable {key typeName : String} {c : Config}

/- The texts of a read, in pieces. -/

theorem node_text : node key typeName = "(" ++ key ++ ":" ++ typeName ++ ")" := rfl

theorem anchor_eq :
    anchor key typeName = "MATCH ".toList ++ (node key typeName).toList ++ " WHERE".toList := by
  have htext : anchor key typeName = ("MATCH (" ++ key ++ ":" ++ typeName ++ ") WHERE").toList :=
    rfl
  simp [htext, node_text]

theorem traversal_text : traversal c key typeName =
    "MATCH (_r:" ++ c.labels.resourceLabels typeName ++ ")<-[_v:" ++ c.labels.versionEdge ++
      "]-(" ++ key ++ ":" ++ c.labels.instanceLabels typeName ++ ") WHERE" := rfl

theorem traversal_eq : (traversal c key typeName).toList =
    "MATCH ".toList ++ (path c key typeName).toList ++ " WHERE".toList := by
  have hpath : path c key typeName = "(_r:" ++ c.labels.resourceLabels typeName ++
    ")<-[_v:" ++ c.labels.versionEdge ++ "]-(" ++ key ++ ":" ++ c.labels.instanceLabels typeName ++
    ")" := rfl
  simp [traversal_text, hpath]

theorem quoted_node : Regex.quoted (node key typeName).toList =
    "\\(".toList ++ Regex.quoted key.toList ++ [':'] ++ Regex.quoted typeName.toList ++
      "\\)".toList := by
  have hopening : Regex.quoted "(".toList = "\\(".toList := by decide +kernel
  have hclosing : Regex.quoted ")".toList = "\\)".toList := by decide +kernel
  have hcolon : Regex.quoted ":".toList = [':'] := by decide +kernel
  simp only [node_text, String.toList_append, Regex.quoted_append, hopening, hclosing, hcolon]

theorem quoted_match : Regex.quoted "MATCH ".toList = "MATCH ".toList := by decide +kernel

theorem quoted_where : Regex.quoted " WHERE".toList = " WHERE".toList := by decide +kernel

theorem filterPattern_eq : filterPattern key typeName =
    String.ofList (Regex.markedPattern (anchor key typeName) [' '] []) := by
  have htext : filterPattern key typeName =
    "MATCH \\(" ++ Regex.quote key ++ ":" ++ Regex.quote typeName ++ "\\) WHERE( )" := rfl
  have hblank : Regex.quoted [' '] = [' '] := by decide +kernel
  have hempty : Regex.quoted [] = [] := rfl
  rw [← String.toList_inj, String.toList_ofList, Regex.markedPattern, anchor_eq,
    Regex.quoted_append, Regex.quoted_append, quoted_match, quoted_node, quoted_where, hblank,
    hempty]
  simp [htext, Regex.toList_quote]

theorem matchPattern_eq : matchPattern key typeName =
    String.ofList (Regex.markedPattern "MATCH ".toList (node key typeName).toList
      " WHERE".toList) := by
  have htext : matchPattern key typeName =
    "MATCH (\\(" ++ Regex.quote key ++ ":" ++ Regex.quote typeName ++ "\\)) WHERE" := rfl
  rw [← String.toList_inj, String.toList_ofList, Regex.markedPattern, quoted_match, quoted_node,
    quoted_where]
  simp [htext, Regex.toList_quote]

/-- The edits of a read by its patterns: in the first match of each one its group is replaced. -/
def byPatterns (c : Config) (key typeName : String) (query : List Char) :
    Except Error (Option (List Char)) := do
  let filter ← Regex.Expr.ofText (filterPattern key typeName)
  let root ← Regex.Expr.ofText (matchPattern key typeName)
  return (filter.tryReplaceGroup query 1 1 (windowFilter c).toList).bind fun query =>
    root.tryReplaceGroup query 1 1 (path c key typeName).toList

/-- Unless the names are too long for a pattern, the patterns find the root match as a literal. -/
theorem byPatterns_eq (query : List Char)
    (hw : Text.byteLength (anchor key typeName ++ [' ']) + 4 ≤ Regex.Expr.weightLimit) :
    byPatterns c key typeName query =
      .ok ((Text.splitFirst? (anchor key typeName ++ [' ']) query).bind fun p =>
        (Text.splitFirst? (anchor key typeName)
          (p.1 ++ anchor key typeName ++ (windowFilter c).toList ++ p.2)).map fun p =>
            p.1 ++ (traversal c key typeName).toList ++ p.2) := by
  have hw' : Text.byteLength (anchor key typeName) + 4 ≤ Regex.Expr.weightLimit := by
    rw [Text.byteLength_append] at hw
    omega
  obtain ⟨filter, hfilter, hreplace⟩ :=
    Regex.Expr.ofText_markedPattern (a := anchor key typeName) (b := [' ']) (c := [])
      (by rwa [List.append_nil])
  obtain ⟨root, hroot, hreplace'⟩ :=
    Regex.Expr.ofText_markedPattern (a := "MATCH ".toList) (b := (node key typeName).toList)
      (c := " WHERE".toList) (by rwa [← anchor_eq])
  rw [← filterPattern_eq] at hfilter
  rw [← matchPattern_eq] at hroot
  rw [byPatterns, hfilter, hroot]
  simp only [bind, Except.bind, pure, Except.pure, hreplace, hreplace', List.append_nil,
    ← anchor_eq, traversal_eq, Option.bind_map, Function.comp_def]
  simp only [List.append_assoc]

def versionedRoot (c : Config) (key typeName : String) : String :=
  let resource := c.labels.resourceLabels typeName
  let edge := c.labels.versionEdge
  let inst := c.labels.instanceLabels typeName
  let version := c.versionParam
  s!"MATCH (_r:{resource})<-[_v:{edge}]-({key}:{inst}) WHERE " ++
    s!"(_v.from <= ${version} AND coalesce(${version} < _v.to, true)) AND "

theorem versionedRoot_eq : (versionedRoot c key typeName).toList =
    (traversal c key typeName).toList ++ (windowFilter c).toList := by
  have htext : versionedRoot c key typeName = "MATCH (_r:" ++ c.labels.resourceLabels typeName ++
    ")<-[_v:" ++ c.labels.versionEdge ++ "]-(" ++ key ++ ":" ++ c.labels.instanceLabels typeName ++
    ") WHERE " ++ ("(_v.from <= $" ++ c.versionParam ++ " AND coalesce($" ++ c.versionParam ++
    " < _v.to, true)) AND ") := rfl
  have hfilter : windowFilter c = " (_v.from <= $" ++ c.versionParam ++ " AND coalesce($" ++
    c.versionParam ++ " < _v.to, true)) AND " := rfl
  simp [htext, traversal_text, hfilter]

variable {call : Call} {s : Statement} {before after : List Char}

theorem splitFirst?_anchor {query : List Char}
    (h : FirstAt (anchor key typeName) query before (' ' :: after)) (filter : List Char) :
    Text.splitFirst? (anchor key typeName ++ [' ']) query = some (before, after) ∧
      Text.splitFirst? (anchor key typeName) (before ++ anchor key typeName ++ filter ++ after) =
        some (before, filter ++ after) := by
  constructor
  · refine Text.splitFirst?_of_firstAt ⟨?_, fun front back he => ?_⟩
    · rw [h.text_eq, ← List.append_assoc, List.append_assoc _ [' ']]
      rfl
    · refine h.first front (' ' :: back) ?_
      rw [he]
      simp
  · rw [List.append_assoc (before ++ anchor key typeName)]
    exact Text.splitFirst?_of_firstAt (h.replaceAfter _)

/-- If a blank follows upon every root match, the first one with its blank becomes the root match at
the version, and nothing else changes. The name of the result may be the field or given by the
caller, and the patterns of the names come to the same. -/
theorem apply_replaces_first
    (hroot : anchor call.resultKey typeName <:+: s.query.toList)
    (hblank : ∀ front back, s.query.toList = front ++ anchor call.resultKey typeName ++ back →
      back.head? = some ' ') :
    let key := call.resultKey
    let made := (versionedRoot c key typeName).toList
    ∃ before after, FirstAt (anchor key typeName) s.query.toList before (' ' :: after) ∧
      (∀ call' : Call, call'.resultKey = key → apply typeName call' s c = pure { s with
        query := String.ofList (before ++ made ++ after) }) ∧
      (Text.byteLength (anchor key typeName ++ [' ']) + 4 ≤ Regex.Expr.weightLimit →
        byPatterns c key typeName s.query.toList = .ok (some (before ++ made ++ after))) := by
  intro key made
  obtain ⟨before, behind, hfirst⟩ := Text.exists_firstAt hroot
  obtain ⟨after, rfl⟩ : ∃ after, behind = ' ' :: after := by
    have hhead := hblank before behind hfirst.text_eq
    cases behind with
    | nil => cases hhead
    | cons ch after =>
      obtain rfl := Option.some.inj hhead
      exact ⟨after, rfl⟩
  have hmade : made = (traversal c key typeName).toList ++ (windowFilter c).toList :=
    versionedRoot_eq
  obtain ⟨hfilter, hmatch⟩ := splitFirst?_anchor hfirst (windowFilter c).toList
  refine ⟨before, after, hfirst, fun call' hkey => ?_, fun hw => ?_⟩
  · simp only [apply, hkey, key, hfilter, hmatch, hmade]
    simp only [List.append_assoc]
  · rw [byPatterns_eq _ hw, hfilter, Option.bind_some, hmatch, hmade]
    simp only [Option.map_some, List.append_assoc]

/-- A name that looks like an expression stands for its text only: `p+` is not `pp`. -/
theorem apply_replaces_first_plus :
    let call : Call := ⟨"people", some "p+", .empty⟩
    let before := "MATCH (pp:Person) WHERE pp.age > 3 "
    let after := "p+.age > 3 RETURN p+"
    let query := before ++ "MATCH (p+:Person) WHERE " ++ after
    let made := before ++
      "MATCH (_r:Person_R:RESOURCE)<-[_v:VERSION_OF]-(p+:Person:INSTANCE) WHERE " ++
      "(_v.from <= $_version AND coalesce($_version < _v.to, true)) AND " ++ after
    apply "Person" call ⟨query, .empty⟩ {} = pure ⟨made, .empty⟩ ∧
      byPatterns {} "p+" "Person" query.toList = .ok (some made.toList) := by
  intro call before after query made
  have hroot : anchor "p+" "Person" <:+: query.toList := by decide +kernel
  have hblank : ∀ rest ∈ query.toList.tails, anchor "p+" "Person" <+: rest →
      (rest.drop (anchor "p+" "Person").length).head? = some ' ' := by decide +kernel
  obtain ⟨before', after', hfirst, happly, hpatterns⟩ :=
    @apply_replaces_first "Person" {} call ⟨query, .empty⟩ hroot fun front back he => by
      have hhead := hblank (anchor "p+" "Person" ++ back)
        ((List.mem_tails _ _).2 ⟨front, by rw [← List.append_assoc]; exact he.symm⟩) ⟨back, rfl⟩
      rwa [List.drop_left] at hhead
  have hsplit : Text.splitFirst? (anchor "p+" "Person" ++ [' ']) query.toList =
      some (before.toList, after.toList) := by decide +kernel
  obtain ⟨rfl, rfl⟩ := Prod.mk.inj
    (Option.some.inj ((splitFirst?_anchor hfirst []).1.symm.trans hsplit))
  have hmade : before.toList ++ (versionedRoot {} call.resultKey "Person").toList ++
      after.toList = made.toList := by
    simp only [versionedRoot_eq, traversal_text, String.toList_append, made]
    decide +kernel
  rw [hmade] at happly hpatterns
  rw [String.ofList_toList] at happly
  exact ⟨happly call rfl, hpatterns (by decide +kernel)⟩

end TemporalGraph.Plan.Read
