import TemporalGraph.Proofs.Plan.Policy
import TemporalGraph.Schema.TypeRef
/-!
Associations between two matched nodes. Main statement: the first of the two matches with the target
label is redirected. This is the target match, unless the source has the same label.
-/

namespace TemporalGraph.Plan

def IsName (cs : List Char) : Prop := Schema.isValidName (String.ofList cs)

instance (cs : List Char) : Decidable (IsName cs) := inferInstanceAs (Decidable (_ = true))

namespace IsName

variable {cs : List Char} {c : Char}

theorem of_mem (h : IsName cs) (hc : c ∈ cs) : Schema.isNameChar c := by
  simp only [IsName, Schema.isValidName, String.toList_ofList] at h
  cases cs with
  | nil => cases hc
  | cons d ds =>
    simp only [Bool.and_eq_true, List.all_eq_true] at h
    rcases List.mem_cons.1 hc with rfl | hc
    · have hstart := h.1
      simp only [Schema.isNameStart, Schema.isNameChar, Char.isAlphanum,
        Bool.or_eq_true] at hstart ⊢
      tauto
    · exact h.2 c hc

theorem not_mem (h : IsName cs) (hc : ¬Schema.isNameChar c) : c ∉ cs := fun hm => hc (h.of_mem hm)

theorem isRun (h : IsName cs) {excluded : List Char}
    (he : excluded.all fun c => !Schema.isNameChar c) : NodeClause.IsRun excluded cs := by
  have he : ∀ c ∈ excluded, ¬Schema.isNameChar c := by simpa using he
  refine ⟨?_, fun c hc hm => he c hm (h.of_mem hc)⟩
  rintro rfl
  simp [IsName, Schema.isValidName] at h

end IsName

namespace NodeClause

structure HasNames (n : NodeClause) : Prop where
  node : IsName n.node
  property : IsName n.property
  parameter : IsName n.parameter

variable {n : NodeClause} {label label' rest : List Char}

theorem HasNames.wellFormed (h : n.HasNames) : n.WellFormed :=
  ⟨h.node.isRun (by decide), h.property.isRun (by decide), h.parameter.isRun (by decide)⟩

def body (n : NodeClause) (label : List Char) : List Char :=
  n.node ++ ':' :: label ++ " \x7b ".toList ++ n.property ++ ": $".toList ++ n.parameter
    ++ " \x7d)".toList

theorem render_eq (n : NodeClause) (label : List Char) :
    n.render label = "MATCH (".toList ++ n.body label := by
  unfold render body
  simp only [List.append_assoc]

theorem not_mem_body (h : n.HasNames) (hl : IsName label) : '(' ∉ n.body label := by
  have hn := h.node.not_mem (c := '(') (by decide)
  have hp := h.property.not_mem (c := '(') (by decide)
  have hq := h.parameter.not_mem (c := '(') (by decide)
  have hl := hl.not_mem (c := '(') (by decide)
  simp only [body, List.mem_append, List.mem_cons, hn, hp, hq, hl, or_false, false_or]
  decide

theorem append_cons_inj {c : Char} {xs ys us vs : List Char} (hx : c ∉ xs) (hy : c ∉ ys)
    (h : xs ++ c :: us = ys ++ c :: vs) : xs = ys ∧ us = vs := by
  induction xs generalizing ys with
  | nil =>
    cases ys with
    | nil => exact ⟨rfl, (List.cons.inj h).2⟩
    | cons y ys =>
      obtain ⟨rfl, -⟩ := List.cons.inj h
      exact absurd List.mem_cons_self hy
  | cons x xs ih =>
    cases ys with
    | nil =>
      obtain ⟨rfl, -⟩ := List.cons.inj h
      exact absurd List.mem_cons_self hx
    | cons y ys =>
      obtain ⟨rfl, ht⟩ := List.cons.inj h
      obtain ⟨rfl, hu⟩ := ih (fun hm => hx (List.mem_cons_of_mem x hm))
        (fun hm => hy (List.mem_cons_of_mem x hm)) ht
      exact ⟨rfl, hu⟩

theorem read?_render_of_ne (h : n.WellFormed) (hl : ' ' ∉ label) (hl' : ' ' ∉ label')
    (hne : label ≠ label') (rest : List Char) : read? label (n.render label' ++ rest) = none := by
  rw [Option.eq_none_iff_forall_ne_some]
  rintro ⟨m, after⟩ hr
  obtain ⟨hm, he⟩ := read?_eq_some hr
  have hnode : ':' ∉ n.node := fun hc => h.node.2 _ hc (by simp)
  have hnode' : ':' ∉ m.node := fun hc => hm.node.2 _ hc (by simp)
  rw [render_eq, render_eq, List.append_assoc, List.append_assoc, List.append_cancel_left_eq] at he
  unfold body at he
  simp only [List.append_assoc, List.cons_append] at he
  have hlabels := (append_cons_inj hnode hnode' he).2
  exact hne (append_cons_inj hl' hl hlabels).1.symm

theorem read?_append_of_not_mem {front : List Char} (hf : '(' ∉ front) (hne : front ≠ []) :
    read? label (front ++ ("MATCH (".toList ++ rest)) = none := by
  rw [Option.eq_none_iff_forall_ne_some]
  rintro ⟨m, after⟩ hr
  obtain ⟨-, he⟩ := read?_eq_some hr
  rw [render_eq] at he
  have hfront : front ++ "MATCH ".toList = "MATCH ".toList :=
    (append_cons_inj (c := '(') (by simp [hf]) (by decide) (by simpa using he)).1
  exact hne (by simpa using hfront)

theorem read?_cons_of_ne {d : Char} (h : d ≠ 'M') (ds : List Char) :
    read? label (d :: ds) = none := by
  unfold read?
  simp [Text.afterLiteral?, h.symm]

theorem suffix_opening {front body : List Char} (h : front <:+ "MATCH (".toList ++ body) :
    front = "MATCH (".toList ++ body ∨ (∃ d ds, d ≠ 'M' ∧ front = d :: ds) ∨ front <:+ body := by
  simp only [String.reduceToList, List.cons_append, List.nil_append, List.suffix_cons_iff] at h
  rcases h with rfl | rfl | rfl | rfl | rfl | rfl | rfl | h
  case inl => exact .inl rfl
  case inr.inr.inr.inr.inr.inr.inr => exact .inr (.inr h)
  all_goals exact .inr (.inl ⟨_, _, by decide, rfl⟩)

theorem findFirst?_second {target : NodeClause} (h : n.HasNames) (hl : IsName label')
    (ht : target.WellFormed) (hr : ∀ rest, read? label (n.render label' ++ rest) = none) :
    Text.findFirst? (read? label) (n.render label' ++ [' '] ++ target.render label ++ rest) =
      some ⟨n.render label' ++ [' '], target, rest⟩ := by
  have hfront : ∀ front, front <:+ n.render label' ++ [' '] → front ≠ [] →
      read? label (front ++ (target.render label ++ rest)) = none := by
    intro front hs hne
    rw [render_eq, List.append_assoc] at hs
    rcases suffix_opening hs with rfl | ⟨d, ds, hd, rfl⟩ | hs
    · have hfull := hr ([' '] ++ (target.render label ++ rest))
      rw [render_eq n, List.append_assoc] at hfull
      simpa only [List.append_assoc] using hfull
    · exact read?_cons_of_ne hd _
    · have hbody : '(' ∉ n.body label' ++ [' '] := by
        simpa using not_mem_body h hl
      rw [render_eq target, List.append_assoc]
      exact read?_append_of_not_mem (fun hm => hbody (hs.mem hm)) hne
  have hsecond := Text.findFirst?_append hfront
  rw [Text.findFirst?_of_eq_some (read?_render ht label rest)] at hsecond
  simpa only [List.append_assoc, Option.map_some, List.append_nil] using hsecond

def redirect (n : NodeClause) (label : List Char) : Option String → List Char
  | none => n.render label
  | some batch => n.renderBatch label batch

end NodeClause

namespace Attach

variable {typeName : String} {call : Call} {s : Statement} {c : Config}

/-- The match found first is redirected if, with the labels of the resource, it is still found
first. -/
theorem apply_of_found {before after : List Char} {n : NodeClause}
    (h : Text.findFirst? (NodeClause.read? typeName.toList) s.query.toList =
      some ⟨before, n, after⟩)
    (h' : Text.findFirst? (NodeClause.read? (c.labels.resourceLabels typeName).toList)
      (before ++ n.render (c.labels.resourceLabels typeName).toList ++ after) =
        some ⟨before, n, after⟩) :
    apply typeName call s c = pure { s with
      query := String.ofList (before ++ n.redirect (c.labels.resourceLabels typeName).toList
        (batchParam? s.params) ++ after) } := by
  cases hb : batchParam? s.params with
  | none => simp only [apply, h, hb, NodeClause.redirect]
  | some batch => simp only [apply, h, h', hb, NodeClause.redirect]

theorem mem_resourceLabels {l : Labels} : ':' ∈ (l.resourceLabels typeName).toList := by
  have hcolon : ':' ∈ (toString ":").toList := by decide
  simp [Labels.resourceLabels, hcolon]

/-- Between node matches of two types the target match is redirected. Between two matches of one
type the source match is redirected, and the target match stays as it is. -/
theorem apply_redirects {sourceType : String} {source target : NodeClause} {rest : List Char}
    (hq : s.query.toList =
      source.render sourceType.toList ++ ' ' :: target.render typeName.toList ++ rest)
    (hs : source.HasNames) (ht : target.HasNames) (hst : Schema.isValidName sourceType)
    (htt : Schema.isValidName typeName) (hc : ' ' ∉ (c.labels.resourceLabels typeName).toList) :
    let labels := (c.labels.resourceLabels typeName).toList
    let batch := batchParam? s.params
    (sourceType ≠ typeName → apply typeName call s c = pure { s with
      query := String.ofList (source.render sourceType.toList ++
        ' ' :: target.redirect labels batch ++ rest) }) ∧
    (sourceType = typeName → apply typeName call s c = pure { s with
      query := String.ofList (source.redirect labels batch ++
        ' ' :: target.render typeName.toList ++ rest) }) := by
  intro labels batch
  have hst : IsName sourceType.toList := by rwa [IsName, String.ofList_toList]
  have htt : IsName typeName.toList := by rwa [IsName, String.ofList_toList]
  have hblank : ' ' ∉ sourceType.toList := hst.not_mem (by decide)
  constructor
  · intro hne
    have htype : typeName.toList ≠ sourceType.toList := fun he => hne (String.toList_inj.1 he.symm)
    have hlabels : labels ≠ sourceType.toList := fun he =>
      hst.not_mem (c := ':') (by decide) (he ▸ mem_resourceLabels)
    have hsecond {label : List Char} (hl : ' ' ∉ label) (hl' : label ≠ sourceType.toList) :
        Text.findFirst? (NodeClause.read? label)
          (source.render sourceType.toList ++ [' '] ++ target.render label ++ rest) =
            some ⟨source.render sourceType.toList ++ [' '], target, rest⟩ :=
      NodeClause.findFirst?_second hs hst ht.wellFormed
        (NodeClause.read?_render_of_ne hs.wellFormed hl hblank hl')
    have hq : s.query.toList =
        source.render sourceType.toList ++ [' '] ++ target.render typeName.toList ++ rest := by
      rw [hq, List.append_cons, List.append_assoc]
    rw [apply_of_found (by rw [hq]; exact hsecond (htt.not_mem (by decide)) htype)
      (hsecond hc hlabels)]
    simp only [List.append_assoc, List.cons_append, List.nil_append]
    rfl
  · rintro rfl
    have hfirst (label : List Char) : Text.findFirst? (NodeClause.read? label)
        ([] ++ source.render label ++ (' ' :: target.render sourceType.toList ++ rest)) =
          some ⟨[], source, ' ' :: target.render sourceType.toList ++ rest⟩ :=
      Text.findFirst?_of_eq_some (NodeClause.read?_render hs.wellFormed label _)
    rw [apply_of_found (by rw [hq, List.append_assoc]; exact hfirst _) (hfirst _)]
    simp only [List.nil_append, List.append_assoc]
    rfl

/-- Two people who know each other: the source match is redirected, and not the target match. -/
theorem apply_redirects_knows :
    let source : NodeClause := ⟨"from".toList, "id".toList, "id".toList⟩
    let target : NodeClause := ⟨"to".toList, "id".toList, "toKnows".toList⟩
    let rest := " MERGE (from)-[:knows]->(to) RETURN from".toList
    let params := (Json.Record.empty.set "id" (.string "ne")).set "toKnows" (.array [.string "m1"])
    let labels := "Person_R:RESOURCE".toList
    let query := source.render "Person".toList ++ ' ' :: target.render "Person".toList ++ rest
    let made := source.renderBatch labels "toKnows" ++ ' ' :: target.render "Person".toList ++ rest
    let meant := source.render "Person".toList ++ ' ' :: target.renderBatch labels "toKnows" ++ rest
    source.HasNames ∧ target.HasNames ∧ made ≠ meant ∧
      apply "Person" ⟨"addPersonKnows", none, .empty⟩ ⟨String.ofList query, params⟩ {} =
        pure ⟨String.ofList made, params⟩ := by
  intro source target rest params labels query made meant
  have hs : source.HasNames := ⟨by decide, by decide, by decide⟩
  have ht : target.HasNames := ⟨by decide, by decide, by decide⟩
  let s : Statement := ⟨String.ofList query, params⟩
  have hq : s.query.toList = query := String.toList_ofList
  have hne : made ≠ meant := by decide
  exact ⟨hs, ht, hne, (apply_redirects hq hs ht (by decide) (by decide) (by decide)).2 rfl⟩

end Attach

end TemporalGraph.Plan
