import TemporalGraph.Proofs.Plan.Association
import TemporalGraph.Proofs.Text.Bytes
/-!
An association in any statement. Main statement: if no node has the labels of the resource yet, the
first match with the target label is redirected, and nothing else changes.
-/

namespace TemporalGraph.Plan

namespace NodeClause

/-- The text is cut around a node match with the label, and none starts further left. -/
structure FirstAt (n : NodeClause) (label text before after : List Char) : Prop where
  wellFormed : n.WellFormed
  text_eq : text = before ++ n.render label ++ after
  first : ∀ (m : NodeClause) (front back : List Char), m.WellFormed →
    text = front ++ m.render label ++ back → before.length ≤ front.length

variable {n : NodeClause} {label label' text before after : List Char}

theorem findFirst?_read?_eq_some_iff :
    Text.findFirst? (read? label) text = some ⟨before, n, after⟩ ↔
      n.FirstAt label text before after := by
  constructor
  · intro h
    obtain ⟨hn, he⟩ := findFirst?_read?_eq_some h
    refine ⟨hn, he, fun m front back hm hf => ?_⟩
    refine Text.findFirst?_first h (hf.trans (List.append_assoc _ _ _)) ?_
    rw [read?_render hm]
    exact Option.some_ne_none _
  · intro h
    rw [h.text_eq, List.append_assoc,
      Text.findFirst?_of_first (read?_render h.wellFormed label after)]
    intro front back he hb
    obtain ⟨⟨m, rest⟩, hr⟩ := Option.ne_none_iff_exists'.1 hb
    obtain ⟨hm, rfl⟩ := read?_eq_some hr
    exact h.first m front rest hm (by rw [h.text_eq, List.append_assoc, he, List.append_assoc])

theorem FirstAt.unique {n' : NodeClause} {before' after' : List Char}
    (h : n.FirstAt label text before after) (h' : n'.FirstAt label text before' after') :
    n = n' ∧ before = before' ∧ after = after' := by
  have he := findFirst?_read?_eq_some_iff.2 h'
  rw [findFirst?_read?_eq_some_iff.2 h] at he
  cases he
  exact ⟨rfl, rfl, rfl⟩

theorem exists_firstAt (h : ∃ n : NodeClause, n.WellFormed ∧ n.render label <:+: text) :
    ∃ (n : NodeClause) (before after : List Char), n.FirstAt label text before after := by
  obtain ⟨⟨before, n, after⟩, hf⟩ := Option.ne_none_iff_exists'.1 fun hn =>
    findFirst?_read?_eq_none_iff.1 hn h
  exact ⟨n, before, after, findFirst?_read?_eq_some_iff.1 hf⟩

theorem opening_infix {xs ys : List Char} (hx : ' ' ∉ xs)
    (h : "MATCH (".toList <:+: xs ++ ' ' :: ys) :
    "MATCH".toList <:+ xs ∧ ['('] <+: ys ∨ "MATCH (".toList <:+: ys := by
  obtain ⟨front, back, he⟩ := h
  have he : (front ++ "MATCH".toList) ++ ' ' :: ('(' :: back) = xs ++ ' ' :: ys := by
    rw [← he]
    simp
  rcases List.append_eq_append_iff.1 he with ⟨more, hxs, hys⟩ | ⟨more, hfront, hys⟩
  · cases more with
    | nil =>
      obtain rfl : ys = '(' :: back := (List.cons.inj hys).2.symm
      exact .inl ⟨⟨front, by rw [hxs, List.append_nil]⟩, ⟨back, rfl⟩⟩
    | cons c more =>
      obtain ⟨rfl, -⟩ := List.cons.inj hys
      exact absurd (hxs ▸ List.mem_append_right _ List.mem_cons_self) hx
  · cases more with
    | nil =>
      obtain rfl : ys = '(' :: back := (List.cons.inj hys).2
      exact .inl ⟨⟨front, by rw [hfront, List.append_nil]⟩, ⟨back, rfl⟩⟩
    | cons c more =>
      obtain ⟨rfl, rfl⟩ := List.cons.inj hys
      have hmore : ' ' :: more <:+ front ++ "MATCH".toList := ⟨xs, hfront.symm⟩
      rcases List.suffix_or_suffix_of_suffix hmore (List.suffix_append front _) with hs | hs
      · exact absurd (hs.mem List.mem_cons_self) (by decide)
      · rcases List.suffix_cons_iff.1 hs with hs | ⟨start, rfl⟩
        · cases hs
        · exact .inr ⟨start, back, by simp⟩

theorem render_blanks (n : NodeClause) (label : List Char) :
    n.render label = 'M' :: ("ATCH".toList ++ ' ' :: (('(' :: n.node ++ ':' :: label) ++ ' ' ::
      (['\x7b'] ++ ' ' :: ((n.property ++ [':']) ++ ' ' :: (('$' :: n.parameter) ++ ' ' ::
        "\x7d)".toList))))) := by
  unfold render
  simp only [String.reduceToList, List.cons_append, List.nil_append, List.append_assoc]

theorem not_opening_infix_tail (h : n.WellFormed) (hl : ' ' ∉ label) :
    ¬"MATCH (".toList <:+: (n.render label).tail := by
  have hnode : ' ' ∉ '(' :: n.node ++ ':' :: label := by
    have hn : ' ' ∉ n.node := fun hc => h.node.2 _ hc (by simp)
    simp [hn, hl]
  have hproperty : ' ' ∉ n.property ++ [':'] := by
    have hp : ' ' ∉ n.property := fun hc => h.property.2 _ hc (by simp)
    simp [hp]
  have hparameter : ' ' ∉ '$' :: n.parameter := by
    have hp : ' ' ∉ n.parameter := fun hc => h.parameter.2 _ hc (by simp)
    simp [hp]
  rw [render_blanks, List.tail_cons]
  intro hi
  -- None of the five blanks stands between the word and a bracket.
  rcases opening_infix (by decide) hi with ⟨hs, -⟩ | hi
  · exact absurd hs (by decide)
  rcases opening_infix hnode hi with ⟨-, hp⟩ | hi
  · exact absurd hp (by simp)
  rcases opening_infix (by decide) hi with ⟨hs, -⟩ | hi
  · exact absurd hs (by decide)
  rcases opening_infix hproperty hi with ⟨-, hp⟩ | hi
  · exact absurd hp (by simp)
  rcases opening_infix hparameter hi with ⟨-, hp⟩ | hi
  · exact absurd hp (by simp)
  · exact absurd hi (by decide)

/-- Where no node match has a label, the first one with another label is also the first one with
this label, once it has it. -/
theorem FirstAt.relabel (h : n.FirstAt label text before after) (hl : ' ' ∉ label')
    (hnone : ¬∃ m : NodeClause, m.WellFormed ∧ m.render label' <:+: text) :
    n.FirstAt label' (before ++ n.render label' ++ after) before after := by
  refine ⟨h.wellFormed, rfl, fun m front back hm he => ?_⟩
  by_contra hlt
  have hlt : front.length < before.length := Nat.lt_of_not_le hlt
  rw [List.append_assoc, List.append_assoc] at he
  obtain ⟨more, rfl⟩ : front <+: before :=
    List.prefix_of_prefix_length_le ⟨_, he.symm⟩ ⟨_, rfl⟩ (Nat.le_of_lt hlt)
  rw [List.append_assoc, List.append_cancel_left_eq] at he
  have he : (more ++ "MATCH (".toList) ++ (n.body label' ++ after) = m.render label' ++ back := by
    rw [← he, render_eq]
    simp only [List.append_assoc]
  -- Up to the opening of the first match nothing has changed.
  rcases List.prefix_or_prefix_of_prefix ⟨back, he.symm⟩ ⟨_, rfl⟩ with hp | hp
  · refine hnone ⟨m, hm, hp.isInfix.trans ⟨front, n.body label ++ after, ?_⟩⟩
    rw [h.text_eq, render_eq]
    simp only [List.append_assoc]
  · cases more with
    | nil => simp at hlt
    | cons c more =>
      obtain ⟨rest, hrest⟩ := hp
      refine not_opening_infix_tail hm hl ⟨more, rest, ?_⟩
      rw [← hrest]
      rfl

end NodeClause

namespace Attach

variable {names : List String} {name : String} {params params' : Params}

theorem least?_eq_none_iff : least? names = none ↔ names = [] := by
  cases names with
  | nil => simp [least?]
  | cons a names =>
    cases h : least? names with
    | none => simp [least?, h]
    | some b => simp [least?, h]

theorem least?_mem_le (h : least? names = some name) : name ∈ names ∧ ∀ a ∈ names, name ≤ a := by
  induction names generalizing name with
  | nil => cases h
  | cons a names ih =>
    cases hb : least? names with
    | none =>
      obtain rfl := least?_eq_none_iff.1 hb
      obtain rfl : a = name := Option.some.inj h
      simp
    | some b =>
      obtain ⟨hmem, hle⟩ := ih hb
      simp only [least?, hb, Option.some.injEq] at h
      rw [List.forall_mem_cons]
      split at h
      · next hlt =>
        subst h
        exact ⟨List.mem_cons_of_mem a hmem, le_of_lt hlt, hle⟩
      · next hlt =>
        subst h
        exact ⟨List.mem_cons_self, le_refl a, fun c hc => (not_lt.1 hlt).trans (hle c hc)⟩

theorem least?_eq_some_iff : least? names = some name ↔ name ∈ names ∧ ∀ a ∈ names, name ≤ a := by
  refine ⟨least?_mem_le, fun ⟨hmem, hle⟩ => ?_⟩
  cases h : least? names with
  | none => exact absurd hmem (least?_eq_none_iff.1 h ▸ List.not_mem_nil)
  | some a =>
    obtain ⟨hmem', hle'⟩ := least?_mem_le h
    rw [le_antisymm (hle' name hmem) (hle a hmem')]

def NamesTarget (name : String) : Prop := ['t', 'o'] <+: name.toList

instance (name : String) : Decidable (NamesTarget name) :=
  inferInstanceAs (Decidable (_ <+: _))

theorem mem_batchParams_iff :
    name ∈ params.keys.filter (fun key => (Text.afterLiteral? ['t', 'o'] key.toList).isSome) ↔
      name ∈ params.keys ∧ NamesTarget name := by
  rw [List.mem_filter, ← Option.ne_none_iff_isSome, ne_eq, Text.afterLiteral?_eq_none_iff,
    not_not, NamesTarget]

theorem batchParam?_eq_none_iff :
    batchParam? params = none ↔ ∀ name ∈ params.keys, ¬NamesTarget name := by
  rw [batchParam?, least?_eq_none_iff, List.eq_nil_iff_forall_not_mem]
  simp only [mem_batchParams_iff, not_and]

theorem batchParam?_eq_some_iff :
    batchParam? params = some name ↔ (name ∈ params.keys ∧ NamesTarget name) ∧
      ∀ a ∈ params.keys, NamesTarget a → ¬Text.bytes a < Text.bytes name := by
  rw [batchParam?, least?_eq_some_iff]
  simp only [mem_batchParams_iff, and_imp, Text.bytes_lt_iff, not_lt]

theorem batchParam?_of_perm (h : params'.keys.Perm params.keys) :
    batchParam? params' = batchParam? params := by
  rw [Option.ext_iff]
  intro name
  simp only [batchParam?_eq_some_iff, h.mem_iff]

variable {typeName : String} {call : Call} {s : Statement} {c : Config}

theorem apply_first {n : NodeClause} {before after : List Char}
    (h : n.FirstAt typeName.toList s.query.toList before after)
    (hl : ' ' ∉ (c.labels.resourceLabels typeName).toList)
    (hnone : ¬∃ m : NodeClause, m.WellFormed ∧
      m.render (c.labels.resourceLabels typeName).toList <:+: s.query.toList) :
    apply typeName call s c = pure { s with
      query := String.ofList (before ++ n.redirect (c.labels.resourceLabels typeName).toList
        (batchParam? s.params) ++ after) } :=
  apply_of_found (NodeClause.findFirst?_read?_eq_some_iff.2 h)
    (NodeClause.findFirst?_read?_eq_some_iff.2 (h.relabel hl hnone))

end Attach

end TemporalGraph.Plan
