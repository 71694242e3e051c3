import TemporalGraph.Plan.Attach
import TemporalGraph.Proofs.Text.Search
/-!
Node matches as text. Main statement: reading accepts exactly the texts that a node match with the
label is rendered to, with anything behind it.
-/

namespace TemporalGraph.Plan.NodeClause

def IsRun (excluded word : List Char) : Prop := word ≠ [] ∧ ∀ c ∈ word, c ∉ excluded

structure WellFormed (n : NodeClause) : Prop where
  node : IsRun [' ', ':', ')'] n.node
  property : IsRun [' ', ':', ')', '\x7d'] n.property
  parameter : IsRun [' ', '\x7d', ')'] n.parameter

theorem run?_append {excluded word : List Char} (h : IsRun excluded word) (rest : List Char)
    (hr : ∀ c ∈ rest.head?, c ∈ excluded) : run? excluded (word ++ rest) = some (word, rest) := by
  have hword : ∀ c ∈ word, !excluded.contains c := by simpa using h.2
  have hrest : rest.takeWhile (fun c => !excluded.contains c) = [] ∧
      rest.dropWhile (fun c => !excluded.contains c) = rest := by
    cases rest with
    | nil => simp
    | cons c rest => simp [hr c rfl]
  simp only [run?, List.takeWhile_append_of_pos hword, List.dropWhile_append_of_pos hword, hrest,
    List.append_nil]
  simp [h.1]

theorem run?_eq_some {excluded cs word rest : List Char}
    (h : run? excluded cs = some (word, rest)) : IsRun excluded word ∧ cs = word ++ rest := by
  simp only [run?] at h
  split at h
  · cases h
  · next hne =>
    obtain ⟨rfl, rfl⟩ := Prod.mk.inj (Option.some.inj h)
    refine ⟨⟨by simpa using hne, fun c hc => ?_⟩, (List.takeWhile_append_dropWhile).symm⟩
    simpa using List.all_eq_true.1 List.all_takeWhile c hc

theorem read?_render {n : NodeClause} (h : n.WellFormed) (label rest : List Char) :
    read? label (n.render label ++ rest) = some (n, rest) := by
  have hnode := run?_append h.node ((':' :: label ++ " \x7b ".toList) ++ (n.property ++
    (": $".toList ++ (n.parameter ++ (" \x7d)".toList ++ rest))))) (by simp)
  have hproperty := run?_append h.property (": $".toList ++ (n.parameter ++
    (" \x7d)".toList ++ rest))) (by simp)
  have hparameter := run?_append h.parameter (" \x7d)".toList ++ rest) (by simp)
  have he : n.render label ++ rest = "MATCH (".toList ++ (n.node ++
      ((':' :: label ++ " \x7b ".toList) ++ (n.property ++ (": $".toList ++ (n.parameter ++
        (" \x7d)".toList ++ rest)))))) := by
    unfold render
    simp only [List.append_assoc]
  unfold read?
  simp only [he, Option.bind_eq_bind, Option.bind_some, Text.afterLiteral?_append, hnode,
    hproperty, hparameter]
  rfl

theorem read?_eq_some {n : NodeClause} {label cs rest : List Char}
    (h : read? label cs = some (n, rest)) : n.WellFormed ∧ cs = n.render label ++ rest := by
  unfold read? at h
  simp only [Option.bind_eq_bind, Option.bind_eq_some_iff] at h
  obtain ⟨cs₁, h₁, ⟨node, cs₂⟩, hnode, cs₃, h₃, ⟨property, cs₄⟩, hproperty, cs₅, h₅,
    ⟨parameter, cs₆⟩, hparameter, cs₇, h₇, he⟩ := h
  obtain ⟨rfl, rfl⟩ := Prod.mk.inj (Option.some.inj he)
  rw [Text.afterLiteral?_eq_some_iff] at h₁ h₃ h₅ h₇
  obtain ⟨hn, rfl⟩ := run?_eq_some hnode
  obtain ⟨hp, rfl⟩ := run?_eq_some hproperty
  obtain ⟨hq, rfl⟩ := run?_eq_some hparameter
  refine ⟨⟨hn, hp, hq⟩, ?_⟩
  dsimp only at h₃ h₅ h₇
  subst h₁ h₃ h₅ h₇
  unfold render
  simp only [List.append_assoc]

theorem findFirst?_read?_eq_none_iff {label text : List Char} :
    Text.findFirst? (read? label) text = none ↔
      ¬∃ n : NodeClause, n.WellFormed ∧ n.render label <:+: text := by
  rw [Text.findFirst?_eq_none_iff]
  constructor
  · rintro h ⟨n, hn, before, after, rfl⟩
    have hnone := h (n.render label ++ after) ⟨before, by simp⟩
    rw [read?_render hn] at hnone
    cases hnone
  · intro h rest hs
    rw [Option.eq_none_iff_forall_ne_some]
    rintro ⟨n, after⟩ hr
    obtain ⟨hn, rfl⟩ := read?_eq_some hr
    exact h ⟨n, hn, List.IsInfix.trans (List.prefix_append _ after).isInfix hs.isInfix⟩

theorem findFirst?_read?_eq_some {label text : List Char} {f : Text.Found NodeClause}
    (h : Text.findFirst? (read? label) text = some f) :
    f.item.WellFormed ∧ text = f.before ++ f.item.render label ++ f.after := by
  obtain ⟨rest, rfl, hr⟩ := Text.findFirst?_eq_some h
  obtain ⟨hn, rfl⟩ := read?_eq_some hr
  exact ⟨hn, by rw [List.append_assoc]⟩

end TemporalGraph.Plan.NodeClause
