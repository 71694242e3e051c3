import Mathlib.Data.List.Infix
import TemporalGraph.Text.Search
/-!
What a search for a literal finds. Main statements: a search fails exactly if the literal occurs
nowhere in the text, and what it finds divides the text at the first place, or else at the last.
-/

namespace TemporalGraph.Text

variable {α : Type}

theorem findFirst?_eq_none_iff {recognise : List Char → Option (α × List Char)} {text : List Char} :
    findFirst? recognise text = none ↔ ∀ rest, rest <:+ text → recognise rest = none := by
  induction text with
  | nil => simp [findFirst?]
  | cons c cs ih =>
    simp only [findFirst?, List.suffix_cons_iff, forall_eq_or_imp]
    cases h : recognise (c :: cs) with
    | none => simp [ih]
    | some found => simp

theorem findFirst?_eq_some {recognise : List Char → Option (α × List Char)} {text : List Char}
    {f : Found α} (h : findFirst? recognise text = some f) :
    ∃ rest, text = f.before ++ rest ∧ recognise rest = some (f.item, f.after) := by
  induction text generalizing f with
  | nil =>
    obtain ⟨found, hf, rfl⟩ := Option.map_eq_some_iff.1 h
    exact ⟨[], rfl, hf⟩
  | cons c cs ih =>
    simp only [findFirst?] at h
    cases hr : recognise (c :: cs) with
    | some found =>
      rw [hr] at h
      obtain rfl := Option.some.inj h
      exact ⟨c :: cs, rfl, hr⟩
    | none =>
      rw [hr] at h
      obtain ⟨g, hg, rfl⟩ := Option.map_eq_some_iff.1 h
      obtain ⟨rest, he, hrest⟩ := ih hg
      exact ⟨rest, by simp [he], hrest⟩

theorem findFirst?_of_eq_some {recognise : List Char → Option (α × List Char)}
    {text after : List Char} {item : α} (h : recognise text = some (item, after)) :
    findFirst? recognise text = some ⟨[], item, after⟩ := by
  cases text with
  | nil => simp [findFirst?, h]
  | cons c cs => simp [findFirst?, h]

theorem findFirst?_append {recognise : List Char → Option (α × List Char)} {front text : List Char}
    (h : ∀ rest, rest <:+ front → rest ≠ [] → recognise (rest ++ text) = none) :
    findFirst? recognise (front ++ text) =
      (findFirst? recognise text).map fun f => { f with before := front ++ f.before } := by
  induction front with
  | nil => simp
  | cons c cs ih =>
    have hc : recognise (c :: (cs ++ text)) = none := h (c :: cs) List.suffix_rfl (by simp)
    have htail := ih fun rest hr => h rest (hr.trans (List.suffix_cons c cs))
    simp only [List.cons_append, findFirst?, hc, htail, Option.map_map]
    rfl

theorem findFirst?_first {recognise : List Char → Option (α × List Char)}
    {text front back : List Char} {f : Found α} (h : findFirst? recognise text = some f)
    (he : text = front ++ back) (hb : recognise back ≠ none) :
    f.before.length ≤ front.length := by
  induction text generalizing f front with
  | nil =>
    obtain ⟨found, -, rfl⟩ := Option.map_eq_some_iff.1 h
    exact Nat.zero_le _
  | cons c cs ih =>
    simp only [findFirst?] at h
    cases hr : recognise (c :: cs) with
    | some found =>
      rw [hr] at h
      obtain rfl := Option.some.inj h
      exact Nat.zero_le _
    | none =>
      rw [hr] at h
      obtain ⟨g, hg, rfl⟩ := Option.map_eq_some_iff.1 h
      cases front with
      | nil =>
        rw [List.nil_append] at he
        exact absurd (he ▸ hr) hb
      | cons d front => exact Nat.succ_le_succ (ih hg (List.cons.inj he).2)

theorem findFirst?_of_first {recognise : List Char → Option (α × List Char)}
    {before rest after : List Char} {item : α} (hr : recognise rest = some (item, after))
    (hfirst : ∀ front back, before ++ rest = front ++ back → recognise back ≠ none →
      before.length ≤ front.length) :
    findFirst? recognise (before ++ rest) = some ⟨before, item, after⟩ := by
  have hnone : ∀ back, back <:+ before → back ≠ [] → recognise (back ++ rest) = none := by
    rintro back ⟨front, rfl⟩ hne
    by_contra hb
    have hle := hfirst front (back ++ rest) (List.append_assoc _ _ _) hb
    have hpos := List.length_pos_iff.2 hne
    rw [List.length_append] at hle
    omega
  rw [findFirst?_append hnone, findFirst?_of_eq_some hr]
  simp

@[simp] theorem afterLiteral?_append (needle rest : List Char) :
    afterLiteral? needle (needle ++ rest) = some rest :=
  afterLiteral?_eq_some_iff.2 rfl

theorem afterLiteral?_append_eq_bind (front back text : List Char) :
    afterLiteral? (front ++ back) text = (afterLiteral? front text).bind (afterLiteral? back) := by
  induction front generalizing text with
  | nil => rfl
  | cons n ns ih =>
    cases text with
    | nil => rfl
    | cons c cs =>
      simp only [List.cons_append, afterLiteral?, ih]
      split <;> rfl

theorem afterLiteral?_eq_none_iff {needle text : List Char} :
    afterLiteral? needle text = none ↔ ¬needle <+: text := by
  constructor
  · rintro h ⟨rest, rfl⟩
    simp at h
  · intro h
    rw [Option.eq_none_iff_forall_ne_some]
    exact fun rest hr => h ⟨rest, (afterLiteral?_eq_some_iff.1 hr).symm⟩

theorem infix_iff_exists_suffix {needle text : List Char} :
    needle <:+: text ↔ ∃ rest, rest <:+ text ∧ needle <+: rest := by
  constructor
  · rintro ⟨before, after, rfl⟩
    exact ⟨needle ++ after, ⟨before, by simp⟩, ⟨after, rfl⟩⟩
  · rintro ⟨rest, hs, hp⟩
    exact hp.isInfix.trans hs.isInfix

theorem splitFirst?_eq_none_iff {needle text : List Char} :
    splitFirst? needle text = none ↔ ¬needle <:+: text := by
  rw [splitFirst?, Option.map_eq_none_iff, findFirst?_eq_none_iff, infix_iff_exists_suffix]
  simp only [Option.map_eq_none_iff, afterLiteral?_eq_none_iff, not_exists, not_and]

theorem exists_splitFirst? {needle text : List Char} (h : needle <:+: text) :
    ∃ before after, splitFirst? needle text = some (before, after) := by
  cases hs : splitFirst? needle text with
  | none => exact absurd h (splitFirst?_eq_none_iff.1 hs)
  | some parts => exact ⟨parts.1, parts.2, rfl⟩

theorem splitFirst?_append (needle rest : List Char) :
    splitFirst? needle (needle ++ rest) = some ([], rest) := by
  rw [splitFirst?, findFirst?_of_eq_some (by rw [afterLiteral?_append]; rfl)]
  rfl

theorem splitFirst?_eq_append {needle text before after : List Char}
    (h : splitFirst? needle text = some (before, after)) : text = before ++ needle ++ after := by
  obtain ⟨f, hf, he⟩ := Option.map_eq_some_iff.1 h
  obtain ⟨rfl, rfl⟩ := Prod.mk.inj he
  obtain ⟨rest, rfl, hr⟩ := findFirst?_eq_some hf
  obtain ⟨after, ha, he⟩ := Option.map_eq_some_iff.1 hr
  rw [← (Prod.mk.inj he).2, afterLiteral?_eq_some_iff.1 ha, List.append_assoc]

theorem splitLast?_eq_none_iff {needle text : List Char} :
    splitLast? needle text = none ↔ ¬needle <:+: text := by
  induction text with
  | nil => simp [splitLast?, afterLiteral?_eq_none_iff]
  | cons c cs ih =>
    rw [List.infix_cons_iff, not_or, ← ih, ← afterLiteral?_eq_none_iff, splitLast?]
    cases h : splitLast? needle cs with
    | some found => simp
    | none => simp

theorem exists_splitLast? {needle text : List Char} (h : needle <:+: text) :
    ∃ before after, splitLast? needle text = some (before, after) := by
  cases hs : splitLast? needle text with
  | none => exact absurd h (splitLast?_eq_none_iff.1 hs)
  | some parts => exact ⟨parts.1, parts.2, rfl⟩

/- The first and the last of all places where a literal occurs. -/

structure FirstAt (needle text before after : List Char) : Prop where
  text_eq : text = before ++ needle ++ after
  first : ∀ front back, text = front ++ needle ++ back → before.length ≤ front.length

/-- The text is cut around an occurrence of the literal, and none starts further right. -/
structure LastAt (needle text before after : List Char) : Prop where
  text_eq : text = before ++ needle ++ after
  last : ∀ front back, text = front ++ needle ++ back → front.length ≤ before.length

variable {needle text before after : List Char}

theorem firstAt_of_splitFirst? (h : splitFirst? needle text = some (before, after)) :
    FirstAt needle text before after := by
  refine ⟨splitFirst?_eq_append h, fun front back he => ?_⟩
  obtain ⟨f, hf, hparts⟩ := Option.map_eq_some_iff.1 h
  obtain ⟨rfl, rfl⟩ := Prod.mk.inj hparts
  exact findFirst?_first hf (he.trans (List.append_assoc _ _ _)) (by simp)

theorem exists_firstAt (h : needle <:+: text) :
    ∃ before after, FirstAt needle text before after := by
  obtain ⟨before, after, hs⟩ := exists_splitFirst? h
  exact ⟨before, after, firstAt_of_splitFirst? hs⟩

theorem FirstAt.replaceAfter (h : FirstAt needle text before after) (after' : List Char) :
    FirstAt needle (before ++ needle ++ after') before after' := by
  refine ⟨rfl, fun front back he => ?_⟩
  by_contra hlt
  have hlength : (front ++ needle).length ≤ (before ++ needle).length := by
    simp only [List.length_append]
    omega
  obtain ⟨more, hmore⟩ := List.prefix_of_prefix_length_le ⟨back, he.symm⟩
    (List.prefix_append (before ++ needle) after') hlength
  refine hlt (h.first front (more ++ after) ?_)
  rw [h.text_eq, ← hmore, List.append_assoc]

theorem splitFirst?_of_firstAt (h : FirstAt needle text before after) :
    splitFirst? needle text = some (before, after) := by
  have hhere : (afterLiteral? needle (needle ++ after)).map (fun rest => ((), rest)) =
      some ((), after) := by
    rw [afterLiteral?_append]
    rfl
  rw [h.text_eq, List.append_assoc, splitFirst?, findFirst?_of_first hhere]
  · rfl
  · intro front back he hb
    rw [ne_eq, Option.map_eq_none_iff, afterLiteral?_eq_none_iff, not_not] at hb
    obtain ⟨rest, rfl⟩ := hb
    exact h.first front rest (by rw [h.text_eq, List.append_assoc, he, List.append_assoc])

theorem LastAt.unique {before' after' : List Char} (h : LastAt needle text before after)
    (h' : LastAt needle text before' after') : before = before' ∧ after = after' := by
  have hlength : before.length = before'.length :=
    Nat.le_antisymm (h'.last _ _ h.text_eq) (h.last _ _ h'.text_eq)
  have he := h.text_eq.symm.trans h'.text_eq
  rw [List.append_assoc, List.append_assoc] at he
  obtain ⟨rfl, hrest⟩ := List.append_inj he hlength
  exact ⟨rfl, List.append_cancel_left hrest⟩

theorem lastAt_of_splitLast? (h : splitLast? needle text = some (before, after)) :
    LastAt needle text before after := by
  refine ⟨splitLast?_eq_append h, ?_⟩
  induction text generalizing before with
  | nil =>
    intro front back he
    simp [List.append_eq_nil_iff.1 (List.append_eq_nil_iff.1 he.symm).1]
  | cons c cs ih =>
    intro front back he
    rw [splitLast?] at h
    cases front with
    | nil => exact Nat.zero_le _
    | cons d front =>
      have hcs : cs = front ++ needle ++ back := (List.cons.inj he).2
      cases hs : splitLast? needle cs with
      | none => exact absurd ⟨front, back, hcs.symm⟩ (splitLast?_eq_none_iff.1 hs)
      | some found =>
        rw [hs] at h
        obtain ⟨rfl, rfl⟩ := Prod.mk.inj (Option.some.inj h)
        exact Nat.succ_le_succ (ih hs front back hcs)

theorem splitLast?_of_lastAt (h : LastAt needle text before after) :
    splitLast? needle text = some (before, after) := by
  obtain ⟨before', after', hs⟩ := exists_splitLast? ⟨before, after, h.text_eq.symm⟩
  obtain ⟨rfl, rfl⟩ := h.unique (lastAt_of_splitLast? hs)
  exact hs

end TemporalGraph.Text
