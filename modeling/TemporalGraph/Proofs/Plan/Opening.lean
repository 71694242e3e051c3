import TemporalGraph.Proofs.Outcome
import TemporalGraph.Proofs.Plan.ItemList
/-!
The clauses of a text. Main statement: the clauses that a search finds are the places where a word
opens a list of items, from left to right and without overlap.
-/

namespace TemporalGraph.Plan.Scope

/- The words that open a list. -/

def Writes (word : String) (w : List Char) : Prop :=
  List.Forall₂ (fun k c => isLetter k c) word.toList w

/-- The word with all the blanks between it and `tail`, of which there is one at least. -/
structure Heads (word : String) (token tail : List Char) : Prop where
  parts : ∃ w gap, token = w ++ gap ∧ Writes word w ∧ gap ≠ [] ∧ ∀ c ∈ gap, Text.isBlank c
  tail : ∀ c ∈ tail.head?, ¬Text.isBlank c

/-- What opens the list in front of `tail`: `WITH`, and `DISTINCT` if it follows. -/
inductive Opens : List Char → List Char → Prop where
  | all {w tail : List Char} (h : Heads "with" w tail)
      (hd : ∀ d rest, tail = d ++ rest → ¬Heads "distinct" d rest) : Opens w tail
  | distinct {w d tail : List Char} (h : Heads "with" w (d ++ tail))
      (hd : Heads "distinct" d tail) : Opens (w ++ d) tail

variable {word : String} {text token opening tail rest : List Char}

theorem afterKeyword?_eq_some_iff {ks : List Char} :
    afterKeyword? ks text = some rest ↔
      ∃ w, text = w ++ rest ∧ List.Forall₂ (fun k c => isLetter k c) ks w := by
  induction ks generalizing text with
  | nil =>
    constructor
    · intro h
      exact ⟨[], Option.some.inj h, .nil⟩
    · rintro ⟨w, rfl, hw⟩
      cases hw
      rfl
  | cons k ks ih =>
    cases text with
    | nil => simp [afterKeyword?]
    | cons c cs =>
      by_cases hc : isLetter k c
      · rw [afterKeyword?, if_pos hc, ih]
        constructor
        · rintro ⟨w, rfl, hw⟩
          exact ⟨c :: w, rfl, .cons hc hw⟩
        · rintro ⟨w, he, hw⟩
          cases hw with
          | @cons _ d _ w hd hw =>
            exact ⟨w, (List.cons.inj he).2, hw⟩
      · rw [afterKeyword?, if_neg hc]
        refine iff_of_false (by simp) ?_
        rintro ⟨w, he, hw⟩
        cases hw with
        | @cons _ d _ w hd hw =>
          rw [(List.cons.inj he).1] at hc
          exact hc hd

theorem afterKeywordBlank?_eq_some_iff :
    afterKeywordBlank? word.toList text = some rest ↔
      ∃ token, text = token ++ rest ∧ Heads word token rest := by
  rw [afterKeywordBlank?]
  constructor
  · intro h
    split at h
    · next c cs hk =>
      split at h
      · next hc =>
        obtain rfl := Option.some.inj h
        obtain ⟨w, rfl, hw⟩ := afterKeyword?_eq_some_iff.1 hk
        obtain ⟨gap, he, hgap⟩ := Text.exists_trimStart cs
        refine ⟨w ++ c :: gap, ?_, ⟨w, c :: gap, rfl, hw, by simp, ?_⟩, Text.head_trimStart cs⟩
        · rw [List.append_assoc, List.cons_append, ← he]
        · exact List.forall_mem_cons.2 ⟨hc, hgap⟩
      · cases h
    · cases h
  · rintro ⟨token, rfl, ⟨w, gap, rfl, hw, hne, hgap⟩, hrest⟩
    obtain ⟨c, gap, rfl⟩ := List.exists_cons_of_ne_nil hne
    obtain ⟨hc, hgap⟩ := List.forall_mem_cons.1 hgap
    have hk : afterKeyword? word.toList (w ++ c :: gap ++ rest) = some (c :: (gap ++ rest)) :=
      afterKeyword?_eq_some_iff.2 ⟨w, by simp, hw⟩
    simp only [hk, if_pos hc, Text.trimStart_append_blank hgap, Text.trimStart_of_head hrest]

theorem withLength?_eq_some_iff {n : Nat} :
    withLength? text = some n ↔
      ∃ opening tail, text = opening ++ tail ∧ Opens opening tail ∧ n = opening.length := by
  have hlength (opening tail : List Char) :
      (opening ++ tail).length - tail.length = opening.length := by simp
  rw [withLength?]
  constructor
  · intro h
    split at h
    · next rest hfound =>
      obtain ⟨w, rfl, hw⟩ := afterKeywordBlank?_eq_some_iff.1 hfound
      cases hd : afterKeywordBlank? "distinct".toList rest with
      | none =>
        rw [hd] at h
        refine ⟨w, rest, rfl, .all hw fun d tail he hdistinct => ?_, ?_⟩
        · rw [afterKeywordBlank?_eq_some_iff.2 ⟨d, he, hdistinct⟩] at hd
          cases hd
        · rw [← Option.some.inj h, Option.getD_none, hlength]
      | some tail =>
        rw [hd] at h
        obtain ⟨d, rfl, hdistinct⟩ := afterKeywordBlank?_eq_some_iff.1 hd
        refine ⟨w ++ d, tail, by simp, .distinct hw hdistinct, ?_⟩
        rw [← Option.some.inj h, Option.getD_some, ← List.append_assoc, hlength]
    · cases h
  · rintro ⟨opening, tail, rfl, h, rfl⟩
    cases h with
    | all h hd =>
      have hnone : afterKeywordBlank? "distinct".toList tail = none := by
        rw [Option.eq_none_iff_forall_ne_some]
        intro rest hrest
        obtain ⟨d, he, hdistinct⟩ := afterKeywordBlank?_eq_some_iff.1 hrest
        exact hd d rest he hdistinct
      simp only [afterKeywordBlank?_eq_some_iff.2 ⟨opening, rfl, h⟩, hnone, Option.getD_none,
        hlength]
    | @distinct w d _ h hd =>
      have hw : afterKeywordBlank? "with".toList (w ++ d ++ tail) = some (d ++ tail) :=
        afterKeywordBlank?_eq_some_iff.2 ⟨w, by simp, h⟩
      simp only [hw, afterKeywordBlank?_eq_some_iff.2 ⟨d, rfl, hd⟩, Option.getD_some, hlength]

theorem Heads.letter_or_blank (h : Heads word token tail) :
    ∀ c ∈ token, (∃ k ∈ word.toList, isLetter k c) ∨ Text.isBlank c := by
  obtain ⟨w, gap, rfl, hw, -, hgap⟩ := h.parts
  intro c hc
  rcases List.mem_append.1 hc with hc | hc
  · left
    obtain ⟨k, hk, hkc⟩ := hw.flip.exists_of_mem hc
    exact ⟨k, hk, hkc⟩
  · exact .inr (hgap c hc)

theorem Heads.last_isBlank (h : Heads word token tail) : ∀ c ∈ token.getLast?, Text.isBlank c := by
  obtain ⟨w, gap, rfl, -, hne, hgap⟩ := h.parts
  intro c hc
  rw [List.getLast?_append_of_ne_nil _ hne] at hc
  exact hgap c (List.mem_of_getLast? hc)

theorem Heads.ne_nil (h : Heads word token tail) : token ≠ [] := by
  obtain ⟨w, gap, rfl, -, hne, -⟩ := h.parts
  simp [hne]

theorem Opens.last_isBlank (h : Opens opening tail) : ∀ c ∈ opening.getLast?, Text.isBlank c := by
  cases h with
  | all h => exact h.last_isBlank
  | distinct h hd =>
    rw [List.getLast?_append_of_ne_nil _ hd.ne_nil]
    exact hd.last_isBlank

theorem Opens.letter_or_blank (h : Opens opening tail) :
    ∀ c ∈ opening, (∃ k ∈ "withdistinct".toList, isLetter k c) ∨ Text.isBlank c := by
  have hwiden (word : String) (hword : word.toList ⊆ "withdistinct".toList) {token rest}
      (ht : Heads word token rest) :
      ∀ c ∈ token, (∃ k ∈ "withdistinct".toList, isLetter k c) ∨ Text.isBlank c := fun c hc =>
    (ht.letter_or_blank c hc).imp_left fun ⟨k, hk, hkc⟩ => ⟨k, hword hk, hkc⟩
  cases h with
  | all h => exact hwiden _ (by decide) h
  | distinct h hd =>
    intro c hc
    rcases List.mem_append.1 hc with hc | hc
    · exact hwiden _ (by decide) h c hc
    · exact hwiden _ (by decide) hd c hc

theorem Opens.not_isPunctuation (h : Opens opening tail) : ∀ c ∈ opening, ¬isPunctuation c := by
  intro c hc
  have hletters : "withdistinct".toList.all fun k =>
      ['(', '[', '\x7b', ')', ']', '\x7d', ','].all fun d => !isLetter k d := by decide
  rcases h.letter_or_blank c hc with ⟨k, hk, hkc⟩ | hblank
  · exact Scope.not_isPunctuation (List.all_eq_true.1 hletters k hk) hkc
  · exact not_isPunctuation_of_isBlank hblank

theorem Opens.not_isQuote (h : Opens opening tail) : ∀ c ∈ opening, ¬Scan.isQuote c := by
  intro c hc
  have hletters : "withdistinct".toList.all fun k =>
      ['\'', '"', '\x60'].all fun d => !isLetter k d := by decide
  rcases h.letter_or_blank c hc with ⟨k, hk, hkc⟩ | hblank
  · exact Scope.not_isQuote (List.all_eq_true.1 hletters k hk) hkc
  · exact Scope.not_isQuote (p := Text.isBlank) (by decide) hblank

/- Every opening starts with a `w`, and there is no other in it. -/

theorem not_isBlank_of_isLetter_w {c : Char} (h : isLetter 'w' c) : ¬Text.isBlank c := by
  have hc : c.toLower = 'w' := by simpa [isLetter] using h
  have halpha : c.isAlpha := by
    rw [← Char.isAlpha_toLower_eq_isAlpha, hc]
    decide
  exact not_isBlank_of_isWordByte (by simp [isWordByte, Char.isAlphanum, halpha])

theorem not_isLetter_w_of_isLetter {k c : Char} (hk : k ≠ 'w') (h : isLetter k c) :
    ¬isLetter 'w' c := by
  intro hw
  have hc : c.toLower = 'w' := by simpa [isLetter] using hw
  simp only [isLetter, Bool.or_eq_true, Bool.and_eq_true, decide_eq_true_eq] at h
  rcases h with h | ⟨-, rfl⟩
  · exact hk (h.symm.trans hc)
  · revert hc
    decide

theorem not_isLetter_w_of_mem {ks w : List Char} (h : List.Forall₂ (fun k c => isLetter k c) ks w)
    (hks : 'w' ∉ ks) : ∀ c ∈ w, ¬isLetter 'w' c := by
  intro c hc
  obtain ⟨k, hk, hkc⟩ := h.flip.exists_of_mem hc
  exact not_isLetter_w_of_isLetter (fun he => hks (he ▸ hk)) hkc

theorem Opens.exists_cons (h : Opens opening tail) :
    ∃ c cs, opening = c :: cs ∧ isLetter 'w' c ∧ ∀ d ∈ cs, ¬isLetter 'w' d := by
  have hblank {gap : List Char} (hgap : ∀ d ∈ gap, Text.isBlank d) :
      ∀ d ∈ gap, ¬isLetter 'w' d := fun d hd hw => not_isBlank_of_isLetter_w hw (hgap d hd)
  have hwith {token rest : List Char} (ht : Heads "with" token rest) :
      ∃ c cs, token = c :: cs ∧ isLetter 'w' c ∧ ∀ d ∈ cs, ¬isLetter 'w' d := by
    obtain ⟨w, gap, rfl, hw, -, hgap⟩ := ht.parts
    have hletters : List.Forall₂ (fun k c => isLetter k c) ['w', 'i', 't', 'h'] w := hw
    cases hletters with
    | @cons _ c _ cs hc hcs =>
      exact ⟨c, cs ++ gap, rfl, hc,
        List.forall_mem_append.2 ⟨not_isLetter_w_of_mem hcs (by decide), hblank hgap⟩⟩
  cases h with
  | all h => exact hwith h
  | distinct h hd =>
    obtain ⟨c, cs, rfl, hc, hcs⟩ := hwith h
    obtain ⟨w, gap, rfl, hw, -, hgap⟩ := hd.parts
    have hdistinct := List.forall_mem_append.2
      ⟨not_isLetter_w_of_mem hw (by decide), hblank hgap⟩
    exact ⟨c, cs ++ (w ++ gap), rfl, hc, List.forall_mem_append.2 ⟨hcs, hdistinct⟩⟩

/- The search for clauses. -/

theorem withLength?_of_not_w {c : Char} (h : ¬isLetter 'w' c) (cs : List Char) :
    withLength? (c :: cs) = none := by
  rw [Option.eq_none_iff_forall_ne_some]
  intro n hn
  obtain ⟨opening, tail, he, ho, -⟩ := withLength?_eq_some_iff.1 hn
  obtain ⟨d, ds, rfl, hd, -⟩ := ho.exists_cons
  rw [(List.cons.inj he).1] at h
  exact h hd

/-- What still belongs to a clause can start none, so that nothing is missed by skipping it. -/
theorem clausesFrom_skip {skip : Nat} (h : ∀ c ∈ text.take skip, ¬isLetter 'w' c) (index : Nat)
    (inWord : Bool) : clausesFrom index skip inWord text = clausesFrom index 0 inWord text := by
  induction text generalizing skip index inWord with
  | nil => rfl
  | cons c cs ih =>
    cases skip with
    | zero => rfl
    | succ skip =>
      rw [List.take_succ_cons] at h
      obtain ⟨hc, hcs⟩ := List.forall_mem_cons.1 h
      rw [clausesFrom, ih hcs, clausesFrom, withLength?_of_not_w hc, ite_self]

def clauseAt? (index : Nat) (inWord : Bool) (text : List Char) : Option Clause :=
  if inWord then none else (withLength? text).map fun n => ⟨index, index + n⟩

theorem clausesFrom_cons (index : Nat) (inWord : Bool) (c : Char) (cs : List Char) :
    clausesFrom index 0 inWord (c :: cs) = (clauseAt? index inWord (c :: cs)).toList ++
      clausesFrom (index + 1) 0 (Text.isWordChar c) cs := by
  cases inWord with
  | true => rfl
  | false =>
    rw [clausesFrom, clauseAt?]
    cases hn : withLength? (c :: cs) with
    | none => rfl
    | some n =>
      have hskip : ∀ d ∈ cs.take (n - 1), ¬isLetter 'w' d := by
        obtain ⟨opening, tail, he, ho, rfl⟩ := withLength?_eq_some_iff.1 hn
        obtain ⟨d, ds, rfl, -, hds⟩ := ho.exists_cons
        obtain ⟨rfl, rfl⟩ := List.cons.inj he
        simpa using hds
      simp [clausesFrom_skip hskip]

theorem clauseAt?_eq_some_iff {index : Nat} {inWord : Bool} {clause : Clause} :
    clauseAt? index inWord text = some clause ↔
      inWord = false ∧ ∃ opening tail, text = opening ++ tail ∧ Opens opening tail ∧
        clause = ⟨index, index + opening.length⟩ := by
  cases inWord with
  | true => simp [clauseAt?]
  | false =>
    simp only [clauseAt?, Bool.false_eq_true, if_false, Option.map_eq_some_iff,
      withLength?_eq_some_iff, true_and]
    constructor
    · rintro ⟨n, ⟨opening, tail, he, ho, rfl⟩, rfl⟩
      exact ⟨opening, tail, he, ho, rfl⟩
    · rintro ⟨opening, tail, he, ho, rfl⟩
      exact ⟨_, ⟨opening, tail, he, ho, rfl⟩, rfl⟩

def endsInside (inWord : Bool) (text : List Char) : Bool :=
  text.foldl (fun _ c => Text.isWordChar c) inWord

theorem mem_clausesFrom_iff {index : Nat} {inWord : Bool} {clause : Clause} :
    clause ∈ clausesFrom index 0 inWord text ↔
      ∃ before opening tail, text = before ++ (opening ++ tail) ∧
        endsInside inWord before = false ∧ Opens opening tail ∧
        clause = ⟨index + before.length, index + before.length + opening.length⟩ := by
  induction text generalizing index inWord with
  | nil =>
    refine iff_of_false (by simp [clausesFrom]) ?_
    rintro ⟨before, opening, tail, he, -, ho, -⟩
    obtain ⟨c, cs, rfl, -⟩ := ho.exists_cons
    simp at he
  | cons c cs ih =>
    rw [clausesFrom_cons, List.mem_append, Option.mem_toList,
      clauseAt?_eq_some_iff, ih]
    constructor
    · rintro (⟨hb, opening, tail, he, ho, rfl⟩ | ⟨before, opening, tail, rfl, hb, ho, rfl⟩)
      · exact ⟨[], opening, tail, he, hb, ho, rfl⟩
      · refine ⟨c :: before, opening, tail, rfl, hb, ho, ?_⟩
        simp only [List.length_cons, Clause.mk.injEq]
        omega
    · rintro ⟨before, opening, tail, he, hb, ho, rfl⟩
      cases before with
      | nil => exact .inl ⟨hb, opening, tail, he, ho, rfl⟩
      | cons d before =>
        obtain ⟨rfl, rfl⟩ := List.cons.inj he
        refine .inr ⟨before, opening, tail, rfl, hb, ho, ?_⟩
        simp only [List.length_cons, Clause.mk.injEq]
        omega

theorem pairwise_clausesFrom (index : Nat) (inWord : Bool) (text : List Char) :
    (clausesFrom index 0 inWord text).Pairwise (·.start < ·.start) := by
  induction text generalizing index inWord with
  | nil => exact .nil
  | cons c cs ih =>
    rw [clausesFrom_cons, List.pairwise_append]
    refine ⟨?_, ih _ _, ?_⟩
    · cases clauseAt? index inWord (c :: cs) with
      | none => exact .nil
      | some clause => exact List.pairwise_singleton _ _
    · intro a ha b hb
      obtain ⟨-, -, -, -, -, rfl⟩ := clauseAt?_eq_some_iff.1 (Option.mem_toList.1 ha)
      obtain ⟨before, -, -, -, -, -, rfl⟩ := mem_clausesFrom_iff.1 hb
      simp only
      omega

def WordEnds (text : List Char) : Prop := ∀ c ∈ text.getLast?, ¬Text.isWordChar c

instance (text : List Char) : Decidable (WordEnds text) :=
  decidable_of_iff (text.getLast?.all fun c => !Text.isWordChar c) all_not_iff

theorem endsInside_eq_false_iff : endsInside false text = false ↔ WordEnds text := by
  cases text using List.reverseRecOn with
  | nil => simp [endsInside, WordEnds]
  | append_singleton text c => simp [endsInside, WordEnds]

theorem mem_clauses_iff {clause : Clause} :
    clause ∈ clauses text ↔ ∃ before opening tail, text = before ++ (opening ++ tail) ∧
      WordEnds before ∧ Opens opening tail ∧
      clause = ⟨before.length, before.length + opening.length⟩ := by
  simp only [clauses, mem_clausesFrom_iff, endsInside_eq_false_iff, Nat.zero_add]

end TemporalGraph.Plan.Scope
