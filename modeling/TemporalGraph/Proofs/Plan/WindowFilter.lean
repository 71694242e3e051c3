import TemporalGraph.Plan.Read
import TemporalGraph.Proofs.Plan.FilterSyntax
import TemporalGraph.Proofs.Text.Search
/-!
The filter of a read at a version. Main statement: the window filter is put in front of the filter
as text, so that it guards the first alternative only; a filter without `OR` and `XOR` is guarded as
a whole.
-/

namespace TemporalGraph

namespace Plan

namespace Filter

variable {σ : List Char → Bool} {w e : Filter}

/-- The filter that is read when `w AND` stands in front of a filter. -/
def guard : Filter → Filter → Filter
  | binary o a b, w => binary o (a.guard w) b
  | e, w => binary .and w e

theorem tokens_guard (e w : Filter) :
    (e.guard w).tokens = w.tokens ++ .connective .and :: e.tokens := by
  induction e with
  | binary o a b iha ihb => simp only [guard, tokens, iha, List.append_assoc, List.cons_append]
  | _ => rfl

theorem level_guard (e w : Filter) : (e.guard w).level = min 2 e.level := by
  cases e with
  | binary o a b => exact (Nat.min_eq_right o.level_le).symm
  | _ => rfl

theorem respects_guard (hw : w.Respects) (hl : w.level = 3) (he : e.Respects) :
    (e.guard w).Respects := by
  have hand : Connective.and.level ≤ w.level := by
    rw [hl]
    decide
  have hlt : Connective.and.level < 3 := by decide
  induction e with
  | cond text => exact ⟨hw, he, hand, hlt⟩
  | group e ih => exact ⟨hw, he, hand, hlt⟩
  | not e ih => exact ⟨hw, he, hand, hlt⟩
  | binary o a b iha ihb =>
    obtain ⟨ha, hb, hle, hlt⟩ := he
    refine ⟨iha ha, hb, ?_, hlt⟩
    rw [level_guard]
    exact Nat.le_min.2 ⟨o.level_le, hle⟩

/-- The truth of a filter whose first operand outside brackets counts as false. -/
def evalBehind (σ : List Char → Bool) : Filter → Bool
  | binary o a b => o.eval (a.evalBehind σ) (b.eval σ)
  | _ => false

theorem eval_guard (σ : List Char → Bool) (w e : Filter) :
    (e.guard w).eval σ = if w.eval σ then e.eval σ else e.evalBehind σ := by
  cases hw : w.eval σ with
  | true =>
    induction e with
    | binary o a b iha ihb => simp only [guard, eval, iha, if_true]
    | _ => simp only [guard, eval, hw, Connective.eval, Bool.true_and, if_true]
  | false =>
    induction e with
    | binary o a b iha ihb =>
      simp only [guard, eval, evalBehind, iha, Bool.false_eq_true, if_false]
    | _ => simp [guard, eval, evalBehind, hw, Connective.eval]

theorem evalBehind_of_level (he : e.Respects) (hl : 2 ≤ e.level) : e.evalBehind σ = false := by
  induction e with
  | binary o a b iha ihb =>
    cases o with
    | and =>
      obtain ⟨ha, -, hle, -⟩ := he
      simp only [evalBehind, Connective.eval, iha ha hle, Bool.false_and]
    | xor => simp [level, Connective.level] at hl
    | or => simp [level, Connective.level] at hl
  | _ => rfl

def alternatives : Filter → List Filter
  | binary .or a b => a.alternatives ++ [b]
  | _ => []

theorem evalBehind_of_mem_alternatives {b : Filter} (hb : b ∈ e.alternatives)
    (hσ : b.eval σ = true) : e.evalBehind σ = true := by
  induction e with
  | binary o a c iha ihc =>
    cases o with
    | or =>
      simp only [evalBehind, Connective.eval, Bool.or_eq_true]
      rcases List.mem_append.1 hb with hb | hb
      · exact .inl (iha hb)
      · exact .inr (List.mem_singleton.1 hb ▸ hσ)
    | and => cases hb
    | xor => cases hb
  | _ => cases hb

end Filter

namespace Read

def startCondition (version : String) : List Char := s!"_v.from <= ${version}".toList

def stopCondition (version : String) : List Char := s!"coalesce(${version} < _v.to, true)".toList

def window (c : Config) : Filter :=
  .group (.binary .and (.cond (startCondition c.versionParam))
    (.cond (stopCondition c.versionParam)))

theorem respects_window (c : Config) : (window c).Respects :=
  ⟨trivial, trivial, Nat.le_succ 2, Nat.lt_succ_self 2⟩

theorem windowFilter_eq (c : Config) :
    (windowFilter c).toList = " (".toList ++ startCondition c.versionParam ++ " AND ".toList ++
      stopCondition c.versionParam ++ ") AND ".toList := by
  have htext : windowFilter c = " (_v.from <= $" ++ c.versionParam ++ " AND coalesce($" ++
      c.versionParam ++ " < _v.to, true)) AND " := rfl
  simp only [htext, startCondition, stopCondition, String.toList_append, List.append_assoc]
  rfl

theorem spells_window (c : Config) {ts : List Token} {gap text : List Char}
    (hb : ∀ ch ∈ gap, Text.isBlank ch) (h : Spells ts text) :
    ∃ condition, Spells ((window c).tokens ++ .connective .and :: ts) condition ∧
      (windowFilter c).toList ++ gap ++ text = ' ' :: condition := by
  have hblank : ∀ ch ∈ [' '], Text.isBlank ch := List.forall_mem_singleton.2 (by decide)
  have hnone : ∀ ch ∈ ([] : List Char), Text.isBlank ch := List.forall_mem_nil _
  have hgap : ∀ ch ∈ ' ' :: gap, Text.isBlank ch := List.forall_mem_cons.2 ⟨by decide, hb⟩
  have hand : Spells (.connective .and :: ts) ("AND".toList ++ ' ' :: gap ++ text) :=
    .cons hgap (.inl (by simp)) h
  have hclosing := hand.cons (t := .closing) hblank (.inl (by simp))
  have hstop := hclosing.cons (t := .cond (stopCondition c.versionParam)) hnone
    (.inr (.inr (by simp [Token.isBracket])))
  have hand' := hstop.cons (t := .connective .and) hblank (.inl (by simp))
  have hstart := hand'.cons (t := .cond (startCondition c.versionParam)) hblank (.inl (by simp))
  have hopening := hstart.cons (t := .opening) hnone (.inr (.inl rfl))
  refine ⟨_, hopening, ?_⟩
  rw [windowFilter_eq]
  simp only [Token.text, List.append_assoc, List.append_nil]
  rfl

theorem apply_append {typeName : String} {call : Call} {s : Statement} {after : List Char}
    (h : s.query.toList = anchor call.resultKey typeName ++ ' ' :: after) (c : Config) :
    apply typeName call s c = pure { s with
      query := String.ofList ((traversal c call.resultKey typeName).toList ++
        (windowFilter c).toList ++ after) } := by
  have hfilter := Text.splitFirst?_append (anchor call.resultKey typeName ++ [' ']) after
  have hroot := Text.splitFirst?_append (anchor call.resultKey typeName)
    ((windowFilter c).toList ++ after)
  rw [List.append_assoc, List.singleton_append] at hfilter
  simp only [apply, h, hfilter, List.nil_append, List.append_assoc, hroot]

/-- A filter behind the root match gets the window in front of it. What stands there then is read as
the filter with the window before its first operand, and only that one counts as false outside the
window. So a filter without `OR` and `XOR` outside brackets asks for the window and the filter; any
other filter passes outside the window where a later alternative does. -/
theorem apply_guards {typeName : String} {call : Call} {s : Statement} {e : Filter}
    {gap text rest : List Char} (he : e.Respects) (hb : ∀ ch ∈ gap, Text.isBlank ch)
    (ht : Spells e.tokens text) (hq : s.query.toList =
      anchor call.resultKey typeName ++ ' ' :: (gap ++ text ++ rest)) (c : Config) :
    ∃ condition ts,
      apply typeName call s c = pure { s with
        query := String.ofList ((traversal c call.resultKey typeName).toList ++
          ' ' :: condition ++ rest) } ∧
      Spells ts condition ∧ readFilter? ts = some (e.guard (window c)) ∧
      ∀ σ : List Char → Bool,
        (e.guard (window c)).eval σ =
          (if (window c).eval σ then e.eval σ else e.evalBehind σ) ∧
        (Connective.and.level ≤ e.level →
          (e.guard (window c)).eval σ = ((window c).eval σ && e.eval σ)) ∧
        ∀ b ∈ e.alternatives, b.eval σ = true → (window c).eval σ = false →
          (e.guard (window c)).eval σ = true := by
  obtain ⟨condition, hs, hc⟩ := spells_window c hb ht
  refine ⟨condition, (e.guard (window c)).tokens, ?_, ?_, ?_, fun σ => ⟨?_, ?_, ?_⟩⟩
  · rw [apply_append hq, ← List.append_assoc, ← List.append_assoc, List.append_assoc _ _ gap,
      List.append_assoc _ _ text, hc]
  · rwa [Filter.tokens_guard]
  · exact readFilter?_tokens (Filter.respects_guard (respects_window c) rfl he)
  · exact Filter.eval_guard σ _ e
  · intro hl
    rw [Filter.eval_guard, Filter.evalBehind_of_level he hl]
    cases (window c).eval σ <;> rfl
  · intro b hb hσ hw
    rw [Filter.eval_guard, hw]
    exact Filter.evalBehind_of_mem_alternatives hb hσ

/-- A person outside the window passes by the second alternative. -/
theorem apply_guards_or :
    let a := "person.a = 1".toList
    let b := "person.b = 2".toList
    let e : Filter := .binary .or (.cond a) (.cond b)
    let text := a ++ [' '] ++ ("OR".toList ++ [' '] ++ (b ++ [] ++ []))
    let rest := " RETURN person".toList
    let call : Call := ⟨"person", none, .empty⟩
    let query := String.ofList (anchor call.resultKey "Person" ++ ' ' :: ([] ++ text ++ rest))
    let σ (text : List Char) : Bool := text = b
    e.Respects ∧ Spells e.tokens text ∧ (window {}).eval σ = false ∧ ∃ condition ts e',
      apply "Person" call ⟨query, .empty⟩ {} =
        pure ⟨String.ofList ((traversal {} call.resultKey "Person").toList ++
          ' ' :: condition ++ rest), .empty⟩ ∧
      Spells ts condition ∧ readFilter? ts = some e' ∧ e'.eval σ = true := by
  intro a b e text rest call query σ
  have he : e.Respects := ⟨trivial, trivial, Nat.zero_le _, Nat.zero_lt_succ _⟩
  have hblank : ∀ ch ∈ [' '], Text.isBlank ch := List.forall_mem_singleton.2 (by decide)
  have hnone : ∀ ch ∈ ([] : List Char), Text.isBlank ch := List.forall_mem_nil _
  have hb : Spells [.cond b] (b ++ [] ++ []) := .cons hnone (.inr (.inr (by simp))) .nil
  have hor : Spells [.connective .or, .cond b] ("OR".toList ++ [' '] ++ (b ++ [] ++ [])) :=
    .cons hblank (.inl (by simp)) hb
  have ht : Spells e.tokens text := .cons hblank (.inl (by simp)) hor
  have hw : (window {}).eval σ = false := by decide
  let s : Statement := ⟨query, .empty⟩
  have hq : s.query.toList = anchor call.resultKey "Person" ++ ' ' :: ([] ++ text ++ rest) :=
    String.toList_ofList
  obtain ⟨condition, ts, happly, hs, hread, hσ⟩ := apply_guards he hnone ht hq {}
  have hpass := (hσ σ).2.2 (.cond b) (by simp [e, Filter.alternatives]) (by decide) hw
  exact ⟨he, ht, hw, condition, ts, _, happly, hs, hread, hpass⟩

end Read

end Plan

end TemporalGraph
