import TemporalGraph.Plan.Create
import TemporalGraph.Proofs.Plan.Widening
import TemporalGraph.Proofs.Text.Search
/-!
What a write keeps of the construction. Main statement: between the lines of the plan stands the
text of the construction, with the variables of the plan put in once for every clause that passes
the key on, and from the last terminal on the statement is as it was.
-/

namespace TemporalGraph.Plan

namespace Scope

/- Copying a text. -/

theorem insertAll?_eq_some {extra text out : List Char} {copied : Nat} {places : List Nat}
    (h : insertAll? extra copied places text = some out) :
    ∃ parts : List (List Char), parts.flatten = text ∧ parts.length = places.length + 1 ∧
      out = extra.intercalate parts := by
  induction places generalizing copied text out with
  | nil => exact ⟨[text], by simp, rfl, by simpa [insertAll?] using h.symm⟩
  | cons place places ih =>
    rw [insertAll?] at h
    split at h
    · cases h
    · obtain ⟨tail, ht, rfl⟩ := Option.map_eq_some_iff.1 h
      obtain ⟨parts, hparts, hlength, rfl⟩ := ih ht
      obtain ⟨part, parts, rfl⟩ := List.exists_cons_of_length_eq_add_one hlength
      refine ⟨text.take (place - copied) :: part :: parts, ?_, by simp [hlength], ?_⟩
      · rw [List.flatten_cons, hparts, List.take_append_drop]
      · rw [List.intercalate_cons_cons]

/- The clauses that are widened. -/

namespace Clause

def list (text : List Char) (clause : Clause) : List Char :=
  let rest := text.drop clause.items
  Text.trimEnd (rest.take (projectionLength {} rest))

/-- No letters of a string predicate stand before the clause, and the key is among the items that
its list is cut into. -/
structure Passes (key text : List Char) (clause : Clause) : Prop where
  before : ¬EndsInPredicateLetters (text.take clause.start)
  item : ∃ item ∈ splitItems 0 (clause.list text), Text.trim item = key

variable {key text : List Char} {clause : Clause}

theorem passedEnd?_eq_ite : passedEnd? key text clause =
    if isPredicate (text.take clause.start) then none
    else if passes key (clause.list text) then some (clause.items + (clause.list text).length)
    else none := rfl

theorem isSome_passedEnd?_iff : (passedEnd? key text clause).isSome ↔ clause.Passes key text := by
  have hitem : passes key (clause.list text) ↔
      ∃ item ∈ splitItems 0 (clause.list text), Text.trim item = key := by
    simp [passes]
  rw [passedEnd?_eq_ite]
  by_cases hp : isPredicate (text.take clause.start)
  · rw [if_pos hp]
    exact iff_of_false (by simp) fun h => h.before (isPredicate_iff.1 hp)
  · rw [if_neg hp]
    by_cases hk : passes key (clause.list text)
    · rw [if_pos hk]
      exact iff_of_true rfl ⟨mt isPredicate_iff.2 hp, hitem.1 hk⟩
    · rw [if_neg hk]
      exact iff_of_false (by simp) fun h => hk (hitem.2 h.item)

instance : DecidablePred (Passes key text) := fun clause =>
  decidable_of_iff ((passedEnd? key text clause).isSome) isSome_passedEnd?_iff

end Clause

theorem length_passedEnds (key text : List Char) :
    (passedEnds key text).length = (clauses text).countP fun clause => clause.Passes key text := by
  rw [passedEnds, List.length_filterMap_eq_countP]
  refine List.countP_congr fun clause _ => ?_
  rw [Clause.isSome_passedEnd?_iff, decide_eq_true_eq]

end Scope

namespace Create

open Scope (Clause clauses)

/-- A write whose scopes are in order has the text of the construction between its lines, less the
blanks at its end, with the carried variables put in once for each clause that passes the key on.
The construction ends at the last terminal, from which on the statement stays as it is. -/
theorem apply_keeps_text {typeName : String} {call : Call} {s : Statement} {c : Config}
    (hf : (terminal call.resultKey).toList <:+: s.query.toList)
    (hp : (apply typeName call s c).result ≠ .error .scopeOutOfOrder) :
    ∃ (construction rest : List Char) (parts : List (List Char)),
      Text.LastAt (terminal call.resultKey).toList s.query.toList construction rest ∧
      parts.flatten = Text.trimEnd construction ∧
      parts.length = ((clauses (Text.trimEnd construction)).countP fun clause =>
        clause.Passes call.resultKey.toList (Text.trimEnd construction)) + 1 ∧
      apply typeName call s c = pure { s with
        query := String.ofList ((prelude c typeName).toList ++
          ", _r, _prev, _next_from".toList.intercalate parts ++
          (epilogue c call.resultKey).toList ++
          ((terminal call.resultKey).toList ++ rest)) } := by
  obtain ⟨construction, rest, hlast⟩ := Text.exists_splitLast? hf
  cases hw : Scope.carry? carried call.resultKey.toList (Text.trimEnd construction) with
  | none =>
    rw [apply_of_carry?_eq_none hlast hw] at hp
    exact absurd rfl hp
  | some widened =>
    obtain ⟨parts, hparts, hlength, rfl⟩ := Scope.insertAll?_eq_some hw
    rw [Scope.length_passedEnds] at hlength
    refine ⟨construction, rest, parts, Text.lastAt_of_splitLast? hlast, hparts, hlength, ?_⟩
    rw [apply_of_carry? hlast hw, ← List.append_assoc]
    rfl

/-- Of three words `WITH`, only the first passes the person on under its name. -/
theorem apply_keeps_text_alias :
    let call : Call := ⟨"createPerson", some "p", .empty⟩
    let s : Statement := ⟨"CREATE (p:P) WITH p, 1 AS n WITH p AS q WHERE q.n ENDS WITH p  " ++
      "WITH p RETURN p", .empty⟩
    let front := "MERGE (_r:Person_R:RESOURCE \x7bid: $id\x7d) WITH _r\n" ++
      "OPTIONAL MATCH (_r)<-[:VERSION_OF \x7bfrom: $_version\x7d]-(_stale)\n" ++
      "OPTIONAL MATCH (_stale)-[*]->(_embedded:EMBEDDED)\n" ++
      "DETACH DELETE _stale, _embedded WITH DISTINCT _r\n" ++
      "OPTIONAL MATCH (_r)<-[_v:VERSION_OF]-() WHERE _v.from <= $_version " ++
        "AND coalesce($_version < _v.to, true) WITH _r, _v AS _prev\n" ++
      "OPTIONAL MATCH (_r)<-[_v:VERSION_OF]-() WHERE _v.from > $_version " ++
        "WITH _r, _prev, min(_v.from) AS _next_from\n"
    let back := "\nSET p:INSTANCE\nCREATE (_r)<-[:VERSION_OF \x7bfrom: $_version, " ++
      "to: coalesce(_prev.to, _next_from)\x7d]-(p)\nSET _prev.to = $_version\n"
    (terminal call.resultKey).toList <:+: s.query.toList ∧
      (apply "Person" call s {}).result ≠ .error .scopeOutOfOrder ∧
      ∃ parts : List (List Char), parts.length = 2 ∧
        parts.flatten = "CREATE (p:P) WITH p, 1 AS n WITH p AS q WHERE q.n ENDS WITH p".toList ∧
        apply "Person" call s {} = pure { s with
          query := String.ofList (front.toList ++
            ", _r, _prev, _next_from".toList.intercalate parts ++ back.toList ++
            "WITH p RETURN p".toList) } := by
  intro call s front back
  let construction := "CREATE (p:P) WITH p, 1 AS n WITH p AS q WHERE q.n ENDS WITH p  ".toList
  have hsplit : Text.splitLast? (terminal call.resultKey).toList s.query.toList =
      some (construction, [' ', 'p']) := by decide +kernel
  have hf : (terminal call.resultKey).toList <:+: s.query.toList := by decide +kernel
  have hok : (apply "Person" call s {}).result.isOk := by decide +kernel
  have hp : (apply "Person" call s {}).result ≠ .error .scopeOutOfOrder := by
    intro he
    rw [he] at hok
    cases hok
  have hfront : prelude {} "Person" = front := by decide +kernel
  have hback : epilogue {} call.resultKey = back := by decide +kernel
  obtain ⟨construction', rest, parts, hlast, hparts, hlength, happly⟩ := apply_keeps_text hf hp
  obtain ⟨rfl, rfl⟩ := hlast.unique (Text.lastAt_of_splitLast? hsplit)
  have hreturned : (terminal call.resultKey).toList ++ [' ', 'p'] = "WITH p RETURN p".toList := by
    decide +kernel
  rw [hreturned, hfront, hback] at happly
  refine ⟨hf, hp, parts, ?_, ?_, happly⟩
  · rw [hlength]
    decide +kernel
  · rw [hparts]
    decide +kernel

end Create

end TemporalGraph.Plan
