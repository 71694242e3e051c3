import TemporalGraph.Proofs.Plan.Association
import TemporalGraph.Proofs.Plan.Projection
/-!
Which projections are widened. Main statements: where every word `WITH` is a keyword outside
brackets, every projection with the key among its items is widened once, at the end of its list,
unless the letters of a string predicate stand before it; and where `WITH` may belong to a string
predicate, such a predicate within a list cuts it.
-/

namespace TemporalGraph.Plan.Scope

variable {extra key text front back : List Char} {places : List Nat}

/- Insertion at places. -/

/-- The text, from the character `index` on, with `extra` once at each of the places. -/
def insertAt (extra : List Char) (places : List Nat) (index : Nat) : List Char → List Char
  | [] => if index ∈ places then extra else []
  | c :: cs => (if index ∈ places then extra else []) ++ c :: insertAt extra places (index + 1) cs

theorem insertAt_congr {places' : List Nat} {index : Nat}
    (h : ∀ i, index ≤ i → (i ∈ places ↔ i ∈ places')) (text : List Char) :
    insertAt extra places index text = insertAt extra places' index text := by
  induction text generalizing index with
  | nil => simp only [insertAt, h index (Nat.le_refl _)]
  | cons c cs ih =>
    simp only [insertAt, h index (Nat.le_refl _)]
    rw [ih fun i hi => h i (Nat.le_of_succ_le hi)]

theorem insertAt_append {index : Nat} (h : ∀ i ∈ places, index + front.length ≤ i)
    (back : List Char) :
    insertAt extra places index (front ++ back) =
      front ++ insertAt extra places (index + front.length) back := by
  induction front generalizing index with
  | nil => rfl
  | cons c cs ih =>
    have hindex : index ∉ places := fun hi => by
      have := h index hi
      rw [List.length_cons] at this
      omega
    have hlength : index + 1 + cs.length = index + (c :: cs).length := by
      rw [List.length_cons]
      omega
    rw [List.cons_append, insertAt, if_neg hindex, List.nil_append,
      ih fun i hi => hlength ▸ h i hi, hlength]
    rfl

theorem insertAt_here {place : Nat} (h : ∀ i ∈ places, place < i) (text : List Char) :
    insertAt extra (place :: places) place text = extra ++ insertAt extra places place text := by
  have hplace : place ∉ places := fun hi => Nat.lt_irrefl place (h place hi)
  cases text with
  | nil => simp [insertAt, hplace]
  | cons c cs =>
    have htail : insertAt extra (place :: places) (place + 1) cs =
        insertAt extra places (place + 1) cs :=
      insertAt_congr (fun i hi => by simp [show i ≠ place by omega]) cs
    rw [insertAt, insertAt, if_pos List.mem_cons_self, if_neg hplace, htail, List.nil_append]

theorem insertAll?_eq_insertAt {copied : Nat} (hs : places.Pairwise (· < ·))
    (h : ∀ place ∈ places, copied ≤ place ∧ place ≤ copied + text.length) :
    insertAll? extra copied places text = some (insertAt extra places copied text) := by
  induction places generalizing copied text with
  | nil =>
    have hnone : insertAt extra [] copied (text ++ []) =
        text ++ insertAt extra [] (copied + text.length) [] :=
      insertAt_append (List.forall_mem_nil _) []
    simpa [insertAll?, insertAt] using hnone.symm
  | cons place places ih =>
    obtain ⟨hlt, hs⟩ := List.pairwise_cons.1 hs
    obtain ⟨⟨hle, hlength⟩, hrest⟩ := List.forall_mem_cons.1 h
    obtain ⟨front, back, rfl, hfront⟩ : ∃ front back, text = front ++ back ∧
        copied + front.length = place :=
      ⟨_, _, (List.take_append_drop (place - copied) text).symm, by
        rw [List.length_take]
        omega⟩
    have hn : place - copied = front.length := by omega
    have hback : insertAll? extra place places back =
        some (insertAt extra places place back) := ih hs fun i hi => by
      have := hlt i hi
      have := (hrest i hi).2
      rw [List.length_append] at this
      omega
    have hplaces : ∀ i ∈ place :: places, copied + front.length ≤ i :=
      List.forall_mem_cons.2 ⟨hfront.le, fun i hi => hfront.trans_le (hlt i hi).le⟩
    rw [insertAt_append hplaces, hfront, insertAt_here hlt, insertAll?,
      if_neg (Nat.not_lt.2 hle)]
    simp only [hn, List.take_left, List.drop_left, hback, Option.map_some, List.append_assoc]

theorem carry?_eq_insertAt (extra : List Char) (hq : Unquoted text) (hc : ClausesEndLists text) :
    carry? extra key text = some (insertAt extra (passedEnds key text) 0 text) :=
  insertAll?_eq_insertAt (pairwise_passedEnds hq hc) fun place hp =>
    ⟨Nat.zero_le _, by simpa using le_length_of_mem_passedEnds hq hc hp⟩

/- Words `WITH` and string predicates. -/

theorem forall_append_iff {P : List Char → List Char → Prop} :
    (∀ front back, text = front ++ back → P front back) ↔
      ∀ i ≤ text.length, P (text.take i) (text.drop i) := by
  constructor
  · exact fun h i _ => h _ _ (List.take_append_drop i text).symm
  · rintro h front back rfl
    simpa using h front.length (by simp)

def WithAt (front back : List Char) : Prop :=
  WordEnds front ∧ ∃ w tail, back = w ++ tail ∧ Writes "with" w ∧
    ∀ c ∈ tail.head?, Text.isBlank c ∨ ¬Text.isWordChar c

instance (front back : List Char) : Decidable (WithAt front back) :=
  decidable_of_iff (WordEnds front ∧ (afterKeyword? "with".toList back).any fun tail =>
      tail.head?.all fun c => Text.isBlank c || !Text.isWordChar c) (and_congr_right fun _ => by
    simp only [Option.any_eq_true, afterKeyword?_eq_some_iff, Option.all_eq_true,
      Bool.or_eq_true, Bool.not_eq_true', Bool.not_eq_true]
    exact ⟨fun ⟨tail, ⟨w, he, hw⟩, ht⟩ => ⟨w, tail, he, hw, ht⟩,
      fun ⟨w, tail, he, hw, ht⟩ => ⟨tail, ⟨w, he, hw⟩, ht⟩⟩)

def PredicateLetters (w : List Char) : Prop :=
  w.map Char.toUpper ∈ ["STARTS".toList, "ENDS".toList]

/-- The text ends in these letters, be they a word or the end of a longer one. -/
def EndsInPredicateLetters (text : List Char) : Prop :=
  ∃ front w gap, text = front ++ (w ++ gap) ∧ PredicateLetters w ∧ ∀ c ∈ gap, Text.isBlank c

/-- The text ends in the word `STARTS` or `ENDS`, which names no property and no parameter. -/
def EndsInPredicateWord (text : List Char) : Prop :=
  ∃ front w gap, text = front ++ (w ++ gap) ∧ PredicateLetters w ∧ (∀ c ∈ gap, Text.isBlank c) ∧
    ∀ c ∈ front.getLast?, ¬Text.isWordChar c ∧ c ≠ '.' ∧ c ≠ '$'

structure PredicateAt (front back : List Char) : Prop where
  keyword : KeywordAt front back
  word : WithAt front back
  predicate : EndsInPredicateWord front

/-- A complete list ends here, at a keyword that is no part of a string predicate. -/
def ListEnd (front back : List Char) : Prop := KeywordAt front back ∧ ¬PredicateAt front back

theorem EndsInPredicateWord.letters (h : EndsInPredicateWord text) :
    EndsInPredicateLetters text := by
  obtain ⟨front, w, gap, he, hw, hgap, -⟩ := h
  exact ⟨front, w, gap, he, hw, hgap⟩

theorem PredicateLetters.not_isBlank {w : List Char} (h : PredicateLetters w) :
    ∀ c ∈ w, ¬Text.isBlank c := by
  have hupper : ["STARTS".toList, "ENDS".toList].all fun u => u.all Char.isUpper := by decide
  intro c hc
  have hw := List.all_eq_true.1 (List.all_eq_true.1 hupper _ h) _ (List.mem_map_of_mem hc)
  have halpha : c.isAlpha := (Char.isUpper_toUpper_eq_isAlpha c).symm.trans hw
  exact not_isBlank_of_isWordByte (by simp [isWordByte, Char.isAlphanum, halpha])

theorem PredicateLetters.ne_nil {w : List Char} (h : PredicateLetters w) : w ≠ [] := by
  rintro rfl
  simp [PredicateLetters] at h

theorem endsInWord_iff {word : String} :
    endsInWord word text ↔ ∃ front w, text = front ++ w ∧ w.map Char.toUpper = word.toList := by
  rw [endsInWord, List.isPrefixOf_iff_prefix, List.reverse_prefix]
  constructor
  · rintro ⟨before, he⟩
    obtain ⟨front, w, rfl, -, hw⟩ := List.map_eq_append_iff.1 he.symm
    exact ⟨front, w, rfl, hw⟩
  · rintro ⟨front, w, rfl, hw⟩
    exact ⟨front.map Char.toUpper, by rw [List.map_append, hw]⟩

theorem isPredicate_iff : isPredicate text ↔ EndsInPredicateLetters text := by
  have hends : isPredicate text ↔
      ∃ front w, Text.trimEnd text = front ++ w ∧ PredicateLetters w := by
    simp only [isPredicate, Bool.or_eq_true, endsInWord_iff, PredicateLetters, List.mem_cons,
      List.not_mem_nil, or_false, and_or_left, exists_or]
  rw [hends]
  constructor
  · rintro ⟨front, w, he, hw⟩
    obtain ⟨gap, htext, hgap⟩ := Text.trimEnd_append_rest text
    exact ⟨front, w, gap, by rw [htext, he, List.append_assoc], hw, hgap⟩
  · rintro ⟨front, w, gap, rfl, hw, hgap⟩
    have hlast : ∀ c ∈ (front ++ w).getLast?, ¬Text.isBlank c := fun c hc => by
      rw [List.getLast?_append_of_ne_nil _ hw.ne_nil] at hc
      exact hw.not_isBlank c (List.mem_of_getLast? hc)
    refine ⟨front, w, ?_, hw⟩
    rw [← List.append_assoc, Text.trimEnd_append_of_last hlast hgap]

theorem Opens.withAt {opening tail : List Char} (h : Opens opening tail) (hs : WordEnds front) :
    WithAt front (opening ++ tail) := by
  have hwith {token rest : List Char} (ht : Heads "with" token rest) (more : List Char) :
      WithAt front (token ++ more) := by
    obtain ⟨w, gap, rfl, hw, hne, hgap⟩ := ht.parts
    obtain ⟨c, gap, rfl⟩ := List.exists_cons_of_ne_nil hne
    refine ⟨hs, w, c :: gap ++ more, List.append_assoc _ _ _, hw, fun d hd => .inl ?_⟩
    obtain rfl : c = d := Option.some.inj hd
    exact hgap c List.mem_cons_self
  cases h with
  | all h => exact hwith h tail
  | @distinct w d _ h hd =>
    rw [List.append_assoc]
    exact hwith h (d ++ tail)

theorem clausesEndLists_of_words (hw : ∀ front back, text = front ++ back → WithAt front back →
    KeywordAt front back ∨ EndsInPredicateWord front) : ClausesEndLists text := by
  intro before opening tail he hs ho hp
  refine (hw _ _ he (ho.withAt hs)).resolve_right fun hword => ?_
  exact hp (isPredicate_iff.2 hword.letters)

/- The projections that are widened. -/

/-- Every word `WITH` of an unquoted text is a keyword outside brackets. Then `extra` is inserted
once for each projection that has the name among its items, at the end of its list, and nowhere
else; but not for a projection before which the letters `STARTS` or `ENDS` stand, though they be the
end of another word. -/
theorem carry?_widens (extra : List Char) {key text : List Char} (hk : IsName key)
    (hq : Unquoted text)
    (hw : ∀ front back, text = front ++ back → WithAt front back → KeywordAt front back) :
    ∃ places, carry? extra key text = some (insertAt extra places 0 text) ∧
      ∀ place, place ∈ places ↔ ∃ p : Projection, p.In KeywordAt text ∧ HasItem key p.items ∧
        ¬EndsInPredicateLetters p.before ∧ place = p.place := by
  have hc : ClausesEndLists text :=
    clausesEndLists_of_words fun front back he h => .inl (hw front back he h)
  have hkey : ∀ c ∈ key, isWordByte c := fun c => hk.of_mem
  refine ⟨_, carry?_eq_insertAt extra hq hc, fun place => ?_⟩
  simp only [mem_passedEnds_iff hq hc, passes, any_splitItems_iff hkey, isPredicate_iff]
  constructor
  · rintro ⟨p, hin, hp, hitem, hplace⟩
    exact ⟨p, hin, hitem, hp, hplace⟩
  · rintro ⟨p, hin, hitem, hp, hplace⟩
    exact ⟨p, hin, hp, hitem, hplace⟩

/-- The first list is widened. The second is not, because the name of a parameter ends in the
letters of `ENDS`. -/
theorem carry?_widens_friends :
    let text := "CREATE (p:P) WITH p SET p.f = $friends WITH p, 1 AS n SET p.n = n".toList
    IsName "p".toList ∧ Unquoted text ∧
      (∀ front back, text = front ++ back → WithAt front back → KeywordAt front back) ∧
      ∃ places, insertAt ", _r".toList places 0 text =
          "CREATE (p:P) WITH p, _r SET p.f = $friends WITH p, 1 AS n SET p.n = n".toList ∧
        ∀ place, place ∈ places ↔ ∃ p : Projection, p.In KeywordAt text ∧
          HasItem "p".toList p.items ∧ ¬EndsInPredicateLetters p.before ∧ place = p.place := by
  intro text
  have hk : IsName "p".toList := by decide
  have hq : Unquoted text := by decide
  have hw : ∀ front back, text = front ++ back → WithAt front back → KeywordAt front back :=
    forall_append_iff.2 (by decide +kernel)
  obtain ⟨places, hcarry, hplaces⟩ := carry?_widens ", _r".toList hk hq hw
  have hwidened : carry? ", _r".toList "p".toList text =
      some "CREATE (p:P) WITH p, _r SET p.f = $friends WITH p, 1 AS n SET p.n = n".toList := by
    decide +kernel
  exact ⟨hk, hq, hw, places, Option.some.inj (hcarry.symm.trans hwidened), hplaces⟩

/-- `f` is the list up to its first string predicate outside brackets, and `b` is what is left of it
from there. Nothing is left if there is none. -/
structure Projection.UpToPredicate (p : Projection) (f b : List Char) : Prop where
  list_eq : p.list = f ++ b
  within : ∀ f' b', f = f' ++ b' → b' ≠ [] →
    ¬PredicateAt (p.before ++ p.opening ++ f') (b' ++ (b ++ p.rest))
  stop : b ≠ [] → PredicateAt (p.before ++ p.opening ++ f) (b ++ p.rest)

theorem Projection.In.exists_complete {p : Projection} (h : p.In KeywordAt text) :
    ∃ q : Projection, q.In ListEnd text ∧ q.before = p.before ∧ q.opening = p.opening ∧
      ∃ b, q.UpToPredicate p.list b := by
  obtain ⟨list, rest, he, hcut⟩ := exists_cut ListEnd (p.before ++ p.opening) (p.list ++ p.rest)
  obtain ⟨b, rfl, hrest⟩ := h.cut.exists_append hcut (fun _ _ => And.left) he
  refine ⟨⟨p.before, p.opening, p.list ++ b, rest⟩, ⟨?_, h.start, ?_, hcut⟩, rfl, rfl, b, rfl,
    fun f' b' hf hb hpred => ?_, fun hb => ?_⟩
  · rw [← he]
    exact h.text_eq
  · rw [← he]
    exact h.opens
  · rw [← hrest] at hpred
    exact h.cut.within f' b' hf hb hpred.keyword
  · have hkeyword := h.cut.stop (by simp [hrest, hb])
    by_contra hpred
    rw [hrest] at hkeyword
    exact hcut.within p.list b rfl hb ⟨hkeyword, hpred⟩

/-- Every word `WITH` of an unquoted text is a keyword outside brackets or belongs to a string
predicate. Then the copying succeeds. Each insertion stands behind a complete list, which is not
that of a string predicate's own `WITH`, unless the list has a string predicate outside brackets:
then it stands in the first of these, behind `STARTS` or `ENDS`. -/
theorem carry?_places (extra key : List Char) {text : List Char} (hq : Unquoted text)
    (hw : ∀ front back, text = front ++ back → WithAt front back →
      KeywordAt front back ∨ EndsInPredicateWord front) :
    ∃ places, carry? extra key text = some (insertAt extra places 0 text) ∧
      ∀ place ∈ places, ∃ (p : Projection) (f b : List Char), p.In ListEnd text ∧
        ¬EndsInPredicateLetters p.before ∧ p.UpToPredicate f b ∧ (b = [] → place = p.place) ∧
        place = p.before.length + p.opening.length + (Text.trimEnd f).length := by
  have hc := clausesEndLists_of_words hw
  refine ⟨_, carry?_eq_insertAt extra hq hc, fun place hplace => ?_⟩
  obtain ⟨p, hin, hletters, -, rfl⟩ := (mem_passedEnds_iff hq hc).1 hplace
  obtain ⟨q, hq, hbefore, hopening, b, hb⟩ := hin.exists_complete
  refine ⟨q, p.list, b, hq, ?_, hb, ?_, by rw [hbefore, hopening]; rfl⟩
  · rw [hbefore]
    exact mt isPredicate_iff.2 hletters
  · rintro rfl
    rw [Projection.place, Projection.items, Projection.place, Projection.items, hbefore, hopening,
      hb.list_eq, List.append_nil]

/-- The list goes on to `SET`, and the insertion stands within the predicate. -/
theorem carry?_places_starts :
    let text := "CREATE (p:P) WITH p, p.n STARTS WITH $x AS b SET p.k = b".toList
    Unquoted text ∧
      (∀ front back, text = front ++ back → WithAt front back →
        KeywordAt front back ∨ EndsInPredicateWord front) ∧
      ∃ places, insertAt ", _r".toList places 0 text =
          "CREATE (p:P) WITH p, p.n STARTS, _r WITH $x AS b SET p.k = b".toList ∧
        ∀ place ∈ places, ∃ (p : Projection) (f b : List Char), p.In ListEnd text ∧
          ¬EndsInPredicateLetters p.before ∧ p.UpToPredicate f b ∧ (b = [] → place = p.place) ∧
          place = p.before.length + p.opening.length + (Text.trimEnd f).length := by
  intro text
  have hq : Unquoted text := by decide
  have hword : EndsInPredicateWord (text.take 32) := by
    refine ⟨"CREATE (p:P) WITH p, p.n ".toList, "STARTS".toList, [' '], by decide,
      List.mem_cons_self, List.forall_mem_singleton.2 (by decide), fun c hc => ?_⟩
    obtain rfl : ' ' = c := Option.some.inj hc
    exact ⟨by decide, by decide, by decide⟩
  have hw : ∀ front back, text = front ++ back → WithAt front back →
      KeywordAt front back ∨ EndsInPredicateWord front := by
    refine forall_append_iff.2 fun i hi hwith => ?_
    have hwords : ∀ i ≤ text.length, WithAt (text.take i) (text.drop i) →
        KeywordAt (text.take i) (text.drop i) ∨ i = 32 := by decide +kernel
    rcases hwords i hi hwith with hkeyword | rfl
    · exact .inl hkeyword
    · exact .inr hword
  obtain ⟨places, hcarry, hplaces⟩ := carry?_places ", _r".toList "p".toList hq hw
  have hwidened : carry? ", _r".toList "p".toList text =
      some "CREATE (p:P) WITH p, p.n STARTS, _r WITH $x AS b SET p.k = b".toList := by
    decide +kernel
  exact ⟨hq, hw, places, Option.some.inj (hcarry.symm.trans hwidened), hplaces⟩

end TemporalGraph.Plan.Scope
