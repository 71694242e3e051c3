import TemporalGraph.Plan.Create
import TemporalGraph.Proofs.Plan.Projection
import TemporalGraph.Proofs.Text.Bytes
import TemporalGraph.Proofs.Text.Search
/-!
Copying never goes back. Main statements: a scan of a list reads ASCII characters only, so that it
finds the same end in the bytes of a text; and if every clause starts outside quotes and brackets,
later lists end no earlier, so that a write succeeds.
-/

namespace TemporalGraph.Plan

namespace Scope

variable {text opening tail key extra : List Char} {places : List Nat} {copied place : Nat}

/- Ends of lists. -/

theorem toUpper_mem_of_isLetter {k c : Char} (hc : isWordByte c) (hfirst : ¬isLetter 'w' c)
    (hk : k ∈ "withdistinct".toList) (h : isLetter k c) : c.toUpper ∈ "ITHDSNC".toList := by
  have hupper : "withdistinct".toList.all fun k =>
      k = 'w' || "ITHDSNC".toList.contains k.toUpper := by decide
  simp only [isLetter, Bool.or_eq_true, Bool.and_eq_true, decide_eq_true_eq] at h
  rcases h with rfl | ⟨-, rfl⟩
  · have hletter := List.all_eq_true.1 hupper _ hk
    simp only [Bool.or_eq_true, decide_eq_true_eq, List.contains_iff_mem] at hletter
    rw [← Char.toUpper_toLower_eq_toUpper]
    exact hletter.resolve_left fun hw => hfirst (by simp [isLetter, hw])
  · revert hc
    decide

theorem Opens.toUpper_mem (h : Opens opening tail) {front back : List Char}
    (he : opening = front ++ back) (hfront : front ≠ []) {c : Char} (hc : c ∈ back)
    (hw : isWordByte c) : c.toUpper ∈ "ITHDSNC".toList := by
  obtain ⟨d, ds, rfl, -, hds⟩ := h.exists_cons
  obtain ⟨e, es, rfl⟩ := List.exists_cons_of_ne_nil hfront
  obtain ⟨-, rfl⟩ := List.cons.inj he
  have hbehind : c ∈ es ++ back := List.mem_append_right _ hc
  rcases h.letter_or_blank c (List.mem_cons_of_mem _ hbehind) with ⟨k, hk, hkc⟩ | hblank
  · exact toUpper_mem_of_isLetter hw (hds c hbehind) hk hkc
  · exact absurd hblank (not_isBlank_of_isWordByte hw)

theorem Opens.takeWhile_append (h : Opens opening tail) {front back : List Char}
    (he : opening = front ++ back) (hback : back ≠ []) :
    (back ++ tail).takeWhile isWordByte = back.takeWhile isWordByte := by
  have hshort : (back.takeWhile isWordByte).length ≠ back.length := by
    intro hlength
    have hall := List.takeWhile_eq_self_iff.1
      ((List.takeWhile_prefix isWordByte).eq_of_length hlength)
    obtain ⟨c, hc⟩ := Option.ne_none_iff_exists'.1 (mt List.getLast?_eq_none_iff.1 hback)
    have hlast : c ∈ opening.getLast? := by
      rwa [he, List.getLast?_append_of_ne_nil front hback]
    exact not_isBlank_of_isWordByte (hall c (List.mem_of_getLast? hc)) (h.last_isBlank c hlast)
  rw [List.takeWhile_append, if_neg hshort]

theorem Opens.not_endsAt (h : Opens opening tail) {front back : List Char}
    (he : opening = front ++ back) (hfront : front ≠ []) (hback : back ≠ []) (s : Scan) :
    ¬s.endsAt (back ++ tail) := by
  intro hend
  simp only [Scan.endsAt, Bool.and_eq_true, List.contains_iff_mem] at hend
  have hword := hend.2
  rw [h.takeWhile_append he hback] at hword
  -- Every keyword has a letter that is in neither `ITH` nor `DISTINCT`.
  have hkeywords : clauseKeywords.all fun k => k.toList.any (· ∉ "ITHDSNC".toList) := by decide
  have hother := List.all_eq_true.1 hkeywords _ hword
  rw [String.toList_ofList, List.any_map, List.any_eq_true] at hother
  obtain ⟨c, hc, hnot⟩ := hother
  have hmem : c ∈ back := (List.takeWhile_prefix isWordByte).subset hc
  exact absurd (h.toUpper_mem he hfront hmem (List.mem_takeWhile_imp hc)) (by simpa using hnot)

/-- A list ends before what opens a later one, or else where the later one ends, since no list ends
within what opens another. -/
theorem Projection.In.exists_before {p q : Projection} (hp : p.In ScanEnds text)
    (hq : q.In ScanEnds text) (hlt : p.before.length < q.before.length) :
    ∃ f, q.before = p.before ++ p.opening ++ f ∧
      (p.list.length ≤ f.length ∨ p.list = f ++ q.opening ++ q.list) := by
  obtain ⟨f, hf, he⟩ := hp.exists_append hq hlt
  have hsame (more : List Char) (hlist : p.list = f ++ q.opening ++ more)
      (hmore : more ++ p.rest = q.list ++ q.rest) : p.list = f ++ q.opening ++ q.list := by
    have hcut : Cut ScanEnds (q.before ++ q.opening) more p.rest := by
      have hcut := hp.cut
      rw [hlist, List.append_assoc] at hcut
      rw [hf]
      exact hcut.of_append.of_append
    rw [hlist, hcut.unique hq.cut hmore]
  refine ⟨f, hf, ?_⟩
  rcases List.append_eq_append_iff.1 he with ⟨m, rfl, -⟩ | ⟨m, hlist, hrest⟩
  · exact .inl (by simp)
  · rcases List.append_eq_append_iff.1 hrest with ⟨more, rfl, hmore⟩ | ⟨o, ho, hstop⟩
    · exact .inr (hsame more (by rw [hlist, List.append_assoc]) hmore.symm)
    · by_cases hnil : o = []
      · subst hnil
        rw [List.append_nil] at ho
        exact .inr (hsame [] (by rw [hlist, ho, List.append_nil]) hstop)
      · by_cases hm : m = []
        · exact .inl (by simp [hlist, hm])
        · have hends := hp.cut.stop (by simp [hstop, hnil])
          rw [hstop] at hends
          exact absurd hends (hq.opens.not_endsAt ho hm hnil _)

theorem Projection.In.place_le_place {p q : Projection} (hp : p.In ScanEnds text)
    (hq : q.In ScanEnds text) (hlt : p.before.length < q.before.length) : p.place ≤ q.place := by
  obtain ⟨f, hf, h⟩ := hp.exists_before hq hlt
  have hlength : q.before.length = p.before.length + p.opening.length + f.length := by
    rw [hf, List.length_append, List.length_append]
  rcases h with hle | hlist
  · have hplace := p.place_le_of_list
    have hbefore := hq.before_lt_place
    omega
  · have htrim := Text.length_trimEnd_append_le (f ++ q.opening) q.list
    rw [← hlist, List.length_append] at htrim
    simp only [Projection.place, Projection.items]
    omega

theorem exists_projection_of_passedEnd? {clause : Clause} (h : Outside (text.take clause.start))
    (hclause : clause ∈ clauses text) (hend : passedEnd? key text clause = some place) :
    ∃ p : Projection, p.In ScanEnds text ∧ clause.start = p.before.length ∧ place = p.place := by
  obtain ⟨before, opening, tail, he, hs, ho, rfl⟩ := mem_clauses_iff.1 hclause
  obtain ⟨-, -, rfl⟩ := (passedEnd?_eq_some_iff he).1 hend
  have houtside : Outside before := by simpa [he] using h
  exact ⟨_, scanned_in_of_outside he hs houtside ho, rfl, rfl⟩

theorem pairwise_passedEnds_of_outside
    (h : ∀ clause ∈ clauses text, Outside (text.take clause.start)) :
    (passedEnds key text).Pairwise (· ≤ ·) := by
  rw [passedEnds, List.pairwise_filterMap]
  refine List.Pairwise.imp_of_mem ?_ (pairwise_clausesFrom 0 false text)
  intro a b ha hb hlt x hx y hy
  obtain ⟨p, hp, ha, rfl⟩ := exists_projection_of_passedEnd? (h a ha) ha hx
  obtain ⟨q, hq, hb, rfl⟩ := exists_projection_of_passedEnd? (h b hb) hb hy
  exact hp.place_le_place hq (by omega)

theorem le_length_of_mem_passedEnds_of_outside
    (h : ∀ clause ∈ clauses text, Outside (text.take clause.start))
    (hplace : place ∈ passedEnds key text) : place ≤ text.length := by
  obtain ⟨clause, hclause, hend⟩ := List.mem_filterMap.1 hplace
  obtain ⟨p, hp, -, rfl⟩ := exists_projection_of_passedEnd? (h clause hclause) hclause hend
  exact hp.place_le_length

/- Insertion. -/

theorem isSome_insertAll?_iff : (insertAll? extra copied places text).isSome ↔
    (copied :: places).IsChain (· ≤ ·) := by
  induction places generalizing copied text with
  | nil => simp [insertAll?]
  | cons place places ih =>
    rw [List.isChain_cons_cons, insertAll?]
    by_cases hlt : place < copied
    · rw [if_pos hlt]
      simp [Nat.not_le.2 hlt]
    · rw [if_neg hlt, Option.isSome_map, ih]
      simp [Nat.not_lt.1 hlt]

theorem isSome_carry?_iff : (carry? extra key text).isSome ↔
    (passedEnds key text).Pairwise (· ≤ ·) := by
  rw [carry?, isSome_insertAll?_iff, List.isChain_iff_pairwise, List.pairwise_cons]
  simp

/- A scan of the bytes. -/

def byteChars (c : Char) : List Char := (String.utf8EncodeChar c).map fun b => Char.ofNat b.toNat

def byteView (text : List Char) : List Char :=
  (Text.bytes (String.ofList text)).map fun b => Char.ofNat b.toNat

variable {c : Char} {cs : List Char} {s : Scan}

theorem byteView_cons : byteView (c :: cs) = byteChars c ++ byteView cs := by
  simp only [byteView, byteChars, Text.bytes_ofList, List.flatMap_cons, List.map_append]

theorem length_byteChars (c : Char) : (byteChars c).length = c.utf8Size := by
  rw [byteChars, List.length_map, String.length_utf8EncodeChar]

theorem byteChars_of_ascii (h : c.toNat < 128) : byteChars c = [c] := by
  have hbyte : (UInt8.ofNat c.toNat).toNat = c.toNat := by
    rw [UInt8.toNat_ofNat']
    omega
  rw [byteChars, Text.utf8EncodeChar_of_ascii h, List.map_singleton, hbyte, Char.ofNat_toNat]

theorem le_of_mem_byteChars (h : 128 ≤ c.toNat) : ∀ d ∈ byteChars c, 128 ≤ d.toNat := by
  intro d hd
  obtain ⟨b, hb, rfl⟩ := List.mem_map.1 hd
  have hlt := b.toNat_lt
  rw [Char.toNat_ofNat, if_pos (.inl (by omega))]
  exact Text.le_of_mem_utf8EncodeChar h b hb

theorem byteChars_ne_nil (c : Char) : byteChars c ≠ [] := by
  simp [byteChars, String.utf8EncodeChar_ne_nil]

theorem not_isWordByte_of_wide (h : 128 ≤ c.toNat) : ¬isWordByte c := fun hw => by
  have hle := (toNat_of_isWordByte hw).2
  omega

theorem step_of_wide (hs : ∀ q ∈ s.quote, q.toNat < 128) (h : 128 ≤ c.toNat) :
    s.step c = { s with inWord := false } := by
  have hne {k : Char} (hk : k.toNat < 128) : c ≠ k := by
    rintro rfl
    omega
  have hquote : ¬Scan.isQuote c := by simp [Scan.isQuote, hne]
  have hopens : ¬Scan.opens c := by simp [Scan.opens, hne]
  have hcloses : ¬Scan.closes c := by simp [Scan.closes, hne]
  have hword : (isWordByte c || c = '.' || c = '$') = false := by
    simp [not_isWordByte_of_wide h, hne]
  obtain ⟨quote, d, inWord⟩ := s
  cases quote with
  | none => simp only [Scan.step, if_neg hquote, if_neg hopens, if_neg hcloses, hword]
  | some q => simp only [Scan.step, if_neg (hne (hs q rfl)), hword]

theorem not_endsAt_of_wide (h : 128 ≤ c.toNat) : ¬s.endsAt (c :: cs) := by
  intro hends
  simp only [Scan.endsAt, Bool.and_eq_true, List.contains_iff_mem] at hends
  have hword := hends.2
  rw [List.takeWhile_cons_of_neg (not_isWordByte_of_wide h)] at hword
  revert hword
  decide

theorem projectionLength_append_of_wide {wide : List Char} (hs : ∀ q ∈ s.quote, q.toNat < 128)
    (hne : wide ≠ []) (h : ∀ c ∈ wide, 128 ≤ c.toNat) (cs : List Char) :
    projectionLength s (wide ++ cs) =
      wide.length + projectionLength { s with inWord := false } cs := by
  induction wide generalizing s with
  | nil => exact absurd rfl hne
  | cons c wide ih =>
    obtain ⟨hc, hwide⟩ := List.forall_mem_cons.1 h
    rw [List.cons_append, projectionLength, if_neg (not_endsAt_of_wide hc), step_of_wide hs hc]
    cases wide with
    | nil => simp [Nat.add_comm]
    | cons d ds =>
      have hrest := ih (s := { s with inWord := false }) hs (List.cons_ne_nil d ds) hwide
      simp only [hrest, List.length_cons]
      omega

theorem quote_step_lt (hs : ∀ q ∈ s.quote, q.toNat < 128) (c : Char) :
    ∀ q ∈ (s.step c).quote, q.toNat < 128 := by
  obtain ⟨quote, d, inWord⟩ := s
  cases quote with
  | some q =>
    by_cases hc : c = q
    · simp [Scan.step, hc]
    · simpa [Scan.step, hc] using hs
  | none =>
    by_cases hquote : Scan.isQuote c
    · have hascii : c.toNat < 128 := by
        simp only [Scan.isQuote, Bool.or_eq_true, decide_eq_true_eq] at hquote
        rcases hquote with (rfl | rfl) | rfl
        all_goals decide
      simpa [Scan.step, hquote] using hascii
    · simp only [Scan.step, if_neg hquote]
      split_ifs
      all_goals simp

theorem takeWhile_byteView (text : List Char) :
    (byteView text).takeWhile isWordByte = text.takeWhile isWordByte := by
  induction text with
  | nil => rfl
  | cons c cs ih =>
    rw [byteView_cons]
    by_cases hc : c.toNat < 128
    · rw [byteChars_of_ascii hc, List.singleton_append, List.takeWhile_cons, ih,
        List.takeWhile_cons]
    · obtain ⟨d, ds, hbytes⟩ := List.exists_cons_of_ne_nil (byteChars_ne_nil c)
      have hd : 128 ≤ d.toNat := le_of_mem_byteChars (Nat.not_lt.1 hc) d (by simp [hbytes])
      rw [hbytes, List.cons_append, List.takeWhile_cons_of_neg (not_isWordByte_of_wide hd),
        List.takeWhile_cons_of_neg (not_isWordByte_of_wide (Nat.not_lt.1 hc))]

theorem projectionLength_byteView (hs : ∀ q ∈ s.quote, q.toNat < 128) (text : List Char) :
    projectionLength s (byteView text) =
      Text.byteLength (text.take (projectionLength s text)) := by
  induction text generalizing s with
  | nil => rfl
  | cons c cs ih =>
    rw [byteView_cons]
    by_cases hc : c.toNat < 128
    · have hends : s.endsAt (c :: byteView cs) = s.endsAt (c :: cs) := by
        simp only [Scan.endsAt, List.head?_cons, List.takeWhile_cons, takeWhile_byteView]
      rw [byteChars_of_ascii hc, List.singleton_append, projectionLength, projectionLength, hends]
      by_cases h : s.endsAt (c :: cs)
      · rw [if_pos h, if_pos h]
        rfl
      · have hsize : c.utf8Size = 1 := by
          rw [← length_byteChars, byteChars_of_ascii hc, List.length_singleton]
        rw [if_neg h, if_neg h, ih (quote_step_lt hs c), List.take_succ_cons, Text.byteLength,
          hsize, Nat.add_comm]
    · have hwide := Nat.not_lt.1 hc
      rw [projectionLength_append_of_wide hs (byteChars_ne_nil c) (le_of_mem_byteChars hwide),
        ih (by exact hs), projectionLength, if_neg (not_endsAt_of_wide hwide),
        step_of_wide hs hwide, List.take_succ_cons, Text.byteLength, length_byteChars]

end Scope

namespace Create

open Scope

/-- If every clause starts outside quotes and brackets, the lists that are widened end in the order
of the clauses and within the text. In bytes the scans end at the same places, between two
characters and in the same order. So nothing is copied backwards, and a statement that ends in the
construction and the terminal is written. -/
theorem apply_copies_forward {key text : List Char}
    (h : ∀ clause ∈ clauses text, Outside (text.take clause.start)) :
    (passedEnds key text).Pairwise (· ≤ ·) ∧
    (∀ place ∈ passedEnds key text, place ≤ text.length) ∧
    ((passedEnds key text).map fun place => Text.byteLength (text.take place)).Pairwise (· ≤ ·) ∧
    (∀ clause ∈ clauses text, projectionLength {} (byteView (text.drop clause.items)) =
      Text.byteLength ((text.drop clause.items).take
        (projectionLength {} (text.drop clause.items)))) ∧
    ∀ {typeName : String} {call : Call} {s : Statement} {c : Config} {front rest : List Char},
      call.resultKey.toList = key →
      Text.LastAt (terminal call.resultKey).toList s.query.toList front rest →
      Text.trimEnd front = text → ∃ query, apply typeName call s c = pure { s with query } := by
  have hsorted : (passedEnds key text).Pairwise (· ≤ ·) := pairwise_passedEnds_of_outside h
  refine ⟨hsorted, fun place => le_length_of_mem_passedEnds_of_outside h, ?_, ?_, ?_⟩
  · rw [List.pairwise_map]
    exact hsorted.imp fun hle => Text.byteLength_take_le hle text
  · exact fun clause _ => projectionLength_byteView (by simp) _
  · rintro typeName call s c front rest rfl hlast rfl
    have hcopied : (carry? carried call.resultKey.toList (Text.trimEnd front)).isSome :=
      isSome_carry?_iff.2 hsorted
    obtain ⟨widened, hw⟩ := Option.isSome_iff_exists.1 hcopied
    exact ⟨_, apply_of_carry? (Text.splitLast?_of_lastAt hlast) hw⟩

/-- Behind a dot no list ends, and yet a clause starts there: two lists have the same end. The blank
that takes two bytes stands in the first of them. -/
theorem apply_copies_forward_dot :
    let front := "CREATE (p:P \x7bn: '('\x7d) WITH p, x.WITH\u00a0 p, 1 AS n MATCH (m) WITH p"
    let text := front.toList
    let call : Call := ⟨"createPerson", some "p", .empty⟩
    let s : Statement := ⟨front ++ " WITH p RETURN p", .empty⟩
    (∀ clause ∈ clauses text, Outside (text.take clause.start)) ∧
      passedEnds ['p'] text = [47, 47, 64] ∧ (∀ place ∈ [47, 47, 64], place ≤ text.length) ∧
      ([47, 47, 64].map fun place => Text.byteLength (text.take place)).Pairwise (· ≤ ·) ∧
      projectionLength {} (text.drop 27) = 21 ∧ projectionLength {} (byteView (text.drop 27)) = 22 ∧
      ∃ query, apply "Person" call s {} = pure { s with query } := by
  intro front text call s
  have houtside : ∀ clause ∈ clauses text, Outside (text.take clause.start) := by decide +kernel
  have hends : passedEnds ['p'] text = [47, 47, 64] := by decide +kernel
  have hsplit : Text.splitLast? (terminal call.resultKey).toList s.query.toList =
      some (text ++ [' '], [' ', 'p']) := by decide +kernel
  have hchars : projectionLength {} (text.drop 27) = 21 := by decide +kernel
  obtain ⟨-, hplaces, hsorted, hbytes, hwritten⟩ := @apply_copies_forward ['p'] text houtside
  rw [hends] at hplaces hsorted
  have hlength := hbytes ⟨22, 27⟩ (by decide +kernel)
  rw [hchars] at hlength
  refine ⟨houtside, hends, hplaces, hsorted, hchars, hlength.trans (by decide +kernel), ?_⟩
  exact hwritten (by decide +kernel) (Text.lastAt_of_splitLast? hsplit) (by decide +kernel)

end Create

end TemporalGraph.Plan
