import Mathlib
import TemporalGraph.Proofs.Text.Bytes
import TemporalGraph.Regex.Replace
/-!
Where matches and their groups lie. Main statements: no search is cut short by its limit, matches
follow one another without overlap and there are only so many of them, what a group matched lies
within its match, and the replacement of a group changes no other part of the text, counted in
characters or in bytes.
-/

namespace TemporalGraph.Regex

/- Threads. -/

/-- What a thread that started at `start` has met of a text of `size` characters lies between the
two, and nothing of it lies further right than the thread. -/
structure Thread.Within (start size : Nat) (t : Thread) : Prop where
  start_le : start ≤ t.place
  place_le : t.place ≤ size
  opened : ∀ place ∈ t.opened, start ≤ place ∧ place ≤ t.place
  groups : ∀ g ∈ t.groups, start ≤ g.2.start ∧ g.2.start ≤ g.2.stop ∧ g.2.stop ≤ t.place

variable {program : Array Instruction} {text : Array Char} {start last : Nat} {t t' : Thread}

theorem Thread.within_initial (h : start ≤ text.size) :
    (⟨0, start, [], []⟩ : Thread).Within start text.size :=
  ⟨Nat.le_refl _, h, by simp, by simp⟩

theorem Thread.Within.at (h : t.Within start text.size) (target : Nat) :
    { t with instruction := target }.Within start text.size :=
  ⟨h.start_le, h.place_le, h.opened, h.groups⟩

theorem Thread.Within.next (h : t.Within start text.size) (ht : t' ∈ t.next program text) :
    t'.Within start text.size := by
  cases hi : program[t.instruction]? with
  | none => simp [Thread.next, hi] at ht
  | some i =>
    simp only [Thread.next, hi] at ht
    cases i with
    | take s =>
      obtain ⟨htake, ht⟩ := List.mem_ite_nil_right.1 ht
      obtain ⟨c, hc, -⟩ := (Option.any_eq_true _ _).1 htake
      have hplace : t.place < text.size := (Array.getElem?_eq_some_iff.1 hc).1
      rw [List.mem_singleton.1 ht]
      refine ⟨Nat.le_succ_of_le h.start_le, hplace, fun place hp => ?_, fun g hg => ?_⟩
      · exact (h.opened place hp).imp_right Nat.le_succ_of_le
      · exact (h.groups g hg).imp_right (.imp_right Nat.le_succ_of_le)
    | require l =>
      rw [List.mem_singleton.1 (List.mem_ite_nil_right.1 ht).2]
      exact h.at _
    | opening i =>
      rw [List.mem_singleton.1 ht]
      exact ⟨h.start_le, h.place_le,
        List.forall_mem_cons.2 ⟨⟨h.start_le, Nat.le_refl _⟩, h.opened⟩, h.groups⟩
    | closing i =>
      obtain ⟨instruction, place, opened, groups⟩ := t
      cases opened with
      | nil => cases ht
      | cons first opened =>
        obtain ⟨⟨hfirst, hplace⟩, hopened⟩ := List.forall_mem_cons.1 h.opened
        rw [List.mem_singleton.1 ht]
        exact ⟨h.start_le, h.place_le, hopened,
          List.forall_mem_cons.2 ⟨⟨hfirst, hplace, Nat.le_refl _⟩, h.groups⟩⟩
    | jump target =>
      rw [List.mem_singleton.1 ht]
      exact h.at target
    | fork preferred other =>
      rcases List.mem_pair.1 ht with rfl | rfl
      · exact h.at preferred
      · exact h.at other

theorem within_of_firstThrough {fuel : Nat} {tried : Tried} {ts : List Thread}
    (h : ∀ t ∈ ts, t.Within start text.size)
    (hf : (firstThrough program text fuel tried ts).1 = some t) : t.Within start text.size := by
  induction fuel generalizing tried ts with
  | zero => cases hf
  | succ fuel ih =>
    cases ts with
    | nil => cases hf
    | cons u ts =>
      obtain ⟨hu, hts⟩ := List.forall_mem_cons.1 h
      rw [firstThrough] at hf
      split at hf
      · exact ih hts hf
      · split at hf
        · cases hf
          exact hu
        · refine ih (fun v hv => ?_) hf
          exact (List.mem_append.1 hv).elim hu.next (hts v)

/- The number of steps. -/

def untried (program : Array Instruction) (text : Array Char) (tried : Tried) :
    Finset (Nat × Nat) :=
  (Finset.range program.size ×ˢ Finset.range (text.size + 1)).filter fun p => ¬tried.contains p

variable {tried : Tried} {ts : List Thread} {fuel : Nat}

theorem card_untried_le (program : Array Instruction) (text : Array Char) (tried : Tried) :
    (untried program text tried).card ≤ program.size * (text.size + 1) := by
  refine (Finset.card_filter_le _ _).trans_eq ?_
  rw [Finset.card_product, Finset.card_range, Finset.card_range]

theorem untried_insert (p : Nat × Nat) :
    untried program text (tried.insert p) = (untried program text tried).erase p := by
  ext q
  simp only [untried, Finset.mem_filter, Finset.mem_erase, Std.HashSet.contains_insert,
    Bool.or_eq_true, beq_iff_eq, not_or, eq_comm (a := p)]
  tauto

theorem Thread.length_next_le (program : Array Instruction) (text : Array Char) (t : Thread) :
    (t.next program text).length ≤ 2 := by
  have hite (p : Prop) [Decidable p] (u : Thread) : (if p then [u] else []).length ≤ 2 := by
    split <;> simp
  cases hi : program[t.instruction]? with
  | none => simp [next, hi]
  | some i =>
    simp only [next, hi]
    cases i with
    | take s => exact hite _ _
    | require l => exact hite _ _
    | closing i => cases t.opened <;> simp
    | _ => simp

theorem Thread.Within.next_le (program : Array Instruction) (h : t.Within start text.size)
    (hnew : ¬tried.contains (t.instruction, t.place)) :
    2 * (untried program text (tried.insert (t.instruction, t.place))).card +
      (t.next program text).length ≤ 2 * (untried program text tried).card := by
  rw [untried_insert]
  by_cases hi : t.instruction < program.size
  · have hmem : (t.instruction, t.place) ∈ untried program text tried :=
      Finset.mem_filter.2 ⟨by simp [hi, Nat.lt_succ_of_le h.place_le], hnew⟩
    have hcard := Finset.card_erase_add_one hmem
    have hnext := t.length_next_le program text
    omega
  · have hnone : program[t.instruction]? = none := Array.getElem?_eq_none (Nat.not_lt.1 hi)
    have hnext : t.next program text = [] := by simp only [Thread.next, hnone]
    have hcard := Finset.card_erase_le (s := untried program text tried)
      (a := (t.instruction, t.place))
    rw [hnext, List.length_nil]
    omega

/-- A search that has more steps than pairs to try and threads to follow is not cut short. -/
theorem firstThrough_add (h : ∀ t ∈ ts, t.Within start text.size)
    (hf : 2 * (untried program text tried).card + ts.length < fuel) (more : Nat) :
    firstThrough program text (fuel + more) tried ts =
      firstThrough program text fuel tried ts := by
  induction fuel generalizing tried ts with
  | zero => omega
  | succ fuel ih =>
    rw [Nat.succ_add]
    cases ts with
    | nil => rfl
    | cons t ts =>
      obtain ⟨ht, hts⟩ := List.forall_mem_cons.1 h
      rw [List.length_cons] at hf
      rw [firstThrough, firstThrough]
      by_cases htried : tried.contains (t.instruction, t.place)
      · rw [if_pos htried, if_pos htried]
        exact ih hts (by omega)
      · have hstep := ht.next_le program htried
        rw [if_neg htried, if_neg htried, ih]
        · exact fun u hu => (List.mem_append.1 hu).elim ht.next (hts u)
        · rw [List.length_append]
          omega

theorem firstThrough_stepLimit (h : start ≤ text.size) (tried : Tried) (more : Nat) :
    firstThrough program text (stepLimit program text + more) tried [⟨0, start, [], []⟩] =
      firstThrough program text (stepLimit program text) tried [⟨0, start, [], []⟩] := by
  refine firstThrough_add (List.forall_mem_singleton.2 (Thread.within_initial h)) ?_ more
  have hcard := card_untried_le program text tried
  have hsize : (program.size + 1) * (text.size + 1) =
      program.size * (text.size + 1) + (text.size + 1) := Nat.succ_mul _ _
  rw [List.length_singleton, stepLimit, hsize]
  omega

/- Matches. -/

structure Match.Within (start size : Nat) (m : Match) : Prop where
  start_le : start ≤ m.span.start
  start_le_stop : m.span.start ≤ m.span.stop
  stop_le : m.span.stop ≤ size
  groups : ∀ g ∈ m.groups,
    m.span.start ≤ g.2.start ∧ g.2.start ≤ g.2.stop ∧ g.2.stop ≤ m.span.stop

variable {m : Match}

theorem Match.Within.mono (h : m.Within last text.size) (hle : start ≤ last) :
    m.Within start text.size :=
  ⟨Nat.le_trans hle h.start_le, h.start_le_stop, h.stop_le, h.groups⟩

theorem Match.Within.group? (h : m.Within start text.size) {group : Nat} {s : Span}
    (hs : m.group? group = some s) :
    m.span.start ≤ s.start ∧ s.start ≤ s.stop ∧ s.stop ≤ m.span.stop := by
  rw [Match.group?] at hs
  split at hs
  · cases hs
    exact ⟨Nat.le_refl _, h.start_le_stop, Nat.le_refl _⟩
  · obtain ⟨g, hg, rfl⟩ := Option.map_eq_some_iff.1 hs
    exact h.groups g (List.mem_of_find?_eq_some hg)

theorem within_of_firstMatchFrom {count : Nat} {tried : Tried}
    (hc : start + count ≤ text.size + 1)
    (hm : firstMatchFrom program text count start tried = some m) :
    m.Within start text.size := by
  induction count generalizing start tried with
  | zero => cases hm
  | succ count ih =>
    rw [firstMatchFrom] at hm
    split at hm
    · next t tried' ht =>
      cases hm
      have hwithin : t.Within start text.size := by
        refine within_of_firstThrough (List.forall_mem_singleton.2 ?_) (congrArg Prod.fst ht)
        exact Thread.within_initial (by omega)
      exact ⟨Nat.le_refl _, hwithin.start_le, hwithin.place_le, hwithin.groups⟩
    · exact (ih (by omega) hm).mono (Nat.le_succ start)

theorem within_of_nextMatch (h : start ≤ text.size + 1)
    (hm : nextMatch program text start = some m) : m.Within start text.size :=
  within_of_firstMatchFrom (by omega) hm

def following? (program : Array Instruction) (text : Array Char) (last : Nat) : Option Match :=
  match nextMatch program text last with
  | some m => if m.span = ⟨last, last⟩ then nextMatch program text (last + 1) else some m
  | none => none

theorem matchesBehind_succ (program : Array Instruction) (text : Array Char) (count last : Nat) :
    matchesBehind program text (count + 1) last =
      match following? program text last with
      | some m => m :: matchesBehind program text count m.span.stop
      | none => [] := rfl

theorem within_of_following? (h : last ≤ text.size) (hm : following? program text last = some m) :
    m.Within last text.size ∧ last < m.span.stop := by
  rw [following?] at hm
  split at hm
  · next n hn =>
    split at hm
    · have hwithin := within_of_nextMatch (Nat.succ_le_succ h) hm
      exact ⟨hwithin.mono (Nat.le_succ last),
        Nat.lt_of_lt_of_le hwithin.start_le hwithin.start_le_stop⟩
    · next hne =>
      cases hm
      have hwithin := within_of_nextMatch (Nat.le_succ_of_le h) hn
      refine ⟨hwithin, Nat.lt_of_not_le fun hle => hne ?_⟩
      obtain ⟨⟨mstart, mstop⟩, groups⟩ := m
      have hstart := hwithin.start_le
      have hstop := hwithin.start_le_stop
      simp only [Span.mk.injEq] at hstart hstop hle ⊢
      omega
  · cases hm

theorem length_matchesBehind_le {count : Nat} (h : last ≤ text.size) :
    (matchesBehind program text count last).length ≤ text.size - last := by
  induction count generalizing last with
  | zero => exact Nat.zero_le _
  | succ count ih =>
    rw [matchesBehind_succ]
    cases hm : following? program text last with
    | none => exact Nat.zero_le _
    | some m =>
      obtain ⟨hwithin, hlt⟩ := within_of_following? h hm
      have hle := ih hwithin.stop_le
      have hstop := hwithin.stop_le
      simp only [List.length_cons]
      omega

theorem take_matchesBehind (program : Array Instruction) (text : Array Char) (count n last : Nat) :
    (matchesBehind program text count last).take n =
      matchesBehind program text (min n count) last := by
  induction count generalizing n last with
  | zero => simp [matchesBehind]
  | succ count ih =>
    cases n with
    | zero => simp [matchesBehind]
    | succ n =>
      rw [Nat.succ_min_succ, matchesBehind_succ, matchesBehind_succ]
      cases following? program text last with
      | none => rfl
      | some m => simp only [List.take_succ_cons, ih]

theorem pairwise_matchesBehind {count : Nat} (h : last ≤ text.size) :
    (∀ m ∈ matchesBehind program text count last, m.Within last text.size) ∧
      (matchesBehind program text count last).Pairwise fun m n => m.span.stop ≤ n.span.start := by
  induction count generalizing last with
  | zero => exact ⟨by simp [matchesBehind], .nil⟩
  | succ count ih =>
    rw [matchesBehind_succ]
    cases hm : following? program text last with
    | none => exact ⟨by simp, .nil⟩
    | some m =>
      obtain ⟨hwithin, hlt⟩ := within_of_following? h hm
      obtain ⟨hall, hpair⟩ := ih hwithin.stop_le
      refine ⟨List.forall_mem_cons.2 ⟨hwithin, fun n hn => ?_⟩, List.pairwise_cons.2 ⟨?_, hpair⟩⟩
      · exact (hall n hn).mono (Nat.le_of_lt hlt)
      · exact fun n hn => (hall n hn).start_le

/- Replacing a span. -/

namespace Span

/-- The span has its ends in order within the text, and counted in bytes they stand between two
characters each. -/
structure Cuts (text : List Char) (s : Span) : Prop where
  start_le_stop : s.start ≤ s.stop
  stop_le_length : s.stop ≤ text.length
  isValid_start : String.Pos.Raw.IsValid (String.ofList text) ⟨(s.inBytes text).start⟩
  isValid_stop : String.Pos.Raw.IsValid (String.ofList text) ⟨(s.inBytes text).stop⟩

def part (s : Span) (text : List Char) : List Char := (text.take s.stop).drop s.start

theorem replace_part {s : Span} (h : s.start ≤ s.stop) (text : List Char) :
    s.replace text (s.part text) = text := by
  have hstart : text.take s.start = (text.take s.stop).take s.start := by
    rw [List.take_take, Nat.min_eq_left h]
  rw [replace, part, hstart, List.take_append_drop, List.take_append_drop]

theorem bytes_replace (s : Span) (text new : List Char) :
    Text.bytes (String.ofList (s.replace text new)) =
      (Text.bytes (String.ofList text)).take (s.inBytes text).start ++
        Text.bytes (String.ofList new) ++
        (Text.bytes (String.ofList text)).drop (s.inBytes text).stop := by
  rw [replace, Text.bytes_append, Text.bytes_append, inBytes, Text.take_bytes, Text.drop_bytes]

end Span

namespace Expr

theorem length_firstMatches_le (e : Expr) (text : Array Char) (count : Nat) :
    (e.firstMatches text count).length ≤ text.size + 1 := by
  cases count with
  | zero => exact Nat.zero_le _
  | succ count =>
    simp only [firstMatches]
    split
    · next m hm =>
      have hstop := (within_of_nextMatch (Nat.zero_le _) hm).stop_le
      have hle := @length_matchesBehind_le e.program text m.span.stop count hstop
      simp only [List.length_cons]
      omega
    · exact Nat.zero_le _

theorem take_firstMatches (e : Expr) (text : Array Char) (count n : Nat) :
    (e.firstMatches text count).take n = e.firstMatches text (min n count) := by
  cases count with
  | zero => simp [firstMatches]
  | succ count =>
    cases n with
    | zero => simp [firstMatches]
    | succ n =>
      rw [Nat.succ_min_succ]
      simp only [firstMatches]
      split
      · rw [List.take_succ_cons, take_matchesBehind]
      · rfl

theorem firstMatches_eq_take (e : Expr) (text : Array Char) (count : Nat) :
    e.firstMatches text count = (e.allMatches text).take count := by
  rw [allMatches, take_firstMatches]
  rcases Nat.le_total count (text.size + 1) with hle | hle
  · rw [Nat.min_eq_left hle]
  · have htake := take_firstMatches e text count (text.size + 1)
    rwa [List.take_of_length_le (length_firstMatches_le e text count), Nat.min_comm] at htake

theorem pairwise_allMatches (e : Expr) (text : Array Char) :
    (∀ m ∈ e.allMatches text, m.Within 0 text.size) ∧
      (e.allMatches text).Pairwise fun m n => m.span.stop ≤ n.span.start := by
  simp only [allMatches, firstMatches]
  split
  · next m hm =>
    have hwithin := within_of_nextMatch (Nat.zero_le _) hm
    obtain ⟨hall, hpair⟩ :=
      @pairwise_matchesBehind e.program text m.span.stop text.size hwithin.stop_le
    refine ⟨List.forall_mem_cons.2 ⟨hwithin, fun n hn => ?_⟩, List.pairwise_cons.2 ⟨?_, hpair⟩⟩
    · exact (hall n hn).mono (Nat.zero_le _)
    · exact fun n hn => (hall n hn).start_le
  · exact ⟨by simp, .nil⟩

variable {e : Expr} {text : List Char} {group k l : Nat} {s u : Span}

theorem groupSpan?_succ (e : Expr) (text : List Char) (group k : Nat) :
    e.groupSpan? text group (k + 1) =
      (e.allMatches text.toArray)[k]?.bind fun m => m.group? group := by
  rw [groupSpan?, firstMatches_eq_take, List.getElem?_take_of_lt (Nat.lt_succ_self k)]

theorem exists_match_of_groupSpan? (h : e.groupSpan? text group k = some s) :
    ∃ i m, k = i + 1 ∧ (e.allMatches text.toArray)[i]? = some m ∧ m.span.start ≤ s.start ∧
      s.start ≤ s.stop ∧ s.stop ≤ m.span.stop ∧ m.span.stop ≤ text.length := by
  cases k with
  | zero => cases h
  | succ i =>
    rw [groupSpan?_succ] at h
    obtain ⟨m, hm, hs⟩ := Option.bind_eq_some_iff.1 h
    have hwithin := (pairwise_allMatches e text.toArray).1 m (List.mem_of_getElem? hm)
    obtain ⟨hstart, hle, hstop⟩ := hwithin.group? hs
    exact ⟨i, m, rfl, hm, hstart, hle, hstop, hwithin.stop_le⟩

theorem stop_le_start_of_groupSpan? (hkl : k < l) (hs : e.groupSpan? text group k = some s)
    (hu : e.groupSpan? text group l = some u) : s.stop ≤ u.start := by
  obtain ⟨i, m, rfl, hm, -, -, hsm, -⟩ := exists_match_of_groupSpan? hs
  obtain ⟨j, n, rfl, hn, hnu, -⟩ := exists_match_of_groupSpan? hu
  obtain ⟨hi, rfl⟩ := List.getElem?_eq_some_iff.1 hm
  obtain ⟨hj, rfl⟩ := List.getElem?_eq_some_iff.1 hn
  have hij : i < j := Nat.lt_of_succ_lt_succ hkl
  have hmn := List.pairwise_iff_getElem.1 (pairwise_allMatches e text.toArray).2 i j hi hj hij
  exact Nat.le_trans hsm (Nat.le_trans hmn hnu)

theorem groupSpan?_of_length_lt (h : k = 0 ∨ (e.allMatches text.toArray).length < k) :
    e.groupSpan? text group k = none := by
  cases k with
  | zero => rfl
  | succ i =>
    have hi : (e.allMatches text.toArray).length ≤ i := by omega
    rw [groupSpan?_succ, List.getElem?_eq_none hi]
    rfl

theorem cuts_of_groupSpan? (h : e.groupSpan? text group k = some s) : s.Cuts text := by
  obtain ⟨i, m, -, -, -, hle, hstop, hlength⟩ := exists_match_of_groupSpan? h
  exact ⟨hle, Nat.le_trans hstop hlength, Text.isValid_byteLength_take text s.start,
    Text.isValid_byteLength_take text s.stop⟩

/-- Occurrences count the matches from 1, and there is no other one. What a group matched is cut out
of the text between characters, further right for each later match, and a replacement changes
nothing around it: neither a character nor a byte. -/
theorem replaceGroup_spans (e : Expr) (text : List Char) (group : Nat) :
    (∀ k, k = 0 ∨ (e.allMatches text.toArray).length < k →
      e.groupSpan? text group k = none ∧ ∀ new, e.replaceGroup text group k new = text) ∧
    (∀ k, e.groupSpan? text group (k + 1) =
      (e.allMatches text.toArray)[k]?.bind fun m => m.group? group) ∧
    (∀ k s, e.groupSpan? text group k = some s → s.Cuts text ∧
      (∀ new, e.tryReplaceGroup text group k new =
          some (text.take s.start ++ new ++ text.drop s.stop) ∧
        Text.bytes (String.ofList (e.replaceGroup text group k new)) =
          (Text.bytes (String.ofList text)).take (s.inBytes text).start ++
            Text.bytes (String.ofList new) ++
            (Text.bytes (String.ofList text)).drop (s.inBytes text).stop) ∧
      e.tryReplaceGroup text group k (s.part text) = some text) ∧
    ∀ k l s u, k < l → e.groupSpan? text group k = some s → e.groupSpan? text group l = some u →
      s.stop ≤ u.start ∧ (s.inBytes text).stop ≤ (u.inBytes text).start := by
  refine ⟨fun k hk => ?_, groupSpan?_succ e text group, fun k s hs => ?_,
    fun k l s u hkl hs hu => ?_⟩
  · have hnone : e.groupSpan? text group k = none := groupSpan?_of_length_lt hk
    exact ⟨hnone, fun new => by rw [replaceGroup, tryReplaceGroup, hnone]; rfl⟩
  · have hreplace (new : List Char) :
        e.tryReplaceGroup text group k new = some (s.replace text new) := by
      rw [tryReplaceGroup, hs, Option.map_some]
    have hcuts := cuts_of_groupSpan? hs
    refine ⟨hcuts, fun new => ⟨hreplace new, ?_⟩, ?_⟩
    · rw [replaceGroup, hreplace, Option.getD_some, Span.bytes_replace]
    · rw [hreplace, Span.replace_part hcuts.start_le_stop]
  · have hle := stop_le_start_of_groupSpan? hkl hs hu
    exact ⟨hle, Text.byteLength_take_le hle text⟩

/-- There are two matches: an empty one, in which the group takes no part, in front of a character
of two bytes, and one behind it. -/
theorem replaceGroup_spans_optional :
    let e : Expr := .repeated (.group 1 (.set (.single 'b'))) 0 (some 1) true
    let text := "éb".toList
    Expr.ofText "(b)?" = .ok e ∧ (e.allMatches text.toArray).length = 2 ∧
      e.groupSpan? text 1 1 = none ∧ e.groupSpan? text 1 2 = some ⟨1, 2⟩ ∧
      e.tryReplaceGroup text 1 2 "ü".toList = some "éü".toList ∧ e.groupSpan? text 1 3 = none ∧
      e.groupSpan? text 0 1 = some ⟨0, 0⟩ ∧ e.groupSpan? text 0 2 = some ⟨1, 2⟩ ∧
      (Span.inBytes ⟨0, 0⟩ text).stop ≤ (Span.inBytes ⟨1, 2⟩ text).start := by
  intro e text
  have he : Expr.ofText "(b)?" = .ok e := by cbv
  have hlength : (e.allMatches text.toArray).length = 2 := by cbv
  have habsent : e.groupSpan? text 1 1 = none := by cbv
  have hgroup : e.groupSpan? text 1 2 = some ⟨1, 2⟩ := by cbv
  have hfirst : e.groupSpan? text 0 1 = some ⟨0, 0⟩ := by cbv
  have hsecond : e.groupSpan? text 0 2 = some ⟨1, 2⟩ := by cbv
  obtain ⟨hnone, -, hsome, -⟩ := replaceGroup_spans e text 1
  obtain ⟨-, -, -, horder⟩ := replaceGroup_spans e text 0
  have hreplaced := ((hsome 2 _ hgroup).2.1 "ü".toList).1
  have hbeyond := (hnone 3 (.inr (by rw [hlength]; decide))).1
  exact ⟨he, hlength, habsent, hgroup, hreplaced, hbeyond, hfirst, hsecond,
    (horder 1 2 _ _ (by decide) hfirst hsecond).2⟩

end Expr

end TemporalGraph.Regex
