import Mathlib
import TemporalGraph.Plan.Scope
/-!
Where a list of items ends. Main statement: in a text without quotes, a scan of a list stops at the
first keyword that stands outside brackets and is no part of another word.
-/

namespace TemporalGraph.Plan.Scope

/- Brackets. -/

def stepDepth (depth : Nat) (c : Char) : Nat :=
  if Scan.opens c then depth + 1 else if Scan.closes c then depth - 1 else depth

/-- The number of brackets that a text leaves open. A bracket that closes none counts for
nothing. -/
def depth (text : List Char) : Nat := text.foldl stepDepth 0

def TopLevel (text : List Char) : Prop := depth text = 0

instance (text : List Char) : Decidable (TopLevel text) := inferInstanceAs (Decidable (_ = 0))

def Unquoted (text : List Char) : Prop := ∀ c ∈ text, ¬Scan.isQuote c

instance (text : List Char) : Decidable (Unquoted text) :=
  decidable_of_iff (text.all fun c => !Scan.isQuote c) (by simp [Unquoted])

theorem TopLevel.depth_append {a : List Char} (h : TopLevel a) (b : List Char) :
    depth (a ++ b) = depth b := by
  have ha : a.foldl stepDepth 0 = 0 := h
  rw [depth, List.foldl_append, ha, depth]

theorem TopLevel.append_iff {a b : List Char} (h : TopLevel a) :
    TopLevel (a ++ b) ↔ TopLevel b := by
  rw [TopLevel, h.depth_append, TopLevel]

theorem foldl_stepDepth_of_noBrackets {b : List Char}
    (h : ∀ c ∈ b, ¬Scan.opens c ∧ ¬Scan.closes c) (n : Nat) : b.foldl stepDepth n = n := by
  induction b with
  | nil => rfl
  | cons c b ih =>
    obtain ⟨⟨ho, hc⟩, hb⟩ := List.forall_mem_cons.1 h
    rw [List.foldl_cons, stepDepth, if_neg ho, if_neg hc, ih hb]

theorem depth_append_of_noBrackets (a : List Char) {b : List Char}
    (h : ∀ c ∈ b, ¬Scan.opens c ∧ ¬Scan.closes c) : depth (a ++ b) = depth a := by
  rw [depth, List.foldl_append, foldl_stepDepth_of_noBrackets h, depth]

/- Keywords. -/

/-- No keyword starts behind these: a word goes on, or a property or a parameter is named. -/
def joins (c : Char) : Bool := isWordByte c || c = '.' || c = '$'

theorem all_not_iff {p : Char → Bool} {last : Option Char} :
    last.all (fun c => !p c) ↔ ∀ c ∈ last, ¬p c := by
  simp [Option.all_eq_true]

structure KeywordAt (front back : List Char) : Prop where
  topLevel : TopLevel front
  start : ∀ c ∈ front.getLast?, ¬joins c
  word : String.ofList ((back.takeWhile isWordByte).map Char.toUpper) ∈ clauseKeywords

instance (front back : List Char) : Decidable (KeywordAt front back) :=
  decidable_of_iff (TopLevel front ∧ front.getLast?.all (fun c => !joins c) ∧
      String.ofList ((back.takeWhile isWordByte).map Char.toUpper) ∈ clauseKeywords)
    ⟨fun ⟨h, hs, hw⟩ => ⟨h, all_not_iff.1 hs, hw⟩, fun ⟨h, hs, hw⟩ => ⟨h, all_not_iff.2 hs, hw⟩⟩

theorem head_isAlpha_of_keyword {back : List Char}
    (h : String.ofList ((back.takeWhile isWordByte).map Char.toUpper) ∈ clauseKeywords) :
    back.head?.any Char.isAlpha := by
  have hfirst : ∀ k ∈ clauseKeywords, k.toList.head?.any Char.isUpper := by decide
  have hk := hfirst _ h
  rw [String.toList_ofList] at hk
  cases back with
  | nil => cases hk
  | cons c cs =>
    by_cases hc : isWordByte c
    · rw [List.takeWhile_cons_of_pos hc] at hk
      exact (Char.isUpper_toUpper_eq_isAlpha c).symm.trans hk
    · rw [List.takeWhile_cons_of_neg hc] at hk
      cases hk

theorem scan_of_unquoted {front : List Char} (h : Unquoted front) :
    front.foldl Scan.step {} = ⟨none, depth front, front.getLast?.any joins⟩ := by
  induction front using List.reverseRecOn with
  | nil => rfl
  | append_singleton front c ih =>
    have hfront : Unquoted front := fun d hd => h d (List.mem_append_left _ hd)
    have hc : ¬Scan.isQuote c := h c (by simp)
    have hdepth : depth (front ++ [c]) = stepDepth (depth front) c := by
      rw [depth, List.foldl_append, List.foldl_cons, List.foldl_nil, depth]
    rw [List.foldl_append, ih hfront, List.foldl_cons, List.foldl_nil, hdepth,
      List.getLast?_concat]
    simp only [Scan.step, if_neg hc, stepDepth, Option.any_some, joins]
    split
    · rfl
    · split
      · rfl
      · rfl

theorem endsAt_iff {front : List Char} (h : Unquoted front) (back : List Char) :
    (front.foldl Scan.step {}).endsAt back ↔ KeywordAt front back := by
  rw [scan_of_unquoted h]
  simp only [Scan.endsAt, Bool.and_eq_true, decide_eq_true_eq, Bool.not_eq_true',
    List.contains_iff_mem, Option.any_eq_false]
  constructor
  · rintro ⟨⟨⟨⟨-, hd⟩, hs⟩, -⟩, hw⟩
    exact ⟨hd, by simpa using hs, hw⟩
  · rintro ⟨hd, hs, hw⟩
    exact ⟨⟨⟨⟨rfl, hd⟩, by simpa using hs⟩, head_isAlpha_of_keyword hw⟩, hw⟩

/- Lists. -/

/-- `list` runs from behind `front` to the first place where `Ends` holds, or to the end. -/
structure Cut (Ends : List Char → List Char → Prop) (front list rest : List Char) : Prop where
  within : ∀ f b, list = f ++ b → b ≠ [] → ¬Ends (front ++ f) (b ++ rest)
  stop : rest ≠ [] → Ends (front ++ list) rest

variable {Ends Ends' : List Char → List Char → Prop} {front list list' rest rest' : List Char}

theorem Cut.exists_append (h : Cut Ends front list rest) (h' : Cut Ends' front list' rest')
    (hle : ∀ f b, Ends' f b → Ends f b) (he : list ++ rest = list' ++ rest') :
    ∃ more, list' = list ++ more ∧ rest = more ++ rest' := by
  rcases List.append_eq_append_iff.1 he with ⟨more, hlist, hrest⟩ | ⟨more, hlist, hrest⟩
  · exact ⟨more, hlist, hrest⟩
  · by_cases hm : more = []
    · subst hm
      exact ⟨[], by simpa using hlist.symm, by simpa using hrest.symm⟩
    · have hstop := h'.stop (by simp [hrest, hm])
      rw [hrest] at hstop
      exact absurd (hle _ _ hstop) (h.within _ _ hlist hm)

theorem Cut.unique (h : Cut Ends front list rest) (h' : Cut Ends front list' rest')
    (he : list ++ rest = list' ++ rest') : list' = list := by
  obtain ⟨more, rfl, hrest⟩ := h.exists_append h' (fun _ _ => id) he
  obtain ⟨less, hlist, -⟩ := h'.exists_append h (fun _ _ => id) he.symm
  have hlength := congrArg List.length hlist
  simp only [List.length_append] at hlength
  have hmore : more = [] := List.eq_nil_of_length_eq_zero (by omega)
  rw [hmore, List.append_nil]

theorem Cut.here {text : List Char} (h : text ≠ [] → Ends front text) : Cut Ends front [] text :=
  ⟨fun _ _ he hb => absurd (List.append_eq_nil_iff.1 he.symm).2 hb, by simpa using h⟩

theorem Cut.cons {c : Char} (hc : ¬Ends front (c :: list ++ rest))
    (h : Cut Ends (front ++ [c]) list rest) : Cut Ends front (c :: list) rest := by
  refine ⟨fun f b he hb => ?_, fun hr => by simpa using h.stop hr⟩
  cases f with
  | nil =>
    obtain rfl : c :: list = b := he
    simpa using hc
  | cons d f =>
    obtain ⟨rfl, hlist⟩ := List.cons.inj he
    simpa using h.within f b hlist hb

theorem Cut.of_append {part : List Char} (h : Cut Ends front (part ++ list) rest) :
    Cut Ends (front ++ part) list rest := by
  refine ⟨fun f b he hb => ?_, fun hr => by simpa using h.stop hr⟩
  rw [List.append_assoc]
  exact h.within (part ++ f) b (by rw [he, List.append_assoc]) hb

theorem Cut.congr (h : Cut Ends front list rest)
    (he : ∀ f b, front ++ (list ++ rest) = f ++ b → (Ends f b ↔ Ends' f b)) :
    Cut Ends' front list rest := by
  refine ⟨fun f b hlist hb hends => ?_, fun hr => ?_⟩
  · exact h.within f b hlist hb ((he _ _ (by simp [hlist])).2 hends)
  · exact (he _ _ (by simp)).1 (h.stop hr)

theorem exists_cut (Ends : List Char → List Char → Prop) (front text : List Char) :
    ∃ list rest, text = list ++ rest ∧ Cut Ends front list rest := by
  induction text generalizing front with
  | nil => exact ⟨[], [], rfl, .here fun h => absurd rfl h⟩
  | cons c cs ih =>
    by_cases hc : Ends front (c :: cs)
    · exact ⟨[], c :: cs, rfl, .here fun _ => hc⟩
    · obtain ⟨list, rest, rfl, h⟩ := ih (front ++ [c])
      exact ⟨c :: list, rest, rfl, h.cons hc⟩

theorem cut_projectionLength {s : Scan} {text : List Char}
    (h : ∀ f b, text = f ++ b → ((f.foldl Scan.step s).endsAt b ↔ Ends (front ++ f) b)) :
    Cut Ends front (text.take (projectionLength s text)) (text.drop (projectionLength s text)) := by
  induction text generalizing s front with
  | nil => exact .here fun h => absurd rfl h
  | cons c cs ih =>
    have hhere := h [] (c :: cs) rfl
    rw [List.append_nil] at hhere
    by_cases hs : s.endsAt (c :: cs)
    · rw [projectionLength, if_pos hs]
      exact .here fun _ => hhere.1 hs
    · rw [projectionLength, if_neg hs, List.take_succ_cons, List.drop_succ_cons]
      refine .cons ?_ (ih fun f b he => ?_)
      · rw [List.cons_append, List.take_append_drop]
        exact mt hhere.2 hs
      · rw [List.append_assoc]
        exact h (c :: f) b (congrArg _ he)

end TemporalGraph.Plan.Scope
