import Mathlib.Algebra.Order.Ring.Nat
import TemporalGraph.Proofs.Regex.Straight
import TemporalGraph.Proofs.Text.Bytes
import TemporalGraph.Regex.Replace
/-!
Quoted texts as expressions. Main statement: a quoted text with one group in it matches that text
and nothing else, so that replacing the group is one replacement in the first place where it occurs.
-/

namespace TemporalGraph.Regex

theorem CharSet.contains_single {c d : Char} : (single c).contains d ↔ c = d := by
  simp only [single, contains, Bool.and_eq_true, decide_eq_true_eq, ← Nat.le_antisymm_iff]
  rw [Char.toNat_inj]

def takes (cs : List Char) : List Instruction := cs.map fun c => .take (.single c)

theorem isStraight_takes {cs : List Char} : ∀ i ∈ takes cs, i.IsStraight := by
  intro i hi
  obtain ⟨c, -, rfl⟩ := List.mem_map.1 hi
  trivial

namespace Thread

theorem follow?_append (text : Array Char) (t : Thread) (is js : List Instruction) :
    t.follow? text (is ++ js) = (t.follow? text is).bind fun t => t.follow? text js :=
  List.foldlM_append

theorem follow?_cons (text : Array Char) (t : Thread) (i : Instruction) (is : List Instruction) :
    t.follow? text (i :: is) = (t.obey? text i).bind fun t => t.follow? text is :=
  List.foldlM_cons

theorem follow?_takes {cs text front rest : List Char} {t : Thread} (he : text = front ++ rest)
    (hp : t.place = front.length) :
    t.follow? text.toArray (takes cs) = (Text.afterLiteral? cs rest).map fun _ =>
      { t with instruction := t.instruction + cs.length, place := t.place + cs.length } := by
  induction cs generalizing t front rest with
  | nil => rfl
  | cons c cs ih =>
    have hget : text.toArray[t.place]? = rest.head? := by
      rw [he, hp, List.getElem?_toArray, List.getElem?_append_right (Nat.le_refl _), Nat.sub_self,
        List.head?_eq_getElem?]
    cases rest with
    | nil => simp [takes, follow?, obey?, hget, Text.afterLiteral?]
    | cons d rest =>
      by_cases hc : c = d
      · have hnext := ih (t := { t with instruction := t.instruction + 1, place := t.place + 1 })
          (he.trans (List.append_cons _ _ _)) (by simp [hp])
        simp only [takes, follow?] at hnext
        simp [takes, follow?, obey?, hget, Text.afterLiteral?, CharSet.contains_single, hc, hnext,
          Nat.add_assoc, Nat.add_comm 1]
      · simp [takes, follow?, obey?, hget, Text.afterLiteral?, CharSet.contains_single, hc]

end Thread

def markedCode (a b c : List Char) : List Instruction :=
  takes a ++ .opening 1 :: (takes b ++ .closing 1 :: takes c)

def markedEnd (a b c : List Char) (start : Nat) : Thread :=
  let opened := start + a.length
  let closed := opened + b.length
  ⟨a.length + 1 + b.length + 1 + c.length, closed + c.length, [], [(1, ⟨opened, closed⟩)]⟩

theorem isStraight_markedCode {a b c : List Char} : ∀ i ∈ markedCode a b c, i.IsStraight := by
  intro i hi
  simp only [markedCode, List.mem_append, List.mem_cons] at hi
  rcases hi with hi | rfl | hi | rfl | hi
  · exact isStraight_takes i hi
  · trivial
  · exact isStraight_takes i hi
  · trivial
  · exact isStraight_takes i hi

theorem follow?_markedCode {a b c text front rest : List Char} (he : text = front ++ rest) :
    (Thread.initial front.length).follow? text.toArray (markedCode a b c) =
      (Text.afterLiteral? (a ++ b ++ c) rest).map fun _ => markedEnd a b c front.length := by
  rw [markedCode, Thread.follow?_append, Thread.follow?_takes he rfl, List.append_assoc,
    Text.afterLiteral?_append_eq_bind]
  cases ha : Text.afterLiteral? a rest with
  | none => rfl
  | some rest₁ =>
    have he₁ : text = (front ++ a) ++ rest₁ := by
      rw [he, Text.afterLiteral?_eq_some_iff.1 ha, List.append_assoc]
    simp only [Option.map_some, Option.bind_some, Thread.follow?_cons, Thread.obey?]
    rw [Thread.follow?_append, Thread.follow?_takes he₁ (by simp [Thread.initial]),
      Text.afterLiteral?_append_eq_bind]
    cases hb : Text.afterLiteral? b rest₁ with
    | none => rfl
    | some rest₂ =>
      have he₂ : text = (front ++ a ++ b) ++ rest₂ := by
        rw [he₁, Text.afterLiteral?_eq_some_iff.1 hb, ← List.append_assoc]
      simp only [Option.map_some, Option.bind_some, Thread.follow?_cons, Thread.obey?]
      rw [Thread.follow?_takes he₂ (by simp [Thread.initial, Nat.add_assoc])]
      cases Text.afterLiteral? c rest₂ with
      | none => rfl
      | some rest₃ => simp [markedEnd, Thread.initial]

theorem nextMatch_markedCode (a b c text : List Char) :
    nextMatch (markedCode a b c).toArray text.toArray 0 =
      (Text.splitFirst? (a ++ b ++ c) text).map fun p =>
        let last := markedEnd a b c p.1.length
        ⟨⟨p.1.length, last.place⟩, last.groups⟩ := by
  have hfirst := firstMatchFrom_straight
    (fun t => (Text.afterLiteral? (a ++ b ++ c) t).map fun rest => ((), rest)) (markedEnd a b c)
    isStraight_markedCode
    (fun front rest he => by rw [follow?_markedCode he, Option.map_map]; rfl)
    (List.nil_append text).symm behind_empty
  rw [nextMatch, List.size_toArray]
  simpa [Text.splitFirst?, Function.comp_def] using hfirst

namespace Span

theorem replace_append {front old back text : List Char} (he : text = front ++ old ++ back)
    (new : List Char) :
    replace ⟨front.length, front.length + old.length⟩ text new = front ++ new ++ back := by
  rw [replace, he, ← List.length_append, List.drop_left, List.append_assoc front old back,
    List.take_left]

end Span

namespace Expr

/-- Replacing the group replaces it in the first place where the whole text stands. -/
theorem tryReplaceGroup_marked {e : Expr} {a b c : List Char}
    (h : e.program = (markedCode a b c).toArray) (text new : List Char) :
    e.tryReplaceGroup text 1 1 new =
      (Text.splitFirst? (a ++ b ++ c) text).map fun p => p.1 ++ a ++ new ++ c ++ p.2 := by
  rw [tryReplaceGroup, groupSpan?, firstMatches, h, nextMatch_markedCode]
  cases hs : Text.splitFirst? (a ++ b ++ c) text with
  | none => rfl
  | some p =>
    have he : text = (p.1 ++ a) ++ b ++ (c ++ p.2) := by
      rw [Text.splitFirst?_eq_append hs]
      simp only [List.append_assoc]
    have hreplace := Span.replace_append he new
    simpa [Match.group?, markedEnd] using hreplace

end Expr

/- Reading. -/

theorem metaCharacters_eq : metaCharacters = ['\\', '.', '+', '*', '?', '(', ')', '|', '[', ']',
    '\x7b', '\x7d', '^', '$', '#', '&', '-', '~'] := by
  decide +kernel

def quoted (cs : List Char) : List Char :=
  cs.flatMap fun c => if metaCharacters.contains c then ['\\', c] else [c]

theorem toList_quote (s : String) : (quote s).toList = quoted s.toList := String.toList_ofList

theorem quoted_append (cs ds : List Char) : quoted (cs ++ ds) = quoted cs ++ quoted ds :=
  List.flatMap_append

theorem length_le_length_quoted (cs : List Char) : cs.length ≤ (quoted cs).length := by
  induction cs with
  | nil => exact Nat.le_refl 0
  | cons c cs ih =>
    rw [quoted, List.flatMap_cons, List.length_append, List.length_cons, ← quoted]
    split
    · rw [List.length_cons, List.length_singleton]
      omega
    · rw [List.length_singleton]
      omega

def ReaderState.plain (rest : List Char) (groups : Nat) : ReaderState := { rest, groups }

namespace Reader

variable {α β : Type} {rest : List Char} {groups : Nat}

@[simp] theorem bind_apply (r : Reader α) (f : α → Reader β) (s : ReaderState) :
    (r >>= f) s = (r s).bind fun p => f p.1 p.2 := rfl

@[simp] theorem pure_apply (a : α) (s : ReaderState) : (pure a : Reader α) s = some (a, s) := rfl

@[simp] theorem map_apply (f : α → β) (r : Reader α) (s : ReaderState) :
    (f <$> r) s = (r s).map fun p => (f p.1, p.2) := by
  change (r s).bind (fun p => some (f p.1, p.2)) = _
  cases r s <;> rfl

@[simp] theorem peek_plain :
    peek (.plain rest groups) = some (rest.head?, .plain rest groups) := rfl

@[simp] theorem flags_plain : flags (.plain rest groups) = some ({}, .plain rest groups) := rfl

@[simp] theorem next_plain (c : Char) :
    next (.plain (c :: rest) groups) = some (c, .plain rest groups) := rfl

@[simp] theorem skipSpace_plain :
    skipSpace (.plain rest groups) = some ((), .plain rest groups) := rfl

@[simp] theorem drop_plain (n : Nat) :
    drop n (.plain rest groups) = some ((), .plain (rest.drop n) groups) := rfl

@[simp] theorem isNext_plain (text : String) :
    isNext text (.plain rest groups) =
      some (text.toList.isPrefixOf rest, .plain rest groups) := rfl

@[simp] theorem accept_plain (text : String) :
    accept text (.plain rest groups) =
      if text.toList.isPrefixOf rest then some (true, .plain (rest.drop text.length) groups)
      else some (false, .plain rest groups) := rfl

@[simp] theorem newGroup_plain :
    newGroup (.plain rest groups) = some (groups, .plain rest (groups + 1)) := rfl

@[simp] theorem setFlags_plain :
    setFlags {} (.plain rest groups) = some ((), .plain rest groups) := rfl

end Reader

section

variable {c : Char} {cs text rest : List Char} {fuel depth groups groups' : Nat}
  {items : List (Option Expr)} {e : Expr}

theorem readEscape_of_mem (hc : c ∈ metaCharacters) (rest : List Char) (groups : Nat) :
    readEscape (.plain (c :: rest) groups) = some (.char c, .plain rest groups) := by
  have he : isEscapable c := by simp [isEscapable, hc]
  have hall : metaCharacters.all fun c => c ∉ ['x', 'u', 'U', 'p', 'P', 'd', 's', 'w', 'D', 'S',
      'W', 'a', 'f', 't', 'n', 'r', 'v', 'A', 'z', 'b', 'B', '<', '>'] := by
    decide +kernel
  have hne := of_decide_eq_true (List.all_eq_true.1 hall c hc)
  simp only [List.mem_cons, List.not_mem_nil, or_false, not_or] at hne
  simp [readEscape, he, hne]

theorem readPrimitive_escape (hc : c ∈ metaCharacters) :
    readPrimitive (.plain ('\\' :: c :: rest) groups) =
      some (.set (.single c), .plain rest groups) := by
  simp [readPrimitive, pieceExpr, readEscape_of_mem hc]

theorem readPrimitive_plain (hc : c ∉ metaCharacters) :
    readPrimitive (.plain (c :: rest) groups) = some (.set (.single c), .plain rest groups) := by
  simp only [metaCharacters_eq, List.mem_cons, List.not_mem_nil, or_false, not_or] at hc
  simp [readPrimitive, pieceExpr, hc]

def structuralCharacters : List Char := [')', '|', '(', '[', '?', '*', '+', '\x7b']

theorem mem_metaCharacters_of_structural (hc : c ∈ structuralCharacters) :
    c ∈ metaCharacters := by
  have hall : structuralCharacters.all fun c => c ∈ metaCharacters := by decide +kernel
  exact of_decide_eq_true (List.all_eq_true.1 hall c hc)

theorem readAlternatives_primitive {before : Option Expr} (hc : c ∉ structuralCharacters) :
    readAlternatives (fuel + 1) depth items before (.plain (c :: rest) groups) =
      (readPrimitive >>= fun e => readAlternatives fuel depth (some e :: items) before)
        (.plain (c :: rest) groups) := by
  simp only [structuralCharacters, List.mem_cons, List.not_mem_nil, or_false, not_or] at hc
  rw [readAlternatives]
  simp [hc]

def letters (cs : List Char) : List Expr := cs.map fun c => .set (.single c)

theorem readAlternatives_quoted {before : Option Expr} :
    readAlternatives (fuel + cs.length) depth items before (.plain (quoted cs ++ rest) groups) =
      readAlternatives fuel depth ((letters cs).reverse.map some ++ items) before
        (.plain rest groups) := by
  induction cs generalizing items with
  | nil => rfl
  | cons c cs ih =>
    have hnext : readAlternatives (fuel + cs.length + 1) depth items before
        (.plain (quoted (c :: cs) ++ rest) groups) =
          readAlternatives (fuel + cs.length) depth (some (.set (.single c)) :: items) before
            (.plain (quoted cs ++ rest) groups) := by
      rw [quoted, List.flatMap_cons, ← quoted, List.append_assoc]
      split
      · next hc =>
        rw [List.cons_append, List.singleton_append,
          readAlternatives_primitive (c := '\\') (by decide)]
        simp [readPrimitive_escape (by simpa using hc)]
      · next hc =>
        have hplain : c ∉ metaCharacters := by simpa using hc
        rw [List.singleton_append, readAlternatives_primitive
          fun hs => hplain (mem_metaCharacters_of_structural hs)]
        simp [readPrimitive_plain hplain]
    rw [List.length_cons, ← Nat.add_assoc, hnext, ih]
    simp [letters]

theorem readAlternatives_end (h : rest = [] ∨ rest.head? = some ')') :
    readAlternatives (fuel + 1) depth items none (.plain rest groups) =
      some (sequence items, .plain rest groups) := by
  rw [readAlternatives]
  rcases h with rfl | h
  · simp
  · simp [h]

theorem readAlternatives_group {before : Option Expr} :
    readAlternatives (fuel + 1) depth items before (.plain ('(' :: rest) groups) =
      (readGroup fuel depth >>= fun g => readAlternatives fuel depth (g :: items) before)
        (.plain rest groups) := by
  rw [readAlternatives]
  simp

theorem readGroup_of_body (hd : depth < nestLimit) (ht : text.head? ≠ some '?')
    (hb : readAlternatives fuel (depth + 1) [] none (.plain text (groups + 1)) =
      some (e, .plain (')' :: rest) groups')) :
    readGroup (fuel + 1) depth (.plain text groups) =
      some (some (.group groups e), .plain rest groups') := by
  have hquery (cs : List Char) : ¬('?' :: cs <+: text) := by
    rintro ⟨back, rfl⟩
    exact ht rfl
  have hclosing : ")".length = 1 := by decide
  rw [readGroup]
  simp [hquery, hb, hclosing, Nat.not_le.2 hd]

def markedPattern (a b c : List Char) : List Char :=
  quoted a ++ '(' :: (quoted b ++ ')' :: quoted c)

def markedItems (a b c : List Char) : List Expr :=
  (letters c).reverse ++ .group 1 (sequence ((letters b).reverse.map some)) :: (letters a).reverse

theorem head?_quoted_ne {cs : List Char} : (quoted cs ++ ')' :: rest).head? ≠ some '?' := by
  cases cs with
  | nil => simp [quoted]
  | cons c cs =>
    rw [quoted, List.flatMap_cons]
    split
    · simp
    · next hc =>
      have hne : c ≠ '?' := by
        rintro rfl
        exact hc (by decide +kernel)
      simpa using hne

theorem readAlternatives_markedPattern {a b c : List Char}
    (hf : a.length + b.length + c.length + 3 ≤ fuel) :
    readAlternatives fuel 0 [] none (.plain (markedPattern a b c) 1) =
      some (sequence ((markedItems a b c).map some), .plain [] 2) := by
  obtain ⟨k, rfl⟩ : ∃ k, fuel = k + b.length + c.length + 1 + 1 + 1 + a.length :=
    ⟨fuel - (a.length + b.length + c.length + 3), by omega⟩
  have hbody : readAlternatives (k + b.length + c.length + 1) 1 [] none
      (.plain (quoted b ++ ')' :: quoted c) 2) =
        some (sequence ((letters b).reverse.map some), .plain (')' :: quoted c) 2) := by
    rw [show k + b.length + c.length + 1 = k + c.length + 1 + b.length by omega,
      readAlternatives_quoted, readAlternatives_end (.inr rfl), List.append_nil]
  have hrest (items : List (Option Expr)) :
      readAlternatives (k + b.length + c.length + 1 + 1) 0 items none (.plain (quoted c) 2) =
        some (sequence ((letters c).reverse.map some ++ items), .plain [] 2) := by
    rw [show k + b.length + c.length + 1 + 1 = k + b.length + 1 + 1 + c.length by omega,
      ← List.append_nil (quoted c), readAlternatives_quoted, readAlternatives_end (.inl rfl)]
  rw [markedPattern, readAlternatives_quoted, readAlternatives_group]
  rw [Reader.bind_apply, readGroup_of_body (by decide) head?_quoted_ne hbody]
  simp [markedItems, hrest]

end

/- The program of what is read. -/

def Expr.HasCode (e : Expr) (is : List Instruction) : Prop := ∀ start, e.code start = is

namespace Expr.HasCode

variable {e f : Expr} {is js : List Instruction}

theorem seq (he : e.HasCode is) (hf : f.HasCode js) : (Expr.seq e f).HasCode (is ++ js) := by
  intro start
  simp only [Expr.code, Code.append, he start, hf _]

theorem group (he : e.HasCode is) (i : Nat) :
    (Expr.group i e).HasCode (.opening i :: (is ++ [.closing i])) := by
  intro start
  simp only [Expr.code, he _]

end Expr.HasCode

/-- In a sequence the items stand last one first, and their codes in the order of the text. -/
theorem hasCode_sequence (items : List Expr) (h : ∀ e ∈ items, e.HasCode (e.code 0)) :
    (sequence (items.map some)).HasCode (items.reverse.flatMap fun e => e.code 0) := by
  have hfold (es : List Expr) (e : Expr) (is : List Instruction) (he : e.HasCode is)
      (hes : ∀ e ∈ es, e.HasCode (e.code 0)) :
      (es.foldl (fun acc e => Expr.seq e acc) e).HasCode
        (es.reverse.flatMap (fun e => e.code 0) ++ is) := by
    induction es generalizing e is with
    | nil => exact he
    | cons f es ih =>
      obtain ⟨hf, hes⟩ := List.forall_mem_cons.1 hes
      have hseq := ih _ _ (hf.seq he) hes
      simpa [List.flatMap_append] using hseq
  cases items with
  | nil => exact fun _ => rfl
  | cons e es =>
    obtain ⟨he, hes⟩ := List.forall_mem_cons.1 h
    simpa [sequence, List.flatMap_append] using hfold es e _ he hes

theorem weight_sequence_le (items : List Expr) :
    (sequence (items.map some)).weight ≤ (items.map Expr.weight).sum + 1 := by
  have hfold (es : List Expr) (e : Expr) :
      (es.foldl (fun acc e => Expr.seq e acc) e).weight = (es.map Expr.weight).sum + e.weight := by
    induction es generalizing e with
    | nil => simp
    | cons f es ih =>
      simp only [List.foldl_cons, ih, Expr.weight, List.map_cons, List.sum_cons]
      omega
  cases items with
  | nil => exact Nat.le_refl 1
  | cons e es =>
    simp [sequence, hfold]
    omega

theorem hasCode_of_mem_letters {cs : List Char} : ∀ e ∈ letters cs, e.HasCode (e.code 0) := by
  intro e he
  obtain ⟨c, -, rfl⟩ := List.mem_map.1 he
  exact fun _ => rfl

theorem flatMap_code_letters (cs : List Char) :
    (letters cs).flatMap (fun e => e.code 0) = takes cs := by
  induction cs with
  | nil => rfl
  | cons c cs ih => exact congrArg _ ih

theorem hasCode_letters (cs : List Char) :
    (sequence ((letters cs).reverse.map some)).HasCode (takes cs) := by
  have hcode := hasCode_sequence (letters cs).reverse
    fun e he => hasCode_of_mem_letters e (List.mem_reverse.1 he)
  rwa [List.reverse_reverse, flatMap_code_letters] at hcode

theorem program_marked (a b c : List Char) :
    (sequence ((markedItems a b c).map some)).program = (markedCode a b c).toArray := by
  have hgroup := (hasCode_letters b).group 1
  have hcode := hasCode_sequence (markedItems a b c) (by
    intro e he
    simp only [markedItems, List.mem_append, List.mem_cons, List.mem_reverse] at he
    rcases he with he | rfl | he
    · exact hasCode_of_mem_letters e he
    · rwa [hgroup 0]
    · exact hasCode_of_mem_letters e he)
  rw [Expr.program, hcode 0]
  simp only [markedItems, List.reverse_append, List.reverse_cons, List.reverse_reverse,
    List.flatMap_append, List.flatMap_cons, flatMap_code_letters, hgroup 0, markedCode,
    List.append_assoc, List.cons_append, List.nil_append]

theorem weight_single (c : Char) : (CharSet.single c).weight = c.utf8Size := by
  simp only [CharSet.single, CharSet.weight, Char.utf8Size, UInt32.le_iff_toNat_le, Char.toNat,
    UInt32.toNat_ofNatLT, ← Nat.lt_succ_iff]

theorem weight_letters (cs : List Char) :
    ((letters cs).map Expr.weight).sum = Text.byteLength cs := by
  induction cs with
  | nil => rfl
  | cons c cs ih =>
    rw [Text.byteLength, ← ih, ← weight_single]
    rfl

theorem weight_marked_le (a b c : List Char) :
    (sequence ((markedItems a b c).map some)).weight ≤
      Text.byteLength (a ++ b ++ c) + 4 := by
  have hgroup := weight_sequence_le (letters b).reverse
  have hwhole := weight_sequence_le (markedItems a b c)
  simp only [List.map_reverse, List.sum_reverse, weight_letters] at hgroup
  simp only [markedItems, List.map_append, List.map_cons, List.map_reverse, List.sum_append,
    List.sum_cons, List.sum_reverse, weight_letters, Expr.weight] at hwhole ⊢
  simp only [Text.byteLength_append]
  omega

theorem readExpr?_markedPattern {a b c : List Char}
    (hw : Text.byteLength (a ++ b ++ c) + 4 ≤ Expr.weightLimit) :
    readExpr? (String.ofList (markedPattern a b c)) =
      some (sequence ((markedItems a b c).map some), 2) := by
  have hfuel : a.length + b.length + c.length + 3 ≤ 2 * (markedPattern a b c).length + 2 := by
    have ha := length_le_length_quoted a
    have hb := length_le_length_quoted b
    have hc := length_le_length_quoted c
    simp only [markedPattern, List.length_append, List.length_cons]
    omega
  have hread := readAlternatives_markedPattern hfuel
  have hweight := (weight_marked_le a b c).trans hw
  rw [ReaderState.plain, ReaderState.plain] at hread
  simp [readExpr?, StateT.run, hread, hweight]

/-- A quoted text with one group in it is an expression, unless it is too large. Replacing the group
replaces it in the first place where the whole text stands. -/
theorem Expr.ofText_markedPattern {a b c : List Char}
    (hw : Text.byteLength (a ++ b ++ c) + 4 ≤ weightLimit) :
    ∃ e, ofText (String.ofList (markedPattern a b c)) = .ok e ∧ ∀ text new,
      e.tryReplaceGroup text 1 1 new =
        (Text.splitFirst? (a ++ b ++ c) text).map fun p => p.1 ++ a ++ new ++ c ++ p.2 := by
  refine ⟨_, ?_, tryReplaceGroup_marked (program_marked a b c)⟩
  rw [ofText, readExpr?_markedPattern hw]

end TemporalGraph.Regex
