import TemporalGraph.Proofs.Plan.Keyword
import TemporalGraph.Proofs.Text.Blank
/-!
The items of a list. Main statement: cutting a list at its commas finds a name among the items
exactly if the name, with blanks around it, fills the space between two commas outside brackets.
-/

namespace TemporalGraph.Plan.Scope

/- Names and blanks are no punctuation. -/

theorem toNat_of_isWordByte {c : Char} (h : isWordByte c) : 48 ≤ c.toNat ∧ c.toNat ≤ 122 := by
  have hz : 'z'.val.toNat = 122 := rfl
  have hZ : 'Z'.val.toNat = 90 := rfl
  have h9 : '9'.val.toNat = 57 := rfl
  simp only [isWordByte, Char.isAlphanum, Char.isAlpha, Char.isUpper, Char.isLower, Char.isDigit,
    Bool.or_eq_true, Bool.and_eq_true, decide_eq_true_eq, UInt32.le_iff_toNat_le, ge_iff_le] at h
  have hval : c.toNat = c.val.toNat := rfl
  rcases h with h | rfl
  · have h0 : '0'.val.toNat = 48 := rfl
    have hA : 'A'.val.toNat = 65 := rfl
    have ha : 'a'.val.toNat = 97 := rfl
    omega
  · decide

theorem not_isBlank_of_isWordByte {c : Char} (h : isWordByte c) : ¬Text.isBlank c := by
  have hc := toNat_of_isWordByte h
  simp only [Text.isBlank, Bool.or_eq_true, Bool.and_eq_true, decide_eq_true_eq, beq_iff_eq]
  omega

def isPunctuation (c : Char) : Bool := Scan.opens c || Scan.closes c || c = ','

theorem not_mem_of_all_not {p : Char → Bool} {ds : List Char} {c : Char}
    (hp : ds.all fun d => !p d) (h : p c) : c ∉ ds := by
  intro hc
  have hnot := List.all_eq_true.1 hp c hc
  rw [h] at hnot
  cases hnot

theorem not_isPunctuation {p : Char → Bool} {c : Char}
    (hp : ['(', '[', '\x7b', ')', ']', '\x7d', ','].all fun d => !p d) (h : p c) :
    ¬isPunctuation c := fun hc =>
  not_mem_of_all_not hp h (by simpa [isPunctuation, Scan.opens, Scan.closes, or_assoc] using hc)

theorem not_isQuote {p : Char → Bool} {c : Char}
    (hp : ['\'', '"', '\x60'].all fun d => !p d) (h : p c) : ¬Scan.isQuote c := fun hc =>
  not_mem_of_all_not hp h (by simpa [Scan.isQuote, or_assoc] using hc)

theorem not_isPunctuation_of_isBlank {c : Char} (h : Text.isBlank c) : ¬isPunctuation c :=
  not_isPunctuation (by decide) h

theorem not_isPunctuation_of_isWordByte {c : Char} (h : isWordByte c) : ¬isPunctuation c :=
  not_isPunctuation (by decide) h

theorem depth_append_of_noPunctuation (a : List Char) {b : List Char}
    (h : ∀ c ∈ b, ¬isPunctuation c) : depth (a ++ b) = depth a :=
  depth_append_of_noBrackets a fun c hc =>
    ⟨fun ho => h c hc (by simp [isPunctuation, ho]), fun hs => h c hc (by simp [isPunctuation, hs])⟩

def Padded (key item : List Char) : Prop :=
  ∃ lead trail, item = lead ++ (key ++ trail) ∧ (∀ c ∈ lead, Text.isBlank c) ∧
    ∀ c ∈ trail, Text.isBlank c

/-- The key is one of the items: what stands between two commas outside brackets, or between a comma
and an end. -/
def HasItem (key items : List Char) : Prop :=
  ∃ front item back, items = front ++ (item ++ back) ∧ Padded key item ∧
    (front = [] ∨ ∃ f, front = f ++ [','] ∧ TopLevel f) ∧ ∀ c ∈ back.head?, c = ','

variable {key item items f b : List Char} {d : Nat}

theorem Padded.not_isPunctuation (hk : ∀ c ∈ key, isWordByte c) (h : Padded key item) :
    ∀ c ∈ item, ¬isPunctuation c := by
  obtain ⟨lead, trail, rfl, hlead, htrail⟩ := h
  intro c hc
  rcases List.mem_append.1 hc with hc | hc
  · exact not_isPunctuation_of_isBlank (hlead c hc)
  · rcases List.mem_append.1 hc with hc | hc
    · exact not_isPunctuation_of_isWordByte (hk c hc)
    · exact not_isPunctuation_of_isBlank (htrail c hc)

theorem Padded.topLevel (hk : ∀ c ∈ key, isWordByte c) (h : Padded key item) : TopLevel item :=
  depth_append_of_noPunctuation [] (h.not_isPunctuation hk)

theorem Padded.not_mem (hk : ∀ c ∈ key, isWordByte c) (h : Padded key item) : ',' ∉ item :=
  fun hc => h.not_isPunctuation hk _ hc rfl

theorem trim_eq_iff (hk : ∀ c ∈ key, isWordByte c) : Text.trim item = key ↔ Padded key item := by
  constructor
  · rintro rfl
    obtain ⟨lead, he, hlead⟩ := Text.exists_trimStart item
    obtain ⟨trail, he', htrail⟩ := Text.trimEnd_append_rest (Text.trimStart item)
    exact ⟨lead, trail, by rw [Text.trim, ← he', ← he], hlead, htrail⟩
  · rintro ⟨lead, trail, rfl, hlead, htrail⟩
    have hlast : ∀ c ∈ key.getLast?, ¬Text.isBlank c := fun c hc =>
      not_isBlank_of_isWordByte (hk c (List.mem_of_getLast? hc))
    rw [Text.trim, Text.trimStart_append_blank hlead]
    cases key with
    | nil =>
      have hnil : Text.trimStart trail = [] := by
        simpa [Text.trimStart] using Text.trimStart_append_blank htrail []
      rw [List.nil_append, hnil]
      rfl
    | cons k ks =>
      have hk' : ¬Text.isBlank k := not_isBlank_of_isWordByte (hk k List.mem_cons_self)
      rw [Text.trimStart_of_head (by simpa using hk'), Text.trimEnd_append_of_last hlast htrail]

/- Cutting at the commas. -/

/-- No comma stands outside brackets, if `d` are open in front. -/
def NoComma (d : Nat) (text : List Char) : Prop :=
  ∀ f b, text = f ++ ',' :: b → f.foldl stepDepth d ≠ 0

theorem noComma_cons_iff {c : Char} {cs : List Char} :
    NoComma d (c :: cs) ↔ ¬(c = ',' ∧ d = 0) ∧ NoComma (stepDepth d c) cs := by
  constructor
  · intro h
    refine ⟨fun ⟨hc, hd⟩ => h [] cs (by rw [hc]; rfl) hd, fun f b he => ?_⟩
    exact h (c :: f) b (by rw [he]; rfl)
  · rintro ⟨hc, h⟩ f b he
    cases f with
    | nil => exact fun hd => hc ⟨(List.cons.inj he).1, hd⟩
    | cons x f =>
      obtain ⟨rfl, hcs⟩ := List.cons.inj he
      exact h f b hcs

theorem splitItems_cons {c : Char} {cs : List Char} (hc : ¬(c = ',' ∧ d = 0)) :
    splitItems d (c :: cs) = match splitItems (stepDepth d c) cs with
      | item :: items => (c :: item) :: items
      | [] => [[c]] := by
  have hc : ¬(c = ',' && d = 0) = true := by simpa using hc
  rw [splitItems, if_neg hc]
  rfl

theorem splitItems_of_noComma (h : NoComma d items) : splitItems d items = [items] := by
  induction items generalizing d with
  | nil => rfl
  | cons c cs ih =>
    obtain ⟨hc, hcs⟩ := noComma_cons_iff.1 h
    rw [splitItems_cons hc, ih hcs]

theorem splitItems_append (h : NoComma d f) (hf : f.foldl stepDepth d = 0) (b : List Char) :
    splitItems d (f ++ ',' :: b) = f :: splitItems 0 b := by
  induction f generalizing d with
  | nil =>
    obtain rfl : d = 0 := hf
    rfl
  | cons c cs ih =>
    obtain ⟨hc, hcs⟩ := noComma_cons_iff.1 h
    rw [List.cons_append, splitItems_cons hc, ih hcs hf]

theorem noComma_or_exists_first (d : Nat) (items : List Char) :
    NoComma d items ∨
      ∃ f b, items = f ++ ',' :: b ∧ NoComma d f ∧ f.foldl stepDepth d = 0 := by
  induction items generalizing d with
  | nil => exact .inl fun f b he => by simp at he
  | cons c cs ih =>
    by_cases hc : c = ',' ∧ d = 0
    · obtain ⟨rfl, rfl⟩ := hc
      exact .inr ⟨[], cs, rfl, fun f b he => by simp at he, rfl⟩
    · rcases ih (stepDepth d c) with h | ⟨f, b, rfl, hf, hd⟩
      · exact .inl (noComma_cons_iff.2 ⟨hc, h⟩)
      · exact .inr ⟨c :: f, b, rfl, noComma_cons_iff.2 ⟨hc, hf⟩, hd⟩

theorem topLevel_append_comma (h : TopLevel f) : TopLevel (f ++ [',']) := by
  rw [h.append_iff]
  rfl

theorem hasItem_of_noComma (hk : ∀ c ∈ key, isWordByte c) (h : NoComma 0 items) :
    HasItem key items ↔ Padded key items := by
  constructor
  · rintro ⟨front, item, back, rfl, hitem, hfront, hback⟩
    rcases hfront with rfl | ⟨f, rfl, hf⟩
    · cases back with
      | nil => simpa using hitem
      | cons c b =>
        obtain rfl : c = ',' := hback c rfl
        exact absurd (hitem.topLevel hk) (h item b rfl)
    · exact absurd hf (h f (item ++ back) (by simp))
  · exact fun h => ⟨[], items, [], by simp, h, .inl rfl, by simp⟩

theorem hasItem_append_comma (hk : ∀ c ∈ key, isWordByte c) (h : NoComma 0 f) (hf : TopLevel f) :
    HasItem key (f ++ ',' :: b) ↔ Padded key f ∨ HasItem key b := by
  constructor
  · rintro ⟨front, item, back, he, hitem, hfront, hback⟩
    rcases hfront with rfl | ⟨f', rfl, hf'⟩
    · left
      rw [List.nil_append] at he
      rcases List.append_eq_append_iff.1 he with ⟨m, rfl, hm⟩ | ⟨m, rfl, hm⟩
      · cases m with
        | nil => simpa using hitem
        | cons c m =>
          obtain ⟨rfl, -⟩ := List.cons.inj hm
          exact absurd (by simp) (hitem.not_mem hk)
      · cases m with
        | nil => simpa using hitem
        | cons c m =>
          rw [hm] at hback
          obtain rfl : c = ',' := hback c rfl
          exact absurd (hitem.topLevel hk) (h item m rfl)
    · right
      rw [List.append_assoc, List.singleton_append] at he
      rcases List.append_eq_append_iff.1 he with ⟨m, rfl, hm⟩ | ⟨m, rfl, hm⟩
      · cases m with
        | nil => exact ⟨[], item, back, (List.cons.inj hm).2, hitem, .inl rfl, hback⟩
        | cons c m =>
          obtain ⟨rfl, rfl⟩ := List.cons.inj hm
          have hm : TopLevel m := by
            rw [← List.singleton_append, ← List.append_assoc,
              (topLevel_append_comma hf).append_iff] at hf'
            exact hf'
          exact ⟨m ++ [','], item, back, by simp, hitem, .inr ⟨m, rfl, hm⟩, hback⟩
      · cases m with
        | nil => exact ⟨[], item, back, (List.cons.inj hm).2.symm, hitem, .inl rfl, hback⟩
        | cons c m =>
          obtain ⟨rfl, -⟩ := List.cons.inj hm
          exact absurd hf' (h f' m rfl)
  · rintro (hitem | ⟨front, item, back, rfl, hitem, hfront, hback⟩)
    · exact ⟨[], f, ',' :: b, rfl, hitem, .inl rfl, by simp⟩
    · refine ⟨f ++ ',' :: front, item, back, by simp, hitem, .inr ?_, hback⟩
      rcases hfront with rfl | ⟨f', rfl, hf'⟩
      · exact ⟨f, rfl, hf⟩
      · refine ⟨f ++ ',' :: f', by simp, ?_⟩
        rw [← List.singleton_append, ← List.append_assoc, (topLevel_append_comma hf).append_iff]
        exact hf'

theorem any_splitItems_iff (hk : ∀ c ∈ key, isWordByte c) (items : List Char) :
    ((splitItems 0 items).any fun item => Text.trim item == key) ↔ HasItem key items := by
  induction hn : items.length using Nat.strongRecOn generalizing items with
  | ind n ih =>
    rcases noComma_or_exists_first 0 items with h | ⟨f, b, rfl, hf, hd⟩
    · rw [splitItems_of_noComma h, hasItem_of_noComma hk h, ← trim_eq_iff hk]
      simp
    · have hb : b.length < n := by
        simp only [List.length_append, List.length_cons] at hn
        omega
      rw [splitItems_append hf hd, hasItem_append_comma hk hf hd, ← trim_eq_iff hk,
        ← ih b.length hb b rfl]
      simp

end TemporalGraph.Plan.Scope
