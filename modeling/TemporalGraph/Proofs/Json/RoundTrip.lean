import Mathlib.Data.List.Basic
import TemporalGraph.Json.Printer
import TemporalGraph.Json.Reader
/-!
JSON text that is read back. Main statement: the text of a value holds the document of that value,
if its numbers are whole numbers of 64 bits and no more containers are nested than a reader allows.
-/

namespace TemporalGraph.Json

open Decimal (isInt64 isNat64 natural)

/-- What can stand behind a value: a separator, the end of a container or the end of the text. -/
inductive Delimited : List Char → Prop where
  | nil : Delimited []
  | comma (rest : List Char) : Delimited (',' :: rest)
  | bracket (rest : List Char) : Delimited (']' :: rest)
  | brace (rest : List Char) : Delimited ('\x7d' :: rest)

/- Numbers. -/

theorem gather_of_fits {acc : Nat} {ds : List Char} (h : isNat64 (Decimal.valueFrom acc ds)) :
    gather acc ds = (Decimal.valueFrom acc ds, []) := by
  induction ds generalizing acc with
  | nil => rfl
  | cons d ds ih =>
    have hle := Decimal.le_valueFrom (10 * acc + Decimal.digitValue d) ds
    have hfits : isNat64 (10 * acc + Decimal.digitValue d) := by
      simp only [isNat64, decide_eq_true_eq] at h ⊢
      exact Nat.le_trans hle h
    rw [gather]
    simp only [hfits, if_true]
    exact ih h

theorem gather_natural {n : Nat} (h : isNat64 n) : gather 0 (natural n) = (n, []) := by
  have hv : Decimal.valueFrom 0 (natural n) = n := Decimal.value_natural n
  rw [gather_of_fits (by rwa [hv]), hv]

theorem number?_natural {n : Nat} (h : isNat64 n) :
    number? false (natural n) none none = some (.int n) := by
  rw [number?, gather_natural h]
  rfl

theorem number?_neg_natural {n : Nat} (hn : 0 < n) (h : isInt64 (-n)) (h' : isNat64 n) :
    number? true (natural n) none none = some (.int (-n)) := by
  rw [number?, gather_natural h']
  simp [hn, h]

theorem length_natural_of_zero {n : Nat} (h : (natural n).head? = some '0') :
    (natural n).length = 1 := by
  by_cases hn : n = 0
  · rw [hn]
    rfl
  · exact absurd h (Decimal.head?_natural (Nat.pos_of_ne_zero hn))

theorem readNumber_digits (negative : Bool) {ds rest : List Char} (hds : ds ≠ [])
    (hd : ∀ c ∈ ds, c.isDigit = true) (hz : ds.head? = some '0' → ds.length = 1)
    (hr : Delimited rest) :
    readNumber ((if negative then ['-'] else []) ++ ds ++ rest) =
      match number? negative ds none none with
      | some n => some (.scalar none (.number n), rest)
      | none => some (.unreadable, rest) := by
  have htake : rest.takeWhile Char.isDigit = [] := by cases hr <;> rfl
  have hdrop : rest.dropWhile Char.isDigit = rest := by cases hr <;> rfl
  have hwhole : (ds ++ rest).takeWhile Char.isDigit = ds := by
    rw [List.takeWhile_append_of_pos hd, htake, List.append_nil]
  have hbehind : (ds ++ rest).dropWhile Char.isDigit = rest := by
    rw [List.dropWhile_append_of_pos hd, hdrop]
  have hzero : (ds.isEmpty || (decide (ds.head? = some '0') && decide (1 < ds.length))) =
      false := by
    simp only [Bool.or_eq_false_iff, List.isEmpty_eq_false_iff, Bool.and_eq_false_imp,
      decide_eq_true_eq, decide_eq_false_iff_not]
    exact ⟨hds, fun h => by rw [hz h]; decide⟩
  -- The first digit is no sign, so an unsigned run is read from its start.
  have hsign : ∀ cs, ds ++ rest ≠ '-' :: cs := by
    intro cs h
    cases ds with
    | nil => exact hds rfl
    | cons d ds =>
      obtain rfl := (List.cons.inj h).1
      exact absurd (hd '-' (by simp)) (by decide)
  cases negative with
  | false =>
    simp only [readNumber, Bool.false_eq_true, if_false, List.nil_append, hwhole, hbehind, hzero]
    cases hr <;> rfl
  | true =>
    simp only [readNumber, Bool.false_eq_true, if_true, if_false, List.cons_append,
      List.nil_append, hwhole, hbehind, hzero]
    cases hr <;> rfl

theorem readNumber_integer {i : Int} (h : isInt64 i) {rest : List Char} (hr : Delimited rest) :
    readNumber (Decimal.integer i ++ rest) = some (.scalar none (.number (.int i)), rest) := by
  have hread (negative : Bool) (n : Nat) := readNumber_digits negative (Decimal.natural_ne_nil n)
    (fun c => Decimal.isDigit_of_mem_natural) length_natural_of_zero hr
  cases i with
  | ofNat n =>
    have hn : isNat64 n := by
      simp only [isInt64, isNat64, Int.ofNat_eq_natCast, Bool.and_eq_true, decide_eq_true_eq] at h ⊢
      omega
    exact (hread false n).trans (by rw [number?_natural hn]; rfl)
  | negSucc n =>
    have hn : isNat64 (n + 1) := by
      simp only [isInt64, isNat64, Bool.and_eq_true, decide_eq_true_eq] at h ⊢
      omega
    exact (hread true (n + 1)).trans (by rw [number?_neg_natural (Nat.succ_pos n) h hn]; rfl)

def startsNumber (c : Char) : Bool := c = '-' || c.isDigit

theorem ne_of_startsNumber {c d : Char} (h : startsNumber c) (hd : startsNumber d = false) :
    c ≠ d := by
  rintro rfl
  exact absurd h (by simp [hd])

theorem isSpace_of_startsNumber {c : Char} (h : startsNumber c) : isSpace c = false := by
  simp only [isSpace, Bool.or_eq_false_iff, decide_eq_false_iff_not]
  exact ⟨⟨⟨ne_of_startsNumber h rfl, ne_of_startsNumber h rfl⟩, ne_of_startsNumber h rfl⟩,
    ne_of_startsNumber h rfl⟩

theorem exists_integer_cons (i : Int) :
    ∃ c cs, Decimal.integer i = c :: cs ∧ startsNumber c := by
  cases i with
  | ofNat n =>
    obtain ⟨c, cs, h⟩ := List.exists_cons_of_ne_nil (Decimal.natural_ne_nil n)
    have hc : c.isDigit = true := Decimal.isDigit_of_mem_natural (h ▸ List.mem_cons_self)
    exact ⟨c, cs, h, Bool.or_eq_true_iff.2 (.inr hc)⟩
  | negSucc n => exact ⟨'-', natural (n + 1), rfl, rfl⟩

/- Strings. -/

theorem valueIn?_hexDigit :
    ∀ n < 32, Text.valueIn? 16 ['0', '0', hexDigit (n / 16), hexDigit (n % 16)] = some n := by
  decide

theorem stringBody_escape (c : Char) (rest : List Char) :
    stringBody (escape c ++ rest) = prepend (some c) (stringBody rest) := by
  unfold escape
  split
  · next h => rw [h]; rfl
  split
  · next h => rw [h]; rfl
  split
  · next h => rw [h]; rfl
  split
  · next h => rw [h]; rfl
  split
  · next h => rw [h]; rfl
  split
  · next h =>
    obtain rfl : c = '\x08' := Char.toNat_inj.1 h
    rfl
  split
  · next h =>
    obtain rfl : c = '\x0c' := Char.toNat_inj.1 h
    rfl
  split
  · next h =>
    have hv := valueIn?_hexDigit c.toNat h
    have hlow : (decide (c.toNat < 0xD800) || decide (0xE000 ≤ c.toNat)) = true := by
      simp only [Bool.or_eq_true, decide_eq_true_eq]
      omega
    simp only [List.cons_append, List.nil_append, stringBody, hv, hlow, if_true, Char.ofNat_toNat]
  · next hquote hslash _ _ _ _ _ hraw =>
    have h : (decide (c.toNat < 32) || decide (c = '\\')) = false := by simp [hraw, hslash]
    rw [List.singleton_append, stringBody]
    · simp [h]
    · exact hquote
    · intro a b d e r h
      exact absurd h hslash
    · intro e r h
      exact absurd h hslash

theorem stringBody_escaped (cs rest : List Char) :
    stringBody (cs.flatMap escape ++ '"' :: rest) = some (some cs, rest) := by
  induction cs with
  | nil => rfl
  | cons c cs ih =>
    rw [List.flatMap_cons, List.append_assoc, stringBody_escape, ih]
    rfl

theorem readString_escaped (s : String) (rest : List Char) :
    readString (s.toList.flatMap escape ++ '"' :: rest) = some (some s, rest) := by
  rw [readString, stringBody_escaped]
  simp

/- Values. -/

theorem Value.induction {P : Value → Prop} (null : P .null) (bool : ∀ b, P (.bool b))
    (number : ∀ n, P (.number n)) (string : ∀ s, P (.string s))
    (array : ∀ items, (∀ v ∈ items, P v) → P (.array items))
    (object : ∀ members, (∀ m ∈ members, P m.2) → P (.object members)) : ∀ v, P v
  | .null => null
  | .bool b => bool b
  | .number n => number n
  | .string s => string s
  | .array items => array items fun v _ => induction null bool number string array object v
  | .object members =>
    object members fun m _ => induction null bool number string array object m.2
  termination_by v => sizeOf v
  decreasing_by
    · have hlt := List.sizeOf_lt_of_mem ‹v ∈ items›
      simp only [Value.array.sizeOf_spec]
      omega
    · have hlt := List.sizeOf_lt_of_mem ‹m ∈ members›
      have hsnd : sizeOf m = 1 + sizeOf m.1 + sizeOf m.2 := rfl
      simp only [Value.object.sizeOf_spec]
      omega

mutual

def Value.document : Value → Document
  | .null => .scalar none .null
  | .bool b => .scalar none (.bool b)
  | .number n => .scalar none (.number n)
  | .string s => .text s
  | .array items => .list (documents items)
  | .object members => .table (memberDocuments members)

def documents : List Value → List Document
  | [] => []
  | v :: vs => v.document :: documents vs

def memberDocuments : List (String × Value) → List (String × Document)
  | [] => []
  | (key, v) :: ms => (key, v.document) :: memberDocuments ms

end

mutual

def Value.depth : Value → Nat
  | .array items => itemsDepth items + 1
  | .object members => membersDepth members + 1
  | _ => 0

def itemsDepth : List Value → Nat
  | [] => 0
  | v :: vs => max v.depth (itemsDepth vs)

def membersDepth : List (String × Value) → Nat
  | [] => 0
  | (_, v) :: ms => max v.depth (membersDepth ms)

end

mutual

def Value.isWhole : Value → Bool
  | .number (.int i) => isInt64 i
  | .number (.float _) => false
  | .array items => areWhole items
  | .object members => membersWhole members
  | _ => true

def areWhole : List Value → Bool
  | [] => true
  | v :: vs => v.isWhole && areWhole vs

def membersWhole : List (String × Value) → Bool
  | [] => true
  | (_, v) :: ms => v.isWhole && membersWhole ms

end

theorem documents_eq_map (vs : List Value) : documents vs = vs.map Value.document := by
  induction vs with
  | nil => rfl
  | cons v vs ih => rw [documents, ih, List.map_cons]

theorem memberDocuments_eq_map (ms : List (String × Value)) :
    memberDocuments ms = ms.map fun m => (m.1, m.2.document) := by
  induction ms with
  | nil => rfl
  | cons m ms ih => rw [memberDocuments, ih, List.map_cons]

theorem areWhole_iff {vs : List Value} : areWhole vs ↔ ∀ v ∈ vs, v.isWhole := by
  induction vs with
  | nil => simp [areWhole]
  | cons v vs ih => rw [areWhole, Bool.and_eq_true, ih, List.forall_mem_cons]

theorem membersWhole_iff {ms : List (String × Value)} :
    membersWhole ms ↔ ∀ m ∈ ms, m.2.isWhole := by
  induction ms with
  | nil => simp [membersWhole]
  | cons m ms ih => rw [membersWhole, Bool.and_eq_true, ih, List.forall_mem_cons]

theorem membersWhole_append (ms ns : List (String × Value)) :
    membersWhole (ms ++ ns) = (membersWhole ms && membersWhole ns) := by
  rw [Bool.eq_iff_iff, Bool.and_eq_true, membersWhole_iff, membersWhole_iff, membersWhole_iff]
  exact List.forall_mem_append

theorem skipSpace_cons {c : Char} (h : isSpace c = false) (cs : List Char) :
    skipSpace (c :: cs) = c :: cs := by
  rw [skipSpace, List.dropWhile_cons_of_neg (by simp [h])]

theorem contain_of_pos {depth : Nat} (h : 0 < depth) (d : Document) : contain depth d = d :=
  if_neg (Nat.ne_of_gt h)

def Opens (cs : List Char) : Prop := ∃ c rest, cs = c :: rest ∧ isSpace c = false ∧ c ≠ ']'

theorem opens_render {v : Value} (h : v.isWhole) (rest : List Char) : Opens (v.render ++ rest) := by
  cases v with
  | null => exact ⟨_, _, rfl, rfl, by decide⟩
  | bool b =>
    cases b with
    | false => exact ⟨_, _, rfl, rfl, by decide⟩
    | true => exact ⟨_, _, rfl, rfl, by decide⟩
  | number n =>
    cases n with
    | int i =>
      obtain ⟨c, cs, hi, hc⟩ := exists_integer_cons i
      exact ⟨c, cs ++ rest, by rw [Value.render, Number.render, hi, List.cons_append],
        isSpace_of_startsNumber hc, ne_of_startsNumber hc rfl⟩
    | float bits => cases h
  | string s => exact ⟨_, _, rfl, rfl, by decide⟩
  | array items => exact ⟨_, _, rfl, rfl, by decide⟩
  | object members => exact ⟨_, _, rfl, rfl, by decide⟩

/- What `readValue` does with each first character. -/

theorem readValue_number {c : Char} (h : startsNumber c) (fuel depth : Nat) (cs : List Char) :
    readValue (fuel + 1) depth (c :: cs) = readNumber (c :: cs) := by
  have hne (d : Char) (hd : startsNumber d = false) : c ≠ d := ne_of_startsNumber h hd
  rw [readValue, skipSpace_cons (isSpace_of_startsNumber h)]
  simp [hne '"' rfl, hne '[' rfl, hne '\x7b' rfl, hne 't' rfl, hne 'f' rfl, hne 'n' rfl]

theorem readValue_string (s : String) (fuel depth : Nat) (rest : List Char) :
    readValue (fuel + 1) depth (renderString s ++ rest) = some (.text s, rest) := by
  simp only [renderString, List.cons_append, List.append_assoc, List.nil_append]
  rw [readValue, skipSpace_cons rfl]
  simp only [readString_escaped]
  rfl

theorem readValue_array {cs : List Char} (h : Opens cs) (fuel depth : Nat) :
    readValue (fuel + 1) depth ('[' :: cs) =
      (readItems fuel (depth - 1) cs).map fun p => (contain depth (.list p.1), p.2) := by
  obtain ⟨c, rest, rfl, hspace, hc⟩ := h
  rw [readValue, skipSpace_cons rfl]
  simp only [skipSpace_cons hspace]
  simp [hc]

theorem readValue_object (fuel depth : Nat) (cs : List Char) :
    readValue (fuel + 1) depth ('\x7b' :: '"' :: cs) =
      (readMembers fuel (depth - 1) ('"' :: cs)).map fun p =>
        (contain depth ((p.1.map Document.table).getD .unreadable), p.2) := by
  rw [readValue, skipSpace_cons rfl]
  rfl

/- The text of the parts of a container. -/

theorem exists_separated_cons (t : List Char) (ts : List (List Char)) :
    ∃ rest, separated (t :: ts) = t ++ rest := by
  cases ts with
  | nil => exact ⟨[], (List.append_nil t).symm⟩
  | cons u ts => exact ⟨_, rfl⟩

theorem separated_items_cons (v w : Value) (vs : List Value) :
    separated (renderItems (v :: w :: vs)) = v.render ++ ',' :: separated (renderItems (w :: vs)) :=
  rfl

theorem separated_members_cons (key : String) (v : Value) (m : String × Value)
    (ms : List (String × Value)) :
    separated (renderMembers ((key, v) :: m :: ms)) =
      renderString key ++ ':' :: (v.render ++ ',' :: separated (renderMembers (m :: ms))) := by
  obtain ⟨key', w⟩ := m
  simp only [renderMembers, separated, List.append_assoc, List.cons_append]

/-- A value is read from its text, whatever stands behind, with enough fuel and depth. -/
def ReadsBack (v : Value) : Prop :=
  ∀ (fuel depth : Nat) (rest : List Char), 2 * v.render.length ≤ fuel → v.depth ≤ depth →
    Delimited rest → readValue (fuel + 1) depth (v.render ++ rest) = some (v.document, rest)

theorem readItems_render {v : Value} {vs : List Value} (h : ∀ w ∈ v :: vs, ReadsBack w) (fuel : Nat)
    {depth : Nat} (hf : 2 * (separated (renderItems (v :: vs))).length < fuel)
    (hd : itemsDepth (v :: vs) ≤ depth) (rest : List Char) :
    readItems (fuel + 1) depth (separated (renderItems (v :: vs)) ++ ']' :: rest) =
      some (documents (v :: vs), rest) := by
  induction vs generalizing v fuel with
  | nil =>
    obtain ⟨fuel, rfl⟩ := Nat.exists_eq_add_of_lt hf
    simp only [renderItems, separated] at hf ⊢
    rw [readItems, h v List.mem_cons_self _ depth _ (by omega) (Nat.max_le.1 hd).1 (.bracket rest)]
    rfl
  | cons w vs ih =>
    obtain ⟨hv, hvs⟩ := List.forall_mem_cons.1 h
    obtain ⟨hdv, hdvs⟩ := Nat.max_le.1 hd
    obtain ⟨fuel, rfl⟩ := Nat.exists_eq_add_of_lt hf
    rw [separated_items_cons, List.length_append, List.length_cons] at hf ⊢
    rw [List.append_assoc, List.cons_append, readItems,
      hv _ depth _ (by omega) hdv (.comma _)]
    simp only [Option.bind_eq_bind, Option.bind_some, skipSpace_cons (c := ',') rfl]
    rw [ih hvs _ (by omega) hdvs]
    rfl

theorem readMembers_render {key : String} {v : Value} {ms : List (String × Value)}
    (h : ∀ m ∈ (key, v) :: ms, ReadsBack m.2) (fuel : Nat) {depth : Nat}
    (hf : 2 * (separated (renderMembers ((key, v) :: ms))).length < fuel)
    (hd : membersDepth ((key, v) :: ms) ≤ depth) (rest : List Char) :
    readMembers (fuel + 1) depth (separated (renderMembers ((key, v) :: ms)) ++ '\x7d' :: rest) =
      some (some (memberDocuments ((key, v) :: ms)), rest) := by
  have hv : ReadsBack v := h (key, v) List.mem_cons_self
  have hdv : v.depth ≤ depth := (Nat.max_le.1 hd).1
  induction ms generalizing key v fuel with
  | nil =>
    obtain ⟨fuel, rfl⟩ := Nat.exists_eq_add_of_lt hf
    simp only [renderMembers, separated, List.length_append, List.length_cons] at hf ⊢
    simp only [renderString, List.cons_append, List.append_assoc, List.nil_append]
    rw [readMembers, skipSpace_cons rfl]
    simp only [readString_escaped, Option.bind_eq_bind, Option.bind_some,
      skipSpace_cons (c := ':') rfl]
    rw [hv _ depth _ (by omega) hdv (.brace rest)]
    rfl
  | cons m ms ih =>
    obtain ⟨key', w⟩ := m
    have hms := (List.forall_mem_cons.1 h).2
    have hdms := (Nat.max_le.1 hd).2
    obtain ⟨fuel, rfl⟩ := Nat.exists_eq_add_of_lt hf
    rw [separated_members_cons] at hf ⊢
    simp only [List.length_append, List.length_cons] at hf ⊢
    simp only [renderString, List.cons_append, List.append_assoc, List.nil_append]
    rw [readMembers, skipSpace_cons rfl]
    simp only [readString_escaped, Option.bind_eq_bind, Option.bind_some,
      skipSpace_cons (c := ':') rfl]
    rw [hv _ depth _ (by omega) hdv (.comma _)]
    simp only [Option.bind_some, skipSpace_cons (c := ',') rfl]
    rw [ih hms _ (by omega) hdms (hms _ List.mem_cons_self) (Nat.max_le.1 hdms).1]
    rfl

theorem readsBack_array {items : List Value} (hw : areWhole items) (h : ∀ v ∈ items, ReadsBack v) :
    ReadsBack (.array items) := by
  intro fuel depth rest hf hd _
  have hlevel := contain_of_pos (Nat.lt_of_lt_of_le (Nat.succ_pos _) hd)
  simp only [Value.render, List.length_append, List.length_cons, List.length_nil] at hf
  simp only [Value.render, List.cons_append, List.append_assoc, List.nil_append]
  cases items with
  | nil =>
    rw [readValue, skipSpace_cons rfl]
    simp only [renderItems, separated, List.nil_append, skipSpace_cons (c := ']') rfl, hlevel]
    rfl
  | cons v vs =>
    have hopens : Opens (separated (renderItems (v :: vs)) ++ ']' :: rest) := by
      obtain ⟨more, hmore⟩ := exists_separated_cons v.render (renderItems vs)
      rw [renderItems, hmore, List.append_assoc]
      exact opens_render (Bool.and_eq_true_iff.1 hw).1 _
    obtain ⟨fuel, rfl⟩ : ∃ n, fuel = n + 1 := ⟨fuel - 1, by omega⟩
    rw [readValue_array hopens, readItems_render h fuel (by omega) (Nat.le_sub_one_of_lt hd),
      Option.map_some, hlevel, Value.document]

theorem readsBack_object {members : List (String × Value)} (h : ∀ m ∈ members, ReadsBack m.2) :
    ReadsBack (.object members) := by
  intro fuel depth rest hf hd _
  have hlevel := contain_of_pos (Nat.lt_of_lt_of_le (Nat.succ_pos _) hd)
  simp only [Value.render, List.length_append, List.length_cons, List.length_nil] at hf
  simp only [Value.render, List.cons_append, List.append_assoc, List.nil_append]
  cases members with
  | nil =>
    rw [readValue, skipSpace_cons rfl]
    simp only [renderMembers, separated, List.nil_append, skipSpace_cons (c := '\x7d') rfl, hlevel]
    rfl
  | cons m ms =>
    obtain ⟨key, v⟩ := m
    obtain ⟨fuel, rfl⟩ : ∃ n, fuel = n + 1 := ⟨fuel - 1, by omega⟩
    have hmembers := readMembers_render h fuel (by omega) (Nat.le_sub_one_of_lt hd) rest
    obtain ⟨more, hmore⟩ : ∃ more, separated (renderMembers ((key, v) :: ms)) = '"' :: more := by
      obtain ⟨more, hmore⟩ := exists_separated_cons _ (renderMembers ms)
      exact ⟨_, hmore⟩
    rw [hmore, List.cons_append] at hmembers ⊢
    rw [readValue_object, hmembers]
    simp only [Option.map_some, Option.getD_some, hlevel, Value.document]

theorem readsBack {v : Value} (hv : v.isWhole) : ReadsBack v := by
  induction v using Value.induction with
  | null => exact fun fuel depth rest _ _ _ => rfl
  | bool b =>
    cases b with
    | false => exact fun fuel depth rest _ _ _ => rfl
    | true => exact fun fuel depth rest _ _ _ => rfl
  | number n =>
    cases n with
    | int i =>
      intro fuel depth rest _ _ hr
      have hread := readNumber_integer hv hr
      obtain ⟨c, cs, hi, hc⟩ := exists_integer_cons i
      simp only [Value.render, Number.render]
      rw [hi, List.cons_append] at hread ⊢
      rw [readValue_number hc, hread, Value.document]
    | float bits => cases hv
  | string s => exact fun fuel depth rest _ _ _ => readValue_string s fuel depth rest
  | array items ih =>
    have hw := areWhole_iff.1 hv
    exact readsBack_array hv fun v hmem => ih v hmem (hw v hmem)
  | object members ih =>
    have hw := membersWhole_iff.1 hv
    exact readsBack_object fun m hmem => ih m hmem (hw m hmem)

/-- A text holds the document of the value that was written. -/
theorem parse?_toText {v : Value} (hv : v.isWhole) (hd : v.depth ≤ depthLimit) :
    parse? v.toText = some v.document := by
  have hread := readsBack hv (2 * v.render.length + 1) depthLimit [] (by omega) hd .nil
  rw [List.append_nil] at hread
  simp only [parse?, Value.toText, String.toList_ofList, hread]
  rfl

end TemporalGraph.Json
