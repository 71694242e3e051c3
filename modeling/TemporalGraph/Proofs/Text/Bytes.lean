import Mathlib.Data.String.Basic
import TemporalGraph.Text.Search
/-!
Texts as bytes in UTF-8. Main statement: the bytes of two texts compare like their characters.
-/

namespace TemporalGraph.Text

def bytes (s : String) : List UInt8 := s.toByteArray.data.toList

def IsAscii (cs : List Char) : Prop := ∀ c ∈ cs, c.toNat < 128

theorem bytes_ofList (cs : List Char) :
    bytes (String.ofList cs) = cs.flatMap String.utf8EncodeChar := by
  simp [bytes, List.utf8Encode]

theorem utf8EncodeChar_append_lt {c d : Char} (h : c < d) (bs es : List UInt8) :
    String.utf8EncodeChar c ++ bs < String.utf8EncodeChar d ++ es := by
  have hvalid : d.val.toNat < 0x110000 := by
    have := d.valid
    simp only [UInt32.isValidChar, Nat.isValidChar] at this
    omega
  have hlt : c.val.toNat < d.val.toNat := h
  have hthird (n : Nat) : n / 4096 = n / 64 / 64 := by omega
  have hfourth (n : Nat) : n / 262144 = n / 64 / 64 / 64 := by omega
  -- The first byte tells how many there are, and together they hold the digits of the character.
  by_cases hrest : bs < es
  all_goals
    simp only [String.utf8EncodeChar]
    split_ifs
    all_goals
      simp only [List.cons_append, List.nil_append, List.cons_lt_cons_iff, UInt8.lt_iff_toNat_lt,
        ← UInt8.toNat_inj, UInt8.toNat_ofNat', hrest, and_true, and_false, or_false, hthird,
        hfourth]
      omega

theorem flatMap_utf8EncodeChar_lt {cs ds : List Char} (h : cs < ds) :
    cs.flatMap String.utf8EncodeChar < ds.flatMap String.utf8EncodeChar := by
  induction cs generalizing ds with
  | nil =>
    cases ds with
    | nil => exact absurd h (List.lt_irrefl [])
    | cons d ds =>
      obtain ⟨b, bs, hb⟩ := List.exists_cons_of_ne_nil (String.utf8EncodeChar_ne_nil (c := d))
      rw [List.flatMap_cons, hb]
      exact List.nil_lt_cons b _
  | cons c cs ih =>
    cases ds with
    | nil => exact absurd h (List.not_lt_nil _)
    | cons d ds =>
      rw [List.flatMap_cons, List.flatMap_cons]
      rcases List.cons_lt_cons_iff.1 h with hlt | ⟨rfl, hlt⟩
      · exact utf8EncodeChar_append_lt hlt _ _
      · exact List.append_left_lt (ih hlt)

/-- Texts compare like their bytes. -/
theorem bytes_lt_iff {a b : String} : bytes a < bytes b ↔ a < b := by
  have hlt {a b : String} (h : a < b) : bytes a < bytes b := by
    have hbytes := flatMap_utf8EncodeChar_lt (String.lt_iff_toList_lt.1 h)
    rwa [← bytes_ofList, ← bytes_ofList, String.ofList_toList, String.ofList_toList] at hbytes
  refine ⟨fun h => ?_, hlt⟩
  rcases lt_trichotomy a b with h' | rfl | h'
  · exact h'
  · exact absurd h (List.lt_irrefl _)
  · exact absurd (hlt h') (List.lt_asymm h)

theorem byteLength_append (cs ds : List Char) :
    byteLength (cs ++ ds) = byteLength cs + byteLength ds := by
  induction cs with
  | nil => exact (Nat.zero_add _).symm
  | cons c cs ih => rw [List.cons_append, byteLength, byteLength, ih, Nat.add_assoc]

theorem length_le_byteLength (cs : List Char) : cs.length ≤ byteLength cs := by
  induction cs with
  | nil => exact Nat.le_refl 0
  | cons c cs ih =>
    have hc := c.utf8Size_pos
    rw [byteLength, List.length_cons]
    omega

theorem byteLength_of_isAscii {cs : List Char} (h : IsAscii cs) : byteLength cs = cs.length := by
  induction cs with
  | nil => rfl
  | cons c cs ih =>
    obtain ⟨hc, hcs⟩ := List.forall_mem_cons.1 h
    have hsize : c.utf8Size = 1 :=
      Char.utf8Size_eq_one_iff.2 (UInt32.le_iff_toNat_le.2 (Nat.le_of_lt_succ hc))
    rw [byteLength, hsize, ih hcs, List.length_cons, Nat.add_comm]

theorem length_bytes (cs : List Char) : (bytes (String.ofList cs)).length = byteLength cs := by
  rw [bytes_ofList]
  induction cs with
  | nil => rfl
  | cons c cs ih =>
    rw [List.flatMap_cons, List.length_append, String.length_utf8EncodeChar, ih, byteLength]

theorem length_bytes_ofList {cs : List Char} (h : IsAscii cs) :
    (bytes (String.ofList cs)).length = cs.length := by
  rw [length_bytes, byteLength_of_isAscii h]

theorem bytes_append (cs ds : List Char) :
    bytes (String.ofList (cs ++ ds)) = bytes (String.ofList cs) ++ bytes (String.ofList ds) := by
  rw [bytes_ofList, bytes_ofList, bytes_ofList, List.flatMap_append]

/- Single bytes. -/

theorem utf8EncodeChar_of_ascii {c : Char} (h : c.toNat < 128) :
    String.utf8EncodeChar c = [UInt8.ofNat c.toNat] := by
  have hle : c.val.toNat ≤ 127 := Nat.le_of_lt_succ h
  simp only [String.utf8EncodeChar, if_pos hle]
  rfl

theorem le_of_mem_utf8EncodeChar {c : Char} (h : 128 ≤ c.toNat) :
    ∀ b ∈ String.utf8EncodeChar c, 128 ≤ b.toNat := by
  have hlt : ¬c.val.toNat ≤ 127 := Nat.not_le.2 h
  simp only [String.utf8EncodeChar, if_neg hlt]
  split_ifs
  all_goals
    simp only [List.forall_mem_cons, List.not_mem_nil, false_imp_iff, implies_true, and_true,
      UInt8.toNat_ofNat']
    omega

/- Cutting between characters. -/

theorem take_bytes (cs : List Char) (n : Nat) :
    (bytes (String.ofList cs)).take (byteLength (cs.take n)) =
      bytes (String.ofList (cs.take n)) := by
  conv_lhs => rw [← List.take_append_drop n cs, bytes_append, List.take_append_drop n cs]
  rw [← length_bytes, List.take_left]

theorem drop_bytes (cs : List Char) (n : Nat) :
    (bytes (String.ofList cs)).drop (byteLength (cs.take n)) =
      bytes (String.ofList (cs.drop n)) := by
  conv_lhs => rw [← List.take_append_drop n cs, bytes_append, List.take_append_drop n cs]
  rw [← length_bytes, List.drop_left]

theorem byteLength_take_le {m n : Nat} (h : m ≤ n) (cs : List Char) :
    byteLength (cs.take m) ≤ byteLength (cs.take n) := by
  obtain ⟨k, rfl⟩ := Nat.exists_eq_add_of_le h
  rw [List.take_add, byteLength_append]
  exact Nat.le_add_right _ _

/-- The bytes of the first characters end between two characters. -/
theorem isValid_byteLength_take (cs : List Char) (n : Nat) :
    String.Pos.Raw.IsValid (String.ofList cs) ⟨byteLength (cs.take n)⟩ :=
  String.Pos.Raw.isValid_ofList.2 ⟨n, (length_bytes (cs.take n)).symm⟩

end TemporalGraph.Text
