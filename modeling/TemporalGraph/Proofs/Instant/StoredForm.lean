import TemporalGraph.Instant.Basic
import TemporalGraph.Instant.Text
import TemporalGraph.Proofs.Decimal.Form
import TemporalGraph.Proofs.Instant.Calendar
import TemporalGraph.Proofs.Text.Bytes
/-!
The stored form of instants. Main statement: in the years of four digits the texts are of one length
and compare, byte by byte, like the instants truncated to milliseconds; leap seconds keep their
place.
-/

namespace TemporalGraph.Instant

open Calendar (Date)
open Decimal (Form)

def HasFourDigitYear (t : Instant) : Prop := 0 ≤ t.civil.date.year ∧ t.civil.date.year ≤ 9999

instance (t : Instant) : Decidable t.HasFourDigitYear := inferInstanceAs (Decidable (_ ∧ _))

/-- `YYYY-MM-DDThh:mm:ss.fffZ` -/
def storedForm : Form :=
  [(4, '-'), (2, '-'), (2, 'T'), (2, ':'), (2, ':'), (2, '.'), (3, 'Z')]

def fields (t : Instant) : List Nat :=
  let c := t.civil
  [c.date.year.toNat, c.date.month, c.date.day, c.hour, c.minute, c.second, c.nano / 1000000]

theorem render_eq_write {t : Instant} (h : t.HasFourDigitYear) :
    t.render = storedForm.write t.fields := by
  obtain ⟨h0, h9⟩ := h
  simp only [render, Civil.render, renderYear, h0, h9, decide_true, Bool.and_self, if_true,
    storedForm, fields, Form.write, List.append_assoc, List.cons_append]

theorem fits_fields {t : Instant} (h : t.HasFourDigitYear) : storedForm.Fits t.fields := by
  have hdate := Date.ofDay_bounds (t.second / 86400)
  have hyear : t.civil.date.year.toNat < 10 ^ 4 := by
    obtain ⟨h0, h9⟩ := h
    omega
  have htime : (t.second % 86400).toNat < 86400 := by omega
  have hhour : t.civil.hour < 10 ^ 2 := by
    simp only [civil]
    omega
  have hminute : t.civil.minute < 10 ^ 2 := Nat.lt_trans (Nat.mod_lt _ (by decide)) (by decide)
  have hsecond : t.civil.second < 10 ^ 2 := by
    have hmod : (t.second % 86400).toNat % 60 < 60 := Nat.mod_lt _ (by decide)
    simp only [civil]
    split <;> omega
  have hmilli : t.civil.nano / 1000000 < 10 ^ 3 := by
    have hn := t.nano_lt
    simp only [civil, isLeap, decide_eq_true_eq]
    split <;> omega
  simp only [storedForm, fields, Form.Fits, List.forall₂_cons, List.forall₂_nil_left_iff, and_true]
  exact ⟨hyear, Nat.lt_of_le_of_lt hdate.1 (by decide), Nat.lt_of_le_of_lt hdate.2 (by decide),
    hhour, hminute, hsecond, hmilli⟩

theorem truncate_lt_iff {a b : Instant} :
    a.truncate < b.truncate ↔
      a.second < b.second ∨ a.second = b.second ∧ a.nano / 1000000 < b.nano / 1000000 := by
  rw [lt_def]
  simp only [truncate]
  omega

theorem hour_minute_lt {m n : Nat} (h : m / 60 < n / 60) :
    m / 3600 < n / 3600 ∨ m / 3600 = n / 3600 ∧ m / 60 % 60 < n / 60 % 60 := by
  omega

theorem second_milli_lt {a b : Instant} (hm : a.second / 60 = b.second / 60)
    (h : a.truncate < b.truncate) :
    a.civil.second < b.civil.second ∨
      a.civil.second = b.civil.second ∧ a.civil.nano / 1000000 < b.civil.nano / 1000000 := by
  rw [truncate_lt_iff] at h
  have hla := a.leap_ends_minute
  have hlb := b.leap_ends_minute
  have hsa : (a.second % 86400).toNat % 60 = (a.second % 60).toNat := by omega
  have hsb : (b.second % 86400).toNat % 60 = (b.second % 60).toNat := by omega
  simp only [civil, isLeap, decide_eq_true_eq, hsa, hsb]
  split <;> split <;> omega

theorem fields_lt {a b : Instant} (ha : a.HasFourDigitYear) (h : a.truncate < b.truncate) :
    a.fields < b.fields := by
  have hle : a.second ≤ b.second := by
    rw [truncate_lt_iff] at h
    omega
  simp only [fields, List.cons_lt_cons_iff, List.not_lt_nil, and_false, or_false]
  by_cases hday : a.second / 86400 < b.second / 86400
  · have hy := ha.1
    have hdate := Date.ofDay_before hday
    simp only [Date.Before] at hdate
    simp only [civil] at hy ⊢
    omega
  · have hdate : a.civil.date = b.civil.date := by
      have heq : a.second / 86400 = b.second / 86400 := by omega
      simp only [civil, heq]
    simp only [hdate, Nat.lt_irrefl, false_or, true_and]
    by_cases hminute : a.second / 60 = b.second / 60
    · have htime : (a.second % 86400).toNat / 60 = (b.second % 86400).toNat / 60 := by omega
      have hhour : a.civil.hour = b.civil.hour := by
        simp only [civil]
        omega
      have hminute' : a.civil.minute = b.civil.minute := by simp only [civil, htime]
      exact .inr ⟨hhour, .inr ⟨hminute', second_milli_lt hminute h⟩⟩
    · have htime : (a.second % 86400).toNat / 60 < (b.second % 86400).toNat / 60 := by omega
      rcases hour_minute_lt htime with hhour | ⟨hhour, hmin⟩
      · exact .inl hhour
      · exact .inr ⟨hhour, .inl hmin⟩

theorem fields_truncate (t : Instant) : t.truncate.fields = t.fields := by
  have hleap : t.truncate.isLeap = t.isLeap := by
    simp only [isLeap, truncate]
    grind
  have := t.nano_lt
  simp only [fields, civil, hleap]
  simp only [truncate, isLeap]
  grind

theorem isAscii_render {t : Instant} (h : t.HasFourDigitYear) : Text.IsAscii t.render := by
  intro c hc
  rw [render_eq_write h] at hc
  exact Form.toNat_lt_of_mem_write (by decide) hc

theorem length_render {t : Instant} (h : t.HasFourDigitYear) : t.render.length = 24 := by
  rw [render_eq_write h, Form.length_write (fits_fields h)]
  rfl

theorem toText_lt {a b : Instant} (ha : a.HasFourDigitYear) (hb : b.HasFourDigitYear)
    (h : a.truncate < b.truncate) : a.toText < b.toText := by
  rw [String.lt_iff_toList_lt, toText, toText, String.toList_ofList, String.toList_ofList,
    render_eq_write ha, render_eq_write hb]
  exact Form.write_lt (fits_fields ha) (fits_fields hb) (fields_lt ha h)

theorem toText_eq {a b : Instant} (ha : a.HasFourDigitYear) (hb : b.HasFourDigitYear)
    (h : a.truncate = b.truncate) : a.toText = b.toText := by
  rw [toText, toText, render_eq_write ha, render_eq_write hb, ← fields_truncate a,
    ← fields_truncate b, h]

theorem lt_or_eq_or_gt (a b : Instant) : a < b ∨ a = b ∨ b < a := by grind

theorem toText_lt_iff {a b : Instant} (ha : a.HasFourDigitYear) (hb : b.HasFourDigitYear) :
    a.toText < b.toText ↔ a.truncate < b.truncate := by
  refine ⟨fun h => ?_, toText_lt ha hb⟩
  rcases lt_or_eq_or_gt a.truncate b.truncate with hlt | heq | hgt
  · exact hlt
  · exact absurd (toText_eq ha hb heq) (ne_of_lt h)
  · exact absurd (toText_lt hb ha hgt) (lt_asymm h)

theorem toText_eq_iff {a b : Instant} (ha : a.HasFourDigitYear) (hb : b.HasFourDigitYear) :
    a.toText = b.toText ↔ a.truncate = b.truncate := by
  refine ⟨fun h => ?_, toText_eq ha hb⟩
  rcases lt_or_eq_or_gt a.truncate b.truncate with hlt | heq | hgt
  · exact absurd h (ne_of_lt (toText_lt ha hb hlt))
  · exact heq
  · exact absurd h.symm (ne_of_lt (toText_lt hb ha hgt))

/-- The stored form keeps the instant. -/
structure IsStored (t : Instant) : Prop where
  year : t.HasFourDigitYear
  truncate_eq : t.truncate = t

theorem IsStored.toText_lt_iff {a b : Instant} (ha : a.IsStored) (hb : b.IsStored) :
    a.toText < b.toText ↔ a < b := by
  rw [Instant.toText_lt_iff ha.year hb.year, ha.truncate_eq, hb.truncate_eq]

theorem IsStored.toText_eq_iff {a b : Instant} (ha : a.IsStored) (hb : b.IsStored) :
    a.toText = b.toText ↔ a = b := by
  rw [Instant.toText_eq_iff ha.year hb.year, ha.truncate_eq, hb.truncate_eq]

theorem IsStored.toText_le_iff {a b : Instant} (ha : a.IsStored) (hb : b.IsStored) :
    a.toText ≤ b.toText ↔ a ≤ b := by
  rw [← String.not_lt, hb.toText_lt_iff ha, Instant.not_lt]

/-- The texts of instants in the years of four digits take 24 bytes of ASCII, and their bytes
compare like the instants up to milliseconds, leap seconds included. -/
theorem bytes_toText_lt_iff {a b : Instant} (ha : a.HasFourDigitYear) (hb : b.HasFourDigitYear) :
    ((Text.bytes a.toText).length = 24 ∧ Text.IsAscii a.toText.toList) ∧
    (Text.bytes a.toText < Text.bytes b.toText ↔ a.truncate < b.truncate) ∧
    (a.toText = b.toText ↔ a.truncate = b.truncate) := by
  have hascii := isAscii_render ha
  refine ⟨⟨?_, ?_⟩, ?_, toText_eq_iff ha hb⟩
  · rw [toText, Text.length_bytes_ofList hascii, length_render ha]
  · rwa [toText, String.toList_ofList]
  · rw [Text.bytes_lt_iff, toText_lt_iff ha hb]

theorem bytes_toText_lt_leap_second :
    let leap : Instant := { second := 1483228799, nano := 1500000000 }
    let after := startOf 1483228800
    leap.HasFourDigitYear ∧ after.HasFourDigitYear ∧ leap.toText = "2016-12-31T23:59:60.500Z" ∧
      Text.bytes leap.toText < Text.bytes after.toText := by
  intro leap after
  have hl : leap.HasFourDigitYear := by decide
  have ha : after.HasFourDigitYear := by decide
  exact ⟨hl, ha, by decide, (bytes_toText_lt_iff hl ha).2.1.2 (by decide)⟩

end TemporalGraph.Instant
