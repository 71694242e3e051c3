import TemporalGraph.Proofs.Instant.StoredForm
import TemporalGraph.Proofs.Outcome
/-!
Reading instants. Main statements: the stored form is read as the instant it was written for, up to
milliseconds; and a normalized version is in the stored form, which normalizing keeps, unless its
offset moves it out of the years of four digits.
-/

namespace TemporalGraph.Instant

open Calendar (Date)
open Decimal (Form)

/- The places of the stored form, one after another. -/

theorem takeDigits_fixed {width n : Nat} (h : n < 10 ^ width) (rest : List Char) :
    takeDigits width (Decimal.fixed width n ++ rest) = .ok (n, rest) := by
  have hlen := Decimal.fixed_length width n
  have htake : (Decimal.fixed width n ++ rest).take width = Decimal.fixed width n :=
    List.take_left' hlen
  have hdrop : (Decimal.fixed width n ++ rest).drop width = rest := List.drop_left' hlen
  have hvalue : Decimal.value (Decimal.fixed width n) = n :=
    (Decimal.value_fixed width n).trans (Nat.mod_eq_of_lt h)
  have hall : (Decimal.fixed width n).all Char.isDigit :=
    List.all_eq_true.2 fun c hc => Decimal.isDigit_of_mem_fixed hc
  simp only [takeDigits, htake, hdrop, hlen, hvalue, hall, decide_true, Bool.and_self, if_true]

theorem takeNanos_fixed {n : Nat} (h : n < 10 ^ 3) :
    takeNanos (Decimal.fixed 3 n ++ ['Z']) = .ok (n * 1000000, ['Z']) := by
  have hdigit : ∀ c ∈ Decimal.fixed 3 n, c.isDigit = true := fun c => Decimal.isDigit_of_mem_fixed
  have hlen := Decimal.fixed_length 3 n
  have htake : (Decimal.fixed 3 n ++ ['Z']).takeWhile Char.isDigit = Decimal.fixed 3 n := by
    rw [List.takeWhile_append_of_pos hdigit]
    simp
  have hdrop : (Decimal.fixed 3 n ++ ['Z']).dropWhile Char.isDigit = ['Z'] := by
    rw [List.dropWhile_append_of_pos hdigit]
    rfl
  have hne : Decimal.fixed 3 n ≠ [] := List.ne_nil_of_length_pos (by omega)
  have hkept : (Decimal.fixed 3 n).take 9 = Decimal.fixed 3 n := List.take_of_length_le (by omega)
  have hvalue : Decimal.value (Decimal.fixed 3 n) = n :=
    (Decimal.value_fixed 3 n).trans (Nat.mod_eq_of_lt h)
  simp [takeNanos, htake, hdrop, hkept, hlen, hvalue, hne]

theorem parse_write {year month day hour minute second milli : Nat}
    (hf : storedForm.Fits [year, month, day, hour, minute, second, milli])
    (hd : Date.isReal ⟨year, month, day⟩) (hh : hour ≤ 23) (hm : minute ≤ 59) (hs : second ≤ 60) :
    parse (storedForm.write [year, month, day, hour, minute, second, milli]) =
      match ofCivil? ⟨⟨year, month, day⟩, hour, minute, second, milli * 1000000⟩ 0 with
      | some t => .ok t
      | none => .error .outOfRange := by
  have hlen : ¬Text.byteLength
      (storedForm.write [year, month, day, hour, minute, second, milli]) < 19 := by
    have := Text.length_le_byteLength
      (storedForm.write [year, month, day, hour, minute, second, milli])
    rw [Form.length_write hf] at this
    exact Nat.not_lt.2 (Nat.le_trans (by decide) this)
  simp only [storedForm, Form.Fits, List.forall₂_cons, List.forall₂_nil_left_iff, and_true] at hf
  obtain ⟨hyear, hmonth, hday, hhour, hminute, hsecond, hmilli⟩ := hf
  have hreal : ¬(!Date.isReal ⟨year, month, day⟩) = true := by simp [hd]
  have htime : ¬(decide (23 < hour) || decide (59 < minute) || decide (60 < second)) = true := by
    simp only [Bool.or_eq_true, decide_eq_true_eq]
    omega
  have hdash (cs : List Char) : takeOne ['-'] ('-' :: cs) = .ok cs := rfl
  have hmark (cs : List Char) : takeOne ['T', 't', ' '] ('T' :: cs) = .ok cs := rfl
  have hcolon (cs : List Char) : takeOne [':'] (':' :: cs) = .ok cs := rfl
  have hzone : takeOffset takeColon ['Z'] = .ok (0, []) := rfl
  rw [parse, if_neg hlen]
  simp only [storedForm, Form.write, takeDigits_fixed hyear, hdash, takeDigits_fixed hmonth,
    takeDigits_fixed hday, hmark, takeDigits_fixed hhour, hcolon, takeDigits_fixed hminute,
    takeDigits_fixed hsecond, takeNanos_fixed hmilli, hzone, Except.ok_bind, if_neg hreal,
    if_neg htime]
  rfl

/-- A leap second is written as second 60, behind the last second of its minute. -/
theorem civil_second_nano (t : Instant) :
    (t.civil.second = 60 ∧ t.second % 60 = 59 ∧ t.nano = t.civil.nano + 1000000000 ∨
      t.civil.second = (t.second % 60).toNat ∧ t.nano = t.civil.nano) ∧
    t.civil.nano < 1000000000 := by
  have hn := t.nano_lt
  have hl := t.leap_ends_minute
  by_cases h : 1000000000 ≤ t.nano
  · have hleap : t.isLeap = true := by simpa [isLeap] using h
    have hs := hl h
    refine ⟨.inl ?_, ?_⟩
    all_goals simp only [civil, hleap, if_true]
    all_goals omega
  · have hleap : t.isLeap = false := by simpa [isLeap] using h
    refine ⟨.inr ?_, ?_⟩
    all_goals simp only [civil, hleap, Bool.false_eq_true, if_false]
    all_goals omega

theorem civil_hour_minute (t : Instant) : t.civil.hour ≤ 23 ∧ t.civil.minute ≤ 59 := by
  simp only [civil]
  omega

theorem ofCivil?_civil {t : Instant} (hy : firstYear ≤ t.civil.date.year)
    (hy' : t.civil.date.year ≤ lastYear) : ofCivil? t.civil 0 = some t := by
  obtain ⟨hsec, hnano⟩ := civil_second_nano t
  obtain ⟨hhour, hmin⟩ := civil_hour_minute t
  have hminute : t.civil.date.toDay * 1440 + t.civil.hour * 60 + t.civil.minute - 0 =
      t.second / 60 := by
    simp only [civil, Date.toDay_ofDay]
    omega
  have hyear : (Date.ofDay (t.second / 60 / 1440)).year = t.civil.date.year := by
    rw [show t.second / 60 / 1440 = t.second / 86400 by omega]
    rfl
  have hvalid : t.civil.date.isReal ∧ t.civil.hour ≤ 23 ∧ t.civil.minute ≤ 59 ∧
      t.civil.second ≤ 60 ∧ t.civil.nano < 1000000000 :=
    ⟨Date.isReal_ofDay _, hhour, hmin, by omega, hnano⟩
  rw [ofCivil?, dif_pos hvalid]
  simp only [hminute, hyear, hy, hy', and_self, if_true]
  split
  · refine congrArg some (ext ?_ ?_)
    all_goals simp only
    all_goals omega
  · refine congrArg some (ext ?_ ?_)
    all_goals simp only
    all_goals omega

theorem IsStored.milli {t : Instant} (h : t.IsStored) :
    t.civil.nano / 1000000 * 1000000 = t.civil.nano := by
  have hdvd : 1000000 ∣ t.nano := Dvd.intro_left _ (congrArg nano h.truncate_eq)
  refine Nat.div_mul_cancel ?_
  cases (civil_second_nano t).1 with
  | inl h =>
    rw [h.2.2] at hdvd
    exact (Nat.dvd_add_left (by decide)).1 hdvd
  | inr h => rwa [h.2] at hdvd

theorem IsStored.parse_render {t : Instant} (h : t.IsStored) : parse t.render = .ok t := by
  obtain ⟨h0, h9⟩ := h.year
  obtain ⟨hhour, hmin⟩ := civil_hour_minute t
  obtain ⟨hsec, hnano⟩ := civil_second_nano t
  have hyear : (t.civil.date.year.toNat : Int) = t.civil.date.year := Int.toNat_of_nonneg h0
  have hdate : (⟨(t.civil.date.year.toNat : Int), t.civil.date.month, t.civil.date.day⟩ : Date) =
      t.civil.date := by rw [hyear]
  have hread := parse_write (fits_fields h.year) (by rw [hdate]; exact Date.isReal_ofDay _) hhour
    hmin (by omega)
  have hcivil := ofCivil?_civil (t := t) (by unfold firstYear; omega) (by unfold lastYear; omega)
  rw [render_eq_write h.year, fields, hread, hdate, h.milli]
  rw [show (⟨t.civil.date, t.civil.hour, t.civil.minute, t.civil.second, t.civil.nano⟩ : Civil) =
    t.civil from rfl, hcivil]

theorem isStored_truncate {t : Instant} (h : t.HasFourDigitYear) : t.truncate.IsStored :=
  ⟨h, ext rfl (by simp only [truncate]; omega)⟩

theorem render_truncate {t : Instant} (h : t.HasFourDigitYear) : t.truncate.render = t.render := by
  rw [render_eq_write h, render_eq_write (isStored_truncate h).year, fields_truncate]

theorem ofText_toText {t : Instant} (h : t.HasFourDigitYear) :
    ofText t.toText = .ok t.truncate := by
  rw [ofText, toText, String.toList_ofList, ← render_truncate h,
    (isStored_truncate h).parse_render]

theorem IsStored.ofText_toText {t : Instant} (h : t.IsStored) : ofText t.toText = .ok t := by
  rw [Instant.ofText_toText h.year, h.truncate_eq]

/- What is known of an instant that was read from some text. -/

theorem takeDigits_lt {width n : Nat} {cs rest : List Char}
    (h : takeDigits width cs = .ok (n, rest)) : n < 10 ^ width := by
  rw [takeDigits] at h
  split at h
  · next hd =>
    obtain ⟨hlen, hall⟩ := Bool.and_eq_true_iff.1 hd
    have hlt := Decimal.valueFrom_lt (List.all_eq_true.1 hall) 0
    rw [of_decide_eq_true hlen, Nat.zero_add, Nat.one_mul] at hlt
    obtain ⟨rfl, -⟩ := Prod.mk.inj (Except.ok.inj h)
    exact hlt
  · cases h

theorem of_fraction {α : Type} {cs : List Char} {f : Nat × List Char → Except Refusal α} {a : α}
    (h : (match cs with
      | '.' :: cs => takeNanos cs >>= f
      | cs => .ok (0, cs) >>= f) = .ok a) : ∃ p, f p = .ok a := by
  split at h
  · obtain ⟨p, -, h⟩ := Except.bind_eq_ok h
    exact ⟨p, h⟩
  · exact ⟨_, h⟩

theorem parse_eq_ok {cs : List Char} {t : Instant} (h : parse cs = .ok t) :
    ∃ (c : Civil) (offset : Int), 0 ≤ c.date.year ∧ c.date.year ≤ 9999 ∧ offset.natAbs < 1440 ∧
      ofCivil? c offset = some t := by
  rw [parse] at h
  obtain ⟨-, h⟩ := Except.of_guard h
  obtain ⟨⟨year, _⟩, hyear, h⟩ := Except.bind_eq_ok h
  obtain ⟨_, -, h⟩ := Except.bind_eq_ok h
  obtain ⟨⟨month, _⟩, -, h⟩ := Except.bind_eq_ok h
  obtain ⟨_, -, h⟩ := Except.bind_eq_ok h
  obtain ⟨⟨day, _⟩, -, h⟩ := Except.bind_eq_ok h
  obtain ⟨-, h⟩ := Except.of_guard h
  obtain ⟨_, -, h⟩ := Except.bind_eq_ok h
  obtain ⟨⟨hour, _⟩, -, h⟩ := Except.bind_eq_ok h
  obtain ⟨_, -, h⟩ := Except.bind_eq_ok h
  obtain ⟨⟨minute, _⟩, -, h⟩ := Except.bind_eq_ok h
  obtain ⟨_, -, h⟩ := Except.bind_eq_ok h
  obtain ⟨⟨second, _⟩, -, h⟩ := Except.bind_eq_ok h
  obtain ⟨⟨nano, _⟩, h⟩ := of_fraction h
  obtain ⟨-, h⟩ := Except.of_guard h
  obtain ⟨⟨offset, _⟩, -, h⟩ := Except.bind_eq_ok h
  obtain ⟨-, h⟩ := Except.of_guard h
  obtain ⟨hoffset, h⟩ := Except.of_guard h
  have hlt := takeDigits_lt hyear
  refine ⟨⟨⟨year, month, day⟩, hour, minute, second, nano⟩, offset, Int.natCast_nonneg _, ?_,
    Nat.not_le.1 hoffset, ?_⟩
  · simp only
    omega
  · dsimp only at h
    split at h
    · next u hu => rw [hu, Except.ok.inj h]
    · cases h

theorem year_of_ofCivil? {c : Civil} {offset : Int} {t : Instant} (h : ofCivil? c offset = some t)
    (ho : offset.natAbs < 1440) :
    c.date.year - 1 ≤ t.civil.date.year ∧ t.civil.date.year ≤ c.date.year + 1 := by
  by_cases hv : c.date.isReal ∧ c.hour ≤ 23 ∧ c.minute ≤ 59 ∧ c.second ≤ 60 ∧ c.nano < 1000000000
  · rw [ofCivil?, dif_pos hv] at h
    have ⟨hreal, hhour, hminute, hsecond, _⟩ := hv
    have hs : t.second / 60 = c.date.toDay * 1440 + c.hour * 60 + c.minute - offset := by
      dsimp only at h
      split at h
      · split at h
        · rw [← Option.some.inj h]
          simp only
          omega
        · rw [← Option.some.inj h]
          simp only
          omega
      · cases h
    exact Date.year_ofDay_near hreal (by omega) (by omega)
  · rw [ofCivil?, dif_neg hv] at h
    cases h

/-- The offset of a text can move its instant out of the years of four digits, by one year. -/
theorem year_of_ofText {s : String} {t : Instant} (h : ofText s = .ok t) :
    t.HasFourDigitYear ∨ t.civil.date.year = -1 ∨ t.civil.date.year = 10000 := by
  rw [ofText] at h
  split at h
  · next u hu =>
    obtain rfl := Except.ok.inj h
    obtain ⟨c, offset, h0, h9, ho, hc⟩ := parse_eq_ok hu
    have := year_of_ofCivil? hc ho
    unfold HasFourDigitYear
    omega
  · cases h

/- The form of the other years starts with a sign. -/

theorem renderYear_of_not_fourDigit {y : Int} (h : ¬(0 ≤ y ∧ y ≤ 9999)) :
    ∃ sign ds, renderYear y = sign :: ds ∧ sign.isDigit = false ∧ 4 ≤ ds.length := by
  have hb : ¬(decide (0 ≤ y) && decide (y ≤ 9999)) = true := by simpa using h
  simp only [renderYear, if_neg hb, List.cons_append]
  refine ⟨_, _, rfl, ?_, ?_⟩
  · split <;> rfl
  · simp only [List.length_append, List.length_replicate]
    omega

theorem render_of_not_fourDigit {t : Instant} (h : ¬t.HasFourDigitYear) :
    ∃ sign ds, t.render = sign :: ds ∧ sign.isDigit = false ∧ 24 ≤ ds.length := by
  obtain ⟨sign, ds, hy, hs, hl⟩ := renderYear_of_not_fourDigit h
  simp only [render, Civil.render, hy, List.cons_append]
  refine ⟨_, _, rfl, hs, ?_⟩
  simp only [List.length_append, List.length_cons, Decimal.fixed_length, List.length_nil]
  omega

theorem ofText_toText_of_not_fourDigit {t : Instant} (h : ¬t.HasFourDigitYear) :
    ofText t.toText = .error (.invalidInstant t.toText "input contains invalid characters") := by
  obtain ⟨sign, ds, hr, hs, hl⟩ := render_of_not_fourDigit h
  have hlen : ¬Text.byteLength t.render < 19 := by
    have := Text.length_le_byteLength t.render
    rw [hr, List.length_cons] at this
    rw [hr]
    omega
  have hyear : takeDigits 4 t.render = .error .invalid := by
    simp [takeDigits, hr, hs]
  have hparse : parse t.render = .error .invalid := by
    rw [parse, if_neg hlen]
    simp only [hyear]
    rfl
  rw [ofText, toText, String.toList_ofList, hparse]
  rfl

def HasStoredForm (text : String) : Prop :=
  ∃ ns, storedForm.Fits ns ∧ text.toList = storedForm.write ns

theorem normalize_eq_ok {v w : Json.Value} (h : normalize v = .ok w) :
    ∃ s t, v = .string s ∧ ofText s = .ok t ∧ w = .string t.toText := by
  cases v with
  | string s =>
    obtain ⟨t, ht, hw⟩ := Except.bind_eq_ok h
    exact ⟨s, t, rfl, ht, (Except.ok.inj hw).symm⟩
  | _ => cases h

/-- A version that is accepted is normalized to its instant in UTC. In the years of four digits the
result has the shape of the stored form, with 24 bytes, and is normalized to itself. The offset can
move the instant into the year before or behind them: then the result is longer, and normalizing
refuses it. -/
theorem normalize_normalized {v w : Json.Value} (h : normalize v = .ok w) :
    ∃ s t, v = .string s ∧ ofText s = .ok t ∧ w = .string t.toText ∧
      (t.HasFourDigitYear ∨ t.civil.date.year = -1 ∨ t.civil.date.year = 10000) ∧
      (t.HasFourDigitYear → HasStoredForm t.toText ∧ (Text.bytes t.toText).length = 24 ∧
        normalize w = .ok w) ∧
      (¬t.HasFourDigitYear → ¬HasStoredForm t.toText ∧ 24 < (Text.bytes t.toText).length ∧
        normalize w =
          .error (.invalidInstant t.toText "input contains invalid characters")) := by
  obtain ⟨s, t, rfl, ht, rfl⟩ := normalize_eq_ok h
  refine ⟨s, t, rfl, ht, rfl, year_of_ofText ht, fun hy => ?_, fun hn => ?_⟩
  · have hform : t.toText.toList = storedForm.write t.fields := by
      rw [toText, String.toList_ofList, render_eq_write hy]
    have hlen : (Text.bytes t.toText).length = 24 := by
      rw [toText, Text.length_bytes_ofList (isAscii_render hy), length_render hy]
    refine ⟨⟨t.fields, fits_fields hy, hform⟩, hlen, ?_⟩
    rw [normalize, ofText_toText hy, Except.ok_bind, toText, render_truncate hy, ← toText]
    rfl
  · obtain ⟨sign, ds, hr, hs, hl⟩ := render_of_not_fourDigit hn
    refine ⟨?_, ?_, ?_⟩
    · intro hform
      obtain ⟨ns, hf, he⟩ := hform
      have hlen := Form.length_write hf
      rw [← he, toText, String.toList_ofList, hr, List.length_cons] at hlen
      have : ds.length + 1 = 24 := hlen
      omega
    · have := Text.length_le_byteLength t.render
      rw [hr, List.length_cons] at this
      rw [toText, Text.length_bytes, hr]
      omega
    · rw [normalize, ofText_toText_of_not_fourDigit hn]
      rfl

theorem normalize_normalized_year_end :
    normalize (.string "9999-12-31T23:59:60.1234+00:00") =
        .ok (.string "9999-12-31T23:59:60.123Z") ∧
      normalize (.string "9999-12-31T23:59:60.123Z") = .ok (.string "9999-12-31T23:59:60.123Z") ∧
      normalize (.string "9999-12-31T23:59:59-00:01") =
        .ok (.string "+10000-01-01T00:00:59.000Z") ∧
      normalize (.string "+10000-01-01T00:00:59.000Z") = .error
        (.invalidInstant "+10000-01-01T00:00:59.000Z" "input contains invalid characters") := by
  have hin : normalize (.string "9999-12-31T23:59:60.1234+00:00") =
      .ok (.string "9999-12-31T23:59:60.123Z") := rfl
  have hout : normalize (.string "9999-12-31T23:59:59-00:01") =
      .ok (.string "+10000-01-01T00:00:59.000Z") := rfl
  refine ⟨hin, ?_, hout, ?_⟩
  · obtain ⟨s, t, hs, ht, -, -, hyear, -⟩ := normalize_normalized hin
    obtain rfl := Json.Value.string.inj hs
    obtain rfl : { second := 253402300799, nano := 1123400000 } = t := Except.ok.inj ht
    exact (hyear (by decide)).2.2
  · obtain ⟨s, t, hs, ht, -, -, -, hyear⟩ := normalize_normalized hout
    obtain rfl := Json.Value.string.inj hs
    obtain rfl : { second := 253402300859, nano := 0 } = t := Except.ok.inj ht
    exact (hyear (by decide)).2.2

end TemporalGraph.Instant
