import Mathlib.Algebra.Order.Ring.Nat
import Mathlib.Tactic.ByContra
import TemporalGraph.Instant.Calendar
/-!
The calendar in order. Main statements: of two days the earlier one has the earlier date, across the
ends of months and of years, leap years or not; and the date of a day is a real one that leads back
to the day.
-/

namespace TemporalGraph.Calendar

theorem daysBeforeYear_mono {y z : Int} (h : y ≤ z) : daysBeforeYear y ≤ daysBeforeYear z := by
  unfold daysBeforeYear
  omega

theorem yearOfDay_mono {d e : Int} (h : d ≤ e) : yearOfDay d ≤ yearOfDay e := by
  have hd := (daysBeforeYear_yearOfDay d).1
  have he := (daysBeforeYear_yearOfDay e).2
  by_contra hlt
  have := daysBeforeYear_mono (show yearOfDay e + 1 ≤ yearOfDay d by omega)
  omega

theorem daysBeforeYear_succ (y : Int) :
    daysBeforeYear (y + 1) = daysBeforeYear y + ((monthLengths (isLeapYear y)).sum : Nat) := by
  unfold daysBeforeYear
  cases h : isLeapYear y with
  | false =>
    simp [isLeapYear] at h
    simp [monthLengths]
    omega
  | true =>
    simp [isLeapYear] at h
    simp [monthLengths]
    omega

theorem le_yearOfDay {y d : Int} (h : daysBeforeYear y ≤ d) : y ≤ yearOfDay d := by
  have hd := (daysBeforeYear_yearOfDay d).2
  by_contra hlt
  have := daysBeforeYear_mono (show yearOfDay d + 1 ≤ y by omega)
  omega

theorem yearOfDay_lt {y d : Int} (h : d < daysBeforeYear y) : yearOfDay d < y := by
  have hd := (daysBeforeYear_yearOfDay d).1
  by_contra hle
  have := daysBeforeYear_mono (show y ≤ yearOfDay d by omega)
  omega

theorem splitDays_lt (ls : List Nat) {m n : Nat} (h : m < n) :
    (splitDays ls m).1 < (splitDays ls n).1 ∨
      (splitDays ls m).1 = (splitDays ls n).1 ∧ (splitDays ls m).2 < (splitDays ls n).2 := by
  induction ls generalizing m n with
  | nil => exact .inr ⟨rfl, h⟩
  | cons l ls ih =>
    simp only [splitDays]
    by_cases hm : m < l
    · by_cases hn : n < l
      · simp [hm, hn, h]
      · simp [hm, hn]
    · have := ih (show m - l < n - l by omega)
      simp only [hm, show ¬n < l by omega, if_false]
      omega

theorem splitDays_bounds {ls : List Nat} {n b : Nat} (hn : n < ls.sum) (hb : ∀ l ∈ ls, l ≤ b) :
    (splitDays ls n).1 < ls.length ∧ (splitDays ls n).2 < b := by
  induction ls generalizing n with
  | nil => simp at hn
  | cons l ls ih =>
    have hl := hb l (by simp)
    simp only [List.sum_cons, List.length_cons, splitDays] at hn ⊢
    split
    · simp only
      omega
    · have := ih (show n - l < ls.sum by omega) fun k hk => hb k (by simp [hk])
      simp only
      omega

theorem splitDays_spec {ls : List Nat} {n : Nat} (hn : n < ls.sum) :
    (ls.take (splitDays ls n).1).sum + (splitDays ls n).2 = n ∧
      (splitDays ls n).2 < ls.getD (splitDays ls n).1 0 := by
  induction ls generalizing n with
  | nil => simp at hn
  | cons l ls ih =>
    simp only [List.sum_cons] at hn
    simp only [splitDays]
    split
    · simpa
    · obtain ⟨hs, hr⟩ := ih (show n - l < ls.sum by omega)
      simp only [List.take_succ_cons, List.sum_cons, List.getD_cons_succ]
      exact ⟨by omega, hr⟩

theorem sum_take_add_le {ls : List Nat} {k n : Nat} (h : n ≤ ls.getD k 0) :
    (ls.take k).sum + n ≤ ls.sum := by
  induction ls generalizing k with
  | nil => simpa using h
  | cons l ls ih =>
    cases k with
    | zero =>
      simp only [List.getD_cons_zero] at h
      simp only [List.take_zero, List.sum_nil, List.sum_cons]
      omega
    | succ k =>
      have := ih (by simpa using h)
      simp only [List.take_succ_cons, List.sum_cons]
      omega

namespace Date

def Before (d e : Date) : Prop :=
  d.year < e.year ∨ d.year = e.year ∧ (d.month < e.month ∨ d.month = e.month ∧ d.day < e.day)

theorem ofDay_before {d e : Int} (h : d < e) : (ofDay d).Before (ofDay e) := by
  have hd := (daysBeforeYear_yearOfDay (d + epoch)).1
  have hy := yearOfDay_mono (show d + epoch ≤ e + epoch by omega)
  simp only [Before, ofDay]
  rcases Int.lt_or_eq_of_le hy with hlt | heq
  · exact .inl hlt
  · rw [← heq]
    have hn : (d + epoch - daysBeforeYear (yearOfDay (d + epoch))).toNat <
        (e + epoch - daysBeforeYear (yearOfDay (d + epoch))).toNat := by omega
    have := splitDays_lt (monthLengths (isLeapYear (yearOfDay (d + epoch)))) hn
    omega

theorem dayOfYear_lt (d : Int) :
    (d + epoch - daysBeforeYear (yearOfDay (d + epoch))).toNat <
      (monthLengths (isLeapYear (yearOfDay (d + epoch)))).sum := by
  have h := daysBeforeYear_yearOfDay (d + epoch)
  rw [daysBeforeYear_succ] at h
  omega

theorem ofDay_bounds (d : Int) : (ofDay d).month ≤ 12 ∧ (ofDay d).day ≤ 31 := by
  have hb : ∀ l ∈ monthLengths (isLeapYear (yearOfDay (d + epoch))), l ≤ 31 := by
    cases isLeapYear (yearOfDay (d + epoch)) <;> decide
  have hs := splitDays_bounds (dayOfYear_lt d) hb
  have hl : (monthLengths (isLeapYear (yearOfDay (d + epoch)))).length = 12 := rfl
  simp only [ofDay]
  omega

theorem isReal_ofDay (d : Int) : (ofDay d).isReal = true := by
  have hr := (splitDays_spec (dayOfYear_lt d)).2
  simp only [isReal, Bool.and_eq_true, decide_eq_true_eq]
  exact ⟨⟨⟨Nat.le_add_left 1 _, (ofDay_bounds d).1⟩, Nat.le_add_left 1 _⟩, hr⟩

theorem toDay_ofDay (d : Int) : (ofDay d).toDay = d := by
  have hs := (splitDays_spec (dayOfYear_lt d)).1
  have hy := (daysBeforeYear_yearOfDay (d + epoch)).1
  simp only [toDay, ofDay, Nat.add_sub_cancel, ← List.sum_eq_foldl]
  omega

theorem toDay_bounds {d : Date} (h : d.isReal = true) :
    daysBeforeYear d.year ≤ d.toDay + epoch ∧ d.toDay + epoch < daysBeforeYear (d.year + 1) := by
  simp only [isReal, Bool.and_eq_true, decide_eq_true_eq] at h
  have hs := sum_take_add_le h.2
  have hd := h.1.2
  simp only [daysBeforeYear_succ, toDay, ← List.sum_eq_foldl]
  omega

/-- A day before or after a date lies in the year of the date or in the one next to it. -/
theorem year_ofDay_near {d : Date} (h : d.isReal = true) {day : Int} (hl : d.toDay - 1 ≤ day)
    (hu : day ≤ d.toDay + 1) : d.year - 1 ≤ (ofDay day).year ∧ (ofDay day).year ≤ d.year + 1 := by
  obtain ⟨hb, ha⟩ := toDay_bounds h
  have hbefore : daysBeforeYear (d.year - 1) ≤ daysBeforeYear d.year - 1 := by
    unfold daysBeforeYear
    omega
  have hafter : daysBeforeYear (d.year + 1) ≤ daysBeforeYear (d.year + 2) - 1 := by
    unfold daysBeforeYear
    omega
  have hlow : d.year - 1 ≤ yearOfDay (day + epoch) := le_yearOfDay (by omega)
  have hhigh : yearOfDay (day + epoch) < d.year + 2 := yearOfDay_lt (by omega)
  simp only [ofDay]
  omega

end Date

end TemporalGraph.Calendar
