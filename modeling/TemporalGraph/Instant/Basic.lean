import TemporalGraph.Instant.Calendar
/-!
Instants on the UTC time line, to the nanosecond. A leap second is the last second of a minute with
a thousand million nanoseconds or more, so it lies behind that second and before the next one.
-/

namespace TemporalGraph

structure Instant where
  second : Int
  nano : Nat
  nano_lt : nano < 2000000000 := by omega
  leap_ends_minute : 1000000000 ≤ nano → second % 60 = 59 := by omega
  deriving DecidableEq

namespace Instant

def isLeap (t : Instant) : Bool := 1000000000 ≤ t.nano

instance : LT Instant := ⟨fun a b => a.second < b.second ∨ a.second = b.second ∧ a.nano < b.nano⟩

instance : LE Instant := ⟨fun a b => a.second < b.second ∨ a.second = b.second ∧ a.nano ≤ b.nano⟩

theorem lt_def {a b : Instant} :
    a < b ↔ a.second < b.second ∨ a.second = b.second ∧ a.nano < b.nano := Iff.rfl

theorem le_def {a b : Instant} :
    a ≤ b ↔ a.second < b.second ∨ a.second = b.second ∧ a.nano ≤ b.nano := Iff.rfl

instance (a b : Instant) : Decidable (a < b) := decidable_of_iff _ lt_def.symm

instance (a b : Instant) : Decidable (a ≤ b) := decidable_of_iff _ le_def.symm

theorem ext {a b : Instant} (hs : a.second = b.second) (hn : a.nano = b.nano) : a = b := by
  obtain ⟨s, n, _, _⟩ := a
  obtain ⟨s', n', _, _⟩ := b
  subst hs hn
  rfl

theorem le_refl (a : Instant) : a ≤ a := by rw [le_def]; omega

theorem lt_irrefl (a : Instant) : ¬a < a := by rw [lt_def]; omega

theorem le_trans {a b c : Instant} (h : a ≤ b) (h' : b ≤ c) : a ≤ c := by
  rw [le_def] at *; omega

theorem lt_trans {a b c : Instant} (h : a < b) (h' : b < c) : a < c := by
  rw [lt_def] at *; omega

theorem lt_of_lt_of_le {a b c : Instant} (h : a < b) (h' : b ≤ c) : a < c := by
  rw [lt_def] at *; rw [le_def] at h'; omega

theorem lt_of_le_of_lt {a b c : Instant} (h : a ≤ b) (h' : b < c) : a < c := by
  rw [lt_def] at *; rw [le_def] at h; omega

theorem le_antisymm {a b : Instant} (h : a ≤ b) (h' : b ≤ a) : a = b := by
  rw [le_def] at *; exact ext (by omega) (by omega)

theorem not_lt {a b : Instant} : ¬a < b ↔ b ≤ a := by rw [lt_def, le_def]; omega

theorem not_le {a b : Instant} : ¬a ≤ b ↔ b < a := by rw [lt_def, le_def]; omega

theorem le_of_lt {a b : Instant} (h : a < b) : a ≤ b := by
  rw [lt_def] at h; rw [le_def]; omega

theorem le_total (a b : Instant) : a ≤ b ∨ b ≤ a := by rw [le_def, le_def]; omega

instance : Std.IsLinearOrder Instant where
  le_refl := le_refl
  le_trans _ _ _ := le_trans
  le_antisymm _ _ := le_antisymm
  le_total := le_total

instance : Std.LawfulOrderLT Instant where
  lt_iff a b := by rw [lt_def, le_def, le_def]; omega

def startOf (second : Int) : Instant := { second, nano := 0 }

/-- Milliseconds since the start of 1970, truncated; a leap second goes on counting. -/
def millis (t : Instant) : Int := t.second * 1000 + (t.nano / 1000000 : Nat)

def truncate (t : Instant) : Instant where
  second := t.second
  nano := t.nano / 1000000 * 1000000
  nano_lt := by have := t.nano_lt; omega
  leap_ends_minute h := t.leap_ends_minute (by omega)

def firstYear : Int := -262143

def lastYear : Int := 262142

def ofSecond? (second : Int) (nano : Nat) (h : nano < 1000000000) : Option Instant :=
  let year := (Calendar.Date.ofDay (second / 86400)).year
  if firstYear ≤ year ∧ year ≤ lastYear then
    some { second, nano, nano_lt := by omega, leap_ends_minute := by omega }
  else none

/-- The instant `s` seconds later. From within a leap second, a step forward starts at the second
before it, a step back at the second after it, and no step stays there. -/
def addSeconds? (t : Instant) (s : Int) : Option Instant :=
  if h : t.isLeap then
    have hn : t.nano - 1000000000 < 1000000000 := by have := t.nano_lt; omega
    if 0 < s then ofSecond? (t.second + s) (t.nano - 1000000000) hn
    else if s < 0 then ofSecond? (t.second + 1 + s) (t.nano - 1000000000) hn
    else some t
  else ofSecond? (t.second + s) t.nano (by simpa [isLeap] using h)

/-- Whole seconds from `u` to `t`, toward zero. A leap second counts as a second of its own toward
a later time of day. -/
def secondsSince (t u : Instant) : Int :=
  let time (x : Instant) := x.second % 86400
  let leap :=
    if time u < time t && u.isLeap then 1
    else if time t < time u && t.isLeap then -1
    else 0
  (((t.second - u.second + leap) * 1000000000 + t.nano - u.nano) : Int).tdiv 1000000000

end Instant

end TemporalGraph
