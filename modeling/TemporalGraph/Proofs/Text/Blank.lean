import Mathlib.Data.List.TakeWhile
import TemporalGraph.Text.Blank
/-!
Trimming. Main statements: trimming takes the blanks at an end of a text, and stops at the first
character that is none.
-/

namespace TemporalGraph.Text

variable {text lead trail : List Char}

theorem exists_trimStart (text : List Char) :
    ∃ lead, text = lead ++ trimStart text ∧ ∀ c ∈ lead, isBlank c :=
  ⟨text.takeWhile isBlank, List.takeWhile_append_dropWhile.symm, fun _ => List.mem_takeWhile_imp⟩

theorem trimStart_append_blank (h : ∀ c ∈ lead, isBlank c) (text : List Char) :
    trimStart (lead ++ text) = trimStart text := List.dropWhile_append_of_pos h

theorem trimStart_of_head (h : ∀ c ∈ text.head?, ¬isBlank c) : trimStart text = text := by
  cases text with
  | nil => rfl
  | cons c cs => exact List.dropWhile_cons_of_neg (h c rfl)

theorem head_trimStart (text : List Char) : ∀ c ∈ (trimStart text).head?, ¬isBlank c := by
  induction text with
  | nil => simp [trimStart]
  | cons c cs ih =>
    by_cases hc : isBlank c
    · rwa [trimStart, List.dropWhile_cons_of_pos hc]
    · rw [trimStart, List.dropWhile_cons_of_neg hc]
      simpa using hc

theorem trimEnd_of_last (h : ∀ c ∈ text.getLast?, ¬isBlank c) : trimEnd text = text := by
  rw [trimEnd, trimStart_of_head (by rwa [List.head?_reverse]), List.reverse_reverse]

theorem trimEnd_append_of_last (h : ∀ c ∈ text.getLast?, ¬isBlank c)
    (ht : ∀ c ∈ trail, isBlank c) : trimEnd (text ++ trail) = text := by
  rw [trimEnd_append_blank _ _ ht, trimEnd_of_last h]

theorem length_trimEnd_le (text : List Char) : (trimEnd text).length ≤ text.length := by
  obtain ⟨trail, he, -⟩ := trimEnd_append_rest text
  have hlength := congrArg List.length he
  rw [List.length_append] at hlength
  omega

theorem length_trimEnd_append_le (front text : List Char) :
    (trimEnd (front ++ text)).length ≤ front.length + (trimEnd text).length := by
  obtain ⟨trail, he, htrail⟩ := trimEnd_append_rest text
  calc (trimEnd (front ++ text)).length
      = (trimEnd (front ++ trimEnd text ++ trail)).length := by rw [List.append_assoc, ← he]
    _ = (trimEnd (front ++ trimEnd text)).length := by rw [trimEnd_append_blank _ _ htrail]
    _ ≤ (front ++ trimEnd text).length := length_trimEnd_le _
    _ = front.length + (trimEnd text).length := List.length_append

end TemporalGraph.Text
