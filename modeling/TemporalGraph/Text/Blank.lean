/-! Blank characters and the trimming of texts, read as lists of characters. -/

namespace TemporalGraph.Text

/-- The characters with the Unicode property White_Space. -/
def isBlank (c : Char) : Bool :=
  let n := c.toNat
  (9 ≤ n && n ≤ 13) || n == 0x20 || n == 0x85 || n == 0xA0 || n == 0x1680
    || (0x2000 ≤ n && n ≤ 0x200A) || n == 0x2028 || n == 0x2029 || n == 0x202F
    || n == 0x205F || n == 0x3000

def trimStart (s : List Char) : List Char := s.dropWhile isBlank

def trimEnd (s : List Char) : List Char := (trimStart s.reverse).reverse

def trim (s : List Char) : List Char := trimEnd (trimStart s)

theorem trimEnd_append_blank (s b : List Char) (h : ∀ c ∈ b, isBlank c) :
    trimEnd (s ++ b) = trimEnd s := by
  have drop : ∀ l : List Char, (∀ c ∈ l, isBlank c) → ∀ r, trimStart (l ++ r) = trimStart r := by
    intro l hl r
    induction l with
    | nil => rfl
    | cons c l ih =>
      have hc := hl c (by simp)
      simpa [trimStart, List.dropWhile_cons, hc] using ih fun d hd => hl d (by simp [hd])
  simp only [trimEnd, List.reverse_append]
  rw [drop b.reverse (by simpa using h)]

theorem trimEnd_append_rest (s : List Char) :
    ∃ b, s = trimEnd s ++ b ∧ ∀ c ∈ b, isBlank c := by
  refine ⟨(s.reverse.takeWhile isBlank).reverse, ?_, fun c hc => ?_⟩
  · have h := congrArg List.reverse
      (List.takeWhile_append_dropWhile (p := isBlank) (l := s.reverse))
    rw [List.reverse_append, List.reverse_reverse] at h
    exact h.symm
  · exact List.all_eq_true.1 (List.all_takeWhile (p := isBlank) (l := s.reverse)) c
      (List.mem_reverse.1 hc)

end TemporalGraph.Text
