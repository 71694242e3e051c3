/-!
Decimal digits: numbers of a fixed width, natural numbers without leading zeros, the value of a run
of digits, and the numbers that 64 bits hold. Main statements: a number written with enough digits
reads back, and so does one without leading zeros.
-/

namespace TemporalGraph.Decimal

def digit (n : Nat) : Char :=
  match n % 10 with
  | 0 => '0' | 1 => '1' | 2 => '2' | 3 => '3' | 4 => '4'
  | 5 => '5' | 6 => '6' | 7 => '7' | 8 => '8' | _ => '9'

def digitValue (c : Char) : Nat := c.toNat - 48

def valueFrom (acc : Nat) (ds : List Char) : Nat :=
  ds.foldl (fun n c => 10 * n + digitValue c) acc

def value (ds : List Char) : Nat := valueFrom 0 ds

/-- The last `width` digits of `n`, zeros included. -/
def fixed : Nat → Nat → List Char
  | 0, _ => []
  | width + 1, n => fixed width (n / 10) ++ [digit n]

def natural (n : Nat) : List Char := Nat.toDigits 10 n

def integer : Int → List Char
  | .ofNat n => natural n
  | .negSucc n => '-' :: natural (n + 1)

def isInt64 (i : Int) : Bool := -0x8000000000000000 ≤ i && i ≤ 0x7FFFFFFFFFFFFFFF

def isNat64 (n : Nat) : Bool := n ≤ 0xFFFFFFFFFFFFFFFF

theorem digit_cases (n : Nat) : digitValue (digit n) = n % 10 ∧ (digit n).isDigit = true := by
  have h : n % 10 < 10 := Nat.mod_lt _ (by decide)
  unfold digit
  generalize n % 10 = d at h
  match d, h with
  | 0, _ | 1, _ | 2, _ | 3, _ | 4, _ | 5, _ | 6, _ | 7, _ | 8, _ | 9, _ =>
    exact ⟨by decide, by decide⟩

theorem fixed_length (width n : Nat) : (fixed width n).length = width := by
  induction width generalizing n with
  | zero => rfl
  | succ w ih => simp [fixed, ih]

theorem isDigit_of_mem_fixed {width n : Nat} {c : Char} (h : c ∈ fixed width n) :
    c.isDigit = true := by
  induction width generalizing n with
  | zero => simp [fixed] at h
  | succ w ih =>
    rcases List.mem_append.1 h with h | h
    · exact ih h
    · rw [List.mem_singleton.1 h]
      exact (digit_cases n).2

theorem value_fixed (width n : Nat) : value (fixed width n) = n % Nat.pow 10 width := by
  induction width generalizing n with
  | zero => simp [fixed, value, valueFrom, Nat.mod_one]
  | succ w ih =>
    have h : value (fixed w (n / 10) ++ [digit n])
        = 10 * value (fixed w (n / 10)) + digitValue (digit n) := by
      simp [value, valueFrom]
    have hp : Nat.pow 10 (w + 1) = 10 * Nat.pow 10 w := Nat.mul_comm _ _
    rw [fixed, h, ih, (digit_cases n).1, hp, Nat.mod_mul]
    omega

theorem value_natural (n : Nat) : value (natural n) = n := Nat.ofDigitChars_ten_toDigits

theorem isDigit_of_mem_natural {n : Nat} {c : Char} (h : c ∈ natural n) : c.isDigit = true :=
  Nat.isDigit_of_mem_toDigits (by decide) (by decide) h

theorem natural_ne_nil (n : Nat) : natural n ≠ [] := Nat.toDigits_ne_nil

theorem head?_natural {n : Nat} (h : 0 < n) : (natural n).head? ≠ some '0' := by
  induction n using Nat.strongRecOn with
  | ind n ih =>
    by_cases hn : n < 10
    · rw [natural, Nat.toDigits_of_lt_base hn]
      simpa using Nat.ne_of_gt h
    · have hsplit : natural n = natural (n / 10) ++ [(n % 10).digitChar] :=
        Nat.toDigits_of_base_le (by decide) (Nat.not_lt.1 hn)
      have hlead := ih (n / 10) (by omega) (by omega)
      obtain ⟨d, ds, hd⟩ := List.exists_cons_of_ne_nil (natural_ne_nil (n / 10))
      rw [hd] at hlead
      rw [hsplit, hd]
      exact hlead

theorem le_valueFrom (acc : Nat) (ds : List Char) : acc ≤ valueFrom acc ds := by
  induction ds generalizing acc with
  | nil => exact Nat.le_refl _
  | cons d ds ih =>
    calc acc ≤ 10 * acc + digitValue d := by omega
      _ ≤ valueFrom acc (d :: ds) := ih _

end TemporalGraph.Decimal
