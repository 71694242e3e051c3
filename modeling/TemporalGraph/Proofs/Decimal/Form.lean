import Mathlib.Algebra.Order.Ring.Nat
import Mathlib.Data.List.Forall2
import TemporalGraph.Decimal.Digits
/-!
Rows of decimal numbers of fixed widths, each with a mark behind it. Main statement: two rows of one
form compare like the lists of their numbers.
-/

namespace TemporalGraph.Decimal

theorem toNat_digit (n : Nat) : (digit n).toNat = 48 + n % 10 := by
  have h : n % 10 < 10 := Nat.mod_lt _ (by decide)
  unfold digit
  generalize n % 10 = d at h
  match d, h with
  | 0, _ | 1, _ | 2, _ | 3, _ | 4, _ | 5, _ | 6, _ | 7, _ | 8, _ | 9, _ => decide

theorem digit_lt_digit {m n : Nat} (h : m % 10 < n % 10) : digit m < digit n := by
  have hlt : (digit m).toNat < (digit n).toNat := by
    rw [toNat_digit, toNat_digit]
    omega
  exact hlt

theorem toNat_lt_of_isDigit {c : Char} (h : c.isDigit = true) : c.toNat < 128 := by
  have hle : c.toNat ≤ 57 := (Char.isDigit_iff_toNat.1 h).2
  omega

theorem valueFrom_lt {ds : List Char} (h : ∀ c ∈ ds, c.isDigit = true) (acc : Nat) :
    valueFrom acc ds < (acc + 1) * 10 ^ ds.length := by
  induction ds generalizing acc with
  | nil => simp [valueFrom]
  | cons c ds ih =>
    have hc : c.toNat ≤ 57 := (Char.isDigit_iff_toNat.1 (h c (by simp))).2
    have hdigit : digitValue c + 1 ≤ 10 := by
      unfold digitValue
      omega
    calc valueFrom acc (c :: ds) = valueFrom (10 * acc + digitValue c) ds := rfl
      _ < (10 * acc + digitValue c + 1) * 10 ^ ds.length := ih (fun d hd => h d (by simp [hd])) _
      _ ≤ ((acc + 1) * 10) * 10 ^ ds.length := Nat.mul_le_mul_right _ (by omega)
      _ = (acc + 1) * 10 ^ (c :: ds).length := by
        rw [List.length_cons, Nat.pow_succ', Nat.mul_assoc]

theorem fixed_append_lt {width m n : Nat} (h : m < n) (hn : n < 10 ^ width) (r s : List Char) :
    fixed width m ++ r < fixed width n ++ s := by
  induction width generalizing m n r s with
  | zero =>
    simp at hn
    omega
  | succ width ih =>
    simp only [fixed, List.append_assoc, List.singleton_append]
    by_cases hd : m / 10 < n / 10
    · exact ih hd (by omega) _ _
    · have he : m / 10 = n / 10 := by omega
      rw [he]
      exact List.append_left_lt (.rel (digit_lt_digit (by omega)))

/-- A form gives the width of each number and the mark behind it. -/
abbrev Form := List (Nat × Char)

def Form.write : Form → List Nat → List Char
  | (width, mark) :: form, n :: ns => fixed width n ++ mark :: write form ns
  | _, _ => []

def Form.Fits (form : Form) (ns : List Nat) : Prop :=
  List.Forall₂ (fun place n => n < 10 ^ place.1) form ns

namespace Form

variable {form : Form} {ms ns : List Nat}

theorem write_lt (hm : form.Fits ms) (hn : form.Fits ns) (h : ms < ns) :
    form.write ms < form.write ns := by
  induction hn generalizing ms with
  | nil => cases h
  | @cons place n form ns hlt hn ih =>
    cases hm with
    | @cons _ m _ ms _ hm =>
      simp only [write]
      rcases List.cons_lt_cons_iff.1 h with hmn | ⟨rfl, htail⟩
      · exact fixed_append_lt hmn hlt _ _
      · exact List.append_left_lt (List.cons_lt_cons_iff.2 (.inr ⟨rfl, ih hm htail⟩))

theorem length_write (h : form.Fits ns) :
    (form.write ns).length = (form.map fun place => place.1 + 1).sum := by
  induction h with
  | nil => rfl
  | @cons place n form ns hlt hn ih =>
    simp only [write, List.length_append, fixed_length, List.length_cons, ih, List.map_cons,
      List.sum_cons]
    omega

theorem toNat_lt_of_mem_write (hf : ∀ place ∈ form, place.2.toNat < 128) {c : Char}
    (h : c ∈ form.write ns) : c.toNat < 128 := by
  induction form generalizing ns with
  | nil => simp [write] at h
  | cons place form ih =>
    cases ns with
    | nil => simp [write] at h
    | cons n ns =>
      simp only [write, List.mem_append, List.mem_cons] at h
      rcases h with h | rfl | h
      · exact toNat_lt_of_isDigit (isDigit_of_mem_fixed h)
      · exact hf place (by simp)
      · exact ih (fun p hp => hf p (by simp [hp])) h

end Form

end TemporalGraph.Decimal
