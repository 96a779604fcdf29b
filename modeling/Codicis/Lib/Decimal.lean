/-
Decimal digits, and signed numbers of 64 bits.
-/
import Mathlib.Algebra.Order.Ring.Int
import Mathlib.Data.Nat.Digits.Defs

namespace Codicis

lemma isDigit_iff {c : Char} : c.isDigit = true ↔ ¬ (c < '0' ∨ '9' < c) := by
  simp only [Char.isDigit, Bool.and_eq_true, decide_eq_true_eq, not_or, Char.not_lt]
  rfl

lemma le_ofDigitChars (cs : List Char) (v : ℕ) : v ≤ Nat.ofDigitChars 10 cs v := by
  rw [Nat.ofDigitChars_eq_ofDigitChars_zero]
  exact (Nat.le_mul_of_pos_left v (Nat.pow_pos (by decide))).trans (Nat.le_add_right _ _)

/-- A number is written in digits. -/
lemma isDigit_of_mem_repr {n : ℕ} {c : Char} (h : c ∈ n.repr.toList) : c.isDigit = true := by
  rw [Nat.toList_repr] at h
  exact Nat.isDigit_of_mem_toDigits (by decide) (by decide) h

/-- What is not a digit is not in a written number. -/
lemma notMem_toString (n : ℕ) {c : Char} (hc : c.isDigit = false) : c ∉ (toString n).toList :=
  fun h => Bool.false_ne_true (hc.symm.trans (isDigit_of_mem_repr h))

/-- A number is written in the digits `cs`, with or without a minus sign. -/
inductive Writes : List Char → ℤ → Prop
  | pos {cs : List Char} (hne : cs ≠ []) (hcs : ∀ c ∈ cs, c.isDigit = true) :
      Writes cs (Nat.ofDigitChars 10 cs 0)
  | neg {cs : List Char} (hne : cs ≠ []) (hcs : ∀ c ∈ cs, c.isDigit = true) :
      Writes ('-' :: cs) (-(Nat.ofDigitChars 10 cs 0 : ℤ))

/-- A text writes one number. -/
lemma Writes.unique {s : List Char} {z z' : ℤ} (h : Writes s z) (h' : Writes s z') : z = z' := by
  cases h with
  | pos hne hcs =>
    cases h' with
    | pos => rfl
    | neg => exact absurd (hcs '-' (by simp)) (by decide)
  | neg hne hcs =>
    cases h' with
    | pos _ hds => exact absurd (hds '-' (by simp)) (by decide)
    | neg => rfl

/-- The numbers of 64 bits with a sign. -/
def InI64 (z : ℤ) : Prop := -2 ^ 63 ≤ z ∧ z < 2 ^ 63

instance (z : ℤ) : Decidable (InI64 z) := inferInstanceAs (Decidable (_ ∧ _))

/-- What is left of a number in 64 bits. -/
def wrapI64 (z : ℤ) : ℤ := (z + 2 ^ 63) % 2 ^ 64 - 2 ^ 63

lemma wrapI64_of_inI64 {z : ℤ} (h : InI64 z) : wrapI64 z = z := by
  unfold InI64 at h
  unfold wrapI64
  omega

/-- To wrap around between two operations makes no difference in the end. -/
lemma wrapI64_mul_add (v d : ℤ) : wrapI64 (wrapI64 v * 10 + d) = wrapI64 (v * 10 + d) := by
  unfold wrapI64
  omega

lemma wrapI64_neg (v : ℤ) : wrapI64 (-wrapI64 v) = wrapI64 (-v) := by
  unfold wrapI64
  omega

end Codicis
