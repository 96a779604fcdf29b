/-
Messages exchanged with child-process helpers (`ipc/helper_message.h`), and the
decimal numbers that their fields carry.

The parsers of the helper (`ParseInt`) and of its client (`ParseI64`, `ParseU64`) are
one loop: an optional sign, then digits up to the first other character.  `parseInt` is exact,
so that what `std::to_string` writes is read back; `wrappedInt` is the loop in 64 bits.
-/
import Codicis.Lib.Decimal
import Mathlib.Tactic.SplitIfs

namespace Codicis

/-- A request or response exchanged with a helper. -/
structure HelperMessage where
  /-- Correlation id, echoed in the response. -/
  reqId : ℕ := 0
  type : String := ""
  fields : List (String × String) := []
deriving DecidableEq, Repr

/-- Look up a field by key: the first match. -/
def HelperMessage.get (m : HelperMessage) (key : String) : Option String :=
  (m.fields.find? fun kv => kv.1 = key).map Prod.snd

/-- Append a field. -/
def HelperMessage.set (m : HelperMessage) (key value : String) : HelperMessage :=
  { m with fields := m.fields ++ [(key, value)] }

/-- The digit loop of the parsers. -/
def parseDigits (v : ℕ) : List Char → ℕ
  | [] => v
  | c :: cs => if c.isDigit = true then parseDigits (v * 10 + (c.toNat - '0'.toNat)) cs else v

/-- Parse a decimal integer, optionally signed; what is not a digit ends it. -/
def parseInt : List Char → ℤ
  | '-' :: cs => -(parseDigits 0 cs : ℤ)
  | '+' :: cs => parseDigits 0 cs
  | cs => parseDigits 0 cs

/-- The digit loop in 64 bits, where what overflows wraps around. -/
def wrappedDigits (v : ℤ) : List Char → ℤ
  | [] => v
  | c :: cs =>
    if c.isDigit = true then wrappedDigits (wrapI64 (v * 10 + (c.toNat - '0'.toNat : ℕ))) cs else v

/-- The number of 64 bits that is read in place of a decimal integer. -/
def wrappedInt : List Char → ℤ
  | '-' :: cs => wrapI64 (-wrappedDigits 0 cs)
  | '+' :: cs => wrappedDigits 0 cs
  | cs => wrappedDigits 0 cs

/-- The cast to an unsigned 64-bit number. -/
def toU64 (v : ℤ) : ℕ := if 0 ≤ v then v.toNat else (2 ^ 64 + v).toNat

/-! ### Written numbers are read back -/

lemma parseDigits_eq (cs : List Char) (h : ∀ c ∈ cs, c.isDigit = true) (v : ℕ) :
    parseDigits v cs = Nat.ofDigitChars 10 cs v := by
  induction cs generalizing v with
  | nil => rfl
  | cons c cs ih =>
    rw [parseDigits, if_pos (h c (by simp)), ih (fun c' hc' => h c' (by simp [hc'])),
      Nat.ofDigitChars_cons, Nat.mul_comm]

lemma parseDigits_repr (n : ℕ) : parseDigits 0 n.repr.toList = n := by
  rw [Nat.toList_repr, parseDigits_eq _ fun c hc => ?_]
  · exact Nat.ofDigitChars_ten_toDigits
  · exact Nat.isDigit_of_mem_toDigits (by decide) (by decide) hc

lemma parseInt_of_writes {cs : List Char} {z : ℤ} (h : Writes cs z) : parseInt cs = z := by
  cases h with
  | pos hne hcs =>
    -- digits do not start with a sign
    unfold parseInt
    split
    · exact absurd (hcs '-' (by simp)) (by decide)
    · exact absurd (hcs '+' (by simp)) (by decide)
    · rw [parseDigits_eq _ hcs]
  | neg hne hcs => rw [parseInt, parseDigits_eq _ hcs]

lemma parseInt_repr (n : ℕ) : parseInt n.repr.toList = n := by
  rw [Nat.toList_repr, parseInt_of_writes (.pos Nat.toDigits_ne_nil fun c hc => ?_)]
  · exact congrArg Nat.cast Nat.ofDigitChars_ten_toDigits
  · exact Nat.isDigit_of_mem_toDigits (by decide) (by decide) hc

@[simp] lemma parseInt_toString_nat (n : ℕ) : parseInt (toString n).toList = n := parseInt_repr n

lemma toList_toString_negSucc (n : ℕ) :
    (toString (Int.negSucc n)).toList = '-' :: (n + 1).repr.toList := by
  show ("-" ++ (n + 1).repr).toList = _
  rw [String.toList_append]
  rfl

@[simp] lemma parseInt_toString (z : ℤ) : parseInt (toString z).toList = z := by
  cases z with
  | ofNat n => exact parseInt_repr n
  | negSucc n =>
    rw [toList_toString_negSucc, parseInt, parseDigits_repr]
    exact (Int.negSucc_eq n).symm

/-! ### Exact numbers and 64 bits -/

lemma wrappedDigits_eq (cs : List Char) (v : ℕ) :
    wrappedDigits (wrapI64 v) cs = wrapI64 (parseDigits v cs) := by
  induction cs generalizing v with
  | nil => rfl
  | cons c cs ih =>
    rw [wrappedDigits, parseDigits, wrapI64_mul_add]
    split_ifs
    · exact_mod_cast ih (v * 10 + (c.toNat - '0'.toNat))
    · rfl

/-- In 64 bits the number is read modulo `2 ^ 64`. -/
lemma wrappedInt_eq (cs : List Char) : wrappedInt cs = wrapI64 (parseInt cs) := by
  have hloop : ∀ cs, wrappedDigits 0 cs = wrapI64 (parseDigits 0 cs) := fun cs =>
    wrappedDigits_eq cs 0
  unfold wrappedInt parseInt
  split
  · rw [hloop, wrapI64_neg]
  · exact hloop _
  · exact hloop _

@[simp] lemma toU64_natCast (n : ℕ) : toU64 n = n := by simp [toU64]

end Codicis
