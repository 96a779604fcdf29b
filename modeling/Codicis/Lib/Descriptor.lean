/-
What a non-blocking descriptor does to the program that polls it: the bytes that come in a
cycle of reads and how the cycle ends, and how many bytes a loop of writes gets rid of.
-/
import Mathlib.Data.List.Basic

namespace Codicis

namespace Descriptor

variable {β : Type}

/-- How a cycle of reads ends. -/
inductive ReadEnd
  | again
  | eof
  | fail
deriving DecidableEq, Repr

/-- A loop of writes: the bytes that are taken before the descriptor is full or fails. -/
structure Flush where
  count : ℕ
  fails : Bool := false
deriving DecidableEq, Repr

/-- The bytes that are written. -/
def Flush.sent (f : Flush) (out : List β) : List β := out.take f.count

/-- The bytes that are left. -/
def Flush.left (f : Flush) (out : List β) : List β := out.drop f.count

/-- The writes fail before all is written. -/
def Flush.Breaks (f : Flush) (out : List β) : Prop := f.fails = true ∧ f.left out ≠ []

instance [DecidableEq β] (f : Flush) (out : List β) : Decidable (f.Breaks out) :=
  inferInstanceAs (Decidable (_ ∧ _))

@[simp] lemma Flush.sent_append_left (f : Flush) (out : List β) : f.sent out ++ f.left out = out :=
  List.take_append_drop _ _

end Descriptor

end Codicis
