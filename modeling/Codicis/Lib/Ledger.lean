/-
Ledgers.

A ledger is a bag of lines, one for each order that is still worked with: what the order is for,
what is left of it and what has been filled.  Lines are opened, are struck from the ledger, are
cut before anything has been filled, and trade with each other (`Ledger.Books`).

Whatever the course of a ledger, no order has two lines, the two quantities of a line add up to
what the order is for, what a line has filled is what its order has dealt, and no order deals more
than it was opened for (`Ledger.Sound`).
-/
import Mathlib.Data.Multiset.Basic
import Mathlib.Data.Multiset.UnionInter
import Mathlib.Algebra.Order.Group.Multiset
import Mathlib.Algebra.Group.Pi.Basic
import Mathlib.Algebra.Order.Ring.Int
import Mathlib.Tactic.Abel

namespace Codicis

/-- What is kept of an order. -/
structure Line (ι : Type*) where
  id : ι
  qty : ℤ
  leaves : ℤ
  filled : ℤ

namespace Line

variable {ι : Type*}

/-- A quantity is filled. -/
def take (l : Line ι) (q : ℤ) : Line ι := { l with leaves := l.leaves - q, filled := l.filled + q }

/-- The order is cut to a quantity. -/
def cut (l : Line ι) (q : ℤ) : Line ι := { l with qty := q, leaves := q }

@[simp] lemma take_id (l : Line ι) (q : ℤ) : (l.take q).id = l.id := rfl

@[simp] lemma cut_id (l : Line ι) (q : ℤ) : (l.cut q).id = l.id := rfl

end Line

namespace Ledger

variable {ι : Type*} [DecidableEq ι]

/-- The course of a ledger, with what each order has dealt in it. -/
inductive Books : Multiset (Line ι) → (ι → ℤ) → Multiset (Line ι) → Prop
  /-- Lines are struck. -/
  | strike (L gone : Multiset (Line ι)) : Books (L + gone) 0 L
  /-- A line of which nothing has been filled is cut. -/
  | cut (L : Multiset (Line ι)) {l : Line ι} {q : ℤ} (hf : l.filled = 0) (hq : q ≤ l.leaves) :
      Books (L + {l}) 0 (L + {l.cut q})
  /-- Two lines trade. -/
  | deal (L : Multiset (Line ι)) {x y : Line ι} {q : ℤ} (hq : 0 ≤ q) (hx : q ≤ x.leaves)
      (hy : q ≤ y.leaves) :
      Books (L + {x} + {y}) (Pi.single x.id q + Pi.single y.id q) (L + {x.take q} + {y.take q})
  | trans {L L' L'' : Multiset (Line ι)} {n n' : ι → ℤ} (h : Books L n L') (h' : Books L' n' L'') :
      Books L (n + n') L''

variable {L L' : Multiset (Line ι)} {n : ι → ℤ}

lemma Books.refl (L : Multiset (Line ι)) : Books L 0 L := by
  simpa using Books.strike L 0

lemma Books.of_eq (h : L = L') : Books L 0 L' := h ▸ .refl L

lemma Books.of_le (h : L' ≤ L) : Books L 0 L' := by
  obtain ⟨gone, rfl⟩ := Multiset.le_iff_exists_add.1 h
  exact .strike L' gone

/-- What is always true of a ledger whose orders were opened for `opened` and have dealt
`dealt`. -/
structure Sound (opened dealt : ι → ℤ) (L : Multiset (Line ι)) : Prop where
  nodup : (L.map Line.id).Nodup
  filled : ∀ l ∈ L, l.filled = dealt l.id
  whole : ∀ l ∈ L, l.filled + l.leaves = l.qty
  qty_le : ∀ l ∈ L, l.qty ≤ opened l.id
  bound : ∀ i, dealt i = 0 ∨ dealt i ≤ opened i

variable {opened dealt : ι → ℤ}

omit [DecidableEq ι] in
lemma sound_zero (opened : ι → ℤ) : Sound opened 0 (0 : Multiset (Line ι)) :=
  ⟨by simp, by simp, by simp, by simp, fun _ => .inl rfl⟩

omit [DecidableEq ι] in
lemma Sound.of_le (h : Sound opened dealt L) (hle : L' ≤ L) : Sound opened dealt L' :=
  ⟨Multiset.nodup_of_le (Multiset.map_le_map hle) h.nodup,
    fun l hl => h.filled l (Multiset.mem_of_le hle hl),
    fun l hl => h.whole l (Multiset.mem_of_le hle hl),
    fun l hl => h.qty_le l (Multiset.mem_of_le hle hl), h.bound⟩

/-- A new order gets a line. -/
lemma Sound.enter (h : Sound opened dealt L) {i : ι} (hnew : ∀ l ∈ L, l.id ≠ i) (hd : dealt i = 0)
    (q : ℤ) : Sound (Function.update opened i q) dealt (L + {⟨i, q, q, 0⟩}) := by
  have hline : ∀ l ∈ L + {(⟨i, q, q, 0⟩ : Line ι)}, l ∈ L ∨ l = ⟨i, q, q, 0⟩ := by simp
  refine ⟨?_, fun l hl => ?_, fun l hl => ?_, fun l hl => ?_, fun j => ?_⟩
  · rw [Multiset.map_add, Multiset.map_singleton, add_comm, Multiset.singleton_add,
      Multiset.nodup_cons, Multiset.mem_map]
    refine ⟨?_, h.nodup⟩
    rintro ⟨l, hl, hi⟩
    exact hnew l hl hi
  · rcases hline l hl with hl | rfl
    · exact h.filled l hl
    · exact hd.symm
  · rcases hline l hl with hl | rfl
    · exact h.whole l hl
    · exact zero_add q
  · rcases hline l hl with hl | rfl
    · rw [Function.update_of_ne (hnew l hl)]
      exact h.qty_le l hl
    · rw [Function.update_self]
  · by_cases hj : j = i
    · exact .inl (hj ▸ hd)
    · rw [Function.update_of_ne hj]
      exact h.bound j

omit [DecidableEq ι] in
/-- No other line has the name of a line. -/
lemma ne_of_nodup {x l : Line ι} (h : ((L + {x}).map Line.id).Nodup) (hl : l ∈ L) :
    l.id ≠ x.id := by
  rw [Multiset.map_add, Multiset.map_singleton, add_comm, Multiset.singleton_add,
    Multiset.nodup_cons] at h
  exact fun heq => h.1 (heq ▸ Multiset.mem_map_of_mem _ hl)

omit [DecidableEq ι] in
lemma Sound.cut {l : Line ι} {q : ℤ} (h : Sound opened dealt (L + {l})) (hf : l.filled = 0)
    (hq : q ≤ l.leaves) : Sound opened dealt (L + {l.cut q}) := by
  have hmem : l ∈ L + {l} := by simp
  have hold : ∀ x ∈ L, x ∈ L + {l} := fun x hx => Multiset.mem_add.2 (.inl hx)
  have hline : ∀ x ∈ L + {l.cut q}, x ∈ L ∨ x = l.cut q := by simp
  refine ⟨by simpa using h.nodup, fun x hx => ?_, fun x hx => ?_, fun x hx => ?_, h.bound⟩
  · rcases hline x hx with hx | rfl
    · exact h.filled x (hold x hx)
    · exact h.filled l hmem
  · rcases hline x hx with hx | rfl
    · exact h.whole x (hold x hx)
    · show l.filled + q = q
      omega
  · rcases hline x hx with hx | rfl
    · exact h.qty_le x (hold x hx)
    · have hw := h.whole l hmem
      have hle := h.qty_le l hmem
      show q ≤ opened l.id
      omega

/-- One side of a deal: a line fills, and its order has dealt as much more. -/
lemma Sound.take {l : Line ι} {q : ℤ} (h : Sound opened dealt (L + {l})) (hq : q ≤ l.leaves) :
    Sound opened (dealt + Pi.single l.id q) (L + {l.take q}) := by
  have hmem : l ∈ L + {l} := by simp
  have hold : ∀ x ∈ L, x ∈ L + {l} := fun x hx => Multiset.mem_add.2 (.inl hx)
  have hline : ∀ x ∈ L + {l.take q}, x ∈ L ∨ x = l.take q := by simp
  have hfilled := h.filled l hmem
  have hwhole := h.whole l hmem
  have hle := h.qty_le l hmem
  have hself : (dealt + Pi.single l.id q : ι → ℤ) l.id = dealt l.id + q := by simp
  have hother : ∀ i, i ≠ l.id → (dealt + Pi.single l.id q : ι → ℤ) i = dealt i := by
    intro i hi
    simp [hi]
  refine ⟨by simpa using h.nodup, fun x hx => ?_, fun x hx => ?_, fun x hx => ?_, fun i => ?_⟩
  · rcases hline x hx with hx | rfl
    · rw [hother _ (ne_of_nodup h.nodup hx)]
      exact h.filled x (hold x hx)
    · rw [Line.take_id, hself, ← hfilled]
      rfl
  · rcases hline x hx with hx | rfl
    · exact h.whole x (hold x hx)
    · show l.filled + q + (l.leaves - q) = l.qty
      omega
  · rcases hline x hx with hx | rfl
    · exact h.qty_le x (hold x hx)
    · exact hle
  · by_cases hi : i = l.id
    · right
      rw [hi, hself]
      omega
    · rw [hother i hi]
      exact h.bound i

/-- What is true of a ledger remains true. -/
theorem Books.sound (h : Books L n L') (hs : Sound opened dealt L) :
    Sound opened (dealt + n) L' := by
  induction h generalizing dealt with
  | strike L gone =>
    rw [add_zero]
    exact hs.of_le (Multiset.le_add_right L gone)
  | cut L hf hq =>
    rw [add_zero]
    exact hs.cut hf hq
  | @deal L x y q hq hx hy =>
    have hy' := hs.take hy
    rw [add_right_comm] at hy'
    have hx' := hy'.take hx
    have hdealt : dealt + (Pi.single x.id q + Pi.single y.id q)
        = dealt + Pi.single y.id q + Pi.single x.id q := by abel
    rw [hdealt, add_right_comm L]
    exact hx'
  | trans _ _ ih ih' =>
    rw [← add_assoc]
    exact ih' (ih hs)

end Ledger

end Codicis
