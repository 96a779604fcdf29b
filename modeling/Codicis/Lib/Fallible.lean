/-
Fallible computations: what is known when they succeed.
-/
import Mathlib.Tactic.Common

namespace Codicis

variable {ε α β γ : Type}

lemma bind_eq_ok_iff {x : Except ε α} {f : α → Except ε β} {b : β} :
    (x >>= f) = .ok b ↔ ∃ a, x = .ok a ∧ f a = .ok b := by
  cases x <;> simp [bind, Except.bind]

lemma bind_eq_ok {x : Except ε α} {f : α → Except ε β} {b : β} (h : (x >>= f) = .ok b) :
    ∃ a, x = .ok a ∧ f a = .ok b := bind_eq_ok_iff.1 h

lemma map_eq_ok_iff {x : Except ε α} {f : α → β} {b : β} :
    x.map f = .ok b ↔ ∃ a, x = .ok a ∧ f a = b := by
  cases x <;> simp [Except.map]

/-- What every step of a loop keeps, a loop that succeeds keeps. -/
theorem foldlM_invariant {f : β → α → Except ε β} {I : β → Prop} {xs : List α} {b b' : β}
    (h : xs.foldlM f b = .ok b') (h₀ : I b)
    (hstep : ∀ b x b', x ∈ xs → I b → f b x = .ok b' → I b') : I b' := by
  induction xs generalizing b with
  | nil =>
    obtain rfl : b = b' := Except.ok.inj h
    exact h₀
  | cons x xs ih =>
    rw [List.foldlM_cons] at h
    obtain ⟨b₁, hb₁, h⟩ := bind_eq_ok h
    exact ih h (hstep b x b₁ (by simp) h₀ hb₁) fun b x b' hx => hstep b x b' (by simp [hx])

/-- A list whose elements are all computed. -/
lemma mapM_eq_map {f : α → Option β} {g : α → β} {xs : List α} (h : ∀ x ∈ xs, f x = some (g x)) :
    xs.mapM f = some (xs.map g) := by
  induction xs with
  | nil => rfl
  | cons x xs ih =>
    rw [List.mapM_cons, h x (by simp), ih fun y hy => h y (by simp [hy])]
    rfl

/-- The results of a computed list. -/
lemma map_of_mapM {f : α → Option β} {g : α → β} {xs : List α} {ys : List β}
    (hfg : ∀ x ∈ xs, ∀ y, f x = some y → g x = y) (h : xs.mapM f = some ys) : xs.map g = ys := by
  induction xs generalizing ys with
  | nil => exact Option.some.inj h
  | cons x xs ih =>
    rw [List.mapM_cons] at h
    obtain ⟨y, hy, h⟩ := Option.bind_eq_some_iff.1 h
    obtain ⟨zs, hzs, h⟩ := Option.bind_eq_some_iff.1 h
    obtain rfl := Option.some.inj h
    rw [List.map_cons, hfg x (by simp) y hy, ih (fun z hz => hfg z (by simp [hz])) hzs]

end Codicis
