/-
Computations that need not return.

A loop of a program, or a recursion whose termination depends on the state it
runs in, is not a total function.  `Comp α` is a family of approximations to such
a program: with the bound `n` on the number of rounds of its loops it either has
returned a value or has not returned yet, and a larger bound never takes a result
back.  `Comp.fix` ties a recursive definition, and `Comp.loop` is the loop whose
body either goes on with a new state or leaves with a result.

The two judgements are

* `m.Returns a`: some bound is large enough for `m` to return `a`;
* `m.Ensures Q`: `m` returns, and what it returns satisfies `Q`.

`Ensures` is total correctness.  Its rules are `ensures_pure`, `Ensures.bind` and
`Ensures.imp`, and for recursion `ensures_fix` and `ensures_loop`, which ask for a
precondition and a well-founded measure that goes down from one round to the
next.  `Returns.of_fix`, `Returns.of_loop` and `Returns.of_foldlM` are the rules of partial
correctness, for what is known of a result once there is one.
-/
import Mathlib.Data.List.Basic
import Mathlib.Order.WellFounded

namespace Codicis

universe u

/-- A computation that need not return, as its approximations by a bound on the
number of rounds. -/
structure Comp (α : Type u) where
  /-- The result with a given bound, if the computation has returned by then. -/
  run : ℕ → Option α
  /-- A larger bound keeps the result. -/
  mono : ∀ {n : ℕ} {a : α}, run n = some a → run (n + 1) = some a

namespace Comp

variable {α β σ : Type u}

lemma run_mono (m : Comp α) {n k : ℕ} {a : α} (h : n ≤ k) (hn : m.run n = some a) :
    m.run k = some a := by
  induction h with
  | refl => exact hn
  | step _ ih => exact m.mono ih

/-- The computation that never returns: a thrown exception, or an endless loop. -/
def never : Comp α := ⟨fun _ => none, fun h => absurd h (by simp)⟩

instance : Monad Comp where
  pure a := ⟨fun _ => some a, id⟩
  bind m f := ⟨fun n => (m.run n).bind fun a => (f a).run n, by
    intro n b h
    obtain ⟨a, ha, hb⟩ := Option.bind_eq_some_iff.1 h
    exact Option.bind_eq_some_iff.2 ⟨a, m.mono ha, (f a).mono hb⟩⟩

@[simp] lemma run_pure (a : α) (n : ℕ) : (pure a : Comp α).run n = some a := rfl

@[simp] lemma run_bind (m : Comp α) (f : α → Comp β) (n : ℕ) :
    (m >>= f).run n = (m.run n).bind fun a => (f a).run n := rfl

@[simp] lemma run_never (n : ℕ) : (never : Comp α).run n = none := rfl

lemma ext_run {m m' : Comp α} (h : ∀ n, m.run n = m'.run n) : m = m' := by
  obtain ⟨f, hf⟩ := m
  obtain ⟨f', hf'⟩ := m'
  obtain rfl : f = f' := funext h
  rfl

instance : LawfulMonad Comp := by
  refine LawfulMonad.mk' Comp (fun m => ext_run fun n => ?_) (fun _ _ => ext_run fun _ => rfl)
    fun m f f' => ext_run fun n => ?_
  · show (m.run n).bind (fun a => some a) = m.run n
    cases m.run n <;> rfl
  · show ((m.run n).bind _).bind _ = (m.run n).bind _
    cases m.run n <;> rfl

/-! ### Returning -/

/-- Some bound is large enough for the computation to return `a`. -/
def Returns (m : Comp α) (a : α) : Prop := ∃ n, m.run n = some a

lemma Returns.unique {m : Comp α} {a b : α} (ha : m.Returns a) (hb : m.Returns b) : a = b := by
  obtain ⟨n, hn⟩ := ha
  obtain ⟨k, hk⟩ := hb
  have h1 := m.run_mono (Nat.le_max_left n k) hn
  have h2 := m.run_mono (Nat.le_max_right n k) hk
  exact Option.some.inj (h1.symm.trans h2)

/-- What a bounded run was checked for, the result has. -/
lemma of_run_any {m : Comp α} {n : ℕ} {p : α → Bool} {a : α} (h : (m.run n).any p = true)
    (ha : m.Returns a) : p a = true := by
  cases hrun : m.run n with
  | none => simp [hrun] at h
  | some b =>
    obtain rfl := Returns.unique ⟨n, hrun⟩ ha
    simpa [hrun] using h

@[simp] lemma returns_pure {a b : α} : (pure a : Comp α).Returns b ↔ a = b := by
  constructor
  · rintro ⟨n, hn⟩
    exact Option.some.inj hn
  · rintro rfl
    exact ⟨0, rfl⟩

@[simp] lemma not_returns_never {a : α} : ¬ (never : Comp α).Returns a := by
  rintro ⟨n, hn⟩
  simp at hn

lemma returns_bind {m : Comp α} {f : α → Comp β} {b : β} :
    (m >>= f).Returns b ↔ ∃ a, m.Returns a ∧ (f a).Returns b := by
  constructor
  · rintro ⟨n, hn⟩
    obtain ⟨a, ha, hb⟩ := Option.bind_eq_some_iff.1 hn
    exact ⟨a, ⟨n, ha⟩, ⟨n, hb⟩⟩
  · rintro ⟨a, ⟨n, hn⟩, ⟨k, hk⟩⟩
    refine ⟨max n k, Option.bind_eq_some_iff.2 ⟨a, ?_, ?_⟩⟩
    · exact m.run_mono (Nat.le_max_left n k) hn
    · exact (f a).run_mono (Nat.le_max_right n k) hk

/-! ### Total correctness -/

/-- The computation returns, and its result satisfies `Q`. -/
def Ensures (m : Comp α) (Q : α → Prop) : Prop := ∃ a, m.Returns a ∧ Q a

lemma ensures_pure {a : α} {Q : α → Prop} (h : Q a) : (pure a : Comp α).Ensures Q :=
  ⟨a, returns_pure.2 rfl, h⟩

lemma Ensures.bind {m : Comp α} {f : α → Comp β} {P : α → Prop} {Q : β → Prop}
    (hm : m.Ensures P) (hf : ∀ a, P a → (f a).Ensures Q) : (m >>= f).Ensures Q := by
  obtain ⟨a, ha, hP⟩ := hm
  obtain ⟨b, hb, hQ⟩ := hf a hP
  exact ⟨b, returns_bind.2 ⟨a, ha, hb⟩, hQ⟩

lemma Ensures.imp {m : Comp α} {P Q : α → Prop} (hm : m.Ensures P) (h : ∀ a, P a → Q a) :
    m.Ensures Q := by
  obtain ⟨a, ha, hP⟩ := hm
  exact ⟨a, ha, h a hP⟩

lemma Ensures.returns {m : Comp α} {Q : α → Prop} (hm : m.Ensures Q) : ∃ a, m.Returns a :=
  Exists.imp (fun _ h => h.1) hm

/-- What holds of the result of a total computation holds of any result it is
seen to return. -/
lemma Ensures.of_returns {m : Comp α} {Q : α → Prop} {a : α} (hm : m.Ensures Q)
    (ha : m.Returns a) : Q a := by
  obtain ⟨b, hb, hQ⟩ := hm
  exact hb.unique ha ▸ hQ

/-! ### Recursion -/

/-- With the bound `n`, whatever `m` returns `m'` returns. -/
def Approx (n : ℕ) (m m' : Comp α) : Prop := ∀ a, m.run n = some a → m'.run n = some a

lemma Approx.refl (n : ℕ) (m : Comp α) : Approx n m m := fun _ => id

lemma Approx.bind {n : ℕ} {m m' : Comp α} {f f' : α → Comp β} (hm : Approx n m m')
    (hf : ∀ a, Approx n (f a) (f' a)) : Approx n (m >>= f) (m' >>= f') := by
  intro b h
  obtain ⟨a, ha, hb⟩ := Option.bind_eq_some_iff.1 h
  exact Option.bind_eq_some_iff.2 ⟨a, hm a ha, hf a b hb⟩

/-- A recursive equation that uses its recursive calls only by running them. -/
def Local (F : (σ → Comp α) → σ → Comp α) : Prop :=
  ∀ (n : ℕ) (g g' : σ → Comp α), (∀ s, Approx n (g s) (g' s)) →
    ∀ s, Approx n (F g s) (F g' s)

/-- The `k`-th unrolling of a recursive equation. -/
def fixN (F : (σ → Comp α) → σ → Comp α) : ℕ → σ → Comp α
  | 0 => fun _ => never
  | k + 1 => F (fixN F k)

lemma fixN_approx {F : (σ → Comp α) → σ → Comp α} (hF : Local F) (n k : ℕ) (s : σ) :
    Approx n (fixN F k s) (fixN F (k + 1) s) := by
  induction k generalizing s with
  | zero => intro a h; simp [fixN] at h
  | succ k ih => exact hF n _ _ ih s

/-- The solution of a recursive equation. -/
def fix (F : (σ → Comp α) → σ → Comp α) (hF : Local F) (s : σ) : Comp α :=
  ⟨fun n => (fixN F n s).run n, fun {n a} h =>
    fixN_approx hF (n + 1) n s a ((fixN F n s).mono h)⟩

lemma returns_fix {F : (σ → Comp α) → σ → Comp α} {hF : Local F} {s : σ} {a : α} :
    (fix F hF s).Returns a ↔ (F (fix F hF) s).Returns a := by
  constructor
  · rintro ⟨n, hn⟩
    cases n with
    | zero => exact absurd hn (by simp [fix, fixN])
    | succ n =>
      refine ⟨n + 1, hF (n + 1) (fixN F n) _ (fun t b hb => ?_) s a hn⟩
      exact fixN_approx hF (n + 1) n t b hb
  · rintro ⟨n, hn⟩
    -- with the bound `n` the recursive calls are those of the `n`-th unrolling
    exact ⟨n + 1, (fixN F (n + 1) s).mono (hF n (fix F hF) (fixN F n) (fun _ _ hb => hb) s a hn)⟩

/-- Total correctness of a recursion: it suffices to prove the body, from the
precondition, with recursive calls that go down a well-founded relation. -/
theorem ensures_fix {F : (σ → Comp α) → σ → Comp α} {hF : Local F} {r : σ → σ → Prop}
    (hr : WellFounded r) {P : σ → Prop} {Q : σ → α → Prop}
    (h : ∀ s, P s → ∀ g : σ → Comp α, (∀ t, r t s → P t → (g t).Ensures (Q t)) →
      (F g s).Ensures (Q s)) {s : σ} (hs : P s) : (fix F hF s).Ensures (Q s) := by
  induction s using hr.induction with
  | _ s ih =>
    obtain ⟨a, ha, hQ⟩ := h s hs (fix F hF) (fun t ht hP => ih t ht hP)
    exact ⟨a, returns_fix.2 ha, hQ⟩

/-- What the body of a recursion makes of the results of its recursive calls, the recursion
makes of its results. -/
theorem Returns.of_fix {F : (σ → Comp α) → σ → Comp α} {hF : Local F} {Q : σ → α → Prop}
    (h : ∀ g : σ → Comp α, (∀ t a, (g t).Returns a → Q t a) → ∀ s a, (F g s).Returns a → Q s a)
    {s : σ} {a : α} (hr : (fix F hF s).Returns a) : Q s a := by
  have hN : ∀ k t b, (fixN F k t).Returns b → Q t b := by
    intro k
    induction k with
    | zero => exact fun t b hb => absurd hb not_returns_never
    | succ k ih => exact h (fixN F k) ih
  obtain ⟨n, hn⟩ := hr
  exact hN n s a ⟨n, hn⟩

/-- What `m` returns under every bound, `m'` returns. -/
lemma Returns.of_approx {m m' : Comp α} {a : α} (h : ∀ n, Approx n m m') (ha : m.Returns a) :
    m'.Returns a := by
  obtain ⟨n, hn⟩ := ha
  exact ⟨n, h n a hn⟩

/-- Two recursions whose bodies approximate each other as their recursive calls do. -/
lemma approx_fix {F F' : (σ → Comp α) → σ → Comp α} (hF : Local F) (hF' : Local F') {n : ℕ}
    (h : ∀ g g' : σ → Comp α, (∀ t, Approx n (g t) (g' t)) → ∀ t, Approx n (F g t) (F' g' t))
    (s : σ) : Approx n (fix F hF s) (fix F' hF' s) := by
  have hN : ∀ k t, Approx n (fixN F k t) (fixN F' k t) := by
    intro k
    induction k with
    | zero => exact fun t => Approx.refl n _
    | succ k ih => exact h _ _ ih
  exact hN n s

/-! ### Recursion without some of its calls -/

section Barring

variable (bad : σ → Prop) [DecidablePred bad]

/-- The body of a recursion whose bad calls never return. -/
def barring (F : (σ → Comp α) → σ → Comp α) (g : σ → Comp α) (s : σ) : Comp α :=
  if bad s then never else F g s

variable {bad} {F : (σ → Comp α) → σ → Comp α}

lemma returns_barring {g : σ → Comp α} {s : σ} {a : α} :
    (barring bad F g s).Returns a ↔ ¬ bad s ∧ (F g s).Returns a := by
  unfold barring
  split_ifs with h
  · simp [h]
  · simp [h]

lemma barring_local (hF : Local F) : Local (barring bad F) := by
  intro n g g' hg s
  unfold barring
  split_ifs
  · exact Approx.refl n _
  · exact hF n g g' hg s

/-- A recursion that returns without a bad call returns the same with all its calls. -/
lemma fix_barring_approx (hF : Local F) (n : ℕ) (s : σ) :
    Approx n (fix (barring bad F) (barring_local hF) s) (fix F hF s) := by
  refine approx_fix _ _ (fun g g' hg t a ha => ?_) s
  unfold barring at ha
  split_ifs at ha
  · simp at ha
  · exact hF n g g' hg t a ha

end Barring

/-! ### Loops -/

/-- One round of a loop followed by the rest of the loop. -/
def loopBody (body : σ → Comp (σ ⊕ α)) (g : σ → Comp α) (s : σ) : Comp α :=
  body s >>= fun r =>
    match r with
    | .inl s' => g s'
    | .inr a => pure a

lemma loopBody_approx {n : ℕ} {body body' : σ → Comp (σ ⊕ α)}
    (hb : ∀ s, Approx n (body s) (body' s)) {g g' : σ → Comp α}
    (hg : ∀ s, Approx n (g s) (g' s)) (s : σ) :
    Approx n (loopBody body g s) (loopBody body' g' s) := by
  refine Approx.bind (hb s) fun r => ?_
  cases r with
  | inl s' => exact hg s'
  | inr a => exact Approx.refl n _

lemma loopBody_local (body : σ → Comp (σ ⊕ α)) : Local (loopBody body) :=
  fun n _ _ hg s => loopBody_approx (fun _ => Approx.refl n _) hg s

/-- The loop whose body either goes on with a new state or leaves with a result. -/
def loop (body : σ → Comp (σ ⊕ α)) (s : σ) : Comp α :=
  fix (loopBody body) (loopBody_local body) s

/-- Total correctness of a loop: an invariant `I` that a round keeps while it
lowers the measure, or leaves with a result in `Q`. -/
theorem ensures_loop {body : σ → Comp (σ ⊕ α)} {r : σ → σ → Prop} (hr : WellFounded r)
    {I : σ → Prop} {Q : α → Prop}
    (h : ∀ s, I s → (body s).Ensures
      (Sum.elim (fun s' => I s' ∧ r s' s) Q)) {s : σ} (hs : I s) :
    (loop body s).Ensures Q := by
  refine ensures_fix (Q := fun _ => Q) hr (fun s hI g hg => ?_) hs
  refine (h s hI).bind fun x hx => ?_
  cases x with
  | inl s' => exact hg s' hx.2 hx.1
  | inr a => exact ensures_pure hx

/-- A loop that returns has made rounds up to one that leaves it. -/
theorem Returns.of_loop {body : σ → Comp (σ ⊕ α)} {Q : σ → α → Prop}
    (hgo : ∀ s s' a, (body s).Returns (.inl s') → Q s' a → Q s a)
    (hend : ∀ s a, (body s).Returns (.inr a) → Q s a) {s : σ} {a : α}
    (h : (loop body s).Returns a) : Q s a := by
  refine Returns.of_fix (Q := Q) (fun g hg s a hs => ?_) h
  obtain ⟨r, hr, ha⟩ := returns_bind.1 hs
  cases r with
  | inl s' => exact hgo s s' a hr (hg s' a ha)
  | inr b =>
    obtain rfl := returns_pure.1 ha
    exact hend s b hr

/-! ### Correctness, total or partial -/

/-- Whatever the computation returns satisfies `Q`, and it returns if that is asked. -/
def Yields (total : Prop) (m : Comp α) (Q : α → Prop) : Prop :=
  (total → ∃ a, m.Returns a) ∧ ∀ a, m.Returns a → Q a

section Yields

variable {total : Prop} {m : Comp α}

lemma yields_pure {a : α} {Q : α → Prop} (h : Q a) : (pure a : Comp α).Yields total Q :=
  ⟨fun _ => ⟨a, returns_pure.2 rfl⟩, fun _ hb => returns_pure.1 hb ▸ h⟩

lemma yields_returns (h : total → ∃ a, m.Returns a) : m.Yields total m.Returns :=
  ⟨h, fun _ => id⟩

lemma Yields.bind {f : α → Comp β} {P : α → Prop} {Q : β → Prop} (hm : m.Yields total P)
    (hf : ∀ a, P a → (f a).Yields total Q) : (m >>= f).Yields total Q := by
  refine ⟨fun ht => ?_, fun b hb => ?_⟩
  · obtain ⟨a, ha⟩ := hm.1 ht
    obtain ⟨b, hb⟩ := (hf a (hm.2 a ha)).1 ht
    exact ⟨b, returns_bind.2 ⟨a, ha, hb⟩⟩
  · obtain ⟨a, ha, hb⟩ := returns_bind.1 hb
    exact (hf a (hm.2 a ha)).2 b hb

lemma Yields.imp {P Q : α → Prop} (hm : m.Yields total P) (h : ∀ a, P a → Q a) :
    m.Yields total Q := ⟨hm.1, fun a ha => h a (hm.2 a ha)⟩

theorem yields_fix {F : (σ → Comp α) → σ → Comp α} {hF : Local F} {r : σ → σ → Prop}
    (hr : WellFounded r) {P : σ → Prop} {Q : σ → α → Prop}
    (h : ∀ s, P s → ∀ g : σ → Comp α, (∀ t, r t s → P t → (g t).Yields total (Q t)) →
      (F g s).Yields total (Q s)) {s : σ} (hs : P s) : (fix F hF s).Yields total (Q s) := by
  induction s using hr.induction with
  | _ s ih =>
    obtain ⟨hret, hpost⟩ := h s hs (fix F hF) ih
    exact ⟨fun ht => (hret ht).imp fun _ => returns_fix.2, fun a ha => hpost a (returns_fix.1 ha)⟩

theorem yields_loop {body : σ → Comp (σ ⊕ α)} {r : σ → σ → Prop} (hr : WellFounded r)
    {I : σ → Prop} {Q : α → Prop}
    (h : ∀ s, I s → (body s).Yields total (Sum.elim (fun s' => I s' ∧ r s' s) Q)) {s : σ}
    (hs : I s) : (loop body s).Yields total Q := by
  refine yields_fix (Q := fun _ => Q) hr (fun s hI g hg => ?_) hs
  refine (h s hI).bind fun x hx => ?_
  cases x with
  | inl s' => exact hg s' hx.2 hx.1
  | inr a => exact yields_pure hx

end Yields

/-! ### Iterating over a list -/

lemma approx_foldlM {n : ℕ} {f f' : σ → β → Comp σ} (h : ∀ s x, Approx n (f s x) (f' s x))
    (l : List β) (s : σ) : Approx n (l.foldlM f s) (l.foldlM f' s) := by
  induction l generalizing s with
  | nil => exact Approx.refl n _
  | cons x l ih =>
    rw [List.foldlM_cons, List.foldlM_cons]
    exact Approx.bind (h s x) ih

end Comp

end Codicis
