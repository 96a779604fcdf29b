/-
Machines that are driven by an environment.

In every state the environment picks an action, and the machine answers with a
computation of the next state.  `Reach step P s₀` are the states that are reached from
`s₀` by actions that satisfy `P` in the states where they are taken: `P` says what the
environment may do.

`Reach.invariant` is the induction over a run, and `Reach.of_runActs` turns the
evaluation of a list of actions into a run.  `logged` adds to a machine a log of what its
steps emit, for statements about the past of a run.  `Along.foldl_iff` is the rule for a
machine that always answers.

A machine that logs what happens has a history.  `Justified J h` says that every event of
the history `h` is justified by the events before it, and `Followed R h` that there is an event
with a later one that `R` relates to it.
-/
import Codicis.Lib.Comp

namespace Codicis

namespace Machine

variable {σ α : Type} {step : σ → α → Comp σ} {P Q : σ → α → Prop} {s₀ s s' : σ}

/-- The states reached from `s₀` by actions that satisfy `P`. -/
inductive Reach (step : σ → α → Comp σ) (P : σ → α → Prop) (s₀ : σ) : σ → Prop
  | init : Reach step P s₀ s₀
  | step {s s' : σ} {a : α} (h : Reach step P s₀ s) (hP : P s a)
      (hs : (step s a).Returns s') : Reach step P s₀ s'

/-- What the first state has and every step keeps, every reached state has. -/
theorem Reach.invariant {I : σ → Prop} (h : Reach step P s₀ s) (h₀ : I s₀)
    (hstep : ∀ s a s', I s → P s a → (step s a).Returns s' → I s') : I s := by
  induction h with
  | init => exact h₀
  | step _ hP hs ih => exact hstep _ _ _ ih hP hs

/-- A more permissive environment reaches more. -/
lemma Reach.mono (h : Reach step P s₀ s) (hPQ : ∀ s a, P s a → Q s a) : Reach step Q s₀ s := by
  induction h with
  | init => exact .init
  | step _ hP hs ih => exact ih.step (hPQ _ _ hP) hs

lemma Reach.trans (h : Reach step P s₀ s) (h' : Reach step P s s') : Reach step P s₀ s' := by
  induction h' with
  | init => exact h
  | step _ hP hs ih => exact ih.step hP hs

/-- The state after some actions, if they return with the bound `n`. -/
def runActs (step : σ → α → Comp σ) (n : ℕ) : σ → List α → Option σ
  | s, [] => some s
  | s, a :: as => ((step s a).run n).bind fun s' => runActs step n s' as

/-- The actions are allowed in the states where they are taken. -/
def allowedActs (step : σ → α → Comp σ) (P : σ → α → Prop) [∀ s a, Decidable (P s a)] (n : ℕ) :
    σ → List α → Bool
  | _, [] => true
  | s, a :: as => decide (P s a) && (((step s a).run n).elim true fun s' =>
    allowedActs step P n s' as)

/-- An evaluated list of allowed actions is a run. -/
theorem Reach.of_runActs [∀ s a, Decidable (P s a)] {n : ℕ} {as : List α}
    (h : runActs step n s₀ as = some s) (hP : allowedActs step P n s₀ as = true) :
    Reach step P s₀ s := by
  induction as generalizing s₀ with
  | nil =>
    obtain rfl : s₀ = s := Option.some.inj h
    exact .init
  | cons a as ih =>
    obtain ⟨s₁, hs₁, hrest⟩ := Option.bind_eq_some_iff.1 h
    rw [allowedActs, Bool.and_eq_true, hs₁] at hP
    have hfirst : Reach step P s₀ s₁ := .step .init (of_decide_eq_true hP.1) ⟨n, hs₁⟩
    exact hfirst.trans (ih hrest hP.2)

/-- An environment that may do anything. -/
lemma Reach.of_runActs_true {n : ℕ} {as : List α} (h : runActs step n s₀ as = some s) :
    Reach step (fun _ _ => True) s₀ s := by
  refine .of_runActs h ?_
  clear h
  induction as generalizing s₀ with
  | nil => rfl
  | cons a as ih =>
    rw [allowedActs, decide_true, Bool.true_and]
    cases (step s₀ a).run n with
    | none => rfl
    | some s₁ => exact ih

/-- A run that is evaluated, with what is observed of its last state. -/
lemma Reach.exists_of_acts [∀ s a, Decidable (P s a)] {I : σ → Prop} [DecidablePred I] (n : ℕ)
    (as : List α) (h : allowedActs step P n s₀ as = true ∧
      (runActs step n s₀ as).any (fun s => decide (I s)) = true) :
    ∃ s, Reach step P s₀ s ∧ I s := by
  obtain ⟨s, hs, hI⟩ := (Option.any_eq_true _ _).1 h.2
  exact ⟨s, .of_runActs hs h.1, of_decide_eq_true hI⟩

/-! ### Logs -/

variable {β : Type} {emit : σ → α → List β}

/-- The machine with a log of what its steps emit. -/
def logged (step : σ → α → Comp σ) (emit : σ → α → List β) (x : List β × σ) (a : α) :
    Comp (List β × σ) :=
  step x.2 a >>= fun s' => pure (x.1 ++ emit x.2 a, s')

lemma returns_logged {x y : List β × σ} {a : α} :
    (logged step emit x a).Returns y ↔ (step x.2 a).Returns y.2 ∧ y.1 = x.1 ++ emit x.2 a := by
  constructor
  · intro h
    obtain ⟨s', hs', hy⟩ := Comp.returns_bind.1 h
    rw [Comp.returns_pure] at hy
    exact hy ▸ ⟨hs', rfl⟩
  · rintro ⟨hs, hl⟩
    exact Comp.returns_bind.2 ⟨y.2, hs, Comp.returns_pure.2 (by rw [← hl])⟩

/-- Without the log, it is a run of the machine. -/
lemma Reach.of_logged {P : List β × σ → α → Prop} {x₀ x : List β × σ}
    (h : Reach (logged step emit) P x₀ x) (hPQ : ∀ x a, P x a → Q x.2 a) :
    Reach step Q x₀.2 x.2 := by
  induction h with
  | init => exact .init
  | step _ hP hs ih => exact ih.step (hPQ _ _ hP) (returns_logged.1 hs).1

/-! ### Machines that always answer -/

section Along

variable {next : σ → α → σ} {I G : σ → Prop} {as : List α}

/-- Every action of a list satisfies `P` in the state where it is taken. -/
def Along (next : σ → α → σ) (P : σ → α → Prop) : σ → List α → Prop
  | _, [] => True
  | s, a :: as => P s a ∧ Along next P (next s a) as

instance decidableAlong [∀ s a, Decidable (P s a)] : (s : σ) → (as : List α) →
    Decidable (Along next P s as)
  | _, [] => .isTrue trivial
  | s, a :: as => @instDecidableAnd _ _ _ (decidableAlong (next s a) as)

lemma Along.foldl_invariant (hI : ∀ s a, I s → P s a → I (next s a)) (hs : I s)
    (h : Along next P s as) : I (as.foldl next s) := by
  induction as generalizing s with
  | nil => exact hs
  | cons a as ih => exact ih (hI s a hs h.1) h.2

/-- What is lost is never regained. -/
lemma Along.foldl_lost (hI : ∀ s a, I s → P s a → I (next s a))
    (hlost : ∀ s a, I s → P s a → ¬ G s → ¬ G (next s a)) (hs : I s) (hG : ¬ G s)
    (h : Along next P s as) : ¬ G (as.foldl next s) := by
  have hkeep : ∀ s a, I s ∧ ¬ G s → P s a → I (next s a) ∧ ¬ G (next s a) :=
    fun s a h ha => ⟨hI s a h.1 ha, hlost s a h.1 ha h.2⟩
  exact (foldl_invariant hkeep ⟨hs, hG⟩ h).2

/-- A run ends well if and only if all of its steps are good ones, if a step keeps what is good
exactly then, and what is lost is never regained. -/
theorem Along.foldl_iff (hI : ∀ s a, I s → P s a → I (next s a))
    (hG : ∀ s a, I s → P s a → G s → (G (next s a) ↔ Q s a))
    (hlost : ∀ s a, I s → P s a → ¬ G s → ¬ G (next s a)) (hs : I s) (hs' : G s)
    (h : Along next P s as) : G (as.foldl next s) ↔ Along next Q s as := by
  induction as generalizing s with
  | nil => exact iff_of_true hs' trivial
  | cons a as ih =>
    have hstep := hG s a hs h.1 hs'
    by_cases hQ : Q s a
    · rw [List.foldl_cons, ih (hI s a hs h.1) (hstep.2 hQ) h.2]
      exact (and_iff_right hQ).symm
    · have hbad := foldl_lost hI hlost (hI s a hs h.1) (mt hstep.1 hQ) h.2
      exact iff_of_false hbad fun hrun => hQ hrun.1

end Along

end Machine

/-! ### Histories -/

section History

variable {ε : Type} {J : List ε → ε → Prop} {h : List ε}

/-- Every event of a history is justified by the events before it. -/
def Justified (J : List ε → ε → Prop) (h : List ε) : Prop :=
  ∀ h₁ ev h₂, h = h₁ ++ ev :: h₂ → J h₁ ev

lemma justified_nil : Justified J [] := by
  intro h₁ ev h₂ heq
  simp at heq

lemma Justified.snoc {ev : ε} (hh : Justified J h) (hev : J h ev) : Justified J (h ++ [ev]) := by
  intro h₁ e h₂ heq
  rcases List.eq_nil_or_concat h₂ with rfl | ⟨h₂, last, rfl⟩
  · obtain ⟨rfl, he⟩ := List.append_inj' heq rfl
    obtain rfl := List.singleton_inj.1 he
    exact hev
  · rw [List.concat_eq_append, ← List.cons_append, ← List.append_assoc] at heq
    exact hh h₁ e h₂ (List.append_inj_left' heq rfl)

lemma Justified.of_append {h' : List ε} (hh : Justified J (h ++ h')) : Justified J h := by
  intro h₁ ev h₂ heq
  exact hh h₁ ev (h₂ ++ h') (by rw [heq, List.append_assoc, List.cons_append])

/-- Events that need no justification. -/
lemma Justified.append_free {evs : List ε} (hh : Justified J h)
    (hev : ∀ ev ∈ evs, ∀ h, J h ev) : Justified J (h ++ evs) := by
  induction evs generalizing h with
  | nil => rwa [List.append_nil]
  | cons ev evs ih =>
    rw [List.append_cons]
    exact ih (hh.snoc (hev ev (by simp) h)) fun e he => hev e (List.mem_cons_of_mem _ he)

/-- An event of the history is justified by a part of the history. -/
lemma Justified.of_mem {ev : ε} (hh : Justified J h) (hev : ev ∈ h) :
    ∃ h₁ h₂, h = h₁ ++ ev :: h₂ ∧ J h₁ ev := by
  obtain ⟨h₁, h₂, rfl⟩ := List.append_of_mem hev
  exact ⟨h₁, h₂, rfl, hh h₁ ev h₂ rfl⟩

/-- Some event of the history is followed by one to which it is related. -/
def Followed (R : ε → ε → Prop) (h : List ε) : Prop :=
  ∃ h₁ ev h₂, h = h₁ ++ ev :: h₂ ∧ ∃ ev' ∈ h₂, R ev ev'

lemma not_followed_nil {R : ε → ε → Prop} : ¬ Followed R [] := by
  rintro ⟨h₁, ev, h₂, heq, -⟩
  simp at heq

lemma followed_snoc_iff {R : ε → ε → Prop} {last : ε} :
    Followed R (h ++ [last]) ↔ Followed R h ∨ ∃ ev ∈ h, R ev last := by
  constructor
  · rintro ⟨h₁, ev, h₂, heq, ev', hev', hR⟩
    rcases List.eq_nil_or_concat' h₂ with rfl | ⟨h₂, last', rfl⟩
    · simp at hev'
    · rw [← List.cons_append, ← List.append_assoc] at heq
      obtain ⟨rfl, hlast⟩ := List.append_inj' heq rfl
      obtain rfl := List.singleton_inj.1 hlast
      rw [List.mem_append, List.mem_singleton] at hev'
      rcases hev' with hev' | rfl
      · exact .inl ⟨h₁, ev, h₂, rfl, ev', hev', hR⟩
      · exact .inr ⟨ev, by simp, hR⟩
  · rintro (⟨h₁, ev, h₂, rfl, ev', hev', hR⟩ | ⟨ev, hev, hR⟩)
    · exact ⟨h₁, ev, h₂ ++ [last], by simp, ev', by simp [hev'], hR⟩
    · obtain ⟨h₁, h₂, rfl⟩ := List.append_of_mem hev
      exact ⟨h₁, ev, h₂ ++ [last], by simp, last, by simp, hR⟩

end History

end Codicis
