/-
Cutting a list at the first occurrence of a pattern.

Parsers look for the first terminator, take what stands before it and go on behind it.
`cutAt` is that search.  `FirstAt pat b` says that in `b ++ pat` the pattern occurs only at
the end; so whether a list is cut behind `b` depends on nothing that comes later
(`cutAt_eq_some_iff`), which is why a parser that has found its terminator does the same
when more bytes arrive.
-/
import Mathlib.Data.List.Infix

namespace Codicis

variable {β : Type} {c : β} {pat v w b a : List β}

/-- The pattern occurs in `b ++ pat` only at the end. -/
def FirstAt (pat b : List β) : Prop :=
  ∀ b' a', b ++ pat = b' ++ pat ++ a' → a' = []

lemma firstAt_nil : FirstAt pat [] := by
  intro b' a' h
  have hlen := congrArg List.length h
  simp only [List.nil_append, List.length_append] at hlen
  exact List.eq_nil_of_length_eq_zero (by omega)

lemma firstAt_cons (hp : ¬ pat <+: c :: (b ++ pat)) (h : FirstAt pat b) :
    FirstAt pat (c :: b) := by
  intro b' a' heq
  cases b' with
  | nil => exact absurd ⟨a', heq.symm⟩ hp
  | cons d b' => exact h b' a' (List.cons.inj heq).2

lemma FirstAt.tail (h : FirstAt pat (c :: b)) : FirstAt pat b := by
  intro b' a' heq
  exact h (c :: b') a' (by simpa using heq)

lemma FirstAt.not_prefix (h : FirstAt pat (c :: b)) : ¬ pat <+: c :: (b ++ pat) := by
  rintro ⟨a', heq⟩
  have hnil : a' = [] := h [] a' heq.symm
  have hlen := congrArg List.length heq
  simp only [hnil, List.append_nil, List.length_cons, List.length_append] at hlen
  omega

lemma firstAt_singleton : FirstAt [c] b ↔ c ∉ b := by
  constructor
  · intro h hc
    obtain ⟨b', a', rfl⟩ := List.append_of_mem hc
    exact absurd (h b' (a' ++ [c]) (by simp)) (by simp)
  · intro hc b' a' heq
    rcases List.eq_nil_or_concat a' with rfl | ⟨a'', d, rfl⟩
    · rfl
    · have heq : b ++ [c] = (b' ++ c :: a'') ++ [d] := by simpa using heq
      exact absurd (by simp [List.append_inj_left' heq rfl]) hc

/-- A prefix that is too short to reach into the tail. -/
lemma prefix_append_iff :
    pat <+: c :: (b ++ pat ++ a) ↔ pat <+: c :: (b ++ pat) := by
  have hshort : c :: (b ++ pat) <+: c :: (b ++ pat ++ a) := ⟨a, by simp⟩
  refine ⟨fun h => ?_, fun h => h.trans hshort⟩
  exact List.prefix_of_prefix_length_le h hshort (by simp; omega)

variable [DecidableEq β]

/-- What stands before the first occurrence of a pattern, and what stands behind it. -/
def cutAt (pat : List β) : List β → Option (List β × List β)
  | [] => if pat = [] then some ([], []) else none
  | c :: cs =>
    if pat.isPrefixOf (c :: cs) = true then some ([], (c :: cs).drop pat.length)
    else (cutAt pat cs).map fun r => (c :: r.1, r.2)

/-- Where a list is cut does not depend on what stands behind the cut. -/
theorem cutAt_eq_some_iff (hpat : pat ≠ []) :
    cutAt pat v = some (b, a) ↔ v = b ++ pat ++ a ∧ FirstAt pat b := by
  constructor
  · intro h
    induction v generalizing b with
    | nil => simp [cutAt, hpat] at h
    | cons c cs ih =>
      rw [cutAt] at h
      split_ifs at h with hp
      · obtain ⟨rfl, rfl⟩ := Prod.mk.inj (Option.some.inj h)
        obtain ⟨a', ha'⟩ := List.isPrefixOf_iff_prefix.1 hp
        refine ⟨?_, firstAt_nil⟩
        rw [← ha', List.drop_left, List.nil_append]
      · obtain ⟨⟨b₀, a₀⟩, hcut, heq⟩ := Option.map_eq_some_iff.1 h
        obtain ⟨rfl, rfl⟩ := Prod.mk.inj heq
        obtain ⟨rfl, hfirst⟩ := ih hcut
        refine ⟨by simp, firstAt_cons (fun hpre => hp ?_) hfirst⟩
        exact List.isPrefixOf_iff_prefix.2 (prefix_append_iff.2 hpre)
  · rintro ⟨rfl, hfirst⟩
    induction b with
    | nil =>
      obtain ⟨c, cs, rfl⟩ := List.exists_cons_of_ne_nil hpat
      simp [cutAt, List.isPrefixOf_iff_prefix]
    | cons c b ih =>
      have hp : ¬ (pat.isPrefixOf (c :: (b ++ pat ++ a)) = true) := by
        rw [List.isPrefixOf_iff_prefix, prefix_append_iff]
        exact hfirst.not_prefix
      have hih := ih hfirst.tail
      rw [List.cons_append, List.cons_append, cutAt, if_neg hp, hih]
      rfl

theorem cutAt_eq_none_iff (hpat : pat ≠ []) : cutAt pat v = none ↔ ¬ pat <:+: v := by
  induction v with
  | nil => simp [cutAt, hpat]
  | cons c cs ih =>
    rw [cutAt, List.infix_cons_iff, ← List.isPrefixOf_iff_prefix]
    split_ifs with hp
    · simp [hp]
    · simp [hp, ih]

/-- More bytes behind the cut change nothing. -/
lemma cutAt_append (hpat : pat ≠ []) (h : cutAt pat v = some (b, a)) (w : List β) :
    cutAt pat (v ++ w) = some (b, a ++ w) := by
  obtain ⟨rfl, hfirst⟩ := (cutAt_eq_some_iff hpat).1 h
  exact (cutAt_eq_some_iff hpat).2 ⟨by simp, hfirst⟩

lemma cutAt_length (hpat : pat ≠ []) (h : cutAt pat v = some (b, a)) :
    v.length = b.length + pat.length + a.length := by
  rw [((cutAt_eq_some_iff hpat).1 h).1, List.length_append, List.length_append]

/-- Without its last byte, the pattern is not found. -/
lemma cutAt_dropLast (hpat : pat ≠ []) (h : FirstAt pat b) :
    cutAt pat (b ++ pat).dropLast = none := by
  rw [cutAt_eq_none_iff hpat]
  rintro ⟨b', a', heq⟩
  have hne : b ++ pat ≠ [] := by simp [hpat]
  have hnil := h b' (a' ++ [(b ++ pat).getLast hne])
    (by rw [← List.append_assoc, heq, List.dropLast_append_getLast])
  exact absurd hnil (by simp)

/-- A pattern that is found only when more bytes have arrived reaches into them. -/
lemma length_lt_of_cutAt (hpat : pat ≠ []) (h : cutAt pat v = none)
    (h' : cutAt pat (v ++ w) = some (b, a)) : v.length < b.length + pat.length := by
  by_contra hle
  have heq := ((cutAt_eq_some_iff hpat).1 h').1
  have hpre : b ++ pat <+: v := by
    refine List.prefix_of_prefix_length_le ⟨a, heq.symm⟩ ⟨w, rfl⟩ ?_
    rw [List.length_append]
    omega
  exact (cutAt_eq_none_iff hpat).1 h ((List.suffix_append b pat).isInfix.trans hpre.isInfix)

/-! ### One byte as pattern -/

lemma cutAt_singleton_iff : cutAt [c] v = some (b, a) ↔ v = b ++ c :: a ∧ c ∉ b := by
  rw [cutAt_eq_some_iff (by simp), firstAt_singleton, List.append_assoc]
  rfl

end Codicis
