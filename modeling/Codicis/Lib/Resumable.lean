/-
Resumable parsers.

A parser has a state and a buffer of bytes that it has not consumed.  In one turn it
consumes bytes and may give a value, or waits for more bytes, or fails.  `run` takes turns
until the parser waits or fails; `feed` appends a chunk to the buffer and runs again.

`feedAll_eq` is the reason why such a parser can be trusted on a socket: if a turn that was
possible stays the same when more bytes stand behind it (`Splits`), then the values and the
place of the first failure do not depend on the chunks.  Limits on unfinished input break
this: a parser may give up on bytes that it would have accepted, had it seen more of them.
The predicate `T` of `Splits` says where it may.  `exists_cut_of_visits` is the converse: if
the parser comes to such a place, then there are two ways to cut the input that differ.
-/
import Mathlib.Algebra.Order.Ring.Int
import Mathlib.Data.List.Infix

namespace Codicis

namespace Resumable

variable {σ β α : Type}

/-- What a parser does in one turn. -/
inductive Move (σ β α : Type)
  /-- Go on in a state and with the rest of the buffer, perhaps with a value. -/
  | go (s : σ) (rest : List β) (out : Option α)
  /-- Wait for more bytes, in a state and with the rest of the buffer. -/
  | wait (s : σ) (rest : List β)
  | fail
deriving DecidableEq

/-- A parser, with a measure that makes it stop. -/
structure Parser (σ β α : Type) where
  turn : σ → List β → Move σ β α
  measure : σ → List β → ℕ
  decreases : ∀ {s v s' rest out}, turn s v = .go s' rest out → measure s' rest < measure s v

/-- What a run gives: the values, the number of bytes consumed, and the state and the buffer
at the end, if the parser has not failed. -/
structure Verdict (σ β α : Type) where
  outs : List α
  pos : ℕ
  rest : Option (σ × List β)
deriving DecidableEq

/-- A verdict after some values and some bytes. -/
def Verdict.after (r : Verdict σ β α) (outs : List α) (n : ℕ) : Verdict σ β α :=
  ⟨outs ++ r.outs, n + r.pos, r.rest⟩

/-- What can be told from outside: the values, and the place of the failure. -/
def Verdict.shows (r : Verdict σ β α) : List α × Option ℕ :=
  (r.outs, if r.rest.isNone = true then some r.pos else none)

@[simp] lemma Verdict.after_nil (r : Verdict σ β α) : r.after [] 0 = r := by
  simp [Verdict.after]

@[simp] lemma Verdict.after_after (r : Verdict σ β α) (o o' : List α) (n n' : ℕ) :
    (r.after o n).after o' n' = r.after (o' ++ o) (n' + n) := by
  simp [Verdict.after, Nat.add_assoc]

lemma Verdict.shows_after (r : Verdict σ β α) (o : List α) (n : ℕ) :
    (r.after o n).shows = (o ++ r.shows.1, r.shows.2.map (n + ·)) := by
  cases h : r.rest <;> simp [Verdict.shows, Verdict.after, h]

lemma Verdict.shows_after_inj {r r' : Verdict σ β α} {o : List α} {n : ℕ}
    (h : (r.after o n).shows = (r'.after o n).shows) : r.shows = r'.shows := by
  rw [shows_after, shows_after] at h
  obtain ⟨houts, hpos⟩ := Prod.mk.inj h
  have hinj : Function.Injective fun k => n + k := fun _ _ => Nat.add_left_cancel
  exact Prod.ext (List.append_cancel_left houts) (Option.map_injective hinj hpos)

/-- At most `n` turns. -/
def runFuel (turn : σ → List β → Move σ β α) : ℕ → σ → List β → Verdict σ β α
  | 0, s, v => ⟨[], 0, some (s, v)⟩
  | n + 1, s, v =>
    match turn s v with
    | .go s' rest out => (runFuel turn n s' rest).after out.toList (v.length - rest.length)
    | .wait s' rest => ⟨[], v.length - rest.length, some (s', rest)⟩
    | .fail => ⟨[], 0, none⟩

namespace Parser

variable (P : Parser σ β α) {s s' : σ} {v w rest : List β} {out : Option α}

/-- Turns until the parser waits or fails. -/
def run (s : σ) (v : List β) : Verdict σ β α := runFuel P.turn (P.measure s v + 1) s v

/-- Append a chunk to the buffer and run again; a parser that has failed stays so. -/
def feed (r : Verdict σ β α) (chunk : List β) : Verdict σ β α :=
  match r.rest with
  | none => r
  | some (s, v) => (P.run s (v ++ chunk)).after r.outs r.pos

/-- A stream that comes in chunks. -/
def feedAll (s : σ) (chunks : List (List β)) : Verdict σ β α :=
  chunks.foldl P.feed ⟨[], 0, some (s, [])⟩

lemma feed_start (s : σ) (chunk : List β) : P.feed ⟨[], 0, some (s, [])⟩ chunk = P.run s chunk := by
  simp [feed]

/-! ### The turns of a run -/

lemma runFuel_congr {n m : ℕ} (hn : P.measure s v < n) (hm : P.measure s v < m) :
    runFuel P.turn n s v = runFuel P.turn m s v := by
  induction n generalizing m s v with
  | zero => omega
  | succ n ih =>
    obtain ⟨m, rfl⟩ : ∃ k, m = k + 1 := ⟨m - 1, by omega⟩
    rw [runFuel, runFuel]
    split
    · next s' rest out hturn =>
        have hlt := P.decreases hturn
        rw [ih (by omega) (by omega : P.measure s' rest < m)]
    · rfl
    · rfl

variable {P}

lemma run_go (h : P.turn s v = .go s' rest out) :
    P.run s v = (P.run s' rest).after out.toList (v.length - rest.length) := by
  have hlt := P.decreases h
  rw [run, runFuel, h]
  simp only
  rw [runFuel_congr P hlt (Nat.lt_succ_self _), run]

lemma run_wait (h : P.turn s v = .wait s' rest) :
    P.run s v = ⟨[], v.length - rest.length, some (s', rest)⟩ := by
  rw [run, runFuel, h]

lemma run_fail (h : P.turn s v = .fail) : P.run s v = ⟨[], 0, none⟩ := by
  rw [run, runFuel, h]

lemma feed_after (r : Verdict σ β α) (o : List α) (n : ℕ) (w : List β) :
    P.feed (r.after o n) w = (P.feed r w).after o n := by
  obtain ⟨outs, pos, rest⟩ := r
  cases rest with
  | none => rfl
  | some sv => simp [feed, Verdict.after, Nat.add_assoc]

/-- The configurations that a run comes to. -/
inductive Visits (P : Parser σ β α) : σ → List β → σ → List β → Prop
  | here (s : σ) (v : List β) : Visits P s v s v
  | turn {s s' s'' : σ} {v rest v'' : List β} {out : Option α} (h : P.turn s v = .go s' rest out)
      (hv : Visits P s' rest s'' v'') : Visits P s v s'' v''

/-! ### Chunks -/

/-- More bytes behind the buffer do not change what a parser does with it, except that it may
have given up too early where `T` holds. -/
structure Splits (P : Parser σ β α) (T : σ → List β → Prop) : Prop where
  go : ∀ {s v s' rest out}, P.turn s v = .go s' rest out →
    rest.length ≤ v.length ∧ ∀ w, P.turn s (v ++ w) = .go s' (rest ++ w) out
  /-- A parser that waits has done nothing, or has consumed everything and goes on as if it had
  not. -/
  wait : ∀ {s v s' rest}, P.turn s v = .wait s' rest → (s' = s ∧ rest = v) ∨
    (rest = [] ∧ P.turn s' [] = .wait s' [] ∧
      ∀ w ≠ [], P.turn s (v ++ w) = P.turn s' w ∧ P.turn s' w ≠ .fail)
  fail : ∀ {s v}, P.turn s v = .fail → ∀ w, P.turn s (v ++ w) = .fail ∨ T s (v ++ w)
  mono : ∀ {s v}, T s v → ∀ w, T s (v ++ w)

/-- A run that never comes to a place where the parser may have given up too early. -/
def Smooth (P : Parser σ β α) (T : σ → List β → Prop) (s : σ) (v : List β) : Prop :=
  ∀ s' v', P.Visits s v s' v' → ¬ T s' v'

variable {T : σ → List β → Prop}

lemma Smooth.turn (h : P.Smooth T s v) (hturn : P.turn s v = .go s' rest out) :
    P.Smooth T s' rest :=
  fun s'' v'' hv => h s'' v'' (.turn hturn hv)

lemma Splits.visits (hP : P.Splits T) {v' : List β} (h : P.Visits s v s' v') (w : List β) :
    P.Visits s (v ++ w) s' (v' ++ w) := by
  induction h with
  | here s v => exact .here _ _
  | turn h _ ih => exact .turn ((hP.go h).2 w) ih

/-- The beginning of a smooth stream is smooth. -/
lemma Splits.smooth_of_append (hP : P.Splits T) (h : P.Smooth T s (v ++ w)) : P.Smooth T s v :=
  fun s' v' hv hT => h s' (v' ++ w) (hP.visits hv w) (hP.mono hT w)

lemma Splits.wait_le (hP : P.Splits T) (h : P.turn s v = .wait s' rest) :
    rest.length ≤ v.length := by
  rcases hP.wait h with ⟨-, rfl⟩ | ⟨rfl, -⟩
  · exact le_rfl
  · exact Nat.zero_le _

/-- A parser that waits goes on as if all the bytes had been there at once. -/
lemma Splits.run_append_of_wait (hP : P.Splits T) (h : P.turn s v = .wait s' rest) (w : List β) :
    P.run s (v ++ w) = (P.run s' (rest ++ w)).after [] (v.length - rest.length) := by
  rcases hP.wait h with ⟨rfl, rfl⟩ | ⟨rfl, hidle, hrest⟩
  · simp
  · cases w with
    | nil => rw [List.append_nil, List.append_nil, run_wait h, run_wait hidle]; rfl
    | cons b w =>
      obtain ⟨hturn, hfail⟩ := hrest (b :: w) (by simp)
      rw [List.nil_append, List.length_nil, Nat.sub_zero]
      cases hw : P.turn s' (b :: w) with
      | go s'' rest'' out =>
        rw [run_go (hturn.trans hw), run_go hw, Verdict.after_after, List.nil_append,
          List.length_append, Nat.add_sub_assoc (hP.go hw).1]
      | wait s'' rest'' =>
        rw [run_wait (hturn.trans hw), run_wait hw, List.length_append,
          Nat.add_sub_assoc (hP.wait_le hw)]
        rfl
      | fail => exact absurd hw hfail

/-- To run on two chunks is to run on both at once. -/
theorem Splits.feed_run (hP : P.Splits T) (hs : P.Smooth T s (v ++ w)) :
    P.feed (P.run s v) w = P.run s (v ++ w) := by
  induction hn : P.measure s v using Nat.strong_induction_on generalizing s v with
  | _ n ih =>
    cases hturn : P.turn s v with
    | go s' rest out =>
      have hturn' := (hP.go hturn).2 w
      rw [run_go hturn, run_go hturn', feed_after,
        ih _ (hn ▸ P.decreases hturn) (hs.turn hturn') rfl, List.length_append,
        List.length_append, Nat.add_sub_add_right]
    | wait s' rest =>
      rw [run_wait hturn, hP.run_append_of_wait hturn w]
      rfl
    | fail =>
      have hturn' : P.turn s (v ++ w) = .fail :=
        (hP.fail hturn w).resolve_right (hs _ _ (.here _ _))
      rw [run_fail hturn, run_fail hturn']
      rfl

/-- On a smooth stream the chunks do not matter. -/
theorem Splits.feedAll_eq (hP : P.Splits T) (hidle : P.turn s [] = .wait s [])
    {chunks : List (List β)} (hs : P.Smooth T s chunks.flatten) :
    P.feedAll s chunks = P.run s chunks.flatten := by
  have hfold : ∀ v, P.Smooth T s (v ++ chunks.flatten) →
      chunks.foldl P.feed (P.run s v) = P.run s (v ++ chunks.flatten) := by
    clear hs
    induction chunks with
    | nil => intro v _; simp
    | cons c cs ih =>
      intro v hs
      rw [List.flatten_cons, ← List.append_assoc] at hs ⊢
      rw [List.foldl_cons, hP.feed_run (hP.smooth_of_append hs), ih _ hs]
  have hstart : P.run s [] = ⟨[], 0, some (s, [])⟩ := run_wait hidle
  rw [feedAll, ← hstart]
  exact hfold [] hs

/-! ### Invariants -/

section Invariant

variable {I : σ → Prop} {Q : α → Prop}

/-- What every turn keeps, the states of a run have, and so do its values. -/
lemma run_invariant (hgo : ∀ s v s' rest out, I s → P.turn s v = .go s' rest out →
      I s' ∧ ∀ a ∈ out, Q a)
    (hwait : ∀ s v s' rest, I s → P.turn s v = .wait s' rest → I s') (hs : I s) :
    (∀ a ∈ (P.run s v).outs, Q a) ∧ ∀ sv ∈ (P.run s v).rest, I sv.1 := by
  induction hn : P.measure s v using Nat.strong_induction_on generalizing s v with
  | _ n ih =>
    cases hturn : P.turn s v with
    | go s' rest out =>
      obtain ⟨hs', hout⟩ := hgo _ _ _ _ _ hs hturn
      obtain ⟨houts, hrest⟩ := ih _ (hn ▸ P.decreases hturn) hs' rfl
      rw [run_go hturn]
      exact ⟨List.forall_mem_append.2 ⟨by simpa using hout, houts⟩, hrest⟩
    | wait s' rest =>
      rw [run_wait hturn]
      simpa using hwait _ _ _ _ hs hturn
    | fail =>
      rw [run_fail hturn]
      simp

/-- The values of a stream, in whatever chunks it comes. -/
theorem feedAll_invariant (hgo : ∀ s v s' rest out, I s → P.turn s v = .go s' rest out →
      I s' ∧ ∀ a ∈ out, Q a)
    (hwait : ∀ s v s' rest, I s → P.turn s v = .wait s' rest → I s') (hs : I s)
    (chunks : List (List β)) : ∀ a ∈ (P.feedAll s chunks).outs, Q a := by
  have hfold : ∀ r : Verdict σ β α, (∀ a ∈ r.outs, Q a) → (∀ sv ∈ r.rest, I sv.1) →
      ∀ a ∈ (chunks.foldl P.feed r).outs, Q a := by
    induction chunks with
    | nil => exact fun r houts _ => houts
    | cons c cs ih =>
      rintro ⟨outs, pos, rest⟩ houts hrest
      cases rest with
      | none => exact ih _ houts hrest
      | some sv =>
        obtain ⟨houts', hrest'⟩ := run_invariant hgo hwait (v := sv.2 ++ c) (hrest sv rfl)
        exact ih _ (List.forall_mem_append.2 ⟨houts, houts'⟩) hrest'
  exact hfold ⟨[], 0, some (s, [])⟩ (by simp) (by simpa using hs)

end Invariant

/-! ### Cuts that matter -/

/-- What a turn does depends only on the bytes that it consumes. -/
def Local (P : Parser σ β α) : Prop :=
  ∀ {s v s' rest out}, P.turn s v = .go s' rest out →
    ∃ p, v = p ++ rest ∧ ∀ r, r <+: rest → P.turn s (p ++ r) = .go s' r out

/-- The parser gives up on a part of the bytes that it would have accepted. -/
def Hasty (P : Parser σ β α) (s : σ) (v : List β) : Prop :=
  (∃ p, p <+: v ∧ P.turn s p = .fail) ∧
    ∃ s' rest out, P.turn s v = .go s' rest out ∧ rest.length < v.length

/-- If a run comes to a place where the parser is hasty, then it matters whether the stream
comes at once. -/
theorem exists_cut_of_visits (hP : P.Local) {v' : List β} (h : P.Visits s v s' v')
    (hh : P.Hasty s' v') : ∃ p q, v = p ++ q ∧
      (P.feed (P.run s p) q).shows ≠ (P.run s v).shows := by
  induction h with
  | here s v =>
    obtain ⟨⟨p, ⟨q, rfl⟩, hfail⟩, s', rest, out, hgo, hlt⟩ := hh
    refine ⟨p, q, rfl, ?_⟩
    rw [run_fail hfail, run_go hgo]
    intro heq
    have hpos := (Prod.mk.inj heq).2
    cases hend : (P.run s' rest).rest with
    | none =>
      simp [feed, Verdict.after, hend] at hpos
      simp at hlt
      omega
    | some sv => simp [feed, Verdict.after, hend] at hpos
  | turn hturn _ ih =>
    obtain ⟨p, q, rfl, hne⟩ := ih hh
    obtain ⟨c, rfl, hlocal⟩ := hP hturn
    refine ⟨c ++ p, q, by simp, fun heq => hne ?_⟩
    have hlen : (c ++ p).length - p.length = (c ++ (p ++ q)).length - (p ++ q).length := by simp
    rw [run_go (hlocal p ⟨q, rfl⟩), run_go hturn, feed_after, hlen] at heq
    exact Verdict.shows_after_inj heq

end Parser

end Resumable

end Codicis
