/-
Calls of a book.

A run here is made of public calls of every kind, the queries of the best prices included, which
fill the caches of the ladders.  An identifier may be used again: `submit` refuses an order whose
identifier rests or is parked, so all that is asked of a caller is not to submit the identifier of
an order that is queued for an auction or held as a child (`BookCall.Proper`), which `submit` does
not look for.  Every call returns and leaves a well-formed book, so the best prices are answered
from the ladders as they are.
-/
import Codicis.Core.Rejection

namespace Codicis

namespace Book

variable {b : Book}

/-- The order is queued for an auction or held as a child. -/
def Deferred (b : Book) (id : OrderId) : Prop :=
  ∃ x ∈ b.openingAuction ++ b.closingAuction ++ b.frame.held, x.id = id

instance (b : Book) (id : OrderId) : Decidable (b.Deferred id) :=
  inferInstanceAs (Decidable (∃ x ∈ _, _))

instance (b : Book) (id : OrderId) : Decidable (b.Live id) :=
  decidable_of_iff ((b.orders.lookup id).isSome = true ∨ ∃ x ∈ b.frame.waiting, x.id = id)
    (or_congr_left Option.isSome_iff_ne_none)

/-- Whatever the book holds rests, is parked, or is deferred. -/
lemma Live.cases {id : OrderId} (hb : WF b) (h : Live b id) :
    (b.orders.lookup id).isSome = true ∨ (b.stops.lookup id).isSome = true ∨ b.Deferred id := by
  rcases h with h | ⟨x, hx, hid⟩
  · exact .inl (Option.isSome_iff_ne_none.2 h)
  · rcases List.mem_append.1 hx with hstop | hx
    · obtain ⟨⟨k, y⟩, hk, rfl⟩ := List.mem_map.1 hstop
      have hlk : b.stops.lookup k = some y := Map.mem_pairs.1 hk
      obtain rfl := (hb.stop_id _ _ hlk).symm.trans hid
      exact .inr (.inl (by rw [hlk]; rfl))
    · exact .inr (.inr ⟨x, List.append_assoc _ _ _ ▸ hx, hid⟩)

/-- A submission returns and leaves a well-formed book, whether its identifier is new or in use. -/
lemma submit_wf {o : Order} (hb : WF b) (hdef : ¬ b.Deferred o.id) (hd : 0 ≤ o.displayQty) :
    (b.submit o).Ensures fun r => WF r.1 := by
  by_cases hlive : Live b o.id
  · -- the identifier rests or is parked, and nothing but the sequence number changes
    have hdup : (b.orders.lookup (b.stamp o).id).isSome = true ∨
        (b.stops.lookup (b.stamp o).id).isSome = true := by
      rw [(stamp_keeps b o).1]
      exact (hlive.cases hb).imp_right fun h => h.resolve_right hdef
    have hb' : WF { b with nextSeq := b.nextSeq + 1 } :=
      ⟨hb.sound, hb.waits, hb.stop_id, hb.cached⟩
    have hans : (submitBody (fun x => x.1.submit x.2) (b, o)).Ensures fun r => WF r.1 := by
      unfold submitBody
      dsimp only
      split_ifs
      · exact Comp.ensures_pure hb'
      · exact Comp.ensures_pure hb'
      · exact Comp.ensures_pure hb'
    obtain ⟨r, hr, hwf⟩ := hans
    exact ⟨r, returns_submit.2 hr, hwf⟩
  · refine (submit_step hb hlive hd).imp fun r hr => ?_
    obtain ⟨ms, hst, -⟩ := hr
    exact hst.wf

lemma wf_setNextSeq (hb : WF b) (next : ℕ) : WF (b.setNextSeq next) := by
  unfold setNextSeq
  split_ifs
  · exact ⟨hb.sound, hb.waits, hb.stop_id, hb.cached⟩
  · exact hb

/-- Looking up a best price fills a cache and nothing else. -/
lemma wf_look (hb : WF b) (s : Side) : WF (b.setLadder s (b.ladder s).best.1) := by
  have hu := Undisturbed.look b s
  have hframe := (setLadder_keeps b s (b.ladder s).best.1).2.2.2.2.2.1
  have hview : (b.setLadder s (b.ladder s).best.1).view = b.view :=
    view_eq hu.level (fun id => congrArg (·.lookup id) hu.orders) hu.pegged
  refine ⟨hview ▸ hb.sound, ?_, fun id o h => hb.stop_id id o (hu.stops ▸ h), fun t => ?_⟩
  · rw [hview, hframe]
    exact hb.waits
  · by_cases ht : t = s
    · subst ht
      rw [ladder_setLadder]
      exact (hb.cached t).best.1
    · rw [ladder_setLadder_ne ht]
      exact hb.cached t

end Book

/-- A call of a public operation of the book that may change it: an instruction, a resting order
that comes back from storage, a query through the cache of a best price, or a call of the engine's
bookkeeping. -/
inductive BookCall
  | instruct (q : Instruction)
  | insertResident (o : Order)
  | bestBid
  | bestAsk
  | takeRequeued
  | setNextSeq (next : ℕ)

namespace BookCall

open Book

/-- The book after a call. -/
def run (b : Book) : BookCall → Comp Book
  | instruct q => q.run b >>= fun x => pure x.1
  | insertResident o => pure (b.insertResident o)
  | bestBid => pure b.bestBid.1
  | bestAsk => pure b.bestAsk.1
  | takeRequeued => pure b.takeRequeued.1
  | setNextSeq next => pure (b.setNextSeq next)

/-- What a caller may ask of a book: an order whose identifier is not deferred and that asks for no
negative display, or a plain resting order that the book does not hold. -/
def Proper (b : Book) : BookCall → Prop
  | instruct (.submit o) => ¬ b.Deferred o.id ∧ 0 ≤ o.displayQty
  | insertResident o => o.plainLimit ∧ 0 < o.leaves ∧ ¬ b.Live o.id
  | _ => True

instance (b : Book) : (c : BookCall) → Decidable (c.Proper b)
  | instruct (.submit _) => inferInstanceAs (Decidable (_ ∧ _))
  | insertResident _ => inferInstanceAs (Decidable (_ ∧ _))
  | instruct (.cancel _) | instruct (.expire _) | instruct .runOpeningAuction
  | instruct .runClosingAuction | instruct (.seedPosition _ _) | bestBid | bestAsk | takeRequeued
  | setNextSeq _ => .isTrue trivial

variable {b : Book}

/-- Every call returns and leaves a well-formed book. -/
lemma run_wf {c : BookCall} (hb : WF b) (hc : c.Proper b) : (c.run b).Ensures WF := by
  cases c with
  | instruct q =>
    have hq : (q.run b).Ensures fun x => WF x.1 := by
      cases q with
      | submit o =>
        refine (submit_wf hb hc.1 hc.2).bind fun r hr => ?_
        exact Comp.ensures_pure hr
      | seedPosition c net => exact Comp.ensures_pure (wf_seedPosition c net hb)
      | cancel _ | expire _ | runOpeningAuction | runClosingAuction =>
        refine Comp.Ensures.imp (Instruction.run_step hb ?_ ?_) fun r hr => ?_
        · exact fun hs => hs
        · simp [Instruction.orders]
        · obtain ⟨ms, hst, -⟩ := hr
          exact hst.wf
    exact hq.bind fun x hx => Comp.ensures_pure hx
  | insertResident o =>
    exact Comp.ensures_pure (insertResident_wf hb hc.1 hc.2.1 hc.2.2).1
  | bestBid => exact Comp.ensures_pure (wf_look hb .buy)
  | bestAsk => exact Comp.ensures_pure (wf_look hb .sell)
  | takeRequeued => exact Comp.ensures_pure ⟨hb.sound, hb.waits, hb.stop_id, hb.cached⟩
  | setNextSeq next => exact Comp.ensures_pure (wf_setNextSeq hb next)

end BookCall

/-- The book is reached from an empty one by proper calls, with numbers that do not overflow. -/
def Book.Called (b : Book) : Prop :=
  ∃ memLevels stp symbol eventSink, Machine.Reach BookCall.run BookCall.Proper
    (Book.empty memLevels stp symbol eventSink) b

namespace Book

variable {b : Book}

lemma Called.wf (h : b.Called) : WF b := by
  obtain ⟨memLevels, stp, symbol, eventSink, h⟩ := h
  refine h.invariant (I := WF) (wf_empty _ _ _ _) fun b c b' hb hc hret => ?_
  exact (BookCall.run_wf hb hc).of_returns hret

/-! ### The best prices -/

/-- What the queries of the best prices should answer. -/
structure BestRight (b : Book) : Prop where
  bid : ∀ p, b.bestBid.2 = some p ↔
    0 < b.totalQtyAt .buy p ∧ ∀ q, 0 < b.totalQtyAt .buy q → q ≤ p
  ask : ∀ p, b.bestAsk.2 = some p ↔
    0 < b.totalQtyAt .sell p ∧ ∀ q, 0 < b.totalQtyAt .sell q → p ≤ q
  no_bid : b.bestBid.2 = none ↔ ∀ id e, b.orders.lookup id = some e → e.order.side ≠ .buy
  no_ask : b.bestAsk.2 = none ↔ ∀ id e, b.orders.lookup id = some e → e.order.side ≠ .sell

/-- The best price of a side through its cache, by the levels. -/
lemma best_eq_some (hb : WF b) (s : Side) (p : ℤ) : (b.ladder s).best.2 = some p ↔
    0 < (b.level s p).total ∧
      ∀ q, 0 < (b.level s q).total → q ≠ p → Ladder.better s p q = true := by
  obtain ⟨-, hsome, hnone⟩ := (hb.cached s).best
  constructor
  · exact fun h => hsome p h
  · rintro ⟨hp, hother⟩
    cases hbest : (b.ladder s).best.2 with
    | none => exact absurd hp (hnone hbest p)
    | some p' =>
      obtain ⟨hp', hother'⟩ := hsome p' hbest
      by_contra hne
      have hne : p' ≠ p := fun h => hne (h ▸ rfl)
      have hcycle := Ladder.better_trans (hother p' hp' hne) (hother' p hp hne.symm)
      exact absurd hcycle (by simp [Ladder.better_irrefl])

/-- There is no best price if and only if no order rests on the side. -/
lemma best_eq_none (hb : WF b) (s : Side) : (b.ladder s).best.2 = none ↔
    ∀ id e, b.orders.lookup id = some e → e.order.side ≠ s := by
  obtain ⟨-, hsome, hnone⟩ := (hb.cached s).best
  constructor
  · rintro h id e he rfl
    exact hnone h e.order.price (hb.sound.total_pos_iff.2 ⟨id, e, he, rfl, rfl⟩)
  · intro h
    cases hbest : (b.ladder s).best.2 with
    | none => rfl
    | some p =>
      obtain ⟨id, e, he, hs, -⟩ := hb.sound.total_pos_iff.1 (hsome p hbest).1
      exact absurd hs (h id e he)

/-- Whatever calls have led to a book, with queries at any point between them, the best prices it
answers are the best ones. -/
theorem bestRight_of_called (h : b.Called) : BestRight b := by
  have hb := h.wf
  refine ⟨fun p => (best_eq_some hb .buy p).trans ?_, fun p => (best_eq_some hb .sell p).trans ?_,
    best_eq_none hb .buy, best_eq_none hb .sell⟩
  · refine and_congr_right fun _ => forall₂_congr fun q _ => ?_
    simp only [Ladder.better, decide_eq_true_eq]
    omega
  · refine and_congr_right fun _ => forall₂_congr fun q _ => ?_
    simp only [Ladder.better, decide_eq_true_eq]
    omega

/-- A book of proper calls that are evaluated. -/
lemma Called.exists_of_calls {Q : Book → Prop} [DecidablePred Q] (memLevels n : ℕ)
    (cs : List BookCall) (h : Machine.allowedActs BookCall.run BookCall.Proper n
      (Book.empty memLevels .none "ABC" true) cs = true ∧ (Machine.runActs BookCall.run n
        (Book.empty memLevels .none "ABC" true) cs).any (fun b => decide (Q b)) = true) :
    ∃ b : Book, b.Called ∧ Q b := by
  obtain ⟨b, hb, hQ⟩ := Machine.Reach.exists_of_acts n cs h
  exact ⟨b, ⟨memLevels, .none, "ABC", true, hb⟩, hQ⟩

/-- A window of one level: the order at the cached best ask makes way for a better one. -/
theorem bestRight_of_called_evicted : ∃ b : Book, b.Called ∧ b.bestAsk.2 = some 100 ∧
    b.bestBid.2 = none ∧ (b.deepOf .sell).has = true ∧ BestRight b := by
  let cs : List BookCall := [
    .instruct (.submit { id := 1, side := .sell, qty := 5, price := 101 }),
    .bestAsk,
    .instruct (.submit { id := 2, side := .sell, qty := 5, price := 100 }),
    .bestBid]
  obtain ⟨b, hb, hask, hbid, hdeep⟩ : ∃ b : Book, b.Called ∧ b.bestAsk.2 = some 100 ∧
      b.bestBid.2 = none ∧ (b.deepOf .sell).has = true :=
    Called.exists_of_calls 1 8 cs (by decide +kernel)
  exact ⟨b, hb, hask, hbid, hdeep, bestRight_of_called hb⟩

end Book

end Codicis
