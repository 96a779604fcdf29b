/-
Where the contents of a book, its executions and its events come from.

The book of ladders, queues, indexes and caches does what an abstract book does whose operations
are single mutations: a history is a run of them, with its executions and its events
(`refines_of_history`), so the feed tells of every execution once and in order
(`told_of_history`).
-/
import Codicis.Core.History

namespace Codicis

open Book

/-! ### Executions -/

/-- The execution that an event of the feed tells of. -/
def BookEvent.trade? (ev : BookEvent) : Option Trade :=
  if ev.type = .trade then some ⟨ev.takerId, ev.orderId, ev.side, ev.price, ev.qty⟩ else none

lemma Mut.trade?_events (sym : Symbol) (m : Mut) :
    (m.events sym).filterMap BookEvent.trade? = m.trade?.toList := by
  cases m with
  | fill o me q rank =>
    simp only [events]
    split_ifs <;> simp [Trade.event, Order.event, BookEvent.trade?, trade?]
  | cross t d => simp [events, Trade.event, BookEvent.trade?, trade?]
  | _ => simp [events, Order.event, BookEvent.trade?, trade?]

lemma Mut.trades_of_events (sym : Symbol) (ms : List Mut) :
    (ms.flatMap (Mut.events sym)).filterMap BookEvent.trade? = Mut.trades ms := by
  rw [List.filterMap_flatMap, trades, List.filterMap_eq_flatMap_toList]
  simp only [trade?_events]

/-! ### Histories -/

/-- An instruction is a run of the abstract book. -/
lemma Record.Sane.evolves {r : Record} (h : r.Sane) {q : Instruction} (hq : q.Allowed r)
    {b' : Book} {ts : List Trade} (hret : (q.run r.book).Returns (b', ts)) :
    ∃ ms, Evolves r.book ms b' ∧ ts = Mut.trades ms := by
  rcases h.cases hq hret with ⟨c, net, rfl, rfl, rfl⟩ | ⟨-, ms, hst, ht⟩
  · refine ⟨[], .of_view ?_ ?_ ?_ ?_, rfl⟩ <;> unfold Book.seedPosition <;> split_ifs <;> rfl
  · exact ⟨ms, hst.evolves, ht⟩

namespace History

variable {C : Record → Instruction → Prop} {memLevels : ℕ} {stp : StpPolicy} {symbol : Symbol}
  {eventSink : Bool} {r : Record}

lemma evolves (h : History C (Book.empty memLevels stp symbol eventSink) r) :
    ∃ ms, Evolves (Book.empty memLevels stp symbol eventSink) ms r.book ∧
      r.trades = Mut.trades ms := by
  induction h with
  | init => exact ⟨[], .refl _, rfl⟩
  | step h hC hq hret ih =>
    obtain ⟨ms, hms, htr⟩ := ih
    obtain ⟨ms', hms', rfl⟩ := h.sane.evolves hq hret
    exact ⟨ms ++ ms', hms.trans hms', by rw [htr, Mut.trades_append]⟩

/-- A history of the book is a run of the abstract book from the empty one, with the executions,
events and re-queued orders of the run, and every instruction that is allowed returns and
continues it. -/
theorem refines_of_history (h : History C (Book.empty memLevels stp symbol eventSink) r) :
    ∃ ms, Evolves (Book.empty memLevels stp symbol eventSink) ms r.book ∧
      r.trades = Mut.trades ms ∧ ∀ q : Instruction, q.Allowed r → (q.run r.book).Ensures fun x =>
        ∃ ms', Evolves r.book ms' x.1 ∧ x.2 = Mut.trades ms' := by
  obtain ⟨ms, hms, htr⟩ := h.evolves
  refine ⟨ms, hms, htr, fun q hq => ?_⟩
  obtain ⟨b', ts, hret⟩ := h.sane.returns hq
  exact ⟨(b', ts), hret, h.sane.evolves hq hret⟩

/-- A resting bid is hit and part of it remains. -/
lemma exists_hit : ∃ r, History (fun _ _ => True) (Book.empty 0 .none "ABC" true) r ∧
    r.trades = [⟨2, 1, .sell, 110, 2⟩] :=
  exists_of_replay 8 [.submit { id := 1, qty := 5, price := 110 },
    .submit { id := 2, side := .sell, qty := 2, price := 105 }] (by decide +kernel)

theorem refines_of_history_hit : ∃ (r : Record) (ms : List Mut),
    r.trades = [⟨2, 1, .sell, 110, 2⟩] ∧ Evolves (Book.empty 0 .none "ABC" true) ms r.book ∧
      r.trades = Mut.trades ms := by
  obtain ⟨r, h, ht⟩ := exists_hit
  obtain ⟨ms, hms, htr, -⟩ := refines_of_history h
  exact ⟨r, ms, ht, hms, htr⟩

/-- The feed of a book tells of every execution, once and in order. -/
theorem told_of_history (h : History C (Book.empty memLevels stp symbol true) r) :
    r.book.events.filterMap BookEvent.trade? = r.trades := by
  obtain ⟨ms, hms, htr⟩ := h.evolves
  rw [hms.events, htr]
  exact Mut.trades_of_events symbol ms

theorem told_of_history_hit : ∃ r : Record, r.trades = [⟨2, 1, .sell, 110, 2⟩] ∧
    r.book.events.filterMap BookEvent.trade? = r.trades := by
  obtain ⟨r, h, ht⟩ := exists_hit
  exact ⟨r, ht, told_of_history h⟩

end History

end Codicis
