/-
What an account has reserved for its reduce-only orders.

In an unbounded book the reservation of an account on a side is what its resting reduce-only
orders there have left (`Book.Exact`).  Reservations are made and released at several places of the
book; the lemmas `reserves_rest`, `reserves_fill` and `reserves_remove` say of each that it moves
the reservation and the sum over the resting orders by the same amount.
-/
import Codicis.Core.Positions
import Codicis.Core.Quiescence

namespace Codicis

/-- The order may only reduce a position. -/
def Order.ReduceOnly (o : Order) : Prop := o.flags.reduceOnly = true

instance : DecidablePred Order.ReduceOnly := fun _ => inferInstanceAs (Decidable (_ = _))

/-! ### What is reserved -/

/-- What a resting order may reduce on a side for an account. -/
def roWeight (c : ClientId) (s : Side) (e : Entry) : ℤ :=
  if e.order.ReduceOnly ∧ e.order.clientId = c ∧ e.order.side = s then e.order.leaves else 0

/-- What the resting orders of an account may reduce on a side. -/
def Book.roLeaves (b : Book) (c : ClientId) (s : Side) : ℤ := Map.sumBy (roWeight c s) b.orders

namespace Book

variable {b b' : Book} {c : ClientId} {s : Side} {e : Entry}

lemma roWeight_nonneg (hs : b.view.Sound) (c : ClientId) (s : Side) (id : OrderId) (e : Entry)
    (he : b.orders.lookup id = some e) : 0 ≤ roWeight c s e := by
  unfold roWeight
  split_ifs
  · exact (hs.entry_ok id e he).leaves_pos.le
  · exact le_rfl

lemma roLeaves_nonneg (hs : b.view.Sound) (c : ClientId) (s : Side) : 0 ≤ b.roLeaves c s :=
  Map.sumBy_nonneg (roWeight_nonneg hs c s)

lemma leaves_le_roLeaves (hs : b.view.Sound) {id : OrderId} (he : b.view.entry id = some e)
    (hr : e.order.ReduceOnly) : e.order.leaves ≤ b.roLeaves e.order.clientId e.order.side := by
  have hle := Map.le_sumBy (roWeight_nonneg hs e.order.clientId e.order.side) he
  rwa [roWeight, if_pos ⟨hr, rfl, rfl⟩] at hle

lemma roLeaves_congr (h : b'.view = b.view) : b'.roLeaves = b.roLeaves := by
  funext c s
  exact sumBy_view _ h

lemma roLeaves_rest (hr : View.Run b.view [.rest e] b'.view) (c : ClientId) (s : Side) :
    b'.roLeaves c s = b.roLeaves c s + roWeight c s e := sumBy_rest _ hr

lemma roLeaves_remove (hr : View.Run b.view [.remove e] b'.view) (c : ClientId) (s : Side) :
    b'.roLeaves c s = b.roLeaves c s - roWeight c s e := sumBy_remove _ hr

lemma roLeaves_move {p : ℤ} {rank : ℕ} (hr : View.Run b.view [.move e p rank] b'.view)
    (c : ClientId) (s : Side) : b'.roLeaves c s = b.roLeaves c s := by
  have hw : roWeight c s (e.moved p rank) = roWeight c s e := rfl
  rw [roLeaves, sumBy_move _ hr, hw, roLeaves]
  omega

lemma roLeaves_fill {o : Order} {q : ℤ} {rank : ℕ}
    (hr : View.Run b.view [.fill o e q rank] b'.view) (c : ClientId) (s : Side) :
    b'.roLeaves c s = b.roLeaves c s -
      if e.order.ReduceOnly ∧ e.order.clientId = c ∧ e.order.side = s then q else 0 := by
  have hfill : roWeight c s (e.fill q) = if e.order.ReduceOnly ∧ e.order.clientId = c ∧
      e.order.side = s then e.order.leaves - q else 0 := rfl
  have hrep : roWeight c s ((e.fill q).replenished rank) = roWeight c s (e.fill q) := rfl
  rw [roLeaves, sumBy_fill _ hr, hrep, hfill, roWeight, roLeaves]
  split_ifs <;> omega

/-- Reservations are made for the resting orders that count. -/
lemma reserves_iff {x : Order} (hc : c ≠ 0) :
    (x.flags.reduceOnly = true ∧ x.clientId ≠ 0 ∧ c = x.clientId ∧ s = x.side) ↔
      x.ReduceOnly ∧ x.clientId = c ∧ x.side = s := by
  constructor
  · rintro ⟨hr, -, rfl, rfl⟩
    exact ⟨hr, rfl, rfl⟩
  · rintro ⟨hr, rfl, rfl⟩
    exact ⟨hr, hc, rfl, rfl⟩

/-- A resting order that leaves takes its reservation along. -/
lemma reserves_remove (hrun : View.Run b.view [.remove e] b'.view)
    (hpos : b'.positions = (b.releaseReserved e.order e.order.leaves).positions)
    (hne : e.order.ReduceOnly → e.order.clientId ≠ 0 →
      b.reserved e.order.clientId e.order.side ≠ 0) (hc : c ≠ 0) (s : Side) :
    b'.reserved c s - b'.roLeaves c s = b.reserved c s - b.roLeaves c s := by
  rw [reserved_congr hpos, reserved_releaseReserved _ _ _ _ hne, roLeaves_remove hrun, roWeight]
  simp only [reserves_iff hc]
  exact sub_sub_sub_cancel_right _ _ _

/-- A fill releases what it takes of a resting order. -/
lemma reserves_fill {x : Order} {q : ℤ} {rank : ℕ}
    (hrun : View.Run b.view [.fill x e q rank] b'.view)
    (hpos : b'.positions = (((b.applyPosition x.clientId x.side q).applyPosition
      e.order.clientId e.order.side q).releaseReserved e.order q).positions)
    (hne : e.order.ReduceOnly → e.order.clientId ≠ 0 →
      b.reserved e.order.clientId e.order.side ≠ 0) (hc : c ≠ 0) (s : Side) :
    b'.reserved c s - b'.roLeaves c s = b.reserved c s - b.roLeaves c s := by
  rw [reserved_congr hpos, reserved_releaseReserved, reserved_applyPosition,
    reserved_applyPosition, roLeaves_fill hrun]
  · simp only [reserves_iff hc]
    exact sub_sub_sub_cancel_right _ _ _
  · rw [reserved_applyPosition, reserved_applyPosition]
    exact hne

/-- An order that comes to rest reserves what is left of it. -/
lemma reserves_rest {x : Order} (hrun : View.Run b.view [.rest ⟨x, sliceOf x⟩] b'.view)
    (hpos : b'.positions = (b.reserveResting x).positions) (hc : c ≠ 0) (s : Side) :
    b'.reserved c s - b'.roLeaves c s = b.reserved c s - b.roLeaves c s := by
  rw [reserved_congr hpos, reserved_reserveResting, roLeaves_rest hrun, roWeight]
  simp only [reserves_iff hc]
  exact add_sub_add_right_eq_sub _ _ _

end Book

open Book

/-- What is reserved is what the resting reduce-only orders have left. -/
def Book.Exact (b : Book) : Prop := ∀ c s, c ≠ 0 → b.reserved c s = b.roLeaves c s

namespace Book.Exact

variable {b b' : Book}

/-- Something is reserved for a resting reduce-only order. -/
lemma reserved_ne_zero (h : b.Exact) (hs : b.view.Sound) {id : OrderId} {e : Entry}
    (he : b.view.entry id = some e) (hr : e.order.ReduceOnly) (hc : e.order.clientId ≠ 0) :
    b.reserved e.order.clientId e.order.side ≠ 0 := by
  have hpos := (hs.entry_ok id e he).leaves_pos
  have hle := leaves_le_roLeaves hs he hr
  rw [h _ _ hc]
  omega

/-- Reservations and resting orders move together. -/
lemma of_sub (h : b.Exact) (hsub : ∀ c s, c ≠ 0 →
    b'.reserved c s - b'.roLeaves c s = b.reserved c s - b.roLeaves c s) : b'.Exact := by
  intro c s hc
  have := h c s hc
  have := hsub c s hc
  omega

lemma idle (h : b.Exact) (he : b'.view.entry = b.view.entry) (hp : b'.positions = b.positions) :
    b'.Exact := by
  refine h.of_sub fun c s _ => ?_
  rw [reserved_congr hp, roLeaves, Map.sumBy_congr _ fun i => congrFun he i]
  rfl

lemma remove (h : b.Exact) (hs : b.view.Sound) {e : Entry}
    (hrun : View.Run b.view [.remove e] b'.view)
    (hpos : b'.positions = (b.releaseReserved e.order e.order.leaves).positions) : b'.Exact :=
  h.of_sub fun _ s hc =>
    reserves_remove hrun hpos (fun hr hc => h.reserved_ne_zero hs hrun.of_single.1 hr hc) hc s

lemma seedPosition (h : b.Exact) (c : ClientId) (net : ℤ) : (b.seedPosition c net).Exact := by
  intro c' s hc
  rw [roLeaves_congr (b.seedPosition_keeps c net).1, reserved_seedPosition]
  exact h c' s hc

end Book.Exact

/-- Every beat in an unbounded book keeps the reservations exact. -/
lemma Beat.exact {m m' : Moment} {ms : List Mut} (h : Beat m ms m') (hs : m.book.view.Sound)
    (hmem : m.book.memLevels = 0) (hb : m.book.Exact) : m'.book.Exact := by
  cases h with
  | wane hq _ _ => exact hb.idle (by rw [hq.view]) hq.positions
  | hold _ hx =>
    have hq := (holdChild_spec hx).2.1
    exact hb.idle (by rw [hq.view]; rfl) hq.positions
  | fill rest hr hl he hside hacc hst haon hev hf =>
    exact hb.of_sub fun c s hc => reserves_fill hev.run (positions_fillMaker _ _ _ _ _ _)
      (fun hr hc => hb.reserved_ne_zero hs he hr hc) hc s
  | prevent he hst hr hev hf => exact hb.remove hs hev.run (positions_stpRemove _ _ _ _)
  | @rest b hand x r tail ev hl hd hn hnew htail hev hf =>
    have hrun := hev.run
    rw [htail.eq_rest hmem hev] at hrun
    exact hb.of_sub fun c s hc => reserves_rest hrun (positions_rest hmem x ev) hc s
  | fire hx hn hev =>
    have hv := (View.Run.of_single hev.run).2
    exact hb.idle (by rw [hv]; rfl) (by simp [emitEvent])
  | @cross b hand queue bi si p q d hbi hsi hbs hss hq hqx hqy hev hf =>
    have hp : ∀ t d, (b.emitTrade t d).positions = b.positions := by simp [emitTrade]
    have hv := (View.Run.of_single hev.run).2
    refine hb.of_sub fun c s _ => ?_
    rw [roLeaves_congr hv, reserved_applyPosition, reserved_applyPosition,
      reserved_congr (hp _ d)]
  | move hid he hp hne hev hf =>
    refine hb.of_sub fun c s _ => ?_
    rw [roLeaves_move hev.run, reserved_congr (positions_movePegged _ _ _)]
  | remove he hev hf => exact hb.remove hs hev.run (positions_removeResting _ _)
  | _ => exact hb

/-! ### Histories -/

namespace History

variable {C : Record → Instruction → Prop} {stp : StpPolicy} {symbol : Symbol} {eventSink : Bool}
  {r : Record}

lemma exact (h : History C (Book.empty 0 stp symbol eventSink) r) : r.book.Exact := by
  let I : Moment → Prop := fun m => m.book.memLevels = 0 ∧ m.book.Exact
  refine (h.keeps_of_beats (I := I) ⟨rfl, fun c s _ => ?_⟩ (fun r c net _ hI => ⟨?_, ?_⟩)
    (fun r q _ hI => hI) fun m ms m' hb hs hI => ⟨?_, hb.exact hs hI.1 hI.2⟩).2
  · cases s <;> rfl
  · exact (congrArg (fun f => f.settings.memLevels)
      (r.book.seedPosition_keeps c net).2.1).trans hI.1
  · exact hI.2.seedPosition c net
  · exact (congrArg Settings.memLevels hb.evolves.settings).trans hI.1

/-- After every instruction of a history of an unbounded book, which returns, an account has
reserved on each side what its resting reduce-only orders have left there. -/
theorem reserved_of_history (h : History C (Book.empty 0 stp symbol eventSink) r)
    {q : Instruction} (hC : C r q) (hq : q.Allowed r) :
    (q.run r.book).Ensures fun x => ∀ c s, c ≠ 0 →
      x.1.reserved c s = x.1.roLeaves c s ∧ 0 ≤ x.1.reserved c s := by
  obtain ⟨b', ts, hret⟩ := h.sane.returns hq
  have h' := History.step h hC hq hret
  refine ⟨(b', ts), hret, fun c s hc => ?_⟩
  have hex : b'.reserved c s = b'.roLeaves c s := h'.exact c s hc
  exact ⟨hex, hex ▸ roLeaves_nonneg h'.sane.wf.sound c s⟩

/-- A history: two reduce-only sells of an account rest, and a buy takes one and part of the
other. -/
theorem reserved_of_history_partial : ∃ (r : Record) (q : Instruction),
    History (fun _ _ => True) (Book.empty 0 .none "ABC" true) r ∧ q.Allowed r ∧
      (r.book.reserved 7 .sell = 9 ∧
        ((q.run r.book).run 8).map (fun x => x.1.reserved 7 .sell) = some 3) ∧
      (q.run r.book).Ensures fun x => ∀ c s, c ≠ 0 →
        x.1.reserved c s = x.1.roLeaves c s ∧ 0 ≤ x.1.reserved c s := by
  let qs : List Instruction := [
    .seedPosition 7 10,
    .submit { id := 1, clientId := 7, side := .sell, qty := 4, price := 110,
              flags.reduceOnly := true },
    .submit { id := 2, clientId := 7, side := .sell, qty := 5, price := 111,
              flags.reduceOnly := true }]
  let q : Instruction := .submit { id := 3, qty := 6, price := 112 }
  obtain ⟨r, hist, hq, hres⟩ : ∃ r, History (fun _ _ => True) (Book.empty 0 .none "ABC" true) r ∧
      q.Allowed r ∧ r.book.reserved 7 .sell = 9 ∧
        ((q.run r.book).run 8).map (fun x => x.1.reserved 7 .sell) = some 3 :=
    exists_of_replay 8 qs (by decide +kernel)
  exact ⟨r, q, hist, hq, hres, reserved_of_history hist trivial hq⟩

end History

end Codicis
