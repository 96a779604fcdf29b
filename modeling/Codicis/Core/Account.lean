/-
What a run of mutations leaves of one order.

The mutations of an operation say where a resting order comes from and what it has
lost: its quantity is what it had, or came to rest with, less its fills
(`Run.leaves_eq`); its price is that of its entry before the run, or the one it came to
rest at, or the one it was re-queued with (`Run.source`).

An order that is re-queued is recorded as it is then.  The records of an operation are
current (`Book.Current`) if the last one of each order is how it rests in the end.
-/
import Codicis.Core.Operations

namespace Codicis

namespace Mut

/-- The resting order that a mutation concerns. -/
def target? : Mut → Option OrderId
  | rest e => some e.order.id
  | fill _ me _ _ => some me.order.id
  | remove e => some e.order.id
  | move e _ _ => some e.order.id
  | _ => none

/-- What comes to rest of an order. -/
def rested (id : OrderId) : Mut → ℤ
  | rest e => if e.order.id = id then e.order.leaves else 0
  | _ => 0

/-- What is filled of a resting order. -/
def filled (id : OrderId) : Mut → ℤ
  | fill _ me q _ => if me.order.id = id then q else 0
  | _ => 0

variable {v : View} {m : Mut} {id : OrderId}

/-- The entries of other orders stay. -/
lemma entry_apply_of_ne (hm : ∀ s p, m ≠ .evict s p) (ht : m.target? ≠ some id) :
    (m.apply v).entry id = v.entry id := by
  cases m with
  | rest e =>
    have hne : id ≠ e.order.id := fun h => ht (by rw [target?, h])
    simp [apply, View.link, hne]
  | fill o me q rank =>
    have hne : id ≠ me.order.id := fun h => ht (by rw [target?, h])
    simp only [apply]
    split_ifs
    · simp [View.unpeg, View.unlink, hne]
    · simp [View.reveal, View.unlink, View.link, Entry.replenished, Entry.fill, hne]
    · simp [View.reduce, hne]
  | remove e =>
    have hne : id ≠ e.order.id := fun h => ht (by rw [target?, h])
    simp [apply, View.unpeg, View.unlink, hne]
  | move e p rank =>
    have hne : id ≠ e.order.id := fun h => ht (by rw [target?, h])
    simp [apply, View.unlink, View.link, Entry.moved, hne]
  | evict s p => exact absurd rfl (hm s p)
  | restDeep o => rfl
  | peg i => rfl
  | cross t d => rfl
  | trigger o => rfl

/-- A mutation moves an order only by putting it to rest or by re-queueing it. -/
lemma source (hm : m.Ok v) {e' : Entry} (he' : (m.apply v).entry id = some e') :
    (∃ e, v.entry id = some e ∧ e.order.side = e'.order.side ∧ e.order.price = e'.order.price) ∨
    (∃ e, m = .rest e ∧ e.order.id = id ∧ e.order.side = e'.order.side ∧
      e.order.price = e'.order.price) ∨
    ∃ o ∈ m.requeued, o.id = id ∧ o.side = e'.order.side ∧ o.price = e'.order.price := by
  rcases entry_cases hm he' with h | ⟨rfl, hid⟩ | ⟨o, me, q, rank, rfl, hid, h, rfl | ⟨-, rfl⟩⟩ |
    ⟨e, p, rank, rfl, hid, h, rfl⟩
  · exact .inl ⟨e', h, rfl, rfl⟩
  · exact .inr (.inl ⟨e', rfl, hid, rfl, rfl⟩)
  · exact .inl ⟨me, h, rfl, rfl⟩
  · exact .inl ⟨me, h, rfl, rfl⟩
  · exact .inr (.inr ⟨(e.moved p rank).order, by simp [requeued], hid, rfl, rfl⟩)

lemma filled_nonneg (hm : m.Ok v) (id : OrderId) : 0 ≤ m.filled id := by
  cases m with
  | fill o me q rank =>
    have hq := hm.2.1
    simp only [filled]
    split_ifs <;> omega
  | _ => exact le_rfl

/-- A mutation that fills nothing of an order leaves it as it was, puts it to rest, or
re-queues it. -/
lemma source_of_unfilled (hm : m.Ok v) {e' : Entry} (he' : (m.apply v).entry id = some e')
    (hfill : m.filled id = 0) :
    (∃ e, v.entry id = some e ∧ e.order.key = e'.order.key) ∨
    (m = .rest e' ∧ e'.order.id = id) ∨ (e'.order ∈ m.requeued ∧ e'.order.id = id) := by
  rcases entry_cases hm he' with h | h | ⟨o, me, q, rank, rfl, hid, -⟩ |
    ⟨e, p, rank, rfl, hid, -, rfl⟩
  · exact .inl ⟨e', h, rfl⟩
  · exact .inr (.inl h)
  · rw [filled, if_pos hid] at hfill
    exact absurd hm.2.1 (by omega)
  · exact .inr (.inr ⟨by simp [requeued], hid⟩)

/-- The quantity of one order after a mutation that does not cancel it. -/
lemma leaves_apply (hv : v.Sound) (hm : m.Ok v) (hw : ¬ m.Windowed)
    (hrem : ∀ e, m = .remove e → e.order.id ≠ id) :
    (m.apply v).leaves id = v.leaves id + m.rested id - m.filled id := by
  by_cases ht : m.target? = some id
  · cases m with
    | rest e =>
      obtain rfl := Option.some.inj ht
      simp [rested, filled, apply, View.leaves, View.link, hm.1]
    | fill o me q rank =>
      obtain rfl := Option.some.inj ht
      have hle : q ≤ me.order.leaves := hm.2.2.1.trans (hv.entry_ok _ _ hm.1).exposed_le
      have heff := (fill_effect hv hm).2 me.order.id
      rw [if_pos rfl] at heff
      rw [View.leaves_of_entry hm.1]
      simp only [rested, filled, if_true]
      unfold View.leaves
      cases he : ((fill o me q rank).apply v).entry me.order.id with
      | none =>
        rw [he] at heff
        split_ifs at heff
        · dsimp only
          omega
        · simp at heff
      | some e =>
        rw [he] at heff
        split_ifs at heff
        · simp at heff
        · simp only [Option.map_some, Option.some.injEq, Order.key, Prod.mk.injEq] at heff
          dsimp only
          omega
    | remove e =>
      obtain rfl := Option.some.inj ht
      exact absurd rfl (hrem e rfl)
    | move e p rank =>
      obtain rfl := Option.some.inj ht
      rw [View.leaves_of_entry hm]
      simp [rested, filled, apply, View.leaves, View.link, Entry.moved]
    | _ => simp [target?] at ht
  · have hev : ∀ s p, m ≠ .evict s p := by
      rintro s p rfl
      exact hw trivial
    have hent := entry_apply_of_ne (v := v) hev ht
    have h0 : m.rested id = 0 ∧ m.filled id = 0 := by
      cases m <;> simp_all [rested, filled, target?]
    simp only [View.leaves, hent, h0.1, h0.2]
    omega

end Mut

/-! ### Runs -/

namespace View

variable {v v' : View} {ms : List Mut} {id : OrderId}

/-- What a run leaves of an order that it does not cancel. -/
lemma Run.leaves_eq (h : Run v ms v') (hv : v.Sound) (hw : ∀ m ∈ ms, ¬ m.Windowed)
    (hrem : ∀ e, Mut.remove e ∈ ms → e.order.id ≠ id) :
    v'.leaves id = v.leaves id + (ms.map (Mut.rested id)).sum - (ms.map (Mut.filled id)).sum := by
  induction h with
  | nil v => simp
  | @cons v v' m ms hm _ ih =>
    have hstep := @Mut.leaves_apply _ _ id hv hm (hw m (by simp))
      fun e he => hrem e (by simp [he])
    have hrest := ih (Mut.sound_apply hv hm) (fun x hx => hw x (by simp [hx]))
      fun e he => hrem e (by simp [he])
    simp only [List.map_cons, List.sum_cons]
    omega

/-- A resting order was at its price before, or came to rest there, or was re-queued
there. -/
lemma Run.source (h : Run v ms v') {e' : Entry} (he' : v'.entry id = some e') :
    (∃ e, v.entry id = some e ∧ e.order.side = e'.order.side ∧ e.order.price = e'.order.price) ∨
    (∃ e, Mut.rest e ∈ ms ∧ e.order.id = id ∧ e.order.side = e'.order.side ∧
      e.order.price = e'.order.price) ∨
    ∃ o ∈ ms.flatMap Mut.requeued, o.id = id ∧ o.side = e'.order.side ∧
      o.price = e'.order.price := by
  induction h with
  | nil v => exact .inl ⟨e', he', rfl, rfl⟩
  | @cons v v' m ms hm _ ih =>
    rcases ih he' with ⟨e, he, hs, hp⟩ | ⟨e, he, hrest⟩ | ⟨o, ho, hreq⟩
    · rcases Mut.source hm he with ⟨e₀, he₀, hs₀, hp₀⟩ | ⟨e₀, rfl, hid, hs₀, hp₀⟩ |
        ⟨o, ho, hid, hs₀, hp₀⟩
      · exact .inl ⟨e₀, he₀, hs₀.trans hs, hp₀.trans hp⟩
      · exact .inr (.inl ⟨e₀, by simp, hid, hs₀.trans hs, hp₀.trans hp⟩)
      · exact .inr (.inr ⟨o, by simp [ho], hid, hs₀.trans hs, hp₀.trans hp⟩)
    · exact .inr (.inl ⟨e, by simp [he], hrest⟩)
    · exact .inr (.inr ⟨o, by rw [List.flatMap_cons]; exact List.mem_append_right _ ho, hreq⟩)

lemma Run.filled_nonneg (h : Run v ms v') (id : OrderId) :
    0 ≤ (ms.map (Mut.filled id)).sum := by
  induction h with
  | nil v => exact le_rfl
  | cons hm _ ih =>
    have hone := Mut.filled_nonneg hm id
    rw [List.map_cons, List.sum_cons]
    omega

/-- A resting order that nothing is filled of is as it rested before, as it came to rest, or as
it was re-queued. -/
lemma Run.source_of_unfilled (h : Run v ms v') {e' : Entry} (he' : v'.entry id = some e')
    (hfill : (ms.map (Mut.filled id)).sum = 0) :
    (∃ e, v.entry id = some e ∧ e.order.key = e'.order.key) ∨
    (∃ e, Mut.rest e ∈ ms ∧ e.order.id = id ∧ e.order.key = e'.order.key) ∨
    ∃ o ∈ ms.flatMap Mut.requeued, o.id = id ∧ o.key = e'.order.key := by
  induction h with
  | nil v => exact .inl ⟨e', he', rfl⟩
  | @cons v v' m ms hm hrun ih =>
    have hpos := hrun.filled_nonneg id
    have hone := Mut.filled_nonneg hm id
    rw [List.map_cons, List.sum_cons] at hfill
    rcases ih he' (by omega) with ⟨e, he, hk⟩ | ⟨e, he, hrest⟩ | ⟨o, ho, hreq⟩
    · rcases Mut.source_of_unfilled hm he (by omega) with ⟨e₀, he₀, hk₀⟩ | ⟨rfl, hid⟩ |
        ⟨ho, hid⟩
      · exact .inl ⟨e₀, he₀, hk₀.trans hk⟩
      · exact .inr (.inl ⟨e, by simp, hid, hk⟩)
      · exact .inr (.inr ⟨e.order, by simp [ho], hid, hk⟩)
    · exact .inr (.inl ⟨e, by simp [he], hrest⟩)
    · exact .inr (.inr ⟨o, by rw [List.flatMap_cons]; exact List.mem_append_right _ ho, hreq⟩)

end View

/-! ### Executions of one order -/

/-- The quantity of the executions in which an order is the maker. -/
def makerQty (id : OrderId) (ts : List Trade) : ℤ :=
  ((ts.filter (·.makerId = id)).map (·.qty)).sum

@[simp] lemma makerQty_nil (id : OrderId) : makerQty id [] = 0 := rfl

@[simp] lemma makerQty_append (id : OrderId) (ts ts' : List Trade) :
    makerQty id (ts ++ ts') = makerQty id ts + makerQty id ts' := by
  simp [makerQty]

lemma makerQty_cons (id : OrderId) (t : Trade) (ts : List Trade) :
    makerQty id (t :: ts) = (if t.makerId = id then t.qty else 0) + makerQty id ts := by
  unfold makerQty
  by_cases h : t.makerId = id <;> simp [h]

/-- What the executions name an order for, on either side. -/
def tradedQty (ts : List Trade) (id : OrderId) : ℤ := takerQty id ts + makerQty id ts

lemma tradedQty_nil : tradedQty [] = 0 := by
  funext id
  simp [tradedQty, takerQty]

lemma tradedQty_append (ts ts' : List Trade) :
    tradedQty (ts ++ ts') = tradedQty ts + tradedQty ts' := by
  funext id
  simp only [tradedQty, takerQty_append, makerQty_append, Pi.add_apply]
  omega

lemma tradedQty_singleton (t : Trade) :
    tradedQty [t] = Pi.single t.takerId t.qty + Pi.single t.makerId t.qty := by
  funext id
  simp only [tradedQty, takerQty, makerQty, volume, List.filter_singleton, Pi.add_apply,
    Pi.single_apply, eq_comm (a := id)]
  split_ifs <;> simp_all

lemma Mut.trades_cons (m : Mut) (ms : List Mut) :
    Mut.trades (m :: ms) = m.trade?.toList ++ Mut.trades ms := by
  cases h : m.trade? <;> simp [Mut.trades, h]

/-- What two orders of an auction trade, with this order as the maker. -/
def Mut.crossed (id : OrderId) : Mut → ℤ
  | cross t _ => if t.makerId = id then t.qty else 0
  | _ => 0

/-- The executions with an order as the maker are its fills and its crosses. -/
lemma makerQty_trades (id : OrderId) (ms : List Mut) : makerQty id (Mut.trades ms)
    = (ms.map (Mut.filled id)).sum + (ms.map (Mut.crossed id)).sum := by
  induction ms with
  | nil => rfl
  | cons m ms ih =>
    have hone : makerQty id m.trade?.toList = m.filled id + m.crossed id := by
      cases m <;> simp [Mut.trade?, Mut.filled, Mut.crossed, makerQty_cons]
    have hsplit : makerQty id (Mut.trades (m :: ms))
        = makerQty id m.trade?.toList + makerQty id (Mut.trades ms) := by
      rw [Mut.trades_cons]
      simp [makerQty]
    rw [hsplit, hone, ih]
    simp only [List.map_cons, List.sum_cons]
    omega

/-- What a run fills of a resting order is part of the executions with it as the maker; the
others are crosses of an auction. -/
lemma View.Run.filled_le {v v' : View} {ms : List Mut} (h : Run v ms v') (id : OrderId) :
    0 ≤ (ms.map (Mut.filled id)).sum ∧
      (ms.map (Mut.filled id)).sum ≤ makerQty id (Mut.trades ms) := by
  have hfilled := h.filled_nonneg id
  suffices hcrossed : 0 ≤ (ms.map (Mut.crossed id)).sum by
    rw [makerQty_trades]
    omega
  clear hfilled
  induction h with
  | nil v => exact le_rfl
  | @cons v v' m ms hm _ ih =>
    have hone : 0 ≤ m.crossed id := by
      cases m with
      | cross t d =>
        have hq := hm.2
        simp only [Mut.crossed]
        split_ifs <;> omega
      | _ => exact le_rfl
    rw [List.map_cons, List.sum_cons]
    omega

/-- Nothing is filled of an order that neither rests nor comes to rest. -/
lemma View.Run.filled_eq_zero {v v' : View} {ms : List Mut} (h : Run v ms v') {id : OrderId}
    (hid : v.entry id = none) (hrest : ∀ e, Mut.rest e ∈ ms → e.order.id ≠ id) :
    (ms.map (Mut.filled id)).sum = 0 := by
  induction h with
  | nil v => rfl
  | @cons v v' m ms hm _ ih =>
    have hone : m.filled id = 0 := by
      cases m with
      | fill o me q rank =>
        refine if_neg fun heq => ?_
        have hme := hm.1
        rw [heq, hid] at hme
        exact absurd hme (by simp)
      | _ => rfl
    have hnone : (m.apply v).entry id = none := by
      have hrun : Run v [m] (m.apply v) := .cons hm (.nil _)
      exact hrun.entry_eq_none hid fun e he => hrest e (by simp_all)
    rw [List.map_cons, List.sum_cons, hone, ih hnone fun e he => hrest e (by simp [he])]
    rfl

/-- No execution has a negative quantity. -/
lemma View.Run.trade_nonneg {v v' : View} {ms : List Mut} (h : Run v ms v') {t : Trade}
    (ht : t ∈ Mut.trades ms) : 0 ≤ t.qty := by
  induction h with
  | nil v => exact absurd ht List.not_mem_nil
  | @cons v v' m ms hm _ ih =>
    rw [Mut.trades_cons, List.mem_append] at ht
    rcases ht with ht | ht
    · cases m with
      | fill o me q rank =>
        obtain rfl : t = _ := by simpa [Mut.trade?] using ht
        exact hm.2.1.le
      | cross t' d =>
        obtain rfl : t = t' := by simpa [Mut.trade?] using ht
        exact hm.2
      | _ => simp [Mut.trade?] at ht
    · exact ih ht

/-- What comes to rest has quantity. -/
lemma View.Run.rested_pos {v v' : View} {ms : List Mut} (h : Run v ms v') (id : OrderId) :
    0 ≤ (ms.map (Mut.rested id)).sum ∧ ∀ e, Mut.rest e ∈ ms → e.order.id = id →
      0 < e.order.leaves ∧ e.order.leaves ≤ (ms.map (Mut.rested id)).sum := by
  induction h with
  | nil v => exact ⟨le_rfl, by simp⟩
  | @cons v v' m ms hm _ ih =>
    have hone : 0 ≤ m.rested id := by
      cases m with
      | rest e =>
        have := hm.2.leaves_pos
        simp only [Mut.rested]
        split_ifs <;> omega
      | _ => exact le_rfl
    simp only [List.map_cons, List.sum_cons]
    refine ⟨by omega, fun e he hid => ?_⟩
    rcases List.mem_cons.1 he with rfl | he
    · have hpos := hm.2.leaves_pos
      simp only [Mut.rested, if_pos hid]
      omega
    · have := ih.2 e he hid
      omega

/-! ### Records of re-queued orders -/

/-- The last record of an order. -/
def lastRecord (l : List Order) (id : OrderId) : Option Order := (l.filter (·.id = id)).getLast?

@[simp] lemma lastRecord_nil (id : OrderId) : lastRecord [] id = none := rfl

lemma lastRecord_append_singleton (l : List Order) (o : Order) (id : OrderId) :
    lastRecord (l ++ [o]) id = if o.id = id then some o else lastRecord l id := by
  unfold lastRecord
  by_cases h : o.id = id <;> simp [List.filter_append, h]

lemma ne_of_lastRecord_none {l : List Order} {id : OrderId} (h : lastRecord l id = none) {o : Order}
    (ho : o ∈ l) : o.id ≠ id := by
  rw [lastRecord, List.getLast?_eq_none_iff, List.filter_eq_nil_iff] at h
  simpa using h o ho

lemma lastRecord_mem {l : List Order} {id : OrderId} {o : Order} (h : lastRecord l id = some o) :
    o ∈ l ∧ o.id = id := by
  have hmem := List.mem_of_getLast? h
  simpa using hmem

namespace Book

/-- The last record of every re-queued order is how the order rests. -/
def Current (b : Book) : Prop := ∀ o ∈ b.requeued, lastRecord b.requeued o.id = b.find o.id

instance (b : Book) : Decidable b.Current := inferInstanceAs (Decidable (∀ o ∈ b.requeued, _))

lemma Current.find_eq {b : Book} (h : b.Current) {id : OrderId} {o : Order}
    (ho : lastRecord b.requeued id = some o) : b.find id = some o := by
  obtain ⟨hmem, rfl⟩ := lastRecord_mem ho
  rw [← h o hmem, ho]

end Book

/-- Orders that only move are as they were last recorded. -/
lemma View.Run.lastRecord_of_moves {v v' : View} {ms : List Mut} (h : Run v ms v') (hv : v.Sound)
    (hm : Book.Moves ms) {id : OrderId} {o : Order}
    (ho : lastRecord (ms.flatMap Mut.requeued) id = some o) :
    (v'.entry id).map (·.order) = some o := by
  suffices hs : Book.Moves ms → ∀ id o, lastRecord (ms.flatMap Mut.requeued) id = some o →
      (v'.entry id).map (·.order) = some o from hs hm id o ho
  clear hm ho
  refine h.induction (P := fun done w => Book.Moves done → ∀ id o,
    lastRecord (done.flatMap Mut.requeued) id = some o → (w.entry id).map (·.order) = some o)
    hv ?_ ?_
  · intro _ id o ho
    simp at ho
  · intro done m w _ hok ih hm id o ho
    obtain ⟨e, p, rank, rfl⟩ := hm m (by simp)
    simp only [List.flatMap_append, List.flatMap_singleton, Mut.requeued,
      lastRecord_append_singleton] at ho
    split_ifs at ho with hid
    · obtain rfl := Option.some.inj ho
      subst hid
      simp [Mut.apply, View.link]
    · rw [Mut.entry_apply_of_ne (by simp) (by simpa [Mut.target?, Entry.moved] using hid)]
      exact ih (fun x hx => hm x (by simp [hx])) id o ho

/-! ### Orders that stay -/

namespace Book

variable {b b' : Book} {new : List Active} {ms : List Mut} {id : OrderId}

/-- The events between two books tell of no cancelled order. -/
def NoCancels (b b' : Book) : Prop := ∀ ev ∈ b'.events.drop b.events.length, ev.type ≠ .cancel

instance (b b' : Book) : Decidable (NoCancels b b') :=
  inferInstanceAs (Decidable (∀ ev ∈ b'.events.drop b.events.length, ev.type ≠ .cancel))

/-- Without a cancel event no resting order is removed. -/
lemma NoCancels.remove_notMem (h : NoCancels b b') (hst : Step b new ms b')
    (hsink : b.eventSink = true) (e : Entry) : Mut.remove e ∉ ms := by
  intro he
  have hev := hst.evolves.events
  rw [if_pos hsink] at hev
  refine h (e.order.event b.symbol .cancel e.order.leaves e.displayed) ?_ rfl
  rw [hev, List.drop_left]
  exact List.mem_flatMap.2 ⟨_, he, by simp [Mut.events]⟩

lemma find_ne_none : b.find id ≠ none ↔ b.view.entry id ≠ none := by
  unfold find
  show Option.map _ (b.orders.lookup id) ≠ none ↔ b.orders.lookup id ≠ none
  simp

/-- An order that rests, or comes to rest, stays, unless it is removed or trades as the
maker. -/
lemma Step.find_ne_none (hst : Step b new ms b') (hb : WF b) (hwin : b.memLevels = 0)
    (hrem : ∀ e, Mut.remove e ∈ ms → e.order.id ≠ id)
    (hmk : ∀ t ∈ Mut.trades ms, t.makerId ≠ id)
    (h : b.find id ≠ none ∨ ∃ e, Mut.rest e ∈ ms ∧ e.order.id = id) : b'.find id ≠ none := by
  have hacc := hst.evolves.run.leaves_eq hb.sound (hst.evolves.windowed hwin) hrem
  have hfill := hst.evolves.run.filled_le id
  have hzero : makerQty id (Mut.trades ms) = 0 := by
    rw [makerQty, List.filter_eq_nil_iff.2 fun t ht => by simpa using hmk t ht]
    rfl
  have hrested := hst.evolves.run.rested_pos id
  have hnonneg := hb.sound.leaves_nonneg id
  have hpos : 0 < b'.view.leaves id := by
    rcases h with h | ⟨e, he, hid⟩
    · obtain ⟨e, he⟩ := Option.ne_none_iff_exists'.1 (Book.find_ne_none.1 h)
      have := (hb.sound.entry_ok id e he).leaves_pos
      rw [View.leaves_of_entry he] at hacc
      omega
    · have := hrested.2 e he hid
      omega
  rw [Book.find_ne_none]
  intro hnone
  rw [View.leaves, hnone] at hpos
  exact absurd hpos (by simp)

end Book

/-! ### Makers -/

namespace Book.Step

variable {b b' : Book} {new : List Active} {ms : List Mut} {id : OrderId}

lemma crossed_eq_zero (h : Step b new ms b') (hw : ¬ Waiting b id) (hn : id ∉ idsOf new) :
    (ms.map (Mut.crossed id)).sum = 0 := by
  refine List.sum_eq_zero fun n hn' => ?_
  obtain ⟨m, hm, rfl⟩ := List.mem_map.1 hn'
  cases m with
  | cross t d =>
    refine if_neg fun heq => ?_
    rcases (h.handled _ hm).2 with hc | hc
    · exact hw (heq ▸ hc)
    · exact hn (heq ▸ hc)
  | _ => rfl

lemma rested_eq_zero (h : Step b new ms b') (hw : ¬ Waiting b id) (hn : id ∉ idsOf new) :
    (ms.map (Mut.rested id)).sum = 0 := by
  refine List.sum_eq_zero fun n hn' => ?_
  obtain ⟨m, hm, rfl⟩ := List.mem_map.1 hn'
  cases m with
  | rest e =>
    refine if_neg fun heq => ?_
    rcases h.rests e hm with hc | hc
    · exact hw (heq ▸ hc)
    · exact hn (heq ▸ hc)
  | _ => rfl

/-- The executions with a resting order as the maker are what it loses. -/
lemma leaves_of_resting (h : Step b new ms b') (hb : WF b) (hwin : b.memLevels = 0)
    (hno : ∀ e, Mut.remove e ∈ ms → e.order.id ≠ id) (hid : b.view.entry id ≠ none)
    (hn : id ∉ idsOf new) :
    b'.view.leaves id = b.view.leaves id - makerQty id (Mut.trades ms) := by
  have hw : ¬ Waiting b id := by
    rintro ⟨o, ho, rfl⟩
    exact hid (hb.waits.away o ho)
  rw [h.evolves.run.leaves_eq hb.sound (h.evolves.windowed hwin) hno, makerQty_trades,
    h.crossed_eq_zero hw hn, h.rested_eq_zero hw hn]
  omega

/-- An order that the book does not hold is the maker of no execution. -/
lemma makerQty_of_not_live (h : Step b new ms b') (hl : ¬ Live b id) (hn : id ∉ idsOf new) :
    makerQty id (Mut.trades ms) = 0 := by
  have hw : ¬ Waiting b id := fun hw => hl (.inr hw)
  have hent : b.view.entry id = none := by
    by_contra hne
    exact hl (.inl hne)
  rw [makerQty_trades, h.crossed_eq_zero hw hn, h.evolves.run.filled_eq_zero hent]
  · rfl
  · intro e he heq
    rcases h.rests e he with hc | hc
    · exact hw (heq ▸ hc)
    · exact hn (heq ▸ hc)

end Book.Step

/-! ### Cancellations -/

namespace Book.Cancels

variable {ms : List Mut} {id i : OrderId}

lemma ne_of_remove (h : Cancels i ms) {e : Entry} (he : Mut.remove e ∈ ms) (hi : i ≠ id) :
    e.order.id ≠ id := by
  rcases h with rfl | ⟨e₀, moves, rfl, rfl, hm⟩
  · exact absurd he List.not_mem_nil
  · rcases List.mem_cons.1 he with he | he
    · rw [Mut.remove.inj he]
      exact hi
    · obtain ⟨e', p, r, h'⟩ := hm _ he
      exact Mut.noConfusion h'

lemma filled_eq_zero (h : Cancels i ms) : (ms.map (Mut.filled id)).sum = 0 := by
  have hmoves : ∀ moves, Moves moves → (moves.map (Mut.filled id)).sum = 0 := by
    intro moves hm
    refine List.sum_eq_zero fun n hn => ?_
    obtain ⟨m, hmem, rfl⟩ := List.mem_map.1 hn
    obtain ⟨e, p, r, rfl⟩ := hm m hmem
    rfl
  rcases h with rfl | ⟨e₀, moves, rfl, rfl, hm⟩
  · rfl
  · simp [hmoves moves hm, Mut.filled]

/-- Orders that a cancellation re-queues are as they were last recorded. -/
lemma find_eq_of_lastRecord (h : Cancels i ms) {b b' : Book} (hv : b.view.Sound)
    (hrun : View.Run b.view ms b'.view) {o : Order}
    (ho : lastRecord (ms.flatMap Mut.requeued) id = some o) : b'.find id = some o := by
  rcases h with rfl | ⟨e₀, moves, rfl, rfl, hm⟩
  · simp at ho
  · cases hrun with
    | cons hok hrest =>
      exact hrest.lastRecord_of_moves (Mut.sound_apply hv hok) hm ho

end Book.Cancels

/-- A cancelled order does not rest. -/
lemma Book.entry_cancel_self {b : Book} (hb : WF b) (id : OrderId) :
    (b.cancel id).1.view.entry id = none := by
  have hwait : ∀ o ∈ b.frame.waiting, o.id = id → b.view.entry id = none := by
    rintro o ho rfl
    exact hb.waits.away o ho
  unfold cancel
  cases hs : b.stops.lookup id with
  | some o =>
    exact hwait o (Frame.mem_waiting.2 (.inl ⟨id, hs⟩)) (hb.stop_id id o hs)
  | none =>
    dsimp only
    split_ifs with hopen hclose
    · obtain ⟨o, ho, hid⟩ := List.any_eq_true.1 hopen
      exact hwait o (Frame.mem_waiting.2 (.inr (.inl ho))) (by simpa using hid)
    · obtain ⟨o, ho, hid⟩ := List.any_eq_true.1 hclose
      exact hwait o (Frame.mem_waiting.2 (.inr (.inr (.inl ho)))) (by simpa using hid)
    · cases he : b.orders.lookup id with
      | none => exact he
      | some e =>
        obtain ⟨moves, hst, hm⟩ := cancelResting_glides hb.sound he
        obtain rfl := hb.sound.id_eq id e he
        cases hst.evolves.run with
        | cons hok hrest =>
          refine hrest.entry_eq_none ?_ fun x hx => absurd hx (hm.rest_notMem x)
          simp [Mut.apply, View.unpeg, View.unlink]

end Codicis
