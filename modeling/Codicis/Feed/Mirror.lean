/-
The replica mirrors the matchable book.

`SymBook.Mirrors` says that the replica of an instrument has the orders of a resting
book, with their sides, prices and quantities, and its total at every side and price.
The events of a mutation take a replica that mirrors the book before it to one that
mirrors the book after it; a run of operations is a run of mutations, so the replica
of the whole event log mirrors the book after each operation.
-/
import Codicis.Feed.Replica

namespace Codicis

/-- The side, the price and the quantity left of an order. -/
def OrderView.key (o : OrderView) : Side × ℤ × ℤ := (o.side, o.price, o.qty)

lemma lookup_bump (m : Map ℤ ℤ) (p d q : ℤ) : (bump m p d).lookup q =
    if q = p then
      if 0 < (m.lookup p).getD 0 + d then some ((m.lookup p).getD 0 + d) else none
    else m.lookup q := by
  unfold bump
  cases hp : m.lookup p with
  | none =>
    by_cases hd : 0 < d
    · simp only [hd, if_true, Map.lookup_insert_eq, Option.getD_none, Int.zero_add]
    · simp only [hd, if_false, Option.getD_none, Int.zero_add]
      split_ifs with hq
      · rw [hq, hp]
      · rfl
  | some x =>
    by_cases hd : x + d ≤ 0
    · have hd' : ¬ 0 < x + d := by omega
      simp only [hd, hd', if_true, if_false, Map.lookup_erase_eq, Option.getD_some]
    · have hd' : 0 < x + d := by omega
      simp only [hd, hd', if_true, if_false, Map.lookup_insert_eq, Option.getD_some]

/-- The map holds the positive values of a function. -/
def Holds (m : Map ℤ ℤ) (f : ℤ → ℤ) : Prop :=
  ∀ p, m.lookup p = if 0 < f p then some (f p) else none

lemma Holds.getD {m : Map ℤ ℤ} {f : ℤ → ℤ} (h : Holds m f) {p : ℤ} (hp : 0 ≤ f p) :
    (m.lookup p).getD 0 = f p := by
  rw [h p]
  split_ifs with hpos
  · rfl
  · show (0 : ℤ) = f p
    omega

/-- Bumping a price moves one value. -/
lemma Holds.bump {m : Map ℤ ℤ} {f g : ℤ → ℤ} {p d : ℤ} (h : Holds m f)
    (hg : ∀ q, g q = if q = p then f q + d else f q) (hp : 0 ≤ f p) :
    Holds (bump m p d) g := by
  intro q
  rw [lookup_bump, h.getD hp, hg q]
  by_cases hq : q = p
  · rw [if_pos hq, if_pos hq, hq]
  · rw [if_neg hq, if_neg hq, h q]

/-- Bumping a price of a side moves one value of that side. -/
lemma holds_bump_side {m m' : Side → Map ℤ ℤ} {f g : Side → ℤ → ℤ} {s : Side} {p d : ℤ}
    (h : ∀ t, Holds (m t) (f t)) (hm : ∀ t, m' t = if t = s then bump (m t) p d else m t)
    (hg : ∀ t q, g t q = if t = s ∧ q = p then f t q + d else f t q) (hp : 0 ≤ f s p) (t : Side) :
    Holds (m' t) (g t) := by
  rw [hm]
  split_ifs with ht
  · subst ht
    exact (h t).bump (fun q => by simp [hg]) hp
  · have hgt : g t = f t := funext fun q => by simp [hg, ht]
    exact hgt ▸ h t

namespace SymBook

section Setters

variable (b : SymBook) (s t : Side) (p d : ℤ) (id : OrderId) (o : OrderView)

@[simp] lemma orders_bumpSide : (b.bumpSide s p d).orders = b.orders := by cases s <;> rfl

@[simp] lemma orders_bumpDisp : (b.bumpDisp s p d).orders = b.orders := by cases s <;> rfl

@[simp] lemma sideMap_bumpDisp : (b.bumpDisp s p d).sideMap t = b.sideMap t := by
  cases s <;> cases t <;> rfl

lemma sideMap_bumpSide : (b.bumpSide s p d).sideMap t
    = if t = s then bump (b.sideMap t) p d else b.sideMap t := by
  cases s <;> cases t <;> rfl

@[simp] lemma sideMap_setOrder : (b.setOrder id o).sideMap t = b.sideMap t := by cases t <;> rfl

@[simp] lemma sideMap_eraseOrder : (b.eraseOrder id).sideMap t = b.sideMap t := by cases t <;> rfl

@[simp] lemma lookup_setOrder (id' : OrderId) : (b.setOrder id o).orders.lookup id'
    = if id' = id then some o else b.orders.lookup id' := Map.lookup_insert_eq _ _ _ _

@[simp] lemma lookup_eraseOrder (id' : OrderId) : (b.eraseOrder id).orders.lookup id'
    = if id' = id then none else b.orders.lookup id' := Map.lookup_erase_eq _ _ _

end Setters

/-- The replica holds these totals. -/
def HoldsTotals (b : SymBook) (f : Side → ℤ → ℤ) : Prop := ∀ t, Holds (b.sideMap t) (f t)

lemma HoldsTotals.of_sideMap {b b' : SymBook} {f : Side → ℤ → ℤ} (h : HoldsTotals b f)
    (hs : ∀ t, b'.sideMap t = b.sideMap t) : HoldsTotals b' f := fun t => hs t ▸ h t

/-- Bumping a price moves one total. -/
lemma HoldsTotals.bumpSide {b : SymBook} {f g : Side → ℤ → ℤ} {s : Side} {p d : ℤ}
    (h : HoldsTotals b f) (hg : ∀ t q, g t q = if t = s ∧ q = p then f t q + d else f t q)
    (hp : 0 ≤ f s p) : HoldsTotals (b.bumpSide s p d) g :=
  holds_bump_side h (fun t => sideMap_bumpSide b s t p d) hg hp

/-- The replica of an instrument mirrors a resting book. -/
structure Mirrors (b : SymBook) (v : View) : Prop where
  orders : ∀ id, (b.orders.lookup id).map OrderView.key = (v.entry id).map fun e => e.order.key
  totals : HoldsTotals b v.total

section Step

variable {b : SymBook} {v : View} {sym : Symbol} {e : Entry}

/-- The replica knows the orders that rest. -/
lemma Mirrors.lookup (h : Mirrors b v) {id : OrderId} (he : v.entry id = some e) :
    ∃ o, b.orders.lookup id = some o ∧ o.side = e.order.side ∧ o.price = e.order.price ∧
      o.qty = e.order.leaves := by
  have := h.orders id
  rw [he] at this
  obtain ⟨o, ho, hk⟩ := Option.map_eq_some_iff.1 this
  simp only [OrderView.key, Order.key, Prod.mk.injEq] at hk
  exact ⟨o, ho, hk⟩

/-- The replica knows no others. -/
lemma Mirrors.lookup_eq_none (h : Mirrors b v) {id : OrderId} (he : v.entry id = none) :
    b.orders.lookup id = none := by
  have := h.orders id
  rw [he] at this
  exact Option.map_eq_none_iff.1 this

/-- An order comes to rest. -/
lemma Mirrors.add (h : Mirrors b v) (hv : v.Sound) (displayed : ℤ) :
    Mirrors (b.apply (e.order.event sym .add e.order.leaves displayed)) (v.link e) := by
  refine ⟨fun id => ?_, ?_⟩
  · simp only [apply, Order.event, orders_bumpDisp, orders_bumpSide, lookup_setOrder, View.link]
    split_ifs
    · rfl
    · exact h.orders id
  · refine .of_sideMap (HoldsTotals.bumpSide (.of_sideMap h.totals fun t => ?_) (fun t q => rfl)
      (hv.total_nonneg _ _)) fun t => sideMap_bumpDisp _ _ t _ _
    exact sideMap_setOrder _ t _ _

/-- The totals without an order. -/
lemma Mirrors.unlink_totals (h : Mirrors b v) (hv : v.Sound) (e : Entry) :
    HoldsTotals (b.bumpSide e.order.side e.order.price (-e.order.leaves)) (v.unlink e).total :=
  h.totals.bumpSide (fun t q => by simp only [View.unlink, Int.sub_eq_add_neg])
    (hv.total_nonneg _ _)

/-- A resting order leaves. -/
lemma Mirrors.cancel (h : Mirrors b v) (hv : v.Sound) (he : v.entry e.order.id = some e)
    (qty displayed : ℤ) :
    Mirrors (b.apply (e.order.event sym .cancel qty displayed))
      ((v.unlink e).unpeg e.order.id) := by
  obtain ⟨o, ho, hs, hp, hq⟩ := h.lookup he
  simp only [apply, Order.event, ho]
  refine ⟨fun id => ?_, ?_⟩
  · simp only [lookup_eraseOrder, orders_bumpDisp, orders_bumpSide, View.unpeg, View.unlink]
    split_ifs
    · rfl
    · exact h.orders id
  · rw [hs, hp, hq]
    refine .of_sideMap (h.unlink_totals hv e) fun t => ?_
    rw [sideMap_eraseOrder, sideMap_bumpDisp]

/-- A resting order shrinks, and leaves when nothing of it is left. -/
lemma Mirrors.trade (h : Mirrors b v) (hv : v.Sound) {t : Trade} (he : v.entry t.makerId = some e)
    {v' : View} (hent : ∀ id, (v'.entry id).map (fun e => e.order.key) =
      if id = t.makerId then
        if e.order.leaves - t.qty ≤ 0 then none
        else some (e.order.side, e.order.price, e.order.leaves - t.qty)
      else (v.entry id).map fun e => e.order.key)
    (htot : ∀ s p, v'.total s p = if s = e.order.side ∧ p = e.order.price
      then v.total s p - t.qty else v.total s p) (displayed : ℤ) :
    Mirrors (b.apply (t.event sym displayed)) v' := by
  obtain ⟨o, ho, hs, hp, hq⟩ := h.lookup he
  simp only [apply, Trade.event, ho, hs, hp, hq]
  refine ⟨fun id => ?_, ?_⟩
  · rw [hent]
    split_ifs <;> simp_all [h.orders id, OrderView.key]
  · have hbump : HoldsTotals (b.bumpSide e.order.side e.order.price (-t.qty)) v'.total :=
      h.totals.bumpSide (fun s q => by rw [htot, Int.sub_eq_add_neg]) (hv.total_nonneg _ _)
    refine .of_sideMap hbump fun s => ?_
    split_ifs
    · rw [sideMap_eraseOrder, sideMap_bumpDisp]
    · rw [sideMap_setOrder, sideMap_bumpDisp]

/-- A resting order moves. -/
lemma Mirrors.reprice (h : Mirrors b v) (hv : v.Sound) (he : v.entry e.order.id = some e)
    (p : ℤ) (rank : ℕ) (qty displayed prev : ℤ) :
    Mirrors (b.apply { (e.moved p rank).order.event sym .reprice qty displayed with
      prevPrice := prev }) ((v.unlink e).link (e.moved p rank)) := by
  obtain ⟨o, ho, hs, hp, hq⟩ := h.lookup he
  have ho' : b.orders.lookup (e.moved p rank).order.id = some o := ho
  simp only [apply, Order.event, ho', hs, hp, hq]
  refine ⟨fun id => ?_, ?_⟩
  · simp only [lookup_setOrder, orders_bumpDisp, orders_bumpSide, View.link, View.unlink]
    split_ifs with hid hid'
    · simp [OrderView.key, Order.key, Entry.moved]
    · exact absurd hid' hid
    · exact h.orders id
  · have hout : HoldsTotals ((b.bumpSide e.order.side e.order.price (-e.order.leaves)).bumpDisp
        e.order.side e.order.price (-o.displayed)) (v.unlink e).total :=
      .of_sideMap (h.unlink_totals hv e) fun t => sideMap_bumpDisp _ _ t _ _
    have hpos : 0 ≤ (v.unlink e).total e.order.side p := by
      have := hv.leaves_le_total he
      have := hv.total_nonneg e.order.side p
      simp only [View.unlink]
      split_ifs with hp'
      · rw [hp'.2]
        omega
      · omega
    refine .of_sideMap (hout.bumpSide (fun t q => rfl) hpos) fun t => ?_
    rw [sideMap_setOrder, sideMap_bumpDisp]
    rfl

/-- A new slice does not change what can match. -/
lemma Mirrors.replenish (h : Mirrors b v) (o : Order) (qty displayed : ℤ) :
    Mirrors (b.apply (o.event sym .replenish qty displayed)) v := by
  simp only [apply, Order.event]
  cases ho : b.orders.lookup o.id with
  | none => exact h
  | some x =>
    refine ⟨fun id => ?_, .of_sideMap h.totals fun t => ?_⟩
    · simp only [orders_bumpDisp, lookup_setOrder]
      split_ifs with hid
      · rw [hid, ← h.orders o.id, ho]
        rfl
      · exact h.orders id
    · rw [sideMap_bumpDisp, sideMap_setOrder]

/-- A trade of an order that does not rest changes nothing. -/
lemma Mirrors.cross (h : Mirrors b v) {t : Trade} (ht : v.entry t.makerId = none)
    (displayed : ℤ) : b.apply (t.event sym displayed) = b := by
  simp only [apply, Trade.event, h.lookup_eq_none ht]

/-- The events of one mutation of a book without a window. -/
lemma Mirrors.step (h : Mirrors b v) (hv : v.Sound) {m : Mut} (hm : m.Ok v)
    (hw : ¬ m.Windowed) : Mirrors ((m.events sym).foldl apply b) (m.apply v) := by
  cases m with
  | rest e => exact h.add hv e.displayed
  | restDeep o => exact absurd trivial hw
  | fill o me q rank =>
    obtain ⟨htot, hent⟩ := Mut.fill_effect hv hm
    let t : Trade := ⟨o.id, me.order.id, o.side, me.order.price, q⟩
    have ht : Mirrors (b.apply (t.event sym (if me.order.flags.hidden = true then 0 else q)))
        ((Mut.fill o me q rank).apply v) := h.trade hv hm.1 hent htot _
    simp only [Mut.events, List.foldl_cons]
    by_cases hrep : Mut.Replenishes me q
    · rw [if_pos hrep]
      exact ht.replenish _ _ _
    · rw [if_neg hrep]
      exact ht
  | remove e => exact h.cancel hv hm _ _
  | evict s p => exact absurd trivial hw
  | move e p rank => exact h.reprice hv hm p rank _ _ _
  | peg id => exact ⟨h.orders, h.totals⟩
  | cross t displayed =>
    simp only [Mut.events, List.foldl_cons, List.foldl_nil, h.cross hm.1]
    exact h
  | trigger o => exact h

/-- The events of a run of mutations of a book without a window. -/
lemma Mirrors.run {v' : View} {ms : List Mut} (h : Mirrors b v) (hv : v.Sound)
    (hr : View.Run v ms v') (hw : ∀ m ∈ ms, ¬ m.Windowed) :
    Mirrors ((ms.flatMap (Mut.events sym)).foldl apply b) v' := by
  induction hr generalizing b with
  | nil v => exact h
  | @cons v v' m ms hm _ ih =>
    rw [List.flatMap_cons, List.foldl_append]
    exact ih (h.step hv hm (hw m (by simp))) (Mut.sound_apply hv hm)
      fun m' hm' => hw m' (by simp [hm'])

end Step

end SymBook

namespace Book

variable {b : Book}

/-- The replica that has applied the events of a book. -/
def replica (b : Book) : Replica := ({} : Replica).applyAll b.events

lemma events_symbol (ms : List Mut) (sym : Symbol) :
    ∀ ev ∈ ms.flatMap (Mut.events sym), ev.symbol = sym := by
  intro ev hev
  obtain ⟨m, -, hm⟩ := List.mem_flatMap.1 hev
  cases m with
  | fill o me q rank =>
    simp only [Mut.events] at hm
    split_ifs at hm
    all_goals
      simp only [List.mem_cons, List.not_mem_nil, or_false] at hm
      rcases hm with rfl | rfl <;> rfl
  | evict s p => exact absurd hm List.not_mem_nil
  | peg id => exact absurd hm List.not_mem_nil
  | _ =>
    rw [List.mem_singleton.1 hm]
    rfl

/-- A book without a window whose events are published, and whose replica mirrors it. -/
structure Published (b : Book) : Prop where
  memLevels : b.memLevels = 0
  eventSink : b.eventSink = true
  mirrors : (b.replica.book b.symbol).Mirrors b.view

/-- The replica applies the events of an operation. -/
lemma Published.replica_step {b' : Book} {ms : List Mut} (h : Published b) (hev : Evolves b ms b') :
    b'.replica.book b.symbol
      = (ms.flatMap (Mut.events b.symbol)).foldl SymBook.apply (b.replica.book b.symbol) := by
  have hevents := hev.events
  rw [if_pos h.eventSink] at hevents
  have : b'.replica = b.replica.applyAll (ms.flatMap (Mut.events b.symbol)) := by
    rw [replica, hevents]
    exact List.foldl_append
  rw [this, Replica.book_applyAll (events_symbol ms b.symbol)]

/-- An operation keeps the replica in step. -/
lemma Published.step {b' : Book} {ms : List Mut} (h : Published b) (hb : WF b)
    (hev : Evolves b ms b') : Published b' := by
  refine ⟨hev.memLevels.trans h.memLevels, hev.eventSink.trans h.eventSink, ?_⟩
  rw [hev.symbol, h.replica_step hev]
  exact h.mirrors.run hb.sound hev.run (hev.windowed h.memLevels)

lemma Published.empty (stp : StpPolicy) (symbol : Symbol) :
    Published (Book.empty 0 stp symbol true) := by
  refine ⟨rfl, rfl, fun id => rfl, fun s p => ?_⟩
  cases s <;> rfl

/-- Along a run of a book without a window, its replica mirrors it. -/
lemma Published.of_reach {stp : StpPolicy} {symbol : Symbol} {used : List OrderId}
    (h : Reach Op.Native (Book.empty 0 stp symbol true) used b) : Published b := by
  induction h with
  | init => exact .empty stp symbol
  | step h hnat hop hret ih =>
    obtain ⟨hwf, hlive⟩ := h.wf
    obtain ⟨ms, hst⟩ := (exec_step hwf hnat hop hlive).of_returns hret
    exact ih.step hwf hst.evolves

/-- The replica has the orders of the book, with their sides, prices and quantities, and
its total at every side and price. -/
def Replicated (b : Book) : Prop :=
  (∀ id, ((b.replica.book b.symbol).orders.lookup id).map OrderView.key
    = (b.find id).map Order.key) ∧
  ∀ s p, b.replica.totalAt b.symbol s p = b.totalQtyAt s p

lemma Published.replicated (h : Published b) (hb : WF b) : Replicated b := by
  refine ⟨fun id => ?_, fun s p => (h.mirrors.totals s).getD (hb.sound.total_nonneg s p)⟩
  rw [h.mirrors.orders id, find, Option.map_map]
  rfl

/-- In every run of a book without a window, applying the events of the book in order to
an empty replica yields the book, and does so again after the next operation. -/
theorem replicated_of_reach {stp : StpPolicy} {symbol : Symbol} {used : List OrderId}
    (h : Reach Op.Native (Book.empty 0 stp symbol true) used b) :
    Replicated b ∧
      ∀ op : Op, op.Native → op.Allowed used b → (op.exec b).Ensures Replicated := by
  obtain ⟨hwf, hlive⟩ := h.wf
  have hpub := Published.of_reach h
  refine ⟨hpub.replicated hwf, fun op hnat hop => ?_⟩
  refine (exec_step hwf hnat hop hlive).imp fun b' hst => ?_
  obtain ⟨ms, hst⟩ := hst
  exact (hpub.step hwf hst.evolves).replicated hst.wf

/-- A run: an iceberg rests, and a buy order takes its first slice and part of the next. -/
theorem replicated_of_reach_iceberg : ∃ b,
    Reach Op.Native (Book.empty 0 .none "ABC" true) [2, 1] b ∧
      b.replica.totalAt "ABC" .sell 100 = 5 ∧ Replicated b := by
  let os : List Order := [
    { id := 1, side := .sell, qty := 10, price := 100, displayQty := 4, flags.iceberg := true },
    { id := 2, qty := 5, price := 100 }]
  obtain ⟨b, hr, ht⟩ : ∃ b, Reach Op.Native (Book.empty 0 .none "ABC" true) [2, 1] b ∧
      b.replica.totalAt "ABC" .sell 100 = 5 :=
    Reach.exists_of_submits 8 os (fun _ _ => trivial) (by decide) (by decide +kernel)
  exact ⟨b, hr, ht, (replicated_of_reach hr).1⟩

end Book

end Codicis
