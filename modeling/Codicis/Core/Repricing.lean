/-
One pass over the pegged orders, and what a cancellation leaves alone.

`repricePegs` moves pegged orders between levels and touches nothing else (`Book.Repriced`), so
later moves of a pass see the reference prices that earlier ones saw, and a second pass finds every
pegged order where it belongs.  A cancellation takes one order away and may be followed by such a
pass; `Book.CancelsOnly` separates the two.
-/
import Codicis.Core.Calls
import Codicis.Core.Pegs
import Codicis.Core.Positions

namespace Codicis

namespace Book

/-! ### Moves of pegged orders -/

/-- The books differ in the places of the orders that are pegged: they may have another price and
another rank. -/
structure Repriced (b b' : Book) : Prop where
  pegged : b'.pegged = b.pegged
  others : ∀ i ∉ b.pegged, b'.orders.lookup i = b.orders.lookup i
  moved : ∀ i e, b.orders.lookup i = some e → ∃ p r, b'.orders.lookup i = some (e.moved p r)
  queue : ∀ s p, (b'.level s p).fifo.filter (· ∉ b.pegged)
    = (b.level s p).fifo.filter (· ∉ b.pegged)
  references : SameReferences b b'
  frame : b'.frame = b.frame
  positions : b'.positions = b.positions
  last : b'.last = b.last

section Moves

variable {b b' b'' : Book} {id : OrderId}

lemma Repriced.refl (b : Book) : Repriced b b :=
  ⟨rfl, fun _ _ => rfl, fun _ e he => ⟨e.order.price, e.order.rank, he⟩, fun _ _ => rfl,
    fun _ => rfl, rfl, rfl, rfl⟩

lemma Repriced.trans (h : Repriced b b') (h' : Repriced b' b'') : Repriced b b'' where
  pegged := h'.pegged.trans h.pegged
  others i hi := (h'.others i (h.pegged ▸ hi)).trans (h.others i hi)
  moved i e he := by
    obtain ⟨p, r, he'⟩ := h.moved i e he
    obtain ⟨p', r', he''⟩ := h'.moved i _ he'
    exact ⟨p', r', he''⟩
  queue s p := by
    have hq := h'.queue s p
    rw [h.pegged] at hq
    exact hq.trans (h.queue s p)
  references s := (h'.references s).trans (h.references s)
  frame := h'.frame.trans h.frame
  positions := h'.positions.trans h.positions
  last := h'.last.trans h.last

/-- An order that is queued or unqueued does not change how the others stand. -/
lemma filter_queue_move {keep : OrderId → Bool} {e e' : Entry} (v : View)
    (he : keep e.order.id = false) (he' : keep e'.order.id = false) (s : Side) (p : ℤ) :
    (((v.unlink e).link e').queue s p).filter keep = (v.queue s p).filter keep := by
  have herase : ∀ l : List OrderId, (l.erase e.order.id).filter keep = l.filter keep := by
    intro l
    rw [← List.erase_filter, List.erase_of_not_mem]
    simp [he]
  simp only [View.link, View.unlink]
  split_ifs <;> simp [herase, he']

/-- One pegged order is re-placed. -/
lemma repricePeg_repriced (hb : WF b) (hid : id ∈ b.pegged) : Repriced b (b.repricePeg id) := by
  obtain ⟨-, hpegged, href, hother, -⟩ := repricePeg_spec hb.sound hid
  obtain ⟨e, he, -⟩ := hb.sound.pegged_ok id hid
  replace he : b.orders.lookup id = some e := he
  unfold repricePeg at hpegged href hother ⊢
  rw [he] at hpegged href hother ⊢
  dsimp only at hpegged href hother ⊢
  cases hp : b.computePegPrice e.order with
  | none => exact .refl b
  | some np =>
    rw [hp] at hpegged href hother
    dsimp only at hpegged href hother ⊢
    split_ifs at hpegged href hother ⊢
    · exact .refl b
    obtain rfl := hb.sound.id_eq id e he
    obtain ⟨hev, hf⟩ := evolves_movePegged hb.sound he np
    have hv := hev.run.of_single.2
    refine ⟨hpegged, fun i hi => hother i fun h => hi (h ▸ hid), fun i x hx => ?_, fun s p => ?_,
      href, hf, positions_movePegged _ _ _, by simp [movePegged, emitReprice]⟩
    · by_cases hi : i = e.order.id
      · subst hi
        obtain rfl := Option.some.inj (he.symm.trans hx)
        exact ⟨_, _, entry_movePegged hb.sound he np⟩
      · exact ⟨x.order.price, x.order.rank, (hother i hi).trans hx⟩
    · have hq : ((b.movePegged e.order.id e np).level s p).fifo
          = ((b.view.unlink e).link (e.moved np b.nextSeq)).queue s p :=
        congrFun₂ (congrArg View.queue hv) s p
      rw [hq]
      exact filter_queue_move b.view (decide_eq_false (not_not.2 hid))
        (decide_eq_false (not_not.2 hid)) s p

lemma repricePeg_foldl_repriced (hb : WF b) {l : List OrderId} (hl : ∀ id ∈ l, id ∈ b.pegged) :
    Repriced b (l.foldl repricePeg b) := by
  induction l generalizing b with
  | nil => exact .refl b
  | cons id l ih =>
    have hid := hl id (by simp)
    have hone := repricePeg_repriced hb hid
    obtain ⟨ms, hgl, -⟩ := repricePeg_glides hb.sound hid
    have hb' := hgl.wf hb (b.calm_repricePeg id).frame
    refine hone.trans (ih hb' fun i hi => ?_)
    rw [hone.pegged]
    exact hl i (by simp [hi])

/-- A pass moves pegged orders only. -/
lemma repricePegs_repriced (hb : WF b) : Repriced b b.repricePegs :=
  repricePeg_foldl_repriced hb fun _ hid => (List.perm_insertionSort _ _).subset hid

/-- An order at its price stays there. -/
lemma repricePeg_of_tracksAt (hb : WF b) (hid : id ∈ b.pegged) (h : b.TracksAt id) :
    b.repricePeg id = b := by
  obtain ⟨e, he, -⟩ := hb.sound.pegged_ok id hid
  replace he : b.orders.lookup id = some e := he
  unfold repricePeg
  rw [he]
  dsimp only
  cases hp : b.computePegPrice e.order with
  | none => rfl
  | some np => exact if_pos (h e he np hp).symm

/-- A pass over orders that are at their prices changes nothing. -/
lemma repricePegs_of_tracked (hb : WF b) (h : b.Tracked) : b.repricePegs = b := by
  have hfold : ∀ l : List OrderId, (∀ id ∈ l, id ∈ b.pegged) → l.foldl repricePeg b = b := by
    intro l hl
    induction l with
    | nil => rfl
    | cons id l ih =>
      have hid := hl id (by simp)
      rw [List.foldl_cons, repricePeg_of_tracksAt hb hid (h id hid)]
      exact ih fun i hi => hl i (by simp [hi])
  exact hfold _ fun _ hid => (List.perm_insertionSort _ _).subset hid

end Moves

/-! ### One pass is enough -/

section Pass

variable {b : Book}

/-- What one pass over the pegged orders achieves, and what it leaves alone. -/
structure Settles (b : Book) : Prop where
  /-- Every pegged order that has a price rests at it. -/
  tracked : ∀ id ∈ b.repricePegs.pegged, ∀ e, b.repricePegs.orders.lookup id = some e →
    ∀ p, b.repricePegs.computePegPrice e.order = some p → e.order.price = p
  /-- A second pass changes nothing. -/
  again : b.repricePegs.repricePegs = b.repricePegs
  /-- Orders without a peg rest at the prices they rested at. -/
  anchors : ∀ s p, b.repricePegs.Anchors s p ↔ b.Anchors s p
  best : ∀ s, b.repricePegs.referenceBest s = b.referenceBest s
  /-- Orders that are not pegged stay in the order they were in. -/
  queue : ∀ s p, (b.repricePegs.level s p).fifo.filter (· ∉ b.pegged)
    = (b.level s p).fifo.filter (· ∉ b.pegged)

lemma Anchors.of_others {b b' : Book} {s : Side} {p : ℤ} (h : b.Anchors s p) (hb : b.view.Sound)
    (ho : ∀ i ∉ b.pegged, b'.orders.lookup i = b.orders.lookup i) : b'.Anchors s p := by
  obtain ⟨id, e, he, hside, hprice, hpeg⟩ := h
  refine ⟨id, e, (ho id fun hid => ?_).trans he, hside, hprice, hpeg⟩
  obtain ⟨e', he', hsome⟩ := hb.pegged_ok id hid
  obtain rfl := Option.some.inj (he.symm.trans he')
  simp [hpeg] at hsome

lemma settles_of_wf (hb : WF b) : b.Settles := by
  have hrep := repricePegs_repriced hb
  obtain ⟨ms, hg, -⟩ := repricePegs_glides hb.sound
  have hwf := hg.wf hb (frame_repricePegs b)
  have htracked := repricePegs_tracked hb.sound
  refine ⟨htracked, repricePegs_of_tracked hwf htracked, fun s p => ⟨fun h => ?_, fun h => ?_⟩,
    hrep.references, hrep.queue⟩
  · exact h.of_others hwf.sound fun i hi => (hrep.others i (hrep.pegged ▸ hi)).symm
  · exact h.of_others hb.sound hrep.others

/-- In every book that proper calls lead to, one pass over the pegged orders is enough. -/
theorem settles_of_called (h : b.Called) : b.Settles := settles_of_wf h.wf

/-- A stop that fires on arrival moves the midpoint under a resting peg; the pass moves the peg
from 105 to 107. -/
theorem settles_of_called_midpoint : ∃ b : Book, b.Called ∧ (b.level .buy 105).fifo = [4] ∧
    (b.repricePegs.level .buy 105).fifo = [] ∧ (b.repricePegs.level .buy 107).fifo = [4] ∧
    b.Settles := by
  let cs : List BookCall := [
    .instruct (.submit { id := 1, side := .sell, qty := 5, price := 110 }),
    .instruct (.submit { id := 2, qty := 5, price := 100 }),
    .instruct (.submit { id := 3, side := .sell, qty := 1, price := 100 }),
    .instruct (.submit { id := 4, qty := 5, peg := some { ref := .midpoint } }),
    .instruct (.submit { id := 5, qty := 5, price := 104, trigger := some { stopPrice := 90 } })]
  obtain ⟨b, hb, hold, hleft, hnew⟩ : ∃ b : Book, b.Called ∧ (b.level .buy 105).fifo = [4] ∧
      (b.repricePegs.level .buy 105).fifo = [] ∧ (b.repricePegs.level .buy 107).fifo = [4] :=
    Called.exists_of_calls 0 8 cs (by decide +kernel)
  exact ⟨b, hb, hold, hleft, hnew, settles_of_called hb⟩

end Pass

/-! ### Cancellation -/

section Cancellation

variable {b b' b'' : Book} {id : OrderId}

/-- The order rests, is parked as a stop, or is queued for an auction. -/
def Holds (b : Book) (id : OrderId) : Prop :=
  (b.orders.lookup id).isSome = true ∨ (b.stops.lookup id).isSome = true ∨
    ∃ o ∈ b.openingAuction ++ b.closingAuction, o.id = id

/-- The books differ in the order `id`, in the reservations of its account, and in the places of
pegged orders. -/
structure Spares (id : OrderId) (b b' : Book) : Prop where
  /-- A resting order keeps everything but its price and its rank. -/
  kept : ∀ i ≠ id, ∀ e, b.orders.lookup i = some e → ∃ p r, b'.orders.lookup i = some (e.moved p r)
  fresh : ∀ i, b.orders.lookup i = none → b'.orders.lookup i = none
  unpegged : ∀ i ≠ id, i ∉ b.pegged → b'.orders.lookup i = b.orders.lookup i
  queue : ∀ s p, (b'.level s p).fifo.filter (fun i => i ≠ id ∧ i ∉ b.pegged)
    = (b.level s p).fifo.filter fun i => i ≠ id ∧ i ∉ b.pegged
  stops : ∀ i ≠ id, b'.stops.lookup i = b.stops.lookup i
  opening : b'.openingAuction = b.openingAuction.filter (·.id ≠ id)
  closing : b'.closingAuction = b.closingAuction.filter (·.id ≠ id)
  groups : b'.groups = b.groups
  orderGroup : b'.orderGroup = b.orderGroup
  position : b'.position = b.position
  reserved : ∀ c s, (∀ e, b.orders.lookup id = some e → e.order.clientId ≠ c) →
    b'.reserved c s = b.reserved c s
  last : b'.last = b.last

/-- What a cancellation does. -/
structure CancelsOnly (b : Book) (id : OrderId) : Prop where
  found : (b.cancel id).2 = true ↔ b.Holds id
  gone : ¬ (b.cancel id).1.Holds id
  spares : Spares id b (b.cancel id).1
  refused : (b.cancel id).2 = false → (b.cancel id).1 = b

/-- An operation that touches the orders in wait only. -/
lemma Spares.of_waiting (hv : b'.view = b.view)
    (hs : ∀ i ≠ id, b'.stops.lookup i = b.stops.lookup i)
    (ho : b'.openingAuction = b.openingAuction.filter (·.id ≠ id))
    (hc : b'.closingAuction = b.closingAuction.filter (·.id ≠ id)) (hg : b'.groups = b.groups)
    (hog : b'.orderGroup = b.orderGroup) (hpos : b'.positions = b.positions)
    (hl : b'.last = b.last) : Spares id b b' := by
  have hentry : ∀ i, b'.orders.lookup i = b.orders.lookup i :=
    fun i => congrFun (congrArg View.entry hv) i
  refine ⟨fun i _ e he => ⟨e.order.price, e.order.rank, (hentry i).trans he⟩,
    fun i hi => (hentry i).trans hi, fun i _ _ => hentry i, fun s p => ?_, hs, ho, hc, hg, hog,
    position_congr hpos, fun c s _ => by rw [reserved_congr hpos], hl⟩
  have hq : (b'.level s p).fifo = (b.level s p).fifo := congrFun₂ (congrArg View.queue hv) s p
  rw [hq]

lemma filter_id_ne {l : List Order} (h : ∀ o ∈ l, o.id ≠ id) : l.filter (·.id ≠ id) = l :=
  List.filter_eq_self.2 fun o ho => decide_eq_true (h o ho)

/-- Of orders with different identifiers one is taken out. -/
lemma eraseP_id_eq {l : List Order} (hnd : (l.map (·.id)).Nodup) :
    l.eraseP (·.id = id) = l.filter (·.id ≠ id) := by
  induction l with
  | nil => rfl
  | cons o l ih =>
    obtain ⟨hno, hnd⟩ := List.nodup_cons.1 hnd
    by_cases ho : o.id = id
    · have hl : ∀ x ∈ l, x.id ≠ id :=
        fun x hx hid => hno (List.mem_map.2 ⟨x, hx, hid.trans ho.symm⟩)
      rw [List.eraseP_cons_of_pos (by simpa using ho), List.filter_cons_of_neg (by simpa using ho),
        filter_id_ne hl]
    · rw [List.eraseP_cons_of_neg (by simpa using ho), List.filter_cons_of_pos (by simpa using ho),
        ih hnd]

/-- The orders of the two auctions have different identifiers. -/
lemma WF.queued_nodup (hb : WF b) :
    (b.openingAuction.map (·.id)).Nodup ∧ (b.closingAuction.map (·.id)).Nodup ∧
      ∀ x ∈ b.openingAuction, ∀ y ∈ b.closingAuction, x.id ≠ y.id := by
  have hnd := hb.waits.nodup
  simp only [Frame.waiting, frame, List.map_append] at hnd
  have hqueued := List.nodup_append.1 (List.nodup_append.1 hnd).2.1
  refine ⟨hqueued.1, (List.nodup_append.1 hqueued.2.1).1, fun x hx y hy => ?_⟩
  exact hqueued.2.2 _ (List.mem_map_of_mem hx) _ (List.mem_append_left _ (List.mem_map_of_mem hy))

/-- What is released belongs to one account. -/
lemma reserved_releaseReserved_ne {o : Order} {c : ClientId} (hc : o.clientId ≠ c) (q : ℤ)
    (s : Side) : (b.releaseReserved o q).reserved c s = b.reserved c s := by
  unfold releaseReserved
  split_ifs
  · rfl
  · cases b.positions.lookup o.clientId with
    | none => rfl
    | some p => cases s <;> simp [reserved, hc.symm]

/-- The order leaves the levels. -/
lemma spares_removeResting (hb : WF b) {e : Entry} (he : b.orders.lookup e.order.id = some e) :
    Spares e.order.id b (b.removeResting e.order.id e) := by
  obtain ⟨hev, hf⟩ := evolves_removeResting hb.sound he
  have hv := hev.run.of_single.2
  have hentry : ∀ i, (b.removeResting e.order.id e).orders.lookup i
      = if i = e.order.id then none else b.orders.lookup i := fun i =>
    congrFun (congrArg View.entry hv) i
  have hne : ∀ x ∈ b.frame.waiting, x.id ≠ e.order.id := by
    intro x hx hid
    exact absurd ((hb.waits.away x hx).symm.trans (hid ▸ he)) (by simp)
  have hq : ∀ s p, ((b.removeResting e.order.id e).level s p).fifo = if s = e.order.side ∧
      p = e.order.price then (b.level s p).fifo.erase e.order.id else (b.level s p).fifo :=
    fun s p => congrFun₂ (congrArg View.queue hv) s p
  have hpos := positions_removeResting (b := b) e.order.id e
  refine ⟨fun i hi x hx => ?_, fun i hi => ?_, fun i hi _ => ?_, fun s p => ?_,
    fun i _ => congrArg (·.stops.lookup i) hf, ?_, ?_, congrArg Frame.groups hf,
    congrArg Frame.orderGroup hf, ?_, fun c s hc => ?_,
    by simp [removeResting, emitEvent]⟩
  · rw [hentry, if_neg hi]
    exact ⟨x.order.price, x.order.rank, hx⟩
  · rw [hentry]
    split_ifs
    · rfl
    · exact hi
  · rw [hentry, if_neg hi]
  · rw [hq]
    split_ifs
    · rw [← List.erase_filter, List.erase_of_not_mem (by simp)]
    · rfl
  · rw [filter_id_ne fun x hx => hne x (by simp [Frame.waiting, frame, hx])]
    exact congrArg Frame.openingAuction hf
  · rw [filter_id_ne fun x hx => hne x (by simp [Frame.waiting, frame, hx])]
    exact congrArg Frame.closingAuction hf
  · rw [position_congr hpos, position_releaseReserved]
  · rw [reserved_congr hpos]
    exact reserved_releaseReserved_ne (hc e he) _ s

/-- Pegged orders follow. -/
lemma Spares.reprice (h : Spares id b b') (hr : Repriced b' b'') (hs' : b'.view.Sound)
    (hpeg : ∀ i ∈ b'.pegged, i ∈ b.pegged) : Spares id b b'' where
  kept i hi e he := by
    obtain ⟨p, r, he'⟩ := h.kept i hi e he
    obtain ⟨p', r', he''⟩ := hr.moved i _ he'
    exact ⟨p', r', he''⟩
  fresh i hi := by
    have hnone := h.fresh i hi
    refine (hr.others i fun hmem => ?_).trans hnone
    obtain ⟨e, he, -⟩ := hs'.pegged_ok i hmem
    exact absurd (hnone.symm.trans he) (by simp)
  unpegged i hi hp := (hr.others i fun hmem => hp (hpeg i hmem)).trans (h.unpegged i hi hp)
  queue s p := by
    -- the orders looked at are among those that the moves leave alone
    have hsub : ∀ l : List OrderId, (l.filter (· ∉ b'.pegged)).filter
        (fun i => i ≠ id ∧ i ∉ b.pegged) = l.filter fun i => i ≠ id ∧ i ∉ b.pegged := by
      intro l
      rw [List.filter_filter]
      refine List.filter_congr fun i _ => ?_
      rw [Bool.eq_iff_iff]
      simp only [Bool.and_eq_true, decide_eq_true_eq]
      exact ⟨fun hi => hi.1, fun hi => ⟨hi, fun hmem => hi.2 (hpeg i hmem)⟩⟩
    rw [← hsub, hr.queue, hsub]
    exact h.queue s p
  stops i hi := by
    have hstops : b''.stops = b'.stops := congrArg Frame.stops hr.frame
    rw [hstops]
    exact h.stops i hi
  opening := (congrArg Frame.openingAuction hr.frame).trans h.opening
  closing := (congrArg Frame.closingAuction hr.frame).trans h.closing
  groups := (congrArg Frame.groups hr.frame).trans h.groups
  orderGroup := (congrArg Frame.orderGroup hr.frame).trans h.orderGroup
  position := (position_congr hr.positions).trans h.position
  reserved c s hc := by
    rw [reserved_congr hr.positions]
    exact h.reserved c s hc
  last := hr.last.trans h.last

lemma spares_cancelResting (hb : WF b) {e : Entry} (he : b.orders.lookup id = some e) :
    Spares id b (b.cancelResting id e) ∧ (b.cancelResting id e).orders.lookup id = none := by
  obtain rfl := hb.sound.id_eq id e he
  obtain ⟨hev, hf⟩ := evolves_removeResting hb.sound he
  have hwf := (removeResting_glides hb.sound he).wf hb hf
  have hv := hev.run.of_single.2
  have hnone : (b.removeResting e.order.id e).orders.lookup e.order.id = none := by
    have hentry := congrFun (congrArg View.entry hv) e.order.id
    exact hentry.trans (if_pos rfl)
  have hpeg : ∀ i ∈ (b.removeResting e.order.id e).pegged, i ∈ b.pegged := by
    intro i hi
    have hi' : i ∈ (b.removeResting e.order.id e).view.pegged := hi
    rw [hv] at hi'
    exact (List.mem_filter.1 hi').1
  have hrem := spares_removeResting hb he
  have hrep := repricePegs_repriced hwf
  have hspares := hrem.reprice hrep hwf.sound hpeg
  unfold cancelResting
  dsimp only
  split_ifs
  · exact ⟨hrem, hnone⟩
  · refine ⟨hspares, (hrep.others _ fun hmem => ?_).trans hnone⟩
    obtain ⟨x, hx, -⟩ := hwf.sound.pegged_ok _ hmem
    exact absurd (hnone.symm.trans hx) (by simp)

/-- A cancellation that finds the order. -/
lemma CancelsOnly.of_found (hcancel : b.cancel id = (b', true)) (hheld : b.Holds id)
    (hsp : Spares id b b') (ho : b'.orders.lookup id = none) (hst : b'.stops.lookup id = none) :
    b.CancelsOnly id := by
  refine ⟨by simp [hcancel, hheld], ?_, by rw [hcancel]; exact hsp, by simp [hcancel]⟩
  rw [hcancel]
  rintro (h | h | ⟨x, hx, hid⟩)
  · simp [ho] at h
  · simp [hst] at h
  · rw [hsp.opening, hsp.closing, ← List.filter_append, List.mem_filter, decide_eq_true_eq] at hx
    exact hx.2 hid

/-- A cancellation takes the order away, wherever it is, and nothing else. -/
lemma cancelsOnly_of_wf (hb : WF b) (id : OrderId) : b.CancelsOnly id := by
  obtain ⟨hopen, hclose, hapart⟩ := hb.queued_nodup
  -- an order in wait does not rest
  have haway : ∀ x ∈ b.frame.waiting, x.id = id → b.orders.lookup id = none :=
    fun x hx hid => hid ▸ hb.waits.away x hx
  cases hs : b.stops.lookup id with
  | some o =>
    obtain ⟨hne, hnone, -⟩ := (hb.waits.of_perm (waiting_perm_of_stop hs)).head
    obtain rfl := hb.stop_id id o hs
    have hcancel : b.cancel o.id = ({ b with stops := b.stops.erase o.id }, true) := by
      simp [Book.cancel, hs]
    refine .of_found hcancel (.inr (.inl (by simp [hs]))) ?_ hnone (by simp)
    refine .of_waiting rfl (fun i hi => by simp [hi]) ?_ ?_ rfl rfl rfl rfl
    · exact (filter_id_ne fun x hx => hne x (by simp [Frame.waiting, frame, hx])).symm
    · exact (filter_id_ne fun x hx => hne x (by simp [Frame.waiting, frame, hx])).symm
  | none =>
    by_cases ho : b.openingAuction.any (·.id = id) = true
    · obtain ⟨x, hx, hid⟩ := List.any_eq_true.1 ho
      have hid : x.id = id := of_decide_eq_true hid
      have hcancel : b.cancel id
          = ({ b with openingAuction := b.openingAuction.eraseP (·.id = id) }, true) := by
        simp [Book.cancel, hs, ho]
      refine .of_found hcancel (.inr (.inr ⟨x, by simp [hx], hid⟩)) ?_
        (haway x (by simp [Frame.waiting, frame, hx]) hid) hs
      refine .of_waiting rfl (fun _ _ => rfl) (eraseP_id_eq hopen) ?_ rfl rfl rfl rfl
      exact (filter_id_ne fun y hy hyid => hapart x hx y hy (hid.trans hyid.symm)).symm
    have hopenNe : ∀ x ∈ b.openingAuction, x.id ≠ id :=
      fun x hx hid => ho (List.any_eq_true.2 ⟨x, hx, decide_eq_true hid⟩)
    by_cases hc : b.closingAuction.any (·.id = id) = true
    · obtain ⟨x, hx, hid⟩ := List.any_eq_true.1 hc
      have hid : x.id = id := of_decide_eq_true hid
      have hcancel : b.cancel id
          = ({ b with closingAuction := b.closingAuction.eraseP (·.id = id) }, true) := by
        simp [Book.cancel, hs, ho, hc]
      refine .of_found hcancel (.inr (.inr ⟨x, by simp [hx], hid⟩)) ?_
        (haway x (by simp [Frame.waiting, frame, hx]) hid) hs
      exact .of_waiting rfl (fun _ _ => rfl) (filter_id_ne hopenNe).symm (eraseP_id_eq hclose)
        rfl rfl rfl rfl
    have hcloseNe : ∀ x ∈ b.closingAuction, x.id ≠ id :=
      fun x hx hid => hc (List.any_eq_true.2 ⟨x, hx, decide_eq_true hid⟩)
    cases he : b.orders.lookup id with
    | some e =>
      obtain ⟨hsp, hnone⟩ := spares_cancelResting hb he
      have hf : (b.cancelResting id e).frame = b.frame := (b.calm_cancelResting id e).frame
      have hstops : (b.cancelResting id e).stops = b.stops := congrArg Frame.stops hf
      exact .of_found (by simp [Book.cancel, hs, ho, hc, he]) (.inl (by simp [he])) hsp hnone
        (hstops ▸ hs)
    | none =>
      have hcancel : b.cancel id = (b, false) := by simp [Book.cancel, hs, ho, hc, he]
      have hno : ¬ b.Holds id := by
        rintro (h | h | ⟨x, hx, hid⟩)
        · simp [he] at h
        · simp [hs] at h
        · rcases List.mem_append.1 hx with hx | hx
          · exact hopenNe x hx hid
          · exact hcloseNe x hx hid
      refine ⟨by simp [hcancel, hno], by simpa [hcancel] using hno, ?_, fun _ => by rw [hcancel]⟩
      rw [hcancel]
      exact .of_waiting rfl (fun _ _ => rfl) (filter_id_ne hopenNe).symm
        (filter_id_ne hcloseNe).symm rfl rfl rfl rfl

/-- In every book that proper calls lead to, a cancellation removes exactly one order. -/
theorem cancelsOnly_of_called (h : b.Called) (id : OrderId) : b.CancelsOnly id :=
  cancelsOnly_of_wf h.wf id

/-- The best buy order leaves, and the peg on it moves from 101 to 100. -/
theorem cancelsOnly_of_called_peg : ∃ b : Book, b.Called ∧ (b.level .buy 101).fifo = [2, 3] ∧
    (b.cancel 2).2 = true ∧ ((b.cancel 2).1.level .buy 100).fifo = [1, 3] ∧ b.CancelsOnly 2 := by
  let cs : List BookCall := [
    .instruct (.submit { id := 1, qty := 5, price := 100 }),
    .instruct (.submit { id := 2, qty := 5, price := 101 }),
    .instruct (.submit { id := 3, qty := 5, peg := some { ref := .primary } })]
  obtain ⟨b, hb, hold, hfound, hnew⟩ : ∃ b : Book, b.Called ∧
      (b.level .buy 101).fifo = [2, 3] ∧ (b.cancel 2).2 = true ∧
        ((b.cancel 2).1.level .buy 100).fifo = [1, 3] :=
    Called.exists_of_calls 0 8 cs (by decide +kernel)
  exact ⟨b, hb, hold, hfound, hnew, cancelsOnly_of_called hb 2⟩

/-! ### Expiry -/

/-- The orders `ids` are gone, and nothing else has happened but that pegged orders followed. -/
structure Outlasts (ids : List OrderId) (b b' : Book) : Prop where
  gone : ∀ i ∈ ids, b'.orders.lookup i = none
  fresh : ∀ i, b.orders.lookup i = none → b'.orders.lookup i = none
  kept : ∀ i ∉ ids, ∀ e, b.orders.lookup i = some e →
    (∃ p r, b'.orders.lookup i = some (e.moved p r)) ∧
      (e.order.peg = none → b'.orders.lookup i = some e)
  stops : ∀ i ∉ ids, b'.stops.lookup i = b.stops.lookup i
  opening : b'.openingAuction = b.openingAuction.filter (·.id ∉ ids)
  closing : b'.closingAuction = b.closingAuction.filter (·.id ∉ ids)
  position : b'.position = b.position
  last : b'.last = b.last

lemma outlasts_cancelAll (hb : WF b) (ids : List OrderId) :
    Outlasts ids b (ids.foldl (fun b id => (b.cancel id).1) b) := by
  induction ids generalizing b with
  | nil =>
    refine ⟨by simp, fun _ h => h, fun i _ e he => ⟨⟨e.order.price, e.order.rank, he⟩, fun _ => he⟩,
      fun _ _ => rfl, ?_, ?_, rfl, rfl⟩ <;> simp
  | cons id ids ih =>
    have hc := cancelsOnly_of_wf hb id
    obtain ⟨ms, hst, -⟩ := cancel_step hb id
    have hrest := ih hst.wf
    rw [List.foldl_cons]
    have hids : ∀ i ∉ id :: ids, i ≠ id ∧ i ∉ ids := fun i hi => by simpa using hi
    have hfilter : ∀ l : List Order, (l.filter (·.id ≠ id)).filter (·.id ∉ ids)
        = l.filter (·.id ∉ id :: ids) := fun l => by
      rw [List.filter_filter]
      exact List.filter_congr fun x _ => by simp [Bool.and_comm]
    refine ⟨fun i hi => ?_, fun i hi => hrest.fresh i (hc.spares.fresh i hi), fun i hi x hx => ?_,
      fun i hi => (hrest.stops i (hids i hi).2).trans (hc.spares.stops i (hids i hi).1), ?_, ?_,
      hrest.position.trans hc.spares.position, hrest.last.trans hc.spares.last⟩
    · rcases List.mem_cons.1 hi with rfl | hi
      · refine hrest.fresh i ?_
        by_contra hne
        exact hc.gone (.inl (Option.isSome_iff_ne_none.2 hne))
      · exact hrest.gone i hi
    · obtain ⟨hne, hi⟩ := hids i hi
      obtain ⟨p, r, hx'⟩ := hc.spares.kept i hne x hx
      obtain ⟨⟨p', r', hx''⟩, -⟩ := hrest.kept i hi _ hx'
      refine ⟨⟨p', r', hx''⟩, fun hpeg => (hrest.kept i hi x ?_).2 hpeg⟩
      -- it is not among the pegged orders
      refine (hc.spares.unpegged i hne fun hmem => ?_).trans hx
      obtain ⟨y, hy, hp⟩ := hb.sound.pegged_ok i hmem
      obtain rfl := Option.some.inj (hx.symm.trans hy)
      exact absurd hp (by simp [hpeg])
    · rw [hrest.opening, hc.spares.opening, hfilter]
    · rw [hrest.closing, hc.spares.closing, hfilter]

/-- In every book that proper calls lead to, an expiry takes away exactly the resting orders whose
time has come, and answers their identifiers. -/
theorem outlasts_of_called (h : b.Called) (now : ℤ) :
    Outlasts (b.expire now).2 b (b.expire now).1 ∧ ∀ i, i ∈ (b.expire now).2 ↔
      ∃ e, b.orders.lookup i = some e ∧ 0 < e.order.expiryNs ∧ e.order.expiryNs ≤ now := by
  refine ⟨outlasts_cancelAll h.wf _, fun i => ?_⟩
  simp [expire, expired, List.mem_insertionSort, Map.mem_pairs]

/-- The better of two buy orders expires. -/
theorem outlasts_of_called_two : ∃ b : Book, b.Called ∧ (b.expire 7).2 = [2] ∧
    Outlasts [2] b (b.expire 7).1 := by
  let cs : List BookCall := [
    .instruct (.submit { id := 1, qty := 5, price := 100 }),
    .instruct (.submit { id := 2, qty := 5, price := 101, expiryNs := 7 })]
  obtain ⟨b, hb, hids⟩ : ∃ b : Book, b.Called ∧ (b.expire 7).2 = [2] :=
    Called.exists_of_calls 0 8 cs (by decide +kernel)
  exact ⟨b, hb, hids, hids ▸ (outlasts_of_called hb 7).1⟩

end Cancellation

end Book

end Codicis
