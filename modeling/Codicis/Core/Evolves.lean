/-
The operations of a book as runs of mutations.

`Book.view` reads a book as a `View`.  `Book.Evolves b ms b'` says that `b'` is the
book `b` after the mutations `ms`, and that the events and re-queued orders that
were logged on the way are those of the mutations.  What the operations leave
alone is collected in `Book.frame`.

The first part states, for every helper of the book, which fields it keeps.  The
second part gives the view after each elementary operation.
-/
import Codicis.Core.View
import Codicis.Core.Submit

namespace Codicis

/-- The settings of a book. -/
structure Settings where
  memLevels : ℕ
  stp : StpPolicy
  symbol : Symbol
  eventSink : Bool

/-- The part of a book that neither matching nor resting touches: the orders that
wait outside the ladders, the contingent groups and the settings. -/
structure Frame where
  stops : Map OrderId Order
  groups : Map ℕ Group
  orderGroup : Map OrderId ℕ
  openingAuction : List Order
  closingAuction : List Order
  settings : Settings

namespace Book

/-- The settings of the book. -/
def settings (b : Book) : Settings where
  memLevels := b.memLevels
  stp := b.stp
  symbol := b.symbol
  eventSink := b.eventSink

/-- What the book says about the orders that rest. -/
def view (b : Book) : View where
  queue s p := (b.level s p).fifo
  total s p := (b.level s p).total
  shown s p := (b.level s p).displayed
  entry id := b.orders.lookup id
  pegged := b.pegged

/-- The part that matching does not touch. -/
def frame (b : Book) : Frame where
  stops := b.stops
  groups := b.groups
  orderGroup := b.orderGroup
  openingAuction := b.openingAuction
  closingAuction := b.closingAuction
  settings := b.settings

/-- Orders that do not rest wait in the frame. -/
lemma waiting_of_frame {b b' : Book} (hf : b'.frame = b.frame) : b'.stops = b.stops ∧
    b'.openingAuction = b.openingAuction ∧ b'.closingAuction = b.closingAuction :=
  ⟨congrArg Frame.stops hf, congrArg Frame.openingAuction hf, congrArg Frame.closingAuction hf⟩

/-- The last price, when there is one. -/
def last (b : Book) : Bool × ℤ := (b.haveLast, b.lastPrice)

/-! ### What the helpers keep -/

section Fields

variable (b : Book)

@[simp] lemma setLadder_keeps (s : Side) (L : Ladder s) :
    (b.setLadder s L).orders = b.orders ∧ (b.setLadder s L).pegged = b.pegged ∧
      (b.setLadder s L).events = b.events ∧ (b.setLadder s L).requeued = b.requeued ∧
      (b.setLadder s L).nextSeq = b.nextSeq ∧ (b.setLadder s L).frame = b.frame ∧
      (b.setLadder s L).positions = b.positions ∧ (b.setLadder s L).last = b.last := by
  cases s <;> exact ⟨rfl, rfl, rfl, rfl, rfl, rfl, rfl, rfl⟩

@[simp] lemma modifyLevel_keeps (s : Side) (p : ℤ) (f : Level → Level) :
    (b.modifyLevel s p f).orders = b.orders ∧ (b.modifyLevel s p f).pegged = b.pegged ∧
      (b.modifyLevel s p f).events = b.events ∧ (b.modifyLevel s p f).requeued = b.requeued ∧
      (b.modifyLevel s p f).nextSeq = b.nextSeq ∧ (b.modifyLevel s p f).frame = b.frame ∧
      (b.modifyLevel s p f).positions = b.positions ∧ (b.modifyLevel s p f).last = b.last := by
  simp [modifyLevel]

@[simp] lemma noteRemoved_keeps (s : Side) (p : ℤ) :
    (b.noteRemoved s p).orders = b.orders ∧ (b.noteRemoved s p).pegged = b.pegged ∧
      (b.noteRemoved s p).events = b.events ∧ (b.noteRemoved s p).requeued = b.requeued ∧
      (b.noteRemoved s p).nextSeq = b.nextSeq ∧ (b.noteRemoved s p).frame = b.frame ∧
      (b.noteRemoved s p).positions = b.positions ∧ (b.noteRemoved s p).last = b.last := by
  unfold noteRemoved
  split_ifs <;> simp

@[simp] lemma unlink_keeps (e : Entry) :
    (b.unlink e).orders = b.orders ∧ (b.unlink e).pegged = b.pegged ∧
      (b.unlink e).events = b.events ∧ (b.unlink e).requeued = b.requeued ∧
      (b.unlink e).nextSeq = b.nextSeq ∧ (b.unlink e).frame = b.frame ∧
      (b.unlink e).positions = b.positions ∧ (b.unlink e).last = b.last := by
  unfold unlink
  dsimp only
  split <;> simp

@[simp] lemma emit_keeps (ev : BookEvent) :
    (∀ s, (b.emit ev).ladder s = b.ladder s) ∧ (b.emit ev).orders = b.orders ∧
      (b.emit ev).pegged = b.pegged ∧ (b.emit ev).requeued = b.requeued ∧
      (b.emit ev).nextSeq = b.nextSeq ∧ (b.emit ev).frame = b.frame ∧
      (b.emit ev).positions = b.positions ∧ (b.emit ev).last = b.last := by
  unfold emit
  split_ifs
  · exact ⟨fun _ => rfl, rfl, rfl, rfl, rfl, rfl, rfl, rfl⟩
  · simp

lemma events_emit (ev : BookEvent) : (b.emit ev).events
    = b.events ++ if b.frame.settings.eventSink = true then [ev] else [] := by
  by_cases h : b.eventSink = true <;> simp [emit, frame, settings, h]

lemma events_emitEvent (type : BookEventType) (o : Order) (qty displayed : ℤ) :
    (b.emitEvent type o qty displayed).events = b.events ++
      if b.frame.settings.eventSink = true then
        [o.event b.frame.settings.symbol type qty displayed] else [] :=
  events_emit b _

lemma frame_emitEvent (type : BookEventType) (o : Order) (qty displayed : ℤ) :
    (b.emitEvent type o qty displayed).frame = b.frame := by simp [emitEvent]

lemma events_emitTrade (t : Trade) (displayed : ℤ) :
    (b.emitTrade t displayed).events = b.events ++
      if b.frame.settings.eventSink = true then
        [t.event b.frame.settings.symbol displayed] else [] :=
  events_emit b _

lemma events_emitReprice (o : Order) (old new qty displayed : ℤ) :
    (b.emitReprice o old new qty displayed).events = b.events ++
      if b.frame.settings.eventSink = true then
        [{ ({ o with price := new } : Order).event b.frame.settings.symbol .reprice qty displayed
            with prevPrice := old }] else [] :=
  events_emit b _

@[simp] lemma setEntry_keeps (id : OrderId) (e : Entry) :
    (∀ s, (b.setEntry id e).ladder s = b.ladder s) ∧
      (b.setEntry id e).orders = b.orders.insert id e ∧ (b.setEntry id e).pegged = b.pegged ∧
      (b.setEntry id e).events = b.events ∧ (b.setEntry id e).requeued = b.requeued ∧
      (b.setEntry id e).nextSeq = b.nextSeq ∧ (b.setEntry id e).frame = b.frame ∧
      (b.setEntry id e).positions = b.positions ∧ (b.setEntry id e).last = b.last :=
  ⟨fun _ => rfl, rfl, rfl, rfl, rfl, rfl, rfl, rfl, rfl⟩

@[simp] lemma emplaceEntry_keeps (id : OrderId) (e : Entry) :
    (∀ s, (b.emplaceEntry id e).ladder s = b.ladder s) ∧ (b.emplaceEntry id e).pegged = b.pegged ∧
      (b.emplaceEntry id e).events = b.events ∧ (b.emplaceEntry id e).requeued = b.requeued ∧
      (b.emplaceEntry id e).nextSeq = b.nextSeq ∧ (b.emplaceEntry id e).frame = b.frame ∧
      (b.emplaceEntry id e).positions = b.positions ∧ (b.emplaceEntry id e).last = b.last := by
  unfold emplaceEntry
  split_ifs <;> simp

@[simp] lemma eraseEntry_keeps (id : OrderId) :
    (∀ s, (b.eraseEntry id).ladder s = b.ladder s) ∧ (b.eraseEntry id).orders = b.orders.erase id ∧
      (b.eraseEntry id).pegged = b.pegged ∧ (b.eraseEntry id).events = b.events ∧
      (b.eraseEntry id).requeued = b.requeued ∧ (b.eraseEntry id).nextSeq = b.nextSeq ∧
      (b.eraseEntry id).frame = b.frame ∧ (b.eraseEntry id).positions = b.positions ∧
      (b.eraseEntry id).last = b.last :=
  ⟨fun _ => rfl, rfl, rfl, rfl, rfl, rfl, rfl, rfl, rfl⟩

@[simp] lemma unpeg_keeps (id : OrderId) :
    (∀ s, (b.unpeg id).ladder s = b.ladder s) ∧ (b.unpeg id).orders = b.orders ∧
      (b.unpeg id).pegged = b.pegged.filter (· ≠ id) ∧ (b.unpeg id).events = b.events ∧
      (b.unpeg id).requeued = b.requeued ∧ (b.unpeg id).nextSeq = b.nextSeq ∧
      (b.unpeg id).frame = b.frame ∧ (b.unpeg id).positions = b.positions ∧
      (b.unpeg id).last = b.last :=
  ⟨fun _ => rfl, rfl, rfl, rfl, rfl, rfl, rfl, rfl, rfl⟩

@[simp] lemma setLast_keeps (p : ℤ) :
    (∀ s, (b.setLast p).ladder s = b.ladder s) ∧ (b.setLast p).orders = b.orders ∧
      (b.setLast p).pegged = b.pegged ∧ (b.setLast p).events = b.events ∧
      (b.setLast p).requeued = b.requeued ∧ (b.setLast p).nextSeq = b.nextSeq ∧
      (b.setLast p).frame = b.frame ∧ (b.setLast p).positions = b.positions :=
  ⟨fun _ => rfl, rfl, rfl, rfl, rfl, rfl, rfl, rfl⟩

@[simp] lemma applyPosition_keeps (c : ClientId) (s : Side) (q : ℤ) :
    (∀ t, (b.applyPosition c s q).ladder t = b.ladder t) ∧
      (b.applyPosition c s q).orders = b.orders ∧ (b.applyPosition c s q).pegged = b.pegged ∧
      (b.applyPosition c s q).events = b.events ∧ (b.applyPosition c s q).requeued = b.requeued ∧
      (b.applyPosition c s q).nextSeq = b.nextSeq ∧ (b.applyPosition c s q).frame = b.frame ∧
      (b.applyPosition c s q).last = b.last := by
  unfold applyPosition
  split_ifs
  · simp
  · exact ⟨fun _ => rfl, rfl, rfl, rfl, rfl, rfl, rfl, rfl⟩

@[simp] lemma releaseReserved_keeps (o : Order) (q : ℤ) :
    (∀ t, (b.releaseReserved o q).ladder t = b.ladder t) ∧
      (b.releaseReserved o q).orders = b.orders ∧ (b.releaseReserved o q).pegged = b.pegged ∧
      (b.releaseReserved o q).events = b.events ∧ (b.releaseReserved o q).requeued = b.requeued ∧
      (b.releaseReserved o q).nextSeq = b.nextSeq ∧ (b.releaseReserved o q).frame = b.frame ∧
      (b.releaseReserved o q).last = b.last := by
  unfold releaseReserved
  split_ifs
  · simp
  · split
    · simp
    · exact ⟨fun _ => rfl, rfl, rfl, rfl, rfl, rfl, rfl, rfl⟩

@[simp] lemma reserveResting_keeps (o : Order) :
    (∀ t, (b.reserveResting o).ladder t = b.ladder t) ∧ (b.reserveResting o).orders = b.orders ∧
      (b.reserveResting o).pegged = b.pegged ∧ (b.reserveResting o).events = b.events ∧
      (b.reserveResting o).requeued = b.requeued ∧ (b.reserveResting o).nextSeq = b.nextSeq ∧
      (b.reserveResting o).frame = b.frame ∧ (b.reserveResting o).last = b.last := by
  unfold reserveResting
  split_ifs
  · exact ⟨fun _ => rfl, rfl, rfl, rfl, rfl, rfl, rfl, rfl⟩
  · simp

@[simp] lemma noteDeep_keeps (s : Side) (p : ℤ) :
    (∀ t, (b.noteDeep s p).ladder t = b.ladder t) ∧ (b.noteDeep s p).orders = b.orders ∧
      (b.noteDeep s p).pegged = b.pegged ∧ (b.noteDeep s p).events = b.events ∧
      (b.noteDeep s p).requeued = b.requeued ∧ (b.noteDeep s p).nextSeq = b.nextSeq ∧
      (b.noteDeep s p).frame = b.frame ∧ (b.noteDeep s p).positions = b.positions ∧
      (b.noteDeep s p).last = b.last := by
  cases s <;> exact ⟨fun _ => rfl, rfl, rfl, rfl, rfl, rfl, rfl, rfl, rfl⟩

@[simp] lemma requeue_keeps (o : Order) :
    (∀ t, (b.requeue o).1.ladder t = b.ladder t) ∧ (b.requeue o).1.orders = b.orders ∧
      (b.requeue o).1.pegged = b.pegged ∧ (b.requeue o).1.events = b.events ∧
      (b.requeue o).1.requeued = b.requeued ++ [{ o with rank := b.nextSeq }] ∧
      (b.requeue o).1.nextSeq = b.nextSeq + 1 ∧ (b.requeue o).1.frame = b.frame ∧
      (b.requeue o).1.positions = b.positions ∧ (b.requeue o).1.last = b.last ∧
      (b.requeue o).2 = { o with rank := b.nextSeq } :=
  ⟨fun _ => rfl, rfl, rfl, rfl, rfl, rfl, rfl, rfl, rfl, rfl⟩

end Fields

/-! ### The ladders -/

section Ladders

variable {b : Book}

/-- A ladder with the levels of the present one changes no level. -/
lemma level_setLadder_of_eq {s : Side} {L : Ladder s}
    (h : ∀ p, L.level p = (b.ladder s).level p) (t : Side) (q : ℤ) :
    ((b.setLadder s L).ladder t).level q = (b.ladder t).level q := by
  cases s <;> cases t <;> first | exact h q | rfl

@[simp] lemma ladder_setLadder (s : Side) (L : Ladder s) : (b.setLadder s L).ladder s = L := by
  cases s <;> rfl

lemma ladder_setLadder_ne {s t : Side} (h : t ≠ s) (L : Ladder s) :
    (b.setLadder s L).ladder t = b.ladder t := by
  cases s <;> cases t <;> first | rfl | exact absurd rfl h

lemma level_modifyLevel {s : Side} {p : ℤ} (h : (b.ladder s).Covers p) (f : Level → Level)
    (t : Side) (q : ℤ) : ((b.modifyLevel s p f).ladder t).level q
      = if t = s ∧ q = p then f ((b.ladder t).level q) else (b.ladder t).level q := by
  by_cases hts : t = s
  · subst hts
    simp only [modifyLevel, ladder_setLadder, Ladder.level_modify h, true_and]
    split_ifs with hq
    · rw [hq]
    · rfl
  · simp [modifyLevel, ladder_setLadder_ne hts, hts]

lemma covers_modifyLevel {s : Side} {p : ℤ} (f : Level → Level) (t : Side) (q : ℤ) :
    ((b.modifyLevel s p f).ladder t).Covers q ↔ (b.ladder t).Covers q := by
  by_cases hts : t = s
  · subst hts
    simp [modifyLevel, Ladder.Covers, Ladder.modify]
  · simp [modifyLevel, ladder_setLadder_ne hts]

@[simp] lemma level_noteRemoved (s : Side) (p : ℤ) (t : Side) (q : ℤ) :
    ((b.noteRemoved s p).ladder t).level q = (b.ladder t).level q := by
  unfold noteRemoved
  split_ifs
  · exact level_setLadder_of_eq (fun p => Ladder.level_onRemoved _ _ _) t q
  · rfl

/-- A level that holds an order is covered. -/
lemma covers_of_mem {s : Side} {p : ℤ} {id : OrderId} (h : id ∈ (b.level s p).fifo) :
    (b.ladder s).Covers p := by
  by_contra hc
  rw [level, Ladder.level_of_not_covers hc] at h
  simp at h

lemma level_unlink {e : Entry} (h : (b.ladder e.order.side).Covers e.order.price)
    (t : Side) (q : ℤ) : ((b.unlink e).ladder t).level q
      = if t = e.order.side ∧ q = e.order.price then
          { total := (b.level t q).total - e.order.leaves,
            displayed := (b.level t q).displayed - displayedOf e.order.flags e.order.leaves e.slice,
            fifo := (b.level t q).fifo.erase e.order.id }
        else (b.ladder t).level q := by
  unfold unlink
  dsimp only
  rw [Ladder.at?_of_covers h]
  simp [level_modifyLevel h, level]

lemma level_place {o : Order} (t : Side) (q : ℤ) :
    ((b.place o).ladder t).level q = if t = o.side ∧ q = o.price then
        { total := (b.level t q).total + o.leaves,
          displayed := (b.level t q).displayed + displayedOf o.flags o.leaves (sliceOf o),
          fifo := (b.level t q).fifo ++ [o.id] }
      else (b.ladder t).level q := by
  have hcov : ((b.setLadder o.side ((b.ladder o.side).touch o.price)).ladder o.side).Covers
      o.price := by simp [Ladder.covers_touch]
  simp only [place, emplaceEntry_keeps]
  rw [level_setLadder_of_eq (fun p => Ladder.level_onAdded _ _ _), level_modifyLevel hcov,
    level_setLadder_of_eq (fun p => Ladder.level_touch _ _ _)]
  rfl

end Ladders

/-! ### The view after an elementary operation -/

section Views

variable {b : Book}

/-- A view is read off the levels, the order map and the set of pegged orders. -/
lemma view_eq {v : View}
    (hlevel : ∀ t q, (b.ladder t).level q = ⟨v.total t q, v.shown t q, v.queue t q⟩)
    (hentry : ∀ id, b.orders.lookup id = v.entry id) (hpegged : b.pegged = v.pegged) :
    b.view = v :=
  View.ext (funext fun t => funext fun q => congrArg Level.fifo (hlevel t q))
    (funext fun t => funext fun q => congrArg Level.total (hlevel t q))
    (funext fun t => funext fun q => congrArg Level.displayed (hlevel t q)) (funext hentry) hpegged

/-- A placed order joins its level. -/
lemma view_place {o : Order} (h : b.orders.lookup o.id = none) :
    (b.place o).view = b.view.link ⟨o, sliceOf o⟩ := by
  have hord : (b.place o).orders = b.orders.insert o.id ⟨o, sliceOf o⟩ ∧
      (b.place o).pegged = b.pegged := by simp [place, emplaceEntry, h]
  refine view_eq (fun t q => ?_) (fun id => ?_) hord.2
  · simp only [level_place, View.link]
    split_ifs <;> rfl
  · simp only [view, hord.1, Map.lookup_insert_eq, View.link]

/-- Self-trade prevention takes the maker out. -/
lemma view_stpRemove {me : Entry}
    (h : (b.ladder me.order.side).Covers me.order.price) :
    (b.stpRemove me.order.side me.order.price me.order.id me).view
      = (b.view.unlink me).unpeg me.order.id := by
  refine view_eq (fun t q => ?_) (fun id => ?_) ?_
  · simp only [stpRemove, emitEvent, unpeg_keeps, eraseEntry_keeps]
    rw [level_modifyLevel (by simpa [covers_modifyLevel] using h)]
    simp only [emit_keeps, releaseReserved_keeps, level_modifyLevel h, View.unlink, View.unpeg]
    split_ifs <;> rfl
  · simp [view, stpRemove, emitEvent, View.unlink, View.unpeg, Map.lookup_erase_eq]
  · simp [view, stpRemove, emitEvent, View.unlink, View.unpeg]

/-- A cancelled order leaves the book. -/
lemma view_removeResting {e : Entry} (h : (b.ladder e.order.side).Covers e.order.price) :
    (b.removeResting e.order.id e).view = (b.view.unlink e).unpeg e.order.id := by
  refine view_eq (fun t q => ?_) (fun id => ?_) ?_
  · simp only [removeResting, emitEvent, eraseEntry_keeps]
    rw [level_unlink (by simpa using h)]
    simp only [emit_keeps, level, releaseReserved_keeps, unpeg_keeps, View.unlink, View.unpeg]
    split_ifs <;> rfl
  · simp [view, removeResting, emitEvent, View.unlink, View.unpeg, Map.lookup_erase_eq]
  · simp [view, removeResting, emitEvent, View.unlink, View.unpeg]

/-- A pegged order that moves leaves its level and joins another one. -/
lemma view_movePegged {e : Entry} (h : (b.ladder e.order.side).Covers e.order.price) (p : ℤ) :
    (b.movePegged e.order.id e p).view
      = (b.view.unlink e).link (e.moved p b.nextSeq) := by
  refine view_eq (fun t q => ?_) (fun id => ?_) ?_
  · simp only [movePegged, emitReprice, emit_keeps, setEntry_keeps, requeue_keeps]
    rw [level_setLadder_of_eq (fun p => Ladder.level_onAdded _ _ _),
      level_modifyLevel (by simp [Ladder.covers_touch]),
      level_setLadder_of_eq (fun p => Ladder.level_touch _ _ _)]
    simp only [level_unlink h, View.unlink, View.link, Entry.moved]
    split_ifs <;> rfl
  · simp only [view, movePegged, emitReprice, emit_keeps, setEntry_keeps, requeue_keeps,
      setLadder_keeps, modifyLevel_keeps, unlink_keeps, Map.lookup_insert_eq, View.link,
      View.unlink, Entry.moved]
    split_ifs <;> rfl
  · simp [view, movePegged, emitReprice, View.unlink, View.link]

lemma level_recordFill {s : Side} {p : ℤ} (h : (b.ladder s).Covers p) (o : Order)
    (mid : OrderId) (me : Entry) (q : ℤ) (t : Side) (r : ℤ) :
    ((b.recordFill s p o mid me q).ladder t).level r = if t = s ∧ r = p then
        { (b.level t r) with
          total := (b.level t r).total - q,
          displayed := if me.order.flags.hidden = true then (b.level t r).displayed
            else (b.level t r).displayed - q }
      else (b.ladder t).level r := by
  simp only [recordFill, emitTrade, releaseReserved_keeps, applyPosition_keeps]
  rw [level_modifyLevel (by simpa using h)]
  simp [level]

@[simp] lemma recordFill_keeps (b : Book) (s : Side) (p : ℤ) (o : Order) (mid : OrderId)
    (me : Entry) (q : ℤ) :
    (b.recordFill s p o mid me q).orders = b.orders ∧
      (b.recordFill s p o mid me q).pegged = b.pegged ∧
      (b.recordFill s p o mid me q).requeued = b.requeued ∧
      (b.recordFill s p o mid me q).nextSeq = b.nextSeq ∧
      (b.recordFill s p o mid me q).frame = b.frame := by
  simp [recordFill, emitTrade]

lemma covers_recordFill {s : Side} {p : ℤ} (o : Order) (mid : OrderId) (me : Entry) (q : ℤ)
    (t : Side) (r : ℤ) :
    ((b.recordFill s p o mid me q).ladder t).Covers r ↔ (b.ladder t).Covers r := by
  simp [recordFill, emitTrade, covers_modifyLevel]

section FillMaker

variable (b : Book) (s : Side) (p : ℤ) (o : Order) (mid : OrderId) {me : Entry}
  (rest : List OrderId)

/-- A fill that exhausts the maker. -/
lemma fillMaker_of_exhausted (h : me.order.leaves - min o.leaves (exposed me) = 0) :
    b.fillMaker s p o mid me rest =
      ((((b.recordFill s p o mid me (min o.leaves (exposed me))).modifyLevel s p fun lvl =>
        { lvl with fifo := lvl.fifo.erase mid }).eraseEntry mid).unpeg mid, rest) := by
  simp [fillMaker, Entry.fill, h]

/-- A fill that exhausts the slice of the maker. -/
lemma fillMaker_of_replenishes (h : Mut.Replenishes me (min o.leaves (exposed me))) :
    b.fillMaker s p o mid me rest =
      ((b.recordFill s p o mid me (min o.leaves (exposed me))).replenish s p mid
        (me.fill (min o.leaves (exposed me))), if rest = [] then [] else rest ++ [mid]) := by
  obtain ⟨h0, hi, hs⟩ := h
  simp [fillMaker, Entry.fill, h0, hi, hs]

/-- A fill after which the maker keeps its place. -/
lemma fillMaker_of_kept (h0 : me.order.leaves - min o.leaves (exposed me) ≠ 0)
    (h : ¬ Mut.Replenishes me (min o.leaves (exposed me))) :
    b.fillMaker s p o mid me rest =
      ((b.recordFill s p o mid me (min o.leaves (exposed me))).setEntry mid
        (me.fill (min o.leaves (exposed me))), rest) := by
  have h1 : ¬ (me.order.flags.iceberg = true ∧
      (me.fill (min o.leaves (exposed me))).slice = 0) := by
    rintro ⟨hi, hs⟩
    exact h ⟨h0, hi, by simpa [Entry.fill, hi] using hs⟩
  unfold fillMaker
  dsimp only
  rw [if_neg (show ¬ (me.fill _).order.leaves = 0 from h0),
    if_neg (show ¬ ((me.fill _).order.flags.iceberg = true ∧ _) from h1)]

end FillMaker

/-- The displayed part of a maker that a fill exhausts. -/
lemma displayed_of_exhausted {me : Entry} (hok : me.Ok) {q : ℤ} (hq : q ≤ exposed me)
    (h : me.order.leaves - q = 0) :
    me.displayed = if me.order.flags.hidden = true then 0 else q := by
  unfold exposed at hq
  unfold Entry.displayed displayedOf
  by_cases hh : me.order.flags.hidden = true
  · rw [if_pos hh, if_pos hh]
  rw [if_neg hh, if_neg hh]
  by_cases hi : me.order.flags.iceberg = true
  · have hle := hok.slice_le hi
    rw [if_pos hi] at hq ⊢
    omega
  · rw [if_neg hi]
    omega

/-- The displayed part of a maker whose slice a fill exhausts. -/
lemma displayed_of_replenishes {me : Entry} {q : ℤ} (h : Mut.Replenishes me q) :
    me.displayed = if me.order.flags.hidden = true then 0 else q := by
  obtain ⟨-, hi, hs⟩ := h
  unfold Entry.displayed displayedOf
  rw [if_pos hi]
  split_ifs
  · rfl
  · omega

/-- A fill is the mutation of that name. -/
lemma view_fillMaker {me : Entry} (hok : me.Ok)
    (h : (b.ladder me.order.side).Covers me.order.price) (o : Order) (rest : List OrderId) :
    (b.fillMaker me.order.side me.order.price o me.order.id me rest).1.view
      = (Mut.fill o me (min o.leaves (exposed me)) b.nextSeq).apply b.view := by
  have hcov := (covers_recordFill (b := b) (s := me.order.side) (p := me.order.price) o
    me.order.id me (min o.leaves (exposed me)) me.order.side me.order.price).2 h
  have hle : min o.leaves (exposed me) ≤ exposed me := min_le_right _ _
  by_cases h0 : me.order.leaves - min o.leaves (exposed me) = 0
  · rw [fillMaker_of_exhausted _ _ _ _ _ _ h0, Mut.apply, if_pos h0]
    generalize min o.leaves (exposed me) = q at hcov h0 hle
    have hd := displayed_of_exhausted hok hle h0
    obtain rfl : q = me.order.leaves := by omega
    refine view_eq (fun t r => ?_) (fun id => ?_) ?_
    · simp only [unpeg_keeps, eraseEntry_keeps, level_modifyLevel hcov, level_recordFill h,
        View.unlink, View.unpeg, hd, view, level]
      split_ifs <;> simp
    · simp [view, View.unlink, View.unpeg, Map.lookup_erase_eq]
    · simp [view, View.unlink, View.unpeg]
  by_cases h1 : Mut.Replenishes me (min o.leaves (exposed me))
  · rw [fillMaker_of_replenishes _ _ _ _ _ _ h1, Mut.apply, if_neg h0, if_pos h1]
    have hd := displayed_of_replenishes h1
    have hi := h1.2.1
    generalize min o.leaves (exposed me) = q at hcov hd
    simp only [replenish, emitEvent]
    refine view_eq (fun t r => ?_) (fun id => ?_) ?_
    · -- a hidden slice is displayed too
      simp only [emit_keeps, setEntry_keeps, requeue_keeps, level_modifyLevel hcov,
        level_recordFill h, View.reveal, View.unlink, View.link, hd, view, level]
      simp only [Entry.displayed, displayedOf, Entry.replenished, Entry.fill, hi, if_true]
      by_cases hc : t = me.order.side ∧ r = me.order.price
      · obtain ⟨rfl, rfl⟩ := hc
        by_cases hh : me.order.flags.hidden = true <;> simp [hh]
      · have hc' : ¬ (t = me.order.side ∧ r = me.order.price ∧ me.order.flags.hidden = true) :=
          fun h => hc ⟨h.1, h.2.1⟩
        simp only [if_neg hc, if_neg hc']
    · simp only [view, emit_keeps, setEntry_keeps, requeue_keeps, modifyLevel_keeps,
        recordFill_keeps, Map.lookup_insert_eq, View.reveal, View.link, View.unlink,
        Entry.replenished, Entry.fill]
      split_ifs <;> rfl
    · simp [view, View.reveal, View.link, View.unlink]
  · rw [fillMaker_of_kept _ _ _ _ _ _ h0 h1, Mut.apply, if_neg h0, if_neg h1]
    refine view_eq (fun t r => ?_) (fun id => ?_) ?_
    · simp only [setEntry_keeps, level_recordFill h, View.reduce, view, level]
      by_cases hc : t = me.order.side ∧ r = me.order.price
      · obtain ⟨rfl, rfl⟩ := hc
        by_cases hh : me.order.flags.hidden = true <;> simp [hh]
      · have hc' : ¬ (t = me.order.side ∧ r = me.order.price ∧ me.order.flags.hidden = false) :=
          fun h => hc ⟨h.1, h.2.1⟩
        simp only [if_neg hc, if_neg hc']
    · simp only [view, setEntry_keeps, recordFill_keeps, Map.lookup_insert_eq, View.reduce]
    · simp [view, View.reduce]

/-- Evicting orders one by one. -/
lemma evictOrder_foldl {l : List OrderId} (hl : l.Nodup) {r : Book × List Order}
    (hmem : ∀ id ∈ l, (r.1.orders.lookup id).isSome = true) :
    let r' := l.foldl evictOrder r
    (∀ id, r'.1.orders.lookup id = if id ∈ l then none else r.1.orders.lookup id) ∧
      r'.1.pegged = r.1.pegged.filter (· ∉ l) ∧ (∀ s, r'.1.ladder s = r.1.ladder s) ∧
      r'.1.events = r.1.events ∧ r'.1.requeued = r.1.requeued ∧ r'.1.frame = r.1.frame := by
  induction l generalizing r with
  | nil => simp
  | cons a l ih =>
    obtain ⟨hal, hl⟩ := List.nodup_cons.1 hl
    obtain ⟨e, he⟩ := Option.isSome_iff_exists.1 (hmem a (by simp))
    have hstep : evictOrder r a = ((r.1.unpeg a).eraseEntry a, r.2 ++ [e.order]) := by
      simp [evictOrder, he]
    have hmem' : ∀ id ∈ l, ((evictOrder r a).1.orders.lookup id).isSome = true := by
      intro id hid
      have hne : id ≠ a := fun h => hal (h ▸ hid)
      simpa [hstep, Map.lookup_erase_eq, hne] using hmem id (by simp [hid])
    obtain ⟨h1, h2, h3, h4, h5, h6⟩ := ih hl hmem'
    refine ⟨fun id => ?_, ?_, fun s => ?_, ?_, ?_, ?_⟩
    · rw [List.foldl_cons, h1]
      by_cases hid : id = a
      · simp [hstep, hid, Map.lookup_erase_eq]
      · simp [hstep, hid]
    · rw [List.foldl_cons, h2, hstep]
      simp only [eraseEntry_keeps, unpeg_keeps, List.filter_filter]
      refine List.filter_congr fun id _ => ?_
      by_cases hid : id = a <;> simp [hid]
    · rw [List.foldl_cons, h3, hstep]
      simp
    · rw [List.foldl_cons, h4, hstep]
      simp
    · rw [List.foldl_cons, h5, hstep]
      simp
    · rw [List.foldl_cons, h6, hstep]
      simp

/-- Eviction empties a level, or there is nothing to evict. -/
lemma evictWorst_spec (hb : b.view.Sound) (s : Side) (ev : List Order) :
    let r := b.evictWorst s ev
    (r.1.view = b.view ∨ ∃ p, (b.ladder s).worstPrice = some p ∧ r.1.view = b.view.evict s p) ∧
      r.1.events = b.events ∧ r.1.requeued = b.requeued ∧ r.1.frame = b.frame := by
  unfold evictWorst
  cases hw : (b.ladder s).worstPrice with
  | none => exact ⟨.inl rfl, rfl, rfl, rfl⟩
  | some wp =>
    by_cases hc : (b.ladder s).Covers wp
    · have hfifo : ((b.ladder s).level wp).fifo = b.view.queue s wp := rfl
      have hfold := evictOrder_foldl (r := (b, ev)) (hb.nodup s wp) (by
        intro id hid
        obtain ⟨e, he, -⟩ := (hb.mem_queue s wp id).1 hid
        exact Option.isSome_iff_exists.2 ⟨e, he⟩)
      simp only [Ladder.at?_of_covers hc, hfifo]
      generalize (b.view.queue s wp).foldl evictOrder (b, ev) = r at hfold
      obtain ⟨h1, h2, h3, h4, h5, h6⟩ := hfold
      have hc' : (r.1.ladder s).Covers wp := by rw [h3]; exact hc
      refine ⟨.inr ⟨wp, rfl, ?_⟩, by simp [h4], by simp [h5], by simp [h6]⟩
      refine view_eq (fun t q => ?_) (fun id => ?_) ?_
      · simp only [noteDeep_keeps]
        rw [level_setLadder_of_eq (fun p => Ladder.level_onRemoved _ _ _),
          level_modifyLevel hc', h3]
        simp only [View.evict, view, level]
        split_ifs <;> rfl
      · simp only [view, noteDeep_keeps, setLadder_keeps, modifyLevel_keeps, h1]
        rfl
      · simp only [view, noteDeep_keeps, setLadder_keeps, modifyLevel_keeps, h2]
        rfl
    · simp [Ladder.at?, hc]

end Views

/-! ### Evolution -/

/-- The mutations `ms` lead from the book `b` to the book `b'`, which has logged
their events and re-queued orders. -/
structure Evolves (b : Book) (ms : List Mut) (b' : Book) : Prop where
  run : View.Run b.view ms b'.view
  events : b'.events = b.events ++
    if b.eventSink = true then ms.flatMap (Mut.events b.symbol) else []
  requeued : b'.requeued = b.requeued ++ ms.flatMap Mut.requeued
  settings : b'.settings = b.settings
  windowed : b.memLevels = 0 → ∀ m ∈ ms, ¬ m.Windowed

section Evolution

variable {b b' b'' : Book} {ms ms' : List Mut}

/-- Nothing happens to the resting orders. -/
lemma Evolves.of_view (hv : b'.view = b.view) (he : b'.events = b.events)
    (hr : b'.requeued = b.requeued) (hs : b'.settings = b.settings) : Evolves b [] b' :=
  ⟨hv ▸ .nil _, by simp [he], by simp [hr], hs, by simp⟩

lemma Evolves.refl (b : Book) : Evolves b [] b := .of_view rfl rfl rfl rfl

lemma Evolves.symbol (h : Evolves b ms b') : b'.symbol = b.symbol :=
  congrArg Settings.symbol h.settings

lemma Evolves.eventSink (h : Evolves b ms b') : b'.eventSink = b.eventSink :=
  congrArg Settings.eventSink h.settings

lemma Evolves.memLevels (h : Evolves b ms b') : b'.memLevels = b.memLevels :=
  congrArg Settings.memLevels h.settings

lemma Evolves.stp (h : Evolves b ms b') : b'.stp = b.stp := congrArg Settings.stp h.settings

lemma Evolves.trans (h : Evolves b ms b') (h' : Evolves b' ms' b'') :
    Evolves b (ms ++ ms') b'' := by
  refine ⟨h.run.append h'.run, ?_, ?_, h'.settings.trans h.settings, ?_⟩
  · rw [h'.events, h.events, h.symbol, h.eventSink]
    split_ifs <;> simp
  · rw [h'.requeued, h.requeued]
    simp
  · exact fun h0 => List.forall_mem_append.2
      ⟨h.windowed h0, h'.windowed (h.memLevels.trans h0)⟩

lemma Evolves.sound (h : Evolves b ms b') (hb : b.view.Sound) : b'.view.Sound :=
  h.run.sound hb

/-- One mutation. -/
lemma Evolves.single {m : Mut} (hm : m.Ok b.view) (hv : b'.view = m.apply b.view)
    (he : b'.events = b.events ++ if b.eventSink = true then m.events b.symbol else [])
    (hr : b'.requeued = b.requeued ++ m.requeued) (hf : b'.frame = b.frame)
    (hw : b.memLevels = 0 → ¬ m.Windowed) : Evolves b [m] b' :=
  ⟨hv ▸ .single hm, by simpa using he, by simpa using hr, congrArg Frame.settings hf,
    by simpa using hw⟩

/-- A sound book covers the price of every resting order. -/
lemma covers_of_entry (hb : b.view.Sound) {id : OrderId} {e : Entry}
    (he : b.orders.lookup id = some e) : (b.ladder e.order.side).Covers e.order.price :=
  covers_of_mem ((hb.mem_queue _ _ id).2 ⟨e, he, rfl, rfl⟩)

lemma evolves_stpRemove (hb : b.view.Sound) {me : Entry}
    (he : b.orders.lookup me.order.id = some me) :
    Evolves b [.remove me] (b.stpRemove me.order.side me.order.price me.order.id me) ∧
      (b.stpRemove me.order.side me.order.price me.order.id me).frame = b.frame := by
  have hf : (b.stpRemove me.order.side me.order.price me.order.id me).frame = b.frame := by
    simp [stpRemove, emitEvent]
  refine ⟨.single he (view_stpRemove (covers_of_entry hb he)) ?_ ?_ hf (fun _ => id), hf⟩
  · simp only [stpRemove, unpeg_keeps, eraseEntry_keeps, modifyLevel_keeps,
      events_emitEvent, releaseReserved_keeps]
    rfl
  · simp [stpRemove, emitEvent, Mut.requeued]

lemma evolves_removeResting (hb : b.view.Sound) {e : Entry}
    (he : b.orders.lookup e.order.id = some e) :
    Evolves b [.remove e] (b.removeResting e.order.id e) ∧
      (b.removeResting e.order.id e).frame = b.frame := by
  have hf : (b.removeResting e.order.id e).frame = b.frame := by
    simp [removeResting, emitEvent]
  refine ⟨.single he (view_removeResting (covers_of_entry hb he)) ?_ ?_ hf (fun _ => id), hf⟩
  · simp only [removeResting, eraseEntry_keeps, unlink_keeps, releaseReserved_keeps,
      events_emitEvent, unpeg_keeps]
    rfl
  · simp [removeResting, emitEvent, Mut.requeued]

lemma evolves_movePegged (hb : b.view.Sound) {e : Entry}
    (he : b.orders.lookup e.order.id = some e) (p : ℤ) :
    Evolves b [.move e p b.nextSeq] (b.movePegged e.order.id e p) ∧
      (b.movePegged e.order.id e p).frame = b.frame := by
  have hf : (b.movePegged e.order.id e p).frame = b.frame := by
    simp [movePegged, emitReprice]
  refine ⟨.single he (view_movePegged (covers_of_entry hb he) p) ?_ ?_ hf (fun _ => id), hf⟩
  · simp only [movePegged, events_emitReprice, setEntry_keeps, requeue_keeps, setLadder_keeps,
      modifyLevel_keeps, unlink_keeps]
    rfl
  · simp only [movePegged, emitReprice, emit_keeps, setEntry_keeps, requeue_keeps,
      setLadder_keeps, modifyLevel_keeps, unlink_keeps]
    rfl

lemma events_recordFill (b : Book) (s : Side) (p : ℤ) (o : Order) (mid : OrderId) (me : Entry)
    (q : ℤ) : (b.recordFill s p o mid me q).events = b.events ++
      if b.frame.settings.eventSink = true then
        [Trade.event b.frame.settings.symbol ⟨o.id, mid, o.side, p, q⟩
          (if me.order.flags.hidden = true then 0 else q)] else [] := by
  simp only [recordFill, releaseReserved_keeps, applyPosition_keeps, modifyLevel_keeps,
    setLast_keeps, events_emitTrade]

lemma fillMaker_logs (b : Book) (s : Side) (p : ℤ) (o : Order) (mid : OrderId) (me : Entry)
    (rest : List OrderId) (hs : p = me.order.price) (hm : mid = me.order.id) :
    let b' := (b.fillMaker s p o mid me rest).1
    let m := Mut.fill o me (min o.leaves (exposed me)) b.nextSeq
    b'.frame = b.frame ∧ b'.requeued = b.requeued ++ m.requeued ∧
      b'.events = b.events ++ if b.frame.settings.eventSink = true then
        m.events b.frame.settings.symbol else [] := by
  subst hs hm
  intro b' m
  simp only [b', m]
  by_cases h0 : me.order.leaves - min o.leaves (exposed me) = 0
  · have h1 : ¬ Mut.Replenishes me (min o.leaves (exposed me)) := fun h => h.1 h0
    rw [fillMaker_of_exhausted _ _ _ _ _ _ h0]
    simp [Mut.requeued, Mut.events, h1, events_recordFill]
  by_cases h1 : Mut.Replenishes me (min o.leaves (exposed me))
  · rw [fillMaker_of_replenishes _ _ _ _ _ _ h1]
    refine ⟨by simp [replenish, emitEvent], ?_, ?_⟩
    · simp [replenish, emitEvent, Mut.requeued, h1, Entry.replenished]
    · simp only [replenish, events_emitEvent, setEntry_keeps, requeue_keeps, modifyLevel_keeps,
        recordFill_keeps, events_recordFill, Mut.events, if_pos h1]
      by_cases hsink : b.frame.settings.eventSink = true
      · simp only [if_pos hsink, List.append_assoc]
        rfl
      · simp [hsink]
  · rw [fillMaker_of_kept _ _ _ _ _ _ h0 h1]
    simp [Mut.requeued, Mut.events, h1, events_recordFill]

lemma evolves_fillMaker (hb : b.view.Sound) {o : Order} {me : Entry}
    (he : b.orders.lookup me.order.id = some me) (ho : 0 < o.leaves)
    (hside : me.order.side = o.side.opposite) (hacc : acceptable o me.order.price = true)
    (rest : List OrderId) :
    let b' := (b.fillMaker me.order.side me.order.price o me.order.id me rest).1
    Evolves b [.fill o me (min o.leaves (exposed me)) b.nextSeq] b' ∧ b'.frame = b.frame := by
  have hok := hb.entry_ok _ _ he
  have hexp := hok.exposed_pos
  obtain ⟨hf, hr, hev⟩ := fillMaker_logs b me.order.side me.order.price o me.order.id me rest
    rfl rfl
  exact ⟨.single ⟨he, by omega, min_le_right _ _, min_le_left _ _, hside, hacc⟩
    (view_fillMaker hok (covers_of_entry hb he) o rest) hev hr hf (fun _ => id), hf⟩

@[simp] lemma place_keeps (b : Book) (o : Order) :
    (b.place o).pegged = b.pegged ∧ (b.place o).events = b.events ∧
      (b.place o).requeued = b.requeued ∧ (b.place o).nextSeq = b.nextSeq ∧
      (b.place o).frame = b.frame := by
  simp [place]

lemma view_of_keeps (hl : ∀ s, b'.ladder s = b.ladder s) (ho : b'.orders = b.orders)
    (hp : b'.pegged = b.pegged) : b'.view = b.view := by
  simp only [view, level, hl, ho, hp]

lemma view_place_reserve {o : Order} (h : b.orders.lookup o.id = none) :
    ((b.place o).reserveResting o).view = b.view.link ⟨o, sliceOf o⟩ := by
  rw [← view_place h]
  exact view_of_keeps (by simp) (by simp) (by simp)

/-- An order that may rest. -/
def Restable (o : Order) : Prop := 0 < o.leaves ∧ 0 < o.displayQty

lemma Restable.entry_ok {o : Order} (h : Restable o) : Entry.Ok ⟨o, sliceOf o⟩ := by
  obtain ⟨hl, hd⟩ := h
  refine ⟨hl, fun hi => ?_, fun hi => ?_, fun _ => hd⟩
  · simp only [sliceOf, if_pos hi]
    omega
  · simp only [sliceOf, if_pos hi]
    omega

/-- An order that opens a level adds one to the count of the populated ones. -/
lemma populatedCount_place {o : Order} (ho : 0 < o.leaves)
    (hnew : (b.level o.side o.price).total = 0) :
    ((b.place o).ladder o.side).populatedCount =
      (if (b.ladder o.side).hasBase = true then (b.ladder o.side).populatedCount else 0) + 1 := by
  have hl : ((b.place o).ladder o.side) =
      (((b.ladder o.side).touch o.price).modify o.price fun lvl =>
        { total := lvl.total + o.leaves,
          displayed := lvl.displayed + displayedOf o.flags o.leaves (sliceOf o),
          fifo := lvl.fifo ++ [o.id] }).onAdded o.price := by
    simp [place, modifyLevel]
  rw [hl, Ladder.populatedCount_onAdded, Ladder.populatedCount_modify (Ladder.covers_touch _ _)]
  · split_ifs with hb
    · rw [Ladder.populatedCount_touch hb]
    · rw [Ladder.populatedCount_touch_empty (by simpa using hb)]
  · rw [Ladder.Populated, Ladder.level_touch, ← level, hnew]
    simp
  · rw [Ladder.level_touch, ← level, hnew]
    simpa using ho

/-- The level an order opens in a full window is not the one evicted for it. -/
lemma worstPrice_place_ne {o : Order} (ho : 0 < o.leaves)
    (hm : b.memLevels ≠ 0) (hnew : (b.level o.side o.price).total = 0)
    (hwin : b.beyondWindow o = false)
    (hcount : b.memLevels < ((b.place o).ladder o.side).populatedCount) :
    ((b.place o).ladder o.side).worstPrice ≠ some o.price := by
  intro hw
  obtain ⟨hpop, hbest⟩ := Ladder.worstPrice_eq_some hw
  have hsame : ∀ q, q ≠ o.price →
      (((b.place o).ladder o.side).Populated q ↔ (b.ladder o.side).Populated q) := by
    intro q hq
    simp [Ladder.Populated, level_place, hq]
  have hbase := (Ladder.covers_of_populated hpop).1
  obtain ⟨q, hq, hqne⟩ := Ladder.exists_populated_ne hbase (by omega) o.price
  rw [populatedCount_place ho hnew] at hcount
  cases hworst : (b.ladder o.side).worstPrice with
  | none => exact Ladder.worstPrice_eq_none hworst q ((hsame q hqne).1 hq)
  | some w =>
    obtain ⟨hwpop, -⟩ := Ladder.worstPrice_eq_some hworst
    have hwne : w ≠ o.price := by
      rintro rfl
      rw [Ladder.Populated, ← level, hnew] at hwpop
      exact absurd hwpop (lt_irrefl 0)
    have hworse : worseThan o.side o.price w = true := by
      have := hbest w ((hsame w hwne).2 hwpop) hwne
      revert this
      cases o.side <;> exact id
    rw [if_pos (Ladder.covers_of_populated hwpop).1] at hcount
    have : b.beyondWindow o = true := by
      simp only [beyondWindow, hworst, hworse, Bool.and_true, decide_eq_true_eq]
      omega
    rw [this] at hwin
    exact absurd hwin (by simp)

/-- An order that rests joins its level, or goes beyond the window; a level may be
evicted for it, which is not its own. -/
lemma evolves_rest (hb : b.view.Sound) {o : Order} (hnew : b.orders.lookup o.id = none)
    (ho : Restable o) (ev : List Order) :
    let r := b.rest o ev
    r.1.frame = b.frame ∧
      ((r.2.1 = true ∧ r.1.orders.lookup o.id = some ⟨o, sliceOf o⟩ ∧
        ∃ ms, Evolves b (.rest ⟨o, sliceOf o⟩ :: ms) r.1 ∧ ∀ m ∈ ms, m.Windowed) ∨
      (r.2.1 = false ∧ b.memLevels ≠ 0 ∧ Evolves b [.restDeep o] r.1)) := by
  have hin : (b.view.link ⟨o, sliceOf o⟩).entry o.id = some ⟨o, sliceOf o⟩ := by simp [View.link]
  unfold rest
  dsimp only
  split_ifs with h1 h2
  · -- beyond the window
    refine ⟨by simp [emitEvent], .inr ⟨rfl, h1.1, ?_⟩⟩
    refine .single ⟨hnew, ho.1⟩ (view_of_keeps (by simp [emitEvent]) (by simp [emitEvent])
      (by simp [emitEvent])) ?_ (by simp [emitEvent, Mut.requeued]) (by simp [emitEvent])
      (fun h => absurd h h1.1)
    simp only [events_emitEvent, noteDeep_keeps]
    rfl
  · -- a level is evicted
    set b₁ := (b.place o).reserveResting o with hb₁
    have hv₁ : b₁.view = b.view.link ⟨o, sliceOf o⟩ := view_place_reserve hnew
    have hf₁ : b₁.frame = b.frame := by simp [hb₁]
    have hm₁ : b₁.memLevels = b.memLevels := congrArg (fun f => f.settings.memLevels) hf₁
    have hlad : b₁.ladder o.side = (b.place o).ladder o.side := by simp [hb₁]
    have hs₁ : b₁.view.Sound := by
      rw [hv₁]
      exact hb.link hnew ho.entry_ok
    obtain ⟨hv, hev, hrq, hf⟩ := evictWorst_spec hs₁ o.side ev
    generalize b₁.evictWorst o.side ev = r at hv hev hrq hf
    rw [hm₁, hlad] at h2
    have hview : (r.1.emitEvent .add o o.leaves (displayedOf o.flags o.leaves (sliceOf o))).view
        = r.1.view :=
          view_of_keeps (by simp [emitEvent]) (by simp [emitEvent]) (by simp [emitEvent])
    have hfr : (r.1.emitEvent .add o o.leaves (displayedOf o.flags o.leaves (sliceOf o))).frame
        = b.frame := by simp [emitEvent, hf, hf₁]
    have hevents : (r.1.emitEvent .add o o.leaves (displayedOf o.flags o.leaves (sliceOf o))).events
        = b.events ++ if b.eventSink = true then
            Mut.events b.symbol (.rest ⟨o, sliceOf o⟩) else [] := by
      rw [events_emitEvent, hf, hf₁, hev, hb₁]
      simp only [reserveResting_keeps, place_keeps]
      rfl
    have hreq : (r.1.emitEvent .add o o.leaves (displayedOf o.flags o.leaves (sliceOf o))).requeued
        = b.requeued := by simp [emitEvent, hrq, hb₁]
    have hentry : (r.1.emitEvent .add o o.leaves
        (displayedOf o.flags o.leaves (sliceOf o))).orders.lookup o.id = r.1.view.entry o.id :=
      congrArg (fun v : View => v.entry o.id) hview
    refine ⟨hfr, .inl ⟨rfl, ?_⟩⟩
    rw [hentry]
    rcases hv with hv | ⟨p, hp, hv⟩
    · refine ⟨by rw [hv, hv₁, hin], [], ⟨?_, by simpa using hevents,
        by simpa [Mut.requeued] using hreq, congrArg Frame.settings hfr,
        fun h0 => absurd h0 h2.1⟩, by simp⟩
      rw [hview, hv, hv₁]
      exact .single ⟨hnew, ho.entry_ok⟩
    · refine ⟨?_, [.evict o.side p], ⟨?_, by simpa [Mut.events] using hevents,
        by simpa [Mut.requeued] using hreq, congrArg Frame.settings hfr,
        fun h0 => absurd h0 h2.1⟩, by simp [Mut.Windowed]⟩
      · have hlvl : (b.level o.side o.price).total = 0 := by simpa [h2.1] using h2.2.1
        have hwin : b.beyondWindow o = false := by
          by_contra hw
          exact h1 ⟨h2.1, h2.2.1, by simpa using hw⟩
        have hnq : o.id ∉ b₁.view.queue o.side p := by
          intro hmem
          obtain ⟨e, he, -, hpr⟩ := (hs₁.mem_queue _ _ _).1 hmem
          rw [hv₁, hin] at he
          obtain rfl := Option.some.inj he
          rw [hlad, ← hpr] at hp
          exact worstPrice_place_ne ho.1 h2.1 hlvl hwin h2.2.2 hp
        rw [hv, View.evict]
        exact (if_neg hnq).trans (hv₁ ▸ hin)
      · rw [hview, hv, hv₁]
        exact .cons ⟨hnew, ho.entry_ok⟩ (.single trivial)
  · -- the window has room
    have hview : (((b.place o).reserveResting o).emitEvent .add o o.leaves
        (displayedOf o.flags o.leaves (sliceOf o))).view = b.view.link ⟨o, sliceOf o⟩ := by
      rw [← view_place hnew]
      exact view_of_keeps (by simp [emitEvent]) (by simp [emitEvent]) (by simp [emitEvent])
    refine ⟨by simp [emitEvent], .inl ⟨rfl,
      (congrArg (fun v : View => v.entry o.id) hview).trans hin, [], ?_, by simp⟩⟩
    refine .single ⟨hnew, ho.entry_ok⟩ hview ?_ (by simp [emitEvent, Mut.requeued])
      (by simp [emitEvent]) (fun _ => id)
    simp only [events_emitEvent, reserveResting_keeps, place_keeps]
    rfl

/-- An order reported resident is in the order map. -/
lemma rest_resident (hb : b.view.Sound) {o : Order} (hnew : b.orders.lookup o.id = none)
    (ho : Restable o) (ev : List Order) (hr : (b.rest o ev).2.1 = true) :
    (b.rest o ev).1.orders.lookup o.id = some ⟨o, sliceOf o⟩ := by
  rcases (evolves_rest hb hnew ho ev).2 with ⟨-, h, -⟩ | ⟨h, -⟩
  · exact h
  · exact absurd (hr.symm.trans h) (by simp)

end Evolution

/-! ### Sums over the resting orders -/

section Lookup

variable {b b' : Book} {e : Entry}

lemma lookup_rest (h : View.Run b.view [.rest e] b'.view) :
    b.orders.lookup e.order.id = none ∧
      ∀ i, b'.orders.lookup i = if i = e.order.id then some e else b.orders.lookup i := by
  obtain ⟨hok, hv⟩ := h.of_single
  exact ⟨hok.1, fun i => congrFun (congrArg View.entry hv) i⟩

lemma lookup_remove (h : View.Run b.view [.remove e] b'.view) :
    b.orders.lookup e.order.id = some e ∧
      ∀ i, b'.orders.lookup i = if i = e.order.id then none else b.orders.lookup i := by
  obtain ⟨hok, hv⟩ := h.of_single
  exact ⟨hok, fun i => congrFun (congrArg View.entry hv) i⟩

lemma lookup_move {p : ℤ} {rank : ℕ} (h : View.Run b.view [.move e p rank] b'.view) :
    b.orders.lookup e.order.id = some e ∧ ∀ i, b'.orders.lookup i
      = if i = e.order.id then some (e.moved p rank) else b.orders.lookup i := by
  obtain ⟨hok, hv⟩ := h.of_single
  refine ⟨hok, fun i => (congrFun (congrArg View.entry hv) i).trans ?_⟩
  simp only [Mut.apply, View.link, View.unlink, Entry.moved]
  split_ifs <;> rfl

lemma lookup_fill {o : Order} {q : ℤ} {rank : ℕ} (h : View.Run b.view [.fill o e q rank] b'.view) :
    b.orders.lookup e.order.id = some e ∧ ∀ i, b'.orders.lookup i
      = if i = e.order.id then Mut.remaining e q rank else b.orders.lookup i := by
  obtain ⟨⟨he, -⟩, hv⟩ := h.of_single
  refine ⟨he, fun i => (congrFun (congrArg View.entry hv) i).trans ?_⟩
  unfold Mut.remaining
  simp only [Mut.apply]
  by_cases h0 : e.order.leaves - q = 0
  · simp only [if_pos h0]
    rfl
  by_cases h1 : Mut.Replenishes e q
  · simp only [if_neg h0, if_pos h1, View.reveal, View.link, View.unlink, Entry.replenished,
      Entry.fill]
    split_ifs <;> rfl
  · simp only [if_neg h0, if_neg h1]
    rfl

end Lookup

section Sums

variable {b b' : Book} {e : Entry} (w : Entry → ℤ)

lemma sumBy_rest (h : View.Run b.view [.rest e] b'.view) :
    Map.sumBy w b'.orders = Map.sumBy w b.orders + w e := by
  obtain ⟨hnone, hupd⟩ := lookup_rest h
  rw [Map.sumBy_update w hupd, hnone]
  simp

lemma sumBy_remove (h : View.Run b.view [.remove e] b'.view) :
    Map.sumBy w b'.orders = Map.sumBy w b.orders - w e := by
  obtain ⟨he, hupd⟩ := lookup_remove h
  rw [Map.sumBy_update w hupd, he]
  simp

lemma sumBy_move {p : ℤ} {rank : ℕ} (h : View.Run b.view [.move e p rank] b'.view) :
    Map.sumBy w b'.orders = Map.sumBy w b.orders - w e + w (e.moved p rank) := by
  obtain ⟨he, hupd⟩ := lookup_move h
  rw [Map.sumBy_update w hupd, he, Option.elim_some, Option.elim_some]

/-- A fill replaces the maker by what is left of it. -/
lemma sumBy_fill {o : Order} {q : ℤ} {rank : ℕ} (h : View.Run b.view [.fill o e q rank] b'.view) :
    Map.sumBy w b'.orders = Map.sumBy w b.orders - w e +
      if e.order.leaves - q = 0 then 0
      else if Mut.Replenishes e q then w ((e.fill q).replenished rank) else w (e.fill q) := by
  obtain ⟨he, hupd⟩ := lookup_fill h
  rw [Map.sumBy_update w hupd, he, Option.elim_some, Mut.remaining]
  split_ifs <;> rfl

lemma sumBy_view (h : b'.view = b.view) : Map.sumBy w b'.orders = Map.sumBy w b.orders :=
  Map.sumBy_congr w fun i => congrFun (congrArg View.entry h) i

end Sums

end Book

end Codicis
