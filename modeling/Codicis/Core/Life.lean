/-
The life of an order inside an operation.

An operation of a book has orders in hand: the order that is submitted, and orders that
waited and are taken up again, as stops that fire, orders of an auction, or children of a
filled parent.  An order in hand is dropped, comes to wait, or gets its turn: then it
fills against resting orders, and what is left of it comes to rest or is dropped.

A `Moment` is the book, the order whose turn it is and the orders in hand.  An order that was
submitted fills against resting orders only when it is admitted (`Admitted`), and what is left of
it comes to rest only when the other side has nothing for it (`Exhausted`), unless it is
all-or-none.

The attributes of an order that the book never changes are its `traits`.
-/
import Codicis.Core.Evolves

namespace Codicis

/-! ### Traits -/

/-- The time in force after normalisation. -/
def Tif.plain : Tif → Tif
  | gtx => gtc
  | fok => ioc
  | t => t

/-- The flags after normalisation. -/
def OrderFlags.withTif (f : OrderFlags) : Tif → OrderFlags
  | .gtx => { f with postOnly := true }
  | .fok => { f with aon := true }
  | _ => f

/-- What the book keeps of an order for good: everything but its price and quantities, its
ranks, its trigger prices and its link.  A pegged order is a limit order. -/
def Order.traits (o : Order) : Order where
  id := o.id
  clientId := o.clientId
  side := o.side
  type := if o.peg.isSome = true then .limit else o.type
  tif := o.tif.plain
  flags := o.flags.withTif o.tif
  minQty := o.minQty
  discretion := o.discretion
  expiryNs := o.expiryNs
  trigger := o.trigger.map fun _ => {}
  peg := o.peg

lemma Order.id_eq_of_traits {o o' : Order} (h : o.traits = o'.traits) : o.id = o'.id := by
  have hid : o.traits.id = o'.traits.id := by rw [h]
  exact hid

lemma Order.clientId_eq_of_traits {o o' : Order} (h : o.traits = o'.traits) :
    o.clientId = o'.clientId := by
  have hclient : o.traits.clientId = o'.traits.clientId := by rw [h]
  exact hclient

section Traits

variable (o : Order)

lemma Order.traits_takeFill (q : ℤ) : (Book.takeFill o q).traits = o.traits := rfl

lemma Order.traits_normalizeTif : o.normalizeTif.traits = o.traits := by
  cases h : o.tif <;> simp [traits, normalizeTif, h, Tif.plain, OrderFlags.withTif]

lemma Order.traits_normalize : o.normalize.traits = o.traits := by
  rw [← o.traits_normalizeTif]
  unfold normalize
  dsimp only
  split_ifs <;> rfl

lemma Order.traits_stamp (b : Book) : (b.stamp o).traits = o.traits := o.traits_normalize

lemma Order.traits_trigger (t : Option TriggerSpec) (h : t.isSome = o.trigger.isSome) :
    ({ o with trigger := t } : Order).traits = o.traits := by
  have ht : (t.map fun _ => ({} : TriggerSpec)) = o.trigger.map fun _ => {} := by
    cases t <;> cases ho : o.trigger <;> simp_all
  simp only [traits, ht]

lemma Order.traits_markTriggered : (Book.markTriggered o).traits = o.traits :=
  o.traits_trigger _ (by simp)

lemma Order.traits_armStop (b : Book) : (b.armStop o).traits = o.traits := by
  unfold Book.armStop
  cases ht : o.trigger with
  | none => rfl
  | some t =>
    dsimp only
    by_cases hk : t.kind = .stop
    · rw [if_pos hk]
    · rw [if_neg hk]
      exact o.traits_trigger _ (by simp [ht])

lemma Order.traits_updateTrail (px : ℤ) : (Book.updateTrail px o).traits = o.traits := by
  unfold Book.updateTrail
  cases ht : o.trigger with
  | none => rfl
  | some t =>
    dsimp only
    (repeat' split) <;> first | rfl | exact o.traits_trigger _ (by simp [ht])

lemma Order.traits_capReduceOnly (cap : ℤ) : (Book.capReduceOnly o cap).traits = o.traits := by
  unfold Book.capReduceOnly
  split_ifs <;> rfl

lemma Order.traits_peg (h : o.peg.isSome = true) (p : ℤ) :
    ({ o with type := .limit, price := p } : Order).traits = o.traits := by
  simp [traits, h]

end Traits

/-- The order has been normalised. -/
def Order.Normal (o : Order) : Prop := o.tif.plain = o.tif

lemma Order.normal_normalize (o : Order) : o.normalize.Normal := by
  unfold Normal normalize normalizeTif
  cases h : o.tif <;> (dsimp only; split_ifs <;> simp [Tif.plain, h])

/-- A property of orders that the book cannot change. -/
structure Stable (Q : Order → Prop) : Prop where
  traits : ∀ x y : Order, x.traits = y.traits → Q x → Q y
  clear : ∀ x : Order, Q x → Q { x with flags := x.flags.clearAuction }

/-! ### Positions -/

namespace Book

section Positions

variable {b b' : Book}

lemma positions_applyPosition_congr (h : b.positions = b'.positions) (c : ClientId) (s : Side)
    (q : ℤ) : (b.applyPosition c s q).positions = (b'.applyPosition c s q).positions := by
  unfold applyPosition
  split_ifs
  · exact h
  · simp only [h]

lemma positions_releaseReserved_congr (h : b.positions = b'.positions) (o : Order) (q : ℤ) :
    (b.releaseReserved o q).positions = (b'.releaseReserved o q).positions := by
  unfold releaseReserved
  rw [h]
  split_ifs
  · exact h
  · cases b'.positions.lookup o.clientId with
    | none => exact h
    | some p => rfl

lemma positions_reserveResting_congr (h : b.positions = b'.positions) (o : Order) :
    (b.reserveResting o).positions = (b'.reserveResting o).positions := by
  unfold reserveResting
  rw [h]
  split_ifs
  · rfl
  · exact h

lemma positions_recordFill (s : Side) (p : ℤ) (o : Order) (mid : OrderId) (me : Entry) (q : ℤ) :
    (b.recordFill s p o mid me q).positions =
      (((b.applyPosition o.clientId o.side q).applyPosition me.order.clientId me.order.side
        q).releaseReserved me.order q).positions :=
  positions_releaseReserved_congr (positions_applyPosition_congr
    (positions_applyPosition_congr (by simp [emitTrade]) _ _ _) _ _ _) _ _

/-- A fill changes the positions of both accounts. -/
lemma positions_fillMaker (s : Side) (p : ℤ) (o : Order) (mid : OrderId) (me : Entry)
    (rest : List OrderId) :
    (b.fillMaker s p o mid me rest).1.positions =
      (((b.applyPosition o.clientId o.side (min o.leaves (exposed me))).applyPosition
        me.order.clientId me.order.side (min o.leaves (exposed me))).releaseReserved me.order
          (min o.leaves (exposed me))).positions := by
  rw [← positions_recordFill s p o mid]
  unfold fillMaker
  dsimp only
  split_ifs <;> simp [replenish, emitEvent]

lemma positions_stpRemove (s : Side) (p : ℤ) (mid : OrderId) (me : Entry) :
    (b.stpRemove s p mid me).positions
      = (b.releaseReserved me.order me.order.leaves).positions := by
  simp only [stpRemove, emitEvent, unpeg_keeps, eraseEntry_keeps, modifyLevel_keeps, emit_keeps]
  exact positions_releaseReserved_congr (by simp) _ _

lemma positions_removeResting (id : OrderId) (e : Entry) :
    (b.removeResting id e).positions
      = (b.releaseReserved e.order e.order.leaves).positions := by
  simp only [removeResting, emitEvent, eraseEntry_keeps, unlink_keeps]
  exact positions_releaseReserved_congr (by simp) _ _

lemma positions_movePegged (id : OrderId) (e : Entry) (p : ℤ) :
    (b.movePegged id e p).positions = b.positions := by
  simp [movePegged, emitReprice]

/-- In an unbounded book a reduce-only order that rests is reserved. -/
lemma positions_rest (hm : b.memLevels = 0) (o : Order) (ev : List Order) :
    (b.rest o ev).1.positions = (b.reserveResting o).positions := by
  have hm' : ((b.place o).reserveResting o).memLevels = 0 := by
    have hf : ((b.place o).reserveResting o).frame = b.frame := by simp [place]
    exact (congrArg (fun f => f.settings.memLevels) hf).trans hm
  have hpos : ((b.place o).reserveResting o).positions = (b.reserveResting o).positions :=
    positions_reserveResting_congr (by simp [place]) o
  simp [rest, hm, hm', emitEvent, hpos]

end Positions

end Book

/-! ### The orders that wait -/

/-- The children of a group that wait for its parent to fill. -/
def Group.children (g : Group) : List Order := g.pendingChild.toList ++ g.pendingOco

/-- The children that all groups hold. -/
def Frame.held (f : Frame) : List Order := f.groups.pairs.flatMap fun g => g.2.children

/-- The orders that wait outside the ladders. -/
def Frame.waiting (f : Frame) : List Order :=
  f.stops.pairs.map Prod.snd ++ (f.openingAuction ++ (f.closingAuction ++ f.held))

namespace Book

/-- The order is to be held by its group. -/
def isChild (o : Order) : Bool :=
  match o.link with
  | none => false
  | some l =>
    match l.role with
    | .otoChild | .bracketTakeProfit | .bracketStopLoss => true
    | _ => false

/-- Neither the resting orders nor the positions change, and nothing is announced. -/
structure Quiet (b b' : Book) : Prop where
  view : b'.view = b.view
  settings : b'.settings = b.settings
  positions : b'.positions = b.positions
  events : b'.events = b.events
  requeued : b'.requeued = b.requeued

lemma Quiet.evolves {b b' : Book} (h : Quiet b b') : Evolves b [] b' :=
  .of_view h.view h.events h.requeued h.settings

/-- Whatever waits in `b'` waited in `b`, or is the order `x`, where it belongs. -/
structure Grows (b : Book) (x : Order) (b' : Book) : Prop where
  stops : ∀ id y, b'.stops.lookup id = some y →
    b.stops.lookup id = some y ∨ (y = x ∧ awaitsTrigger x = true)
  opening : ∀ y ∈ b'.openingAuction,
    y ∈ b.openingAuction ∨ (y = x ∧ isOpeningAuction x.flags = true)
  closing : ∀ y ∈ b'.closingAuction,
    y ∈ b.closingAuction ∨ (y = x ∧ isClosingAuction x.flags = true)
  held : ∀ y ∈ b'.frame.held, y ∈ b.frame.held ∨ (y = x ∧ isChild x = true)

/-- A resting order that a fill of the aggressor must leave alone. -/
def Blocked (b : Book) (o : Order) (id : OrderId) : Prop :=
  ∃ e, b.orders.lookup id = some e ∧ e.order.flags.aon = true ∧ o.leaves < e.order.leaves

/-- The other side has nothing for the order but all-or-none orders that are too large. -/
def Exhausted (b : Book) (o : Order) : Prop :=
  ∀ p, acceptable o p = true → ∀ id ∈ (b.level o.side.opposite p).fifo, b.Blocked o id

/-- What is known of an order that was submitted when it may fill. -/
structure Admitted (b : Book) (x : Order) : Prop where
  normal : x.Normal
  postOnly : x.flags.postOnly = true → ∀ p, acceptable x p = true →
    (b.level x.side.opposite p).fifo = []
  reduceOnly : x.flags.reduceOnly = true → x.clientId ≠ 0 ∧ x.leaves ≤ b.reduceOnlyCapacity x
  unpegged : x.peg = none

/-- The mutations by which the order `x` comes to rest, in memory or beyond the window. -/
def RestsAs (b : Book) (x : Order) (tail : List Mut) : Prop :=
  (∃ win, tail = .rest ⟨x, sliceOf x⟩ :: win ∧ ∀ m ∈ win, m.Windowed) ∨
    (b.memLevels ≠ 0 ∧ tail = [.restDeep x])

end Book

/-! ### Moments -/

/-- How an order got in hand.  A submitted order that is to be matched has entered. -/
inductive Route
  | submitted
  | entered
  | triggered
  | auctioned
deriving DecidableEq

/-- An order in hand. -/
structure Active where
  order : Order
  route : Route

/-- A moment inside an operation: the book, the order whose turn it is, and the orders in
hand. -/
structure Moment where
  book : Book
  turn : Option Active
  hand : List Active

lemma Frame.mem_waiting {f : Frame} {x : Order} : x ∈ f.waiting ↔
    (∃ id, f.stops.lookup id = some x) ∨ x ∈ f.openingAuction ∨ x ∈ f.closingAuction ∨
      x ∈ f.held := by
  have hstops : x ∈ f.stops.pairs.map Prod.snd ↔ ∃ id, f.stops.lookup id = some x := by
    simp only [List.mem_map, Prod.exists, exists_eq_right, Map.mem_pairs]
  simp only [waiting, List.mem_append, hstops]

lemma Book.Grows.waiting {b b' : Book} {o : Order} (h : b.Grows o b') {x : Order}
    (hx : x ∈ b'.frame.waiting) : x ∈ b.frame.waiting ∨ x = o := by
  rcases Frame.mem_waiting.1 hx with ⟨id, hx⟩ | hx | hx | hx
  · exact (h.stops id x hx).imp (fun hx => Frame.mem_waiting.2 (.inl ⟨id, hx⟩)) And.left
  · exact (h.opening x hx).imp (fun hx => Frame.mem_waiting.2 (.inr (.inl hx))) And.left
  · exact (h.closing x hx).imp (fun hx => Frame.mem_waiting.2 (.inr (.inr (.inl hx)))) And.left
  · exact (h.held x hx).imp (fun hx => Frame.mem_waiting.2 (.inr (.inr (.inr hx)))) And.left

/-- A relation of moments and mutations that holds of a run when it holds of its parts. -/
structure Composes (R : Moment → List Mut → Moment → Prop) : Prop where
  nil : ∀ m, R m [] m
  append : ∀ {m m' m'' : Moment} {ms ms' : List Mut}, R m ms m' → R m' ms' m'' →
    R m (ms ++ ms') m''

/-- What holds of every mutation. -/
lemma composes_forall (P : Mut → Prop) : Composes fun _ ms _ => ∀ x ∈ ms, P x where
  nil m := by simp
  append h h' x hx := (List.mem_append.1 hx).elim (h x) (h' x)

end Codicis
