/-
The state of an order book and its elementary operations (`OrderBook::Impl` of
`core/order_book.cc`).

The iterator an entry keeps into the queue of its level is the position of its
identifier there, so an entry is the order and its iceberg slice.  `events` is
the log of what the installed sink has received.
-/
import Codicis.Core.Ladder
import Codicis.Lib.Map

namespace Codicis

/-- A resting order. -/
structure Entry where
  order : Order
  /-- What remains of the visible slice of an iceberg. -/
  slice : ℤ := 0
deriving DecidableEq, Repr

/-- A contingent group (OCO, OTO or bracket). -/
structure Group where
  parent : OrderId := 0
  ocoLegs : List OrderId := []
  pendingChild : Option Order := none
  pendingOco : List Order := []
deriving DecidableEq, Repr

/-- The risk state of an account: its signed position, and the leaves of its
resting reduce-only orders on either side. -/
structure Position where
  net : ℤ := 0
  reservedSell : ℤ := 0
  reservedBuy : ℤ := 0
deriving DecidableEq, Repr

/-- Summary of the liquidity of one side beyond the resident window. -/
structure Deep where
  has : Bool := false
  boundary : ℤ := 0
deriving DecidableEq, Repr

/-- An order book. -/
structure Book where
  bids : Ladder .buy := {}
  asks : Ladder .sell := {}
  orders : Map OrderId Entry := ∅
  stops : Map OrderId Order := ∅
  pegged : List OrderId := []
  groups : Map ℕ Group := ∅
  orderGroup : Map OrderId ℕ := ∅
  positions : Map ClientId Position := ∅
  openingAuction : List Order := []
  closingAuction : List Order := []
  memLevels : ℕ := 0
  deepBid : Deep := {}
  deepAsk : Deep := {}
  nextSeq : ℕ := 1
  stp : StpPolicy := .none
  haveLast : Bool := false
  lastPrice : ℤ := 0
  symbol : Symbol := ""
  eventSink : Bool := false
  events : List BookEvent := []
  requeued : List Order := []

/-- The displayed contribution of a resting order. -/
def displayedOf (flags : OrderFlags) (leaves slice : ℤ) : ℤ :=
  if flags.hidden = true then 0 else if flags.iceberg = true then slice else leaves

/-- The visible slice of an order that joins a level. -/
def sliceOf (o : Order) : ℤ := if o.flags.iceberg = true then min o.displayQty o.leaves else 0

/-- The flags select the opening auction. -/
def isOpeningAuction (f : OrderFlags) : Bool := f.moo || f.loo || f.opg

/-- The flags select the closing auction. -/
def isClosingAuction (f : OrderFlags) : Bool := f.moc || f.loc

/-- Clear all auction flags. -/
def OrderFlags.clearAuction (f : OrderFlags) : OrderFlags :=
  { f with moo := false, loo := false, moc := false, loc := false, opg := false }

/-- Add to the reserved reduce-only leaves resting on a side. -/
def Position.reserve (p : Position) (s : Side) (q : ℤ) : Position :=
  match s with
  | .sell => { p with reservedSell := p.reservedSell + q }
  | .buy => { p with reservedBuy := p.reservedBuy + q }

namespace Book

/-- The ladder of side `s`. -/
def ladder (b : Book) : (s : Side) → Ladder s
  | .buy => b.bids
  | .sell => b.asks

/-- Replace the ladder of side `s`. -/
def setLadder (b : Book) : (s : Side) → Ladder s → Book
  | .buy, L => { b with bids := L }
  | .sell, L => { b with asks := L }

/-- The level at a side and price. -/
def level (b : Book) (s : Side) (p : ℤ) : Level := (b.ladder s).level p

/-- Write to the level at a covered price. -/
def modifyLevel (b : Book) (s : Side) (p : ℤ) (f : Level → Level) : Book :=
  b.setLadder s ((b.ladder s).modify p f)

/-- Re-stamp the rank of an order to the back of the queue and record it for
re-reporting to storage. -/
def requeue (b : Book) (o : Order) : Book × Order :=
  let o := { o with rank := b.nextSeq }
  ({ b with nextSeq := b.nextSeq + 1, requeued := b.requeued ++ [o] }, o)

/-- Write the entry of a resting order. -/
def setEntry (b : Book) (id : OrderId) (e : Entry) : Book :=
  { b with orders := b.orders.insert id e }

/-- Enter a resting order into the order map; an entry that is there stays. -/
def emplaceEntry (b : Book) (id : OrderId) (e : Entry) : Book :=
  if (b.orders.lookup id).isSome = true then b else b.setEntry id e

/-- Erase a resting order from the order map. -/
def eraseEntry (b : Book) (id : OrderId) : Book := { b with orders := b.orders.erase id }

/-- An order is no longer in the pegged set. -/
def unpeg (b : Book) (id : OrderId) : Book := { b with pegged := b.pegged.filter (· ≠ id) }

/-- The last traded price moves. -/
def setLast (b : Book) (p : ℤ) : Book := { b with lastPrice := p, haveLast := true }

/-! ### Emission -/

/-- Hand an event to the sink, if one is installed. -/
def emit (b : Book) (ev : BookEvent) : Book :=
  if b.eventSink = true then { b with events := b.events ++ [ev] } else b

/-- Emit an Add, Cancel, Replenish or Trigger event for an order. -/
def emitEvent (b : Book) (type : BookEventType) (o : Order) (qty displayed : ℤ) : Book :=
  b.emit { symbol := b.symbol, type := type, orderId := o.id, side := o.side, price := o.price,
           qty := qty, displayed := displayed }

/-- Emit a Trade event. -/
def emitTrade (b : Book) (t : Trade) (displayed : ℤ) : Book :=
  b.emit { symbol := b.symbol, type := .trade, orderId := t.makerId, takerId := t.takerId,
           side := t.takerSide, price := t.price, qty := t.qty, displayed := displayed }

/-- Emit a Reprice event for a pegged order. -/
def emitReprice (b : Book) (o : Order) (oldPrice newPrice qty displayed : ℤ) : Book :=
  b.emit { symbol := b.symbol, type := .reprice, orderId := o.id, side := o.side,
           prevPrice := oldPrice, price := newPrice, qty := qty, displayed := displayed }

/-! ### Positions -/

/-- Apply a fill to the net position of an account (none for the anonymous one). -/
def applyPosition (b : Book) (c : ClientId) (s : Side) (q : ℤ) : Book :=
  if c = 0 then b
  else
    let p := (b.positions.lookup c).getD {}
    let p := { p with net := p.net + (match s with | .buy => q | .sell => -q) }
    { b with positions := b.positions.insert c p }

/-- Release part of the reservation of a resting reduce-only order. -/
def releaseReserved (b : Book) (o : Order) (q : ℤ) : Book :=
  if o.flags.reduceOnly = false ∨ o.clientId = 0 then b
  else
    match b.positions.lookup o.clientId with
    | none => b
    | some p =>
      { b with positions := b.positions.insert o.clientId (p.reserve o.side (-q)) }

/-- The quantity a reduce-only order may still execute for its account. -/
def reduceOnlyCapacity (b : Book) (o : Order) : ℤ :=
  match b.positions.lookup o.clientId with
  | none => 0
  | some p =>
    match o.side with
    | .sell => p.net - p.reservedSell
    | .buy => -p.net - p.reservedBuy

/-! ### Marketability -/

/-- The most aggressive price an order will take. -/
def effectiveLimit (o : Order) : ℤ :=
  if o.flags.discretion = false ∨ o.discretion ≤ 0 then o.price
  else
    match o.side with
    | .buy => o.price + o.discretion
    | .sell => o.price - o.discretion

/-- The order may trade at the price `p`. -/
def acceptable (o : Order) (p : ℤ) : Bool :=
  match o.type with
  | .market => true
  | .limit =>
    match o.side with
    | .buy => p ≤ effectiveLimit o
    | .sell => effectiveLimit o ≤ p

/-- Whether an order would cross the opposite side; reading the best price may
refresh its cache. -/
def crosses (b : Book) (o : Order) : Book × Bool :=
  let r := (b.ladder o.side.opposite).best
  (b.setLadder o.side.opposite r.1,
    match r.2 with
    | none => false
    | some bp => acceptable o bp)

/-- The walk of `availableFill` over the remaining prices. -/
def availableOver (b : Book) (o : Order) : List ℤ → ℤ → ℤ
  | [], avail => avail
  | p :: ps, avail =>
    if avail < o.leaves then
      if 0 < (b.level o.side.opposite p).total then
        if acceptable o p = true then
          availableOver b o ps (avail + (b.level o.side.opposite p).total)
        else avail
      else availableOver b o ps avail
    else avail

/-- The quantity of an order that could fill immediately. -/
def availableFill (b : Book) (o : Order) : ℤ :=
  if (b.ladder o.side.opposite).hasBase = false then 0
  else min (availableOver b o (b.ladder o.side.opposite).outward 0) o.leaves

/-! ### The resident window -/

/-- The deep-liquidity summary of a side. -/
def deepOf (b : Book) : Side → Deep
  | .buy => b.deepBid
  | .sell => b.deepAsk

/-- The price `p` is worse (farther from the top) than `ref`. -/
def worseThan (s : Side) (p ref : ℤ) : Bool :=
  match s with
  | .buy => p < ref
  | .sell => ref < p

/-- Record that a price now holds deep liquidity. -/
def noteDeep (b : Book) (s : Side) (price : ℤ) : Book :=
  let d := b.deepOf s
  let boundary :=
    if d.has = false then price
    else
      match s with
      | .buy => max d.boundary price
      | .sell => min d.boundary price
  match s with
  | .buy => { b with deepBid := { has := true, boundary := boundary } }
  | .sell => { b with deepAsk := { has := true, boundary := boundary } }

/-- Forget an order of the level that is being evicted; its reduce-only
reservation is retained. -/
def evictOrder (r : Book × List Order) (id : OrderId) : Book × List Order :=
  match r.1.orders.lookup id with
  | none => r
  | some e =>
    ((r.1.unpeg id).eraseEntry id, r.2 ++ [e.order])

/-- Evict the worst resident level of a side to deep, collecting its orders. -/
def evictWorst (b : Book) (s : Side) (evicted : List Order) : Book × List Order :=
  match (b.ladder s).worstPrice with
  | none => (b, evicted)
  | some wp =>
    match (b.ladder s).at? wp with
    | none => (b, evicted)
    | some lvl =>
      let r := lvl.fifo.foldl evictOrder (b, evicted)
      let b := r.1.modifyLevel s wp fun _ => {}
      let b := b.setLadder s ((b.ladder s).onRemoved wp)
      (b.noteDeep s wp, r.2)

/-- The order would open a level beyond the full window of its side. -/
def beyondWindow (b : Book) (o : Order) : Bool :=
  match (b.ladder o.side).worstPrice with
  | none => false
  | some worst =>
    b.memLevels ≤ (b.ladder o.side).populatedCount && worseThan o.side o.price worst

/-- Put an order at the back of its level and into the order map. -/
def place (b : Book) (o : Order) : Book :=
  let b := b.setLadder o.side ((b.ladder o.side).touch o.price)
  let b := b.modifyLevel o.side o.price fun lvl =>
    { total := lvl.total + o.leaves,
      displayed := lvl.displayed + displayedOf o.flags o.leaves (sliceOf o),
      fifo := lvl.fifo ++ [o.id] }
  let b := b.setLadder o.side ((b.ladder o.side).onAdded o.price)
  b.emplaceEntry o.id { order := o, slice := sliceOf o }

/-- Reserve the leaves of a reduce-only order that comes to rest. -/
def reserveResting (b : Book) (o : Order) : Book :=
  if o.flags.reduceOnly = true ∧ o.clientId ≠ 0 then
    let p := (b.positions.lookup o.clientId).getD {}
    { b with positions := b.positions.insert o.clientId (p.reserve o.side o.leaves) }
  else b

/-- Rest the remainder of an order on its own side, honouring the window: the
book, whether the order is resident, and the evicted orders so far. -/
def rest (b : Book) (o : Order) (evicted : List Order) : Book × Bool × List Order :=
  let newLevel : Bool := b.memLevels = 0 || (b.level o.side o.price).total = 0
  if b.memLevels ≠ 0 ∧ newLevel = true ∧ b.beyondWindow o = true then
    let b := b.noteDeep o.side o.price
    (b.emitEvent .add o o.leaves (displayedOf o.flags o.leaves (sliceOf o)), false, evicted)
  else
    let b := (b.place o).reserveResting o
    let r :=
      if b.memLevels ≠ 0 ∧ newLevel = true ∧ b.memLevels < (b.ladder o.side).populatedCount then
        b.evictWorst o.side evicted
      else (b, evicted)
    (r.1.emitEvent .add o o.leaves (displayedOf o.flags o.leaves (sliceOf o)), true, r.2)

/-- Materialise a pulled-back resting order, without matching or windowing. -/
def insertResident (b : Book) (o : Order) : Book := b.place o

end Book

end Codicis
