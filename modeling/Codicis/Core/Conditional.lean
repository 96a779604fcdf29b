/-
Stops, trailing stops and pegged orders (`core/order_book.cc`).

The rounds of `evaluateStops` enumerate the parked stops in the order of the map
and fire by arrival sequence; `repricePegs` likewise visits the pegged orders by
arrival sequence.
-/
import Codicis.Core.Match
import Mathlib.Data.List.Sort

namespace Codicis

namespace Book

/-! ### Stops -/

/-- The trigger condition of a stop is met at the price `px`. -/
def stopTriggered (o : Order) (px : ℤ) : Bool :=
  match o.trigger with
  | none => false
  | some t =>
    match o.side with
    | .buy => t.stopPrice ≤ px
    | .sell => px ≤ t.stopPrice

/-- Initialise the high-water mark and the stop price of a trailing stop. -/
def armStop (b : Book) (o : Order) : Order :=
  match o.trigger with
  | none => o
  | some t =>
    if t.kind = .stop then o
    else
      let ref := if b.haveLast = true then b.lastPrice else t.stopPrice
      { o with trigger := some { t with
          highWater := ref,
          stopPrice := match o.side with | .sell => ref - t.trailBy | .buy => ref + t.trailBy } }

/-- Re-anchor a trailing stop after a favourable move to the price `px`. -/
def updateTrail (px : ℤ) (o : Order) : Order :=
  match o.trigger with
  | none => o
  | some t =>
    if t.kind = .stop then o
    else
      match o.side with
      | .sell =>
        if t.highWater < px then
          { o with trigger := some { t with highWater := px, stopPrice := px - t.trailBy } }
        else o
      | .buy =>
        if px < t.highWater then
          { o with trigger := some { t with highWater := px, stopPrice := px + t.trailBy } }
        else o

/-- The order carries a trigger that has fired. -/
def markTriggered (o : Order) : Order :=
  { o with trigger := o.trigger.map fun t => { t with triggered := true } }

/-- The remainder of an order does not rest. -/
def discards (o : Order) : Bool := o.type = .market || o.tif = .ioc

/-- Inject a now-active order: match it, then rest its remainder.  The verdict of
self-trade prevention is not looked at here. -/
def inject (b : Book) (o : Order) (trades : List Trade) : Comp MatchResult := do
  let r ← b.matchOrder o trades
  if 0 < r.order.leaves ∧ discards r.order = false then
    pure { r with book := (r.book.rest r.order []).1 }
  else pure r

/-- Fire the stop `id`: it leaves the parked stops and enters the market. -/
def fireStop (r : Book × List Trade) (id : OrderId) : Comp (Book × List Trade) :=
  match r.1.stops.lookup id with
  | none => Comp.never  -- `stops.at` throws
  | some o => do
      let b := { r.1 with stops := r.1.stops.erase id }
      let o := markTriggered o
      let b := b.emitEvent .trigger o o.leaves 0
      let m ← b.inject o r.2
      pure (m.book, m.trades)

/-- The stops that a round of `evaluateStops` fires, by arrival sequence. -/
def firing (b : Book) : List OrderId :=
  if b.haveLast = true then
    ((b.stops.pairs.filter fun e => stopTriggered e.2 b.lastPrice).insertionSort
      fun x y => x.2.seq ≤ y.2.seq).map Prod.fst
  else []

/-- Re-anchor every trailing stop at the last price. -/
def trailed (b : Book) : Book :=
  if b.haveLast = true then { b with stops := b.stops.mapVal (updateTrail b.lastPrice) } else b

/-- One round of `evaluateStops`: trail, collect what is triggered, and fire it. -/
def stopRound (r : Book × List Trade) :
    Comp ((Book × List Trade) ⊕ (Book × List Trade)) :=
  match r.1.trailed.firing with
  | [] => pure (.inr (r.1.trailed, r.2))
  | fire => do
      let r' ← fire.foldlM fireStop (r.1.trailed, r.2)
      pure (.inl r')

/-- Fire every stop whose trigger is met, cascading until none is. -/
def evaluateStops (b : Book) (trades : List Trade) : Comp (Book × List Trade) :=
  Comp.loop stopRound (b, trades)

/-! ### Pegs -/

/-- Some order of the queue is not pegged. -/
def hasNonpeg (b : Book) (lvl : Level) : Bool :=
  lvl.fifo.any fun id =>
    match b.orders.lookup id with
    | none => false
    | some e => e.order.peg.isNone

/-- The best price of a side that counts only orders that are not pegged. -/
def referenceBest (b : Book) (s : Side) : Option ℤ :=
  if (b.ladder s).hasBase = false then none
  else (b.ladder s).outward.find? fun p =>
    0 < (b.level s p).total && b.hasNonpeg (b.level s p)

/-- The reference price of a peg. -/
def pegReference (b : Book) (ref : PegRef) (s : Side) : Option ℤ :=
  match ref with
  | .primary => b.referenceBest s
  | .market => b.referenceBest s.opposite
  | .midpoint =>
    match b.referenceBest .buy, b.referenceBest .sell with
    | some rb, some ra => some (Int.tdiv (rb + ra) 2)
    | _, _ => none

/-- The price of a pegged order, when it can be computed. -/
def computePegPrice (b : Book) (o : Order) : Option ℤ :=
  match o.peg with
  | none => none
  | some p =>
    match b.pegReference p.ref o.side with
    | none => none
    | some ref =>
      let price := ref + p.offset
      let price :=
        if 0 < p.capLimit then
          match o.side with
          | .buy => min price p.capLimit
          | .sell => max price p.capLimit
        else price
      if price ≤ 0 then none else some price

/-- Take a resting order out of the queue and the totals of its level. -/
def unlink (b : Book) (e : Entry) : Book :=
  let o := e.order
  match (b.ladder o.side).at? o.price with
  | none => b
  | some _ =>
    let b := b.modifyLevel o.side o.price fun lvl =>
      { total := lvl.total - o.leaves,
        displayed := lvl.displayed - displayedOf o.flags o.leaves e.slice,
        fifo := lvl.fifo.erase o.id }
    b.noteRemoved o.side o.price

/-- Move a resting pegged order to a new price, at the back of its level. -/
def movePegged (b : Book) (id : OrderId) (e : Entry) (newPrice : ℤ) : Book :=
  let oldPrice := e.order.price
  let displayed := displayedOf e.order.flags e.order.leaves e.slice
  let b := b.unlink e
  let o := { e.order with price := newPrice }
  let b := b.setLadder o.side ((b.ladder o.side).touch newPrice)
  let b := b.modifyLevel o.side newPrice fun lvl =>
    { total := lvl.total + o.leaves, displayed := lvl.displayed + displayed,
      fifo := lvl.fifo ++ [id] }
  let b := b.setLadder o.side ((b.ladder o.side).onAdded newPrice)
  let r := b.requeue o
  let b := r.1.setEntry id { e with order := r.2 }
  b.emitReprice r.2 oldPrice newPrice r.2.leaves displayed

/-- Re-place one pegged order. -/
def repricePeg (b : Book) (id : OrderId) : Book :=
  match b.orders.lookup id with
  | none => b.unpeg id
  | some e =>
    match b.computePegPrice e.order with
    | none => b
    | some np => if np = e.order.price then b else b.movePegged id e np

/-- The arrival sequence of a resting order. -/
def seqOf (b : Book) (id : OrderId) : ℕ :=
  match b.orders.lookup id with
  | none => 0
  | some e => e.order.seq

/-- Recompute and re-place every pegged order after the best prices changed. -/
def repricePegs (b : Book) : Book :=
  (b.pegged.insertionSort fun x y => b.seqOf x ≤ b.seqOf y).foldl repricePeg b

end Book

end Codicis
