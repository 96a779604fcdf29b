/-
The public operations of an order book (`OrderBook` of `core/order_book.cc`):
submission with its contingent-order cascade, cancellation, expiry, and the
queries.

`submit`, `process_link_fills` and `release_children` call each other.  Here the
last two take the recursive call as an argument, `submitBody` is one unrolling of
the recursion, and `submit` is its fixed point.
-/
import Codicis.Core.Auction

namespace Codicis

namespace Book

/-! ### Cancellation and expiry -/

/-- Take a resting order out of the book. -/
def removeResting (b : Book) (id : OrderId) (e : Entry) : Book :=
  let displayed := displayedOf e.order.flags e.order.leaves e.slice
  let b := b.unpeg id
  let b := b.emitEvent .cancel e.order e.order.leaves displayed
  let b := b.releaseReserved e.order e.order.leaves
  let b := b.unlink e
  b.eraseEntry id

/-- Cancel the resting order `e`. -/
def cancelResting (b : Book) (id : OrderId) (e : Entry) : Book :=
  let wasPegged : Bool := id ∈ b.pegged
  let b := b.removeResting id e
  if wasPegged = true then b else b.repricePegs

/-- Cancel an order: a parked stop, an order queued for an auction, or a resting
one. -/
def cancel (b : Book) (id : OrderId) : Book × Bool :=
  match b.stops.lookup id with
  | some _ => ({ b with stops := b.stops.erase id }, true)
  | none =>
    if b.openingAuction.any (·.id = id) = true then
      ({ b with openingAuction := b.openingAuction.eraseP (·.id = id) }, true)
    else if b.closingAuction.any (·.id = id) = true then
      ({ b with closingAuction := b.closingAuction.eraseP (·.id = id) }, true)
    else
      match b.orders.lookup id with
      | none => (b, false)
      | some e => (b.cancelResting id e, true)

/-- The resting orders whose expiry is at or before `now`, in ascending order. -/
def expired (b : Book) (now : ℤ) : List OrderId :=
  ((b.orders.pairs.filter fun e =>
    0 < e.2.order.expiryNs && e.2.order.expiryNs ≤ now).map Prod.fst).insertionSort (· ≤ ·)

/-- Cancel all resting orders whose expiry is at or before `now`. -/
def expire (b : Book) (now : ℤ) : Book × List OrderId :=
  ((b.expired now).foldl (fun b id => (b.cancel id).1) b, b.expired now)

/-! ### Contingent orders -/

/-- The group `gid`, created on first use. -/
def group (b : Book) (gid : ℕ) : Group := (b.groups.lookup gid).getD {}

/-- Write the group `gid`. -/
def setGroup (b : Book) (gid : ℕ) (g : Group) : Book :=
  { b with groups := b.groups.insert gid g }

/-- The type of the recursive call of `submit`. -/
abbrev SubmitFn := Book × Order → Comp (Book × SubmitOutcome)

/-- Submit a released child and append its executions. -/
def releaseOne (g : SubmitFn) (r : Book × List Trade) (c : Order) : Comp (Book × List Trade) := do
  let co ← g (r.1, c)
  pure (co.1, r.2 ++ co.2.trades)

/-- The take-profit and stop-loss of a bracket become legs of an OCO group. -/
def asOcoLeg (gid : ℕ) (c : Order) : Order :=
  { c with link := some { role := .ocoLeg, groupId := gid } }

/-- Release the pending child of an OTO group as an ordinary order. -/
def releaseChild (g : SubmitFn) (gid : ℕ) (r : Book × List Trade) : Comp (Book × List Trade) :=
  let b := r.1.setGroup gid { r.1.group gid with pendingChild := none }
  match (r.1.group gid).pendingChild with
  | none => pure (b, r.2)
  | some c => releaseOne g (b, r.2) { c with link := none }

/-- Release the take-profit and the stop-loss of a bracket as an OCO pair. -/
def releaseBracket (g : SubmitFn) (gid : ℕ) (r : Book × List Trade) : Comp (Book × List Trade) :=
  let b := r.1.setGroup gid { r.1.group gid with pendingOco := [] }
  ((r.1.group gid).pendingOco.map (asOcoLeg gid)).foldlM (releaseOne g) (b, r.2)

/-- Release the pending children of a group whose parent has filled. -/
def releaseChildren (g : SubmitFn) (gid : ℕ) (r : Book × List Trade) :
    Comp (Book × List Trade) := do
  let r ← releaseChild g gid r
  releaseBracket g gid r

/-- Cancel the siblings of a filled OCO leg. -/
def cancelSiblings (b : Book) (id : OrderId) (legs : List OrderId) : Book :=
  legs.foldl (fun b other =>
    if other = id then b
    else ({ b with orderGroup := b.orderGroup.erase other }.cancel other).1) b

/-- A filled leg of an OCO group cancels its siblings. -/
def ocoFill (b : Book) (gid : ℕ) (id : OrderId) : Book :=
  let legs := (b.group gid).ocoLegs
  if id ∈ legs then
    let b := b.cancelSiblings id legs
    let b := b.setGroup gid { b.group gid with ocoLegs := [] }
    { b with orderGroup := b.orderGroup.erase id }
  else b

/-- The group of a linked order that has filled. -/
def groupOf (b : Book) (submitted : Order) (id : OrderId) : Option ℕ :=
  match submitted.link with
  | some l => if id = submitted.id then some l.groupId else b.orderGroup.lookup id
  | none => b.orderGroup.lookup id

/-- A linked order that has filled has nothing left. -/
def fullyFilled (b : Book) (submitted : Order) (id : OrderId) : Bool :=
  if submitted.link.isSome = true ∧ id = submitted.id then submitted.leaves = 0
  else (b.orders.lookup id).isNone

/-- React to the fill of one linked order. -/
def linkFill (g : SubmitFn) (submitted : Order) (r : Book × List Trade) (id : OrderId) :
    Comp (Book × List Trade) :=
  match r.1.groupOf submitted id with
  | none => pure r
  | some gid =>
    match r.1.groups.lookup gid with
    | none => pure r
    | some _ =>
      let b := r.1.ocoFill gid id
      if (b.group gid).parent = id ∧ b.fullyFilled submitted id = true then
        releaseChildren g gid (b, r.2)
      else pure (b, r.2)

/-- The linked orders that filled in a submission, without repetition. -/
def linkedFills (b : Book) (submitted : Order) (trades : List Trade) : List OrderId :=
  let self := if submitted.link.isSome = true ∧ 0 < submitted.filled then [submitted.id] else []
  let makers := (trades.filter fun t => (b.orderGroup.lookup t.makerId).isSome).map (·.makerId)
  ((self ++ makers).dedup).insertionSort (· ≤ ·)

/-- React to fills of contingent orders. -/
def processLinkFills (g : SubmitFn) (b : Book) (submitted : Order) (trades : List Trade) :
    Comp (Book × List Trade) :=
  (b.linkedFills submitted trades).foldlM (linkFill g submitted) (b, trades)

/-- Register an order that stays in the book as a member of its group. -/
def registerLink (b : Book) (o : Order) (rested : Bool) : Book :=
  match o.link with
  | none => b
  | some l =>
    let g := b.group l.groupId
    let b :=
      match l.role with
      | .ocoLeg => b.setGroup l.groupId { g with ocoLegs := g.ocoLegs ++ [o.id] }
      | .otoParent | .bracketParent => b.setGroup l.groupId { g with parent := o.id }
      | _ => b
    if rested = true then { b with orderGroup := b.orderGroup.insert o.id l.groupId } else b

/-! ### Submission -/

/-- A rejected order. -/
def reject (id : OrderId) (reason : String) : SubmitOutcome :=
  { accepted := false, rejectReason := reason, orderId := id }

/-- A stop: park it, or fire it at once if its trigger is already met. -/
def submitStop (b : Book) (o : Order) : Comp (Book × SubmitOutcome) :=
  let o := b.armStop o
  if b.haveLast = true ∧ stopTriggered o b.lastPrice = true then do
    let m ← b.inject (markTriggered o) []
    let r ← m.book.evaluateStops m.trades
    pure (r.1,
      { orderId := o.id, trades := r.2, filled := m.order.filled,
        rested := 0 < m.order.leaves && !discards m.order })
  else
    let stops := if (b.stops.lookup o.id).isSome = true then b.stops else b.stops.insert o.id o
    pure ({ b with stops := stops }, { orderId := o.id, pendingTrigger := true })

/-- A pegged order rests at a price derived from the reference prices. -/
def submitPeg (b : Book) (o : Order) : Book × SubmitOutcome :=
  match b.computePegPrice o with
  | none => (b, reject o.id "no reference price for peg")
  | some price =>
    let o := { o with type := .limit, price := price }
    let r := b.rest o []
    let b := if r.2.1 = true then { r.1 with pegged := r.1.pegged.insert o.id } else r.1
    (b, { orderId := o.id, rested := r.2.1, restedDeep := !r.2.1, evicted := r.2.2,
          resting := o })

/-- Any trade may have moved the last price into the trigger of a stop. -/
def cascade (b : Book) (trades : List Trade) : Comp (Book × List Trade) :=
  if trades = [] then pure (b, trades) else b.evaluateStops trades

/-- Match an admitted order, rest its remainder, cascade the stops, reprice the
pegs and react to the fills of contingent orders. -/
def execute (g : SubmitFn) (b : Book) (o : Order) : Comp (Book × SubmitOutcome) := do
  let m ← b.matchOrder o []
  let out : SubmitOutcome := { orderId := o.id, filled := m.order.filled }
  let r : Book × SubmitOutcome :=
    if 0 < m.order.leaves ∧ m.cancelled = false ∧ discards m.order = false then
      let r := m.book.rest m.order []
      (r.1, { out with rested := r.2.1, restedDeep := !r.2.1, evicted := r.2.2,
                       resting := m.order })
    else (m.book, out)
  let s ← r.1.cascade m.trades
  let b := s.1.repricePegs.registerLink m.order r.2.rested
  let f ← processLinkFills g b m.order s.2
  pure (f.1, { r.2 with trades := f.2 })

/-- An all-or-none order that cannot fill now rests, unless it is immediate. -/
def submitAon (b : Book) (o : Order) : Book × SubmitOutcome :=
  if discards o = true then (b, reject o.id "all-or-none not fully fillable")
  else
    let r := b.rest o []
    (r.1.repricePegs, { orderId := o.id, rested := r.2.1, restedDeep := !r.2.1, evicted := r.2.2,
                        resting := o })

/-- The checks on the quantity of an order before it is matched. -/
def submitSized (g : SubmitFn) (b : Book) (o : Order) : Comp (Book × SubmitOutcome) :=
  if o.flags.aon = true ∧ b.availableFill o < o.leaves then pure (b.submitAon o)
  else if 0 < o.minQty ∧ o.qty < o.minQty then pure (b, reject o.id "min_qty exceeds qty")
  else if 0 < o.minQty ∧ b.availableFill o < o.minQty then
    pure (b, reject o.id "minimum quantity not available")
  else execute g b o

/-- A reduce-only order is capped at what it may reduce. -/
def capReduceOnly (o : Order) (cap : ℤ) : Order :=
  if cap < o.leaves then { o with leaves := cap, qty := cap } else o

/-- An order for continuous trading that is neither a stop nor pegged. -/
def submitPlain (g : SubmitFn) (b : Book) (o : Order) : Comp (Book × SubmitOutcome) :=
  let c := if o.flags.postOnly = true then b.crosses o else (b, false)
  let b := c.1
  if c.2 = true then pure (b, reject o.id "post-only would cross")
  else if o.flags.reduceOnly = true then
    if o.clientId = 0 then pure (b, reject o.id "reduce-only requires an account")
    else if b.reduceOnlyCapacity o ≤ 0 then
      pure (b, reject o.id "reduce-only: no position to reduce")
    else submitSized g b (capReduceOnly o (b.reduceOnlyCapacity o))
  else submitSized g b o

/-- The order is held out of the book until its parent fills. -/
def holdChild (b : Book) (o : Order) : Option Book :=
  match o.link with
  | none => none
  | some l =>
    match l.role with
    | .otoChild => some (b.setGroup l.groupId { b.group l.groupId with pendingChild := some o })
    | .bracketTakeProfit | .bracketStopLoss =>
      some (b.setGroup l.groupId
        { b.group l.groupId with pendingOco := (b.group l.groupId).pendingOco ++ [o] })
    | _ => none

/-- The order carries a trigger that has not fired. -/
def awaitsTrigger (o : Order) : Bool :=
  match o.trigger with
  | none => false
  | some t => !t.triggered

/-- Route an admitted order: auction queue, contingent child, stop, peg, or
continuous trading. -/
def route (g : SubmitFn) (b : Book) (o : Order) : Comp (Book × SubmitOutcome) :=
  if isOpeningAuction o.flags = true then
    pure ({ b with openingAuction := b.openingAuction ++ [o] }, { orderId := o.id, held := true })
  else if isClosingAuction o.flags = true then
    pure ({ b with closingAuction := b.closingAuction ++ [o] }, { orderId := o.id, held := true })
  else
    match b.holdChild o with
    | some b => pure (b, { orderId := o.id, held := true })
    | none =>
      if awaitsTrigger o = true then b.submitStop o
      else if o.peg.isSome = true then pure (b.submitPeg o)
      else submitPlain g b o

/-- Normalise an incoming order and stamp its arrival sequence. -/
def stamp (b : Book) (o : Order) : Order :=
  { o.normalize with seq := b.nextSeq, rank := b.nextSeq }

/-- One unrolling of `submit`. -/
def submitBody (g : SubmitFn) (x : Book × Order) : Comp (Book × SubmitOutcome) :=
  let o := x.1.stamp x.2
  let b := { x.1 with nextSeq := x.1.nextSeq + 1 }
  if o.qty ≤ 0 ∨ o.leaves ≤ 0 then pure (b, reject o.id "non-positive quantity")
  else if o.type = .limit ∧ o.price ≤ 0 ∧ o.peg.isNone = true then
    pure (b, reject o.id "non-positive limit price")
  else if (b.orders.lookup o.id).isSome = true ∨ (b.stops.lookup o.id).isSome = true then
    pure (b, reject o.id "duplicate order id")
  else route g b o

/-! ### The recursion of `submit` -/

section Recursion

open Codicis.Comp

variable {n : ℕ} {g g' : SubmitFn}

lemma releaseOne_approx (hg : ∀ x, Approx n (g x) (g' x)) (r : Book × List Trade) (c : Order) :
    Approx n (releaseOne g r c) (releaseOne g' r c) :=
  Approx.bind (hg _) fun _ => Approx.refl n _

lemma releaseChild_approx (hg : ∀ x, Approx n (g x) (g' x)) (gid : ℕ) (r : Book × List Trade) :
    Approx n (releaseChild g gid r) (releaseChild g' gid r) := by
  unfold releaseChild
  dsimp only
  split
  · exact Approx.refl n _
  · exact releaseOne_approx hg _ _

lemma releaseChildren_approx (hg : ∀ x, Approx n (g x) (g' x)) (gid : ℕ)
    (r : Book × List Trade) : Approx n (releaseChildren g gid r) (releaseChildren g' gid r) :=
  Approx.bind (releaseChild_approx hg gid r) fun _ => approx_foldlM (releaseOne_approx hg) _ _

lemma linkFill_approx (hg : ∀ x, Approx n (g x) (g' x)) (o : Order) (r : Book × List Trade)
    (id : OrderId) : Approx n (linkFill g o r id) (linkFill g' o r id) := by
  unfold linkFill
  split
  · exact Approx.refl n _
  · split
    · exact Approx.refl n _
    · dsimp only
      split_ifs
      · exact releaseChildren_approx hg _ _
      · exact Approx.refl n _

lemma execute_approx (hg : ∀ x, Approx n (g x) (g' x)) (b : Book) (o : Order) :
    Approx n (execute g b o) (execute g' b o) := by
  unfold execute
  refine Approx.bind (Approx.refl n _) fun m => Approx.bind (Approx.refl n _) fun s => ?_
  refine Approx.bind ?_ fun f => Approx.refl n _
  exact approx_foldlM (linkFill_approx hg _) _ _

lemma submitSized_approx (hg : ∀ x, Approx n (g x) (g' x)) (b : Book) (o : Order) :
    Approx n (submitSized g b o) (submitSized g' b o) := by
  unfold submitSized
  split_ifs
  · exact Approx.refl n _
  · exact Approx.refl n _
  · exact Approx.refl n _
  · exact execute_approx hg _ _

lemma submitPlain_approx (hg : ∀ x, Approx n (g x) (g' x)) (b : Book) (o : Order) :
    Approx n (submitPlain g b o) (submitPlain g' b o) := by
  unfold submitPlain
  dsimp only
  generalize (if o.flags.postOnly = true then b.crosses o else (b, false)) = c
  split_ifs
  · exact Approx.refl n _
  · exact Approx.refl n _
  · exact Approx.refl n _
  · exact submitSized_approx hg _ _
  · exact submitSized_approx hg _ _

lemma route_approx (hg : ∀ x, Approx n (g x) (g' x)) (b : Book) (o : Order) :
    Approx n (route g b o) (route g' b o) := by
  unfold route
  by_cases h1 : isOpeningAuction o.flags = true
  · rw [if_pos h1, if_pos h1]
    exact Approx.refl n _
  by_cases h2 : isClosingAuction o.flags = true
  · rw [if_neg h1, if_neg h1, if_pos h2, if_pos h2]
    exact Approx.refl n _
  rw [if_neg h1, if_neg h1, if_neg h2, if_neg h2]
  split
  · exact Approx.refl n _
  · split_ifs
    · exact Approx.refl n _
    · exact Approx.refl n _
    · exact submitPlain_approx hg _ _

lemma submitBody_local : Local submitBody := by
  intro n g g' hg x
  unfold submitBody
  dsimp only
  split_ifs
  · exact Approx.refl n _
  · exact Approx.refl n _
  · exact Approx.refl n _
  · exact route_approx hg _ _

end Recursion

/-- Submit an order for matching, and resting if applicable. -/
def submit (b : Book) (o : Order) : Comp (Book × SubmitOutcome) :=
  Comp.fix submitBody submitBody_local (b, o)

/-! ### Queries and settings -/

/-- Find a resting order. -/
def find (b : Book) (id : OrderId) : Option Order := (b.orders.lookup id).map (·.order)

/-- The best bid, through the cache. -/
def bestBid (b : Book) : Book × Option ℤ := ({ b with bids := b.bids.best.1 }, b.bids.best.2)

/-- The best ask, through the cache. -/
def bestAsk (b : Book) : Book × Option ℤ := ({ b with asks := b.asks.best.1 }, b.asks.best.2)

/-- The matchable quantity at a price. -/
def totalQtyAt (b : Book) (s : Side) (p : ℤ) : ℤ := (b.level s p).total

/-- The displayed quantity at a price. -/
def displayedQtyAt (b : Book) (s : Side) (p : ℤ) : ℤ := (b.level s p).displayed

/-- The net position of an account. -/
def position (b : Book) (c : ClientId) : ℤ := ((b.positions.lookup c).getD {}).net

/-- Set the net position of an account. -/
def seedPosition (b : Book) (c : ClientId) (net : ℤ) : Book :=
  if c = 0 then b
  else
    { b with positions := b.positions.insert c { (b.positions.lookup c).getD {} with net := net } }

/-- Raise the next sequence number. -/
def setNextSeq (b : Book) (next : ℕ) : Book :=
  if b.nextSeq < next then { b with nextSeq := next } else b

/-- Take the orders re-queued since the last call. -/
def takeRequeued (b : Book) : Book × List Order := ({ b with requeued := [] }, b.requeued)

/-- Liquidity rests beyond the resident window of a side. -/
def hasDeep (b : Book) (s : Side) : Bool := (b.deepOf s).has

/-- The worst resident price of a side. -/
def worstResident (b : Book) (s : Side) : Option ℤ := (b.ladder s).worstPrice

end Book

/-! ### Instructions -/

/-- What a caller may ask of a book. -/
inductive Instruction
  | submit (o : Order)
  | cancel (id : OrderId)
  | expire (now : ℤ)
  | runOpeningAuction
  | runClosingAuction
  | seedPosition (c : ClientId) (net : ℤ)
deriving DecidableEq, Repr

namespace Instruction

/-- Answer an instruction: the book after it, and its executions. -/
def run (b : Book) : Instruction → Comp (Book × List Trade)
  | submit o => b.submit o >>= fun r => pure (r.1, r.2.trades)
  | cancel id => pure ((b.cancel id).1, [])
  | expire now => pure ((b.expire now).1, [])
  | runOpeningAuction => b.runOpeningAuction
  | runClosingAuction => b.runClosingAuction
  | seedPosition c net => pure (b.seedPosition c net, [])

/-- The order that an instruction submits. -/
def orders : Instruction → List Order
  | submit o => [o]
  | _ => []

/-- The instruction sets a position. -/
def Seeds : Instruction → Prop
  | seedPosition _ _ => True
  | _ => False

end Instruction

end Codicis
