/-
The uniform-price auction (`cross_auction` of `core/order_book.cc`).

The auction works on the queued orders in place.  Here the queue is a list, a
queued order is named by its position, and the two priority lists are lists of
positions.  The queue is taken out of the book at the start; the source clears it
at the end, and nothing reads it in between.
-/
import Codicis.Core.Conditional

namespace Codicis

namespace Book

/-- A market order of an auction. -/
def isMarket (o : Order) : Bool := o.type = .market

/-- The buy quantity of a queue that may trade at the price `p`. -/
def demandAt (queue : List Order) (p : ℤ) : ℤ :=
  ((queue.filter fun o => o.side = .buy && (isMarket o || p ≤ o.price)).map (·.leaves)).sum

/-- The sell quantity of a queue that may trade at the price `p`. -/
def supplyAt (queue : List Order) (p : ℤ) : ℤ :=
  ((queue.filter fun o => o.side = .sell && (isMarket o || o.price ≤ p)).map (·.leaves)).sum

/-- The distinct limit prices of a queue, lowest first. -/
def candidates (queue : List Order) : List ℤ :=
  (((queue.filter fun o => !isMarket o).map (·.price)).dedup).insertionSort (· ≤ ·)

/-- The best clearing price found so far. -/
structure Clearing where
  price : ℤ
  volume : ℤ
  imbalance : ℤ
deriving DecidableEq, Repr

/-- Consider the price `p` as a clearing price. -/
def consider (b : Book) (queue : List Order) (best : Option Clearing) (p : ℤ) :
    Option Clearing :=
  let d := demandAt queue p
  let s := supplyAt queue p
  let v := min d s
  if v ≤ 0 then best
  else
    let imb := if s < d then d - s else s - d
    let c : Clearing := { price := p, volume := v, imbalance := imb }
    match best with
    | none => some c
    | some old =>
      if old.volume < v ∨ (v = old.volume ∧ imb < old.imbalance) then some c
      else if v = old.volume ∧ imb = old.imbalance then
        if b.haveLast = true then
          let da := if b.lastPrice < p then p - b.lastPrice else b.lastPrice - p
          let db := if b.lastPrice < old.price then old.price - b.lastPrice
            else b.lastPrice - old.price
          if da < db then some c else best
        else if p < old.price then some c else best
      else best

/-- The clearing price of a queue, with its volume. -/
def clearing (b : Book) (queue : List Order) : Option Clearing :=
  match candidates queue with
  | [] => if b.haveLast = true then b.consider queue none b.lastPrice else none
  | ps => ps.foldl (b.consider queue) none

/-- The auction priority of two buys: market first, then the higher price, then
arrival. -/
def buyPriority (x y : Order) : Bool :=
  if isMarket x ≠ isMarket y then isMarket x
  else if x.price ≠ y.price then y.price < x.price
  else x.seq ≤ y.seq

/-- The auction priority of two sells: market first, then the lower price, then
arrival. -/
def sellPriority (x y : Order) : Bool :=
  if isMarket x ≠ isMarket y then isMarket x
  else if x.price ≠ y.price then x.price < y.price
  else x.seq ≤ y.seq

/-- The order at a position of the queue. -/
def queued (queue : List Order) (i : ℕ) : Order := queue.getD i {}

/-- The positions of the buys of a queue, by priority. -/
def buyOrder (queue : List Order) : List ℕ :=
  ((List.range queue.length).filter fun i => (queued queue i).side = .buy).insertionSort
    fun i j => buyPriority (queued queue i) (queued queue j) = true

/-- The positions of the sells of a queue, by priority. -/
def sellOrder (queue : List Order) : List ℕ :=
  ((List.range queue.length).filter fun i => (queued queue i).side = .sell).insertionSort
    fun i j => sellPriority (queued queue i) (queued queue j) = true

/-- The allocation loop of an auction at the price `pstar`: `buys` and `sells`
are what is left of the priority lists, `remaining` what is left of the volume.
Every round uses up an order of one of the lists or the volume, so as many
rounds as the lists are long are enough. -/
def allocate (pstar : ℤ) : ℕ → ℤ → List ℕ → List ℕ → Book × List Order × List Trade →
    Book × List Order × List Trade
  | 0, _, _, _, r => r
  | n + 1, remaining, bi :: buys, si :: sells, (b, queue, trades) =>
    let x := queued queue bi
    let y := queued queue si
    if remaining ≤ 0 then (b, queue, trades)
    else if !(isMarket x || pstar ≤ x.price) || !(isMarket y || y.price ≤ pstar) then
      (b, queue, trades)
    else
      let q := min (min x.leaves y.leaves) remaining
      let t : Trade := ⟨x.id, y.id, .buy, pstar, q⟩
      let b := b.emitTrade t (if y.flags.hidden = true then 0 else q)
      let queue := (queue.set bi (takeFill x q)).set si (takeFill y q)
      let b := (b.applyPosition x.clientId .buy q).applyPosition y.clientId .sell q
      allocate pstar n (remaining - q)
        (if x.leaves - q = 0 then buys else bi :: buys)
        (if y.leaves - q = 0 then sells else si :: sells)
        (b, queue, trades ++ [t])
  | _ + 1, _, _, _, r => r

/-- The remainder of a queued order enters continuous trading. -/
def entersBook (o : Order) : Bool := 0 < o.leaves && (o.flags.loo || o.flags.loc)

/-- Inject the remainder of a queued order, without its auction flags. -/
def injectRemainder (r : Book × List Trade) (o : Order) : Comp (Book × List Trade) :=
  if entersBook o = true then do
    let m ← r.1.inject { o with flags := o.flags.clearAuction } r.2
    pure (m.book, m.trades)
  else pure r

/-- The auction phase: executions at the clearing price. -/
def auctionPhase (b : Book) (queue : List Order) : Book × List Order × List Trade :=
  match b.clearing queue with
  | none => (b, queue, [])
  | some c =>
    let buys := buyOrder queue
    let sells := sellOrder queue
    let r := allocate c.price (buys.length + sells.length) c.volume buys sells (b, queue, [])
    (r.1.setLast c.price, r.2)

/-- Executions cascade the stops and move the pegs. -/
def settle (r : Book × List Trade) : Comp (Book × List Trade) :=
  if r.2 = [] then pure r
  else do
    let r ← r.1.evaluateStops r.2
    pure (r.1.repricePegs, r.2)

/-- Cross a queue of auction orders at a single clearing price. -/
def crossAuction (b : Book) (queue : List Order) : Comp (Book × List Trade) :=
  if queue = [] then pure (b, [])
  else do
    let r := b.auctionPhase queue
    let r ← r.2.1.foldlM injectRemainder (r.1, r.2.2)
    settle r

/-- Run the opening auction. -/
def runOpeningAuction (b : Book) : Comp (Book × List Trade) :=
  { b with openingAuction := [] }.crossAuction b.openingAuction

/-- Run the closing auction. -/
def runClosingAuction (b : Book) : Comp (Book × List Trade) :=
  { b with closingAuction := [] }.crossAuction b.closingAuction

end Book

end Codicis
