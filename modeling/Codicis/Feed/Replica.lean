/-
The replica of a book that the feed helper builds from the event stream
(`BookReplica` of `feed/book_replica.cc`).

The replica runs no matching: it applies the deltas that the events carry.  Per
instrument it keeps the resting orders, and per side the matchable and the displayed
quantity of every price.  A price without quantity has no entry in these maps.

`SymBook.Mirrors` relates the replica of one instrument to the resting book.  It is
kept by the events of every mutation of a book without a window, and so by the
operations.
-/
import Codicis.Core.Runs

namespace Codicis

/-- One resting order, as the replica sees it. -/
structure OrderView where
  id : OrderId := 0
  side : Side := .buy
  price : ℤ := 0
  /-- The matchable quantity left. -/
  qty : ℤ := 0
  /-- The displayed part of it. -/
  displayed : ℤ := 0
deriving DecidableEq, Repr

/-- The replica of one instrument. -/
structure SymBook where
  bids : Map ℤ ℤ := ∅
  asks : Map ℤ ℤ := ∅
  dispBids : Map ℤ ℤ := ∅
  dispAsks : Map ℤ ℤ := ∅
  orders : Map OrderId OrderView := ∅

/-- The replica. -/
structure Replica where
  books : Map Symbol SymBook := ∅
  lastSeq : ℕ := 0
  gaps : ℕ := 0

/-- Add to the quantity of a price; a price without quantity is erased. -/
def bump (m : Map ℤ ℤ) (price delta : ℤ) : Map ℤ ℤ :=
  match m.lookup price with
  | none => if 0 < delta then m.insert price delta else m
  | some q => if q + delta ≤ 0 then m.erase price else m.insert price (q + delta)

namespace SymBook

/-- The matchable quantities of a side. -/
def sideMap (b : SymBook) : Side → Map ℤ ℤ
  | .buy => b.bids
  | .sell => b.asks

/-- The displayed quantities of a side. -/
def dispMap (b : SymBook) : Side → Map ℤ ℤ
  | .buy => b.dispBids
  | .sell => b.dispAsks

/-- Change the matchable quantity of a price. -/
def bumpSide (b : SymBook) (s : Side) (price delta : ℤ) : SymBook :=
  match s with
  | .buy => { b with bids := bump b.bids price delta }
  | .sell => { b with asks := bump b.asks price delta }

/-- Change the displayed quantity of a price. -/
def bumpDisp (b : SymBook) (s : Side) (price delta : ℤ) : SymBook :=
  match s with
  | .buy => { b with dispBids := bump b.dispBids price delta }
  | .sell => { b with dispAsks := bump b.dispAsks price delta }

/-- Write the entry of an order. -/
def setOrder (b : SymBook) (id : OrderId) (o : OrderView) : SymBook :=
  { b with orders := b.orders.insert id o }

/-- Erase the entry of an order. -/
def eraseOrder (b : SymBook) (id : OrderId) : SymBook := { b with orders := b.orders.erase id }

/-- Apply an event to the replica of its instrument.  Apart from an Add, events of
orders that the replica does not have are ignored. -/
def apply (b : SymBook) (ev : BookEvent) : SymBook :=
  match ev.type with
  | .add =>
    let b := b.setOrder ev.orderId
      { id := ev.orderId, side := ev.side, price := ev.price, qty := ev.qty,
        displayed := ev.displayed }
    (b.bumpSide ev.side ev.price ev.qty).bumpDisp ev.side ev.price ev.displayed
  | .cancel =>
    match b.orders.lookup ev.orderId with
    | none => b
    | some o =>
      let b := (b.bumpSide o.side o.price (-o.qty)).bumpDisp o.side o.price (-o.displayed)
      b.eraseOrder ev.orderId
  | .trade =>
    match b.orders.lookup ev.orderId with
    | none => b
    | some o =>
      -- the maker shrinks; the taker never rests here
      let o := { o with qty := o.qty - ev.qty, displayed := o.displayed - ev.displayed }
      let b := (b.bumpSide o.side o.price (-ev.qty)).bumpDisp o.side o.price (-ev.displayed)
      if o.qty ≤ 0 then b.eraseOrder ev.orderId else b.setOrder ev.orderId o
  | .reprice =>
    match b.orders.lookup ev.orderId with
    | none => b
    | some o =>
      let b := (b.bumpSide o.side o.price (-o.qty)).bumpDisp o.side o.price (-o.displayed)
      let o := { o with price := ev.price, displayed := ev.displayed }
      let b := (b.bumpSide o.side o.price o.qty).bumpDisp o.side o.price o.displayed
      b.setOrder ev.orderId o
  | .replenish =>
    match b.orders.lookup ev.orderId with
    | none => b
    | some o =>
      -- the matchable quantity is as before, a new slice is lit
      let b := b.setOrder ev.orderId { o with displayed := o.displayed + ev.displayed }
      b.bumpDisp o.side o.price ev.displayed
  | .trigger => b

end SymBook

namespace Replica

/-- The replica of an instrument, created on first use. -/
def book (r : Replica) (symbol : Symbol) : SymBook := (r.books.lookup symbol).getD {}

/-- The sequence number of an event does not follow the last one seen. -/
def isGap (r : Replica) (ev : BookEvent) : Bool :=
  r.lastSeq ≠ 0 && ev.seq ≠ 0 && ev.seq ≠ r.lastSeq + 1

/-- Apply one event; the result tells of a lost one. -/
def apply (r : Replica) (ev : BookEvent) : Replica × Bool :=
  ({ books := r.books.insert ev.symbol ((r.book ev.symbol).apply ev)
     lastSeq := if r.lastSeq < ev.seq then ev.seq else r.lastSeq
     gaps := if r.isGap ev = true then r.gaps + 1 else r.gaps }, r.isGap ev)

/-- Apply the events of a stream in order. -/
def applyAll (r : Replica) (evs : List BookEvent) : Replica :=
  evs.foldl (fun r ev => (r.apply ev).1) r

/-- The matchable quantity of an instrument at a side and price. -/
def totalAt (r : Replica) (symbol : Symbol) (s : Side) (p : ℤ) : ℤ :=
  (((r.book symbol).sideMap s).lookup p).getD 0

/-- The displayed quantity of an instrument at a side and price. -/
def displayedAt (r : Replica) (symbol : Symbol) (s : Side) (p : ℤ) : ℤ :=
  (((r.book symbol).dispMap s).lookup p).getD 0

lemma book_apply (r : Replica) (ev : BookEvent) (symbol : Symbol) :
    (r.apply ev).1.book symbol
      = if symbol = ev.symbol then (r.book symbol).apply ev else r.book symbol := by
  simp only [book, apply, Map.lookup_insert_eq]
  split_ifs with h
  · rw [h]
    rfl
  · rfl

/-- The events of one instrument act on its replica alone. -/
lemma book_applyAll {symbol : Symbol} {evs : List BookEvent} (h : ∀ ev ∈ evs, ev.symbol = symbol)
    (r : Replica) : (r.applyAll evs).book symbol = evs.foldl SymBook.apply (r.book symbol) := by
  induction evs generalizing r with
  | nil => rfl
  | cons ev evs ih =>
    have hev : symbol = ev.symbol := (h ev (by simp)).symm
    show ((r.apply ev).1.applyAll evs).book symbol = _
    rw [ih (fun ev' hev' => h ev' (by simp [hev'])), book_apply, if_pos hev, List.foldl_cons]

end Replica

end Codicis
