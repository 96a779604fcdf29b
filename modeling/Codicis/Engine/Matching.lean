/-
The per-symbol matching engine (`MatchingEngine` of `core/matching_engine.cc`): a book
per instrument, created on first use.

Every book has the engine as its event sink.  The numbering of events across books and
the feed behind it are left out.
-/
import Codicis.Core.Submit

namespace Codicis

/-- The books of all instruments. -/
structure Matching where
  stp : StpPolicy := .none
  memLevels : ℕ := 0
  books : Map Symbol Book := ∅
  /-- The first sequence number of a new book. -/
  seqBase : ℕ := 1

namespace Matching

/-- A book as it is created. -/
def newBook (m : Matching) (symbol : Symbol) : Book :=
  ({ stp := m.stp, memLevels := m.memLevels, symbol := symbol, eventSink := true } :
    Book).setNextSeq m.seqBase

/-- The book of a symbol, created if absent. -/
def bookFor (m : Matching) (symbol : Symbol) : Book :=
  (m.books.lookup symbol).getD (m.newBook symbol)

/-- Write the book of a symbol. -/
def setBook (m : Matching) (symbol : Symbol) (b : Book) : Matching :=
  { m with books := m.books.insert symbol b }

/-- Submit an order to the book of a symbol. -/
def submit (m : Matching) (symbol : Symbol) (o : Order) : Comp (Matching × SubmitOutcome) :=
  (m.bookFor symbol).submit o >>= fun r => pure (m.setBook symbol r.1, r.2)

/-- Cancel an order in the book of a symbol. -/
def cancel (m : Matching) (symbol : Symbol) (id : OrderId) : Matching × Bool :=
  match m.books.lookup symbol with
  | none => (m, false)
  | some b => (m.setBook symbol (b.cancel id).1, (b.cancel id).2)

/-- Take the orders re-queued in the book of a symbol since the last call. -/
def takeRequeued (m : Matching) (symbol : Symbol) : Matching × List Order :=
  match m.books.lookup symbol with
  | none => (m, [])
  | some b => (m.setBook symbol b.takeRequeued.1, b.takeRequeued.2)

/-- Find a resting order. -/
def find (m : Matching) (symbol : Symbol) (id : OrderId) : Option Order :=
  (m.books.lookup symbol).bind fun b => b.find id

/-- Set the net position of an account in the book of a symbol. -/
def seedPosition (m : Matching) (symbol : Symbol) (client : ClientId) (net : ℤ) : Matching :=
  m.setBook symbol ((m.bookFor symbol).seedPosition client net)

/-- Run the opening or the closing auction of a symbol. -/
def runAuction (m : Matching) (symbol : Symbol) (opening : Bool) :
    Comp (Matching × List Trade) :=
  (if opening = true then (m.bookFor symbol).runOpeningAuction
    else (m.bookFor symbol).runClosingAuction) >>= fun r => pure (m.setBook symbol r.1, r.2)

/-- Materialise a pulled-back resting order in the book of a symbol. -/
def insertResident (m : Matching) (symbol : Symbol) (o : Order) : Matching :=
  m.setBook symbol ((m.bookFor symbol).insertResident o)

/-- Liquidity rests beyond the resident window of a side. -/
def hasDeep (m : Matching) (symbol : Symbol) (s : Side) : Bool :=
  (m.books.lookup symbol).elim false fun b => b.hasDeep s

/-- The worst resident price of a side. -/
def worstResident (m : Matching) (symbol : Symbol) (s : Side) : Option ℤ :=
  (m.books.lookup symbol).bind fun b => b.worstResident s

end Matching

end Codicis
