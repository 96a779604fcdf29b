/-
The storage protocol, as the engine speaks it (`ipc/storage_client.cc`): the requests it
sends, and what it reads from the replies.
-/
import Codicis.Ipc.Message
import Codicis.Core.Order

namespace Codicis

/-- A request before it has its correlation id. -/
structure Request where
  type : String
  fields : List (String × String)
deriving DecidableEq, Repr

/-- The kinds of report that await a commit. -/
inductive ReportKind
  | order
  | trade
  | fill
deriving DecidableEq, Repr

/-- One resting order returned by a level pull. -/
structure PulledOrder where
  id : OrderId := 0
  price : ℤ := 0
  leaves : ℤ := 0
  seq : ℕ := 0
deriving DecidableEq, Repr

/-- The name of a side in storage messages. -/
def sideName : Side → String
  | .buy => "buy"
  | .sell => "sell"

namespace StorageClient

/-- Report a new order, with the fields of `OrderFields`. -/
def reportOrder (symbol : Symbol) (owner : String) (o : Order) : Request :=
  ⟨"report_order", [("symbol", symbol), ("owner", owner), ("id", toString o.id),
    ("side", sideName o.side), ("price", toString o.price), ("qty", toString o.qty)]⟩

/-- Report an execution. -/
def reportTrade (symbol : Symbol) (t : Trade) : Request :=
  ⟨"report_trade", [("symbol", symbol), ("taker", toString t.takerId),
    ("maker", toString t.makerId), ("price", toString t.price), ("qty", toString t.qty)]⟩

/-- Report a fill of an order, partial or complete. -/
def reportFill (symbol : Symbol) (id : OrderId) (qty remaining : ℤ) (complete : Bool) : Request :=
  ⟨"report_fill", [("symbol", symbol), ("id", toString id), ("qty", toString qty),
    ("remaining", toString remaining), ("status", if complete = true then "filled" else "partial")]⟩

/-- Record that an order rests. -/
def reportRest (symbol : Symbol) (o : Order) : Request :=
  ⟨"report_rest", [("symbol", symbol), ("side", sideName o.side), ("id", toString o.id),
    ("price", toString o.price), ("leaves", toString o.leaves), ("seq", toString o.rank)]⟩

/-- Remove a cancelled order. -/
def reportCancel (symbol : Symbol) (id : OrderId) : Request :=
  ⟨"report_cancel", [("symbol", symbol), ("id", toString id)]⟩

/-- Pull the best levels beyond a price. -/
def pullLevels (symbol : Symbol) (side : Side) (fromPrice count : ℤ) : Request :=
  ⟨"pull_levels", [("symbol", symbol), ("side", sideName side),
    ("from_price", toString fromPrice), ("count", toString count)]⟩

/-- Pull the net position of an account. -/
def pullPosition (user : String) (symbol : Symbol) : Request :=
  ⟨"pull_position", [("user", user), ("symbol", symbol)]⟩

/-- One record of the reply to a level pull: up to four numbers. -/
def parseRecord (rec : List Char) : PulledOrder :=
  let f := (rec.splitOn ',').map parseInt
  ⟨toU64 (f.getD 0 0), f.getD 1 0, f.getD 2 0, toU64 (f.getD 3 0)⟩

/-- The records of the reply to a level pull (`ParseOrders`). -/
def parseOrders (blob : String) : List PulledOrder :=
  ((blob.toList.splitOn ';').filter (· ≠ [])).map parseRecord

/-- The orders of a successful level pull. -/
def pulledOrders (reply : HelperMessage) : List PulledOrder :=
  ((reply.get "orders").map parseOrders).getD []

/-- The net position of a successful position pull. -/
def pulledNet (reply : HelperMessage) : ℤ :=
  ((reply.get "net").map fun s => parseInt s.toList).getD 0

end StorageClient

end Codicis
