/-
The reference storage helper (`tools/storage_helper/main.cc`): an in-memory system of
record for orders, positions and the resting book.

`handle` is the request handler, on the messages as they come off the wire.  The helper computes
in signed numbers of 64 bits and does not check for overflow; `Arith` says whether a run is with
numbers that wrap around or with exact ones, as runs without overflow are.
-/
import Codicis.Ipc.Message
import Codicis.Lib.Map
import Mathlib.Data.List.Sort

namespace Codicis

namespace StorageHelper

/-- How numbers are read and kept. -/
structure Arith where
  parse : List Char → ℤ
  norm : ℤ → ℤ

namespace Arith

/-- Exact numbers. -/
def exact : Arith := ⟨parseInt, id⟩

/-- Numbers of 64 bits that wrap around. -/
def int64 : Arith := ⟨wrappedInt, wrapI64⟩

/-- A number in a field; `0` if the field is absent. -/
def intField (a : Arith) (req : HelperMessage) (key : String) : ℤ :=
  ((req.get key).map fun s => a.parse s.toList).getD 0

end Arith

/-- What the helper remembers about an order, to attribute its later fills. -/
structure OrderInfo where
  owner : String := ""
  side : String := ""
  symbol : String := ""
deriving DecidableEq, Repr

/-- A resting order that the engine can pull back into memory. -/
structure RestingOrder where
  id : ℕ := 0
  price : ℤ := 0
  leaves : ℤ := 0
  seq : ℕ := 0
deriving DecidableEq, Repr

/-- The orders of one symbol and side, by price. -/
abbrev Prices : Type := Map ℤ (List RestingOrder)

/-- The state of the helper. -/
structure State where
  /-- The highest reported request id (commit watermark). -/
  highest : ℕ := 0
  orderInfo : Map ℕ OrderInfo := ∅
  /-- The signed net position of an owner in a symbol. -/
  positions : Map (String × String) ℤ := ∅
  /-- The resting book, by symbol and side. -/
  resting : Map (String × String) Prices := ∅
  /-- Where an order rests: its symbol, side and price. -/
  restIndex : Map ℕ (String × String × ℤ) := ∅

namespace State

/-- The prices of a symbol and side. -/
def prices (st : State) (key : String × String) : Prices := (st.resting.lookup key).getD ∅

/-- The orders at a symbol, side and price. -/
def restingAt (st : State) (key : String × String) (price : ℤ) : List RestingOrder :=
  ((st.prices key).lookup price).getD []

/-- Write the orders at a symbol, side and price. -/
def setLevel (st : State) (key : String × String) (price : ℤ) (v : List RestingOrder) : State :=
  { st with resting := st.resting.insert key ((st.prices key).insert price v) }

/-- A reported request raises the watermark. -/
def reported (st : State) (reqId : ℕ) : State := { st with highest := max st.highest reqId }

/-- Take an order out of its level; an empty level goes, and so does an empty side. -/
def removeFrom (st : State) (key : String × String) (price : ℤ) (id : ℕ) : State :=
  match st.resting.lookup key with
  | none => st
  | some prices =>
    match prices.lookup price with
    | none => st
    | some v =>
      let v := v.filter (·.id ≠ id)
      let prices := if v = [] then prices.erase price else prices.insert price v
      { st with resting :=
          if prices.keys = [] then st.resting.erase key else st.resting.insert key prices }

/-- Remove an order from the resting book, if present (`RemoveResting`). -/
def removeResting (st : State) (id : ℕ) : State :=
  match st.restIndex.lookup id with
  | none => st
  | some (sym, side, price) =>
    let st := st.removeFrom (sym, side) price id
    { st with restIndex := st.restIndex.erase id }

/-! ### The request handler -/

/-- Remember an order. -/
def rememberOrder (st : State) (a : Arith) (req : HelperMessage) : State :=
  match req.get "id" with
  | none => st
  | some id =>
    let info : OrderInfo :=
      { owner := (req.get "owner").getD "", side := (req.get "side").getD "",
        symbol := (req.get "symbol").getD "" }
    { st with orderInfo := st.orderInfo.insert (toU64 (a.parse id.toList)) info }

/-- A fill moves the net position of the owner of the order. -/
def movePosition (st : State) (a : Arith) (oid : ℕ) (q : ℤ) : State :=
  match st.orderInfo.lookup oid with
  | none => st
  | some info =>
    if info.owner = "" then st
    else
      let key := (info.owner, info.symbol)
      let net := (st.positions.lookup key).getD 0
      { st with
        positions :=
          st.positions.insert key (a.norm (net + if info.side = "buy" then q else a.norm (-q))) }

/-- The leaves of an order in a level after it gave up `q`: those of the last row. -/
def leavesLeft (v : List RestingOrder) (oid : ℕ) : ℤ :=
  (((v.filter (·.id = oid)).getLast?).map (·.leaves)).getD 0

/-- A fill decrements the order in the resting book, and drops it when nothing is
left.  A taker that never rested is not there. -/
def fillResting (st : State) (a : Arith) (oid : ℕ) (q : ℤ) : State :=
  match st.restIndex.lookup oid with
  | none => st
  | some (sym, side, price) =>
    let v := (st.restingAt (sym, side) price).map fun o =>
      if o.id = oid then { o with leaves := a.norm (o.leaves - q) } else o
    let st := st.setLevel (sym, side) price v
    if leavesLeft v oid ≤ 0 then st.removeResting oid else st

/-- Apply a fill report. -/
def applyFill (st : State) (a : Arith) (req : HelperMessage) : State :=
  match req.get "id", req.get "qty" with
  | some id, some qty =>
    let oid := toU64 (a.parse id.toList)
    let q := a.parse qty.toList
    (st.movePosition a oid q).fillResting a oid q
  | _, _ => st

/-- Put an order at the back of its level, in place of an earlier report of it. -/
def addResting (st : State) (sym side : String) (o : RestingOrder) : State :=
  let st := st.removeResting o.id
  let st := st.setLevel (sym, side) o.price (st.restingAt (sym, side) o.price ++ [o])
  { st with restIndex := st.restIndex.insert o.id (sym, side, o.price) }

/-- Apply a report of a resting order. -/
def applyRest (st : State) (a : Arith) (req : HelperMessage) : State :=
  match req.get "symbol", req.get "side", req.get "id" with
  | some sym, some side, some id =>
    st.addResting sym side
      { id := toU64 (a.parse id.toList), price := a.intField req "price",
        leaves := a.intField req "leaves", seq := toU64 (a.intField req "seq") }
  | _, _, _ => st

/-- Apply a cancel report. -/
def applyCancel (st : State) (a : Arith) (req : HelperMessage) : State :=
  match req.get "id" with
  | none => st
  | some id => st.removeResting (toU64 (a.parse id.toList))

/-- The prices of a side beyond `fromPrice`, best first. -/
def pricesBeyond (prices : Prices) (side : String) (fromPrice : ℤ) : List ℤ :=
  let sorted := prices.keys.insertionSort (· ≤ ·)
  if side = "buy" then sorted.reverse.filter (· < fromPrice) else sorted.filter (fromPrice < ·)

/-- The orders of the best `count` levels beyond `fromPrice`, each level by sequence. -/
def pulledLevels (prices : Prices) (side : String) (fromPrice count : ℤ) :
    List (List RestingOrder) :=
  ((pricesBeyond prices side fromPrice).take count.toNat).map fun p =>
    ((prices.lookup p).getD []).insertionSort (·.seq ≤ ·.seq)

/-- One record of the reply to a level pull. -/
def renderOrder (o : RestingOrder) : String :=
  toString o.id ++ "," ++ toString o.price ++ "," ++ toString o.leaves ++ "," ++
    toString o.seq ++ ";"

/-- The reply to a level pull. -/
def levelsReply (st : State) (a : Arith) (req resp : HelperMessage) : HelperMessage :=
  let resp := { resp with type := "levels" }
  match req.get "symbol", req.get "side" with
  | some sym, some side =>
    let levels := pulledLevels (st.prices (sym, side)) side (a.intField req "from_price")
      (a.intField req "count")
    let blob := (levels.flatten.map renderOrder).foldl (· ++ ·) ""
    (((resp.set "symbol" sym).set "side" side).set "orders" blob).set "count"
      (toString levels.length)
  | _, _ => (resp.set "orders" "").set "count" (toString 0)

/-- The net position of an owner in a symbol. -/
def netPosition (st : State) (req : HelperMessage) : ℤ :=
  match req.get "user", req.get "symbol" with
  | some user, some sym => (st.positions.lookup (user, sym)).getD 0
  | _, _ => 0

/-- The largest order id ever reported. -/
def maxId (st : State) : ℕ := st.orderInfo.keys.foldl max 0

/-- The largest sequence number of a resting order. -/
def maxRank (st : State) : ℕ :=
  ((st.resting.pairs.flatMap fun e => e.2.pairs.flatMap Prod.snd).map (·.seq)).foldl max 0

/-- Produce the response for a request, updating the state (`Handle`). -/
def handle (st : State) (a : Arith) (req : HelperMessage) : State × HelperMessage :=
  let resp : HelperMessage := { reqId := req.reqId }
  let ok : HelperMessage := { resp with type := req.type }.set "status" "ok"
  if req.type = "report_order" then ((st.reported req.reqId).rememberOrder a req, ok)
  else if req.type = "report_fill" then ((st.reported req.reqId).applyFill a req, ok)
  else if req.type = "report_trade" then (st.reported req.reqId, ok)
  else if req.type = "commit" then
    (st, { resp with type := "commit" }.set "committed" (toString st.highest))
  else if req.type = "pull_position" then
    (st, { resp with type := "position" }.set "net" (toString (st.netPosition req)))
  else if req.type = "report_rest" then (st.applyRest a req, ok)
  else if req.type = "report_cancel" then (st.applyCancel a req, ok)
  else if req.type = "pull_levels" then (st, st.levelsReply a req resp)
  else if req.type = "pull_watermarks" then
    (st, ({ resp with type := req.type }.set "max_id" (toString st.maxId)).set "max_rank"
      (toString st.maxRank))
  else if req.type = "ping" then (st, { resp with type := "pong" })
  else (st, { resp with type := "error" }.set "reason" ("unknown type: " ++ req.type))

/-- Handle requests in order. -/
def handleAll (st : State) (a : Arith) (reqs : List HelperMessage) : State :=
  reqs.foldl (fun st req => (st.handle a req).1) st

end State

end StorageHelper

end Codicis
