/-
The storage server of the Go helpers (`helpers/internal/storage/server.go`).

The server takes requests in their order.  A read runs beside the others and replies when it is
done; a write or a commit is handled before the next request is taken.  What the store makes of
a call is left to the environment: here it only matters whether a write was applied.
-/
import Codicis.Ipc.Message

namespace Codicis

namespace GoStorage

/-- A byte that `strings.TrimSpace` takes off. -/
def isSpace (c : Char) : Bool :=
  c = ' ' || c = '\t' || c = '\n' || c = '\r' || c = Char.ofNat 11 || c = Char.ofNat 12

def trimSpace (s : List Char) : List Char :=
  ((s.dropWhile isSpace).reverse.dropWhile isSpace).reverse

/-- The digits of `strconv.ParseInt`: all of them, and at least one. -/
def parseDecimal (s : List Char) : Option ℕ :=
  if s ≠ [] ∧ s.all Char.isDigit = true then some (parseDigits 0 s) else none

/-- `strconv.ParseInt` in base 10, for 64 bits. -/
def parseInt64 : List Char → Option ℤ
  | '-' :: s => (parseDecimal s).bind fun n => if n ≤ 2 ^ 63 then some (-(n : ℤ)) else none
  | '+' :: s => (parseDecimal s).bind fun n => if n < 2 ^ 63 then some (n : ℤ) else none
  | s => (parseDecimal s).bind fun n => if n < 2 ^ 63 then some (n : ℤ) else none

/-- The first value for a key as an integer; `0` if absent or unparseable. -/
def getInt (m : HelperMessage) (key : String) : ℤ :=
  ((m.get key).bind fun v => parseInt64 (trimSpace v.toList)).getD 0

/-- The first value for a key; empty if absent. -/
def getText (m : HelperMessage) (key : String) : String := (m.get key).getD ""

/-- A write of the store. -/
inductive StoreWrite
  | reportOrder (reqId : ℕ) (symbol owner : String) (id : ℕ) (side : String) (price qty : ℤ)
  | reportRest (reqId : ℕ) (symbol side : String) (id : ℕ) (price leaves : ℤ) (seq : ℕ)
  | reportFill (reqId : ℕ) (symbol : String) (id : ℕ) (qty remaining : ℤ) (complete : Bool)
  | reportCancel (symbol : String) (id : ℕ)
  | reportTrade (reqId : ℕ) (symbol : String) (taker maker : ℕ) (price qty : ℤ)
deriving DecidableEq, Repr

/-- The write that a request asks for. -/
def writeOf (m : HelperMessage) : Option StoreWrite :=
  if m.type = "report_order" then
    some (.reportOrder m.reqId (getText m "symbol") (getText m "owner") (toU64 (getInt m "id"))
      (getText m "side") (getInt m "price") (getInt m "qty"))
  else if m.type = "report_rest" then
    some (.reportRest m.reqId (getText m "symbol") (getText m "side") (toU64 (getInt m "id"))
      (getInt m "price") (getInt m "leaves") (toU64 (getInt m "seq")))
  else if m.type = "report_fill" then
    some (.reportFill m.reqId (getText m "symbol") (toU64 (getInt m "id")) (getInt m "qty")
      (getInt m "remaining") (getText m "status" = "filled"))
  else if m.type = "report_cancel" then
    some (.reportCancel (getText m "symbol") (toU64 (getInt m "id")))
  else if m.type = "report_trade" then
    some (.reportTrade m.reqId (getText m "symbol") (toU64 (getInt m "taker"))
      (toU64 (getInt m "maker")) (getInt m "price") (getInt m "qty"))
  else none

def isRead (type : String) : Bool :=
  type = "pull_levels" || type = "pull_position" || type = "pull_watermarks" || type = "ping"

/-- The server, with the reads that are under way and the writes that the store has applied. -/
structure Server where
  /-- The highest `req_id` of a write. -/
  highWrite : ℕ := 0
  reading : List HelperMessage := []
  applied : List (ℕ × StoreWrite) := []

namespace Server

def noteWrite (s : Server) (reqId : ℕ) : Server := { s with highWrite := max s.highWrite reqId }

def ackOK (m : HelperMessage) : HelperMessage :=
  { reqId := m.reqId, type := m.type, fields := [("status", "ok")] }

def ackErr (m : HelperMessage) (reason : String) : HelperMessage :=
  { reqId := m.reqId, type := m.type, fields := [("status", "error"), ("reason", reason)] }

/-- Handle a request that is not a read, with what the store returns: nothing, or an error. -/
def handleWrite (s : Server) (m : HelperMessage) (err : Option String) : Server × HelperMessage :=
  match writeOf m with
  | some w =>
    -- the watermark is raised before the store is called
    let s := s.noteWrite m.reqId
    match err with
    | none => ({ s with applied := s.applied ++ [(m.reqId, w)] }, ackOK m)
    | some reason => (s, ackErr m reason)
  | none =>
    if m.type = "commit" then
      match err with
      | none => (s, { reqId := m.reqId, type := "commit",
                      fields := [("committed", toString s.highWrite)] })
      | some reason => (s, ackErr m reason)
    else (s, ackErr m ("unknown type: " ++ m.type))

/-- The reply to a read, with the fields that the store has found. -/
def readReply (m : HelperMessage) (fields : List (String × String)) : HelperMessage :=
  { reqId := m.reqId, type := if m.type = "ping" then "pong" else m.type, fields := fields }

end Server

end GoStorage

end Codicis
