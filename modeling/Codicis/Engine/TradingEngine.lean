/-
The report-before-place engine (`TradingEngine` of `engine/trading_engine.cc`) over the
helper connection (`HelperClient` of `ipc/helper_client.cc`).

A request is answered later, or its callback runs inside the send, when the connection
is closed or the write fails; a callback may place orders, send more requests and call
the engine again.  The model makes the call stack explicit: a `Task` is what a function
still has to do after a point where control may leave it, and `step` runs the top task.
When the stack is empty, control is in the event loop.

What the engine does not decide is an action of the environment (`Act`): the calls from
outside, the replies, timeouts and closes of the helper, whether a write succeeds, what
a completion callback does, and the handle that the generator gives out.

`history` and `sent` are ghosts: what has happened, and the requests that were handed to
the connection.
-/
import Codicis.Engine.Matching
import Codicis.Ipc.StorageClient
import Codicis.Lib.Machine

namespace Codicis

/-- The handle of a resting order: where it lives and who owns it. -/
structure Handle where
  symbol : Symbol
  id : OrderId
  owner : String
deriving DecidableEq, Repr

/-- A reported order that awaits its placement. -/
structure Pending where
  symbol : Symbol
  owner : String
  orderUuid : String
  order : Order
  clientId : ClientId := 0
  /-- Storage acknowledged the report, or it failed. -/
  acked : Bool := false
  /-- The report succeeded. -/
  ok : Bool := false
  /-- The position of the account is loaded. -/
  posReady : Bool := false
deriving DecidableEq, Repr

/-- What the completion callback of an order receives. -/
structure Result where
  storageOk : Bool := false
  orderId : OrderId := 0
  orderUuid : String := ""
  outcome : SubmitOutcome := {}
deriving DecidableEq, Repr

/-- The outcome of a cancel; a successful one tells the order. -/
inductive CancelResult
  | ok (h : Handle)
  | notFound
  | forbidden
deriving DecidableEq, Repr

/-- The state of the engine. -/
structure Engine where
  matching : Matching := {}
  /-- The orders that await placement, by arrival. -/
  pending : Map ℕ Pending := ∅
  handles : Map String Handle := ∅
  idUuid : Map OrderId String := ∅
  userClient : Map String ClientId := ∅
  positionLoaded : List (Symbol × ClientId) := []
  positionLoading : List (Symbol × ClientId) := []
  memLevels : ℕ := 0
  warmed : List Symbol := []
  depthPulls : ℤ := 0
  pullIgnore : List OrderId := []
  nextAssignSeq : ℕ := 1
  nextPlaceSeq : ℕ := 1
  nextOrderId : OrderId := 1
  nextClientId : ClientId := 1
  reportFailures : ℕ := 0

/-- The callback of a request. -/
inductive Resp
  /-- The report of the order with this arrival number. -/
  | order (seq : ℕ)
  | position (symbol : Symbol) (client : ClientId)
  | pull (symbol : Symbol) (side : Side)
  /-- The report of a trade or a fill. -/
  | report
  /-- A report without a callback. -/
  | ignored
deriving DecidableEq, Repr

/-- The connection to the helper. -/
structure Client where
  closed : Bool := false
  nextReqId : ℕ := 1
  /-- The requests that await a response. -/
  pending : Map ℕ Resp := ∅
  /-- The reports not yet committed; `true` once acknowledged. -/
  outbox : Map ℕ (ReportKind × Bool) := ∅
  sent : List HelperMessage := []

/-- The calls into the engine.  The handle of a new order comes from the generator. -/
inductive Call
  | submit (symbol : Symbol) (owner : String) (order : Order) (uuid : String)
  | cancel (uuid : String) (requester : String)
  | runAuction (symbol : Symbol) (opening : Bool)
deriving DecidableEq, Repr

/-- What remains to be done on the call stack. -/
inductive Task
  | call (c : Call)
  /-- `submit` stages the order. -/
  | emplace (seq : ℕ) (p : Pending)
  /-- `StorageClient::report`. -/
  | report (kind : ReportKind) (req : Request) (resp : Resp)
  /-- `report` enters the request into the outbox. -/
  | stash (id : ℕ) (kind : ReportKind)
  /-- `HelperClient::send`. -/
  | send (req : Request) (resp : Resp)
  /-- A callback runs, with the reply or with a failure. -/
  | deliver (resp : Resp) (reply : Option HelperMessage)
  /-- The loop of `on_timer` over the expired requests. -/
  | sweep (ids : List ℕ)
  | drain
  /-- The loop of `report_results` and `report_auction` over the filled orders. -/
  | fills (symbol : Symbol) (filled : List (OrderId × ℤ))
  /-- `report_requeued`. -/
  | requeued (symbol : Symbol)
  /-- `prune_filled`. -/
  | prune (symbol : Symbol) (trades : List Trade)
  /-- `cancel` forgets the handle. -/
  | forget (uuid : String) (id : OrderId)
  /-- A callback of the caller runs: that of the order with this arrival number, or that
  of an auction. -/
  | user (done : Option (ℕ × Result))

/-- What happens. -/
inductive Event
  | submitted (seq : ℕ) (symbol : Symbol) (order : Order)
  /-- The report of an order completes, with a reply or with a failure. -/
  | answered (seq : ℕ) (reply : Option HelperMessage)
  | placed (seq : ℕ) (symbol : Symbol) (order : Order) (outcome : SubmitOutcome)
  /-- The completion callback of an order runs. -/
  | called (seq : ℕ) (r : Result)
  | cancelled (uuid : String) (result : CancelResult)
  | auctioned (symbol : Symbol) (opening : Bool) (trades : List Trade)

/-- A configuration of the engine. -/
structure Config where
  engine : Engine := {}
  client : Client := {}
  stack : List Task := []
  history : List Event := []

/-- The actions of the environment. -/
inductive Act
  /-- A call from the event loop. -/
  | call (c : Call)
  /-- A message of the helper. -/
  | reply (msg : HelperMessage)
  /-- Requests time out. -/
  | timeout (ids : List ℕ)
  /-- The connection closes; the requests in flight fail in this order. -/
  | close (ids : List ℕ)
  /-- The program goes on; a write succeeds. -/
  | run
  /-- The program goes on; a write fails, and the requests in flight fail in this order. -/
  | fail (ids : List ℕ)
  /-- A callback of the caller makes these calls. -/
  | user (calls : List Call)

namespace Engine

/-- The client id of an owner, assigned on first use. -/
def clientFor (e : Engine) (owner : String) : Engine × ClientId :=
  if owner = "" then (e, 0)
  else
    match e.userClient.lookup owner with
    | some cid => (e, cid)
    | none =>
      ({ e with userClient := e.userClient.insert owner e.nextClientId,
                nextClientId := e.nextClientId + 1 }, e.nextClientId)

/-- Whether the position of an account is available, and the pull of it if there is none
in flight. -/
def ensurePosition (e : Engine) (symbol : Symbol) (owner : String) (client : ClientId) :
    Engine × Bool × List Task :=
  if client = 0 then (e, true, [])
  else if (symbol, client) ∈ e.positionLoaded then (e, true, [])
  else if (symbol, client) ∈ e.positionLoading then (e, false, [])
  else
    ({ e with positionLoading := e.positionLoading.insert (symbol, client) }, false,
      [.send (StorageClient.pullPosition owner symbol) (.position symbol client)])

/-- Give an order its id, its account and an arrival number. -/
def assign (e : Engine) (owner : String) (order : Order) : Engine × Order :=
  let r := e.clientFor owner
  ({ r.1 with nextOrderId := if order.id = 0 then r.1.nextOrderId + 1 else r.1.nextOrderId
              nextAssignSeq := r.1.nextAssignSeq + 1 },
    { order with id := if order.id = 0 then e.nextOrderId else order.id, clientId := r.2 })

/-- Submit an order: what is left to do is to pull the position, to stage the order and
to report it. -/
def submit (e : Engine) (symbol : Symbol) (owner : String) (order : Order) (uuid : String) :
    Engine × Order × List Task :=
  let a := e.assign owner order
  let r := a.1.ensurePosition symbol owner a.2.clientId
  let p : Pending :=
    { symbol := symbol, owner := owner, orderUuid := uuid, order := a.2,
      clientId := a.2.clientId, posReady := r.2.1 }
  (r.1, a.2, r.2.2 ++ [.emplace e.nextAssignSeq p,
    .report .order (StorageClient.reportOrder symbol owner a.2) (.order e.nextAssignSeq)])

/-! ### The resident window -/

/-- The smallest number of 64 bits. -/
def kMin : ℤ := -2 ^ 63

/-- The largest number of 64 bits. -/
def kMax : ℤ := 2 ^ 63 - 1

/-- The order would cross beyond the resident contra window. -/
def needsDeep (e : Engine) (symbol : Symbol) (o : Order) (contra : Side) : Bool :=
  if e.matching.hasDeep symbol contra = false then false
  else
    match e.matching.worstResident symbol contra with
    | none => true
    | some worst =>
      match o.type with
      | .market => true
      | .limit =>
        match o.side with
        | .buy => worst < o.price
        | .sell => o.price < worst

/-- Where a pull of a side starts: its worst resident price. -/
def pullFrom (e : Engine) (symbol : Symbol) (contra : Side) : ℤ :=
  match e.matching.worstResident symbol contra with
  | some worst => worst
  | none => match contra with | .sell => kMin | .buy => kMax

/-- Whether the resident window covers the order, and the pulls if it does not. -/
def ensureDepth (e : Engine) (symbol : Symbol) (o : Order) : Engine × Bool × List Task :=
  if e.memLevels = 0 then (e, true, [])
  else if 0 < e.depthPulls then (e, false, [])
  else if symbol ∉ e.warmed then
    ({ e with warmed := e.warmed.insert symbol, depthPulls := e.depthPulls + 2 }, false,
      [.send (StorageClient.pullLevels symbol .buy kMax e.memLevels) (.pull symbol .buy),
       .send (StorageClient.pullLevels symbol .sell kMin e.memLevels) (.pull symbol .sell)])
  else if e.needsDeep symbol o o.side.opposite = true then
    ({ e with depthPulls := e.depthPulls + 1 }, false,
      [.send (StorageClient.pullLevels symbol o.side.opposite
          (e.pullFrom symbol o.side.opposite) e.memLevels) (.pull symbol o.side.opposite)])
  else (e, true, [])

/-- Materialise one pulled order, unless it was cancelled meanwhile or is resident. -/
def pullOne (symbol : Symbol) (side : Side) (e : Engine) (po : PulledOrder) : Engine :=
  if po.id ∈ e.pullIgnore then e
  else if (e.matching.find symbol po.id).isSome = true then e
  else
    let o : Order :=
      { id := po.id, side := side, type := .limit, price := po.price, qty := po.leaves,
        leaves := po.leaves, seq := po.seq, rank := po.seq }
    { e with matching := e.matching.insertResident symbol o }

/-- A level pull completes. -/
def onPull (e : Engine) (symbol : Symbol) (side : Side) (orders : List PulledOrder) :
    Engine × List Task :=
  let e := orders.foldl (pullOne symbol side) e
  let e := { e with depthPulls := e.depthPulls - 1 }
  if e.depthPulls = 0 then ({ e with pullIgnore := [] }, [.drain]) else (e, [])

/-! ### Callbacks -/

/-- The report of an order completes. -/
def onOrder (e : Engine) (seq : ℕ) (ok : Bool) : Engine × List Task :=
  match e.pending.lookup seq with
  | none => (e, [])
  | some p => ({ e with pending := e.pending.insert seq { p with acked := true, ok := ok } },
      [.drain])

/-- The account of a staged order has its position. -/
def markReady (symbol : Symbol) (client : ClientId) (p : Pending) : Pending :=
  if p.clientId = client ∧ p.symbol = symbol then { p with posReady := true } else p

/-- A position pull completes. -/
def onPosition (e : Engine) (symbol : Symbol) (client : ClientId) (net : Option ℤ) :
    Engine × List Task :=
  let e := match net with
    | none => e
    | some net => { e with matching := e.matching.seedPosition symbol client net }
  ({ e with positionLoading := e.positionLoading.filter (· ≠ (symbol, client)),
            positionLoaded := e.positionLoaded.insert (symbol, client),
            pending := Map.mapVal (markReady symbol client) e.pending }, [.drain])

/-- The report of a trade or a fill completes. -/
def onReport (e : Engine) (ok : Bool) : Engine :=
  if ok = true then e else { e with reportFailures := e.reportFailures + 1 }

/-! ### Placement -/

/-- The sums of the quantities by order, in ascending order of the ids. -/
def tally (l : List (OrderId × ℤ)) : List (OrderId × ℤ) :=
  ((l.map Prod.fst).dedup.insertionSort (· ≤ ·)).map fun id =>
    (id, ((l.filter (·.1 = id)).map Prod.snd).sum)

/-- The reports of the executions. -/
def reportTrades (symbol : Symbol) (trades : List Trade) : List Task :=
  trades.map fun t => .report .trade (StorageClient.reportTrade symbol t) .report

/-- The report of the fill of the taker. -/
def reportTaker (symbol : Symbol) (taker : Order) (out : SubmitOutcome) : List Task :=
  if 0 < out.filled then
    [.report .fill (StorageClient.reportFill symbol taker.id out.filled (taker.qty - out.filled)
      (taker.qty - out.filled = 0)) .report]
  else []

/-- `report_results`: the executions, and the fills of the taker and of the makers. -/
def reportResults (symbol : Symbol) (taker : Order) (out : SubmitOutcome) : List Task :=
  reportTrades symbol out.trades ++ reportTaker symbol taker out ++
    [.fills symbol (tally (out.trades.map fun t => (t.makerId, t.qty)))]

/-- `report_auction`: the executions, and the fills of both sides. -/
def reportAuction (symbol : Symbol) (trades : List Trade) : List Task :=
  reportTrades symbol trades ++
    [.fills symbol (tally (trades.flatMap fun t => [(t.takerId, t.qty), (t.makerId, t.qty)]))]

/-- The order rests, in memory or deep, and gets a handle. -/
def rests (out : SubmitOutcome) : Bool := out.rested || out.restedDeep

/-- Register the handle of an order that rests; entries that are there stay. -/
def register (e : Engine) (p : Pending) : Engine :=
  { e with
    handles := if (e.handles.lookup p.orderUuid).isSome = true then e.handles
      else e.handles.insert p.orderUuid ⟨p.symbol, p.order.id, p.owner⟩
    idUuid := if (e.idUuid.lookup p.order.id).isSome = true then e.idUuid
      else e.idUuid.insert p.order.id p.orderUuid }

/-- Drop the handle of a maker that is gone. -/
def pruneOne (symbol : Symbol) (e : Engine) (t : Trade) : Engine :=
  if (e.matching.find symbol t.makerId).isSome = true then e
  else
    match e.idUuid.lookup t.makerId with
    | none => e
    | some uuid =>
      { e with handles := e.handles.erase uuid, idUuid := e.idUuid.erase t.makerId }

/-- What `drain` still does for an order that it has taken off the queue and submitted. -/
def afterPlace (seq : ℕ) (p : Pending) (out : SubmitOutcome) : List Task :=
  (if rests out = true then [.send (StorageClient.reportRest p.symbol out.resting) .ignored]
    else []) ++
  reportResults p.symbol p.order out ++
  [.requeued p.symbol, .prune p.symbol out.trades,
   .user (some (seq, { storageOk := true, orderId := p.order.id, orderUuid := p.orderUuid,
                       outcome := out })), .drain]

/-- The head of the queue may be placed, as far as its own report and position go. -/
def head? (e : Engine) : Option Pending :=
  (e.pending.lookup e.nextPlaceSeq).filter fun p => p.acked && p.posReady

/-- Take the head off the queue. -/
def takeHead (e : Engine) : Engine :=
  { e with pending := e.pending.erase e.nextPlaceSeq, nextPlaceSeq := e.nextPlaceSeq + 1 }

/-- The result of a cancel: only the owner of a known handle may cancel. -/
def cancelResult (e : Engine) (uuid requester : String) : CancelResult :=
  match e.handles.lookup uuid with
  | none => .notFound
  | some h => if h.owner = requester then .ok h else .forbidden

end Engine

namespace Client

/-- A request is handed to the connection. -/
def transmit (cl : Client) (req : Request) (resp : Resp) : Client :=
  { cl with nextReqId := cl.nextReqId + 1, pending := cl.pending.insert cl.nextReqId resp,
            sent := cl.sent ++ [⟨cl.nextReqId, req.type, req.fields⟩] }

/-- A request is refused: the connection is closed. -/
def refuse (cl : Client) : Client := { cl with nextReqId := cl.nextReqId + 1 }

/-- A request is no longer in flight. -/
def settle (cl : Client) (id : ℕ) : Client := { cl with pending := cl.pending.erase id }

/-- The connection closes. -/
def shut (cl : Client) : Client := { cl with closed := true, pending := ∅ }

/-- Enter a report into the outbox; an entry that is there stays. -/
def stash (cl : Client) (id : ℕ) (kind : ReportKind) : Client :=
  if (cl.outbox.lookup id).isSome = true then cl
  else { cl with outbox := cl.outbox.insert id (kind, false) }

/-- A reply acknowledges a report. -/
def acknowledge (cl : Client) (reply : Option HelperMessage) : Client :=
  match reply with
  | none => cl
  | some msg =>
    match cl.outbox.lookup msg.reqId with
    | none => cl
    | some e => { cl with outbox := cl.outbox.insert msg.reqId (e.1, true) }

/-- The callbacks that a close runs, in the order `ids`. -/
def failures (cl : Client) (ids : List ℕ) : List Task :=
  (ids.filterMap fun id => cl.pending.lookup id).map fun resp => .deliver resp none

end Client

namespace Config

/-- Log an event. -/
def log (c : Config) (ev : Event) : Config := { c with history := c.history ++ [ev] }

/-- Replace the stack. -/
def withStack (c : Config) (k : List Task) : Config := { c with stack := k }

/-- The connection closes (`handle_close`); the requests in flight fail in the order
`ids`. -/
def handleClose (c : Config) (ids : List ℕ) (k : List Task) : Config :=
  { c with client := c.client.shut, stack := c.client.failures ids ++ k }

/-- `HelperClient::send`, on the task below which `k` remains.  `fails` is the order in
which the requests in flight fail when the write does; it must name each of them once. -/
def send (c : Config) (req : Request) (resp : Resp) (k : List Task)
    (fails : Option (List ℕ)) : Config :=
  if c.client.closed = true then
    { c with client := c.client.refuse, stack := .deliver resp none :: k }
  else
    let c' := { c with client := c.client.transmit req resp }
    match fails with
    | none => c'.withStack k
    | some ids => if ids.Perm c'.client.pending.keys then c'.handleClose ids k else c

/-- A callback runs. -/
def deliver (c : Config) (resp : Resp) (reply : Option HelperMessage) (k : List Task) :
    Config :=
  match resp with
  | .order seq =>
    let r := c.engine.onOrder seq reply.isSome
    { c with engine := r.1, client := c.client.acknowledge reply, stack := r.2 ++ k }.log
      (.answered seq reply)
  | .position symbol client =>
    let r := c.engine.onPosition symbol client (reply.map StorageClient.pulledNet)
    { c with engine := r.1, stack := r.2 ++ k }
  | .pull symbol side =>
    let r := c.engine.onPull symbol side ((reply.map StorageClient.pulledOrders).getD [])
    { c with engine := r.1, stack := r.2 ++ k }
  | .report =>
    { c with engine := c.engine.onReport reply.isSome,
             client := c.client.acknowledge reply, stack := k }
  | .ignored => c.withStack k

/-- The next expired request fails, unless it was settled meanwhile. -/
def sweep (c : Config) (ids : List ℕ) (k : List Task) : Config :=
  match ids with
  | [] => c.withStack k
  | id :: ids =>
    match c.client.pending.lookup id with
    | none => c.withStack (.sweep ids :: k)
    | some resp =>
      { c with client := c.client.settle id, stack := .deliver resp none :: .sweep ids :: k }

/-- A call into the engine. -/
def call (c : Config) (x : Call) (k : List Task) : Comp Config :=
  match x with
  | .submit symbol owner order uuid =>
    let r := c.engine.submit symbol owner order uuid
    pure ({ c with engine := r.1, stack := r.2.2 ++ k }.log
      (.submitted c.engine.nextAssignSeq symbol r.2.1))
  | .cancel uuid requester =>
    let r := c.engine.cancelResult uuid requester
    pure (match r with
      | .ok h =>
        let e := { c.engine with matching := (c.engine.matching.cancel h.symbol h.id).1 }
        { c with engine := e,
                 stack := .send (StorageClient.reportCancel h.symbol h.id) .ignored ::
                   .requeued h.symbol :: .forget uuid h.id :: k }.log (.cancelled uuid r)
      | _ => (c.withStack k).log (.cancelled uuid r))
  | .runAuction symbol opening =>
    c.engine.matching.runAuction symbol opening >>= fun r =>
      pure ({ c with engine := { c.engine with matching := r.1 },
                     stack := Engine.reportAuction symbol r.2 ++
                       [Task.requeued symbol, Task.user none] ++ k }.log
        (.auctioned symbol opening r.2))

/-- One round of `drain`: place the head of the queue, or leave. -/
def drain (c : Config) (k : List Task) : Comp Config :=
  match c.engine.head? with
  | none => pure (c.withStack k)
  | some p =>
    let d := c.engine.ensureDepth p.symbol p.order
    if d.2.1 = false then pure { c with engine := d.1, stack := d.2.2 ++ k }
    else
      let seq := d.1.nextPlaceSeq
      let e := d.1.takeHead
      if p.ok = true then
        e.matching.submit p.symbol p.order >>= fun r =>
          let e := { e with matching := r.1 }
          let e := if Engine.rests r.2 = true then e.register p else e
          pure ({ c with engine := e, stack := Engine.afterPlace seq p r.2 ++ k }.log
            (.placed seq p.symbol p.order r.2))
      else
        let r : Result := { orderId := p.order.id, orderUuid := p.orderUuid }
        pure { c with engine := e, stack := .user (some (seq, r)) :: .drain :: k }

/-- Report the fill of the next order; what remains of it is read from the book. -/
def fills (c : Config) (symbol : Symbol) (filled : List (OrderId × ℤ)) (k : List Task) :
    Config :=
  match filled with
  | [] => c.withStack k
  | (id, qty) :: rest =>
    let o := c.engine.matching.find symbol id
    c.withStack (.report .fill (StorageClient.reportFill symbol id qty
      ((o.map (·.leaves)).getD 0) o.isNone) .report :: .fills symbol rest :: k)

/-- Re-report the orders that were re-queued. -/
def requeued (c : Config) (symbol : Symbol) (k : List Task) : Config :=
  let r := c.engine.matching.takeRequeued symbol
  { c with engine := { c.engine with matching := r.1 },
           stack := (r.2.map fun o =>
             Task.send (StorageClient.reportRest symbol o) .ignored) ++ k }

/-- `cancel` ends: a pull in flight must not bring the order back, and its handle goes. -/
def forget (c : Config) (uuid : String) (id : OrderId) (k : List Task) : Config :=
  let e := c.engine
  let e := if 0 < e.depthPulls then { e with pullIgnore := e.pullIgnore.insert id } else e
  { c with engine := { e with idUuid := e.idUuid.erase id, handles := e.handles.erase uuid },
           stack := k }

/-- Run the top task of the stack. -/
def runTask (c : Config) (f : Task) (k : List Task) : Comp Config :=
  match f with
  | .call x => c.call x k
  | .emplace seq p =>
    let e := { c.engine with pending := c.engine.pending.insert seq p }
    pure { c with engine := e, stack := k }
  | .report kind req resp =>
    pure (c.withStack (.send req resp :: .stash c.client.nextReqId kind :: k))
  | .stash id kind => pure { c with client := c.client.stash id kind, stack := k }
  | .send req resp => pure (c.send req resp k none)
  | .deliver resp reply => pure (c.deliver resp reply k)
  | .sweep ids => pure (c.sweep ids k)
  | .drain => c.drain k
  | .fills symbol filled => pure (c.fills symbol filled k)
  | .requeued symbol => pure (c.requeued symbol k)
  | .prune symbol trades =>
    pure { c with engine := trades.foldl (Engine.pruneOne symbol) c.engine, stack := k }
  | .forget uuid id => pure (c.forget uuid id k)
  | .user _ => pure c

/-- The answer of the engine to an action; an action that does not apply changes
nothing. -/
def step (c : Config) (a : Act) : Comp Config :=
  match c.stack, a with
  | [], .call x => pure (c.withStack [.call x])
  | [], .reply msg =>
    match c.client.pending.lookup msg.reqId with
    | none => pure c
    | some resp =>
      pure { c with client := c.client.settle msg.reqId, stack := [.deliver resp (some msg)] }
  | [], .timeout ids => pure (c.withStack [.sweep ids])
  | [], .close ids =>
    pure (if c.client.closed = false ∧ ids.Perm c.client.pending.keys then c.handleClose ids []
      else c)
  | .send req resp :: k, .fail ids => pure (c.send req resp k (some ids))
  | .user done :: k, .user calls =>
    let c := c.withStack (calls.map Task.call ++ k)
    pure (match done with
      | none => c
      | some (seq, r) => c.log (.called seq r))
  | f :: k, .run => c.runTask f k
  | _, _ => pure c

/-- The engine at rest, with books of the given policy and window. -/
def init (stp : StpPolicy) (memLevels : ℕ) : Config :=
  { engine := { matching := { stp := stp, memLevels := memLevels }, memLevels := memLevels } }

/-- The configurations that are reached by actions that satisfy `P`. -/
abbrev Reach (P : Config → Act → Prop) (stp : StpPolicy) (memLevels : ℕ) : Config → Prop :=
  Machine.Reach step P (init stp memLevels)

end Config

end Codicis
