/-
The order model: sides, types, times in force, modifiers and the optional
conditional parts of an order (`core/types.h`, `core/order.h`, `core/order.cc`).

Prices are integer ticks and quantities integer lots, both signed; identifiers,
accounts and sequence numbers are unsigned.  All of them are exact integers here, so
what is proved of books is proved of the runs of the code in which no sum and no
difference of them leaves the 64 bits that it has.  The flag bit set is the record of
its bits.
-/
import Mathlib.Algebra.Order.Ring.Int

namespace Codicis

/-- An order identifier. -/
abbrev OrderId := ℕ

/-- An account identifier; `0` is the anonymous account. -/
abbrev ClientId := ℕ

/-- An instrument. -/
abbrev Symbol := String

/-- The side of an order. -/
inductive Side
  | buy
  | sell
deriving DecidableEq, Repr

/-- The opposite side. -/
def Side.opposite : Side → Side
  | .buy => .sell
  | .sell => .buy

@[simp] lemma Side.opposite_ne (s : Side) : s.opposite ≠ s := by cases s <;> decide

/-- Base matching behaviour. -/
inductive OrdType
  | market
  | limit
deriving DecidableEq, Repr

/-- Time in force. -/
inductive Tif
  | gtc
  | day
  | gtd
  | ioc
  | fok
  | gtx
deriving DecidableEq, Repr

/-- The modifiers of an order, one field for each bit of the flag set. -/
structure OrderFlags where
  hidden : Bool := false
  postOnly : Bool := false
  reduceOnly : Bool := false
  aon : Bool := false
  iceberg : Bool := false
  discretion : Bool := false
  moo : Bool := false
  loo : Bool := false
  moc : Bool := false
  loc : Bool := false
  opg : Bool := false
deriving DecidableEq, Repr

/-- The kinds of a trigger. -/
inductive TriggerKind
  | stop
  | trailAmount
  | trailPercent
deriving DecidableEq, Repr

/-- Stop or trailing trigger. -/
structure TriggerSpec where
  kind : TriggerKind := .stop
  stopPrice : ℤ := 0
  trailBy : ℤ := 0
  highWater : ℤ := 0
  triggered : Bool := false
deriving DecidableEq, Repr

/-- The reference of a peg, resolved against the side of the order. -/
inductive PegRef
  | primary
  | market
  | midpoint
deriving DecidableEq, Repr

/-- Pegged-order specification; a cap of `0` means none. -/
structure PegSpec where
  ref : PegRef := .midpoint
  offset : ℤ := 0
  capLimit : ℤ := 0
deriving DecidableEq, Repr

/-- The role of an order in a contingent group. -/
inductive LinkRole
  | ocoLeg
  | otoParent
  | otoChild
  | bracketParent
  | bracketTakeProfit
  | bracketStopLoss
deriving DecidableEq, Repr

/-- Linked (contingent) order specification. -/
structure LinkSpec where
  role : LinkRole := .ocoLeg
  groupId : ℕ := 0
deriving DecidableEq, Repr

/-- A single order. -/
structure Order where
  id : OrderId := 0
  clientId : ClientId := 0
  side : Side := .buy
  type : OrdType := .limit
  tif : Tif := .gtc
  flags : OrderFlags := {}
  price : ℤ := 0
  qty : ℤ := 0
  leaves : ℤ := 0
  filled : ℤ := 0
  displayQty : ℤ := 0
  minQty : ℤ := 0
  discretion : ℤ := 0
  seq : ℕ := 0
  rank : ℕ := 0
  expiryNs : ℤ := 0
  trigger : Option TriggerSpec := none
  peg : Option PegSpec := none
  link : Option LinkSpec := none
deriving DecidableEq, Repr

/-- The first half of `Normalize`: collapse the convenience times in force, so
that the matcher only sees GTC, DAY, GTD and IOC. -/
def Order.normalizeTif (o : Order) : Order :=
  match o.tif with
  | .gtx => { o with flags := { o.flags with postOnly := true }, tif := .gtc }
  | .fok => { o with flags := { o.flags with aon := true }, tif := .ioc }
  | _ => o

/-- `Normalize`: canonicalise the redundant encodings, and initialise `leaves`
and `displayQty` from `qty` when they are unset. -/
def Order.normalize (o : Order) : Order :=
  let o := o.normalizeTif
  let o := if o.leaves = 0 ∧ o.filled = 0 then { o with leaves := o.qty } else o
  if o.displayQty = 0 then { o with displayQty := o.qty } else o

/-! ### Executions and outcomes -/

/-- A single execution between an aggressor and a resting order. -/
structure Trade where
  takerId : OrderId
  makerId : OrderId
  takerSide : Side
  price : ℤ
  qty : ℤ
deriving DecidableEq, Repr

/-- The result of submitting an order. -/
structure SubmitOutcome where
  accepted : Bool := true
  rejectReason : String := ""
  trades : List Trade := []
  filled : ℤ := 0
  rested : Bool := false
  restedDeep : Bool := false
  pendingTrigger : Bool := false
  held : Bool := false
  orderId : OrderId := 0
  evicted : List Order := []
  resting : Order := {}
deriving DecidableEq, Repr

/-- Self-trade prevention policy. -/
inductive StpPolicy
  | none
  | cancelResting
  | cancelAggressor
  | cancelBoth
deriving DecidableEq, Repr

/-- The policy removes the resting order of a self trade. -/
def StpPolicy.cancelsResting (p : StpPolicy) : Bool := p = .cancelResting || p = .cancelBoth

/-- The policy removes the remainder of the aggressor of a self trade. -/
def StpPolicy.cancelsAggressor (p : StpPolicy) : Bool :=
  p = .cancelAggressor || p = .cancelBoth

/-! ### Book events -/

/-- The kinds of book mutation. -/
inductive BookEventType
  | add
  | cancel
  | trade
  | reprice
  | replenish
  | trigger
deriving DecidableEq, Repr

/-- One order-book mutation, as the feed sees it. -/
structure BookEvent where
  seq : ℕ := 0
  symbol : Symbol := ""
  type : BookEventType := .add
  orderId : OrderId := 0
  takerId : OrderId := 0
  side : Side := .buy
  price : ℤ := 0
  prevPrice : ℤ := 0
  qty : ℤ := 0
  displayed : ℤ := 0
deriving DecidableEq, Repr

end Codicis
