/-
The matcher (`match_level` and `match` of `core/order_book.cc`).

The loop over the queue of a level keeps its iterator as the list `todo` of the
identifiers from the iterator to the end of the queue.  The queue itself stays in
the book, where erasing the element under the iterator is erasing its identifier.
-/
import Codicis.Core.Book
import Codicis.Lib.Comp

namespace Codicis

/-- The maker after a fill. -/
def Entry.fill (me : Entry) (q : ℤ) : Entry :=
  { order := { me.order with leaves := me.order.leaves - q, filled := me.order.filled + q },
    slice := if me.order.flags.iceberg = true then me.slice - q else me.slice }

namespace Book

/-- The variables of the matching loop over one level. -/
structure MatchState where
  book : Book
  /-- The aggressor. -/
  order : Order
  /-- The queue from the iterator on. -/
  todo : List OrderId
  progressed : Bool
  trades : List Trade

/-- The result of matching: the book, the aggressor, the executions so far, and
whether self-trade prevention cancelled the remainder of the aggressor. -/
structure MatchResult where
  book : Book
  order : Order
  trades : List Trade
  cancelled : Bool

/-- Self-trade prevention removes the resting order without a fill. -/
def stpRemove (b : Book) (s : Side) (p : ℤ) (mid : OrderId) (me : Entry) : Book :=
  let displayed := displayedOf me.order.flags me.order.leaves me.slice
  let b := b.modifyLevel s p fun lvl =>
    { lvl with total := lvl.total - me.order.leaves, displayed := lvl.displayed - displayed }
  let b := b.releaseReserved me.order me.order.leaves
  let b := b.emitEvent .cancel me.order me.order.leaves displayed
  let b := b.modifyLevel s p fun lvl => { lvl with fifo := lvl.fifo.erase mid }
  (b.eraseEntry mid).unpeg mid

/-- What a single fill may take of a maker: an iceberg exposes its slice only. -/
def exposed (me : Entry) : ℤ := if me.order.flags.iceberg = true then me.slice else me.order.leaves

/-- The aggressor after a fill. -/
def takeFill (o : Order) (q : ℤ) : Order :=
  { o with leaves := o.leaves - q, filled := o.filled + q }

/-- The part of a fill that does not depend on what becomes of the maker: the
execution is emitted, the last price moves, the level shrinks and both accounts'
positions change. -/
def recordFill (b : Book) (s : Side) (p : ℤ) (o : Order) (mid : OrderId) (me : Entry)
    (q : ℤ) : Book :=
  let b := b.emitTrade ⟨o.id, mid, o.side, p, q⟩ (if me.order.flags.hidden = true then 0 else q)
  let b := b.setLast p
  let b := b.modifyLevel s p fun lvl =>
    { lvl with
      total := lvl.total - q,
      displayed := if me.order.flags.hidden = true then lvl.displayed else lvl.displayed - q }
  let b := b.applyPosition o.clientId o.side q
  let b := b.applyPosition me.order.clientId me.order.side q
  b.releaseReserved me.order q

/-- An exhausted slice is replenished from the reserve and queued at the back of
its level. -/
def replenish (b : Book) (s : Side) (p : ℤ) (mid : OrderId) (me : Entry) : Book :=
  let slice := min me.order.displayQty me.order.leaves
  let b := b.modifyLevel s p fun lvl =>
    { lvl with fifo := lvl.fifo.erase mid ++ [mid], displayed := lvl.displayed + slice }
  let r := b.requeue me.order
  let b := r.1.setEntry mid { order := r.2, slice := slice }
  b.emitEvent .replenish r.2 slice slice

/-- The aggressor `o` fills against the maker `me` at the head of `todo`. -/
def fillMaker (b : Book) (s : Side) (p : ℤ) (o : Order) (mid : OrderId) (me : Entry)
    (rest : List OrderId) : Book × List OrderId :=
  let q := min o.leaves (exposed me)
  let b := b.recordFill s p o mid me q
  let me := Entry.fill me q
  if me.order.leaves = 0 then
    let b := b.modifyLevel s p fun lvl => { lvl with fifo := lvl.fifo.erase mid }
    ((b.eraseEntry mid).unpeg mid, rest)
  else if me.order.flags.iceberg = true ∧ me.slice = 0 then
    -- the iterator moves to the next order, which is the end if there was none
    (b.replenish s p mid me, if rest = [] then [] else rest ++ [mid])
  else
    (b.setEntry mid me, rest)

/-- A level that was emptied may have been the best one. -/
def noteRemoved (b : Book) (s : Side) (p : ℤ) : Book :=
  if (b.level s p).total = 0 then b.setLadder s ((b.ladder s).onRemoved p) else b

/-- Self-trade prevention applies to a maker of the aggressor's own account. -/
def selfTrade (b : Book) (o : Order) (me : Entry) : Bool :=
  b.stp ≠ .none && o.clientId ≠ 0 && me.order.clientId = o.clientId

/-- One round of the loop over the queue at price `p` of side `s`. -/
def matchLevelRound (s : Side) (p : ℤ) (m : MatchState) : Comp (MatchState ⊕ MatchResult) :=
  if m.order.leaves ≤ 0 then
    pure (.inr ⟨m.book.noteRemoved s p, m.order, m.trades, false⟩)
  else
    match m.todo with
    | [] =>
      if m.progressed = false then  -- a full pass filled nothing
        pure (.inr ⟨m.book.noteRemoved s p, m.order, m.trades, false⟩)
      else
        pure (.inl { m with todo := (m.book.level s p).fifo, progressed := false })
    | mid :: rest =>
      match m.book.orders.lookup mid with
      | none => Comp.never  -- `orders.at` throws
      | some me =>
        if m.book.selfTrade m.order me = true then
          let m' :=
            if m.book.stp.cancelsResting = true then
              { m with book := m.book.stpRemove s p mid me, todo := rest, progressed := true }
            else m
          if m.book.stp.cancelsAggressor = true then
            pure (.inr ⟨m'.book.noteRemoved s p, m'.order, m'.trades, true⟩)
          else
            pure (.inl m')
        else if me.order.flags.aon = true ∧ m.order.leaves < me.order.leaves then
          pure (.inl { m with todo := rest })
        else
          let q := min m.order.leaves (exposed me)
          let r := m.book.fillMaker s p m.order mid me rest
          pure (.inl
            { book := r.1, order := takeFill m.order q, todo := r.2, progressed := true,
              trades := m.trades ++ [⟨m.order.id, mid, m.order.side, p, q⟩] })

/-- The loop after self-trade prevention has dealt with the maker at the head of the queue. -/
def MatchState.prevented (s : Side) (p : ℤ) (m : MatchState) (mid : OrderId) (me : Entry)
    (rest : List OrderId) : MatchState :=
  if m.book.stp.cancelsResting = true then
    { m with book := m.book.stpRemove s p mid me, todo := rest, progressed := true }
  else m

@[simp] lemma MatchState.prevented_keeps (s : Side) (p : ℤ) (m : MatchState) (mid : OrderId)
    (me : Entry) (rest : List OrderId) :
    (m.prevented s p mid me rest).order = m.order ∧
      (m.prevented s p mid me rest).trades = m.trades := by
  unfold prevented
  split_ifs
  · exact ⟨rfl, rfl⟩
  · exact ⟨rfl, rfl⟩

/-- The loop after the aggressor has filled against the maker at the head of the queue. -/
def MatchState.filled (s : Side) (p : ℤ) (m : MatchState) (mid : OrderId) (me : Entry)
    (rest : List OrderId) : MatchState :=
  { book := (m.book.fillMaker s p m.order mid me rest).1,
    order := takeFill m.order (min m.order.leaves (exposed me)),
    todo := (m.book.fillMaker s p m.order mid me rest).2,
    progressed := true,
    trades := m.trades ++
      [⟨m.order.id, mid, m.order.side, p, min m.order.leaves (exposed me)⟩] }

/-- What one round of the loop over a level can do. -/
inductive LevelRound (s : Side) (p : ℤ) (m : MatchState) : MatchState ⊕ MatchResult → Prop
  | leave (h : m.order.leaves ≤ 0 ∨ m.todo = [] ∧ m.progressed = false) :
      LevelRound s p m (.inr ⟨m.book.noteRemoved s p, m.order, m.trades, false⟩)
  | again (h0 : 0 < m.order.leaves) (htodo : m.todo = []) (hp : m.progressed = true) :
      LevelRound s p m (.inl { m with todo := (m.book.level s p).fifo, progressed := false })
  | stop (h0 : 0 < m.order.leaves) {mid : OrderId} {rest : List OrderId} {me : Entry}
      (htodo : m.todo = mid :: rest)
      (hme : m.book.orders.lookup mid = some me) (hst : m.book.selfTrade m.order me = true)
      (hstp : m.book.stp.cancelsAggressor = true) :
      LevelRound s p m (.inr ⟨(m.prevented s p mid me rest).book.noteRemoved s p, m.order,
        m.trades, true⟩)
  | prevent (h0 : 0 < m.order.leaves) {mid : OrderId} {rest : List OrderId} {me : Entry}
      (htodo : m.todo = mid :: rest)
      (hme : m.book.orders.lookup mid = some me) (hst : m.book.selfTrade m.order me = true)
      (hstp : m.book.stp.cancelsAggressor = false) :
      LevelRound s p m (.inl (m.prevented s p mid me rest))
  | pass (h0 : 0 < m.order.leaves) {mid : OrderId} {rest : List OrderId} {me : Entry}
      (htodo : m.todo = mid :: rest)
      (hme : m.book.orders.lookup mid = some me) (hst : m.book.selfTrade m.order me = false)
      (haon : me.order.flags.aon = true ∧ m.order.leaves < me.order.leaves) :
      LevelRound s p m (.inl { m with todo := rest })
  | fill (h0 : 0 < m.order.leaves) {mid : OrderId} {rest : List OrderId} {me : Entry}
      (htodo : m.todo = mid :: rest)
      (hme : m.book.orders.lookup mid = some me) (hst : m.book.selfTrade m.order me = false)
      (haon : ¬ (me.order.flags.aon = true ∧ m.order.leaves < me.order.leaves)) :
      LevelRound s p m (.inl (m.filled s p mid me rest))

lemma matchLevelRound_cases {s : Side} {p : ℤ} {m : MatchState} {x : MatchState ⊕ MatchResult}
    (h : (matchLevelRound s p m).Returns x) : LevelRound s p m x := by
  unfold matchLevelRound at h
  by_cases h0 : m.order.leaves ≤ 0
  · rw [if_pos h0] at h
    obtain rfl := Comp.returns_pure.1 h
    exact .leave (.inl h0)
  rw [if_neg h0] at h
  have h0 := not_le.1 h0
  cases htodo : m.todo with
  | nil =>
    rw [htodo] at h
    dsimp only at h
    split_ifs at h with hp
    · obtain rfl := Comp.returns_pure.1 h
      exact .leave (.inr ⟨htodo, hp⟩)
    · obtain rfl := Comp.returns_pure.1 h
      exact .again h0 htodo (by simpa using hp)
  | cons mid rest =>
    rw [htodo] at h
    dsimp only at h
    cases hme : m.book.orders.lookup mid with
    | none =>
      rw [hme] at h
      exact absurd h Comp.not_returns_never
    | some me =>
      rw [hme] at h
      dsimp only at h
      by_cases hst : m.book.selfTrade m.order me = true
      · -- the maker is of the aggressor's own account
        rw [if_pos hst] at h
        by_cases hstp : m.book.stp.cancelsAggressor = true
        · rw [if_pos hstp] at h
          obtain rfl := Comp.returns_pure.1 h
          have hround := LevelRound.stop (s := s) (p := p) h0 htodo hme hst hstp
          unfold MatchState.prevented at hround
          split_ifs at hround ⊢ <;> exact hround
        · rw [if_neg hstp] at h
          obtain rfl := Comp.returns_pure.1 h
          exact .prevent h0 htodo hme hst (by simpa using hstp)
      rw [if_neg hst] at h
      have hst := Bool.eq_false_iff.2 hst
      split_ifs at h with haon
      · obtain rfl := Comp.returns_pure.1 h
        exact .pass h0 htodo hme hst haon
      · obtain rfl := Comp.returns_pure.1 h
        exact .fill h0 htodo hme hst haon

/-- Match the aggressor `o` against the queue at price `p` of side `s`. -/
def matchLevel (b : Book) (o : Order) (s : Side) (p : ℤ) (trades : List Trade) :
    Comp MatchResult :=
  Comp.loop (matchLevelRound s p)
    { book := b, order := o, todo := (b.level s p).fifo, progressed := false, trades := trades }

/-- The walk of `match` over the remaining prices of side `s`. -/
def matchOver (s : Side) : List ℤ → Book → Order → List Trade → Comp MatchResult
  | [], b, o, trades => pure ⟨b, o, trades, false⟩
  | p :: ps, b, o, trades =>
    if o.leaves ≤ 0 then pure ⟨b, o, trades, false⟩
    else if (b.level s p).total = 0 then matchOver s ps b o trades
    else if acceptable o p = false then pure ⟨b, o, trades, false⟩
    else do
      let r ← matchLevel b o s p trades
      if r.cancelled = true then pure r else matchOver s ps r.book r.order r.trades

/-- Match the aggressor `o` against the opposite side, best price first. -/
def matchOrder (b : Book) (o : Order) (trades : List Trade) : Comp MatchResult :=
  let s := o.side.opposite
  if (b.ladder s).hasBase = false then pure ⟨b, o, trades, false⟩
  else matchOver s (b.ladder s).outward b o trades

end Book

end Codicis
