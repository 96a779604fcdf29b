/-
What is decided about an order at the door, and what matching does in any book.

`admission` has the decisions of `submit` before anything is matched: the order is answered, or it
is passed on as an all-or-none order, a pegged order, a stop or an order to match.  Everything that
is matched goes through `match`, which the continuous path of `submit` calls, and through `inject`,
with which stops that fire and the remainders of an auction enter the book; `Meets` says what
`match` does, whatever the book.
-/
import Codicis.Core.Sweep
import Codicis.Core.Waiting

namespace Codicis

namespace Book

/-! ### What is decided before anything is matched -/

/-- What becomes of a submitted order before the matcher is asked. -/
inductive Admission
  /-- The order is rejected, queued for an auction or held. -/
  | answered (r : Book × SubmitOutcome)
  /-- The order is all-or-none and cannot be filled. -/
  | aon (b : Book) (o : Order)
  /-- The order is pegged. -/
  | peg (b : Book) (o : Order)
  /-- The order is a stop. -/
  | stop (b : Book) (o : Order)
  /-- The order is matched. -/
  | matched (b : Book) (o : Order)

/-- Carry an admission on, with what is done to a stop and to an order to match. -/
def Admission.run (st ex : Book → Order → Comp (Book × SubmitOutcome)) :
    Admission → Comp (Book × SubmitOutcome)
  | answered r => pure r
  | aon b o => pure (b.submitAon o)
  | peg b o => pure (b.submitPeg o)
  | stop b o => st b o
  | matched b o => ex b o

/-- The decisions of `submitSized`. -/
def admitSized (b : Book) (o : Order) : Admission :=
  if o.flags.aon = true ∧ b.availableFill o < o.leaves then .aon b o
  else if 0 < o.minQty ∧ o.qty < o.minQty then .answered (b, reject o.id "min_qty exceeds qty")
  else if 0 < o.minQty ∧ b.availableFill o < o.minQty then
    .answered (b, reject o.id "minimum quantity not available")
  else .matched b o

/-- The decisions of `submitPlain`. -/
def admitPlain (b : Book) (o : Order) : Admission :=
  let c := if o.flags.postOnly = true then b.crosses o else (b, false)
  let b := c.1
  if c.2 = true then .answered (b, reject o.id "post-only would cross")
  else if o.flags.reduceOnly = true then
    if o.clientId = 0 then .answered (b, reject o.id "reduce-only requires an account")
    else if b.reduceOnlyCapacity o ≤ 0 then
      .answered (b, reject o.id "reduce-only: no position to reduce")
    else b.admitSized (capReduceOnly o (b.reduceOnlyCapacity o))
  else b.admitSized o

/-- The decisions of `route`. -/
def admitRouted (b : Book) (o : Order) : Admission :=
  if isOpeningAuction o.flags = true then
    .answered ({ b with openingAuction := b.openingAuction ++ [o] },
      { orderId := o.id, held := true })
  else if isClosingAuction o.flags = true then
    .answered ({ b with closingAuction := b.closingAuction ++ [o] },
      { orderId := o.id, held := true })
  else
    match b.holdChild o with
    | some b => .answered (b, { orderId := o.id, held := true })
    | none =>
      if awaitsTrigger o = true then .stop b o
      else if o.peg.isSome = true then .peg b o
      else b.admitPlain o

/-- The decisions of `submitBody`. -/
def admission (x : Book × Order) : Admission :=
  let o := x.1.stamp x.2
  let b := { x.1 with nextSeq := x.1.nextSeq + 1 }
  if o.qty ≤ 0 ∨ o.leaves ≤ 0 then .answered (b, reject o.id "non-positive quantity")
  else if o.type = .limit ∧ o.price ≤ 0 ∧ o.peg.isNone = true then
    .answered (b, reject o.id "non-positive limit price")
  else if (b.orders.lookup o.id).isSome = true ∨ (b.stops.lookup o.id).isSome = true then
    .answered (b, reject o.id "duplicate order id")
  else b.admitRouted o

section Admission

variable (g : SubmitFn) (b : Book) (o : Order)

lemma submitSized_eq :
    submitSized g b o = (b.admitSized o).run submitStop (execute g) := by
  unfold submitSized admitSized
  split_ifs
  all_goals rfl

lemma submitPlain_eq :
    submitPlain g b o = (b.admitPlain o).run submitStop (execute g) := by
  unfold submitPlain admitPlain
  simp only [submitSized_eq]
  generalize (if o.flags.postOnly = true then b.crosses o else (b, false)) = c
  split_ifs
  all_goals rfl

lemma route_eq : route g b o = (b.admitRouted o).run submitStop (execute g) := by
  unfold route admitRouted
  simp only [submitPlain_eq]
  split_ifs
  · rfl
  · rfl
  all_goals cases b.holdChild o <;> rfl

lemma submitBody_eq (x : Book × Order) :
    submitBody g x = (admission x).run submitStop (execute g) := by
  unfold submitBody admission
  simp only [route_eq]
  split_ifs
  all_goals rfl

end Admission

/-- The order that is passed on, and the book it is passed on in. -/
def Admission.passed : Admission → Option (Book × Order)
  | answered _ => none
  | aon b o | peg b o | stop b o | matched b o => some (b, o)

/-! ### Matching in any book -/

/-- What matching an order does in any book. -/
structure Meets (b : Book) (o : Order) (tr : List Trade) (b' : Book) (o' : Order)
    (tr' : List Trade) : Prop where
  frame : b'.frame = b.frame
  seq_le : b.nextSeq ≤ b'.nextSeq
  /-- The last price moves with an execution only. -/
  last : tr' = tr → b'.last = b.last
  /-- Whatever rests has rested before, at the same price. -/
  entry : ∀ {id e'}, b'.orders.lookup id = some e' →
    ∃ e, b.orders.lookup id = some e ∧ e.order.traits = e'.order.traits ∧
      e.order.price = e'.order.price
  /-- The executions are the order's, against orders that rested before and are none of its own
  account. -/
  trades : ∃ new, tr' = tr ++ new ∧ o' = takeFill o (volume new) ∧
    ∀ t ∈ new, t.takerId = o.id ∧ ∃ e, b.orders.lookup t.makerId = some e ∧ b.selfTrade o e = false

section Meets

variable {b b' b'' : Book} {o o' o'' : Order} {tr tr' tr'' : List Trade} {s : Side} {p : ℤ}

/-- Matching puts nothing to rest. -/
lemma Meets.lookup_eq_none {id : OrderId} (h : Meets b o tr b' o' tr')
    (hid : b.orders.lookup id = none) : b'.orders.lookup id = none := by
  by_contra hne
  obtain ⟨e', he'⟩ := Option.ne_none_iff_exists'.1 hne
  obtain ⟨e, he, -⟩ := h.entry he'
  simp [hid] at he

/-- A change of the book that only takes orders out. -/
lemma Meets.of_entry (hf : b'.frame = b.frame) (hseq : b.nextSeq ≤ b'.nextSeq)
    (hl : b'.last = b.last)
    (he : ∀ {id e}, b'.orders.lookup id = some e → b.orders.lookup id = some e) (o : Order)
    (tr : List Trade) : Meets b o tr b' o tr :=
  ⟨hf, hseq, fun _ => hl, fun h => ⟨_, he h, rfl, rfl⟩, [], by simp, by simp, by simp⟩

lemma Meets.refl (b : Book) (o : Order) (tr : List Trade) : Meets b o tr b o tr :=
  .of_entry rfl le_rfl rfl id o tr

lemma Meets.trans (h : Meets b o tr b' o' tr') (h' : Meets b' o' tr' b'' o'' tr'') :
    Meets b o tr b'' o'' tr'' := by
  obtain ⟨new, rfl, ho', hnew⟩ := h.trades
  obtain ⟨new', rfl, ho'', hnew'⟩ := h'.trades
  refine ⟨h'.frame.trans h.frame, h.seq_le.trans h'.seq_le, fun htr => ?_, fun he'' => ?_,
    new ++ new', by simp, ?_, fun t ht => ?_⟩
  · have hnil : new = [] ∧ new' = [] := by simpa using htr
    exact (h'.last (by simp [hnil.2])).trans (h.last (by simp [hnil.1]))
  · obtain ⟨e', he', htr', hp'⟩ := h'.entry he''
    obtain ⟨e, he, htr, hp⟩ := h.entry he'
    exact ⟨e, he, htr.trans htr', hp.trans hp'⟩
  · rw [ho'', ho', takeFill_takeFill, volume_append]
  · rcases List.mem_append.1 ht with ht | ht
    · exact hnew t ht
    · -- what is no self trade for the aggressor as it is by now was none from the start
      obtain ⟨htaker, e', he', hst⟩ := hnew' t ht
      obtain ⟨e, he, htr, -⟩ := h.entry he'
      have hc : e.order.clientId = e'.order.clientId := Order.clientId_eq_of_traits htr
      refine ⟨by rw [htaker, ho']; rfl, e, he, ?_⟩
      have hstp : b'.stp = b.stp := congrArg (fun f : Frame => f.settings.stp) h.frame
      have hacc : o'.clientId = o.clientId := by rw [ho']; rfl
      rw [Book.selfTrade, hc, ← hstp, ← hacc]
      exact hst

lemma meets_noteRemoved (b : Book) (o : Order) (s : Side) (p : ℤ) (tr : List Trade) :
    Meets b o tr (b.noteRemoved s p) o tr :=
  .of_entry (by simp) (by simp) (by simp) (by simp) o tr

lemma meets_prevented (m : MatchState) (mid : OrderId) (me : Entry) (rest : List OrderId) :
    Meets m.book m.order m.trades (m.prevented s p mid me rest).book m.order m.trades := by
  unfold MatchState.prevented
  split_ifs
  · refine .of_entry (by simp [stpRemove, emitEvent]) (by simp [stpRemove, emitEvent])
      (by simp [stpRemove, emitEvent]) (fun {id e} he => ?_) _ _
    have horders : (m.book.stpRemove s p mid me).orders = m.book.orders.erase mid := by
      simp [stpRemove, emitEvent]
    rw [show (_ : Book).orders = _ from horders] at he
    exact Map.lookup_of_erase he
  · exact .refl _ _ _

/-- A fill takes the maker out or leaves it where it is. -/
lemma fillMaker_entry (b : Book) (s : Side) (p : ℤ) (o : Order) {mid : OrderId} {me : Entry}
    (hme : b.orders.lookup mid = some me) (rest : List OrderId) :
    (b.fillMaker s p o mid me rest).1.frame = b.frame ∧
      b.nextSeq ≤ (b.fillMaker s p o mid me rest).1.nextSeq ∧
      ∀ {id e'}, (b.fillMaker s p o mid me rest).1.orders.lookup id = some e' →
        ∃ e, b.orders.lookup id = some e ∧ e.order.traits = e'.order.traits ∧
          e.order.price = e'.order.price := by
  -- the book afterwards has the maker out, or what is left of it in its place
  have hset : ∀ {id : OrderId} {e e' : Entry}, me.order.traits = e.order.traits →
      me.order.price = e.order.price → (b.orders.insert mid e).lookup id = some e' →
      ∃ e, b.orders.lookup id = some e ∧ e.order.traits = e'.order.traits ∧
        e.order.price = e'.order.price := by
    intro id e e' htr hp he'
    rw [Map.lookup_insert_eq] at he'
    split_ifs at he' with hid
    · obtain rfl := Option.some.inj he'
      exact ⟨me, hid ▸ hme, htr, hp⟩
    · exact ⟨e', he', rfl, rfl⟩
  unfold fillMaker
  dsimp only
  split_ifs
  · refine ⟨by simp, by simp, fun {id e'} he' => ?_⟩
    simp only [unpeg_keeps, eraseEntry_keeps, modifyLevel_keeps, recordFill_keeps] at he'
    exact ⟨e', Map.lookup_of_erase he', rfl, rfl⟩
  all_goals
    refine ⟨by simp [replenish, emitEvent], by simp [replenish, emitEvent],
      fun {id e'} he' => ?_⟩
    simp only [replenish, emitEvent, emit_keeps, setEntry_keeps, requeue_keeps,
      modifyLevel_keeps, recordFill_keeps] at he'
    exact hset (by rfl) (by rfl) he'

lemma meets_filled (m : MatchState) {mid : OrderId} {me : Entry} {rest : List OrderId}
    (hme : m.book.orders.lookup mid = some me) (hst : m.book.selfTrade m.order me = false) :
    Meets m.book m.order m.trades (m.filled s p mid me rest).book (m.filled s p mid me rest).order
      (m.filled s p mid me rest).trades := by
  obtain ⟨hf, hseq, he⟩ := fillMaker_entry m.book s p m.order hme rest
  refine ⟨hf, hseq, fun h => absurd h (by simp [MatchState.filled]), he, _, rfl,
    by simp [MatchState.filled], fun t ht => ?_⟩
  obtain rfl := List.mem_singleton.1 ht
  exact ⟨rfl, me, hme, hst⟩

lemma matchLevelRound_meets {m : MatchState} {x : MatchState ⊕ MatchResult}
    (h : (matchLevelRound s p m).Returns x) :
    Sum.elim (fun m' : MatchState => Meets m.book m.order m.trades m'.book m'.order m'.trades)
      (fun r => Meets m.book m.order m.trades r.book r.order r.trades) x := by
  cases matchLevelRound_cases h with
  | leave => exact meets_noteRemoved _ _ _ _ _
  | again => exact .refl _ _ _
  | stop => exact (meets_prevented m _ _ _).trans (meets_noteRemoved _ _ _ _ _)
  | prevent =>
    simp only [Sum.elim_inl, MatchState.prevented_keeps]
    exact meets_prevented m _ _ _
  | pass => exact .refl _ _ _
  | fill _ _ hme hst => exact meets_filled m hme hst

lemma matchLevel_meets {r : MatchResult} (h : (b.matchLevel o s p tr).Returns r) :
    Meets b o tr r.book r.order r.trades :=
  Comp.Returns.of_loop (Q := fun (m : MatchState) (r : MatchResult) =>
      Meets m.book m.order m.trades r.book r.order r.trades)
    (fun _ _ _ hround hrest => (matchLevelRound_meets hround).trans hrest)
    (fun _ _ hround => matchLevelRound_meets hround) h

lemma matchOver_meets {ps : List ℤ} {r : MatchResult}
    (h : (matchOver s ps b o tr).Returns r) : Meets b o tr r.book r.order r.trades := by
  induction ps generalizing b o tr with
  | nil =>
    obtain rfl := Comp.returns_pure.1 h
    exact .refl _ _ _
  | cons p ps ih =>
    rw [matchOver] at h
    split_ifs at h
    · obtain rfl := Comp.returns_pure.1 h
      exact .refl _ _ _
    · exact ih h
    · obtain rfl := Comp.returns_pure.1 h
      exact .refl _ _ _
    · obtain ⟨x, hx, hr⟩ := Comp.returns_bind.1 h
      have hm := matchLevel_meets hx
      split_ifs at hr
      · obtain rfl := Comp.returns_pure.1 hr
        exact hm
      · exact hm.trans (ih hr)

lemma matchOrder_meets {r : MatchResult} (h : (b.matchOrder o tr).Returns r) :
    Meets b o tr r.book r.order r.trades := by
  unfold matchOrder at h
  dsimp only at h
  split_ifs at h
  · obtain rfl := Comp.returns_pure.1 h
    exact .refl _ _ _
  · exact matchOver_meets h

end Meets

end Book

end Codicis
