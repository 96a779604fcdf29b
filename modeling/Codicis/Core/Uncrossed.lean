/-
The book is never crossed.

A remainder that comes to rest has met everything it could fill against, and what may be
left on the other side, all-or-none orders that are too large, is not there when no order
is all-or-none.  So no resting buy order reaches the price of a resting sell order, after
the submission itself, after each stop that fires and each remainder of an auction, and
after each child that is released: all of them come to rest by the same phase.
-/
import Codicis.Core.Inherit

namespace Codicis

/-- Every resting buy order is below every resting sell order. -/
def View.Uncrossed (v : View) : Prop :=
  ∀ id e id' e', v.entry id = some e → v.entry id' = some e' → e.order.side = .buy →
    e'.order.side = .sell → e.order.price < e'.order.price

/-- Nothing comes to rest, and no order moves. -/
def Mut.Still : Mut → Prop
  | rest _ => False
  | move _ _ _ => False
  | _ => True

/-- A resting order has rested before, at the same side and price. -/
lemma Mut.Still.entry {v : View} {m : Mut} (hs : m.Still) (hm : m.Ok v) {id : OrderId} {e' : Entry}
    (h : (m.apply v).entry id = some e') :
    ∃ e, v.entry id = some e ∧ e'.order.side = e.order.side ∧ e'.order.price = e.order.price := by
  rcases entry_cases hm h with h | ⟨rfl, -⟩ | ⟨_, me, _, _, -, -, he, rfl | ⟨-, rfl⟩⟩ |
    ⟨_, _, _, rfl, -⟩
  · exact ⟨e', h, rfl, rfl⟩
  · exact hs.elim
  · exact ⟨me, he, rfl, rfl⟩
  · exact ⟨me, he, rfl, rfl⟩
  · exact hs.elim

lemma View.Uncrossed.still {v v' : View} {m : Mut} (h : v.Uncrossed)
    (hr : View.Run v [m] v') (hs : m.Still) : v'.Uncrossed := by
  obtain ⟨hm, rfl⟩ := hr.of_single
  intro id e id' e' he he' hb ha
  obtain ⟨x, hx, hxs, hxp⟩ := hs.entry hm he
  obtain ⟨y, hy, hys, hyp⟩ := hs.entry hm he'
  rw [hxp, hyp]
  exact h id x id' y hx hy (hxs ▸ hb) (hys ▸ ha)

namespace Book

/-! ### Coming to rest -/

/-- The order may fill in part, and has a price of its own. -/
def Divisible (o : Order) : Prop := o.traits.flags.aon = false ∧ o.peg = none

lemma stable_divisible : Stable Divisible where
  traits x y h hx := by
    have hpeg : x.traits.peg = y.traits.peg := by rw [h]
    exact ⟨h ▸ hx.1, (show x.peg = y.peg from hpeg) ▸ hx.2⟩
  clear x hx := by
    refine ⟨?_, hx.2⟩
    have haon := hx.1
    simp only [Order.traits] at haon ⊢
    cases ht : x.tif <;> rw [ht] at haon <;> exact haon

lemma Divisible.aon {o : Order} (h : Divisible o) : o.flags.aon = false := by
  have haon := h.1
  simp only [Order.traits] at haon
  cases ht : o.tif <;> rw [ht] at haon <;>
    first | exact haon | exact absurd haon (by simp [OrderFlags.withTif])

lemma le_effectiveLimit {o : Order} (h : o.side = .buy) : o.price ≤ effectiveLimit o := by
  unfold effectiveLimit
  split_ifs with hd
  · exact le_rfl
  · rw [h]
    push Not at hd
    dsimp only
    omega

lemma effectiveLimit_le {o : Order} (h : o.side = .sell) : effectiveLimit o ≤ o.price := by
  unfold effectiveLimit
  split_ifs with hd
  · exact le_rfl
  · rw [h]
    push Not at hd
    dsimp only
    omega

/-- An order that has met everything it could fill against is not crossed by the others. -/
lemma Exhausted.not_acceptable {b : Book} {x : Order} (h : Exhausted b x) (hs : b.view.Sound)
    (hk : b.Keeps Divisible) {id : OrderId} {e : Entry} (he : b.view.entry id = some e)
    (hside : e.order.side = x.side.opposite) : acceptable x e.order.price = false := by
  by_contra hacc
  have hid : id ∈ (b.level x.side.opposite e.order.price).fifo :=
    (hs.mem_queue _ _ id).2 ⟨e, he, hside, rfl⟩
  obtain ⟨e', he', haon, -⟩ := h e.order.price (by simpa using hacc) id hid
  obtain rfl := Option.some.inj (he.symm.trans he')
  exact absurd haon (by simp [(hk.resting id e he).aon])

lemma uncrossed_rest {b b' : Book} {x : Order} (h : b.view.Uncrossed) (hs : b.view.Sound)
    (hk : b.Keeps Divisible) (hex : Exhausted b x) (hd : discards x = false)
    (hr : View.Run b.view [.rest ⟨x, sliceOf x⟩] b'.view) : b'.view.Uncrossed := by
  have htype : x.type = .limit := by
    cases ht : x.type with
    | market => simp [discards, ht] at hd
    | limit => rfl
  obtain ⟨-, hv⟩ := hr.of_single
  rw [hv]
  intro id e id' e' he he' hb ha
  simp only [Mut.apply, View.link] at he he'
  split_ifs at he he'
  · obtain rfl := Option.some.inj he
    obtain rfl := Option.some.inj he'
    exact absurd (hb.symm.trans ha) (by simp)
  · obtain rfl := Option.some.inj he
    have hacc := hex.not_acceptable hs hk he' (by rw [ha, hb]; rfl)
    have hlim := le_effectiveLimit hb
    simp only [acceptable, htype] at hacc hb
    rw [hb] at hacc
    simp only [decide_eq_false_iff_not, not_le] at hacc
    exact lt_of_le_of_lt hlim hacc
  · obtain rfl := Option.some.inj he'
    have hacc := hex.not_acceptable hs hk he (by rw [hb, ha]; rfl)
    have hlim := effectiveLimit_le ha
    simp only [acceptable, htype] at hacc ha
    rw [ha] at hacc
    simp only [decide_eq_false_iff_not, not_le] at hacc
    exact lt_of_lt_of_le hacc hlim
  · exact h id e id' e' he he' hb ha

/-- A book without a window, under a policy that leaves the aggressor alone, that is not
crossed. -/
structure Orderly (b : Book) : Prop where
  uncrossed : b.view.Uncrossed
  memLevels : b.memLevels = 0
  stp : b.stp.cancelsAggressor = false

/-- No beat crosses the book. -/
lemma Orderly.beat {m m' : Moment} {ms : List Mut} (hm : m.book.Orderly) (h : Beat m ms m')
    (hs : m.book.view.Sound) (ha : m.All Divisible) : m'.book.Orderly := by
  have hset := h.evolves.settings
  refine ⟨?_, (congrArg Settings.memLevels hset).trans hm.memLevels,
    (congrArg (fun s => s.stp.cancelsAggressor) hset).trans hm.stp⟩
  have hrun := h.evolves.run
  have hold := hm.uncrossed
  cases h with
  | @rest b hand x r tail ev hl hd hn hnew htail hev hf =>
    have hx : Divisible x := ha.turn ⟨x, r⟩ rfl
    obtain ⟨hdis, -, hex⟩ := hd.resolve_right fun h => absurd h.1 (by simp [hx.2])
    have hx' : Exhausted b x := hex.resolve_left (by simp [hx.aon]) hm.stp
    rw [htail.eq_rest hm.memLevels hev] at hrun
    exact uncrossed_rest hold hs ha.book hx' hdis hrun
  | @move b hand e p hid he hp hne hev hf =>
    exact absurd (peg_of_computePegPrice hp) (by simp [(ha.book.resting _ e he).2])
  | cross | fill | prevent | fire | peg | remove => exact hold.still hrun trivial
  | _ => exact hrun.of_nil ▸ hold

/-! ### Runs -/

/-- When orders rest on both sides, the best bid is below the best ask. -/
def NotCrossed (b : Book) : Prop :=
  (∃ id o, b.find id = some o ∧ o.side = .buy) → (∃ id o, b.find id = some o ∧ o.side = .sell) →
    ∃ p q, b.bestBid.2 = some p ∧ b.bestAsk.2 = some q ∧ p < q

lemma exists_best {b : Book} (hb : WF b) {s : Side}
    (h : ∃ id o, b.find id = some o ∧ o.side = s) :
    ∃ p id e, (b.ladder s).best.2 = some p ∧ b.view.entry id = some e ∧ e.order.side = s ∧
      e.order.price = p := by
  obtain ⟨id, o, ho, hs⟩ := h
  obtain ⟨e, he, rfl⟩ := Option.map_eq_some_iff.1 ho
  have hpop : (b.ladder s).Populated e.order.price :=
    hb.sound.total_pos_iff.2 ⟨id, e, he, hs, rfl⟩
  obtain ⟨-, hbest, hnone⟩ := (hb.cached s).best
  cases hp : (b.ladder s).best.2 with
  | none => exact absurd hpop (hnone hp _)
  | some p =>
    obtain ⟨id', e', he'⟩ := hb.sound.total_pos_iff.1 (hbest p hp).1
    exact ⟨p, id', e', rfl, he'⟩

lemma Orderly.notCrossed {b : Book} (h : b.Orderly) (hb : WF b) : NotCrossed b := by
  intro hbuy hsell
  obtain ⟨p, id, e, hp, he, hs, hep⟩ := exists_best hb hbuy
  obtain ⟨q, id', e', hq, he', hs', hep'⟩ := exists_best hb hsell
  refine ⟨p, q, hp, hq, ?_⟩
  rw [← hep, ← hep']
  exact h.uncrossed id e id' e' he he' hs hs'

end Book

/-- The operation does not come from storage, and submits no all-or-none or pegged order. -/
def Op.Divisible : Op → Prop
  | submit o => o.flags.aon = false ∧ o.tif ≠ .fok ∧ o.peg = none
  | op => op.Native

namespace Book

lemma divisible_of_op {op : Op} (h : op.Divisible) :
    op.Native ∧ ∀ a ∈ op.inHand, Divisible a.order := by
  cases op with
  | submit o =>
    refine ⟨trivial, fun a ha => ?_⟩
    obtain rfl := List.mem_singleton.1 ha
    obtain ⟨haon, htif, hpeg⟩ := h
    refine ⟨?_, hpeg⟩
    simp only [Order.traits]
    cases ht : o.tif <;> first | exact haon | exact absurd ht htif
  | _ => exact ⟨h, fun a ha => absurd ha List.not_mem_nil⟩

/-- In every run of an unbounded book without self-trade prevention, or with one that cancels
the resting order, by orders that are neither all-or-none nor pegged, the book is not
crossed; the next operation returns, and leaves a book that is not crossed. -/
theorem notCrossed_of_reach {stp : StpPolicy} (hstp : stp = .none ∨ stp = .cancelResting)
    {symbol : Symbol} {eventSink : Bool} {used : List OrderId} {b : Book}
    (h : Reach Op.Divisible (empty 0 stp symbol eventSink) used b) :
    NotCrossed b ∧ ∀ op : Op, op.Divisible → op.Allowed used b →
    (op.exec b).Ensures NotCrossed := by
  have hall : ∀ {used b}, Reach Op.Divisible (empty 0 stp symbol eventSink) used b →
      NotCrossed b := by
    intro used b h
    obtain ⟨hwf, -⟩ := h.wf
    have hinv := h.induction stable_divisible (I := fun m => m.book.Orderly)
      (fun op => divisible_of_op) ⟨?_, rfl, ?_⟩ (fun b op _ hI => hI)
      fun m ms m' hb hs ha hI => hI.beat hb hs ha
    · exact hinv.2.notCrossed hwf
    · intro id e id' e' he
      exact absurd he (by simp [view, empty])
    · rcases hstp with rfl | rfl <;> rfl
  exact ⟨hall h, fun op hC hop => h.next hall hC hop⟩

/-- A run: a sell order rests, and a larger buy order with discretion takes it and rests
below a second sell order. -/
theorem notCrossed_of_reach_discretion : ∃ b,
    Reach Op.Divisible (empty 0 .cancelResting "ABC" true) [3, 2, 1] b ∧
      b.bestBid.2 = some 99 ∧ b.bestAsk.2 = some 103 ∧ NotCrossed b := by
  let os : List Order := [
    { id := 1, side := .sell, qty := 5, price := 101 },
    { id := 2, side := .sell, qty := 5, price := 103 },
    { id := 3, qty := 8, price := 99, discretion := 2, flags.discretion := true }]
  have hdiv : ∀ o ∈ os, (Op.submit o).Divisible := by
    simp only [os, List.forall_mem_cons]
    exact ⟨⟨rfl, by decide, rfl⟩, ⟨rfl, by decide, rfl⟩, ⟨rfl, by decide, rfl⟩, by simp⟩
  obtain ⟨b, hr, hbid, hask⟩ : ∃ b,
      Reach Op.Divisible (empty 0 .cancelResting "ABC" true) [3, 2, 1] b ∧
      b.bestBid.2 = some 99 ∧ b.bestAsk.2 = some 103 :=
    Reach.exists_of_submits 8 os hdiv (by decide) (by decide +kernel)
  exact ⟨b, hr, hbid, hask, (notCrossed_of_reach (.inr rfl) hr).1⟩

end Book

end Codicis
