/-
The course of an operation, beat by beat.

A `Beat` is one call of an elementary function of the book, with what the code has checked at that
point: an order arrives, takes its number and is capped or held, is queued or parked; a stop
fires, an auction is called, children are released; the order whose turn it is fills against a
resting order, comes to rest or is dropped; a pegged order moves.

An order has its turn from its arrival until it rests, waits or is dropped.  A run of beats
(`Beats`) carries the mutations of the resting book, so what every beat keeps, all operations
keep (`Beats.invariant`).
-/
import Codicis.Core.Waiting

namespace Codicis

namespace Book

/-- A submitted order passes the checks at the door. -/
structure Arrives (b : Book) (o : Order) : Prop where
  new : ¬ Live b o.id
  qty : 0 < o.qty
  leaves : 0 < (b.stamp o).leaves
  display : 0 < (b.stamp o).displayQty
  price : o.type = .limit → o.peg = none → 0 < o.price

end Book

open Book

/-- One beat of an operation. -/
inductive Beat : Moment → List Mut → Moment → Prop
  /-- Orders stop waiting, stops are re-anchored, groups, caches or the last price change. -/
  | wane {b b' : Book} {t : Option Active} {hand : List Active} (hq : Quiet b b')
      (hseq : b'.nextSeq = b.nextSeq) (hw : Wanes b b') : Beat ⟨b, t, hand⟩ [] ⟨b', t, hand⟩
  /-- A submitted order is rejected at the door. -/
  | refuse {b : Book} {hand : List Active} {o : Order} :
      Beat ⟨b, none, ⟨o, .submitted⟩ :: hand⟩ [] ⟨b.ticked, none, hand⟩
  /-- A submitted order arrives. -/
  | arrive {b : Book} {hand : List Active} {o : Order} (ha : b.Arrives o) :
      Beat ⟨b, none, ⟨o, .submitted⟩ :: hand⟩ []
        ⟨b.ticked, some ⟨b.stamp o, .submitted⟩, hand⟩
  /-- A submitted reduce-only order arrives and is capped. -/
  | cap {b : Book} {hand : List Active} {o : Order} (ha : b.Arrives o)
      (hr : (b.stamp o).flags.reduceOnly = true) (hc : 0 < b.reduceOnlyCapacity (b.stamp o)) :
      Beat ⟨b, none, ⟨o, .submitted⟩ :: hand⟩ []
        ⟨b.ticked, some ⟨capReduceOnly (b.stamp o) (b.reduceOnlyCapacity (b.stamp o)), .submitted⟩,
          hand⟩
  /-- A submitted child arrives and is held by its group. -/
  | hold {b b' : Book} {hand : List Active} {o : Order} (ha : b.Arrives o)
      (hx : b.ticked.holdChild (b.stamp o) = some b') :
      Beat ⟨b, none, ⟨o, .submitted⟩ :: hand⟩ [] ⟨b', none, hand⟩
  /-- The order is queued for the opening auction. -/
  | queueOpening {b : Book} {hand : List Active} {x : Order} (hl : 0 < x.leaves)
      (hx : isOpeningAuction x.flags = true) :
      Beat ⟨b, some ⟨x, .submitted⟩, hand⟩ []
        ⟨{ b with openingAuction := b.openingAuction ++ [x] }, none, hand⟩
  /-- The order is queued for the closing auction. -/
  | queueClosing {b : Book} {hand : List Active} {x : Order} (hl : 0 < x.leaves)
      (hx : isClosingAuction x.flags = true) :
      Beat ⟨b, some ⟨x, .submitted⟩, hand⟩ []
        ⟨{ b with closingAuction := b.closingAuction ++ [x] }, none, hand⟩
  /-- The order is parked as a stop. -/
  | park {b : Book} {hand : List Active} {x : Order} (hx : awaitsTrigger x = true)
      (hnew : b.stops.lookup (b.armStop x).id = none)
      (hquiet : ¬ (b.haveLast = true ∧ stopTriggered (b.armStop x) b.lastPrice = true)) :
      Beat ⟨b, some ⟨x, .submitted⟩, hand⟩ []
        ⟨{ b with stops := b.stops.insert (b.armStop x).id (b.armStop x) }, none, hand⟩
  /-- The order is a stop that fires as it arrives. -/
  | spring {b : Book} {hand : List Active} {x : Order} (hx : awaitsTrigger x = true)
      (hlast : b.haveLast = true) (ht : stopTriggered (b.armStop x) b.lastPrice = true) :
      Beat ⟨b, some ⟨x, .submitted⟩, hand⟩ []
        ⟨b, some ⟨markTriggered (b.armStop x), .triggered⟩, hand⟩
  /-- A pegged order gets its price. -/
  | price {b : Book} {hand : List Active} {x : Order} {p : ℤ} (haw : awaitsTrigger x = false)
      (ho : isOpeningAuction x.flags = false) (hc : isClosingAuction x.flags = false)
      (hp : b.computePegPrice x = some p) :
      Beat ⟨b, some ⟨x, .submitted⟩, hand⟩ []
        ⟨b, some ⟨{ x with type := .limit, price := p }, .submitted⟩, hand⟩
  /-- A submitted order has passed the checks, and is to be matched. -/
  | enter {b : Book} {hand : List Active} {x : Order} (hadm : Admitted b x) :
      Beat ⟨b, some ⟨x, .submitted⟩, hand⟩ [] ⟨b, some ⟨x, .entered⟩, hand⟩
  /-- The order whose turn it is fills against a resting order. -/
  | fill {b : Book} {hand : List Active} {x : Order} {r : Route} {me : Entry} (rest : List OrderId)
      (hr : r ≠ .submitted) (hl : 0 < x.leaves) (he : b.orders.lookup me.order.id = some me)
      (hside : me.order.side = x.side.opposite) (hacc : acceptable x me.order.price = true)
      (hst : b.selfTrade x me = false)
      (haon : me.order.flags.aon = true → me.order.leaves ≤ x.leaves)
      (hev : Evolves b [.fill x me (min x.leaves (exposed me)) b.nextSeq]
        (b.fillMaker me.order.side me.order.price x me.order.id me rest).1)
      (hf : (b.fillMaker me.order.side me.order.price x me.order.id me rest).1.frame = b.frame) :
      Beat ⟨b, some ⟨x, r⟩, hand⟩ [.fill x me (min x.leaves (exposed me)) b.nextSeq]
        ⟨(b.fillMaker me.order.side me.order.price x me.order.id me rest).1,
          some ⟨takeFill x (min x.leaves (exposed me)), r⟩, hand⟩
  /-- Self-trade prevention removes a resting order. -/
  | prevent {b : Book} {hand : List Active} {a : Active} {me : Entry}
      (he : b.orders.lookup me.order.id = some me) (hst : b.selfTrade a.order me = true)
      (hr : b.stp.cancelsResting = true)
      (hev : Evolves b [.remove me] (b.stpRemove me.order.side me.order.price me.order.id me))
      (hf : (b.stpRemove me.order.side me.order.price me.order.id me).frame = b.frame) :
      Beat ⟨b, some a, hand⟩ [.remove me]
        ⟨b.stpRemove me.order.side me.order.price me.order.id me, some a, hand⟩
  /-- What is left of the order comes to rest. -/
  | rest {b : Book} {hand : List Active} {x : Order} {r : Route} {tail : List Mut}
      (ev : List Order) (hl : 0 < x.leaves)
      (hd : (discards x = false ∧ r ≠ .submitted ∧
          (x.flags.aon = true ∨ (b.stp.cancelsAggressor = false → Exhausted b x))) ∨
        (x.peg.isSome = true ∧ r = .submitted)) (hn : x.Normal)
      (hnew : b.orders.lookup x.id = none) (htail : RestsAs b x tail)
      (hev : Evolves b tail (b.rest x ev).1) (hf : (b.rest x ev).1.frame = b.frame) :
      Beat ⟨b, some ⟨x, r⟩, hand⟩ tail ⟨(b.rest x ev).1, none, hand⟩
  /-- What is left of the order is dropped. -/
  | finish {b : Book} {hand : List Active} {a : Active} :
      Beat ⟨b, some a, hand⟩ [] ⟨b, none, hand⟩
  /-- A parked stop fires. -/
  | fire {b : Book} {hand : List Active} {id : OrderId} {x : Order}
      (hx : b.stops.lookup id = some x) (hn : x.Normal)
      (hev : Evolves { b with stops := b.stops.erase id } [.trigger (markTriggered x)]
        ({ b with stops := b.stops.erase id }.emitEvent .trigger (markTriggered x) x.leaves 0)) :
      Beat ⟨b, none, hand⟩ [.trigger (markTriggered x)]
        ⟨{ b with stops := b.stops.erase id }.emitEvent .trigger (markTriggered x) x.leaves 0,
          some ⟨markTriggered x, .triggered⟩, hand⟩
  /-- Children are released from their group, to be submitted. -/
  | release {b : Book} {hand : List Active} {gid : ℕ} {gr : Group} {cs : List Order}
      (l : Option LinkSpec) (hcs : (b.group gid).children.Perm (cs ++ gr.children)) :
      Beat ⟨b, none, hand⟩ []
        ⟨b.setGroup gid gr, none, (cs.map (relink l)).map (⟨·, .submitted⟩) ++ hand⟩
  /-- The opening auction is called. -/
  | callOpening {b : Book} {hand : List Active} :
      Beat ⟨b, none, hand⟩ []
        ⟨{ b with openingAuction := [] }, none, auctioned b.openingAuction ++ hand⟩
  /-- The closing auction is called. -/
  | callClosing {b : Book} {hand : List Active} :
      Beat ⟨b, none, hand⟩ []
        ⟨{ b with closingAuction := [] }, none, auctioned b.closingAuction ++ hand⟩
  /-- Two orders of an auction trade. -/
  | cross {b : Book} {hand : List Active} {queue : List Order} {bi si : ℕ} {p q : ℤ} (d : ℤ)
      (hbi : bi < queue.length) (hsi : si < queue.length)
      (hbs : (queued queue bi).side = .buy) (hss : (queued queue si).side = .sell)
      (hq : 0 ≤ q) (hqx : q ≤ (queued queue bi).leaves) (hqy : q ≤ (queued queue si).leaves)
      (hev : Evolves b
        [.cross ⟨(queued queue bi).id, (queued queue si).id, .buy, p, q⟩ d]
        (((b.emitTrade ⟨(queued queue bi).id, (queued queue si).id, .buy, p, q⟩ d).applyPosition
          (queued queue bi).clientId .buy q).applyPosition (queued queue si).clientId .sell q))
      (hf : (((b.emitTrade ⟨(queued queue bi).id, (queued queue si).id, .buy, p, q⟩
        d).applyPosition (queued queue bi).clientId .buy q).applyPosition
          (queued queue si).clientId .sell q).frame = b.frame) :
      Beat ⟨b, none, auctioned queue ++ hand⟩
        [.cross ⟨(queued queue bi).id, (queued queue si).id, .buy, p, q⟩ d]
        ⟨((b.emitTrade ⟨(queued queue bi).id, (queued queue si).id, .buy, p, q⟩ d).applyPosition
          (queued queue bi).clientId .buy q).applyPosition (queued queue si).clientId .sell q,
          none, auctioned ((queue.set bi (takeFill (queued queue bi) q)).set si
            (takeFill (queued queue si) q)) ++ hand⟩
  /-- The remainder of an auction order gets its turn, without its auction flags. -/
  | remainder {b : Book} {hand : List Active} {x : Order} (hx : entersBook x = true)
      (hn : x.Normal) :
      Beat ⟨b, none, ⟨x, .auctioned⟩ :: hand⟩ []
        ⟨b, some ⟨{ x with flags := x.flags.clearAuction }, .auctioned⟩, hand⟩
  /-- The remainder of an auction order is dropped. -/
  | drop {b : Book} {hand : List Active} {x : Order} (hx : entersBook x = false) :
      Beat ⟨b, none, ⟨x, .auctioned⟩ :: hand⟩ [] ⟨b, none, hand⟩
  /-- A resting order is to follow its peg. -/
  | peg {b : Book} {hand : List Active} {id : OrderId}
      (hev : Evolves b [.peg id] { b with pegged := b.pegged.insert id }) :
      Beat ⟨b, none, hand⟩ [.peg id] ⟨{ b with pegged := b.pegged.insert id }, none, hand⟩
  /-- A pegged order moves. -/
  | move {b : Book} {hand : List Active} {e : Entry} {p : ℤ} (hid : e.order.id ∈ b.pegged)
      (he : b.orders.lookup e.order.id = some e) (hp : b.computePegPrice e.order = some p)
      (hne : p ≠ e.order.price)
      (hev : Evolves b [.move e p b.nextSeq] (b.movePegged e.order.id e p))
      (hf : (b.movePegged e.order.id e p).frame = b.frame) :
      Beat ⟨b, none, hand⟩ [.move e p b.nextSeq] ⟨b.movePegged e.order.id e p, none, hand⟩
  /-- A resting order is cancelled. -/
  | remove {b : Book} {hand : List Active} {e : Entry} (he : b.orders.lookup e.order.id = some e)
      (hev : Evolves b [.remove e] (b.removeResting e.order.id e))
      (hf : (b.removeResting e.order.id e).frame = b.frame) :
      Beat ⟨b, none, hand⟩ [.remove e] ⟨b.removeResting e.order.id e, none, hand⟩

/-- A run of beats, with its mutations. -/
inductive Beats : Moment → List Mut → Moment → Prop
  | nil (m : Moment) : Beats m [] m
  | cons {m m' m'' : Moment} {ms ms' : List Mut} (h : Beat m ms m') (h' : Beats m' ms' m'') :
      Beats m (ms ++ ms') m''

namespace Beats

variable {m m' m'' : Moment} {ms ms' : List Mut}

lemma single (h : Beat m ms m') : Beats m ms m' := by
  simpa using Beats.cons h (.nil m')

lemma trans (h : Beats m ms m') (h' : Beats m' ms' m'') : Beats m (ms ++ ms') m'' := by
  induction h with
  | nil m => exact h'
  | cons h _ ih =>
    rw [List.append_assoc]
    exact .cons h (ih h')

/-- What every beat keeps holds at the end, and a relation that composes holds of the whole run
when it holds of its beats. -/
theorem invariant {I : Moment → Prop} {R : Moment → List Mut → Moment → Prop} (hR : Composes R)
    (h : Beats m ms m') (h₀ : I m)
    (hstep : ∀ m ms m', Beat m ms m' → I m → I m' ∧ R m ms m') : I m' ∧ R m ms m' := by
  induction h with
  | nil m => exact ⟨h₀, hR.nil m⟩
  | cons h _ ih =>
    obtain ⟨h₁, hr⟩ := hstep _ _ _ h h₀
    obtain ⟨h₂, hr'⟩ := ih h₁
    exact ⟨h₂, hR.append hr hr'⟩

end Beats

/-- What a beat does to the resting orders. -/
lemma Beat.evolves {m m' : Moment} {ms : List Mut} (h : Beat m ms m') :
    Evolves m.book ms m'.book := by
  cases h with
  | wane hq _ _ => exact hq.evolves
  | @hold b b' hand o _ hx =>
    have htick : Evolves b [] b.ticked := .of_view rfl rfl rfl rfl
    exact htick.trans (holdChild_spec hx).2.1.evolves
  | fill _ _ _ _ _ _ _ _ hev _ => exact hev
  | prevent _ _ _ hev _ => exact hev
  | rest _ _ _ _ _ _ hev _ => exact hev
  | @fire b hand id x _ _ hev =>
    have hleft : Evolves b [] { b with stops := b.stops.erase id } := .of_view rfl rfl rfl rfl
    exact hleft.trans hev
  | cross _ _ _ _ _ _ _ _ hev _ => exact hev
  | peg hev => exact hev
  | move _ _ _ _ hev _ => exact hev
  | remove _ hev _ => exact hev
  | _ => exact .of_view rfl rfl rfl rfl

lemma Beat.run {m m' : Moment} {ms : List Mut} (h : Beat m ms m') :
    View.Run m.book.view ms m'.book.view := h.evolves.run

/-- Every beat keeps the resting book sound. -/
lemma Beat.sound {m m' : Moment} {ms : List Mut} (h : Beat m ms m') (hs : m.book.view.Sound) :
    m'.book.view.Sound := h.run.sound hs

/-- The induction over the beats of an operation on a sound book. -/
theorem Beats.induction {I : Moment → Prop} {R : Moment → List Mut → Moment → Prop}
    (hR : Composes R) {m m' : Moment} {ms : List Mut} (h : Beats m ms m')
    (hs : m.book.view.Sound) (h₀ : I m)
    (hstep : ∀ m ms m', Beat m ms m' → m.book.view.Sound → I m → I m' ∧ R m ms m') :
    I m' ∧ R m ms m' := by
  obtain ⟨⟨-, hI⟩, hr⟩ := h.invariant (I := fun m => m.book.view.Sound ∧ I m) hR ⟨hs, h₀⟩
    fun m ms m' hbeat hm => by
      obtain ⟨hI, hr⟩ := hstep m ms m' hbeat hm.1 hm.2
      exact ⟨⟨hbeat.sound hm.1, hI⟩, hr⟩
  exact ⟨hI, hr⟩

lemma Beats.evolves {m m' : Moment} {ms : List Mut} (h : Beats m ms m') :
    Evolves m.book ms m'.book := by
  induction h with
  | nil m => exact .refl _
  | cons h _ ih => exact h.evolves.trans ih

lemma Beats.run {m m' : Moment} {ms : List Mut} (h : Beats m ms m') :
    View.Run m.book.view ms m'.book.view := h.evolves.run

end Codicis
