/-
The prices of the orders that rest.

An order with a price that is not positive is rejected unless it is pegged, because a pegged order
takes its price from the market.  But a pegged order that carries a trigger is parked as a stop, and
one for an auction is queued, and both become active with the price that they came with.  In every
run without such orders (`Order.Priced`) whatever rests has a positive price.
-/
import Codicis.Core.Identity

namespace Codicis

open Book

/-- A pegged limit order whose price is not positive has no trigger to wait for and is not for an
auction. -/
def Order.Priced (o : Order) : Prop :=
  o.type = .limit → o.price ≤ 0 → o.peg.isSome = true →
    awaitsTrigger o = false ∧ isOpeningAuction o.flags = false ∧ isClosingAuction o.flags = false

instance (o : Order) : Decidable o.Priced :=
  inferInstanceAs (Decidable (_ → _ → _ → _))

/-- A limit order has a positive price. -/
def Order.Sound (o : Order) : Prop := o.type = .limit → 0 < o.price

namespace Book

/-- Whatever rests has a positive price. -/
def PositivePrices (b : Book) : Prop := ∀ id e, b.orders.lookup id = some e → 0 < e.order.price

/-- The prices of all orders inside an operation. -/
structure WellPriced (s : Stage) : Prop where
  resting : s.book.PositivePrices
  stops : ∀ id x, s.book.stops.lookup id = some x → x.Sound
  opening : ∀ x ∈ s.book.openingAuction, x.Sound
  closing : ∀ x ∈ s.book.closingAuction, x.Sound
  held : ∀ x ∈ s.book.frame.held, x.Priced
  submitted : ∀ x, ⟨x, .submitted⟩ ∈ s.hand → x.Priced
  auctioned : ∀ x, ⟨x, .auctioned⟩ ∈ s.hand → x.Sound

section Prices

variable {A : Book → Order → Prop} {b : Book} {o x : Order} {s s' : Stage} {ts : List Trade}

lemma stamp_priced (b : Book) (o : Order) : (b.stamp o).Priced ↔ o.Priced := by
  obtain ⟨-, -, -, hopen, hclose, -, htrigger, -⟩ := stamp_keeps b o
  obtain ⟨htype, hpeg, hprice⟩ := stamp_price b o
  simp only [Order.Priced, awaitsTrigger, hopen, hclose, htrigger, htype, hpeg, hprice]

/-- An order that passes the checks and has a trigger or is for an auction has its own price. -/
lemma Checked.sound (h : b.Checked o) (hp : o.Priced) (hx : awaitsTrigger o = true ∨
    isOpeningAuction o.flags = true ∨ isClosingAuction o.flags = true) : o.Sound := by
  intro ht
  by_contra hle
  rw [not_lt] at hle
  cases hpeg : o.peg with
  | none => exact absurd (h.price ht hpeg) (not_lt.2 hle)
  | some spec =>
    obtain ⟨h1, h2, h3⟩ := hp ht hle (by rw [hpeg]; rfl)
    simp [h1, h2, h3] at hx

lemma stamp_sound (h : o.Sound) (b : Book) : (b.stamp o).Sound := by
  obtain ⟨htype, -, hprice⟩ := stamp_price b o
  intro ht
  rw [hprice]
  exact h (htype ▸ ht)

lemma armStop_flags (b : Book) (o : Order) : (b.armStop o).flags = o.flags := by rw [armStop_eq]

lemma armStop_sound (h : o.Sound) (b : Book) : (b.armStop o).Sound := by
  rw [armStop_eq]
  exact h

/-- An order that enters the book has its own price. -/
lemma WellPriced.entrant (hs : WellPriced s) (h : Entrant s x) : x.Sound := by
  cases h with
  | @sized o x hand hhand h =>
    -- such an order is not pegged
    have ho : o.Sound := fun ht => h.price ht h.unpegged
    have hstamp := stamp_sound ho s.book
    rcases h.order with ⟨-, rfl⟩ | ⟨-, -, -, rfl⟩
    · exact hstamp
    · unfold capReduceOnly
      split_ifs <;> exact hstamp
  | @sprung o hand hhand h hx =>
    have ho := h.toChecked.sound (hs.submitted o (by rw [hhand]; simp)) (.inl hx)
    exact armStop_sound (stamp_sound ho _) _
  | @fired id x hx => exact hs.stops id x hx
  | @remains x hand hhand hx => exact hs.auctioned x (by rw [hhand]; simp)

lemma WellPriced.positive (hs : WellPriced s) (h : Stride A s ts s') :
    s'.book.PositivePrices := by
  intro id e' he'
  rcases h.joins he' with ⟨e, he, -, hp | hp⟩ | hp | ⟨x, hx, hd, -, hp | hp⟩
  · exact hp ▸ hs.resting id e he
  · exact hp
  · exact hp
  · -- an order that is left to rest is a limit order
    rw [← hp]
    refine hs.entrant hx ?_
    cases ht : x.type with
    | limit => rfl
    | market => simp [discards, ht] at hd
  · exact hp

/-- What waits is priced when it comes to wait. -/
lemma ComesToWait.sound (h : ComesToWait s o x s') (hs : WellPriced s)
    (hx : awaitsTrigger x = true ∨ isOpeningAuction x.flags = true ∨
      isClosingAuction x.flags = true) : x.Sound := by
  have hp := hs.submitted o (by rw [h.hand]; simp)
  obtain ⟨-, -, -, hopen, hclose, -, htrigger, -⟩ := stamp_keeps s.book o
  have haw : awaitsTrigger (s.book.stamp o) = awaitsTrigger o := by
    simp only [awaitsTrigger, htrigger]
  rcases h.order with rfl | rfl
  · rw [haw, hopen, hclose] at hx
    exact stamp_sound (h.checked.sound hp hx) _
  · obtain ⟨-, -, -, -, -, haw'⟩ := armStop_keeps s.book.ticked (s.book.stamp o)
    rw [haw', haw, armStop_flags, hopen, hclose] at hx
    exact armStop_sound (stamp_sound (h.checked.sound hp hx) _) _

lemma ComesToWait.priced (h : ComesToWait s o x s') (hs : WellPriced s) : x.Priced := by
  have hp := (stamp_priced s.book o).2 (hs.submitted o (by rw [h.hand]; simp))
  rcases h.order with rfl | rfl
  · exact hp
  · obtain ⟨-, -, -, -, -, haw⟩ := armStop_keeps s.book.ticked (s.book.stamp o)
    unfold Order.Priced
    rw [haw, armStop_flags, armStop_eq]
    exact hp

lemma Stride.wellPriced (h : Stride A s ts s') (hs : WellPriced s) : WellPriced s' := by
  have hhand : (∀ x, ⟨x, .submitted⟩ ∈ s'.hand → x.Priced) ∧
      ∀ x, ⟨x, .auctioned⟩ ∈ s'.hand → x.Sound := by
    constructor
    · intro x hx
      rcases h.hands hx with hx | ⟨c, hc, l, heq, -⟩ | ⟨y, y', -, heq, -⟩
      · exact hs.submitted x hx
      · rw [(Active.mk.inj heq).1]
        exact hs.held c hc
      · simp at heq
    · intro x hx
      rcases h.hands hx with hx | ⟨c, hc, l, heq, -⟩ | ⟨y, y', hy, heq, hbase, -⟩
      · exact hs.auctioned x hx
      · simp at heq
      · rw [(Active.mk.inj heq).1]
        have htype : (base y').type = (base y).type := by rw [hbase]
        have hprice : (base y').price = (base y).price := by rw [hbase]
        exact fun ht => (hs.auctioned y hy (htype ▸ ht)).trans_eq hprice.symm
  rcases h.waits with hw | ⟨o, x, hx⟩
  · refine ⟨hs.positive h, fun id x' hx' => ?_, fun x hx => hs.opening x (hw.opening.subset hx),
      fun x hx => hs.closing x (hw.closing.subset hx), fun x hx => hs.held x (hw.held.subset hx),
      hhand.1, hhand.2⟩
    obtain ⟨x, hx, ht⟩ := hw.stops id x' hx'
    rw [ht.eq_trigger]
    exact hs.stops id x hx
  · refine ⟨hs.positive h, fun id y hy => ?_, fun y hy => ?_, fun y hy => ?_, fun y hy => ?_,
      hhand.1, hhand.2⟩
    · rcases hx.grows.stops id y hy with hy | ⟨rfl, ht⟩
      · exact hs.stops id y hy
      · exact hx.sound hs (.inl ht)
    · rcases hx.grows.opening y hy with hy | ⟨rfl, ht⟩
      · exact hs.opening y hy
      · exact hx.sound hs (.inr (.inl ht))
    · rcases hx.grows.closing y hy with hy | ⟨rfl, ht⟩
      · exact hs.closing y hy
      · exact hx.sound hs (.inr (.inr ht))
    · rcases hx.grows.held y hy with hy | ⟨rfl, -⟩
      · exact hs.held y hy
      · exact hx.priced hs

lemma WellPriced.next {b' : Book} {q : Instruction} (hb : WellPriced ⟨b, [], {}⟩)
    (hq : ∀ o ∈ q.orders, o.Priced) (h : (q.next b).Returns b') : WellPriced ⟨b', [], {}⟩ := by
  obtain ⟨r, hr, h⟩ := Comp.returns_bind.1 h
  obtain rfl := Comp.returns_pure.1 h
  obtain ⟨k', hrun, -⟩ := strides_of_run hr {}
  have hstart : WellPriced ⟨(q.start b).1, (q.start b).2, {}⟩ := by
    obtain ⟨h1, h2, h3, h4, h5, h6, h7⟩ := hb
    cases q with
    | submit o =>
      refine ⟨h1, h2, h3, h4, h5, fun x hx => ?_, fun x hx => by simp [Instruction.start] at hx⟩
      obtain rfl : x = o := by simpa [Instruction.start] using hx
      exact hq x (by simp [Instruction.orders])
    | runOpeningAuction =>
      refine ⟨h1, h2, fun _ hx => absurd hx List.not_mem_nil, h4, h5, fun x hx => ?_,
        fun x hx => h3 x ?_⟩
      · simp [Instruction.start, Book.auctioned] at hx
      · simpa [Instruction.start, Book.auctioned] using hx
    | runClosingAuction =>
      refine ⟨h1, h2, h3, fun _ hx => absurd hx List.not_mem_nil, h5, fun x hx => ?_,
        fun x hx => h4 x ?_⟩
      · simp [Instruction.start, Book.auctioned] at hx
      · simpa [Instruction.start, Book.auctioned] using hx
    | seedPosition c net =>
      simp only [Instruction.start, Book.seedPosition]
      split_ifs <;> exact ⟨h1, h2, h3, h4, h5, h6, h7⟩
    | _ => exact ⟨h1, h2, h3, h4, h5, h6, h7⟩
  obtain ⟨h1, h2, h3, h4, h5, h6, h7⟩ := (hrun.invariant (T := fun _ => True) hstart
    fun _ _ _ hstep hs => ⟨hstep.wellPriced hs, fun _ _ => trivial⟩).1
  exact ⟨h1, h2, h3, h4, h5, h6, h7⟩

end Prices

end Book

namespace Instruction

variable {stp : StpPolicy} {symbol : Symbol} {eventSink : Bool} {b : Book}

/-- In every run without pegged orders that come with no price of their own and have to wait,
whatever rests has a positive price. -/
theorem positivePrices_of_reach
    (h : Machine.Reach next (fun _ q => ∀ o ∈ q.orders, o.Priced)
      (Book.empty 0 stp symbol eventSink) b) : b.PositivePrices := by
  have h₀ : WellPriced ⟨Book.empty 0 stp symbol eventSink, [], {}⟩ :=
    ⟨fun id e he => by simp [Book.empty] at he, fun id e he => by simp [Book.empty] at he,
      by simp [Book.empty], by simp [Book.empty], fun x hx => absurd hx List.not_mem_nil, by simp,
      by simp⟩
  have hb : WellPriced ⟨b, [], {}⟩ := h.invariant (I := fun b => WellPriced ⟨b, [], {}⟩) h₀
    fun b q b' hb hq hstep => hb.next hq hstep
  exact hb.resting

/-- A pegged order without a price follows the bid, and a stop rests when it fires. -/
theorem positivePrices_of_reach_fired : ∃ b,
    Machine.Reach next (fun _ q => ∀ o ∈ q.orders, o.Priced)
      (Book.empty 0 .none "ABC" false) b ∧ (b.find 2).map (·.price) = some 90 ∧
    (b.find 3).map (·.price) = some 80 ∧ b.PositivePrices := by
  let qs : List Instruction := [
    .submit { id := 1, qty := 5, price := 90 },
    .submit { id := 2, qty := 5, price := 0, peg := some { ref := .primary } },
    .submit { id := 3, qty := 5, price := 80, trigger := some { stopPrice := 85 } },
    .submit { id := 4, side := .sell, qty := 1, price := 90 }]
  obtain ⟨b, hb, h2, h3⟩ : ∃ b, Machine.Reach next (fun _ q => ∀ o ∈ q.orders, o.Priced)
      (Book.empty 0 .none "ABC" false) b ∧ (b.find 2).map (·.price) = some 90 ∧
      (b.find 3).map (·.price) = some 80 := Machine.Reach.exists_of_acts 8 qs (by decide +kernel)
  exact ⟨b, hb, h2, h3, positivePrices_of_reach hb⟩

/-- The remainder of a pegged order for the opening auction rests at the price that it came with. -/
theorem exists_unpriced : ∃ b, Machine.Reach next (fun _ _ => True)
    (Book.empty 0 .none "ABC" false) b ∧ (b.find 1).map (·.price) = some 0 ∧
    ¬ b.PositivePrices := by
  let qs : List Instruction := [
    .submit { id := 1, qty := 5, price := 0, peg := some { ref := .primary },
              flags := { loo := true } },
    .runOpeningAuction]
  obtain ⟨b, hb, hprice⟩ : ∃ b, Machine.Reach next (fun _ _ => True)
      (Book.empty 0 .none "ABC" false) b ∧ (b.orders.lookup 1).map (·.order.price) = some 0 :=
    Machine.Reach.exists_of_acts 8 qs (by decide +kernel)
  obtain ⟨e, he, h0⟩ := Option.map_eq_some_iff.1 hprice
  refine ⟨b, hb, by simp [find, he, h0], fun hpos => ?_⟩
  exact absurd (hpos 1 e he) (by simp [h0])

end Instruction

end Codicis
