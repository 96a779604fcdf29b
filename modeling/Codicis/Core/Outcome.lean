/-
What the outcome of a submission says about the order that was submitted.

`submit` fills in the outcome on four paths: for a pegged order, for an all-or-none order that
cannot be filled, for an order that is matched, and for a stop that fires on arrival.  `Described`
compares the outcome with the book as it is once the submitted order has had its turn: the order
is then found in the book, or the book does not hold it and its price lies in the deep liquidity of
its side.  Stops, pegs and linked orders follow the turn and may do anything to the order.

On the path of the stop nothing is said about what rests, so the stops that fire on arrival are
excepted, and on the path of the matched order the quantity that the order came with as filled is
counted along.
-/
import Codicis.Core.Fillable
import Codicis.Core.Repricing

namespace Codicis

namespace Book

/-! ### What is left of a submitted order -/

/-- The order `y` lies beyond the resident window: the book does not hold it, and the summary of
the deep liquidity reaches its price. -/
def LiesDeep (b : Book) (y : Order) : Prop :=
  b.find y.id = none ∧ (b.deepOf y.side).has = true ∧
    worseThan y.side (b.deepOf y.side).boundary y.price = false

/-- On the way from `b` to `b'` the book has announced that the order `y` joins it. -/
def Announces (b b' : Book) (y : Order) : Prop :=
  b.eventSink = true → y.event b.symbol .add y.leaves (displayedOf y.flags y.leaves (sliceOf y)) ∈
    b'.events.drop b.events.length

/-- The order `y` is what is left of the order `o`, submitted to the book `b`, once `q` of it has
been executed. -/
structure Remainder (b : Book) (o : Order) (q : ℤ) (y : Order) : Prop where
  id : y.id = o.id
  side : y.side = o.side
  price : if o.peg = none then y.price = o.price else b.computePegPrice o = some y.price
  leaves : y.leaves = (if o.peg = none then b.entering o else b.stamp o).leaves - q
  rank : y.rank = b.nextSeq

/-- The outcome of the submission of `o` says what came to rest of it, where, and what it has
executed.  The order joins the book in its turn, which makes the executions `ts` and leaves the
book `b₁`. -/
structure Described (b : Book) (o : Order) (x : Book × SubmitOutcome) : Prop where
  one : x.2.rested ≠ x.2.restedDeep
  joined : ∃ b₁ ts ts' k k', Stride anyOrder ⟨b, [⟨o, .submitted⟩], {}⟩ ts ⟨b₁, [], k⟩ ∧
    Strides anyOrder ⟨b₁, [], k⟩ ts' ⟨x.1, [], k'⟩ ∧ x.2.trades = ts ++ ts' ∧
    Remainder b o (takerQty o.id ts) x.2.resting ∧ Announces b b₁ x.2.resting ∧
    (x.2.rested = true ↔ b₁.find o.id = some x.2.resting) ∧
    (x.2.restedDeep = true ↔ b₁.LiesDeep x.2.resting)
  filled : x.2.filled = takerQty o.id x.2.trades

/-! ### Coming to rest -/

section Rest

variable {b b' : Book} {o x y : Order} {ms : List Mut}

lemma deepOf_emit (b : Book) (ev : BookEvent) (s : Side) : (b.emit ev).deepOf s = b.deepOf s := by
  unfold emit
  split_ifs <;> cases s <;> rfl

lemma deepOf_setLadder (b : Book) (t : Side) (L : Ladder t) (s : Side) :
    (b.setLadder t L).deepOf s = b.deepOf s := by
  cases t <;> cases s <;> rfl

/-- The summary of the deep liquidity reaches a price that has been noted. -/
lemma deepOf_noteDeep (b : Book) (s : Side) (p : ℤ) : ((b.noteDeep s p).deepOf s).has = true ∧
    worseThan s ((b.noteDeep s p).deepOf s).boundary p = false := by
  cases s with
  | buy =>
    refine ⟨rfl, decide_eq_false (not_lt.2 ?_)⟩
    by_cases h : b.deepBid.has = false <;> simp [noteDeep, deepOf, h]
  | sell =>
    refine ⟨rfl, decide_eq_false (not_lt.2 ?_)⟩
    by_cases h : b.deepAsk.has = false <;> simp [noteDeep, deepOf, h]

/-- Where an order is once it has been put to rest. -/
lemma rest_joins (hb : b.view.Sound) (hnew : b.orders.lookup y.id = none) (hy : Restable y) :
    ((b.rest y []).2.1 = true → (b.rest y []).1.find y.id = some y) ∧
      ((b.rest y []).2.1 = false → (b.rest y []).1.LiesDeep y) := by
  refine ⟨fun h => ?_, fun h => ?_⟩
  · rw [find, rest_resident hb hnew hy [] h]
    rfl
  · revert h
    unfold rest
    dsimp only
    split_ifs with h1 h2
    · intro _
      refine ⟨by simp [find, emitEvent, hnew], ?_⟩
      rw [emitEvent, deepOf_emit]
      exact b.deepOf_noteDeep y.side y.price
    all_goals simp

lemma repricePeg_apart (b : Book) {id i : OrderId} (hi : i ≠ id) :
    (b.repricePeg id).find i = b.find i ∧ ∀ s, (b.repricePeg id).deepOf s = b.deepOf s := by
  unfold repricePeg
  split
  · exact ⟨rfl, fun s => by cases s <;> rfl⟩
  · split
    · exact ⟨rfl, fun _ => rfl⟩
    · split_ifs
      · exact ⟨rfl, fun _ => rfl⟩
      · refine ⟨?_, fun s => ?_⟩
        · simp [find, movePegged, emitReprice, setEntry, hi]
        · have hunlink : ∀ e : Entry, (b.unlink e).deepOf s = b.deepOf s := by
            intro e
            unfold unlink noteRemoved
            dsimp only
            split
            · rfl
            · split_ifs <;> simp only [modifyLevel, deepOf_setLadder]
          simp only [movePegged, emitReprice, deepOf_emit, modifyLevel]
          have hset : ∀ (b : Book) (i : OrderId) (e : Entry),
            (b.setEntry i e).deepOf s = b.deepOf s :=
            fun _ _ _ => by cases s <;> rfl
          have hreq : ∀ (b : Book) (y : Order), (b.requeue y).1.deepOf s = b.deepOf s :=
            fun _ _ => by cases s <;> rfl
          simp only [hset, hreq, deepOf_setLadder, hunlink]

/-- A pass over the pegged orders leaves the others where they are. -/
lemma repricePegs_apart (b : Book) {i : OrderId} (hi : i ∉ b.pegged) :
    b.repricePegs.find i = b.find i ∧ ∀ s, b.repricePegs.deepOf s = b.deepOf s := by
  have hall : ∀ (l : List OrderId) (b : Book), i ∉ l → (l.foldl repricePeg b).find i = b.find i ∧
      ∀ s, (l.foldl repricePeg b).deepOf s = b.deepOf s := by
    intro l
    induction l with
    | nil => exact fun b _ => ⟨rfl, fun _ => rfl⟩
    | cons id l ih =>
      intro b hl
      obtain ⟨hne, hl⟩ := not_or.1 (List.mem_cons.not.1 hl)
      obtain ⟨hfind, hdeep⟩ := b.repricePeg_apart hne
      obtain ⟨hfind', hdeep'⟩ := ih (b.repricePeg id) hl
      exact ⟨hfind'.trans hfind, fun s => (hdeep' s).trans (hdeep s)⟩
  exact hall _ b fun hmem => hi ((List.perm_insertionSort _ _).subset hmem)

end Rest

/-! ### The paths of a submission -/

section Paths

variable {b b' b₁ : Book} {o x : Order} {ms : List Mut} {ts : List Trade} {k k' : Marks}
  {out : SubmitOutcome} {r : Book × List Trade}

/-- What a mutation logs has been announced. -/
lemma Evolves.announces (h : Evolves b ms b') {y : Order}
    (hy : Mut.rest ⟨y, sliceOf y⟩ ∈ ms ∨ Mut.restDeep y ∈ ms) : Announces b b' y := by
  intro hsink
  rw [h.events, if_pos hsink, List.drop_left, List.mem_flatMap]
  rcases hy with hy | hy
  · exact ⟨_, hy, List.mem_singleton_self _⟩
  · exact ⟨_, hy, List.mem_singleton_self _⟩

/-- A turn that reports what it has put to rest, and what follows it. -/
lemma described_of_turn (hstop : firesAtOnce b o = false) (h0 : o.filled = 0)
    (hstride : Stride anyOrder ⟨b, [⟨o, .submitted⟩], {}⟩ ts ⟨b₁, [], k⟩)
    (hadv : Advances ⟨b, [⟨o, .submitted⟩], {}⟩ ms ⟨b₁, [], k⟩) (hrep : Reported b o ms out)
    (hts : ts = Mut.trades ms) (hflag : out.rested = true ∨ out.restedDeep = true)
    (hrem : Remainder b o (takerQty o.id ts) out.resting)
    (hjoins : (out.rested = true → b₁.find out.resting.id = some out.resting) ∧
      (out.rested = false → b₁.LiesDeep out.resting))
    (hlead : Leads anyOrder ⟨b₁, [], k⟩ ts r [] k') (hqty : takerQty o.id r.2 = takerQty o.id ts) :
    Described b o (r.1, { out with trades := r.2 }) := by
  have hfilled : out.filled = takerQty o.id r.2 := by
    rw [hqty, hts]
    rcases hrep.filled with ⟨h, h'⟩ | h
    · exact h.trans h'.symm
    · rw [h, h0, zero_add]
  obtain ⟨ts', hr, hrun⟩ := hlead
  rw [hrem.id] at hjoins
  rcases hrep.resting hflag with ⟨hf, -⟩ | ⟨hid, ⟨hres, hdeep, hm⟩ | ⟨hres, hdeep, -, hm⟩⟩
  · exact absurd (hf.symm.trans hstop) (by simp)
  · have hfind := hjoins.1 hres
    refine ⟨by simp [hres, hdeep], ⟨b₁, ts, ts', k, k', hstride, hrun, hr, hrem,
      hadv.evolves.announces (.inl hm), iff_of_true hres hfind, iff_of_false (by simp [hdeep]) ?_⟩,
      hfilled⟩
    rintro ⟨hnone, -⟩
    simp [hid, hfind] at hnone
  · have hlies := hjoins.2 hres
    refine ⟨by simp [hres, hdeep], ⟨b₁, ts, ts', k, k', hstride, hrun, hr, hrem,
      hadv.evolves.announces (.inr hm), iff_of_false (by simp [hres]) ?_, iff_of_true hdeep hlies⟩,
      hfilled⟩
    rw [← hid, hlies.1]
    simp

/-- A turn that executes nothing and that nothing follows. -/
lemma described_at_once (hstop : firesAtOnce b o = false) (h0 : o.filled = 0)
    (hstride : Stride anyOrder ⟨b, [⟨o, .submitted⟩], {}⟩ [] ⟨b₁, [], k⟩)
    (hadv : Advances ⟨b, [⟨o, .submitted⟩], {}⟩ ms ⟨b₁, [], k⟩) (hrep : Reported b o ms out)
    (htr : Mut.trades ms = []) (hflag : out.rested = true ∨ out.restedDeep = true)
    (hrem : Remainder b o 0 out.resting)
    (hjoins : (out.rested = true → b₁.find out.resting.id = some out.resting) ∧
      (out.rested = false → b₁.LiesDeep out.resting)) : Described b o (b₁, out) := by
  have htrades : out.trades = [] := hrep.trades.trans htr
  have hturn := described_of_turn hstop h0 hstride hadv hrep htr.symm hflag hrem hjoins
    (.refl b₁ [] k []) rfl
  rwa [← htrades] at hturn

/-- What is left of an order that has been matched. -/
lemma Sized.remainder (h : b.Sized o x) (q : ℤ) : Remainder b o q (takeFill x q) := by
  have hx := h.eq_entering
  have hside : x.traits.side = o.traits.side := by rw [h.traits]
  obtain ⟨hprice, hrank⟩ : x.price = o.price ∧ x.rank = b.nextSeq := by
    have hcap : ∀ (y : Order) (c : ℤ), (capReduceOnly y c).price = y.price ∧
        (capReduceOnly y c).rank = y.rank := by
      intro y c
      unfold capReduceOnly
      split_ifs <;> exact ⟨rfl, rfl⟩
    rcases h.order with ⟨-, rfl⟩ | ⟨-, -, -, rfl⟩
    · exact ⟨(stamp_price b o).2.2, rfl⟩
    · exact ⟨(hcap _ _).1.trans (stamp_price b o).2.2, (hcap _ _).2⟩
  refine ⟨Order.id_eq_of_traits h.traits, hside, ?_, ?_, hrank⟩
  · rw [if_pos h.unpegged]
    exact hprice
  · rw [if_pos h.unpegged, ← hx]
    rfl

lemma submitAon_described (hs : Fit ⟨b, [⟨o, .submitted⟩], {}⟩) (hadm : b.Admits o (.aon b' x))
    (hstop : firesAtOnce b o = false) (h0 : o.filled = 0)
    (hflag : (b'.submitAon x).2.rested = true ∨ (b'.submitAon x).2.restedDeep = true) :
    Described b o (b'.submitAon x) := by
  obtain ⟨ms, hadv, htr, hrep⟩ := @Admits.advances_aon _ _ _ _ _ _ {} hs hadm
  have hstride : Stride anyOrder ⟨b, [⟨o, .submitted⟩], {}⟩ [] ⟨(b'.submitAon x).1, [], {}⟩ :=
    .aon trivial hadm
  cases hadm with
  | aon h hx ha =>
    by_cases hdis : discards x = true
    · simp [submitAon, hdis, reject] at hflag
    have heq : (b.looked o).submitAon x = (((b.looked o).rest x []).1.repricePegs, _) :=
      if_neg hdis
    rw [heq] at hstride hadv hrep hflag ⊢
    have hnew := h.lookup_eq_none hs
    have hv : (b.looked o).view.Sound := (quiet_looked b o).1.view ▸ hs.sound
    obtain ⟨hres, hadmitted⟩ := h.ready hs
    obtain ⟨tail, hev, -⟩ := rest_spec hv hnew hres []
    obtain ⟨hfind, hlies⟩ := rest_joins hv hnew hres
    -- the order is not pegged, so the pass over the pegs leaves it where it is
    have hpeg : x.id ∉ ((b.looked o).rest x []).1.pegged := by
      intro hmem
      obtain ⟨e, he, hp⟩ := (hev.sound hv).pegged_ok _ hmem
      have he' : ((b.looked o).rest x []).1.find x.id = some e.order := by
        rw [find, show ((b.looked o).rest x []).1.orders.lookup x.id = some e from he]
        rfl
      cases hr : ((b.looked o).rest x []).2.1 with
      | true =>
        obtain rfl := Option.some.inj ((hfind hr).symm.trans he')
        simp [hadmitted.unpegged] at hp
      | false => simp [(hlies hr).1] at he'
    obtain ⟨hkeep, hdeep⟩ := repricePegs_apart _ hpeg
    have hrem : Remainder b o 0 x := takeFill_zero x ▸ h.remainder 0
    refine described_at_once hstop h0 hstride hadv hrep htr hflag hrem ⟨fun hr => ?_, fun hr => ?_⟩
    · exact hkeep.trans (hfind hr)
    · obtain ⟨hnone, hhas, hbound⟩ := hlies hr
      exact ⟨hkeep.trans hnone, (hdeep _).symm ▸ hhas, (hdeep _).symm ▸ hbound⟩

lemma submitPeg_described (hs : Fit ⟨b, [⟨o, .submitted⟩], {}⟩) (hadm : b.Admits o (.peg b' x))
    (hstop : firesAtOnce b o = false) (h0 : o.filled = 0)
    (hflag : (b'.submitPeg x).2.rested = true ∨ (b'.submitPeg x).2.restedDeep = true) :
    Described b o (b'.submitPeg x) := by
  obtain ⟨ms, hadv, htr, hrep⟩ := @Admits.advances_peg _ _ _ _ _ _ {} hs hadm
  have hstride : Stride anyOrder ⟨b, [⟨o, .submitted⟩], {}⟩ [] ⟨(b'.submitPeg x).1, [], {}⟩ :=
    .peg trivial hadm
  cases hadm with
  | peg h hx hp =>
    cases hprice : b.ticked.computePegPrice (b.stamp o) with
    | none => simp [submitPeg, hprice, reject] at hflag
    | some price =>
      obtain ⟨hid, -, -, -, -, hside, -⟩ := stamp_keeps b o
      obtain ⟨hres, -⟩ := h.toChecked.ready (hs.ready _ List.mem_cons_self)
      have hnone : ¬ o.peg = none := Option.isSome_iff_ne_none.1 hp
      have hpegs : b.ticked.computePegPrice (b.stamp o) = b.computePegPrice o := by
        unfold computePegPrice
        rw [(stamp_price b o).2.1, hside]
        rfl
      have hjoins := rest_joins (b := b.ticked)
        (y := { b.stamp o with type := .limit, price := price })
        hs.sound hs.stamp_new hres
      have hrem : Remainder b o 0 { b.stamp o with type := .limit, price := price } := by
        refine ⟨hid, hside, ?_, ?_, rfl⟩
        · rw [if_neg hnone, ← hpegs, hprice]
        · rw [if_neg hnone, sub_zero]
      simp only [submitPeg, hprice] at hstride hadv hrep hflag ⊢
      refine described_at_once hstop h0 hstride hadv hrep htr hflag hrem ?_
      split_ifs
      · exact hjoins
      · exact hjoins

lemma execute_described (hs : Fit ⟨b, [⟨o, .submitted⟩], {}⟩) (hadm : b.Admits o (.matched b' x))
    (hstop : firesAtOnce b o = false) (h0 : o.filled = 0) {r : Book × SubmitOutcome}
    (hr : (execute (fun x => x.1.submit x.2) b' x).Returns r)
    (hflag : r.2.rested = true ∨ r.2.restedDeep = true) : Described b o r := by
  obtain ⟨m, k', hm, hout, hlead⟩ := execute_turn hr
  obtain ⟨ms, hadv, htr, hf, hrep⟩ := (@Admits.advances_meet _ _ _ _ _ _
    (Marks.enters {} m.trades) hs hadm).of_returns hm
  have hstride : Stride anyOrder ⟨b, [⟨o, .submitted⟩], {}⟩ m.trades
      ⟨afterMeet m, [], Marks.enters {} m.trades⟩ := .meet trivial hadm hm
  obtain ⟨hfit, ho⟩ := hs.after_turn hstride hf
  have heq : r = (r.1, { metOutcome x m with trades := r.2.trades }) := Prod.ext rfl hout
  rw [hout] at hflag
  have hrest : 0 < m.order.leaves ∧ m.cancelled = false ∧ discards m.order = false := by
    by_contra hno
    simp [metOutcome, if_neg hno] at hflag
  have hmet : (metOutcome x m).resting = m.order ∧
      (metOutcome x m).rested = (m.book.rest m.order []).2.1 := by
    simp [metOutcome, if_pos hrest]
  cases hadm with
  | matched h hx =>
    obtain ⟨hres, -⟩ := h.ready hs
    have hv : (b.looked o).view.Sound := (quiet_looked b o).1.view ▸ hs.sound
    have hmeets := matchOrder_meets hm
    obtain ⟨sw, hsw, -⟩ := (matchOrder_spec hv hres.1.le []).of_returns hm
    obtain ⟨new, hnew, horder, htk⟩ := hmeets.trades
    have hid : m.order.id = x.id := by rw [horder]; rfl
    have hqty : takerQty o.id m.trades = volume new := by
      rw [hnew, List.nil_append]
      exact takerQty_eq_volume fun t ht => (htk t ht).1.trans (Order.id_eq_of_traits h.traits)
    have hrem : Remainder b o (takerQty o.id m.trades) m.order := by
      rw [hqty, horder]
      exact h.remainder _
    have hrestable : Restable m.order := ⟨hrest.1, by rw [horder]; exact hres.2⟩
    have hjoins := rest_joins (hsw.evolves.sound hv)
      (hmeets.lookup_eq_none (hid ▸ h.lookup_eq_none hs)) hrestable
    rw [heq]
    refine described_of_turn hstop h0 hstride hadv hrep htr hflag (hmet.1 ▸ hrem) ?_ hlead
      (hlead.takerQty_eq hfit ho)
    dsimp only
    rw [hmet.1, hmet.2, afterMeet, if_pos hrest]
    exact hjoins

/-- The outcome of the submission of an order describes what came to rest of it, unless the order
is a stop that fires on arrival. -/
theorem submit_described (hb : WF b) (hnew : ¬ Live b o.id) (hd : 0 ≤ o.displayQty)
    (hstop : firesAtOnce b o = false) (h0 : o.filled = 0) :
    (b.submit o).Ensures fun r => r.2.rested = true ∨ r.2.restedDeep = true → Described b o r := by
  obtain ⟨r, hret, ms, -, hrep, -⟩ := submit_step hb hnew hd
  refine ⟨r, hret, fun hflag => ?_⟩
  have hs := hb.fit_submit hnew hd
  obtain ⟨a, hadm, h⟩ := submit_admits hret
  cases a with
  | answered x =>
    obtain rfl := Comp.returns_pure.1 h
    cases hadm <;> simp [reject] at hflag
  | aon b' x =>
    obtain rfl := Comp.returns_pure.1 h
    exact submitAon_described hs hadm hstop h0 hflag
  | peg b' x =>
    obtain rfl := Comp.returns_pure.1 h
    exact submitPeg_described hs hadm hstop h0 hflag
  | stop b' x =>
    have h : (b'.submitStop x).Returns r := h
    unfold submitStop at h
    dsimp only at h
    split_ifs at h with hfire
    · exact absurd (hadm.firesAtOnce hfire.1 hfire.2) (by simp [hstop])
    all_goals
      obtain rfl := Comp.returns_pure.1 h
      simp at hflag
  | matched b' x => exact execute_described hs hadm hstop h0 h hflag

end Paths

/-! ### Runs -/

end Book

end Codicis
