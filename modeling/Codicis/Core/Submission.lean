/-
Submission keeps a book well-formed.

From a fit stage a stride makes mutations of the resting orders, by beats (`Stride.advances`), and
so does a run of strides.  Every operation is such a run and ends, because
matching does (`drives_fit`), so that an instruction leaves a well-formed book well-formed
(`Instruction.run_step`).  What the outcome of a submission reports is read off its first stride:
what follows it does not concern the order (`Reported.append`).
-/
import Codicis.Core.Operations

namespace Codicis

namespace Book

/-! ### Arrival -/

section Arrival

variable {b b' : Book} {o x : Order} {hand : List Active} {k k' : Marks} {ts : List Trade}
  {A : Book → Order → Prop}

lemma cached_ticked (hc : b.Cached) : b.ticked.Cached := hc.of_ladder fun s => by cases s <;> rfl

/-- Looking at the best price refreshes its cache at most. -/
lemma quiet_looked (b : Book) (o : Order) : Quiet b (b.looked o) ∧
    (b.Cached → (b.looked o).Cached) ∧ (b.looked o).nextSeq = b.ticked.nextSeq := by
  unfold looked
  split_ifs
  · have hf : (b.ticked.crosses (b.stamp o)).1.frame = b.frame := (b.ticked.calm_crosses _).frame
    have hv : (b.ticked.crosses (b.stamp o)).1.view = b.view := by
      simp only [view, level, crosses, setLadder_keeps]
      simp only [level_setLadder_of_eq (Ladder.level_best (b.ticked.ladder _))]
      rfl
    refine ⟨⟨hv, congrArg Frame.settings hf, ?_, ?_, ?_⟩, fun hc => ?_, ?_⟩
    · simp [crosses, ticked]
    · simp [crosses, ticked]
    · simp [crosses, ticked]
    · exact (cached_ticked hc).crosses _
    · simp [crosses]
  · exact ⟨⟨rfl, rfl, rfl, rfl, rfl⟩, cached_ticked, rfl⟩

/-- An order that passes the checks of a fit stage arrives. -/
lemma Fit.arrives (hs : Fit ⟨b, ⟨o, .submitted⟩ :: hand, k⟩) (h : b.Checked o) : b.Arrives o :=
  ⟨hs.not_live (a := ⟨o, .submitted⟩) (by simp), h.qty, h.leaves,
    stamp_displayQty b (hs.ready _ List.mem_cons_self) h.qty, h.price⟩

lemma Fit.lookup_eq_none (hs : Fit ⟨b, hand, k⟩) {a : Active} (ha : a ∈ hand) :
    b.orders.lookup a.order.id = none :=
  WF.lookup_eq_none (hs.not_live ha)

lemma Fit.head_new {a : Active} (hs : Fit ⟨b, a :: hand, k⟩) :
    b.orders.lookup a.order.id = none := hs.lookup_eq_none List.mem_cons_self

lemma Fit.stamp_new (hs : Fit ⟨b, ⟨o, .submitted⟩ :: hand, k⟩) :
    b.orders.lookup (b.stamp o).id = none := by
  rw [(stamp_keeps b o).1]
  exact hs.head_new

/-- An order in hand is idle once. -/
lemma Fit.notMem_idle {a : Active} (hs : Fit ⟨b, a :: hand, k⟩) (hf : b'.frame = b.frame) :
    a.order.id ∉ Stage.idle ⟨b', hand, k'⟩ := by
  have hnd := (List.nodup_append.1 hs.once.nodup).2.1
  rw [Stage.idle, waitingIds_of_frame hf]
  exact (List.nodup_cons.1 ((List.perm_middle (a := a.order.id)).nodup_iff.1 hnd)).1

/-- A submitted order is answered at the door. -/
lemma Admits.advances_answered {r : Book × SubmitOutcome}
    (hs : Fit ⟨b, ⟨o, .submitted⟩ :: hand, k⟩) (h : b.Admits o (.answered r)) :
    Advances ⟨b, ⟨o, .submitted⟩ :: hand, k⟩ [] ⟨r.1, hand, k⟩ := by
  obtain ⟨-, -, -, hopen, hclose, -⟩ := stamp_keeps b o
  cases h with
  | refused reason => exact ⟨cached_ticked hs.cached, .single .refuse⟩
  | declined hch reason =>
    obtain ⟨hq, hc, hseq⟩ := quiet_looked b o
    exact ⟨hc hs.cached, (Beats.single .refuse).trans (.single (.wane
      ⟨hq.view, hq.settings, hq.positions, hq.events, hq.requeued⟩ hseq
      (.of_frame (looked_keeps b o).1)))⟩
  | opening hch hx =>
    exact ⟨hs.cached.of_ladder fun s => by cases s <;> rfl,
      (Beats.single (.arrive (hs.arrives hch))).trans
        (.single (.queueOpening hch.leaves (hopen.trans hx)))⟩
  | closing hch hx =>
    exact ⟨hs.cached.of_ladder fun s => by cases s <;> rfl,
      (Beats.single (.arrive (hs.arrives hch))).trans
        (.single (.queueClosing hch.leaves (hclose.trans hx)))⟩
  | held hch hx =>
    refine ⟨?_, .single (.hold (hs.arrives hch) hx)⟩
    obtain ⟨-, gid, gr, rfl, -⟩ := holdChild_eq_some hx
    exact hs.cached.of_ladder fun s => by cases s <;> rfl

/-- A submitted stop is parked. -/
lemma Admits.advances_park (hs : Fit ⟨b, ⟨o, .submitted⟩ :: hand, k⟩)
    (h : b.Admits o (.stop b' x))
    (hq : ¬ (b'.haveLast = true ∧ stopTriggered (b'.armStop x) b'.lastPrice = true)) :
    Advances ⟨b, ⟨o, .submitted⟩ :: hand, k⟩ []
      ⟨{ b' with stops := b'.stops.insert (b'.armStop x).id (b'.armStop x) }, hand, k⟩ := by
  cases h with
  | stop hch hx =>
    have haw : awaitsTrigger (b.stamp o) = true := (awaitsTrigger_stamp b o).trans hx
    have hnew : b.ticked.stops.lookup (b.ticked.armStop (b.stamp o)).id = none := by
      rw [(armStop_keeps b.ticked (b.stamp o)).1, (stamp_keeps b o).1]
      exact hch.parked
    exact ⟨hs.cached.of_ladder fun s => by cases s <;> rfl,
      (Beats.single (.arrive (hs.arrives hch.toChecked))).trans (.single (.park haw hnew hq))⟩

/-- A reduce-only order is capped to what it may take. -/
lemma capReduceOnly_leaves (ho : Restable o) {c : ℤ} (hc : 0 < c) :
    Restable (capReduceOnly o c) ∧ (capReduceOnly o c).leaves ≤ c := by
  unfold capReduceOnly
  split_ifs with h
  · exact ⟨⟨hc, ho.2⟩, le_rfl⟩
  · exact ⟨ho, not_lt.1 h⟩

namespace Sized

lemma traits (h : b.Sized o x) : x.traits = o.traits := by
  rcases h.order with ⟨-, rfl⟩ | ⟨-, -, -, rfl⟩
  · exact o.traits_stamp b
  · exact ((b.stamp o).traits_capReduceOnly _).trans (o.traits_stamp b)

/-- The order is new to the book in which it is matched. -/
lemma lookup_eq_none (h : b.Sized o x) (hs : Fit ⟨b, ⟨o, .submitted⟩ :: hand, k⟩) :
    (b.looked o).orders.lookup x.id = none := by
  rw [(looked_keeps b o).2, Order.id_eq_of_traits h.traits]
  exact hs.head_new

lemma filled (h : b.Sized o x) : x.filled = o.filled := by
  obtain ⟨-, -, hfl, -⟩ := stamp_keeps b o
  rcases h.order with ⟨-, rfl⟩ | ⟨-, -, -, rfl⟩
  · exact hfl
  · exact (capReduceOnly_keeps _ _).2.1.trans hfl

/-- The order that is matched may get its turn. -/
lemma ready (h : b.Sized o x) (hs : Fit ⟨b, ⟨o, .submitted⟩ :: hand, k⟩) :
    Restable x ∧ Admitted (b.looked o) x := by
  obtain ⟨hq, -, -⟩ := quiet_looked b o
  obtain ⟨hres, hn⟩ := h.toChecked.ready (hs.ready _ List.mem_cons_self)
  have hpeg : (b.stamp o).peg = none := (stamp_price b o).2.1.trans h.unpegged
  -- a post-only order has seen that there is nothing it could fill against
  have hpo : (b.stamp o).flags.postOnly = true → ∀ p, acceptable (b.stamp o) p = true →
      ((b.looked o).level (b.stamp o).side.opposite p).fifo = [] := by
    intro hp p hacc
    have hnil := (cached_ticked hs.cached).crosses_eq_false hs.sound (h.postOnly hp) hacc
    exact (congrArg (fun v => v.queue (b.stamp o).side.opposite p) hq.view).trans hnil
  rcases h.order with ⟨hro, rfl⟩ | ⟨-, hacc, hcap, rfl⟩
  · exact ⟨hres, hn, hpo, fun hr => absurd hr (by simp [hro]), hpeg⟩
  · obtain ⟨-, -, -, hflags, hcl, hside, hpg, haccept, hcapacity, htif⟩ :=
      capReduceOnly_keeps (b.stamp o) ((b.looked o).reduceOnlyCapacity (b.stamp o))
    obtain ⟨hres', hle⟩ := capReduceOnly_leaves hres hcap
    refine ⟨hres', ?_, fun hp p hpa => ?_, fun _ => ⟨?_, ?_⟩, hpg.trans hpeg⟩
    · rw [Order.Normal, htif]
      exact hn
    · rw [hside]
      exact hpo (hflags ▸ hp) p (haccept p ▸ hpa)
    · rw [hcl, stamp_clientId]
      exact hacc
    · exact (hcapacity _).symm ▸ hle

/-- The order arrives and is to be matched. -/
lemma beats (h : b.Sized o x) (hs : Fit ⟨b, ⟨o, .submitted⟩ :: hand, k⟩) :
    Beats ⟨b, none, ⟨o, .submitted⟩ :: hand⟩ [] ⟨b.looked o, some ⟨x, .entered⟩, hand⟩ := by
  obtain ⟨hq, -, hseq⟩ := quiet_looked b o
  obtain ⟨-, hadm⟩ := h.ready hs
  have harr := hs.arrives h.toChecked
  have hwane : ∀ a, Beats ⟨b.ticked, some a, hand⟩ [] ⟨b.looked o, some a, hand⟩ := fun a =>
    .single (.wane ⟨hq.view, hq.settings, hq.positions, hq.events, hq.requeued⟩ hseq
      (.of_frame (looked_keeps b o).1))
  have harrive : Beats ⟨b, none, ⟨o, .submitted⟩ :: hand⟩ []
      ⟨b.looked o, some ⟨x, .submitted⟩, hand⟩ := by
    rcases h.order with ⟨-, rfl⟩ | ⟨hro, -, hcap, rfl⟩
    · exact (Beats.single (.arrive harr)).trans (hwane _)
    · have hcapacity : (b.looked o).reduceOnlyCapacity (b.stamp o)
          = b.reduceOnlyCapacity (b.stamp o) := by
        unfold reduceOnlyCapacity
        rw [hq.positions]
      rw [hcapacity] at hcap ⊢
      exact (Beats.single (.cap harr hro hcap)).trans (hwane _)
  exact harrive.trans (.single (.enter hadm))

end Sized

end Arrival

/-! ### What a submission reports -/

/-- A stop whose trigger is met when it arrives. -/
def firesAtOnce (b : Book) (o : Order) : Bool :=
  !isOpeningAuction o.flags && !isClosingAuction o.flags && !isChild o && awaitsTrigger o &&
    b.haveLast && stopTriggered (b.armStop o) b.lastPrice

/-- What the outcome of a submission says about its mutations. -/
structure Reported (b : Book) (o : Order) (ms : List Mut) (out : SubmitOutcome) : Prop where
  trades : out.trades = Mut.trades ms
  filled : (out.filled = 0 ∧ takerQty o.id (Mut.trades ms) = 0) ∨
    out.filled = o.filled + takerQty o.id (Mut.trades ms)
  resting : out.rested = true ∨ out.restedDeep = true →
    (firesAtOnce b o = true ∧ out.resting = {}) ∨ (out.resting.id = o.id ∧
      ((out.rested = true ∧ out.restedDeep = false ∧
        Mut.rest ⟨out.resting, sliceOf out.resting⟩ ∈ ms) ∨
      (out.rested = false ∧ out.restedDeep = true ∧ b.memLevels ≠ 0 ∧
        Mut.restDeep out.resting ∈ ms)))
  rests : firesAtOnce b o = false → ∀ e, Mut.rest e ∈ ms → e.order.id = o.id →
    out.rested = true ∧ out.resting = e.order

/-- The postcondition of a submission of an order that the book does not hold. -/
def SubmitPost (b : Book) (o : Order) (r : Book × SubmitOutcome) : Prop :=
  ∃ ms, Step b [⟨o, .submitted⟩] ms r.1 ∧ Reported b o ms r.2 ∧
    (isChild o = false → r.1.frame.held.length ≤ b.frame.held.length)

section Reports

variable {b b' : Book} {o : Order}

/-- The report of an order that has come to rest as `o'`. -/
lemma reported_rest (ms : List Mut) {tail : List Mut} {o' : Order} {r : Book × Bool × List Order}
    (hid : o'.id = o.id) (htr : Mut.trades tail = []) (hno : ∀ e, Mut.rest e ∉ ms)
    (htail : (r.2.1 = true ∧ ∃ win, tail = .rest ⟨o', sliceOf o'⟩ :: win ∧
        ∀ m ∈ win, m.Windowed) ∨ (r.2.1 = false ∧ b.memLevels ≠ 0 ∧ tail = [.restDeep o']))
    {q : ℤ} (hq : (q = 0 ∧ takerQty o.id (Mut.trades ms) = 0) ∨
      q = o.filled + takerQty o.id (Mut.trades ms)) :
    Reported b o (ms ++ tail)
      { orderId := o.id, filled := q, rested := r.2.1, restedDeep := !r.2.1, evicted := r.2.2,
        resting := o', trades := Mut.trades ms } := by
  refine ⟨by simp [htr], by simpa [htr] using hq, fun _ => .inr ⟨hid, ?_⟩, fun _ e he _ => ?_⟩
  · rcases htail with ⟨hr, win, rfl, -⟩ | ⟨hr, hm, rfl⟩
    · exact .inl ⟨hr, by simp [hr], by simp⟩
    · exact .inr ⟨hr, by simp [hr], hm, by simp⟩
  · rcases List.mem_append.1 he with he | he
    · exact absurd he (hno e)
    · rcases htail with ⟨hr, win, rfl, hwin⟩ | ⟨-, -, rfl⟩
      · rcases List.mem_cons.1 he with he | he
        · exact ⟨hr, by rw [Mut.rest.inj he]⟩
        · exact absurd (hwin _ he) id
      · simp at he

/-- The report of an order that is not put to rest. -/
lemma reported_of_rest_notMem {ms : List Mut} {out : SubmitOutcome}
    (htr : out.trades = Mut.trades ms)
    (hq : (out.filled = 0 ∧ takerQty o.id (Mut.trades ms) = 0) ∨
      out.filled = o.filled + takerQty o.id (Mut.trades ms))
    (hr : out.rested = false) (hd : out.restedDeep = false) (hno : ∀ e, Mut.rest e ∉ ms) :
    Reported b o ms out :=
  ⟨htr, hq, by simp [hr, hd], fun _ e he => absurd he (hno e)⟩

/-- The report of an order that waits. -/
lemma reported_held {out : SubmitOutcome} (htr : out.trades = []) (hq : out.filled = 0)
    (hr : out.rested = false) (hd : out.restedDeep = false) : Reported b o [] out :=
  reported_of_rest_notMem htr (.inl ⟨hq, rfl⟩) hr hd (by simp)

/-- What happens after the turn of the order does not concern it. -/
lemma Reported.append {ms ms' : List Mut} {out : SubmitOutcome} (h : Reported b o ms out)
    {s s' : Stage} (hadv : Advances s ms' s') (ht : ∀ t ∈ Mut.trades ms', t.takerId ∈ s.idle)
    (ho : o.id ∉ s.idle) :
    Reported b o (ms ++ ms') { out with trades := out.trades ++ Mut.trades ms' } := by
  have htakes : takerQty o.id (Mut.trades ms') = 0 :=
    takerQty_eq_zero fun t hmem heq => ho (heq ▸ ht t hmem)
  refine ⟨by simp [h.trades], by simpa [htakes] using h.filled, fun hr => ?_,
    fun hfire e he hid => ?_⟩
  · rcases h.resting hr with h' | ⟨h', hm⟩
    · exact .inl h'
    · refine .inr ⟨h', hm.imp ?_ ?_⟩
      · exact fun hm => ⟨hm.1, hm.2.1, List.mem_append_left _ hm.2.2⟩
      · exact fun hm => ⟨hm.1, hm.2.1, hm.2.2.1, List.mem_append_left _ hm.2.2.2⟩
  · rcases List.mem_append.1 he with he | he
    · exact h.rests hfire e he hid
    · exact absurd (hid ▸ hadv.rests e he) ho

end Reports

/-! ### Turns -/

/-- What is reported of the order `o` once it has been matched. -/
def metOutcome (o : Order) (m : MatchResult) : SubmitOutcome :=
  if 0 < m.order.leaves ∧ m.cancelled = false ∧ discards m.order = false then
    { orderId := o.id, filled := m.order.filled, rested := (m.book.rest m.order []).2.1,
      restedDeep := !(m.book.rest m.order []).2.1, evicted := (m.book.rest m.order []).2.2,
      resting := m.order }
  else { orderId := o.id, filled := m.order.filled }

section Turns

variable {b b' : Book} {o x : Order} {hand : List Active} {k k' : Marks}

/-- An order is matched, and what is left of it is put to rest. -/
lemma enters_of_meet (hb : b.view.Sound) (hnew : b.orders.lookup x.id = none)
    (hx : Restable x) : (b.matchOrder x []).Ensures fun m => ∃ sw tail,
      Enters b x sw tail (afterMeet m) m.order ∧ m.trades = Mut.trades sw ∧
      Reported b x (sw ++ tail) { metOutcome x m with trades := m.trades } := by
  refine (matchOrder_spec hb hx.1.le []).imp fun m hpost => ?_
  have hex := hpost.exhausted
  obtain ⟨sw, hsw, htr, hcache, -⟩ := hpost
  rw [List.nil_append] at htr
  have hid : m.order.id = x.id := by rw [hsw.order]; rfl
  have hfilled : (m.order.filled = 0 ∧ takerQty x.id (Mut.trades sw) = 0) ∨
      m.order.filled = x.filled + takerQty x.id (Mut.trades sw) := by
    rw [hsw.takerQty_eq, hsw.order]
    exact .inr rfl
  unfold afterMeet metOutcome
  rw [htr]
  split_ifs with h
  · obtain ⟨tail, hen, htail⟩ := hsw.rest hb hcache hnew hx.2 h.1 h.2.2 (.inr (hex h.1)) []
    exact ⟨sw, tail, hen, rfl, reported_rest sw hid hen.trades_tail hsw.rest_notMem htail hfilled⟩
  · refine ⟨sw, [], hsw.enters hcache, rfl, ?_⟩
    rw [List.append_nil]
    exact reported_of_rest_notMem rfl hfilled rfl rfl hsw.rest_notMem

/-- What is reported of the order as it is matched is reported of the order. -/
lemma Sized.reported (h : b.Sized o x) {ms : List Mut} {out : SubmitOutcome}
    (hr : Reported (b.looked o) x ms out) : Reported b o ms out := by
  have hid : x.id = o.id := Order.id_eq_of_traits h.traits
  have hfl := h.filled
  have hm : (b.looked o).memLevels = b.memLevels :=
    congrArg (fun f : Frame => f.settings.memLevels) (looked_keeps b o).1
  have haw : awaitsTrigger x = false := by
    have hstamp := (awaitsTrigger_stamp b o).trans h.awaits
    rcases h.order with ⟨-, rfl⟩ | ⟨-, -, -, rfl⟩
    · exact hstamp
    · exact (capReduceOnly_keeps _ _).2.2.1.trans hstamp
  have hno : firesAtOnce (b.looked o) x = false := by simp [firesAtOnce, haw]
  refine ⟨hr.trades, hid ▸ hfl ▸ hr.filled, fun hrest => ?_, fun _ => hid ▸ hr.rests hno⟩
  rcases hr.resting hrest with ⟨hf, -⟩ | hres
  · exact absurd hf (by simp [hno])
  · exact .inr (hid ▸ hm ▸ hres)

/-- A submitted order is matched. -/
lemma Admits.advances_meet (hs : Fit ⟨b, ⟨o, .submitted⟩ :: hand, k⟩)
    (h : b.Admits o (.matched b' x)) : (b'.matchOrder x []).Ensures fun m => ∃ ms,
      Advances ⟨b, ⟨o, .submitted⟩ :: hand, k⟩ ms ⟨afterMeet m, hand, k'⟩ ∧
      m.trades = Mut.trades ms ∧ (afterMeet m).frame = b.frame ∧
      Reported b o ms { metOutcome x m with trades := m.trades } := by
  cases h with
  | matched h hx =>
    obtain ⟨hq, hc, -⟩ := quiet_looked b o
    obtain ⟨hres, hadm⟩ := h.ready hs
    refine (enters_of_meet (hq.view ▸ hs.sound) (h.lookup_eq_none hs) hres).imp fun m hm => ?_
    obtain ⟨sw, tail, hen, htr, hrep⟩ := hm
    refine ⟨[] ++ (sw ++ tail), hen.advances hadm.normal (by simp) (hc hs.cached) (h.beats hs), ?_,
      hen.frame.trans (looked_keeps b o).1, h.reported hrep⟩
    rw [htr]
    simp [hen.trades_tail]

/-- A submitted stop fires on arrival. -/
lemma Admits.advances_spring (hs : Fit ⟨b, ⟨o, .submitted⟩ :: hand, k⟩)
    (h : b.Admits o (.stop b' x)) (hl : b'.haveLast = true)
    (ht : stopTriggered (b'.armStop x) b'.lastPrice = true) :
    (b'.inject (markTriggered (b'.armStop x)) []).Ensures fun m => ∃ ms,
      Advances ⟨b, ⟨o, .submitted⟩ :: hand, k⟩ ms ⟨m.book, hand, k'⟩ ∧ m.trades = Mut.trades ms ∧
      m.book.frame = b.frame ∧
      m.order.filled = o.filled + takerQty o.id (Mut.trades ms) := by
  cases h with
  | stop h hx =>
    obtain ⟨hstid, -, hstfl, -⟩ := stamp_keeps b o
    obtain ⟨haid, -, -, hafl, -⟩ := armStop_keeps b.ticked (b.stamp o)
    obtain ⟨hres, hn⟩ :=
      armStop_ready (h.toChecked.ready (hs.ready _ List.mem_cons_self)) b.ticked
    set y := b.ticked.armStop (b.stamp o) with hy
    have hid : (markTriggered y).id = o.id := haid.trans hstid
    have hawo : awaitsTrigger (b.stamp o) = true := (awaitsTrigger_stamp b o).trans hx
    have hnew : b.ticked.orders.lookup (markTriggered y).id = none := by
      rw [hid]
      exact hs.head_new
    refine (inject_spec (b := b.ticked) (o := markTriggered y) hs.sound hnew hres.1.le hres.2
      []).imp fun m hm => ?_
    obtain ⟨sw, tail, hen, htr⟩ := hm
    have htrades : Mut.trades (sw ++ tail) = Mut.trades sw := by simp [hen.trades_tail]
    refine ⟨[] ++ (sw ++ tail), hen.advances hn (by simp) (cached_ticked hs.cached)
      ((Beats.single (.arrive (hs.arrives h.toChecked))).trans (.single (.spring hawo hl ht))), ?_,
      hen.frame, ?_⟩
    · rw [htr]
      simp [hen.trades_tail]
    · obtain ⟨b₁, hsw⟩ := hen.sweep
      rw [List.nil_append, htrades, ← hid, hsw.takerQty_eq, hsw.order]
      show y.filled + _ = _
      rw [hafl, hstfl]

lemma ladder_unparked (b : Book) (id : OrderId) (x : Order) (s : Side) :
    (b.unparked id x).ladder s = b.ladder s := by
  have hs : (b.unparked id x).ladder s
      = ({ b with stops := b.stops.erase id } : Book).ladder s := by
    simp [unparked, emitEvent]
  cases s <;> exact hs

lemma unparked_keeps (b : Book) (id : OrderId) (x : Order) :
    (b.unparked id x).view = b.view ∧ (b.unparked id x).orders = b.orders := by
  have ho : (b.unparked id x).orders = b.orders := by simp [unparked, emitEvent]
  exact ⟨view_of_keeps (ladder_unparked b id x) ho (by simp [unparked, emitEvent]), ho⟩

/-- A parked stop fires. -/
lemma advances_fire (hs : Fit ⟨b, hand, k⟩) {id : OrderId} (hx : b.stops.lookup id = some x)
    (tr : List Trade) : ((b.unparked id x).inject (markTriggered x) tr).Ensures fun m =>
      ∃ ms, Advances ⟨b, hand, k⟩ ms ⟨m.book, hand, k'⟩ ∧ m.trades = tr ++ Mut.trades ms := by
  have hin : x ∈ b.frame.waiting := Frame.mem_waiting.2 (.inl ⟨id, hx⟩)
  obtain ⟨hres, hn⟩ := hs.waits x hin
  have hnone : b.orders.lookup x.id = none := hs.wf.waits.away x hin
  have hf : (b.unparked id x).frame = ({ b with stops := b.stops.erase id } : Book).frame := by
    simp [unparked, emitEvent]
  obtain ⟨hv, ho⟩ := unparked_keeps b id x
  have hev : Evolves { b with stops := b.stops.erase id } [.trigger (markTriggered x)]
      (b.unparked id x) := by
    refine .single hnone hv ?_ (by simp [unparked, emitEvent, Mut.requeued]) hf
      (fun _ => not_false)
    rw [unparked, events_emitEvent]
    rfl
  refine (inject_spec (b := b.unparked id x) (o := markTriggered x) (hv ▸ hs.sound) (ho ▸ hnone)
    hres.1.le hres.2 tr).imp fun m hm => ?_
  obtain ⟨sw, tail, hen, htr⟩ := hm
  refine ⟨[.trigger (markTriggered x)] ++ (sw ++ tail), hen.advances hn (by simp)
    (hs.cached.of_ladder (ladder_unparked b id x)) (.single (.fire hx hn hev)), ?_⟩
  rw [htr, Mut.trades_append, Mut.trades_append, hen.trades_tail, List.append_nil]
  rfl

/-- The remainder of an auction order enters the book. -/
lemma advances_remainder (hs : Fit ⟨b, ⟨x, .auctioned⟩ :: hand, k⟩) (hx : entersBook x = true)
    (tr : List Trade) : (b.inject { x with flags := x.flags.clearAuction } tr).Ensures fun m =>
      ∃ ms, Advances ⟨b, ⟨x, .auctioned⟩ :: hand, k⟩ ms ⟨m.book, hand, k'⟩ ∧
        m.trades = tr ++ Mut.trades ms := by
  obtain ⟨hl, hd, hn⟩ := hs.ready ⟨x, .auctioned⟩ List.mem_cons_self
  refine (inject_spec (o := { x with flags := x.flags.clearAuction }) hs.sound hs.head_new hl hd
    tr).imp fun m hm => ?_
  obtain ⟨sw, tail, hen, htr⟩ := hm
  refine ⟨[] ++ (sw ++ tail), hen.advances hn (by simp) hs.cached (.single (.remainder hx hn)), ?_⟩
  rw [htr]
  simp [hen.trades_tail]

/-- A submitted all-or-none order cannot be filled. -/
lemma Admits.advances_aon (hs : Fit ⟨b, ⟨o, .submitted⟩ :: hand, k⟩) (h : b.Admits o (.aon b' x)) :
    ∃ ms, Advances ⟨b, ⟨o, .submitted⟩ :: hand, k⟩ ms ⟨(b'.submitAon x).1, hand, k'⟩ ∧
      Mut.trades ms = [] ∧ Reported b o ms (b'.submitAon x).2 := by
  cases h with
  | aon h hx ha =>
    obtain ⟨hq, hc, -⟩ := quiet_looked b o
    obtain ⟨hres, hadm⟩ := h.ready hs
    unfold submitAon
    split_ifs with hdis
    · exact ⟨[], ⟨hc hs.cached, (h.beats hs).trans (.single .finish)⟩, rfl,
        reported_held rfl rfl rfl rfl⟩
    · have hnew := h.lookup_eq_none hs
      have hv : (b.looked o).view.Sound := hq.view ▸ hs.sound
      obtain ⟨tail, hen, htail⟩ := (Sweep.refl (b.looked o) hres.1.le).rest hv id hnew hres.2
        hres.1 (by simpa using hdis) (.inl hx) []
      obtain ⟨moves, hg, hmoves⟩ := repricePegs_glides (hen.evolves.sound hv)
      have hadv : Advances ⟨b, ⟨o, .submitted⟩ :: hand, k⟩ ([] ++ ([] ++ tail))
          ⟨((b.looked o).rest x []).1, hand, k⟩ :=
        hen.advances hadm.normal (by simp) (hc hs.cached) (h.beats hs)
      have hf : ((b.looked o).rest x []).1.frame = b.frame := hen.frame.trans (looked_keeps b o).1
      have hadv' : Advances ⟨((b.looked o).rest x []).1, hand, k⟩ moves
          ⟨((b.looked o).rest x []).1.repricePegs, hand, k'⟩ := hg.advances hadv.cached
      have hrep := h.reported (reported_rest [] rfl hen.trades_tail (by simp) htail (q := 0)
        (.inl ⟨rfl, rfl⟩))
      have hrep' := hrep.append hadv' (by simp [hmoves.trades]) (hs.notMem_idle hf)
      rw [hmoves.trades] at hrep'
      exact ⟨tail ++ moves, hadv.trans hadv', by simp [hen.trades_tail, hmoves.trades], hrep'⟩

/-- A submitted order is pegged. -/
lemma Admits.advances_peg (hs : Fit ⟨b, ⟨o, .submitted⟩ :: hand, k⟩) (h : b.Admits o (.peg b' x)) :
    ∃ ms, Advances ⟨b, ⟨o, .submitted⟩ :: hand, k⟩ ms ⟨(b'.submitPeg x).1, hand, k'⟩ ∧
      Mut.trades ms = [] ∧ Reported b o ms (b'.submitPeg x).2 := by
  cases h with
  | peg h hx hp =>
    obtain ⟨hid, -, -, hopen, hclose, -⟩ := stamp_keeps b o
    obtain ⟨hres, hn⟩ := h.toChecked.ready (hs.ready _ List.mem_cons_self)
    have hpeg : (b.stamp o).peg.isSome = true := by
      rw [(stamp_price b o).2.1]
      exact hp
    unfold submitPeg
    cases hprice : b.ticked.computePegPrice (b.stamp o) with
    | none =>
      exact ⟨[], ⟨cached_ticked hs.cached, .single .refuse⟩, rfl, reported_held rfl rfl rfl rfl⟩
    | some price =>
      dsimp only
      set y : Order := { b.stamp o with type := .limit, price := price } with hy
      have hyid : y.id = o.id := hid
      have hnew : b.ticked.orders.lookup y.id = none := hs.stamp_new
      obtain ⟨tail, hev, hf, hrests, hcache, htail⟩ :=
        rest_spec (b := b.ticked) (o := y) hs.sound hnew hres []
      have hpriced : Beats ⟨b, none, ⟨o, .submitted⟩ :: hand⟩ []
          ⟨b.ticked, some ⟨y, .submitted⟩, hand⟩ := by
        exact (Beats.single (.arrive (hs.arrives h.toChecked))).trans
          (.single (.price ((awaitsTrigger_stamp b o).trans hx) (hopen.trans h.opening)
            (hclose.trans h.closing) hprice))
      have hadv : Advances ⟨b, ⟨o, .submitted⟩ :: hand, k⟩ ([] ++ tail)
          ⟨(b.ticked.rest y []).1, hand, k⟩ :=
        ⟨hcache (cached_ticked hs.cached),
          hpriced.trans (.single (.rest [] hres.1 (.inr ⟨hpeg, rfl⟩) hn hnew hrests hev hf))⟩
      have hrep : Reported b o tail _ := reported_rest (b := b) [] hyid hrests.trades
        (by simp) htail
        (q := 0) (.inl ⟨rfl, rfl⟩)
      have hfb : (b.ticked.rest y []).1.frame = b.frame := hf
      split_ifs with hr
      · have hin := rest_resident (b := b.ticked) (o := y) hs.sound hnew hres [] hr
        have hpev : Evolves (b.ticked.rest y []).1 [.peg y.id]
            { (b.ticked.rest y []).1 with pegged := (b.ticked.rest y []).1.pegged.insert y.id } :=
          .single ⟨_, hin, hpeg⟩ rfl (by simp [Mut.events]) (by simp [Mut.requeued]) rfl
            (fun _ => id)
        have hg : Glides (b.ticked.rest y []).1 [.peg y.id]
            { (b.ticked.rest y []).1 with pegged := (b.ticked.rest y []).1.pegged.insert y.id } :=
          ⟨fun hc => hc.of_ladder fun _ => rfl, by simp, fun _ => .single (.peg hpev)⟩
        have hadv' : Advances ⟨(b.ticked.rest y []).1, hand, k⟩ [.peg y.id] ⟨_, hand, k'⟩ :=
          hg.advances hadv.cached
        have hrep' := hrep.append hadv' (by simp [Mut.trades, Mut.trade?]) (hs.notMem_idle hfb)
        refine ⟨tail ++ [.peg y.id], hadv.trans hadv', ?_, ?_⟩
        · rw [Mut.trades_append, hrests.trades]
          rfl
        · rw [← hyid] at hrep'
          exact hrep'
      · refine ⟨tail, ⟨hadv.cached, hadv.beats⟩, hrests.trades, ?_⟩
        rw [hyid]
        exact hrep

end Turns

/-! ### Runs from a fit stage -/

section Runs

variable {s s' : Stage} {ts : List Trade} {A : Book → Order → Prop}

/-- From a fit stage a stride makes mutations of the resting orders. -/
theorem Stride.advances (h : Stride A s ts s') (hs : Fit s) :
    ∃ ms, Advances s ms s' ∧ ts = Mut.trades ms := by
  cases h with
  | answer hA h => exact ⟨[], h.advances_answered hs, rfl⟩
  | aon hA h =>
    obtain ⟨ms, hadv, htr, -⟩ := h.advances_aon hs
    exact ⟨ms, hadv, htr.symm⟩
  | peg hA h =>
    obtain ⟨ms, hadv, htr, -⟩ := h.advances_peg hs
    exact ⟨ms, hadv, htr.symm⟩
  | park hA h hq => exact ⟨[], h.advances_park hs hq, rfl⟩
  | spring hA h hl ht hm =>
    obtain ⟨ms, hadv, htr, -⟩ := (h.advances_spring hs hl ht).of_returns hm
    exact ⟨ms, hadv, htr⟩
  | meet hA h hm =>
    obtain ⟨ms, hadv, htr, -⟩ := (h.advances_meet hs).of_returns hm
    exact ⟨ms, hadv, htr⟩
  | fire hx hm ht =>
    obtain ⟨ms, hadv, htr⟩ := (advances_fire hs hx _).of_returns hm
    exact ⟨ms, hadv, List.append_cancel_left (ht.symm.trans htr)⟩
  | remainder hx hm ht =>
    obtain ⟨ms, hadv, htr⟩ := (advances_remainder hs hx _).of_returns hm
    exact ⟨ms, hadv, List.append_cancel_left (ht.symm.trans htr)⟩
  | drop hx => exact ⟨[], ⟨hs.cached, .single (.drop hx)⟩, rfl⟩
  | release hl hcs =>
    exact ⟨[], ⟨hs.cached.of_ladder fun sd => by cases sd <;> rfl, .single (.release _ hcs)⟩, rfl⟩
  | @allot b hand k queue =>
    have hmem : ∀ x ∈ queue, (⟨x, .auctioned⟩ : Active) ∈ auctioned queue ++ hand := fun x hx =>
      List.mem_append_left _ (List.mem_map_of_mem hx)
    obtain ⟨ms, hall⟩ := @auctionPhase_allocates b queue
      ⟨fun x hx => hs.lookup_eq_none (hmem x hx), fun x hx => (hs.ready _ (hmem x hx)).1⟩
    exact ⟨ms, ⟨hs.cached.of_ladder hall.ladder, hall.beats hand⟩, by simpa using hall.trades⟩
  | trail | calm => exact ⟨[], (trailed_glides _).advances hs.cached, rfl⟩
  | reprice =>
    obtain ⟨ms, hg, hm⟩ := repricePegs_glides hs.sound
    exact ⟨ms, hg.advances hs.cached, hm.trades.symm⟩
  | @regroup b hand k gid gr hgr =>
    have hg : Glides b [] (b.setGroup gid gr) := .of_wanes ⟨rfl, rfl, rfl, rfl, rfl⟩ rfl
      (wanes_setGroup (hgr ▸ List.Subperm.refl _))
      fun hc => hc.of_ladder fun sd => by cases sd <;> rfl
    exact ⟨[], hg.advances hs.cached, rfl⟩
  | @member b hand k m =>
    have hg : Glides b [] { b with orderGroup := m } := .of_wanes ⟨rfl, rfl, rfl, rfl, rfl⟩ rfl
      ⟨fun _ x hx => ⟨x, hx, .refl⟩, .refl _, .refl _, .refl _⟩
      fun hc => hc.of_ladder fun sd => by cases sd <;> rfl
    exact ⟨[], hg.advances hs.cached, rfl⟩
  | cancel id =>
    obtain ⟨ms, hg, hc⟩ := cancel_glides hs.sound id
    exact ⟨ms, hg.advances hs.cached, hc.trades.symm⟩

lemma Stride.fit_of_fit (h : Stride A s ts s') (hs : Fit s) : Fit s' := by
  obtain ⟨ms, hadv, -⟩ := h.advances hs
  exact h.fit hs (hadv.evolves.sound hs.sound) hadv.cached

/-- A run of strides from a fit stage leads to a fit stage. -/
theorem Strides.advances (h : Strides A s ts s') (hs : Fit s) :
    ∃ ms, Advances s ms s' ∧ ts = Mut.trades ms ∧ Fit s' ∧ (∀ id ∈ s'.idle, id ∈ s.idle) ∧
      ∀ t ∈ ts, t.takerId ∈ s.idle := by
  induction h with
  | nil s => exact ⟨[], ⟨hs.cached, .nil _⟩, rfl, hs, fun _ => id, by simp⟩
  | @cons s s₁ s' ts ts' h _ ih =>
    obtain ⟨ms, hadv, htr⟩ := h.advances hs
    obtain ⟨ms', hadv', htr', hfit, hidle', htk'⟩ := ih (h.fit_of_fit hs)
    obtain ⟨l, hsub, -, htk⟩ := h.passage
    have hidle : ∀ id ∈ s₁.idle, id ∈ s.idle := fun id hid =>
      hsub.subset (List.mem_append_right _ hid)
    refine ⟨ms ++ ms', hadv.trans hadv', by rw [htr, htr', Mut.trades_append], hfit,
      fun id hid => hidle id (hidle' id hid), ?_⟩
    exact List.forall_mem_append.2 ⟨htk, fun t ht => hidle _ (htk' t ht)⟩

/-- Matching ends in a fit stage. -/
lemma drives_fit (A : Book → Order → Prop) : Drives A True Fit where
  keep hs h := h.fit_of_fit hs
  meet _ _ _ _ _ _ _ hs h := (@Admits.advances_meet _ _ _ _ _ _ {} hs h).returns
  spring _ _ _ _ _ _ _ hs h hl ht := (@Admits.advances_spring _ _ _ _ _ _ {} hs h hl ht).returns
  fire _ _ _ _ _ _ hs hx tr := (@advances_fire _ _ _ _ {} hs _ hx tr).returns
  remainder _ _ _ _ _ hs hx tr := (@advances_remainder _ _ _ _ {} hs hx tr).returns

end Runs

end Book

/-! ### Instructions -/

open Book

/-- The orders in hand at the start of an instruction. -/
def Instruction.inHand (q : Instruction) : List Active := q.orders.map (⟨·, .submitted⟩)

section Instructions

variable {b b' : Book} {q : Instruction} {k k' : Marks} {ms : List Mut}

/-- An instruction is taken up: an auction is called. -/
lemma Instruction.taken_up (b : Book) (hq : ¬ q.Seeds) :
    Beats ⟨b, none, q.inHand⟩ [] ⟨(q.start b).1, none, (q.start b).2⟩ := by
  cases q with
  | seedPosition c net => exact absurd trivial hq
  | runOpeningAuction =>
    have hcall : Beats ⟨b, none, []⟩ [] ⟨{ b with openingAuction := [] }, none,
        auctioned b.openingAuction ++ []⟩ := .single .callOpening
    rwa [List.append_nil] at hcall
  | runClosingAuction =>
    have hcall : Beats ⟨b, none, []⟩ [] ⟨{ b with closingAuction := [] }, none,
        auctioned b.closingAuction ++ []⟩ := .single .callClosing
    rwa [List.append_nil] at hcall
  | submit _ | cancel _ | expire _ => exact .nil _

/-- What has been done when an instruction has been answered. -/
lemma Instruction.step_of_advances (hq : ¬ q.Seeds)
    (h : Advances ⟨(q.start b).1, (q.start b).2, k⟩ ms ⟨b', [], k'⟩) (hf : Fit ⟨b', [], k'⟩)
    (hi : ∀ id ∈ Stage.idle ⟨b', [], k'⟩, id ∈ Stage.idle ⟨(q.start b).1, (q.start b).2, k⟩) :
    Step b q.inHand ms b' := by
  refine ⟨hf.wf, fun id hid => ?_, (q.taken_up b hq).trans h.beats⟩
  have hidle := hi id (mem_idle.2 (.inl hid))
  rw [(idle_start b q k).mem_iff, List.mem_append] at hidle
  exact hidle.imp (by simp [waitingIds, Waiting]) (by simp [idsOf, Instruction.inHand])

/-- Every instruction is answered, and leaves a well-formed book. -/
theorem Instruction.run_step (hb : WF b) (hs : ¬ q.Seeds)
    (hq : ∀ o ∈ q.orders, ¬ Live b o.id ∧ 0 ≤ o.displayQty) : (q.run b).Ensures fun x =>
      ∃ ms, Step b q.inHand ms x.1 ∧ x.2 = Mut.trades ms := by
  have hfit := hb.fit_start hq {}
  have hrun := @Drives.run _ _ _ b [] {} (drives_fit anyOrder) (fun _ _ => trivial) q
    (by rwa [List.append_nil])
  rw [List.append_nil] at hrun
  obtain ⟨x, hx⟩ := hrun.1 trivial
  obtain ⟨k', hstrides, -⟩ := hrun.2 x hx
  obtain ⟨ms, hadv, htr, hf, hi, -⟩ := hstrides.advances hfit
  exact ⟨x, hx, ms, q.step_of_advances hs hadv hf hi, htr⟩

end Instructions

namespace Book

variable {b b' : Book} {o : Order}

/-- Cancelling any identifier. -/
lemma cancel_step (hb : WF b) (id : OrderId) :
    ∃ ms, Step b [] ms (b.cancel id).1 ∧ Cancels id ms ∧ SameGroups b (b.cancel id).1 := by
  obtain ⟨ms, hg, hc⟩ := cancel_glides hb.sound id
  have hstride : Stride anyOrder ⟨b, [], {}⟩ [] ⟨(b.cancel id).1, [], {}⟩ := .cancel id
  obtain ⟨l, hsub, -⟩ := hstride.passage
  exact ⟨ms, Instruction.step_of_advances (q := .cancel id) not_false (hg.advances hb.cached)
    (hstride.fit_of_fit (hb.fit {})) fun i hi => hsub.subset (List.mem_append_right _ hi), hc,
    sameGroups_cancel b id⟩

/-! ### Submission -/

/-- What follows the turn of an order. -/
lemma Reported.lead {s : Stage} {b₁ : Book} {k₁ k₂ : Marks} {ms : List Mut} {out : SubmitOutcome}
    {r : Book × List Trade} (hrep : Reported b o ms out) (hadv : Advances s ms ⟨b₁, [], k₁⟩)
    (hfit : Fit ⟨b₁, [], k₁⟩) (ho : o.id ∉ Stage.idle ⟨b₁, [], k₁⟩)
    (hlead : Leads anyOrder ⟨b₁, [], k₁⟩ out.trades r [] k₂) :
    ∃ ms', Advances s ms' ⟨r.1, [], k₂⟩ ∧ Reported b o ms' { out with trades := r.2 } := by
  obtain ⟨ts, hr, hrun⟩ := hlead
  obtain ⟨ms', hadv', htr, -, -, htk⟩ := hrun.advances hfit
  subst htr
  rw [hr]
  exact ⟨ms ++ ms', hadv.trans hadv', hrep.append hadv' htk ho⟩

lemma firesAtOnce_stamp (b b' : Book) (o : Order) (hl : b'.haveLast = b.haveLast)
    (hp : b'.lastPrice = b.lastPrice) : firesAtOnce b' (b.stamp o) = firesAtOnce b o := by
  obtain ⟨-, -, -, h1, h2, h3, h4, h5⟩ := stamp_keeps b o
  have harm : stopTriggered (b'.armStop (b.stamp o)) b'.lastPrice
      = stopTriggered (b.armStop o) b.lastPrice := by
    unfold stopTriggered armStop
    rw [hl, hp, h3, h4]
    cases o.trigger with
    | none => simp [h3, h4]
    | some t =>
      dsimp only
      split_ifs <;> simp [h3, h4]
  unfold firesAtOnce
  rw [h1, h2, hl, harm]
  simp [isChild, awaitsTrigger, h4, h5]

/-- After a turn that leaves the frame alone the order is idle no more. -/
lemma Fit.after_turn (hs : Fit ⟨b, [⟨o, .submitted⟩], {}⟩) {b₁ : Book} {k₁ : Marks}
    {ts : List Trade} (h : Stride anyOrder ⟨b, [⟨o, .submitted⟩], {}⟩ ts ⟨b₁, [], k₁⟩)
    (hf : b₁.frame = b.frame) : Fit ⟨b₁, [], k₁⟩ ∧ o.id ∉ Stage.idle ⟨b₁, [], k₁⟩ :=
  ⟨h.fit_of_fit hs, hs.notMem_idle hf⟩

/-- A stop whose trigger is met on arrival fires at once. -/
lemma Admits.firesAtOnce {x : Order} (h : b.Admits o (.stop b' x)) (hl : b'.haveLast = true)
    (ht : stopTriggered (b'.armStop x) b'.lastPrice = true) : firesAtOnce b o = true := by
  cases h with
  | stop h hx =>
    obtain ⟨-, -, -, hopen, hclose, -⟩ := stamp_keeps b o
    rw [← firesAtOnce_stamp b b.ticked o rfl rfl]
    simp [Book.firesAtOnce, hopen, hclose, h.opening, h.closing, isChild_stamp, h.child,
      awaitsTrigger_stamp, hx, hl, ht]

/-- A submitted stop. -/
lemma submitStop_reports (hs : Fit ⟨b, [⟨o, .submitted⟩], {}⟩) {x : Order}
    (hadm : b.Admits o (.stop b' x)) {r : Book × SubmitOutcome}
    (h : (b'.submitStop x).Returns r) :
    ∃ ms k, Advances ⟨b, [⟨o, .submitted⟩], {}⟩ ms ⟨r.1, [], k⟩ ∧ Reported b o ms r.2 := by
  unfold submitStop at h
  dsimp only at h
  by_cases hfire : b'.haveLast = true ∧ stopTriggered (b'.armStop x) b'.lastPrice = true
  · rw [if_pos hfire] at h
    obtain ⟨m, hm, h⟩ := Comp.returns_bind.1 h
    obtain ⟨e, he, h⟩ := Comp.returns_bind.1 h
    obtain rfl := Comp.returns_pure.1 h
    let k₁ : Marks := { Marks.enters {} m.trades with sprung := true }
    have hstride : Stride anyOrder ⟨b, [⟨o, .submitted⟩], {}⟩ m.trades ⟨m.book, [], k₁⟩ :=
      .spring trivial hadm hfire.1 hfire.2 hm
    obtain ⟨ms, hadv, htr, hf, hfl⟩ := (@Admits.advances_spring _ _ _ _ _ _ k₁ hs hadm hfire.1
      hfire.2).of_returns hm
    obtain ⟨hfit, ho⟩ := hs.after_turn hstride hf
    have hfires := hadm.firesAtOnce hfire.1 hfire.2
    let out : SubmitOutcome :=
      { orderId := (b'.armStop x).id, trades := m.trades, filled := m.order.filled,
        rested := 0 < m.order.leaves && !discards m.order }
    have hrep : Reported b o ms out :=
      ⟨htr, .inr hfl, fun _ => .inl ⟨hfires, rfl⟩, fun hno => by simp [hfires] at hno⟩
    obtain ⟨k₂, hlead, -⟩ := (@Drives.evaluateStops _ _ _ (drives_code anyOrder) m.book []
      k₁ trivial m.trades).2 e he
    obtain ⟨ms', hadv', hrep'⟩ := hrep.lead hadv hfit ho hlead
    exact ⟨ms', k₂, hadv', hrep'⟩
  · have hid : (b'.armStop x).id = x.id := by rw [armStop_eq]
    have hnew : b'.stops.lookup x.id = none := by
      cases hadm with
      | stop hch _ =>
        rw [(stamp_keeps b o).1]
        exact hch.parked
    rw [if_neg hfire, hid, hnew] at h
    obtain rfl := Comp.returns_pure.1 h
    have hadv := hadm.advances_park hs hfire
    rw [hid] at hadv
    exact ⟨[], {}, hadv, reported_held rfl rfl rfl rfl⟩

/-- A matched order has its turn, which the stops, the pegs and the linked orders follow. -/
lemma execute_turn {x : Order} {r : Book × SubmitOutcome}
    (h : (execute (fun x => x.1.submit x.2) b' x).Returns r) :
    ∃ m k, (b'.matchOrder x []).Returns m ∧ r.2 = { metOutcome x m with trades := r.2.trades } ∧
      Leads anyOrder ⟨afterMeet m, [], Marks.enters {} m.trades⟩ m.trades
        (r.1, r.2.trades) [] k := by
  unfold execute at h
  obtain ⟨m, hm, h⟩ := Comp.returns_bind.1 h
  have hmet : (if 0 < m.order.leaves ∧ m.cancelled = false ∧ discards m.order = false then
      ((m.book.rest m.order []).1,
        { ({ orderId := x.id, filled := m.order.filled } : SubmitOutcome) with
          rested := (m.book.rest m.order []).2.1, restedDeep := !(m.book.rest m.order []).2.1,
          evicted := (m.book.rest m.order []).2.2, resting := m.order })
      else (m.book, { orderId := x.id, filled := m.order.filled })) =
      (afterMeet m, metOutcome x m) := by
    unfold afterMeet metOutcome
    split_ifs <;> rfl
  dsimp only at h
  rw [hmet] at h
  obtain ⟨c, hc, h⟩ := Comp.returns_bind.1 h
  obtain ⟨f, hfill, h⟩ := Comp.returns_bind.1 h
  obtain rfl := Comp.returns_pure.1 h
  obtain ⟨⟨k₂, hlead, -⟩, -⟩ := (@Drives.afterwards _ _ _ (afterMeet m) []
    (Marks.enters {} m.trades) _ _ (drives_code anyOrder)
    ((drives_code anyOrder).walks_submit (afterMeet m).frame.held.length) trivial le_rfl m.order
    (metOutcome x m).rested m.trades).2 f (Comp.returns_bind.2 ⟨c, hc, hfill⟩)
  exact ⟨m, k₂, hm, rfl, hlead⟩

/-- What follows the turn of an order is executed by others. -/
lemma Leads.takerQty_eq {k₁ k₂ : Marks} {tr : List Trade} {r : Book × List Trade} {i : OrderId}
    (h : Leads anyOrder ⟨b, [], k₁⟩ tr r [] k₂) (hfit : Fit ⟨b, [], k₁⟩)
    (hi : i ∉ Stage.idle ⟨b, [], k₁⟩) : takerQty i r.2 = takerQty i tr := by
  obtain ⟨ts, hr, hrun⟩ := h
  obtain ⟨ms, -, rfl, -, -, htk⟩ := hrun.advances hfit
  have hzero : takerQty i (Mut.trades ms) = 0 :=
    takerQty_eq_zero fun t ht heq => hi (heq ▸ htk t ht)
  rw [hr, takerQty_append, hzero, add_zero]

/-- A submitted order that is matched. -/
lemma execute_reports (hs : Fit ⟨b, [⟨o, .submitted⟩], {}⟩) {x : Order}
    (hadm : b.Admits o (.matched b' x)) {r : Book × SubmitOutcome}
    (h : (execute (fun x => x.1.submit x.2) b' x).Returns r) :
    ∃ ms k, Advances ⟨b, [⟨o, .submitted⟩], {}⟩ ms ⟨r.1, [], k⟩ ∧ Reported b o ms r.2 := by
  obtain ⟨m, k₂, hm, hout, hlead⟩ := execute_turn h
  obtain ⟨ms, hadv, htr, hf, hrep⟩ := (@Admits.advances_meet _ _ _ _ _ _
    (Marks.enters {} m.trades) hs hadm).of_returns hm
  obtain ⟨hfit, ho⟩ := hs.after_turn (.meet trivial hadm hm) hf
  obtain ⟨ms', hadv', hrep'⟩ := hrep.lead hadv hfit ho hlead
  exact ⟨ms', k₂, hadv', hout ▸ hrep'⟩

/-- What a submission does, and what it reports. -/
lemma submit_reports (hs : Fit ⟨b, [⟨o, .submitted⟩], {}⟩) {r : Book × SubmitOutcome}
    (h : (b.submit o).Returns r) :
    ∃ ms k, Advances ⟨b, [⟨o, .submitted⟩], {}⟩ ms ⟨r.1, [], k⟩ ∧ Reported b o ms r.2 := by
  obtain ⟨a, hadm, h⟩ := submit_admits h
  cases a with
  | answered x =>
    obtain rfl := Comp.returns_pure.1 h
    refine ⟨[], {}, hadm.advances_answered hs, ?_⟩
    cases hadm <;> exact reported_held rfl rfl rfl rfl
  | aon b' x =>
    obtain rfl := Comp.returns_pure.1 h
    obtain ⟨ms, hadv, -, hrep⟩ := hadm.advances_aon hs
    exact ⟨ms, {}, hadv, hrep⟩
  | peg b' x =>
    obtain rfl := Comp.returns_pure.1 h
    obtain ⟨ms, hadv, -, hrep⟩ := hadm.advances_peg hs
    exact ⟨ms, {}, hadv, hrep⟩
  | stop b' x => exact submitStop_reports hs hadm h
  | matched b' x => exact execute_reports hs hadm h

/-- An order that is new to a well-formed book is submitted. -/
lemma WF.fit_submit (hb : WF b) (hnew : ¬ Live b o.id) (hd : 0 ≤ o.displayQty) :
    Fit ⟨b, [⟨o, .submitted⟩], {}⟩ :=
  hb.fit_start (q := .submit o)
    (fun x hx => by obtain rfl := List.mem_singleton.1 hx; exact ⟨hnew, hd⟩) {}

/-- A submission returns, and leaves a well-formed book. -/
theorem submit_step (hb : WF b) (hnew : ¬ Live b o.id) (hd : 0 ≤ o.displayQty) :
    (b.submit o).Ensures (SubmitPost b o) := by
  have hfit := hb.fit_submit hnew hd
  have hyields := (drives_fit anyOrder).submit (fun _ _ => trivial) hfit
  obtain ⟨r, hr⟩ := hyields.1 trivial
  obtain ⟨⟨k', hstrides, -⟩, hheld⟩ := hyields.2 r hr
  obtain ⟨-, -, -, hf, hi, -⟩ := hstrides.advances hfit
  obtain ⟨ms, k, hadv, hrep⟩ := submit_reports hfit hr
  exact ⟨r, hr, ms, Instruction.step_of_advances (q := .submit o) not_false hadv
    (hf.wf.fit k) hi, hrep, hheld⟩

end Book

end Codicis
