/-
Self-trade prevention over whole runs.

An aggressor has its turn when it is matched: a submitted order or a child that is released, a stop
that fires, or the remainder of an auction order (`Turn`).  `prevented_of_history` says of every
turn that its executions are between orders of different accounts and that, under the policies that
cancel the aggressor, an order with one of its own account in reach never comes to rest.

The continuous path of `submit` puts to rest only what self-trade prevention has not stopped.
`inject`, through which stops and remainders enter the book, does not look at the verdict, and so
they are excepted if they can rest and are not filled.
-/
import Codicis.Core.Fillable

namespace Codicis

namespace Book

/-- An order of the same account rests in reach of the order `x`. -/
def Faces (b : Book) (x : Order) : Prop :=
  x.clientId ≠ 0 ∧ ∃ id e, b.orders.lookup id = some e ∧ Reaches x e ∧ e.order.clientId = x.clientId

/-! ### An order in front of one of its own account -/

section Faced

variable {b : Book} {o : Order} {s : Side} {p : ℤ} {tr : List Trade} {r : MatchResult}
  {id : OrderId} {e : Entry}

lemma Meets.selfTrade {b' : Book} {o' : Order} {tr' : List Trade} (h : Meets b o tr b' o' tr')
    (hst : ∀ e, b.orders.lookup id = some e → b.selfTrade o e = true) :
    ∀ e, b'.orders.lookup id = some e → b'.selfTrade o' e = true := by
  intro e' he'
  obtain ⟨e, he, htr, -⟩ := h.entry he'
  obtain ⟨new, -, ho', -⟩ := h.trades
  have hstp : b'.stp = b.stp := congrArg (fun f : Frame => f.settings.stp) h.frame
  have hc : e.order.clientId = e'.order.clientId := Order.clientId_eq_of_traits htr
  rw [Book.selfTrade, hstp, ho', ← hc]
  exact hst e he

/-- Matching does not get past an order of the own account that is in the queue. -/
lemma matchLevel_faced (h : (b.matchLevel o s p tr).Returns r) (hid : id ∈ (b.level s p).fifo)
    (hst : ∀ e, b.orders.lookup id = some e → b.selfTrade o e = true)
    (hstp : b.stp.cancelsAggressor = true) : r.cancelled = true ∨ r.order.leaves ≤ 0 := by
  let Q : MatchState → MatchResult → Prop := fun m r => id ∈ m.todo →
    (∀ e, m.book.orders.lookup id = some e → m.book.selfTrade m.order e = true) →
    m.book.stp.cancelsAggressor = true → r.cancelled = true ∨ r.order.leaves ≤ 0
  refine Comp.Returns.of_loop (Q := Q) (fun m m' r hround hrest hid hst hstp => ?_)
    (fun m r hround hid hst hstp => ?_) h hid hst hstp
  · have hmeets : Meets m.book m.order m.trades m'.book m'.order m'.trades :=
      matchLevelRound_meets hround
    have hstp' : m'.book.stp = m.book.stp :=
      congrArg (fun f : Frame => f.settings.stp) hmeets.frame
    -- the order stays in the queue, behind the one that is met
    refine hrest ?_ (hmeets.selfTrade hst) (hstp' ▸ hstp)
    cases matchLevelRound_cases hround with
    | again h0 htodo => simp [htodo] at hid
    | prevent h0 htodo hme hst' hno => simp [hstp] at hno
    | pass h0 htodo hme hno =>
      rw [htodo, List.mem_cons] at hid
      rcases hid with rfl | hid
      · simp [hst _ hme] at hno
      · exact hid
    | fill h0 htodo hme hno =>
      rw [htodo, List.mem_cons] at hid
      rcases hid with rfl | hid
      · simp [hst _ hme] at hno
      · unfold MatchState.filled fillMaker
        dsimp only
        split_ifs with h1 h2 h3
        · exact hid
        · simp [h3] at hid
        · exact List.mem_append_left _ hid
        · exact hid
  · cases matchLevelRound_cases hround with
    | leave h => exact .inr (h.resolve_right fun h => by simp [h.1] at hid)
    | stop => exact .inl rfl

lemma matchOver_faced {ps : List ℤ} (hb : b.view.Sound) (ho : 0 ≤ o.leaves)
    (hps : ps.Pairwise fun p q => Ladder.better o.side.opposite p q = true)
    (h : (matchOver o.side.opposite ps b o tr).Returns r) (hp : p ∈ ps)
    (hacc : acceptable o p = true) (hid : id ∈ (b.level o.side.opposite p).fifo)
    (hst : ∀ e, b.orders.lookup id = some e → b.selfTrade o e = true)
    (hstp : b.stp.cancelsAggressor = true) : r.cancelled = true ∨ r.order.leaves ≤ 0 := by
  induction ps generalizing b o tr with
  | nil => exact absurd hp List.not_mem_nil
  | cons q ps ih =>
    obtain ⟨hbetter, hps⟩ := List.pairwise_cons.1 hps
    rw [matchOver] at h
    split_ifs at h with h1 h2 h3
    · obtain rfl := Comp.returns_pure.1 h
      exact .inr h1
    · -- the queue of the order is not empty
      rcases List.mem_cons.1 hp with rfl | hp
      · simp [fifo_eq_nil_of_total hb h2] at hid
      · exact ih hb ho hps h hp hacc hid hst hstp
    · rcases List.mem_cons.1 hp with rfl | hp
      · simp [hacc] at h3
      · simp [acceptable_of_better hacc (hbetter p hp)] at h3
    · obtain ⟨r₁, hr₁, hrest⟩ := Comp.returns_bind.1 h
      by_cases hc : r₁.cancelled = true
      · rw [if_pos hc] at hrest
        obtain rfl := Comp.returns_pure.1 hrest
        exact .inl hc
      rw [if_neg hc] at hrest
      obtain ⟨sw, hsw, -, hag, -⟩ := (matchLevel_spec hb ho rfl
        (by simpa using h3) tr).of_returns hr₁
      by_cases hpq : p = q
      · -- the level is left only with nothing to fill
        have hdone := (matchLevel_faced hr₁ (hpq ▸ hid) hst hstp).resolve_left hc
        cases ps with
        | nil =>
          obtain rfl := Comp.returns_pure.1 hrest
          exact .inr hdone
        | cons q' ps =>
          rw [matchOver, if_pos hdone] at hrest
          obtain rfl := Comp.returns_pure.1 hrest
          exact .inr hdone
      · have hqueue := (hsw.evolves.run.elsewhere hb hag).1 o.side.opposite p fun h => hpq h.2
        have hid' : id ∈ r₁.book.view.queue o.side.opposite p := by
          rw [hqueue]
          exact hid
        have hacc' : acceptable r₁.order p = true := (hsw.acceptable_eq p).trans hacc
        rw [← hsw.side_eq] at hrest hps hid'
        exact ih (hsw.evolves.sound hb) hsw.leaves hps hrest ((List.mem_cons.1 hp).resolve_left hpq)
          hacc' hid' ((matchLevel_meets hr₁).selfTrade hst) (hsw.evolves.stp ▸ hstp)

/-- An order that faces one of its own account is stopped, or it is filled before. -/
theorem matchOrder_faced (hb : b.view.Sound) (ho : 0 ≤ o.leaves)
    (hstp : b.stp.cancelsAggressor = true) (hf : b.Faces o)
    (h : (b.matchOrder o tr).Returns r) : r.cancelled = true ∨ r.order.leaves ≤ 0 := by
  obtain ⟨hclient, id, e, he, ⟨hside, hacc⟩, hacct⟩ := hf
  have hid : id ∈ (b.level o.side.opposite e.order.price).fifo :=
    (hb.mem_queue _ _ id).2 ⟨e, he, hside, rfl⟩
  have hst : ∀ e', b.orders.lookup id = some e' → b.selfTrade o e' = true := by
    intro e' he'
    obtain rfl := Option.some.inj (he.symm.trans he')
    have hne : b.stp ≠ .none := fun h => by simp [h, StpPolicy.cancelsAggressor] at hstp
    simp [Book.selfTrade, hne, hclient, hacct]
  have hcov : (b.ladder o.side.opposite).Covers e.order.price := by
    by_contra hno
    rw [level, Ladder.level_of_not_covers hno] at hid
    simp at hid
  unfold matchOrder at h
  dsimp only at h
  split_ifs at h with hbase
  · exact absurd (hbase.symm.trans hcov.1) (by simp)
  · exact matchOver_faced hb ho (Ladder.outward_pairwise _) h
      ((Ladder.mem_outward (by simpa using hbase)).2 hcov) hacc hid hst hstp

end Faced

/-! ### The turns of aggressors -/

/-- The order `x` has its turn as an aggressor and makes the executions `ts`; the flag says whether
it comes through `inject`. -/
inductive Turn : Stage → Bool → Order → List Trade → Stage → Prop
  /-- A submitted order, or a child that is released. -/
  | submitted {b b' : Book} {o x : Order} {hand : List Active} {k : Marks} {m : MatchResult}
      (h : b.Admits o (.matched b' x)) (hm : (b'.matchOrder x []).Returns m) :
      Turn ⟨b, ⟨o, .submitted⟩ :: hand, k⟩ false x m.trades ⟨afterMeet m, hand, k.enters m.trades⟩
  /-- A stop that fires on arrival. -/
  | sprung {b b' : Book} {o x : Order} {hand : List Active} {k : Marks} {m : MatchResult}
      (h : b.Admits o (.stop b' x)) (hl : b'.haveLast = true)
      (ht : stopTriggered (b'.armStop x) b'.lastPrice = true)
      (hm : (b'.inject (markTriggered (b'.armStop x)) []).Returns m) :
      Turn ⟨b, ⟨o, .submitted⟩ :: hand, k⟩ true (markTriggered (b'.armStop x)) m.trades
        ⟨m.book, hand, { k.enters m.trades with sprung := true }⟩
  /-- A parked stop. -/
  | fired {b : Book} {hand : List Active} {k : Marks} {id : OrderId} {x : Order}
      {tr ts : List Trade} {m : MatchResult} (hx : b.stops.lookup id = some x)
      (hm : ((b.unparked id x).inject (markTriggered x) tr).Returns m)
      (ht : m.trades = tr ++ ts) :
      Turn ⟨b, hand, k⟩ true (markTriggered x) ts
        ⟨m.book, hand, { k.enters ts with fired := id :: k.fired }⟩
  /-- The remainder of an auction order. -/
  | remains {b : Book} {hand : List Active} {k : Marks} {x : Order} {tr ts : List Trade}
      {m : MatchResult} (hx : entersBook x = true)
      (hm : (b.inject { x with flags := x.flags.clearAuction } tr).Returns m)
      (ht : m.trades = tr ++ ts) :
      Turn ⟨b, ⟨x, .auctioned⟩ :: hand, k⟩ true { x with flags := x.flags.clearAuction } ts
        ⟨m.book, hand, k.enters ts⟩

/-- A stride that makes executions is the turn of an aggressor or the cross of an auction. -/
lemma Stride.turn {A : Book → Order → Prop} {s s' : Stage} {ts : List Trade}
    (h : Stride A s ts s') (hts : ts ≠ []) : (∃ inj x, Turn s inj x ts s') ∨
      ∃ queue hand, s.hand = auctioned queue ++ hand ∧ ts = (s.book.auctionPhase queue).2.2 := by
  cases h with
  | spring hA h hl ht hm => exact .inl ⟨_, _, .sprung h hl ht hm⟩
  | meet hA h hm => exact .inl ⟨_, _, .submitted h hm⟩
  | fire hx hm ht => exact .inl ⟨_, _, .fired hx hm ht⟩
  | remainder hx hm ht => exact .inl ⟨_, _, .remains hx hm ht⟩
  | @allot b hand k queue => exact .inr ⟨queue, hand, rfl, rfl⟩
  | _ => exact absurd rfl hts

/-- The execution is between two of the orders `os`, of different accounts if the taker has one. -/
def Apart (os : List Order) (t : Trade) : Prop :=
  ∃ x ∈ os, ∃ y ∈ os, x.id = t.takerId ∧ y.id = t.makerId ∧
    (x.clientId ≠ 0 → y.clientId ≠ x.clientId)

section Turn

variable {b : Book} {s s' : Stage} {inj : Bool} {x : Order} {tr ts : List Trade} {os : List Order}

/-- In its turn the order is matched against the resting orders of the stage. -/
lemma Turn.meets (h : Turn s inj x ts s') : ∃ (b : Book) (tr : List Trade) (m : MatchResult),
    (b.matchOrder x tr).Returns m ∧ m.trades = tr ++ ts ∧ b.orders = s.book.orders ∧
      b.stp = s.book.stp := by
  have hstp : ∀ {b b' : Book}, b'.frame = b.frame → b'.stp = b.stp := fun hf =>
    congrArg (fun f : Frame => f.settings.stp) hf
  cases h with
  | submitted h hm =>
    obtain ⟨hf, ho, -⟩ := h.keeps rfl
    exact ⟨_, [], _, hm, rfl, ho, hstp hf⟩
  | sprung h hl ht hm =>
    obtain ⟨hf, ho, -⟩ := h.keeps rfl
    obtain ⟨m, hm', -, htr, -⟩ := inject_meets hm
    exact ⟨_, [], m, hm', htr.symm, ho, hstp hf⟩
  | @fired b hand k id x tr ts m hx hm ht =>
    obtain ⟨m', hm', -, htr, -⟩ := inject_meets hm
    have hf : (b.unparked id x).frame = { b.frame with stops := b.stops.erase id } := by
      simp only [unparked, emitEvent, emit_keeps]
      rfl
    exact ⟨_, tr, m', hm', htr ▸ ht, (unparked_keeps b id x).2,
      congrArg (fun f : Frame => f.settings.stp) hf⟩
  | remains hx hm ht =>
    obtain ⟨m', hm', -, htr, -⟩ := inject_meets hm
    exact ⟨_, _, m', hm', htr ▸ ht, rfl, rfl⟩

/-- The order was in hand or parked. -/
lemma Turn.among (h : Turn s inj x ts s')
    (hall : Moment.All (Order.Among os) ⟨s.book, none, s.hand⟩) : x.Among os := by
  have hQ := Order.stable_among os
  cases h with
  | submitted h hm =>
    obtain ⟨-, -, htr, -⟩ := h.keeps rfl
    exact hQ.traits _ _ htr.symm (hall.hand _ List.mem_cons_self)
  | @sprung b b' o x hand k m h hl ht hm =>
    obtain ⟨-, -, htr, -⟩ := h.keeps rfl
    have htr' : (markTriggered (b'.armStop x)).traits = o.traits :=
      ((b'.armStop x).traits_markTriggered.trans (x.traits_armStop b')).trans htr
    exact hQ.traits _ _ htr'.symm (hall.hand _ List.mem_cons_self)
  | @fired b hand k id x tr ts m hx hm ht =>
    exact hQ.traits _ _ x.traits_markTriggered.symm (hall.book.stops id x hx)
  | remains hx hm ht => exact hQ.clear _ (hall.hand _ List.mem_cons_self)

/-- The executions of a turn are between orders of different accounts. -/
lemma Turn.apart (h : Turn s inj x ts s') (hv : s.book.view.Sound)
    (hall : Moment.All (Order.Among os) ⟨s.book, none, s.hand⟩) (hstp : s.book.stp ≠ .none) :
    ∀ t ∈ ts, Apart os t := by
  intro t htmem
  obtain ⟨b, tr, m, hm, ht, ho, hpolicy⟩ := h.meets
  obtain ⟨new, hnew, -, htrades⟩ := (matchOrder_meets hm).trades
  obtain rfl := List.append_cancel_left (ht.symm.trans hnew)
  obtain ⟨htaker, e, he, hst⟩ := htrades t htmem
  rw [ho] at he
  obtain ⟨o, ho, hxo⟩ := h.among hall
  obtain ⟨o', ho', heo⟩ := hall.book.resting _ e he
  have hclient : ∀ {y z : Order}, y.nature = z.nature → z.clientId = y.clientId := by
    intro y z h
    have hc : z.nature.clientId = y.nature.clientId := by rw [h]
    exact hc
  refine ⟨o, ho, o', ho', (Order.id_of_nature hxo).trans htaker.symm,
    (Order.id_of_nature heo).trans (hv.id_eq _ e he), fun hne heq => ?_⟩
  rw [hclient hxo] at hne heq
  rw [hclient heo] at heq
  simp [Book.selfTrade, hpolicy, hstp, hne, heq] at hst

/-! ### Stopped orders -/

/-- An order that cannot rest or is filled does not rest after `inject`. -/
lemma inject_absent {m : MatchResult} (hm : (b.inject x tr).Returns m) (ht : m.trades = tr ++ ts)
    (hnew : b.orders.lookup x.id = none) (h : discards x = true ∨ x.leaves ≤ volume ts) :
    m.book.orders.lookup x.id = none := by
  obtain ⟨m', hm', -, htr, hbook⟩ := inject_meets hm
  have hmeets := matchOrder_meets hm'
  obtain ⟨new, hnew', horder, -⟩ := hmeets.trades
  obtain rfl := List.append_cancel_left (ht.symm.trans (htr.trans hnew'))
  have hno : ¬ (0 < m'.order.leaves ∧ discards m'.order = false) := by
    rw [horder]
    rintro ⟨hpos, hd⟩
    have hd' : discards x = false := hd
    have hlt : 0 < x.leaves - volume ts := hpos
    rcases h with h | h
    · simp [hd'] at h
    · omega
  rw [hbook, if_neg hno]
  exact hmeets.lookup_eq_none hnew

/-- After its turn an order that faced one of its own account neither rests nor waits. -/
lemma Turn.absent (h : Turn s inj x ts s') (hs : Fit s)
    (hstp : s.book.stp.cancelsAggressor = true) (hf : s.book.Faces x)
    (hinj : inj = true → discards x = true ∨ x.leaves ≤ volume ts) :
    s'.book.orders.lookup x.id = none ∧ x.id ∉ s'.idle := by
  cases h with
  | @submitted b b' o x hand k m h hm =>
    obtain ⟨hframe, ho, htr, -⟩ := h.keeps rfl
    have hid : x.id = o.id := Order.id_eq_of_traits htr
    refine ⟨?_, hid ▸ hs.notMem_idle (frame_afterMeet hm |>.trans hframe)⟩
    cases h with
    | matched h _ =>
      have hstp' : (b.looked o).stp = b.stp :=
        congrArg (fun f : Frame => f.settings.stp) hframe
      have hfaces : (b.looked o).Faces x := by
        obtain ⟨hc, i, e, he, hreach, hacct⟩ := hf
        exact ⟨hc, i, e, ho ▸ he, hreach, hacct⟩
      have hstop := matchOrder_faced ((quiet_looked b o).1.view ▸ hs.sound) (h.ready hs).1.1.le
        (hstp' ▸ hstp) hfaces hm
      have hno : ¬ (0 < m.order.leaves ∧ m.cancelled = false ∧ discards m.order = false) := by
        rintro ⟨hpos, hc, -⟩
        rcases hstop with h | h
        · simp [hc] at h
        · omega
      rw [afterMeet, if_neg hno]
      exact (matchOrder_meets hm).lookup_eq_none (h.lookup_eq_none hs)
  | @sprung b b' o x hand k m h hl ht hm =>
    obtain ⟨hframe, ho, htr, -⟩ := h.keeps rfl
    have hid : (markTriggered (b'.armStop x)).id = o.id :=
      (armStop_keeps b' x).1.trans (Order.id_eq_of_traits htr)
    exact ⟨inject_absent hm (List.nil_append _).symm (by rw [ho, hid]; exact hs.head_new)
        (hinj rfl),
      hid ▸ hs.notMem_idle ((inject_frame hm).trans hframe)⟩
  | @fired b hand k id x tr ts m hx hm ht =>
    have hwait : x ∈ b.frame.waiting := Frame.mem_waiting.2 (.inl ⟨id, hx⟩)
    refine ⟨inject_absent hm ht ?_ (hinj rfl), ?_⟩
    · rw [(unparked_keeps b id x).2]
      exact hs.wf.waits.away x hwait
    · -- the identifier waited once
      have hw := waitingIds_unpark hx
      rw [← waitingIds_of_frame (inject_frame hm)] at hw
      have hnd := (List.nodup_append.1 hs.once.nodup).2.1
      exact (List.nodup_cons.1 ((hw.append_right _).nodup_iff.1 hnd)).1
  | @remains b hand k x tr ts m hx hm ht =>
    exact ⟨inject_absent hm ht hs.head_new (hinj rfl), hs.notMem_idle (inject_frame hm)⟩

end Turn

/-! ### Whole runs -/

/-- What comes after a stage: a stride of the instruction that is under way, or the next
instruction, whose order has none of the identifiers `used`. -/
def Follows (used : List OrderId) (s s' : Stage) : Prop :=
  (∃ ts, Stride anyOrder s ts s') ∨ (s.hand = [] ∧ ∃ q : Instruction,
    (∀ o ∈ q.orders, o.id ∉ used) ∧ s' = ⟨(q.start s.book).1, (q.start s.book).2, s.marks⟩)

/-- An identifier that is used and neither rests nor waits never comes to rest. -/
lemma absent_of_follows {used : List OrderId} {i : OrderId} (hi : i ∈ used) {s s' : Stage}
    (h : Relation.ReflTransGen (Follows used) s s')
    (hs : s.book.orders.lookup i = none ∧ i ∉ s.idle) :
    s'.book.orders.lookup i = none ∧ i ∉ s'.idle := by
  induction h with
  | refl => exact hs
  | tail _ hstep ih =>
    rcases hstep with ⟨ts, hstride⟩ | ⟨hhand, q, hq, rfl⟩
    · obtain ⟨l, hidle, hrest, -⟩ := hstride.passage
      refine ⟨?_, fun hmem => ih.2 (hidle.subset (List.mem_append_right _ hmem))⟩
      by_contra hne
      obtain ⟨e, he⟩ := Option.ne_none_iff_exists'.1 hne
      rcases hrest i e he with ⟨e₀, he₀⟩ | hl
      · simp [ih.1] at he₀
      · exact ih.2 (hidle.subset (List.mem_append_left _ hl))
    · refine ⟨by rw [(q.start_keeps _).1]; exact ih.1, fun hmem => ?_⟩
      rw [(idle_start _ q _).mem_iff, List.mem_append, List.mem_map] at hmem
      rcases hmem with hmem | ⟨o, ho, rfl⟩
      · exact ih.2 (List.mem_append_left _ hmem)
      · exact hq o ho hi

/-- What self-trade prevention does at a stage of an instruction, where `os` have been submitted. -/
structure Prevents (os : List Order) (s : Stage) : Prop where
  /-- Executions are made in the turn of an aggressor, or by the cross of an auction. -/
  turn : ∀ {ts s'}, Stride anyOrder s ts s' → ts ≠ [] → (∃ inj x, Turn s inj x ts s') ∨
    ∃ queue hand, s.hand = auctioned queue ++ hand ∧ ts = (s.book.auctionPhase queue).2.2
  /-- No aggressor trades with its own account. -/
  apart : ∀ {inj x ts s'}, Turn s inj x ts s' → ∀ t ∈ ts, Apart os t
  /-- An aggressor that faces its own account never rests, unless it comes through `inject`, can
  rest and is not filled. -/
  stopped : s.book.stp.cancelsAggressor = true → ∀ {inj x ts s'}, Turn s inj x ts s' →
    s.book.Faces x → (inj = true → discards x = true ∨ x.leaves ≤ volume ts) →
    ∀ s'', Relation.ReflTransGen (Follows (os.map (·.id))) s' s'' →
      s''.book.orders.lookup x.id = none

end Book

open Book

/-- What every order of the book satisfies holds of the orders that an instruction takes up. -/
lemma Instruction.all_start {Q : Order → Prop} {b : Book} (hb : b.Keeps Q) {q : Instruction}
    (hq : ∀ o ∈ q.orders, Q o) : Moment.All Q ⟨(q.start b).1, none, (q.start b).2⟩ := by
  have hqueue : ∀ queue : List Order, (∀ x ∈ queue, Q x) → ∀ a ∈ auctioned queue, Q a.order := by
    intro queue hall a ha
    obtain ⟨x, hx, rfl⟩ := List.mem_map.1 ha
    exact hall x hx
  cases q with
  | submit o =>
    exact ⟨hb, by simp, fun a ha => List.mem_singleton.1 ha ▸ hq o (List.mem_singleton_self o)⟩
  | runOpeningAuction =>
    exact ⟨⟨hb.resting, hb.stops, by simp [Instruction.start], hb.closing, hb.held⟩, by simp,
      hqueue _ hb.opening⟩
  | runClosingAuction =>
    exact ⟨⟨hb.resting, hb.stops, hb.opening, by simp [Instruction.start], hb.held⟩, by simp,
      hqueue _ hb.closing⟩
  | seedPosition c net => exact ⟨hb.seedPosition c net, by simp, by simp [Instruction.start]⟩
  | cancel id | expire now => exact ⟨hb, by simp, by simp [Instruction.start]⟩

/-- Self-trade prevention at every stage of every instruction of a history. -/
theorem prevented_of_history {memLevels : ℕ} {stp : StpPolicy} {symbol : Symbol}
    {eventSink : Bool} {r : Record} {q : Instruction} (hstp : stp ≠ .none)
    (h : History (fun _ _ => True) (Book.empty memLevels stp symbol eventSink) r)
    (hq : q.Allowed r) : ∃ b' ts k, (q.run r.book).Returns (b', ts) ∧
      Strides anyOrder ⟨(q.start r.book).1, (q.start r.book).2, {}⟩ ts ⟨b', [], k⟩ ∧
      ∀ ts₁ s, Strides anyOrder ⟨(q.start r.book).1, (q.start r.book).2, {}⟩ ts₁ s →
        Prevents (q.orders ++ r.orders) s := by
  obtain ⟨b', ts, hret⟩ := h.sane.returns hq
  obtain ⟨k, hrun, -⟩ := strides_of_run hret {}
  refine ⟨b', ts, k, hret, hrun, fun ts₁ s hs => ?_⟩
  have hstart := h.sane.wf.fit_start (hq.fresh h.sane.live) {}
  obtain ⟨ms, hadv, -, hfit, -⟩ := hs.advances hstart
  -- the orders of the stage are submitted ones
  have hall₀ : Moment.All (Order.Among (q.orders ++ r.orders))
      ⟨(q.start r.book).1, none, (q.start r.book).2⟩ :=
    Instruction.all_start (h.sane.among.imp fun _ hx => hx.append _) fun o ho =>
      Order.among_self (List.mem_append_left _ ho)
  have hall := (hadv.beats.induction_all (I := fun _ => True) (Order.stable_among _)
    (composes_forall fun _ => True) hstart.sound hall₀ trivial
    fun _ _ _ _ _ _ _ => ⟨trivial, fun _ _ => trivial⟩).1
  have hpolicy : s.book.stp = stp := by
    have hsettings : (q.start r.book).1.settings = r.book.settings := by
      cases q with
      | seedPosition c net => exact congrArg Frame.settings (seedPosition_keeps r.book c net).2.1
      | _ => rfl
    exact congrArg Settings.stp ((hadv.evolves.settings.trans hsettings).trans h.settings)
  refine ⟨fun hstride => hstride.turn, fun hturn => hturn.apart hfit.sound hall (hpolicy ▸ hstp),
    fun hcancels inj x ts s' hturn hfaces hinj s'' hlater => ?_⟩
  have hused : x.id ∈ (q.orders ++ r.orders).map (·.id) := by
    obtain ⟨o, ho, hx⟩ := hturn.among hall
    exact List.mem_map.2 ⟨o, ho, Order.id_of_nature hx⟩
  exact (absent_of_follows hused hlater (hturn.absent hfit hcancels hfaces hinj)).1

/-- A book with a last price in which an order of account 5 rests behind one of account 9. -/
def ownBook : List Instruction := [
  .submit { id := 1, side := .sell, qty := 1, price := 100, clientId := 9 },
  .submit { id := 4, qty := 1, price := 100, clientId := 8 },
  .submit { id := 2, side := .sell, qty := 5, price := 101, clientId := 5 },
  .submit { id := 6, side := .sell, qty := 1, price := 100, clientId := 9 }]

/-- Whether the order with the identifier `id` is one that `x` faces. -/
def Book.facesAt (b : Book) (x : Order) (id : OrderId) : Bool :=
  (b.orders.lookup id).any fun e =>
    decide (x.clientId ≠ 0 ∧ Reaches x e ∧ e.order.clientId = x.clientId)

lemma Book.faces_of_facesAt {b : Book} {x : Order} {id : OrderId} (h : b.facesAt x id = true) :
    b.Faces x := by
  obtain ⟨e, he, hx⟩ := (Option.any_eq_true _ _).1 h
  obtain ⟨hc, hr, hacct⟩ := of_decide_eq_true hx
  exact ⟨hc, id, e, he, hr, hacct⟩

/-- A submitted order trades with another account, is stopped by its own and does not rest. -/
theorem prevented_of_history_stopped : ∃ r x ts s',
    let o : Order := { id := 5, qty := 4, price := 102, clientId := 5 }
    History (fun _ _ => True) (Book.empty 0 .cancelBoth "ABC" false) r ∧
      Turn ⟨r.book, [⟨o, .submitted⟩], {}⟩ false x ts s' ∧ volume ts = 1 ∧ r.book.Faces x ∧
      s'.book.orders.lookup x.id = none := by
  let o : Order := { id := 5, qty := 4, price := 102, clientId := 5 }
  obtain ⟨r, hr, hnew, hrun⟩ : ∃ r, History (fun _ _ => True)
      (Book.empty 0 .cancelBoth "ABC" false) r ∧ (Instruction.submit o).Allowed r ∧
        (match admission (r.book, o) with
          | .matched b x => r.book.facesAt x 2 &&
              ((b.matchOrder x []).run 8).any fun m => volume m.trades = 1
          | _ => false) = true := History.exists_of_replay 8 ownBook (by decide +kernel)
  have hadm := admission_admits r.book o
  cases h : admission (r.book, o) with
  | matched b x =>
    rw [h] at hrun hadm
    obtain ⟨hfaces, hmatch⟩ := Bool.and_eq_true_iff.1 hrun
    obtain ⟨m, hm, hvol⟩ := (Option.any_eq_true _ _).1 hmatch
    have hturn : Turn ⟨r.book, [⟨o, .submitted⟩], {}⟩ false x m.trades _ := .submitted hadm ⟨8, hm⟩
    have hpolicy : r.book.stp = .cancelBoth := congrArg Settings.stp hr.settings
    obtain ⟨-, -, -, -, -, hall⟩ := prevented_of_history (by decide) hr hnew
    have hstage : Prevents (o :: r.orders) ⟨r.book, [⟨o, .submitted⟩], {}⟩ := hall [] _ (.nil _)
    exact ⟨r, x, m.trades, _, hr, hturn, of_decide_eq_true hvol, faces_of_facesAt hfaces,
      hstage.stopped (by rw [hpolicy]; rfl) hturn (faces_of_facesAt hfaces) (by simp) _ .refl⟩
  | _ => simp [h] at hrun

/-- A stop that fires on arrival is stopped by an order of its own account, and rests all the
same. -/
theorem exists_stopped_at_rest : ∃ r x ts s',
    let o : Order := { id := 3, qty := 5, price := 105, clientId := 5,
                       trigger := some { stopPrice := 100 } }
    History (fun _ _ => True) (Book.empty 0 .cancelAggressor "ABC" false) r ∧
      (Instruction.submit o).Allowed r ∧ Turn ⟨r.book, [⟨o, .submitted⟩], {}⟩ true x ts s' ∧
      r.book.Faces x ∧ s'.book.orders.lookup x.id ≠ none := by
  let o : Order := { id := 3, qty := 5, price := 105, clientId := 5,
                     trigger := some { stopPrice := 100 } }
  obtain ⟨r, hr, hnew, hrun⟩ : ∃ r, History (fun _ _ => True)
      (Book.empty 0 .cancelAggressor "ABC" false) r ∧ (Instruction.submit o).Allowed r ∧
        (match admission (r.book, o) with
          | .stop b x =>
              let y := markTriggered (b.armStop x)
              b.haveLast && stopTriggered (b.armStop x) b.lastPrice && r.book.facesAt y 2 &&
                ((b.inject y []).run 8).any fun m => (m.book.orders.lookup y.id).isSome
          | _ => false) = true := History.exists_of_replay 8 ownBook (by decide +kernel)
  have hadm := admission_admits r.book o
  cases h : admission (r.book, o) with
  | stop b x =>
    rw [h] at hrun hadm
    simp only [Bool.and_eq_true] at hrun
    obtain ⟨⟨⟨hlast, hfires⟩, hfaces⟩, hinject⟩ := hrun
    obtain ⟨m, hm, hrests⟩ := (Option.any_eq_true _ _).1 hinject
    exact ⟨r, _, m.trades, _, hr, hnew, .sprung hadm hlast hfires ⟨8, hm⟩,
      faces_of_facesAt hfaces, Option.isSome_iff_ne_none.1 hrests⟩
  | _ => simp [h] at hrun

end Codicis
