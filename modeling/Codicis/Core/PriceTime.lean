/-
Price-time priority.

When an aggressor fills against a resting order, whatever stands before that order, at a better
price or ahead of it in the queue of its level, is an all-or-none order that the aggressor is too
small for (`View.FirstInLine`).  The loop over one queue keeps the iterator as the list of what it
has still to visit; what it has passed is a prefix of the queue (`Lined`), and the levels before
the one being matched have been left with such orders only.
-/
import Codicis.Core.Quiescence

namespace Codicis

/-! ### The line of the resting orders -/

/-- The order of `e` stands before the order of `me`: at a better price, or ahead in the queue. -/
def View.Before (v : View) (e me : Entry) : Prop :=
  e.order.side = me.order.side ∧
    (Ladder.better me.order.side e.order.price me.order.price = true ∨
      ∃ l₁ l₂, v.queue me.order.side me.order.price = l₁ ++ me.order.id :: l₂ ∧ e.order.id ∈ l₁)

/-- Nothing stands before `me` that the order `x` could fill against. -/
def View.FirstInLine (v : View) (x : Order) (me : Entry) : Prop :=
  ∀ e, v.entry e.order.id = some e → Book.acceptable x e.order.price = true → v.Before e me →
    e.order.flags.aon = true ∧ x.leaves < e.order.leaves

/-- A mutation that the order `o` makes in matching: it fills against the first in line, at a price
it accepts, or takes out an order of its own account. -/
def Mut.InTurn (o : Order) (v : View) : Mut → Prop
  | .fill x me _ _ => x = o ∧ me.order.side = o.side.opposite ∧
      Book.acceptable o me.order.price = true ∧ v.FirstInLine o me
  | .remove e => o.clientId ≠ 0 ∧ e.order.clientId = o.clientId
  | _ => False

/-- Each mutation of the list is made in turn, by what is then left of the order `o`. -/
def View.InTurn : Order → View → List Mut → Prop
  | _, _, [] => True
  | o, v, m :: ms => m.InTurn o v ∧
      View.InTurn (Book.takeFill o (volume (Mut.trades [m]))) (m.apply v) ms

lemma View.InTurn.append {o : Order} {v v' : View} {ms ms' : List Mut} (h : v.InTurn o ms)
    (hr : View.Run v ms v') (h' : v'.InTurn (Book.takeFill o (volume (Mut.trades ms))) ms') :
    v.InTurn o (ms ++ ms') := by
  induction hr generalizing o with
  | nil v => simpa using h'
  | @cons v v' m ms _ _ ih =>
    refine ⟨h.1, ih h.2 ?_⟩
    rw [Book.takeFill_takeFill, ← volume_append, ← Mut.trades_append]
    exact h'

/-- A fill concerns its maker only. -/
lemma Mut.fill_entry_of_ne {v : View} {x : Order} {me : Entry} {q : ℤ} {rank : ℕ} {id : OrderId}
    (h : id ≠ me.order.id) : ((Mut.fill x me q rank).apply v).entry id = v.entry id := by
  simp only [Mut.apply]
  split_ifs <;> simp [View.unlink, View.unpeg, View.reveal, View.link, View.reduce,
    Entry.replenished, Entry.fill, h]

namespace Book

/-- The order `o` has become `o'`, filling against the first in line each time. -/
def Marches (b : Book) (o : Order) (tr : List Trade) (b' : Book) (o' : Order) (tr' : List Trade) :
    Prop :=
  ∃ ms, Sweep b o ms b' o' ∧ tr' = tr ++ Mut.trades ms ∧ b.view.InTurn o ms

section Marches

variable {b b' b'' : Book} {o o' o'' : Order} {tr tr' tr'' : List Trade}

lemma Marches.refl (b : Book) (ho : 0 ≤ o.leaves) (tr : List Trade) : Marches b o tr b o tr :=
  ⟨[], .refl b ho, by simp, trivial⟩

lemma Marches.trans (h : Marches b o tr b' o' tr') (h' : Marches b' o' tr' b'' o'' tr'') :
    Marches b o tr b'' o'' tr'' := by
  obtain ⟨ms, hsw, rfl, hin⟩ := h
  obtain ⟨ms', hsw', rfl, hin'⟩ := h'
  exact ⟨ms ++ ms', hsw.trans hsw', by simp, hin.append hsw.evolves.run (hsw.order ▸ hin')⟩

lemma marches_noteRemoved (b : Book) (ho : 0 ≤ o.leaves) (s : Side) (p : ℤ) (tr : List Trade) :
    Marches b o tr (b.noteRemoved s p) o tr :=
  ⟨[], sweep_noteRemoved b ho s p, by simp, trivial⟩

end Marches

/-! ### One level -/

section Level

variable {b₀ : Book} {o₀ : Order} {tr₀ : List Trade} {s : Side} {p : ℤ} {m : MatchState}

/-- The levels before the price `p` have nothing for the order. -/
def PastBetter (b : Book) (o : Order) (s : Side) (p : ℤ) : Prop :=
  ∀ q, Ladder.better s q p = true → acceptable o q = true →
    ∀ id ∈ (b.level s q).fifo, b.Blocked o id

/-- What the loop over the queue has passed is the front of the queue, and has nothing for the
order; unless this is the last round. -/
def Lined (s : Side) (p : ℤ) (m : MatchState) : Prop :=
  m.todo = [] ∨ m.order.leaves ≤ 0 ∨ ∃ passed, (m.book.level s p).fifo = passed ++ m.todo ∧
    ∀ id ∈ passed, m.book.Blocked m.order id

/-- Matching at one level leaves the better ones as they are. -/
lemma LevelInv.pastBetter (hb : b₀.view.Sound) (h : LevelInv b₀ o₀ tr₀ s p m)
    (hpast : b₀.PastBetter o₀ s p) : m.book.PastBetter m.order s p := by
  obtain ⟨ms, hsw, -, hag⟩ := h.sweep
  intro q hq hacc
  have hqp : q ≠ p := by
    rintro rfl
    rw [Ladder.better_irrefl] at hq
    exact absurd hq (by simp)
  rw [hsw.acceptable_eq] at hacc
  exact hsw.blocked hb hag hqp (hpast q hq hacc)

/-- Before the order under the iterator stands what the loop has passed. -/
lemma Lined.split (h : Lined s p m) {mid : OrderId} {rest : List OrderId}
    (htodo : m.todo = mid :: rest) :
    m.order.leaves ≤ 0 ∨ ∃ passed, (m.book.level s p).fifo = passed ++ mid :: rest ∧
      ∀ id ∈ passed, m.book.Blocked m.order id := by
  rw [Lined, htodo] at h
  exact h.resolve_left (by simp)

lemma notMem_of_fifo {b : Book} (hv : b.view.Sound) {mid : OrderId} {l₁ l₂ : List OrderId}
    (h : (b.level s p).fifo = l₁ ++ mid :: l₂) : mid ∉ l₁ ∧ mid ∉ l₂ := by
  have hnd : (l₁ ++ mid :: l₂).Nodup := h ▸ hv.nodup s p
  obtain ⟨-, hcons, hdis⟩ := List.nodup_append.1 hnd
  exact ⟨fun h => hdis _ h _ List.mem_cons_self rfl, (List.nodup_cons.1 hcons).1⟩

/-- The order under the iterator is the first in line. -/
lemma Lined.firstInLine (h : Lined s p m) (hv : m.book.view.Sound)
    (hpast : m.book.PastBetter m.order s p) (hpos : 0 < m.order.leaves) {me : Entry}
    {rest : List OrderId} (htodo : m.todo = me.order.id :: rest) (hside : me.order.side = s)
    (hprice : me.order.price = p) : m.book.view.FirstInLine m.order me := by
  subst hside hprice
  obtain ⟨passed, hfifo, hbl⟩ := (h.split htodo).resolve_left (by omega)
  have hblocked : ∀ e, m.book.view.entry e.order.id = some e →
      m.book.Blocked m.order e.order.id →
      e.order.flags.aon = true ∧ m.order.leaves < e.order.leaves := by
    rintro e he ⟨e', he', haon, hlt⟩
    obtain rfl := Option.some.inj (he.symm.trans he')
    exact ⟨haon, hlt⟩
  rintro e hent hacc ⟨hes, hbetter | ⟨l₁, l₂, hq, hmem⟩⟩
  · refine hblocked e hent (hpast _ hbetter hacc _ ?_)
    exact (hv.mem_queue _ _ _).2 ⟨e, hent, hes, rfl⟩
  · -- the queue has the order under the iterator once only
    have hq' : passed ++ me.order.id :: rest = l₁ ++ me.order.id :: l₂ := hfifo.symm.trans hq
    obtain ⟨hl₁, hl₂⟩ := notMem_of_fifo hv hq
    obtain ⟨rfl, -⟩ := (List.append_cons_inj_of_notMem hl₁ hl₂).1 hq'.symm
    exact hblocked e hent (hbl _ hmem)

/-- The loop passes over an all-or-none order. -/
lemma Lined.skip (h : Lined s p m) {mid : OrderId} {rest : List OrderId}
    (htodo : m.todo = mid :: rest) (hbl : m.book.Blocked m.order mid) :
    Lined s p { m with todo := rest } := by
  rcases h.split htodo with h | ⟨passed, hfifo, hpassed⟩
  · exact .inr (.inl h)
  · refine .inr (.inr ⟨passed ++ [mid], ?_, ?_⟩)
    · rw [hfifo]
      simp
    · exact List.forall_mem_append.2 ⟨hpassed, List.forall_mem_singleton.2 hbl⟩

/-- What a round changes of the front of the queue. -/
lemma blocked_of_entry {b b' : Book} {o o' : Order} {id : OrderId} (h : b.Blocked o id)
    (he : b'.view.entry id = b.view.entry id) (hle : o'.leaves ≤ o.leaves) : b'.Blocked o' id := by
  obtain ⟨e, hent, haon, hlt⟩ := h
  exact ⟨e, he.trans hent, haon, by omega⟩

/-- Self-trade prevention takes the order under the iterator out of the queue. -/
lemma Lined.stp (h : Lined s p m) (hv : m.book.view.Sound) {me : Entry} {rest : List OrderId}
    (htodo : m.todo = me.order.id :: rest) (he : m.book.orders.lookup me.order.id = some me)
    (hside : me.order.side = s) (hprice : me.order.price = p) :
    Lined s p { m with book := m.book.stpRemove s p me.order.id me, todo := rest,
                       progressed := true } := by
  subst hside hprice
  rcases h.split htodo with h | ⟨passed, hfifo, hpassed⟩
  · exact .inr (.inl h)
  have hno := (notMem_of_fifo hv hfifo).1
  have hview := view_stpRemove (covers_of_entry hv he)
  refine .inr (.inr ⟨passed, ?_, fun id hid => ?_⟩)
  · have := congrArg (fun v => v.queue me.order.side me.order.price) hview
    simp only [view, View.unpeg, View.unlink, and_self, if_true] at this
    rw [this, hfifo, List.erase_append_right _ hno, List.erase_cons_head]
  · refine blocked_of_entry (hpassed id hid) ?_ le_rfl
    have hne : id ≠ me.order.id := fun h => hno (h ▸ hid)
    rw [hview]
    simp [View.unpeg, View.unlink, hne]

/-- The aggressor fills against the order under the iterator. -/
lemma Lined.fill (h : Lined s p m) (hv : m.book.view.Sound) {me : Entry} {rest : List OrderId}
    (htodo : m.todo = me.order.id :: rest) (he : m.book.orders.lookup me.order.id = some me)
    (hside : me.order.side = s) (hprice : me.order.price = p) (hpos : 0 < m.order.leaves)
    (tr : List Trade) :
    let q := min m.order.leaves (exposed me)
    let r := m.book.fillMaker s p m.order me.order.id me rest
    Lined s p ⟨r.1, takeFill m.order q, r.2, true, tr⟩ := by
  subst hside hprice
  intro q r
  obtain ⟨passed, hfifo, hpassed⟩ := (h.split htodo).resolve_left (by omega)
  have hno := (notMem_of_fifo hv hfifo).1
  have hok := hv.entry_ok _ _ he
  have hview : r.1.view = (Mut.fill m.order me q m.book.nextSeq).apply m.book.view :=
    view_fillMaker hok (covers_of_entry hv he) m.order rest
  have hexp := hok.exposed_pos
  have hpassed' : ∀ id ∈ passed, r.1.Blocked (takeFill m.order q) id := by
    intro id hid
    refine blocked_of_entry (hpassed id hid) ?_ ?_
    · rw [hview]
      exact Mut.fill_entry_of_ne fun h => hno (h ▸ hid)
    · show m.order.leaves - q ≤ m.order.leaves
      omega
  have herase : (m.book.level me.order.side me.order.price).fifo.erase me.order.id
      = passed ++ rest := by
    rw [hfifo, List.erase_append_right _ hno, List.erase_cons_head]
  have hqueue := congrArg (fun v => v.queue me.order.side me.order.price) hview
  by_cases h0 : me.order.leaves - q = 0
  · -- the maker is gone
    have hr : r.2 = rest := by simp [r, fillMaker_of_exhausted _ _ _ _ _ _ h0]
    simp only [Mut.apply, if_pos h0, View.unpeg, View.unlink, and_self, if_true, view] at hqueue
    exact .inr (.inr ⟨passed, by rw [hqueue, herase, hr], hpassed'⟩)
  by_cases h1 : Mut.Replenishes me q
  · -- the maker is at the back; if it was alone there, a new pass begins
    have hr : r.2 = if rest = [] then [] else rest ++ [me.order.id] := by
      simp [r, fillMaker_of_replenishes _ _ _ _ _ _ h1]
    by_cases hrest : rest = []
    · exact .inl (by rw [hr, if_pos hrest])
    simp only [Mut.apply, if_neg h0, if_pos h1, View.reveal, View.unlink, View.link,
      Entry.replenished, Entry.fill, and_self, if_true, view] at hqueue
    refine .inr (.inr ⟨passed, ?_, hpassed'⟩)
    rw [hqueue, herase, hr, if_neg hrest, List.append_assoc]
  · -- the aggressor is exhausted
    refine .inr (.inl ?_)
    show m.order.leaves - q ≤ 0
    have hq : q = m.order.leaves := by
      by_contra hne
      have hq' : q = exposed me := by omega
      simp only [exposed] at hq'
      split_ifs at hq' with hi
      · exact h1 ⟨h0, hi, by omega⟩
      · omega
    omega

/-- One round of the loop over a queue. -/
lemma matchLevelRound_marches (hb : b₀.view.Sound) (hs : s = o₀.side.opposite)
    (hacc : acceptable o₀ p = true) (hpast : b₀.PastBetter o₀ s p)
    (hinv : LevelInv b₀ o₀ tr₀ s p m) (hline : Lined s p m) {x : MatchState ⊕ MatchResult}
    (h : (matchLevelRound s p m).Returns x) :
    Sum.elim (fun m' : MatchState => Lined s p m' ∧
        Marches m.book m.order m.trades m'.book m'.order m'.trades)
      (fun r => Marches m.book m.order m.trades r.book r.order r.trades) x := by
  obtain ⟨ms, hsw, -⟩ := hinv.sweep
  have hv := hsw.evolves.sound hb
  have hleaves := hsw.leaves
  have hpast' := hinv.pastBetter hb hpast
  have hacc' : acceptable m.order p = true := (hsw.acceptable_eq p).trans hacc
  have hos : s = m.order.side.opposite := by rw [hs, hsw.side_eq]
  -- self-trade prevention takes the resting order out, or not
  have hprev : ∀ {mid me rest}, m.todo = mid :: rest → m.book.orders.lookup mid = some me →
      m.book.selfTrade m.order me = true → Lined s p (m.prevented s p mid me rest) ∧
        Marches m.book m.order m.trades (m.prevented s p mid me rest).book m.order m.trades := by
    intro mid me rest htodo hme hst
    obtain ⟨rfl, hside, hprice⟩ := hinv.entry_head hb htodo hme
    unfold MatchState.prevented
    split_ifs with hres
    · refine ⟨hline.stp hv htodo hme hside hprice, ?_⟩
      subst hside hprice
      have hself := hst
      simp only [selfTrade, Bool.and_eq_true, decide_eq_true_eq] at hself
      exact ⟨[.remove me], sweep_stpRemove hv hleaves hme hos hacc' hst hres, by simp,
        ⟨hself.1.2, hself.2⟩, trivial⟩
    · exact ⟨hline, .refl _ hleaves _⟩
  cases matchLevelRound_cases h with
  | leave => exact marches_noteRemoved _ hleaves _ _ _
  | again => exact ⟨.inr (.inr ⟨[], rfl, by simp⟩), .refl _ hleaves _⟩
  | stop _ htodo hme hst =>
    exact (hprev htodo hme hst).2.trans (marches_noteRemoved _ hleaves _ _ _)
  | prevent _ htodo hme hst =>
    simp only [Sum.elim_inl, MatchState.prevented_keeps]
    exact hprev htodo hme hst
  | pass _ htodo hme _ haon => exact ⟨hline.skip htodo ⟨_, hme, haon⟩, .refl _ hleaves _⟩
  | @fill h0 _ rest me htodo hme hst haon =>
    obtain ⟨rfl, hside, hprice⟩ := hinv.entry_head hb htodo hme
    refine ⟨hline.fill hv htodo hme hside hprice h0 _, ?_⟩
    have hfirst := hline.firstInLine hv hpast' h0 htodo hside hprice
    subst hside hprice
    unfold MatchState.filled
    refine ⟨[.fill m.order me (min m.order.leaves (exposed me)) m.book.nextSeq],
      sweep_fillMaker hv h0 hme hos hacc' hst (fun hflag => ?_) rest, by simp,
      ⟨rfl, hos, hacc', hfirst⟩, trivial⟩
    exact not_lt.1 fun hlt => haon ⟨hflag, hlt⟩

lemma matchLevel_marches {b : Book} {o : Order} (hb : b.view.Sound) (ho : 0 ≤ o.leaves)
    (hs : s = o.side.opposite) (hacc : acceptable o p = true) (hpast : b.PastBetter o s p)
    {tr : List Trade} {r : MatchResult} (h : (matchLevel b o s p tr).Returns r) :
    Marches b o tr r.book r.order r.trades := by
  let Q : MatchState → MatchResult → Prop := fun m r => LevelInv b o tr s p m → Lined s p m →
    Marches m.book m.order m.trades r.book r.order r.trades
  refine Comp.Returns.of_loop (Q := Q) (fun m m' r hround hrest hinv hline => ?_)
    (fun m r hround hinv hline => matchLevelRound_marches hb hs hacc hpast hinv hline hround) h ?_
    (.inr (.inr ⟨[], rfl, by simp⟩))
  · have hinv' := (matchLevelRound_spec hb hs hacc hinv).of_returns hround
    obtain ⟨hline', hfirst⟩ := matchLevelRound_marches hb hs hacc hpast hinv hline hround
    exact Marches.trans hfirst (hrest hinv'.1 hline')
  · exact ⟨⟨[], .refl b ho, by simp, by simp⟩, fun _ => id, hb.nodup s p,
      fun _ id hid hno => absurd hid hno, fun hc => hc.but s p⟩

end Level

/-! ### All levels -/

section Match

variable {b : Book} {o : Order} {tr : List Trade} {r : MatchResult}

/-- The prices before the first that is still to be visited have nothing for the order. -/
lemma ExhaustedBut.pastBetter {p : ℤ} {ps : List ℤ} (h : b.ExhaustedBut o (p :: ps))
    (hps : ∀ q ∈ ps, Ladder.better o.side.opposite p q = true) :
    b.PastBetter o o.side.opposite p := by
  intro q hq hacc
  refine h q (fun hmem => ?_) hacc
  have hpp : Ladder.better o.side.opposite p p = true := by
    rcases List.mem_cons.1 hmem with rfl | hmem
    · exact hq
    · exact Ladder.better_trans (hps q hmem) hq
  rw [Ladder.better_irrefl] at hpp
  exact absurd hpp (by simp)

lemma matchOver_marches {ps : List ℤ} (hb : b.view.Sound) (ho : 0 ≤ o.leaves)
    (hps : ps.Pairwise fun p q => Ladder.better o.side.opposite p q = true)
    (hdone : o.leaves = 0 ∨ b.ExhaustedBut o ps)
    (h : (matchOver o.side.opposite ps b o tr).Returns r) :
    Marches b o tr r.book r.order r.trades := by
  induction ps generalizing b o tr with
  | nil =>
    obtain rfl := Comp.returns_pure.1 h
    exact .refl _ ho _
  | cons p ps ih =>
    obtain ⟨hbetter, hps⟩ := List.pairwise_cons.1 hps
    rw [matchOver] at h
    split_ifs at h with h1 h2 h3
    · obtain rfl := Comp.returns_pure.1 h
      exact .refl _ ho _
    · -- there is nothing at this price
      refine ih hb ho hps (hdone.imp_right fun h q hq hacc id hid => ?_) h
      by_cases hqp : q = p
      · rw [hqp, fifo_eq_nil_of_total hb h2] at hid
        simp at hid
      · exact h q (by simp [hqp, hq]) hacc id hid
    · obtain rfl := Comp.returns_pure.1 h
      exact .refl _ ho _
    · obtain ⟨x, hx, hr⟩ := Comp.returns_bind.1 h
      have hacc : acceptable o p = true := by simpa using h3
      have hexh : b.ExhaustedBut o (p :: ps) := hdone.resolve_left (by omega)
      have hfirst := matchLevel_marches hb ho rfl hacc (hexh.pastBetter hbetter) hx
      obtain ⟨ms, hsw, htr, hag, -, -, hleft⟩ := (matchLevel_spec hb ho rfl hacc tr).of_returns hx
      split_ifs at hr with hc
      · obtain rfl := Comp.returns_pure.1 hr
        exact hfirst
      · have hdone' : x.order.leaves = 0 ∨ x.book.ExhaustedBut x.order ps :=
          (hleft (by simpa using hc)).imp_right fun hp => hexh.visited hb hsw hag hp
        rw [← hsw.side_eq] at hps hr
        exact hfirst.trans (ih (hsw.evolves.sound hb) hsw.leaves hps hdone' hr)

/-- Matching meets the resting orders in the order of the line. -/
lemma matchOrder_marches (hb : b.view.Sound) (ho : 0 ≤ o.leaves)
    (h : (b.matchOrder o tr).Returns r) : Marches b o tr r.book r.order r.trades := by
  unfold matchOrder at h
  dsimp only at h
  split_ifs at h with hbase
  · obtain rfl := Comp.returns_pure.1 h
    exact .refl _ ho _
  · refine matchOver_marches hb ho (Ladder.outward_pairwise _) (.inr fun q hq _ id hid => ?_) h
    have hc : ¬ (b.ladder o.side.opposite).Covers q := fun hc =>
      hq ((Ladder.mem_outward (by simpa using hbase)).2 hc)
    rw [level, Ladder.level_of_not_covers hc] at hid
    simp at hid

/-- An order that is filled already meets nobody. -/
lemma matchOrder_of_filled (b : Book) (h : o.leaves ≤ 0) (tr : List Trade) :
    b.matchOrder o tr = pure ⟨b, o, tr, false⟩ := by
  unfold matchOrder
  dsimp only
  split_ifs
  · rfl
  · cases (b.ladder o.side.opposite).outward with
    | nil => rfl
    | cons p ps => rw [matchOver, if_pos h]

end Match

end Book

/-! ### Histories -/

namespace History

variable {C : Record → Instruction → Prop} {stp : StpPolicy} {symbol : Symbol} {eventSink : Bool}
  {r : Record}

open Book in
/-- At every moment of every instruction of a history, matching an order returns.  Each of its
executions is at the price of the maker, which the order accepts, and with the first in line; and
an order that is not filled leaves nothing it could fill against. -/
theorem inTurn_of_history (h : History C (Book.empty 0 stp symbol eventSink) r)
    (hstp : stp = .none ∨ stp = .cancelResting) {q : Instruction} {ms : List Mut} {m : Moment}
    (hm : Beats ⟨r.book, none, q.inHand⟩ ms m) (o : Order) (tr : List Trade) :
    (m.book.matchOrder o tr).Ensures fun x => ∃ fs, View.Run m.book.view fs x.book.view ∧
      x.trades = tr ++ Mut.trades fs ∧ m.book.view.InTurn o fs ∧
      x.order = takeFill o (volume (Mut.trades fs)) ∧
      (0 < x.order.leaves → ∀ e, x.book.view.entry e.order.id = some e →
        e.order.side = o.side.opposite → acceptable o e.order.price = true →
          e.order.flags.aon = true ∧ x.order.leaves < e.order.leaves) := by
  have hv : m.book.view.Sound := hm.run.sound h.sane.wf.sound
  by_cases ho : o.leaves ≤ 0
  · rw [matchOrder_of_filled _ ho]
    refine Comp.ensures_pure ⟨[], .nil _, by simp, trivial, by simp, fun hpos => ?_⟩
    exact absurd hpos (not_lt.2 ho)
  · obtain ⟨x, hx, hpost⟩ := matchOrder_spec hv (not_le.1 ho).le tr
    obtain ⟨fs, hsw, htr, hin⟩ := matchOrder_marches hv (not_le.1 ho).le hx
    refine ⟨x, hx, fs, hsw.evolves.run, htr, hin, hsw.order, fun hpos e he hside hacc => ?_⟩
    obtain ⟨-, -, -, -, hcan, hleft⟩ := hpost
    -- neither policy stops the aggressor
    have hpolicy : m.book.stp = stp := congrArg Settings.stp (hm.evolves.settings.trans h.settings)
    have hc : x.cancelled = false := by
      by_contra hc
      have hstops := hcan (by simpa using hc)
      rw [hpolicy] at hstops
      rcases hstp with rfl | rfl <;> exact absurd hstops (by decide)
    have hv' := hsw.evolves.sound hv
    have hmem : e.order.id ∈ (x.book.level x.order.side.opposite e.order.price).fifo :=
      (hv'.mem_queue _ _ _).2 ⟨e, he, by rw [hside, hsw.side_eq], rfl⟩
    obtain ⟨e', he', haon, hlt⟩ := (hleft hc).resolve_left hpos.ne' e.order.price
      ((hsw.acceptable_eq _).trans hacc) _ hmem
    obtain rfl := Option.some.inj (he.symm.trans he')
    exact ⟨haon, hlt⟩

/-- A history: in front of the order with which a buy trades stands an all-or-none order that is
too large for it. -/
theorem inTurn_of_history_passed : ∃ (r : Record) (o : Order),
    History (fun _ _ => True) (Book.empty 0 .cancelResting "ABC" true) r ∧
      ((r.book.level .sell 110).fifo = [1, 2] ∧ o.leaves = 15) ∧
      (r.book.matchOrder o []).Ensures fun x => ∃ fs, View.Run r.book.view fs x.book.view ∧
        x.trades = [] ++ Mut.trades fs ∧ r.book.view.InTurn o fs ∧
        x.order = Book.takeFill o (volume (Mut.trades fs)) ∧
        (0 < x.order.leaves → ∀ e, x.book.view.entry e.order.id = some e →
          e.order.side = o.side.opposite → Book.acceptable o e.order.price = true →
            e.order.flags.aon = true ∧ x.order.leaves < e.order.leaves) := by
  let qs : List Instruction := [
    .submit { id := 1, side := .sell, qty := 20, price := 110, flags.aon := true },
    .submit { id := 2, side := .sell, qty := 10, price := 110 }]
  let o : Order := { id := 3, qty := 15, leaves := 15, price := 111 }
  obtain ⟨r, hist, hx⟩ : ∃ r, History (fun _ _ => True) (Book.empty 0 .cancelResting "ABC" true) r ∧
      (r.book.level .sell 110).fifo = [1, 2] ∧ o.leaves = 15 :=
    exists_of_replay 8 qs (by decide +kernel)
  exact ⟨r, o, hist, hx,
    inTurn_of_history hist (.inr rfl) (q := .cancel 0) (.nil _) o []⟩

end History

end Codicis
