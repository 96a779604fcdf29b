/-
Post-only orders do not take, and immediate orders do not rest.

The checks are made where an order is submitted for continuous trading.  An order that
fires as a stop, or whose remainder leaves an auction, enters matching without them, and a
pegged order rests without them.  So the two guarantees hold along the runs whose post-only
orders are neither stops nor auction orders, and whose immediate orders are not pegged.
-/
import Codicis.Core.Direct

namespace Codicis

open Book

namespace Order

/-- The order is not to take, by its flag or by its time in force. -/
def PostOnly (o : Order) : Prop := o.flags.postOnly = true ∨ o.tif = .gtx

/-- The order is not to rest. -/
def Immediate (o : Order) : Prop := o.type = .market ∨ o.tif = .ioc ∨ o.tif = .fok

/-- The order is pegged, or not immediate. -/
def Lasting (o : Order) : Prop := o.peg.isSome = true ∨ (o.type = .limit ∧ o.tif.plain ≠ .ioc)

variable {o x y : Order}

lemma postOnly_traits : o.traits.flags.postOnly = true ↔ o.PostOnly := by
  unfold traits PostOnly
  cases o.tif <;> simp [OrderFlags.withTif]

lemma postOnly_nature : o.nature.flags.postOnly = true ↔ o.PostOnly := postOnly_traits

lemma postOnly_congr (h : x.traits = y.traits) : x.PostOnly ↔ y.PostOnly := by
  rw [← postOnly_traits, ← postOnly_traits, h]

lemma PostOnly.flag (h : o.PostOnly) (hn : o.Normal) : o.flags.postOnly = true := by
  rcases h with h | h
  · exact h
  · rw [Normal, h] at hn
    exact absurd hn (by decide)

lemma kind_postOnly : Kind PostOnly where
  traits _ _ h := postOnly_congr h
  clear _ := Iff.rfl

lemma lasting_traits : o.Lasting ↔ o.traits.peg.isSome = true ∨
    (o.traits.type = .limit ∧ o.traits.tif ≠ .ioc) := by
  unfold Lasting traits
  by_cases hp : o.peg.isSome = true
  · simp [hp]
  · simp [hp]

lemma Lasting.congr (h : x.traits = y.traits) (hx : x.Lasting) : y.Lasting := by
  rw [lasting_traits, ← h]
  exact lasting_traits.1 hx

/-- An order that may rest after matching. -/
lemma lasting_of_discards (hn : o.Normal) (hd : Book.discards o = false) : o.Lasting := by
  right
  rw [hn]
  cases ht : o.type with
  | market => simp [Book.discards, ht] at hd
  | limit =>
    refine ⟨rfl, fun htif => ?_⟩
    simp [Book.discards, htif] at hd

/-- What rests of an order that is not both immediate and pegged. -/
lemma Lasting.not_immediate (h : x.Lasting) (hn : x.nature = o.nature)
    (hp : o.Immediate → o.peg = none) : ¬ o.Immediate := by
  intro hi
  have hpeg := hp hi
  have h' : o.nature.peg.isSome = true ∨ (o.nature.type = .limit ∧ o.nature.tif ≠ .ioc) :=
    hn ▸ lasting_traits.1 h
  simp only [nature, traits, hpeg, Option.isSome_none, Bool.false_eq_true, if_false, false_or] at h'
  obtain ⟨htype, htif⟩ := h'
  rcases hi with hi | hi | hi
  · exact absurd (hi.symm.trans htype) (by decide)
  · exact htif (by rw [hi]; rfl)
  · exact htif (by rw [hi]; rfl)

end Order

/-- Nothing on the other side is acceptable to the order. -/
def View.Clear (v : View) (x : Order) : Prop :=
  ∀ id e, v.entry id = some e → e.order.side = x.side.opposite →
    Book.acceptable x e.order.price = false

/-- No post-only order waits for a trigger or an auction, and whatever rests lasts. -/
def Roles.decent : Roles :=
  .direct (R := Order.Lasting) Order.kind_postOnly (fun _ _ h hx => hx.congr h.symm)
    fun _ hn hd => hd.elim (Order.lasting_of_discards hn) .inl

/-- What holds inside an operation: a post-only order that is matched finds nothing to take. -/
structure Moment.Decent (m : Moment) : Prop where
  plays : m.Plays .decent
  clear : ∀ x, m.turn = some ⟨x, .entered⟩ → x.PostOnly → m.book.view.Clear x

namespace Moment.Decent

variable {m m' : Moment} {ms : List Mut}

/-- The taker of a fill is not post-only. -/
lemma taker_fill (hm : m.Decent) {a : Active} (ht : m.turn = some a) (hr : a.route ≠ .submitted)
    {me : Entry} {q : ℤ} {rank : ℕ} {v : View}
    (hrun : View.Run m.book.view [.fill a.order me q rank] v) : ¬ a.order.PostOnly := by
  obtain ⟨x, r⟩ := a
  cases r with
  | submitted => exact absurd rfl hr
  | entered =>
    intro hp
    obtain ⟨⟨he, -, -, -, hside, hacc⟩, -⟩ := hrun.of_single
    have hclear := hm.clear x ht hp _ me he hside
    rw [hacc] at hclear
    exact absurd hclear (by simp)
  | triggered => exact hm.plays.turn _ ht
  | auctioned => exact hm.plays.turn _ ht

/-- Every beat keeps a moment decent. -/
lemma beat (hm : m.Decent) (h : Beat m ms m') (hs : m.book.view.Sound) : m'.Decent := by
  refine ⟨h.plays hm.plays, ?_⟩
  have hrun := h.run
  cases h with
  | wane hq hseq hw =>
    intro x hx hp
    rw [hq.view]
    exact hm.clear x hx hp
  | @enter b hand x hadm =>
    intro x' hx hp id e he hside
    obtain rfl : x = x' := congrArg Active.order (Option.some.inj hx)
    -- nothing acceptable is queued on the other side
    by_contra hacc
    have hid := (hs.mem_queue _ _ id).2 ⟨e, he, hside, rfl⟩
    have hnil := hadm.postOnly (hp.flag hadm.normal) e.order.price (by simpa using hacc)
    exact absurd (hnil ▸ hid : id ∈ []) (by simp)
  | @fill b hand x r me rest hr hl he hside hacc hst haon hev hf =>
    intro x' hx hp
    obtain rfl : takeFill x _ = x' := congrArg Active.order (Option.some.inj hx)
    exact absurd hp (hm.taker_fill (a := ⟨x, r⟩) rfl hr hrun)
  | prevent he hst hr hev hf =>
    intro x hx hp id e he hside
    obtain ⟨hok, hv⟩ := hrun.of_single
    dsimp only at hv
    rw [hv] at he
    rcases Mut.entry_cases hok he with he | ⟨hno, -⟩ | ⟨_, _, _, _, hno, -⟩ | ⟨_, _, _, hno, -⟩
    · exact hm.clear x hx hp id e he hside
    all_goals exact Mut.noConfusion hno
  | _ => simp

/-- The taker of every execution is a submitted order that is not post-only. -/
lemma takers (hm : m.Decent) (h : Beat m ms m') {os : List Order} (ha : m.All (Order.Among os))
    {t : Trade} (ht : t ∈ Mut.trades ms) : ∃ o ∈ os, o.id = t.takerId ∧ ¬ o.PostOnly := by
  have hfrom : ∀ x : Order, x.Among os → ¬ x.PostOnly → ∃ o ∈ os, o.id = x.id ∧ ¬ o.PostOnly := by
    rintro x ⟨o, ho, hn⟩ hp
    refine ⟨o, ho, Order.id_of_nature hn, fun hpo => hp ?_⟩
    rwa [← Order.postOnly_nature, hn, Order.postOnly_nature]
  have hrun := h.run
  rcases h.trade_cases ht with ⟨a, me, q, rank, hturn, hr, rfl, rfl⟩ |
    ⟨x, y, p, q, d, hx, -, rfl, rfl⟩
  · exact hfrom a.order (ha.turn a hturn) (hm.taker_fill hturn hr hrun)
  · exact hfrom x (ha.hand _ hx) (hm.plays.hand _ hx)

end Moment.Decent

/-! ### Histories -/

/-- The instruction submits no post-only order that has a trigger or is for an auction, and no
immediate order that is pegged. -/
def Instruction.Regular (q : Instruction) : Prop :=
  ∀ o ∈ q.orders, o.Direct Order.PostOnly ∧ (o.Immediate → o.peg = none)

/-- No post-only order was the taker of an execution, and no immediate order rests. -/
def Record.Disciplined (r : Record) : Prop :=
  (∀ t ∈ r.trades, ∀ o ∈ r.orders, o.PostOnly → t.takerId ≠ o.id) ∧
    ∀ o ∈ r.orders, o.Immediate → r.book.find o.id = none

instance (o : Order) : Decidable o.PostOnly := inferInstanceAs (Decidable (_ ∨ _))

instance (o : Order) : Decidable o.Immediate := inferInstanceAs (Decidable (_ ∨ _))

instance (q : Instruction) : Decidable q.Regular := List.decidableBAll _ _

namespace History

variable {memLevels : ℕ} {stp : StpPolicy} {symbol : Symbol} {eventSink : Bool} {r : Record}

/-- Along a history the moments between instructions are decent, and the takers are not
post-only. -/
lemma decent
    (h : History (fun _ q => q.Regular) (Book.empty memLevels stp symbol eventSink) r) :
    Moment.Decent ⟨r.book, none, []⟩ ∧
      ∀ t ∈ r.trades, ∃ o ∈ r.orders, o.id = t.takerId ∧ ¬ o.PostOnly := by
  refine h.induction (I := Moment.Decent)
    (R := fun os _ ms _ => ∀ t ∈ Mut.trades ms, ∃ o ∈ os, o.id = t.takerId ∧ ¬ o.PostOnly)
    (fun os => composes_trades _)
    (J := fun r => ∀ t ∈ r.trades, ∃ o ∈ r.orders, o.id = t.takerId ∧ ¬ o.PostOnly)
    ⟨.empty _ _ _ _ _, by simp⟩ (by simp) (fun r c net _ hI =>
      ⟨hI.plays.seedPosition c net, by simp⟩)
    (fun r q hC hI => ⟨hI.plays.inHand fun o ho => (hC o ho).1, by simp⟩)
    (fun os m ms m' hb hs ha hI => ⟨hI.beat hb hs, fun t ht => hI.takers hb ha ht⟩) ?_
    fun r c net hJ => hJ
  intro r q b' ms hJ hR t ht
  rcases List.mem_append.1 ht with ht | ht
  · obtain ⟨o, ho, hid⟩ := hJ t ht
    exact ⟨o, List.mem_append_right _ ho, hid⟩
  · exact hR t ht

lemma disciplined
    (h : History (fun _ q => q.Regular) (Book.empty memLevels stp symbol eventSink) r) :
    r.Disciplined := by
  obtain ⟨hdecent, htakers⟩ := h.decent
  refine ⟨fun t ht o ho hp heq => ?_, fun o ho hi => ?_⟩
  · obtain ⟨o', ho', hid, hnp⟩ := htakers t ht
    obtain rfl := List.inj_on_of_nodup_map h.sane.nodup ho' ho (hid.trans heq)
    exact hnp hp
  · refine Option.map_eq_none_iff.2 (Option.eq_none_iff_forall_ne_some.2 fun e he => ?_)
    have hid := h.sane.wf.sound.id_eq o.id e he
    have hnat := (h.sane.among.resting o.id e he).of_id h.sane.nodup ho hid.symm
    have hpeg := (h.orders (fun r q hC => hC) o ho).2
    exact (hdecent.plays.resting o.id e he).not_immediate hnat hpeg hi

/-- In every history whose post-only orders are neither stops nor auction orders and whose
immediate orders are not pegged, no post-only order takes and no immediate order rests, and
neither happens in the next instruction, which returns. -/
theorem disciplined_of_history
    (h : History (fun _ q => q.Regular) (Book.empty memLevels stp symbol eventSink) r) :
    r.Disciplined ∧ ∀ q : Instruction, q.Regular → q.Allowed r → (q.run r.book).Ensures fun x =>
      Record.Disciplined ⟨q.orders ++ r.orders, r.trades ++ x.2, x.1⟩ :=
  ⟨h.disciplined, fun _ hC hq => h.next disciplined hC hq⟩

/-- A history: a post-only order rests, one that would cross is rejected, and an immediate
order takes the first and does not rest. -/
theorem disciplined_of_history_rejected : ∃ r,
    History (fun _ q => q.Regular) (Book.empty 0 .cancelResting "ABC" true) r ∧
      r.trades = [⟨3, 1, .buy, 100, 5⟩] ∧ r.book.find 2 = none ∧ r.Disciplined := by
  let qs : List Instruction := [
    .submit { id := 1, side := .sell, qty := 5, price := 100, tif := .gtx },
    .submit { id := 2, qty := 5, price := 100, flags.postOnly := true },
    .submit { id := 3, qty := 8, price := 100, tif := .ioc }]
  obtain ⟨r, hist, htrades, hfind⟩ : ∃ r, History (fun _ q => q.Regular)
      (Book.empty 0 .cancelResting "ABC" true) r ∧ r.trades = [⟨3, 1, .buy, 100, 5⟩] ∧
        r.book.find 2 = none := exists_of_replay 8 qs (by decide +kernel)
  exact ⟨r, hist, htrades, hfind, (disciplined_of_history hist).1⟩

/-- A post-only stop that fires takes a resting order, and an immediate order with a peg
rests. -/
theorem postOnly_stop_takes : ∃ r stop pegged,
    History (fun _ _ => True) (Book.empty 0 .none "ABC" true) r ∧
      stop ∈ r.orders ∧ stop.PostOnly ∧ ⟨stop.id, 2, .buy, 101, 5⟩ ∈ r.trades ∧
      pegged ∈ r.orders ∧ pegged.Immediate ∧ (r.book.find pegged.id).isSome = true ∧
      ¬ r.Disciplined := by
  let stop : Order :=
    { id := 4, qty := 5, price := 101, flags.postOnly := true,
      trigger := some { stopPrice := 100 } }
  let pegged : Order :=
    { id := 5, side := .sell, qty := 5, price := 101, tif := .ioc,
      peg := some { ref := .primary } }
  let qs : List Instruction := [
    .submit { id := 1, side := .sell, qty := 5, price := 100 },
    .submit { id := 2, side := .sell, qty := 9, price := 101 },
    .submit { id := 3, qty := 5, price := 100 },
    .submit stop, .submit pegged]
  obtain ⟨r, hist, hstop, hpegged, htrade, hfind⟩ : ∃ r, History (fun _ _ => True)
      (Book.empty 0 .none "ABC" true) r ∧ stop ∈ r.orders ∧ pegged ∈ r.orders ∧
        ⟨4, 2, .buy, 101, 5⟩ ∈ r.trades ∧ (r.book.find 5).isSome = true :=
    exists_of_replay 8 qs (by decide +kernel)
  have hpost : stop.PostOnly := .inl rfl
  exact ⟨r, stop, pegged, hist, hstop, hpost, htrade, hpegged, .inr (.inl rfl),
    hfind, fun hd => hd.1 _ htrade stop hstop hpost rfl⟩

end History

end Codicis
