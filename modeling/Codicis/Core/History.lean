/-
Runs with their history.

A `Record` is a book together with the orders that were submitted to it and the
executions that its operations returned.  A `History` is a run of instructions, each of which
meets a condition on the record before it.  The orders that the book works with are the
submitted ones (`Order.Among`), whatever has been filled, repriced or cleared of them
since, and the identifiers of the submitted orders tell them apart.
-/
import Codicis.Core.Inherit
import Codicis.Lib.Machine

namespace Codicis

/-- A book, the orders that were submitted to it, the latest first, and its executions. -/
structure Record where
  orders : List Order
  trades : List Trade
  book : Book

/-- The identifiers that were used. -/
def Record.ids (r : Record) : List OrderId := r.orders.map (·.id)

/-- A submitted order has an identifier of its own, and does not ask for a negative slice. -/
def Instruction.Allowed (r : Record) : Instruction → Prop
  | submit o => o.id ∉ r.ids ∧ 0 ≤ o.displayQty
  | _ => True

instance (r : Record) (q : Instruction) : Decidable (q.Allowed r) :=
  match q with
  | .submit _ => inferInstanceAs (Decidable (_ ∧ _))
  | .cancel _ | .expire _ | .runOpeningAuction | .runClosingAuction | .seedPosition _ _ =>
    inferInstanceAs (Decidable True)

/-- The record is reached from a book by instructions that satisfy `C`.  Its numbers are exact: the
histories are those of the code in which no number overflows its 64 bits. -/
inductive History (C : Record → Instruction → Prop) (b₀ : Book) : Record → Prop
  | init : History C b₀ ⟨[], [], b₀⟩
  | step {r : Record} {q : Instruction} {b' : Book} {ts : List Trade} (h : History C b₀ r)
      (hC : C r q) (hq : q.Allowed r) (hret : (q.run r.book).Returns (b', ts)) :
      History C b₀ ⟨q.orders ++ r.orders, r.trades ++ ts, b'⟩

/-- Answer the instructions of a list, each one allowed and met by the condition, within `n`
rounds of each loop. -/
def Record.replay (C : Record → Instruction → Prop) [∀ r q, Decidable (C r q)] (n : ℕ) :
    Record → List Instruction → Option Record
  | r, [] => some r
  | r, q :: qs =>
    if C r q ∧ q.Allowed r then
      ((q.run r.book).run n).bind fun x =>
        replay C n ⟨q.orders ++ r.orders, r.trades ++ x.2, x.1⟩ qs
    else none

lemma History.of_replay {C : Record → Instruction → Prop} [∀ r q, Decidable (C r q)]
    {b₀ : Book} {n : ℕ}
    {qs : List Instruction} {r r' : Record} (h : History C b₀ r) (hr : r.replay C n qs = some r') :
    History C b₀ r' := by
  induction qs generalizing r with
  | nil => exact Option.some.inj hr ▸ h
  | cons q qs ih =>
    rw [Record.replay] at hr
    split_ifs at hr with hq
    obtain ⟨x, hx, hr⟩ := Option.bind_eq_some_iff.1 hr
    exact ih (.step h hq.1 hq.2 ⟨n, hx⟩) hr

/-- A history that is evaluated, with what is observed of its record. -/
lemma History.exists_of_replay {C : Record → Instruction → Prop} [∀ r q, Decidable (C r q)]
    {b₀ : Book} {P : Record → Prop} [DecidablePred P] (n : ℕ) (qs : List Instruction)
    (h : (Record.replay C n ⟨[], [], b₀⟩ qs).any (fun r => decide (P r)) = true) :
    ∃ r, History C b₀ r ∧ P r := by
  obtain ⟨r, hr, hP⟩ := (Option.any_eq_true _ _).1 h
  exact ⟨r, .of_replay .init hr, of_decide_eq_true hP⟩

/-- The same, with what is returned in the end. -/
lemma History.exists_of_run {C : Record → Instruction → Prop} [∀ r q, Decidable (C r q)]
    {b₀ : Book} {α : Type} {m : Record → Comp α} {P : Record → α → Prop} [∀ r x, Decidable (P r x)]
    (n : ℕ) (qs : List Instruction) (h : (Record.replay C n ⟨[], [], b₀⟩ qs).any (fun r =>
      ((m r).run n).any fun x => decide (P r x)) = true) :
    ∃ r x, History C b₀ r ∧ (m r).Returns x ∧ P r x := by
  obtain ⟨r, hr, h⟩ := (Option.any_eq_true _ _).1 h
  obtain ⟨x, hx, hP⟩ := (Option.any_eq_true _ _).1 h
  exact ⟨r, x, .of_replay .init hr, ⟨n, hx⟩, of_decide_eq_true hP⟩

/-- Answer an instruction and keep the record. -/
def Record.step (r : Record) (q : Instruction) : Comp Record :=
  q.run r.book >>= fun x => pure ⟨q.orders ++ r.orders, r.trades ++ x.2, x.1⟩

lemma Record.returns_step {r r' : Record} {q : Instruction} :
    (r.step q).Returns r' ↔ ∃ x, (q.run r.book).Returns x ∧
      ⟨q.orders ++ r.orders, r.trades ++ x.2, x.1⟩ = r' := by
  simp only [step, Comp.returns_bind, Comp.returns_pure]

/-- The record of a book without orders. -/
def Record.start (memLevels : ℕ) (stp : StpPolicy) (symbol : Symbol) (eventSink : Bool) : Record :=
  ⟨[], [], Book.empty memLevels stp symbol eventSink⟩

/-! ### The submitted orders -/

/-- What the book does not change of an order. -/
def Order.nature (o : Order) : Order := { o.traits with flags := o.traits.flags.clearAuction }

/-- The order is one of `os`, whatever has become of it. -/
def Order.Among (os : List Order) (x : Order) : Prop := ∃ o ∈ os, x.nature = o.nature

lemma Order.nature_clear (o : Order) :
    ({ o with flags := o.flags.clearAuction } : Order).nature = o.nature := by
  unfold nature traits
  cases o.tif <;> rfl

lemma Order.stable_among (os : List Order) : Stable (Order.Among os) where
  traits x y h hx := by
    obtain ⟨o, ho, hn⟩ := hx
    exact ⟨o, ho, by rw [← hn, nature, nature, h]⟩
  clear x hx := by
    obtain ⟨o, ho, hn⟩ := hx
    exact ⟨o, ho, x.nature_clear.trans hn⟩

lemma Order.among_self {os : List Order} {o : Order} (h : o ∈ os) : o.Among os := ⟨o, h, rfl⟩

lemma Order.Among.append {os : List Order} {x : Order} (h : x.Among os) (os' : List Order) :
    x.Among (os' ++ os) := by
  obtain ⟨o, ho, hn⟩ := h
  exact ⟨o, List.mem_append_right _ ho, hn⟩

lemma Order.id_of_nature {x o : Order} (h : x.nature = o.nature) : o.id = x.id := by
  have hid : x.nature.id = o.nature.id := by rw [h]
  exact hid.symm

/-- The submitted order with the identifier of a working one. -/
lemma Order.Among.of_id {os : List Order} {x o : Order} (h : x.Among os)
    (hn : (os.map Order.id).Nodup) (ho : o ∈ os) (hid : o.id = x.id) : x.nature = o.nature := by
  obtain ⟨o', ho', hx⟩ := h
  rw [hx, List.inj_on_of_nodup_map hn ho' ho ((id_of_nature hx).trans hid.symm)]

namespace Book

section Seed

variable (b : Book) (c : ClientId) (net : ℤ)

lemma nextSeq_seedPosition : (b.seedPosition c net).nextSeq = b.nextSeq := by
  unfold seedPosition
  split_ifs <;> rfl

lemma wf_seedPosition {b : Book} (hb : WF b) : WF (b.seedPosition c net) := by
  unfold seedPosition
  split_ifs
  · exact hb
  · exact ⟨hb.sound, hb.waits, hb.stop_id, fun s => by cases s <;> exact hb.cached _⟩

lemma Keeps.seedPosition {b : Book} {Q : Order → Prop} (h : b.Keeps Q) :
    (b.seedPosition c net).Keeps Q := by
  unfold Book.seedPosition
  split_ifs
  · exact h
  · exact ⟨h.resting, h.stops, h.opening, h.closing, h.held⟩

lemma live_seedPosition {id : OrderId} : Live (b.seedPosition c net) id ↔ Live b id := by
  unfold seedPosition
  split_ifs <;> rfl

end Seed

end Book

namespace Moment.Plays

variable {ρ : Roles} {b : Book}

lemma empty (ρ : Roles) (memLevels : ℕ) (stp : StpPolicy) (symbol : Symbol) (eventSink : Bool) :
    Plays ρ ⟨Book.empty memLevels stp symbol eventSink, none, []⟩ := by
  have hk := Book.keeps_empty (fun _ => False) memLevels stp symbol eventSink
  exact ⟨fun id e he => (hk.resting id e he).elim, fun id x hx => (hk.stops id x hx).elim,
    fun x hx => (hk.opening x hx).elim, fun x hx => (hk.closing x hx).elim,
    fun x hx => (hk.held x hx).elim, by simp, by simp⟩

lemma seedPosition (h : Plays ρ ⟨b, none, []⟩) (c : ClientId) (net : ℤ) :
    Plays ρ ⟨b.seedPosition c net, none, []⟩ := by
  obtain ⟨hview, hframe, -⟩ := b.seedPosition_keeps c net
  have hrun : View.Run b.view [] (b.seedPosition c net).view := hview ▸ .nil _
  exact h.evolve hrun hframe (by simp) (by simp) (by simp)

/-- An instruction has its order in hand. -/
lemma inHand (h : Plays ρ ⟨b, none, []⟩) {q : Instruction}
    (hq : ∀ o ∈ q.orders, ρ.of .submitted o) : Plays ρ ⟨b, none, q.inHand⟩ := by
  refine { h with hand := fun a ha => ?_ }
  obtain ⟨o, ho, rfl⟩ := List.mem_map.1 ha
  exact hq o ho

end Moment.Plays

/-! ### Single instructions -/

open Book in
/-- The order that an instruction submits is new to the book. -/
lemma Instruction.Allowed.fresh {r : Record} {q : Instruction} (hq : q.Allowed r)
    (hlive : ∀ id, Live r.book id → id ∈ r.ids) :
    ∀ o ∈ q.orders, ¬ Live r.book o.id ∧ 0 ≤ o.displayQty := by
  intro o ho
  cases q with
  | submit o' =>
    obtain rfl := List.mem_singleton.1 ho
    exact ⟨fun h => hq.1 (hlive _ h), hq.2⟩
  | _ => exact absurd ho List.not_mem_nil

open Book in
/-- The steps of an instruction other than a seed. -/
lemma Instruction.step {r : Record} {q : Instruction} (hb : WF r.book)
    (hlive : ∀ id, Live r.book id → id ∈ r.ids) (hs : ¬ q.Seeds) (hq : q.Allowed r) :
    (q.run r.book).Ensures fun x => ∃ ms, Step r.book q.inHand ms x.1 ∧ x.2 = Mut.trades ms :=
  q.run_step hb hs (hq.fresh hlive)

/-- A record whose book is well-formed and holds submitted orders only. -/
structure Record.Sane (r : Record) : Prop where
  wf : Book.WF r.book
  live : ∀ id, Book.Live r.book id → id ∈ r.ids
  nodup : r.ids.Nodup
  among : r.book.Keeps (Order.Among r.orders)

namespace Record.Sane

variable {r : Record} {q : Instruction}

/-- Every instruction returns. -/
lemma returns (h : r.Sane) (hq : q.Allowed r) : ∃ b' ts, (q.run r.book).Returns (b', ts) := by
  by_cases hs : q.Seeds
  · cases q with
    | seedPosition c net => exact ⟨_, _, Comp.returns_pure.2 rfl⟩
    | _ => exact hs.elim
  · obtain ⟨x, hx, -⟩ := q.step h.wf h.live hs hq
    exact ⟨x.1, x.2, hx⟩

/-- An instruction sets a position, or it is a step of the book. -/
lemma cases (h : r.Sane) (hq : q.Allowed r) {b' : Book} {ts : List Trade}
    (hret : (q.run r.book).Returns (b', ts)) :
    (∃ c net, q = .seedPosition c net ∧ b' = r.book.seedPosition c net ∧ ts = []) ∨
      ¬ q.Seeds ∧ ∃ ms, Book.Step r.book q.inHand ms b' ∧ ts = Mut.trades ms := by
  by_cases hs : q.Seeds
  · cases q with
    | seedPosition c net =>
      obtain ⟨rfl, rfl⟩ := Prod.mk.inj (Comp.returns_pure.1 hret)
      exact .inl ⟨c, net, rfl, rfl, rfl⟩
    | _ => exact hs.elim
  · exact .inr ⟨hs, (q.step h.wf h.live hs hq).of_returns hret⟩

/-- The beats of an instruction: what they keep holds after it, and a relation that composes
holds from its start to its end. -/
lemma advance (h : r.Sane) {I : Moment → Prop} {R : Moment → List Mut → Moment → Prop}
    (hR : Composes R) (hs : ¬ q.Seeds) (hq : q.Allowed r) (hI : I ⟨r.book, none, q.inHand⟩)
    (hbeat : ∀ m ms m', Beat m ms m' → m.book.view.Sound →
      m.All (Order.Among (q.orders ++ r.orders)) → I m → I m' ∧ R m ms m')
    {b' : Book} {ts : List Trade} (hret : (q.run r.book).Returns (b', ts)) :
    b'.Keeps (Order.Among (q.orders ++ r.orders)) ∧ I ⟨b', none, []⟩ ∧
      ∃ ms, R ⟨r.book, none, q.inHand⟩ ms ⟨b', none, []⟩ ∧ ts = Mut.trades ms := by
  obtain ⟨ms, hst, ht⟩ := (q.step h.wf h.live hs hq).of_returns hret
  have hall : Moment.All (Order.Among (q.orders ++ r.orders)) ⟨r.book, none, q.inHand⟩ := by
    refine ⟨h.among.imp fun _ hx => hx.append _, by simp, fun a ha => ?_⟩
    obtain ⟨o, ho, rfl⟩ := List.mem_map.1 ha
    exact Order.among_self (List.mem_append_left _ ho)
  obtain ⟨hb', hI', hr⟩ := hst.beats.induction_all
    (Order.stable_among _) hR h.wf.sound hall hI hbeat
  exact ⟨hb'.book, hI', ms, hr, ht⟩

/-- No instruction changes the settings. -/
lemma settings (h : r.Sane) (hq : q.Allowed r) {b' : Book} {ts : List Trade}
    (hret : (q.run r.book).Returns (b', ts)) : b'.settings = r.book.settings := by
  rcases h.cases hq hret with ⟨c, net, rfl, rfl, -⟩ | ⟨-, ms, hst, -⟩
  · exact congrArg Frame.settings (Book.seedPosition_keeps r.book c net).2.1
  · exact hst.evolves.settings

/-- The record after an instruction. -/
lemma next (h : r.Sane) (hq : q.Allowed r) {b' : Book} {ts : List Trade}
    (hret : (q.run r.book).Returns (b', ts)) :
    Sane ⟨q.orders ++ r.orders, r.trades ++ ts, b'⟩ := by
  have hnodup : ((q.orders ++ r.orders).map (·.id)).Nodup := by
    cases q with
    | submit o => exact List.nodup_cons.2 ⟨hq.1, h.nodup⟩
    | _ => exact h.nodup
  rcases h.cases hq hret with ⟨c, net, rfl, rfl, -⟩ | ⟨hs, ms, hst, -⟩
  · exact ⟨Book.wf_seedPosition c net h.wf,
      fun id hid => h.live id ((Book.live_seedPosition _ c net).1 hid), hnodup,
      h.among.seedPosition c net⟩
  · refine ⟨hst.wf, fun id hid => ?_, hnodup, ?_⟩
    · rw [Record.ids, List.map_append, List.mem_append]
      rcases hst.live hid with hid | hid
      · exact .inr (h.live id hid)
      · left
        cases q <;> exact hid
    · exact (h.advance (I := fun _ => True) (composes_forall fun _ => True) hs hq trivial
        (fun _ _ _ _ _ _ _ => ⟨trivial, fun _ _ => trivial⟩) hret).1

end Record.Sane

/-! ### Histories -/

namespace History

variable {C : Record → Instruction → Prop} {memLevels : ℕ} {stp : StpPolicy} {symbol : Symbol}
  {eventSink : Bool} {r : Record}

lemma sane (h : History C (Book.empty memLevels stp symbol eventSink) r) : r.Sane := by
  induction h with
  | init =>
    exact ⟨Book.wf_empty _ _ _ _, fun id hid => absurd hid (Book.not_live_empty _ _ _ _ id),
      List.nodup_nil, Book.keeps_empty _ _ _ _ _⟩
  | step h hC hq hret ih => exact ih.next hq hret

/-- A book keeps the settings it began with. -/
lemma settings (h : History C (Book.empty memLevels stp symbol eventSink) r) :
    r.book.settings = ⟨memLevels, stp, symbol, eventSink⟩ := by
  induction h with
  | init => rfl
  | step h hC hq hret ih => exact (h.sane.settings hq hret).trans ih

/-- What holds along every history holds after the next instruction. -/
lemma next {P : Record → Prop}
    (hP : ∀ {r}, History C (Book.empty memLevels stp symbol eventSink) r → P r)
    (h : History C (Book.empty memLevels stp symbol eventSink) r) {q : Instruction} (hC : C r q)
    (hq : q.Allowed r) : (q.run r.book).Ensures fun x =>
      P ⟨q.orders ++ r.orders, r.trades ++ x.2, x.1⟩ := by
  obtain ⟨b', ts, hret⟩ := h.sane.returns hq
  exact ⟨(b', ts), hret, hP (.step h hC hq hret)⟩

/-- What is asked of the orders of an instruction is true of the orders of a record. -/
lemma orders {Q : Order → Prop} (hC : ∀ r q, C r q → ∀ o ∈ q.orders, Q o)
    {b₀ : Book} (h : History C b₀ r) : ∀ o ∈ r.orders, Q o := by
  induction h with
  | init => simp
  | @step r q b' ts h hCq hq hret ih =>
    intro o ho
    exact (List.mem_append.1 ho).elim (hC r q hCq o) (ih o)

/-- A history whose instructions meet a weaker condition. -/
lemma imp {C' : Record → Instruction → Prop} (hC : ∀ r q, C r q → C' r q) {b₀ : Book}
    (h : History C b₀ r) : History C' b₀ r := by
  induction h with
  | init => exact .init
  | step _ hCq hq hret ih => exact .step ih (hC _ _ hCq) hq hret

/-- The induction over the beats of a history.  The relation `R` is told the orders submitted so
far. -/
theorem induction {I : Moment → Prop} {R : List Order → Moment → List Mut → Moment → Prop}
    (hR : ∀ os, Composes (R os)) {J : Record → Prop}
    (h : History C (Book.empty memLevels stp symbol eventSink) r)
    (hI₀ : I ⟨Book.empty memLevels stp symbol eventSink, none, []⟩)
    (hJ₀ : J ⟨[], [], Book.empty memLevels stp symbol eventSink⟩)
    (hseed : ∀ r c net, C r (.seedPosition c net) → I ⟨r.book, none, []⟩ →
      I ⟨r.book.seedPosition c net, none, []⟩)
    (hstart : ∀ r q, C r q → I ⟨r.book, none, []⟩ → I ⟨r.book, none, q.inHand⟩)
    (hbeat : ∀ os m ms m', Beat m ms m' → m.book.view.Sound → m.All (Order.Among os) → I m →
      I m' ∧ R os m ms m')
    (hJ : ∀ (r : Record) (q : Instruction) (b' : Book) (ms : List Mut), J r →
      R (q.orders ++ r.orders)
      ⟨r.book, none, q.inHand⟩ ms ⟨b', none, []⟩ →
      J ⟨q.orders ++ r.orders, r.trades ++ Mut.trades ms, b'⟩)
    (hJseed : ∀ r c net, J r → J ⟨r.orders, r.trades, r.book.seedPosition c net⟩) :
    I ⟨r.book, none, []⟩ ∧ J r := by
  induction h with
  | init => exact ⟨hI₀, hJ₀⟩
  | @step r q b' ts h hC hq hret ih =>
    obtain ⟨hI, hJr⟩ := ih
    rcases h.sane.cases hq hret with ⟨c, net, rfl, rfl, rfl⟩ | ⟨hs, -⟩
    · refine ⟨hseed r c net hC hI, ?_⟩
      rw [List.append_nil]
      exact hJseed r c net hJr
    · obtain ⟨-, hI', ms, hr, rfl⟩ := h.sane.advance (hR _) hs hq (hstart r q hC hI) (hbeat _) hret
      exact ⟨hI', hJ r q b' ms hJr hr⟩

/-- What every beat keeps holds along a history. -/
theorem keeps_of_beats {I : Moment → Prop}
    (h : History C (Book.empty memLevels stp symbol eventSink) r)
    (hI₀ : I ⟨Book.empty memLevels stp symbol eventSink, none, []⟩)
    (hseed : ∀ r c net, C r (.seedPosition c net) → I ⟨r.book, none, []⟩ →
      I ⟨r.book.seedPosition c net, none, []⟩)
    (hstart : ∀ r q, C r q → I ⟨r.book, none, []⟩ → I ⟨r.book, none, q.inHand⟩)
    (hbeat : ∀ m ms m', Beat m ms m' → m.book.view.Sound → I m → I m') :
    I ⟨r.book, none, []⟩ :=
  (h.induction (R := fun _ _ ms _ => ∀ m ∈ ms, True) (J := fun _ => True)
    (fun _ => composes_forall _) hI₀ trivial hseed hstart
    (fun _ m ms m' hb hv _ hI => ⟨hbeat m ms m' hb hv hI, fun _ _ => trivial⟩)
    (fun _ _ _ _ _ _ => trivial) fun _ _ _ _ => trivial).1

end History

end Codicis
