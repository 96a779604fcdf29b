/-
What the orders of a book inherit.

The book does not change the traits of an order, so a property of traits (`Stable`) that
the submitted orders have is had by every order the book holds, by the orders in hand,
and by the order whose turn it is (`Moment.All`).  `Beats.induction_all` is the induction
over the beats of an operation under such a property, and `Book.Reach.induction` the induction
over a run.
-/
import Codicis.Core.Runs

namespace Codicis

/-! ### Books -/

namespace Book

/-- Every order that the book holds satisfies `Q`. -/
structure Keeps (Q : Order → Prop) (b : Book) : Prop where
  resting : ∀ id e, b.view.entry id = some e → Q e.order
  stops : ∀ id x, b.stops.lookup id = some x → Q x
  opening : ∀ x ∈ b.openingAuction, Q x
  closing : ∀ x ∈ b.closingAuction, Q x
  held : ∀ x ∈ b.frame.held, Q x

namespace Keeps

variable {Q : Order → Prop} {b b' : Book} {ms : List Mut}

lemma imp (h : b.Keeps Q) {Q' : Order → Prop} (hi : ∀ x, Q x → Q' x) : b.Keeps Q' :=
  ⟨fun id e he => hi _ (h.resting id e he), fun id x hx => hi _ (h.stops id x hx),
    fun x hx => hi _ (h.opening x hx), fun x hx => hi _ (h.closing x hx),
    fun x hx => hi _ (h.held x hx)⟩

end Keeps

end Book

/-! ### Moments -/

/-- Every order of the moment satisfies `Q`. -/
structure Moment.All (Q : Order → Prop) (m : Moment) : Prop where
  book : m.book.Keeps Q
  turn : ∀ a, m.turn = some a → Q a.order
  hand : ∀ a ∈ m.hand, Q a.order

/-- What is known of every order alike. -/
def Roles.all {Q : Order → Prop} (hQ : Stable Q) : Roles where
  of _ := Q
  resting := Q
  traits _ x y h _ := hQ.traits x y h.symm
  traits_resting {x y} h := hQ.traits x y h.symm
  enter _ h := h
  queue _ h := h
  park _ h := h
  clear h := hQ.clear _ h
  rest _ _ _ _ h := h

lemma Moment.plays_all {Q : Order → Prop} (hQ : Stable Q) {m : Moment} :
    m.Plays (.all hQ) ↔ m.All Q :=
  ⟨fun h => ⟨⟨h.resting, h.stops, h.opening, h.closing, h.held⟩, h.turn, h.hand⟩,
    fun h => ⟨h.book.resting, h.book.stops, h.book.opening, h.book.closing, h.book.held, h.turn,
      h.hand⟩⟩

/-- What is true of all orders stays so. -/
lemma Beat.all {Q : Order → Prop} (hQ : Stable Q) {m m' : Moment} {ms : List Mut}
    (h : Beat m ms m') (hm : m.All Q) : m'.All Q :=
  (Moment.plays_all hQ).1 (h.plays ((Moment.plays_all hQ).2 hm))

/-- The induction over the beats of an operation by orders that satisfy `Q`. -/
theorem Beats.induction_all {Q : Order → Prop} (hQ : Stable Q) {I : Moment → Prop}
    {R : Moment → List Mut → Moment → Prop} (hR : Composes R) {m m' : Moment} {ms : List Mut}
    (h : Beats m ms m') (hs : m.book.view.Sound) (ha : m.All Q) (h₀ : I m)
    (hstep : ∀ m ms m', Beat m ms m' → m.book.view.Sound → m.All Q → I m → I m' ∧ R m ms m') :
    m'.All Q ∧ I m' ∧ R m ms m' := by
  obtain ⟨⟨ha', hI⟩, hr⟩ := h.induction (I := fun m => m.All Q ∧ I m) hR hs ⟨ha, h₀⟩
    fun m ms m' hbeat hs hm => by
      obtain ⟨hI, hr⟩ := hstep m ms m' hbeat hs hm.1 hm.2
      exact ⟨⟨hbeat.all hQ hm.1, hI⟩, hr⟩
  exact ⟨ha', hI, hr⟩

/-! ### Runs -/

namespace Book

lemma keeps_empty (Q : Order → Prop) (memLevels : ℕ) (stp : StpPolicy) (symbol : Symbol)
    (eventSink : Bool) : (empty memLevels stp symbol eventSink).Keeps Q where
  resting id e he := absurd he (by simp [view, empty])
  stops id x hx := absurd hx (by simp [empty])
  opening x hx := absurd hx List.not_mem_nil
  closing x hx := absurd hx List.not_mem_nil
  held x hx := absurd hx List.not_mem_nil

/-- A book keeps what is known of the identifiers that are live. -/
lemma keeps_ids {b : Book} (hb : WF b) {P : OrderId → Prop} (h : ∀ id, Live b id → P id) :
    b.Keeps fun x => P x.id := by
  have hwait : ∀ x ∈ b.frame.waiting, P x.id := fun x hx => h _ (.inr ⟨x, hx, rfl⟩)
  refine ⟨fun id e he => ?_, fun id x hx => hwait x ?_, fun x hx => hwait x ?_,
    fun x hx => hwait x ?_, fun x hx => hwait x ?_⟩
  · have hid : e.order.id = id := hb.sound.id_eq id e he
    exact h _ (.inl (by simp [hid, he]))
  all_goals simp only [Frame.waiting, List.mem_append]
  · exact .inl (List.mem_map.2 ⟨_, Map.mem_pairs.2 hx, rfl⟩)
  · exact .inr (.inl hx)
  · exact .inr (.inr (.inl hx))
  · exact .inr (.inr (.inr hx))

/-- The orders that trade in an operation were live, or in hand. -/
lemma Step.trade_ids {b b' : Book} {new : List Active} {ms : List Mut} (hst : Step b new ms b')
    (hb : WF b) {t : Trade} (ht : t ∈ Mut.trades ms) :
    (Live b t.makerId ∨ t.makerId ∈ idsOf new) ∧ (Live b t.takerId ∨ t.takerId ∈ idsOf new) := by
  let P : OrderId → Prop := fun id => Live b id ∨ id ∈ idsOf new
  have hQ : Stable fun x => P x.id :=
    ⟨fun x y h hx => Order.id_eq_of_traits h ▸ hx, fun x hx => hx⟩
  refine (hst.beats.induction_all hQ (I := fun _ => True)
    (composes_trades fun t => P t.makerId ∧ P t.takerId) hb.sound
    ⟨keeps_ids hb fun id hid => .inl hid, by simp, fun a ha => .inr (List.mem_map_of_mem ha)⟩
    trivial fun m ms m' hph hs ha _ => ⟨trivial, fun t ht => ?_⟩).2.2 t ht
  rcases hph.trade_cases ht with ⟨a, me, q, rank, hturn, -, rfl, rfl⟩ |
    ⟨x, y, p, q, d, hx, hy, -, rfl⟩
  · have hme : m.book.view.entry me.order.id = some me := by
      cases hph.run with
      | cons hm _ => exact hm.1
    exact ⟨ha.book.resting _ me hme, ha.turn a hturn⟩
  · exact ⟨ha.hand _ hy, ha.hand _ hx⟩

/-- The orders that come to rest in an operation satisfy what all orders satisfy. -/
lemma exec_keeps {Q : Order → Prop} (hQ : Stable Q) {b b' : Book} {used : List OrderId} {op : Op}
    (hb : WF b) (hnat : op.Native) (hin : ∀ a ∈ op.inHand, Q a.order) (hop : op.Allowed used b)
    (hlive : ∀ id, Live b id → id ∈ used) (hk : b.Keeps Q) (hret : (op.exec b).Returns b') :
    ∃ ms, Step b op.inHand ms b' ∧ b'.Keeps Q ∧ ∀ e, Mut.rest e ∈ ms → Q e.order := by
  obtain ⟨ms, hst⟩ := (exec_step hb hnat hop hlive).of_returns hret
  obtain ⟨hb', -, hP⟩ := hst.beats.induction_all hQ (I := fun _ => True)
    (composes_forall fun m => ∀ e, m = .rest e → Q e.order) hb.sound ⟨hk, by simp, hin⟩ trivial
    fun m ms m' hbeat _ ha _ =>
      ⟨trivial, fun x hx e he => hbeat.rests ((Moment.plays_all hQ).2 ha) (he ▸ hx)⟩
  exact ⟨ms, hst, hb'.book, fun e he => hP _ he e rfl⟩

/-- The induction over a run of operations that do not come from storage, by orders that
satisfy `Q`. -/
theorem Reach.induction {Q : Order → Prop} (hQ : Stable Q) {C : Op → Prop}
    (hC : ∀ op, C op → op.Native ∧ ∀ a ∈ op.inHand, Q a.order) {I : Moment → Prop}
    {memLevels : ℕ} {stp : StpPolicy} {symbol : Symbol} {eventSink : Bool} {used : List OrderId}
    {b : Book} (h : Reach C (empty memLevels stp symbol eventSink) used b)
    (h₀ : I ⟨empty memLevels stp symbol eventSink, none, []⟩)
    (hstart : ∀ b op, C op → I ⟨b, none, []⟩ → I ⟨b, none, op.inHand⟩)
    (hstep : ∀ m ms m', Beat m ms m' → m.book.view.Sound → m.All Q → I m → I m') :
    b.Keeps Q ∧ I ⟨b, none, []⟩ := by
  induction h with
  | init => exact ⟨keeps_empty Q _ _ _ _, h₀⟩
  | @step used b b' op h hop hall hret ih =>
    obtain ⟨hnat, hin⟩ := hC op hop
    obtain ⟨hwf, hlive⟩ := h.wf
    obtain ⟨ms, hst⟩ := (exec_step hwf hnat hall hlive).of_returns hret
    obtain ⟨hb', hI', -⟩ := hst.beats.induction_all hQ (composes_forall fun _ => True) hwf.sound
      ⟨ih.1, by simp, hin⟩ (hstart b op hop ih.2)
      fun m ms m' hph hs ha hI => ⟨hstep m ms m' hph hs ha hI, fun _ _ => trivial⟩
    exact ⟨hb'.book, hI'⟩

end Book

end Codicis
