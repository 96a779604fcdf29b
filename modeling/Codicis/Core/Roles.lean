/-
What is known of an order by the place it is in.

An order is fresh from its submission until its turn ends or it is put aside, parked while it
waits for its trigger and when that has fired, queued while it waits for an auction and when the
auction has released it, and resting in the ladders.  The route of an order in hand names the
first of these places.  A system of properties, one for each place, that agrees with what the book
does to an order on the way from one to the next (`Roles`) is kept by every beat (`Beat.plays`).
-/
import Codicis.Core.Sweep

namespace Codicis

open Book

/-! ### Resting orders -/

/-- A resting order was put to rest, or rested before, with the same traits. -/
lemma View.Run.entry_inherits {v v' : View} {ms : List Mut} (h : View.Run v ms v') {id : OrderId}
    {e' : Entry} (he : v'.entry id = some e') :
    (∃ e, v.entry id = some e ∧ e'.order.traits = e.order.traits) ∨
      ∃ e, Mut.rest e ∈ ms ∧ e'.order.traits = e.order.traits := by
  induction h with
  | nil v => exact .inl ⟨e', he, rfl⟩
  | cons hm _ ih =>
    rcases ih he with ⟨e, he₁, htr⟩ | ⟨e, he₁, htr⟩
    · rcases Mut.entry_cases hm he₁ with h | ⟨rfl, -⟩ | ⟨_, me, _, _, -, -, h, rfl | ⟨-, rfl⟩⟩ |
        ⟨e₀, _, _, -, -, h, rfl⟩
      · exact .inl ⟨e, h, htr⟩
      · exact .inr ⟨e, List.mem_cons_self, htr⟩
      · exact .inl ⟨me, h, htr⟩
      · exact .inl ⟨me, h, htr⟩
      · exact .inl ⟨e₀, h, htr⟩
    · exact .inr ⟨e, List.mem_cons_of_mem _ he₁, htr⟩

/-- An order that has a peg price is pegged. -/
lemma Book.peg_of_computePegPrice {b : Book} {x : Order} {p : ℤ}
    (h : b.computePegPrice x = some p) : x.peg.isSome = true := by
  unfold computePegPrice at h
  cases hp : x.peg with
  | none => simp [hp] at h
  | some t => rfl

/-! ### Roles -/

/-- What is known of an order by the place it is in. -/
structure Roles where
  of : Route → Order → Prop
  resting : Order → Prop
  -- an order that is still to be submitted is not filled either
  traits : ∀ r {x y : Order}, y.traits = x.traits → (r = .submitted → y.filled = x.filled) →
    of r x → of r y
  traits_resting : ∀ {x y : Order}, y.traits = x.traits → resting x → resting y
  enter : ∀ {b : Book} {x : Order}, Admitted b x → of .submitted x → of .entered x
  queue : ∀ {x : Order}, isOpeningAuction x.flags = true ∨ isClosingAuction x.flags = true →
    of .submitted x → of .auctioned x
  park : ∀ {x : Order}, awaitsTrigger x = true → of .submitted x → of .triggered x
  clear : ∀ {x : Order}, of .auctioned x → of .auctioned { x with flags := x.flags.clearAuction }
  rest : ∀ r {x : Order}, x.Normal → (discards x = false ∧ r ≠ .submitted) ∨
    (x.peg.isSome = true ∧ r = .submitted) → of r x → resting x

/-- Every order of the moment plays its role. -/
structure Moment.Plays (ρ : Roles) (m : Moment) : Prop where
  resting : ∀ id e, m.book.view.entry id = some e → ρ.resting e.order
  stops : ∀ id x, m.book.stops.lookup id = some x → ρ.of .triggered x
  opening : ∀ x ∈ m.book.openingAuction, ρ.of .auctioned x
  closing : ∀ x ∈ m.book.closingAuction, ρ.of .auctioned x
  held : ∀ x ∈ m.book.frame.held, ρ.of .submitted x
  turn : ∀ a, m.turn = some a → ρ.of a.route a.order
  hand : ∀ a ∈ m.hand, ρ.of a.route a.order

section Plays

variable {ρ : Roles} {m m' : Moment} {ms : List Mut}

/-- The resting orders change and the others wait on. -/
lemma Moment.Plays.evolve {b b' : Book} {t t' : Option Active} {hand hand' : List Active}
    (h : Moment.Plays ρ ⟨b, t, hand⟩) (hrun : View.Run b.view ms b'.view)
    (hf : b'.frame = b.frame)
    (hrest : ∀ e, Mut.rest e ∈ ms → ρ.resting e.order)
    (ht : ∀ a, t' = some a → ρ.of a.route a.order) (hh : ∀ a ∈ hand', ρ.of a.route a.order) :
    Moment.Plays ρ ⟨b', t', hand'⟩ := by
  obtain ⟨hstops, hopen, hclose⟩ := Book.waiting_of_frame hf
  refine ⟨fun id e he => ?_, fun id x hx => h.stops id x (hstops ▸ hx),
    fun x hx => h.opening x (hopen ▸ hx), fun x hx => h.closing x (hclose ▸ hx),
    fun x hx => h.held x (hf ▸ hx), ht, hh⟩
  rcases hrun.entry_inherits he with ⟨e₀, he₀, htr⟩ | ⟨e₀, he₀, htr⟩
  · exact ρ.traits_resting htr (h.resting id e₀ he₀)
  · exact ρ.traits_resting htr (hrest e₀ he₀)

/-- An order comes to rest when it has its turn. -/
lemma Beat.rests (h : Beat m ms m') (hm : m.Plays ρ) {e : Entry} (he : Mut.rest e ∈ ms) :
    ρ.resting e.order := by
  cases h with
  | rest ev hl hd hn hnew htail hev hf =>
    rw [htail.rest_mem he]
    exact ρ.rest _ hn (hd.imp_left fun h => ⟨h.1, h.2.1⟩) (hm.turn _ rfl)
  | _ => simp at he

/-- Every beat keeps the roles. -/
theorem Beat.plays (h : Beat m ms m') (hm : m.Plays ρ) : m'.Plays ρ := by
  have hrests := fun e he => h.rests hm (e := e) he
  obtain ⟨hrest, hstop, hopen, hclose, hheld, hturn, hhand⟩ := id hm
  have htail : ∀ {a : Active} {hand : List Active}, (∀ x ∈ a :: hand, ρ.of x.route x.order) →
      ∀ x ∈ hand, ρ.of x.route x.order := fun h x hx => h x (List.mem_cons_of_mem _ hx)
  have hsome : ∀ {a : Active}, ρ.of a.route a.order → ∀ c, some a = some c → ρ.of c.route c.order :=
    fun ha c hc => Option.some.inj hc ▸ ha
  have hjoin : ∀ {as as' : List Active}, (∀ x ∈ as, ρ.of x.route x.order) →
      (∀ x ∈ as', ρ.of x.route x.order) → ∀ x ∈ as ++ as', ρ.of x.route x.order :=
    fun h h' => List.forall_mem_append.2 ⟨h, h'⟩
  cases h with
  | wane hq hseq hw =>
    refine ⟨hq.view ▸ hrest, fun id x' hx' => ?_, fun x hx => hopen x (hw.opening.subset hx),
      fun x hx => hclose x (hw.closing.subset hx), fun x hx => hheld x (hw.held.subset hx), hturn,
      hhand⟩
    obtain ⟨x, hx, htr⟩ := hw.stops id x' hx'
    exact ρ.traits _ htr.traits_eq (by simp) (hstop id x hx)
  | refuse => exact ⟨hrest, hstop, hopen, hclose, hheld, hturn, htail hhand⟩
  | @arrive b hand o ha =>
    exact ⟨hrest, hstop, hopen, hclose, hheld, hsome (ρ.traits _ (o.traits_stamp b)
      (fun _ => (b.stamp_keeps o).2.2.1) (hhand ⟨o, .submitted⟩ List.mem_cons_self)), htail hhand⟩
  | @cap b hand o ha hr hc =>
    have hfilled := (capReduceOnly_keeps (b.stamp o) (b.reduceOnlyCapacity (b.stamp o))).2.1
    exact ⟨hrest, hstop, hopen, hclose, hheld, hsome (ρ.traits _
      (((b.stamp o).traits_capReduceOnly _).trans (o.traits_stamp b))
      (fun _ => hfilled.trans (b.stamp_keeps o).2.2.1)
      (hhand ⟨o, .submitted⟩ List.mem_cons_self)), htail hhand⟩
  | @hold b b' hand o ha hx =>
    obtain ⟨-, hq, -, hstops, hop, hcl, hsub⟩ := holdChild_spec hx
    refine ⟨hq.view ▸ hrest, fun id y hy => hstop id y (hstops ▸ hy), fun y hy =>
      hopen y (hop ▸ hy),
      fun y hy => hclose y (hcl ▸ hy), fun y hy => ?_, by simp, htail hhand⟩
    rcases List.mem_cons.1 (hsub.subset hy) with rfl | hy
    · exact ρ.traits _ (o.traits_stamp b) (fun _ => (b.stamp_keeps o).2.2.1)
        (hhand ⟨o, .submitted⟩ List.mem_cons_self)
    · exact hheld y hy
  | @queueOpening b hand x hl hx =>
    have hqueue := List.forall_mem_singleton.2 (ρ.queue (.inl hx) (hturn _ rfl))
    exact ⟨hrest, hstop, List.forall_mem_append.2 ⟨hopen, hqueue⟩, hclose, hheld, by simp, hhand⟩
  | @queueClosing b hand x hl hx =>
    have hqueue := List.forall_mem_singleton.2 (ρ.queue (.inr hx) (hturn _ rfl))
    exact ⟨hrest, hstop, hopen, List.forall_mem_append.2 ⟨hclose, hqueue⟩, hheld, by simp, hhand⟩
  | @park b hand x hx hnew hquiet =>
    refine ⟨hrest, fun id y hy => ?_, hopen, hclose, hheld, by simp, hhand⟩
    rw [Map.lookup_insert_eq] at hy
    split_ifs at hy
    · exact Option.some.inj hy ▸ ρ.traits _ (x.traits_armStop b) (by simp) (ρ.park hx (hturn _ rfl))
    · exact hstop id y hy
  | @spring b hand x hx hlast ht =>
    exact ⟨hrest, hstop, hopen, hclose, hheld, hsome (ρ.traits _
      ((b.armStop x).traits_markTriggered.trans (x.traits_armStop b)) (by simp)
      (ρ.park hx (hturn _ rfl))), hhand⟩
  | @price b hand x p haw ho hc hp =>
    exact ⟨hrest, hstop, hopen, hclose, hheld, hsome (ρ.traits _
      (x.traits_peg (peg_of_computePegPrice hp) p) (fun _ => rfl) (hturn _ rfl)), hhand⟩
  | enter hadm =>
    exact ⟨hrest, hstop, hopen, hclose, hheld, hsome (ρ.enter hadm (hturn _ rfl)), hhand⟩
  | @fill b hand x r me rest hr hl he hside hacc hst haon hev hf =>
    exact hm.evolve hev.run hf (by simp)
      (hsome (ρ.traits _ (x.traits_takeFill _) (fun h => absurd h hr) (hturn _ rfl))) hhand
  | prevent he hst hr hev hf => exact hm.evolve hev.run hf (by simp) hturn hhand
  | rest ev hl hd hn hnew htail' hev hf => exact hm.evolve hev.run hf hrests (by simp) hhand
  | finish => exact ⟨hrest, hstop, hopen, hclose, hheld, by simp, hhand⟩
  | @fire b hand id x hx hn hev =>
    have hm' : Moment.Plays ρ ⟨{ b with stops := b.stops.erase id }, none, hand⟩ := by
      exact ⟨hrest, fun id' y hy => hstop id' y (Map.lookup_of_erase hy), hopen, hclose, hheld,
        by simp, hhand⟩
    exact hm'.evolve hev.run (frame_emitEvent _ _ _ _ _) (by simp)
      (hsome (ρ.traits _ x.traits_markTriggered (by simp) (hstop id x hx))) hhand
  | @release b hand gid gr cs l hcs =>
    obtain ⟨hout, hkept⟩ := List.forall_mem_append.1 fun c hc =>
      hheld c ((held_release hcs).symm.subset hc)
    refine ⟨hrest, hstop, hopen, hclose, hkept, by simp, hjoin ?_ hhand⟩
    simp only [List.forall_mem_map]
    exact fun c hc => ρ.traits .submitted (x := c) rfl (fun _ => rfl) (hout c hc)
  | callOpening =>
    exact ⟨hrest, hstop, by simp, hclose, hheld, by simp, hjoin (List.forall_mem_map.2 hopen) hhand⟩
  | callClosing =>
    exact ⟨hrest, hstop, hopen, by simp, hheld, by simp, hjoin (List.forall_mem_map.2 hclose) hhand⟩
  | @cross b hand queue bi si p q d hbi hsi hbs hss hq hqx hqy hev hf =>
    have hqueue : ∀ x ∈ queue, ρ.of .auctioned x := fun x hx =>
      hhand ⟨x, .auctioned⟩ (List.mem_append_left _ (List.mem_map_of_mem hx))
    refine hm.evolve hev.run hf (by simp) (by simp)
      (hjoin (fun a ha => ?_) fun a ha => hhand a (List.mem_append_right _ ha))
    obtain ⟨x, hx, rfl⟩ := List.mem_map.1 ha
    rcases List.mem_or_eq_of_mem_set hx with hx | rfl
    · rcases List.mem_or_eq_of_mem_set hx with hx | rfl
      · exact hqueue x hx
      · exact ρ.traits .auctioned (Order.traits_takeFill _ _) (by simp) (hqueue _ (queued_mem hbi))
    · exact ρ.traits .auctioned (Order.traits_takeFill _ _) (by simp) (hqueue _ (queued_mem hsi))
  | @remainder b hand x hx hn =>
    exact ⟨hrest, hstop, hopen, hclose, hheld,
      hsome (ρ.clear (hhand ⟨x, .auctioned⟩ List.mem_cons_self)), htail hhand⟩
  | drop hx => exact ⟨hrest, hstop, hopen, hclose, hheld, by simp, htail hhand⟩
  | peg hev => exact hm.evolve hev.run rfl (by simp) (by simp) hhand
  | move _ _ _ _ hev hf | remove _ hev hf => exact hm.evolve hev.run hf (by simp) (by simp) hhand

end Plays

/-! ### Whose turn it can be -/

/-- The executions of a beat: the order whose turn it is fills, or two orders of an auction
trade. -/
lemma Beat.trade_cases {m m' : Moment} {ms : List Mut} (h : Beat m ms m') {t : Trade}
    (ht : t ∈ Mut.trades ms) :
    (∃ a me q rank, m.turn = some a ∧ a.route ≠ .submitted ∧ ms = [.fill a.order me q rank] ∧
      t = ⟨a.order.id, me.order.id, a.order.side, me.order.price, q⟩) ∨
    ∃ x y p q d, ⟨x, .auctioned⟩ ∈ m.hand ∧ ⟨y, .auctioned⟩ ∈ m.hand ∧
      ms = [.cross t d] ∧ t = ⟨x.id, y.id, .buy, p, q⟩ := by
  cases h with
  | @cross b hand queue bi si p q d hbi hsi hbs hss hq hqx hqy hev hf =>
    obtain rfl : t = _ := by simpa [Mut.trades, Mut.trade?] using ht
    exact .inr ⟨_, _, p, q, d, List.mem_append_left _ (List.mem_map_of_mem (queued_mem hbi)),
      List.mem_append_left _ (List.mem_map_of_mem (queued_mem hsi)), rfl, rfl⟩
  | @fill b hand x r me rest hr hl he hside hacc hst haon hev hf =>
    obtain rfl : t = _ := by simpa [Mut.trades, Mut.trade?] using ht
    exact .inl ⟨⟨x, r⟩, me, _, _, rfl, hr, rfl, rfl⟩
  | rest ev hl hd hn hnew htail hev hf =>
    rw [htail.trades] at ht
    exact absurd ht List.not_mem_nil
  | _ => simp [Mut.trades, Mut.trade?] at ht

/-- What holds of every execution. -/
lemma composes_trades (P : Trade → Prop) : Composes fun _ ms _ => ∀ t ∈ Mut.trades ms, P t where
  nil m := by simp [Mut.trades]
  append h h' t ht := by
    rw [Mut.trades_append] at ht
    exact (List.mem_append.1 ht).elim (h t) (h' t)

/-- What is known of an identifier, wherever its order waits. -/
def Roles.ids (P : OrderId → Prop) : Roles where
  of _ x := P x.id
  resting _ := True
  traits _ _ _ h _ hx := (Order.id_eq_of_traits h).symm ▸ hx
  traits_resting _ _ := trivial
  enter _ h := h
  queue _ h := h
  park _ h := h
  clear h := h
  rest _ _ _ _ _ := trivial

section Hands

variable {P : OrderId → Prop} {m m' : Moment} {ms : List Mut}

/-- The orders that can get a turn are known by their identifiers. -/
lemma plays_ids {b : Book} {hand : List Active} (hw : ∀ x ∈ b.frame.waiting, P x.id)
    (hh : ∀ a ∈ hand, P a.order.id) : Moment.Plays (.ids P) ⟨b, none, hand⟩ :=
  ⟨fun _ _ _ => trivial, fun id x hx => hw x (Frame.mem_waiting.2 (.inl ⟨id, hx⟩)),
    fun x hx => hw x (Frame.mem_waiting.2 (.inr (.inl hx))),
    fun x hx => hw x (Frame.mem_waiting.2 (.inr (.inr (.inl hx)))),
    fun x hx => hw x (Frame.mem_waiting.2 (.inr (.inr (.inr hx)))), by simp, hh⟩

/-- The orders of a moment are the only ones that come to rest, take or trade in an auction. -/
def Mut.Handled (P : OrderId → Prop) : Mut → Prop
  | .rest e => P e.order.id
  | .fill x _ _ _ => P x.id
  | .cross t _ => P t.takerId ∧ P t.makerId
  | _ => True

lemma Beat.handled (h : Beat m ms m') (hm : m.Plays (.ids P)) : ∀ x ∈ ms, x.Handled P := by
  intro mu hmu
  cases h with
  | @rest b hand x r tail ev hl hd hn hnew htail hev hf =>
    rcases htail with ⟨win, rfl, hwin⟩ | ⟨-, rfl⟩
    · rcases List.mem_cons.1 hmu with rfl | hmu
      · exact hm.turn _ rfl
      · have hw := hwin mu hmu
        cases mu <;> trivial
    · obtain rfl := List.mem_singleton.1 hmu
      trivial
  | @cross b hand queue bi si p q d hbi hsi hbs hss hq hqx hqy hev hf =>
    obtain rfl := List.mem_singleton.1 hmu
    have hqueue : ∀ x ∈ queue, P x.id := fun x hx =>
      hm.hand ⟨x, .auctioned⟩ (List.mem_append_left _ (List.mem_map_of_mem hx))
    exact ⟨hqueue _ (queued_mem hbi), hqueue _ (queued_mem hsi)⟩
  | fill =>
    obtain rfl := List.mem_singleton.1 hmu
    exact hm.turn _ rfl
  | prevent | fire | peg | move | remove =>
    obtain rfl := List.mem_singleton.1 hmu
    trivial
  | _ => exact absurd hmu List.not_mem_nil

theorem Beats.handled (h : Beats m ms m') (hm : m.Plays (.ids P)) : ∀ x ∈ ms, x.Handled P :=
  (h.invariant (composes_forall (Mut.Handled P)) hm fun _ _ _ hb hm =>
    ⟨hb.plays hm, hb.handled hm⟩).2

/-- The orders that take are among them. -/
lemma Mut.takerId_of_handled (h : ∀ x ∈ ms, x.Handled P) {t : Trade} (ht : t ∈ Mut.trades ms) :
    P t.takerId := by
  obtain ⟨m, hm, hmt⟩ := List.mem_filterMap.1 ht
  have hP := h m hm
  cases m with
  | fill x me q rank =>
    obtain rfl := Option.some.inj hmt
    exact hP
  | cross t' d =>
    obtain rfl := Option.some.inj hmt
    exact hP.1
  | _ => simp [Mut.trade?] at hmt

end Hands

end Codicis
