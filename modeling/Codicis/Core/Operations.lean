/-
What single strides do to the resting orders.

Pegged orders move, resting orders are cancelled and waiting orders dropped while no order has its
turn (`Glides`); the orders of an auction trade (`Allocates`); an order that was submitted, was
parked or is left of an auction has its turn (`Enters.advances`).
-/
import Codicis.Core.WellFormed

namespace Codicis

namespace Book

/-! ### No order has its turn -/

/-- The mutations `ms` happen while no order has its turn, and put none to rest. -/
structure Glides (b : Book) (ms : List Mut) (b' : Book) : Prop where
  cached : b.Cached → b'.Cached
  rests : ∀ e, Mut.rest e ∉ ms
  beats : ∀ hand, Beats ⟨b, none, hand⟩ ms ⟨b', none, hand⟩

section Glides

variable {b b' b'' : Book} {ms ms' : List Mut}

lemma Glides.evolves (h : Glides b ms b') : Evolves b ms b' := (h.beats []).evolves

lemma Glides.refl (b : Book) : Glides b [] b := ⟨id, by simp, fun _ => .nil _⟩

lemma Glides.trans (h : Glides b ms b') (h' : Glides b' ms' b'') : Glides b (ms ++ ms') b'' where
  cached hc := h'.cached (h.cached hc)
  rests e he := (List.mem_append.1 he).elim (h.rests e) (h'.rests e)
  beats hand := (h.beats hand).trans (h'.beats hand)

/-- Orders stop waiting, groups or caches change. -/
lemma Glides.of_wanes (hq : Quiet b b') (hseq : b'.nextSeq = b.nextSeq) (hw : Wanes b b')
    (hc : b.Cached → b'.Cached) : Glides b [] b' :=
  ⟨hc, by simp, fun _ => .single (.wane hq hseq hw)⟩

/-- The book stays well-formed if the same orders wait. -/
lemma Glides.wf (h : Glides b ms b') (hb : WF b) (hf : b'.frame = b.frame) : WF b' := by
  have hstops : b'.stops = b.stops := congrArg Frame.stops hf
  refine ⟨h.evolves.sound hb.sound, ?_, hstops ▸ hb.stop_id, h.cached hb.cached⟩
  rw [hf]
  exact ⟨hb.waits.nodup, fun o ho => h.evolves.run.entry_eq_none (hb.waits.away o ho)
    fun e he => absurd he (h.rests e), hb.waits.restable, hb.waits.normal⟩

/-- Only moves. -/
def Moves (ms : List Mut) : Prop := ∀ m ∈ ms, ∃ e p r, m = Mut.move e p r

lemma Moves.rest_notMem {ms : List Mut} (h : Moves ms) (e : Entry) : Mut.rest e ∉ ms := by
  intro he
  obtain ⟨e', p, r, h'⟩ := h _ he
  exact Mut.noConfusion h'

lemma Moves.trades {ms : List Mut} (h : Moves ms) : Mut.trades ms = [] := by
  refine List.filterMap_eq_nil_iff.2 fun m hm => ?_
  obtain ⟨e, p, r, rfl⟩ := h m hm
  rfl

lemma repricePeg_glides (hb : b.view.Sound) {id : OrderId} (hid : id ∈ b.pegged) :
    ∃ ms, Glides b ms (b.repricePeg id) ∧ Moves ms ∧ (b.repricePeg id).pegged = b.pegged := by
  -- a pegged identifier rests
  obtain ⟨e, he, hpeg⟩ := hb.pegged_ok id hid
  replace he : b.orders.lookup id = some e := he
  unfold repricePeg
  rw [he]
  dsimp only
  cases hp : b.computePegPrice e.order with
  | none => exact ⟨[], .refl b, by simp [Moves], rfl⟩
  | some np =>
    dsimp only
    split_ifs with hne
    · exact ⟨[], .refl b, by simp [Moves], rfl⟩
    · obtain rfl := hb.id_eq id e he
      obtain ⟨hev, hf⟩ := evolves_movePegged hb he np
      exact ⟨_, ⟨fun hc => hc.movePegged hb he np, by simp,
        fun _ => .single (.move hid he hp hne hev hf)⟩, by simp [Moves],
        by simp [movePegged, emitReprice]⟩

/-- Repricing moves pegged orders. -/
lemma repricePegs_glides (hb : b.view.Sound) : ∃ ms, Glides b ms b.repricePegs ∧ Moves ms := by
  have hall : ∀ (l : List OrderId) (b : Book), b.view.Sound → (∀ id ∈ l, id ∈ b.pegged) →
      ∃ ms, Glides b ms (l.foldl repricePeg b) ∧ Moves ms := by
    intro l
    induction l with
    | nil => exact fun b _ _ => ⟨[], .refl b, by simp [Moves]⟩
    | cons id l ih =>
      intro b hb hl
      obtain ⟨ms, hg, hm, hpeg⟩ := repricePeg_glides hb (hl id (by simp))
      obtain ⟨ms', hg', hm'⟩ := ih _ (hg.evolves.sound hb) fun i hi => hpeg ▸ hl i (by simp [hi])
      exact ⟨ms ++ ms', hg.trans hg', fun m hmem => (List.mem_append.1 hmem).elim (hm m) (hm' m)⟩
  exact hall _ b hb fun _ hid => (List.perm_insertionSort _ _).subset hid

/-- The mutations of a cancellation: the order leaves, and pegs may follow. -/
def Cancels (id : OrderId) (ms : List Mut) : Prop :=
  ms = [] ∨ ∃ e moves, ms = .remove e :: moves ∧ e.order.id = id ∧ Moves moves

/-- A cancellation executes nothing. -/
lemma Cancels.trades {id : OrderId} {ms : List Mut} (h : Cancels id ms) : Mut.trades ms = [] := by
  rcases h with rfl | ⟨e, moves, rfl, -, hm⟩
  · rfl
  · exact hm.trades

/-- A resting order leaves. -/
lemma removeResting_glides (hb : b.view.Sound) {e : Entry}
    (he : b.orders.lookup e.order.id = some e) :
    Glides b [.remove e] (b.removeResting e.order.id e) := by
  obtain ⟨hev, hf⟩ := evolves_removeResting hb he
  exact ⟨fun hc => hc.removeResting hb he, by simp, fun _ => .single (.remove he hev hf)⟩

lemma cancelResting_glides (hb : b.view.Sound) {id : OrderId} {e : Entry}
    (he : b.orders.lookup id = some e) :
    ∃ moves, Glides b (.remove e :: moves) (b.cancelResting id e) ∧ Moves moves := by
  obtain rfl := hb.id_eq id e he
  have hrem := removeResting_glides hb he
  unfold cancelResting
  dsimp only
  split_ifs
  · exact ⟨[], hrem, by simp [Moves]⟩
  · obtain ⟨moves, hg, hm⟩ := repricePegs_glides (hrem.evolves.sound hb)
    exact ⟨moves, hrem.trans hg, hm⟩

/-- Cancelling any identifier. -/
lemma cancel_glides (hb : b.view.Sound) (id : OrderId) :
    ∃ ms, Glides b ms (b.cancel id).1 ∧ Cancels id ms := by
  -- a waiting order is dropped, or a resting one is cancelled
  have hcases : (Quiet b (b.cancel id).1 ∧ (b.cancel id).1.nextSeq = b.nextSeq ∧
      ∀ s, (b.cancel id).1.ladder s = b.ladder s) ∨
      ∃ e, b.orders.lookup id = some e ∧ (b.cancel id).1 = b.cancelResting id e := by
    unfold cancel
    split
    · exact .inl ⟨⟨rfl, rfl, rfl, rfl, rfl⟩, rfl, fun _ => rfl⟩
    · split_ifs
      · exact .inl ⟨⟨rfl, rfl, rfl, rfl, rfl⟩, rfl, fun _ => rfl⟩
      · exact .inl ⟨⟨rfl, rfl, rfl, rfl, rfl⟩, rfl, fun _ => rfl⟩
      · cases he : b.orders.lookup id with
        | none => exact .inl ⟨⟨rfl, rfl, rfl, rfl, rfl⟩, rfl, fun _ => rfl⟩
        | some e => exact .inr ⟨e, rfl, rfl⟩
  rcases hcases with ⟨hq, hseq, hl⟩ | ⟨e, he, hcancel⟩
  · exact ⟨[], .of_wanes hq hseq (wanes_cancel b id) fun hc => hc.of_ladder hl, .inl rfl⟩
  · obtain ⟨moves, hg, hm⟩ := cancelResting_glides hb he
    rw [hcancel]
    exact ⟨_, hg, .inr ⟨e, moves, rfl, hb.id_eq id e he, hm⟩⟩

lemma trailed_glides (b : Book) : Glides b [] b.trailed := by
  have hq : Quiet b b.trailed ∧ b.trailed.nextSeq = b.nextSeq ∧
      ∀ s, b.trailed.ladder s = b.ladder s := by
    unfold trailed
    split_ifs <;> exact ⟨⟨rfl, rfl, rfl, rfl, rfl⟩, rfl, fun _ => rfl⟩
  exact .of_wanes hq.1 hq.2.1 (wanes_trailed b) fun hc => hc.of_ladder hq.2.2

end Glides

/-! ### Auctions -/

/-- A list of orders taken out of the book, to be worked on in place. -/
structure Taken (v : View) (queue : List Order) : Prop where
  away : ∀ o ∈ queue, v.entry o.id = none
  leaves : ∀ o ∈ queue, 0 ≤ o.leaves

/-- What the executions of an auction do to the book, the orders of the queue and the
list of executions. -/
structure Allocates (r : Book × List Order × List Trade) (ms : List Mut)
    (r' : Book × List Order × List Trade) : Prop where
  ladder : ∀ s, r'.1.ladder s = r.1.ladder s
  trades : r'.2.2 = r.2.2 ++ Mut.trades ms
  beats : ∀ hand, Beats ⟨r.1, none, auctioned r.2.1 ++ hand⟩ ms
    ⟨r'.1, none, auctioned r'.2.1 ++ hand⟩

/-- Two orders of the queue trade. -/
lemma dealAt_allocates {r : Book × List Order × List Trade} {p q : ℤ} {bi si : ℕ}
    (hr : Taken r.1.view r.2.1) (hbi : bi < r.2.1.length) (hsi : si < r.2.1.length)
    (hbs : (queued r.2.1 bi).side = .buy) (hss : (queued r.2.1 si).side = .sell)
    (hq : 0 ≤ q) (hqx : q ≤ (queued r.2.1 bi).leaves) (hqy : q ≤ (queued r.2.1 si).leaves) :
    (∃ m, Allocates r [m] (dealAt p bi si q r)) ∧
      Taken (dealAt p bi si q r).1.view (dealAt p bi si q r).2.1 := by
  have hx := queued_mem hbi
  have hy := queued_mem hsi
  have hv := view_dealAt p bi si q r
  have hf : (dealAt p bi si q r).1.frame = r.1.frame := by simp [dealAt, emitTrade]
  have hev : Evolves r.1 [.cross ⟨(queued r.2.1 bi).id, (queued r.2.1 si).id, .buy, p, q⟩
      (if (queued r.2.1 si).flags.hidden = true then 0 else q)] (dealAt p bi si q r).1 := by
    refine .single ⟨hr.away _ hy, hq⟩ hv ?_ (by simp [dealAt, emitTrade, Mut.requeued]) hf
      (fun _ => id)
    simp only [dealAt, applyPosition_keeps, events_emitTrade]
    rfl
  refine ⟨⟨_, by simp [dealAt, emitTrade], rfl,
    fun hand => .single (.cross _ hbi hsi hbs hss hq hqx hqy hev hf)⟩, fun o ho => ?_,
    fun o ho => ?_⟩
  · have hid : o.id ∈ r.2.1.map (·.id) :=
      map_id_of_base (map_base_dealAt p bi si q r) ▸ List.mem_map_of_mem ho
    obtain ⟨o', ho', hid⟩ := List.mem_map.1 hid
    rw [hv, ← hid]
    exact hr.away o' ho'
  · rcases List.mem_or_eq_of_mem_set ho with ho | rfl
    · rcases List.mem_or_eq_of_mem_set ho with ho | rfl
      · exact hr.leaves o ho
      · exact sub_nonneg.2 hqx
    · exact sub_nonneg.2 hqy

/-- The executions at the clearing price. -/
lemma auctionPhase_allocates {b : Book} {queue : List Order} (hq : Taken b.view queue) :
    ∃ ms, Allocates (b, queue, []) ms (b.auctionPhase queue) := by
  refine auctionPhase_induct (P := fun r r' => Taken r.1.view r.2.1 → ∃ ms, Allocates r ms r')
    (fun r _ => ⟨[], fun _ => rfl, by simp, fun _ => .nil _⟩) ?_ ?_ b queue hq
  · intro p bi si q r r' hbi hsi hbs hss hqx hqy hpos ih hr
    have h0 := hpos (hr.leaves _ (queued_mem hbi)) (hr.leaves _ (queued_mem hsi))
    obtain ⟨⟨m, h⟩, hr'⟩ := dealAt_allocates hr hbi hsi hbs hss h0 hqx hqy (p := p)
    obtain ⟨ms, h'⟩ := ih hr'
    exact ⟨[m] ++ ms, fun s => (h'.ladder s).trans (h.ladder s),
      by rw [h'.trades, h.trades, Mut.trades_append, List.append_assoc],
      fun hand => (h.beats hand).trans (h'.beats hand)⟩
  · intro r r' p ih hr
    obtain ⟨ms, h⟩ := ih hr
    have hlast : Glides r'.1 [] (r'.1.setLast p) :=
      .of_wanes ⟨rfl, rfl, rfl, rfl, rfl⟩ rfl (.of_frame rfl) fun hc => hc.of_ladder fun _ => rfl
    exact ⟨ms ++ [], h.ladder, by simpa using h.trades,
      fun hand => (h.beats hand).trans (hlast.beats _)⟩

/-! ### Turns -/

/-- What a stride does to the resting orders and the orders in hand. -/
structure Advances (s : Stage) (ms : List Mut) (s' : Stage) : Prop where
  cached : s'.book.Cached
  beats : Beats ⟨s.book, none, s.hand⟩ ms ⟨s'.book, none, s'.hand⟩

section Turns

variable {b b₁ b' : Book} {hand hand' : List Active} {k k' : Marks} {s s' s'' : Stage}
  {ms ms' : List Mut}

lemma Advances.evolves (h : Advances s ms s') : Evolves s.book ms s'.book := h.beats.evolves

/-- Only orders that were idle come to rest. -/
lemma Advances.rests (h : Advances s ms s') (e : Entry) (he : Mut.rest e ∈ ms) :
    e.order.id ∈ s.idle :=
  h.beats.handled (P := (· ∈ s.idle)) (plays_ids (fun x hx => mem_idle.2 (.inl ⟨x, hx, rfl⟩))
    fun _ ha => mem_idle.2 (.inr (List.mem_map_of_mem ha))) _ he

lemma Advances.trans (h : Advances s ms s') (h' : Advances s' ms' s'') :
    Advances s (ms ++ ms') s'' := ⟨h'.cached, h.beats.trans h'.beats⟩

lemma Glides.advances (h : Glides b ms b') (hc : b.Cached) :
    Advances ⟨b, hand, k⟩ ms ⟨b', hand, k'⟩ := ⟨h.cached hc, h.beats hand⟩

/-- An order that has come in hand has its turn. -/
lemma Enters.advances {x x' : Order} {r : Route} {pre sw tail : List Mut}
    (h : Enters b₁ x sw tail b' x') (hn : x.Normal) (hr : r ≠ .submitted) (hc : b₁.Cached)
    (hbeats : Beats ⟨b, none, hand⟩ pre ⟨b₁, some ⟨x, r⟩, hand'⟩) :
    Advances ⟨b, hand, k⟩ (pre ++ (sw ++ tail)) ⟨b', hand', k'⟩ :=
  ⟨h.cached hc, hbeats.trans (h.beats hn r hand' hr)⟩

end Turns

end Book

end Codicis
