/-
Where the orders are, in any book.

An order rests in the book, waits outside it, or is in hand.  `Stage.idle` lists the identifiers of
the orders that wait or are in hand, as often as they occur.  `Stride.passage` says what a stride
does to them: some of the orders that were idle come to rest, some leave, and no other comes to
rest or to be idle; and the taker of every execution was idle before.  What a stride does to the
orders that rest is said along the way: they keep their traits, and a price that changes is
positive (`Joins`).
-/
import Codicis.Core.Course

namespace Codicis

namespace Book

/-! ### The orders that rest -/

/-- The resting order `x'` is what has become of `x`. -/
def Descends (x x' : Order) : Prop := x.traits = x'.traits ∧ (x.price = x'.price ∨ 0 < x'.price)

lemma Descends.refl (x : Order) : Descends x x := ⟨rfl, .inl rfl⟩

lemma Descends.trans {x y z : Order} (h : Descends x y) (h' : Descends y z) : Descends x z := by
  refine ⟨h.1.trans h'.1, ?_⟩
  rcases h'.2 with hp | hp
  · rw [← hp]
    exact h.2
  · exact .inr hp

/-- Whatever rests in `b'` rested in `b`. -/
def Thins (b b' : Book) : Prop := ∀ id e', b'.orders.lookup id = some e' →
  ∃ e, b.orders.lookup id = some e ∧ Descends e.order e'.order

/-- Whatever rests in `b'` rested in `b`, or it has come to rest under the identifier `i` and
satisfies `Q`. -/
def Joins (b : Book) (i : OrderId) (Q : Order → Prop) (b' : Book) : Prop :=
  ∀ id e', b'.orders.lookup id = some e' →
    (∃ e, b.orders.lookup id = some e ∧ Descends e.order e'.order) ∨ (id = i ∧ Q e'.order)

section Resting

variable {b b' b'' : Book} {i : OrderId} {Q : Order → Prop}

lemma Thins.of_orders (h : b'.orders = b.orders) : Thins b b' :=
  fun _ e he => ⟨e, h ▸ he, .refl _⟩

lemma Thins.trans (h : Thins b b') (h' : Thins b' b'') : Thins b b'' := by
  intro id e'' he''
  obtain ⟨e', he', hd'⟩ := h' id e'' he''
  obtain ⟨e, he, hd⟩ := h id e' he'
  exact ⟨e, he, hd.trans hd'⟩

lemma Thins.joins (h : Thins b b') : Joins b i Q b' := fun id e he => .inl (h id e he)

lemma Joins.after (h : Joins b' i Q b'') (h' : Thins b b') : Joins b i Q b'' := by
  intro id e'' he''
  rcases h id e'' he'' with ⟨e', he', hd'⟩ | hQ
  · obtain ⟨e, he, hd⟩ := h' id e' he'
    exact .inl ⟨e, he, hd.trans hd'⟩
  · exact .inr hQ

lemma Joins.imp {Q' : Order → Prop} (h : Joins b i Q b') (hQ : ∀ x, Q x → Q' x) :
    Joins b i Q' b' := fun id e he => (h id e he).imp_right (And.imp_right (hQ _))

/-- Orders that come to rest may be thinned out. -/
lemma Joins.thin (h : Joins b i Q b') (h' : Thins b' b'')
    (hQ : ∀ x x', Q x → Descends x x' → Q x') : Joins b i Q b'' := by
  intro id e'' he''
  obtain ⟨e', he', hd'⟩ := h' id e'' he''
  rcases h id e' he' with ⟨e, he, hd⟩ | ⟨hid, hx⟩
  · exact .inl ⟨e, he, hd.trans hd'⟩
  · exact .inr ⟨hid, hQ _ _ hx hd'⟩

lemma Meets.thins {o o' : Order} {tr tr' : List Trade} (h : Meets b o tr b' o' tr') :
    Thins b b' := by
  intro id e' he'
  obtain ⟨e, he, htr, hp⟩ := h.entry he'
  exact ⟨e, he, htr, .inl hp⟩

lemma thins_evictWorst (b : Book) (s : Side) (ev : List Order) :
    Thins b (b.evictWorst s ev).1 := by
  have hone : ∀ (r : Book × List Order) id, Thins r.1 (evictOrder r id).1 := by
    intro r id
    unfold evictOrder
    split
    · exact .of_orders rfl
    · intro id' e he
      simp only [eraseEntry_keeps, unpeg_keeps] at he
      exact ⟨e, Map.lookup_of_erase he, .refl _⟩
  have hfold : ∀ (l : List OrderId) (r : Book × List Order),
      Thins r.1 (l.foldl evictOrder r).1 := by
    intro l
    induction l with
    | nil => exact fun _ => .of_orders rfl
    | cons id l ih => exact fun r => (hone r id).trans (ih _)
  unfold evictWorst
  split
  · exact .of_orders rfl
  · split
    · exact .of_orders rfl
    · rename_i lvl _
      exact (hfold lvl.fifo (b, ev)).trans (.of_orders (by simp))

lemma joins_rest (b : Book) (o : Order) (ev : List Order) :
    Joins b o.id (Descends o) (b.rest o ev).1 := by
  have hplace : Joins b o.id (Descends o) ((b.place o).reserveResting o) := by
    intro id e he
    have horders : ((b.place o).reserveResting o).orders = if (b.orders.lookup o.id).isSome = true
        then b.orders else b.orders.insert o.id { order := o, slice := sliceOf o } := by
      simp only [reserveResting_keeps, place, emplaceEntry]
      split_ifs <;> simp_all
    rw [horders] at he
    split_ifs at he
    · exact .inl ⟨e, he, .refl _⟩
    · rw [Map.lookup_insert_eq] at he
      split_ifs at he with hid
      · obtain rfl := Option.some.inj he
        exact .inr ⟨hid, .refl o⟩
      · exact .inl ⟨e, he, .refl _⟩
  unfold rest
  dsimp only
  split_ifs
  · exact Thins.joins (.of_orders (by simp [emitEvent]))
  · refine hplace.thin ((thins_evictWorst _ o.side ev).trans (.of_orders ?_))
      fun _ _ h h' => h.trans h'
    simp [emitEvent]
  · exact hplace.thin (.of_orders (by simp [emitEvent])) fun _ _ h h' => h.trans h'

/-- A peg has a positive price. -/
lemma computePegPrice_pos {o : Order} {p : ℤ} (h : b.computePegPrice o = some p) : 0 < p := by
  unfold computePegPrice at h
  cases hpeg : o.peg with
  | none => simp [hpeg] at h
  | some spec =>
    rw [hpeg] at h
    dsimp only at h
    cases href : b.pegReference spec.ref o.side with
    | none => simp [href] at h
    | some ref =>
      rw [href] at h
      dsimp only at h
      generalize (if 0 < spec.capLimit then _ else ref + spec.offset) = price at h
      split_ifs at h with hle
      obtain rfl := Option.some.inj h
      exact not_le.1 hle

lemma thins_repricePeg (b : Book) (id : OrderId) : Thins b (b.repricePeg id) := by
  unfold repricePeg
  split
  · exact .of_orders (by simp)
  · rename_i e he
    cases hp : b.computePegPrice e.order with
    | none => exact .of_orders rfl
    | some p =>
      dsimp only
      split_ifs
      · exact .of_orders rfl
      · -- the order is written with its new price
        intro id' e' he'
        simp only [movePegged, emitReprice, emit_keeps, setEntry_keeps, requeue_keeps,
          modifyLevel_keeps, setLadder_keeps, unlink_keeps, Map.lookup_insert_eq] at he'
        split_ifs at he' with hid
        · obtain rfl := Option.some.inj he'
          exact ⟨e, hid ▸ he, rfl, .inr (computePegPrice_pos hp)⟩
        · exact ⟨e', he', .refl _⟩

lemma thins_repricePegs (b : Book) : Thins b b.repricePegs := by
  have hfold : ∀ (l : List OrderId) (b : Book), Thins b (l.foldl repricePeg b) := by
    intro l
    induction l with
    | nil => exact fun _ => .of_orders rfl
    | cons id l ih => exact fun b => (thins_repricePeg b id).trans (ih _)
  exact hfold _ b

lemma thins_cancel (b : Book) (id : OrderId) : Thins b (b.cancel id).1 := by
  have hremove : ∀ e, Thins b (b.removeResting id e) := by
    intro e id' e' he'
    simp only [removeResting, emitEvent, eraseEntry_keeps, unlink_keeps, releaseReserved_keeps,
      emit_keeps, unpeg_keeps] at he'
    exact ⟨e', Map.lookup_of_erase he', .refl _⟩
  unfold cancel
  split
  · exact .of_orders rfl
  · split_ifs
    · exact .of_orders rfl
    · exact .of_orders rfl
    · split
      · exact .of_orders rfl
      · unfold cancelResting
        dsimp only
        split_ifs
        · exact hremove _
        · exact (hremove _).trans (thins_repricePegs _)

/-- The resting order `y` is what is left of the order `o`, which is not discarded. -/
def Left (o y : Order) : Prop := discards o = false ∧ Descends o y

lemma Left.descend {o x x' : Order} (h : Left o x) (h' : Descends x x') : Left o x' :=
  ⟨h.1, h.2.trans h'⟩

/-- The order is matched, and it is put to rest if it is not discarded. -/
lemma joins_of_meets {o : Order} {tr : List Trade} {m : MatchResult} {c : Prop} [Decidable c]
    (hm : (b.matchOrder o tr).Returns m) (hc : c → discards m.order = false) :
    Joins b o.id (Left o) (if c then (m.book.rest m.order []).1 else m.book) := by
  have hmeet := matchOrder_meets hm
  obtain ⟨new, -, horder, -⟩ := hmeet.trades
  split_ifs with h
  · have hrest := joins_rest m.book m.order []
    have hd := hc h
    rw [horder] at hrest hd ⊢
    exact (hrest.after hmeet.thins).imp fun y hy => ⟨hd, hy⟩
  · exact hmeet.thins.joins

lemma joins_inject {o : Order} {tr : List Trade} {r : MatchResult}
    (h : (b.inject o tr).Returns r) : Joins b o.id (Left o) r.book := by
  obtain ⟨m, hm, -, -, hbook⟩ := inject_meets h
  rw [hbook]
  exact joins_of_meets hm And.right

lemma joins_afterMeet {o : Order} {m : MatchResult} (h : (b.matchOrder o []).Returns m) :
    Joins b o.id (Left o) (afterMeet m) :=
  joins_of_meets h fun hc => hc.2.2

lemma joins_submitAon (b : Book) (o : Order) : Joins b o.id (Left o) (b.submitAon o).1 := by
  unfold submitAon
  split_ifs with hd
  · exact Thins.joins (.of_orders rfl)
  · have hrest : Joins b o.id (Left o) (b.rest o []).1 := (joins_rest b o []).imp
      fun y hy => ⟨Bool.eq_false_of_not_eq_true hd, hy⟩
    exact hrest.thin (thins_repricePegs _) fun _ _ h h' => h.descend h'

/-- A pegged order comes to rest at a positive price. -/
lemma joins_submitPeg (b : Book) (o : Order) :
    Joins b o.id (fun y => 0 < y.price) (b.submitPeg o).1 := by
  unfold submitPeg
  cases hp : b.computePegPrice o with
  | none => exact Thins.joins (.of_orders rfl)
  | some price =>
    have hpos := computePegPrice_pos hp
    have hrest : Joins b o.id (fun y => 0 < y.price)
        (b.rest { o with type := .limit, price := price } []).1 :=
      (joins_rest b { o with type := .limit, price := price } []).imp
        fun y hy => hy.2.elim (fun h => h ▸ hpos) id
    dsimp only
    split_ifs
    · exact hrest
    · exact hrest

end Resting

/-! ### The orders that wait -/

section Waiting

variable {b b' : Book}

lemma Wanes.trans {b'' : Book} (h : Wanes b b') (h' : Wanes b' b'') : Wanes b b'' := by
  refine ⟨fun id x'' hx'' => ?_, h'.opening.trans h.opening, h'.closing.trans h.closing,
    h'.held.trans h.held⟩
  obtain ⟨x', hx', ht'⟩ := h'.stops id x'' hx''
  obtain ⟨x, hx, ht⟩ := h.stops id x' hx'
  exact ⟨x, hx, ht.trans ht'⟩

/-- Children may leave a group. -/
lemma wanes_setGroup {gid : ℕ} {gr : Group}
    (h : gr.children.Subperm (b.group gid).children) : Wanes b (b.setGroup gid gr) := by
  refine ⟨fun id x hx => ⟨x, hx, .refl⟩, .refl _, .refl _, ?_⟩
  rw [held_setGroup]
  exact ((List.subperm_append_right _).2 h).trans (b.held_perm gid).symm.subperm

lemma wanes_cancel (b : Book) (id : OrderId) : Wanes b (b.cancel id).1 := by
  unfold cancel
  split
  · exact wanes_eraseStop b id
  · split_ifs
    · exact ⟨fun _ x hx => ⟨x, hx, .refl⟩, List.eraseP_sublist, .refl _, .refl _⟩
    · exact ⟨fun _ x hx => ⟨x, hx, .refl⟩, .refl _, List.eraseP_sublist, .refl _⟩
    · split
      · exact .of_frame rfl
      · exact .of_frame (b.calm_cancelResting _ _).frame

lemma subperm_map {α β : Type*} (f : α → β) {l l' : List α} (h : l.Subperm l') :
    (l.map f).Subperm (l'.map f) := by
  obtain ⟨l₁, hperm, hsub⟩ := h
  exact ⟨l₁.map f, hperm.map f, hsub.map f⟩

/-- The identifiers of the orders that wait. -/
def waitingIds (b : Book) : List OrderId := b.frame.waiting.map (·.id)

lemma waitingIds_of_frame (h : b'.frame = b.frame) : b'.waitingIds = b.waitingIds := by
  unfold waitingIds
  rw [h]

/-- Stops that leave or are written anew under their identifiers. -/
lemma stopIds_subperm {m m' : Map OrderId Order}
    (h : ∀ k x', m'.lookup k = some x' → ∃ x, m.lookup k = some x ∧ x.id = x'.id) :
    ((m'.pairs.map Prod.snd).map (·.id)).Subperm ((m.pairs.map Prod.snd).map (·.id)) := by
  -- both lists are the keys under the identifiers that `m` has for them
  have hids : ∀ m₁ : Map OrderId Order,
      (∀ k x', m₁.lookup k = some x' → ∃ x, m.lookup k = some x ∧ x.id = x'.id) →
      (m₁.pairs.map Prod.snd).map (·.id)
        = m₁.keys.map fun k => ((m.lookup k).map (·.id)).getD 0 := by
    intro m₁ h₁
    rw [← Map.map_fst_pairs, List.map_map, List.map_map]
    refine List.map_congr_left fun e he => ?_
    obtain ⟨x, hx, hid⟩ := h₁ e.1 e.2 (Map.mem_pairs.1 he)
    simp [hx, hid]
  rw [hids m' h, hids m fun k x hx => ⟨x, hx, rfl⟩]
  refine subperm_map _ (List.subperm_of_subset m'.nodupKeys fun k hk => ?_)
  obtain ⟨x', hx'⟩ := Map.mem_iff_lookup.1 (AList.mem_keys.2 hk)
  obtain ⟨x, hx, -⟩ := h k x' hx'
  exact AList.mem_keys.1 (Map.mem_iff_lookup.2 ⟨x, hx⟩)

lemma Wanes.waitingIds (h : Wanes b b') : b'.waitingIds.Subperm b.waitingIds := by
  have hstops := stopIds_subperm fun k x' hx' => by
    obtain ⟨x, hx, ht⟩ := h.stops k x' hx'
    exact ⟨x, hx, by rw [ht.eq_trigger]⟩
  simp only [Book.waitingIds, Frame.waiting, List.map_append]
  refine hstops.append ((subperm_map _ h.opening.subperm).append
    ((subperm_map _ h.closing.subperm).append (subperm_map _ h.held)))

/-- The identifiers by the places where the orders wait. -/
lemma waitingIds_eq (b : Book) : b.waitingIds = (b.stops.pairs.map Prod.snd).map (·.id) ++
    (b.openingAuction.map (·.id) ++ (b.closingAuction.map (·.id) ++ b.frame.held.map (·.id))) := by
  simp only [waitingIds, Frame.waiting, List.map_append]
  rfl

lemma waitingIds_queueOpening (b : Book) (x : Order) :
    ({ b with openingAuction := b.openingAuction ++ [x] } : Book).waitingIds.Perm
      (x.id :: b.waitingIds) := by
  rw [waitingIds_eq, waitingIds_eq, List.map_append, List.append_assoc, List.map_singleton]
  exact (List.perm_middle.append_left _).trans List.perm_middle

lemma waitingIds_queueClosing (b : Book) (x : Order) :
    ({ b with closingAuction := b.closingAuction ++ [x] } : Book).waitingIds.Perm
      (x.id :: b.waitingIds) := by
  rw [waitingIds_eq, waitingIds_eq, List.map_append, List.append_assoc, List.map_singleton]
  exact (((List.perm_middle.append_left _).trans List.perm_middle).append_left _).trans
    List.perm_middle

lemma waitingIds_park {k : OrderId} (h : b.stops.lookup k = none) (x : Order) :
    ({ b with stops := b.stops.insert k x } : Book).waitingIds.Perm (x.id :: b.waitingIds) := by
  rw [waitingIds_eq, waitingIds_eq]
  exact ((Map.values_insert_perm h x).map _).append_right _

lemma waitingIds_unpark {k : OrderId} {x : Order} (h : b.stops.lookup k = some x) :
    b.waitingIds.Perm (x.id :: (b.unparked k x).waitingIds) := by
  have hframe : (b.unparked k x).frame = ({ b with stops := b.stops.erase k } : Book).frame := by
    simp only [unparked, emitEvent, emit_keeps]
  rw [waitingIds_of_frame hframe, waitingIds_eq, waitingIds_eq]
  exact (((Map.pairs_perm_of_lookup h).map Prod.snd).map _).append_right _

lemma waitingIds_hold {x : Order} (h : b.holdChild x = some b') :
    b'.waitingIds.Subperm (x.id :: b.waitingIds) := by
  obtain ⟨-, -, -, hstops, hopen, hclose, hheld⟩ := holdChild_spec h
  rw [waitingIds_eq, waitingIds_eq, hstops, hopen, hclose, ← List.append_assoc,
    ← List.append_assoc, ← List.append_assoc, ← List.append_assoc]
  refine ((List.subperm_append_left _).2 (subperm_map _ hheld)).trans ?_
  exact List.perm_middle.subperm

lemma waitingIds_callOpening (b : Book) : b.waitingIds.Perm
    (b.openingAuction.map (·.id) ++ ({ b with openingAuction := [] } : Book).waitingIds) := by
  rw [waitingIds_eq, waitingIds_eq, List.map_nil, List.nil_append]
  exact List.perm_append_comm_assoc _ _ _

lemma waitingIds_callClosing (b : Book) : b.waitingIds.Perm
    (b.closingAuction.map (·.id) ++ ({ b with closingAuction := [] } : Book).waitingIds) := by
  rw [waitingIds_eq, waitingIds_eq, List.map_nil, List.nil_append]
  exact ((List.perm_append_comm_assoc _ _ _).append_left _).trans
    (List.perm_append_comm_assoc _ _ _)

end Waiting

/-! ### What a stride does -/

/-- The identifiers of the orders that wait or are in hand. -/
def Stage.idle (s : Stage) : List OrderId := s.book.waitingIds ++ s.hand.map (·.order.id)

/-- Of the orders that wait or are in hand, those under the identifiers `l` come to rest, and the
others stay idle or leave. -/
structure Passage (s : Stage) (ts : List Trade) (l : List OrderId) (s' : Stage) : Prop where
  idle : (l ++ s'.idle).Subperm s.idle
  resting : ∀ id e', s'.book.orders.lookup id = some e' →
    (∃ e, s.book.orders.lookup id = some e) ∨ id ∈ l
  takers : ∀ t ∈ ts, t.takerId ∈ s.idle

section Passage

variable {b b' : Book} {a : Active} {hand : List Active} {k k' : Marks} {ts : List Trade}
  {l : List OrderId}

/-- Nothing comes to rest and nobody trades. -/
lemma Passage.of_thins {s s' : Stage} (hi : s'.idle.Subperm s.idle) (ht : Thins s.book s'.book) :
    Passage s [] [] s' := by
  refine ⟨by simpa using hi, fun id e he => .inl ?_, by simp⟩
  obtain ⟨e₀, he₀, -⟩ := ht id e he
  exact ⟨e₀, he₀⟩

/-- Orders that waited are taken in hand. -/
lemma Passage.of_taken {taken : List Active}
    (hw : b.waitingIds.Perm (taken.map (·.order.id) ++ b'.waitingIds)) (ho : b'.orders = b.orders) :
    Passage ⟨b, hand, k⟩ [] [] ⟨b', taken ++ hand, k'⟩ := by
  refine .of_thins ?_ (.of_orders ho)
  show (b'.waitingIds ++ (taken ++ hand).map (·.order.id)).Subperm
    (b.waitingIds ++ hand.map (·.order.id))
  rw [List.map_append, ← List.append_assoc]
  exact ((List.perm_append_comm.trans hw.symm).append_right _).subperm

/-- An order in hand has its turn. -/
lemma Passage.of_turn (hw : (l ++ b'.waitingIds).Subperm (a.order.id :: b.waitingIds))
    (hr : ∀ id e', b'.orders.lookup id = some e' →
      (∃ e, b.orders.lookup id = some e) ∨ id ∈ l)
    (ht : ∀ t ∈ ts, t.takerId = a.order.id) : Passage ⟨b, a :: hand, k⟩ ts l ⟨b', hand, k'⟩ := by
  refine ⟨?_, hr, fun t h => ?_⟩
  · show (l ++ (b'.waitingIds ++ hand.map (·.order.id))).Subperm
      (b.waitingIds ++ (a.order.id :: hand.map (·.order.id)))
    rw [← List.append_assoc]
    exact ((List.subperm_append_right _).2 hw).trans List.perm_middle.symm.subperm
  · rw [ht t h]
    simp [Stage.idle]

/-- An order in hand may come to rest in a book in which the same orders wait. -/
lemma Passage.of_joins {i : OrderId} {Q : Order → Prop} (hi : i = a.order.id)
    (hf : b'.frame = b.frame) (hj : Joins b i Q b') (ht : ∀ t ∈ ts, t.takerId = a.order.id) :
    Passage ⟨b, a :: hand, k⟩ ts [a.order.id] ⟨b', hand, k'⟩ := by
  refine .of_turn ?_ (fun id e he => ?_) ht
  · rw [waitingIds_of_frame hf]
    exact .refl _
  · rcases hj id e he with ⟨e₀, he₀, -⟩ | ⟨hid, -⟩
    · exact .inl ⟨e₀, he₀⟩
    · exact .inr (by simp [hid, hi])

lemma frame_afterMeet {o : Order} {tr : List Trade} {m : MatchResult}
    (h : (b.matchOrder o tr).Returns m) : (afterMeet m).frame = b.frame := by
  unfold afterMeet
  split_ifs
  · rw [frame_rest, (matchOrder_meets h).frame]
  · exact (matchOrder_meets h).frame

/-- The executions of an order that is matched are its own. -/
lemma takerId_of_meets {o : Order} {tr ts : List Trade} {m : MatchResult}
    (hm : (b.matchOrder o tr).Returns m) (hts : m.trades = tr ++ ts) :
    ∀ t ∈ ts, t.takerId = o.id := by
  obtain ⟨new, hnew, -, htaker⟩ := (matchOrder_meets hm).trades
  obtain rfl := List.append_cancel_left (hts.symm.trans hnew)
  exact fun t ht => (htaker t ht).1

/-- What a stride does to the orders that rest, wait or are in hand. -/
theorem Stride.passage {A : Book → Order → Prop} {s s' : Stage} (h : Stride A s ts s') :
    ∃ l, Passage s ts l s' := by
  cases h with
  | @answer b o hand k r hA h =>
    have ho := h.answered_keeps.2.1
    refine ⟨[], .of_turn ?_ (fun id e he => .inl ⟨e, ho ▸ he⟩) (by simp)⟩
    rw [← (stamp_keeps b o).1]
    -- the order comes to wait, or it is dropped
    cases h with
    | refused reason => exact (List.sublist_cons_self _ _).subperm
    | declined _ reason =>
      rw [List.nil_append, waitingIds_of_frame (looked_keeps b o).1]
      exact (List.sublist_cons_self _ _).subperm
    | opening _ _ => exact (waitingIds_queueOpening b.ticked (b.stamp o)).subperm
    | closing _ _ => exact (waitingIds_queueClosing b.ticked (b.stamp o)).subperm
    | held _ hx => exact @waitingIds_hold b.ticked _ _ hx
  | @aon b b' o x hand k hA h =>
    obtain ⟨hf, ho, htr, -⟩ := h.keeps rfl
    exact ⟨_, .of_joins (Order.id_eq_of_traits htr) ((frame_submitAon b' x).trans hf)
      ((joins_submitAon b' x).after (.of_orders ho)) (by simp)⟩
  | @peg b b' o x hand k hA h =>
    obtain ⟨hf, ho, htr, -⟩ := h.keeps rfl
    exact ⟨_, .of_joins (Order.id_eq_of_traits htr) ((frame_submitPeg b' x).trans hf)
      ((joins_submitPeg b' x).after (.of_orders ho)) (by simp)⟩
  | @park b b' o x hand k hA h hq =>
    obtain ⟨hf, ho, htr, -⟩ := h.keeps rfl
    have hid : (b'.armStop x).id = o.id := Order.id_eq_of_traits ((x.traits_armStop b').trans htr)
    have hnew : b'.stops.lookup o.id = none := by
      cases h with
      | stop h _ => exact h.parked
    refine ⟨[], .of_turn ?_ (fun id e he => .inl ⟨e, ho ▸ he⟩) (by simp)⟩
    have hpark := waitingIds_park hnew (b'.armStop x)
    rw [hid, waitingIds_of_frame hf] at hpark
    rw [hid]
    exact hpark.subperm
  | @spring b b' o x hand k m hA h hl ht hm =>
    obtain ⟨hf, ho, htr, -⟩ := h.keeps rfl
    have hid : (b'.armStop x).id = o.id := Order.id_eq_of_traits ((x.traits_armStop b').trans htr)
    obtain ⟨m', hm', -, htrades, -⟩ := inject_meets hm
    refine ⟨_, .of_joins hid ((inject_frame hm).trans hf) ((joins_inject hm).after (.of_orders ho))
      fun t hmem => ?_⟩
    rw [takerId_of_meets hm' (List.nil_append m'.trades).symm t (htrades ▸ hmem)]
    exact hid
  | @meet b b' o x hand k m hA h hm =>
    obtain ⟨hf, ho, htr, -⟩ := h.keeps rfl
    have hid := Order.id_eq_of_traits htr
    refine ⟨_, .of_joins hid ((frame_afterMeet hm).trans hf)
      ((joins_afterMeet hm).after (.of_orders ho))
      fun t hmem => ?_⟩
    rw [takerId_of_meets hm (List.nil_append m.trades).symm t hmem, hid]
  | @fire b hand k id x tr ts m hx hm ht =>
    obtain ⟨m', hm', -, htrades, -⟩ := inject_meets hm
    have hw := waitingIds_unpark hx
    rw [← waitingIds_of_frame (inject_frame hm)] at hw
    have horders : (b.unparked id x).orders = b.orders := by simp [unparked, emitEvent]
    refine ⟨[x.id], (hw.append_right _).symm.subperm, fun i e he => ?_, fun t hmem => ?_⟩
    · rcases joins_inject hm i e he with ⟨e₀, he₀, -⟩ | ⟨hid, -⟩
      · exact .inl ⟨e₀, horders ▸ he₀⟩
      · exact .inr (by simp [hid, markTriggered])
    · have htaker : t.takerId = x.id := takerId_of_meets hm' (htrades ▸ ht) t hmem
      rw [htaker]
      exact List.mem_append_left _ (hw.symm.subset List.mem_cons_self)
  | @remainder b hand k x tr ts m hx hm ht =>
    obtain ⟨m', hm', -, htrades, -⟩ := inject_meets hm
    have htaker := takerId_of_meets hm' (htrades ▸ ht)
    have hjoin : Joins b x.id (Left { x with flags := x.flags.clearAuction }) m.book :=
      joins_inject hm
    exact ⟨_, .of_joins rfl (inject_frame hm) hjoin htaker⟩
  | drop hx =>
    exact ⟨[], .of_turn (List.sublist_cons_self _ _).subperm (fun id e he => .inl ⟨e, he⟩)
      (by simp)⟩
  | @release b hand k gid gr cs l hl hcs =>
    refine ⟨[], .of_taken ?_ rfl⟩
    have hw := (waiting_setGroup hcs).map (·.id)
    rw [List.map_append] at hw
    simpa [relink, Function.comp_def, waitingIds] using hw
  | @allot b hand k queue =>
    obtain ⟨hf, -, ho, -, hbase, -, new, hnew, htr⟩ := auctionPhase_allots b queue
    have hids : ∀ q : List Order, (auctioned q ++ hand).map (fun a : Active => a.order.id)
        = q.map (·.id) ++ hand.map (·.order.id) := by
      simp [auctioned, Function.comp_def]
    rw [List.nil_append] at hnew
    refine ⟨[], ?_, fun id e he => .inl ⟨e, ho ▸ he⟩, fun t hmem => ?_⟩
    · simp only [Stage.idle, hids, List.nil_append, map_id_of_base hbase, waitingIds_of_frame hf]
      exact .refl _
    · simp only [Stage.idle, hids]
      refine List.mem_append_right _ (List.mem_append_left _ (htr t (hnew ▸ hmem)).1)
  | @trail b | @calm b =>
    refine ⟨[], .of_thins ((List.subperm_append_right _).2 (wanes_trailed b).waitingIds) ?_⟩
    exact .of_orders (by unfold trailed; split_ifs <;> rfl)
  | @reprice b hand k =>
    refine ⟨[], .of_thins ((List.subperm_append_right _).2 ?_) (thins_repricePegs b)⟩
    exact (Wanes.of_frame (by simp)).waitingIds
  | regroup h =>
    refine ⟨[], .of_thins ((List.subperm_append_right _).2 ?_) (.of_orders rfl)⟩
    exact (wanes_setGroup (h ▸ List.Subperm.refl _)).waitingIds
  | member b m => exact ⟨[], .of_thins (.refl _) (.of_orders rfl)⟩
  | @cancel b hand k id =>
    exact ⟨[], .of_thins ((List.subperm_append_right _).2 (wanes_cancel b id).waitingIds)
      (thins_cancel b id)⟩

end Passage

/-- When an instruction is taken up, the orders that waited and the submitted order are idle. -/
lemma idle_start (b : Book) (q : Instruction) (k : Marks) :
    (Stage.idle ⟨(q.start b).1, (q.start b).2, k⟩).Perm
      (b.waitingIds ++ q.orders.map (·.id)) := by
  cases q with
  | runOpeningAuction =>
    refine List.perm_append_comm.trans ?_
    simpa [auctioned, Function.comp_def, Instruction.orders, Instruction.start] using
      (waitingIds_callOpening b).symm
  | runClosingAuction =>
    refine List.perm_append_comm.trans ?_
    simpa [auctioned, Function.comp_def, Instruction.orders, Instruction.start] using
      (waitingIds_callClosing b).symm
  | seedPosition c net =>
    have hf := (seedPosition_keeps b c net).2.1
    simp only [Stage.idle, Instruction.start, Instruction.orders, List.map_nil, List.append_nil,
      waitingIds_of_frame hf]
    exact .refl _
  | _ => exact .refl _

/-! ### Where orders come from -/

/-- The order `x` comes from the order in hand that has its turn, or from a parked stop, and is
matched. -/
inductive Entrant (s : Stage) : Order → Prop
  | sized {o x : Order} {hand : List Active} (hs : s.hand = ⟨o, .submitted⟩ :: hand)
      (h : s.book.Sized o x) : Entrant s x
  | sprung {o : Order} {hand : List Active} (hs : s.hand = ⟨o, .submitted⟩ :: hand)
      (h : s.book.Continuous o) (hx : awaitsTrigger o = true) :
      Entrant s (markTriggered (s.book.ticked.armStop (s.book.stamp o)))
  | fired {id : OrderId} {x : Order} (hx : s.book.stops.lookup id = some x) :
      Entrant s (markTriggered x)
  | remains {x : Order} {hand : List Active} (hs : s.hand = ⟨x, .auctioned⟩ :: hand)
      (hx : entersBook x = true) : Entrant s { x with flags := x.flags.clearAuction }

section Origins

variable {A : Book → Order → Prop} {s s' : Stage} {ts : List Trade}

/-- An order that rests after a stride rested before, or it is a peg, or it is left of an order
that entered. -/
theorem Stride.joins (h : Stride A s ts s') {id : OrderId} {e' : Entry}
    (he' : s'.book.orders.lookup id = some e') :
    (∃ e, s.book.orders.lookup id = some e ∧ Descends e.order e'.order) ∨ 0 < e'.order.price ∨
      ∃ x, Entrant s x ∧ Left x e'.order := by
  -- an order that is left of `x`
  have hleft : ∀ {x : Order} {b : Book}, b.orders = s.book.orders → Entrant s x →
      Joins b x.id (Left x) s'.book →
      (∃ e, s.book.orders.lookup id = some e ∧ Descends e.order e'.order) ∨ 0 < e'.order.price ∨
        ∃ x, Entrant s x ∧ Left x e'.order := by
    intro x b hb hx hj
    rcases hj id e' he' with ⟨e, he, hd⟩ | ⟨-, hl⟩
    · exact .inl ⟨e, hb ▸ he, hd⟩
    · exact .inr (.inr ⟨x, hx, hl⟩)
  have hthin : Thins s.book s'.book →
      (∃ e, s.book.orders.lookup id = some e ∧ Descends e.order e'.order) ∨ 0 < e'.order.price ∨
        ∃ x, Entrant s x ∧ Left x e'.order := fun h => .inl (h id e' he')
  cases h with
  | @answer b o hand k r hA h =>
    exact hthin (.of_orders h.answered_keeps.2.1)
  | @aon b b' o x hand k hA h =>
    have hj := joins_submitAon b' x
    cases h with
    | aon h _ _ => exact hleft (looked_keeps b o).2 (.sized rfl h) hj
  | @peg b b' o x hand k hA h =>
    have ho : b'.orders = b.orders := (h.keeps rfl).2.1
    rcases joins_submitPeg b' x id e' he' with ⟨e, he, hd⟩ | ⟨-, hp⟩
    · exact .inl ⟨e, ho ▸ he, hd⟩
    · exact .inr (.inl hp)
  | @park b b' o x hand k hA h hq =>
    exact hthin (.of_orders (h.keeps rfl).2.1)
  | @spring b b' o x hand k m hA h hl ht hm =>
    have hj := joins_inject hm
    cases h with
    | stop h hx => exact hleft rfl (.sprung rfl h hx) hj
  | @meet b b' o x hand k m hA h hm =>
    have hj := joins_afterMeet hm
    cases h with
    | matched h _ => exact hleft (looked_keeps b o).2 (.sized rfl h) hj
  | @fire b hand k id' x tr ts m hx hm ht =>
    exact hleft (by simp [unparked, emitEvent]) (.fired hx) (joins_inject hm)
  | @remainder b hand k x tr ts m hx hm ht => exact hleft rfl (.remains rfl hx) (joins_inject hm)
  | @allot b hand k queue => exact hthin (.of_orders (auctionPhase_allots b queue).orders)
  | @trail b | @calm b => exact hthin (.of_orders (by unfold trailed; split_ifs <;> rfl))
  | @reprice b => exact hthin (thins_repricePegs b)
  | @cancel b hand k id => exact hthin (thins_cancel b id)
  | _ => exact hthin (.of_orders rfl)

/-- The order `x` is what the submitted order `o`, which has its turn, comes to wait as. -/
structure ComesToWait (s : Stage) (o x : Order) (s' : Stage) : Prop where
  hand : s.hand = ⟨o, .submitted⟩ :: s'.hand
  checked : s.book.Checked o
  order : x = s.book.stamp o ∨ x = s.book.ticked.armStop (s.book.stamp o)
  grows : Grows s.book x s'.book
  stops : ∀ id y, s'.book.stops.lookup id = some y → s.book.stops.lookup id = some y ∨ id = y.id

/-- Whatever waits after a stride has waited before, or it is the order in hand that had its
turn. -/
theorem Stride.waits (h : Stride A s ts s') :
    Wanes s.book s'.book ∨ ∃ o x, ComesToWait s o x s' := by
  cases h with
  | @answer b o hand k r hA h =>
    obtain ⟨-, -, -, hopen, hclose, -, -, -⟩ := stamp_keeps b o
    cases h with
    | refused => exact .inl (.of_frame rfl)
    | declined => exact .inl (.of_frame (looked_keeps b o).1)
    | opening h hx =>
      refine .inr ⟨o, b.stamp o, rfl, h, .inl rfl, ⟨fun _ _ hy => .inl hy, fun y hy => ?_,
        fun _ hy => .inl hy, fun _ hy => .inl hy⟩, fun _ _ hy => .inl hy⟩
      rcases List.mem_append.1 hy with hy | hy
      · exact .inl hy
      · exact .inr ⟨List.mem_singleton.1 hy, hopen.trans hx⟩
    | closing h hx =>
      refine .inr ⟨o, b.stamp o, rfl, h, .inl rfl, ⟨fun _ _ hy => .inl hy, fun _ hy => .inl hy,
        fun y hy => ?_, fun _ hy => .inl hy⟩, fun _ _ hy => .inl hy⟩
      rcases List.mem_append.1 hy with hy | hy
      · exact .inl hy
      · exact .inr ⟨List.mem_singleton.1 hy, hclose.trans hx⟩
    | held h hx =>
      obtain ⟨hchild, -, -, hstops, ho, hc, hheld⟩ := holdChild_spec hx
      refine .inr ⟨o, b.stamp o, rfl, h, .inl rfl, ⟨fun _ _ hy => .inl (hstops ▸ hy),
        fun y hy => .inl (ho ▸ hy), fun y hy => .inl (hc ▸ hy), fun y hy => ?_⟩,
        fun _ _ hy => .inl (hstops ▸ hy)⟩
      rcases List.mem_cons.1 (hheld.subset hy) with rfl | hy
      · exact .inr ⟨rfl, hchild⟩
      · exact .inl hy
  | @aon b b' o x hand k hA h =>
    exact .inl (.of_frame ((frame_submitAon b' x).trans (h.keeps rfl).1))
  | @peg b b' o x hand k hA h =>
    exact .inl (.of_frame ((frame_submitPeg b' x).trans (h.keeps rfl).1))
  | @park b b' o x hand k hA h hq =>
    cases h with
    | stop h hx =>
      have htrigger : awaitsTrigger (b.ticked.armStop (b.stamp o)) = true := by
        obtain ⟨-, -, -, -, -, haw⟩ := armStop_keeps b.ticked (b.stamp o)
        rw [haw, awaitsTrigger_stamp, hx]
      refine .inr ⟨o, b.ticked.armStop (b.stamp o), rfl, h.toChecked, .inr rfl,
        ⟨fun id y hy => ?_, fun _ hy => .inl hy, fun _ hy => .inl hy, fun _ hy => .inl hy⟩,
        fun id y hy => ?_⟩
      all_goals
        dsimp only at hy
        rw [Map.lookup_insert_eq] at hy
        split_ifs at hy with hid
      · exact .inr ⟨(Option.some.inj hy).symm, htrigger⟩
      · exact .inl hy
      · exact .inr (hid.trans (congrArg Order.id (Option.some.inj hy)))
      · exact .inl hy
  | @spring b b' o x hand k m hA h hl ht hm =>
    exact .inl (.of_frame ((inject_frame hm).trans (h.keeps rfl).1))
  | @meet b b' o x hand k m hA h hm =>
    exact .inl (.of_frame ((frame_afterMeet hm).trans (h.keeps rfl).1))
  | @fire b hand k id x tr ts m hx hm ht =>
    have hf : m.book.frame = ({ b with stops := b.stops.erase id } : Book).frame := by
      rw [inject_frame hm]
      simp only [unparked, emitEvent, emit_keeps]
    exact .inl ((wanes_eraseStop b id).trans (.of_frame hf))
  | @remainder b hand k x tr ts m hx hm ht => exact .inl (.of_frame (inject_frame hm))
  | @release b hand k gid gr cs l hl hcs =>
    refine .inl (wanes_setGroup (List.Subperm.trans ?_ hcs.symm.subperm))
    exact (List.sublist_append_right _ _).subperm
  | @allot b hand k queue => exact .inl (.of_frame (auctionPhase_allots b queue).frame)
  | @trail b | @calm b => exact .inl (wanes_trailed b)
  | @reprice b => exact .inl (.of_frame (by simp))
  | regroup h => exact .inl (wanes_setGroup (h ▸ List.Subperm.refl _))
  | member b m => exact .inl ⟨fun _ x hx => ⟨x, hx, .refl⟩, .refl _, .refl _, .refl _⟩
  | @cancel b hand k id => exact .inl (wanes_cancel b id)
  | drop => exact .inl (.of_frame rfl)

/-- The orders in hand after a stride were in hand before, or they were held by a group; the orders
of an auction may have traded. -/
theorem Stride.hands (h : Stride A s ts s') {a' : Active} (ha' : a' ∈ s'.hand) :
    a' ∈ s.hand ∨ (∃ c ∈ s.book.frame.held, ∃ l, a' = ⟨relink l c, .submitted⟩ ∧
        isChild (relink l c) = false) ∨
      ∃ x x', ⟨x, .auctioned⟩ ∈ s.hand ∧ a' = ⟨x', .auctioned⟩ ∧ base x' = base x ∧
        ((∀ y, ⟨y, .auctioned⟩ ∈ s.hand → 0 ≤ y.leaves) → 0 ≤ x'.leaves) := by
  cases h with
  | @release b hand k gid gr cs l hl hcs =>
    rcases List.mem_append.1 ha' with ha' | ha'
    · obtain ⟨c', hc', rfl⟩ := List.mem_map.1 ha'
      obtain ⟨c, hc, rfl⟩ := List.mem_map.1 hc'
      exact .inr (.inl ⟨c, (held_release hcs).symm.subset (List.mem_append_left _ hc), l,
        rfl, hl c⟩)
    · exact .inl ha'
  | @allot b hand k queue =>
    rcases List.mem_append.1 ha' with ha' | ha'
    · obtain ⟨x', hx', rfl⟩ := List.mem_map.1 ha'
      have hallots := auctionPhase_allots b queue
      have hbase : base x' ∈ queue.map base := hallots.base ▸ List.mem_map_of_mem hx'
      obtain ⟨x, hx, heq⟩ := List.mem_map.1 hbase
      refine .inr (.inr ⟨x, x', List.mem_append_left _ (List.mem_map_of_mem hx), rfl, heq.symm,
        fun hl => hallots.leaves (fun y hy => hl y ?_) x' hx'⟩)
      exact List.mem_append_left _ (List.mem_map_of_mem hy)
    · exact .inl (List.mem_append_right _ ha')
  | answer | aon | peg | park | spring | meet | remainder | drop =>
    exact .inl (List.mem_cons_of_mem _ ha')
  | _ => exact .inl ha'

end Origins

/-! ### Identifiers that are used once -/

section Once

variable {b : Book} {s s' : Stage} {ts : List Trade}

/-- The stops are parked under their identifiers. -/
def Keyed (b : Book) : Prop := ∀ id x, b.stops.lookup id = some x → x.id = id

/-- The identifiers of the orders that rest, wait or are in hand are distinct. -/
structure Once (s : Stage) : Prop where
  nodup : (s.book.orders.keys ++ s.idle).Nodup
  keyed : s.book.Keyed

lemma Stride.keyed {A : Book → Order → Prop} (h : Stride A s ts s') (hs : s.book.Keyed) :
    s'.book.Keyed := by
  intro id x' hx'
  rcases h.waits with hw | ⟨o, x, hx⟩
  · obtain ⟨x, hx, ht⟩ := hw.stops id x' hx'
    rw [ht.eq_trigger]
    exact hs id x hx
  · exact (hx.stops id x' hx').elim (hs id x') Eq.symm

/-- A stride brings no identifier into play. -/
lemma Stride.ids_subperm {A : Book → Order → Prop} (h : Stride A s ts s') :
    (s'.book.orders.keys ++ s'.idle).Subperm (s.book.orders.keys ++ s.idle) := by
  obtain ⟨l, hidle, hrest, -⟩ := h.passage
  -- what rests now rested before or was idle
  have hkeys : s'.book.orders.keys.Subperm (s.book.orders.keys ++ l) := by
    refine List.subperm_of_subset s'.book.orders.nodupKeys fun id hid => ?_
    obtain ⟨e', he'⟩ := Map.mem_iff_lookup.1 (AList.mem_keys.2 hid)
    rcases hrest id e' he' with ⟨e, he⟩ | hl
    · exact List.mem_append_left _ (AList.mem_keys.1 (Map.mem_iff_lookup.2 ⟨e, he⟩))
    · exact List.mem_append_right _ hl
  refine ((List.subperm_append_right _).2 hkeys).trans ?_
  rw [List.append_assoc]
  exact (List.subperm_append_left _).2 hidle

lemma Stride.once {A : Book → Order → Prop} (h : Stride A s ts s') (hs : Once s) :
    Once s' := by
  obtain ⟨l, hperm, hsub⟩ := h.ids_subperm
  exact ⟨hperm.nodup_iff.1 (hsub.nodup hs.nodup), h.keyed hs.keyed⟩

lemma once_of_strides {A : Book → Order → Prop} (h : Strides A s ts s') (hs : Once s) :
    Once s' :=
  (h.invariant (T := fun _ => True) hs fun _ _ _ hstep hs => ⟨hstep.once hs, fun _ _ => trivial⟩).1

/-- The identifiers of the live orders. -/
def liveIds (b : Book) : List OrderId := b.orders.keys ++ b.waitingIds

/-- Between instructions. -/
structure Distinct (b : Book) : Prop where
  nodup : b.liveIds.Nodup
  keyed : b.Keyed

/-- An instruction whose order has an identifier of its own is taken up. -/
lemma once_start (hb : b.Distinct) {q : Instruction} (hq : ∀ o ∈ q.orders, o.id ∉ b.liveIds)
    (k : Marks) : Once ⟨(q.start b).1, (q.start b).2, k⟩ ∧
      ((q.start b).1.orders.keys ++ Stage.idle ⟨(q.start b).1, (q.start b).2, k⟩).Perm
        (b.liveIds ++ q.orders.map (·.id)) := by
  have hstart := q.start_keeps b
  have hperm : ((q.start b).1.orders.keys ++ Stage.idle ⟨(q.start b).1, (q.start b).2, k⟩).Perm
      (b.liveIds ++ q.orders.map (·.id)) := by
    rw [hstart.1, liveIds, List.append_assoc]
    exact (idle_start b q k).append_left _
  refine ⟨⟨hperm.nodup_iff.2 (List.Nodup.append hb.nodup ?_ fun id h h' => ?_),
    fun id x hx => hb.keyed id x (hstart.2.1 ▸ hx)⟩, hperm⟩
  · cases q <;> simp [Instruction.orders]
  · obtain ⟨o, ho, rfl⟩ := List.mem_map.1 h'
    exact hq o ho h

end Once

end Book

end Codicis
