/-
Storage as a mirror of the books.

The resting book of storage should be the resting orders, with what is left of each.  But
the engine reports an order that comes to rest with what its placement has left of it, and
then reports the executions of the same placement; storage takes them off the row once more
(`partial_fill_not_mirrored`).

The rows are right as long as no order both executes and comes to rest (`RestsWhole`), no
resting order is removed, and the records of re-queued orders are up to date
(`accurate_of_reach`).  If in addition orders come to rest by their own submission only,
every resting order has its row (`listed_of_reach`), and storage is a mirror
(`mirrored_of_reach`).
-/
import Codicis.Engine.Storage
import Codicis.Engine.Tickets

namespace Codicis

namespace Ledger

open Book

/-! ### What may happen -/

/-- An order that is reported to rest came to rest with nothing executed, and it is not a stop
that fired when it was submitted. -/
def RestsWhole (b : Book) (o : Order) (out : SubmitOutcome) : Prop :=
  Engine.rests out = true → out.trades = [] ∧ out.filled = 0 ∧ firesAtOnce b o = false

instance (b : Book) (o : Order) (out : SubmitOutcome) : Decidable (RestsWhole b o out) :=
  inferInstanceAs (Decidable (_ → _))

/-- No placement both executes and leaves its order to rest. -/
def Whole (B : Symbol → Book) : Op → Prop
  | .place s o => ∀ r, ((B s).submit o).Returns r → RestsWhole (B s) o r.2
  | _ => True

/-- Run the operation with the bound `n` and check its result. -/
def checkWhole (n : ℕ) (B : Symbol → Book) : Op → Bool
  | .place s o => (((B s).submit o).run n).any fun r => RestsWhole (B s) o r.2
  | _ => true

lemma whole_of_check {n : ℕ} {B : Symbol → Book} {op : Op} (h : checkWhole n B op = true) :
    Whole B op := by
  cases op with
  | place s o =>
    intro r hr
    have hR := Comp.of_run_any (p := fun r : Book × SubmitOutcome => RestsWhole (B s) o r.2) h hr
    exact of_decide_eq_true hR
  | _ => trivial

/-- An order is cancelled in the book that holds it. -/
def CancelsOwn (B : Symbol → Book) : Op → Prop
  | .cancel s id => ∀ t, t ≠ s → (B t).view.entry id = none
  | _ => True

/-! ### Rows and fills -/

/-- The row says how the order rests. -/
def Shows (B : Symbol → Book) (id : OrderId) (row : Row) : Prop :=
  ∃ e, (B row.symbol).view.entry id = some e ∧ row.side = sideName e.order.side ∧
    row.price = e.order.price ∧ row.leaves = e.order.leaves

/-- Every row says how its order rests. -/
def Accurate (L : Ledger) : Prop := ∀ id row, L.table id = some row → Shows L.books id row

/-- Every resting order has a row. -/
def Listed (L : Ledger) : Prop :=
  ∀ s id, (L.books s).view.entry id ≠ none → ∃ row, L.table id = some row ∧ row.symbol = s

lemma fillQty_nonneg {l : List (OrderId × ℤ)} (hl : ∀ x ∈ l, 0 ≤ x.2) (id : OrderId) :
    0 ≤ fillQty id l := by
  refine List.sum_nonneg fun n hn => ?_
  obtain ⟨x, hx, rfl⟩ := List.mem_map.1 hn
  exact hl x (List.mem_of_mem_filter hx)

lemma applyAll_fillWrites_none {t : Table} {id : OrderId} (h : t id = none)
    (l : List (OrderId × ℤ)) : t.applyAll (fillWrites l) id = none := by
  by_contra hne
  obtain ⟨row, hrow⟩ := Option.ne_none_iff_exists'.1 hne
  obtain ⟨row₀, hrow₀, -⟩ := applyAll_fillWrites hrow
  rw [h] at hrow₀
  exact absurd hrow₀ (by simp)

/-- The trades of an auction are reported for both sides. -/
lemma fillQty_both (id : OrderId) (ts : List Trade) :
    fillQty id (ts.flatMap fun t => [(t.takerId, t.qty), (t.makerId, t.qty)])
      = takerQty id ts + makerQty id ts := by
  induction ts with
  | nil => rfl
  | cons t ts ih =>
    have hcons : takerQty id (t :: ts) = (if t.takerId = id then t.qty else 0)
      + takerQty id ts := by
      unfold takerQty volume
      by_cases h : t.takerId = id <;> simp [h]
    rw [List.flatMap_cons, fillQty_append, ih, fillQty_cons, fillQty_cons, hcons, makerQty_cons]
    have hnil : fillQty id [] = 0 := rfl
    dsimp only
    omega

/-- The row of an order after some fills: it goes when nothing is left. -/
lemma applyAll_fillWrites_eq {t : Table} {l : List (OrderId × ℤ)} {id : OrderId} {row : Row}
    (hl : ∀ x ∈ l, 0 ≤ x.2) (h : t id = some row) (hpos : 0 < row.leaves) :
    t.applyAll (fillWrites l) id = if 0 < row.leaves - fillQty id l then
      some { row with leaves := row.leaves - fillQty id l } else none := by
  induction l generalizing t row with
  | nil =>
    have hzero : fillQty id [] = 0 := rfl
    simp [fillWrites, hzero, hpos, h]
  | cons x l ih =>
    have hl' : ∀ y ∈ l, 0 ≤ y.2 := fun y hy => hl y (by simp [hy])
    have hrest := fillQty_nonneg hl' id
    show (t.apply (.fill x.1 x.2)).applyAll (fillWrites l) id = _
    rw [fillQty_cons]
    by_cases hid : x.1 = id
    · have happ : t.apply (.fill x.1 x.2) id = Table.fillRow x.2 row := by
        simp [Table.apply, hid, h]
      rw [if_pos hid]
      unfold Table.fillRow at happ
      split_ifs at happ with hle
      · rw [applyAll_fillWrites_none happ, if_neg (by omega)]
      · rw [ih hl' happ (by dsimp only; omega)]
        simp only [sub_sub]
    · have happ : t.apply (.fill x.1 x.2) id = some row := by
        simp [Table.apply, Ne.symm hid, h]
      rw [ih hl' happ hpos, if_neg hid, zero_add]

section Step

variable {stp : StpPolicy} {placed : List (Symbol × Order)} {L : Ledger} {s t : Symbol}
  {new : List Active} {ms : List Mut} {b' : Book} {id : OrderId} {e e' : Entry}

/-- What is left of an order that rested before the operation. -/
lemma leaves_update (hok : L.Ok stp placed) (hst : Step (L.books s) new ms b')
    (hno : ∀ x, Mut.remove x ∈ ms → x.order.id ≠ id) (hn : id ∉ idsOf new)
    (he : (L.books t).view.entry id = some e) :
    (Function.update L.books s b' t).view.leaves id
      = e.order.leaves - makerQty id (Mut.trades ms) := by
  have hne : (L.books t).view.entry id ≠ none := by simp [he]
  by_cases ht : t = s
  · subst ht
    rw [Function.update_self, ← View.leaves_of_entry he]
    exact hst.leaves_of_resting (hok.wf t) (congrArg Settings.memLevels (hok.settings t)) hno hne hn
  · have hlive : ¬ Live (L.books s) id := fun hl => ht (hok.symbol_unique (.inl hne) hl)
    rw [Function.update_of_ne ht, View.leaves_of_entry he, hst.makerQty_of_not_live hlive hn,
      sub_zero]

/-- An order that rested before the operation, and was not re-queued, keeps its side and price. -/
lemma place_update (hok : L.Ok stp placed) (hst : Step (L.books s) new ms b') (hn : id ∉ idsOf new)
    (hrec : lastRecord (ms.flatMap Mut.requeued) id = none)
    (he : (L.books t).view.entry id = some e)
    (he' : (Function.update L.books s b' t).view.entry id = some e') :
    e'.order.side = e.order.side ∧ e'.order.price = e.order.price := by
  by_cases ht : t = s
  · subst ht
    rw [Function.update_self] at he'
    rcases hst.evolves.run.source he' with ⟨e₀, he₀, hside, hprice⟩ |
      ⟨e₀, he₀, hid, -⟩ | ⟨o, ho, hid, -⟩
    · rw [he] at he₀
      obtain rfl := Option.some.inj he₀
      exact ⟨hside.symm, hprice.symm⟩
    · -- what comes to rest did not rest before
      rcases hst.rests e₀ he₀ with ⟨x, hx, hxid⟩ | hmem
      · have haway := (hok.wf t).waits.away x hx
        rw [hxid, hid, he] at haway
        exact absurd haway (by simp)
      · exact absurd (hid ▸ hmem) hn
    · exact absurd hid (ne_of_lastRecord_none hrec ho)
  · rw [Function.update_of_ne ht, he] at he'
    obtain rfl := Option.some.inj he'
    exact ⟨rfl, rfl⟩

/-- An order that rests takes nothing. -/
lemma takerQty_of_resting (hok : L.Ok stp placed) (hst : Step (L.books s) new ms b')
    (hn : id ∉ idsOf new) (he : (L.books t).view.entry id ≠ none) :
    takerQty id (Mut.trades ms) = 0 := by
  refine takerQty_eq_zero fun t' ht' heq => ?_
  rcases hst.takers ht' with hw | hw
  · rw [heq] at hw
    obtain rfl := hok.symbol_unique (.inl he) (.inr hw)
    obtain ⟨x, hx, rfl⟩ := hw
    exact he ((hok.wf _).waits.away x hx)
  · exact hn (heq ▸ hw)

/-- The writes change the row of an order as fills do, those of its executions if the order
rests; and the order is not removed. -/
def Filling (B : Symbol → Book) (ms : List Mut) (ws : List Write) (id : OrderId) : Prop :=
  (∀ e, Mut.remove e ∈ ms → e.order.id ≠ id) ∧
    ∃ l, (∀ x ∈ l, 0 ≤ x.2) ∧
      (∀ t, (B t).view.entry id ≠ none → fillQty id l = makerQty id (Mut.trades ms)) ∧
      ∀ T : Table, T.applyAll ws id = T.applyAll (fillWrites l) id

lemma Filling.none {B : Symbol → Book} {ws : List Write} (h : Filling B ms ws id) {T : Table}
    (hT : T id = none) : T.applyAll ws id = none := by
  obtain ⟨-, l, -, -, hws⟩ := h
  rw [hws, applyAll_fillWrites_none hT]

/-- The row of an order that rested before the operation follows it. -/
lemma Filling.row {ws : List Write} (h : Filling L.books ms ws id) (hok : L.Ok stp placed)
    (hst : Step (L.books s) new ms b') (hn : id ∉ idsOf new) {T : Table} {row : Row}
    (hrow : T id = some row) (hshow : Shows L.books id row) :
    T.applyAll ws id = ((Function.update L.books s b' row.symbol).view.entry id).map
      fun e' => { row with leaves := e'.order.leaves } := by
  obtain ⟨hno, l, hl, hq, hws⟩ := h
  obtain ⟨e, he, -, -, hleaves⟩ := hshow
  have hpos : 0 < row.leaves := hleaves ▸ ((hok.wf row.symbol).sound.entry_ok id e he).leaves_pos
  have hleft := leaves_update hok hst hno hn he
  rw [hws, applyAll_fillWrites_eq hl hrow hpos, hq row.symbol (by simp [he]), hleaves, ← hleft]
  unfold View.leaves
  cases he' : (Function.update L.books s b' row.symbol).view.entry id with
  | none => simp
  | some e' =>
    have hwf : WF (Function.update L.books s b' row.symbol) := by
      rw [Function.update_apply]
      split_ifs
      · exact hst.wf
      · exact hok.wf _
    simp [(hwf.sound.entry_ok id e' he').leaves_pos]

/-- The writes of an operation change the row of another order as its fills do. -/
lemma Effect.filling {op : Op} {ws : List Write} (hok : L.Ok stp placed)
    (hst : Step (L.books op.symbol) (inHand op.placed) ms b')
    (h : Effect (L.books op.symbol) ms b' ws op) (hwhole : Whole L.books op)
    (hkeep : Trading KeepsRecords L.books op) (hn : id ∉ op.placed.map (·.2.id))
    (hc : ∀ s, op ≠ .cancel s id) : Filling L.books ms ws id := by
  have hsink : (L.books op.symbol).eventSink = true :=
    congrArg Settings.eventSink (hok.settings op.symbol)
  have hnonneg : ∀ t ∈ Mut.trades ms, 0 ≤ t.qty := fun t ht => hst.evolves.run.trade_nonneg ht
  have htally : ∀ (ts : List (OrderId × ℤ)), (∀ x ∈ ts, 0 ≤ x.2) → ∀ x ∈ Engine.tally ts,
    0 ≤ x.2 := by
    intro ts hts x hx
    obtain ⟨i, -, rfl⟩ := List.mem_map.1 hx
    exact fillQty_nonneg hts i
  cases op with
  | place s o =>
    obtain ⟨out, hr, hrep, rfl⟩ := h
    have hno := NoCancels.remove_notMem (hkeep _ hr).2 hst hsink
    have hne : o.id ≠ id := by simpa [Op.placed, eq_comm] using hn
    refine ⟨fun e he => absurd he (hno e),
      Engine.tally (out.trades.map fun t => (t.makerId, t.qty)), htally _ ?_, ?_, fun T => ?_⟩
    · intro x hx
      obtain ⟨t, ht, rfl⟩ := List.mem_map.1 hx
      exact hnonneg t (hrep.trades ▸ ht)
    · intro _ _
      rw [fillQty_tally, fillQty_makers, hrep.trades]
    · -- the other writes are about the order that is placed
      have hrest : ∀ T : Table, T.applyAll (if Engine.rests out = true then
          restWrites s [out.resting] else []) id = T id := by
        intro T
        split_ifs with hrests
        · obtain ⟨-, -, hfire⟩ := hwhole _ hr hrests
          have hrid : out.resting.id = o.id := by
            rcases hrep.resting (by simpa [Engine.rests] using hrests) with ⟨hf, -⟩ | hrid
            · exact absurd (hf.symm.trans hfire) (by simp)
            · exact hrid.1
          rw [applyAll_restWrites]
          simp [lastRecord, hrid, hne]
        · rfl
      have htaker : ∀ T : Table, T.applyAll (if 0 < out.filled then
          fillWrites [(o.id, out.filled)] else []) id = T id := by
        intro T
        split_ifs
        · exact if_neg hne.symm
        · rfl
      rw [placeWrites, Table.applyAll_append, Table.applyAll_append]
      exact Table.applyAll_congr ((htaker _).trans (hrest _)) _
  | cancel s i =>
    obtain ⟨-, hms, rfl⟩ := h
    have hi : i ≠ id := fun h => hc s (by rw [h])
    refine ⟨fun e he => hms.ne_of_remove he hi, [], by simp, fun _ _ => by rw [hms.trades]; rfl,
      fun T => ?_⟩
    show (if id = i then _ else _) = _
    rw [if_neg hi.symm]
    rfl
  | auction s opening =>
    obtain ⟨hr, rfl⟩ := h
    have hno := NoCancels.remove_notMem (hkeep _ hr).2 hst hsink
    refine ⟨fun e he => absurd he (hno e), _, htally _ ?_, ?_, fun T => rfl⟩
    · intro x hx
      obtain ⟨t, ht, hx⟩ := List.mem_flatMap.1 hx
      have hq := hnonneg t ht
      simp only [List.mem_cons, List.not_mem_nil, or_false] at hx
      rcases hx with rfl | rfl <;> exact hq
    · intro t hid
      rw [fillQty_tally, fillQty_both,
        takerQty_of_resting hok hst (by simp [Op.placed, inHand, idsOf]) hid, zero_add]
  | pull s side orders => exact False.elim h

/-- The last record of a re-queued order is how it rests. -/
lemma Effect.find_eq {op : Op} {ws : List Write} (hok : L.Ok stp placed)
    (hst : Step (L.books op.symbol) (inHand op.placed) ms b')
    (hreq : b'.requeued = ms.flatMap Mut.requeued)
    (h : Effect (L.books op.symbol) ms b' ws op) (hkeep : Trading KeepsRecords L.books op)
    {o : Order} (ho : lastRecord b'.requeued id = some o) : b'.find id = some o := by
  cases op with
  | place s x =>
    obtain ⟨out, hr, -⟩ := h
    exact (hkeep _ hr).1.find_eq ho
  | cancel s i =>
    exact h.2.1.find_eq_of_lastRecord (hok.wf s).sound hst.evolves.run (hreq ▸ ho)
  | auction s opening => exact (hkeep _ h.1).1.find_eq ho
  | pull s side orders => exact False.elim h

/-- An order that is placed rests as it is reported, if it rests. -/
lemma rests_entry {b : Book} {o : Order} {out : SubmitOutcome} (hb : WF b)
    (hst : Step b [⟨o, .submitted⟩] ms b') (hwin : b.memLevels = 0) (hnew : ¬ Live b o.id)
    (hrep : Reported b o ms out) (hno : ∀ e, Mut.remove e ∉ ms)
    (hrec : lastRecord (ms.flatMap Mut.requeued) o.id = none) (hwhole : RestsWhole b o out)
    (hrests : Engine.rests out = true) : out.resting.id = o.id ∧
      ∃ e', b'.view.entry o.id = some e' ∧ e'.order.key = out.resting.key := by
  obtain ⟨htr, -, hfire⟩ := hwhole hrests
  obtain ⟨hid, hmem⟩ : out.resting.id = o.id ∧
    Mut.rest ⟨out.resting, sliceOf out.resting⟩ ∈ ms := by
    rcases hrep.resting (by simpa [Engine.rests] using hrests) with
      ⟨hf, -⟩ | ⟨hid, ⟨-, -, hmem⟩ | ⟨-, -, hmem, -⟩⟩
    · exact absurd (hf.symm.trans hfire) (by simp)
    · exact ⟨hid, hmem⟩
    · exact absurd hwin hmem
  refine ⟨hid, ?_⟩
  have hnone : b.view.entry o.id = none := by
    by_contra hne
    exact hnew (.inl hne)
  -- nothing is executed, so nothing is filled of it
  have hfill : (ms.map (Mut.filled o.id)).sum = 0 := by
    have hle := hst.evolves.run.filled_le o.id
    rw [← hrep.trades, htr, makerQty_nil] at hle
    omega
  have hleaves := @View.Run.leaves_eq _ _ _ o.id hst.evolves.run hb.sound
    (hst.evolves.windowed hwin)
    fun e he => absurd he (hno e)
  have hrested := (hst.evolves.run.rested_pos o.id).2 _ hmem hid
  have hpos : 0 < b'.view.leaves o.id := by
    have := hb.sound.leaves_nonneg o.id
    omega
  unfold View.leaves at hpos
  cases he' : b'.view.entry o.id with
  | none => simp [he'] at hpos
  | some e' =>
    refine ⟨e', rfl, ?_⟩
    rcases hst.evolves.run.source_of_unfilled he' hfill with ⟨e, he, -⟩ |
      ⟨e, he, hide, hkey⟩ | ⟨x, hx, hidx, -⟩
    · exact absurd (hnone.symm.trans he) (by simp)
    · rw [← hkey, (hrep.rests hfire e he hide).2]
    · exact absurd hidx (ne_of_lastRecord_none hrec hx)

/-- The row of an order that is placed: the one that is reported, if it rests. -/
lemma row_placed {b : Book} {o : Order} {out : SubmitOutcome} (hwhole : RestsWhole b o out)
    (hid : Engine.rests out = true → out.resting.id = o.id) {T : Table} (hT : T o.id = none) :
    T.applyAll (placeWrites s o out) o.id
      = if Engine.rests out = true then some (out.resting.row s) else none := by
  by_cases hrests : Engine.rests out = true
  · obtain ⟨htr, hfilled, -⟩ := hwhole hrests
    have hws : placeWrites s o out = restWrites s [out.resting] := by
      simp [placeWrites, hrests, htr, hfilled, Engine.tally, fillWrites]
    rw [hws, applyAll_restWrites, if_pos hrests]
    simp [lastRecord, hid hrests]
  · rw [placeWrites, if_neg hrests, if_neg hrests, List.nil_append, Table.applyAll_append]
    refine applyAll_fillWrites_none ?_ _
    split_ifs
    · exact applyAll_fillWrites_none hT _
    · exact hT

/-- An order that is placed has no row yet. -/
lemma Accurate.fresh (h : Accurate L) (hok : L.Ok stp placed) {o : Order}
    (ho : o.id ∉ placed.map (·.2.id)) : L.table o.id = none := by
  by_contra hne
  obtain ⟨row, hrow⟩ := Option.ne_none_iff_exists'.1 hne
  obtain ⟨e, he, -⟩ := h _ _ hrow
  exact hok.fresh ho row.symbol (.inl (by simp [he]))

lemma shows_key {B : Symbol → Book} {o : Order} (he : (B s).view.entry id = some e)
    (hkey : e.order.key = o.key) : Shows B id (o.row s) := by
  simp only [Order.key, Prod.mk.injEq] at hkey
  exact ⟨e, he, by rw [hkey.1]; rfl, hkey.2.1.symm, hkey.2.2.symm⟩

/-- What storage has of an order after its placement: a row as it rests, if it rests. -/
lemma placed_spec {o : Order} {ws : List Write} (h : Accurate L) (hok : L.Ok stp placed)
    (hst : Step (L.books s) (inHand [(s, o)]) ms b')
    (heff : Effect (L.books s) ms b' ws (.place s o)) (hnew : o.id ∉ placed.map (·.2.id))
    (hwhole : Whole L.books (.place s o)) (hkeep : Trading KeepsRecords L.books (.place s o))
    (hrec : lastRecord (ms.flatMap Mut.requeued) o.id = none) :
    ∃ out, Reported (L.books s) o ms out ∧
      L.table.applyAll ws o.id = (if Engine.rests out = true then some
        (out.resting.row s) else none) ∧
      (Engine.rests out = true → Shows (Function.update L.books s b') o.id
        (out.resting.row s)) := by
  obtain ⟨out, hr, hrep, rfl⟩ := heff
  have hno := NoCancels.remove_notMem (hkeep _ hr).2 hst
    (congrArg Settings.eventSink (hok.settings s))
  have hentry := rests_entry (hok.wf s) hst (congrArg Settings.memLevels (hok.settings s))
    (hok.fresh hnew s) hrep hno hrec (hwhole _ hr)
  refine ⟨out, hrep, row_placed (hwhole _ hr) (fun hrests => (hentry hrests).1) (h.fresh hok hnew),
    fun hrests => ?_⟩
  obtain ⟨-, e', he', hkey⟩ := hentry hrests
  exact shows_key (by rwa [Function.update_self]) hkey

section Operation

variable {op : Op} {ws : List Write} (hok : L.Ok stp placed)
  (hst : Step (L.books op.symbol) (inHand op.placed) ms b')
  (hreq : b'.requeued = ms.flatMap Mut.requeued)
  (heff : Effect (L.books op.symbol) ms b' ws op)
  (hnew : ∀ x ∈ op.placed, x.2.id ∉ placed.map (·.2.id)) (hwhole : Whole L.books op)
  (hkeep : Trading KeepsRecords L.books op)

include hok hst hreq heff hnew hwhole hkeep

/-- An operation keeps the rows right. -/
lemma Accurate.record (h : Accurate L) : Accurate (L.record op.symbol b' ws) := by
  intro id row hrow
  rw [table_record] at hrow
  show Shows (Function.update L.books op.symbol b') id row
  cases hrec : lastRecord b'.requeued id with
  | some o =>
    -- the row is a record, and the record is up to date
    rw [hrec] at hrow
    obtain rfl : o.row op.symbol = row := Option.some.inj hrow
    obtain ⟨e, he, rfl⟩ := Option.map_eq_some_iff.1 (heff.find_eq hok hst hreq hkeep hrec)
    exact shows_key (by rw [Function.update_self]; exact he) rfl
  | none =>
    rw [hrec] at hrow
    have hrow : L.table.applyAll ws id = some row := hrow
    rw [hreq] at hrec
    by_cases hid : id ∈ op.placed.map (·.2.id)
    · -- it is the order that is placed
      cases op with
      | place s o =>
        obtain rfl : id = o.id := by simpa [Op.placed] using hid
        obtain ⟨out, -, hrow', hshow⟩ := placed_spec h hok hst heff
          (hnew (s, o) (by simp [Op.placed])) hwhole hkeep hrec
        rw [hrow'] at hrow
        by_cases hrests : Engine.rests out = true
        · rw [if_pos hrests] at hrow
          exact Option.some.inj hrow ▸ hshow hrests
        · rw [if_neg hrests] at hrow
          exact absurd hrow (by simp)
      | _ => exact absurd hid (by simp [Op.placed])
    by_cases hc : ∃ s, op = .cancel s id
    · -- a cancelled order has no row
      obtain ⟨s, rfl⟩ := hc
      obtain ⟨-, -, rfl⟩ := heff
      exact absurd hrow (by simp [Table.apply])
    have hn : id ∉ idsOf (inHand op.placed) := by rwa [idsOf_inHand]
    have hfill := heff.filling hok hst hwhole hkeep hid fun s hs => hc ⟨s, hs⟩
    cases hrow₀ : L.table id with
    | none => exact absurd ((hfill.none hrow₀).symm.trans hrow) (by simp)
    | some row₀ =>
      have hshow := h id row₀ hrow₀
      rw [hfill.row hok hst hn hrow₀ hshow] at hrow
      obtain ⟨e', he', rfl⟩ := Option.map_eq_some_iff.1 hrow
      obtain ⟨e, he, hside, hprice, -⟩ := hshow
      obtain ⟨hs, hp⟩ := place_update hok hst hn hrec he he'
      exact ⟨e', he', by rw [hs]; exact hside, by rw [hp]; exact hprice, rfl⟩

/-- An operation keeps a row for every resting order. -/
lemma Listed.record (h : Listed L) (hacc : Accurate L)
    (hdirect : Trading RestsDirectly L.books op) (hown : CancelsOwn L.books op) :
    Listed (L.record op.symbol b' ws) := by
  intro t id he
  have he : (Function.update L.books op.symbol b' t).view.entry id ≠ none := he
  rw [table_record]
  cases hrec : lastRecord b'.requeued id with
  | some o =>
    -- an order is held by one book
    have hfind := heff.find_eq hok hst hreq hkeep hrec
    have hok' : (L.record op.symbol b' ws).Ok stp (placed ++ op.placed) := hok.next hnew hst ws
    refine ⟨o.row op.symbol, rfl, hok'.symbol_unique (.inl ?_) (.inl he)⟩
    show (Function.update L.books op.symbol b' op.symbol).view.entry id ≠ none
    rw [Function.update_self]
    exact Book.find_ne_none.1 (by simp [hfind])
  | none =>
    show ∃ row, L.table.applyAll ws id = some row ∧ row.symbol = t
    rw [hreq] at hrec
    by_cases hc : ∃ s, op = .cancel s id
    · obtain ⟨s, rfl⟩ := hc
      obtain ⟨rfl, -, -⟩ := heff
      refine absurd ?_ he
      by_cases hts : t = s
      · rw [hts, Op.symbol, Function.update_self]
        exact entry_cancel_self (hok.wf s) id
      · rw [Op.symbol, Function.update_of_ne hts]
        exact hown t hts
    by_cases hold : (L.books t).view.entry id = none
    · -- it comes to rest, so it is the order that is placed
      have hts : t = op.symbol := by
        by_contra hts
        rw [Function.update_of_ne hts] at he
        exact he hold
      subst hts
      rw [Function.update_self] at he
      obtain ⟨e', he'⟩ := Option.ne_none_iff_exists'.1 he
      rcases hst.evolves.run.source he' with ⟨e, he₀, -⟩ | ⟨e, hmem, rfl, -⟩ |
        ⟨x, hx, hidx, -⟩
      · exact absurd (hold.symm.trans he₀) (by simp)
      · obtain ⟨s, o, rfl, hid, hfire⟩ := heff.rest_placed rfl hst hdirect hmem he'
        obtain ⟨out, hrep, hrow, -⟩ := placed_spec hacc hok hst heff
          (hnew (s, o) (by simp [Op.placed])) hwhole hkeep (hid ▸ hrec)
        have hrests : Engine.rests out = true := by
          simp [Engine.rests, (hrep.rests hfire e hmem hid).1]
        exact ⟨_, by rw [hid, hrow, if_pos hrests], rfl⟩
      · exact absurd hidx (ne_of_lastRecord_none hrec hx)
    · -- it rested before, and its row follows it
      have hn : id ∉ op.placed.map (·.2.id) := by
        intro hmem
        obtain ⟨x, hx, rfl⟩ := List.mem_map.1 hmem
        exact hok.fresh (hnew x hx) t (.inl hold)
      have hfill := heff.filling hok hst hwhole hkeep hn fun s hs => hc ⟨s, hs⟩
      obtain ⟨row, hrow, rfl⟩ := h t id hold
      rw [hfill.row hok hst (by rwa [idsOf_inHand]) hrow (hacc id row hrow)]
      obtain ⟨e', he'⟩ := Option.ne_none_iff_exists'.1 he
      exact ⟨{ row with leaves := e'.order.leaves }, by rw [he']; rfl, rfl⟩

end Operation

end Step

lemma Accurate.alike {L L' : Ledger} (h : Accurate L) (hL : L.Alike L') : Accurate L' := by
  intro id row hrow
  rw [table, hL.1] at hrow
  obtain ⟨e, he, hrest⟩ := h id row hrow
  exact ⟨e, by rwa [(hL.2 row.symbol).view], hrest⟩

lemma Listed.alike {L L' : Ledger} (h : Listed L) (hL : L.Alike L') : Listed L' := by
  intro s id he
  rw [(hL.2 s).view] at he
  rw [table, hL.1]
  exact h s id he

lemma accurate_init (stp : StpPolicy) : Accurate (Ledger.init stp) := by
  intro id row hrow
  exact absurd hrow (by simp [Ledger.init, table])

/-- Every resting order has a row, if orders come to rest by their own submission only. -/
theorem listed_of_reach {stp : StpPolicy} {placed : List (Symbol × Order)} {L : Ledger}
    (h : Reach (fun L op => op.native = true ∧
      ((Whole L.books op ∧ Trading KeepsRecords L.books op) ∧
      Trading RestsDirectly L.books op) ∧ CancelsOwn L.books op) stp placed L) :
    L.Ok stp placed ∧ Accurate L ∧ Listed L := by
  refine h.induction (I := fun _ L => Accurate L ∧ Listed L) (fun L op hC => hC.1)
    ⟨accurate_init stp, fun s id he => absurd rfl he⟩
    (fun _ _ _ hI hL => ⟨hI.1.alike hL, hI.2.alike hL⟩) ?_
  · rintro placed L op ms b' ws hok ⟨hacc, hlist⟩ hC hop hst hreq heff
    obtain ⟨-, ⟨⟨hwhole, hkeep⟩, hdirect⟩, hown⟩ := hC
    have hnew : ∀ x ∈ op.placed, x.2.id ∉ placed.map (·.2.id) := fun x hx => (hop.2 x hx).1
    exact ⟨hacc.record hok hst hreq heff hnew hwhole hkeep,
      hlist.record hok hst hreq heff hnew hwhole hkeep hacc hdirect hown⟩

end Ledger

namespace Config

open Ledger (Trading RestsDirectly KeepsRecords Whole CancelsOwn checkTrading checkWhole)

variable {c c' : Config} {stp : StpPolicy} {P : Config → Act → Prop}

/-! ### Cancels -/

/-- The order of a handle was placed for its instrument. -/
lemma handle_placed {memLevels : ℕ} (h : Reach P stp memLevels c) :
    ∀ uuid x, c.engine.handles.lookup uuid = some x → ∃ o, (x.symbol, o) ∈ c.placed ∧
    o.id = x.id := by
  induction h with
  | init => exact fun uuid x hx => absurd hx (by simp [init])
  | @step c c' a hr ha hs ih =>
    have hold : ∀ uuid x, c.engine.handles.lookup uuid = some x → c.placed ⊆ c'.placed →
        ∃ o, (x.symbol, o) ∈ c'.placed ∧ o.id = x.id := by
      intro uuid x hx hsub
      obtain ⟨o, ho, hid⟩ := ih uuid x hx
      exact ⟨o, hsub ho, hid⟩
    have hd := step_deed hs
    intro uuid x hx
    cases hop : c.op? a with
    | none =>
      rw [hop] at hd
      cases hd with
      | quiet hB hh hdrop =>
        have hpl : c.placed ⊆ c'.placed := by
          rw [placed, placed, placements_of_deals hh]
          exact List.Subset.refl _
        refine hold uuid x ?_ hpl
        cases hdrop with
        | none hh _ _ => rwa [hh] at hx
        | @prune s trades k hk heq =>
          subst heq
          exact (Engine.prune_spec s trades c.engine).1.handles uuid x hx
        | @forget u id k hk heq =>
          subst heq
          refine (Engine.fewer_dropHandle c.engine u id).handles uuid x ?_
          simp only [forget] at hx
          split_ifs at hx <;> exact hx
    | some op =>
      rw [hop] at hd
      have hpl : c.placed ⊆ c'.placed := by
        rw [hd.placed]
        exact List.subset_append_left _ _
      cases hd with
      | @place p r k hk hp hok hr =>
        rcases Engine.lookup_placeEngine hx with hx | ⟨-, -, rfl⟩
        · exact hold uuid x hx hpl
        · refine ⟨p.order, ?_, rfl⟩
          rw [Deed.placed (.place hk hp hok hr)]
          exact List.mem_append_right _ (by simp [Ledger.Op.placed])
      | cancel hk hr => exact hold uuid x hx hpl
      | auction hk hr => exact hold uuid x hx hpl
      | @pull s side reply k hk =>
        obtain ⟨-, h2, -⟩ := onPull_desk c.engine s side
          ((reply.map StorageClient.pulledOrders).getD [])
        exact hold uuid x (h2 ▸ hx) hpl

/-- In an orderly run, an order is cancelled in the book that holds it. -/
lemma Orderly.cancelsOwn {C : (Symbol → Book) → Ledger.Op → Prop}
    (h : Reach (Orderly C) stp 0 c) :
    Reach (Orderly fun B op => C B op ∧ CancelsOwn B op) stp 0 c := by
  induction h with
  | init => exact .init
  | @step c c' a hr ha hs ih =>
    refine ih.step ⟨ha.opens, ha.fresh, ha.display, fun op hop => ⟨ha.op op hop, ?_⟩⟩ hs
    have hok : BooksOk stp c := booksOk_of_reach hr
      (fun c hc => nodup_submittedIds hc fun c a ha => ha.fresh) fun c a ha => ha.display
    have hd := step_deed hs
    rw [hop] at hd
    cases hd with
    | @cancel uuid requester x k hk hr' =>
      obtain ⟨o, ho, hid⟩ := handle_placed hr uuid x (handle_of_cancelResult hr').1
      intro t ht
      by_contra hne
      obtain ⟨o', ho', hid'⟩ := hok.live t x.id (.inl hne)
      exact ht (congrArg Prod.fst (List.inj_on_of_nodup_map hok.nodup ho' ho
        (hid'.trans hid.symm)))
    | _ => trivial

/-! ### The mirror -/

/-- Back in the event loop, storage has one row for each resting order, and no other: under its
symbol, side and price, with what is left of it. -/
def Mirrored (c : Config) : Prop :=
  c.stack = [] → ∀ s side price, ((c.helper.restingAt (s, side) price).map (·.id)).Nodup ∧
    ∀ id leaves, (∃ o ∈ c.helper.restingAt (s, side) price, o.id = id ∧ o.leaves = leaves) ↔
      ∃ o, (c.books s).find id = some o ∧ sideName o.side = side ∧ o.price = price ∧
        o.leaves = leaves

/-- Storage is a mirror of the books in runs in which no order both executes and comes to rest,
no placement removes a resting order or leaves a record of a re-queued order that is out of
date, and orders come to rest by their own submission only. -/
theorem mirrored_of_reach (h : Reach (Orderly fun B op => (Whole B op ∧ Trading KeepsRecords B op) ∧
    Trading RestsDirectly B op) stp 0 c) : Mirrored c := by
  intro hk s side price
  obtain ⟨hok, htab⟩ := c.helper_refines
  obtain ⟨-, hacc, hlist⟩ := Ledger.listed_of_reach
    (Orderly.ledger_of_reach (Orderly.cancelsOwn h) hk)
  refine ⟨hok.nodup (s, side) price, fun id leaves => ⟨?_, ?_⟩⟩
  · rintro ⟨o, ho, rfl, rfl⟩
    have hrow : (c.ledger []).table o.id = some ⟨s, side, price, o.leaves, o.seq⟩ := by
      rw [← htab]
      exact hok.table_eq_some.2 ⟨o, ho, rfl, rfl, rfl⟩
    obtain ⟨e, he, hside, hprice, hleaves⟩ := hacc _ _ hrow
    exact ⟨e.order, congrArg (Option.map _) he, hside.symm, hprice.symm, hleaves.symm⟩
  · rintro ⟨o, ho, rfl, rfl, rfl⟩
    obtain ⟨e, he, rfl⟩ := Option.map_eq_some_iff.1 ho
    have he : (c.books s).view.entry id = some e := he
    obtain ⟨row, hrow, rfl⟩ := hlist s id (by simp [ledger, he])
    obtain ⟨e', he', hside, hprice, hleaves⟩ := hacc id row hrow
    obtain rfl : e' = e := Option.some.inj (he'.symm.trans he)
    rw [← htab] at hrow
    obtain ⟨x, hx, hid, hl, -⟩ := hok.table_eq_some.1 hrow
    rw [hside, hprice] at hx
    exact ⟨x, hx, hid, hl.trans hleaves⟩

/-- A sell order rests, and a part of it is bought. -/
theorem mirrored_of_reach_maker : ∃ c, Reach (Orderly fun B op =>
      (Whole B op ∧ Trading KeepsRecords B op) ∧ Trading RestsDirectly B op) .none 0 c ∧
    c.stack = [] ∧ ((c.books "ABC").find 1).map (·.leaves) = some 3 ∧ Mirrored c := by
  let acts := placeActs "ABC" "" { side := .sell, qty := 5, price := 100 } "a" 1 ++
    placeActs "ABC" "" { qty := 2, price := 100 } "b" 3
  let check (B : Symbol → Book) (op : Ledger.Op) : Bool :=
    (checkWhole 8 B op && checkTrading KeepsRecords 8 B op) && checkTrading RestsDirectly 8 B op
  obtain ⟨c, hc, hstack, hleft⟩ : ∃ c,
      Reach (fun c a => checkOrderly check c a = true) .none 0 c ∧
      c.stack = [] ∧ ((c.books "ABC").find 1).map (·.leaves) = some 3 :=
    Machine.Reach.exists_of_acts 8 acts (by decide +kernel)
  have hc' : Reach (Orderly fun B op => (Whole B op ∧ Trading KeepsRecords B op) ∧
      Trading RestsDirectly B op) .none 0 c := by
    refine hc.mono fun c a => orderly_of_check fun B op hop => ?_
    simp only [check, Bool.and_eq_true] at hop
    exact ⟨⟨Ledger.whole_of_check hop.1.1, Ledger.trading_of_check hop.1.2⟩,
      Ledger.trading_of_check hop.2⟩
  exact ⟨c, hc', hstack, hleft, mirrored_of_reach hc'⟩

/-- A buy order for eight takes five and rests with three.  It is reported with three, and then
its fill of five is: storage drops it. -/
theorem partial_fill_not_mirrored : ∃ c, Reach (fun _ _ => True) .none 0 c ∧ c.stack = [] ∧
    ((c.books "ABC").find 2).map (·.leaves) = some 3 ∧
    c.helper.restingAt ("ABC", "buy") 100 = [] ∧ ¬ Mirrored c := by
  let acts := placeActs "ABC" "" { side := .sell, qty := 5, price := 100 } "a" 1 ++
    placeActs "ABC" "" { qty := 8, price := 100 } "b" 3
  obtain ⟨c, hc, hstack, ⟨o, ho, hside, hprice, hleft⟩, hnone⟩ : ∃ c,
      Reach (fun _ _ => True) .none 0 c ∧ c.stack = [] ∧ (∃ o ∈ (c.books "ABC").find 2,
        o.side = .buy ∧ o.price = 100 ∧ o.leaves = 3) ∧
      c.helper.restingAt ("ABC", "buy") 100 = [] :=
    Machine.Reach.exists_of_acts 8 acts (by decide +kernel)
  have ho : (c.books "ABC").find 2 = some o := ho
  refine ⟨c, hc, hstack, by simp [ho, hleft], hnone, fun hm => ?_⟩
  obtain ⟨x, hx, -⟩ := ((hm hstack "ABC" "buy" 100).2 2 3).2
    ⟨o, ho, by rw [hside]; rfl, hprice, hleft⟩
  rw [hnone] at hx
  exact absurd hx List.not_mem_nil

end Config

end Codicis
