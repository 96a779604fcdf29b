/-
What the resting book of storage says about the books.

Every order that rests should be reported to storage, and an order that leaves should
leave storage too.  Neither is so: the engine reports the order that is submitted and the
orders that are re-queued, so an order that comes to rest by a trigger, an auction or the
fill of its parent is not reported (`unreported_after_auction`); and the records of
re-queued orders are sent after the fills of the same operation, so they bring back an
order that was filled meanwhile (`ghost_after_replenish`).

`noneMissing_of_reach` and `noGhosts_of_reach` say when storage is right.
-/
import Codicis.Engine.Unwindowed
import Codicis.Ipc.CodecStreams
import Mathlib.Data.List.Dedup
import Mathlib.Data.List.Induction

namespace Codicis

namespace Ledger

open Book

/-! ### Orders that rest are reported -/

/-- A resting order was reported with its side and price. -/
def RestsReported (L : Ledger) : Prop :=
  ∀ s id e, (L.books s).view.entry id = some e → ∃ row, .rest id row ∈ L.writes ∧
    row.symbol = s ∧ row.side = sideName e.order.side ∧ row.price = e.order.price

/-- After the operation on `b`, with the result `b'`, no order rests that waited before, and
no stop that fired when it was submitted. -/
def RestsDirectly (b : Book) (submitted : Option Order) (_ : List Trade) (b' : Book) : Prop :=
  (∀ x ∈ b.frame.waiting, b'.find x.id = none) ∧
    ∀ o ∈ submitted, firesAtOnce b o = true → b'.find o.id = none

instance (b : Book) (o : Option Order) (ts : List Trade) (b' : Book) :
    Decidable (RestsDirectly b o ts b') := inferInstanceAs (Decidable (_ ∧ _))

lemma mem_restWrites {s : Symbol} {l : List Order} {o : Order} (h : o ∈ l) :
    .rest o.id (o.row s) ∈ restWrites s l := List.mem_map.2 ⟨o, h, rfl⟩

lemma find_eq_none {b : Book} {id : OrderId} {e : Entry} (he : b.view.entry id = some e) :
    b.find id ≠ none := by
  have : b.orders.lookup id = some e := he
  simp [Book.find, this]

/-- An order that an operation puts to rest, and leaves there, is the one that is placed. -/
lemma Effect.rest_placed {b b' : Book} {ms : List Mut} {ws : List Write} {op : Op}
    {B : Symbol → Book} (hB : B op.symbol = b) (h : Effect b ms b' ws op)
    (hst : Step b (inHand op.placed) ms b') (hC : Trading RestsDirectly B op) {e e' : Entry}
    (he : Mut.rest e ∈ ms) (he' : b'.view.entry e.order.id = some e') :
    ∃ s o, op = .place s o ∧ e.order.id = o.id ∧ firesAtOnce b o = false := by
  subst hB
  have hfind : b'.find e.order.id ≠ none := find_eq_none he'
  cases op with
  | place s o =>
    obtain ⟨out, hr, -, rfl⟩ := h
    obtain ⟨hwait, hfire⟩ := hC _ hr
    rcases hst.rests e he with ⟨x, hx, hid⟩ | hid
    · exact absurd (hid ▸ hwait x hx) hfind
    · have hid : e.order.id = o.id := by simpa [Op.placed, idsOf_inHand] using hid
      exact ⟨s, o, rfl, hid, Bool.eq_false_iff.2 fun hf => hfind (hid ▸ hfire o rfl hf)⟩
  | cancel s id =>
    obtain ⟨-, hms | ⟨e₀, moves, hms, -, hmoves⟩, -⟩ := h
    · simp [hms] at he
    · rw [hms] at he
      rcases List.mem_cons.1 he with he | he
      · exact absurd he (by simp)
      · exact absurd he (hmoves.rest_notMem e)
  | auction s opening =>
    obtain ⟨hwait, -⟩ := hC _ h.1
    rcases hst.rests e he with ⟨x, hx, hid⟩ | hid
    · exact absurd (hid ▸ hwait x hx) hfind
    · exact absurd hid (by simp [Op.placed, idsOf_inHand])
  | pull s side orders => exact absurd h id

/-- An order that an operation puts to rest is reported. -/
lemma Effect.rest_reported {b b' : Book} {ms : List Mut} {ws : List Write} {op : Op}
    {B : Symbol → Book} (hB : B op.symbol = b) (h : Effect b ms b' ws op)
    (hst : Step b (inHand op.placed) ms b') (hC : Trading RestsDirectly B op) {e e' : Entry}
    (he : Mut.rest e ∈ ms) (he' : b'.view.entry e.order.id = some e') :
    .rest e.order.id (e.order.row op.symbol) ∈ ws := by
  obtain ⟨s, o, rfl, hid, hfire⟩ := h.rest_placed hB hst hC he he'
  obtain ⟨out, -, hrep, rfl⟩ := h
  obtain ⟨hrested, hresting⟩ := hrep.rests hfire e he hid
  have hrests : Engine.rests out = true := by simp [Engine.rests, hrested]
  simp only [placeWrites, if_pos hrests, hresting, List.append_assoc]
  exact List.mem_append_left _ (mem_restWrites (by simp))

/-- Every resting order is reported, if orders come to rest by their own submission only. -/
theorem restsReported_of_reach {stp : StpPolicy} {placed : List (Symbol × Order)} {L : Ledger}
    (h : Reach (fun L op => op.native = true ∧ Trading RestsDirectly L.books op) stp placed L) :
    RestsReported L := by
  refine (h.induction (I := fun _ L => RestsReported L) (fun L op hC => hC.1) ?_ ?_ ?_).2
  · intro s id e he
    exact absurd he (by simp [Ledger.init, Book.view, Book.empty])
  · intro placed L L' hI hL s id e he
    rw [(hL.2 s).view] at he
    rw [hL.1]
    exact hI s id e he
  · intro placed L op ms b' ws hok hI hC hop hst hreq heff t id e' he'
    by_cases ht : t = op.symbol
    · subst ht
      simp only [record, Function.update_self] at he' ⊢
      rcases hst.evolves.run.source he' with ⟨e, he, hs, hp⟩ |
        ⟨e, he, rfl, hs, hp⟩ | ⟨o, ho, rfl, hs, hp⟩
      · -- it rested there before
        obtain ⟨row, hrow, h1, h2, h3⟩ := hI _ id e he
        exact ⟨row, List.mem_append_left _ hrow, h1, hs ▸ h2, hp ▸ h3⟩
      · -- it came to rest
        exact ⟨_, List.mem_append_right _ (List.mem_append_left _
          (heff.rest_reported rfl hst hC.2 he he')), rfl, by rw [← hs]; rfl, hp⟩
      · -- it was re-queued
        rw [← hreq] at ho
        exact ⟨_, List.mem_append_right _ (List.mem_append_right _ (mem_restWrites ho)), rfl,
          by rw [← hs]; rfl, hp⟩
    · simp only [record, Function.update_of_ne ht] at he' ⊢
      obtain ⟨row, hrow, hrest⟩ := hI t id e' he'
      exact ⟨row, List.mem_append_left _ hrow, hrest⟩

/-! ### Orders that leave are gone -/

/-- The quantity of the fills of an order. -/
def fillQty (id : OrderId) (l : List (OrderId × ℤ)) : ℤ :=
  ((l.filter (·.1 = id)).map Prod.snd).sum

lemma fillQty_cons (id : OrderId) (x : OrderId × ℤ) (l : List (OrderId × ℤ)) :
    fillQty id (x :: l) = (if x.1 = id then x.2 else 0) + fillQty id l := by
  unfold fillQty
  by_cases h : x.1 = id <;> simp [h]

lemma fillQty_append (id : OrderId) (l l' : List (OrderId × ℤ)) :
    fillQty id (l ++ l') = fillQty id l + fillQty id l' := by
  simp [fillQty]

lemma fillQty_eq_zero {id : OrderId} {l : List (OrderId × ℤ)} (h : id ∉ l.map Prod.fst) :
    fillQty id l = 0 := by
  have hnil : l.filter (·.1 = id) = [] := by
    refine List.filter_eq_nil_iff.2 fun x hx => ?_
    simp only [decide_eq_true_eq]
    rintro rfl
    exact h (List.mem_map_of_mem hx)
  rw [fillQty, hnil]
  rfl

/-- Of a list with one entry for an order, its fill is that entry. -/
lemma fillQty_map {ids : List OrderId} (hn : ids.Nodup) (f : OrderId → ℤ) (id : OrderId) :
    fillQty id (ids.map fun i => (i, f i)) = if id ∈ ids then f id else 0 := by
  induction ids with
  | nil => rfl
  | cons i ids ih =>
    rw [List.nodup_cons] at hn
    rw [List.map_cons, fillQty_cons, ih hn.2]
    by_cases hi : i = id
    · subst hi
      simp [hn.1]
    · simp [hi, Ne.symm hi]

/-- Summing the fills by order keeps the fill of each order. -/
lemma fillQty_tally (id : OrderId) (l : List (OrderId × ℤ)) :
    fillQty id (Engine.tally l) = fillQty id l := by
  have hn : ((l.map Prod.fst).dedup.insertionSort (· ≤ ·)).Nodup :=
    (List.perm_insertionSort _ _).nodup_iff.2 (List.nodup_dedup _)
  rw [Engine.tally, fillQty_map hn (fun i => ((l.filter (·.1 = i)).map Prod.snd).sum)]
  split_ifs with hmem
  · rfl
  · refine (fillQty_eq_zero fun h => hmem ?_).symm
    exact (List.mem_insertionSort _).2 (List.mem_dedup.2 h)

/-- The row of an order after some fills. -/
lemma applyAll_fillWrites {t : Table} {l : List (OrderId × ℤ)} {id : OrderId} {row : Row}
    (h : t.applyAll (fillWrites l) id = some row) :
    ∃ row₀, t id = some row₀ ∧ row = { row₀ with leaves := row₀.leaves - fillQty id l } ∧
      (0 < row₀.leaves → 0 < row.leaves) := by
  induction l generalizing t with
  | nil => exact ⟨row, h, by simp [fillQty], fun h => h⟩
  | cons x l ih =>
    obtain ⟨row₁, hrow₁, rfl, hpos⟩ := ih h
    simp only [Table.apply] at hrow₁
    rw [fillQty_cons]
    split_ifs at hrow₁ with hid
    · obtain ⟨row₀, hrow₀, hfill⟩ := Option.bind_eq_some_iff.1 hrow₁
      unfold Table.fillRow at hfill
      split_ifs at hfill with hle
      obtain rfl := Option.some.inj hfill
      refine ⟨row₀, hrow₀, ?_, fun _ => hpos (by dsimp only; omega)⟩
      simp only [if_pos hid.symm, Row.mk.injEq, true_and, and_true]
      omega
    · refine ⟨row₁, hrow₁, ?_, hpos⟩
      rw [if_neg (Ne.symm hid), zero_add]

/-- The row of an order after some reports of resting orders. -/
lemma applyAll_restWrites (t : Table) (s : Symbol) (l : List Order) (id : OrderId) :
    t.applyAll (restWrites s l) id = (lastRecord l id).elim (t id) fun o => some (o.row s) := by
  induction l using List.reverseRecOn with
  | nil => rfl
  | append_singleton l o ih =>
    rw [restWrites, List.map_append, Table.applyAll_append, lastRecord_append_singleton]
    show (if id = o.id then some (o.row s) else t.applyAll (restWrites s l) id) = _
    by_cases h : o.id = id
    · rw [if_pos h, if_pos h.symm]
      rfl
    · rw [if_neg h, if_neg (Ne.symm h), ih]

/-- The book of its instrument has at least the quantity of the row. -/
def Covers (B : Symbol → Book) (id : OrderId) (row : Row) : Prop :=
  0 < row.leaves ∧ row.leaves ≤ (B row.symbol).view.leaves id

/-- Every row of an order is covered by the book. -/
def Covered (L : Ledger) : Prop :=
  ∀ id row, L.table id = some row → id ≠ 0 → Covers L.books id row

/-- The operation leaves current records of re-queued orders, and cancels no resting order. -/
def KeepsRecords (b : Book) (_ : Option Order) (_ : List Trade) (b' : Book) : Prop :=
  b'.Current ∧ ∀ ev ∈ b'.events.drop b.events.length, ev.type ≠ .cancel

instance (b : Book) (o : Option Order) (ts : List Trade) (b' : Book) :
    Decidable (KeepsRecords b o ts b') := inferInstanceAs (Decidable (_ ∧ _))

/-- The fills of all makers are reported, with those of the taker. -/
def FillsReported (ms : List Mut) (l : List (OrderId × ℤ)) : Prop :=
  ∀ id, makerQty id (Mut.trades ms) ≤ fillQty id l

/-- Fills that are reported keep a row covered. -/
lemma FillsReported.covered {b b' : Book} {new : List Active} {ms : List Mut}
    {l : List (OrderId × ℤ)} (hl : FillsReported ms l) (hb : WF b) (hst : Step b new ms b')
    (hwin : b.memLevels = 0) (hno : ∀ e, Mut.remove e ∉ ms) {id : OrderId} {n : ℤ}
    (hn : n ≤ b.view.leaves id + (ms.map (Mut.rested id)).sum) :
    n - fillQty id l ≤ b'.view.leaves id := by
  have hacc := @View.Run.leaves_eq _ _ _ id hst.evolves.run hb.sound (hst.evolves.windowed hwin)
    fun e he => absurd he (hno e)
  have hfill := (hst.evolves.run.filled_le id).2
  have := hl id
  omega

lemma fillQty_makers (id : OrderId) (ts : List Trade) :
    fillQty id (ts.map fun t => (t.makerId, t.qty)) = makerQty id ts := by
  induction ts with
  | nil => rfl
  | cons t ts ih => rw [List.map_cons, fillQty_cons, makerQty_cons, ih]

/-- The trades of an auction are reported for both sides. -/
lemma makerQty_le_fillQty {ts : List Trade} (h : ∀ t ∈ ts, 0 ≤ t.qty) (id : OrderId) :
    makerQty id ts ≤ fillQty id (ts.flatMap fun t => [(t.takerId, t.qty), (t.makerId, t.qty)]) := by
  induction ts with
  | nil => exact le_rfl
  | cons t ts ih =>
    have hrec := ih fun x hx => h x (by simp [hx])
    have hqty := h t (by simp)
    rw [List.flatMap_cons, fillQty_append, fillQty_cons, fillQty_cons, makerQty_cons]
    simp only [fillQty, List.filter_nil, List.map_nil, List.sum_nil]
    simp only [fillQty] at hrec
    split_ifs <;> omega

lemma leaves_of_find {b : Book} (hb : WF b) {id : OrderId} {o : Order}
    (h : b.find id = some o) : 0 < o.leaves ∧ b.view.leaves id = o.leaves := by
  obtain ⟨e, he, rfl⟩ := Option.map_eq_some_iff.1 h
  have he : b.view.entry id = some e := he
  exact ⟨(hb.sound.entry_ok id e he).leaves_pos, View.leaves_of_entry he⟩

/-- The row of an order after the reports of an operation: the last record of the re-queued
order, or what the other reports make of its row. -/
lemma table_record (L : Ledger) (s : Symbol) (b' : Book) (ws : List Write) (id : OrderId) :
    (L.record s b' ws).table id = (lastRecord b'.requeued id).elim (L.table.applyAll ws id)
      fun o => some (o.row s) := by
  rw [table, record, Table.applyAll_append, Table.applyAll_append, applyAll_restWrites]
  rfl

/-- A row after the reports of an operation is a record of a re-queued order, or it was there
before them. -/
lemma row_record {L : Ledger} {s : Symbol} {b' : Book} {ws : List Write} {id : OrderId} {row : Row}
    (h : (L.record s b' ws).table id = some row) :
    (∃ o, lastRecord b'.requeued id = some o ∧ row = o.row s) ∨
      L.table.applyAll ws id = some row := by
  rw [table_record] at h
  cases hl : lastRecord b'.requeued id with
  | none =>
    rw [hl] at h
    exact .inr h
  | some o =>
    rw [hl] at h
    exact .inl ⟨o, rfl, (Option.some.inj h).symm⟩

/-- Fills keep a row covered that an order covered before, or that the operation put there. -/
lemma FillsReported.covers {B : Symbol → Book} {s : Symbol} {b' : Book} {new : List Active}
    {ms : List Mut} {l : List (OrderId × ℤ)} (hl : FillsReported ms l) (hb : WF (B s))
    (hst : Step (B s) new ms b') (hwin : (B s).memLevels = 0) (hno : ∀ e, Mut.remove e ∉ ms)
    {t : Table} {id : OrderId} {row : Row} (hrow : t.applyAll (fillWrites l) id = some row)
    (ht : ∀ row₀, t id = some row₀ → Covers B id row₀ ∨ (row₀.symbol = s ∧ 0 < row₀.leaves ∧
      row₀.leaves ≤ (ms.map (Mut.rested id)).sum)) :
    Covers (Function.update B s b') id row := by
  obtain ⟨row₀, hrow₀, rfl, hpos⟩ := applyAll_fillWrites hrow
  have hrested := (hst.evolves.run.rested_pos id).1
  have hfill : 0 ≤ fillQty id l :=
    ((hst.evolves.run.filled_le id).1.trans (hst.evolves.run.filled_le id).2).trans (hl id)
  have hsame : ∀ n, n ≤ (B s).view.leaves id + (ms.map (Mut.rested id)).sum →
      n - fillQty id l ≤ b'.view.leaves id := fun n hn => hl.covered hb hst hwin hno hn
  unfold Covers
  rcases ht row₀ hrow₀ with ⟨hlt, hle⟩ | ⟨hsym, hlt, hle⟩
  · refine ⟨hpos hlt, ?_⟩
    by_cases hs : row₀.symbol = s
    · dsimp only
      rw [hs] at hle ⊢
      rw [Function.update_self]
      exact hsame _ (by omega)
    · dsimp only
      rw [Function.update_of_ne hs]
      omega
  · refine ⟨hpos hlt, ?_⟩
    have hnonneg : 0 ≤ (B s).view.leaves id := hb.sound.leaves_nonneg id
    dsimp only
    rw [hsym, Function.update_self]
    exact hsame _ (by omega)

section Step

variable {B : Symbol → Book} {b' : Book} {ms : List Mut} {t : Table} {id : OrderId} {row : Row}

/-- A current record of a re-queued order is covered. -/
lemma covers_record (hb : WF b') (s : Symbol) {o : Order} (ho : b'.find id = some o) :
    Covers (Function.update B s b') id (o.row s) := by
  obtain ⟨hpos, hle⟩ := leaves_of_find hb ho
  refine ⟨hpos, ?_⟩
  show o.leaves ≤ (Function.update B s b' s).view.leaves id
  rw [Function.update_self, hle]

/-- The reports of a placement keep the rows covered. -/
lemma covers_place {s : Symbol} {o : Order} {out : SubmitOutcome} (hb : WF (B s))
    (hst : Step (B s) [⟨o, .submitted⟩] ms b') (hwin : (B s).memLevels = 0)
    (hrep : Reported (B s) o ms out)
    (hno : ∀ e, Mut.remove e ∉ ms) (ht : ∀ row, t id = some row → Covers B id row) (hid : id ≠ 0)
    (hrow : t.applyAll (placeWrites s o out) id = some row) :
    Covers (Function.update B s b') id row := by
  obtain ⟨l, hl, hws⟩ : ∃ l, FillsReported ms l ∧ placeWrites s o out =
      (if Engine.rests out = true then restWrites s [out.resting] else []) ++ fillWrites l := by
    refine ⟨(if 0 < out.filled then [(o.id, out.filled)] else []) ++
      Engine.tally (out.trades.map fun t => (t.makerId, t.qty)), fun i => ?_, ?_⟩
    · rw [fillQty_append, fillQty_tally, fillQty_makers, hrep.trades]
      have : 0 ≤ fillQty i (if 0 < out.filled then [(o.id, out.filled)] else []) := by
        split_ifs with hf
        · rw [fillQty_cons]
          simp only [fillQty, List.filter_nil, List.map_nil, List.sum_nil]
          split_ifs <;> omega
        · exact le_rfl
      omega
    · rw [placeWrites, List.append_assoc]
      split_ifs <;> simp [fillWrites]
  rw [hws, Table.applyAll_append] at hrow
  refine hl.covers hb hst hwin hno hrow fun row₀ hrow₀ => ?_
  split_ifs at hrow₀ with hrests
  · rw [applyAll_restWrites] at hrow₀
    by_cases hi : out.resting.id = id
    · -- the order that was submitted came to rest
      have hresting := hrep.resting (by simpa [Engine.rests] using hrests)
      rcases hresting with ⟨-, hdef⟩ | ⟨-, ⟨-, -, hmem⟩ | ⟨-, -, hmem, -⟩⟩
      · rw [hdef] at hi
        exact absurd hi.symm hid
      · have hle := (hst.evolves.run.rested_pos id).2 _ hmem hi
        obtain rfl : out.resting.row s = row₀ := by simpa [lastRecord, hi] using hrow₀
        exact .inr ⟨rfl, hle⟩
      · exact absurd hwin hmem
    · refine .inl (ht _ ?_)
      simpa [lastRecord, hi] using hrow₀
  · exact .inl (ht _ hrow₀)

/-- The reports of an auction keep the rows covered. -/
lemma covers_auction {s : Symbol} (hb : WF (B s)) (hst : Step (B s) [] ms b')
    (hwin : (B s).memLevels = 0) (hno : ∀ e, Mut.remove e ∉ ms)
    (ht : ∀ row, t id = some row → Covers B id row)
    (hrow : t.applyAll (auctionWrites (Mut.trades ms)) id = some row) :
    Covers (Function.update B s b') id row := by
  refine FillsReported.covers (fun i => ?_) hb hst hwin hno hrow fun row₀ hrow₀ =>
    .inl (ht _ hrow₀)
  rw [fillQty_tally]
  exact makerQty_le_fillQty (fun t ht => hst.evolves.run.trade_nonneg ht) i

/-- A cancellation keeps the rows of other orders covered. -/
lemma covers_cancel {s : Symbol} {i : OrderId} (hb : WF (B s)) (hst : Step (B s) [] ms b')
    (hwin : (B s).memLevels = 0) (hms : Cancels i ms)
    (ht : ∀ row, t id = some row → Covers B id row)
    (hrow : t.applyAll [.cancel i] id = some row) :
    Covers (Function.update B s b') id row := by
  have hrow : (if id = i then none else t id) = some row := hrow
  split_ifs at hrow with hne
  have hcov := ht row hrow
  refine ⟨hcov.1, ?_⟩
  by_cases hs : row.symbol = s
  · have hle := hcov.2
    have hrested := (hst.evolves.run.rested_pos id).1
    have hacc := @View.Run.leaves_eq _ _ _ id hst.evolves.run hb.sound (hst.evolves.windowed hwin)
      fun e he => hms.ne_of_remove he (Ne.symm hne)
    rw [hms.filled_eq_zero] at hacc
    rw [hs] at hle ⊢
    rw [Function.update_self]
    omega
  · rw [Function.update_of_ne hs]
    exact hcov.2

end Step

/-- No row outlives its order, if no resting order is cancelled by an order or an auction and
re-queued orders are as they were recorded. -/
theorem covered_of_reach {stp : StpPolicy} {placed : List (Symbol × Order)} {L : Ledger}
    (h : Reach (fun L op => op.native = true ∧ Trading KeepsRecords L.books op) stp placed L) :
    Covered L := by
  refine (h.induction (I := fun _ L => Covered L) (fun L op hC => hC.1) ?_ ?_ ?_).2
  · intro id row hrow
    exact absurd hrow (by simp [Ledger.init, table])
  · intro placed L L' hI hL id row hrow hid
    have hcov := hI id row (by simpa [table, hL.1] using hrow) hid
    unfold Covers
    rw [(hL.2 row.symbol).view]
    exact hcov
  · intro placed L op ms b' ws hok hI hC hop hst hreq heff id row hrow hid
    have hwin : (L.books op.symbol).memLevels = 0 :=
      congrArg Settings.memLevels (hok.settings op.symbol)
    have hsink : (L.books op.symbol).eventSink = true :=
      congrArg Settings.eventSink (hok.settings op.symbol)
    have ht : ∀ row, L.table id = some row → Covers L.books id row := fun row hrow =>
      hI id row hrow hid
    have hrecord : ∀ {s} {o : Order}, b'.find id = some o →
        Covers (Function.update L.books s b') id (o.row s) := fun ho => covers_record hst.wf _ ho
    cases op with
    | place s o =>
      obtain ⟨out, hr, hrep, rfl⟩ := heff
      have hkeep := hC.2 _ hr
      rcases row_record hrow with ⟨o', ho', rfl⟩ | hrow
      · exact hrecord (hkeep.1.find_eq ho')
      · exact covers_place (hok.wf s) hst hwin hrep
          (NoCancels.remove_notMem hkeep.2 hst hsink) ht hid hrow
    | cancel s i =>
      obtain ⟨-, hms, rfl⟩ := heff
      rcases row_record hrow with ⟨o', ho', rfl⟩ | hrow
      · exact hrecord (hms.find_eq_of_lastRecord (hok.wf s).sound hst.evolves.run (hreq ▸ ho'))
      · exact covers_cancel (hok.wf s) hst hwin hms ht hrow
    | auction s opening =>
      obtain ⟨hr, rfl⟩ := heff
      have hkeep := hC.2 _ hr
      rcases row_record hrow with ⟨o', ho', rfl⟩ | hrow
      · exact hrecord (hkeep.1.find_eq ho')
      · exact covers_auction (hok.wf s) hst hwin (NoCancels.remove_notMem hkeep.2 hst hsink) ht hrow
    | pull s side orders => exact False.elim heff

end Ledger

namespace Config

open Ledger (Trading RestsDirectly KeepsRecords)

variable {stp : StpPolicy} {c : Config}

/-- The storage helper after it handled all requests that were sent. -/
def helper (c : Config) : StorageHelper.State :=
  ({} : StorageHelper.State).handleAll .exact c.client.sent

/-- It gets them from the bytes of the connection, in whatever chunks they come, if the text codec
carries them: no symbol and no owner has a line feed in it or a carriage return at its end. -/
theorem handleAll_bytes (h : ∀ msg ∈ c.client.sent, TextHelperCodec.Writable msg)
    {chunks : List (List Char)}
    (hchunks : chunks.flatten = c.client.sent.flatMap TextHelperCodec.encode) :
    ({} : StorageHelper.State).handleAll .exact (HelperCodec.text.parser.feedAll () chunks).outs
      = c.helper := by
  rw [TextHelperCodec.feedAll_encode h hchunks, helper]

lemma helper_refines (c : Config) :
    c.helper.Ok ∧ c.helper.table = (c.ledger []).table := by
  obtain ⟨hok, htab⟩ := StorageHelper.State.handleAll_refines StorageHelper.State.ok_empty
    c.client.sent
  refine ⟨hok, htab.trans ?_⟩
  rw [StorageHelper.State.table_empty, Ledger.table, ledger, List.append_nil]

/-! ### No resting order is missing -/

/-- Back in the event loop, every resting order was reported with its id, side and price. -/
def NoneMissing (c : Config) : Prop :=
  c.stack = [] → ∀ s id o, (c.books s).find id = some o → ∃ msg ∈ c.client.sent,
    ∃ row, .rest id row ∈ StorageHelper.writes msg ∧ row.symbol = s ∧
      row.side = sideName o.side ∧ row.price = o.price

/-- No resting order is missing from storage in runs in which orders come to rest by their own
submission only. -/
theorem noneMissing_of_reach (h : Reach (Orderly (Trading RestsDirectly)) stp 0 c) :
    NoneMissing c := by
  intro hk s id o ho
  obtain ⟨e, he, rfl⟩ := Option.map_eq_some_iff.1 ho
  obtain ⟨row, hrow, hrest⟩ :=
    Ledger.restsReported_of_reach (Orderly.ledger_of_reach h hk) s id e he
  rw [ledger, List.append_nil] at hrow
  obtain ⟨msg, hmsg, hrow⟩ := List.mem_flatMap.1 hrow
  exact ⟨msg, hmsg, row, hrow, hrest⟩

/-- A sell order rests, and a part of it is bought. -/
theorem noneMissing_of_reach_partial : ∃ c,
    Reach (Orderly (Trading RestsDirectly)) .none 0 c ∧ c.stack = [] ∧
      ((c.books "ABC").find 1).map (·.leaves) = some 3 ∧ NoneMissing c := by
  let acts := placeActs "ABC" "" { side := .sell, qty := 5, price := 100 } "a" 1 ++
    placeActs "ABC" "" { qty := 2, price := 100 } "b" 3
  obtain ⟨c, hc, hstack, hleft⟩ : ∃ c,
      Reach (fun c a => checkOrderly (Ledger.checkTrading RestsDirectly 8) c a = true) .none 0 c ∧
      c.stack = [] ∧ ((c.books "ABC").find 1).map (·.leaves) = some 3 :=
    Machine.Reach.exists_of_acts 8 acts (by decide +kernel)
  have hc' : Reach (Orderly (Trading RestsDirectly)) .none 0 c :=
    hc.mono fun c a => orderly_of_check fun B op => Ledger.trading_of_check
  exact ⟨c, hc', hstack, hleft, noneMissing_of_reach hc'⟩

/-- A limit-on-open order rests after the opening auction, and no rest is ever reported. -/
theorem unreported_after_auction : ∃ c, Reach (fun _ _ => True) .none 0 c ∧ c.stack = [] ∧
    c.client.sent.map (·.type) = ["report_order"] ∧
    ((c.books "ABC").find 1).map (·.leaves) = some 1 ∧ ¬ NoneMissing c := by
  let acts := placeActs "ABC" "" { qty := 1, price := 100, flags := { loo := true } } "a" 1 ++
    auctionActs "ABC" true
  obtain ⟨c, hc, hstack, hsent, hwrites, hleft⟩ : ∃ c, Reach (fun _ _ => True) .none 0 c ∧
      c.stack = [] ∧ c.client.sent.map (·.type) = ["report_order"] ∧
      c.client.sent.flatMap StorageHelper.writes = [] ∧
      ((c.books "ABC").find 1).map (·.leaves) = some 1 :=
    Machine.Reach.exists_of_acts 8 acts (by decide +kernel)
  refine ⟨c, hc, hstack, hsent, hleft, fun hn => ?_⟩
  obtain ⟨o, ho, -⟩ := Option.map_eq_some_iff.1 hleft
  obtain ⟨msg, hmsg, row, hrow, -⟩ := hn hstack "ABC" 1 o ho
  have hmem := List.mem_flatMap.2 ⟨msg, hmsg, hrow⟩
  rw [hwrites] at hmem
  exact absurd hmem List.not_mem_nil

/-! ### No ghosts -/

/-- Back in the event loop, every order that storage holds rests in its book.  No order has
the id 0. -/
def NoGhosts (c : Config) : Prop :=
  c.stack = [] → ∀ s side price, ∀ o ∈ c.helper.restingAt (s, side) price, o.id ≠ 0 →
    ((c.books s).find o.id).isSome = true

/-- Storage holds no order that is gone, in runs in which no placement and no auction cancels a
resting order or leaves a record of a re-queued order that is out of date. -/
theorem noGhosts_of_reach (h : Reach (Orderly (Trading KeepsRecords)) stp 0 c) : NoGhosts c := by
  intro hk s side price o ho hid
  obtain ⟨hok, htab⟩ := c.helper_refines
  have hrow : (c.ledger []).table o.id = some ⟨s, side, price, o.leaves, o.seq⟩ := by
    rw [← htab]
    exact hok.table_eq_some.2 ⟨o, ho, rfl, rfl, rfl⟩
  have hcov := Ledger.covered_of_reach (Orderly.ledger_of_reach h hk) o.id _ hrow hid
  have hpos : 0 < (c.books s).view.leaves o.id := hcov.1.trans_le hcov.2
  unfold View.leaves at hpos
  cases he : (c.books s).view.entry o.id with
  | none => simp [he] at hpos
  | some e =>
    have he : (c.books s).orders.lookup o.id = some e := he
    simp [Book.find, he]

/-- The first slice of an iceberg order is bought, and a plain order is bought whole. -/
theorem noGhosts_of_reach_slice : ∃ c, Reach (Orderly (Trading KeepsRecords)) .none 0 c ∧
    c.stack = [] ∧ (c.helper.restingAt ("ABC", "sell") 99).map (·.id) = [] ∧
    (c.helper.restingAt ("ABC", "sell") 100).map (fun o => (o.id, o.leaves)) = [(1, 2)] ∧
    NoGhosts c := by
  let iceberg : Order :=
    { side := .sell, qty := 4, displayQty := 2, price := 100, flags := { iceberg := true } }
  let acts := placeActs "ABC" "" iceberg "a" 1 ++
    placeActs "ABC" "" { side := .sell, qty := 1, price := 99 } "b" 3 ++
    placeActs "ABC" "" { qty := 3, price := 100 } "c" 5
  obtain ⟨c, hc, hstack, hgone, hslice⟩ : ∃ c,
      Reach (fun c a => checkOrderly (Ledger.checkTrading KeepsRecords 8) c a = true) .none 0 c ∧
      c.stack = [] ∧ (c.helper.restingAt ("ABC", "sell") 99).map (·.id) = [] ∧
      (c.helper.restingAt ("ABC", "sell") 100).map (fun o => (o.id, o.leaves)) = [(1, 2)] :=
    Machine.Reach.exists_of_acts 8 acts (by decide +kernel)
  have hc' : Reach (Orderly (Trading KeepsRecords)) .none 0 c :=
    hc.mono fun c a => orderly_of_check fun B op => Ledger.trading_of_check
  exact ⟨c, hc', hstack, hgone, hslice, noGhosts_of_reach hc'⟩

/-- Both slices of an iceberg order are bought at once: the order is gone, but the record of
its second slice is sent after the fills, and storage keeps it. -/
theorem ghost_after_replenish : ∃ c, Reach (fun _ _ => True) .none 0 c ∧ c.stack = [] ∧
    (c.books "ABC").find 1 = none ∧
    (c.helper.restingAt ("ABC", "sell") 100).map (fun o => (o.id, o.leaves)) = [(1, 2)] ∧
    ¬ NoGhosts c := by
  let iceberg : Order :=
    { side := .sell, qty := 4, displayQty := 2, price := 100, flags := { iceberg := true } }
  let acts := placeActs "ABC" "" iceberg "a" 1 ++
    placeActs "ABC" "" { qty := 4, price := 100 } "b" 3
  obtain ⟨c, hc, hstack, hgone, hkept⟩ : ∃ c, Reach (fun _ _ => True) .none 0 c ∧ c.stack = [] ∧
      (c.books "ABC").find 1 = none ∧
      (c.helper.restingAt ("ABC", "sell") 100).map (fun o => (o.id, o.leaves)) = [(1, 2)] :=
    Machine.Reach.exists_of_acts 8 acts (by decide +kernel)
  refine ⟨c, hc, hstack, hgone, hkept, fun hn => ?_⟩
  obtain ⟨o, ho, hid⟩ := List.mem_map.1 (hkept ▸ List.mem_singleton_self ((1, 2) : ℕ × ℤ))
  simp only [Prod.mk.injEq] at hid
  have hsome := hn hstack "ABC" "sell" 100 o ho (by rw [hid.1]; decide)
  rw [hid.1, hgone] at hsome
  exact absurd hsome (by simp)

end Config

end Codicis
