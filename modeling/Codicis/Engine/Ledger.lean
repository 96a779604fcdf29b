/-
The books and the storage helper, without the engine between them.

A ledger has the books of all instruments and the writes that storage gets.  An operation
changes one book and appends the writes that the engine reports for it, in one step: the
order that comes to rest, the fills of the taker and of the makers, a cancel, and last
the orders that were re-queued.  Orders that are pulled back from storage change a book and
write nothing.  `Engine/Reports.lean` shows that the engine is such a ledger, however its
steps are interleaved, as long as its connection to storage is open.
-/
import Codicis.Engine.TradingEngine
import Codicis.Ipc.RestingTable
import Codicis.Core.Account
import Codicis.Core.Runs

namespace Codicis

/-- The books differ at most in the positions of the accounts and in the records of
re-queued orders. -/
def Book.Alike (b b' : Book) : Prop := ∃ ps rs, b' = { b with positions := ps, requeued := rs }

lemma Book.Alike.refl (b : Book) : b.Alike b := ⟨b.positions, b.requeued, rfl⟩

namespace Book.Alike

variable {b b' : Book}

lemma view (h : b.Alike b') : b'.view = b.view := by
  obtain ⟨ps, rs, rfl⟩ := h
  rfl

lemma frame (h : b.Alike b') : b'.frame = b.frame := by
  obtain ⟨ps, rs, rfl⟩ := h
  rfl

lemma wf (h : b.Alike b') (hb : WF b) : WF b' := by
  obtain ⟨ps, rs, rfl⟩ := h
  exact ⟨hb.sound, hb.waits, hb.stop_id, hb.cached⟩

lemma live (h : b.Alike b') {id : OrderId} (hl : Live b' id) : Live b id := by
  obtain ⟨ps, rs, rfl⟩ := h
  exact hl

end Book.Alike

/-! ### Ledgers -/

/-- The books of all instruments and the writes of storage. -/
@[ext] structure Ledger where
  books : Symbol → Book
  writes : List Write

namespace Ledger

/-- The operations of a ledger. -/
inductive Op
  | place (symbol : Symbol) (o : Order)
  | cancel (symbol : Symbol) (id : OrderId)
  | auction (symbol : Symbol) (opening : Bool)
  | pull (symbol : Symbol) (side : Side) (orders : List PulledOrder)

/-- The instrument of an operation. -/
def Op.symbol : Op → Symbol
  | place s _ => s
  | cancel s _ => s
  | auction s _ => s
  | pull s _ _ => s

/-- The order that an operation places. -/
def Op.placed : Op → List (Symbol × Order)
  | place s o => [(s, o)]
  | _ => []

/-- Nothing is pulled. -/
def Op.native : Op → Bool
  | pull _ _ _ => false
  | _ => true

lemma Op.symbol_of_placed {op : Op} {x : Symbol × Order} (h : x ∈ op.placed) : x.1 = op.symbol := by
  cases op <;> simp_all [Op.placed, Op.symbol]

/-- A pulled order as it is materialised. -/
def pulledOrder (side : Side) (po : PulledOrder) : Order :=
  { id := po.id, side := side, type := .limit, price := po.price, qty := po.leaves,
    leaves := po.leaves, seq := po.seq, rank := po.seq }

/-- Materialise a pulled order, unless it is resident. -/
def materialise (side : Side) (b : Book) (po : PulledOrder) : Book :=
  if (b.find po.id).isSome = true then b else b.insertResident (pulledOrder side po)

/-- The reports of orders that rest. -/
def restWrites (s : Symbol) (l : List Order) : List Write := l.map fun o => .rest o.id (o.row s)

/-- The reports of fills. -/
def fillWrites (l : List (OrderId × ℤ)) : List Write := l.map fun x => .fill x.1 x.2

/-- The reports of a placement, but for the re-queued orders. -/
def placeWrites (s : Symbol) (o : Order) (out : SubmitOutcome) : List Write :=
  (if Engine.rests out = true then restWrites s [out.resting] else []) ++
    (if 0 < out.filled then fillWrites [(o.id, out.filled)] else []) ++
    fillWrites (Engine.tally (out.trades.map fun t => (t.makerId, t.qty)))

/-- The reports of an auction, but for the re-queued orders. -/
def auctionWrites (trades : List Trade) : List Write :=
  fillWrites (Engine.tally (trades.flatMap fun t => [(t.takerId, t.qty), (t.makerId, t.qty)]))

/-- A book changes, and its reports are written. -/
def record (L : Ledger) (s : Symbol) (b : Book) (ws : List Write) : Ledger where
  books := Function.update L.books s b
  writes := L.writes ++ (ws ++ restWrites s b.requeued)

/-- Run an operation. -/
def exec (L : Ledger) : Op → Comp Ledger
  | .place s o => (L.books s).submit o >>= fun r => pure (L.record s r.1 (placeWrites s o r.2))
  | .cancel s id => pure (L.record s ((L.books s).cancel id).1 [.cancel id])
  | .auction s opening =>
    (if opening = true then (L.books s).runOpeningAuction else (L.books s).runClosingAuction) >>=
      fun r => pure (L.record s r.1 (auctionWrites r.2))
  | .pull s side orders =>
    pure { L with books := Function.update L.books s (orders.foldl (materialise side) (L.books s)) }

/-- The resting table after all writes. -/
def table (L : Ledger) : Table := Table.applyAll (fun _ => none) L.writes

/-- The ledgers have the same writes, and their books are alike. -/
def Alike (L L' : Ledger) : Prop := L'.writes = L.writes ∧ ∀ s, (L.books s).Alike (L'.books s)

/-- A ledger without orders. -/
def init (stp : StpPolicy) : Ledger := ⟨fun s => Book.empty 0 stp s true, []⟩

/-- What may be done: orders have identifiers that were not used before, and the re-queued
orders have been reported. -/
def Allowed (placed : List (Symbol × Order)) (L : Ledger) (op : Op) : Prop :=
  (∀ s, (L.books s).requeued = []) ∧
    ∀ x ∈ op.placed, x.2.id ∉ placed.map (·.2.id) ∧ 0 ≤ x.2.displayQty

/-- The ledgers that are reached by operations that satisfy `C`, with the orders that were
placed. -/
inductive Reach (C : Ledger → Op → Prop) (stp : StpPolicy) : List (Symbol × Order) → Ledger → Prop
  | init : Reach C stp [] (init stp)
  | quiet {placed : List (Symbol × Order)} {L L' : Ledger} (h : Reach C stp placed L)
      (hL : L.Alike L') : Reach C stp placed L'
  | step {placed : List (Symbol × Order)} {L L' : Ledger} {op : Op} (h : Reach C stp placed L)
      (hC : C L op) (hop : Allowed placed L op) (hs : (L.exec op).Returns L') :
      Reach C stp (placed ++ op.placed) L'

/-- The results of placing an order, and of an auction, satisfy `R`. -/
def Trading (R : Book → Option Order → List Trade → Book → Prop) (B : Symbol → Book) : Op → Prop
  | .place s o => ∀ r, ((B s).submit o).Returns r → R (B s) (some o) r.2.trades r.1
  | .auction s opening => ∀ r, (if opening = true then (B s).runOpeningAuction
      else (B s).runClosingAuction).Returns r → R (B s) none r.2 r.1
  | _ => True

/-- Run the operation with the bound `n` and check its result. -/
def checkTrading (R : Book → Option Order → List Trade → Book → Prop)
    [∀ b o ts b', Decidable (R b o ts b')] (n : ℕ) (B : Symbol → Book) : Op → Bool
  | .place s o => (((B s).submit o).run n).any fun r => R (B s) (some o) r.2.trades r.1
  | .auction s opening => ((if opening = true then (B s).runOpeningAuction
      else (B s).runClosingAuction).run n).any fun r => R (B s) none r.2 r.1
  | _ => true

lemma trading_of_check {R : Book → Option Order → List Trade → Book → Prop}
    [∀ b o ts b', Decidable (R b o ts b')] {n : ℕ} {B : Symbol → Book} {op : Op}
    (h : checkTrading R n B op = true) : Trading R B op := by
  cases op with
  | place s o =>
    intro r hr
    have hR := Comp.of_run_any (p := fun r : Book × SubmitOutcome =>
      R (B s) (some o) r.2.trades r.1) h hr
    exact of_decide_eq_true hR
  | auction s opening =>
    intro r hr
    have hR := Comp.of_run_any (p := fun r : Book × List Trade => R (B s) none r.2 r.1) h hr
    exact of_decide_eq_true hR
  | cancel s id => trivial
  | pull s side orders => trivial

/-! ### What an operation does -/

/-- Placed orders are in hand. -/
def inHand (placed : List (Symbol × Order)) : List Active := placed.map fun x => ⟨x.2, .submitted⟩

lemma idsOf_inHand (placed : List (Symbol × Order)) :
    Book.idsOf (inHand placed) = placed.map (·.2.id) := by
  simp [Book.idsOf, inHand, Function.comp_def]

/-- The ledger has well-formed books that are wholly in memory, and every order that a book
holds was placed there. -/
structure Ok (stp : StpPolicy) (placed : List (Symbol × Order)) (L : Ledger) : Prop where
  wf : ∀ s, Book.WF (L.books s)
  settings : ∀ s, (L.books s).settings = ⟨0, stp, s, true⟩
  live : ∀ s id, Book.Live (L.books s) id → ∃ o, (s, o) ∈ placed ∧ o.id = id
  nodup : (placed.map (·.2.id)).Nodup

/-- The mutations `ms` of an operation, the book `b'` that it leaves, and the writes `ws` that
report it. -/
def Effect (b : Book) (ms : List Mut) (b' : Book) (ws : List Write) : Op → Prop
  | .place s o => ∃ out, (b.submit o).Returns (b', out) ∧ Book.Reported b o ms out ∧
      ws = placeWrites s o out
  | .cancel _ id => b' = (b.cancel id).1 ∧ Book.Cancels id ms ∧ ws = [.cancel id]
  | .auction _ opening =>
    (if opening = true then b.runOpeningAuction else b.runClosingAuction).Returns
      (b', Mut.trades ms) ∧ ws = auctionWrites (Mut.trades ms)
  | .pull _ _ _ => False

variable {stp : StpPolicy} {placed : List (Symbol × Order)} {L L' : Ledger} {op : Op}

lemma Ok.fresh (h : L.Ok stp placed) {o : Order} (ho : o.id ∉ placed.map (·.2.id)) (s : Symbol) :
    ¬ Book.Live (L.books s) o.id := by
  intro hl
  obtain ⟨o', ho', hid⟩ := h.live s o.id hl
  exact ho (hid ▸ List.mem_map_of_mem ho')

/-- An order is held by one book. -/
lemma Ok.symbol_unique (h : L.Ok stp placed) {s t : Symbol} {id : OrderId}
    (hs : Book.Live (L.books s) id) (ht : Book.Live (L.books t) id) : s = t := by
  obtain ⟨o, ho, hid⟩ := h.live s id hs
  obtain ⟨o', ho', hid'⟩ := h.live t id ht
  exact congrArg Prod.fst (List.inj_on_of_nodup_map h.nodup ho ho' (hid.trans hid'.symm))

/-- An operation changes one book by mutations, and reports them. -/
lemma Ok.effect (h : L.Ok stp placed)
    (hnew : ∀ x ∈ op.placed, x.2.id ∉ placed.map (·.2.id) ∧ 0 ≤ x.2.displayQty)
    (hnat : op.native = true) (hs : (L.exec op).Returns L') :
    ∃ ms b' ws, L' = L.record op.symbol b' ws ∧
      Book.Step (L.books op.symbol) (inHand op.placed) ms b' ∧
      Effect (L.books op.symbol) ms b' ws op := by
  cases op with
  | place s o =>
    obtain ⟨hnew, hd⟩ := hnew (s, o) (by simp [Op.placed])
    obtain ⟨r, hr, hL⟩ := Comp.returns_bind.1 hs
    rw [Comp.returns_pure] at hL
    obtain ⟨ms, hst, hrep, -⟩ := (Book.submit_step (h.wf s) (h.fresh hnew s) hd).of_returns hr
    exact ⟨ms, r.1, _, hL.symm, hst, r.2, hr, hrep, rfl⟩
  | cancel s id =>
    rw [Ledger.exec, Comp.returns_pure] at hs
    obtain ⟨ms, hst, hc, -⟩ := Book.cancel_step (h.wf s) id
    exact ⟨ms, _, _, hs.symm, hst, rfl, hc, rfl⟩
  | auction s opening =>
    obtain ⟨r, hr, hL⟩ := Comp.returns_bind.1 hs
    rw [Comp.returns_pure] at hL
    have hstep : ∃ ms, Book.Step (L.books s) [] ms r.1 ∧ r.2 = Mut.trades ms := by
      have hrun : ∀ q : Instruction, ¬ q.Seeds → q.orders = [] → (q.run (L.books s)).Returns r →
          ∃ ms, Book.Step (L.books s) [] ms r.1 ∧ r.2 = Mut.trades ms := by
        intro q hq ho hr
        obtain ⟨ms, hst, htr⟩ := (q.run_step (h.wf s) hq (by simp [ho])).of_returns hr
        rw [Instruction.inHand, ho] at hst
        exact ⟨ms, hst, htr⟩
      split_ifs at hr
      · exact hrun .runOpeningAuction not_false rfl hr
      · exact hrun .runClosingAuction not_false rfl hr
    obtain ⟨ms, hst, htr⟩ := hstep
    refine ⟨ms, r.1, _, hL.symm, hst, ?_, by rw [← htr]⟩
    rw [← htr]
    exact hr
  | pull s side orders => exact absurd hnat (by simp [Op.native])

/-- If the re-queued orders have been reported, the records are those of the operation. -/
lemma Ok.exec (h : L.Ok stp placed) (hop : Allowed placed L op)
    (hnat : op.native = true) (hs : (L.exec op).Returns L') :
    ∃ ms b' ws, L' = L.record op.symbol b' ws ∧
      Book.Step (L.books op.symbol) (inHand op.placed) ms b' ∧
      b'.requeued = ms.flatMap Mut.requeued ∧
      Effect (L.books op.symbol) ms b' ws op := by
  obtain ⟨ms, b', ws, hL, hst, heff⟩ := h.effect hop.2 hnat hs
  refine ⟨ms, b', ws, hL, hst, ?_, heff⟩
  rw [hst.evolves.requeued, hop.1, List.nil_append]

lemma ok_init (stp : StpPolicy) : (init stp).Ok stp [] where
  wf s := Book.wf_empty 0 stp s true
  settings _ := rfl
  live s id hl := by
    rcases hl with hl | ⟨o, ho, -⟩
    · exact absurd rfl hl
    · exact absurd ho List.not_mem_nil
  nodup := List.nodup_nil

lemma Ok.alike (h : L.Ok stp placed) (hB : ∀ s, (L.books s).Alike (L'.books s)) :
    L'.Ok stp placed where
  wf s := (hB s).wf (h.wf s)
  settings s := (congrArg Frame.settings (hB s).frame).trans (h.settings s)
  live s id hl := h.live s id ((hB s).live hl)
  nodup := h.nodup

lemma Ok.record (h : L.Ok stp placed) {new : List (Symbol × Order)} {s : Symbol}
    (hnew : ∀ x ∈ new, x.1 = s) (hnodup : ((placed ++ new).map (·.2.id)).Nodup) {ms : List Mut}
    {b' : Book} (hst : Book.Step (L.books s) (inHand new) ms b') (ws : List Write) :
    (L.record s b' ws).Ok stp (placed ++ new) where
  wf t := by
    by_cases ht : t = s
    · subst ht
      simpa [Ledger.record] using hst.wf
    · simpa [Ledger.record, ht] using h.wf t
  settings t := by
    by_cases ht : t = s
    · subst ht
      simpa [Ledger.record] using hst.evolves.settings.trans (h.settings t)
    · simpa [Ledger.record, ht] using h.settings t
  live t id hl := by
    by_cases ht : t = s
    · subst ht
      simp only [Ledger.record, Function.update_self] at hl
      rcases hst.live hl with hl | hl
      · obtain ⟨o, ho, hid⟩ := h.live t id hl
        exact ⟨o, List.mem_append_left _ ho, hid⟩
      · rw [idsOf_inHand] at hl
        obtain ⟨x, hx, hid⟩ := List.mem_map.1 hl
        exact ⟨x.2, List.mem_append_right _ (hnew x hx ▸ hx), hid⟩
    · simp only [Ledger.record, Function.update_of_ne ht] at hl
      obtain ⟨o, ho, hid⟩ := h.live t id hl
      exact ⟨o, List.mem_append_left _ ho, hid⟩
  nodup := hnodup

/-- After an operation that places an order with a new identifier. -/
lemma Ok.next (h : L.Ok stp placed) (hnew : ∀ x ∈ op.placed, x.2.id ∉ placed.map (·.2.id))
    {ms : List Mut} {b' : Book} (hst : Book.Step (L.books op.symbol) (inHand op.placed) ms b')
    (ws : List Write) : (L.record op.symbol b' ws).Ok stp (placed ++ op.placed) := by
  refine h.record (fun x hx => Op.symbol_of_placed hx) ?_ hst ws
  rw [List.map_append, List.nodup_append]
  refine ⟨h.nodup, ?_, ?_⟩
  · cases op <;> simp [Op.placed]
  · rintro i hi j hj rfl
    obtain ⟨x, hx, rfl⟩ := List.mem_map.1 hj
    exact hnew x hx hi

/-- The induction over the runs of a ledger whose books are wholly in memory. -/
theorem Reach.induction {C : Ledger → Op → Prop} {I : List (Symbol × Order) → Ledger → Prop}
    (h : Reach C stp placed L) (hC : ∀ L op, C L op → op.native = true)
    (h₀ : I [] (Ledger.init stp))
    (halike : ∀ placed L L', I placed L → L.Alike L' → I placed L')
    (hstep : ∀ placed L op ms b' ws, L.Ok stp placed → I placed L → C L op →
      Allowed placed L op → Book.Step (L.books op.symbol) (inHand op.placed) ms b' →
      b'.requeued = ms.flatMap Mut.requeued → Effect (L.books op.symbol) ms b' ws op →
      I (placed ++ op.placed) (L.record op.symbol b' ws)) : L.Ok stp placed ∧ I placed L := by
  induction h with
  | init => exact ⟨ok_init stp, h₀⟩
  | quiet _ hL ih => exact ⟨ih.1.alike hL.2, halike _ _ _ ih.2 hL⟩
  | @step placed L L' op _ hcond hop hs ih =>
    obtain ⟨ms, b', ws, rfl, hst, hreq, heff⟩ := ih.1.exec hop (hC _ _ hcond) hs
    exact ⟨ih.1.next (fun x hx => (hop.2 x hx).1) hst ws,
      hstep _ _ _ _ _ _ ih.1 ih.2 hcond hop hst hreq heff⟩

end Ledger

end Codicis
