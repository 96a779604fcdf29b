/-
Conservation of quantities and positions.

The orders that a book works with, wherever they rest, wait or are in hand, make up a ledger
(`Moment.lines`): an order is opened when it is submitted, and every beat of an operation strikes
lines from the ledger, cuts a line or books a deal (`Beat.books`).  So no order has two lines, and
what an order has filled is what the executions that name it add up to.

A `Chronicle` is a history together with the log of its instructions and their executions, from
which one can tell when an account was seeded last.
-/
import Codicis.Lib.Ledger
import Codicis.Core.Account
import Codicis.Core.Positions
import Codicis.Core.Quiescence
import Mathlib.Data.Multiset.Range

namespace Codicis

open Book

/-! ### The ledger of a moment -/

/-- The line of an order. -/
def Order.line (o : Order) : Line OrderId := ⟨o.id, o.qty, o.leaves, o.filled⟩

/-- The line of an order that is to be submitted. -/
def Order.newLine (o : Order) : Line OrderId := o.normalize.line

/-- The line of an order in hand. -/
def Active.line (a : Active) : Line OrderId :=
  match a.route with
  | .submitted => a.order.newLine
  | _ => a.order.line

/-- The lines of the orders that rest. -/
def Book.restingLines (b : Book) : Multiset (Line OrderId) := Map.bag (·.order.line) b.orders

/-- The lines of the orders that wait outside the ladders. -/
def Frame.lines (f : Frame) : Multiset (Line OrderId) :=
  Map.bag Order.line f.stops + ↑(f.openingAuction.map Order.line)
    + ↑(f.closingAuction.map Order.line) + ↑(f.held.map Order.newLine)

/-- The lines of all orders of a book. -/
def Book.lines (b : Book) : Multiset (Line OrderId) := b.restingLines + b.frame.lines

/-- The lines of all orders of a moment. -/
def Moment.lines (m : Moment) : Multiset (Line OrderId) :=
  m.book.lines + ↑(m.turn.toList.map fun a => a.order.line) + ↑(m.hand.map Active.line)

lemma Order.line_takeFill (o : Order) (q : ℤ) : (takeFill o q).line = o.line.take q := rfl

lemma Order.newLine_eq (o : Order) : o.newLine
    = ⟨o.id, o.qty, if o.leaves = 0 ∧ o.filled = 0 then o.qty else o.leaves, o.filled⟩ := by
  unfold newLine line normalize normalizeTif
  cases o.tif <;> (dsimp only; split_ifs <;> rfl)

/-- Submitting an order again changes nothing of its line. -/
lemma Order.newLine_stamp (b : Book) (o : Order) : (b.stamp o).newLine = o.newLine := by
  have hstamp : (b.stamp o).line = o.newLine := rfl
  have hline := o.newLine_eq
  rw [← hstamp, line, Line.mk.injEq] at hline
  obtain ⟨hid, hqty, hleaves, hfilled⟩ := hline
  rw [newLine_eq, newLine_eq, hid, hqty, hleaves, hfilled]
  split_ifs <;> rfl

lemma Order.newLine_relink (l : Option LinkSpec) (o : Order) :
    (relink l o).newLine = o.newLine := by
  rw [newLine_eq, newLine_eq]
  rfl

lemma Order.line_armStop (b : Book) (o : Order) : (b.armStop o).line = o.line := by
  rw [armStop_eq]
  rfl

lemma Order.Trails.line {x x' : Order} (h : x.Trails x') : x'.line = x.line := by
  rw [h.eq_trigger]
  rfl

/-! ### What a beat books -/

section Lines

variable {b b' : Book}

lemma restingLines_view (h : b'.view = b.view) : b'.restingLines = b.restingLines :=
  Map.bag_congr _ fun i => congrFun (congrArg View.entry h) i

/-- What is left of a maker that has filled is on the ledger. -/
lemma restingLines_fill {x : Order} {me : Entry} {q : ℤ} {rank : ℕ}
    (h : View.Run b.view [.fill x me q rank] b'.view) :
    ∃ L, b.restingLines = L + {me.order.line} ∧ b'.restingLines ≤ L + {me.order.line.take q} := by
  obtain ⟨he, hupd⟩ := lookup_fill h
  refine ⟨_, Map.bag_erase _ he, ?_⟩
  rw [restingLines, Map.bag_replace _ hupd]
  refine add_le_add le_rfl ?_
  unfold Mut.remaining
  split_ifs
  · exact Multiset.zero_le _
  · exact le_rfl
  · exact le_rfl

lemma restingLines_remove {e : Entry} (h : View.Run b.view [.remove e] b'.view) :
    b.restingLines = b'.restingLines + {e.order.line} := by
  obtain ⟨he, hupd⟩ := lookup_remove h
  rw [restingLines, Map.bag_erase _ he, restingLines, Map.bag_replace _ hupd]
  simp

lemma restingLines_rest {e : Entry} (h : View.Run b.view [.rest e] b'.view) :
    b'.restingLines = b.restingLines + {e.order.line} := by
  obtain ⟨hnone, hupd⟩ := lookup_rest h
  rw [restingLines, restingLines, ← Map.bag_insert _ hnone]
  exact Map.bag_congr _ fun i => by rw [hupd, Map.lookup_insert_eq]

lemma restingLines_move {e : Entry} {p : ℤ} {rank : ℕ}
    (h : View.Run b.view [.move e p rank] b'.view) : b'.restingLines = b.restingLines := by
  obtain ⟨he, hupd⟩ := lookup_move h
  rw [restingLines, Map.bag_replace _ hupd, restingLines, Map.bag_erase _ he]
  rfl

lemma lines_map_le (f : Order → Line OrderId) {l l' : List Order} (h : l.Subperm l') :
    (↑(l.map f) : Multiset (Line OrderId)) ≤ ↑(l'.map f) := by
  rw [← Multiset.map_coe, ← Multiset.map_coe]
  exact Multiset.map_le_map (Multiset.coe_le.2 h)

lemma lines_congr (hv : b'.view = b.view) (hf : b'.frame = b.frame) : b'.lines = b.lines := by
  rw [Book.lines, restingLines_view hv, hf]
  rfl

lemma lines_remove {e : Entry} (h : View.Run b.view [.remove e] b'.view) (hf : b'.frame = b.frame) :
    b.lines = b'.lines + {e.order.line} := by
  rw [Book.lines, Book.lines, restingLines_remove h, hf]
  abel

lemma lines_rest {e : Entry} (h : View.Run b.view [.rest e] b'.view) (hf : b'.frame = b.frame) :
    b'.lines = b.lines + {e.order.line} := by
  rw [Book.lines, Book.lines, restingLines_rest h, hf]
  abel

lemma lines_move {e : Entry} {p : ℤ} {rank : ℕ} (h : View.Run b.view [.move e p rank] b'.view)
    (hf : b'.frame = b.frame) : b'.lines = b.lines := by
  rw [Book.lines, Book.lines, restingLines_move h, hf]

lemma lines_le_of_wanes (hv : b'.view = b.view) (h : Wanes b b') : b'.lines ≤ b.lines := by
  have hstops : Map.bag Order.line b'.stops ≤ Map.bag Order.line b.stops := by
    refine Map.bag_le fun id x' hx' => ?_
    obtain ⟨x, hx, htr⟩ := h.stops id x' hx'
    exact ⟨x, hx, htr.line.symm⟩
  refine add_le_add (restingLines_view hv).le ?_
  exact add_le_add (add_le_add (add_le_add hstops (lines_map_le _ h.opening.subperm))
    (lines_map_le _ h.closing.subperm)) (lines_map_le _ h.held)

lemma lines_opening (b : Book) (l : List Order) :
    ({ b with openingAuction := l } : Book).lines + ↑(b.openingAuction.map Order.line)
      = b.lines + ↑(l.map Order.line) := by
  simp only [Book.lines, Frame.lines, frame, Frame.held, restingLines]
  abel

lemma lines_closing (b : Book) (l : List Order) :
    ({ b with closingAuction := l } : Book).lines + ↑(b.closingAuction.map Order.line)
      = b.lines + ↑(l.map Order.line) := by
  simp only [Book.lines, Frame.lines, frame, Frame.held, restingLines]
  abel

lemma lines_park (b : Book) {k : OrderId} (h : b.stops.lookup k = none) (x : Order) :
    ({ b with stops := b.stops.insert k x } : Book).lines = b.lines + {x.line} := by
  simp only [Book.lines, Frame.lines, frame, Frame.held, restingLines, Map.bag_insert _ h]
  abel

lemma lines_unpark (b : Book) {k : OrderId} {x : Order} (h : b.stops.lookup k = some x) :
    b.lines = ({ b with stops := b.stops.erase k } : Book).lines + {x.line} := by
  simp only [Book.lines, Frame.lines, frame, Frame.held, restingLines, Map.bag_erase _ h]
  abel

lemma lines_hold {x : Order} (h : b.holdChild x = some b') : b'.lines ≤ b.lines + {x.newLine} := by
  obtain ⟨-, hq, -, hstops, hopen, hclose, hsub⟩ := holdChild_spec h
  have hheld := lines_map_le Order.newLine hsub
  rw [List.map_cons, ← Multiset.cons_coe, ← Multiset.singleton_add, add_comm] at hheld
  have hs : b'.frame.stops = b.frame.stops := hstops
  have ho : b'.frame.openingAuction = b.frame.openingAuction := hopen
  have hc : b'.frame.closingAuction = b.frame.closingAuction := hclose
  rw [Book.lines, Frame.lines, hs, ho, hc, restingLines_view hq.view]
  simp only [Book.lines, Frame.lines, add_assoc]
  gcongr

lemma lines_release {gid : ℕ} {gr : Group} {cs : List Order}
    (h : (b.group gid).children.Perm (cs ++ gr.children)) :
    b.lines = (b.setGroup gid gr).lines + ↑(cs.map Order.newLine) := by
  have hlines := Multiset.coe_eq_coe.2 ((held_release h).map Order.newLine)
  have hs : (b.setGroup gid gr).frame.stops = b.frame.stops := rfl
  have ho : (b.setGroup gid gr).frame.openingAuction = b.frame.openingAuction := rfl
  have hc : (b.setGroup gid gr).frame.closingAuction = b.frame.closingAuction := rfl
  have hr : (b.setGroup gid gr).restingLines = b.restingLines := rfl
  rw [Book.lines, Frame.lines, hlines, Book.lines, Frame.lines, hs, ho, hc, hr]
  simp only [List.map_append, ← Multiset.coe_add]
  abel

lemma lines_auctioned (queue : List Order) :
    (auctioned queue).map Active.line = queue.map Order.line := by
  rw [auctioned, List.map_map]
  rfl

/-- The lines of a queue, by position. -/
lemma lines_queue (queue : List Order) : (↑(queue.map Order.line) : Multiset (Line OrderId))
    = (Multiset.range queue.length).map fun k => (queued queue k).line := by
  refine congrArg _ (List.ext_getElem (by simp) fun k hk _ => ?_)
  have hk' : k < queue.length := by simpa using hk
  simp [queued, hk']

/-- Two orders of a queue are set. -/
lemma lines_set_set {queue : List Order} {i j : ℕ} (hi : i < queue.length) (hj : j < queue.length)
    (hne : i ≠ j) : ∃ L : Multiset (Line OrderId),
      ↑(queue.map Order.line) = L + {(queued queue i).line} + {(queued queue j).line} ∧
      ∀ x y : Order, (↑(((queue.set i x).set j y).map Order.line) : Multiset (Line OrderId))
        = L + {x.line} + {y.line} := by
  -- the other positions
  set R := ((Multiset.range queue.length).erase j).erase i with hR
  have hrange : Multiset.range queue.length = R + {i} + {j} := by
    rw [add_comm (R + {i}), Multiset.singleton_add, add_comm R, Multiset.singleton_add, hR,
      Multiset.cons_erase, Multiset.cons_erase]
    · exact Multiset.mem_range.2 hj
    · exact (Multiset.mem_erase_of_ne hne).2 (Multiset.mem_range.2 hi)
  have hother : ∀ k ∈ R, k ≠ i ∧ k ≠ j := by
    have hnd : (R + {i} + {j}).Nodup := hrange ▸ Multiset.nodup_range _
    rw [add_comm (R + {i}), Multiset.singleton_add, add_comm R, Multiset.singleton_add,
      Multiset.nodup_cons, Multiset.nodup_cons, Multiset.mem_cons] at hnd
    intro k hk
    exact ⟨fun h => hnd.2.1 (h ▸ hk), fun h => hnd.1 (.inr (h ▸ hk))⟩
  refine ⟨R.map fun k => (queued queue k).line, ?_, fun x y => ?_⟩
  · rw [lines_queue, hrange, Multiset.map_add, Multiset.map_add, Multiset.map_singleton,
      Multiset.map_singleton]
  · have hlen : ((queue.set i x).set j y).length = queue.length := by simp
    have hsame : R.map (fun k => (queued ((queue.set i x).set j y) k).line)
        = R.map fun k => (queued queue k).line := by
      refine Multiset.map_congr rfl fun k hk => ?_
      obtain ⟨hki, hkj⟩ := hother k hk
      simp [queued, List.getD_eq_getElem?_getD, List.getElem?_set_ne (Ne.symm hkj),
        List.getElem?_set_ne (Ne.symm hki)]
    have hxi : queued ((queue.set i x).set j y) i = x := by
      simp [queued, List.getD_eq_getElem?_getD, hne.symm, hi]
    have hyj : queued ((queue.set i x).set j y) j = y := by
      simp [queued, List.getD_eq_getElem?_getD, hj]
    rw [lines_queue, hlen, hrange, Multiset.map_add, Multiset.map_add, Multiset.map_singleton,
      Multiset.map_singleton, hsame, hxi, hyj]

end Lines

/-! ### Moments -/

section Moments

variable (b : Book) (t : Option Active) (a : Active) (hand hand' : List Active)

lemma Moment.lines_turn : Moment.lines ⟨b, some a, hand⟩
    = Moment.lines ⟨b, none, hand⟩ + {a.order.line} := by
  simp only [Moment.lines, Option.toList_some, Option.toList_none, List.map_cons, List.map_nil,
    Multiset.coe_singleton, Multiset.coe_nil]
  abel

lemma Moment.lines_idle : Moment.lines ⟨b, none, []⟩ = b.lines := by
  simp [Moment.lines]

lemma Moment.lines_hand : Moment.lines ⟨b, t, a :: hand⟩
    = Moment.lines ⟨b, t, hand⟩ + {a.line} := by
  simp only [Moment.lines, List.map_cons, ← Multiset.cons_coe, ← Multiset.singleton_add]
  abel

lemma Moment.lines_append : Moment.lines ⟨b, t, hand' ++ hand⟩
    = Moment.lines ⟨b, t, hand⟩ + ↑(hand'.map Active.line) := by
  simp only [Moment.lines, List.map_append, ← Multiset.coe_add]
  abel

variable {b} {b' : Book}

/-- The book changes and the orders in hand do not. -/
lemma Moment.lines_book {X Y : Multiset (Line OrderId)} (h : b'.lines + X = b.lines + Y) :
    Moment.lines ⟨b', t, hand⟩ + X = Moment.lines ⟨b, t, hand⟩ + Y := by
  have hcomm : ∀ (b : Book) (X : Multiset (Line OrderId)), Moment.lines ⟨b, t, hand⟩ + X
      = b.lines + X + (↑(t.toList.map fun a => a.order.line) + ↑(hand.map Active.line)) := by
    intro b X
    simp only [Moment.lines]
    abel
  rw [hcomm, hcomm, h]

lemma Moment.lines_mono {X : Multiset (Line OrderId)} (h : b'.lines ≤ b.lines + X) :
    Moment.lines ⟨b', t, hand⟩ ≤ Moment.lines ⟨b, t, hand⟩ + X := by
  obtain ⟨Y, hY⟩ := Multiset.le_iff_exists_add.1 h
  have hbook : b.lines + X = b'.lines + Y := hY
  rw [Moment.lines_book t hand hbook]
  exact Multiset.le_add_right _ _

lemma Moment.lines_eq_add {X : Multiset (Line OrderId)} (h : b'.lines = b.lines + X) :
    Moment.lines ⟨b', t, hand⟩ = Moment.lines ⟨b, t, hand⟩ + X := by
  simpa using Moment.lines_book t hand (X := 0) (by simpa using h)

lemma Moment.lines_of_eq (h : b'.lines = b.lines) :
    Moment.lines ⟨b', t, hand⟩ = Moment.lines ⟨b, t, hand⟩ := by
  simpa using Moment.lines_eq_add t hand (X := 0) (by simpa using h)

/-- A fill is a deal, after which a maker that is filled is struck. -/
lemma books_fill {x : Order} {r : Route} {me : Entry} {q : ℤ} {rank : ℕ} (hs : b.view.Sound)
    (hrun : View.Run b.view [.fill x me q rank] b'.view) (hf : b'.frame = b.frame) :
    Ledger.Books (Moment.lines ⟨b, some ⟨x, r⟩, hand⟩) (tradedQty (Mut.trades [.fill x me q rank]))
      (Moment.lines ⟨b', some ⟨takeFill x q, r⟩, hand⟩) := by
  obtain ⟨he, hq, hle, hlx, -⟩ := hrun.of_single.1
  have hlm : q ≤ me.order.leaves := hle.trans (hs.entry_ok _ me he).exposed_le
  obtain ⟨L, hL, hL'⟩ := restingLines_fill hrun
  set K : Multiset (Line OrderId) := L + b.frame.lines + ↑(hand.map Active.line) with hK
  have hbefore : Moment.lines ⟨b, some ⟨x, r⟩, hand⟩ = K + {x.line} + {me.order.line} := by
    rw [Moment.lines_turn]
    simp only [Moment.lines, Book.lines, hL, Option.toList_none, List.map_nil, Multiset.coe_nil, hK]
    abel
  have hafter : Moment.lines ⟨b', some ⟨takeFill x q, r⟩, hand⟩
      ≤ K + {x.line.take q} + {me.order.line.take q} := by
    rw [Moment.lines_turn, Order.line_takeFill]
    have hbook : b'.lines ≤ L + b.frame.lines + {me.order.line.take q} := by
      rw [Book.lines, hf, add_right_comm]
      gcongr
    have hsum : K + {x.line.take q} + {me.order.line.take q}
        = L + b.frame.lines + {me.order.line.take q} + 0 + ↑(hand.map Active.line)
          + {x.line.take q} := by
      rw [hK]
      abel
    rw [hsum]
    exact add_le_add (add_le_add (add_le_add hbook le_rfl) le_rfl) le_rfl
  have hdeal : Ledger.Books (K + {x.line} + {me.order.line})
      (Pi.single x.id q + Pi.single me.order.id q) (K + {x.line.take q} + {me.order.line.take q}) :=
    .deal K hq.le hlx hlm
  rw [hbefore, Mut.trades_fill, tradedQty_singleton, ← add_zero (Pi.single _ _ + _)]
  exact hdeal.trans (.of_le hafter)

/-- The orders on the ledger of a book are live. -/
lemma live_of_lines (hb : WF b) {l : Line OrderId} (hl : l ∈ b.lines) : Live b l.id := by
  have hwait : ∀ x ∈ b.frame.waiting, Live b x.id := fun x hx => .inr ⟨x, hx, rfl⟩
  rw [Book.lines, Frame.lines] at hl
  simp only [Multiset.mem_add, Multiset.mem_coe, List.mem_map] at hl
  rcases hl with hl | ((hl | ⟨x, hx, rfl⟩) | ⟨x, hx, rfl⟩) | ⟨x, hx, rfl⟩
  · obtain ⟨id, e, he, rfl⟩ := Map.mem_bag.1 hl
    have hid : e.order.id = id := hb.sound.id_eq id e he
    refine .inl ?_
    show b.view.entry e.order.id ≠ none
    rw [hid, show b.view.entry id = some e from he]
    simp
  · obtain ⟨id, x, hx, rfl⟩ := Map.mem_bag.1 hl
    exact hwait x (Frame.mem_waiting.2 (.inl ⟨id, hx⟩))
  · exact hwait x (Frame.mem_waiting.2 (.inr (.inl hx)))
  · exact hwait x (Frame.mem_waiting.2 (.inr (.inr (.inl hx))))
  · have hid : x.newLine.id = x.id := congrArg Line.id x.newLine_eq
    rw [hid]
    exact hwait x (Frame.mem_waiting.2 (.inr (.inr (.inr hx))))

end Moments

/-- Nothing has been filled yet of the orders that are to be submitted. -/
def Roles.unfilled : Roles where
  of r x := r = .submitted → x.filled = 0
  resting _ := True
  traits _ _ _ _ h hx hr := (h hr).trans (hx hr)
  traits_resting _ _ := trivial
  enter _ _ := nofun
  queue _ _ := nofun
  park _ _ := nofun
  clear _ := nofun
  rest _ _ _ _ _ := trivial

section Beats

variable {m m' : Moment} {ms : List Mut}

/-- Every beat in an unbounded book is booked. -/
lemma Beat.books (h : Beat m ms m') (hs : m.book.view.Sound) (hmem : m.book.memLevels = 0)
    (hm : m.Plays .unfilled) :
    Ledger.Books m.lines (tradedQty (Mut.trades ms)) m'.lines := by
  have hidle : ∀ {L L' : Multiset (Line OrderId)}, L' = L → Ledger.Books L (tradedQty []) L' := by
    intro L L' h
    rw [tradedQty_nil]
    exact .of_eq h.symm
  have hless : ∀ {L L' : Multiset (Line OrderId)}, L' ≤ L → Ledger.Books L (tradedQty []) L' := by
    intro L L' h
    rw [tradedQty_nil]
    exact .of_le h
  have hstruck : ∀ {L L' X : Multiset (Line OrderId)}, L = L' + X →
      Ledger.Books L (tradedQty []) L' := fun h => hless (h ▸ Multiset.le_add_right _ _)
  cases h with
  | @wane b b' t hand hq hseq hw =>
    exact hless (add_le_add (add_le_add (lines_le_of_wanes hq.view hw) le_rfl) le_rfl)
  | @refuse b hand o => exact hstruck (Moment.lines_hand b none _ hand)
  | @arrive b hand o ha =>
    refine hidle ?_
    rw [Moment.lines_hand, Moment.lines_turn]
    rfl
  | @cap b hand o ha hr hc =>
    rw [Moment.lines_hand, Moment.lines_turn]
    have hfilled : o.newLine.filled = 0 :=
      (congrArg Line.filled o.newLine_eq).trans (hm.hand ⟨o, .submitted⟩ List.mem_cons_self rfl)
    unfold capReduceOnly
    split_ifs with hlt
    · rw [Mut.trades_nil, tradedQty_nil]
      exact Ledger.Books.cut (l := o.newLine) _ hfilled hlt.le
    · exact hidle rfl
  | @hold b b' hand o ha hx =>
    refine hless ?_
    rw [Moment.lines_hand, Active.line]
    refine Moment.lines_mono none hand (b := b.ticked) ?_
    exact o.newLine_stamp b ▸ lines_hold hx
  | @queueOpening b hand x hl hx =>
    refine hidle ?_
    rw [Moment.lines_turn]
    have hbook := Moment.lines_book none hand (lines_opening b (b.openingAuction ++ [x]))
    rw [List.map_append, ← Multiset.coe_add, ← add_assoc, add_right_comm] at hbook
    exact add_right_cancel hbook
  | @queueClosing b hand x hl hx =>
    refine hidle ?_
    rw [Moment.lines_turn]
    have hbook := Moment.lines_book none hand (lines_closing b (b.closingAuction ++ [x]))
    rw [List.map_append, ← Multiset.coe_add, ← add_assoc, add_right_comm] at hbook
    exact add_right_cancel hbook
  | @park b hand x hx hnew hquiet =>
    refine hidle ?_
    rw [Moment.lines_turn, ← x.line_armStop b]
    exact Moment.lines_eq_add none hand (lines_park b hnew (b.armStop x))
  | @spring b hand x hx hlast ht =>
    refine hidle ?_
    rw [Moment.lines_turn, Moment.lines_turn]
    rw [← x.line_armStop b]
    rfl
  | @price b hand x p haw ho hc hp =>
    refine hidle ?_
    rw [Moment.lines_turn, Moment.lines_turn]
    rfl
  | enter =>
    refine hidle ?_
    rw [Moment.lines_turn, Moment.lines_turn]
  | @fill b hand x r me rest hr hl he hside hacc hst haon hev hf =>
    exact books_fill hand hs hev.run hf
  | @prevent b hand a me he hst hr hev hf =>
    exact hstruck (Moment.lines_eq_add (some a) hand (lines_remove hev.run hf))
  | @rest b hand x r tail ev hl hd hn hnew htail hev hf =>
    have hrun := hev.run
    have htrades := htail.trades
    rw [htail.eq_rest hmem hev] at hrun
    rw [htrades, Moment.lines_turn]
    exact hidle (Moment.lines_eq_add none hand (lines_rest hrun hf))
  | @finish b hand a => exact hstruck (Moment.lines_turn b a hand)
  | @fire b hand id x hx hn hev =>
    refine hidle ?_
    rw [Moment.lines_turn, Moment.lines_eq_add none hand (lines_unpark b hx),
      Moment.lines_of_eq none hand (lines_congr (View.Run.of_single hev.run).2
        (frame_emitEvent _ _ _ _ _))]
    rfl
  | @release b hand gid gr cs l hcs =>
    refine hidle ?_
    have hnew : ((cs.map (relink l)).map fun c => (⟨c, .submitted⟩ : Active)).map Active.line
        = cs.map Order.newLine := by
      rw [List.map_map, List.map_map]
      exact List.map_congr_left fun c _ => Order.newLine_relink l c
    rw [Moment.lines_append, Moment.lines_eq_add none hand (lines_release hcs), hnew]
  | @callOpening b hand =>
    refine hidle ?_
    have hbook := Moment.lines_book none hand (lines_opening b [])
    rw [Moment.lines_append, lines_auctioned]
    simpa using hbook
  | @callClosing b hand =>
    refine hidle ?_
    have hbook := Moment.lines_book none hand (lines_closing b [])
    rw [Moment.lines_append, lines_auctioned]
    simpa using hbook
  | @cross b hand queue bi si p q d hbi hsi hbs hss hq hqx hqy hev hf =>
    have hne : bi ≠ si := by
      rintro rfl
      rw [hbs] at hss
      cases hss
    obtain ⟨L, hL, hL'⟩ := lines_set_set hbi hsi hne
    have hview := (View.Run.of_single hev.run).2
    have hdeal := Ledger.Books.deal (Moment.lines ⟨b, none, hand⟩ + L) hq
      (x := (queued queue bi).line) (y := (queued queue si).line) hqx hqy
    rw [Moment.lines_append, Moment.lines_append, lines_auctioned, lines_auctioned, hL, hL',
      Moment.lines_of_eq none hand (lines_congr hview hf), ← add_assoc, ← add_assoc, ← add_assoc,
      ← add_assoc]
    show Ledger.Books _ (tradedQty [_]) _
    rw [tradedQty_singleton]
    exact hdeal
  | @remainder b hand x hx hn =>
    refine hidle ?_
    rw [Moment.lines_turn, Moment.lines_hand]
    rfl
  | @drop b hand x hx => exact hstruck (Moment.lines_hand b none _ hand)
  | @peg b hand id hev => exact hidle rfl
  | @move b hand e p hid he hp hne hev hf =>
    exact hidle (Moment.lines_of_eq none hand (lines_move hev.run hf))
  | @remove b hand e he hev hf =>
    exact hstruck (Moment.lines_eq_add none hand (lines_remove hev.run hf))

lemma composes_books : Composes fun m ms m' =>
    Ledger.Books m.lines (tradedQty (Mut.trades ms)) m'.lines where
  nil m := by
    rw [Mut.trades_nil, tradedQty_nil]
    exact .refl _
  append h h' := by
    rw [Mut.trades_append, tradedQty_append]
    exact h.trans h'

end Beats

/-! ### Chronicles -/

/-- A history with the log of its instructions and their executions, the latest first. -/
inductive Chronicle (C : Record → Instruction → Prop) (b₀ : Book) :
    List (Instruction × List Trade) → Record → Prop
  | init : Chronicle C b₀ [] ⟨[], [], b₀⟩
  | step {log : List (Instruction × List Trade)} {r : Record} {q : Instruction} {b' : Book}
      {ts : List Trade} (h : Chronicle C b₀ log r) (hC : C r q) (hq : q.Allowed r)
      (hret : (q.run r.book).Returns (b', ts)) :
      Chronicle C b₀ ((q, ts) :: log) ⟨q.orders ++ r.orders, r.trades ++ ts, b'⟩

lemma Chronicle.history {C : Record → Instruction → Prop} {b₀ : Book}
    {log : List (Instruction × List Trade)} {r : Record} (h : Chronicle C b₀ log r) :
    History C b₀ r := by
  induction h with
  | init => exact .init
  | step _ hC hq hret ih => exact .step ih hC hq hret

lemma Chronicle.of_history {C : Record → Instruction → Prop} {b₀ : Book} {r : Record}
    (h : History C b₀ r) : ∃ log, Chronicle C b₀ log r := by
  induction h with
  | init => exact ⟨[], .init⟩
  | step _ hC hq hret ih =>
    obtain ⟨log, h⟩ := ih
    exact ⟨_, .step h hC hq hret⟩

/-- The position that an instruction gives an account. -/
def Instruction.seed? (c : ClientId) : Instruction → Option ℤ
  | seedPosition c' net => if c' = c then some net else none
  | _ => none

/-- The position that an account was last seeded with. -/
def lastSeed (c : ClientId) : List (Instruction × List Trade) → ℤ
  | [] => 0
  | (q, _) :: log => (q.seed? c).getD (lastSeed c log)

/-- The executions since an account was last seeded. -/
def tradesSince (c : ClientId) : List (Instruction × List Trade) → List Trade
  | [] => []
  | (q, ts) :: log => if (q.seed? c).isSome = true then [] else tradesSince c log ++ ts

/-- What an account has bought less what it has sold, by the executions in which its orders took
part. -/
def netTraded (os : List Order) (c : ClientId) (ts : List Trade) : ℤ :=
  (ts.map fun t => (if accountOf os t.takerId = c then t.takerSide.signed t.qty else 0)
    + if accountOf os t.makerId = c then t.takerSide.opposite.signed t.qty else 0).sum

/-- The submitted orders have not been worked on before. -/
def Instruction.Unworked (_ : Record) : Instruction → Prop
  | submit o => o.leaves = 0 ∧ o.filled = 0
  | _ => True

instance (r : Record) : (q : Instruction) → Decidable (q.Unworked r)
  | .submit o => inferInstanceAs (Decidable (o.leaves = 0 ∧ o.filled = 0))
  | .cancel _ | .expire _ | .runOpeningAuction | .runClosingAuction
  | .seedPosition _ _ => inferInstanceAs (Decidable True)

/-- Quantities and positions add up. -/
structure Record.Conserved (log : List (Instruction × List Trade)) (r : Record) : Prop where
  resting : ∀ id e, r.book.view.entry id = some e →
    e.order.filled + e.order.leaves = e.order.qty ∧ e.order.filled = tradedQty r.trades id
  bounded : ∀ o ∈ r.orders, tradedQty r.trades o.id = 0 ∨ tradedQty r.trades o.id ≤ o.qty
  position : ∀ c, c ≠ 0 →
    r.book.position c = lastSeed c log + netTraded r.orders c (tradesSince c log)

/-- The quantity that an order was submitted with. -/
def openedFor (os : List Order) (id : OrderId) : ℤ :=
  ((os.find? fun o => o.id = id).map (·.qty)).getD 0

lemma openedFor_cons (o : Order) (os : List Order) :
    openedFor (o :: os) = Function.update (openedFor os) o.id o.qty := by
  funext id
  by_cases hid : id = o.id
  · simp [openedFor, hid]
  · rw [Function.update_of_ne hid, openedFor, List.find?_cons_of_neg (by simpa using Ne.symm hid)]
    rfl

lemma openedFor_of_mem {os : List Order} (hn : (os.map (·.id)).Nodup) {o : Order} (ho : o ∈ os) :
    openedFor os o.id = o.qty := by
  induction os with
  | nil => exact absurd ho List.not_mem_nil
  | cons x os ih =>
    rw [List.map_cons, List.nodup_cons] at hn
    rw [openedFor_cons]
    rcases List.mem_cons.1 ho with rfl | ho
    · exact Function.update_self _ _ _
    · have hne : o.id ≠ x.id := fun heq => hn.1 (heq ▸ List.mem_map_of_mem ho)
      rw [Function.update_of_ne hne, ih hn.2 ho]

/-! ### Positions -/

lemma netTraded_append (os : List Order) (c : ClientId) (ts ts' : List Trade) :
    netTraded os c (ts ++ ts') = netTraded os c ts + netTraded os c ts' := by
  simp [netTraded]

/-- Settling executions adds what they trade. -/
lemma settle_foldl (os : List Order) {c : ClientId} (hc : c ≠ 0) (ts : List Trade)
    (net : ClientId → ℤ) : ts.foldl (settle os) net c = net c + netTraded os c ts := by
  induction ts generalizing net with
  | nil => simp [netTraded]
  | cons t ts ih =>
    rw [List.foldl_cons, ih, settle]
    simp only [netTraded, List.map_cons, List.sum_cons, ne_eq, hc, not_false_eq_true, and_true,
      eq_comm (a := c)]
    omega

namespace History

variable {C : Record → Instruction → Prop} {memLevels : ℕ} {stp : StpPolicy} {symbol : Symbol}
  {eventSink : Bool} {r : Record}

/-- Executions name submitted orders. -/
lemma named (h : History C (Book.empty memLevels stp symbol eventSink) r) :
    ∀ t ∈ r.trades, t.takerId ∈ r.ids ∧ t.makerId ∈ r.ids := by
  induction h with
  | init => simp
  | @step r q b' ts h hC hq hret ih =>
    have hids : ∀ id, id ∈ r.ids → id ∈ Record.ids ⟨q.orders ++ r.orders, r.trades ++ ts, b'⟩ := by
      intro id hid
      rw [Record.ids, List.map_append]
      exact List.mem_append_right _ hid
    intro t ht
    rcases List.mem_append.1 ht with hold | hnow
    · exact ⟨hids _ (ih t hold).1, hids _ (ih t hold).2⟩
    rcases h.sane.cases hq hret with ⟨c, net, rfl, rfl, rfl⟩ | ⟨-, ms, hst, rfl⟩
    · exact absurd hnow List.not_mem_nil
    · have hnew : ∀ id, (Live r.book id ∨ id ∈ idsOf q.inHand) →
          id ∈ Record.ids ⟨q.orders ++ r.orders, r.trades ++ Mut.trades ms, b'⟩ := by
        rintro id (hid | hid)
        · exact hids id (h.sane.live id hid)
        · rw [Record.ids, List.map_append]
          refine List.mem_append_left _ ?_
          cases q <;> exact hid
      obtain ⟨hmaker, htaker⟩ := hst.trade_ids h.sane.wf hnow
      exact ⟨hnew _ htaker, hnew _ hmaker⟩

/-- Nobody has traded with an identifier that is not in use. -/
lemma tradedQty_of_fresh (h : History C (Book.empty memLevels stp symbol eventSink) r)
    {id : OrderId}
    (hid : id ∉ r.ids) : tradedQty r.trades id = 0 := by
  have htaker : takerQty id r.trades = 0 :=
    takerQty_eq_zero fun t ht heq => hid (heq ▸ (h.named t ht).1)
  have hmaker : makerQty id r.trades = 0 := by
    rw [makerQty, List.filter_eq_nil_iff.2 fun t ht => ?_]
    · rfl
    · have hne : t.makerId ≠ id := fun heq => hid (heq ▸ (h.named t ht).2)
      simpa using hne
  rw [tradedQty, htaker, hmaker]
  rfl

/-- An instruction starts with a sound ledger. -/
lemma ledger_start (h : History Instruction.Unworked (Book.empty memLevels stp symbol eventSink) r)
    {q : Instruction} (hC : q.Unworked r) (hq : q.Allowed r)
    (hun : Moment.Plays .unfilled ⟨r.book, none, []⟩)
    (hsound : Ledger.Sound (openedFor r.orders) (tradedQty r.trades) r.book.lines) :
    Moment.Plays .unfilled ⟨r.book, none, q.inHand⟩ ∧
      Ledger.Sound (openedFor (q.orders ++ r.orders)) (tradedQty r.trades)
        (Moment.lines ⟨r.book, none, q.inHand⟩) := by
  cases q with
  | submit o =>
    refine ⟨hun.inHand fun x hx _ => ?_, ?_⟩
    · obtain rfl := List.mem_singleton.1 hx
      exact hC.2
    · have hline : o.newLine = ⟨o.id, o.qty, o.qty, 0⟩ := by
        obtain ⟨hleaves, hfilled⟩ := hC
        simp [Order.newLine_eq, hleaves, hfilled]
      have henter := hsound.enter (i := o.id) (fun l hl heq => ?_)
        (h.tradedQty_of_fresh hq.1) o.qty
      · rw [← openedFor_cons, ← hline] at henter
        show Ledger.Sound _ _ (Moment.lines ⟨r.book, none, [⟨o, .submitted⟩]⟩)
        rw [Moment.lines_hand, Moment.lines_idle]
        exact henter
      · exact hq.1 (heq ▸ h.sane.live _ (live_of_lines h.sane.wf hl))
  | _ =>
    refine ⟨hun.inHand (by simp [Instruction.orders]), ?_⟩
    show Ledger.Sound _ _ (Moment.lines ⟨r.book, none, []⟩)
    rw [Moment.lines_idle]
    exact hsound

/-- The ledger of a history is sound. -/
lemma ledger (h : History Instruction.Unworked (Book.empty 0 stp symbol eventSink) r) :
    Moment.Plays .unfilled ⟨r.book, none, []⟩ ∧
      Ledger.Sound (openedFor r.orders) (tradedQty r.trades) r.book.lines := by
  induction h with
  | init =>
    refine ⟨.empty _ _ _ _ _, ?_⟩
    rw [tradedQty_nil]
    exact Ledger.sound_zero _
  | @step r q b' ts h hC hq hret ih =>
    rcases h.sane.cases hq hret with ⟨c, net, rfl, rfl, rfl⟩ | ⟨-, ms, hst, rfl⟩
    · obtain ⟨hv, hf, -⟩ := r.book.seedPosition_keeps c net
      refine ⟨ih.1.seedPosition c net, ?_⟩
      rw [List.append_nil, lines_congr hv hf]
      exact ih.2
    · obtain ⟨hun, hsound⟩ := h.ledger_start hC hq ih.1 ih.2
      have hmem : r.book.memLevels = 0 := congrArg Settings.memLevels h.settings
      obtain ⟨⟨-, hun'⟩, hbooks⟩ := hst.beats.induction
        (I := fun m => m.book.memLevels = 0 ∧ m.Plays .unfilled) composes_books h.sane.wf.sound
        ⟨hmem, hun⟩ fun m ms m' hb hv hI =>
          ⟨⟨hb.evolves.memLevels.trans hI.1, hb.plays hI.2⟩,
            hb.books hv hI.1 hI.2⟩
      refine ⟨hun', ?_⟩
      rw [tradedQty_append, ← Moment.lines_idle]
      exact hbooks.sound hsound

/-- The executions of an instruction settle the positions. -/
lemma settles (h : History C (Book.empty 0 stp symbol eventSink) r) {q : Instruction}
    (hs : ¬ q.Seeds) (hq : q.Allowed r) {b' : Book} {ts : List Trade}
    (hret : (q.run r.book).Returns (b', ts)) :
    b'.position = ts.foldl (settle (q.orders ++ r.orders)) r.book.position := by
  have hmem : r.book.memLevels = 0 := congrArg Settings.memLevels h.settings
  have hnodup := (h.sane.next hq hret).nodup
  obtain ⟨-, -, ms, hsettles, rfl⟩ := h.sane.advance (q := q)
    (I := fun m => m.book.memLevels = 0) (composes_settles (q.orders ++ r.orders)) hs hq hmem
    (fun m ms m' hb _ ha hI => ⟨hb.evolves.memLevels.trans hI, hb.settles hI hnodup ha⟩) hret
  exact hsettles

end History

namespace Chronicle

variable {C : Record → Instruction → Prop} {stp : StpPolicy} {symbol : Symbol} {eventSink : Bool}
  {log : List (Instruction × List Trade)} {r : Record}

lemma mem_of_tradesSince {b₀ : Book} (h : Chronicle C b₀ log r) {c : ClientId} {t : Trade}
    (ht : t ∈ tradesSince c log) : t ∈ r.trades := by
  induction h with
  | init => exact absurd ht List.not_mem_nil
  | @step log r q b' ts h hC hq hret ih =>
    rw [tradesSince] at ht
    split_ifs at ht
    · exact absurd ht List.not_mem_nil
    · rcases List.mem_append.1 ht with ht | ht
      · exact List.mem_append_left _ (ih ht)
      · exact List.mem_append_right _ ht

/-- A new order changes nothing for the executions so far. -/
lemma netTraded_orders (h : Chronicle C (Book.empty 0 stp symbol eventSink) log r) {q : Instruction}
    (hq : q.Allowed r) (c : ClientId) :
    netTraded (q.orders ++ r.orders) c (tradesSince c log)
      = netTraded r.orders c (tradesSince c log) := by
  have haccount : ∀ id ∈ r.ids, accountOf (q.orders ++ r.orders) id = accountOf r.orders id := by
    intro id hid
    cases q with
    | submit o =>
      have hne : o.id ≠ id := fun heq => hq.1 (heq ▸ hid)
      show accountOf (o :: r.orders) id = _
      rw [accountOf, List.find?_cons_of_neg (by simpa using hne)]
      rfl
    | _ => rfl
  refine congrArg List.sum (List.map_congr_left fun t ht => ?_)
  obtain ⟨htaker, hmaker⟩ := h.history.named t (h.mem_of_tradesSince ht)
  rw [haccount _ htaker, haccount _ hmaker]

lemma position_eq (h : Chronicle C (Book.empty 0 stp symbol eventSink) log r) {c : ClientId}
    (hc : c ≠ 0) :
    r.book.position c = lastSeed c log + netTraded r.orders c (tradesSince c log) := by
  induction h with
  | init => rfl
  | @step log r q b' ts h hC hq hret ih =>
    rcases h.history.sane.cases hq hret with ⟨c', net, rfl, rfl, rfl⟩ | ⟨hs, -⟩
    · show (r.book.seedPosition c' net).position c = _
      rw [position_seedPosition, lastSeed, tradesSince, Instruction.seed?]
      by_cases hcc : c' = c
      · simp [hcc, hc, netTraded]
      · rw [← h.netTraded_orders hq c] at ih
        simpa [hcc, Ne.symm hcc] using ih
    · have hseed : q.seed? c = none := by
        cases q with
        | seedPosition => exact absurd trivial hs
        | _ => rfl
      show b'.position c = _
      rw [h.history.settles hs hq hret, settle_foldl _ hc, ih, lastSeed, tradesSince, hseed,
        Option.getD_none]
      simp only [Option.isSome_none, Bool.false_eq_true, if_false, netTraded_append]
      rw [h.netTraded_orders hq]
      omega

/-- Along every chronicle of an unbounded book quantities and positions add up. -/
lemma conserved (h : Chronicle Instruction.Unworked (Book.empty 0 stp symbol eventSink) log r) :
    r.Conserved log := by
  obtain ⟨-, hsound⟩ := h.history.ledger
  refine ⟨fun id e he => ?_, fun o ho => ?_, fun c hc => h.position_eq hc⟩
  · have hid : e.order.id = id := h.history.sane.wf.sound.id_eq id e he
    have hline : e.order.line ∈ r.book.lines :=
      Multiset.mem_add.2 (.inl (Map.mem_bag.2 ⟨id, e, he, rfl⟩))
    exact ⟨hsound.whole _ hline, hid ▸ hsound.filled _ hline⟩
  · have hopened := openedFor_of_mem h.history.sane.nodup ho
    exact hopened ▸ hsound.bound o.id

/-- After every instruction of a chronicle of an unbounded book, which returns, every resting order
has filled what the executions name it for, no order has traded more than its quantity, and every
account has the position that it was last seeded with, moved by its executions since. -/
theorem conserved_of_chronicle
    (h : Chronicle Instruction.Unworked (Book.empty 0 stp symbol eventSink) log r)
    {q : Instruction} (hC : q.Unworked r) (hq : q.Allowed r) :
    (q.run r.book).Ensures fun x =>
      Record.Conserved ((q, x.2) :: log) ⟨q.orders ++ r.orders, r.trades ++ x.2, x.1⟩ := by
  obtain ⟨b', ts, hret⟩ := h.history.sane.returns hq
  exact ⟨(b', ts), hret, (Chronicle.step h hC hq hret).conserved⟩

/-- An account that was seeded sells out of two orders and keeps the rest of the second. -/
theorem conserved_of_chronicle_sold : ∃ (log : List (Instruction × List Trade)) (r : Record)
    (q : Instruction), Chronicle Instruction.Unworked (Book.empty 0 .none "ABC" true) log r ∧
      (q.Unworked r ∧ q.Allowed r) ∧
      (r.book.position 7 = 10 ∧
        ((q.run r.book).run 8).map (fun x => (x.1.position 7, x.1.position 8)) = some (4, 6)) ∧
      (q.run r.book).Ensures fun x =>
        Record.Conserved ((q, x.2) :: log) ⟨q.orders ++ r.orders, r.trades ++ x.2, x.1⟩ := by
  let qs : List Instruction := [
    .seedPosition 7 10,
    .submit { id := 1, clientId := 7, side := .sell, qty := 4, price := 110 },
    .submit { id := 2, clientId := 7, side := .sell, qty := 5, price := 111 }]
  let q : Instruction := .submit { id := 3, clientId := 8, qty := 6, price := 112 }
  obtain ⟨r, hist, hq, hpos⟩ : ∃ r, History Instruction.Unworked
      (Book.empty 0 .none "ABC" true) r ∧ (q.Unworked r ∧ q.Allowed r) ∧ r.book.position 7 = 10 ∧
        ((q.run r.book).run 8).map (fun x => (x.1.position 7, x.1.position 8)) = some (4, 6) :=
    History.exists_of_replay 8 qs (by decide +kernel)
  obtain ⟨log, hlog⟩ := of_history hist
  exact ⟨log, r, q, hlog, hq, hpos, conserved_of_chronicle hlog hq.1 hq.2⟩

end Chronicle

end Codicis
