/-
Runs of a book.

A run applies operations of the book one after another, from an empty book with any
self-trade policy and any window.  Submitted orders come with identifiers the run
has not used before, and an order is only pulled back into memory when the book does
not hold it.  Every operation returns and keeps the book well-formed, so the
structure of the ladders, the order map and the pegged set is as stated in
`Book.Structured` after each of them.  As everywhere in the core, the numbers do not
overflow: the runs are those of the code whose numbers stay in 64 bits.
-/
import Codicis.Core.Submission

namespace Codicis

/-- The operations of a book. -/
inductive Op
  | submit (o : Order)
  | cancel (id : OrderId)
  | expire (now : ℤ)
  | runOpeningAuction
  | runClosingAuction
  | insertResident (o : Order)
deriving DecidableEq, Repr

/-- A limit order without any further instruction. -/
def Order.plainLimit (o : Order) : Prop :=
  o.type = .limit ∧ o.flags = {} ∧ o.trigger = none ∧ o.peg = none ∧ o.link = none

instance (o : Order) : Decidable o.plainLimit := inferInstanceAs (Decidable (_ ∧ _))

namespace Op

/-- Run an operation, for its effect on the book. -/
def exec (b : Book) : Op → Comp Book
  | submit o => b.submit o >>= fun r => pure r.1
  | cancel id => pure (b.cancel id).1
  | expire now => pure (b.expire now).1
  | runOpeningAuction => b.runOpeningAuction >>= fun r => pure r.1
  | runClosingAuction => b.runClosingAuction >>= fun r => pure r.1
  | insertResident o => pure (b.insertResident o)

/-- The identifiers that an operation brings to the book. -/
def ids : Op → List OrderId
  | submit o => [o.id]
  | insertResident o => [o.id]
  | _ => []

/-- The order that an operation has in hand at its start. -/
def inHand : Op → List Active
  | submit o => [⟨o, .submitted⟩]
  | _ => []

/-- What a caller that has used the identifiers `used` before may ask of a book. -/
def Allowed (used : List OrderId) (b : Book) : Op → Prop
  | submit o => o.id ∉ used ∧ o.leaves = 0 ∧ o.filled = 0 ∧ 0 ≤ o.displayQty
  | insertResident o => o.plainLimit ∧ 0 < o.leaves ∧ ¬ b.Live o.id
  | _ => True

/-- The operation does not come from storage. -/
def Native : Op → Prop
  | insertResident _ => False
  | _ => True

end Op

namespace Book

/-- A book without orders. -/
def empty (memLevels : ℕ) (stp : StpPolicy) (symbol : Symbol) (eventSink : Bool) : Book :=
  { memLevels := memLevels, stp := stp, symbol := symbol, eventSink := eventSink }

/-- The book `b` is reached from `b₀` by operations that satisfy `P`, which have
brought the identifiers `used`, in exact numbers. -/
inductive Reach (P : Op → Prop) (b₀ : Book) : List OrderId → Book → Prop
  | init : Reach P b₀ [] b₀
  | step {used : List OrderId} {b b' : Book} {op : Op} (h : Reach P b₀ used b) (hP : P op)
      (hop : op.Allowed used b) (hret : (op.exec b).Returns b') : Reach P b₀ (op.ids ++ used) b'

section Operations

variable {b : Book}

lemma waiting_empty (memLevels : ℕ) (stp : StpPolicy) (symbol : Symbol) (eventSink : Bool) :
    (empty memLevels stp symbol eventSink).frame.waiting = [] := rfl

lemma wf_empty (memLevels : ℕ) (stp : StpPolicy) (symbol : Symbol) (eventSink : Bool) :
    WF (empty memLevels stp symbol eventSink) := by
  have hq : ∀ s p, (empty memLevels stp symbol eventSink).level s p = {} := by
    intro s p
    cases s <;> rfl
  have hw := waiting_empty memLevels stp symbol eventSink
  refine ⟨⟨?_, ?_, ?_, ?_, ?_, ?_⟩, ⟨?_, ?_, ?_, ?_⟩, ?_, ?_⟩
  · intro s p id
    simp only [view, hq]
    exact iff_of_false (by simp) (by simp [empty])
  · intro s p
    simp [view, hq]
  · intro s p
    simp [view, hq]
  · simp [view, empty]
  · simp [view, empty]
  · simp [view, empty]
  · simp [hw]
  · simp [hw]
  · simp [hw]
  · simp [hw]
  · simp [empty]
  · intro s hv
    cases s <;> exact absurd hv (by simp [ladder, empty])

/-- The operations that do not come from storage. -/
lemma exec_step {op : Op} {used : List OrderId} (hb : WF b) (hnat : op.Native)
    (hop : op.Allowed used b) (hlive : ∀ id, Live b id → id ∈ used) :
    (op.exec b).Ensures fun b' => ∃ ms, Step b op.inHand ms b' := by
  -- all but a submission are instructions that bring no order
  have hrun : ∀ q : Instruction, ¬ q.Seeds → q.orders = [] →
      (q.run b >>= fun x => pure x.1).Ensures fun b' => ∃ ms, Step b [] ms b' := by
    intro q hs hq
    refine (q.run_step hb hs (by simp [hq])).bind fun x hx => ?_
    obtain ⟨ms, hst, -⟩ := hx
    rw [Instruction.inHand, hq] at hst
    exact Comp.ensures_pure ⟨ms, hst⟩
  cases op with
  | submit o =>
    obtain ⟨hnew, -, -, hd⟩ := hop
    refine (submit_step hb (fun h => hnew (hlive _ h)) hd).bind fun r hr => ?_
    obtain ⟨ms, hst, -⟩ := hr
    exact Comp.ensures_pure ⟨ms, hst⟩
  | cancel id => exact hrun (.cancel id) not_false rfl
  | expire now => exact hrun (.expire now) not_false rfl
  | runOpeningAuction => exact hrun .runOpeningAuction not_false rfl
  | runClosingAuction => exact hrun .runClosingAuction not_false rfl
  | insertResident o => exact hnat.elim

/-- An order that the book does not hold is pulled back. -/
lemma insertResident_wf (hb : WF b) {o : Order} (ho : o.plainLimit) (hl : 0 < o.leaves)
    (hnew : ¬ Live b o.id) :
    WF (b.insertResident o) ∧ ∀ id, Live (b.insertResident o) id → Live b id ∨ id = o.id := by
  have hice : o.flags.iceberg = false := by rw [ho.2.1]
  have hnone : b.view.entry o.id = none := not_not.1 fun h => hnew (.inl h)
  have hview : (b.insertResident o).view = b.view.link ⟨o, sliceOf o⟩ := view_place hnone
  have hframe : (b.insertResident o).frame = b.frame := (place_keeps b o).2.2.2.2
  have hentry : ∀ id, (b.insertResident o).view.entry id
      = if id = o.id then some ⟨o, sliceOf o⟩ else b.view.entry id := by
    intro id
    rw [hview]
    rfl
  refine ⟨⟨?_, ⟨?_, ?_, ?_, ?_⟩, ?_, hb.cached.place hb.sound hl⟩, ?_⟩
  · rw [hview]
    refine hb.sound.link hnone ⟨hl, ?_, ?_, ?_⟩ <;> simp [hice]
  · rw [hframe]
    exact hb.waits.nodup
  · rw [hframe]
    intro x hx
    have hne : x.id ≠ o.id := fun h => hnew (.inr ⟨x, hx, h⟩)
    rw [hentry, if_neg hne]
    exact hb.waits.away x hx
  · rw [hframe]
    exact hb.waits.restable
  · rw [hframe]
    exact hb.waits.normal
  · have hstops : (b.insertResident o).stops = b.stops := congrArg Frame.stops hframe
    exact fun id x hx => hb.stop_id id x (hstops ▸ hx)
  · rintro id (hid | ⟨x, hx, hid⟩)
    · rw [hentry] at hid
      split_ifs at hid with h
      · exact .inr h
      · exact .inl (.inl hid)
    · exact .inl (.inr ⟨x, hframe ▸ hx, hid⟩)

/-- Every operation returns, keeps the book well-formed, and brings no identifiers
but its own. -/
lemma exec_wf {op : Op} {used : List OrderId} (hb : WF b) (hop : op.Allowed used b)
    (hlive : ∀ id, Live b id → id ∈ used) :
    (op.exec b).Ensures fun b' => WF b' ∧ ∀ id, Live b' id → id ∈ op.ids ++ used := by
  by_cases hnat : op.Native
  · refine (exec_step hb hnat hop hlive).imp fun b' hst => ?_
    obtain ⟨ms, hst⟩ := hst
    refine ⟨hst.wf, fun id hid => ?_⟩
    rcases hst.live hid with h | h
    · exact List.mem_append_right _ (hlive id h)
    · refine List.mem_append_left _ ?_
      cases op <;> first | exact h | simp [Op.inHand] at h
  · cases op with
    | insertResident o =>
      obtain ⟨hwf, hl⟩ := insertResident_wf hb hop.1 hop.2.1 hop.2.2
      refine Comp.ensures_pure ⟨hwf, fun id hid => ?_⟩
      rcases hl id hid with h | rfl
      · exact List.mem_append_right _ (hlive id h)
      · exact List.mem_append_left _ (by simp [Op.ids])
    | _ => exact absurd trivial hnat

lemma not_live_empty (memLevels : ℕ) (stp : StpPolicy) (symbol : Symbol) (eventSink : Bool)
    (id : OrderId) : ¬ Live (empty memLevels stp symbol eventSink) id := by
  rintro (h | ⟨o, ho, -⟩)
  · exact h rfl
  · simp [waiting_empty] at ho

/-- Along a run the book is well-formed, and holds only identifiers that the run has
brought. -/
lemma Reach.wf {P : Op → Prop} {memLevels : ℕ} {stp : StpPolicy} {symbol : Symbol}
    {eventSink : Bool} {used : List OrderId}
    (h : Reach P (empty memLevels stp symbol eventSink) used b) :
    WF b ∧ ∀ id, Live b id → id ∈ used := by
  induction h with
  | init => exact ⟨wf_empty _ _ _ _, fun id hid => absurd hid (not_live_empty _ _ _ _ id)⟩
  | step _ _ hop hret ih => exact (exec_wf ih.1 hop ih.2).of_returns hret

/-- What holds along every run holds after the next operation. -/
lemma Reach.next {C : Op → Prop} {P : Book → Prop} {memLevels : ℕ} {stp : StpPolicy}
    {symbol : Symbol} {eventSink : Bool} {used : List OrderId} {b : Book}
    (hP : ∀ {used b}, Reach C (empty memLevels stp symbol eventSink) used b → P b)
    (h : Reach C (empty memLevels stp symbol eventSink) used b) {op : Op} (hC : C op)
    (hop : op.Allowed used b) : (op.exec b).Ensures P := by
  obtain ⟨hwf, hlive⟩ := h.wf
  obtain ⟨b', hret, -⟩ := exec_wf hwf hop hlive
  exact ⟨b', hret, hP (.step h hC hop hret)⟩

/-- Orders are submitted one after the other. -/
lemma Reach.submits {P : Op → Prop} {b₀ b b' : Book} {used : List OrderId} {os : List Order}
    (h : Reach P b₀ used b) (hP : ∀ o ∈ os, P (.submit o))
    (hos : ∀ o ∈ os, o.leaves = 0 ∧ o.filled = 0 ∧ 0 ≤ o.displayQty)
    (hnd : ((os.map (·.id)).reverse ++ used).Nodup)
    (hret : (os.foldlM (fun b o => (Op.submit o).exec b) b).Returns b') :
    Reach P b₀ ((os.map (·.id)).reverse ++ used) b' := by
  induction os generalizing b used with
  | nil =>
    obtain rfl := Comp.returns_pure.1 hret
    exact h
  | cons o os ih =>
    rw [List.foldlM_cons] at hret
    obtain ⟨b₁, hb₁, hret⟩ := Comp.returns_bind.1 hret
    rw [List.map_cons, List.reverse_cons, List.append_assoc, List.singleton_append] at hnd ⊢
    rw [List.forall_mem_cons] at hP hos
    have hnew := (List.nodup_cons.1 (List.nodup_append.1 hnd).2.1).1
    exact ih (.step h hP.1 ⟨hnew, hos.1⟩ hb₁) hP.2 hos.2 hnd hret

/-- A run of submissions that is evaluated. -/
lemma Reach.exists_of_submits {P : Op → Prop} {b₀ : Book} {Q : Book → Prop} [DecidablePred Q]
    (n : ℕ) (os : List Order) (hP : ∀ o ∈ os, P (.submit o))
    (hos : (os.map (·.id)).reverse.Nodup ∧
      ∀ o ∈ os, o.leaves = 0 ∧ o.filled = 0 ∧ 0 ≤ o.displayQty)
    (h : ((os.foldlM (fun b o => (Op.submit o).exec b) b₀).run n).any (fun b => decide (Q b))
      = true) : ∃ b, Reach P b₀ (os.map (·.id)).reverse b ∧ Q b := by
  obtain ⟨b, hb, hQ⟩ := (Option.any_eq_true _ _).1 h
  have hr := Reach.init.submits hP hos.2 (by simpa using hos.1) ⟨n, hb⟩
  rw [List.append_nil] at hr
  exact ⟨b, hr, of_decide_eq_true hQ⟩

end Operations

/-! ### The structure of a book -/

/-- The quantity left of a resting order. -/
def leavesOf (b : Book) (id : OrderId) : ℤ := ((b.find id).map (·.leaves)).getD 0

/-- The structure invariant: the queues, the order map, the totals and the pegged set
agree. -/
structure Structured (b : Book) : Prop where
  /-- A resting order is queued once, at its own side and price. -/
  queued_once : ∀ id e, b.orders.lookup id = some e → ∀ s p,
    (b.level s p).fifo.count id = if s = e.order.side ∧ p = e.order.price then 1 else 0
  /-- Whatever is queued rests. -/
  queued_rests : ∀ s p, ∀ id ∈ (b.level s p).fifo, (b.orders.lookup id).isSome = true
  leaves_pos : ∀ id e, b.orders.lookup id = some e → 0 < e.order.leaves
  slice_bounds : ∀ id e, b.orders.lookup id = some e → e.order.flags.iceberg = true →
    0 < e.slice ∧ e.slice ≤ e.order.leaves
  total_eq : ∀ s p, (b.level s p).total = ((b.level s p).fifo.map b.leavesOf).sum
  /-- Whatever is pegged rests, and has a peg. -/
  pegged_rests : ∀ id ∈ b.pegged, ∃ e, b.orders.lookup id = some e ∧ e.order.peg.isSome = true

lemma Structured.of_sound {b : Book} (h : b.view.Sound) : Structured b := by
  have hleaves : b.view.leaves = b.leavesOf := by
    funext id
    simp only [View.leaves, view, leavesOf, find]
    cases b.orders.lookup id <;> rfl
  refine ⟨?_, ?_, ?_, ?_, ?_, h.pegged_ok⟩
  · intro id e he s p
    split_ifs with hsp
    · refine List.count_eq_one_of_mem (h.nodup s p) ((h.mem_queue s p id).2 ⟨e, he, ?_⟩)
      exact ⟨hsp.1.symm, hsp.2.symm⟩
    · refine List.count_eq_zero_of_not_mem fun hmem => hsp ?_
      obtain ⟨e', he', hs, hp⟩ := (h.mem_queue s p id).1 hmem
      obtain rfl := Option.some.inj (he.symm.trans he')
      exact ⟨hs.symm, hp.symm⟩
  · intro s p id hid
    obtain ⟨e, he, -⟩ := (h.mem_queue s p id).1 hid
    exact Option.isSome_iff_exists.2 ⟨e, he⟩
  · exact fun id e he => (h.entry_ok id e he).leaves_pos
  · exact fun id e he hi => ⟨(h.entry_ok id e he).slice_pos hi, (h.entry_ok id e he).slice_le hi⟩
  · intro s p
    rw [← hleaves]
    exact h.total_eq s p

/-- Along every run without overflow the book is structured, and the next operation returns
and leaves a structured book. -/
theorem structured_of_reach {memLevels : ℕ} {stp : StpPolicy} {symbol : Symbol}
    {eventSink : Bool} {used : List OrderId} {b : Book}
    (h : Reach (fun _ => True) (empty memLevels stp symbol eventSink) used b) :
    Structured b ∧ ∀ op : Op, op.Allowed used b → (op.exec b).Ensures Structured := by
  obtain ⟨hwf, hlive⟩ := h.wf
  refine ⟨.of_sound hwf.sound, fun op hop => ?_⟩
  exact (exec_wf hwf hop hlive).imp fun b' h' => .of_sound h'.1.sound

/-- A run: an iceberg rests and a buy order takes its first slice. -/
theorem structured_of_reach_iceberg : ∃ b,
    Reach (fun _ => True) (empty 1 .cancelBoth "ABC" true) [2, 1] b ∧
      (b.level .sell 100).total = 5 ∧ Structured b := by
  let os : List Order := [
    { id := 1, side := .sell, qty := 10, price := 100, displayQty := 4, flags.iceberg := true },
    { id := 2, qty := 5, price := 100 }]
  obtain ⟨b, hr, ht⟩ : ∃ b, Reach (fun _ => True) (empty 1 .cancelBoth "ABC" true) [2, 1] b ∧
      (b.level .sell 100).total = 5 :=
    Reach.exists_of_submits 8 os (by simp) (by decide) (by decide +kernel)
  exact ⟨b, hr, ht, (structured_of_reach hr).1⟩

end Book

end Codicis
