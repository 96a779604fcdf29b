/-
The course of an operation, in any book.

The results of `Core.Submission` and what is built on it speak of well-formed books, into which
only new identifiers come.  Here nothing of the kind is asked.  `Admits` says what becomes of a
submitted order at the door, with everything that has been checked there.  A `Stage` is a book with
the orders in hand, and a `Stride` is what an operation does between two calls of `match`, `inject`
or the pegs; its label are the executions it makes.  `Drives.run` is the main result: an instruction
is a run of strides, and it ends if matching does, since a stop that fires is no longer parked and a
child that is released is no longer held.

The marks of a stage remember what an invariant may have to know of the course so far.
-/
import Codicis.Core.Admission

namespace Codicis

namespace Book

/-! ### What resting orders leave alone in any book -/

/-- Orders come to rest, move and leave: what waits and the last price stay as they are. -/
structure Calm (b b' : Book) : Prop where
  frame : b'.frame = b.frame
  last : b'.last = b.last
  seq_le : b.nextSeq ≤ b'.nextSeq

lemma Calm.refl (b : Book) : Calm b b := ⟨rfl, rfl, le_rfl⟩

lemma Calm.trans {b b' b'' : Book} (h : Calm b b') (h' : Calm b' b'') : Calm b b'' :=
  ⟨h'.frame.trans h.frame, h'.last.trans h.last, h.seq_le.trans h'.seq_le⟩

section Calm

variable (b : Book)

/-- A fold of calm steps is calm. -/
lemma calm_foldl {α β : Type} {f : β → α → β} (book : β → Book)
    (hf : ∀ r a, Calm (book r) (book (f r a))) (l : List α) (r : β) :
    Calm (book r) (book (l.foldl f r)) := by
  induction l generalizing r with
  | nil => exact .refl _
  | cons a l ih => exact (hf r a).trans (ih (f r a))

lemma calm_emit (ev : BookEvent) : Calm b (b.emit ev) := by
  constructor <;> simp

lemma calm_evictWorst (s : Side) (ev : List Order) : Calm b (b.evictWorst s ev).1 := by
  have hone : ∀ (r : Book × List Order) id, Calm r.1 (evictOrder r id).1 := by
    intro r id
    unfold evictOrder
    split
    · exact .refl _
    · constructor <;> simp
  unfold evictWorst
  split
  · exact .refl b
  · split
    · exact .refl b
    · rename_i lvl _
      have hfold := calm_foldl Prod.fst hone lvl.fifo (b, ev)
      exact ⟨by simp [hfold.frame], by simp [hfold.last], by simpa using hfold.seq_le⟩

lemma calm_rest (o : Order) (ev : List Order) : Calm b (b.rest o ev).1 := by
  have hplace : Calm b ((b.place o).reserveResting o) := by constructor <;> simp [place]
  unfold rest
  dsimp only
  split_ifs
  · constructor <;> simp [emitEvent]
  · exact (hplace.trans (calm_evictWorst _ o.side ev)).trans (calm_emit _ _)
  · exact hplace.trans (calm_emit _ _)

lemma calm_repricePeg (id : OrderId) : Calm b (b.repricePeg id) := by
  unfold repricePeg
  split
  · constructor <;> simp
  · split
    · exact .refl b
    · split_ifs
      · exact .refl b
      · constructor <;> simp [movePegged, emitReprice]

lemma calm_repricePegs : Calm b b.repricePegs :=
  calm_foldl id calm_repricePeg _ b

lemma calm_cancelResting (id : OrderId) (e : Entry) : Calm b (b.cancelResting id e) := by
  have hremove : Calm b (b.removeResting id e) := by
    constructor <;> simp [removeResting, emitEvent]
  unfold cancelResting
  dsimp only
  split_ifs
  · exact hremove
  · exact hremove.trans (calm_repricePegs _)

lemma calm_crosses (o : Order) : Calm b (b.crosses o).1 := by
  constructor <;> simp [crosses]

@[simp] lemma frame_rest (o : Order) (ev : List Order) : (b.rest o ev).1.frame = b.frame :=
  (b.calm_rest o ev).frame

@[simp] lemma frame_repricePegs : b.repricePegs.frame = b.frame := b.calm_repricePegs.frame

lemma sameGroups_cancel (id : OrderId) : SameGroups b (b.cancel id).1 := by
  unfold cancel
  split
  · exact ⟨rfl, rfl⟩
  · split_ifs
    · exact ⟨rfl, rfl⟩
    · exact ⟨rfl, rfl⟩
    · split
      · exact .refl b
      · exact .of_frame (b.calm_cancelResting _ _).frame

end Calm

/-! ### The children that are held -/

section Held

variable (b : Book)

lemma groups_cancelSiblings (id : OrderId) (legs : List OrderId) :
    (b.cancelSiblings id legs).groups = b.groups := by
  unfold cancelSiblings
  induction legs generalizing b with
  | nil => rfl
  | cons other legs ih =>
    rw [List.foldl_cons]
    split_ifs
    · exact ih b
    · exact (ih _).trans (sameGroups_cancel _ other).1

/-- A group that changes and keeps as many children. -/
lemma held_length_of_children {gid : ℕ} {gr : Group}
    (h : gr.children.length = (b.group gid).children.length) :
    (b.setGroup gid gr).frame.held.length = b.frame.held.length := by
  have := held_length_setGroup b gid gr
  omega

lemma held_length_ocoFill (gid : ℕ) (id : OrderId) :
    (b.ocoFill gid id).frame.held.length = b.frame.held.length := by
  unfold ocoFill
  dsimp only
  split_ifs
  · set b₁ := b.cancelSiblings id (b.group gid).ocoLegs with hb₁
    have hgroups : b₁.frame.held = b.frame.held := by
      simp only [Frame.held, frame, hb₁, groups_cancelSiblings]
    rw [← hgroups]
    have hsame : ({ b₁.group gid with ocoLegs := [] } : Group).children.length
        = (b₁.group gid).children.length := rfl
    exact b₁.held_length_of_children hsame
  · rfl

lemma held_length_registerLink (o : Order) (rested : Bool) :
    (b.registerLink o rested).frame.held.length = b.frame.held.length := by
  unfold registerLink
  cases o.link with
  | none => rfl
  | some l =>
    have hset : ∀ gr : Group, gr.children = (b.group l.groupId).children →
        (b.setGroup l.groupId gr).frame.held.length = b.frame.held.length :=
      fun gr h => b.held_length_of_children (by rw [h])
    dsimp only
    cases l.role <;> cases rested
    all_goals first
      | rfl
      | exact hset _ rfl

end Held

/-! ### The executions of an auction in any book -/

/-- What the executions of an auction do in any book, and which orders they are between. -/
structure Allots (r r' : Book × List Order × List Trade) : Prop where
  frame : r'.1.frame = r.1.frame
  seq_eq : r'.1.nextSeq = r.1.nextSeq
  orders : r'.1.orders = r.1.orders
  view : r'.1.view = r.1.view
  base : r'.2.1.map base = r.2.1.map base
  leaves : (∀ x ∈ r.2.1, 0 ≤ x.leaves) → ∀ x ∈ r'.2.1, 0 ≤ x.leaves
  trades : ∃ new, r'.2.2 = r.2.2 ++ new ∧
    ∀ t ∈ new, t.takerId ∈ r.2.1.map (·.id) ∧ t.makerId ∈ r.2.1.map (·.id)

lemma auctionPhase_allots (b : Book) (queue : List Order) :
    Allots (b, queue, []) (b.auctionPhase queue) := by
  refine auctionPhase_induct (P := Allots)
    (fun r => ⟨rfl, rfl, rfl, rfl, rfl, id, [], by simp, by simp⟩) ?_
    (fun r r' p h => ⟨by simpa using h.frame, h.seq_eq, h.orders, h.view, h.base, h.leaves,
      h.trades⟩) b queue
  intro p bi si q r r' hbi hsi _ _ hqx hqy _ h
  have hbase := map_base_dealAt p bi si q r
  obtain ⟨new, hr', hnew⟩ := h.trades
  rw [map_id_of_base hbase] at hnew
  refine ⟨h.frame.trans (by simp [dealAt, emitTrade]), h.seq_eq.trans (by simp [dealAt, emitTrade]),
    h.orders.trans (by simp [dealAt, emitTrade]), h.view.trans (view_dealAt p bi si q r),
    h.base.trans hbase, fun hl => h.leaves fun x hx => ?_, _ :: new,
    by rw [hr', dealAt, List.append_assoc]; rfl, fun t ht => ?_⟩
  · rcases List.mem_or_eq_of_mem_set hx with hx | rfl
    · rcases List.mem_or_eq_of_mem_set hx with hx | rfl
      · exact hl x hx
      · exact sub_nonneg.2 hqx
    · exact sub_nonneg.2 hqy
  · rcases List.mem_cons.1 ht with rfl | ht
    · exact ⟨List.mem_map_of_mem (queued_mem hbi), List.mem_map_of_mem (queued_mem hsi)⟩
    · exact hnew t ht

/-! ### What becomes of an order at the door -/

/-- The checks that a submitted order passes before it is routed. -/
structure Checked (b : Book) (o : Order) : Prop where
  qty : 0 < o.qty
  leaves : 0 < (b.stamp o).leaves
  price : o.type = .limit → o.peg = none → 0 < o.price
  resting : b.orders.lookup o.id = none
  parked : b.stops.lookup o.id = none

/-- The order passes the checks and is for continuous trading. -/
structure Continuous (b : Book) (o : Order) : Prop extends b.Checked o where
  opening : isOpeningAuction o.flags = false
  closing : isClosingAuction o.flags = false
  child : isChild o = false

/-- The book that a plain order is matched in: a post-only order has looked at the other side. -/
def looked (b : Book) (o : Order) : Book :=
  if (b.stamp o).flags.postOnly = true then (b.ticked.crosses (b.stamp o)).1 else b.ticked

/-- The order `x` is what a plain order is matched as: a reduce-only order is capped. -/
structure Sized (b : Book) (o x : Order) : Prop extends b.Continuous o where
  awaits : awaitsTrigger o = false
  unpegged : o.peg = none
  postOnly : (b.stamp o).flags.postOnly = true → (b.ticked.crosses (b.stamp o)).2 = false
  order : ((b.stamp o).flags.reduceOnly = false ∧ x = b.stamp o) ∨
    ((b.stamp o).flags.reduceOnly = true ∧ o.clientId ≠ 0 ∧
      0 < (b.looked o).reduceOnlyCapacity (b.stamp o) ∧
      x = capReduceOnly (b.stamp o) ((b.looked o).reduceOnlyCapacity (b.stamp o)))

/-- What becomes of an order at the door, with what has been checked. -/
inductive Admits (b : Book) (o : Order) : Admission → Prop
  /-- The order does not pass. -/
  | refused (reason : String) : Admits b o (.answered (b.ticked, reject (b.stamp o).id reason))
  /-- The order passes and is not to be matched after all. -/
  | declined (h : b.Checked o) (reason : String) :
      Admits b o (.answered (b.looked o, reject (b.stamp o).id reason))
  /-- The order is queued for the opening auction. -/
  | opening (h : b.Checked o) (hx : isOpeningAuction o.flags = true) :
      Admits b o (.answered ({ b.ticked with openingAuction := b.openingAuction ++ [b.stamp o] },
        { orderId := (b.stamp o).id, held := true }))
  /-- The order is queued for the closing auction. -/
  | closing (h : b.Checked o) (hx : isClosingAuction o.flags = true) :
      Admits b o (.answered ({ b.ticked with closingAuction := b.closingAuction ++ [b.stamp o] },
        { orderId := (b.stamp o).id, held := true }))
  /-- The order is held by its group. -/
  | held {b' : Book} (h : b.Checked o) (hx : b.ticked.holdChild (b.stamp o) = some b') :
      Admits b o (.answered (b', { orderId := (b.stamp o).id, held := true }))
  /-- The order is a stop. -/
  | stop (h : b.Continuous o) (hx : awaitsTrigger o = true) :
      Admits b o (.stop b.ticked (b.stamp o))
  /-- The order is pegged. -/
  | peg (h : b.Continuous o) (hx : awaitsTrigger o = false) (hp : o.peg.isSome = true) :
      Admits b o (.peg b.ticked (b.stamp o))
  /-- The order is all-or-none and cannot be filled. -/
  | aon {x : Order} (h : b.Sized o x) (hx : x.flags.aon = true)
      (ha : (b.looked o).availableFill x < x.leaves) : Admits b o (.aon (b.looked o) x)
  /-- The order is matched. -/
  | matched {x : Order} (h : b.Sized o x)
      (hx : (x.flags.aon = true → x.leaves ≤ (b.looked o).availableFill x) ∧
        (0 < x.minQty → x.minQty ≤ (b.looked o).availableFill x)) :
      Admits b o (.matched (b.looked o) x)

section Admits

variable {b : Book} {o x : Order}

lemma looked_keeps (b : Book) (o : Order) :
    (b.looked o).frame = b.frame ∧ (b.looked o).orders = b.orders := by
  unfold looked
  split_ifs
  · exact ⟨(b.ticked.calm_crosses _).frame, by simp [crosses, ticked]⟩
  · exact ⟨rfl, rfl⟩

lemma frame_submitAon (b : Book) (o : Order) : (b.submitAon o).1.frame = b.frame := by
  unfold submitAon
  split_ifs <;> simp

lemma frame_submitPeg (b : Book) (o : Order) : (b.submitPeg o).1.frame = b.frame := by
  unfold submitPeg
  cases b.computePegPrice o with
  | none => rfl
  | some price =>
    have hrest := b.frame_rest { o with type := .limit, price := price } []
    dsimp only
    split_ifs <;> exact hrest

lemma stamp_clientId (b : Book) (o : Order) : (b.stamp o).clientId = o.clientId := by
  have h : (b.stamp o).traits.clientId = o.traits.clientId := by rw [o.traits_stamp b]
  exact h

lemma admitSized_admits (h : b.Sized o x) : b.Admits o ((b.looked o).admitSized x) := by
  have hid : x.id = (b.stamp o).id := by
    rcases h.order with ⟨-, rfl⟩ | ⟨-, -, -, rfl⟩
    · rfl
    · exact Order.id_eq_of_traits (Order.traits_capReduceOnly _ _)
  unfold admitSized
  rw [hid]
  split_ifs with h1 h2 h3
  · exact .aon h h1.1 h1.2
  · exact .declined h.toChecked _
  · exact .declined h.toChecked _
  · exact .matched h ⟨fun hx => not_lt.1 fun hlt => h1 ⟨hx, hlt⟩,
      fun hx => not_lt.1 fun hlt => h3 ⟨hx, hlt⟩⟩

lemma admitPlain_admits (h : b.Continuous o) (haw : awaitsTrigger o = false)
    (hpeg : o.peg = none) : b.Admits o (b.ticked.admitPlain (b.stamp o)) := by
  have hc : ∀ c, c = (if (b.stamp o).flags.postOnly = true then b.ticked.crosses (b.stamp o)
      else (b.ticked, false)) → c.1 = b.looked o ∧
        ((b.stamp o).flags.postOnly = true → (b.ticked.crosses (b.stamp o)).2 = c.2) := by
    rintro c rfl
    unfold looked
    split_ifs with hpost
    · exact ⟨rfl, fun _ => rfl⟩
    · exact ⟨rfl, fun h => absurd h hpost⟩
  have hclient : (b.stamp o).clientId = o.clientId := stamp_clientId b o
  unfold admitPlain
  dsimp only
  generalize (if (b.stamp o).flags.postOnly = true then b.ticked.crosses (b.stamp o)
      else (b.ticked, false)) = c at hc
  obtain ⟨hbook, hpost⟩ := hc c rfl
  rw [hbook, hclient]
  split_ifs with h1 h2 h3 h4
  · exact .declined h.toChecked _
  · exact .declined h.toChecked _
  · exact .declined h.toChecked _
  · refine admitSized_admits ⟨h, haw, hpeg, fun hp => ?_, .inr ⟨h2, h3, not_le.1 h4, rfl⟩⟩
    rw [hpost hp]
    exact Bool.eq_false_of_not_eq_true h1
  · refine admitSized_admits ⟨h, haw, hpeg, fun hp => ?_, .inl ⟨?_, rfl⟩⟩
    · rw [hpost hp]
      exact Bool.eq_false_of_not_eq_true h1
    · exact Bool.eq_false_of_not_eq_true h2

lemma admitRouted_admits (h : b.Checked o) : b.Admits o (b.ticked.admitRouted (b.stamp o)) := by
  obtain ⟨-, -, -, hopen, hclose, -⟩ := stamp_keeps b o
  unfold admitRouted
  rw [hopen, hclose, awaitsTrigger_stamp, (stamp_price b o).2.1]
  by_cases h1 : isOpeningAuction o.flags = true
  · rw [if_pos h1]
    exact .opening h h1
  by_cases h2 : isClosingAuction o.flags = true
  · rw [if_neg h1, if_pos h2]
    exact .closing h h2
  rw [if_neg h1, if_neg h2]
  cases hhold : b.ticked.holdChild (b.stamp o) with
  | some b' => exact .held h hhold
  | none =>
    have hcont : b.Continuous o := ⟨h, Bool.eq_false_of_not_eq_true h1,
      Bool.eq_false_of_not_eq_true h2, isChild_stamp b o ▸ holdChild_eq_none hhold⟩
    dsimp only
    split_ifs with h3 h4
    · exact .stop hcont h3
    · exact .peg hcont (Bool.eq_false_of_not_eq_true h3) h4
    · exact admitPlain_admits hcont (Bool.eq_false_of_not_eq_true h3) (by simpa using h4)

theorem admission_admits (b : Book) (o : Order) : b.Admits o (admission (b, o)) := by
  obtain ⟨hid, hqty, -⟩ := stamp_keeps b o
  obtain ⟨htype, hpeg, hprice⟩ := stamp_price b o
  unfold admission
  dsimp only
  split_ifs with h1 h2 h3
  · exact .refused _
  · exact .refused _
  · exact .refused _
  · simp only [not_or, not_le, Bool.not_eq_true, Option.isSome_eq_false_iff,
      Option.isNone_iff_eq_none] at h1 h3
    rw [hprice, htype, hpeg] at h2
    rw [hid] at h3
    refine admitRouted_admits ⟨hqty ▸ h1.1, h1.2, fun ht hp => ?_, h3.1, h3.2⟩
    exact not_le.1 fun hle => h2 ⟨ht, hle, by simp [hp]⟩

/-- A submission does what one unrolling of it does. -/
lemma returns_submit {r : Book × SubmitOutcome} :
    (b.submit o).Returns r ↔ (submitBody (fun x => x.1.submit x.2) (b, o)).Returns r :=
  Comp.returns_fix

/-- A submission goes on as the order is admitted. -/
lemma submit_admits {r : Book × SubmitOutcome} (h : (b.submit o).Returns r) :
    ∃ a : Admission, b.Admits o a ∧
      (a.run submitStop (execute fun x => x.1.submit x.2)).Returns r := by
  rw [returns_submit, submitBody_eq] at h
  exact ⟨_, admission_admits b o, h⟩

/-- An answer makes no executions and leaves the resting orders alone, and the groups too if the
order is no child. -/
lemma Admits.answered_keeps {r : Book × SubmitOutcome} (h : b.Admits o (.answered r)) :
    r.2.trades = [] ∧ r.1.orders = b.orders ∧ (isChild o = false → SameGroups b r.1) := by
  cases h with
  | declined _ _ => exact ⟨rfl, (looked_keeps b o).2, fun _ => .of_frame (looked_keeps b o).1⟩
  | held _ hx =>
    obtain ⟨hchild, gid, gr, rfl, -⟩ := holdChild_eq_some hx
    refine ⟨rfl, rfl, fun ho => ?_⟩
    rw [isChild_stamp] at hchild
    exact absurd (ho.symm.trans hchild) (by simp)
  | _ => exact ⟨rfl, rfl, fun _ => ⟨rfl, rfl⟩⟩

/-- The book that an admission passes an order on in, and the order itself. -/
lemma Admits.keeps {a : Admission} {b' : Book} (h : b.Admits o a)
    (hx : a.passed = some (b', x)) : b'.frame = b.frame ∧ b'.orders = b.orders ∧
      x.traits = o.traits ∧ x.price = o.price ∧ x.type = o.type := by
  have hstamp : (b.stamp o).price = o.price ∧ (b.stamp o).type = o.type :=
    ⟨(stamp_price b o).2.2, (stamp_price b o).1⟩
  have hsized : ∀ {x}, b.Sized o x →
      x.traits = o.traits ∧ x.price = o.price ∧ x.type = o.type := by
    intro x hx
    rcases hx.order with ⟨-, rfl⟩ | ⟨-, -, -, rfl⟩
    · exact ⟨o.traits_stamp b, hstamp⟩
    · refine ⟨((b.stamp o).traits_capReduceOnly _).trans (o.traits_stamp b), ?_⟩
      unfold capReduceOnly
      split_ifs <;> exact hstamp
  cases h with
  | aon h _ _ | matched h _ =>
    obtain ⟨rfl, rfl⟩ := Prod.mk.inj (Option.some.inj hx)
    exact ⟨(looked_keeps b o).1, (looked_keeps b o).2, hsized h⟩
  | stop _ _ | peg _ _ _ =>
    obtain ⟨rfl, rfl⟩ := Prod.mk.inj (Option.some.inj hx)
    exact ⟨rfl, rfl, o.traits_stamp b, hstamp⟩
  | _ => exact absurd hx (by simp [Admission.passed])

end Admits

end Book

/-! ### How an instruction starts -/

open Book

/-- The book and the orders in hand when an instruction is taken up. -/
def Instruction.start (b : Book) : Instruction → Book × List Active
  | submit o => (b, [⟨o, .submitted⟩])
  | runOpeningAuction => ({ b with openingAuction := [] }, auctioned b.openingAuction)
  | runClosingAuction => ({ b with closingAuction := [] }, auctioned b.closingAuction)
  | seedPosition c net => (b.seedPosition c net, [])
  | _ => (b, [])

/-- What taking up an instruction leaves alone. -/
lemma Instruction.start_keeps (b : Book) (q : Instruction) :
    (q.start b).1.orders = b.orders ∧ (q.start b).1.stops = b.stops ∧
      (q.start b).1.frame.held = b.frame.held := by
  cases q with
  | seedPosition c net =>
    simp only [Instruction.start, Book.seedPosition]
    split_ifs <;> exact ⟨rfl, rfl, rfl⟩
  | _ => exact ⟨rfl, rfl, rfl⟩

namespace Book

/-! ### Stages and strides -/

/-- What is remembered of the course of an operation. -/
structure Marks where
  /-- Orders have traded since the stops were last looked at. -/
  stirred : Bool := false
  /-- Orders have entered the book since the pegs were last placed. -/
  strayed : Bool := false
  /-- A stop has fired on arrival. -/
  sprung : Bool := false
  /-- The parked stops that have fired, the latest first. -/
  fired : List OrderId := []
  /-- The held children that have been released, the latest first. -/
  released : List OrderId := []

/-- An order has entered the book and made the executions `ts`. -/
def Marks.enters (k : Marks) (ts : List Trade) : Marks :=
  { k with stirred := k.stirred || !ts.isEmpty, strayed := true }

/-- How the marks differ after an operation that has looked after the stops and the pegs. -/
structure Marks.Settles (k k' : Marks) : Prop where
  stirred : k'.stirred = true → k.stirred = true
  strayed : k'.strayed = true → k.strayed = true ∨ k'.sprung = true
  sprung : k.sprung = true → k'.sprung = true

lemma Marks.Settles.refl (k : Marks) : k.Settles k := ⟨id, .inl, id⟩

lemma Marks.Settles.trans {k k' k'' : Marks} (h : k.Settles k') (h' : k'.Settles k'') :
    k.Settles k'' := by
  refine ⟨fun hs => h.stirred (h'.stirred hs), fun hs => ?_, fun hs => h'.sprung (h.sprung hs)⟩
  rcases h'.strayed hs with hs | hs
  · exact (h.strayed hs).imp_right h'.sprung
  · exact .inr hs

/-- A stage of an operation: the book, the orders in hand, and what is remembered. -/
structure Stage where
  book : Book
  hand : List Active
  marks : Marks

/-- The book once an order has been matched and what is left of it has been put to rest. -/
def afterMeet (m : MatchResult) : Book :=
  if 0 < m.order.leaves ∧ m.cancelled = false ∧ discards m.order = false then
    (m.book.rest m.order []).1
  else m.book

/-- The book once the parked stop `x` has been taken up. -/
def unparked (b : Book) (id : OrderId) (x : Order) : Book :=
  { b with stops := b.stops.erase id }.emitEvent .trigger (markTriggered x)
    (markTriggered x).leaves 0

/-- One stride of an operation, with its executions.  The orders that are submitted
in a book are those that `A` allows there. -/
inductive Stride (A : Book → Order → Prop) : Stage → List Trade → Stage → Prop
  /-- A submitted order is answered at the door. -/
  | answer {b : Book} {o : Order} {hand : List Active} {k : Marks} {r : Book × SubmitOutcome}
      (hA : A b o) (h : b.Admits o (.answered r)) :
      Stride A ⟨b, ⟨o, .submitted⟩ :: hand, k⟩ [] ⟨r.1, hand, k⟩
  /-- A submitted order cannot be filled at once and is all-or-none. -/
  | aon {b b' : Book} {o x : Order} {hand : List Active} {k : Marks} (hA : A b o)
      (h : b.Admits o (.aon b' x)) :
      Stride A ⟨b, ⟨o, .submitted⟩ :: hand, k⟩ [] ⟨(b'.submitAon x).1, hand, k⟩
  /-- A submitted order is pegged. -/
  | peg {b b' : Book} {o x : Order} {hand : List Active} {k : Marks} (hA : A b o)
      (h : b.Admits o (.peg b' x)) :
      Stride A ⟨b, ⟨o, .submitted⟩ :: hand, k⟩ [] ⟨(b'.submitPeg x).1, hand, k⟩
  /-- A submitted stop is parked. -/
  | park {b b' : Book} {o x : Order} {hand : List Active} {k : Marks} (hA : A b o)
      (h : b.Admits o (.stop b' x))
      (hq : ¬ (b'.haveLast = true ∧ stopTriggered (b'.armStop x) b'.lastPrice = true)) :
      Stride A ⟨b, ⟨o, .submitted⟩ :: hand, k⟩ []
        ⟨{ b' with stops := b'.stops.insert (b'.armStop x).id (b'.armStop x) }, hand, k⟩
  /-- A submitted stop fires on arrival. -/
  | spring {b b' : Book} {o x : Order} {hand : List Active} {k : Marks} {m : MatchResult}
      (hA : A b o) (h : b.Admits o (.stop b' x)) (hl : b'.haveLast = true)
      (ht : stopTriggered (b'.armStop x) b'.lastPrice = true)
      (hm : (inject b' (markTriggered (b'.armStop x)) []).Returns m) :
      Stride A ⟨b, ⟨o, .submitted⟩ :: hand, k⟩ m.trades
        ⟨m.book, hand, { k.enters m.trades with sprung := true }⟩
  /-- A submitted order is matched. -/
  | meet {b b' : Book} {o x : Order} {hand : List Active} {k : Marks} {m : MatchResult}
      (hA : A b o) (h : b.Admits o (.matched b' x)) (hm : (matchOrder b' x []).Returns m) :
      Stride A ⟨b, ⟨o, .submitted⟩ :: hand, k⟩ m.trades
        ⟨afterMeet m, hand, k.enters m.trades⟩
  /-- A parked stop fires. -/
  | fire {b : Book} {hand : List Active} {k : Marks} {id : OrderId} {x : Order}
      {tr ts : List Trade} {m : MatchResult} (hx : b.stops.lookup id = some x)
      (hm : (inject (b.unparked id x) (markTriggered x) tr).Returns m)
      (ht : m.trades = tr ++ ts) :
      Stride A ⟨b, hand, k⟩ ts ⟨m.book, hand, { k.enters ts with fired := id :: k.fired }⟩
  /-- The remainder of an auction order enters the book. -/
  | remainder {b : Book} {hand : List Active} {k : Marks} {x : Order} {tr ts : List Trade}
      {m : MatchResult} (hx : entersBook x = true)
      (hm : (inject b { x with flags := x.flags.clearAuction } tr).Returns m)
      (ht : m.trades = tr ++ ts) :
      Stride A ⟨b, ⟨x, .auctioned⟩ :: hand, k⟩ ts ⟨m.book, hand, k.enters ts⟩
  /-- The remainder of an auction order is dropped. -/
  | drop {b : Book} {hand : List Active} {k : Marks} {x : Order} (hx : entersBook x = false) :
      Stride A ⟨b, ⟨x, .auctioned⟩ :: hand, k⟩ [] ⟨b, hand, k⟩
  /-- Children are released from their group, to be submitted. -/
  | release {b : Book} {hand : List Active} {k : Marks} {gid : ℕ} {gr : Group} {cs : List Order}
      {l : Option LinkSpec} (hl : ∀ c, isChild (relink l c) = false)
      (hcs : (b.group gid).children.Perm (cs ++ gr.children)) :
      Stride A ⟨b, hand, k⟩ [] ⟨b.setGroup gid gr,
        (cs.map (relink l)).map (⟨·, .submitted⟩) ++ hand,
        { k with released := cs.map (·.id) ++ k.released }⟩
  /-- The orders of an auction trade. -/
  | allot {b : Book} {hand : List Active} {k : Marks} (queue : List Order) :
      Stride A ⟨b, auctioned queue ++ hand, k⟩ (b.auctionPhase queue).2.2
        ⟨(b.auctionPhase queue).1, auctioned (b.auctionPhase queue).2.1 ++ hand,
          { k with stirred := k.stirred || !(b.auctionPhase queue).2.2.isEmpty }⟩
  /-- The trailing stops follow the last price. -/
  | trail {b : Book} {hand : List Active} {k : Marks} :
      Stride A ⟨b, hand, k⟩ [] ⟨b.trailed, hand, { k with stirred := true }⟩
  /-- The stops have been looked at and none is to fire. -/
  | calm {b : Book} {hand : List Active} {k : Marks} (h : b.trailed.firing = []) :
      Stride A ⟨b, hand, k⟩ [] ⟨b.trailed, hand, { k with stirred := false }⟩
  /-- The pegged orders are placed. -/
  | reprice {b : Book} {hand : List Active} {k : Marks} :
      Stride A ⟨b, hand, k⟩ [] ⟨b.repricePegs, hand, { k with strayed := false }⟩
  /-- A group changes and keeps its children. -/
  | regroup {b : Book} {hand : List Active} {k : Marks} {gid : ℕ} {gr : Group}
      (h : gr.children = (b.group gid).children) :
      Stride A ⟨b, hand, k⟩ [] ⟨b.setGroup gid gr, hand, k⟩
  /-- Resting orders join or leave their groups. -/
  | member (b : Book) {hand : List Active} {k : Marks} (m : Map OrderId ℕ) :
      Stride A ⟨b, hand, k⟩ [] ⟨{ b with orderGroup := m }, hand, k⟩
  /-- An order is cancelled. -/
  | cancel {b : Book} {hand : List Active} {k : Marks} (id : OrderId) :
      Stride A ⟨b, hand, k⟩ [] ⟨(b.cancel id).1, hand, k⟩

/-- A run of strides, with its executions. -/
inductive Strides (A : Book → Order → Prop) : Stage → List Trade → Stage → Prop
  | nil (s : Stage) : Strides A s [] s
  | cons {s s' s'' : Stage} {ts ts' : List Trade} (h : Stride A s ts s')
      (h' : Strides A s' ts' s'') : Strides A s (ts ++ ts') s''

namespace Strides

variable {A : Book → Order → Prop} {s s' s'' : Stage} {ts ts' : List Trade}

lemma single (h : Stride A s ts s') : Strides A s ts s' := by
  simpa using Strides.cons h (.nil s')

lemma trans (h : Strides A s ts s') (h' : Strides A s' ts' s'') :
    Strides A s (ts ++ ts') s'' := by
  induction h with
  | nil s => exact h'
  | cons h _ ih =>
    rw [List.append_assoc]
    exact .cons h (ih h')

/-- What every stride keeps holds at the end, and what holds of the executions of every stride
holds of all. -/
theorem invariant {I : Stage → Prop} {T : Trade → Prop} (h : Strides A s ts s') (h₀ : I s)
    (hstep : ∀ s ts s', Stride A s ts s' → I s → I s' ∧ ∀ t ∈ ts, T t) :
    I s' ∧ ∀ t ∈ ts, T t := by
  induction h with
  | nil s => exact ⟨h₀, by simp⟩
  | cons h _ ih =>
    obtain ⟨h₁, ht⟩ := hstep _ _ _ h h₀
    obtain ⟨h₂, ht'⟩ := ih h₁
    exact ⟨h₂, fun t hmem => (List.mem_append.1 hmem).elim (ht t) (ht' t)⟩

end Strides

/-! ### The operations as runs of strides -/

lemma inject_meets {b : Book} {o : Order} {tr : List Trade} {r : MatchResult}
    (h : (b.inject o tr).Returns r) : ∃ m, (b.matchOrder o tr).Returns m ∧
      r.order = m.order ∧ r.trades = m.trades ∧ r.book =
        if 0 < m.order.leaves ∧ discards m.order = false then (m.book.rest m.order []).1
        else m.book := by
  obtain ⟨m, hm, h⟩ := Comp.returns_bind.1 h
  refine ⟨m, hm, ?_⟩
  split_ifs at h ⊢
  · obtain rfl := Comp.returns_pure.1 h
    exact ⟨rfl, rfl, rfl⟩
  · obtain rfl := Comp.returns_pure.1 h
    exact ⟨rfl, rfl, rfl⟩

lemma inject_frame {b : Book} {o : Order} {tr : List Trade} {r : MatchResult}
    (h : (b.inject o tr).Returns r) : r.book.frame = b.frame := by
  obtain ⟨m, hm, -, -, hbook⟩ := inject_meets h
  rw [hbook]
  split_ifs
  · rw [frame_rest, (matchOrder_meets hm).frame]
  · exact (matchOrder_meets hm).frame

lemma inject_trades {b : Book} {o : Order} {tr : List Trade} {r : MatchResult}
    (h : (b.inject o tr).Returns r) : ∃ ts, r.trades = tr ++ ts := by
  obtain ⟨m, hm, -, htr, -⟩ := inject_meets h
  obtain ⟨ts, hts, -⟩ := (matchOrder_meets hm).trades
  exact ⟨ts, htr.trans hts⟩

/-- What the walk through the operations asks of a property `P` of stages: every stride keeps it
and, where termination is asked for, matching ends in such a stage. -/
structure Drives (A : Book → Order → Prop) (total : Prop) (P : Stage → Prop) :
    Prop where
  keep : ∀ {s ts s'}, P s → Stride A s ts s' → P s'
  meet : total → ∀ {b b' o x hand k}, P ⟨b, ⟨o, .submitted⟩ :: hand, k⟩ →
    b.Admits o (.matched b' x) → ∃ m, (matchOrder b' x []).Returns m
  spring : total → ∀ {b b' o x hand k}, P ⟨b, ⟨o, .submitted⟩ :: hand, k⟩ →
    b.Admits o (.stop b' x) → b'.haveLast = true →
    stopTriggered (b'.armStop x) b'.lastPrice = true →
    ∃ m, (inject b' (markTriggered (b'.armStop x)) []).Returns m
  fire : total → ∀ {b : Book} {hand k id x}, P ⟨b, hand, k⟩ → b.stops.lookup id = some x →
    ∀ tr, ∃ m, (inject (b.unparked id x) (markTriggered x) tr).Returns m
  remainder : total → ∀ {b hand k x}, P ⟨b, ⟨x, .auctioned⟩ :: hand, k⟩ → entersBook x = true →
    ∀ tr, ∃ m, (inject b { x with flags := x.flags.clearAuction } tr).Returns m

/-- A run of strides from `s` to a stage with the book of `r`, the orders `hand` and the marks
`k`, whose executions are those of `r` after `tr`. -/
def Leads (A : Book → Order → Prop) (s : Stage) (tr : List Trade)
    (r : Book × List Trade) (hand : List Active) (k : Marks) : Prop :=
  ∃ ts, r.2 = tr ++ ts ∧ Strides A s ts ⟨r.1, hand, k⟩

section Leads

variable {A : Book → Order → Prop} {s : Stage} {tr : List Trade}
  {r r' : Book × List Trade} {hand hand' : List Active} {k k' : Marks}

lemma Leads.refl (b : Book) (hand : List Active) (k : Marks) (tr : List Trade) :
    Leads A ⟨b, hand, k⟩ tr (b, tr) hand k := ⟨[], by simp, .nil _⟩

lemma Leads.trans (h : Leads A s tr r hand k) (h' : Leads A ⟨r.1, hand, k⟩ r.2 r' hand' k') :
    Leads A s tr r' hand' k' := by
  obtain ⟨ts, hr, hs⟩ := h
  obtain ⟨ts', hr', hs'⟩ := h'
  exact ⟨ts ++ ts', by rw [hr', hr, List.append_assoc], hs.trans hs'⟩

/-- Strides without executions. -/
lemma Leads.of_strides {s' : Stage} (h : Strides A s [] s') (tr : List Trade) :
    Leads A s tr (s'.book, tr) s'.hand s'.marks := ⟨[], by simp, h⟩

lemma Leads.of_stride {s' : Stage} (h : Stride A s [] s') (tr : List Trade) :
    Leads A s tr (s'.book, tr) s'.hand s'.marks := .of_strides (.single h) tr

lemma Drives.lead {total : Prop} {P : Stage → Prop} (hd : Drives A total P) (hs : P s)
    (h : Leads A s tr r hand k) : P ⟨r.1, hand, k⟩ := by
  obtain ⟨ts, -, hrun⟩ := h
  exact (hrun.invariant (T := fun _ => True) hs fun _ _ _ hstep hP =>
    ⟨hd.keep hP hstep, fun _ _ => trivial⟩).1

end Leads

/-! ### Groups -/

section Groups

variable {A : Book → Order → Prop} (hand : List Active) (k : Marks)

lemma cancelSiblings_strides (b : Book) (id : OrderId) (legs : List OrderId) :
    Strides A ⟨b, hand, k⟩ [] ⟨b.cancelSiblings id legs, hand, k⟩ := by
  unfold cancelSiblings
  induction legs generalizing b with
  | nil => exact .nil _
  | cons other legs ih =>
    rw [List.foldl_cons]
    split_ifs
    · exact ih b
    · exact .cons (.member b _) (.cons (.cancel other) (ih _))

lemma ocoFill_strides (b : Book) (gid : ℕ) (id : OrderId) :
    Strides A ⟨b, hand, k⟩ [] ⟨b.ocoFill gid id, hand, k⟩ := by
  unfold ocoFill
  dsimp only
  split_ifs
  · refine (cancelSiblings_strides hand k b id _).trans (.cons (@Stride.regroup _ _ _ _ gid _ ?_)
      (.single (.member (setGroup _ gid { group _ gid with ocoLegs := [] }) _)))
    rfl
  · exact .nil _

lemma registerLink_strides (b : Book) (o : Order) (rested : Bool) :
    Strides A ⟨b, hand, k⟩ [] ⟨b.registerLink o rested, hand, k⟩ := by
  unfold registerLink
  cases o.link with
  | none => exact .nil _
  | some l =>
    have hmember : ∀ b' : Book, Strides A ⟨b, hand, k⟩ [] ⟨b', hand, k⟩ →
        Strides A ⟨b, hand, k⟩ [] ⟨if rested = true then
          { b' with orderGroup := b'.orderGroup.insert o.id l.groupId } else b', hand, k⟩ := by
      intro b' h
      split_ifs
      · exact h.trans (.single (.member b' _))
      · exact h
    refine hmember _ ?_
    cases l.role
    all_goals first
      | exact .nil _
      | exact .single (.regroup rfl)

end Groups

section Walk

variable {A : Book → Order → Prop} {total : Prop} {P : Stage → Prop}

namespace Drives

variable (hd : Drives A total P) {b : Book} {hand : List Active} {k : Marks}
include hd

/-! ### Stops -/

lemma fireStop (hP : P ⟨b, hand, k⟩) {id : OrderId} {x : Order}
    (hx : b.stops.lookup id = some x) (tr : List Trade) :
    (Book.fireStop (b, tr) id).Yields total fun r => ∃ k', Leads A ⟨b, hand, k⟩ tr r hand k' ∧
      k'.sprung = k.sprung ∧ r.1.stops = b.stops.erase id ∧ SameGroups b r.1 := by
  unfold Book.fireStop
  rw [hx]
  refine (Comp.yields_returns fun ht => hd.fire ht hP hx tr).bind fun m hm => ?_
  obtain ⟨ts, hts⟩ := inject_trades hm
  have hf : m.book.frame = { b.frame with stops := b.stops.erase id } := by
    rw [inject_frame hm]
    simp only [unparked, emitEvent, emit_keeps]
    rfl
  refine Comp.yields_pure ⟨_, ⟨ts, hts, .single (.fire hx hm hts)⟩, rfl, ?_, ?_⟩
  · exact congrArg Frame.stops hf
  · exact ⟨by rw [hf], by rw [hf]⟩

lemma fireStop_foldlM (hP : P ⟨b, hand, k⟩) {fire : List OrderId} (hnd : fire.Nodup)
    (hfire : ∀ id ∈ fire, (b.stops.lookup id).isSome = true) (tr : List Trade) :
    (fire.foldlM (Book.fireStop) (b, tr)).Yields total fun r =>
      ∃ k', Leads A ⟨b, hand, k⟩ tr r hand k' ∧ k'.sprung = k.sprung ∧ SameGroups b r.1 ∧
        r.1.stops.keys.length + fire.length = b.stops.keys.length := by
  induction fire generalizing b k tr with
  | nil => exact Comp.yields_pure ⟨k, .refl b hand k tr, rfl, .refl b, rfl⟩
  | cons id fire ih =>
    obtain ⟨hid, hnd⟩ := List.nodup_cons.1 hnd
    obtain ⟨x, hx⟩ := Option.isSome_iff_exists.1 (hfire id (by simp))
    rw [List.foldlM_cons]
    refine (hd.fireStop hP hx tr).bind fun r hr => ?_
    obtain ⟨k₁, hlead, hsprung, hstops, hsame⟩ := hr
    have hfire' : ∀ id' ∈ fire, (r.1.stops.lookup id').isSome = true := by
      intro id' hid'
      have hne : id' ≠ id := fun h => hid (h ▸ hid')
      rw [hstops, Map.lookup_erase_eq, if_neg hne]
      exact hfire id' (by simp [hid'])
    refine (ih (hd.lead hP hlead) hnd hfire' r.2).imp fun r' hr' => ?_
    obtain ⟨k₂, hlead', hsprung', hsame', hlen⟩ := hr'
    refine ⟨k₂, hlead.trans hlead', hsprung'.trans hsprung, hsame.trans hsame', ?_⟩
    -- one key goes with each stop
    have hkeys : id ∈ b.stops.keys :=
      AList.mem_keys.1 (AList.lookup_isSome.1 (hfire id (by simp)))
    have hlen' : r.1.stops.keys.length + 1 = b.stops.keys.length := by
      rw [hstops, AList.keys_erase, List.length_erase_of_mem hkeys]
      have := List.length_pos_of_mem hkeys
      omega
    rw [List.length_cons]
    omega

lemma evaluateStops (hP : P ⟨b, hand, k⟩) (tr : List Trade) :
    (Book.evaluateStops b tr).Yields total fun r => ∃ k', Leads A ⟨b, hand, k⟩ tr r hand k' ∧
      k'.sprung = k.sprung ∧ k'.stirred = false ∧ SameGroups b r.1 := by
  refine Comp.yields_loop (I := fun r : Book × List Trade => ∃ k',
      Leads A ⟨b, hand, k⟩ tr r hand k' ∧ k'.sprung = k.sprung ∧ SameGroups b r.1)
    (InvImage.wf (fun r : Book × List Trade => r.1.stops.keys.length) wellFounded_lt) ?_
    ⟨k, .refl b hand k tr, rfl, .refl b⟩
  rintro ⟨b', tr'⟩ ⟨k', hlead, hsprung, hsame⟩
  have htrail : SameGroups b' b'.trailed ∧ b'.trailed.stops.keys = b'.stops.keys := by
    unfold trailed
    split_ifs
    · exact ⟨⟨rfl, rfl⟩, Map.keys_mapVal _ _⟩
    · exact ⟨.refl _, rfl⟩
  unfold stopRound
  obtain ⟨hnd, hfire⟩ := firing_spec b'.trailed
  cases hf : b'.trailed.firing with
  | nil =>
    refine Comp.yields_pure ⟨_, hlead.trans (.of_stride (.calm hf) tr'), hsprung, rfl, ?_⟩
    exact hsame.trans htrail.1
  | cons id fire =>
    rw [hf] at hnd hfire
    have hlead := hlead.trans (.of_stride .trail tr')
    refine (hd.fireStop_foldlM (hd.lead hP hlead) hnd hfire tr').bind fun r hr => ?_
    obtain ⟨k₁, hlead', hsprung', hsame', hlen⟩ := hr
    refine Comp.yields_pure ⟨⟨k₁, hlead.trans hlead', hsprung'.trans hsprung,
      (hsame.trans htrail.1).trans hsame'⟩, ?_⟩
    change r.1.stops.keys.length < b'.stops.keys.length
    rw [← htrail.2, ← hlen, List.length_cons]
    omega

/-- After the stops nothing is stirred, except what was before and made no executions now. -/
lemma cascade (hP : P ⟨b, hand, k⟩) (tr : List Trade) :
    (Book.cascade b tr).Yields total fun r => ∃ k', Leads A ⟨b, hand, k⟩ tr r hand k' ∧
      k'.sprung = k.sprung ∧ (k'.stirred = true → k.stirred = true ∧ tr = []) ∧
        SameGroups b r.1 := by
  unfold Book.cascade
  split_ifs with htr
  · exact Comp.yields_pure ⟨k, .refl b hand k tr, rfl, fun h => ⟨h, htr⟩, .refl b⟩
  · refine (hd.evaluateStops hP tr).imp fun r hr => ?_
    obtain ⟨k', hlead, hsprung, hcalm, hsame⟩ := hr
    exact ⟨k', hlead, hsprung, fun h => absurd h (by simp [hcalm]), hsame⟩

lemma submitStop {b' : Book} {o x : Order} (hP : P ⟨b, ⟨o, .submitted⟩ :: hand, k⟩) (hA : A b o)
    (h : b.Admits o (.stop b' x)) : (Book.submitStop b' x).Yields total fun r =>
      ∃ k', Strides A ⟨b, ⟨o, .submitted⟩ :: hand, k⟩ r.2.trades ⟨r.1, hand, k'⟩ ∧
        k.Settles k' ∧ SameGroups b' r.1 := by
  have hid : (b'.armStop x).id = x.id := by rw [armStop_eq]
  have hnew : b'.stops.lookup x.id = none := by
    cases h with
    | stop h _ => rw [(stamp_keeps b o).1]; exact h.parked
  unfold Book.submitStop
  dsimp only
  by_cases hfire : b'.haveLast = true ∧ stopTriggered (b'.armStop x) b'.lastPrice = true
  · rw [if_pos hfire]
    refine (Comp.yields_returns fun ht => hd.spring ht hP h hfire.1 hfire.2).bind fun m hm => ?_
    have hlead : Leads A ⟨b, ⟨o, .submitted⟩ :: hand, k⟩ [] (m.book, m.trades) hand
        { k.enters m.trades with sprung := true } :=
      ⟨m.trades, rfl, .single (.spring hA h hfire.1 hfire.2 hm)⟩
    refine (hd.evaluateStops (hd.lead hP hlead) m.trades).bind fun r hr => ?_
    obtain ⟨k', hlead', hsprung, hcalm, hsame⟩ := hr
    obtain ⟨ts, hts, hrun⟩ := hlead.trans hlead'
    refine Comp.yields_pure ⟨k', ?_, ⟨fun h => absurd h (by simp [hcalm]), fun _ => .inr hsprung,
      fun _ => hsprung⟩, (SameGroups.of_frame (inject_frame hm)).trans hsame⟩
    rw [List.nil_append] at hts
    exact hts ▸ hrun
  · rw [if_neg hfire, hid, hnew]
    have hpark := @Stride.park A _ _ _ _ hand k hA h hfire
    rw [hid] at hpark
    exact Comp.yields_pure ⟨k, .single hpark, .refl k, rfl, rfl⟩

end Drives

/-! ### Submission -/

/-- The stage `s` leads to the book and the executions of `r`, with the stops and the pegs looked
after. -/
def Answers (A : Book → Order → Prop) (s : Stage) (hand : List Active)
    (r : Book × SubmitOutcome) : Prop :=
  ∃ k, Strides A s r.2.trades ⟨r.1, hand, k⟩ ∧ s.marks.Settles k

/-- The recursive call `g` makes a run of strides in books that hold fewer than `n` children. -/
def Walks (A : Book → Order → Prop) (total : Prop) (P : Stage → Prop) (n : ℕ)
    (g : SubmitFn) : Prop :=
  ∀ b c hand k, P ⟨b, ⟨c, .submitted⟩ :: hand, k⟩ → isChild c = false → b.frame.held.length < n →
    (g (b, c)).Yields total fun r => Answers A ⟨b, ⟨c, .submitted⟩ :: hand, k⟩ hand r ∧
      r.1.frame.held.length ≤ b.frame.held.length

/-- The stage `s` leads to the book and the executions of `r`, with the stops and the pegs looked
after and no more children held. -/
def Ends (A : Book → Order → Prop) (s : Stage) (tr : List Trade)
    (hand : List Active) (r : Book × List Trade) : Prop :=
  (∃ k, Leads A s tr r hand k ∧ s.marks.Settles k) ∧
    r.1.frame.held.length ≤ s.book.frame.held.length

lemma Ends.refl (b : Book) (hand : List Active) (k : Marks) (tr : List Trade) :
    Ends A ⟨b, hand, k⟩ tr hand (b, tr) := ⟨⟨k, .refl b hand k tr, .refl k⟩, le_rfl⟩

namespace Drives

variable {b : Book} {hand : List Active} {k : Marks} {n : ℕ} {g : SubmitFn}
variable (hd : Drives A total P)
include hd

/-- One thing after another. -/
lemma ends_bind {s : Stage} {tr : List Trade} {hand' : List Active}
    {m : Comp (Book × List Trade)} {f : Book × List Trade → Comp (Book × List Trade)}
    (hm : m.Yields total (Ends A s tr hand)) (hP : P s)
    (hf : ∀ r k, P ⟨r.1, hand, k⟩ → r.1.frame.held.length ≤ s.book.frame.held.length →
      (f r).Yields total (Ends A ⟨r.1, hand, k⟩ r.2 hand')) :
    (m >>= f).Yields total (Ends A s tr hand') := by
  refine hm.bind fun r hr => ?_
  obtain ⟨⟨k, hlead, hk⟩, hheld⟩ := hr
  refine (hf r k (hd.lead hP hlead) hheld).imp fun r' hr' => ?_
  obtain ⟨⟨k', hlead', hk'⟩, hheld'⟩ := hr'
  exact ⟨⟨k', hlead.trans hlead', hk.trans hk'⟩, hheld'.trans hheld⟩

lemma releaseOne_foldlM (hg : Walks A total P n g) {cs : List Order}
    (hcs : ∀ c ∈ cs, isChild c = false) (hlen : cs ≠ [] → b.frame.held.length < n)
    (hP : P ⟨b, cs.map (⟨·, .submitted⟩) ++ hand, k⟩) (tr : List Trade) :
    (cs.foldlM (releaseOne g) (b, tr)).Yields total
      (Ends A ⟨b, cs.map (⟨·, .submitted⟩) ++ hand, k⟩ tr hand) := by
  induction cs generalizing b k tr with
  | nil => exact Comp.yields_pure (.refl b hand k tr)
  | cons c cs ih =>
    rw [List.foldlM_cons]
    have hlt := hlen (by simp)
    have hone : (releaseOne g (b, tr) c).Yields total
        (Ends A ⟨b, (c :: cs).map (⟨·, .submitted⟩) ++ hand, k⟩ tr
          (cs.map (⟨·, .submitted⟩) ++ hand)) := by
      refine (hg b c _ k hP (hcs c (by simp)) hlt).bind fun co hco => Comp.yields_pure ?_
      obtain ⟨⟨k', hrun, hk⟩, hheld⟩ := hco
      exact ⟨⟨k', ⟨co.2.trades, rfl, hrun⟩, hk⟩, hheld⟩
    exact hd.ends_bind hone hP fun r k hP' hheld =>
      ih (fun c' hc' => hcs c' (by simp [hc'])) (fun _ => lt_of_le_of_lt hheld hlt) hP' r.2

/-- The children `cs` leave their group and are submitted with another link. -/
lemma release (hg : Walks A total P n g) (hP : P ⟨b, hand, k⟩)
    (hlen : b.frame.held.length ≤ n) {gid : ℕ} {gr : Group} {cs : List Order}
    (hcs : (b.group gid).children.Perm (cs ++ gr.children)) {l : Option LinkSpec}
    (hl : ∀ c : Order, isChild (relink l c) = false) (tr : List Trade) :
    ((cs.map (relink l)).foldlM (releaseOne g) (b.setGroup gid gr, tr)).Yields total
      (Ends A ⟨b, hand, k⟩ tr hand) := by
  have hheld : (b.setGroup gid gr).frame.held.length + cs.length = b.frame.held.length := by
    have h := held_length_setGroup b gid gr
    rw [hcs.length_eq, List.length_append] at h
    omega
  have hlead : Leads A ⟨b, hand, k⟩ tr (b.setGroup gid gr, tr)
      ((cs.map (relink l)).map (⟨·, .submitted⟩) ++ hand)
      { k with released := cs.map (·.id) ++ k.released } := .of_stride (.release hl hcs) tr
  refine (hd.releaseOne_foldlM hg (fun c hc => ?_) (fun hne => ?_) (hd.lead hP hlead) tr).imp
    fun r hr => ?_
  · obtain ⟨c₀, -, rfl⟩ := List.mem_map.1 hc
    exact hl c₀
  · have hpos := List.length_pos_of_ne_nil (List.map_eq_nil_iff.not.1 hne)
    have hlt : (b.setGroup gid gr).frame.held.length < n := by omega
    exact hlt
  · obtain ⟨⟨k', hlead', hk⟩, hheld'⟩ := hr
    exact ⟨⟨k', hlead.trans hlead', ⟨hk.stirred, hk.strayed, hk.sprung⟩⟩,
      hheld'.trans (Nat.le.intro hheld)⟩

lemma releaseChildren (hg : Walks A total P n g) (gid : ℕ) (hP : P ⟨b, hand, k⟩)
    (hlen : b.frame.held.length ≤ n) (tr : List Trade) :
    (releaseChildren g gid (b, tr)).Yields total (Ends A ⟨b, hand, k⟩ tr hand) := by
  unfold Book.releaseChildren
  -- the child of the group
  have hfirst : (releaseChild g gid (b, tr)).Yields total (Ends A ⟨b, hand, k⟩ tr hand) := by
    have hperm : (b.group gid).children.Perm ((b.group gid).pendingChild.toList ++
        { b.group gid with pendingChild := none }.children) := .refl _
    have hrel := hd.release hg hP hlen hperm (l := none) (fun _ => rfl) tr
    unfold releaseChild
    dsimp only
    cases hp : (b.group gid).pendingChild with
    | none =>
      simp only [hp, Option.toList_none, List.map_nil, List.foldlM_nil] at hrel
      exact hrel
    | some c =>
      simpa only [hp, relink, Option.toList_some, List.map_cons, List.map_nil, List.foldlM_cons,
        List.foldlM_nil, bind_pure] using hrel
  refine hd.ends_bind hfirst hP fun r k' hP' hheld => ?_
  -- the take-profit and the stop-loss
  have hperm : (r.1.group gid).children.Perm ((r.1.group gid).pendingOco ++
      { r.1.group gid with pendingOco := [] }.children) := by
    simp only [Group.children, List.append_nil]
    exact List.perm_append_comm
  exact hd.release hg hP' (hheld.trans hlen) hperm
    (l := some { role := .ocoLeg, groupId := gid }) (fun _ => rfl) r.2

lemma linkFill (hg : Walks A total P n g) (o : Order) (hP : P ⟨b, hand, k⟩)
    (hlen : b.frame.held.length ≤ n) (id : OrderId) (tr : List Trade) :
    (linkFill g o (b, tr) id).Yields total (Ends A ⟨b, hand, k⟩ tr hand) := by
  unfold Book.linkFill
  split
  · exact Comp.yields_pure (.refl b hand k tr)
  · rename_i gid _
    split
    · exact Comp.yields_pure (.refl b hand k tr)
    · have hheld := b.held_length_ocoFill gid id
      have hlead : Leads A ⟨b, hand, k⟩ tr (b.ocoFill gid id, tr) hand k :=
        .of_strides (ocoFill_strides hand k b gid id) tr
      dsimp only
      split_ifs
      · refine (hd.releaseChildren hg gid (hd.lead hP hlead) (hheld.le.trans hlen) tr).imp
          fun r hr => ?_
        obtain ⟨⟨k', hlead', hk⟩, hheld'⟩ := hr
        exact ⟨⟨k', hlead.trans hlead', hk⟩, hheld'.trans hheld.le⟩
      · exact Comp.yields_pure ⟨⟨k, hlead, .refl k⟩, hheld.le⟩

lemma linkFill_foldlM (hg : Walks A total P n g) (o : Order) (ids : List OrderId)
    (hP : P ⟨b, hand, k⟩) (hlen : b.frame.held.length ≤ n) (tr : List Trade) :
    (ids.foldlM (Book.linkFill g o) (b, tr)).Yields total (Ends A ⟨b, hand, k⟩ tr hand) := by
  induction ids generalizing b k tr with
  | nil => exact Comp.yields_pure (.refl b hand k tr)
  | cons id ids ih =>
    rw [List.foldlM_cons]
    exact hd.ends_bind (hd.linkFill hg o hP hlen id tr) hP fun r k hP' hheld =>
      ih hP' (hheld.trans hlen) r.2

/-- What follows the turn of an order: the stops, the pegs and the linked orders. -/
lemma afterwards (hg : Walks A total P n g) (hP : P ⟨b, hand, k⟩)
    (hlen : b.frame.held.length ≤ n) (o : Order) (rested : Bool) (tr : List Trade) :
    (Book.cascade b tr >>= fun s =>
      processLinkFills g (s.1.repricePegs.registerLink o rested) o s.2).Yields total fun r =>
        (∃ k', Leads A ⟨b, hand, k⟩ tr r hand k' ∧
          (k'.stirred = true → k.stirred = true ∧ tr = []) ∧
          (k'.strayed = true → k'.sprung = true) ∧ (k.sprung = true → k'.sprung = true)) ∧
        r.1.frame.held.length ≤ b.frame.held.length := by
  refine (hd.cascade hP tr).bind fun s hs => ?_
  obtain ⟨k₁, hlead, hsprung, hstirred, hsame⟩ := hs
  have hheld : (s.1.repricePegs.registerLink o rested).frame.held.length
      = b.frame.held.length := by
    rw [held_length_registerLink, frame_repricePegs, hsame.held]
  have hlead' : Leads A ⟨b, hand, k⟩ tr (s.1.repricePegs.registerLink o rested, s.2) hand
      { k₁ with strayed := false } :=
    hlead.trans (.of_strides (.cons .reprice (registerLink_strides hand _ _ o rested)) s.2)
  refine (hd.linkFill_foldlM hg o _ (hd.lead hP hlead') (hheld.le.trans hlen) s.2).imp
    fun r hr => ?_
  obtain ⟨⟨k₂, hlead'', hk⟩, hheld'⟩ := hr
  refine ⟨⟨k₂, hlead'.trans hlead'', fun h => hstirred (hk.stirred h), fun h => ?_, fun h => ?_⟩,
    hheld'.trans hheld.le⟩
  · exact (hk.strayed h).resolve_left (by simp)
  · exact hk.sprung (hsprung.trans h)

lemma execute (hg : Walks A total P n g) {b' : Book} {o x : Order}
    (hP : P ⟨b, ⟨o, .submitted⟩ :: hand, k⟩) (hA : A b o) (h : b.Admits o (.matched b' x))
    (hlen : b'.frame.held.length ≤ n) : (Book.execute g b' x).Yields total fun r =>
      Answers A ⟨b, ⟨o, .submitted⟩ :: hand, k⟩ hand r ∧
        r.1.frame.held.length ≤ b'.frame.held.length := by
  unfold Book.execute
  refine (Comp.yields_returns fun ht => hd.meet ht hP h).bind fun m hm => ?_
  have hf := (matchOrder_meets hm).frame
  have hlead : Leads A ⟨b, ⟨o, .submitted⟩ :: hand, k⟩ [] (afterMeet m, m.trades) hand
      (k.enters m.trades) := ⟨m.trades, rfl, .single (.meet hA h hm)⟩
  have hcont : ∀ y : Book × SubmitOutcome, y.1 = afterMeet m → y.1.frame = b'.frame →
      (Book.cascade y.1 m.trades >>= fun s =>
        processLinkFills g (s.1.repricePegs.registerLink m.order y.2.rested) m.order s.2 >>=
          fun f => pure (f.1, { y.2 with trades := f.2 })).Yields total fun r =>
        Answers A ⟨b, ⟨o, .submitted⟩ :: hand, k⟩ hand r ∧
          r.1.frame.held.length ≤ b'.frame.held.length := by
    intro y hy hfy
    have hP' : P ⟨y.1, hand, k.enters m.trades⟩ := hy ▸ hd.lead hP hlead
    have hrest := hd.afterwards hg hP' (by rw [hfy]; exact hlen) m.order y.2.rested m.trades
    rw [← bind_assoc]
    refine hrest.bind fun f hf => Comp.yields_pure ?_
    obtain ⟨⟨k', hlead', hstirred, hstrayed, hsprung⟩, hheld⟩ := hf
    rw [← hy] at hlead
    obtain ⟨ts, hts, hrun⟩ := hlead.trans hlead'
    rw [List.nil_append] at hts
    refine ⟨⟨k', hts ▸ hrun, fun hs => ?_, fun hs => .inr (hstrayed hs), hsprung⟩, hfy ▸ hheld⟩
    obtain ⟨hs, hnil⟩ := hstirred hs
    simpa [Marks.enters, hnil] using hs
  unfold afterMeet at hcont
  dsimp only
  split_ifs with hrest
  · rw [if_pos hrest] at hcont
    exact hcont (_, _) rfl (by simp [hf])
  · rw [if_neg hrest] at hcont
    exact hcont (_, _) rfl hf

lemma submitBody {o : Order} (hg : Walks A total P b.frame.held.length g)
    (hP : P ⟨b, ⟨o, .submitted⟩ :: hand, k⟩) (hA : A b o) :
    (Book.submitBody g (b, o)).Yields total fun r =>
      Answers A ⟨b, ⟨o, .submitted⟩ :: hand, k⟩ hand r ∧
        (isChild o = false → r.1.frame.held.length ≤ b.frame.held.length) := by
  have hadm := admission_admits b o
  rw [submitBody_eq]
  cases hcase : admission (b, o) with
  | answered r =>
    rw [hcase] at hadm
    obtain ⟨htr, -, hsame⟩ := hadm.answered_keeps
    refine Comp.yields_pure ⟨⟨k, ?_, .refl k⟩, fun ho => by rw [(hsame ho).held]⟩
    rw [htr]
    exact .single (.answer hA hadm)
  | aon b' o' =>
    rw [hcase] at hadm
    have htr : (b'.submitAon o').2.trades = [] := by
      unfold submitAon
      split_ifs <;> rfl
    refine Comp.yields_pure ⟨⟨k, ?_, .refl k⟩, fun _ => ?_⟩
    · rw [htr]
      exact .single (.aon hA hadm)
    · rw [frame_submitAon, (hadm.keeps rfl).1]
  | peg b' o' =>
    rw [hcase] at hadm
    have htr : (b'.submitPeg o').2.trades = [] := by
      unfold submitPeg
      cases b'.computePegPrice o' <;> rfl
    refine Comp.yields_pure ⟨⟨k, ?_, .refl k⟩, fun _ => ?_⟩
    · rw [htr]
      exact .single (.peg hA hadm)
    · rw [frame_submitPeg, (hadm.keeps rfl).1]
  | stop b' o' =>
    rw [hcase] at hadm
    refine (hd.submitStop hP hA hadm).imp fun r hr => ?_
    obtain ⟨k', hrun, hk, hsame⟩ := hr
    exact ⟨⟨k', hrun, hk⟩, fun _ => by rw [hsame.held, (hadm.keeps rfl).1]⟩
  | matched b' o' =>
    rw [hcase] at hadm
    have hheld : b'.frame.held.length = b.frame.held.length := by rw [(hadm.keeps rfl).1]
    refine (hd.execute hg hP hA hadm hheld.le).imp fun r hr => ⟨hr.1, fun _ => ?_⟩
    exact hr.2.trans hheld.le

/-- The fixed point of a recursion that is that of `submit`, or is cut off where `A` fails, makes
a run of strides, and it ends if matching does. -/
theorem fix {F : SubmitFn → SubmitFn} {hF : Comp.Local F} (hA : total → ∀ b o, A b o)
    (htotal : total → F = Book.submitBody)
    (hF' : ∀ {g x r}, (F g x).Returns r → A x.1 x.2 ∧ (Book.submitBody g x).Returns r)
    {o : Order} (hP : P ⟨b, ⟨o, .submitted⟩ :: hand, k⟩) :
    (Comp.fix F hF (b, o)).Yields total fun r =>
      Answers A ⟨b, ⟨o, .submitted⟩ :: hand, k⟩ hand r ∧
        (isChild o = false → r.1.frame.held.length ≤ b.frame.held.length) := by
  have hwf : WellFounded fun x y : Book × Order =>
      x.1.frame.held.length < y.1.frame.held.length :=
    InvImage.wf (fun x : Book × Order => x.1.frame.held.length) wellFounded_lt
  refine (Comp.yields_fix (F := F)
    (P := fun x : Book × Order => ∃ hand k, P ⟨x.1, ⟨x.2, .submitted⟩ :: hand, k⟩)
    (Q := fun (x : Book × Order) (r : Book × SubmitOutcome) => ∀ hand k,
      P ⟨x.1, ⟨x.2, .submitted⟩ :: hand, k⟩ →
      Answers A ⟨x.1, ⟨x.2, .submitted⟩ :: hand, k⟩ hand r ∧
        (isChild x.2 = false → r.1.frame.held.length ≤ x.1.frame.held.length))
    (s := (b, o)) hwf ?_ ⟨hand, k, hP⟩).imp fun r hr => hr hand k hP
  rintro ⟨b, o⟩ ⟨hand₀, k₀, hP₀⟩ g hg
  have hwalk : Walks A total P b.frame.held.length g := fun b' c hand k hP' hchild hlt =>
    (hg (b', c) hlt ⟨hand, k, hP'⟩).imp fun r hr => ⟨(hr hand k hP').1, (hr hand k hP').2 hchild⟩
  refine ⟨fun ht => ?_, fun r hr hand k hP => ?_⟩
  · rw [htotal ht]
    exact (hd.submitBody hwalk hP₀ (hA ht b o)).1 ht
  · obtain ⟨hA, hr⟩ := hF' hr
    exact (hd.submitBody hwalk hP hA).2 r hr

/-- A submission is a run of strides, and it ends if matching does. -/
theorem submit (hA : ∀ b o, A b o) {o : Order} (hP : P ⟨b, ⟨o, .submitted⟩ :: hand, k⟩) :
    (Book.submit b o).Yields total fun r =>
      Answers A ⟨b, ⟨o, .submitted⟩ :: hand, k⟩ hand r ∧
        (isChild o = false → r.1.frame.held.length ≤ b.frame.held.length) :=
  hd.fix (fun _ => hA) (fun _ => rfl) (fun hr => ⟨hA _ _, hr⟩) hP

/-! ### Auctions -/

lemma injectRemainder_foldlM {queue : List Order} (hP : P ⟨b, auctioned queue ++ hand, k⟩)
    (tr : List Trade) : (queue.foldlM (injectRemainder) (b, tr)).Yields total fun r =>
      ∃ k', Leads A ⟨b, auctioned queue ++ hand, k⟩ tr r hand k' ∧ k'.sprung = k.sprung ∧
        (k'.stirred = true → k.stirred = true ∨ r.2 ≠ []) ∧
        (k'.strayed = true → k.strayed = true ∨ ∃ x ∈ queue, entersBook x = true) := by
  induction queue generalizing b k tr with
  | nil => exact Comp.yields_pure ⟨k, .refl b hand k tr, rfl, .inl, .inl⟩
  | cons x queue ih =>
    rw [List.foldlM_cons]
    have hone : (injectRemainder (b, tr) x).Yields total fun r =>
        ∃ k', Leads A ⟨b, auctioned (x :: queue) ++ hand, k⟩ tr r (auctioned queue ++ hand) k' ∧
          k'.sprung = k.sprung ∧ (k'.stirred = true → k.stirred = true ∨ r.2 ≠ []) ∧
          (k'.strayed = true → k.strayed = true ∨ entersBook x = true) := by
      unfold injectRemainder
      split_ifs with hx
      · refine (Comp.yields_returns fun ht => hd.remainder ht hP hx tr).bind fun m hm => ?_
        obtain ⟨ts, hts⟩ := inject_trades hm
        refine Comp.yields_pure ⟨_, ⟨ts, hts, .single (.remainder hx hm hts)⟩, rfl, fun h => ?_,
          fun _ => .inr hx⟩
        rw [hts]
        cases ts with
        | nil => exact .inl (by simpa [Marks.enters] using h)
        | cons t ts => exact .inr (by simp)
      · have hx := Bool.eq_false_of_not_eq_true hx
        exact Comp.yields_pure ⟨k, .of_stride (.drop hx) tr, rfl, .inl, .inl⟩
    refine hone.bind fun r hr => ?_
    obtain ⟨k₁, hlead, hsprung, hstirred, hstrayed⟩ := hr
    refine (ih (hd.lead hP hlead) r.2).imp fun r' hr' => ?_
    obtain ⟨k₂, hlead', hsprung', hstirred', hstrayed'⟩ := hr'
    refine ⟨k₂, hlead.trans hlead', hsprung'.trans hsprung, fun h => ?_, fun h => ?_⟩
    · rcases hstirred' h with h | h
      · refine (hstirred h).imp_right fun hne => ?_
        obtain ⟨ts, hts, -⟩ := hlead'
        rw [hts]
        exact List.append_ne_nil_of_left_ne_nil hne ts
      · exact .inr h
    · rcases hstrayed' h with h | ⟨y, hy, hin⟩
      · exact (hstrayed h).imp_right fun hin => ⟨x, by simp, hin⟩
      · exact .inr ⟨y, by simp [hy], hin⟩

/-- An auction is a run of strides.  If nothing is executed, the pegs stay where remainders have
entered the book. -/
theorem crossAuction {queue : List Order} (hP : P ⟨b, auctioned queue ++ hand, k⟩) :
    (Book.crossAuction b queue).Yields total fun r =>
      ∃ k', Strides A ⟨b, auctioned queue ++ hand, k⟩ r.2 ⟨r.1, hand, k'⟩ ∧
        (k'.stirred = true → k.stirred = true) ∧ (k'.strayed = true → k.strayed = true ∨
          (r.2 = [] ∧ ∃ x ∈ (b.auctionPhase queue).2.1, entersBook x = true)) := by
  unfold Book.crossAuction
  split_ifs with hq
  · subst hq
    exact Comp.yields_pure ⟨k, .nil _, id, .inl⟩
  have hallot : Leads A ⟨b, auctioned queue ++ hand, k⟩ []
      ((b.auctionPhase queue).1, (b.auctionPhase queue).2.2)
      (auctioned (b.auctionPhase queue).2.1 ++ hand)
      { k with stirred := k.stirred || !(b.auctionPhase queue).2.2.isEmpty } :=
    ⟨_, rfl, .single (.allot queue)⟩
  refine (hd.injectRemainder_foldlM (hd.lead hP hallot) (b.auctionPhase queue).2.2).bind
    fun r hr => ?_
  obtain ⟨k₁, hlead, -, hstirred, hstrayed⟩ := hr
  have hlead := hallot.trans hlead
  unfold settle
  split_ifs with hnil
  · obtain ⟨ts, hts, hrun⟩ := hlead
    rw [List.nil_append] at hts
    refine Comp.yields_pure ⟨k₁, hts ▸ hrun, fun h => ?_, fun h => ?_⟩
    · -- no executions at all
      obtain ⟨ts', hts', -⟩ := ‹Leads A _ (b.auctionPhase queue).2.2 r hand k₁›
      have hnone : (b.auctionPhase queue).2.2 = [] := by
        rw [hnil] at hts'
        exact (List.append_eq_nil_iff.1 hts'.symm).1
      simpa [hnone, hnil] using hstirred h
    · exact (hstrayed h).imp_right fun hin => ⟨hnil, hin⟩
  · refine (hd.evaluateStops (hd.lead hP hlead) r.2).bind fun r' hr' => ?_
    obtain ⟨k₂, hlead', -, hcalm, -⟩ := hr'
    obtain ⟨ts, hts, hrun⟩ := hlead.trans hlead'
    rw [List.nil_append] at hts
    have hrun' : Strides A ⟨b, auctioned queue ++ hand, k⟩ (r'.2 ++ [])
        ⟨r'.1.repricePegs, hand, { k₂ with strayed := false }⟩ :=
      (hts ▸ hrun).trans (.single .reprice)
    rw [List.append_nil] at hrun'
    exact Comp.yields_pure ⟨_, hrun', fun h => absurd h (by simp [hcalm]), by simp⟩

/-- An instruction is a run of strides, and it ends if matching does. -/
theorem run (hA : ∀ b o, A b o) (q : Instruction)
    (hP : P ⟨(q.start b).1, (q.start b).2 ++ hand, k⟩) : (q.run b).Yields total fun r =>
      ∃ k', Strides A ⟨(q.start b).1, (q.start b).2 ++ hand, k⟩ r.2 ⟨r.1, hand, k'⟩ ∧
        (k'.stirred = true → k.stirred = true) := by
  cases q with
  | submit o =>
    refine (hd.submit hA hP).bind fun r hr => Comp.yields_pure ?_
    obtain ⟨⟨k', hrun, hk⟩, -⟩ := hr
    exact ⟨k', hrun, hk.stirred⟩
  | cancel id => exact Comp.yields_pure ⟨k, .single (.cancel id), fun h => h⟩
  | expire now =>
    have hfold : ∀ (ids : List OrderId) (b : Book), Strides A ⟨b, hand, k⟩ []
        ⟨ids.foldl (fun b id => (b.cancel id).1) b, hand, k⟩ := by
      intro ids
      induction ids with
      | nil => exact fun b => .nil _
      | cons id ids ih => exact fun b => .cons (.cancel id) (ih _)
    exact Comp.yields_pure ⟨k, hfold _ b, id⟩
  | runOpeningAuction | runClosingAuction =>
    refine (hd.crossAuction hP).imp fun r hr => ?_
    obtain ⟨k', hrun, hstirred, -⟩ := hr
    exact ⟨k', hrun, hstirred⟩
  | seedPosition c net => exact Comp.yields_pure ⟨k, .nil _, id⟩

end Drives

end Walk

/-! ### Whatever returns -/

/-- Whatever an operation of the book returns, it returns along a run of strides. -/
lemma drives_code (A : Book → Order → Prop) : Drives A False fun _ => True where
  keep _ _ := trivial
  meet := False.elim
  spring := False.elim
  fire := False.elim
  remainder := False.elim

/-- Any order may be submitted. -/
def anyOrder (_ : Book) (_ : Order) : Prop := True

/-- What an instruction returns, it returns along a run of strides. -/
lemma strides_of_run {b : Book} {q : Instruction} {r : Book × List Trade}
    (h : (q.run b).Returns r) (k : Marks) : ∃ k',
      Strides anyOrder ⟨(q.start b).1, (q.start b).2, k⟩ r.2 ⟨r.1, [], k'⟩ ∧
        (k'.stirred = true → k.stirred = true) := by
  have hrun := (@Drives.run _ _ _ b [] k (drives_code anyOrder)
    (fun _ _ => trivial) q trivial).2 r h
  rwa [List.append_nil] at hrun

/-- The recursive calls are runs of strides. -/
lemma Drives.walks_submit {total : Prop} {P : Stage → Prop}
    (hd : Drives anyOrder total P) (n : ℕ) :
    Walks anyOrder total P n fun x => x.1.submit x.2 := by
  intro b c hand k hP hchild _
  have hsubmit := hd.submit (fun _ _ => trivial) hP
  exact hsubmit.imp fun r hr => ⟨hr.1, hr.2 hchild⟩

end Book

end Codicis
