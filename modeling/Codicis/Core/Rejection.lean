/-
A rejected order leaves the book as it was.

`submit` rejects at eight places, some of them after it has looked at the opposite side or
capped the order.  Up to each of them it has drawn a sequence number and refreshed the
cache of a best price, and that is all (`Undisturbed`).
-/
import Codicis.Core.History

namespace Codicis

/-- Reading the best price again gives the same. -/
lemma Ladder.best_best {s : Side} (L : Ladder s) : L.best.1.best.2 = L.best.2 := by
  by_cases hv : L.bestValid = true
  · simp [best, hv]
  by_cases hb : L.hasBase = false
  · simp [best, hv, hb]
  cases hf : L.outward.find? fun p => L.Populated p with
  | none => simp [best, hv, hb, hf]
  | some p => simp [best, hv, hb, hf]

namespace Book

/-- Everything that `b` holds and answers is in `b'` as it was; only sequence numbers may have been
drawn. -/
structure Undisturbed (b b' : Book) : Prop where
  orders : b'.orders = b.orders
  level : ∀ s p, b'.level s p = b.level s p
  bestBid : b'.bestBid.2 = b.bestBid.2
  bestAsk : b'.bestAsk.2 = b.bestAsk.2
  stops : b'.stops = b.stops
  pegged : b'.pegged = b.pegged
  openingAuction : b'.openingAuction = b.openingAuction
  closingAuction : b'.closingAuction = b.closingAuction
  groups : b'.groups = b.groups
  orderGroup : b'.orderGroup = b.orderGroup
  positions : b'.positions = b.positions
  deep : ∀ s, b'.deepOf s = b.deepOf s
  haveLast : b'.haveLast = b.haveLast
  lastPrice : b'.lastPrice = b.lastPrice
  requeued : b'.requeued = b.requeued
  events : b'.events = b.events
  settings : b'.settings = b.settings
  nextSeq : b.nextSeq ≤ b'.nextSeq

namespace Undisturbed

lemma refl (b : Book) : Undisturbed b b :=
  ⟨rfl, fun _ _ => rfl, rfl, rfl, rfl, rfl, rfl, rfl, rfl, rfl, rfl, fun _ => rfl, rfl, rfl,
    rfl, rfl,
    rfl, le_rfl⟩

lemma trans {b b' b'' : Book} (h : Undisturbed b b') (h' : Undisturbed b' b'') :
    Undisturbed b b'' where
  orders := h'.orders.trans h.orders
  level s p := (h'.level s p).trans (h.level s p)
  bestBid := h'.bestBid.trans h.bestBid
  bestAsk := h'.bestAsk.trans h.bestAsk
  stops := h'.stops.trans h.stops
  pegged := h'.pegged.trans h.pegged
  openingAuction := h'.openingAuction.trans h.openingAuction
  closingAuction := h'.closingAuction.trans h.closingAuction
  groups := h'.groups.trans h.groups
  orderGroup := h'.orderGroup.trans h.orderGroup
  positions := h'.positions.trans h.positions
  deep s := (h'.deep s).trans (h.deep s)
  haveLast := h'.haveLast.trans h.haveLast
  lastPrice := h'.lastPrice.trans h.lastPrice
  requeued := h'.requeued.trans h.requeued
  events := h'.events.trans h.events
  settings := h'.settings.trans h.settings
  nextSeq := h.nextSeq.trans h'.nextSeq

/-- A sequence number was drawn. -/
lemma tick (b : Book) : Undisturbed b { b with nextSeq := b.nextSeq + 1 } :=
  { refl b with
    level := fun s p => by cases s <;> rfl
    deep := fun s => by cases s <;> rfl
    nextSeq := Nat.le_succ _ }

/-- The best price of a side was read. -/
lemma look (b : Book) (s : Side) : Undisturbed b (b.setLadder s (b.ladder s).best.1) := by
  have hlevel := level_setLadder_of_eq (Ladder.level_best (b.ladder s))
  cases s with
  | buy =>
    exact { refl b with
      level := hlevel
      bestBid := Ladder.best_best b.bids
      deep := fun s => by cases s <;> rfl }
  | sell =>
    exact { refl b with
      level := hlevel
      bestAsk := Ladder.best_best b.asks
      deep := fun s => by cases s <;> rfl }

end Undisturbed

/-- If the outcome is a rejection then the book `b` is undisturbed, and nothing has traded. -/
def RejectsCleanly (b : Book) (x : Book × SubmitOutcome) : Prop :=
  x.2.accepted = false → Undisturbed b x.1 ∧ x.2.trades = [] ∧ x.2.evicted = []

variable {g : SubmitFn} {b b' : Book} {o : Order} {x : Book × SubmitOutcome}

lemma rejectsCleanly_reject (b : Book) (id : OrderId) (reason : String) :
    RejectsCleanly b (b, reject id reason) :=
  fun _ => ⟨.refl b, rfl, rfl⟩

/-- An accepted order is no rejection. -/
lemma rejectsCleanly_of_accepted (h : x.2.accepted = true) : RejectsCleanly b x :=
  fun hx => absurd (h.symm.trans hx) (by simp)

lemma RejectsCleanly.of_undisturbed (hu : Undisturbed b b') (h : RejectsCleanly b' x) :
    RejectsCleanly b x := fun hx => ⟨hu.trans (h hx).1, (h hx).2⟩

lemma execute_accepted (h : (execute g b o).Returns x) : x.2.accepted = true := by
  simp only [execute, Comp.returns_bind, Comp.returns_pure] at h
  obtain ⟨m, -, s, -, f, -, rfl⟩ := h
  dsimp only
  split_ifs <;> rfl

lemma submitStop_accepted (h : (b.submitStop o).Returns x) : x.2.accepted = true := by
  unfold submitStop at h
  dsimp only at h
  by_cases hfire : b.haveLast = true ∧ stopTriggered (b.armStop o) b.lastPrice = true
  · rw [if_pos hfire] at h
    simp only [Comp.returns_bind, Comp.returns_pure] at h
    obtain ⟨m, -, r, -, rfl⟩ := h
    rfl
  · rw [if_neg hfire] at h
    rw [← Comp.returns_pure.1 h]

lemma submitPeg_rejectsCleanly (b : Book) (o : Order) : RejectsCleanly b (b.submitPeg o) := by
  unfold submitPeg
  split
  · exact rejectsCleanly_reject b _ _
  · exact rejectsCleanly_of_accepted rfl

lemma submitAon_rejectsCleanly (b : Book) (o : Order) : RejectsCleanly b (b.submitAon o) := by
  unfold submitAon
  split_ifs
  · exact rejectsCleanly_reject b _ _
  · exact rejectsCleanly_of_accepted rfl

lemma submitSized_rejectsCleanly (h : (submitSized g b o).Returns x) : RejectsCleanly b x := by
  unfold submitSized at h
  split_ifs at h
  · exact Comp.returns_pure.1 h ▸ submitAon_rejectsCleanly b o
  · exact Comp.returns_pure.1 h ▸ rejectsCleanly_reject b _ _
  · exact Comp.returns_pure.1 h ▸ rejectsCleanly_reject b _ _
  · exact rejectsCleanly_of_accepted (execute_accepted h)

lemma submitPlain_rejectsCleanly (h : (submitPlain g b o).Returns x) : RejectsCleanly b x := by
  have hlook : Undisturbed b (if o.flags.postOnly = true then b.crosses o else (b, false)).1 := by
    split_ifs
    · exact .look b o.side.opposite
    · exact .refl b
  unfold submitPlain at h
  generalize (if o.flags.postOnly = true then b.crosses o else (b, false)) = c at h hlook
  refine .of_undisturbed hlook ?_
  dsimp only at h
  split_ifs at h
  · exact Comp.returns_pure.1 h ▸ rejectsCleanly_reject c.1 _ _
  · exact Comp.returns_pure.1 h ▸ rejectsCleanly_reject c.1 _ _
  · exact Comp.returns_pure.1 h ▸ rejectsCleanly_reject c.1 _ _
  · exact submitSized_rejectsCleanly h
  · exact submitSized_rejectsCleanly h

lemma route_rejectsCleanly (h : (route g b o).Returns x) : RejectsCleanly b x := by
  unfold route at h
  split at h
  · exact rejectsCleanly_of_accepted (Comp.returns_pure.1 h ▸ rfl)
  split at h
  · exact rejectsCleanly_of_accepted (Comp.returns_pure.1 h ▸ rfl)
  split at h
  · exact rejectsCleanly_of_accepted (Comp.returns_pure.1 h ▸ rfl)
  split_ifs at h
  · exact rejectsCleanly_of_accepted (submitStop_accepted h)
  · exact Comp.returns_pure.1 h ▸ submitPeg_rejectsCleanly b o
  · exact submitPlain_rejectsCleanly h

/-- A rejected submission, of any order and on any book, changes nothing but the sequence counter,
executes nothing and emits nothing. -/
theorem undisturbed_of_rejected (h : (b.submit o).Returns x) (hrej : x.2.accepted = false) :
    Undisturbed b x.1 ∧ x.2.trades = [] ∧ x.2.evicted = [] := by
  have hbody : (submitBody (Comp.fix submitBody submitBody_local) (b, o)).Returns x :=
    Comp.returns_fix.1 h
  suffices hclean : RejectsCleanly { b with nextSeq := b.nextSeq + 1 } x from
    hclean.of_undisturbed (.tick b) hrej
  unfold submitBody at hbody
  dsimp only at hbody
  split_ifs at hbody
  · exact Comp.returns_pure.1 hbody ▸ rejectsCleanly_reject _ _ _
  · exact Comp.returns_pure.1 hbody ▸ rejectsCleanly_reject _ _ _
  · exact Comp.returns_pure.1 hbody ▸ rejectsCleanly_reject _ _ _
  · exact route_rejectsCleanly hbody

/-- A post-only order that would cross, after a stop has been parked. -/
theorem undisturbed_of_rejected_postOnly : ∃ (r : Record) (o : Order) (x : Book × SubmitOutcome),
    History (fun _ _ => True) (Book.empty 0 .none "ABC" true) r ∧ (r.book.submit o).Returns x ∧
      x.2.accepted = false ∧ x.2.rejectReason = "post-only would cross" ∧
      (Undisturbed r.book x.1 ∧ x.2.trades = [] ∧ x.2.evicted = []) := by
  let qs : List Instruction := [
    .submit { id := 1, side := .sell, qty := 4, price := 110 },
    .submit { id := 2, side := .sell, qty := 4, price := 90, trigger := some { stopPrice := 95 } }]
  let o : Order := { id := 3, qty := 6, price := 112, flags.postOnly := true }
  obtain ⟨r, x, hist, hret, hacc, hreason⟩ : ∃ r x, History (fun _ _ => True)
      (Book.empty 0 .none "ABC" true) r ∧ (r.book.submit o).Returns x ∧ x.2.accepted = false ∧
        x.2.rejectReason = "post-only would cross" :=
    History.exists_of_run 8 qs (by decide +kernel)
  exact ⟨r, o, x, hist, hret, hacc, hreason, undisturbed_of_rejected hret hacc⟩

end Book

end Codicis
