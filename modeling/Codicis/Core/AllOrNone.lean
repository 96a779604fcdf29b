/-
All-or-none makers.

A resting all-or-none order is filled only by an order that could take all of it; the test is made
at every visit.  An order without a reserve is then filled at one go.  An iceberg exposes its slice
only, is queued again behind the other orders of its level, and the incoming order may be used up
before its second visit.

`Mut.Whole` is what the test says about a fill.  `History.whole_of_history` follows a resting
order without a reserve through an instruction.
-/
import Codicis.Core.Account
import Codicis.Core.History

namespace Codicis

open Book

/-! ### Fills of all-or-none orders -/

/-- A fill of an all-or-none order takes all that is exposed, by an order that could take all of
it. -/
def Mut.Whole : Mut → Prop
  | .fill x me q _ => me.order.flags.aon = true →
      me.order.leaves ≤ x.leaves ∧ q = min x.leaves (exposed me)
  | _ => True

/-- An all-or-none entry for the quantity `n`, without a reserve. -/
structure Entry.Solid (e : Entry) (n : ℤ) : Prop where
  aon : e.order.flags.aon = true
  exposed : Book.exposed e = e.order.leaves
  leaves : e.order.leaves = n

section View

variable {v v' : View} {ms : List Mut} {id : OrderId} {e : Entry} {n : ℤ}

/-- A mutation leaves an all-or-none entry as it is, takes it out, or fills it. -/
lemma Mut.solid_apply {m : Mut} (hm : m.Ok v) (hw : m.Whole) (he : v.entry id = some e)
    (hs : e.Solid n) :
    ((∃ e', (m.apply v).entry id = some e' ∧ e'.Solid n) ∨ (m.apply v).entry id = none) ∧
        m.filled id = 0 ∨
      (m.apply v).entry id = none ∧ m.filled id = n := by
  cases m with
  | rest e₁ =>
    have hne : id ≠ e₁.order.id := by
      rintro rfl
      exact absurd (hm.1.symm.trans he) (by simp)
    exact .inl ⟨.inl ⟨e, by simp [apply, View.link, hne, he], hs⟩, rfl⟩
  | fill o me q rank =>
    by_cases hid : me.order.id = id
    · subst hid
      obtain rfl := Option.some.inj (hm.1.symm.trans he)
      -- the incoming order could take all of it, so it does
      obtain ⟨hle, hq⟩ := hw hs.aon
      have hqn : q = me.order.leaves := by
        rw [hq, hs.exposed]
        omega
      refine .inr ⟨?_, by simp [filled, hqn, hs.leaves]⟩
      simp [apply, hqn, View.unpeg, View.unlink]
    · have hkeep : ((Mut.fill o me q rank).apply v).entry id = v.entry id :=
        Mut.entry_apply_of_ne (by simp) (by simpa [Mut.target?] using hid)
      exact .inl ⟨.inl ⟨e, hkeep.trans he, hs⟩, by simp [filled, hid]⟩
  | remove e₁ =>
    refine .inl ⟨?_, rfl⟩
    by_cases hid : id = e₁.order.id
    · exact .inr (by simp [apply, View.unpeg, View.unlink, hid])
    · exact .inl ⟨e, by simp [apply, View.unpeg, View.unlink, hid, he], hs⟩
  | evict s p =>
    refine .inl ⟨?_, rfl⟩
    by_cases hid : id ∈ v.queue s p
    · exact .inr (by simp [apply, View.evict, hid])
    · exact .inl ⟨e, by simp [apply, View.evict, hid, he], hs⟩
  | move e₁ p rank =>
    refine .inl ⟨.inl ?_, rfl⟩
    by_cases hid : id = e₁.order.id
    · subst hid
      obtain rfl := Option.some.inj (hm.symm.trans he)
      exact ⟨e₁.moved p rank, by simp [apply, View.link, Entry.moved], hs.aon, hs.exposed,
        hs.leaves⟩
    · exact ⟨e, by simp [apply, View.link, View.unlink, Entry.moved, hid, he], hs⟩
  | _ => exact .inl ⟨.inl ⟨e, he, hs⟩, rfl⟩

/-- Over a run it is filled at one go, or not at all. -/
lemma View.Run.filled_of_solid (h : Run v ms v') (hv : v.Sound) (hw : ∀ m ∈ ms, m.Whole)
    (hno : ∀ e, Mut.rest e ∈ ms → e.order.id ≠ id) (he : v.entry id = some e) (hs : e.Solid n) :
    (ms.map (Mut.filled id)).sum = 0 ∨ (ms.map (Mut.filled id)).sum = n := by
  induction h generalizing e with
  | nil v => exact .inl rfl
  | @cons v v' m ms hm hrun ih =>
    have hv' := Mut.sound_apply hv hm
    have hno' : ∀ e, Mut.rest e ∈ ms → e.order.id ≠ id := fun e he =>
      hno e (List.mem_cons_of_mem _ he)
    have hgone : (m.apply v).entry id = none → (ms.map (Mut.filled id)).sum = 0 := fun hnone =>
      hrun.filled_eq_zero hnone hno'
    rw [List.map_cons, List.sum_cons]
    rcases Mut.solid_apply hm (hw m List.mem_cons_self) he hs with
      ⟨⟨e', he', hs'⟩ | hnone, hzero⟩ | ⟨hnone, hall⟩
    · rw [hzero, zero_add]
      exact ih hv' (fun m hm => hw m (List.mem_cons_of_mem _ hm)) hno' he' hs'
    · rw [hzero, hgone hnone]
      exact .inl rfl
    · rw [hall, hgone hnone, add_zero]
      exact .inr rfl

end View

lemma Beat.whole {m m' : Moment} {ms : List Mut} (h : Beat m ms m') : ∀ x ∈ ms, x.Whole := by
  intro mu hmu
  cases h with
  | fill rest hr hl he hside hacc hst haon hev hf =>
    obtain rfl := List.mem_singleton.1 hmu
    exact fun h => ⟨haon h, rfl⟩
  | rest ev hl hd hn hnew htail hev hf =>
    cases mu with
    | fill x me q rank =>
      have ht : (⟨x.id, me.order.id, x.side, me.order.price, q⟩ : Trade) ∈ Mut.trades ms :=
        List.mem_filterMap.2 ⟨_, hmu, rfl⟩
      rw [htail.trades] at ht
      exact absurd ht List.not_mem_nil
    | _ => trivial
  | prevent | fire | cross | peg | move | remove =>
    obtain rfl := List.mem_singleton.1 hmu
    trivial
  | _ => exact absurd hmu List.not_mem_nil

/-! ### Histories -/

namespace History

variable {C : Record → Instruction → Prop} {memLevels : ℕ} {stp : StpPolicy} {symbol : Symbol}
  {eventSink : Bool} {r : Record}

/-- Along every history an instruction, which returns, fills a resting all-or-none order without
a reserve at one go, or not at all. -/
theorem whole_of_history (h : History C (Book.empty memLevels stp symbol eventSink) r)
    {q : Instruction} (hq : q.Allowed r) {id : OrderId} {e : Entry}
    (he : r.book.view.entry id = some e) (haon : e.order.flags.aon = true)
    (hex : exposed e = e.order.leaves) :
    (q.run r.book).Ensures fun x => makerQty id x.2 = 0 ∨ makerQty id x.2 = e.order.leaves := by
  have hwf := h.sane.wf
  have hlive := h.sane.live
  obtain ⟨b', ts, hret⟩ := h.sane.returns hq
  refine ⟨(b', ts), hret, ?_⟩
  rcases h.sane.cases hq hret with ⟨c, net, rfl, rfl, rfl⟩ | ⟨-, ms, hst, rfl⟩
  · exact .inl rfl
  · -- nobody else goes by the identifier of a resting order
    have hw : ¬ Waiting r.book id := by
      rintro ⟨x, hx, rfl⟩
      exact absurd (he.symm.trans (hwf.waits.away x hx)) (by simp)
    have hn : id ∉ idsOf q.inHand := by
      have hid : id ∈ r.ids := hlive id (.inl (by rw [he]; simp))
      cases q with
      | submit o =>
        intro h
        obtain rfl : id = o.id := List.mem_singleton.1 h
        exact hq.1 hid
      | _ => exact List.not_mem_nil
    have hwhole : ∀ x ∈ ms, x.Whole :=
      (hst.beats.invariant (I := fun _ => True) (composes_forall Mut.Whole) trivial
        fun _ _ _ hb _ => ⟨trivial, hb.whole⟩).2
    show makerQty id (Mut.trades ms) = 0 ∨ makerQty id (Mut.trades ms) = e.order.leaves
    rw [makerQty_trades, hst.crossed_eq_zero hw hn, add_zero]
    refine hst.evolves.run.filled_of_solid hwf.sound hwhole (fun e₁ he₁ heq => ?_) he
      ⟨haon, hex, rfl⟩
    exact (hst.rests e₁ he₁).elim (fun h => hw (heq ▸ h)) fun h => hn (heq ▸ h)

/-- A history: an all-or-none order in front of another one is taken whole. -/
theorem whole_of_history_first : ∃ (r : Record) (q : Instruction) (e : Entry),
    History (fun _ _ => True) (Book.empty 0 .none "ABC" true) r ∧ q.Allowed r ∧
      r.book.view.entry 1 = some e ∧ e.order.flags.aon = true ∧ e.order.leaves = 10 ∧
      (q.run r.book).Ensures fun x => makerQty 1 x.2 = 0 ∨ makerQty 1 x.2 = e.order.leaves := by
  let qs : List Instruction := [
    .submit { id := 1, side := .sell, qty := 10, price := 110, flags.aon := true },
    .submit { id := 2, side := .sell, qty := 10, price := 110 }]
  let q : Instruction := .submit { id := 3, qty := 12, price := 110 }
  obtain ⟨r, hist, hq, e, he, haon, hleaves, hex⟩ : ∃ r, History (fun _ _ => True)
      (Book.empty 0 .none "ABC" true) r ∧ q.Allowed r ∧ ∃ e ∈ r.book.view.entry 1,
        e.order.flags.aon = true ∧ e.order.leaves = 10 ∧ exposed e = e.order.leaves :=
    exists_of_replay 8 qs (by decide +kernel)
  exact ⟨r, q, e, hist, hq, he, haon, hleaves, whole_of_history hist hq he haon hex⟩

/-- An all-or-none iceberg for ten shows four of them; an order for twelve takes the four, and
then eight of the order behind. -/
theorem aon_iceberg_partly_filled : ∃ (r : Record) (q : Instruction) (b' : Book) (ts : List Trade)
    (e : Entry), History (fun _ _ => True) (Book.empty 0 .none "ABC" true) r ∧ q.Allowed r ∧
      (q.run r.book).Returns (b', ts) ∧ r.book.view.entry 1 = some e ∧
      e.order.flags.aon = true ∧ e.order.leaves = 10 ∧ makerQty 1 ts = 4 := by
  let qs : List Instruction := [
    .submit
      { id := 1, side := .sell, qty := 10, price := 110, displayQty := 4,
        flags.iceberg := true, flags.aon := true },
    .submit { id := 2, side := .sell, qty := 10, price := 110 }]
  let q : Instruction := .submit { id := 3, qty := 12, price := 110 }
  obtain ⟨r, ⟨b', ts⟩, hist, hret, hq, ⟨e, he, haon, hleaves⟩, hqty⟩ : ∃ r x, History
      (fun _ _ => True) (Book.empty 0 .none "ABC" true) r ∧ (q.run r.book).Returns x ∧ q.Allowed r ∧
        (∃ e ∈ r.book.view.entry 1, e.order.flags.aon = true ∧ e.order.leaves = 10) ∧
        makerQty 1 x.2 = 4 := exists_of_run 8 qs (by decide +kernel)
  exact ⟨r, q, b', ts, e, hist, hq, hret, he, haon, hleaves, hqty⟩

end History

end Codicis
