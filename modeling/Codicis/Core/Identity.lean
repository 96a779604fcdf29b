/-
No identifier is live twice.

The live orders of a book rest, are parked as stops, are queued for an auction or are held by their
groups; `Book.liveIds` lists their identifiers, as often as they occur.  The check for duplicates
looks at the resting orders and the parked stops only.  In every run in which no order comes under
an identifier that is queued or held at the time (`Book.Deferred`) the identifiers stay distinct,
whatever else the orders carry, and an order whose identifier is live is rejected.
-/
import Codicis.Core.Calls

namespace Codicis

open Book

/-- The book after an instruction. -/
def Instruction.next (b : Book) (q : Instruction) : Comp Book := q.run b >>= fun r => pure r.1

namespace Book

section Once

variable {b : Book} {s s' : Stage} {ts : List Trade}

/-- An identifier that is live and not deferred rests or is parked. -/
lemma lookup_of_live (hk : b.Keyed) {id : OrderId} (hid : id ∈ b.liveIds) (hd : ¬ b.Deferred id) :
    b.orders.lookup id ≠ none ∨ b.stops.lookup id ≠ none := by
  rcases List.mem_append.1 hid with hid | hid
  · obtain ⟨e, he⟩ := Map.mem_iff_lookup.1 (AList.mem_keys.2 hid)
    exact .inl (by simp [he])
  · obtain ⟨x, hx, rfl⟩ := List.mem_map.1 hid
    rcases Frame.mem_waiting.1 hx with ⟨k, hk'⟩ | hx
    · have hlk : b.stops.lookup k = some x := hk'
      rw [← hk k x hlk] at hlk
      exact .inr (by simp [hlk])
    · refine absurd ⟨x, ?_, rfl⟩ hd
      rw [List.append_assoc, List.mem_append, List.mem_append]
      exact hx

/-- An order whose identifier rests or is parked is rejected. -/
lemma submit_duplicate {o : Order} (h : b.orders.lookup o.id ≠ none ∨ b.stops.lookup o.id ≠ none)
    {r : Book × SubmitOutcome} (hr : (b.submit o).Returns r) :
    r.1 = b.ticked ∧ r.2.accepted = false := by
  have hno : ¬ b.Checked o := fun hc => h.elim (· hc.resting) (· hc.parked)
  obtain ⟨a, hadm, hr⟩ := submit_admits hr
  cases hadm with
  | refused reason =>
    obtain rfl := Comp.returns_pure.1 hr
    exact ⟨rfl, rfl⟩
  | declined h | opening h | closing h | held h => exact absurd h hno
  | stop h | peg h => exact absurd h.toChecked hno
  | aon h | matched h => exact absurd h.toChecked hno

lemma Distinct.next {b' : Book} {q : Instruction} (hb : b.Distinct)
    (hq : ∀ o ∈ q.orders, ¬ b.Deferred o.id) (h : (q.next b).Returns b') : b'.Distinct := by
  obtain ⟨r, hr, h⟩ := Comp.returns_bind.1 h
  obtain rfl := Comp.returns_pure.1 h
  by_cases hlive : ∃ o ∈ q.orders, o.id ∈ b.liveIds
  · -- nothing but the sequence number changes
    obtain ⟨o, ho, hid⟩ := hlive
    cases q with
    | submit o' =>
      obtain rfl := List.mem_singleton.1 ho
      obtain ⟨x, hx, hr⟩ := Comp.returns_bind.1 hr
      obtain rfl := Comp.returns_pure.1 hr
      rw [(submit_duplicate (lookup_of_live hb.keyed hid (hq o ho)) hx).1]
      exact ⟨hb.nodup, hb.keyed⟩
    | _ => exact absurd ho List.not_mem_nil
  · obtain ⟨k', hrun, -⟩ := strides_of_run hr {}
    simp only [not_exists, not_and] at hlive
    have hend := once_of_strides hrun (once_start hb hlive {}).1
    have hnodup := hend.nodup
    rw [Stage.idle, List.map_nil, List.append_nil] at hnodup
    exact ⟨hnodup, hend.keyed⟩

end Once

end Book

namespace Instruction

variable {stp : StpPolicy} {symbol : Symbol} {eventSink : Bool} {b : Book}

/-- In every run in which no order comes under an identifier that is queued for an auction or held
as a child, no identifier is live twice, and such an order under an identifier that is live is
rejected. -/
theorem distinct_of_reach
    (h : Machine.Reach next (fun b q => ∀ o ∈ q.orders, ¬ b.Deferred o.id)
      (Book.empty 0 stp symbol eventSink) b) :
    b.liveIds.Nodup ∧ ∀ o, o.id ∈ b.liveIds → ¬ b.Deferred o.id →
      ∀ r, (b.submit o).Returns r → r.2.accepted = false := by
  have h₀ : (Book.empty 0 stp symbol eventSink).Distinct := by
    refine ⟨List.nodup_nil, fun id x hx => ?_⟩
    simp [Book.empty] at hx
  have hb : b.Distinct := h.invariant h₀ fun b q b' hb hq hstep => hb.next hq hstep
  exact ⟨hb.nodup, fun o hid hd r hr => (submit_duplicate (lookup_of_live hb.keyed hid hd) hr).2⟩

/-- A resting order, a parked stop, a queued order and a child; the identifier of the resting order
comes again and is rejected. -/
theorem distinct_of_reach_everywhere : ∃ b r,
    Machine.Reach next (fun b q => ∀ o ∈ q.orders, ¬ b.Deferred o.id)
      (Book.empty 0 .none "ABC" false) b ∧
    b.liveIds.length = 4 ∧ b.liveIds.Nodup ∧
    (b.submit { id := 1, qty := 5, price := 90 }).Returns r ∧ r.2.accepted = false := by
  let qs : List Instruction := [
    .submit { id := 1, qty := 5, price := 90 },
    .submit { id := 2, qty := 5, price := 95, trigger := some { stopPrice := 94 } },
    .submit { id := 3, qty := 5, price := 90, flags := { loo := true } },
    .submit { id := 4, qty := 5, price := 90, link := some { role := .otoChild, groupId := 7 } }]
  obtain ⟨b, hreach, hlen, hlive, hdef, r, hr, -⟩ : ∃ b, Machine.Reach next
      (fun b q => ∀ o ∈ q.orders, ¬ b.Deferred o.id) (Book.empty 0 .none "ABC" false) b ∧
      b.liveIds.length = 4 ∧ 1 ∈ b.liveIds ∧ ¬ b.Deferred 1 ∧
      ∃ _ ∈ (b.submit { id := 1, qty := 5, price := 90 }).run 8, True :=
    Machine.Reach.exists_of_acts 8 qs (by decide +kernel)
  obtain ⟨hnodup, hreject⟩ := distinct_of_reach hreach
  have hret : (b.submit { id := 1, qty := 5, price := 90 }).Returns r := ⟨8, hr⟩
  exact ⟨b, r, hreach, hlen, hnodup, hret, hreject _ hlive hdef r hret⟩

/-- An order waits for the opening auction, and another one comes to rest under its identifier. -/
theorem exists_live_twice : ∃ b,
    Machine.Reach next (fun _ _ => True) (Book.empty 0 .none "ABC" false) b ∧
    ¬ b.liveIds.Nodup := by
  let qs : List Instruction := [
    .submit { id := 1, qty := 5, price := 90, flags := { loo := true } },
    .submit { id := 1, qty := 5, price := 90 }]
  exact Machine.Reach.exists_of_acts 8 qs (by decide +kernel)

end Instruction

/-! ### Every stop fires once, every child is released once -/

namespace Book

/-- What a stride adds to the marks. -/
inductive Stride.Marked (s s' : Stage) : Prop
  | same (hf : s'.marks.fired = s.marks.fired) (hr : s'.marks.released = s.marks.released)
  | fired {id : OrderId} {x : Order} (hx : s.book.stops.lookup id = some x)
      (hidle : s.idle.Perm (x.id :: s'.idle)) (hf : s'.marks.fired = id :: s.marks.fired)
      (hr : s'.marks.released = s.marks.released)
  | released {cs : List Order} (hcs : s.book.frame.held.Perm (cs ++ s'.book.frame.held))
      (hhand : s'.hand.map (·.order.id) = cs.map (·.id) ++ s.hand.map (·.order.id))
      (hf : s'.marks.fired = s.marks.fired)
      (hr : s'.marks.released = cs.map (·.id) ++ s.marks.released)

/-- Inside a run in which the identifiers `used` have been used: what has fired or has been released
does not wait to do so again. -/
structure Spent (used : List OrderId) (s : Stage) : Prop where
  once : Once s
  known : ∀ id ∈ s.book.orders.keys ++ s.idle, id ∈ used
  fired_nodup : s.marks.fired.Nodup
  fired : ∀ id ∈ s.marks.fired, id ∈ used ∧ id ∉ s.idle
  released_nodup : s.marks.released.Nodup
  released : ∀ id ∈ s.marks.released, id ∈ used ∧ id ∉ s.book.frame.held.map (·.id)
  children : ∀ x, ⟨x, .submitted⟩ ∈ s.hand → isChild x = true → x.id ∉ s.marks.released

section Spent

variable {A : Book → Order → Prop} {used : List OrderId} {s s' : Stage} {ts : List Trade}

lemma Stride.marked (h : Stride A s ts s') : Stride.Marked s s' := by
  cases h with
  | @fire b hand k id x tr ts m hx hm ht =>
    refine .fired hx ?_ rfl rfl
    have hw := waitingIds_unpark hx
    rw [← waitingIds_of_frame (inject_frame hm)] at hw
    exact hw.append_right _
  | @release b hand k gid gr cs l hl hcs =>
    refine @Stride.Marked.released _ _ cs ?_ ?_ rfl rfl
    · exact held_release hcs
    · simp [relink, Function.comp_def]
  | _ => exact .same rfl rfl

/-- The children that are held after a stride were held before, or came in hand. -/
lemma Stride.held_mem (h : Stride A s ts s') {x : Order} (hx : x ∈ s'.book.frame.held) :
    (∃ y ∈ s.book.frame.held, y.id = x.id) ∨
      ∃ o, ⟨o, .submitted⟩ ∈ s.hand ∧ isChild o = true ∧ o.id = x.id := by
  rcases h.waits with hw | ⟨o, y, hy⟩
  · exact .inl ⟨x, hw.held.subset hx, rfl⟩
  · rcases hy.grows.held x hx with hx | ⟨rfl, hchild⟩
    · exact .inl ⟨x, hx, rfl⟩
    · have hstamp := stamp_keeps s.book o
      have hlink : x.link = o.link ∧ x.id = o.id := by
        rcases hy.order with rfl | rfl
        · exact ⟨hstamp.2.2.2.2.2.2.2, hstamp.1⟩
        · rw [armStop_eq]
          exact ⟨hstamp.2.2.2.2.2.2.2, hstamp.1⟩
      refine .inr ⟨o, by rw [hy.hand]; simp, ?_, hlink.2.symm⟩
      simpa only [isChild, hlink.1] using hchild

lemma Stride.spent (h : Stride A s ts s') (hs : Spent used s) : Spent used s' := by
  have honce := h.once hs.once
  obtain ⟨l, hidle, -, -⟩ := h.passage
  have hsub : ∀ id ∈ s'.idle, id ∈ s.idle := fun id hid =>
    hidle.subset (List.mem_append_right _ hid)
  have hnodup := (List.nodup_append.1 hs.once.nodup).2.1
  have hknown : ∀ id ∈ s'.book.orders.keys ++ s'.idle, id ∈ used := fun id hid =>
    hs.known id (h.ids_subperm.subset hid)
  -- a child that is in hand was in hand
  have hhand : ∀ x, ⟨x, .submitted⟩ ∈ s'.hand → isChild x = true → ⟨x, .submitted⟩ ∈ s.hand := by
    intro x hx hchild
    rcases h.hands hx with hx | ⟨c, -, l, heq, hno⟩ | ⟨y, y', -, heq, -⟩
    · exact hx
    · rw [(Active.mk.inj heq).1, hno] at hchild
      exact absurd hchild (by simp)
    · simp at heq
  -- what was released is not held again
  have hheld : ∀ id ∈ s.marks.released, id ∉ s'.book.frame.held.map (·.id) := by
    intro id hid hmem
    obtain ⟨x, hx, rfl⟩ := List.mem_map.1 hmem
    rcases h.held_mem hx with ⟨y, hy, hyx⟩ | ⟨o, ho, hchild, hox⟩
    · exact (hs.released x.id hid).2 (hyx ▸ List.mem_map_of_mem hy)
    · exact hs.children o ho hchild (hox ▸ hid)
  cases h.marked with
  | same hf hr =>
    refine ⟨honce, hknown, hf ▸ hs.fired_nodup, ?_,
      hr ▸ hs.released_nodup, ?_, ?_⟩
    · rw [hf]
      exact fun id hid => ⟨(hs.fired id hid).1, fun hmem => (hs.fired id hid).2 (hsub id hmem)⟩
    · rw [hr]
      exact fun id hid => ⟨(hs.released id hid).1, hheld id hid⟩
    · rw [hr]
      exact fun x hx hchild => hs.children x (hhand x hx hchild) hchild
  | @fired id x hx hperm hf hr =>
    have hid : x.id = id := hs.once.keyed id x hx
    rw [hid] at hperm
    have hmem : id ∈ s.idle := hperm.symm.subset List.mem_cons_self
    refine ⟨honce, hknown, ?_, ?_, hr ▸ hs.released_nodup, ?_, ?_⟩
    · rw [hf, List.nodup_cons]
      exact ⟨fun h => (hs.fired id h).2 hmem, hs.fired_nodup⟩
    · rw [hf]
      intro i hi
      rcases List.mem_cons.1 hi with rfl | hi
      · exact ⟨hs.known i (List.mem_append_right _ hmem),
          (List.nodup_cons.1 (hperm.nodup_iff.1 hnodup)).1⟩
      · exact ⟨(hs.fired i hi).1, fun hmem => (hs.fired i hi).2 (hsub i hmem)⟩
    · rw [hr]
      exact fun i hi => ⟨(hs.released i hi).1, hheld i hi⟩
    · rw [hr]
      exact fun x hx hchild => hs.children x (hhand x hx hchild) hchild
  | @released cs hcs hids hf hr =>
    have hsubp : (s.book.frame.held.map (·.id)).Sublist s.book.waitingIds := by
      rw [waitingIds_eq]
      exact (List.sublist_append_right _ _).trans ((List.sublist_append_right _ _).trans
        (List.sublist_append_right _ _))
    have hheldnd : (cs.map (·.id) ++ s'.book.frame.held.map (·.id)).Nodup := by
      rw [← List.map_append]
      exact ((hcs.map _).nodup_iff).1 (hsubp.nodup (List.nodup_append.1 hnodup).1)
    have hcsmem : ∀ id ∈ cs.map (·.id), id ∈ s.book.frame.held.map (·.id) := by
      intro id hid
      refine (hcs.map _).symm.subset ?_
      rw [List.map_append]
      exact List.mem_append_left _ hid
    refine ⟨honce, hknown, hf ▸ hs.fired_nodup, ?_, ?_, ?_, ?_⟩
    · rw [hf]
      exact fun i hi => ⟨(hs.fired i hi).1, fun hmem => (hs.fired i hi).2 (hsub i hmem)⟩
    · rw [hr]
      refine List.Nodup.append (List.nodup_append.1 hheldnd).1 hs.released_nodup ?_
      exact fun id hid hid' => (hs.released id hid').2 (hcsmem id hid)
    · rw [hr]
      intro id hid
      rcases List.mem_append.1 hid with hid | hid
      · have hin := hcsmem id hid
        refine ⟨hs.known id (List.mem_append_right _ (List.mem_append_left _ (hsubp.subset hin))),
          fun hmem => ?_⟩
        exact (List.nodup_append.1 hheldnd).2.2 _ hid _ hmem rfl
      · exact ⟨(hs.released id hid).1, hheld id hid⟩
    · rw [hr]
      intro x hx hchild hmem
      have hx' := hhand x hx hchild
      rcases List.mem_append.1 hmem with hmem | hmem
      · -- the child is in hand and was not held
        refine (List.nodup_append.1 hnodup).2.2 _ (hsubp.subset (hcsmem _ hmem)) _ ?_ rfl
        exact List.mem_map_of_mem hx'
      · exact hs.children x hx' hchild hmem

end Spent

end Book

/-- A history that is told stride by stride, with the stops that have fired and the children that
have been released so far. -/
inductive Told (b₀ : Book) : Record → Marks → Prop
  | init : Told b₀ ⟨[], [], b₀⟩ {}
  | step {r : Record} {q : Instruction} {b' : Book} {ts : List Trade} {k k' : Marks}
      (h : Told b₀ r k) (hq : q.Allowed r) (hret : (q.run r.book).Returns (b', ts))
      (hs : Strides anyOrder ⟨(q.start r.book).1, (q.start r.book).2, k⟩ ts ⟨b', [], k'⟩) :
      Told b₀ ⟨q.orders ++ r.orders, r.trades ++ ts, b'⟩ k'

namespace Told

variable {memLevels : ℕ} {stp : StpPolicy} {symbol : Symbol} {eventSink : Bool} {r : Record}
  {k : Marks}

/-- Inside every history told stride by stride, what has fired or has been released is spent. -/
lemma spent (h : Told (Book.empty memLevels stp symbol eventSink) r k) :
    Spent r.ids ⟨r.book, [], k⟩ := by
  induction h with
  | init =>
    have hkeyed : (Book.empty memLevels stp symbol eventSink).Keyed := fun id x hx => by
      simp [Book.empty] at hx
    exact ⟨⟨List.nodup_nil, hkeyed⟩, fun id hid => absurd hid List.not_mem_nil, List.nodup_nil,
      by simp, List.nodup_nil, by simp, by simp⟩
  | @step r q b' ts k k' h hq hret hs ih =>
    obtain ⟨⟨hnodup, hkeyed⟩, hknown, hf, hfired, hr, hreleased, -⟩ := ih
    have hidle : Stage.idle ⟨r.book, [], k⟩ = r.book.waitingIds := List.append_nil _
    rw [hidle] at hnodup hknown hfired
    have hnew : ∀ o ∈ q.orders, o.id ∉ r.ids := by
      intro o ho
      cases q with
      | submit o' =>
        obtain rfl := List.mem_singleton.1 ho
        exact hq.1
      | _ => exact absurd ho List.not_mem_nil
    obtain ⟨honce, hperm⟩ := once_start ⟨hnodup, hkeyed⟩ (q := q)
      (fun o ho hmem => hnew o ho (hknown _ hmem)) k
    have hids : ∀ id ∈ r.ids, id ∈ (q.orders ++ r.orders).map (·.id) := fun id hid => by
      rw [List.map_append]
      exact List.mem_append_right _ hid
    -- what is idle waited, or it is the new order
    have hstart : ∀ id ∈ Stage.idle ⟨(q.start r.book).1, (q.start r.book).2, k⟩,
        id ∈ r.book.waitingIds ∨ id ∈ q.orders.map (·.id) := fun id hid =>
      List.mem_append.1 ((idle_start r.book q k).subset hid)
    have hheld := (q.start_keeps r.book).2.2
    have hspent : Spent ((q.orders ++ r.orders).map (·.id))
        ⟨(q.start r.book).1, (q.start r.book).2, k⟩ := by
      refine ⟨honce, fun id hid => ?_, hf, fun id hid =>
        ⟨hids id (hfired id hid).1, fun hmem => ?_⟩,
        hr, fun id hid => ⟨hids id (hreleased id hid).1, ?_⟩, fun x hx _ hmem => ?_⟩
      · rw [List.map_append]
        rcases List.mem_append.1 (hperm.subset hid) with hid | hid
        · exact List.mem_append_right _ (hknown id hid)
        · exact List.mem_append_left _ hid
      · rcases hstart id hmem with hmem | hmem
        · exact (hfired id hid).2 hmem
        · obtain ⟨o, ho, rfl⟩ := List.mem_map.1 hmem
          exact hnew o ho (hfired _ hid).1
      · show id ∉ (q.start r.book).1.frame.held.map (·.id)
        rw [hheld]
        exact (hreleased id hid).2
      · cases q with
        | submit o =>
          obtain rfl : x = o := by simpa [Instruction.start] using hx
          exact hnew x (by simp [Instruction.orders]) (hreleased _ hmem).1
        | runOpeningAuction | runClosingAuction => simp [Instruction.start, auctioned] at hx
        | _ => simp [Instruction.start] at hx
    exact (hs.invariant (T := fun _ => True) hspent fun _ _ _ hstep hs =>
      ⟨hstep.spent hs, fun _ _ => trivial⟩).1

end Told

namespace History

variable {memLevels : ℕ} {stp : StpPolicy} {symbol : Symbol} {eventSink : Bool} {r : Record}

/-- Every history can be told. -/
lemma told (h : History (fun _ _ => True) (Book.empty memLevels stp symbol eventSink) r) :
    ∃ k, Told (Book.empty memLevels stp symbol eventSink) r k := by
  induction h with
  | init => exact ⟨_, .init⟩
  | step _ _ hq hret ih =>
    obtain ⟨k, hk⟩ := ih
    obtain ⟨k', hrun, -⟩ := strides_of_run hret k
    exact ⟨k', .step hk hq hret hrun⟩

/-- In every book that is reached with new identifiers, every instruction ends; and however the run
is told stride by stride, no parked stop has fired twice and no held child has been released
twice. -/
theorem ends_and_spends
    (h : History (fun _ _ => True) (Book.empty memLevels stp symbol eventSink) r) :
    (∀ q : Instruction, q.Allowed r → ∃ x, (q.run r.book).Returns x) ∧
    (∃ k, Told (Book.empty memLevels stp symbol eventSink) r k) ∧
    ∀ k, Told (Book.empty memLevels stp symbol eventSink) r k →
      k.fired.Nodup ∧ k.released.Nodup := by
  refine ⟨fun q hq => ?_, h.told, fun k hk => ⟨hk.spent.fired_nodup, hk.spent.released_nodup⟩⟩
  obtain ⟨b', ts, hret⟩ := h.sane.returns hq
  exact ⟨(b', ts), hret⟩

/-- A buy order fills the parent of a group: the child is released and the trade fires a stop, both
come to rest. -/
theorem ends_and_spends_fired : ∃ r,
    History (fun _ _ => True) (Book.empty 0 .none "ABC" false) r ∧
    r.book.orders.keys = [2, 3] ∧ r.book.waitingIds = [] ∧
    (∀ q : Instruction, q.Allowed r → ∃ x, (q.run r.book).Returns x) ∧
    (∃ k, Told (Book.empty 0 .none "ABC" false) r k) ∧
    ∀ k, Told (Book.empty 0 .none "ABC" false) r k → k.fired.Nodup ∧ k.released.Nodup := by
  let qs : List Instruction := [
    .submit { id := 1, side := .sell, qty := 5, price := 100,
              link := some { role := .otoParent, groupId := 7 } },
    .submit { id := 2, qty := 5, price := 90, link := some { role := .otoChild, groupId := 7 } },
    .submit { id := 3, qty := 5, price := 95, trigger := some { stopPrice := 100 } },
    .submit { id := 4, qty := 5, price := 100 }]
  obtain ⟨r, hist, hkeys, hwait⟩ : ∃ r, History (fun _ _ => True)
      (Book.empty 0 .none "ABC" false) r ∧ r.book.orders.keys = [2, 3] ∧ r.book.waitingIds = [] :=
    exists_of_replay 8 qs (by decide +kernel)
  exact ⟨r, hist, hkeys, hwait, ends_and_spends hist⟩

end History

end Codicis
