/-
Nobody is overtaken in a queue.

A mutation adds to a queue at its back and takes orders out of it.  It moves an order that
stays only when the slice of an iceberg is replenished or a pegged order follows its reference,
so of two other orders the one in front stays in front, for as long as both are in the book
(`inLine_of_history`).
-/
import Codicis.Core.History

namespace Codicis

/-- The mutation queues an order at the back of a level. -/
def Mut.Queues (id : OrderId) : Mut → Prop
  | rest e => e.order.id = id
  | fill _ me q _ => me.order.id = id ∧ Replenishes me q
  | move e _ _ => e.order.id = id
  | _ => False

/-- The order keeps its place: it neither shows a slice of itself nor follows a reference. -/
def Order.Steady (o : Order) : Prop := o.flags.iceberg = false ∧ o.peg = none
deriving Decidable

namespace View

variable {v v' : View} {s : Side} {p : ℤ} {i j : OrderId}

/-- The order `i` is in front of `j` in a queue. -/
def InLine (v : View) (s : Side) (p : ℤ) (i j : OrderId) : Prop := [i, j].Sublist (v.queue s p)

lemma InLine.link (h : v.InLine s p i j) (e : Entry) : (v.link e).InLine s p i j := by
  unfold InLine View.link
  dsimp only
  split_ifs
  · exact h.trans (List.sublist_append_left _ _)
  · exact h

lemma InLine.unlink (h : v.InLine s p i j) {e : Entry} (hi : e.order.id ≠ i)
    (hj : e.order.id ≠ j) : (v.unlink e).InLine s p i j := by
  unfold InLine View.unlink
  dsimp only
  split_ifs
  · have herase := h.erase e.order.id
    rwa [List.erase_of_not_mem (by simp [hi, hj])] at herase
  · exact h

lemma InLine.leave (h : v.InLine s p i j) (e : Entry) :
    (v.unlink e).InLine s p i j ∨ (v.unlink e).entry i = none ∨ (v.unlink e).entry j = none := by
  by_cases hi : e.order.id = i
  · exact .inr (.inl (if_pos hi.symm))
  by_cases hj : e.order.id = j
  · exact .inr (.inr (if_pos hj.symm))
  exact .inl (h.unlink hi hj)

lemma InLine.apply (h : v.InLine s p i j) {m : Mut} (hi : ¬ m.Queues i) (hj : ¬ m.Queues j) :
    (m.apply v).InLine s p i j ∨ (m.apply v).entry i = none ∨ (m.apply v).entry j = none := by
  cases m with
  | rest e => exact .inl (h.link e)
  | fill o me q rank =>
    simp only [Mut.apply]
    split_ifs with hgone hrep
    · exact h.leave me
    · exact .inl ((h.unlink (fun heq => hi ⟨heq, hrep⟩) fun heq => hj ⟨heq, hrep⟩).link _)
    · exact .inl h
  | remove e => exact h.leave e
  | evict t u =>
    by_cases hlevel : s = t ∧ p = u
    · have hmem : i ∈ v.queue t u := hlevel.1 ▸ hlevel.2 ▸ h.subset (by simp)
      exact .inr (.inl (if_pos hmem))
    · left
      show [i, j].Sublist (if s = t ∧ p = u then [] else v.queue s p)
      rwa [if_neg hlevel]
  | move e u rank => exact .inl ((h.unlink hi hj).link _)
  | _ => exact .inl h

/-- Of two steady orders, the one in front stays in front until one of them is gone. -/
lemma Run.inLine {ms : List Mut} (h : Run v ms v') (hline : v.InLine s p i j)
    (hsteady : ∀ k ∈ [i, j], ∀ e, v.entry k = some e → e.order.Steady)
    (hmove : ∀ e u rank, Mut.move e u rank ∈ ms → e.order.peg ≠ none)
    (hrest : ∀ e, Mut.rest e ∈ ms → e.order.id ∉ [i, j]) :
    v'.InLine s p i j ∨ v'.entry i = none ∨ v'.entry j = none := by
  induction h with
  | nil v => exact .inl hline
  | @cons v v' m ms hm hrun ih =>
    -- neither replenishes a slice, follows a reference or comes to rest
    have hqueues : ∀ k ∈ [i, j], ¬ m.Queues k := by
      intro k hk hq
      cases m with
      | rest e => exact hrest e List.mem_cons_self (hq ▸ hk)
      | fill o me q rank =>
        exact absurd hq.2.2.1 (by simp [(hsteady k hk me (hq.1 ▸ hm.1)).1])
      | move e u rank =>
        exact hmove e u rank List.mem_cons_self (hsteady k hk e (hq ▸ hm)).2
      | _ => exact hq
    have hrest' := fun e he => hrest e (List.mem_cons_of_mem _ he)
    rcases hline.apply (hqueues i (by simp)) (hqueues j (by simp)) with hline | hnone | hnone
    · refine ih hline (fun k hk e' he' => ?_)
        (fun e u rank he => hmove e u rank (List.mem_cons_of_mem _ he)) hrest'
      rcases Mut.entry_cases hm he' with he | ⟨rfl, hid⟩ | ⟨_, me, _, _, -, -, he, rfl | ⟨-, rfl⟩⟩ |
        ⟨e, _, _, -, -, he, rfl⟩
      · exact hsteady k hk e' he
      · exact absurd (hid ▸ hk) (hrest e' List.mem_cons_self)
      · exact hsteady k hk me he
      · exact hsteady k hk me he
      · exact hsteady k hk e he
    · exact .inr (.inl (hrun.entry_eq_none hnone fun e he hid => hrest' e he (by simp [hid])))
    · exact .inr (.inr (hrun.entry_eq_none hnone fun e he hid => hrest' e he (by simp [hid])))

end View

open Book

/-- Only pegged orders move. -/
lemma Beat.moves {m m' : Moment} {ms : List Mut} (h : Beat m ms m') (hs : m.book.view.Sound) :
    ∀ x ∈ ms, ∀ e p rank, x = .move e p rank → e.order.peg ≠ none := by
  rintro x hx e p rank rfl
  cases h with
  | @move b hand e' u hid he hp hne hev hf =>
    obtain ⟨rfl, -, -⟩ := Mut.move.inj (List.mem_singleton.1 hx)
    obtain ⟨e', he', hpeg⟩ := hs.pegged_ok _ hid
    obtain rfl := Option.some.inj (he.symm.trans he')
    exact Option.isSome_iff_ne_none.1 hpeg
  | rest ev hl hd hn hnew htail hev hf =>
    rcases htail with ⟨win, rfl, hwin⟩ | ⟨-, rfl⟩
    · exact ((List.mem_cons.1 hx).resolve_left (by simp) |> hwin _).elim
    · simp at hx
  | _ => simp at hx

namespace History

variable {C : Record → Instruction → Prop} {memLevels : ℕ} {stp : StpPolicy} {symbol : Symbol}
  {eventSink : Bool} {r : Record}

/-- Of two resting orders that are neither icebergs nor pegged, the one in front in its queue stays
in front, until one of them is gone. -/
theorem inLine_of_history (h : History C (Book.empty memLevels stp symbol eventSink) r)
    {q : Instruction} (hq : q.Allowed r) {s : Side} {p : ℤ} {i j : OrderId}
    (hline : r.book.view.InLine s p i j)
    (hsteady : ∀ k ∈ [i, j], ∀ o, r.book.find k = some o → o.Steady) :
    (q.run r.book).Ensures fun x =>
      x.1.view.InLine s p i j ∨ x.1.find i = none ∨ x.1.find j = none := by
  obtain ⟨b', ts, hret⟩ := h.sane.returns hq
  refine ⟨(b', ts), hret, ?_⟩
  rcases h.sane.cases hq hret with ⟨c, net, rfl, rfl, -⟩ | ⟨-, ms, hst, -⟩
  · left
    rwa [(r.book.seedPosition_keeps c net).1]
  · have hwf := h.sane.wf
    have hmove := (hst.beats.induction (I := fun _ => True) (composes_forall _) hwf.sound trivial
      fun _ _ _ hb hsound _ => ⟨trivial, hb.moves hsound⟩).2
    -- what rests is neither in wait nor in hand, so it does not come to rest again
    have hrest : ∀ e, Mut.rest e ∈ ms → e.order.id ∉ [i, j] := by
      intro e he hid
      obtain ⟨y, hy, -⟩ := (hwf.sound.mem_queue s p _).1 (hline.subset hid)
      rcases hst.rests e he with ⟨z, hz, hzid⟩ | hin
      · exact absurd (hy.symm.trans (hzid ▸ hwf.waits.away z hz)) (by simp)
      · obtain ⟨a, ha, haid⟩ := List.mem_map.1 hin
        obtain ⟨z, hz, rfl⟩ := List.mem_map.1 ha
        refine (hq.fresh h.sane.live z hz).1 (.inl ?_)
        rw [show z.id = e.order.id from haid, hy]
        simp
    have hline' := hst.evolves.run.inLine hline
      (fun k hk e he => hsteady k hk e.order (congrArg (Option.map _) he))
      (fun e u rank he => hmove _ he e u rank rfl) hrest
    exact hline'.imp id (Or.imp (congrArg (Option.map _)) (congrArg (Option.map _)))

/-- Of two bids at one price the first is hit, and stays in front. -/
theorem inLine_of_history_hit : ∃ r : Record, r.book.view.InLine .buy 110 1 2 ∧
    ((Instruction.submit { id := 3, side := .sell, qty := 2, price := 110 }).run r.book).Ensures
      fun x => x.1.view.InLine .buy 110 1 2 ∨ x.1.find 1 = none ∨ x.1.find 2 = none := by
  have hrun : ∃ r, History (fun _ _ => True) (Book.empty 0 .none "ABC" true) r ∧
      Instruction.Allowed r (.submit { id := 3, side := .sell, qty := 2, price := 110 }) ∧
      (r.book.level .buy 110).fifo = [1, 2] ∧ ∀ k ∈ [1, 2], ∀ o ∈ r.book.find k, o.Steady :=
    exists_of_replay 8 [.submit { id := 1, qty := 5, price := 110 },
      .submit { id := 2, qty := 5, price := 110 }] (by decide +kernel)
  obtain ⟨r, h, hq, hfifo, hsteady⟩ := hrun
  have hline : r.book.view.InLine .buy 110 1 2 := by
    change [1, 2].Sublist (r.book.level .buy 110).fifo
    rw [hfifo]
  exact ⟨r, hline, inLine_of_history h hq hline hsteady⟩

end History

end Codicis
