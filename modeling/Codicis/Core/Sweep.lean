/-
What matching does to the book.

`Sweep b₀ o₀ ms b o` says that the aggressor `o₀`, in the book `b₀`, has made the
mutations `ms` and is now the order `o` in the book `b`: every mutation is a fill
of the aggressor or a maker removed by self-trade prevention, and the aggressor
has lost the volume of the fills.

`matchLevel_spec` is total correctness of the loop over one queue.  The loop ends
because a fill lowers the leaves of the aggressor, a removal shortens the queue, a
new pass needs progress in the last one, and a pass shortens what is left to
visit.
-/
import Codicis.Core.Best
import Codicis.Core.Beat
import Mathlib.Data.Prod.Lex
import Mathlib.Algebra.Order.BigOperators.Group.List

namespace Codicis

/-- The executions of a list of mutations. -/
def Mut.trades (ms : List Mut) : List Trade := ms.filterMap Mut.trade?

/-- The quantity of a list of executions. -/
def volume (ts : List Trade) : ℤ := (ts.map (·.qty)).sum

@[simp] lemma Mut.trades_append (ms ms' : List Mut) :
    Mut.trades (ms ++ ms') = Mut.trades ms ++ Mut.trades ms' := List.filterMap_append

@[simp] lemma Mut.trades_nil : Mut.trades [] = [] := rfl

@[simp] lemma Mut.trades_remove (e : Entry) : Mut.trades [.remove e] = [] := rfl

@[simp] lemma Mut.trades_fill (o : Order) (me : Entry) (q : ℤ) (rank : ℕ) :
    Mut.trades [.fill o me q rank] = [⟨o.id, me.order.id, o.side, me.order.price, q⟩] := rfl

@[simp] lemma volume_nil : volume [] = 0 := rfl

@[simp] lemma volume_singleton (t : Trade) : volume [t] = t.qty := by simp [volume]

@[simp] lemma volume_append (ts ts' : List Trade) :
    volume (ts ++ ts') = volume ts + volume ts' := by
  simp [volume]

/-- What an order takes. -/
def takerQty (id : OrderId) (ts : List Trade) : ℤ := volume (ts.filter (·.takerId = id))

@[simp] lemma takerQty_append (id : OrderId) (ts ts' : List Trade) :
    takerQty id (ts ++ ts') = takerQty id ts + takerQty id ts' := by
  simp [takerQty]

lemma takerQty_eq_volume {id : OrderId} {ts : List Trade} (h : ∀ t ∈ ts, t.takerId = id) :
    takerQty id ts = volume ts := by
  rw [takerQty, List.filter_eq_self.2 fun t ht => by simpa using h t ht]

lemma takerQty_eq_zero {id : OrderId} {ts : List Trade} (h : ∀ t ∈ ts, t.takerId ≠ id) :
    takerQty id ts = 0 := by
  rw [takerQty, List.filter_eq_nil_iff.2 fun t ht => by simpa using h t ht, volume_nil]

/-- A mutation that the aggressor `o` makes at the level `p` of the side `s`. -/
def Mut.AggressedBy (stp : StpPolicy) (o : Order) (s : Side) (p : ℤ) : Mut → Prop
  | .fill o' me _ _ => (∃ k, o' = Book.takeFill o k) ∧ me.order.side = s ∧ me.order.price = p
  | .remove e => stp.cancelsResting = true ∧ o.clientId ≠ 0 ∧ e.order.clientId = o.clientId ∧
      e.order.side = s ∧ e.order.price = p
  | _ => False

namespace Book

@[simp] lemma takeFill_zero (o : Order) : takeFill o 0 = o := by simp [takeFill]

@[simp] lemma takeFill_takeFill (o : Order) (a c : ℤ) :
    takeFill (takeFill o a) c = takeFill o (a + c) := by
  simp only [takeFill, Order.mk.injEq, true_and, and_true]
  omega

lemma acceptable_takeFill (o : Order) (q p : ℤ) :
    acceptable (takeFill o q) p = acceptable o p := rfl

/-- The aggressor `o₀` has made the mutations `ms`. -/
structure Sweep (b₀ : Book) (o₀ : Order) (ms : List Mut) (b : Book) (o : Order) : Prop where
  evolves : Evolves b₀ ms b
  frame : b.frame = b₀.frame
  order : o = takeFill o₀ (volume (Mut.trades ms))
  leaves : 0 ≤ o.leaves
  aggressed : ∀ m ∈ ms, ∃ p, acceptable o₀ p = true ∧
    m.AggressedBy b₀.stp o₀ o₀.side.opposite p
  beats : ∀ r hand, r ≠ .submitted → Beats ⟨b₀, some ⟨o₀, r⟩, hand⟩ ms ⟨b, some ⟨o, r⟩, hand⟩

namespace Sweep

variable {b₀ b b' : Book} {o₀ o o' : Order} {ms ms' : List Mut}

lemma refl (b : Book) {o : Order} (h : 0 ≤ o.leaves) : Sweep b o [] b o :=
  ⟨.refl b, rfl, by simp [Mut.trades, volume], h, by simp, fun _ _ _ => .nil _⟩

lemma trans (h : Sweep b₀ o₀ ms b o) (h' : Sweep b o ms' b' o') :
    Sweep b₀ o₀ (ms ++ ms') b' o' := by
  refine ⟨h.evolves.trans h'.evolves, h'.frame.trans h.frame, ?_, h'.leaves, ?_,
    fun r hand hr => (h.beats r hand hr).trans (h'.beats r hand hr)⟩
  · rw [h'.order, h.order]
    simp
  · intro m hm
    rcases List.mem_append.1 hm with hm | hm
    · exact h.aggressed m hm
    · obtain ⟨p, hp, hm⟩ := h'.aggressed m hm
      rw [h.order, h.evolves.stp] at hm
      rw [h.order, acceptable_takeFill] at hp
      refine ⟨p, hp, ?_⟩
      cases m with
      | fill o₁ me q rank =>
        obtain ⟨⟨k, rfl⟩, hs⟩ := hm
        exact ⟨⟨_, takeFill_takeFill _ _ _⟩, hs⟩
      | remove e => exact hm
      | _ => exact hm

/-- All executions of a sweep are fills of the aggressor. -/
lemma trade (h : Sweep b₀ o₀ ms b o) {t : Trade} (ht : t ∈ Mut.trades ms) :
    t.takerId = o₀.id ∧ 0 < t.qty := by
  obtain ⟨m, hm, hmt⟩ := List.mem_filterMap.1 ht
  obtain ⟨p, -, hag⟩ := h.aggressed m hm
  cases m with
  | fill o' me q rank =>
    obtain rfl := Option.some.inj hmt
    obtain ⟨⟨k, rfl⟩, -⟩ := hag
    exact ⟨rfl, h.evolves.run.fill_pos hm⟩
  | remove e => simp [Mut.trade?] at hmt
  | _ => exact absurd hag id

lemma volume_nonneg (h : Sweep b₀ o₀ ms b o) : 0 ≤ volume (Mut.trades ms) := by
  refine List.sum_nonneg fun q hq => ?_
  obtain ⟨t, ht, rfl⟩ := List.mem_map.1 hq
  exact (h.trade ht).2.le

lemma side_eq (h : Sweep b₀ o₀ ms b o) : o.side = o₀.side := by rw [h.order]; rfl

lemma acceptable_eq (h : Sweep b₀ o₀ ms b o) (p : ℤ) : acceptable o p = acceptable o₀ p := by
  rw [h.order, acceptable_takeFill]

lemma leaves_le (h : Sweep b₀ o₀ ms b o) : o.leaves ≤ o₀.leaves := by
  have hvol := h.volume_nonneg
  rw [h.order]
  simp only [takeFill]
  omega

lemma takerQty_eq (h : Sweep b₀ o₀ ms b o) :
    takerQty o₀.id (Mut.trades ms) = volume (Mut.trades ms) :=
  takerQty_eq_volume fun _ ht => (h.trade ht).1

end Sweep

/-! ### One level -/

section Round

variable {b : Book} {o : Order} {me : Entry}

/-- Self-trade prevention takes a resting order out. -/
lemma sweep_stpRemove (hb : b.view.Sound) (ho : 0 ≤ o.leaves)
    (he : b.orders.lookup me.order.id = some me) (hside : me.order.side = o.side.opposite)
    (hacc : acceptable o me.order.price = true) (hst : b.selfTrade o me = true)
    (hres : b.stp.cancelsResting = true) :
    Sweep b o [.remove me] (b.stpRemove me.order.side me.order.price me.order.id me) o := by
  obtain ⟨hev, hf⟩ := evolves_stpRemove hb he
  have hself := hst
  simp only [selfTrade, Bool.and_eq_true, decide_eq_true_eq] at hself
  refine ⟨hev, hf, by simp, ho, fun m hm => ⟨_, hacc, ?_⟩, fun r hand _ =>
    .single (.prevent he hst hres hev hf)⟩
  obtain rfl := List.mem_singleton.1 hm
  exact ⟨hres, hself.1.2, hself.2, hside, rfl⟩

/-- The aggressor fills against a resting order. -/
lemma sweep_fillMaker (hb : b.view.Sound) (ho : 0 < o.leaves)
    (he : b.orders.lookup me.order.id = some me) (hside : me.order.side = o.side.opposite)
    (hacc : acceptable o me.order.price = true) (hst : b.selfTrade o me = false)
    (haon : me.order.flags.aon = true → me.order.leaves ≤ o.leaves) (rest : List OrderId) :
    Sweep b o [.fill o me (min o.leaves (exposed me)) b.nextSeq]
      (b.fillMaker me.order.side me.order.price o me.order.id me rest).1
      (takeFill o (min o.leaves (exposed me))) := by
  obtain ⟨hev, hf⟩ := evolves_fillMaker hb he ho hside hacc rest
  refine ⟨hev, hf, by simp, ?_, fun m hm => ⟨_, hacc, ?_⟩, fun r hand hr =>
    .single (.fill rest hr ho he hside hacc hst haon hev hf)⟩
  · simp only [takeFill]
    omega
  · obtain rfl := List.mem_singleton.1 hm
    exact ⟨⟨0, by simp⟩, hside, rfl⟩

end Round

section Level

variable (b₀ : Book) (o₀ : Order) (tr₀ : List Trade) (s : Side) (p : ℤ)

/-- The invariant of the loop over the queue at the price `p`. -/
structure LevelInv (m : MatchState) : Prop where
  sweep : ∃ ms, Sweep b₀ o₀ ms m.book m.order ∧ m.trades = tr₀ ++ Mut.trades ms ∧
    ∀ x ∈ ms, x.AggressedBy b₀.stp o₀ s p
  todo_sub : ∀ id ∈ m.todo, id ∈ (m.book.level s p).fifo
  todo_nodup : m.todo.Nodup
  passed : m.progressed = false →
    ∀ id ∈ (m.book.level s p).fifo, id ∉ m.todo → m.book.Blocked m.order id
  cached : b₀.Cached → m.book.CachedBut s p

/-- The measure of the loop. -/
def levelMeasure (m : MatchState) : ℕ ×ₗ ℕ ×ₗ ℕ :=
  toLex (m.order.leaves.toNat + (m.book.level s p).fifo.length,
    toLex (m.progressed.toNat, m.todo.length))

/-- What the loop leaves behind. -/
def LevelPost (r : MatchResult) : Prop :=
  ∃ ms, Sweep b₀ o₀ ms r.book r.order ∧ r.trades = tr₀ ++ Mut.trades ms ∧
    (∀ x ∈ ms, x.AggressedBy b₀.stp o₀ s p) ∧
    (b₀.Cached → r.book.Cached) ∧
    (r.cancelled = true → b₀.stp.cancelsAggressor = true) ∧
    (r.cancelled = false → r.order.leaves = 0 ∨
      ∀ id ∈ (r.book.level s p).fifo, r.book.Blocked r.order id)

variable {b₀ o₀ tr₀ s p} {m : MatchState}

lemma sweep_noteRemoved (b : Book) {o : Order} (h : 0 ≤ o.leaves) (s : Side) (p : ℤ) :
    Sweep b o [] (b.noteRemoved s p) o := by
  have hf : (b.noteRemoved s p).frame = b.frame := by simp
  have hq : Quiet b (b.noteRemoved s p) :=
    ⟨by simp [view, level], congrArg Frame.settings hf, by simp, by simp, by simp⟩
  exact ⟨hq.evolves, hf, by simp [Mut.trades, volume], h, by simp,
    fun r hand _ => .single (.wane hq (by simp) (.of_frame hf))⟩

/-- The loop is left with the level as it is. -/
lemma LevelInv.leave (hb : b₀.view.Sound) (h : LevelInv b₀ o₀ tr₀ s p m) {c : Bool}
    (hc : c = true → b₀.stp.cancelsAggressor = true)
    (hdone : c = false → m.order.leaves = 0 ∨
      ∀ id ∈ (m.book.level s p).fifo, m.book.Blocked m.order id) :
    LevelPost b₀ o₀ tr₀ s p ⟨m.book.noteRemoved s p, m.order, m.trades, c⟩ := by
  obtain ⟨ms, hsw, htr, hag⟩ := h.sweep
  refine ⟨ms, ?_, htr, hag, fun hcb => ?_, hc, fun hf => ?_⟩
  · simpa using hsw.trans (sweep_noteRemoved m.book hsw.leaves s p)
  · exact (h.cached hcb).noteRemoved ((hsw.evolves.sound hb).total_nonneg s p)
  · simpa [level, Blocked] using hdone hf

/-- A new pass over the queue. -/
lemma LevelInv.restart (hb : b₀.view.Sound) (h : LevelInv b₀ o₀ tr₀ s p m) :
    LevelInv b₀ o₀ tr₀ s p
      { m with todo := (m.book.level s p).fifo, progressed := false } := by
  obtain ⟨ms, hsw, -⟩ := h.sweep
  exact ⟨h.sweep, fun _ => id, (hsw.evolves.sound hb).nodup s p,
    fun _ id hid hno => absurd hid hno, h.cached⟩

/-- An order of the queue that the loop visits. -/
lemma LevelInv.entry (hb : b₀.view.Sound) (h : LevelInv b₀ o₀ tr₀ s p m) {mid : OrderId}
    (hmid : mid ∈ m.todo) : ∃ me, m.book.orders.lookup mid = some me ∧ me.order.id = mid ∧
      me.order.side = s ∧ me.order.price = p := by
  obtain ⟨ms, hsw, -⟩ := h.sweep
  have hv := hsw.evolves.sound hb
  obtain ⟨me, he, hs, hp⟩ := (hv.mem_queue s p mid).1 (h.todo_sub mid hmid)
  exact ⟨me, he, hv.id_eq mid me he, hs, hp⟩

/-- The order at the head of the queue. -/
lemma LevelInv.entry_head (hb : b₀.view.Sound) (h : LevelInv b₀ o₀ tr₀ s p m) {mid : OrderId}
    {rest : List OrderId} {me : Entry} (htodo : m.todo = mid :: rest)
    (hme : m.book.orders.lookup mid = some me) :
    me.order.id = mid ∧ me.order.side = s ∧ me.order.price = p := by
  obtain ⟨me', hme', hid, hs, hp⟩ := h.entry hb (by rw [htodo]; simp : mid ∈ m.todo)
  obtain rfl := Option.some.inj (hme.symm.trans hme')
  exact ⟨hid, hs, hp⟩

/-- The loop passes over an all-or-none order it cannot fill. -/
lemma LevelInv.skip (h : LevelInv b₀ o₀ tr₀ s p m) {mid : OrderId} {rest : List OrderId}
    (htodo : m.todo = mid :: rest) (hbl : m.book.Blocked m.order mid) :
    LevelInv b₀ o₀ tr₀ s p { m with todo := rest } := by
  have hnd := h.todo_nodup
  rw [htodo, List.nodup_cons] at hnd
  refine ⟨h.sweep, fun id hid => h.todo_sub id (by simp [htodo, hid]), hnd.2, ?_, h.cached⟩
  intro hp id hid hno
  by_cases hmid : id = mid
  · exact hmid ▸ hbl
  · exact h.passed hp id hid (by simp [htodo, hmid, hno])

/-- Self-trade prevention removes an order of the queue. -/
lemma LevelInv.stp (hb : b₀.view.Sound) (hs : s = o₀.side.opposite)
    (hacc : acceptable o₀ p = true) (h : LevelInv b₀ o₀ tr₀ s p m) {mid : OrderId}
    {rest : List OrderId} (htodo : m.todo = mid :: rest) {me : Entry}
    (he : m.book.orders.lookup mid = some me) (hself : m.book.selfTrade m.order me = true)
    (hres : m.book.stp.cancelsResting = true) :
    LevelInv b₀ o₀ tr₀ s p
        { m with book := m.book.stpRemove s p mid me, todo := rest, progressed := true } ∧
      ((m.book.stpRemove s p mid me).level s p).fifo.length < (m.book.level s p).fifo.length := by
  obtain ⟨ms, hsw, htr, hag⟩ := h.sweep
  have hv := hsw.evolves.sound hb
  obtain ⟨rfl, rfl, rfl⟩ := h.entry_head hb htodo he
  have hin : me.order.id ∈ (m.book.level me.order.side me.order.price).fifo :=
    h.todo_sub _ (by simp [htodo])
  have hnd := h.todo_nodup
  rw [htodo, List.nodup_cons] at hnd
  have hfifo : ((m.book.stpRemove me.order.side me.order.price me.order.id me).level
      me.order.side me.order.price).fifo
      = (m.book.level me.order.side me.order.price).fifo.erase me.order.id := by
    have := congrArg (fun v => v.queue me.order.side me.order.price)
      (view_stpRemove (covers_of_entry hv he))
    simpa [View.unlink, View.unpeg, view] using this
  have hst := hself
  simp only [selfTrade, Bool.and_eq_true, decide_eq_true_eq] at hst
  have hclient : m.order.clientId = o₀.clientId := by rw [hsw.order]; rfl
  have hacc' : acceptable m.order me.order.price = true := (hsw.acceptable_eq _).trans hacc
  have hag' : Mut.AggressedBy b₀.stp o₀ me.order.side me.order.price (.remove me) := by
    refine ⟨by rw [← hsw.evolves.stp]; exact hres, ?_, ?_, rfl, rfl⟩
    · rw [← hclient]; exact hst.1.2
    · rw [← hclient]; exact hst.2
  refine ⟨⟨⟨ms ++ [.remove me], ?_, ?_, ?_⟩, ?_, hnd.2, fun hp => absurd hp (by simp),
    fun hc => (h.cached hc).stpRemove hv he⟩, ?_⟩
  · exact hsw.trans (sweep_stpRemove hv hsw.leaves he
      (by rw [hsw.side_eq]; exact hs) hacc' hself hres)
  · simpa using htr
  · exact List.forall_mem_append.2 ⟨hag, List.forall_mem_singleton.2 hag'⟩
  · intro id hid
    have hne : id ≠ me.order.id := fun h' => hnd.1 (h' ▸ hid)
    simp only [hfifo]
    exact (List.mem_erase_of_ne hne).2 (h.todo_sub id (by simp [htodo, hid]))
  · rw [hfifo, List.length_erase_of_mem hin]
    have := List.length_pos_of_mem hin
    omega

/-- The queue and the iterator after a fill. -/
lemma fillMaker_queue {b : Book} (hb : b.view.Sound) {me : Entry}
    (he : b.orders.lookup me.order.id = some me) (o : Order) {rest : List OrderId}
    (hnd : (me.order.id :: rest).Nodup)
    (hsub : ∀ id ∈ me.order.id :: rest, id ∈ (b.level me.order.side me.order.price).fifo) :
    let r := b.fillMaker me.order.side me.order.price o me.order.id me rest
    (∀ id ∈ r.2, id ∈ (r.1.level me.order.side me.order.price).fifo) ∧ r.2.Nodup ∧
      (r.1.level me.order.side me.order.price).fifo.length
        ≤ (b.level me.order.side me.order.price).fifo.length := by
  intro r
  have hin : me.order.id ∈ (b.level me.order.side me.order.price).fifo := hsub _ (by simp)
  have hq : (r.1.level me.order.side me.order.price).fifo =
      ((Mut.fill o me (min o.leaves (exposed me)) b.nextSeq).apply b.view).queue
        me.order.side me.order.price :=
    congrArg (fun v => v.queue me.order.side me.order.price)
      (view_fillMaker (hb.entry_ok _ _ he) (covers_of_entry hb he) o rest)
  obtain ⟨hno, hnd⟩ := List.nodup_cons.1 hnd
  have herase : ∀ id ∈ rest, id ∈ (b.level me.order.side me.order.price).fifo.erase
    me.order.id := by
    intro id hid
    have hne : id ≠ me.order.id := fun h => hno (h ▸ hid)
    exact (List.mem_erase_of_ne hne).2 (hsub id (by simp [hid]))
  have hlen := List.length_erase_of_mem hin
  have hpos := List.length_pos_of_mem hin
  by_cases h0 : me.order.leaves - min o.leaves (exposed me) = 0
  · have hr : r.2 = rest := by simp [r, fillMaker_of_exhausted _ _ _ _ _ _ h0]
    rw [hq, hr]
    simp only [Mut.apply, if_pos h0, View.unpeg, View.unlink, and_self, if_true]
    exact ⟨herase, hnd, by simp only [view]; omega⟩
  by_cases h1 : Mut.Replenishes me (min o.leaves (exposed me))
  · have hr : r.2 = if rest = [] then [] else rest ++ [me.order.id] := by
      simp [r, fillMaker_of_replenishes _ _ _ _ _ _ h1]
    rw [hq, hr]
    simp only [Mut.apply, if_neg h0, if_pos h1, View.reveal, View.unlink, View.link,
      Entry.replenished,
      Entry.fill, and_self, if_true, view]
    refine ⟨?_, ?_, by simp; omega⟩
    · split_ifs
      · simp
      · intro id hid
        rcases List.mem_append.1 hid with hid | hid
        · exact List.mem_append_left _ (herase id hid)
        · exact List.mem_append_right _ hid
    · split_ifs
      · exact List.nodup_nil
      · exact hnd.append (by simp) (by simpa using hno)
  · have hr : r.2 = rest := by simp [r, fillMaker_of_kept _ _ _ _ _ _ h0 h1]
    rw [hq, hr]
    simp only [Mut.apply, if_neg h0, if_neg h1, View.reduce, view]
    exact ⟨fun id hid => hsub id (by simp [hid]), hnd, le_rfl⟩

/-- The aggressor fills against an order of the queue. -/
lemma LevelInv.fill (hb : b₀.view.Sound) (hs : s = o₀.side.opposite)
    (hacc : acceptable o₀ p = true) (h : LevelInv b₀ o₀ tr₀ s p m) (hpos : 0 < m.order.leaves)
    {mid : OrderId} {rest : List OrderId} (htodo : m.todo = mid :: rest) {me : Entry}
    (he : m.book.orders.lookup mid = some me) (hst : m.book.selfTrade m.order me = false)
    (haon : me.order.flags.aon = true → me.order.leaves ≤ m.order.leaves) :
    let q := min m.order.leaves (exposed me)
    let r := m.book.fillMaker s p m.order mid me rest
    0 < q ∧ (r.1.level s p).fifo.length ≤ (m.book.level s p).fifo.length ∧
      LevelInv b₀ o₀ tr₀ s p
        { book := r.1, order := takeFill m.order q, todo := r.2, progressed := true,
          trades := m.trades ++ [⟨m.order.id, mid, m.order.side, p, q⟩] } := by
  obtain ⟨ms, hsw, htr, hag⟩ := h.sweep
  have hv := hsw.evolves.sound hb
  obtain ⟨rfl, rfl, rfl⟩ := h.entry_head hb htodo he
  have hacc' : acceptable m.order me.order.price = true := (hsw.acceptable_eq _).trans hacc
  have hok := hv.entry_ok _ _ he
  have hexp := hok.exposed_pos
  have hok' : (Mut.fill m.order me (min m.order.leaves (exposed me)) m.book.nextSeq).Ok
      m.book.view :=
    ⟨he, by omega, min_le_right _ _, min_le_left _ _, by rw [hsw.side_eq]; exact hs, hacc'⟩
  obtain ⟨hsub, hnd, hlen⟩ := fillMaker_queue hv he m.order (htodo ▸ h.todo_nodup)
    (htodo ▸ h.todo_sub)
  have hag' : Mut.AggressedBy b₀.stp o₀ me.order.side me.order.price
      (.fill m.order me (min m.order.leaves (exposed me)) m.book.nextSeq) :=
    ⟨⟨_, hsw.order⟩, rfl, rfl⟩
  refine ⟨by omega, hlen, ⟨ms ++ [.fill m.order me (min m.order.leaves (exposed me))
    m.book.nextSeq], ?_, ?_, ?_⟩, hsub, hnd, fun hp => absurd hp (by simp),
    fun hc => (h.cached hc).fillMaker hv hok' rest⟩
  · exact hsw.trans (sweep_fillMaker hv hpos he (by rw [hsw.side_eq]; exact hs) hacc' hst haon rest)
  · simp [htr]
  · exact List.forall_mem_append.2 ⟨hag, List.forall_mem_singleton.2 hag'⟩

/-- One round of the loop goes on with a smaller measure, or leaves. -/
lemma matchLevelRound_spec (hb : b₀.view.Sound) (hs : s = o₀.side.opposite)
    (hacc : acceptable o₀ p = true) (h : LevelInv b₀ o₀ tr₀ s p m) :
    (matchLevelRound s p m).Ensures
      (Sum.elim (fun m' => LevelInv b₀ o₀ tr₀ s p m' ∧ levelMeasure s p m' < levelMeasure s p m)
        (LevelPost b₀ o₀ tr₀ s p)) := by
  obtain ⟨ms, hsw, -⟩ := h.sweep
  have hleaves := hsw.leaves
  unfold matchLevelRound
  by_cases h0 : m.order.leaves ≤ 0
  · rw [if_pos h0]
    exact Comp.ensures_pure (h.leave hb (by simp) fun _ => .inl (by omega))
  rw [if_neg h0]
  cases htodo : m.todo with
  | nil =>
    dsimp only
    split_ifs with hp
    · refine Comp.ensures_pure (h.leave hb (by simp) fun _ => .inr fun id hid => ?_)
      exact h.passed hp id hid (by simp [htodo])
    · refine Comp.ensures_pure ⟨h.restart hb, ?_⟩
      have hp' : m.progressed = true := by simpa using hp
      simp [levelMeasure, Prod.Lex.toLex_lt_toLex, hp']
  | cons mid rest =>
    obtain ⟨me, he, rfl, hside, hprice⟩ := h.entry hb (by rw [htodo]; simp : mid ∈ m.todo)
    simp only [he]
    have hstp : m.book.stp.cancelsAggressor = true → b₀.stp.cancelsAggressor = true := by
      rw [hsw.evolves.stp]
      exact id
    split_ifs with h1 h2 h3 h3 h4
    · -- both orders of a self trade go
      obtain ⟨hinv, -⟩ := h.stp hb hs hacc htodo he h1 h3
      exact Comp.ensures_pure (hinv.leave hb (fun _ => hstp h2) (by simp))
    · -- only the aggressor
      exact Comp.ensures_pure (h.leave hb (fun _ => hstp h2) (by simp))
    · -- only the resting one
      obtain ⟨hinv, hlen⟩ := h.stp hb hs hacc htodo he h1 h3
      refine Comp.ensures_pure ⟨hinv, ?_⟩
      simp only [levelMeasure, Prod.Lex.toLex_lt_toLex]
      left
      omega
    · -- every policy removes one of the two
      exfalso
      simp only [selfTrade, Bool.and_eq_true, decide_eq_true_eq] at h1
      revert h1 h2 h3
      cases m.book.stp <;> simp [StpPolicy.cancelsResting, StpPolicy.cancelsAggressor]
    · refine Comp.ensures_pure ⟨h.skip htodo ⟨me, he, h4⟩, ?_⟩
      simp [levelMeasure, Prod.Lex.toLex_lt_toLex, htodo]
    · obtain ⟨hq, hlen, hinv⟩ := h.fill hb hs hacc (by omega) htodo he (by simpa using h1)
        fun haon => not_lt.1 fun hlt => h4 ⟨haon, hlt⟩
      refine Comp.ensures_pure ⟨hinv, ?_⟩
      simp only [levelMeasure, Prod.Lex.toLex_lt_toLex, takeFill]
      left
      omega

/-- Matching against one level returns, having swept the level. -/
theorem matchLevel_spec {b : Book} {o : Order} (hb : b.view.Sound) (ho : 0 ≤ o.leaves)
    (hs : s = o.side.opposite) (hacc : acceptable o p = true) (tr : List Trade) :
    (matchLevel b o s p tr).Ensures (LevelPost b o tr s p) := by
  have hinit : LevelInv b o tr s p
      { book := b, order := o, todo := (b.level s p).fifo, progressed := false, trades := tr } :=
    ⟨⟨[], .refl b ho, by simp, by simp⟩, fun _ => id, hb.nodup s p,
      fun _ id hid hno => absurd hid hno, fun hc => hc.but s p⟩
  exact Comp.ensures_loop (InvImage.wf (levelMeasure s p) wellFounded_lt)
    (fun m hm => matchLevelRound_spec hb hs hacc hm) hinit

end Level

end Book

/-! ### All levels -/

/-- Matching at one level leaves the others alone. -/
lemma Mut.AggressedBy.elsewhere {v : View} {m : Mut} (hm : m.Ok v)
    {stp : StpPolicy} {o : Order} {s : Side} {p : ℤ} (hag : m.AggressedBy stp o s p) :
    (∀ t q, ¬ (t = s ∧ q = p) → (m.apply v).queue t q = v.queue t q) ∧
      ∀ id e, v.entry id = some e → ¬ (e.order.side = s ∧ e.order.price = p) →
        (m.apply v).entry id = some e := by
  have hne : ∀ {id e me}, v.entry id = some e → ¬ (e.order.side = s ∧ e.order.price = p) →
      v.entry me.order.id = some me → me.order.side = s → me.order.price = p →
      id ≠ me.order.id := by
    rintro id e me he hsp hme hs hp rfl
    obtain rfl := Option.some.inj (he.symm.trans hme)
    exact hsp ⟨hs, hp⟩
  cases m with
  | fill o' me q rank =>
    obtain ⟨-, rfl, rfl⟩ := hag
    refine ⟨fun t q' htq => ?_, fun id e he hsp => ?_⟩
    · simp only [Mut.apply]
      split_ifs <;> simp [View.unlink, View.unpeg, View.reveal, View.link, View.reduce,
        Entry.replenished, Entry.fill, htq]
    · have := hne he hsp hm.1 rfl rfl
      simp only [Mut.apply]
      split_ifs <;> simp [View.unlink, View.unpeg, View.reveal, View.link, View.reduce,
        Entry.replenished, Entry.fill, this, he]
  | remove me =>
    obtain ⟨-, -, -, rfl, rfl⟩ := hag
    refine ⟨fun t q' htq => ?_, fun id e he hsp => ?_⟩
    · simp [Mut.apply, View.unlink, View.unpeg, htq]
    · simp [Mut.apply, View.unlink, View.unpeg, hne he hsp hm rfl rfl, he]
  | _ => exact hag.elim

lemma View.Run.elsewhere {v v' : View} {ms : List Mut} (h : View.Run v ms v') (hv : v.Sound)
    {stp : StpPolicy} {o : Order} {s : Side} {p : ℤ} (hag : ∀ m ∈ ms, m.AggressedBy stp o s p) :
    (∀ t q, ¬ (t = s ∧ q = p) → v'.queue t q = v.queue t q) ∧
      ∀ id e, v.entry id = some e → ¬ (e.order.side = s ∧ e.order.price = p) →
        v'.entry id = some e := by
  induction h with
  | nil v => exact ⟨fun _ _ _ => rfl, fun _ _ he _ => he⟩
  | cons hm _ ih =>
    obtain ⟨hq, he⟩ := (hag _ (by simp)).elsewhere hm
    obtain ⟨hq', he'⟩ := ih (Mut.sound_apply hv hm) fun m hm => hag m (by simp [hm])
    exact ⟨fun t q h => (hq' t q h).trans (hq t q h), fun id e h h' => he' id e (he id e h h') h'⟩

namespace Book

/-- The prices of `ps` are still to be visited; the others have nothing for the order. -/
def ExhaustedBut (b : Book) (o : Order) (ps : List ℤ) : Prop :=
  ∀ q ∉ ps, acceptable o q = true → ∀ id ∈ (b.level o.side.opposite q).fifo, b.Blocked o id

/-- What matching leaves behind. -/
def MatchPost (b₀ : Book) (o₀ : Order) (tr₀ : List Trade) (r : MatchResult) : Prop :=
  ∃ ms, Sweep b₀ o₀ ms r.book r.order ∧ r.trades = tr₀ ++ Mut.trades ms ∧
    (b₀.Cached → r.book.Cached) ∧
    (r.cancelled = true → b₀.stp.cancelsAggressor = true) ∧
    (r.cancelled = false → r.order.leaves = 0 ∨ Exhausted r.book r.order)

/-- A level without quantity has no orders. -/
lemma fifo_eq_nil_of_total {b : Book} (hb : b.view.Sound) {s : Side} {p : ℤ}
    (h : (b.level s p).total = 0) : (b.level s p).fifo = [] := by
  by_contra hne
  obtain ⟨id, hid⟩ := List.exists_mem_of_ne_nil _ hne
  obtain ⟨e, he⟩ := (hb.mem_queue s p id).1 hid
  have hpos : 0 < b.view.total s p := hb.total_pos_iff.2 ⟨id, e, he⟩
  exact absurd h hpos.ne'

/-- A sweep of one level leaves the others as they are. -/
lemma Sweep.blocked {b b' : Book} {o o' : Order} {s : Side} {p q : ℤ} {ms : List Mut}
    (hsw : Sweep b o ms b' o') (hb : b.view.Sound) (hag : ∀ m ∈ ms, m.AggressedBy b.stp o s p)
    (hqp : q ≠ p) (h : ∀ id ∈ (b.level s q).fifo, b.Blocked o id) :
    ∀ id ∈ (b'.level s q).fifo, b'.Blocked o' id := by
  intro id hid
  have hle := hsw.leaves_le
  obtain ⟨hqueue, hentry⟩ := hsw.evolves.run.elsewhere hb hag
  -- all that the sweep does is at `p`
  have hsame : (b'.level s q).fifo = (b.level s q).fifo := hqueue s q fun h => hqp h.2
  rw [hsame] at hid
  obtain ⟨e, he, -, hep⟩ := (hb.mem_queue _ _ id).1 hid
  obtain ⟨e', he', haon, hlt⟩ := h id hid
  obtain rfl := Option.some.inj (he.symm.trans he')
  exact ⟨e, hentry id e he fun h => hqp (hep.symm.trans h.2), haon, by omega⟩

/-- A level has been visited. -/
lemma ExhaustedBut.visited {b b' : Book} {o o' : Order} {p : ℤ} {ps : List ℤ} {ms : List Mut}
    (h : b.ExhaustedBut o (p :: ps)) (hb : b.view.Sound) (hsw : Sweep b o ms b' o')
    (hag : ∀ m ∈ ms, m.AggressedBy b.stp o o.side.opposite p)
    (hp : ∀ id ∈ (b'.level o.side.opposite p).fifo, b'.Blocked o' id) :
    b'.ExhaustedBut o' ps := by
  intro q hq hacc
  rw [hsw.side_eq]
  rw [hsw.acceptable_eq] at hacc
  by_cases hqp : q = p
  · subst hqp
    exact hp
  · exact hsw.blocked hb hag hqp (h q (by simp [hqp, hq]) hacc)

lemma matchOver_spec {ps : List ℤ} {b : Book} {o : Order} (hb : b.view.Sound) (ho : 0 ≤ o.leaves)
    (hps : ps.Pairwise fun p q => Ladder.better o.side.opposite p q = true)
    (hdone : o.leaves = 0 ∨ b.ExhaustedBut o ps) (tr : List Trade) :
    (matchOver o.side.opposite ps b o tr).Ensures (MatchPost b o tr) := by
  have hnone : ∀ {b : Book} {o : Order} (tr : List Trade), 0 ≤ o.leaves →
      (o.leaves = 0 ∨ Exhausted b o) → MatchPost b o tr ⟨b, o, tr, false⟩ :=
    fun tr ho hx => ⟨[], .refl _ ho, by simp, id, by simp, fun _ => hx⟩
  induction ps generalizing b o tr with
  | nil => exact Comp.ensures_pure (hnone tr ho (hdone.imp_right fun h p => h p (by simp)))
  | cons p ps ih =>
    obtain ⟨hbetter, hps⟩ := List.pairwise_cons.1 hps
    unfold matchOver
    split_ifs with h1 h2 h3
    · exact Comp.ensures_pure (hnone tr ho (.inl (by omega)))
    · -- there is nothing at this price
      refine ih hb ho hps (hdone.imp_right fun h q hq hacc id hid => ?_) tr
      by_cases hqp : q = p
      · rw [hqp, fifo_eq_nil_of_total hb h2] at hid
        simp at hid
      · exact h q (by simp [hqp, hq]) hacc id hid
    · -- this price and all worse ones are out of reach
      refine Comp.ensures_pure (hnone tr ho (hdone.imp_right fun h q hacc id hid => ?_))
      refine h q (fun hmem => ?_) hacc id hid
      rcases List.mem_cons.1 hmem with rfl | hmem
      · rw [h3] at hacc
        exact absurd hacc (by simp)
      · rw [acceptable_of_better hacc (hbetter q hmem)] at h3
        exact absurd h3 (by simp)
    · refine (matchLevel_spec hb ho rfl (by simpa using h3) tr).bind fun r hr => ?_
      obtain ⟨ms, hsw, htr, hag, hcache, hstp, hleft⟩ := hr
      split_ifs with hc
      · refine Comp.ensures_pure ⟨ms, hsw, htr, hcache, hstp, fun hf => ?_⟩
        rw [hc] at hf
        exact absurd hf (by simp)
      · have hdone' : r.order.leaves = 0 ∨ r.book.ExhaustedBut r.order ps := by
          rcases hdone with h | h
          · omega
          · exact (hleft (by simpa using hc)).imp_right fun hp => h.visited hb hsw hag hp
        rw [← hsw.side_eq] at hps ⊢
        refine (ih (hsw.evolves.sound hb) hsw.leaves hps hdone' r.trades).imp fun r' hr' => ?_
        obtain ⟨ms', hsw', htr', hcache', hstp', hleft'⟩ := hr'
        refine ⟨ms ++ ms', hsw.trans hsw', by simp [htr', htr], fun h => hcache' (hcache h),
          fun hc' => ?_, hleft'⟩
        rw [← hsw.evolves.stp]
        exact hstp' hc'

/-- Matching returns, having swept the opposite side. -/
theorem matchOrder_spec {b : Book} {o : Order} (hb : b.view.Sound) (ho : 0 ≤ o.leaves)
    (tr : List Trade) : (b.matchOrder o tr).Ensures (MatchPost b o tr) := by
  have huncovered : ∀ p, ¬ (b.ladder o.side.opposite).Covers p →
      (b.level o.side.opposite p).fifo = [] := by
    intro p hp
    rw [level, Ladder.level_of_not_covers hp]
  unfold matchOrder
  dsimp only
  split_ifs with hbase
  · refine Comp.ensures_pure ⟨[], .refl _ ho, by simp, id, by simp, fun _ => .inr ?_⟩
    intro p _ id hid
    rw [huncovered p fun hc => absurd (hbase.symm.trans hc.1) (by simp)] at hid
    simp at hid
  · refine matchOver_spec hb ho (Ladder.outward_pairwise _) (.inr fun q hq _ id hid => ?_) tr
    rw [huncovered q fun hc => hq ((Ladder.mem_outward (by simpa using hbase)).2 hc)] at hid
    simp at hid

/-! ### Entering the book -/

lemma Sweep.rest_notMem {b₀ b : Book} {o₀ o : Order} {ms : List Mut} (h : Sweep b₀ o₀ ms b o)
    (e : Entry) : Mut.rest e ∉ ms := by
  intro he
  obtain ⟨p, -, hp⟩ := h.aggressed _ he
  exact hp

/-- The order `o` is matched by the mutations `sw`; what is left of it, `o'`, is put
to rest by the mutations `tail`, or dropped. -/
structure Enters (b : Book) (o : Order) (sw tail : List Mut) (b' : Book) (o' : Order) : Prop where
  evolves : Evolves b (sw ++ tail) b'
  frame : b'.frame = b.frame
  sweep : ∃ b₁, Sweep b o sw b₁ o'
  rests : tail = [] ∨ (0 < o'.leaves ∧ discards o' = false ∧ RestsAs b o' tail)
  cached : b.Cached → b'.Cached
  beats : o.Normal → ∀ r hand, r ≠ .submitted →
    Beats ⟨b, some ⟨o, r⟩, hand⟩ (sw ++ tail) ⟨b', none, hand⟩

/-- Only the order that comes to rest is put to rest. -/
lemma RestsAs.rest_mem {b : Book} {o : Order} {tail : List Mut} (h : RestsAs b o tail) {e : Entry}
    (he : Mut.rest e ∈ tail) : e = ⟨o, sliceOf o⟩ := by
  rcases h with ⟨win, rfl, hwin⟩ | ⟨-, rfl⟩
  · rcases List.mem_cons.1 he with he | he
    · exact Mut.rest.inj he
    · exact absurd (hwin _ he) id
  · simp at he

/-- Without a window the order rests in memory. -/
lemma RestsAs.eq_rest {b b' : Book} {o : Order} {tail : List Mut} (h : RestsAs b o tail)
    (hm : b.memLevels = 0) (hev : Evolves b tail b') : tail = [.rest ⟨o, sliceOf o⟩] := by
  rcases h with ⟨win, rfl, hwin⟩ | ⟨hm', -⟩
  · cases win with
    | nil => rfl
    | cons m win =>
      exact absurd (hwin m (by simp)) (hev.windowed hm m (by simp))
  · exact absurd hm hm'

/-- Coming to rest is no execution. -/
lemma RestsAs.trades {b : Book} {o : Order} {tail : List Mut} (h : RestsAs b o tail) :
    Mut.trades tail = [] := by
  rcases h with ⟨win, rfl, hwin⟩ | ⟨-, rfl⟩
  · refine List.filterMap_eq_nil_iff.2 fun m hm => ?_
    rcases List.mem_cons.1 hm with rfl | hm
    · rfl
    · have := hwin m hm
      cases m <;> first | rfl | exact absurd this id
  · rfl

lemma Enters.trades_tail {b b' : Book} {o o' : Order} {sw tail : List Mut}
    (h : Enters b o sw tail b' o') : Mut.trades tail = [] := by
  rcases h.rests with rfl | ⟨-, -, hr⟩
  · rfl
  · exact hr.trades

lemma Sweep.enters {b b₁ : Book} {o o' : Order} {sw : List Mut} (h : Sweep b o sw b₁ o')
    (hc : b.Cached → b₁.Cached) : Enters b o sw [] b₁ o' :=
  ⟨by simpa using h.evolves, h.frame, ⟨b₁, h⟩, .inl rfl, hc,
    fun _ r hand hr => (h.beats r hand hr).trans (.single .finish)⟩

/-- An order comes to rest, in memory or beyond the window. -/
lemma rest_spec {b : Book} {o : Order} (hb : b.view.Sound) (hnew : b.orders.lookup o.id = none)
    (ho : Restable o) (ev : List Order) :
    let r := b.rest o ev
    ∃ tail, Evolves b tail r.1 ∧ r.1.frame = b.frame ∧ RestsAs b o tail ∧ (b.Cached → r.1.Cached) ∧
      ((r.2.1 = true ∧ ∃ win, tail = .rest ⟨o, sliceOf o⟩ :: win ∧ ∀ m ∈ win, m.Windowed) ∨
        (r.2.1 = false ∧ b.memLevels ≠ 0 ∧ tail = [.restDeep o])) := by
  obtain ⟨hf, h⟩ := evolves_rest hb hnew ho ev
  have hc : b.Cached → (b.rest o ev).1.Cached := fun hc => hc.rest hb hnew ho ev
  rcases h with ⟨hr, -, win, hev, hwin⟩ | ⟨hr, hm, hev⟩
  · exact ⟨_, hev, hf, .inl ⟨win, rfl, hwin⟩, hc, .inl ⟨hr, win, rfl, hwin⟩⟩
  · exact ⟨_, hev, hf, .inr ⟨hm, rfl⟩, hc, .inr ⟨hr, hm, rfl⟩⟩

/-- What is left after a sweep comes to rest. -/
lemma Sweep.rest {b b₁ : Book} {o o' : Order} {sw : List Mut} (h : Sweep b o sw b₁ o')
    (hb : b.view.Sound) (hc : b.Cached → b₁.Cached) (hnew : b.orders.lookup o.id = none)
    (hd : 0 < o.displayQty) (hl : 0 < o'.leaves) (hdis : discards o' = false)
    (hex : o'.flags.aon = true ∨ (b₁.stp.cancelsAggressor = false → Exhausted b₁ o'))
    (ev : List Order) :
    let r := b₁.rest o' ev
    ∃ tail, Enters b o sw tail r.1 o' ∧
      ((r.2.1 = true ∧ ∃ win, tail = .rest ⟨o', sliceOf o'⟩ :: win ∧ ∀ m ∈ win, m.Windowed) ∨
        (r.2.1 = false ∧ b.memLevels ≠ 0 ∧ tail = [.restDeep o'])) := by
  have hid : o'.id = o.id := by rw [h.order]; rfl
  have hdq : o'.displayQty = o.displayQty := by rw [h.order]; rfl
  have hnew' : b₁.orders.lookup o'.id = none := by
    rw [hid]
    exact h.evolves.run.entry_eq_none hnew fun e he => absurd he (h.rest_notMem e)
  obtain ⟨tail, hev, hfr, htail, hc', hcase⟩ :=
    rest_spec (h.evolves.sound hb) hnew' ⟨hl, hdq ▸ hd⟩ ev
  have hm := h.evolves.memLevels
  rw [hm] at hcase
  refine ⟨tail, ⟨h.evolves.trans hev, hfr.trans h.frame, ⟨b₁, h⟩, .inr ⟨hl, hdis, ?_⟩,
    fun h' => hc' (hc h'), fun hn r hand hr => ?_⟩, hcase⟩
  · exact htail.imp_right fun h' => ⟨hm ▸ h'.1, h'.2⟩
  · have hn' : o'.Normal := by rw [h.order]; exact hn
    exact (h.beats r hand hr).trans
      (.single (.rest ev hl (.inl ⟨hdis, hr, hex⟩) hn' hnew' htail hev hfr))

/-- An order with something left has met everything it could fill against, unless
self-trade prevention stopped it. -/
lemma MatchPost.exhausted {b : Book} {o : Order} {tr : List Trade} {r : MatchResult}
    (h : MatchPost b o tr r) (hl : 0 < r.order.leaves) :
    r.book.stp.cancelsAggressor = false → Exhausted r.book r.order := by
  obtain ⟨ms, hsw, -, -, hstp, hleft⟩ := h
  intro hf
  by_cases hc : r.cancelled = true
  · rw [hsw.evolves.stp, hstp hc] at hf
    exact absurd hf (by simp)
  · exact (hleft (by simpa using hc)).resolve_left hl.ne'

/-- Injecting an order returns, the order having entered the book. -/
theorem inject_spec {b : Book} {o : Order} (hb : b.view.Sound)
    (hnew : b.orders.lookup o.id = none) (hl : 0 ≤ o.leaves) (hd : 0 < o.displayQty)
    (tr : List Trade) : (b.inject o tr).Ensures fun r =>
      ∃ sw tail, Enters b o sw tail r.book r.order ∧ r.trades = tr ++ Mut.trades sw := by
  refine (matchOrder_spec hb hl tr).bind fun r hr => ?_
  have hex := hr.exhausted
  obtain ⟨sw, hsw, htr, hc, -⟩ := hr
  split_ifs with h
  · obtain ⟨tail, hen, -⟩ := hsw.rest hb hc hnew hd h.1 h.2 (.inr (hex h.1)) []
    exact Comp.ensures_pure ⟨sw, tail, hen, htr⟩
  · exact Comp.ensures_pure ⟨sw, [], hsw.enters hc, htr⟩

end Book

end Codicis
