/-
The displayed quantity.

The book counts the displayed quantity of a level up and down as orders come to rest, are
filled, replenished, moved and cancelled, and the replica repeats the count from the
events.  Both counts are the sum of what the orders display (`View.Lit`, `SymBook.Displays`)
unless a hidden iceberg is replenished: its new slice is counted although the order is
hidden.  So the counts are exact along the runs without hidden icebergs.
-/
import Codicis.Core.Inherit
import Codicis.Feed.Mirror

namespace Codicis

/-! ### The count of the book -/

/-- The displayed quantity of every level is the sum of what its orders display. -/
def View.Lit (v : View) : Prop := ∀ s p, v.shown s p = v.sumOf Entry.displayed s p

/-- An iceberg whose slices are not displayed. -/
def Order.HiddenIceberg (o : Order) : Prop := o.flags.hidden = true ∧ o.flags.iceberg = true

lemma Order.hidden_traits (o : Order) : o.traits.flags.hidden = o.flags.hidden := by
  unfold traits
  cases o.tif <;> rfl

lemma Order.iceberg_traits (o : Order) : o.traits.flags.iceberg = o.flags.iceberg := by
  unfold traits
  cases o.tif <;> rfl

lemma Order.stable_hiddenIceberg : Stable fun o => ¬ o.HiddenIceberg where
  traits x y h hx := by
    have hh : x.traits.flags.hidden = y.traits.flags.hidden := by rw [h]
    have hi : x.traits.flags.iceberg = y.traits.flags.iceberg := by rw [h]
    rw [x.hidden_traits, y.hidden_traits] at hh
    rw [x.iceberg_traits, y.iceberg_traits] at hi
    rwa [HiddenIceberg, ← hh, ← hi]
  clear x hx := hx

namespace View

variable {v : View} {e : Entry}

lemma Lit.nonneg (h : v.Lit) (hv : v.Sound) (s : Side) (p : ℤ) : 0 ≤ v.shown s p := by
  rw [h s p]
  refine List.sum_nonneg fun x hx => ?_
  obtain ⟨id, -, rfl⟩ := List.mem_map.1 hx
  unfold weigh
  cases he : v.entry id with
  | none => exact le_rfl
  | some e => exact (hv.entry_ok id e he).displayed_nonneg

lemma lit_iff_drift : v.Lit ↔ ∀ s p, v.drift s p = 0 :=
  forall₂_congr fun _ _ => sub_eq_zero.symm

/-- The count stays exact when no level counts more or less than before. -/
lemma Lit.of_drift {v' : View} (h : v.Lit) (hd : v'.drift = v.drift) : v'.Lit := by
  rw [lit_iff_drift] at h ⊢
  rwa [hd]

/-- Nothing is revealed of an order that is not hidden. -/
lemma reveal_eq (hh : e.order.flags.hidden = false) : v.reveal e = v := by
  simp [View.reveal, hh]

end View

/-- The count stays exact when no hidden iceberg rests. -/
lemma Mut.lit_apply {v : View} {m : Mut} (hv : v.Sound) (hm : m.Ok v)
    (hn : ∀ id e, v.entry id = some e → ¬ e.order.HiddenIceberg) (h : v.Lit) : (m.apply v).Lit := by
  rw [View.lit_iff_drift] at h ⊢
  have hrev : m.revealed = 0 := by
    cases m with
    | fill o me q rank => exact if_neg fun hc => hn _ me hm.1 ⟨hc.2, hc.1.2.1⟩
    | _ => rfl
  intro s p
  have hd := Mut.drift_apply hv hm (fun s p => (h s p).ge) s p
  rw [h s p, hrev] at hd
  omega

/-! ### The count of the replica -/

namespace SymBook

section Setters

variable (b : SymBook) (s t : Side) (p d : ℤ) (id : OrderId) (o : OrderView)

@[simp] lemma dispMap_bumpSide : (b.bumpSide s p d).dispMap t = b.dispMap t := by
  cases s <;> cases t <;> rfl

lemma dispMap_bumpDisp : (b.bumpDisp s p d).dispMap t
    = if t = s then bump (b.dispMap t) p d else b.dispMap t := by
  cases s <;> cases t <;> rfl

@[simp] lemma dispMap_setOrder : (b.setOrder id o).dispMap t = b.dispMap t := by cases t <;> rfl

@[simp] lemma dispMap_eraseOrder : (b.eraseOrder id).dispMap t = b.dispMap t := by cases t <;> rfl

end Setters

/-- The replica displays `d` of each order, and `f` at each side and price. -/
structure Displays (b : SymBook) (d : OrderId → Option ℤ) (f : Side → ℤ → ℤ) : Prop where
  orders : ∀ id, (b.orders.lookup id).map OrderView.displayed = d id
  shown : ∀ t, Holds (b.dispMap t) (f t)

section Step

variable {b : SymBook} {d d' : OrderId → Option ℤ} {f f' : Side → ℤ → ℤ} {v : View} {sym : Symbol}
  {e : Entry}

lemma Displays.congr (h : b.Displays d f) (hd : ∀ id, d' id = d id) (hf : ∀ s p, f' s p = f s p) :
    b.Displays d' f' := by
  obtain rfl : d' = d := funext hd
  obtain rfl : f' = f := funext fun s => funext fun p => hf s p
  exact h

/-- The replica displays what the orders of a resting book display. -/
def Shows (b : SymBook) (v : View) : Prop :=
  b.Displays (fun id => (v.entry id).map Entry.displayed) v.shown

lemma Shows.lookup (h : b.Shows v) (hmir : b.Mirrors v) {id : OrderId} (he : v.entry id = some e) :
    ∃ o, b.orders.lookup id = some o ∧ o.side = e.order.side ∧ o.price = e.order.price ∧
      o.qty = e.order.leaves ∧ o.displayed = e.displayed := by
  obtain ⟨o, ho, hs, hp, hq⟩ := hmir.lookup he
  refine ⟨o, ho, hs, hp, hq, ?_⟩
  have hd := h.orders id
  rw [ho, he] at hd
  exact Option.some.inj hd

lemma Shows.add (h : b.Shows v) (hl : v.Lit) (hv : v.Sound) :
    Shows (b.apply (e.order.event sym .add e.order.leaves e.displayed)) (v.link e) := by
  refine ⟨fun id => ?_, ?_⟩
  · simp only [apply, Order.event, orders_bumpDisp, orders_bumpSide, lookup_setOrder, View.link]
    split_ifs
    · rfl
    · exact h.orders id
  · refine holds_bump_side h.shown (fun t => ?_) (fun t q => rfl) (hl.nonneg hv _ _)
    rw [apply, Order.event, dispMap_bumpDisp, dispMap_bumpSide, dispMap_setOrder]

/-- The displayed quantities without an order. -/
lemma Shows.unlink_shown (h : b.Shows v) (hl : v.Lit) (hv : v.Sound) (e : Entry) (t : Side) :
    Holds ((b.bumpDisp e.order.side e.order.price (-e.displayed)).dispMap t)
      ((v.unlink e).shown t) :=
  holds_bump_side h.shown (fun t => dispMap_bumpDisp b _ t _ _)
    (fun t q => by simp only [View.unlink, Int.sub_eq_add_neg]) (hl.nonneg hv _ _) t

lemma Shows.cancel (h : b.Shows v) (hmir : b.Mirrors v) (hl : v.Lit) (hv : v.Sound)
    (he : v.entry e.order.id = some e) (qty displayed : ℤ) :
    Shows (b.apply (e.order.event sym .cancel qty displayed)) ((v.unlink e).unpeg e.order.id) := by
  obtain ⟨o, ho, hs, hp, hq, hd⟩ := h.lookup hmir he
  simp only [apply, Order.event, ho]
  refine ⟨fun id => ?_, fun t => ?_⟩
  · simp only [lookup_eraseOrder, orders_bumpDisp, orders_bumpSide, View.unpeg, View.unlink]
    split_ifs
    · rfl
    · exact h.orders id
  · have hun := h.unlink_shown hl hv e t
    rw [dispMap_bumpDisp] at hun
    rw [hs, hp, hd, dispMap_eraseOrder, dispMap_bumpDisp, dispMap_bumpSide]
    exact hun

/-- A maker shrinks by `t.qty`, of which `x` was displayed. -/
lemma Displays.trade (h : b.Displays d f) {t : Trade} {o : OrderView}
    (ho : b.orders.lookup t.makerId = some o) (hf : 0 ≤ f o.side o.price) (x : ℤ) :
    Displays (b.apply (t.event sym x))
      (fun id => if id = t.makerId then
        if o.qty - t.qty ≤ 0 then none else some (o.displayed - x) else d id)
      (fun s p => if s = o.side ∧ p = o.price then f s p - x else f s p) := by
  have hsub : ∀ s q, (if s = o.side ∧ q = o.price then f s q - x else f s q)
      = if s = o.side ∧ q = o.price then f s q + -x else f s q :=
    fun s q => by rw [Int.sub_eq_add_neg]
  by_cases hq : o.qty - t.qty ≤ 0
  · have happ : b.apply (t.event sym x) = ((b.bumpSide o.side o.price (-t.qty)).bumpDisp o.side
        o.price (-x)).eraseOrder t.makerId := by
      simp only [apply, Trade.event, ho]
      exact if_pos hq
    rw [happ]
    refine ⟨fun id => ?_, holds_bump_side h.shown (fun s => ?_) hsub hf⟩
    · simp only [lookup_eraseOrder, orders_bumpDisp, orders_bumpSide, if_pos hq]
      split_ifs
      · rfl
      · exact h.orders id
    · rw [dispMap_eraseOrder, dispMap_bumpDisp, dispMap_bumpSide]
  · have happ : b.apply (t.event sym x) = ((b.bumpSide o.side o.price (-t.qty)).bumpDisp o.side
        o.price (-x)).setOrder t.makerId
          { o with qty := o.qty - t.qty, displayed := o.displayed - x } := by
      simp only [apply, Trade.event, ho]
      exact if_neg hq
    rw [happ]
    refine ⟨fun id => ?_, holds_bump_side h.shown (fun s => ?_) hsub hf⟩
    · simp only [lookup_setOrder, orders_bumpDisp, orders_bumpSide, if_neg hq]
      split_ifs
      · rfl
      · exact h.orders id
    · rw [dispMap_setOrder, dispMap_bumpDisp, dispMap_bumpSide]

lemma Displays.replenish (h : b.Displays d f) {x : Order} {o : OrderView}
    (ho : b.orders.lookup x.id = some o) (hf : 0 ≤ f o.side o.price) (qty slice : ℤ) :
    Displays (b.apply (x.event sym .replenish qty slice))
      (fun id => if id = x.id then some (o.displayed + slice) else d id)
      (fun s p => if s = o.side ∧ p = o.price then f s p + slice else f s p) := by
  simp only [apply, Order.event, ho]
  refine ⟨fun id => ?_, holds_bump_side h.shown (fun s => ?_) (fun s q => rfl) hf⟩
  · simp only [orders_bumpDisp, lookup_setOrder]
    split_ifs
    · rfl
    · exact h.orders id
  · rw [dispMap_bumpDisp, dispMap_setOrder]

lemma Shows.reprice (h : b.Shows v) (hmir : b.Mirrors v) (hl : v.Lit) (hv : v.Sound)
    (he : v.entry e.order.id = some e) (p : ℤ) (rank : ℕ) (qty prev : ℤ) :
    Shows (b.apply { (e.moved p rank).order.event sym .reprice qty e.displayed with
      prevPrice := prev }) ((v.unlink e).link (e.moved p rank)) := by
  obtain ⟨o, ho, hs, hp, hq, hd⟩ := h.lookup hmir he
  have ho' : b.orders.lookup (e.moved p rank).order.id = some o := ho
  simp only [apply, Order.event, ho', hs, hp, hq, hd]
  refine ⟨fun id => ?_, ?_⟩
  · simp only [lookup_setOrder, orders_bumpDisp, orders_bumpSide, View.link, View.unlink]
    split_ifs with hid hid'
    · rfl
    · exact absurd hid' hid
    · exact h.orders id
  · refine holds_bump_side (h.unlink_shown hl hv e) (fun t => ?_) (fun t q => rfl)
      ((hl.of_drift (hv.drift_unlink he)).nonneg (v := { v.unlink e with pegged := [] })
        (hv.unlink_unpegged he) _ _)
    simp only [dispMap_setOrder, dispMap_bumpDisp, dispMap_bumpSide]
    rfl

/-- A resting order shrinks by `q`, of which `y` was displayed. -/
lemma Shows.trade (h : b.Shows v) (hmir : b.Mirrors v) (hl : v.Lit) (hv : v.Sound) {t : Trade}
    (he : v.entry t.makerId = some e) (y : ℤ) :
    Displays (b.apply (t.event sym y))
      (fun id => if id = t.makerId then
        if e.order.leaves - t.qty ≤ 0 then none else some (e.displayed - y)
        else (v.entry id).map Entry.displayed)
      (fun s p =>
        if s = e.order.side ∧ p = e.order.price then v.shown s p - y else v.shown s p) := by
  obtain ⟨x, hx, hxs, hxp, hxq, hxd⟩ := h.lookup hmir he
  have ht : Displays (b.apply (t.event sym y)) _ _ := Displays.trade h hx (hl.nonneg hv _ _) y
  rw [hxs, hxp, hxq, hxd] at ht
  exact ht

lemma Shows.fill (h : b.Shows v) (hmir : b.Mirrors v) (hl : v.Lit) (hv : v.Sound)
    (hn : ∀ id e, v.entry id = some e → ¬ e.order.HiddenIceberg)
    {o : Order} {me : Entry} {q : ℤ} {rank : ℕ} (hm : (Mut.fill o me q rank).Ok v) :
    Shows (((Mut.fill o me q rank).events sym).foldl apply b) ((Mut.fill o me q rank).apply v) := by
  obtain ⟨htot, hent⟩ := Mut.fill_effect hv hm
  obtain ⟨he, hq, hle, -⟩ := hm
  have hok := hv.entry_ok _ _ he
  let t : Trade := ⟨o.id, me.order.id, o.side, me.order.price, q⟩
  have ht : ∀ y, Displays (b.apply (t.event sym y)) _ _ := fun y => h.trade hmir hl hv he y
  by_cases h0 : me.order.leaves - q = 0
  · -- the maker leaves
    have hrep : ¬ Mut.Replenishes me q := fun hr => hr.1 h0
    have hdisp := Book.displayed_of_exhausted hok hle h0
    simp only [Mut.events, if_neg hrep, List.foldl_cons, List.foldl_nil, Mut.apply, if_pos h0]
    refine (ht _).congr (fun id => ?_) fun s p => ?_
    · rw [if_pos h0.le]
      simp only [View.unpeg, View.unlink]
      split_ifs <;> rfl
    · simp only [View.unpeg, View.unlink, hdisp]
  have hpos : ¬ me.order.leaves - q ≤ 0 := by
    have := hok.exposed_le
    omega
  by_cases h1 : Mut.Replenishes me q
  · -- a new slice of it is lit
    have hh : me.order.flags.hidden = false := by
      by_contra hh
      exact hn _ _ he ⟨by simpa using hh, h1.2.1⟩
    have hdisp := Book.displayed_of_replenishes h1
    simp only [hh, Bool.false_eq_true, if_false] at hdisp
    let e' := (me.fill q).replenished rank
    have happ : (Mut.fill o me q rank).apply v = (v.unlink me).link e' := by
      simp only [Mut.apply, if_neg h0, if_pos h1]
      exact View.reveal_eq hh
    have he' : ((Mut.fill o me q rank).apply v).entry me.order.id = some e' := by
      rw [happ]
      exact if_pos rfl
    have hmir' : Mirrors (b.apply (t.event sym q)) _ := hmir.trade hv he hent htot q
    obtain ⟨x, hx, hxs, hxp, -⟩ := hmir'.lookup he'
    have hxd : x.displayed = 0 := by
      have hd := (ht q).orders me.order.id
      rw [hx, if_pos rfl, if_neg hpos, hdisp, Int.sub_self] at hd
      exact Option.some.inj hd
    have hnn : 0 ≤ v.shown me.order.side me.order.price - q := by
      have hun := View.Lit.nonneg (v := { v.unlink me with pegged := [] })
        (hl.of_drift (hv.drift_unlink he))
        (hv.unlink_unpegged he) me.order.side me.order.price
      simpa [View.unlink, hdisp] using hun
    have hxs' : x.side = me.order.side := hxs
    have hxp' : x.price = me.order.price := hxp
    have hrep : Displays (apply _ (e'.order.event sym .replenish e'.slice e'.slice)) _ _ :=
      (ht q).replenish hx (by simpa [hxs', hxp'] using hnn) e'.slice e'.slice
    rw [hxs', hxp', hxd, Int.zero_add] at hrep
    have hlit : e'.displayed = e'.slice := by
      simp [Entry.displayed, displayedOf, hh, h1.2.1, e', Entry.replenished, Entry.fill]
    simp only [Mut.events, if_pos h1, hh, Bool.false_eq_true, if_false, List.foldl_cons,
      List.foldl_nil]
    rw [happ]
    refine hrep.congr (fun id => ?_) fun s p => ?_
    · show ((if id = me.order.id then some e' else if id = me.order.id then none
        else v.entry id).map Entry.displayed) = if id = me.order.id then some e'.slice else _
      split_ifs
      · rw [← hlit]
        rfl
      · rfl
    · show (if s = me.order.side ∧ p = me.order.price then (v.unlink me).shown s p + e'.displayed
        else (v.unlink me).shown s p) = _
      simp only [View.unlink, hlit, hdisp]
  · -- it keeps its place
    simp only [Mut.events, if_neg h1, List.foldl_cons, List.foldl_nil, Mut.apply, if_neg h0]
    refine (ht _).congr (fun id => ?_) fun s p => ?_
    · rw [if_neg hpos, ← Entry.displayed_fill]
      simp only [View.reduce]
      split_ifs <;> rfl
    · simp only [View.reduce]
      by_cases hh : me.order.flags.hidden = true <;> simp [hh]

/-- The events of one mutation. -/
lemma Shows.step (h : b.Shows v) (hmir : b.Mirrors v) (hl : v.Lit) (hv : v.Sound) {m : Mut}
    (hm : m.Ok v) (hw : ¬ m.Windowed)
    (hn : ∀ id e, v.entry id = some e → ¬ e.order.HiddenIceberg) :
    Shows ((m.events sym).foldl apply b) (m.apply v) := by
  cases m with
  | rest e => exact h.add hl hv
  | restDeep o => exact absurd trivial hw
  | fill o me q rank => exact h.fill hmir hl hv hn hm
  | remove e => exact h.cancel hmir hl hv hm _ _
  | evict s p => exact absurd trivial hw
  | move e p rank => exact h.reprice hmir hl hv hm p rank _ _
  | peg id => exact ⟨h.orders, h.shown⟩
  | cross t displayed =>
    simp only [Mut.events, List.foldl_cons, List.foldl_nil, hmir.cross hm.1]
    exact h
  | trigger o => exact h

/-- The events of a run of mutations. -/
lemma Shows.run {v' : View} {ms : List Mut} (hr : View.Run v ms v') (h : b.Shows v)
    (hmir : b.Mirrors v) (hl : v.Lit) (hv : v.Sound) (hw : ∀ m ∈ ms, ¬ m.Windowed)
    (hn : ∀ id e, v.entry id = some e → ¬ e.order.HiddenIceberg)
    (hrest : ∀ e, Mut.rest e ∈ ms → ¬ e.order.HiddenIceberg) :
    Shows ((ms.flatMap (Mut.events sym)).foldl apply b) v' ∧ v'.Lit := by
  induction hr generalizing b with
  | nil v => exact ⟨h, hl⟩
  | @cons v v' m ms hm _ ih =>
    have hwm := hw m (by simp)
    rw [List.flatMap_cons, List.foldl_append]
    refine ih (h.step hmir hl hv hm hwm hn) (hmir.step hv hm hwm) (Mut.lit_apply hv hm hn hl)
      (Mut.sound_apply hv hm) (fun m' hm' => hw m' (by simp [hm'])) (fun id e he => ?_)
      fun e he => hrest e (by simp [he])
    rcases (View.Run.single hm).entry_inherits he with ⟨e₀, he₀, htr⟩ | ⟨e₀, he₀, htr⟩
    · exact Order.stable_hiddenIceberg.traits _ _ htr.symm (hn id e₀ he₀)
    · refine Order.stable_hiddenIceberg.traits _ _ htr.symm (hrest e₀ ?_)
      exact List.mem_cons.2 (.inl (List.mem_singleton.1 he₀))

end Step

end SymBook

/-! ### Runs -/

namespace Book

variable {b : Book}

/-- The orders that rest at a side and price. -/
def restingAt (b : Book) (s : Side) (p : ℤ) : List Entry :=
  b.orders.values.filter fun e => e.order.side = s ∧ e.order.price = p

/-- A weight summed over the queue of a level is summed over the orders that rest there. -/
lemma sumOf_eq_restingAt (hb : b.view.Sound) (w : Entry → ℤ) (s : Side) (p : ℤ) :
    b.view.sumOf w s p = ((b.restingAt s p).map w).sum := by
  let at? : OrderId × Entry → Bool := fun x => x.2.order.side = s ∧ x.2.order.price = p
  have hnodup : ((b.orders.pairs.filter at?).map Prod.fst).Nodup := by
    have hsub : ((b.orders.pairs.filter at?).map Prod.fst).Sublist b.orders.keys := by
      rw [← Map.map_fst_pairs]
      exact List.filter_sublist.map _
    exact hsub.nodup b.orders.keys_nodup
  have hperm : (b.view.queue s p).Perm ((b.orders.pairs.filter at?).map Prod.fst) := by
    refine (List.perm_ext_iff_of_nodup (hb.nodup s p) hnodup).2 fun id => ?_
    rw [hb.mem_queue, List.mem_map]
    constructor
    · rintro ⟨e, he, hs, hp⟩
      exact ⟨(id, e), List.mem_filter.2 ⟨Map.mem_pairs.2 he, by simp [at?, hs, hp]⟩, rfl⟩
    · rintro ⟨⟨id', e⟩, hmem, rfl⟩
      obtain ⟨hmem, hat⟩ := List.mem_filter.1 hmem
      exact ⟨e, Map.mem_pairs.1 hmem, of_decide_eq_true hat⟩
  have hw : ∀ x ∈ b.orders.pairs.filter at?, b.view.weigh w x.1 = w x.2 := by
    intro x hx
    have hlook : b.view.entry x.1 = some x.2 := Map.mem_pairs.1 (List.mem_of_mem_filter hx)
    simp [View.weigh, hlook]
  have hvals : b.restingAt s p = (b.orders.pairs.filter at?).map Prod.snd := by
    rw [restingAt, Map.values, List.filter_map]
    rfl
  rw [View.sumOf, (hperm.map _).sum_eq, List.map_map, hvals, List.map_map,
    List.map_congr_left (f := b.view.weigh w ∘ Prod.fst) (g := w ∘ Prod.snd) hw]

/-- The displayed quantity at every side and price is the sum of what the orders that rest
there display, and the replica has the same. -/
def DisplayedExact (b : Book) : Prop :=
  ∀ s p, b.displayedQtyAt s p = ((b.restingAt s p).map Entry.displayed).sum ∧
    b.replica.displayedAt b.symbol s p = b.displayedQtyAt s p

/-- A published book whose displayed quantities are exact, also in the replica. -/
structure Lit (b : Book) : Prop where
  published : b.Published
  lit : b.view.Lit
  shows : (b.replica.book b.symbol).Shows b.view

lemma Lit.empty (stp : StpPolicy) (symbol : Symbol) : Lit (Book.empty 0 stp symbol true) := by
  refine ⟨.empty stp symbol, fun s p => ?_, fun id => rfl, fun s p => ?_⟩
  · cases s <;> rfl
  · cases s <;> rfl

lemma Lit.step {b' : Book} {ms : List Mut} (h : Lit b) (hb : WF b) (hev : Evolves b ms b')
    (hk : b.Keeps fun o => ¬ o.HiddenIceberg)
    (hrest : ∀ e, Mut.rest e ∈ ms → ¬ e.order.HiddenIceberg) : Lit b' := by
  obtain ⟨hshows, hlit⟩ : SymBook.Shows ((ms.flatMap (Mut.events b.symbol)).foldl
    SymBook.apply _) _ ∧
      _ := SymBook.Shows.run hev.run h.shows h.published.mirrors
    h.lit hb.sound (hev.windowed h.published.memLevels) hk.resting hrest
  refine ⟨h.published.step hb hev, hlit, ?_⟩
  rw [hev.symbol, h.published.replica_step hev]
  exact hshows

lemma Lit.displayedExact (h : Lit b) (hb : WF b) : DisplayedExact b := by
  refine fun s p => ⟨?_, (h.shows.shown s).getD (h.lit.nonneg hb.sound s p)⟩
  rw [← sumOf_eq_restingAt hb.sound]
  exact h.lit s p

end Book

/-- The operation does not come from storage, and submits no hidden iceberg. -/
def Op.Overt : Op → Prop
  | submit o => ¬ o.HiddenIceberg
  | op => op.Native

namespace Book

lemma Lit.of_reach {stp : StpPolicy} {symbol : Symbol} {used : List OrderId} {b : Book}
    (h : Reach Op.Overt (Book.empty 0 stp symbol true) used b) :
    Lit b ∧ b.Keeps fun o => ¬ o.HiddenIceberg := by
  induction h with
  | init => exact ⟨.empty stp symbol, keeps_empty _ _ _ _ _⟩
  | @step used b b' op h hC hop hret ih =>
    obtain ⟨hwf, hlive⟩ := h.wf
    have hin : op.Native ∧ ∀ a ∈ op.inHand, ¬ a.order.HiddenIceberg := by
      cases op with
      | submit o =>
        refine ⟨trivial, fun a ha => ?_⟩
        obtain rfl := List.mem_singleton.1 ha
        exact hC
      | _ => exact ⟨hC, fun a ha => absurd ha List.not_mem_nil⟩
    obtain ⟨ms, hst, hk, hrest⟩ :=
      exec_keeps Order.stable_hiddenIceberg hwf hin.1 hin.2 hop hlive ih.2 hret
    exact ⟨ih.1.step hwf hst.evolves ih.2 hrest, hk⟩

/-- In every run of a book without a window, by orders none of which is a hidden iceberg,
the displayed quantities of the book and of its replica are exact, and are so again after
the next operation. -/
theorem displayedExact_of_reach {stp : StpPolicy} {symbol : Symbol} {used : List OrderId}
    {b : Book} (h : Reach Op.Overt (Book.empty 0 stp symbol true) used b) :
    DisplayedExact b ∧
      ∀ op : Op, op.Overt → op.Allowed used b → (op.exec b).Ensures DisplayedExact := by
  have hall : ∀ {used b}, Reach Op.Overt (Book.empty 0 stp symbol true) used b →
      DisplayedExact b := fun h =>
    (Lit.of_reach h).1.displayedExact h.wf.1
  exact ⟨hall h, fun op hC hop => h.next hall hC hop⟩

/-- A run: a hidden order and an iceberg rest, and a buy order takes the hidden order and
the first slice of the iceberg. -/
theorem displayedExact_of_reach_slice : ∃ b,
    Reach Op.Overt (Book.empty 0 .none "ABC" true) [3, 2, 1] b ∧
      b.displayedQtyAt .sell 100 = 4 ∧ DisplayedExact b := by
  let os : List Order := [
    { id := 1, side := .sell, qty := 5, price := 100, flags.hidden := true },
    { id := 2, side := .sell, qty := 10, price := 100, displayQty := 4, flags.iceberg := true },
    { id := 3, qty := 9, price := 100 }]
  have hovert : ∀ o ∈ os, (Op.submit o).Overt := by simp [os, Op.Overt, Order.HiddenIceberg]
  obtain ⟨b, hr, ht⟩ : ∃ b, Reach Op.Overt (Book.empty 0 .none "ABC" true) [3, 2, 1] b ∧
      b.displayedQtyAt .sell 100 = 4 :=
    Reach.exists_of_submits 8 os hovert (by decide) (by decide +kernel)
  exact ⟨b, hr, ht, (displayedExact_of_reach hr).1⟩

/-- A hidden iceberg of two slices rests, and a buy order takes the first: the second is
displayed. -/
theorem displayed_after_hidden_replenish : ∃ b,
    Reach Op.Native (Book.empty 0 .none "ABC" true) [2, 1] b ∧ b.displayedQtyAt .sell 100 = 2 ∧
      ((b.restingAt .sell 100).map Entry.displayed).sum = 0 ∧ ¬ DisplayedExact b := by
  let os : List Order := [
    { id := 1, side := .sell, qty := 4, price := 100, displayQty := 2, flags.hidden := true,
      flags.iceberg := true },
    { id := 2, qty := 2, price := 100 }]
  obtain ⟨b, hr, hbook, hsum⟩ : ∃ b, Reach Op.Native (Book.empty 0 .none "ABC" true) [2, 1] b ∧
      b.displayedQtyAt .sell 100 = 2 ∧ ((b.restingAt .sell 100).map Entry.displayed).sum = 0 :=
    Reach.exists_of_submits 8 os (fun _ _ => trivial) (by decide) (by decide +kernel)
  refine ⟨b, hr, hbook, hsum, fun hex => ?_⟩
  have heq := (hex .sell 100).1
  rw [hbook, hsum] at heq
  exact absurd heq (by decide)

end Book

end Codicis
