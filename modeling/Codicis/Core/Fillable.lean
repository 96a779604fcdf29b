/-
What an order fills on entry.

An all-or-none order and an order with a minimum quantity are admitted by a walk over the totals
of the other side.  Matching takes less than these totals: it passes over all-or-none orders that
are too large, and self-trade prevention removes the orders of the same account, or stops the
incoming order.

`firmFill` counts what matching cannot fail to take.  `firmFill_le_volume` is the main lemma: an
order with something left has taken all of it.  An order whose admission rests on firm quantity
keeps its promise.
-/
import Codicis.Core.Account
import Codicis.Core.History

namespace Codicis

/-! ### Entries under matching -/

/-- Matching keeps the place and the owner of an entry. -/
lemma Mut.AggressedBy.entry {v : View} {m : Mut}
    (hm : m.Ok v) {stp : StpPolicy} {x : Order} {s : Side}
    {p : ℤ} (hag : m.AggressedBy stp x s p) {id : OrderId} {e' : Entry}
    (he' : (m.apply v).entry id = some e') : ∃ e, v.entry id = some e ∧
      e'.order.side = e.order.side ∧ e'.order.price = e.order.price ∧
      e'.order.flags = e.order.flags ∧ e'.order.clientId = e.order.clientId := by
  rcases Mut.entry_cases hm he' with h | ⟨rfl, -⟩ | ⟨_, me, _, _, -, -, he, rfl | ⟨-, rfl⟩⟩ |
    ⟨_, _, _, rfl, -⟩
  · exact ⟨e', h, rfl, rfl, rfl, rfl⟩
  · exact hag.elim
  · exact ⟨me, he, rfl, rfl, rfl, rfl⟩
  · exact ⟨me, he, rfl, rfl, rfl, rfl⟩
  · exact hag.elim

lemma View.Run.entry_of_aggressed {v v' : View} {ms : List Mut} (h : View.Run v ms v')
    {stp : StpPolicy} {x : Order} {s : Side} (hag : ∀ m ∈ ms, ∃ p, m.AggressedBy stp x s p)
    {id : OrderId} {e' : Entry} (he' : v'.entry id = some e') : ∃ e, v.entry id = some e ∧
      e'.order.side = e.order.side ∧ e'.order.price = e.order.price ∧
      e'.order.flags = e.order.flags ∧ e'.order.clientId = e.order.clientId := by
  induction h with
  | nil v => exact ⟨e', he', rfl, rfl, rfl, rfl⟩
  | @cons v v' m ms hm _ ih =>
    obtain ⟨e₁, he₁, hs₁, hp₁, hf₁, hc₁⟩ := ih (fun m hm => hag m (List.mem_cons_of_mem _ hm)) he'
    obtain ⟨p, hp⟩ := hag m List.mem_cons_self
    obtain ⟨e, he, hs, hpr, hf, hc⟩ := hp.entry hm he₁
    exact ⟨e, he, hs₁.trans hs, hp₁.trans hpr, hf₁.trans hf, hc₁.trans hc⟩

/-- A mutation of a run was possible where it happened. -/
lemma View.Run.ok_of_mem {v v' : View} {ms : List Mut} (h : View.Run v ms v') {m : Mut}
    (hm : m ∈ ms) : ∃ done w, (∀ x ∈ done, x ∈ ms) ∧ View.Run v done w ∧ m.Ok w := by
  induction h with
  | nil v => exact absurd hm List.not_mem_nil
  | @cons v v' m' ms hm' _ ih =>
    rcases List.mem_cons.1 hm with rfl | hm
    · exact ⟨[], v, by simp, .nil v, hm'⟩
    · obtain ⟨done, w, hsub, hrun, hok⟩ := ih hm
      refine ⟨m' :: done, w, fun x hx => ?_, .cons hm' hrun, hok⟩
      exact List.mem_cons.2 ((List.mem_cons.1 hx).imp_right (hsub x))

namespace Book

/-! ### Firm quantity -/

/-- The order `x` accepts the price of the resting order `e`, of the other side. -/
def Reaches (x : Order) (e : Entry) : Prop :=
  e.order.side = x.side.opposite ∧ acceptable x e.order.price = true

instance (x : Order) (e : Entry) : Decidable (Reaches x e) := inferInstanceAs (Decidable (_ ∧ _))

/-- Matching fills the order `x` against `e`, whatever happened before. -/
def Firm (b : Book) (x : Order) (e : Entry) : Prop :=
  Reaches x e ∧ e.order.flags.aon = false ∧ b.selfTrade x e = false

instance (b : Book) (x : Order) (e : Entry) : Decidable (b.Firm x e) :=
  inferInstanceAs (Decidable (_ ∧ _ ∧ _))

/-- The quantity on the other side that is neither all-or-none nor of the same account. -/
def firmFill (b : Book) (x : Order) : ℤ :=
  Map.sumBy (fun e => if b.Firm x e then e.order.leaves else 0) b.orders

/-- Self-trade prevention does not stop the order: it spares the aggressor, or the order
reaches no order of its account. -/
def Unopposed (b : Book) (x : Order) : Prop :=
  b.stp.cancelsAggressor = false ∨ ∀ id ∈ b.orders.keys, ∀ e, b.orders.lookup id = some e →
    Reaches x e → b.selfTrade x e = false

/-! ### Matching -/

section Sweep

variable {b b' : Book} {x x' : Order} {ms : List Mut}

lemma Sweep.entry (h : Sweep b x ms b' x') {id : OrderId} {e' : Entry}
    (he' : b'.view.entry id = some e') : ∃ e, b.view.entry id = some e ∧
      e'.order.side = e.order.side ∧ e'.order.price = e.order.price ∧
      e'.order.flags = e.order.flags ∧ e'.order.clientId = e.order.clientId :=
  h.evolves.run.entry_of_aggressed (fun m hm => (h.aggressed m hm).imp fun _ hp => hp.2) he'

/-- The reach of an order does not depend on its quantities. -/
lemma Sweep.reaches (h : Sweep b x ms b' x') {e : Entry} : Reaches x' e ↔ Reaches x e := by
  rw [h.order]
  rfl

lemma Sweep.selfTrade (h : Sweep b x ms b' x') (e : Entry) :
    b'.selfTrade x' e = b.selfTrade x e := by
  rw [Book.selfTrade, Book.selfTrade, h.evolves.stp, h.order]
  rfl

/-- A self trade that a sweep meets was there before. -/
lemma Sweep.selfTrade_source (h : Sweep b x ms b' x') {id : OrderId} {e' : Entry}
    (he' : b'.orders.lookup id = some e') (hr : Reaches x' e') (hst : b'.selfTrade x' e' = true) :
    ∃ id e, b.orders.lookup id = some e ∧ Reaches x e ∧ b.selfTrade x e = true := by
  obtain ⟨e, he, hs, hp, -, hc⟩ := h.entry he'
  rw [h.reaches] at hr
  rw [h.selfTrade] at hst
  refine ⟨id, e, he, ⟨hs ▸ hr.1, hp ▸ hr.2⟩, ?_⟩
  rw [Book.selfTrade, ← hc]
  exact hst

/-- An order is stopped only by an order of its account. -/
lemma matchLevel_cancelled {s : Side} {p : ℤ} {tr : List Trade} (hb : b.view.Sound)
    (hx : 0 ≤ x.leaves) (hs : s = x.side.opposite) (hacc : acceptable x p = true)
    {r : MatchResult} (h : (matchLevel b x s p tr).Returns r) (hc : r.cancelled = true) :
    ∃ id e, b.orders.lookup id = some e ∧ Reaches x e ∧ b.selfTrade x e = true := by
  let Q : MatchState → MatchResult → Prop := fun m r => LevelInv b x tr s p m →
    r.cancelled = true → ∃ id e, b.orders.lookup id = some e ∧ Reaches x e ∧ b.selfTrade x e = true
  refine Comp.Returns.of_loop (Q := Q) (fun m m' r hround hrest hinv => ?_)
    (fun m r hround hinv hc => ?_) h ?_ hc
  · exact hrest ((matchLevelRound_spec hb hs hacc hinv).of_returns hround).1
  · obtain ⟨sw, hsw, -⟩ := hinv.sweep
    -- the result is a stop only after a self trade
    cases matchLevelRound_cases hround with
    | leave => exact absurd hc (by simp)
    | stop _ htodo hme hst =>
      obtain ⟨-, rfl, rfl⟩ := hinv.entry_head hb htodo hme
      exact hsw.selfTrade_source hme (hsw.reaches.2 ⟨hs, hacc⟩) hst
  · exact ⟨⟨[], .refl b hx, by simp, by simp⟩, fun _ => id, hb.nodup s p,
      fun _ id hid hno => absurd hid hno, fun hc => hc.but s p⟩

lemma matchOver_cancelled {ps : List ℤ} {tr : List Trade} (hb : b.view.Sound) (hx : 0 ≤ x.leaves)
    {r : MatchResult} (h : (matchOver x.side.opposite ps b x tr).Returns r)
    (hc : r.cancelled = true) :
    ∃ id e, b.orders.lookup id = some e ∧ Reaches x e ∧ b.selfTrade x e = true := by
  induction ps generalizing b x tr with
  | nil =>
    obtain rfl := Comp.returns_pure.1 h
    exact absurd hc (by simp)
  | cons p ps ih =>
    rw [matchOver] at h
    split_ifs at h with h1 h2 h3
    · obtain rfl := Comp.returns_pure.1 h
      exact absurd hc (by simp)
    · exact ih hb hx h
    · obtain rfl := Comp.returns_pure.1 h
      exact absurd hc (by simp)
    · obtain ⟨r₁, hr₁, h⟩ := Comp.returns_bind.1 h
      have hacc : acceptable x p = true := by simpa using h3
      by_cases hc₁ : r₁.cancelled = true
      · exact matchLevel_cancelled hb hx rfl hacc hr₁ hc₁
      · rw [if_neg hc₁] at h
        obtain ⟨sw, hsw, -⟩ := (matchLevel_spec hb hx rfl hacc tr).of_returns hr₁
        rw [← hsw.side_eq] at h
        obtain ⟨id, e, he, hr, hst⟩ := ih (hsw.evolves.sound hb) hsw.leaves h
        exact hsw.selfTrade_source he hr hst

lemma matchOrder_cancelled {tr : List Trade} (hb : b.view.Sound) (hx : 0 ≤ x.leaves)
    {r : MatchResult} (h : (b.matchOrder x tr).Returns r) (hun : b.Unopposed x) :
    r.cancelled = false := by
  by_contra hc
  rw [Bool.not_eq_false] at hc
  obtain ⟨-, -, -, -, hstp, -⟩ := (matchOrder_spec hb hx tr).of_returns h
  rcases hun with hun | hun
  · exact absurd (hstp hc) (by simp [hun])
  · have hex : ∃ id e, b.orders.lookup id = some e ∧ Reaches x e ∧ b.selfTrade x e = true := by
      unfold matchOrder at h
      dsimp only at h
      split_ifs at h
      · obtain rfl := Comp.returns_pure.1 h
        exact absurd hc (by simp)
      · exact matchOver_cancelled hb hx h hc
    obtain ⟨id, e, he, hr, hst⟩ := hex
    have hkey : id ∈ b.orders.keys := AList.mem_keys.1 (Map.mem_iff_lookup.2 ⟨e, he⟩)
    exact absurd (hun id hkey e he hr) (by simp [hst])

/-! ### What is left -/

/-- One mutation fills one order. -/
lemma sum_filled_le (m : Mut) (hq : ∀ t ∈ m.trade?, 0 ≤ t.qty) {ids : List OrderId}
    (hnd : ids.Nodup) : (ids.map fun id => m.filled id).sum ≤ volume m.trade?.toList := by
  cases m with
  | fill o me q rank =>
    have hq : 0 ≤ q := hq _ rfl
    have hcount : ids.count me.order.id ≤ 1 := List.nodup_iff_count_le_one.1 hnd _
    have hsum : (ids.map fun id => (Mut.fill o me q rank).filled id).sum
        = ids.count me.order.id * q := by
      have := List.sum_map_ite_eq ids (fun _ => q) (fun _ => (0 : ℤ)) me.order.id
      simpa [Mut.filled, eq_comm] using this
    rw [hsum]
    simp only [Mut.trade?, Option.toList_some, volume_singleton]
    exact mul_le_of_le_one_left hq (by exact_mod_cast hcount)
  | cross t d =>
    have := hq _ rfl
    simpa [Mut.filled, Mut.trade?] using this
  | _ => simp [Mut.filled, Mut.trade?]

/-- What a run fills of a set of orders is part of its executions. -/
lemma sum_filled_le_volume {v v' : View} (h : View.Run v ms v') {ids : List OrderId}
    (hnd : ids.Nodup) :
    (ids.map fun id => (ms.map (Mut.filled id)).sum).sum ≤ volume (Mut.trades ms) := by
  have hpos : ∀ t ∈ Mut.trades ms, 0 ≤ t.qty := fun t ht => h.trade_nonneg ht
  clear h
  induction ms with
  | nil => simp [Mut.trades]
  | cons m ms ih =>
    have hone := sum_filled_le m (fun t ht => hpos t ?_) hnd
    · have hrest := ih fun t ht =>
        hpos t (by rw [Mut.trades_cons]; exact List.mem_append_right _ ht)
      rw [Mut.trades_cons, volume_append]
      simp only [List.map_cons, List.sum_cons, List.sum_map_add]
      omega
    · rw [Mut.trades_cons]
      exact List.mem_append_left _ (Option.mem_toList.2 ht)

/-- An order that has met everything it could fill against has taken the firm quantity. -/
lemma firmFill_le_volume (h : Sweep b x ms b' x') (hb : b.view.Sound)
    (hex : Exhausted b' x') : b.firmFill x ≤ volume (Mut.trades ms) := by
  have hwin : ∀ m ∈ ms, ¬ m.Windowed := by
    intro m hm hw
    obtain ⟨p, -, hp⟩ := h.aggressed m hm
    cases m <;> first | exact hp | exact hw
  have hfirm : ∀ id e, b.orders.lookup id = some e → b.Firm x e →
      e.order.leaves = (ms.map (Mut.filled id)).sum := by
    rintro id e he ⟨hreach, haon, hself⟩
    have hrem : ∀ e', Mut.remove e' ∈ ms → e'.order.id ≠ id := by
      rintro e' he' rfl
      obtain ⟨p, -, hres, hcl, hown, -⟩ := h.aggressed _ he'
      obtain ⟨done, w, hsub, hrun, hok⟩ := h.evolves.run.ok_of_mem he'
      obtain ⟨e₀, he₀, -, -, -, hc⟩ := hrun.entry_of_aggressed
        (fun m hm => (h.aggressed m (hsub m hm)).imp fun _ hp => hp.2) hok
      obtain rfl := Option.some.inj (he₀.symm.trans he)
      have hstp : b.stp ≠ .none := fun hnone => by simp [hnone, StpPolicy.cancelsResting] at hres
      simp [selfTrade, hstp, hcl, ← hc, hown] at hself
    have hacc := h.evolves.run.leaves_eq hb hwin hrem
    have hrested : (ms.map (Mut.rested id)).sum = 0 := by
      refine List.sum_eq_zero fun n hn => ?_
      obtain ⟨m, hm, rfl⟩ := List.mem_map.1 hn
      obtain ⟨p, -, hp⟩ := h.aggressed m hm
      cases m <;> first | exact hp.elim | rfl
    -- nothing is left of it, since only all-or-none orders are
    have hgone : b'.view.entry id = none := by
      by_contra hne
      obtain ⟨e', he'⟩ := Option.ne_none_iff_exists'.1 hne
      obtain ⟨e₀, he₀, hs, hp, hfl, -⟩ := h.entry he'
      obtain rfl := Option.some.inj (he₀.symm.trans he)
      obtain ⟨hside, hacc'⟩ := h.reaches.2 (⟨hs ▸ hreach.1, hp ▸ hreach.2⟩ : Reaches x e')
      have hmem := ((h.evolves.sound hb).mem_queue _ _ id).2 ⟨e', he', hside, rfl⟩
      obtain ⟨e'', he'', haon', -⟩ := hex _ hacc' id hmem
      obtain rfl := Option.some.inj (he''.symm.trans he')
      rw [hfl, haon] at haon'
      exact absurd haon' (by simp)
    have hleaves : b.view.leaves id = e.order.leaves := View.leaves_of_entry he
    have hnone : b'.view.leaves id = 0 := by rw [View.leaves, hgone]
    omega
  calc b.firmFill x
      = (b.orders.pairs.map fun k => if b.Firm x k.2 then k.2.order.leaves else 0).sum := by
        rw [firmFill, Map.sumBy, Map.values, List.map_map]
        rfl
    _ ≤ (b.orders.pairs.map fun k => (ms.map (Mut.filled k.1)).sum).sum := by
        refine List.sum_le_sum fun k hk => ?_
        have he := Map.mem_pairs.1 (show (k.1, k.2) ∈ b.orders.pairs from hk)
        split_ifs with hf
        · exact (hfirm k.1 k.2 he hf).le
        · exact h.evolves.run.filled_nonneg k.1
    _ = (b.orders.keys.map fun id => (ms.map (Mut.filled id)).sum).sum := by
        rw [← Map.map_fst_pairs, List.map_map]
        rfl
    _ ≤ volume (Mut.trades ms) := sum_filled_le_volume h.evolves.run b.orders.keys_nodup

/-- What an order takes while it is matched: all of it, or at least the firm quantity. -/
lemma matchOrder_takes (hb : b.view.Sound) (hx : 0 ≤ x.leaves)
    (hun : b.Unopposed x) {r : MatchResult} (h : (b.matchOrder x []).Returns r) :
    min x.leaves (b.firmFill x) ≤ takerQty x.id r.trades ∧ takerQty x.id r.trades ≤ x.leaves := by
  obtain ⟨ms, hsw, htr, -, -, hleft⟩ := (matchOrder_spec hb hx []).of_returns h
  have hqty : takerQty x.id r.trades = volume (Mut.trades ms) := by
    rw [htr, List.nil_append, hsw.takerQty_eq]
  have hrest : r.order.leaves = x.leaves - volume (Mut.trades ms) := by rw [hsw.order]; rfl
  have hpos := hsw.leaves
  rcases hleft (matchOrder_cancelled hb hx h hun) with h0 | hex
  · omega
  · have := firmFill_le_volume hsw hb hex
    omega

end Sweep

/-! ### Promises -/

/-- The admission of the order `x` rests on firm quantity: the walk over the totals finds too
little, or what it asks for is firm.  An order that asks for a minimum does not rest instead. -/
structure Sure (b : Book) (x : Order) : Prop where
  unopposed : b.Unopposed x
  whole : x.flags.aon = true → b.availableFill x < x.leaves ∨ x.leaves ≤ b.firmFill x
  least : 0 < x.minQty → b.availableFill x < x.minQty ∨ x.minQty ≤ b.firmFill x
  taken : 0 < x.minQty → x.flags.aon = true → discards x = false → x.leaves ≤ b.availableFill x

/-- What the order `x` was promised: an all-or-none order takes nothing or everything,
everything if it is immediate and accepted, and an accepted order takes its minimum. -/
structure Kept (x : Order) (out : SubmitOutcome) : Prop where
  whole : x.flags.aon = true →
    takerQty x.id out.trades = 0 ∨ takerQty x.id out.trades = x.leaves
  immediate : x.flags.aon = true → x.tif = .ioc → out.accepted = true →
    takerQty x.id out.trades = x.leaves
  least : 0 < x.minQty → out.accepted = true → x.minQty ≤ takerQty x.id out.trades

/-- The order as it is matched: normalised, stamped, and capped if it is reduce-only. -/
def entering (b : Book) (o : Order) : Order :=
  if (b.stamp o).flags.reduceOnly = true then
    capReduceOnly (b.stamp o) (b.reduceOnlyCapacity (b.stamp o))
  else b.stamp o

section Promise

variable {b : Book} {x : Order}

lemma kept_reject (x : Order) (reason : String) : Kept x (reject x.id reason) :=
  ⟨fun _ => .inl rfl, fun _ _ h => absurd h (by simp [reject]),
    fun _ h => absurd h (by simp [reject])⟩

lemma availableFill_le (b : Book) (hx : 0 ≤ x.leaves) : b.availableFill x ≤ x.leaves := by
  unfold availableFill
  split_ifs
  · exact hx
  · exact min_le_right _ _

/-! ### The book that is asked -/

/-- The quantity that could fill depends on the levels only. -/
lemma availableFill_congr {b' : Book} (hbase : ∀ s, (b'.ladder s).hasBase = (b.ladder s).hasBase)
    (hout : ∀ s, (b'.ladder s).outward = (b.ladder s).outward)
    (hlevel : ∀ s p, b'.level s p = b.level s p) (x : Order) :
    b'.availableFill x = b.availableFill x := by
  have hover : ∀ ps avail, availableOver b' x ps avail = availableOver b x ps avail := by
    intro ps
    induction ps with
    | nil => exact fun _ => rfl
    | cons p ps ih =>
      intro avail
      simp only [availableOver, hlevel, ih]
  rw [availableFill, availableFill, hbase, hout, hover]

/-- Looking at the best price changes nothing that the checks look at. -/
lemma crosses_asks (b : Book) (o x : Order) :
    (b.crosses o).1.availableFill x = b.availableFill x ∧
      (b.crosses o).1.reduceOnlyCapacity x = b.reduceOnlyCapacity x ∧
      (b.crosses o).1.orders = b.orders ∧ (b.crosses o).1.stp = b.stp := by
  have hframe : (b.crosses o).1.frame = b.frame := by simp [crosses]
  have hbest : ∀ {s : Side} (L : Ladder s), L.best.1.hasBase = L.hasBase ∧
      L.best.1.outward = L.outward := by
    intro s L
    unfold Ladder.best
    (repeat' split) <;> cases s <;> exact ⟨rfl, rfl⟩
  refine ⟨availableFill_congr (fun s => ?_) (fun s => ?_) (fun s p => ?_) x, ?_,
    by simp [crosses], congrArg (fun f => f.settings.stp) hframe⟩
  · by_cases hs : s = o.side.opposite
    · subst hs
      simp only [crosses, ladder_setLadder]
      exact (hbest _).1
    · simp only [crosses, ladder_setLadder_ne hs]
  · by_cases hs : s = o.side.opposite
    · subst hs
      simp only [crosses, ladder_setLadder]
      exact (hbest _).2
    · simp only [crosses, ladder_setLadder_ne hs]
  · simp only [level, crosses]
    exact level_setLadder_of_eq (Ladder.level_best (b.ladder o.side.opposite)) s p
  · simp [reduceOnlyCapacity, crosses]

lemma Sure.congr {b' : Book} (h : b.Sure x) (havail : b'.availableFill x = b.availableFill x)
    (horders : b'.orders = b.orders) (hstp : b'.stp = b.stp) : b'.Sure x := by
  have hself : ∀ e, b'.selfTrade x e = b.selfTrade x e := fun e => by
    rw [selfTrade, selfTrade, hstp]
  have hfirm : b'.firmFill x = b.firmFill x := by
    rw [firmFill, firmFill, horders]
    refine congrArg (Map.sumBy · b.orders) (funext fun e => if_congr ?_ rfl rfl)
    rw [Firm, Firm, hself]
  refine ⟨?_, by rw [havail, hfirm]; exact h.whole, by rw [havail, hfirm]; exact h.least,
    by rw [havail]; exact h.taken⟩
  simpa only [Unopposed, hstp, horders, hself] using h.unopposed

/-- The checks on the quantity ask the same in the book that a plain order is matched in. -/
lemma Sure.looked {o : Order} (h : b.Sure x) : (b.looked o).Sure x := by
  have htick : b.ticked.availableFill x = b.availableFill x :=
    availableFill_congr (fun s => by cases s <;> rfl) (fun s => by cases s <;> rfl)
      (fun s p => by cases s <;> rfl) x
  have hlook : (b.looked o).availableFill x = b.ticked.availableFill x := by
    unfold Book.looked
    split_ifs
    · exact (b.ticked.crosses_asks (b.stamp o) x).1
    · rfl
  obtain ⟨hf, ho⟩ := looked_keeps b o
  exact h.congr (hlook.trans htick) ho (congrArg (fun f : Frame => f.settings.stp) hf)

/-- An order for continuous trading is matched as it enters. -/
lemma Sized.eq_entering {o : Order} (h : b.Sized o x) : x = b.entering o := by
  have hcap : (b.looked o).reduceOnlyCapacity (b.stamp o) = b.reduceOnlyCapacity (b.stamp o) := by
    unfold reduceOnlyCapacity
    rw [(quiet_looked b o).1.positions]
  unfold entering
  rcases h.order with ⟨hro, rfl⟩ | ⟨hro, -, -, rfl⟩
  · rw [hro, if_neg (by simp)]
  · rw [if_pos hro, hcap]

/-- An all-or-none order that cannot be filled takes nothing. -/
lemma submitAon_kept {o : Order} (hx : x.flags.aon = true)
    (ha : (b.looked o).availableFill x < x.leaves) (hs : b.Sure x) :
    Kept x ((b.looked o).submitAon x).2 := by
  unfold submitAon
  split_ifs with hd
  · exact kept_reject x _
  · refine ⟨fun _ => .inl rfl, fun _ hioc => absurd ?_ hd, fun hm _ => absurd ha ?_⟩
    · simp [discards, hioc]
    · exact not_lt.2 (hs.looked.taken hm hx (by simpa using hd))

/-- An order that is matched takes what it was promised. -/
lemma execute_kept {o : Order} (hs : Fit ⟨b, [⟨o, .submitted⟩], {}⟩) (h : b.Sized o x)
    (hx : (x.flags.aon = true → x.leaves ≤ (b.looked o).availableFill x) ∧
      (0 < x.minQty → x.minQty ≤ (b.looked o).availableFill x)) (hsure : b.Sure x)
    {r : Book × SubmitOutcome}
    (hr : (execute (fun x => x.1.submit x.2) (b.looked o) x).Returns r) : Kept x r.2 := by
  obtain ⟨hres, -⟩ := h.ready hs
  have hv : (b.looked o).view.Sound := (quiet_looked b o).1.view ▸ hs.sound
  have hle := (b.looked o).availableFill_le hres.1.le
  have hid : x.id = o.id := Order.id_eq_of_traits h.traits
  obtain ⟨m, k, hm, -, hlead⟩ := execute_turn hr
  -- whatever follows its turn is executed by others
  have hqty : takerQty x.id r.2.trades = takerQty x.id m.trades := by
    obtain ⟨hfit, ho⟩ := hs.after_turn (.meet trivial (.matched h hx) hm)
      ((frame_afterMeet hm).trans (looked_keeps b o).1)
    exact hlead.takerQty_eq hfit (hid ▸ ho)
  obtain ⟨hlow, hup⟩ := matchOrder_takes hv hres.1.le hsure.looked.unopposed hm
  have hwhole : x.flags.aon = true → takerQty x.id r.2.trades = x.leaves := by
    intro haon
    rcases hsure.looked.whole haon with hlt | hfirm
    · exact absurd (hx.1 haon) (not_le.2 hlt)
    · rw [hqty]
      omega
  refine ⟨fun haon => .inr (hwhole haon), fun haon _ _ => hwhole haon, fun hmin _ => ?_⟩
  rcases hsure.looked.least hmin with hlt | hfirm
  · exact absurd (hx.2 hmin) (not_le.2 hlt)
  · have havail := hx.2 hmin
    rw [hqty]
    omega

end Promise

end Book

/-! ### Histories -/

/-- The order is for continuous trading. -/
structure Order.Continuous (o : Order) : Prop where
  trigger : o.trigger = none
  peg : o.peg = none
  link : o.link = none
  opening : isOpeningAuction o.flags = false
  closing : isClosingAuction o.flags = false

/-- What a submitted order was promised.  Its quantity is that with which it is matched. -/
structure Book.KeepsPromise (b : Book) (o : Order) (out : SubmitOutcome) : Prop where
  whole : o.flags.aon = true ∨ o.tif = .fok →
    takerQty o.id out.trades = 0 ∨ takerQty o.id out.trades = (b.entering o).leaves
  fillOrKill : o.tif = .fok → out.accepted = true →
    takerQty o.id out.trades = (b.entering o).leaves
  least : 0 < o.minQty → out.accepted = true → o.minQty ≤ takerQty o.id out.trades

namespace Book

variable {b : Book} {o : Order}

/-- What the book makes of an order before it matches it. -/
lemma entering_keeps (b : Book) (o : Order) :
    (b.entering o).id = o.id ∧ (b.entering o).minQty = o.minQty ∧
      (o.flags.aon = true ∨ o.tif = .fok → (b.entering o).flags.aon = true) ∧
      (o.tif = .fok → (b.entering o).tif = .ioc) := by
  have hstamp : (b.stamp o).id = o.id ∧ (b.stamp o).minQty = o.minQty ∧
      (o.flags.aon = true ∨ o.tif = .fok → (b.stamp o).flags.aon = true) ∧
      (o.tif = .fok → (b.stamp o).tif = .ioc) := by
    unfold stamp Order.normalize Order.normalizeTif
    dsimp only
    cases ht : o.tif <;> (dsimp only; split_ifs <;> simp [ht])
  have hcap : ∀ k, (capReduceOnly (b.stamp o) k).minQty = (b.stamp o).minQty := by
    intro k
    unfold capReduceOnly
    split_ifs <;> rfl
  unfold entering
  split_ifs
  · obtain ⟨hid, -, -, hflags, -, -, -, -, -, htif⟩ :=
      capReduceOnly_keeps (b.stamp o) (b.reduceOnlyCapacity (b.stamp o))
    rw [hid, hcap, hflags, htif]
    exact hstamp
  · exact hstamp

/-- A submission to continuous trading keeps its promise. -/
theorem submit_keepsPromise (hb : WF b) (hnew : ¬ Live b o.id) (hd : 0 ≤ o.displayQty)
    (hc : o.Continuous) (hs : b.Sure (b.entering o)) :
    (b.submit o).Ensures fun r => b.KeepsPromise o r.2 := by
  obtain ⟨r, hret, -⟩ := submit_step hb hnew hd
  refine ⟨r, hret, ?_⟩
  obtain ⟨hid, hmin, haon, hfok⟩ := entering_keeps b o
  suffices hk : Kept (b.entering o) r.2 by
    refine ⟨fun h => ?_, fun h hacc => ?_, fun hm hacc => ?_⟩
    · exact hid ▸ hk.whole (haon h)
    · exact hid ▸ hk.immediate (haon (.inr h)) (hfok h) hacc
    · exact hmin ▸ hid ▸ hk.least (hmin.symm ▸ hm) hacc
  have hrej : ∀ reason, Kept (b.entering o) (reject (b.stamp o).id reason) := by
    intro reason
    have hid' : (b.entering o).id = (b.stamp o).id := hid.trans (stamp_keeps b o).1.symm
    exact hid' ▸ kept_reject _ _
  have hfit := hb.fit_submit hnew hd
  obtain ⟨a, hadm, h⟩ := submit_admits hret
  cases hadm with
  | refused reason | declined _ reason =>
    obtain rfl := Comp.returns_pure.1 h
    exact hrej reason
  | opening _ hx => exact absurd hx (by simp [hc.opening])
  | closing _ hx => exact absurd hx (by simp [hc.closing])
  | held _ hx =>
    have hchild := (isChild_stamp b o).symm.trans (holdChild_spec hx).1
    simp [isChild, hc.link] at hchild
  | aon hx haon ha =>
    obtain rfl := Comp.returns_pure.1 h
    obtain rfl := hx.eq_entering
    exact submitAon_kept haon ha hs
  | peg _ _ hp => exact absurd hp (by simp [hc.peg])
  | stop _ hx => exact absurd hx (by simp [awaitsTrigger, hc.trigger])
  | matched hx havail =>
    obtain rfl := hx.eq_entering
    exact execute_kept hfit hx havail hs h

end Book

namespace History

variable {C : Record → Instruction → Prop} {memLevels : ℕ} {stp : StpPolicy} {symbol : Symbol}
  {eventSink : Bool} {r : Record}

/-- Along every history a submission to continuous trading, which returns, keeps its promise if
its admission rests on firm quantity. -/
theorem promise_of_history (h : History C (Book.empty memLevels stp symbol eventSink) r) {o : Order}
    (hc : o.Continuous) (hq : (Instruction.submit o).Allowed r)
    (hs : r.book.Sure (r.book.entering o)) :
    (r.book.submit o).Ensures fun x => r.book.KeepsPromise o x.2 := by
  refine Book.submit_keepsPromise h.sane.wf (fun hl => hq.1 ?_) hq.2 hc hs
  exact h.sane.live o.id hl

/-- A history: a fill-or-kill order for seven passes over an all-or-none order for ten and takes
three and four of the others. -/
theorem promise_of_history_passes : ∃ (r : Record) (o : Order),
    History (fun _ _ => True) (Book.empty 0 .none "ABC" true) r ∧ o.Continuous ∧ o.tif = .fok ∧
      (Instruction.submit o).Allowed r ∧ r.book.Sure (r.book.entering o) ∧
      (r.book.submit o).Ensures fun x => r.book.KeepsPromise o x.2 := by
  let qs : List Instruction := [
    .submit { id := 1, side := .sell, qty := 3, price := 110 },
    .submit { id := 2, side := .sell, qty := 10, price := 111, flags.aon := true },
    .submit { id := 3, side := .sell, qty := 4, price := 111 }]
  let o : Order := { id := 4, qty := 7, price := 111, tif := .fok }
  obtain ⟨r, hist, hq, hstp, hmin, hfirm⟩ : ∃ r, History (fun _ _ => True)
      (Book.empty 0 .none "ABC" true) r ∧ (Instruction.submit o).Allowed r ∧
        r.book.stp.cancelsAggressor = false ∧ (r.book.entering o).minQty = 0 ∧
        (r.book.entering o).leaves ≤ r.book.firmFill (r.book.entering o) :=
    exists_of_replay 8 qs (by decide +kernel)
  have hc : o.Continuous := ⟨rfl, rfl, rfl, rfl, rfl⟩
  have hs : r.book.Sure (r.book.entering o) :=
    ⟨.inl hstp, fun _ => .inr hfirm, fun hm => absurd hm (by omega),
      fun hm => absurd hm (by omega)⟩
  exact ⟨r, o, hist, hc, rfl, hq, hs, promise_of_history hist hc hq hs⟩

/-- The book offers three, and ten as all or none.  An all-or-none order for five, a
fill-or-kill order for five and an order with a minimum of five are admitted and take three. -/
theorem promise_broken : ∃ (r : Record) (o o' o'' : Order) (x x' x'' : Book × SubmitOutcome),
    History (fun _ _ => True) (Book.empty 0 .none "ABC" true) r ∧
      (o.Continuous ∧ (Instruction.submit o).Allowed r ∧ (r.book.submit o).Returns x ∧
        o.flags.aon = true ∧ (r.book.entering o).leaves = 5 ∧ takerQty o.id x.2.trades = 3 ∧
        ¬ r.book.KeepsPromise o x.2) ∧
      (o'.Continuous ∧ (Instruction.submit o').Allowed r ∧ (r.book.submit o').Returns x' ∧
        o'.tif = .fok ∧ x'.2.accepted = true ∧ takerQty o'.id x'.2.trades = 3 ∧
        ¬ r.book.KeepsPromise o' x'.2) ∧
      (o''.Continuous ∧ (Instruction.submit o'').Allowed r ∧ (r.book.submit o'').Returns x'' ∧
        o''.minQty = 5 ∧ x''.2.accepted = true ∧ takerQty o''.id x''.2.trades = 3 ∧
        ¬ r.book.KeepsPromise o'' x''.2) := by
  let qs : List Instruction := [
    .submit { id := 1, side := .sell, qty := 3, price := 110 },
    .submit { id := 2, side := .sell, qty := 10, price := 110, flags.aon := true }]
  let o : Order := { id := 3, qty := 5, price := 110, flags.aon := true }
  let o' : Order := { id := 3, qty := 5, price := 110, tif := .fok }
  let o'' : Order := { id := 3, qty := 8, price := 110, minQty := 5 }
  obtain ⟨r, hist, ⟨hq, x, hrun, hl, ht⟩, ⟨hq', x', hrun', hl', ha', ht'⟩, hq'', x'', hrun'', ha'',
      ht''⟩ : ∃ r, History (fun _ _ => True) (Book.empty 0 .none "ABC" true) r ∧
    ((Instruction.submit o).Allowed r ∧ ∃ x ∈ (r.book.submit o).run 8,
      (r.book.entering o).leaves = 5 ∧ takerQty o.id x.2.trades = 3) ∧
    ((Instruction.submit o').Allowed r ∧ ∃ x ∈ (r.book.submit o').run 8,
      (r.book.entering o').leaves = 5 ∧ x.2.accepted = true ∧ takerQty o'.id x.2.trades = 3) ∧
    (Instruction.submit o'').Allowed r ∧ ∃ x ∈ (r.book.submit o'').run 8,
      x.2.accepted = true ∧ takerQty o''.id x.2.trades = 3 :=
    exists_of_replay 8 qs (by decide +kernel)
  refine ⟨r, o, o', o'', x, x', x'', hist, ⟨⟨rfl, rfl, rfl, rfl, rfl⟩, hq,
    ⟨8, hrun⟩, rfl, hl, ht, fun hk => ?_⟩, ⟨⟨rfl, rfl, rfl, rfl, rfl⟩, hq', ⟨8, hrun'⟩, rfl,
    ha', ht', fun hk => ?_⟩, ⟨rfl, rfl, rfl, rfl, rfl⟩, hq'', ⟨8, hrun''⟩, rfl, ha'', ht'',
    fun hk => ?_⟩
  · have := hk.whole (.inl rfl)
    omega
  · have := hk.fillOrKill rfl ha'
    omega
  · have := hk.least (by decide) ha''
    rw [ht''] at this
    exact absurd this (by decide)

end History

end Codicis
