/-
Reduce-only orders.

A reduce-only order is capped when it is submitted, at the net position of its account less
what is reserved for the reduce-only orders that rest on its side.  The cap is not looked at
again, and it is not applied to stops, pegs and auction orders.  So the position can be
gone when a resting reduce-only order is filled, if another order of the account has
reduced it.

When no account works with reduce-only and other orders on the same side at the same time,
and its reduce-only orders enter by submission alone, the position of an account covers its
resting reduce-only orders at every moment (`Moment.Covered`), and every execution of a
reduce-only order shrinks it.
-/
import Codicis.Core.Direct
import Codicis.Core.Reservations

namespace Codicis

namespace Order

/-- An order of the account on the side is reduce-only as `β` says. -/
def Uniform (β : Bool) (c : ClientId) (s : Side) (x : Order) : Prop :=
  x.clientId = c → x.side = s → x.flags.reduceOnly = β

/-- A reduce-only order enters by submission alone. -/
def Capped (x : Order) : Prop := x.Direct ReduceOnly ∧ (x.ReduceOnly → x.peg = none)

lemma reduceOnly_traits (o : Order) : o.traits.flags.reduceOnly = o.flags.reduceOnly := by
  unfold traits
  cases o.tif <;> rfl

lemma reduceOnly_of_traits {x y : Order} (h : x.traits = y.traits) :
    x.flags.reduceOnly = y.flags.reduceOnly := by
  rw [← reduceOnly_traits, h, reduceOnly_traits]

lemma kind_reduceOnly : Kind ReduceOnly where
  traits x y h := by rw [ReduceOnly, ReduceOnly, reduceOnly_of_traits h]
  clear _ := Iff.rfl

lemma stable_uniform (β : Bool) (c : ClientId) (s : Side) : Stable (Uniform β c s) where
  traits x y h hx hc hs := by
    have hcl : x.traits.clientId = y.traits.clientId := by rw [h]
    have hsd : x.traits.side = y.traits.side := by rw [h]
    rw [← reduceOnly_of_traits h]
    exact hx (hcl.trans hc) (hsd.trans hs)
  clear x hx := hx

lemma stable_capped : Stable Capped where
  traits x y h hx := by
    refine ⟨(stable_direct kind_reduceOnly).traits x y h hx.1, fun hy => ?_⟩
    have hpeg : x.traits.peg = y.traits.peg := by rw [h]
    exact hpeg.symm.trans (hx.2 ((kind_reduceOnly.traits x y h).2 hy))
  clear x hx := ⟨(stable_direct kind_reduceOnly).clear x hx.1, hx.2⟩

lemma named_congr {x y : Order} (h : y.traits = x.traits) (hx : x.ReduceOnly → x.clientId ≠ 0)
    (hr : y.ReduceOnly) : y.clientId ≠ 0 := by
  have hc : y.traits.clientId = x.traits.clientId := by rw [h]
  exact fun h₀ => hx ((kind_reduceOnly.traits y x h).1 hr) (hc.symm.trans h₀)

end Order

/-! ### Covered positions -/

/-- Nothing is to reduce when no order of the account on the side is reduce-only. -/
lemma Book.roLeaves_eq_zero {b : Book} {c : ClientId} {s : Side}
    (h : b.Keeps (Order.Uniform false c s)) : b.roLeaves c s = 0 := by
  refine Map.sumBy_eq_zero fun id e he => if_neg ?_
  rintro ⟨hr, hc, hs⟩
  have := h.resting id e he hc hs
  rw [Order.ReduceOnly, this] at hr
  exact absurd hr (by simp)

/-- What is known of a reduce-only order by its place: it has an account when it has entered and
when it rests, and it neither waits for a trigger or an auction nor comes from there. -/
def Roles.capped : Roles where
  of
    | .submitted, x => x.Capped
    | .entered, x => x.ReduceOnly → x.clientId ≠ 0
    | .triggered, x | .auctioned, x => ¬ x.ReduceOnly
  resting x := x.ReduceOnly → x.clientId ≠ 0
  traits r x y h _ hx := by
    cases r with
    | submitted => exact Order.stable_capped.traits x y h.symm hx
    | entered => exact Order.named_congr h hx
    | triggered | auctioned => exact fun hy => hx ((Order.kind_reduceOnly.traits y x h).1 hy)
  traits_resting h := Order.named_congr h
  enter hadm _ hr := (hadm.reduceOnly hr).1
  queue hx h := h.1.not_of_auction hx
  park hx h := h.1.not_of_awaitsTrigger hx
  clear h := h
  rest r x _ hd h hr := by
    cases r with
    | submitted =>
      obtain ⟨hpeg, -⟩ := hd.resolve_left fun h => h.2 rfl
      exact absurd hpeg (by simp [h.2 hr])
    | entered => exact h hr
    | triggered | auctioned => exact absurd hr h

/-- The positions cover what the resting reduce-only orders, and the one whose turn it is,
may still execute. -/
structure Moment.Balanced (m : Moment) : Prop where
  covered : ∀ c s, c ≠ 0 → 0 < m.book.roLeaves c s →
    m.book.roLeaves c s ≤ s.reducible (m.book.position c)
  turn : ∀ x, m.turn = some ⟨x, .entered⟩ → x.ReduceOnly →
    m.book.roLeaves x.clientId x.side + x.leaves ≤ x.side.reducible (m.book.position x.clientId)

/-- What holds inside an operation when an account does not work with reduce-only and other
orders on the same side. -/
structure Moment.Covered (m : Moment) : Prop where
  memLevels : m.book.memLevels = 0
  plays : m.Plays .capped
  /-- On a side, the orders of an account are all reduce-only, or none is. -/
  uniform : ∀ c s, c ≠ 0 → ∃ β, m.All (Order.Uniform β c s)
  exact : m.book.Exact
  balanced : m.Balanced

/-- Nothing changes for the accounts. -/
lemma Moment.Balanced.keep {m m' : Moment} (hm : m.Balanced)
    (hl : m'.book.roLeaves = m.book.roLeaves) (hp : m'.book.position = m.book.position)
    (ht : ∀ x, m'.turn = some ⟨x, .entered⟩ → m.turn = some ⟨x, .entered⟩) : m'.Balanced := by
  refine ⟨?_, fun x hx => ?_⟩
  · rw [hl, hp]
    exact hm.covered
  · rw [hl, hp]
    exact hm.turn x (ht x hx)

namespace Moment.Covered

open Book

variable {m m' : Moment} {ms : List Mut}

/-- An order that is not reduce-only leaves nothing to reduce on its side. -/
lemma roLeaves_eq_zero (hm : m.Covered) {x : Order} (hc : x.clientId ≠ 0) (hr : ¬ x.ReduceOnly)
    (hx : ∀ Q : Order → Prop, m.All Q → Q x) : m.book.roLeaves x.clientId x.side = 0 := by
  obtain ⟨β, hβ⟩ := hm.uniform x.clientId x.side hc
  have hxβ : x.flags.reduceOnly = β := hx _ hβ rfl rfl
  have hfalse : β = false := by
    cases β with
    | false => rfl
    | true => exact absurd hxβ hr
  exact Book.roLeaves_eq_zero (hfalse ▸ hβ.book)

/-- A resting reduce-only order is covered. -/
lemma maker (hm : m.Covered) (hs : m.book.view.Sound) {id : OrderId} {e : Entry}
    (he : m.book.view.entry id = some e) (hr : e.order.ReduceOnly) :
    0 < m.book.roLeaves e.order.clientId e.order.side ∧
      e.order.leaves ≤ e.order.side.reducible (m.book.position e.order.clientId) := by
  have hle := leaves_le_roLeaves hs he hr
  have hpos := (hs.entry_ok id e he).leaves_pos.trans_le hle
  exact ⟨hpos, hle.trans (hm.balanced.covered _ _ (hm.plays.resting id e he hr) hpos)⟩

/-- A reduce-only order that fills or rests has entered. -/
lemma entered (hm : m.Covered) {x : Order} {r : Route} (ht : m.turn = some ⟨x, r⟩)
    (hr : x.ReduceOnly) (hs : r ≠ .submitted) : r = .entered := by
  have hx := hm.plays.turn _ ht
  cases r with
  | submitted => exact absurd rfl hs
  | entered => rfl
  | triggered | auctioned => exact absurd hr hx

/-- A resting order leaves. -/
lemma balanced_remove (hm : m.Covered) (hs : m.book.view.Sound) {e : Entry}
    (hrun : View.Run m.book.view [.remove e] m'.book.view)
    (hpos : m'.book.positions = (m.book.releaseReserved e.order e.order.leaves).positions)
    (ht : m'.turn = m.turn) : m'.Balanced := by
  have hp : m'.book.position = m.book.position := by
    rw [position_congr hpos, position_releaseReserved]
  have hle : ∀ c s, m'.book.roLeaves c s ≤ m.book.roLeaves c s := by
    intro c s
    have := roWeight_nonneg hs c s _ e hrun.of_single.1
    rw [roLeaves_remove hrun]
    omega
  refine ⟨fun c s hc h0 => ?_, fun x hx hr => ?_⟩
  · rw [hp]
    exact (hle c s).trans (hm.balanced.covered c s hc (h0.trans_le (hle c s)))
  · have hturn := hm.balanced.turn x (ht ▸ hx) hr
    have := hle x.clientId x.side
    rw [hp]
    omega

/-- An order comes to rest. -/
lemma balanced_rest (hm : m.Covered) {x : Order}
    (hrun : View.Run m.book.view [.rest ⟨x, sliceOf x⟩] m'.book.view)
    (hpos : m'.book.positions = (m.book.reserveResting x).positions) (ht : m'.turn = none)
    (hx : x.ReduceOnly → m.turn = some ⟨x, .entered⟩) : m'.Balanced := by
  have hlv := roLeaves_rest hrun
  have hp : m'.book.position = m.book.position := by
    rw [position_congr hpos, position_reserveResting]
  refine ⟨fun c s hc h0 => ?_, fun a ha => by simp [ht] at ha⟩
  rw [hlv, roWeight] at h0 ⊢
  rw [hp]
  by_cases h : x.ReduceOnly ∧ x.clientId = c ∧ x.side = s
  · obtain ⟨h1, rfl, rfl⟩ := h
    rw [if_pos ⟨h1, rfl, rfl⟩]
    exact hm.balanced.turn x (hx h1) h1
  · rw [if_neg (show ¬ (x.ReduceOnly ∧ x.clientId = c ∧ x.side = s) from h), Int.add_zero] at h0 ⊢
    exact hm.balanced.covered c s hc h0

/-- The order whose turn it is fills. -/
lemma balanced_fill (hm : m.Covered) (hs : m.book.view.Sound) {x : Order} {r : Route} {me : Entry}
    {q : ℤ} {rank : ℕ} (hturn : m.turn = some ⟨x, r⟩) (hsub : r ≠ .submitted)
    (hrun : View.Run m.book.view [.fill x me q rank] m'.book.view)
    (hpos : m'.book.positions = (((m.book.applyPosition x.clientId x.side q).applyPosition
      me.order.clientId me.order.side q).releaseReserved me.order q).positions)
    (ht : m'.turn = some ⟨takeFill x q, r⟩) : m'.Balanced := by
  obtain ⟨⟨he, hq, hqe, hql, hside, -⟩, -⟩ := hrun.of_single
  have hlv := roLeaves_fill hrun
  have hp : ∀ c, m'.book.position c = m.book.position c
      + (if c = x.clientId ∧ x.clientId ≠ 0 then x.side.signed q else 0)
      + if c = me.order.clientId ∧ me.order.clientId ≠ 0
        then x.side.opposite.signed q else 0 := by
    intro c
    rw [position_congr hpos, position_releaseReserved, position_applyPosition,
      position_applyPosition, hside]
  -- the maker is on the other side
  have hsame : ∀ c, m'.book.roLeaves c x.side = m.book.roLeaves c x.side := by
    intro c
    rw [hlv, if_neg, Int.sub_zero]
    rintro ⟨-, -, h⟩
    rw [hside] at h
    exact absurd h (by simp)
  refine ⟨fun c s hc h0 => ?_, fun x' hx' hr => ?_⟩
  · rw [hp, Side.reducible_trade]
    by_cases hss : s = x.side
    · subst hss
      rw [hsame] at h0 ⊢
      have hcov := hm.balanced.covered c _ hc h0
      by_cases hca : c = x.clientId
      · -- the account of the taker: a reduce-only order was covered with its leaves
        have hro : x.ReduceOnly := by
          by_contra hro
          have := hm.roLeaves_eq_zero (hca ▸ hc) hro fun Q hQ => hQ.turn _ hturn
          rw [hca, this] at h0
          exact absurd h0 (by omega)
        have := hm.balanced.turn x (hm.entered hturn hro hsub ▸ hturn) hro
        subst hca
        simp only [if_true]
        split_ifs <;> omega
      · simp only [hca, false_and, if_false, if_true]
        split_ifs <;> omega
    · simp only [hss, if_false]
      by_cases hcm : c = me.order.clientId ∧ s = me.order.side
      · -- the account of the maker, on its side
        obtain ⟨rfl, rfl⟩ := hcm
        have hro : me.order.ReduceOnly := by
          by_contra hro
          have := hm.roLeaves_eq_zero hc hro fun Q hQ => hQ.book.resting _ me he
          rw [hlv, this, if_neg fun h => hro h.1] at h0
          exact absurd h0 (by omega)
        have := hm.balanced.covered _ _ hc (hm.maker hs he hro).1
        rw [hlv, if_pos ⟨hro, rfl, rfl⟩]
        split_ifs <;> omega
      · have hss' : s = me.order.side := by
          rw [hside]
          cases s <;> cases hx : x.side <;> simp_all [Side.opposite]
        have hcm' : ¬ c = me.order.clientId := fun h => hcm ⟨h, hss'⟩
        have hl : m'.book.roLeaves c s = m.book.roLeaves c s := by
          rw [hlv, if_neg fun h => hcm' h.2.1.symm, Int.sub_zero]
        rw [hl] at h0 ⊢
        have := hm.balanced.covered c s hc h0
        simp only [hcm', false_and, if_false]
        split_ifs <;> omega
  · obtain ⟨rfl, rfl⟩ := Active.mk.inj (Option.some.inj (ht.symm.trans hx'))
    have hcov := hm.balanced.turn x hturn hr
    show m'.book.roLeaves x.clientId x.side + (x.leaves - q) ≤
      x.side.reducible (m'.book.position x.clientId)
    rw [hsame, hp, Side.reducible_trade]
    simp only [if_true]
    split_ifs <;> omega

/-- Two orders of an auction trade. -/
lemma balanced_cross (hm : m.Covered) {x y : Order} {q : ℤ} (hq : 0 ≤ q)
    (hx : ⟨x, .auctioned⟩ ∈ m.hand) (hy : ⟨y, .auctioned⟩ ∈ m.hand) (hxs : x.side = .buy)
    (hys : y.side = .sell) (hv : m'.book.roLeaves = m.book.roLeaves)
    (hpos : m'.book.positions
      = ((m.book.applyPosition x.clientId .buy q).applyPosition y.clientId .sell q).positions)
    (ht : m'.turn = none) : m'.Balanced := by
  have hp : ∀ c, m'.book.position c = m.book.position c
      + (if c = x.clientId ∧ x.clientId ≠ 0 then Side.buy.signed q else 0)
      + if c = y.clientId ∧ y.clientId ≠ 0 then Side.buy.opposite.signed q else 0 := by
    intro c
    rw [position_congr hpos, position_applyPosition, position_applyPosition]
    rfl
  refine ⟨fun c s hc h0 => ?_, fun a ha => by simp [ht] at ha⟩
  rw [hv] at h0 ⊢
  have hcov := hm.balanced.covered c s hc h0
  -- neither account has anything to reduce on the side of its order
  have hno : ∀ z : Order, ⟨z, .auctioned⟩ ∈ m.hand → ¬ (c = z.clientId ∧ s = z.side) := by
    rintro z hz ⟨rfl, rfl⟩
    have := hm.roLeaves_eq_zero hc (hm.plays.hand _ hz) fun Q hQ => hQ.hand _ hz
    exact absurd h0 (by rw [this]; omega)
  rw [hp, Side.reducible_trade]
  have hnx := hno x hx
  have hny := hno y hy
  rw [hxs] at hnx
  rw [hys] at hny
  cases s with
  | buy =>
    have hcx : ¬ c = x.clientId := fun h => hnx ⟨h, rfl⟩
    simp only [hcx, false_and, if_false, if_true]
    split_ifs <;> omega
  | sell =>
    have hcy : ¬ c = y.clientId := fun h => hny ⟨h, rfl⟩
    simp only [hcy, false_and, if_false, reduceCtorEq]
    split_ifs <;> omega

/-- The accounts stay balanced. -/
lemma balanced_beat (hm : m.Covered) (h : Beat m ms m') (hs : m.book.view.Sound) :
    m'.Balanced := by
  have hbal := hm.balanced
  cases h with
  | wane hq hseq hw =>
    exact hbal.keep (roLeaves_congr hq.view) (position_congr hq.positions) fun _ h => h
  | hold ha hx =>
    have hq := (holdChild_spec hx).2.1
    exact hbal.keep (roLeaves_congr hq.view) (position_congr hq.positions) (by simp)
  | @enter b hand x hadm =>
    refine ⟨hbal.covered, fun x' hx' hr => ?_⟩
    obtain ⟨rfl, -⟩ := Active.mk.inj (Option.some.inj hx')
    -- the cap leaves room for what is reserved
    obtain ⟨hc, hcap⟩ := hadm.reduceOnly hr
    rw [reduceOnlyCapacity_eq] at hcap
    have hres := hm.exact x.clientId x.side hc
    dsimp only at hres ⊢
    omega
  | fill rest hr hl he hside hacc hst haon hev hf =>
    exact hm.balanced_fill hs rfl hr hev.run (positions_fillMaker _ _ _ _ _ _) rfl
  | prevent he hst hr hev hf =>
    exact hm.balanced_remove hs hev.run (positions_stpRemove _ _ _ _) rfl
  | @rest b hand x r tail ev hl hd hn hnew htail hev hf =>
    have hrun := hev.run
    rw [htail.eq_rest hm.memLevels hev] at hrun
    refine hm.balanced_rest hrun (positions_rest hm.memLevels x ev) rfl fun hr => ?_
    rcases hd with ⟨-, hsub, -⟩ | ⟨hpeg, rfl⟩
    · rw [hm.entered rfl hr hsub]
    · have hnone : x.peg = none := (hm.plays.turn _ rfl).2 hr
      exact absurd hpeg (by simp [hnone])
  | fire hx hn hev =>
    exact hbal.keep (roLeaves_congr hev.run.of_single.2) (position_congr (by simp [emitEvent]))
      (by simp)
  | @cross b hand queue bi si p q d hbi hsi hbs hss hq hqx hqy hev hf =>
    exact hm.balanced_cross hq (List.mem_append_left _ (List.mem_map_of_mem (queued_mem hbi)))
      (List.mem_append_left _ (List.mem_map_of_mem (queued_mem hsi))) hbs hss
      (roLeaves_congr hev.run.of_single.2) (positions_applyPosition_congr
        (positions_applyPosition_congr (by simp [emitTrade]) _ _ _) _ _ _) rfl
  | move hid he hp hne hev hf =>
    exact hbal.keep (funext fun c => funext fun s => roLeaves_move hev.run c s)
      (position_congr (positions_movePegged _ _ _)) (by simp)
  | remove he hev hf => exact hm.balanced_remove hs hev.run (positions_removeResting _ _) rfl
  | _ => exact hbal.keep rfl rfl (by simp)

/-- Every beat keeps the positions covered. -/
lemma beat (hm : m.Covered) (h : Beat m ms m') (hs : m.book.view.Sound) : m'.Covered where
  memLevels := h.evolves.memLevels.trans hm.memLevels
  plays := h.plays hm.plays
  uniform c s hc := by
    obtain ⟨β, hβ⟩ := hm.uniform c s hc
    exact ⟨β, h.all (Order.stable_uniform β c s) hβ⟩
  exact := h.exact hs hm.memLevels hm.exact
  balanced := hm.balanced_beat h hs

end Moment.Covered

/-! ### Executions -/

/-- Settling the executions one after another, the account of a reduce-only order holds, just
before each execution of the order, a position on the other side of at least the quantity. -/
def Shrinking (os : List Order) : (ClientId → ℤ) → List Trade → Prop
  | _, [] => True
  | net, t :: ts =>
    (∀ o ∈ os, o.ReduceOnly → o.id = t.takerId ∨ o.id = t.makerId →
      t.qty ≤ o.side.reducible (net o.clientId)) ∧ Shrinking os (settle os net t) ts

instance decidableShrinking (os : List Order) :
    ∀ net ts, Decidable (Shrinking os net ts)
  | _, [] => inferInstanceAs (Decidable True)
  | net, t :: ts =>
    haveI := decidableShrinking os (settle os net t) ts
    inferInstanceAs (Decidable (_ ∧ _))

lemma shrinking_append {os : List Order} {ts ts' : List Trade} (net : ClientId → ℤ) :
    Shrinking os net (ts ++ ts') ↔
      Shrinking os net ts ∧ Shrinking os (ts.foldl (settle os) net) ts' := by
  induction ts generalizing net with
  | nil => simp [Shrinking]
  | cons t ts ih => simp only [List.cons_append, Shrinking, List.foldl_cons, ih, and_assoc]

/-- The executions between two moments shrink the positions of the reduce-only orders. -/
def Reduces (os : List Order) (m : Moment) (ms : List Mut) (m' : Moment) : Prop :=
  Shrinking os m.book.position (Mut.trades ms) ∧ Settles os m ms m'

lemma composes_reduces (os : List Order) : Composes (Reduces os) where
  nil m := ⟨trivial, (composes_settles os).nil m⟩
  append h h' := by
    refine ⟨?_, (composes_settles os).append h.2 h'.2⟩
    rw [Mut.trades_append, shrinking_append, ← h.2]
    exact ⟨h.1, h'.1⟩

open Book in
lemma Moment.Covered.reduces {m m' : Moment} {ms : List Mut} (hm : m.Covered) (h : Beat m ms m')
    (hs : m.book.view.Sound) {os : List Order} (hn : (os.map Order.id).Nodup)
    (ha : m.All (Order.Among os)) : Reduces os m ms m' := by
  refine ⟨?_, h.settles hm.memLevels hn ha⟩
  -- what is true of a working order is true of the submitted one
  have hfrom : ∀ x : Order, x.Among os → ∀ o ∈ os, o.id = x.id → o.ReduceOnly →
      x.ReduceOnly ∧ o.side = x.side ∧ o.clientId = x.clientId := by
    intro x hx o ho hid hr
    have hnat := hx.of_id hn ho hid
    have hro : x.nature.flags.reduceOnly = o.nature.flags.reduceOnly := by rw [hnat]
    have hsd : x.nature.side = o.nature.side := by rw [hnat]
    have hcl : x.nature.clientId = o.nature.clientId := by rw [hnat]
    have hro' : x.flags.reduceOnly = o.flags.reduceOnly :=
      x.reduceOnly_traits.symm.trans (hro.trans o.reduceOnly_traits)
    exact ⟨hro'.trans hr, hsd.symm, hcl.symm⟩
  cases hts : Mut.trades ms with
  | nil => trivial
  | cons t ts =>
    have hrun := h.run
    rcases h.trade_cases (t := t) (by rw [hts]; simp) with
      ⟨⟨x, r⟩, me, q, rank, hturn, hsub, rfl, rfl⟩ | ⟨x, y, p, q, d, hx, hy, rfl, rfl⟩
    · obtain rfl : ts = [] := (List.cons.inj hts).2.symm
      obtain ⟨⟨he, hq, hqe, hql, -, -⟩, -⟩ := hrun.of_single
      refine ⟨fun o ho hr hid => ?_, trivial⟩
      rcases hid with hid | hid
      · obtain ⟨hr', hsd, hcl⟩ := hfrom x (ha.turn _ hturn) o ho hid hr
        have hcov := hm.balanced.turn x (hm.entered hturn hr' hsub ▸ hturn) hr'
        have hnn := roLeaves_nonneg hs x.clientId x.side
        rw [hsd, hcl]
        dsimp only at hql ⊢
        omega
      · obtain ⟨hr', hsd, hcl⟩ := hfrom me.order (ha.book.resting _ me he) o ho hid hr
        rw [hsd, hcl]
        exact hqe.trans ((hs.entry_ok _ me he).exposed_le.trans (hm.maker hs he hr').2)
    · obtain rfl : ts = [] := (List.cons.inj hts).2.symm
      refine ⟨fun o ho hr hid => ?_, trivial⟩
      rcases hid with hid | hid
      · exact absurd (hfrom x (ha.hand _ hx) o ho hid hr).1 (hm.plays.hand _ hx)
      · exact absurd (hfrom y (ha.hand _ hy) o ho hid hr).1 (hm.plays.hand _ hy)

/-! ### Histories -/

/-- The orders that the book works with. -/
def Book.working (b : Book) : List Order := b.orders.values.map (·.order) ++ b.frame.waiting

lemma Book.keeps_of_working {b : Book} {Q : Order → Prop} (h : ∀ x ∈ b.working, Q x) :
    b.Keeps Q where
  resting id e he := h _ (List.mem_append_left _ (List.mem_map_of_mem (Map.mem_values.2 ⟨id, he⟩)))
  stops id x hx := h x (List.mem_append_right _ (List.mem_append_left _
    (List.mem_map.2 ⟨(id, x), Map.mem_pairs.2 hx, rfl⟩)))
  opening x hx := h x (by simp [working, Frame.waiting, frame, hx])
  closing x hx := h x (by simp [working, Frame.waiting, frame, hx])
  held x hx := h x (by simp [working, Frame.waiting, hx])

/-- A reduce-only order enters by submission alone, an account does not mix reduce-only and
other orders on a side, and a position is not set below what is reserved. -/
def Instruction.Separate (r : Record) : Instruction → Prop
  | submit o => o.Capped ∧ (o.clientId ≠ 0 → ∀ x ∈ r.book.working,
      x.Uniform o.flags.reduceOnly o.clientId o.side)
  | seedPosition c net =>
    (0 < r.book.reserved c .sell → r.book.reserved c .sell ≤ net) ∧
      (0 < r.book.reserved c .buy → r.book.reserved c .buy ≤ -net)
  | _ => True

instance : DecidablePred Order.Capped := fun _ => inferInstanceAs (Decidable (_ ∧ _))

instance (β : Bool) (c : ClientId) (s : Side) : DecidablePred (Order.Uniform β c s) :=
  fun _ => inferInstanceAs (Decidable (_ → _ → _))

instance (r : Record) (q : Instruction) : Decidable (q.Separate r) :=
  match q with
  | .submit _ => inferInstanceAs (Decidable (_ ∧ _))
  | .seedPosition _ _ => inferInstanceAs (Decidable (_ ∧ _))
  | .cancel _ | .expire _ | .runOpeningAuction | .runClosingAuction =>
    inferInstanceAs (Decidable True)

lemma Instruction.Separate.capped {r : Record} {q : Instruction} (h : q.Separate r) :
    ∀ o ∈ q.orders, o.Capped := by
  cases q with
  | submit o =>
    intro x hx
    obtain rfl := List.mem_singleton.1 hx
    exact h.1
  | _ => simp [Instruction.orders]

namespace Moment.Covered

lemma empty (stp : StpPolicy) (symbol : Symbol) (eventSink : Bool) :
    Covered ⟨Book.empty 0 stp symbol eventSink, none, []⟩ where
  memLevels := rfl
  plays := .empty _ _ _ _ _
  uniform c s _ := ⟨true, Book.keeps_empty _ _ _ _ _, by simp, by simp⟩
  exact c s _ := by cases s <;> rfl
  balanced := by
    have h0 : ∀ c s, (Book.empty 0 stp symbol eventSink).roLeaves c s = 0 := fun _ _ => rfl
    exact ⟨fun c s _ hpos => absurd hpos (by simp [h0]), by simp⟩

lemma seedPosition {r : Record} {c : ClientId} {net : ℤ} (hm : Covered ⟨r.book, none, []⟩)
    (h : Instruction.Separate r (.seedPosition c net)) :
    Covered ⟨r.book.seedPosition c net, none, []⟩ := by
  obtain ⟨hview, hframe, -⟩ := r.book.seedPosition_keeps c net
  have hl := Book.roLeaves_congr hview
  refine ⟨?_, hm.plays.seedPosition c net, fun c' s hc => ?_, hm.exact.seedPosition c net,
    fun c' s hc h0 => ?_, by simp⟩
  · exact (congrArg (fun f => f.settings.memLevels) hframe).trans hm.memLevels
  · obtain ⟨β, hβ⟩ := hm.uniform c' s hc
    exact ⟨β, hβ.book.seedPosition c net, by simp, by simp⟩
  · dsimp only at h0 ⊢
    rw [hl] at h0 ⊢
    rw [Book.position_seedPosition]
    split_ifs with hcc
    · rw [← hm.exact c' s hc] at h0 ⊢
      obtain ⟨rfl, -⟩ := hcc
      cases s with
      | sell => exact h.1 h0
      | buy => exact h.2 h0
    · exact hm.balanced.covered c' s hc h0

lemma inHand {r : Record} {q : Instruction} (hm : Covered ⟨r.book, none, []⟩) (h : q.Separate r) :
    Covered ⟨r.book, none, q.inHand⟩ := by
  refine ⟨hm.memLevels, hm.plays.inHand h.capped, fun c s hc => ?_, hm.exact,
    hm.balanced.covered, by simp⟩
  obtain ⟨β, hβ⟩ := hm.uniform c s hc
  cases q with
  | submit o =>
    by_cases ho : o.clientId = c ∧ o.side = s
    · obtain ⟨rfl, rfl⟩ := ho
      refine ⟨o.flags.reduceOnly, Book.keeps_of_working (h.2 hc), by simp, fun a ha => ?_⟩
      obtain rfl := List.mem_singleton.1 ha
      exact fun _ _ => rfl
    · refine ⟨β, hβ.book, by simp, fun a ha hc' hs' => ?_⟩
      obtain rfl := List.mem_singleton.1 ha
      exact absurd ⟨hc', hs'⟩ ho
  | _ => exact ⟨β, hβ.book, by simp, fun a ha => absurd ha List.not_mem_nil⟩

end Moment.Covered

namespace History

variable {stp : StpPolicy} {symbol : Symbol} {eventSink : Bool} {r : Record}

lemma covered (h : History Instruction.Separate (Book.empty 0 stp symbol eventSink) r) :
    Moment.Covered ⟨r.book, none, []⟩ :=
  h.keeps_of_beats (.empty stp symbol eventSink) (fun _ _ _ hC hI => hI.seedPosition hC)
    (fun _ _ hC hI => hI.inHand hC) fun _ _ _ hb hs hI => hI.beat hb hs

/-- In every history of an unbounded book in which reduce-only orders enter by submission
alone, an account does not mix reduce-only and other orders on a side, and no position is set
below what is reserved, the next instruction returns, its executions account for the change of
the positions, and each execution of a reduce-only order finds a position of its account on
the other side of at least its quantity. -/
theorem shrinking_of_history (h : History Instruction.Separate
    (Book.empty 0 stp symbol eventSink) r)
    {q : Instruction} (hC : q.Separate r) (hq : q.Allowed r) : (q.run r.book).Ensures fun x =>
      Shrinking (q.orders ++ r.orders) r.book.position x.2 ∧
        (¬ q.Seeds → x.1.position = x.2.foldl (settle (q.orders ++ r.orders)) r.book.position) := by
  obtain ⟨b', ts, hret⟩ := h.sane.returns hq
  refine ⟨(b', ts), hret, ?_⟩
  rcases h.sane.cases hq hret with ⟨c, net, rfl, rfl, rfl⟩ | ⟨hs, -⟩
  · exact ⟨trivial, fun h => absurd trivial h⟩
  · have hn := (h.sane.next hq hret).nodup
    obtain ⟨-, -, ms, hr, rfl⟩ := h.sane.advance (composes_reduces _) hs hq (h.covered.inHand hC)
      (fun m ms m' hb hs ha hI => ⟨hI.beat hb hs, hI.reduces hb hs hn ha⟩) hret
    exact ⟨hr.1, fun _ => hr.2⟩

/-- A history: an account that is long five rests a reduce-only order for three of them, and
a buy order takes two. -/
theorem shrinking_of_history_resting :
    ∃ (r : Record) (q : Instruction) (b' : Book) (ts : List Trade),
    History Instruction.Separate (Book.empty 0 .none "ABC" true) r ∧
      (q.run r.book).Returns (b', ts) ∧ ts = [⟨2, 1, .buy, 110, 2⟩] ∧ b'.position 1 = 3 ∧
      Shrinking (q.orders ++ r.orders) r.book.position ts := by
  let sell : Order :=
    { id := 1, clientId := 1, side := .sell, qty := 3, price := 110, flags.reduceOnly := true }
  let qs : List Instruction := [.seedPosition 1 5, .submit sell]
  let q : Instruction := .submit { id := 2, clientId := 2, qty := 2, price := 110 }
  obtain ⟨r, ⟨b', ts⟩, hist, hret, hC, hq, hts, hpos⟩ : ∃ r x, History Instruction.Separate
      (Book.empty 0 .none "ABC" true) r ∧ (q.run r.book).Returns x ∧ q.Separate r ∧ q.Allowed r ∧
        x.2 = [⟨2, 1, .buy, 110, 2⟩] ∧ x.1.position 1 = 3 :=
    exists_of_run 8 qs (by decide +kernel)
  exact ⟨r, q, b', ts, hist, hret, hts, hpos,
    ((shrinking_of_history hist hC hq).of_returns hret).1⟩

/-- An account that is long five rests a reduce-only sell order for them, sells the five by
another order, and is then short five when the first one fills. -/
theorem reduceOnly_flips : ∃ (r : Record) (q : Instruction) (b' : Book) (ts : List Trade),
    History (fun _ _ => True) (Book.empty 0 .none "ABC" true) r ∧ q.Allowed r ∧
      (q.run r.book).Returns (b', ts) ∧ r.book.position 1 = 0 ∧ b'.position 1 = -5 ∧
      ¬ Shrinking (q.orders ++ r.orders) r.book.position ts := by
  let sell : Order :=
    { id := 1, clientId := 1, side := .sell, qty := 5, price := 110, flags.reduceOnly := true }
  let qs : List Instruction := [.seedPosition 1 5, .submit sell,
    .submit { id := 2, clientId := 2, qty := 5, price := 100 },
    .submit { id := 3, clientId := 1, side := .sell, qty := 5, price := 100 }]
  let q : Instruction := .submit { id := 4, clientId := 2, qty := 5, price := 110 }
  obtain ⟨r, ⟨b', ts⟩, hist, hret, hq, hpos⟩ : ∃ r x, History (fun _ _ => True)
      (Book.empty 0 .none "ABC" true) r ∧ (q.run r.book).Returns x ∧ q.Allowed r ∧
        r.book.position 1 = 0 ∧ x.1.position 1 = -5 ∧
        ¬ Shrinking (q.orders ++ r.orders) r.book.position x.2 :=
    exists_of_run 8 qs (by decide +kernel)
  exact ⟨r, q, b', ts, hist, hq, hret, hpos⟩

end History

end Codicis
