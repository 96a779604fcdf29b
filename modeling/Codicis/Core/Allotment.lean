/-
The executions of an auction.

The allocation loop serves the buys and the sells that may trade at the clearing price against each
other, in the order of their priority (`allocate_pour`).  So the whole volume of the clearing price
executes, nobody gets more than they asked for, and nobody gets anything before everybody who ranks
before them has got all (`auctionPhase_optimal`, `auctionPhase_allotted`).
-/
import Codicis.Lib.Pour
import Codicis.Core.Account

namespace Codicis

open Book

namespace Book

/-! ### The lists of those who may trade -/

section Ranked

variable {prio : Order → Order → Bool} {may : Order → Bool} {side : Side} {queue : List Order}

/-- The positions of the orders of a side that may trade, by priority. -/
def ranked (prio : Order → Order → Bool) (may : Order → Bool) (side : Side) (queue : List Order) :
    List ℕ :=
  (priorityList prio queue side).takeWhile fun i => may (queued queue i)

/-- The ids and quantities of the orders at some positions. -/
def shares (queue : List Order) (l : List ℕ) : List (OrderId × ℤ) :=
  l.map fun i => ((queued queue i).id, (queued queue i).leaves)

/-- A priority that may be sorted by, and that no order that may not trade comes ahead in. -/
structure Ranks (prio : Order → Order → Bool) (may : Order → Bool) : Prop where
  total : ∀ x y, prio x y = true ∨ prio y x = true
  trans : ∀ x y z, prio x y = true → prio y z = true → prio x z = true
  may_of : ∀ x y, prio x y = true → may y = true → may x = true

lemma ranks_buy (p : ℤ) : Ranks buyPriority (mayBuy p) :=
  ⟨buyPriority_total, fun _ _ _ => buyPriority_trans, fun _ _ => mayBuy_of_priority⟩

lemma ranks_sell (p : ℤ) : Ranks sellPriority (maySell p) where
  total x y := by simpa only [sellPriority_eq] using buyPriority_total _ _
  trans x y z hxy hyz := by
    rw [sellPriority_eq] at *
    exact buyPriority_trans hxy hyz
  may_of x y hxy hy := by
    rw [maySell_eq] at *
    exact mayBuy_of_priority (sellPriority_eq x y ▸ hxy) hy

/-- In a sorted list those who pass a test that is inherited by who comes ahead are a first part. -/
lemma takeWhile_eq_filter {α : Type*} {r : α → α → Prop} {p : α → Bool} {l : List α}
    (hs : l.Pairwise r) (hp : ∀ a c, r a c → p c = true → p a = true) :
    l.takeWhile p = l.filter p := by
  induction l with
  | nil => rfl
  | cons a l ih =>
    obtain ⟨ha, hs⟩ := List.pairwise_cons.1 hs
    by_cases hpa : p a = true
    · rw [List.takeWhile_cons_of_pos hpa, List.filter_cons_of_pos hpa, ih hs]
    · have hnone : l.filter p = [] :=
        List.filter_eq_nil_iff.2 fun c hc hpc => hpa (hp a c (ha c hc) hpc)
      rw [List.takeWhile_cons_of_neg hpa, List.filter_cons_of_neg hpa, hnone]

lemma Ranks.sorted (h : Ranks prio may) (queue : List Order) (side : Side) :
    (priorityList prio queue side).Pairwise
      fun i j => prio (queued queue i) (queued queue j) = true := by
  have : Std.Total fun i j => prio (queued queue i) (queued queue j) = true :=
    ⟨fun i j => h.total _ _⟩
  have : IsTrans ℕ fun i j => prio (queued queue i) (queued queue j) = true :=
    ⟨fun i j k => h.trans _ _ _⟩
  exact List.pairwise_insertionSort _ _

lemma Ranks.ranked_eq_filter (h : Ranks prio may) (queue : List Order) (side : Side) :
    ranked prio may side queue
      = (priorityList prio queue side).filter fun i => may (queued queue i) :=
  takeWhile_eq_filter (h.sorted queue side) fun _ _ => h.may_of _ _

lemma Ranks.mem_ranked (h : Ranks prio may) {i : ℕ} : i ∈ ranked prio may side queue ↔
    i < queue.length ∧ (queued queue i).side = side ∧ may (queued queue i) = true := by
  rw [h.ranked_eq_filter, List.mem_filter, mem_priorityList, and_assoc]

lemma nodup_priorityList (prio : Order → Order → Bool) (queue : List Order) (side : Side) :
    (priorityList prio queue side).Nodup :=
  (List.perm_insertionSort _ _).nodup_iff.2 (List.nodup_range.filter _)

lemma nodup_ranked (prio : Order → Order → Bool) (may : Order → Bool) (side : Side)
    (queue : List Order) : (ranked prio may side queue).Nodup :=
  (nodup_priorityList prio queue side).sublist (List.takeWhile_sublist _)

/-- What those who may trade have is what the queue has for the price. -/
lemma Ranks.sum_shares (h : Ranks prio may) (queue : List Order) (side : Side) :
    ((shares queue (ranked prio may side queue)).map (·.2)).sum
      = ((queue.filter fun o => o.side = side && may o).map (·.leaves)).sum := by
  have hqueue : (List.range queue.length).map (queued queue) = queue := by
    refine List.ext_getElem (by simp) fun i hi hi' => ?_
    simp [queued, hi']
  have hperm : (ranked prio may side queue).Perm
      ((List.range queue.length).filter fun i => (queued queue i).side = side &&
        may (queued queue i)) := by
    rw [h.ranked_eq_filter]
    refine ((List.perm_insertionSort _ _).filter _).trans ?_
    rw [List.filter_filter]
    refine .of_eq (List.filter_congr fun i _ => ?_)
    rw [Bool.and_comm]
  have hmap : (shares queue (ranked prio may side queue)).map (·.2)
      = ((ranked prio may side queue).map (queued queue)).map (·.leaves) := by
    simp [shares, Function.comp_def]
  rw [hmap, ((hperm.map _).map _).sum_eq]
  conv_rhs => rw [← hqueue, List.filter_map]
  rfl

lemma Ranks.stocked (h : Ranks prio may) (hpos : ∀ o ∈ queue, 0 < o.leaves) :
    Stocked (shares queue (ranked prio may side queue)) := by
  intro a ha
  obtain ⟨i, hi, rfl⟩ := List.mem_map.1 ha
  exact hpos _ (queued_mem (h.mem_ranked.1 hi).1)

end Ranked

/-! ### The allocation loop -/

section Allocation

variable {may : Order → Bool} {queue queue' : List Order} {pstar : ℤ}

/-- The execution of a deal. -/
def tradeOf (pstar : ℤ) (d : Deal OrderId OrderId) : Trade := ⟨d.left, d.right, .buy, pstar, d.qty⟩

/-- The shares of those ahead in a list who may trade. -/
def front (may : Order → Bool) (queue : List Order) (l : List ℕ) : List (OrderId × ℤ) :=
  shares queue (l.takeWhile fun i => may (queued queue i))

lemma front_cons {j : ℕ} (h : may (queued queue j) = true) (l : List ℕ) :
    front may queue (j :: l)
      = ((queued queue j).id, (queued queue j).leaves) :: front may queue l := by
  rw [front, List.takeWhile_cons, if_pos h]
  rfl

lemma front_congr {l : List ℕ} (h : ∀ i ∈ l, queued queue' i = queued queue i) :
    front may queue' l = front may queue l := by
  induction l with
  | nil => rfl
  | cons i l ih =>
    have hi := h i List.mem_cons_self
    have htail := ih fun k hk => h k (List.mem_cons_of_mem _ hk)
    by_cases hm : may (queued queue i) = true
    · rw [front_cons hm, front_cons (hi ▸ hm), hi, htail]
    · simp [front, shares, hi, hm]

/-- After a deal the first one has spent its quantity. -/
lemma front_deal (hmay : ∀ o q, may (takeFill o q) = may o) {j : ℕ} {l : List ℕ} {q : ℤ}
    (hj : may (queued queue j) = true) (hnow : queued queue' j = takeFill (queued queue j) q)
    (hrest : ∀ i ∈ l, queued queue' i = queued queue i) :
    front may queue' (if (queued queue j).leaves - q = 0 then l else j :: l)
      = spend q (front may queue (j :: l)) := by
  rw [front_cons hj, spend_cons]
  split_ifs with h0
  · exact front_congr hrest
  · have hj' : may (queued queue' j) = true := by rw [hnow, hmay, hj]
    rw [front_cons hj', front_congr hrest, hnow]
    rfl

lemma queued_set_self {i : ℕ} (hi : i < queue.length) (o : Order) :
    queued (queue.set i o) i = o := by
  simp [queued, hi]

lemma queued_set_ne {i j : ℕ} (h : i ≠ j) (o : Order) :
    queued (queue.set i o) j = queued queue j := by
  simp [queued, List.getElem?_set_ne h]

/-- The allocation serves those ahead of the two lists against each other. -/
theorem allocate_pour (n : ℕ) (remaining : ℤ) (buys sells : List ℕ)
    (r : Book × List Order × List Trade) (hlen : buys.length + sells.length ≤ n ∨ remaining ≤ 0)
    (hnodup : (buys ++ sells).Nodup) (hlt : ∀ i ∈ buys ++ sells, i < r.2.1.length) :
    ∃ ds, Pour remaining (front (mayBuy pstar) r.2.1 buys) (front (maySell pstar) r.2.1 sells) ds ∧
      (allocate pstar n remaining buys sells r).2.2 = r.2.2 ++ ds.map (tradeOf pstar) := by
  revert hlen hnodup hlt
  refine allocate_induct (P := fun n remaining buys sells r r' =>
    (buys.length + sells.length ≤ n ∨ remaining ≤ 0) → (buys ++ sells).Nodup →
    (∀ i ∈ buys ++ sells, i < r.2.1.length) → ∃ ds, Pour remaining
      (front (mayBuy pstar) r.2.1 buys) (front (maySell pstar) r.2.1 sells) ds ∧
      r'.2.2 = r.2.2 ++ ds.map (tradeOf pstar)) ?_ ?_ n remaining buys sells r
  · intro n remaining buys sells r hstop hlen _ _
    refine ⟨[], .stop ?_, by simp⟩
    rcases hstop with rfl | hv | hb | hs
    · rcases hlen with hlen | hv
      · have hnil : buys = [] := List.length_eq_zero_iff.1 (by omega)
        exact .inr (.inl (by rw [hnil]; rfl))
      · exact .inl hv
    · exact .inl hv
    · exact .inr (.inl (by rw [front, hb]; rfl))
    · exact .inr (.inr (by rw [front, hs]; rfl))
  · intro n remaining bi buys si sells r r' q hq hv hx hy ih hlen hnodup hlt
    have hbi : bi < r.2.1.length := hlt bi (by simp)
    have hsi : si < r.2.1.length := hlt si (by simp)
    -- the positions are apart
    have hapart := List.nodup_append.1 hnodup
    obtain ⟨hbi_new, -⟩ := List.nodup_cons.1 hapart.1
    obtain ⟨hsi_new, -⟩ := List.nodup_cons.1 hapart.2.1
    have hne : bi ≠ si := hapart.2.2 bi List.mem_cons_self si List.mem_cons_self
    have hbuys : ∀ i ∈ buys, bi ≠ i ∧ si ≠ i := fun i hi =>
      ⟨fun heq => hbi_new (heq ▸ hi),
        fun heq => hapart.2.2 i (List.mem_cons_of_mem _ hi) si List.mem_cons_self heq.symm⟩
    have hsells : ∀ i ∈ sells, bi ≠ i ∧ si ≠ i := fun i hi =>
      ⟨fun heq => hapart.2.2 bi List.mem_cons_self i (List.mem_cons_of_mem _ hi) heq,
        fun heq => hsi_new (heq ▸ hi)⟩
    have hothers : ∀ i, bi ≠ i ∧ si ≠ i →
        queued (dealAt pstar bi si q r).2.1 i = queued r.2.1 i := fun i hi => by
      dsimp only [dealAt]
      rw [queued_set_ne hi.2, queued_set_ne hi.1]
    have hnowb : queued (dealAt pstar bi si q r).2.1 bi = takeFill (queued r.2.1 bi) q := by
      dsimp only [dealAt]
      rw [queued_set_ne hne.symm, queued_set_self hbi]
    have hnows : queued (dealAt pstar bi si q r).2.1 si = takeFill (queued r.2.1 si) q := by
      dsimp only [dealAt]
      rw [queued_set_self (by simpa using hsi)]
    have hfb := front_deal (fun _ _ => rfl) hx hnowb
      fun i hi => hothers i (hbuys i hi)
    have hfs := front_deal (fun _ _ => rfl) hy hnows
      fun i hi => hothers i (hsells i hi)
    have hsub := (sublist_ite_cons ((queued r.2.1 bi).leaves - q = 0) bi buys).append
      (sublist_ite_cons ((queued r.2.1 si).leaves - q = 0) si sells)
    -- a round uses up an order of one of the lists or the volume
    have hrounds : (if (queued r.2.1 bi).leaves - q = 0 then buys else bi :: buys).length
        + (if (queued r.2.1 si).leaves - q = 0 then sells else si :: sells).length ≤ n ∨
          remaining - q ≤ 0 := by
      have hb : (bi :: buys).length = buys.length + 1 := rfl
      have hs : (si :: sells).length = sells.length + 1 := rfl
      split_ifs <;> omega
    have hlength : (dealAt pstar bi si q r).2.1.length = r.2.1.length := by simp [dealAt]
    obtain ⟨ds, hds, htr⟩ := ih hrounds (hnodup.sublist hsub)
      fun i hi => hlength ▸ hlt i (hsub.subset hi)
    rw [hfb, hfs, front_cons hx, front_cons hy] at hds
    refine ⟨⟨(queued r.2.1 bi).id, (queued r.2.1 si).id, q⟩ :: ds, ?_, ?_⟩
    · rw [front_cons hx, front_cons hy]
      exact .deal hv hq hds
    · rw [htr]
      simp [dealAt, tradeOf]

end Allocation

/-! ### The auction phase -/

section Phase

variable {b : Book} {queue : List Order}

/-- The executions of the auction phase. -/
lemma auctionPhase_pour {c : Clearing} (h : b.clearing queue = some c) :
    ∃ ds, Pour c.volume (shares queue (ranked buyPriority (mayBuy c.price) .buy queue))
        (shares queue (ranked sellPriority (maySell c.price) .sell queue)) ds ∧
      (b.auctionPhase queue).2.2 = ds.map (tradeOf c.price) := by
  have hapart : (buyOrder queue ++ sellOrder queue).Nodup := by
    refine List.nodup_append.2 ⟨nodup_priorityList _ _ _, nodup_priorityList _ _ _, ?_⟩
    rintro i hi j hj rfl
    have hbuy := (mem_buyOrder hi).2
    rw [(mem_sellOrder hj).2] at hbuy
    exact absurd hbuy (by simp)
  obtain ⟨ds, hds, htr⟩ := allocate_pour
    ((buyOrder queue).length + (sellOrder queue).length) c.volume (buyOrder queue) (sellOrder queue)
    (b, queue, []) (.inl le_rfl) hapart fun i hi => (List.mem_append.1 hi).elim
      (fun hi => (mem_buyOrder hi).1) fun hi => (mem_sellOrder hi).1
  refine ⟨ds, hds, ?_⟩
  simpa [auctionPhase, h] using htr

lemma volume_tradeOf (p : ℤ) (ds : List (Deal OrderId OrderId)) :
    volume (ds.map (tradeOf p)) = Deal.volume ds := by
  simp [volume, Deal.volume, Function.comp_def, tradeOf]

/-- The whole volume of the clearing price executes. -/
lemma volume_auctionPhase (hpos : ∀ o ∈ queue, 0 < o.leaves) {c : Clearing}
    (h : b.clearing queue = some c) : volume (b.auctionPhase queue).2.2 = c.volume := by
  have hfair := fair_of_clearing h
  obtain ⟨ds, hds, htr⟩ := auctionPhase_pour h
  have hvol := hds.volume_eq hfair.volume_pos.le ((ranks_buy c.price).stocked hpos)
    ((ranks_sell c.price).stocked hpos)
  rw [(ranks_buy c.price).sum_shares, (ranks_sell c.price).sum_shares] at hvol
  rw [htr, volume_tradeOf, hvol]
  exact min_eq_left (le_min hfair.le_demand hfair.le_supply)

/-- The price `p` is the one that the auction chooses for the volume `v`. -/
structure ClearsAt (b : Book) (queue : List Order) (v p : ℤ) : Prop where
  limit : ∃ o ∈ queue, isMarket o = false ∧ o.price = p
  volume : volumeAt queue p = v
  preferred : ∀ o ∈ queue, isMarket o = false → volumeAt queue o.price = v →
    Preferred b queue p o.price

/-- The auction phase executes as much as can execute at any price, at the price of the limit prices
for it that has the smallest imbalance, is closest to the last trade price and is the lowest.  If
nothing can execute then nothing changes. -/
theorem auctionPhase_optimal (b : Book) {queue : List Order}
    (hlimit : ∃ o ∈ queue, isMarket o = false) (hpos : ∀ o ∈ queue, 0 < o.leaves) :
    let r := b.auctionPhase queue
    IsGreatest (Set.range (volumeAt queue)) (volume r.2.2) ∧
      (∃ p, (0 < volume r.2.2 → ClearsAt b queue (volume r.2.2) p) ∧ ∀ t ∈ r.2.2, t.price = p) ∧
      (volume r.2.2 = 0 → r = (b, queue, [])) := by
  intro r
  have hne : candidates queue ≠ [] := by
    obtain ⟨o, ho, hm⟩ := hlimit
    exact List.ne_nil_of_mem (mem_candidates.2 ⟨o, ho, hm, rfl⟩)
  have hbest := isBest_clearing (b := b) hne
  cases hc : b.clearing queue with
  | none =>
    rw [hc] at hbest
    have hr : r = (b, queue, []) := by simp [r, auctionPhase, hc]
    have hzero : volume r.2.2 = 0 := by simp [hr]
    obtain ⟨p, hp⟩ := List.exists_mem_of_ne_nil _ hne
    have hnonneg : ∀ sel : Order → Bool, 0 ≤ ((queue.filter sel).map (·.leaves)).sum := by
      intro sel
      have hsub : ∀ o, (fun _ => false : Order → Bool) o = true → sel o = true := by simp
      simpa using sum_filter_mono hpos hsub
    refine ⟨⟨⟨p, ?_⟩, ?_⟩, ⟨p, ?_, by simp [hr]⟩, fun _ => hr⟩
    · rw [hzero]
      exact le_antisymm (hbest p hp) (le_min (hnonneg _) (hnonneg _))
    · rintro v ⟨p', rfl⟩
      obtain ⟨c, hmem, hle⟩ := exists_candidate_volume_le hpos hne p'
      rw [hzero]
      exact hle.trans (hbest c hmem)
    · intro hlt
      omega
  | some c =>
    rw [hc] at hbest
    obtain ⟨hmem, heq, hvpos, hall⟩ := hbest
    have hvol : volume r.2.2 = c.volume := volume_auctionPhase hpos hc
    have hat : volumeAt queue c.price = c.volume := (congrArg Clearing.volume heq).symm
    obtain ⟨ds, -, htr⟩ := auctionPhase_pour hc
    have hle : ∀ p ∈ candidates queue, volumeAt queue p ≤ c.volume := by
      intro p hp
      rcases hall p hp with hlt | ⟨heq, -⟩
      · exact hlt.le
      · exact heq.le
    rw [hvol]
    refine ⟨⟨⟨c.price, hat⟩, ?_⟩, ⟨c.price, fun _ => ⟨?_, hat, ?_⟩, ?_⟩, fun h0 => by omega⟩
    · rintro v ⟨p', rfl⟩
      obtain ⟨p, hp, hpp⟩ := exists_candidate_volume_le hpos hne p'
      exact hpp.trans (hle p hp)
    · exact mem_candidates.1 hmem
    · intro o ho hm hv
      rcases hall o.price (mem_candidates.2 ⟨o, ho, hm, rfl⟩) with hlt | ⟨-, hpref⟩
      · omega
      · exact hpref
    · intro t ht
      rw [show r.2.2 = ds.map (tradeOf c.price) from htr] at ht
      obtain ⟨d, -, rfl⟩ := List.mem_map.1 ht
      rfl

/-- Two sells that trade with a market buy and a limit buy, at the lowest price that has the
volume. -/
theorem auctionPhase_optimal_nine : ∃ queue : List Order,
    ((∃ o ∈ queue, isMarket o = false) ∧ ∀ o ∈ queue, 0 < o.leaves) ∧
      (auctionPhase {} queue).2.2.map (fun t => (t.qty, t.price)) = [(4, 101), (2, 101), (3, 101)] ∧
      (let r := auctionPhase {} queue
      IsGreatest (Set.range (volumeAt queue)) (volume r.2.2) ∧
        (∃ p, (0 < volume r.2.2 → ClearsAt {} queue (volume r.2.2) p) ∧ ∀ t ∈ r.2.2, t.price = p) ∧
        (volume r.2.2 = 0 → r = ({}, queue, []))) := by
  let queue : List Order := [
    { id := 1, type := .market, qty := 4, leaves := 4, seq := 1 },
    { id := 2, price := 102, qty := 7, leaves := 7, seq := 2 },
    { id := 3, side := .sell, price := 100, qty := 6, leaves := 6, seq := 3 },
    { id := 4, side := .sell, price := 101, qty := 3, leaves := 3, seq := 4 }]
  have h : (∃ o ∈ queue, isMarket o = false) ∧ ∀ o ∈ queue, 0 < o.leaves := by decide
  exact ⟨queue, h, by decide +kernel, auctionPhase_optimal _ h.1 h.2⟩

/-! ### Limits and priority -/

/-- The order `x` comes before the order `y` of the same side: market orders first, then the better
price, then the earlier arrival. -/
def RanksBefore (x y : Order) : Prop :=
  (isMarket x = true ∧ isMarket y = false) ∨
    (isMarket x = true ∧ isMarket y = true ∧ x.seq < y.seq) ∨
    (isMarket x = false ∧ isMarket y = false ∧
      (Ladder.better x.side x.price y.price = true ∨ (x.price = y.price ∧ x.seq < y.seq)))

/-- The order may trade at the price. -/
def MayTrade (p : ℤ) (o : Order) : Prop :=
  isMarket o = true ∨
    match o.side with
    | .buy => p ≤ o.price
    | .sell => o.price ≤ p

/-- The orders of a side of the queue. -/
def ofSide (queue : List Order) (s : Side) : List Order := queue.filter (·.side = s)

/-- The executions `ts` respect the quantities, the limits and the priority of the orders of a
queue. -/
structure Allotted (queue : List Order) (ts : List Trade) : Prop where
  qty_pos : ∀ t ∈ ts, 0 < t.qty
  parties : ∀ t ∈ ts, ∃ x ∈ queue, ∃ y ∈ queue, x.side = .buy ∧ y.side = .sell ∧
    x.id = t.takerId ∧ y.id = t.makerId
  within : ∀ o ∈ queue, tradedQty ts o.id ≤ o.leaves
  limits : ∀ t ∈ ts, ∀ o ∈ queue, o.id = t.takerId ∨ o.id = t.makerId → MayTrade t.price o
  balanced : ((ofSide queue .buy).map fun o => tradedQty ts o.id).sum
    = ((ofSide queue .sell).map fun o => tradedQty ts o.id).sum
  priority : ∀ pre t post, ts = pre ++ t :: post → ∀ x ∈ queue, ∀ y ∈ queue, x.side = y.side →
    x.id = t.takerId ∨ x.id = t.makerId → MayTrade t.price y → RanksBefore y x →
    tradedQty pre y.id = y.leaves

lemma exists_queued {o : Order} (ho : o ∈ queue) : ∃ i < queue.length, queued queue i = o := by
  obtain ⟨i, hi, rfl⟩ := List.getElem_of_mem ho
  exact ⟨i, hi, by simp [queued, hi]⟩

lemma eq_of_id_eq (hids : (queue.map (·.id)).Nodup) {x y : Order} (hx : x ∈ queue) (hy : y ∈ queue)
    (h : x.id = y.id) : x = y := List.inj_on_of_nodup_map hids hx hy h

lemma queued_inj (hids : (queue.map (·.id)).Nodup) {i j : ℕ} (hi : i < queue.length)
    (hj : j < queue.length) (h : (queued queue i).id = (queued queue j).id) : i = j := by
  have hsame := eq_of_id_eq hids (queued_mem hi) (queued_mem hj) h
  rw [queued, queued, List.getD_eq_getElem _ _ hi, List.getD_eq_getElem _ _ hj] at hsame
  exact (List.Nodup.getElem_inj_iff (List.Nodup.of_map _ hids)).1 hsame

section OneSide

variable {prio : Order → Order → Bool} {may : Order → Bool} {side : Side} {v : ℤ}
  {ys : List (OrderId × ℤ)} {ds : List (Deal OrderId OrderId)}

/-- The ids of those who may trade are those of their orders. -/
lemma exists_of_name {id : OrderId}
    (hid : id ∈ (shares queue (ranked prio may side queue)).map (·.1)) :
    ∃ i ∈ ranked prio may side queue, (queued queue i).id = id := by
  obtain ⟨a, ha, rfl⟩ := List.mem_map.1 hid
  obtain ⟨i, hi, rfl⟩ := List.mem_map.1 ha
  exact ⟨i, hi, rfl⟩

lemma Ranks.nodup_names (hr : Ranks prio may) (hids : (queue.map (·.id)).Nodup) :
    ((shares queue (ranked prio may side queue)).map (·.1)).Nodup := by
  have hnames : (shares queue (ranked prio may side queue)).map (·.1)
      = (ranked prio may side queue).map fun i => (queued queue i).id := by
    simp [shares, Function.comp_def]
  rw [hnames]
  refine (nodup_ranked prio may side queue).map_on fun i hi j hj h => ?_
  exact queued_inj hids (hr.mem_ranked.1 hi).1 (hr.mem_ranked.1 hj).1 h

/-- A party to a deal is an order of the side that may trade. -/
lemma Ranks.party (hr : Ranks prio may)
    (h : Pour v (shares queue (ranked prio may side queue)) ys ds) {d : Deal OrderId OrderId}
    (hd : d ∈ ds) : ∃ x ∈ queue, x.side = side ∧ may x = true ∧ x.id = d.left := by
  obtain ⟨i, hi, hid⟩ := exists_of_name (h.left_mem d hd)
  obtain ⟨hlen, hside, hmay⟩ := hr.mem_ranked.1 hi
  exact ⟨_, queued_mem hlen, hside, hmay, hid⟩

/-- Nobody gets more than they asked for. -/
lemma Ranks.taken_le (hr : Ranks prio may) (hids : (queue.map (·.id)).Nodup)
    (hpos : ∀ o ∈ queue, 0 < o.leaves)
    (h : Pour v (shares queue (ranked prio may side queue)) ys ds) (hys : Stocked ys) {o : Order}
    (ho : o ∈ queue) : Deal.taken ds o.id ≤ o.leaves := by
  obtain ⟨i, hi, rfl⟩ := exists_queued ho
  by_cases hmem : i ∈ ranked prio may side queue
  · exact h.taken_le (hr.stocked hpos) hys (hr.nodup_names hids) (_, _)
      (List.mem_map.2 ⟨i, hmem, rfl⟩)
  · have hzero : Deal.taken ds (queued queue i).id = 0 := by
      refine Deal.taken_eq_zero fun d hd heq => hmem ?_
      obtain ⟨j, hj, hid⟩ := exists_of_name (h.left_mem d hd)
      rwa [← queued_inj hids (hr.mem_ranked.1 hj).1 hi (hid.trans heq)]
    rw [hzero]
    exact (hpos _ ho).le

/-- What the orders of the side get adds up to the deals. -/
lemma Ranks.sum_taken (hr : Ranks prio may) (hids : (queue.map (·.id)).Nodup)
    (h : Pour v (shares queue (ranked prio may side queue)) ys ds) :
    ((ofSide queue side).map fun o => Deal.taken ds o.id).sum = Deal.volume ds := by
  have hnodup : ((ofSide queue side).map (·.id)).Nodup :=
    hids.sublist (List.filter_sublist.map _)
  have hall : ∀ d ∈ ds, d.left ∈ (ofSide queue side).map (·.id) := by
    intro d hd
    obtain ⟨x, hx, hside, -, hid⟩ := hr.party h hd
    exact List.mem_map.2 ⟨x, List.mem_filter.2 ⟨hx, by simpa using hside⟩, hid⟩
  rw [← Deal.sum_taken hnodup hall, List.map_map]
  rfl

/-- Whoever comes before a party to a deal has got all. -/
lemma Ranks.served (hr : Ranks prio may) (hids : (queue.map (·.id)).Nodup)
    (h : Pour v (shares queue (ranked prio may side queue)) ys ds)
    {pre post : List (Deal OrderId OrderId)} {d : Deal OrderId OrderId}
    (hds : ds = pre ++ d :: post)
    {x y : Order} (hx : x ∈ queue) (hy : y ∈ queue) (hys : y.side = side) (hid : x.id = d.left)
    (hmay : may y = true) (hlate : prio x y = false) : Deal.taken pre y.id = y.leaves := by
  obtain ⟨i, hi, hdi⟩ := exists_of_name (h.left_mem d
    (hds ▸ List.mem_append_right _ List.mem_cons_self))
  obtain ⟨j, hj, rfl⟩ := exists_queued hy
  have hxi : queued queue i = x :=
    eq_of_id_eq hids (queued_mem (hr.mem_ranked.1 hi).1) hx (hdi.trans hid.symm)
  have hmem : j ∈ ranked prio may side queue := hr.mem_ranked.2 ⟨hj, hys, hmay⟩
  -- `y` stands ahead of `x`
  obtain ⟨ahead, behind, hsplit⟩ := List.append_of_mem hi
  have hsorted : (ranked prio may side queue).Pairwise
      fun i j => prio (queued queue i) (queued queue j) = true :=
    (hr.sorted queue side).sublist (List.takeWhile_sublist _)
  have hahead : j ∈ ahead := by
    rw [hsplit] at hmem hsorted
    rcases List.mem_append.1 hmem with hmem | hmem
    · exact hmem
    · exfalso
      rcases List.mem_cons.1 hmem with rfl | hmem
      · rw [hxi] at hlate
        exact absurd ((hr.total x x).elim id id) (by simp [hlate])
      · have hafter := List.rel_of_pairwise_cons (List.pairwise_append.1 hsorted).2.1 hmem
        rw [hxi, hlate] at hafter
        exact absurd hafter (by simp)
  have hline : shares queue (ranked prio may side queue)
      = shares queue ahead ++ (d.left, (queued queue i).leaves) :: shares queue behind := by
    rw [hsplit, shares, List.map_append, List.map_cons, hdi]
    rfl
  exact h.first_served (hr.nodup_names hids) hds hline (_, _) (List.mem_map.2 ⟨j, hahead, rfl⟩)

end OneSide

lemma mayTrade_buy {p : ℤ} {o : Order} (h : o.side = .buy) : MayTrade p o ↔ mayBuy p o = true := by
  simp [MayTrade, mayBuy, h]

lemma mayTrade_sell {p : ℤ} {o : Order} (h : o.side = .sell) :
    MayTrade p o ↔ maySell p o = true := by
  simp [MayTrade, maySell, h]

/-- Who ranks before an order does not come after it in the list of the buys. -/
lemma RanksBefore.not_buyPriority {x y : Order} (h : RanksBefore y x) (hy : y.side = .buy)
    (hprice : isMarket x = true → isMarket y = true → x.price = y.price) :
    buyPriority x y = false := by
  rw [← Bool.not_eq_true, buyPriority_iff]
  simp only [RanksBefore, Ladder.better, hy, decide_eq_true_eq] at h
  grind

lemma RanksBefore.not_sellPriority {x y : Order} (h : RanksBefore y x) (hy : y.side = .sell)
    (hprice : isMarket x = true → isMarket y = true → x.price = y.price) :
    sellPriority x y = false := by
  rw [← Bool.not_eq_true, sellPriority_eq, buyPriority_iff]
  simp only [RanksBefore, Ladder.better, hy, decide_eq_true_eq] at h
  simp only [isMarket_mirrored, price_mirrored, seq_mirrored]
  grind

lemma takerQty_tradeOf (p : ℤ) (ds : List (Deal OrderId OrderId)) (id : OrderId) :
    takerQty id (ds.map (tradeOf p)) = Deal.taken ds id := by
  rw [takerQty, List.filter_map, volume_tradeOf]
  rfl

lemma makerQty_tradeOf (p : ℤ) (ds : List (Deal OrderId OrderId)) (id : OrderId) :
    makerQty id (ds.map (tradeOf p)) = Deal.taken (ds.map Deal.swap) id := by
  rw [Deal.taken, List.filter_map, Deal.volume_swap, makerQty, List.filter_map, List.map_map]
  rfl

lemma allotted_nil (hpos : ∀ o ∈ queue, 0 < o.leaves) : Allotted queue [] where
  qty_pos := by simp
  parties := by simp
  within o ho := by
    rw [tradedQty_nil]
    exact (hpos o ho).le
  limits := by simp
  balanced := by simp [tradedQty_nil]
  priority := by simp

section Dealt

variable {p v : ℤ} {ds cs : List (Deal OrderId OrderId)}

/-- What a buy trades it has bought. -/
lemma tradedQty_buy (hids : (queue.map (·.id)).Nodup)
    (h : Pour v (shares queue (ranked buyPriority (mayBuy p) .buy queue))
      (shares queue (ranked sellPriority (maySell p) .sell queue)) ds) (hcs : cs ⊆ ds) {o : Order}
    (ho : o ∈ queue) (hside : o.side = .buy) :
    tradedQty (cs.map (tradeOf p)) o.id = Deal.taken cs o.id := by
  have hzero : Deal.taken (cs.map Deal.swap) o.id = 0 := by
    refine Deal.taken_eq_zero fun d hd heq => ?_
    obtain ⟨y, hy, hys, -, hid⟩ := (ranks_sell p).party h.swap (List.map_subset _ hcs hd)
    rw [eq_of_id_eq hids hy ho (hid.trans heq), hside] at hys
    exact absurd hys (by simp)
  rw [tradedQty, takerQty_tradeOf, makerQty_tradeOf, hzero, add_zero]

/-- What a sell trades it has sold. -/
lemma tradedQty_sell (hids : (queue.map (·.id)).Nodup)
    (h : Pour v (shares queue (ranked buyPriority (mayBuy p) .buy queue))
      (shares queue (ranked sellPriority (maySell p) .sell queue)) ds) (hcs : cs ⊆ ds) {o : Order}
    (ho : o ∈ queue) (hside : o.side = .sell) :
    tradedQty (cs.map (tradeOf p)) o.id = Deal.taken (cs.map Deal.swap) o.id := by
  have hzero : Deal.taken cs o.id = 0 := by
    refine Deal.taken_eq_zero fun d hd heq => ?_
    obtain ⟨x, hx, hxs, -, hid⟩ := (ranks_buy p).party h (hcs hd)
    rw [eq_of_id_eq hids hx ho (hid.trans heq), hside] at hxs
    exact absurd hxs (by simp)
  rw [tradedQty, takerQty_tradeOf, makerQty_tradeOf, hzero, zero_add]

/-- The executions of the two lists of those who may trade. -/
lemma allotted_of_pour (hids : (queue.map (·.id)).Nodup) (hpos : ∀ o ∈ queue, 0 < o.leaves)
    (hprice : ∀ o ∈ queue, isMarket o = true → o.price = 0)
    (h : Pour v (shares queue (ranked buyPriority (mayBuy p) .buy queue))
      (shares queue (ranked sellPriority (maySell p) .sell queue)) ds) :
    Allotted queue (ds.map (tradeOf p)) := by
  have hb := ranks_buy p
  have hs := ranks_sell p
  have hbs : Stocked (shares queue (ranked buyPriority (mayBuy p) .buy queue)) := hb.stocked hpos
  have hss : Stocked (shares queue (ranked sellPriority (maySell p) .sell queue)) := hs.stocked hpos
  -- the parties to a deal
  have hbuyer := fun {d} (hd : d ∈ ds) => hb.party h hd
  have hseller := fun {d} (hd : d ∈ ds) => hs.party h.swap (List.mem_map_of_mem hd)
  refine ⟨fun t ht => ?_, fun t ht => ?_, fun o ho => ?_, fun t ht o ho hparty => ?_, ?_,
    fun pre t post hts x hx y hy hside hparty hmay hrank => ?_⟩
  · obtain ⟨d, hd, rfl⟩ := List.mem_map.1 ht
    exact h.qty_pos hbs hss d hd
  · obtain ⟨d, hd, rfl⟩ := List.mem_map.1 ht
    obtain ⟨x, hx, hxs, -, hxid⟩ := hbuyer hd
    obtain ⟨y, hy, hys, -, hyid⟩ := hseller hd
    exact ⟨x, hx, y, hy, hxs, hys, hxid, hyid⟩
  · cases hside : o.side with
    | buy =>
      rw [tradedQty_buy hids h (List.Subset.refl _) ho hside]
      exact hb.taken_le hids hpos h hss ho
    | sell =>
      rw [tradedQty_sell hids h (List.Subset.refl _) ho hside]
      exact hs.taken_le hids hpos h.swap hbs ho
  · obtain ⟨d, hd, rfl⟩ := List.mem_map.1 ht
    obtain ⟨x, hx, hxs, hxm, hxid⟩ := hbuyer hd
    obtain ⟨y, hy, hys, hym, hyid⟩ := hseller hd
    rcases hparty with hparty | hparty
    · rw [eq_of_id_eq hids ho hx (hparty.trans hxid.symm)]
      exact (mayTrade_buy hxs).2 hxm
    · rw [eq_of_id_eq hids ho hy (hparty.trans hyid.symm)]
      exact (mayTrade_sell hys).2 hym
  · -- both sides add up to the deals
    have hbought : ((ofSide queue .buy).map fun o => tradedQty (ds.map (tradeOf p)) o.id).sum
        = Deal.volume ds := by
      rw [← hb.sum_taken hids h]
      refine congrArg List.sum (List.map_congr_left fun o ho => ?_)
      obtain ⟨ho, hside⟩ := List.mem_filter.1 ho
      exact tradedQty_buy hids h (List.Subset.refl _) ho (by simpa using hside)
    have hsold : ((ofSide queue .sell).map fun o => tradedQty (ds.map (tradeOf p)) o.id).sum
        = Deal.volume ds := by
      rw [← Deal.volume_swap, ← hs.sum_taken hids h.swap]
      refine congrArg List.sum (List.map_congr_left fun o ho => ?_)
      obtain ⟨ho, hside⟩ := List.mem_filter.1 ho
      exact tradedQty_sell hids h (List.Subset.refl _) ho (by simpa using hside)
    rw [hbought, hsold]
  · obtain ⟨cs, rest, hds, rfl, hrest⟩ := List.map_eq_append_iff.1 hts
    obtain ⟨d, ds', rfl, rfl, -⟩ := List.map_eq_cons_iff.1 hrest
    have hd : d ∈ ds := hds ▸ List.mem_append_right _ List.mem_cons_self
    have hcs : cs ⊆ ds := hds ▸ List.subset_append_left _ _
    obtain ⟨x', hx', hxs', -, hxid⟩ := hbuyer hd
    obtain ⟨y', hy', hys', -, hyid⟩ := hseller hd
    have heqprice : isMarket x = true → isMarket y = true → x.price = y.price := fun hmx hmy =>
      (hprice x hx hmx).trans (hprice y hy hmy).symm
    rcases hparty with hparty | hparty
    · -- the buyer
      have hxs : x.side = .buy := eq_of_id_eq hids hx hx' (hparty.trans hxid.symm) ▸ hxs'
      have hys : y.side = .buy := hside ▸ hxs
      rw [tradedQty_buy hids h hcs hy hys]
      exact hb.served hids h hds hx hy hys hparty ((mayTrade_buy hys).1 hmay)
        (hrank.not_buyPriority hys heqprice)
    · -- the seller
      have hxs : x.side = .sell := eq_of_id_eq hids hx hy' (hparty.trans hyid.symm) ▸ hys'
      have hys : y.side = .sell := hside ▸ hxs
      rw [tradedQty_sell hids h hcs hy hys]
      have hswap : ds.map Deal.swap = cs.map Deal.swap ++ d.swap :: ds'.map Deal.swap := by
        rw [hds, List.map_append, List.map_cons]
      exact hs.served hids h.swap hswap hx hy hys hparty ((mayTrade_sell hys).1 hmay)
        (hrank.not_sellPriority hys heqprice)

end Dealt

/-- In the auction phase nobody trades more than they asked for or beyond their limit, as much is
bought as is sold, every execution is for something, and nobody trades before everybody of their
side who may trade and ranks before them has traded all. -/
theorem auctionPhase_allotted (b : Book) {queue : List Order} (hids : (queue.map (·.id)).Nodup)
    (hpos : ∀ o ∈ queue, 0 < o.leaves) (hprice : ∀ o ∈ queue, isMarket o = true → o.price = 0) :
    Allotted queue (b.auctionPhase queue).2.2 := by
  cases hc : b.clearing queue with
  | none =>
    have hr : b.auctionPhase queue = (b, queue, []) := by simp [auctionPhase, hc]
    rw [hr]
    exact allotted_nil hpos
  | some c =>
    obtain ⟨ds, hds, htr⟩ := auctionPhase_pour hc
    rw [htr]
    exact allotted_of_pour hids hpos hprice hds

/-- The market buy goes first, and the sell at the better price. -/
theorem auctionPhase_allotted_three : ∃ queue : List Order,
    ((queue.map (·.id)).Nodup ∧ (∀ o ∈ queue, 0 < o.leaves) ∧
      ∀ o ∈ queue, isMarket o = true → o.price = 0) ∧
      (auctionPhase {} queue).2.2.map (fun t => (t.takerId, t.makerId, t.qty))
        = [(4, 3, 5), (4, 2, 1), (1, 2, 3)] ∧
      Allotted queue (auctionPhase {} queue).2.2 := by
  let queue : List Order := [
    { id := 1, price := 102, qty := 7, leaves := 7, seq := 1 },
    { id := 2, side := .sell, price := 101, qty := 4, leaves := 4, seq := 2 },
    { id := 3, side := .sell, price := 100, qty := 5, leaves := 5, seq := 3 },
    { id := 4, type := .market, qty := 6, leaves := 6, seq := 4 }]
  have h : (queue.map (·.id)).Nodup ∧ (∀ o ∈ queue, 0 < o.leaves) ∧
      ∀ o ∈ queue, isMarket o = true → o.price = 0 := by decide
  exact ⟨queue, h, by decide +kernel, auctionPhase_allotted _ h.1 h.2.1 h.2.2⟩

end Phase

end Book

end Codicis
