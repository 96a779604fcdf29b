/-
The clearing price of an auction, and who trades at it first.

The auction looks at the limit prices of its queue only.  At one of them as much can trade as at any
price (`exists_candidate_volume_le`), and the scan keeps the best one (`isBest_clearing`).

A clearing price has buyers and sellers that may trade at it, and the priority lists have such
orders at their front, so an auction that finds a price has an execution.
-/
import Codicis.Core.Auction
import Mathlib.Data.Finset.Dedup
import Mathlib.Data.Finset.Max

namespace Codicis

namespace Book

variable {b : Book} {queue : List Order}

/-! ### The clearing price -/

/-- The volume of a clearing price is positive, and both sides have it. -/
structure Clearing.Fair (queue : List Order) (c : Clearing) : Prop where
  volume_pos : 0 < c.volume
  le_demand : c.volume ≤ demandAt queue c.price
  le_supply : c.volume ≤ supplyAt queue c.price

/-- A price that is considered replaces the best one, or is passed over. -/
lemma consider_cases (b : Book) (queue : List Order) (best : Option Clearing) (p : ℤ) :
    b.consider queue best p = best ∨ ∃ c, b.consider queue best p = some c ∧ c.Fair queue := by
  unfold consider
  dsimp only
  by_cases hv : min (demandAt queue p) (supplyAt queue p) ≤ 0
  · exact .inl (if_pos hv)
  rw [if_neg hv]
  have hfair : ∀ imb, Clearing.Fair queue
      ⟨p, min (demandAt queue p) (supplyAt queue p), imb⟩ :=
    fun imb => ⟨by simpa using hv, min_le_left _ _, min_le_right _ _⟩
  cases best with
  | none => exact .inr ⟨_, rfl, hfair _⟩
  | some old =>
    dsimp only
    split_ifs
    all_goals first
      | exact .inl rfl
      | exact .inr ⟨_, rfl, hfair _⟩

lemma fair_of_clearing {c : Clearing} (h : b.clearing queue = some c) : c.Fair queue := by
  have hstep : ∀ best p c, (∀ c, best = some c → c.Fair queue) →
      b.consider queue best p = some c → c.Fair queue := by
    intro best p c hbest hc
    rcases consider_cases b queue best p with h | ⟨c', h, hfair⟩
    · exact hbest c (h ▸ hc)
    · obtain rfl := Option.some.inj (h.symm.trans hc)
      exact hfair
  have hfold : ∀ (ps : List ℤ) (best : Option Clearing), (∀ c, best = some c → c.Fair queue) →
      ∀ c, ps.foldl (b.consider queue) best = some c → c.Fair queue := by
    intro ps
    induction ps with
    | nil => exact fun best hbest => hbest
    | cons p ps ih => exact fun best hbest => ih _ fun c => hstep best p c hbest
  unfold clearing at h
  split at h
  · split_ifs at h
    exact hstep none _ c (by simp) h
  · exact hfold _ none (by simp) c h

/-! ### The best price -/

/-- The volume that can trade at a price. -/
def volumeAt (queue : List Order) (p : ℤ) : ℤ := min (demandAt queue p) (supplyAt queue p)

/-- The imbalance of demand and supply at a price. -/
def imbalanceAt (queue : List Order) (p : ℤ) : ℤ := |demandAt queue p - supplyAt queue p|

/-- The distance of a price to the last trade price, if there is one. -/
def lastDistance (b : Book) (p : ℤ) : ℤ := if b.haveLast = true then |p - b.lastPrice| else 0

/-- Of two prices of the same volume, the first one has the smaller imbalance, or else is closer to
the last trade price, or else is not the higher one. -/
def Preferred (b : Book) (queue : List Order) (p p' : ℤ) : Prop :=
  imbalanceAt queue p < imbalanceAt queue p' ∨ (imbalanceAt queue p = imbalanceAt queue p' ∧
    (b.lastDistance p < b.lastDistance p' ∨ (b.lastDistance p = b.lastDistance p' ∧ p ≤ p')))

/-- The clearing at a price. -/
def clearingAt (queue : List Order) (p : ℤ) : Clearing :=
  ⟨p, volumeAt queue p, imbalanceAt queue p⟩

lemma Preferred.refl (b : Book) (queue : List Order) (p : ℤ) : Preferred b queue p p :=
  .inr ⟨rfl, .inr ⟨rfl, le_rfl⟩⟩

lemma Preferred.trans {p p' p'' : ℤ} (h : Preferred b queue p p') (h' : Preferred b queue p' p'') :
    Preferred b queue p p'' := by
  unfold Preferred at *
  omega

/-- The best of the prices `ps` that have been considered. -/
def IsBest (b : Book) (queue : List Order) (ps : List ℤ) : Option Clearing → Prop
  | none => ∀ p ∈ ps, volumeAt queue p ≤ 0
  | some c => c.price ∈ ps ∧ c = clearingAt queue c.price ∧ 0 < c.volume ∧
      ∀ p ∈ ps, volumeAt queue p < c.volume ∨
        (volumeAt queue p = c.volume ∧ Preferred b queue c.price p)

/-- A price is considered. -/
lemma consider_eq (b : Book) (queue : List Order) (best : Option Clearing) (p : ℤ) :
    b.consider queue best p = if volumeAt queue p ≤ 0 then best else
      match best with
      | none => some (clearingAt queue p)
      | some old =>
        if old.volume < volumeAt queue p ∨ (volumeAt queue p = old.volume ∧
          (imbalanceAt queue p < old.imbalance ∨ (imbalanceAt queue p = old.imbalance ∧
            (b.lastDistance p < b.lastDistance old.price ∨
              (b.haveLast = false ∧ p < old.price))))) then some (clearingAt queue p)
        else best := by
  have habs : ∀ d s : ℤ, (if s < d then d - s else s - d) = |d - s| := by
    intro d s
    split_ifs with h
    · rw [abs_of_pos (by omega)]
    · rw [abs_of_nonpos (by omega)]
      omega
  unfold consider
  simp only [habs]
  rw [← volumeAt, ← imbalanceAt]
  by_cases hv : volumeAt queue p ≤ 0
  · rw [if_pos hv, if_pos hv]
  rw [if_neg hv, if_neg hv]
  cases best with
  | none => rfl
  | some old =>
    dsimp only [lastDistance, clearingAt]
    by_cases hlast : b.haveLast = true
    · simp only [hlast, if_true, Bool.true_eq_false, false_and, or_false]
      split_ifs <;> first | rfl | omega
    · simp only [hlast, Bool.false_eq_true, if_false, true_and, lt_irrefl, false_or]
      split_ifs <;> first | rfl | omega

/-- The prices are considered from the lowest one up. -/
lemma IsBest.consider {ps : List ℤ} {best : Option Clearing} (h : IsBest b queue ps best) {p : ℤ}
    (hp : ∀ p' ∈ ps, p' < p) : IsBest b queue (ps ++ [p]) (b.consider queue best p) := by
  rw [consider_eq]
  by_cases hv : volumeAt queue p ≤ 0
  · -- nothing can trade at the price
    rw [if_pos hv]
    cases best with
    | none => exact List.forall_mem_append.2 ⟨h, List.forall_mem_singleton.2 hv⟩
    | some c =>
      obtain ⟨hmem, hc, hpos, hall⟩ := h
      have hp : volumeAt queue p < c.volume := by omega
      exact ⟨List.mem_append_left _ hmem, hc, hpos,
        List.forall_mem_append.2 ⟨hall, List.forall_mem_singleton.2 (.inl hp)⟩⟩
  rw [if_neg hv]
  -- a price that replaces the best one has only to be compared with the earlier ones
  have hself : (∀ p' ∈ ps, volumeAt queue p' < volumeAt queue p ∨
      volumeAt queue p' = volumeAt queue p ∧ Preferred b queue p p') →
      IsBest b queue (ps ++ [p]) (some (clearingAt queue p)) := fun hall =>
    ⟨List.mem_append_right _ List.mem_cons_self, rfl, not_le.1 hv, List.forall_mem_append.2
      ⟨hall, List.forall_mem_singleton.2 (.inr ⟨rfl, .refl b queue p⟩)⟩⟩
  cases best with
  | none => exact hself fun p' hp' => .inl (lt_of_le_of_lt (h p' hp') (not_le.1 hv))
  | some c =>
    obtain ⟨hmem, hc, hpos, hall⟩ := h
    have hlow : c.price < p := hp _ hmem
    have himb : c.imbalance = imbalanceAt queue c.price := congrArg Clearing.imbalance hc
    dsimp only
    split_ifs with hbetter
    · -- the price replaces the best one
      refine hself fun p' hp' => ?_
      have hpref : volumeAt queue p = c.volume → Preferred b queue p c.price := by
        intro heq
        unfold Preferred
        omega
      rcases hall p' hp' with hlt | ⟨heq, hp'⟩
      · omega
      · by_cases hvol : volumeAt queue p = c.volume
        · exact .inr ⟨heq.trans hvol.symm, (hpref hvol).trans hp'⟩
        · omega
    · -- the best price stays
      refine ⟨List.mem_append_left _ hmem, hc, hpos,
        List.forall_mem_append.2 ⟨hall, List.forall_mem_singleton.2 ?_⟩⟩
      unfold Preferred
      omega

/-- The clearing price is the best one of the limit prices. -/
lemma isBest_clearing (h : candidates queue ≠ []) :
    IsBest b queue (candidates queue) (b.clearing queue) := by
  have hsorted : (candidates queue).Pairwise (· < ·) := by
    have hle : (candidates queue).Pairwise (· ≤ ·) := List.pairwise_insertionSort _ _
    have hnodup : (candidates queue).Nodup :=
      (List.perm_insertionSort _ _).nodup_iff.2 (List.nodup_dedup _)
    exact (hle.and hnodup).imp fun ⟨hle, hne⟩ => lt_of_le_of_ne hle hne
  have hfold : ∀ (ps done : List ℤ) (best : Option Clearing), IsBest b queue done best →
      (done ++ ps).Pairwise (· < ·) →
      IsBest b queue (done ++ ps) (ps.foldl (b.consider queue) best) := by
    intro ps
    induction ps with
    | nil =>
      intro done best hbest _
      rwa [List.append_nil]
    | cons p ps ih =>
      intro done best hbest hs
      rw [List.append_cons] at hs ⊢
      rw [List.foldl_cons]
      exact ih (done ++ [p]) _ (hbest.consider fun p' hp' =>
        (List.pairwise_append.1 (List.pairwise_append.1 hs).1).2.2 p' hp' p (by simp)) hs
  have hnone : IsBest b queue [] none := by
    intro p hp
    exact absurd hp List.not_mem_nil
  have hclear : b.clearing queue = (candidates queue).foldl (b.consider queue) none := by
    unfold clearing
    split
    · exact absurd ‹_› h
    · rfl
  rw [hclear]
  exact hfold (candidates queue) [] none hnone hsorted

lemma mem_candidates {p : ℤ} : p ∈ candidates queue ↔
    ∃ o ∈ queue, isMarket o = false ∧ o.price = p := by
  simp [candidates, and_assoc]

/-- More orders have more quantity. -/
lemma sum_filter_mono (hpos : ∀ o ∈ queue, 0 < o.leaves) {sel sel' : Order → Bool}
    (h : ∀ o, sel o = true → sel' o = true) :
    ((queue.filter sel).map (·.leaves)).sum ≤ ((queue.filter sel').map (·.leaves)).sum := by
  refine ((List.monotone_filter_right queue h).map (·.leaves)).sum_le_sum fun q hq => ?_
  obtain ⟨o, ho, rfl⟩ := List.mem_map.1 hq
  exact (hpos o (List.mem_of_mem_filter ho)).le

lemma demandAt_anti (hpos : ∀ o ∈ queue, 0 < o.leaves) {p p' : ℤ} (h : p ≤ p') :
    demandAt queue p' ≤ demandAt queue p := by
  refine sum_filter_mono hpos fun o ho => ?_
  simp only [Bool.and_eq_true, Bool.or_eq_true, decide_eq_true_eq] at ho ⊢
  exact ⟨ho.1, ho.2.imp_right h.trans⟩

lemma supplyAt_mono (hpos : ∀ o ∈ queue, 0 < o.leaves) {p p' : ℤ} (h : p ≤ p') :
    supplyAt queue p ≤ supplyAt queue p' := by
  refine sum_filter_mono hpos fun o ho => ?_
  simp only [Bool.and_eq_true, Bool.or_eq_true, decide_eq_true_eq] at ho ⊢
  exact ⟨ho.1, ho.2.imp_right fun hle => hle.trans h⟩

/-- Raising a price to the next limit price keeps the demand. -/
lemma demandAt_of_next {p c : ℤ} (hc : p ≤ c) (hnext : ∀ p' ∈ candidates queue, p ≤ p' → c ≤ p') :
    demandAt queue p = demandAt queue c := by
  unfold demandAt
  congr 2
  refine List.filter_congr fun o ho => ?_
  by_cases hm : isMarket o = true
  · simp [hm]
  · have hmem : o.price ∈ candidates queue := mem_candidates.2 ⟨o, ho, by simpa using hm, rfl⟩
    have hiff : p ≤ o.price ↔ c ≤ o.price := ⟨hnext _ hmem, hc.trans⟩
    simp [hiff]

/-- Above all limit prices there is no further supply. -/
lemma supplyAt_of_top {p c : ℤ} (hc : ∀ p' ∈ candidates queue, p' ≤ c) (hcp : c ≤ p) :
    supplyAt queue p = supplyAt queue c := by
  unfold supplyAt
  congr 2
  refine List.filter_congr fun o ho => ?_
  by_cases hm : isMarket o = true
  · simp [hm]
  · have hmem : o.price ∈ candidates queue := mem_candidates.2 ⟨o, ho, by simpa using hm, rfl⟩
    have hle := hc _ hmem
    simp [hle, hle.trans hcp]

/-- What can trade at a price can trade at a limit price. -/
lemma exists_candidate_volume_le (hpos : ∀ o ∈ queue, 0 < o.leaves) (hne : candidates queue ≠ [])
    (p : ℤ) : ∃ c ∈ candidates queue, volumeAt queue p ≤ volumeAt queue c := by
  by_cases hup : ∃ c ∈ candidates queue, p ≤ c
  · -- the next limit price keeps the demand
    have hs : ((candidates queue).toFinset.filter (p ≤ ·)).Nonempty := by
      obtain ⟨c, hc, hpc⟩ := hup
      exact ⟨c, by simp [hc, hpc]⟩
    obtain ⟨c, hc, hmin⟩ := Finset.exists_min_image _ id hs
    simp only [Finset.mem_filter, List.mem_toFinset, id_eq, and_imp] at hc hmin
    have hdemand := demandAt_of_next hc.2 hmin
    have hsupply := supplyAt_mono hpos hc.2
    exact ⟨c, hc.1, min_le_min hdemand.le hsupply⟩
  · -- above all limit prices, the highest one keeps the supply
    obtain ⟨c, hc, hmax⟩ := Finset.exists_max_image (candidates queue).toFinset id
      (List.toFinset_nonempty_iff _ |>.2 hne)
    simp only [List.mem_toFinset, id_eq] at hc hmax
    have hcp : c ≤ p := by
      by_contra hlt
      exact hup ⟨c, hc, (not_le.1 hlt).le⟩
    have hdemand := demandAt_anti hpos hcp
    have hsupply := supplyAt_of_top hmax hcp
    exact ⟨c, hc, min_le_min hdemand hsupply.le⟩

/-! ### Priority -/

/-- The order may buy at the price. -/
def mayBuy (p : ℤ) (o : Order) : Bool := isMarket o || p ≤ o.price

/-- The order may sell at the price. -/
def maySell (p : ℤ) (o : Order) : Bool := isMarket o || o.price ≤ p

/-- A sell is a buy at the negative price. -/
def mirrored (o : Order) : Order := { o with price := -o.price }

@[simp] lemma isMarket_mirrored (o : Order) : isMarket (mirrored o) = isMarket o := rfl

lemma price_mirrored (o : Order) : (mirrored o).price = -o.price := rfl

lemma seq_mirrored (o : Order) : (mirrored o).seq = o.seq := rfl

lemma maySell_eq (p : ℤ) (o : Order) : maySell p o = mayBuy (-p) (mirrored o) := by
  simp [maySell, mayBuy, price_mirrored]

lemma buyPriority_iff {x y : Order} : buyPriority x y = true ↔
    (isMarket x = true ∧ isMarket y = false) ∨ (isMarket x = isMarket y ∧
      (y.price < x.price ∨ (x.price = y.price ∧ x.seq ≤ y.seq))) := by
  unfold buyPriority
  split_ifs with hm hp
  · cases hx : isMarket x <;> cases hy : isMarket y <;> simp_all
  · simp only [decide_eq_true_eq]
    grind
  · simp only [decide_eq_true_eq]
    grind

lemma sellPriority_eq (x y : Order) : sellPriority x y = buyPriority (mirrored x) (mirrored y) := by
  rw [Bool.eq_iff_iff, buyPriority_iff, sellPriority]
  simp only [isMarket_mirrored, price_mirrored, seq_mirrored]
  grind

lemma buyPriority_total (x y : Order) : buyPriority x y = true ∨ buyPriority y x = true := by
  simp only [buyPriority_iff]
  grind

lemma buyPriority_trans {x y z : Order} (h : buyPriority x y = true) (h' : buyPriority y z = true) :
    buyPriority x z = true := by
  rw [buyPriority_iff] at *
  grind

/-- Whoever comes before an order that may buy may buy. -/
lemma mayBuy_of_priority {p : ℤ} {x y : Order} (h : buyPriority x y = true)
    (hy : mayBuy p y = true) : mayBuy p x = true := by
  rw [buyPriority_iff] at h
  simp only [mayBuy, Bool.or_eq_true, decide_eq_true_eq] at *
  grind

/-- The priority list of the positions of a queue that `side` selects. -/
def priorityList (prio : Order → Order → Bool) (queue : List Order) (side : Side) : List ℕ :=
  ((List.range queue.length).filter fun i => (queued queue i).side = side).insertionSort
    fun i j => prio (queued queue i) (queued queue j) = true

lemma mem_priorityList {prio : Order → Order → Bool} {side : Side} {i : ℕ} :
    i ∈ priorityList prio queue side ↔ i < queue.length ∧ (queued queue i).side = side := by
  simp [priorityList]

/-- If an order of the side may trade, the first one of its priority list may. -/
lemma priorityList_head {prio : Order → Order → Bool}
    (htotal : ∀ x y, prio x y = true ∨ prio y x = true)
    (htrans : ∀ x y z, prio x y = true → prio y z = true → prio x z = true)
    {may : Order → Bool} (hmay : ∀ x y, prio x y = true → may y = true → may x = true)
    {side : Side} {o : Order} (ho : o ∈ queue) (hs : o.side = side) (hm : may o = true) :
    ∃ i l, priorityList prio queue side = i :: l ∧ may (queued queue i) = true := by
  let r : ℕ → ℕ → Prop := fun i j => prio (queued queue i) (queued queue j) = true
  have : Std.Total r := ⟨fun i j => htotal _ _⟩
  have : IsTrans ℕ r := ⟨fun i j k => htrans _ _ _⟩
  obtain ⟨j, hj, rfl⟩ := List.getElem_of_mem ho
  have hq : queued queue j = queue[j] := by simp [queued, hj]
  have hmem : j ∈ priorityList prio queue side := mem_priorityList.2 ⟨hj, by rw [hq]; exact hs⟩
  have hsorted : (priorityList prio queue side).Pairwise r := List.pairwise_insertionSort r _
  cases hl : priorityList prio queue side with
  | nil =>
    rw [hl] at hmem
    exact absurd hmem List.not_mem_nil
  | cons i l =>
    rw [hl] at hmem hsorted
    refine ⟨i, l, rfl, ?_⟩
    rw [← hq] at hm
    rcases List.mem_cons.1 hmem with rfl | hmem
    · exact hm
    · exact hmay _ _ (List.rel_of_pairwise_cons hsorted hmem) hm

/-- A positive sum has an order in it. -/
lemma exists_of_sum_pos {sel : Order → Bool} (h : 0 < ((queue.filter sel).map (·.leaves)).sum) :
    ∃ o ∈ queue, sel o = true := by
  cases hf : queue.filter sel with
  | nil =>
    rw [hf] at h
    exact absurd h (by simp)
  | cons o l => exact ⟨o, List.mem_filter.1 (hf ▸ List.mem_cons_self)⟩

/-- At a clearing price the first buy and the first sell may trade. -/
lemma heads_of_clearing {c : Clearing} (h : c.Fair queue) :
    ∃ bi buys si sells, buyOrder queue = bi :: buys ∧ sellOrder queue = si :: sells ∧
      mayBuy c.price (queued queue bi) = true ∧ maySell c.price (queued queue si) = true := by
  obtain ⟨x, hx, hxs⟩ := exists_of_sum_pos (lt_of_lt_of_le h.volume_pos h.le_demand)
  obtain ⟨y, hy, hys⟩ := exists_of_sum_pos (lt_of_lt_of_le h.volume_pos h.le_supply)
  simp only [Bool.and_eq_true, decide_eq_true_eq] at hxs hys
  obtain ⟨bi, buys, hbuys, hbi⟩ : ∃ i l, buyOrder queue = i :: l ∧
      mayBuy c.price (queued queue i) = true :=
    priorityList_head buyPriority_total (fun _ _ _ => buyPriority_trans)
      (fun _ _ => mayBuy_of_priority) hx hxs.1 hxs.2
  obtain ⟨si, sells, hsells, hsi⟩ : ∃ i l, sellOrder queue = i :: l ∧
      maySell c.price (queued queue i) = true := by
    refine priorityList_head (fun x y => ?_) (fun x y z hxy hyz => ?_) (fun x y hxy hy => ?_)
      hy hys.1 hys.2
    · simpa only [sellPriority_eq] using buyPriority_total _ _
    · rw [sellPriority_eq] at *
      exact buyPriority_trans hxy hyz
    · rw [maySell_eq] at *
      exact mayBuy_of_priority (sellPriority_eq x y ▸ hxy) hy
  exact ⟨bi, buys, si, sells, hbuys, hsells, hbi, hsi⟩

/-! ### The executions -/

/-- Two orders of the queue trade the quantity `q`. -/
def dealAt (pstar : ℤ) (bi si : ℕ) (q : ℤ) (r : Book × List Order × List Trade) :
    Book × List Order × List Trade :=
  let x := queued r.2.1 bi
  let y := queued r.2.1 si
  let t : Trade := ⟨x.id, y.id, .buy, pstar, q⟩
  let b := r.1.emitTrade t (if y.flags.hidden = true then 0 else q)
  ((b.applyPosition x.clientId .buy q).applyPosition y.clientId .sell q,
    (r.2.1.set bi (takeFill x q)).set si (takeFill y q), r.2.2 ++ [t])

lemma sublist_ite_cons {α : Type*} (c : Prop) [Decidable c] (a : α) (l : List α) :
    (if c then l else a :: l).Sublist (a :: l) := by
  split_ifs
  · exact List.sublist_cons_self a l
  · exact .refl _

/-- Nothing more is allocated: the rounds or the volume are used up, or a list has nobody at its
front who may trade. -/
def Allocated (pstar : ℤ) (n : ℕ) (remaining : ℤ) (buys sells : List ℕ)
    (queue : List Order) : Prop :=
  n = 0 ∨ remaining ≤ 0 ∨ (buys.takeWhile fun i => mayBuy pstar (queued queue i)) = [] ∨
    (sells.takeWhile fun i => maySell pstar (queued queue i)) = []

/-- The allocation is a run of deals between the first buy and the first sell. -/
theorem allocate_induct {pstar : ℤ} {P : ℕ → ℤ → List ℕ → List ℕ →
      Book × List Order × List Trade → Book × List Order × List Trade → Prop}
    (stop : ∀ n remaining buys sells r, Allocated pstar n remaining buys sells r.2.1 →
      P n remaining buys sells r r)
    (deal : ∀ n remaining bi buys si sells r r' q,
      q = min (min (queued r.2.1 bi).leaves (queued r.2.1 si).leaves) remaining →
      0 < remaining → mayBuy pstar (queued r.2.1 bi) = true →
      maySell pstar (queued r.2.1 si) = true →
      P n (remaining - q) (if (queued r.2.1 bi).leaves - q = 0 then buys else bi :: buys)
        (if (queued r.2.1 si).leaves - q = 0 then sells else si :: sells)
        (dealAt pstar bi si q r) r' →
      P (n + 1) remaining (bi :: buys) (si :: sells) r r')
    (n : ℕ) (remaining : ℤ) (buys sells : List ℕ) (r : Book × List Order × List Trade) :
    P n remaining buys sells r (allocate pstar n remaining buys sells r) := by
  induction n generalizing remaining buys sells r with
  | zero => exact stop 0 remaining buys sells r (.inl rfl)
  | succ n ih =>
    cases buys with
    | nil =>
      have heq : allocate pstar (n + 1) remaining [] sells r = r := by cases sells <;> rfl
      rw [heq]
      exact stop _ _ _ _ _ (.inr (.inr (.inl rfl)))
    | cons bi buys =>
      cases sells with
      | nil => exact stop _ _ _ _ _ (.inr (.inr (.inr rfl)))
      | cons si sells =>
        obtain ⟨b, queue, trades⟩ := r
        by_cases hv : remaining ≤ 0
        · rw [allocate, if_pos hv]
          exact stop _ _ _ _ _ (.inr (.inl hv))
        by_cases hx : mayBuy pstar (queued queue bi) = true
        · by_cases hy : maySell pstar (queued queue si) = true
          · have hboth : ¬ (!(isMarket (queued queue bi) || pstar ≤ (queued queue bi).price) ||
                !(isMarket (queued queue si) || (queued queue si).price ≤ pstar)) = true := by
              rw [mayBuy] at hx
              rw [maySell] at hy
              simp [hx, hy]
            rw [allocate, if_neg hv, if_neg hboth]
            exact deal n remaining bi buys si sells (b, queue, trades) _ _ rfl (not_le.1 hv) hx
              hy (ih _ _ _ _)
          · have hstop : (sells.cons si).takeWhile (fun i => maySell pstar (queued queue i))
                = [] := by simp [hy]
            rw [allocate, if_neg hv, if_pos (by rw [maySell] at hy; simp [hy])]
            exact stop _ _ _ _ _ (.inr (.inr (.inr hstop)))
        · have hstop : (buys.cons bi).takeWhile (fun i => mayBuy pstar (queued queue i))
              = [] := by simp [hx]
          rw [allocate, if_neg hv, if_pos (by rw [mayBuy] at hx; simp [hx])]
          exact stop _ _ _ _ _ (.inr (.inr (.inl hstop)))

/-- The allocation only adds executions. -/
lemma allocate_length_le (pstar : ℤ) (n : ℕ) (remaining : ℤ) (buys sells : List ℕ)
    (r : Book × List Order × List Trade) :
    r.2.2.length ≤ (allocate pstar n remaining buys sells r).2.2.length := by
  refine allocate_induct (P := fun _ _ _ _ r r' => r.2.2.length ≤ r'.2.2.length)
    (fun _ _ _ _ _ _ => le_rfl) (fun _ _ _ _ _ _ r r' q _ _ _ _ ih => ?_) n remaining buys sells r
  refine le_trans ?_ ih
  simp [dealAt]

/-- An auction that finds a clearing price has an execution. -/
theorem auctionPhase_trades_ne {c : Clearing} (h : b.clearing queue = some c) :
    (b.auctionPhase queue).2.2 ≠ [] := by
  have hfair := fair_of_clearing h
  obtain ⟨bi, buys, si, sells, hbuys, hsells, hbi, hsi⟩ := heads_of_clearing hfair
  have hpos := hfair.volume_pos
  intro hnil
  unfold auctionPhase at hnil
  simp only [h, hbuys, hsells, List.length_cons] at hnil
  have hstep : 0 < (allocate c.price (buys.length + 1 + (sells.length + 1)) c.volume (bi :: buys)
      (si :: sells) (b, queue, [])).2.2.length := by
    rw [show buys.length + 1 + (sells.length + 1) = buys.length + (sells.length + 1) + 1 by omega]
    rw [mayBuy] at hbi
    rw [maySell] at hsi
    simp only [allocate, if_neg (not_le.2 hpos), hbi, hsi, Bool.not_true, Bool.or_self,
      Bool.false_eq_true, if_false]
    exact lt_of_lt_of_le (by simp) (allocate_length_le _ _ _ _ _ _)
  rw [hnil] at hstep
  exact absurd hstep (by simp)

end Book

end Codicis
