/-
The positions of the accounts.

Every execution moves the net positions of two accounts, and nothing else does inside an
operation.  So the positions after an operation are those before it with its executions
settled one after another (`settle`), and the position an account holds just before an
execution is found by settling the executions that came earlier in the operation.
-/
import Codicis.Core.History

namespace Codicis

/-- A quantity with the sign that an execution on a side gives it. -/
def Side.signed : Side → ℤ → ℤ
  | .buy, q => q
  | .sell, q => -q

/-- What can be executed on a side before a net position is flat. -/
def Side.reducible : Side → ℤ → ℤ
  | .sell, net => net
  | .buy, net => -net

/-- What an execution on the side `t` by one account, and on the other side by another one,
leaves to reduce. -/
lemma Side.reducible_trade (s t : Side) (net q : ℤ) (A B : Prop) [Decidable A] [Decidable B] :
    s.reducible (net + (if A then t.signed q else 0) + if B then t.opposite.signed q else 0)
      = s.reducible net + (if A then if s = t then -q else q else 0)
        + if B then if s = t then q else -q else 0 := by
  cases s <;> cases t <;> simp only [reducible, signed, opposite] <;> split_ifs <;>
    first | omega | simp_all

namespace Book

/-- The reduce-only quantity of an account that is reserved on a side. -/
def reserved (b : Book) (c : ClientId) : Side → ℤ
  | .sell => ((b.positions.lookup c).getD {}).reservedSell
  | .buy => ((b.positions.lookup c).getD {}).reservedBuy

section Updates

variable {b b' : Book}

lemma position_congr (h : b'.positions = b.positions) : b'.position = b.position := by
  funext c
  rw [position, position, h]

lemma reserved_congr (h : b'.positions = b.positions) : b'.reserved = b.reserved := by
  funext c s
  cases s <;> rw [reserved, reserved, h]

lemma position_applyPosition (c : ClientId) (s : Side) (q : ℤ) (c' : ClientId) :
    (b.applyPosition c s q).position c'
      = b.position c' + if c' = c ∧ c ≠ 0 then s.signed q else 0 := by
  unfold applyPosition
  split_ifs with h0 h h
  · exact absurd h0 h.2
  · simp
  · obtain ⟨rfl, -⟩ := h
    simp only [position, Map.lookup_insert_eq, if_true, Option.getD_some]
    cases s <;> rfl
  · have hne : c' ≠ c := fun hc => h ⟨hc, h0⟩
    simp [position, hne]

lemma reserved_applyPosition (c : ClientId) (s : Side) (q : ℤ) :
    (b.applyPosition c s q).reserved = b.reserved := by
  funext c' t
  unfold applyPosition
  split_ifs
  · rfl
  · by_cases hc : c' = c
    · subst hc
      cases t <;> simp [reserved]
    · cases t <;> simp [reserved, hc]

lemma position_releaseReserved (o : Order) (q : ℤ) :
    (b.releaseReserved o q).position = b.position := by
  funext c
  unfold releaseReserved
  split_ifs
  · rfl
  · cases hp : b.positions.lookup o.clientId with
    | none => rfl
    | some p =>
      by_cases hc : c = o.clientId
      · subst hc
        simp only [position, Map.lookup_insert_eq, if_true, hp, Option.getD_some]
        cases o.side <;> rfl
      · simp [position, hc]

/-- Whatever is released was reserved in a position. -/
lemma reserved_releaseReserved (o : Order) (q : ℤ) (c : ClientId) (s : Side)
    (hres : o.flags.reduceOnly = true → o.clientId ≠ 0 → b.reserved o.clientId o.side ≠ 0) :
    (b.releaseReserved o q).reserved c s
      = b.reserved c s - if o.flags.reduceOnly = true ∧ o.clientId ≠ 0 ∧ c = o.clientId ∧ s = o.side
        then q else 0 := by
  unfold releaseReserved
  by_cases hro : o.flags.reduceOnly = false ∨ o.clientId = 0
  · rw [if_pos hro, if_neg, Int.sub_zero]
    rintro ⟨hr, hc, -⟩
    rcases hro with h | h
    · exact absurd hr (by simp [h])
    · exact hc h
  rw [if_neg hro]
  cases hp : b.positions.lookup o.clientId with
  | none =>
    push Not at hro
    refine absurd ?_ (hres (by simpa using hro.1) hro.2)
    cases hs : o.side <;> simp [reserved, hp]
  | some p =>
    push Not at hro
    by_cases hc : c = o.clientId
    · subst hc
      cases s <;> cases hs : o.side <;>
        simp [reserved, hp, Position.reserve, hro] <;> omega
    · cases s <;> simp [reserved, hc]

lemma position_reserveResting (o : Order) : (b.reserveResting o).position = b.position := by
  funext c
  unfold reserveResting
  split_ifs
  · by_cases hc : c = o.clientId
    · subst hc
      simp only [position, Map.lookup_insert_eq, if_true, Option.getD_some]
      cases o.side <;> rfl
    · simp [position, hc]
  · rfl

lemma reserved_reserveResting (o : Order) (c : ClientId) (s : Side) :
    (b.reserveResting o).reserved c s = b.reserved c s +
      if o.flags.reduceOnly = true ∧ o.clientId ≠ 0 ∧ c = o.clientId ∧ s = o.side
        then o.leaves else 0 := by
  unfold reserveResting
  by_cases hro : o.flags.reduceOnly = true ∧ o.clientId ≠ 0
  · rw [if_pos hro]
    by_cases hc : c = o.clientId
    · subst hc
      cases s <;> cases hs : o.side <;>
        simp [reserved, Position.reserve, hro]
    · cases s <;> simp [reserved, hc]
  · rw [if_neg hro, if_neg fun h => hro ⟨h.1, h.2.1⟩, Int.add_zero]

/-- The capacity is what the position allows beyond what is reserved. -/
lemma reduceOnlyCapacity_eq (o : Order) : b.reduceOnlyCapacity o
    = o.side.reducible (b.position o.clientId) - b.reserved o.clientId o.side := by
  unfold reduceOnlyCapacity
  cases hp : b.positions.lookup o.clientId <;> cases hs : o.side <;>
    simp [Side.reducible, position, reserved, hp]

lemma position_seedPosition (c : ClientId) (net : ℤ) (c' : ClientId) :
    (b.seedPosition c net).position c' = if c' = c ∧ c ≠ 0 then net else b.position c' := by
  unfold seedPosition
  split_ifs with h0 h h
  · exact absurd h0 h.2
  · rfl
  · simp [position, Map.lookup_insert_eq, h.1]
  · have hne : c' ≠ c := fun hc => h ⟨hc, h0⟩
    simp [position, hne]

lemma reserved_seedPosition (c : ClientId) (net : ℤ) :
    (b.seedPosition c net).reserved = b.reserved := by
  funext c' s
  unfold seedPosition
  split_ifs
  · rfl
  · by_cases hc : c' = c
    · subst hc
      cases s <;> simp [reserved]
    · cases s <;> simp [reserved, hc]

end Updates

end Book

/-! ### Settling executions -/

/-- The account of a submitted order. -/
def accountOf (os : List Order) (id : OrderId) : ClientId :=
  ((os.find? fun o => o.id = id).map (·.clientId)).getD 0

/-- The net positions after an execution; the anonymous account has none. -/
def settle (os : List Order) (net : ClientId → ℤ) (t : Trade) (c : ClientId) : ℤ :=
  net c + (if c = accountOf os t.takerId ∧ c ≠ 0 then t.takerSide.signed t.qty else 0)
    + if c = accountOf os t.makerId ∧ c ≠ 0 then t.takerSide.opposite.signed t.qty else 0

lemma settle_eq {os : List Order} {t : Trade} {x y : ClientId} (hx : accountOf os t.takerId = x)
    (hy : accountOf os t.makerId = y) {net : ClientId → ℤ} (c : ClientId) : settle os net t c
      = net c + (if c = x ∧ x ≠ 0 then t.takerSide.signed t.qty else 0)
        + if c = y ∧ y ≠ 0 then t.takerSide.opposite.signed t.qty else 0 := by
  have hcond : ∀ z : ClientId, (c = z ∧ c ≠ 0) = (c = z ∧ z ≠ 0) := by
    intro z
    refine propext (and_congr_right fun h => ?_)
    rw [h]
  simp only [settle, hx, hy, hcond]

lemma accountOf_eq {os : List Order} (hn : (os.map Order.id).Nodup) {x : Order}
    (h : x.Among os) : accountOf os x.id = x.clientId := by
  obtain ⟨o, ho, hnat⟩ := h
  have hid := Order.id_of_nature hnat
  have hfind : (os.find? fun o => o.id = x.id) = some o := by
    refine (List.find?_eq_some_iff_append).2 ⟨by simpa using hid, ?_⟩
    obtain ⟨as, bs, rfl⟩ := List.append_of_mem ho
    refine ⟨as, bs, rfl, fun a ha => ?_⟩
    rw [List.map_append, List.map_cons] at hn
    have := List.nodup_append.1 hn
    simp only [Bool.not_eq_true', decide_eq_false_iff_not]
    intro hax
    exact this.2.2 a.id (List.mem_map_of_mem ha) o.id (by simp) (hax.trans hid.symm)
  have hcl : x.nature.clientId = o.nature.clientId := by rw [hnat]
  rw [accountOf, hfind]
  exact hcl.symm

/-- The positions of a book without a window after some beats. -/
def Settles (os : List Order) (m : Moment) (ms : List Mut) (m' : Moment) : Prop :=
  m'.book.position = (Mut.trades ms).foldl (settle os) m.book.position

lemma composes_settles (os : List Order) : Composes (Settles os) where
  nil m := rfl
  append h h' := by
    rw [Settles, Mut.trades_append, List.foldl_append, ← h]
    exact h'

open Book in
/-- Inside an operation the executions alone move the positions. -/
lemma Beat.settles {m m' : Moment} {ms : List Mut} (h : Beat m ms m') (hw : m.book.memLevels = 0)
    {os : List Order} (hn : (os.map Order.id).Nodup) (ha : m.All (Order.Among os)) :
    Settles os m ms m' := by
  unfold Settles
  cases h with
  | wane hq _ _ => exact position_congr hq.positions
  | hold _ hx => exact position_congr (holdChild_spec hx).2.1.positions
  | @cross b hand queue bi si p q d hbi hsi hbs hss hq hqx hqy hev hf =>
    have hin : ∀ i, i < queue.length → accountOf os (queued queue i).id
        = (queued queue i).clientId := fun i hi => accountOf_eq hn (ha.hand ⟨_, .auctioned⟩
      (List.mem_append_left _ (List.mem_map_of_mem (queued_mem hi))))
    have hpos : ∀ t, (b.emitTrade t d).positions = b.positions := by simp [emitTrade]
    funext c
    rw [position_applyPosition, position_applyPosition, position_congr (hpos _)]
    exact (settle_eq (t := ⟨_, _, .buy, p, q⟩) (hin bi hbi) (hin si hsi) c).symm
  | @fill b hand x r me rest hr hl he hside hacc hst haon hev hf =>
    have hx := accountOf_eq hn (ha.turn _ rfl)
    have hme := accountOf_eq hn (ha.book.resting _ me he)
    rw [position_congr (positions_fillMaker _ _ _ _ _ _), position_releaseReserved]
    funext c
    rw [position_applyPosition, position_applyPosition, hside]
    exact (settle_eq (t := ⟨x.id, me.order.id, x.side, me.order.price, _⟩) hx hme c).symm
  | prevent he hst hr hev hf =>
    rw [position_congr (positions_stpRemove _ _ _ _), position_releaseReserved]
    rfl
  | rest ev hl hd hnrm hnew htail hev hf =>
    rw [position_congr (positions_rest hw _ ev), position_reserveResting, htail.trades]
    rfl
  | fire hx hnrm hev => exact position_congr (by simp [emitEvent])
  | move hid he hp hne hev hf => exact position_congr (positions_movePegged _ _ _)
  | remove he hev hf =>
    rw [position_congr (positions_removeResting _ _), position_releaseReserved]
    rfl
  | _ => rfl

end Codicis
