/-
The resting book of the reference helper (`tools/storage_helper/main.cc`).

The book and its index refer to each other, and what becomes empty is erased: `consistent_handleAll`
says so of every state that the helper can be in, with its numbers of 64 bits.  A level pull then
answers a slice of the book, which the storage client reads back from the text of the reply
(`pulled_slice`).
-/
import Codicis.Ipc.RestingTable
import Codicis.Ipc.Numbers
import Mathlib.Data.Finset.Card

namespace Codicis

namespace StorageHelper

namespace State

variable {st : State}

/-! ### What becomes empty is erased -/

/-- No side and no level of the book is empty. -/
def Tidy (st : State) : Prop :=
  ∀ key m, st.resting.lookup key = some m →
    m.keys ≠ [] ∧ ∀ price v, m.lookup price = some v → v ≠ []

lemma tidy_empty : ({} : State).Tidy := fun _ _ h => by cases h

lemma Tidy.lookup_prices (h : st.Tidy) {key : String × String} {price : ℤ}
    {v : List RestingOrder} (hv : (st.prices key).lookup price = some v) : v ≠ [] := by
  unfold prices at hv
  cases hm : st.resting.lookup key with
  | none =>
    rw [hm] at hv
    cases hv
  | some m =>
    rw [hm] at hv
    exact (h key m hm).2 price v hv

lemma Tidy.setLevel (h : st.Tidy) (key : String × String) (price : ℤ) {v : List RestingOrder}
    (hv : v ≠ []) : (st.setLevel key price v).Tidy := by
  intro key' m hm
  rw [State.setLevel, Map.lookup_insert_eq] at hm
  split_ifs at hm with hk
  · obtain rfl := Option.some.inj hm
    refine ⟨by simp [AList.keys_insert], fun p v' hv' => ?_⟩
    rw [Map.lookup_insert_eq] at hv'
    split_ifs at hv' with hp
    · exact Option.some.inj hv' ▸ hv
    · exact h.lookup_prices hv'
  · exact h key' m hm

lemma Tidy.removeFrom (h : st.Tidy) (key : String × String) (price : ℤ) (id : ℕ) :
    (st.removeFrom key price id).Tidy := by
  unfold State.removeFrom
  cases hp : st.resting.lookup key with
  | none => exact h
  | some ps =>
    dsimp only
    cases hv : ps.lookup price with
    | none => exact h
    | some v =>
      dsimp only
      set v' := v.filter (·.id ≠ id)
      set ps' := if v' = [] then ps.erase price else ps.insert price v' with hps'
      have hlevel : ∀ p w, ps'.lookup p = some w → w ≠ [] := by
        intro p w hw
        rw [hps'] at hw
        split_ifs at hw with hempty
        · exact (h key ps hp).2 p w (Map.lookup_of_erase hw)
        · rw [Map.lookup_insert_eq] at hw
          split_ifs at hw
          · exact Option.some.inj hw ▸ hempty
          · exact (h key ps hp).2 p w hw
      intro key' m hm
      split_ifs at hm with hkeys
      · exact h key' m (Map.lookup_of_erase hm)
      · rw [Map.lookup_insert_eq] at hm
        split_ifs at hm
        · exact Option.some.inj hm ▸ ⟨hkeys, hlevel⟩
        · exact h key' m hm

lemma Tidy.removeResting (h : st.Tidy) (id : ℕ) : (st.removeResting id).Tidy := by
  unfold State.removeResting
  split
  · exact h
  · exact h.removeFrom _ _ id

lemma Tidy.addResting (h : st.Tidy) (sym side : String) (o : RestingOrder) :
    (st.addResting sym side o).Tidy :=
  (h.removeResting o.id).setLevel (sym, side) o.price (by simp)

/-- The level of a filled order has the order in it. -/
lemma Tidy.fillResting (h : st.Tidy) (hok : st.Ok) (a : Arith) (oid : ℕ) (q : ℤ) :
    (st.fillResting a oid q).Tidy := by
  cases hi : st.restIndex.lookup oid with
  | none =>
    unfold State.fillResting
    rw [hi]
    exact h
  | some loc =>
    obtain ⟨sym, side, price⟩ := loc
    obtain ⟨o, ho, -⟩ := hok.found oid sym side price hi
    have hset := h.setLevel (sym, side) price
      (List.ne_nil_of_mem (List.mem_map_of_mem (f := takeOff oid (taken st.table a oid q)) ho))
    rw [hok.fillResting_eq hi rfl]
    split_ifs
    · exact hset.removeResting oid
    · exact hset

/-- A request keeps the book tidy. -/
lemma Tidy.handle (h : st.Tidy) (hok : st.Ok) (a : Arith) (req : HelperMessage) :
    (st.handle a req).1.Tidy := by
  have hsame : ∀ st' : State, st'.resting = st.resting → st'.Tidy := fun st' hr => by
    unfold Tidy
    rw [hr]
    exact h
  unfold State.handle
  dsimp only
  split_ifs
  · exact hsame _ ((st.reported req.reqId).rememberOrder_keeps a req).1
  · unfold applyFill
    split
    · obtain ⟨hr, hi⟩ := (st.reported req.reqId).movePosition_keeps a _ _
      exact (hsame _ hr).fillResting (hok.of_eq hr hi).1 a _ _
    · exact hsame _ rfl
  · exact hsame _ rfl
  · exact h
  · exact h
  · unfold applyRest
    split
    · exact h.addResting _ _ _
    · exact h
  · unfold applyCancel
    split
    · exact h
    · exact h.removeResting _
  all_goals exact h

/-! ### The book and its index -/

/-- An order of the index is in the book once, at the recorded place; an order of the book is in
the index at its place; nothing is empty. -/
structure Consistent (st : State) : Prop where
  once : ∀ id sym side price, st.restIndex.lookup id = some (sym, side, price) → ∀ key p,
    ((st.restingAt key p).filter (·.id = id)).length = if key = (sym, side) ∧
    p = price then 1 else 0
  indexed : ∀ key price, ∀ o ∈ st.restingAt key price,
    st.restIndex.lookup o.id = some (key.1, key.2, price)
  tidy : st.Tidy

lemma Ok.consistent (h : st.Ok) (ht : st.Tidy) : st.Consistent where
  once := by
    intro id sym side price hi key p
    split_ifs with hkey
    · obtain ⟨rfl, rfl⟩ := hkey
      obtain ⟨o, ho, rfl⟩ := h.found id sym side p hi
      have hone := List.count_eq_one_of_mem (h.nodup (sym, side) p) (List.mem_map_of_mem ho)
      rw [List.count, List.countP_map, List.countP_eq_length_filter] at hone
      exact hone
    · rw [List.length_eq_zero_iff, List.filter_eq_nil_iff]
      rintro o ho hid
      have hloc := (h.indexed key p o ho).1
      rw [of_decide_eq_true hid, hi, Option.some.injEq, Prod.mk.injEq, Prod.mk.injEq] at hloc
      exact hkey ⟨Prod.ext hloc.1.symm hloc.2.1.symm, hloc.2.2.symm⟩
  indexed key price o ho := (h.indexed key price o ho).1
  tidy := ht

end State

/-- The quantities that the reports of a request carry are positive. -/
def Positive (a : Arith) (req : HelperMessage) : Prop :=
  (req.type = "report_rest" → 0 < a.intField req "leaves") ∧
    (req.type = "report_fill" → 0 < a.intField req "qty")

/-- Every row has something to fill. -/
def Table.Live (t : Table) : Prop := ∀ id row, t id = some row → 0 < row.leaves

/-- A fill that leaves nothing deletes the row. -/
lemma Table.Live.applyAll {ws : List Write} (hws : ∀ i r, Write.rest i r ∈ ws → 0 < r.leaves)
    {t : Table} (ht : Live t) : Live (t.applyAll ws) := by
  induction ws generalizing t with
  | nil => exact ht
  | cons w ws ih =>
    refine ih (fun i r hr => hws i r (by simp [hr])) fun i r hr => ?_
    cases w with
    | rest j r' =>
      simp only [Table.apply] at hr
      split_ifs at hr with hij
      · exact Option.some.inj hr ▸ hws j r' (by simp)
      · exact ht i r hr
    | fill j q =>
      simp only [Table.apply] at hr
      split_ifs at hr with hij
      · obtain ⟨r', hr', hfill⟩ := Option.bind_eq_some_iff.1 hr
        unfold Table.fillRow at hfill
        split_ifs at hfill with hle
        obtain rfl := Option.some.inj hfill
        exact not_le.1 hle
      · exact ht i r hr
    | cancel j =>
      simp only [Table.apply] at hr
      split_ifs at hr with hij
      exact ht i r hr

lemma Positive.leaves {a : Arith} {req : HelperMessage} (h : Positive a req) {t : Table} {i : ℕ}
    {r : Row} (hw : Write.rest i r ∈ writesOn t a req) : 0 < r.leaves := by
  unfold writesOn at hw
  split_ifs at hw with h1 h2 h3
  · split at hw <;> simp at hw
  · split at hw
    · obtain ⟨-, rfl⟩ : _ ∧ r = _ := by simpa using hw
      exact h.1 h2
    · simp at hw
  · split at hw <;> simp at hw
  · simp at hw

/-- Requests keep the book and its index in step and tidy, and positive quantities live. -/
lemma State.handleAll_keeps {st : State} (a : Arith) (reqs : List HelperMessage) (hok : st.Ok)
    (h : st.Tidy) : (st.handleAll a reqs).Ok ∧ (st.handleAll a reqs).Tidy ∧
      ((∀ req ∈ reqs, Positive a req) → Table.Live st.table →
        Table.Live (st.handleAll a reqs).table) := by
  induction reqs generalizing st with
  | nil => exact ⟨hok, h, fun _ hlive => hlive⟩
  | cons req reqs ih =>
    obtain ⟨hok', htable⟩ := handle_refines hok a req
    obtain ⟨hoks, htidy, hlives⟩ := ih hok' (h.handle hok a req)
    refine ⟨hoks, htidy, fun hpos hlive => hlives (fun r hr => hpos r (by simp [hr])) ?_⟩
    rw [htable]
    exact hlive.applyAll fun i r hr => (hpos req (by simp)).leaves hr

/-- The order as the storage client reads it. -/
def RestingOrder.pulled (o : RestingOrder) : PulledOrder := ⟨o.id, o.price, o.leaves, o.seq⟩

/-- The numbers of an order have less than 64 bits. -/
def RestingOrder.Small (o : RestingOrder) : Prop :=
  o.id < 2 ^ 63 ∧ o.seq < 2 ^ 63 ∧ o.price.natAbs < 2 ^ 63 ∧ o.leaves.natAbs < 2 ^ 63
deriving Decidable

/-- The characters of a written number. -/
lemma mem_toString {z : ℤ} {c : Char} (h : c ∈ (toString z).toList) :
    c.isDigit = true ∨ c = '-' := by
  cases z with
  | ofNat n => exact .inl (isDigit_of_mem_repr h)
  | negSucc n =>
    rw [toList_toString_negSucc, List.mem_cons] at h
    exact h.symm.imp_left isDigit_of_mem_repr

/-- The characters of a record before its separator. -/
def recordText (o : RestingOrder) : List Char :=
  (toString (o.id : ℤ)).toList ++ ',' :: ((toString o.price).toList ++ ',' ::
    ((toString o.leaves).toList ++ ',' :: (toString (o.seq : ℤ)).toList))

lemma toList_renderOrder (o : RestingOrder) :
    (State.renderOrder o).toList = recordText o ++ [';'] := by
  have hcast : ∀ n : ℕ, (toString n).toList = (toString (n : ℤ)).toList := fun _ => rfl
  simp only [State.renderOrder, recordText, String.toList_append, hcast, List.append_assoc,
    List.cons_append]
  rfl

lemma parseRecord64_recordText {o : RestingOrder} (h : o.Small) :
    StorageClient.parseRecord64 (recordText o) = some o.pulled := by
  have hcomma : ∀ z : ℤ, ',' ∉ (toString z).toList := fun z hmem => by
    rcases mem_toString hmem with h | h <;> revert h <;> decide
  obtain ⟨hid, hseq, hprice, hleaves⟩ := h
  rw [StorageClient.parseRecord64, recordText,
    List.splitOn_append_cons_self_of_not_mem (hcomma _),
    List.splitOn_append_cons_self_of_not_mem (hcomma _),
    List.splitOn_append_cons_self_of_not_mem (hcomma _), List.splitOn_eq_singleton (hcomma _)]
  simp only [List.take_succ_cons, List.take_nil, List.mapM_cons, List.mapM_nil, checkedInt_toString,
    Int.natAbs_natCast, if_pos hid, if_pos hseq, if_pos hprice, if_pos hleaves]
  simp [RestingOrder.pulled]

/-- The orders are read back from the text of a reply. -/
lemma parseOrders64_render {os : List RestingOrder} (h : ∀ o ∈ os, o.Small) :
    StorageClient.parseOrders64 ((os.map State.renderOrder).foldl (· ++ ·) "")
      = some (os.map RestingOrder.pulled) := by
  have htext : ∀ (os : List RestingOrder) (s : String),
    ((os.map State.renderOrder).foldl (· ++ ·) s).toList
      = s.toList ++ os.flatMap fun o => recordText o ++ [';'] := by
    intro os
    induction os with
    | nil => simp
    | cons o os ih =>
      intro s
      rw [List.map_cons, List.foldl_cons, ih, String.toList_append, toList_renderOrder,
        List.flatMap_cons, List.append_assoc]
  have hsemi : ∀ o : RestingOrder, ';' ∉ recordText o := by
    intro o hmem
    have hno : ∀ z : ℤ, ';' ∉ (toString z).toList := fun z hz => by
      rcases mem_toString hz with h | h <;> revert h <;> decide
    simp only [recordText, List.mem_append, List.mem_cons] at hmem
    rcases hmem with hmem | hmem | hmem | hmem | hmem | hmem | hmem
    · exact hno _ hmem
    · revert hmem; decide
    · exact hno _ hmem
    · revert hmem; decide
    · exact hno _ hmem
    · revert hmem; decide
    · exact hno _ hmem
  have hsplit : ∀ os : List RestingOrder, (os.flatMap fun o => recordText o ++ [';']).splitOn ';'
      = os.map recordText ++ [[]] := by
    intro os
    induction os with
    | nil => rfl
    | cons o os ih =>
      rw [List.flatMap_cons, List.append_assoc, List.singleton_append,
        List.splitOn_append_cons_self_of_not_mem (hsemi o), ih]
      rfl
  have hne : ∀ o : RestingOrder, recordText o ≠ [] := fun o => by simp [recordText]
  have hrecords : (((os.map State.renderOrder).foldl (· ++ ·) "").toList.splitOn ';').filter
    (· ≠ [])
      = os.map recordText := by
    rw [htext, String.toList_empty, List.nil_append, hsplit, List.filter_append]
    simp [List.filter_eq_self, hne]
  rw [StorageClient.parseOrders64, hrecords, List.mapM_map]
  exact mapM_eq_map fun o ho => parseRecord64_recordText (h o ho)

/-! ### The slice of the book -/

/-- The price is worse than another one for a side. -/
def worse : Side → ℤ → ℤ → Bool
  | .buy, p, q => p < q
  | .sell, p, q => q < p

/-- The prices of the orders of a side that are worse than `fromPrice`. -/
def deepPrices (st : State) (symbol : Symbol) (side : Side) (fromPrice : ℤ) : Finset ℤ :=
  (st.prices (symbol, sideName side)).keys.toFinset.filter fun p =>
    worse side p fromPrice = true ∧ st.restingAt (symbol, sideName side) p ≠ []

/-- The orders of a side whose price is worse than `fromPrice` and one of the `count` best such
prices, best price first, and by sequence within a price. -/
structure Slice (st : State) (symbol : Symbol) (side : Side) (fromPrice count : ℤ)
    (out : List PulledOrder) : Prop where
  mem_iff : ∀ x, x ∈ out ↔ ∃ o ∈ st.restingAt (symbol, sideName side) x.price, x = o.pulled ∧
    worse side x.price fromPrice = true ∧
      (((deepPrices st symbol side fromPrice).filter fun q => worse side x.price q = true).card : ℤ)
        < count
  ordered : out.Pairwise fun x y =>
    worse side y.price x.price = true ∨ (x.price = y.price ∧ x.seq < y.seq)

/-- The first elements of an ordered list are those with few before them. -/
lemma mem_take_iff {α : Type} {r : α → α → Bool} (hasymm : ∀ a b, r a b = true → r b a = false)
    {l : List α} (hl : l.Pairwise fun a b => r a b = true) {x : α} {n : ℕ} :
    x ∈ l.take n ↔ x ∈ l ∧ (l.filter fun a => r a x).length < n := by
  have hirr : ∀ a, r a a = false := fun a => by
    cases ha : r a a
    · rfl
    · exact absurd ha (by rw [hasymm a a ha]; decide)
  induction l generalizing n with
  | nil => simp
  | cons a l ih =>
    obtain ⟨ha, hl⟩ := List.pairwise_cons.1 hl
    cases n with
    | zero => simp
    | succ n =>
      have hrest : x ∈ l.take n ↔ x ∈ l ∧ (l.filter fun a => r a x).length < n := ih hl
      rw [List.take_succ_cons, List.mem_cons, List.mem_cons, hrest, List.filter_cons]
      by_cases hxa : x = a
      · subst hxa
        have hnone : l.filter (fun b => r b x) = [] :=
          List.filter_eq_nil_iff.2 fun b hb => by simp [hasymm x b (ha b hb)]
        simp [hirr, hnone]
      · simp only [hxa, false_or]
        refine and_congr_right fun hx => ?_
        rw [if_pos (ha x hx), List.length_cons, Nat.add_lt_add_iff_right]

lemma mem_pricesBeyond {m : Prices} {side : Side} {fromPrice p : ℤ} :
    p ∈ State.pricesBeyond m (sideName side) fromPrice ↔ p ∈ m.keys ∧
    worse side p fromPrice = true := by
  cases side <;> simp [State.pricesBeyond, sideName, worse, List.mem_insertionSort]

lemma pairwise_pricesBeyond (m : Prices) (side : Side) (fromPrice : ℤ) :
    (State.pricesBeyond m (sideName side) fromPrice).Pairwise fun p q => worse side q p = true := by
  have hlt : (m.keys.insertionSort (· ≤ ·)).Pairwise (· < ·) := by
    have hle := List.pairwise_insertionSort (· ≤ ·) m.keys
    have hne : (m.keys.insertionSort (· ≤ ·)).Nodup :=
      (List.perm_insertionSort _ _).nodup_iff.2 m.keys_nodup
    exact hle.imp₂ (fun _ _ hle hne => lt_of_le_of_ne hle hne) hne
  cases side with
  | buy =>
    have hrev : ((m.keys.insertionSort (· ≤ ·)).reverse).Pairwise (fun p q => q < p) :=
      List.pairwise_reverse.2 hlt
    simpa [State.pricesBeyond, sideName, worse] using hrev.filter (fun p => decide (p < fromPrice))
  | sell =>
    simpa [State.pricesBeyond, sideName, worse] using hlt.filter (fun p => decide (fromPrice < p))

/-- Of a tidy book, the prices that a pull passes over are those of orders. -/
lemma card_better (st : State) (h : st.Tidy) (symbol : Symbol) (side : Side) (fromPrice p : ℤ) :
    ((deepPrices st symbol side fromPrice).filter fun q => worse side p q = true).card
      = ((State.pricesBeyond (st.prices (symbol, sideName side)) (sideName side) fromPrice).filter
          fun q => worse side p q).length := by
  set m := st.prices (symbol, sideName side) with hm
  have hnodup : (State.pricesBeyond m (sideName side) fromPrice).Nodup := by
    refine (pairwise_pricesBeyond m side fromPrice).imp fun {p q} hw => ?_
    rintro rfl
    cases side <;> simp [worse] at hw
  rw [← List.toFinset_card_of_nodup (hnodup.filter _)]
  congr 1
  ext q
  simp only [deepPrices, Finset.mem_filter, List.mem_toFinset, List.mem_filter, mem_pricesBeyond,
    and_assoc]
  refine and_congr_right fun hq => and_congr_right fun _ => and_iff_right ?_
  obtain ⟨v, hv⟩ := Map.mem_iff_lookup.1 (AList.mem_keys.2 hq)
  rw [State.restingAt, ← hm, hv]
  exact h.lookup_prices hv

/-- What the helper may be asked to pull: numbers of less than 64 bits, and no two orders of a
level with one sequence number. -/
structure Storable (st : State) : Prop where
  small : ∀ key price, ∀ o ∈ st.restingAt key price, o.Small
  distinct : ∀ key price, ((st.restingAt key price).map (·.seq)).Nodup

/-- It is enough to look at the levels that the book holds. -/
lemma storable_of_pairs {st : State} (h : ∀ e ∈ st.resting.pairs, ∀ l ∈ e.2.pairs,
    (∀ o ∈ l.2, o.Small) ∧ (l.2.map (·.seq)).Nodup) : Storable st := by
  have hat : ∀ key price, (∀ o ∈ st.restingAt key price, o.Small) ∧
      ((st.restingAt key price).map (·.seq)).Nodup := by
    intro key price
    unfold State.restingAt State.prices
    cases hm : st.resting.lookup key with
    | none => simp
    | some m =>
      cases hv : m.lookup price with
      | none => simp [hv]
      | some v =>
        simp only [Option.getD_some, hv]
        exact h (key, m) (Map.mem_pairs.2 hm) (price, v) (Map.mem_pairs.2 hv)
  exact ⟨fun key price => (hat key price).1, fun key price => (hat key price).2⟩

lemma slice_pulledLevels {st : State} (hok : st.Ok) (htidy : st.Tidy) (h : Storable st)
    (symbol : Symbol) (side : Side) (fromPrice count : ℤ) :
    Slice st symbol side fromPrice count
      ((State.pulledLevels (st.prices (symbol, sideName side))
        (sideName side) fromPrice count).flatten.map
        RestingOrder.pulled) := by
  set key := (symbol, sideName side) with hkey
  set ps := (State.pricesBeyond (st.prices key) (sideName side) fromPrice).take count.toNat with hps
  have hlevels : State.pulledLevels (st.prices key) (sideName side) fromPrice count
      = ps.map fun p => (st.restingAt key p).insertionSort (·.seq ≤ ·.seq) := rfl
  have hprice : ∀ {p : ℤ} {o : RestingOrder},
      o ∈ (st.restingAt key p).insertionSort (·.seq ≤ ·.seq) → o.price = p := fun ho =>
    (hok.indexed _ _ _ ((List.mem_insertionSort _).1 ho)).2
  have hasymm : ∀ p q, worse side q p = true → worse side p q = false := by
    intro p q hw
    cases side <;> simp only [worse, decide_eq_true_eq, decide_eq_false_iff_not, not_lt] at hw ⊢ <;>
      exact hw.le
  rw [hlevels]
  constructor
  · intro x
    rw [List.mem_map]
    constructor
    · rintro ⟨o, ho, rfl⟩
      obtain ⟨v, hv, hov⟩ := List.mem_flatten.1 ho
      obtain ⟨p, hp, rfl⟩ := List.mem_map.1 hv
      obtain rfl : o.price = p := hprice hov
      obtain ⟨hmem, hfew⟩ := (mem_take_iff hasymm (pairwise_pricesBeyond _ _ _)).1 hp
      refine ⟨o, (List.mem_insertionSort _).1 hov, rfl, (mem_pricesBeyond.1 hmem).2, ?_⟩
      rw [card_better st htidy]
      exact Int.lt_toNat.1 hfew
    · rintro ⟨o, ho, rfl, hworse, hfew⟩
      refine ⟨o, List.mem_flatten.2 ⟨_, List.mem_map.2 ⟨o.price, ?_, rfl⟩,
        (List.mem_insertionSort _).2 ho⟩, rfl⟩
      refine (mem_take_iff hasymm (pairwise_pricesBeyond _ _ _)).2
        ⟨mem_pricesBeyond.2 ⟨?_, hworse⟩, ?_⟩
      · refine AList.mem_keys.1 (Map.mem_iff_lookup.2 ?_)
        cases hv : (st.prices key).lookup o.price with
        | none =>
          rw [State.restingAt] at ho
          simp [RestingOrder.pulled, ← hkey, hv] at ho
        | some v => exact ⟨v, rfl⟩
      · rw [card_better st htidy] at hfew
        exact Int.lt_toNat.2 hfew
  · rw [List.pairwise_map, List.pairwise_flatten]
    constructor
    · rintro v hv
      obtain ⟨p, -, rfl⟩ := List.mem_map.1 hv
      have hle : ((st.restingAt key p).insertionSort (·.seq ≤ ·.seq)).Pairwise (·.seq ≤ ·.seq) := by
        have : Std.Total fun a b : RestingOrder => a.seq ≤ b.seq :=
          ⟨fun a b => le_total a.seq b.seq⟩
        have : IsTrans RestingOrder fun a b => a.seq ≤ b.seq := ⟨fun _ _ _ => le_trans⟩
        exact List.pairwise_insertionSort _ _
      have hne : ((st.restingAt key p).insertionSort (·.seq ≤ ·.seq)).Pairwise (·.seq ≠ ·.seq) := by
        rw [← List.pairwise_map (f := RestingOrder.seq) (R := (· ≠ ·))]
        exact ((List.perm_insertionSort _ _).map _).nodup_iff.2 (h.distinct key p)
      refine ((hle.and hne).imp_of_mem fun {a b} ha hb hab => ?_)
      exact .inr ⟨(hprice ha).trans (hprice hb).symm, lt_of_le_of_ne hab.1 hab.2⟩
    · rw [List.pairwise_map]
      refine ((pairwise_pricesBeyond _ side fromPrice).take).imp fun {p q} hw a ha b hb => ?_
      left
      rw [RestingOrder.pulled, RestingOrder.pulled, hprice ha, hprice hb]
      exact hw

/-- The storage client reads exactly the requested slice from the reply to a level pull. -/
theorem pulled_slice (reqs : List HelperMessage) (h : Storable (State.handleAll {} .exact reqs))
    (reqId : ℕ) (symbol : Symbol) (side : Side) (fromPrice count : ℤ) :
    let st := State.handleAll {} .exact reqs
    let req := StorageClient.pullLevels symbol side fromPrice count
    ∃ blob out, (st.handle .exact ⟨reqId, req.type, req.fields⟩).2.get "orders" = some blob ∧
      StorageClient.parseOrders64 blob = some out ∧ StorageClient.parseOrders blob = out ∧
        Slice st symbol side fromPrice count out := by
  intro st req
  obtain ⟨hok, htidy, -⟩ := State.handleAll_keeps .exact reqs State.ok_empty State.tidy_empty
  have hslice := slice_pulledLevels hok htidy h symbol side fromPrice count
  have hsmall : ∀ o ∈ (State.pulledLevels (st.prices (symbol, sideName side)) (sideName side)
      fromPrice count).flatten, o.Small := by
    intro o ho
    obtain ⟨v, hv, hov⟩ := List.mem_flatten.1 ho
    obtain ⟨p, -, rfl⟩ := List.mem_map.1 hv
    exact h.small _ p o ((List.mem_insertionSort _).1 hov)
  have hread := parseOrders64_render hsmall
  refine ⟨_, _, ?_, hread, StorageClient.parseOrders_of_parseOrders64 hread, hslice⟩
  have hfrom : Arith.exact.intField ⟨reqId, req.type, req.fields⟩ "from_price" = fromPrice :=
    parseInt_toString fromPrice
  have hcount : Arith.exact.intField ⟨reqId, req.type, req.fields⟩ "count" = count :=
    parseInt_toString count
  rw [← hfrom, ← hcount]
  rfl

/-- Two levels below 103 are asked for; the first of them has two orders. -/
theorem pulled_slice_two_levels :
    let rest (id price seq : String) : HelperMessage :=
      ⟨0, "report_rest", [("symbol", "ABC"), ("side", "buy"), ("id", id), ("price", price),
        ("leaves", "5"), ("seq", seq)]⟩
    let st := State.handleAll {} .exact [rest "1" "101" "9", rest "2" "101" "8", rest "3" "100" "7",
      rest "4" "99" "6", rest "5" "103" "5"]
    Storable st ∧ Slice st "ABC" .buy 103 2 [⟨2, 101, 5, 8⟩, ⟨1, 101, 5, 9⟩, ⟨3, 100, 5, 7⟩] := by
  intro rest st
  have hst : Storable st := storable_of_pairs (by decide +kernel)
  obtain ⟨blob, out, hblob, hout, -, hslice⟩ := pulled_slice
    [rest "1" "101" "9", rest "2" "101" "8", rest "3" "100" "7", rest "4" "99" "6",
      rest "5" "103" "5"] hst 6 "ABC" .buy 103 2
  have hreply : (st.handle .exact ⟨6, "pull_levels",
    (StorageClient.pullLevels "ABC" .buy 103 2).fields⟩).2.get
      "orders" = some "2,101,5,8;1,101,5,9;3,100,5,7;" := by decide +kernel
  obtain rfl := Option.some.inj (hblob.symm.trans hreply)
  have hread : StorageClient.parseOrders64 "2,101,5,8;1,101,5,9;3,100,5,7;"
      = some [⟨2, 101, 5, 8⟩, ⟨1, 101, 5, 9⟩, ⟨3, 100, 5, 7⟩] := by decide +kernel
  exact ⟨hst, Option.some.inj (hout.symm.trans hread) ▸ hslice⟩

end StorageHelper

end Codicis
