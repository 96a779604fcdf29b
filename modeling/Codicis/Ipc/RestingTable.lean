/-
The resting book of the storage helper, abstractly: a table from order ids to rows.

A report of a resting order writes its row, a fill takes its quantity off the row and
deletes it when nothing is left, a cancel deletes it; no other request touches the
table.  `handle_refines` shows that the helper of `Ipc/StorageHelper.lean`, which keeps
its orders by symbol, side and price and an index beside them, does just this.
-/
import Codicis.Ipc.StorageHelper
import Codicis.Ipc.StorageClient

namespace Codicis

/-- A row of the resting table. -/
structure Row where
  symbol : String
  side : String
  price : ℤ
  leaves : ℤ
  seq : ℕ
deriving DecidableEq, Repr

/-- The resting orders by id. -/
abbrev Table : Type := ℕ → Option Row

/-- What a request does to the table. -/
inductive Write
  | rest (id : ℕ) (row : Row)
  | fill (id : ℕ) (qty : ℤ)
  | cancel (id : ℕ)
deriving DecidableEq, Repr

namespace Table

/-- The row of an order after a fill. -/
def fillRow (qty : ℤ) (row : Row) : Option Row :=
  if row.leaves - qty ≤ 0 then none else some { row with leaves := row.leaves - qty }

/-- The table after a write. -/
def apply (t : Table) : Write → Table
  | .rest id row => fun i => if i = id then some row else t i
  | .fill id qty => fun i => if i = id then (t i).bind (fillRow qty) else t i
  | .cancel id => fun i => if i = id then none else t i

/-- The table after some writes. -/
def applyAll (t : Table) (ws : List Write) : Table := ws.foldl apply t

@[simp] lemma applyAll_nil (t : Table) : t.applyAll [] = t := rfl

@[simp] lemma applyAll_cons (t : Table) (w : Write) (ws : List Write) :
    t.applyAll (w :: ws) = (t.apply w).applyAll ws := rfl

@[simp] lemma applyAll_append (t : Table) (ws ws' : List Write) :
    t.applyAll (ws ++ ws') = (t.applyAll ws).applyAll ws' := List.foldl_append

/-- What writes make of a row depends on that row only. -/
lemma applyAll_congr {t t' : Table} {id : ℕ} (h : t id = t' id) (ws : List Write) :
    t.applyAll ws id = t'.applyAll ws id := by
  induction ws generalizing t t' with
  | nil => exact h
  | cons w ws ih =>
    refine ih ?_
    cases w <;> simp only [apply, h]

end Table

namespace StorageHelper

namespace State

variable {st : State}

/-! ### Levels -/

lemma restingAt_setLevel (st : State) (key : String × String) (price : ℤ) (v : List RestingOrder)
    (key' : String × String) (price' : ℤ) :
    (st.setLevel key price v).restingAt key' price'
      = if key' = key ∧ price' = price then v else st.restingAt key' price' := by
  unfold restingAt prices setLevel
  rw [Map.lookup_insert_eq]
  by_cases hk : key' = key
  · subst hk
    rw [if_pos rfl, Option.getD_some, Map.lookup_insert_eq]
    by_cases hp : price' = price <;> simp [hp, prices]
  · simp [hk]

lemma eq_empty_of_keys {m : Prices} (h : m.keys = []) : m = ∅ :=
  AList.ext (List.map_eq_nil_iff.1 h)

/-- An order that is taken out of its level is gone from it, and nothing else is. -/
lemma restingAt_removeFrom (st : State) (key : String × String) (price : ℤ) (id : ℕ)
    (key' : String × String) (price' : ℤ) :
    (st.removeFrom key price id).restingAt key' price'
      = if key' = key ∧ price' = price then (st.restingAt key' price').filter (·.id ≠ id)
        else st.restingAt key' price' := by
  have hnil : ∀ l : List RestingOrder, l = [] →
      l = if key' = key ∧ price' = price then l.filter (·.id ≠ id) else l := by
    rintro l rfl
    split_ifs <;> rfl
  unfold removeFrom
  cases hp : st.resting.lookup key with
  | none =>
    dsimp only
    by_cases hk : key' = key
    · subst hk
      exact hnil _ (by simp [restingAt, prices, hp])
    · rw [if_neg fun h => hk h.1]
  | some ps =>
    dsimp only
    cases hv : ps.lookup price with
    | none =>
      dsimp only
      by_cases hk : key' = key ∧ price' = price
      · obtain ⟨rfl, rfl⟩ := hk
        exact hnil _ (by simp [restingAt, prices, hp, hv])
      · rw [if_neg hk]
    | some v =>
      dsimp only
      set v' := v.filter (·.id ≠ id) with hv'
      set ps' := if v' = [] then ps.erase price else ps.insert price v' with hps'
      -- the levels of the side, whether the level went or not
      have hlevel : ∀ p, (ps'.lookup p).getD []
          = if p = price then v' else (ps.lookup p).getD [] := by
        intro p
        rw [hps']
        split_ifs with h1 h2 h2
        · rw [Map.lookup_erase_eq, if_pos h2, h1]
          rfl
        · rw [Map.lookup_erase_eq, if_neg h2]
        · rw [Map.lookup_insert_eq, if_pos h2]
          rfl
        · rw [Map.lookup_insert_eq, if_neg h2]
      have hside : ∀ k, ((if ps'.keys = [] then st.resting.erase key
          else st.resting.insert key ps').lookup k).getD ∅
          = if k = key then ps' else (st.resting.lookup k).getD ∅ := by
        intro k
        split_ifs with h1 h2 h2
        · rw [Map.lookup_erase_eq, if_pos h2, eq_empty_of_keys h1]
          rfl
        · rw [Map.lookup_erase_eq, if_neg h2]
        · rw [Map.lookup_insert_eq, if_pos h2]
          rfl
        · rw [Map.lookup_insert_eq, if_neg h2]
      simp only [restingAt, prices, hside]
      by_cases hk : key' = key
      · subst hk
        rw [if_pos rfl, hlevel, hp, Option.getD_some]
        by_cases hpr : price' = price
        · subst hpr
          simp [hv, hv']
        · simp [hpr]
      · simp [hk]

/-! ### The index -/

/-- The index says where each order rests. -/
structure Ok (st : State) : Prop where
  indexed : ∀ key price, ∀ o ∈ st.restingAt key price,
    st.restIndex.lookup o.id = some (key.1, key.2, price) ∧ o.price = price
  found : ∀ id sym side price, st.restIndex.lookup id = some (sym, side, price) →
    ∃ o ∈ st.restingAt (sym, side) price, o.id = id
  nodup : ∀ key price, ((st.restingAt key price).map (·.id)).Nodup

/-- The table that the helper keeps. -/
def table (st : State) : Table := fun id =>
  (st.restIndex.lookup id).bind fun loc =>
    ((st.restingAt (loc.1, loc.2.1) loc.2.2).find? (·.id = id)).map fun o =>
      ⟨loc.1, loc.2.1, loc.2.2, o.leaves, o.seq⟩

lemma Ok.eq_of_id (h : st.Ok) {key : String × String} {price : ℤ} {o o' : RestingOrder}
    (ho : o ∈ st.restingAt key price) (ho' : o' ∈ st.restingAt key price) (hid : o.id = o'.id) :
    o = o' := List.inj_on_of_nodup_map (h.nodup key price) ho ho' hid

/-- The rows of the table are the orders of the levels. -/
lemma Ok.table_eq_some (h : st.Ok) {id : ℕ} {row : Row} : st.table id = some row ↔
    ∃ o ∈ st.restingAt (row.symbol, row.side) row.price,
      o.id = id ∧ o.leaves = row.leaves ∧ o.seq = row.seq := by
  unfold table
  constructor
  · intro hrow
    obtain ⟨⟨sym, side, price⟩, -, hrow⟩ := Option.bind_eq_some_iff.1 hrow
    obtain ⟨o, ho, rfl⟩ := Option.map_eq_some_iff.1 hrow
    exact ⟨o, List.mem_of_find?_eq_some ho, by simpa using List.find?_some ho, rfl, rfl⟩
  · rintro ⟨o, ho, rfl, hl, hs⟩
    obtain ⟨hidx, -⟩ := h.indexed _ _ o ho
    have hfind : (st.restingAt (row.symbol, row.side) row.price).find? (·.id = o.id) = some o := by
      obtain ⟨o', ho'⟩ : ∃ o', (st.restingAt (row.symbol, row.side) row.price).find?
          (·.id = o.id) = some o' :=
        Option.isSome_iff_exists.1 (List.find?_isSome.2 ⟨o, ho, by simp⟩)
      have hid : o'.id = o.id := by simpa using List.find?_some ho'
      rw [ho', h.eq_of_id (List.mem_of_find?_eq_some ho') ho hid]
    simp [hidx, hfind, hl, hs]

/-- Nothing but the index and the levels matters. -/
lemma Ok.of_eq {st' : State} (h : st.Ok) (hr : st'.resting = st.resting)
    (hi : st'.restIndex = st.restIndex) : st'.Ok ∧ st'.table = st.table := by
  have hat : st'.restingAt = st.restingAt := by
    unfold restingAt prices
    rw [hr]
  refine ⟨⟨?_, ?_, ?_⟩, ?_⟩
  · rw [hat, hi]
    exact h.indexed
  · rw [hat, hi]
    exact h.found
  · rw [hat]
    exact h.nodup
  · unfold table
    rw [hat, hi]

/-- A removed order is nowhere. -/
lemma Ok.restingAt_removeResting (h : st.Ok) (id : ℕ) (key : String × String) (price : ℤ) :
    (st.removeResting id).restingAt key price
      = (st.restingAt key price).filter (·.id ≠ id) := by
  have hkeep : ∀ {key : String × String} {price : ℤ},
      st.restIndex.lookup id ≠ some (key.1, key.2, price) →
      (st.restingAt key price).filter (·.id ≠ id) = st.restingAt key price := by
    intro key price hne
    refine List.filter_eq_self.2 fun o ho => ?_
    simp only [ne_eq, decide_eq_true_eq]
    rintro rfl
    exact hne (h.indexed key price o ho).1
  unfold removeResting
  cases hi : st.restIndex.lookup id with
  | none => exact (hkeep (by simp [hi])).symm
  | some loc =>
    obtain ⟨sym, side, p⟩ := loc
    show (st.removeFrom (sym, side) p id).restingAt key price = _
    rw [restingAt_removeFrom]
    split_ifs with heq
    · rfl
    · refine (hkeep ?_).symm
      rw [hi]
      intro hloc
      simp only [Option.some.injEq, Prod.mk.injEq] at hloc
      exact heq ⟨Prod.ext hloc.1.symm hloc.2.1.symm, hloc.2.2.symm⟩

lemma restIndex_removeFrom (st : State) (key : String × String) (price : ℤ) (id : ℕ) :
    (st.removeFrom key price id).restIndex = st.restIndex := by
  unfold removeFrom
  (repeat' split) <;> rfl

lemma restIndex_removeResting (st : State) (id i : ℕ) :
    (st.removeResting id).restIndex.lookup i = if i = id then none else st.restIndex.lookup i := by
  unfold removeResting
  cases hi : st.restIndex.lookup id with
  | none =>
    split_ifs with h
    · rw [h, hi]
    · rfl
  | some loc =>
    show ((st.removeFrom (loc.1, loc.2.1) loc.2.2 id).restIndex.erase id).lookup i = _
    rw [restIndex_removeFrom, Map.lookup_erase_eq]

lemma Ok.removeResting (h : st.Ok) (id : ℕ) :
    (st.removeResting id).Ok ∧ (st.removeResting id).table = st.table.apply (.cancel id) := by
  have hok : (st.removeResting id).Ok := by
    refine ⟨fun key price o ho => ?_, fun i sym side price hi => ?_, fun key price => ?_⟩
    · rw [h.restingAt_removeResting, List.mem_filter] at ho
      rw [restIndex_removeResting, if_neg (by simpa using ho.2)]
      exact h.indexed key price o ho.1
    · rw [restIndex_removeResting] at hi
      split_ifs at hi with hne
      obtain ⟨o, ho, rfl⟩ := h.found i sym side price hi
      refine ⟨o, ?_, rfl⟩
      rw [h.restingAt_removeResting, List.mem_filter]
      exact ⟨ho, by simpa using hne⟩
    · rw [h.restingAt_removeResting]
      exact (h.nodup key price).sublist (List.filter_sublist.map _)
  refine ⟨hok, funext fun i => Option.ext fun row => ?_⟩
  rw [hok.table_eq_some]
  simp only [h.restingAt_removeResting, List.mem_filter, Table.apply]
  split_ifs with hi
  · refine iff_of_false ?_ (by simp)
    rintro ⟨o, ⟨-, hne⟩, rfl, -⟩
    exact absurd hi (by simpa using hne)
  · rw [h.table_eq_some]
    constructor
    · rintro ⟨o, ⟨ho, -⟩, hrest⟩
      exact ⟨o, ho, hrest⟩
    · rintro ⟨o, ho, rfl, hrest⟩
      exact ⟨o, ⟨ho, by simpa using hi⟩, rfl, hrest⟩

lemma Ok.addResting (h : st.Ok) (sym side : String) (o : RestingOrder) :
    (st.addResting sym side o).Ok ∧ (st.addResting sym side o).table
      = st.table.apply (.rest o.id ⟨sym, side, o.price, o.leaves, o.seq⟩) := by
  obtain ⟨hrem, htab⟩ := h.removeResting o.id
  -- where the orders are after the report
  have hat : ∀ key price, (st.addResting sym side o).restingAt key price
      = if key = (sym, side) ∧ price = o.price then
          (st.removeResting o.id).restingAt key price ++ [o]
        else (st.removeResting o.id).restingAt key price := by
    intro key price
    show ((st.removeResting o.id).setLevel (sym, side) o.price _).restingAt key price = _
    rw [restingAt_setLevel]
    split_ifs with heq
    · rw [heq.1, heq.2]
    · rfl
  have hidx : ∀ i, (st.addResting sym side o).restIndex.lookup i
      = if i = o.id then some (sym, side, o.price)
        else (st.removeResting o.id).restIndex.lookup i := fun i => Map.lookup_insert_eq _ _ _ _
  have hnot : ∀ key price, ∀ x ∈ (st.removeResting o.id).restingAt key price, x.id ≠ o.id := by
    intro key price x hx
    rw [h.restingAt_removeResting, List.mem_filter] at hx
    simpa using hx.2
  have hok : (st.addResting sym side o).Ok := by
    refine ⟨fun key price x hx => ?_, fun i sym' side' price hi => ?_, fun key price => ?_⟩
    · rw [hat] at hx
      rw [hidx]
      split_ifs at hx with hkey
      · rcases List.mem_append.1 hx with hx | hx
        · rw [if_neg (hnot key price x hx)]
          exact hrem.indexed key price x hx
        · obtain rfl := List.mem_singleton.1 hx
          rw [if_pos rfl, hkey.1, hkey.2]
          exact ⟨rfl, rfl⟩
      · rw [if_neg (hnot key price x hx)]
        exact hrem.indexed key price x hx
    · rw [hidx] at hi
      rw [hat]
      split_ifs at hi with hid
      · simp only [Option.some.injEq, Prod.mk.injEq] at hi
        obtain ⟨rfl, rfl, rfl⟩ := hi
        exact ⟨o, by simp, hid.symm⟩
      · obtain ⟨x, hx, hxi⟩ := hrem.found i sym' side' price hi
        refine ⟨x, ?_, hxi⟩
        split_ifs
        · exact List.mem_append_left _ hx
        · exact hx
    · rw [hat]
      split_ifs
      · rw [List.map_append]
        refine (hrem.nodup key price).append (by simp) fun i hi hi' => ?_
        obtain ⟨x, hx, rfl⟩ := List.mem_map.1 hi
        exact hnot key price x hx (by simpa using hi')
      · exact hrem.nodup key price
  refine ⟨hok, funext fun i => Option.ext fun row => ?_⟩
  rw [hok.table_eq_some, hat]
  by_cases hi : i = o.id
  · subst hi
    simp only [Table.apply, if_true, Option.some.injEq]
    constructor
    · rintro ⟨x, hx, hid, hl, hs⟩
      split_ifs at hx with hkey
      · rcases List.mem_append.1 hx with hx | hx
        · exact absurd hid (hnot _ _ x hx)
        · obtain rfl := List.mem_singleton.1 hx
          simp only [Prod.mk.injEq] at hkey
          rw [← hkey.1.1, ← hkey.1.2, ← hkey.2, hl, hs]
      · exact absurd hid (hnot _ _ x hx)
    · rintro rfl
      exact ⟨o, by simp, rfl, rfl, rfl⟩
  · have hrow : st.table i = (st.removeResting o.id).table i := by
      rw [htab]
      simp [Table.apply, hi]
    simp only [Table.apply, if_neg hi]
    rw [hrow, hrem.table_eq_some]
    refine exists_congr fun x => and_congr_left fun hx => ?_
    split_ifs
    · have hne : x ≠ o := fun h => hi (h ▸ hx.1).symm
      simp [hne]
    · rfl

/-- A fill takes its quantity off the order with the id `oid`. -/
def takeOff (oid : ℕ) (q : ℤ) (o : RestingOrder) : RestingOrder :=
  if o.id = oid then { o with leaves := o.leaves - q } else o

@[simp] lemma id_takeOff (oid : ℕ) (q : ℤ) (o : RestingOrder) : (takeOff oid q o).id = o.id := by
  unfold takeOff
  split_ifs <;> rfl

@[simp] lemma price_takeOff (oid : ℕ) (q : ℤ) (o : RestingOrder) :
    (takeOff oid q o).price = o.price := by
  unfold takeOff
  split_ifs <;> rfl

@[simp] lemma seq_takeOff (oid : ℕ) (q : ℤ) (o : RestingOrder) :
    (takeOff oid q o).seq = o.seq := by
  unfold takeOff
  split_ifs <;> rfl

/-- What a fill leaves of an order of a level. -/
lemma leavesLeft_map {v : List RestingOrder} (hn : (v.map (·.id)).Nodup) {o : RestingOrder}
    (ho : o ∈ v) (q : ℤ) : leavesLeft (v.map (takeOff o.id q)) o.id = o.leaves - q := by
  have hmem : takeOff o.id q o ∈ (v.map (takeOff o.id q)).filter (·.id = o.id) :=
    List.mem_filter.2 ⟨List.mem_map_of_mem ho, by simp⟩
  unfold leavesLeft
  cases hlast : ((v.map (takeOff o.id q)).filter (·.id = o.id)).getLast? with
  | none =>
    rw [List.getLast?_eq_none_iff] at hlast
    rw [hlast] at hmem
    exact absurd hmem List.not_mem_nil
  | some z =>
    obtain ⟨hz, hid⟩ := List.mem_filter.1 (List.mem_of_getLast? hlast)
    obtain ⟨x, hx, rfl⟩ := List.mem_map.1 hz
    obtain rfl : x = o := List.inj_on_of_nodup_map hn hx ho (by simpa using hid)
    simp [takeOff]

/-- The level of a filled order. -/
lemma Ok.setLevel_fill (h : st.Ok) {oid : ℕ} {sym side : String} {price : ℤ}
    (hi : st.restIndex.lookup oid = some (sym, side, price)) (q : ℤ) :
    (st.setLevel (sym, side) price ((st.restingAt (sym, side) price).map (takeOff oid q))).Ok ∧
      ∀ key p, (st.setLevel (sym, side) price
        ((st.restingAt (sym, side) price).map (takeOff oid q))).restingAt key p
          = (st.restingAt key p).map (takeOff oid q) := by
  have hat : ∀ key p, (st.setLevel (sym, side) price
      ((st.restingAt (sym, side) price).map (takeOff oid q))).restingAt key p
        = (st.restingAt key p).map (takeOff oid q) := by
    intro key p
    rw [restingAt_setLevel]
    split_ifs with hkey
    · rw [hkey.1, hkey.2]
    · -- the order is in no other level
      symm
      conv_rhs => rw [← List.map_id (st.restingAt key p)]
      refine List.map_congr_left fun o ho => ?_
      have hne : o.id ≠ oid := by
        rintro rfl
        have hloc := (h.indexed key p o ho).1
        rw [hi, Option.some.injEq, Prod.mk.injEq, Prod.mk.injEq] at hloc
        exact hkey ⟨Prod.ext hloc.1.symm hloc.2.1.symm, hloc.2.2.symm⟩
      simp [takeOff, hne]
  refine ⟨⟨fun key p o ho => ?_, fun i s' d' p hloc => ?_, fun key p => ?_⟩, hat⟩
  · rw [hat] at ho
    obtain ⟨x, hx, rfl⟩ := List.mem_map.1 ho
    rw [id_takeOff, price_takeOff]
    exact h.indexed key p x hx
  · obtain ⟨x, hx, hxi⟩ := h.found i s' d' p hloc
    rw [hat]
    exact ⟨_, List.mem_map_of_mem hx, by simpa using hxi⟩
  · rw [hat, List.map_map]
    have heq : (fun o : RestingOrder => o.id) ∘ takeOff oid q = fun o => o.id := by
      funext o
      simp
    rw [heq]
    exact h.nodup key p

/-- What a fill takes off an order that rests: the quantity, unless the numbers wrap around. -/
def taken (t : Table) (a : Arith) (oid : ℕ) (q : ℤ) : ℤ :=
  ((t oid).map fun row => row.leaves - a.norm (row.leaves - q)).getD q

@[simp] lemma taken_exact (t : Table) (oid : ℕ) (q : ℤ) : taken t .exact oid q = q := by
  cases h : t oid <;> simp [taken, h, Arith.exact]

/-- A fill of an order that rests. -/
lemma Ok.fillResting_eq (h : st.Ok) {a : Arith} {oid : ℕ} {sym side : String} {price : ℤ}
    (hi : st.restIndex.lookup oid = some (sym, side, price)) {q q' : ℤ}
    (hq : taken st.table a oid q = q') :
    st.fillResting a oid q =
      if leavesLeft ((st.restingAt (sym, side) price).map (takeOff oid q')) oid ≤ 0 then
        (st.setLevel (sym, side) price
          ((st.restingAt (sym, side) price).map (takeOff oid q'))).removeResting oid
      else st.setLevel (sym, side) price
        ((st.restingAt (sym, side) price).map (takeOff oid q')) := by
  have hmap : ((st.restingAt (sym, side) price).map fun o =>
      if o.id = oid then { o with leaves := a.norm (o.leaves - q) } else o)
      = (st.restingAt (sym, side) price).map (takeOff oid q') := by
    refine List.map_congr_left fun o ho => ?_
    unfold takeOff
    split_ifs with hid
    · have hrow : st.table oid = some ⟨sym, side, price, o.leaves, o.seq⟩ :=
        h.table_eq_some.2 ⟨o, ho, hid, rfl, rfl⟩
      rw [← hq, taken, hrow, Option.map_some, Option.getD_some, sub_sub_cancel]
    · rfl
  unfold State.fillResting
  rw [hi]
  dsimp only
  rw [hmap]

lemma Ok.fillResting (h : st.Ok) (a : Arith) (oid : ℕ) (q : ℤ) :
    (st.fillResting a oid q).Ok ∧
      (st.fillResting a oid q).table = st.table.apply (.fill oid (taken st.table a oid q)) := by
  generalize hq : taken st.table a oid q = q'
  cases hi : st.restIndex.lookup oid with
  | none =>
    have heq : st.fillResting a oid q = st := by
      unfold State.fillResting
      rw [hi]
    rw [heq]
    refine ⟨h, funext fun i => ?_⟩
    simp only [Table.apply]
    split_ifs with heq
    · subst heq
      simp [table, hi]
    · rfl
  | some loc =>
    obtain ⟨sym, side, price⟩ := loc
    obtain ⟨o, ho, rfl⟩ := h.found oid sym side price hi
    obtain ⟨hok, hat⟩ := h.setLevel_fill hi q'
    have hleft := leavesLeft_map (h.nodup _ _) ho q'
    have hrow : st.table o.id = some ⟨sym, side, price, o.leaves, o.seq⟩ :=
      h.table_eq_some.2 ⟨o, ho, rfl, rfl, rfl⟩
    rw [h.fillResting_eq hi hq, hleft]
    set st' := st.setLevel (sym, side) price ((st.restingAt (sym, side) price).map
      (takeOff o.id q')) with hst'
    -- the other rows stay, and the row of the order loses the quantity
    have hother : ∀ i, i ≠ o.id → st'.table i = st.table i := by
      intro i hne
      refine Option.ext fun row => ?_
      rw [hok.table_eq_some, h.table_eq_some, hat]
      constructor
      · rintro ⟨x, hx, rfl, hl, hs⟩
        obtain ⟨y, hy, rfl⟩ := List.mem_map.1 hx
        rw [id_takeOff] at hne
        rw [takeOff, if_neg hne] at hl hs ⊢
        exact ⟨y, hy, rfl, hl, hs⟩
      · rintro ⟨x, hx, rfl, hl, hs⟩
        have hx' := List.mem_map_of_mem (f := takeOff o.id q') hx
        rw [takeOff, if_neg hne] at hx'
        exact ⟨x, hx', rfl, hl, hs⟩
    have hself : st'.table o.id = some ⟨sym, side, price, o.leaves - q', o.seq⟩ := by
      refine hok.table_eq_some.2 ⟨takeOff o.id q' o, ?_, by simp, by simp [takeOff], by simp⟩
      rw [hat]
      exact List.mem_map_of_mem ho
    split_ifs with hle
    · obtain ⟨hok', htab⟩ := hok.removeResting o.id
      refine ⟨hok', funext fun i => ?_⟩
      rw [htab]
      simp only [Table.apply]
      split_ifs with heq
      · rw [heq, hrow]
        simp [Table.fillRow, hle]
      · exact hother i heq
    · refine ⟨hok, funext fun i => ?_⟩
      simp only [Table.apply]
      split_ifs with heq
      · rw [heq, hself, hrow]
        simp [Table.fillRow, hle]
      · exact hother i heq

lemma ok_empty : (({} : State)).Ok := by
  refine ⟨fun key price o ho => ?_, fun id sym side price hi => ?_, fun key price => ?_⟩
  · exact absurd ho List.not_mem_nil
  · exact absurd hi (by simp)
  · exact List.nodup_nil

lemma table_empty : (({} : State)).table = fun _ => none := rfl

lemma movePosition_keeps (st : State) (a : Arith) (oid : ℕ) (q : ℤ) :
    (st.movePosition a oid q).resting = st.resting ∧
      (st.movePosition a oid q).restIndex = st.restIndex := by
  unfold movePosition
  split
  · exact ⟨rfl, rfl⟩
  · split_ifs <;> exact ⟨rfl, rfl⟩

lemma rememberOrder_keeps (st : State) (a : Arith) (req : HelperMessage) :
    (st.rememberOrder a req).resting = st.resting ∧
      (st.rememberOrder a req).restIndex = st.restIndex := by
  unfold rememberOrder
  split <;> exact ⟨rfl, rfl⟩

end State

/-- What a request does to a resting table. -/
def writesOn (t : Table) (a : Arith) (req : HelperMessage) : List Write :=
  if req.type = "report_fill" then
    match req.get "id", req.get "qty" with
    | some id, some qty =>
      let oid := toU64 (a.parse id.toList)
      [.fill oid (State.taken t a oid (a.parse qty.toList))]
    | _, _ => []
  else if req.type = "report_rest" then
    match req.get "symbol", req.get "side", req.get "id" with
    | some sym, some side, some id =>
      [.rest (toU64 (a.parse id.toList)) ⟨sym, side, a.intField req "price",
        a.intField req "leaves", toU64 (a.intField req "seq")⟩]
    | _, _, _ => []
  else if req.type = "report_cancel" then
    match req.get "id" with
    | some id => [.cancel (toU64 (a.parse id.toList))]
    | none => []
  else []

/-- What a request does to any resting table, with exact numbers. -/
def writes (req : HelperMessage) : List Write := writesOn (fun _ => none) .exact req

lemma writesOn_exact (t : Table) (req : HelperMessage) : writesOn t .exact req = writes req := by
  simp only [writes, writesOn, State.taken_exact]

namespace State

variable {st : State}

lemma Ok.applyFill (h : st.Ok) (a : Arith) (req : HelperMessage) (ht : req.type = "report_fill") :
    (st.applyFill a req).Ok ∧
    (st.applyFill a req).table = st.table.applyAll (writesOn st.table a req) := by
  unfold State.applyFill writesOn
  rw [if_pos ht]
  cases req.get "id" with
  | none => exact ⟨h, rfl⟩
  | some id =>
    cases req.get "qty" with
    | none => exact ⟨h, rfl⟩
    | some qty =>
      obtain ⟨hr, hi⟩ := st.movePosition_keeps a (toU64 (a.parse id.toList))
        (a.parse qty.toList)
      obtain ⟨hok, htab⟩ := h.of_eq hr hi
      obtain ⟨hok', htab'⟩ := hok.fillResting a (toU64 (a.parse id.toList))
        (a.parse qty.toList)
      exact ⟨hok', htab'.trans (by rw [htab]; rfl)⟩

lemma Ok.applyRest (h : st.Ok) (a : Arith) (req : HelperMessage) (ht : req.type = "report_rest") :
    (st.applyRest a req).Ok ∧
    (st.applyRest a req).table = st.table.applyAll (writesOn st.table a req) := by
  have hne : req.type ≠ "report_fill" := by rw [ht]; decide
  unfold State.applyRest writesOn
  rw [if_neg hne, if_pos ht]
  cases req.get "symbol" with
  | none => exact ⟨h, rfl⟩
  | some sym =>
    cases req.get "side" with
    | none => exact ⟨h, rfl⟩
    | some side =>
      cases req.get "id" with
      | none => exact ⟨h, rfl⟩
      | some id => exact h.addResting sym side _

lemma Ok.applyCancel (h : st.Ok) (a : Arith) (req : HelperMessage)
    (ht : req.type = "report_cancel") :
    (st.applyCancel a req).Ok ∧
    (st.applyCancel a req).table = st.table.applyAll (writesOn st.table a req) := by
  have hne : req.type ≠ "report_fill" := by rw [ht]; decide
  have hne' : req.type ≠ "report_rest" := by rw [ht]; decide
  unfold State.applyCancel writesOn
  rw [if_neg hne, if_neg hne', if_pos ht]
  cases req.get "id" with
  | none => exact ⟨h, rfl⟩
  | some id => exact h.removeResting _

/-- The helper keeps the table. -/
theorem handle_refines (h : st.Ok) (a : Arith) (req : HelperMessage) :
    (st.handle a req).1.Ok ∧
    (st.handle a req).1.table = st.table.applyAll (writesOn st.table a req) := by
  have hno : req.type ≠ "report_fill" → req.type ≠ "report_rest" → req.type ≠ "report_cancel" →
      ∀ st' : State, st'.resting = st.resting → st'.restIndex = st.restIndex →
        st'.Ok ∧ st'.table = st.table.applyAll (writesOn st.table a req) := by
    intro h1 h2 h3 st' hr hi
    obtain ⟨hok, htab⟩ := h.of_eq hr hi
    refine ⟨hok, ?_⟩
    rw [htab, writesOn, if_neg h1, if_neg h2, if_neg h3]
    rfl
  have hrep : (st.reported req.reqId).Ok ∧ (st.reported req.reqId).table = st.table :=
    h.of_eq rfl rfl
  unfold handle
  dsimp only
  split_ifs with h1 h2 h3 h4 h5 h6 h7
  · obtain ⟨hr, hi⟩ := (st.reported req.reqId).rememberOrder_keeps a req
    exact hno (by rw [h1]; decide) (by rw [h1]; decide) (by rw [h1]; decide) _ hr hi
  · obtain ⟨hok, htab⟩ := hrep.1.applyFill a req h2
    exact ⟨hok, by rw [htab, hrep.2]⟩
  · exact hno h2 (by rw [h3]; decide) (by rw [h3]; decide) _ rfl rfl
  · exact hno h2 (by rw [h4]; decide) (by rw [h4]; decide) _ rfl rfl
  · exact hno h2 (by rw [h5]; decide) (by rw [h5]; decide) _ rfl rfl
  · exact h.applyRest a req h6
  · exact h.applyCancel a req h7
  all_goals exact hno h2 h6 h7 _ rfl rfl

/-- The table after some requests. -/
theorem handleAll_refines (h : st.Ok) (reqs : List HelperMessage) :
    (st.handleAll .exact reqs).Ok ∧
      (st.handleAll .exact reqs).table = st.table.applyAll (reqs.flatMap writes) := by
  induction reqs generalizing st with
  | nil => exact ⟨h, rfl⟩
  | cons req reqs ih =>
    obtain ⟨hok, htab⟩ := handle_refines h .exact req
    obtain ⟨hok', htab'⟩ := ih hok
    refine ⟨hok', ?_⟩
    rw [List.flatMap_cons, Table.applyAll_append, ← writesOn_exact st.table req, ← htab]
    exact htab'

end State

end StorageHelper

/-! ### The requests of the client -/

/-- What a request does to the resting table, when it is handed over. -/
def Request.writes (req : Request) : List Write := StorageHelper.writes ⟨0, req.type, req.fields⟩

/-- The row that the report of a resting order writes. -/
def Order.row (symbol : Symbol) (o : Order) : Row :=
  ⟨symbol, sideName o.side, o.price, o.leaves, o.rank⟩

namespace StorageClient

lemma writes_of_request (req : Request) (id : ℕ) :
    StorageHelper.writes ⟨id, req.type, req.fields⟩ = req.writes := rfl

@[simp] lemma writes_reportOrder (symbol : Symbol) (owner : String) (o : Order) :
    (reportOrder symbol owner o).writes = [] := rfl

@[simp] lemma writes_reportTrade (symbol : Symbol) (t : Trade) :
    (reportTrade symbol t).writes = [] := rfl

@[simp] lemma writes_pullPosition (user : String) (symbol : Symbol) :
    (pullPosition user symbol).writes = [] := rfl

@[simp] lemma writes_pullLevels (symbol : Symbol) (side : Side) (fromPrice count : ℤ) :
    (pullLevels symbol side fromPrice count).writes = [] := rfl

@[simp] lemma writes_reportFill (symbol : Symbol) (id : OrderId) (qty remaining : ℤ)
    (complete : Bool) : (reportFill symbol id qty remaining complete).writes = [.fill id qty] := by
  show [Write.fill (toU64 (parseInt (toString id).toList)) (parseInt (toString qty).toList)] = _
  rw [parseInt_toString_nat, toU64_natCast, parseInt_toString]

@[simp] lemma writes_reportRest (symbol : Symbol) (o : Order) :
    (reportRest symbol o).writes = [.rest o.id (o.row symbol)] := by
  show [Write.rest (toU64 (parseInt (toString o.id).toList)) ⟨symbol, sideName o.side,
    parseInt (toString o.price).toList, parseInt (toString o.leaves).toList,
    toU64 (parseInt (toString o.rank).toList)⟩] = _
  simp only [parseInt_toString_nat, toU64_natCast, parseInt_toString]
  rfl

@[simp] lemma writes_reportCancel (symbol : Symbol) (id : OrderId) :
    (reportCancel symbol id).writes = [.cancel id] := by
  show [Write.cancel (toU64 (parseInt (toString id).toList))] = _
  rw [parseInt_toString_nat, toU64_natCast]

end StorageClient

end Codicis
