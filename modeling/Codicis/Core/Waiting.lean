/-
The orders that wait, and those that come.

What the operations do to a group, to the parked stops and to the orders of an auction, and what
stamping, arming and capping an order leave as it is.
-/
import Codicis.Core.Clearing
import Codicis.Core.Life

namespace Codicis

open Book (updateTrail)

/-! ### Stops -/

/-- The stop `x` becomes `x'` by following prices. -/
inductive Order.Trails (x : Order) : Order → Prop
  | refl : Trails x x
  | follow {x' : Order} (h : Trails x x') (px : ℤ) : Trails x (updateTrail px x')

namespace Order

variable {x x' x'' : Order}

lemma Trails.trans (h : x.Trails x') (h' : x'.Trails x'') : x.Trails x'' := by
  induction h' with
  | refl => exact h
  | follow _ px ih => exact ih.follow px

/-- Following a price leaves the stop alone, or moves its mark and its price with it. -/
lemma updateTrail_cases (px : ℤ) (o : Order) :
    updateTrail px o = o ∨ ∃ t, o.trigger = some t ∧ t.kind ≠ .stop ∧
      ((o.side = .sell ∧ t.highWater < px ∧ updateTrail px o =
          { o with trigger := some { t with highWater := px, stopPrice := px - t.trailBy } }) ∨
        (o.side = .buy ∧ px < t.highWater ∧ updateTrail px o =
          { o with trigger := some { t with highWater := px, stopPrice := px + t.trailBy } })) := by
  unfold Book.updateTrail
  cases ht : o.trigger with
  | none => exact .inl rfl
  | some t =>
    dsimp only
    by_cases hk : t.kind = .stop
    · exact .inl (if_pos hk)
    rw [if_neg hk]
    cases hs : o.side with
    | sell =>
      dsimp only
      by_cases hpx : t.highWater < px
      · exact .inr ⟨t, rfl, hk, .inl ⟨rfl, hpx, if_pos hpx⟩⟩
      · exact .inl (if_neg hpx)
    | buy =>
      dsimp only
      by_cases hpx : px < t.highWater
      · exact .inr ⟨t, rfl, hk, .inr ⟨rfl, hpx, if_pos hpx⟩⟩
      · exact .inl (if_neg hpx)

lemma Trails.traits_eq (h : x.Trails x') : x'.traits = x.traits := by
  induction h with
  | refl => rfl
  | follow _ px ih => exact (traits_updateTrail _ px).trans ih

/-- Following prices sets the trigger. -/
lemma Trails.eq_trigger {x x' : Order} (h : x.Trails x') :
    x' = { x with trigger := x'.trigger } := by
  induction h with
  | refl => rfl
  | follow _ px ih =>
    rcases Order.updateTrail_cases px _ with h | ⟨t, -, -, ⟨-, -, h⟩ | ⟨-, -, h⟩⟩
    · rw [h]
      exact ih
    all_goals
      rw [h, ih]

end Order

/-- The orders that wait, but not in a group. -/
def Frame.parked (f : Frame) : List Order :=
  f.stops.pairs.map Prod.snd ++ (f.openingAuction ++ f.closingAuction)

lemma Frame.waiting_perm (f : Frame) : f.waiting.Perm (f.held ++ f.parked) := by
  have h : f.waiting = f.parked ++ f.held := by simp [waiting, parked]
  rw [h]
  exact List.perm_append_comm

namespace Book

/-- The identifier waits outside the ladders. -/
def Waiting (b : Book) (id : OrderId) : Prop := ∃ o ∈ b.frame.waiting, o.id = id

/-- The identifier is held by the book, resting or waiting. -/
def Live (b : Book) (id : OrderId) : Prop := b.view.entry id ≠ none ∨ Waiting b id

section Stops

variable {b : Book}

lemma waiting_perm_of_stop {id : OrderId} {o : Order} (h : b.stops.lookup id = some o) :
    b.frame.waiting.Perm (o :: { b with stops := b.stops.erase id }.frame.waiting) := by
  have hp := (Map.pairs_perm_of_lookup h).map Prod.snd
  exact hp.append_right _

/-- The stops a round fires are parked, each of them once. -/
lemma firing_spec (b : Book) :
    b.firing.Nodup ∧ ∀ id ∈ b.firing, (b.stops.lookup id).isSome = true := by
  unfold firing
  split_ifs
  swap
  · simp
  have hperm := (List.perm_insertionSort (fun x y : OrderId × Order => x.2.seq ≤ y.2.seq)
    (b.stops.pairs.filter fun e => stopTriggered e.2 b.lastPrice)).map Prod.fst
  constructor
  · rw [hperm.nodup_iff]
    refine (List.filter_sublist.map Prod.fst).nodup ?_
    rw [Map.map_fst_pairs]
    exact b.stops.keys_nodup
  · intro id hid
    obtain ⟨⟨k, o⟩, hmem, rfl⟩ := List.mem_map.1 (hperm.subset hid)
    exact Option.isSome_iff_exists.2 ⟨o, Map.mem_pairs.1 (List.mem_of_mem_filter hmem)⟩

end Stops

/-! ### Groups -/

section Groups

variable {b b' : Book} {o : Order}

/-- The groups of a book and the membership of its orders. -/
def SameGroups (b b' : Book) : Prop :=
  b'.frame.groups = b.frame.groups ∧ b'.frame.orderGroup = b.frame.orderGroup

lemma SameGroups.refl (b : Book) : SameGroups b b := ⟨rfl, rfl⟩

lemma SameGroups.of_frame {b b' : Book} (h : b'.frame = b.frame) : SameGroups b b' :=
  ⟨by rw [h], by rw [h]⟩

lemma SameGroups.trans {b b' b'' : Book} (h : SameGroups b b') (h' : SameGroups b' b'') :
    SameGroups b b'' := ⟨h'.1.trans h.1, h'.2.trans h.2⟩

lemma SameGroups.held {b b' : Book} (h : SameGroups b b') : b'.frame.held = b.frame.held := by
  simp only [Frame.held, h.1]

/-- The children that the other groups hold. -/
def heldElsewhere (b : Book) (gid : ℕ) : List Order :=
  (Map.pairs (b.groups.erase gid)).flatMap fun g => g.2.children

lemma held_perm (b : Book) (gid : ℕ) :
    b.frame.held.Perm ((b.group gid).children ++ b.heldElsewhere gid) := by
  unfold group heldElsewhere
  cases h : b.groups.lookup gid with
  | none =>
    rw [Map.erase_of_lookup_eq_none h]
    exact List.Perm.refl _
  | some g => exact (Map.pairs_perm_of_lookup h).flatMap_right _

lemma held_setGroup (b : Book) (gid : ℕ) (g : Group) :
    (b.setGroup gid g).frame.held = g.children ++ b.heldElsewhere gid := rfl

/-- The children that leave a group are the held ones that leave. -/
lemma held_release {gid : ℕ} {g : Group} {cs : List Order}
    (h : (b.group gid).children.Perm (cs ++ g.children)) :
    b.frame.held.Perm (cs ++ (b.setGroup gid g).frame.held) := by
  rw [held_setGroup, ← List.append_assoc]
  exact (b.held_perm gid).trans (h.append_right _)

/-- They are the waiting orders that leave. -/
lemma waiting_setGroup {gid : ℕ} {g : Group} {cs : List Order}
    (h : (b.group gid).children.Perm (cs ++ g.children)) :
    b.frame.waiting.Perm (cs ++ (b.setGroup gid g).frame.waiting) := by
  have h1 : b.frame.waiting.Perm (b.frame.held ++ b.frame.parked) := b.frame.waiting_perm
  have h2 := (b.setGroup gid g).frame.waiting_perm
  refine h1.trans (List.Perm.trans ?_ (h2.symm.append_left cs))
  rw [← List.append_assoc]
  exact (held_release h).append_right _

lemma held_length_setGroup (b : Book) (gid : ℕ) (g : Group) :
    (b.setGroup gid g).frame.held.length + (b.group gid).children.length
      = b.frame.held.length + g.children.length := by
  rw [held_setGroup, (b.held_perm gid).length_eq, List.length_append, List.length_append]
  omega

/-- A child is added to its group, in the place of another one or besides. -/
lemma holdChild_eq_some (h : b.holdChild o = some b') :
    isChild o = true ∧ ∃ gid gr, b' = b.setGroup gid gr ∧
      gr.children.Subperm (o :: (b.group gid).children) := by
  unfold holdChild at h
  unfold isChild
  cases hlink : o.link with
  | none => simp [hlink] at h
  | some l =>
    rw [hlink] at h
    dsimp only at h ⊢
    cases hrole : l.role <;> rw [hrole] at h <;> simp only [Option.some.injEq, reduceCtorEq] at h
    · subst h
      refine ⟨rfl, _, _, rfl, ?_⟩
      simp only [Group.children, Option.toList_some, List.singleton_append]
      exact (List.subperm_cons _).2 (List.sublist_append_right _ _).subperm
    all_goals
      subst h
      refine ⟨rfl, _, _, rfl, ?_⟩
      simp only [Group.children, ← List.append_assoc]
      exact (List.perm_append_singleton o _).subperm

/-- What a held order changes of the book. -/
lemma holdChild_spec (h : b.holdChild o = some b') :
    isChild o = true ∧ Quiet b b' ∧ b'.nextSeq = b.nextSeq ∧ b'.stops = b.stops ∧
      b'.openingAuction = b.openingAuction ∧ b'.closingAuction = b.closingAuction ∧
      b'.frame.held.Subperm (o :: b.frame.held) := by
  obtain ⟨hchild, gid, gr, rfl, hsub⟩ := holdChild_eq_some h
  refine ⟨hchild, ⟨rfl, rfl, rfl, rfl, rfl⟩, rfl, rfl, rfl, rfl, ?_⟩
  rw [held_setGroup]
  refine List.Subperm.trans ?_ ((b.held_perm gid).symm.cons o).subperm
  rw [← List.cons_append]
  exact (List.subperm_append_right _).2 hsub

lemma holdChild_eq_none (h : b.holdChild o = none) : isChild o = false := by
  unfold holdChild at h
  unfold isChild
  cases hlink : o.link with
  | none => rfl
  | some l =>
    rw [hlink] at h
    dsimp only at h ⊢
    cases hrole : l.role <;> rw [hrole] at h <;> simp at h ⊢

end Groups

/-! ### Orders that come -/

/-- The book once a sequence number has been taken. -/
def ticked (b : Book) : Book := { b with nextSeq := b.nextSeq + 1 }

/-- A child with another link. -/
def relink (l : Option LinkSpec) (c : Order) : Order := { c with link := l }

/-- Whatever waits in `b'` waited in `b`; stops may have been re-anchored. -/
structure Wanes (b b' : Book) : Prop where
  stops : ∀ id x', b'.stops.lookup id = some x' → ∃ x, b.stops.lookup id = some x ∧ x.Trails x'
  opening : b'.openingAuction.Sublist b.openingAuction
  closing : b'.closingAuction.Sublist b.closingAuction
  held : b'.frame.held.Subperm b.frame.held

lemma Wanes.of_frame {b b' : Book} (hf : b'.frame = b.frame) : Wanes b b' := by
  obtain ⟨hstops, hopen, hclose⟩ := Book.waiting_of_frame hf
  refine ⟨fun id x hx => ⟨x, hstops ▸ hx, .refl⟩, ?_, ?_, ?_⟩
  · rw [hopen]
  · rw [hclose]
  · rw [hf]

/-- A stop leaves. -/
lemma wanes_eraseStop (b : Book) (id : OrderId) : Wanes b { b with stops := b.stops.erase id } := by
  exact ⟨fun id' x hx => ⟨x, Map.lookup_of_erase hx, .refl⟩, .refl _, .refl _, .refl _⟩

lemma wanes_trailed (b : Book) : Wanes b b.trailed := by
  unfold trailed
  split_ifs
  · refine ⟨fun id x' hx' => ?_, .refl _, .refl _, .refl _⟩
    rw [Map.lookup_mapVal, Option.map_eq_some_iff] at hx'
    obtain ⟨x, hx, rfl⟩ := hx'
    exact ⟨x, hx, .follow .refl _⟩
  · exact .of_frame rfl

/-- Arming a stop sets its trigger. -/
lemma armStop_eq (b : Book) (o : Order) :
    b.armStop o = { o with trigger := (b.armStop o).trigger } := by
  unfold armStop
  cases o.trigger with
  | none => rfl
  | some t =>
    dsimp only
    split_ifs <;> rfl

lemma stamp_keeps (b : Book) (o : Order) :
    (b.stamp o).id = o.id ∧ (b.stamp o).qty = o.qty ∧ (b.stamp o).filled = o.filled ∧
      isOpeningAuction (b.stamp o).flags = isOpeningAuction o.flags ∧
      isClosingAuction (b.stamp o).flags = isClosingAuction o.flags ∧
      (b.stamp o).side = o.side ∧ (b.stamp o).trigger = o.trigger ∧ (b.stamp o).link = o.link := by
  unfold stamp Order.normalize Order.normalizeTif
  dsimp only
  (repeat' split) <;> exact ⟨rfl, rfl, rfl, rfl, rfl, rfl, rfl, rfl⟩

lemma awaitsTrigger_stamp (b : Book) (o : Order) :
    awaitsTrigger (b.stamp o) = awaitsTrigger o := by
  simp only [awaitsTrigger, (stamp_keeps b o).2.2.2.2.2.2.1]

lemma isChild_stamp (b : Book) (o : Order) : isChild (b.stamp o) = isChild o := by
  simp only [isChild, (stamp_keeps b o).2.2.2.2.2.2.2]

lemma stamp_price (b : Book) (o : Order) :
    (b.stamp o).type = o.type ∧ (b.stamp o).peg = o.peg ∧ (b.stamp o).price = o.price := by
  unfold stamp Order.normalize Order.normalizeTif
  dsimp only
  (repeat' split) <;> exact ⟨rfl, rfl, rfl⟩

lemma stamp_displayQty (b : Book) {o : Order} (hd : 0 ≤ o.displayQty) (hq : 0 < o.qty) :
    0 < (b.stamp o).displayQty := by
  unfold stamp Order.normalize Order.normalizeTif
  dsimp only
  (repeat' split) <;> simp_all <;> omega

/-- What a cap does not change of an order. -/
lemma capReduceOnly_keeps (o : Order) (k : ℤ) :
    (capReduceOnly o k).id = o.id ∧ (capReduceOnly o k).filled = o.filled ∧
      awaitsTrigger (capReduceOnly o k) = awaitsTrigger o ∧
      (capReduceOnly o k).flags = o.flags ∧ (capReduceOnly o k).clientId = o.clientId ∧
      (capReduceOnly o k).side = o.side ∧ (capReduceOnly o k).peg = o.peg ∧
      (∀ p, acceptable (capReduceOnly o k) p = acceptable o p) ∧
      (∀ b : Book, b.reduceOnlyCapacity (capReduceOnly o k) = b.reduceOnlyCapacity o) ∧
      (capReduceOnly o k).tif = o.tif := by
  unfold capReduceOnly
  split_ifs <;> exact ⟨rfl, rfl, rfl, rfl, rfl, rfl, rfl, fun _ => rfl, fun _ => rfl, rfl⟩

lemma armStop_keeps (b : Book) (o : Order) :
    (b.armStop o).id = o.id ∧ (b.armStop o).leaves = o.leaves ∧
      (b.armStop o).displayQty = o.displayQty ∧ (b.armStop o).filled = o.filled ∧
      (b.armStop o).tif = o.tif ∧ awaitsTrigger (b.armStop o) = awaitsTrigger o := by
  unfold armStop
  cases ht : o.trigger with
  | none => exact ⟨rfl, rfl, rfl, rfl, rfl, rfl⟩
  | some t =>
    dsimp only
    by_cases hk : t.kind = .stop
    · rw [if_pos hk]
      exact ⟨rfl, rfl, rfl, rfl, rfl, rfl⟩
    · rw [if_neg hk]
      exact ⟨rfl, rfl, rfl, rfl, rfl, by simp [awaitsTrigger, ht]⟩

/-! ### Positions that are set -/

/-- Seeding a position touches no order. -/
lemma seedPosition_keeps (b : Book) (c : ClientId) (net : ℤ) :
    (b.seedPosition c net).view = b.view ∧ (b.seedPosition c net).frame = b.frame ∧
      ∀ s, (b.seedPosition c net).ladder s = b.ladder s := by
  unfold seedPosition
  split_ifs
  · exact ⟨rfl, rfl, fun s => rfl⟩
  · refine ⟨rfl, rfl, fun s => ?_⟩
    cases s <;> rfl

/-! ### Orders of an auction -/

/-- What a fill does not change of an order. -/
def base (o : Order) : Order := { o with leaves := 0, filled := 0 }

lemma base_takeFill (o : Order) (q : ℤ) : base (takeFill o q) = base o := rfl

lemma map_base_set {queue : List Order} {i : ℕ} {o : Order}
    (h : base o = base (queued queue i)) : (queue.set i o).map base = queue.map base := by
  rw [List.map_set]
  by_cases hi : i < queue.length
  · have hget : queued queue i = queue[i] := List.getD_eq_getElem _ _ hi
    rw [h, hget, ← List.getElem_map base (h := by simpa using hi), List.set_getElem_self]
  · exact List.set_eq_of_length_le (by simpa using hi)

lemma base_queued {queue queue' : List Order} (h : queue'.map base = queue.map base) (i : ℕ) :
    base (queued queue' i) = base (queued queue i) := by
  have h' := congrArg (fun l => l.getD i (base {})) h
  simpa only [List.getD_map, queued] using h'

lemma map_id_of_base {queue queue' : List Order} (h : queue'.map base = queue.map base) :
    queue'.map (·.id) = queue.map (·.id) := by
  have h' := congrArg (List.map (·.id)) h
  simp only [List.map_map] at h'
  exact h'

lemma queued_mem {queue : List Order} {i : ℕ} (h : i < queue.length) : queued queue i ∈ queue := by
  rw [queued, List.getD_eq_getElem _ _ h]
  exact List.getElem_mem h

/-- The orders of an auction are in hand. -/
def auctioned (queue : List Order) : List Active := queue.map (⟨·, .auctioned⟩)

/-- The positions hold orders of the side `s`. -/
def OnSide (queue : List Order) (s : Side) (l : List ℕ) : Prop :=
  ∀ i ∈ l, i < queue.length ∧ (queued queue i).side = s

/-- A position that is visited again holds an order of the same side. -/
lemma OnSide.next {queue queue' : List Order} {s : Side} {j : ℕ} {l : List ℕ}
    (h : OnSide queue s (j :: l)) (hbase : queue'.map base = queue.map base) (c : Prop)
    [Decidable c] : OnSide queue' s (if c then l else j :: l) := by
  intro i hi
  obtain ⟨hlen, hside⟩ := h i ((sublist_ite_cons c j l).subset hi)
  have hlength : queue'.length = queue.length := by simpa using congrArg List.length hbase
  exact ⟨hlength ▸ hlen, (congrArg Order.side (base_queued hbase i)).trans hside⟩

lemma mem_buyOrder {queue : List Order} {i : ℕ} (h : i ∈ buyOrder queue) :
    i < queue.length ∧ (queued queue i).side = .buy := by
  have hmem := (List.perm_insertionSort _ _).subset h
  exact ⟨List.mem_range.1 (List.mem_of_mem_filter hmem),
    by simpa using (List.mem_filter.1 hmem).2⟩

lemma mem_sellOrder {queue : List Order} {i : ℕ} (h : i ∈ sellOrder queue) :
    i < queue.length ∧ (queued queue i).side = .sell := by
  have hmem := (List.perm_insertionSort _ _).subset h
  exact ⟨List.mem_range.1 (List.mem_of_mem_filter hmem),
    by simpa using (List.mem_filter.1 hmem).2⟩

lemma view_dealAt (p : ℤ) (bi si : ℕ) (q : ℤ) (r : Book × List Order × List Trade) :
    (dealAt p bi si q r).1.view = r.1.view :=
  view_of_keeps (by simp [dealAt, emitTrade]) (by simp [dealAt, emitTrade])
    (by simp [dealAt, emitTrade])

lemma map_base_dealAt (p : ℤ) (bi si : ℕ) (q : ℤ) (r : Book × List Order × List Trade) :
    (dealAt p bi si q r).2.1.map base = r.2.1.map base := by
  have hbase : (r.2.1.set bi (takeFill (queued r.2.1 bi) q)).map base = r.2.1.map base :=
    map_base_set (base_takeFill _ _)
  show ((r.2.1.set bi _).set si _).map base = _
  rw [map_base_set, hbase]
  rw [base_queued hbase si, base_takeFill]

/-- The executions of an auction are deals between a buy and a sell of the queue that both have the
quantity. -/
theorem auctionPhase_induct
    {P : Book × List Order × List Trade → Book × List Order × List Trade → Prop}
    (stop : ∀ r, P r r)
    (deal : ∀ p bi si q r r', bi < r.2.1.length → si < r.2.1.length →
      (queued r.2.1 bi).side = .buy → (queued r.2.1 si).side = .sell →
      q ≤ (queued r.2.1 bi).leaves → q ≤ (queued r.2.1 si).leaves →
      (0 ≤ (queued r.2.1 bi).leaves → 0 ≤ (queued r.2.1 si).leaves → 0 ≤ q) →
      P (dealAt p bi si q r) r' → P r r')
    (last : ∀ r r' p, P r r' → P r (r'.1.setLast p, r'.2)) (b : Book) (queue : List Order) :
    P (b, queue, []) (b.auctionPhase queue) := by
  have hall : ∀ pstar n remaining buys sells (r : Book × List Order × List Trade),
      OnSide r.2.1 .buy buys → OnSide r.2.1 .sell sells →
      P r (allocate pstar n remaining buys sells r) := by
    intro pstar n remaining buys sells r
    refine allocate_induct (P := fun _ _ buys sells r r' => OnSide r.2.1 .buy buys →
      OnSide r.2.1 .sell sells → P r r') (fun _ _ _ _ r _ _ _ => stop r) ?_ n remaining buys sells r
    intro n remaining bi buys si sells r r' q hq hv _ _ ih hbuys hsells
    obtain ⟨hbi, hbs⟩ := hbuys bi List.mem_cons_self
    obtain ⟨hsi, hss⟩ := hsells si List.mem_cons_self
    have hbase := map_base_dealAt pstar bi si q r
    exact deal pstar bi si q r r' hbi hsi hbs hss (by omega) (by omega) (fun _ _ => by omega)
      (ih (hbuys.next hbase _) (hsells.next hbase _))
  unfold auctionPhase
  cases b.clearing queue with
  | none => exact stop _
  | some c => exact last _ _ _ (hall _ _ _ _ _ _ (fun _ => mem_buyOrder) fun _ => mem_sellOrder)

end Book

end Codicis
