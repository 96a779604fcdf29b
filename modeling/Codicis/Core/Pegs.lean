/-
Pegged orders and their reference prices.

The reference price of a side is the best price at which an order that is not pegged rests
(`Book.Anchors`), so what happens to pegged orders does not move it, and repricing puts every
pegged order at the price that `computePegPrice` gives for it in the end (`Book.Tracked`).

Between operations the pegs are at their prices in every run in which no operation skips the
repricing: no stop fires on arrival (`submitTame`), and no auction lets remainders into the
book without an execution (`crossTame`).
-/
import Codicis.Core.History

namespace Codicis

namespace Book

/-! ### Reference prices -/

section Reference

variable {b b' : Book} {s : Side} {p : ℤ}

/-- An order that is not pegged rests at the price `p`. -/
def Anchors (b : Book) (s : Side) (p : ℤ) : Prop :=
  ∃ id e, b.view.entry id = some e ∧ e.order.side = s ∧ e.order.price = p ∧ e.order.peg = none

/-- The levels at which `referenceBest` stops. -/
lemma anchors_iff (hs : b.view.Sound) :
    b.Anchors s p ↔ (0 < (b.level s p).total && b.hasNonpeg (b.level s p)) = true := by
  simp only [Bool.and_eq_true, hasNonpeg, List.any_eq_true, decide_eq_true_eq]
  constructor
  · rintro ⟨id, e, he, rfl, rfl, hpeg⟩
    have he' : b.orders.lookup id = some e := he
    refine ⟨hs.total_pos_iff.2 ⟨id, e, he, rfl, rfl⟩, id, ?_, ?_⟩
    · exact (hs.mem_queue _ _ id).2 ⟨e, he, rfl, rfl⟩
    · simp [he', hpeg]
  · rintro ⟨-, id, hid, hnon⟩
    obtain ⟨e, he, rfl, rfl⟩ := (hs.mem_queue s p id).1 hid
    have he' : b.orders.lookup id = some e := he
    rw [he'] at hnon
    exact ⟨id, e, he, rfl, rfl, by simpa using hnon⟩

/-- A price with an order on it is covered. -/
lemma Anchors.covers (h : b.Anchors s p) (hs : b.view.Sound) : (b.ladder s).Covers p := by
  obtain ⟨id, e, he, rfl, rfl, -⟩ := h
  exact covers_of_entry hs he

/-- A reference price is the best price of the orders that are not pegged. -/
lemma referenceBest_eq_some (hs : b.view.Sound) (h : b.referenceBest s = some p) :
    b.Anchors s p ∧ ∀ q, b.Anchors s q → q = p ∨ Ladder.better s p q = true := by
  unfold referenceBest at h
  split_ifs at h with hbase
  obtain ⟨hp, l, l', hl, hbefore⟩ := List.find?_eq_some_iff_append.1 h
  refine ⟨(anchors_iff hs).2 hp, fun q hq => ?_⟩
  have hmem : q ∈ (b.ladder s).outward := (Ladder.mem_outward (by simpa using hbase)).2
    (hq.covers hs)
  rw [hl, List.mem_append, List.mem_cons] at hmem
  rcases hmem with hmem | rfl | hmem
  · -- the search passed over the prices before `p`
    have := hbefore q hmem
    rw [(anchors_iff hs).1 hq] at this
    exact absurd this (by simp)
  · exact .inl rfl
  · have hpw := (b.ladder s).outward_pairwise
    rw [hl] at hpw
    exact .inr ((List.pairwise_cons.1 (List.pairwise_append.1 hpw).2.1).1 q hmem)

lemma referenceBest_eq_none (hs : b.view.Sound) (h : b.referenceBest s = none) (q : ℤ) :
    ¬ b.Anchors s q := by
  intro hq
  have hc := hq.covers hs
  unfold referenceBest at h
  rw [if_neg (by simp [hc.1])] at h
  have := List.find?_eq_none.1 h q ((Ladder.mem_outward hc.1).2 hc)
  exact this ((anchors_iff hs).1 hq)

/-- The reference price depends on the orders that are not pegged only. -/
lemma referenceBest_congr (hs : b.view.Sound) (hs' : b'.view.Sound)
    (h : ∀ p, b'.Anchors s p ↔ b.Anchors s p) : b'.referenceBest s = b.referenceBest s := by
  cases hb : b.referenceBest s with
  | none =>
    cases hb' : b'.referenceBest s with
    | none => rfl
    | some p =>
      have hp := (referenceBest_eq_some hs' hb').1
      exact absurd ((h p).1 hp) (referenceBest_eq_none hs hb p)
  | some p =>
    obtain ⟨hp, hbest⟩ := referenceBest_eq_some hs hb
    cases hb' : b'.referenceBest s with
    | none => exact absurd ((h p).2 hp) (referenceBest_eq_none hs' hb' p)
    | some q =>
      obtain ⟨hq, hbest'⟩ := referenceBest_eq_some hs' hb'
      rcases hbest q ((h q).1 hq) with rfl | hpq
      · rfl
      rcases hbest' p ((h p).2 hp) with rfl | hqp
      · rfl
      -- each would be better than the other
      have := Ladder.better_trans hpq hqp
      rw [Ladder.better_irrefl] at this
      exact absurd this (by simp)

/-- The price of a peg depends on the reference prices. -/
lemma computePegPrice_congr (h : ∀ s, b'.referenceBest s = b.referenceBest s) (o : Order) :
    b'.computePegPrice o = b.computePegPrice o := by
  have href : ∀ ref s, b'.pegReference ref s = b.pegReference ref s := by
    intro ref s
    cases ref <;> simp only [pegReference, h]
  unfold computePegPrice
  simp only [href]

/-- The price of a peg depends on the side of the order and its peg. -/
lemma computePegPrice_order {o o' : Order} (hpeg : o'.peg = o.peg) (hside : o'.side = o.side) :
    b.computePegPrice o' = b.computePegPrice o := by
  unfold computePegPrice
  rw [hpeg, hside]

/-- Two books with the same reference prices. -/
def SameReferences (b b' : Book) : Prop := ∀ s, b'.referenceBest s = b.referenceBest s

/-- What happens to one pegged order leaves the reference prices alone. -/
lemma sameReferences_of_pegged (hs : b.view.Sound) (hs' : b'.view.Sound) {id : OrderId}
    (hother : ∀ i, i ≠ id → b'.view.entry i = b.view.entry i)
    (hold : ∀ e, b.view.entry id = some e → e.order.peg.isSome = true)
    (hnew : ∀ e, b'.view.entry id = some e → e.order.peg.isSome = true) :
    SameReferences b b' := by
  refine fun s => referenceBest_congr hs hs' fun p => ?_
  constructor
  · rintro ⟨i, e, he, hside, hprice, hpeg⟩
    have hne : i ≠ id := by
      rintro rfl
      simpa [hpeg] using hnew e he
    exact ⟨i, e, (hother i hne).symm.trans he, hside, hprice, hpeg⟩
  · rintro ⟨i, e, he, hside, hprice, hpeg⟩
    have hne : i ≠ id := by
      rintro rfl
      simpa [hpeg] using hold e he
    exact ⟨i, e, (hother i hne).trans he, hside, hprice, hpeg⟩

lemma sameReferences_of_view (hs : b.view.Sound) (hv : b'.view = b.view) : SameReferences b b' :=
  fun _ => referenceBest_congr hs (hv ▸ hs) fun p => by unfold Anchors; rw [hv]

end Reference

/-! ### Tracking -/

section Tracking

variable {b b' : Book} {id : OrderId}

/-- The order `id` rests at the price of its peg, when there is one. -/
def TracksAt (b : Book) (id : OrderId) : Prop :=
  ∀ e, b.orders.lookup id = some e → ∀ p, b.computePegPrice e.order = some p → e.order.price = p

/-- Every pegged order rests at the price of its peg, when there is one. -/
def Tracked (b : Book) : Prop := ∀ id ∈ b.pegged, b.TracksAt id

lemma TracksAt.congr (h : b.TracksAt id) (href : SameReferences b b')
    (he : b'.view.entry id = b.view.entry id) : b'.TracksAt id := by
  intro e he' p hp
  exact h e (he.symm.trans he') p ((computePegPrice_congr href e.order).symm.trans hp)

lemma Tracked.of_view (h : b.Tracked) (hs : b.view.Sound) (hv : b'.view = b.view) : b'.Tracked := by
  intro id hid
  have hpegged : b'.pegged = b.pegged := congrArg View.pegged hv
  have hid' : id ∈ b.pegged := hpegged ▸ hid
  exact (h id hid').congr (sameReferences_of_view hs hv) (by rw [hv])

lemma entry_movePegged (hb : b.view.Sound) {e : Entry} (he : b.orders.lookup e.order.id = some e)
    (np : ℤ) :
    (b.movePegged e.order.id e np).view.entry e.order.id = some (e.moved np b.nextSeq) := by
  rw [(evolves_movePegged hb he np).1.run.of_single.2]
  simp [Mut.apply, View.link, Entry.moved]

/-- One pegged order is re-placed. -/
lemma repricePeg_spec (hb : b.view.Sound) (hid : id ∈ b.pegged) :
    let b' := b.repricePeg id
    b'.view.Sound ∧ b'.pegged = b.pegged ∧ SameReferences b b' ∧
      (∀ i, i ≠ id → b'.view.entry i = b.view.entry i) ∧ b'.TracksAt id := by
  obtain ⟨ms, hg, -, hpegged⟩ := repricePeg_glides hb hid
  obtain ⟨e, he, hpeg⟩ := hb.pegged_ok id hid
  replace he : b.orders.lookup id = some e := he
  have hs' := hg.evolves.sound hb
  refine ⟨hs', hpegged, ?_⟩
  unfold repricePeg at hs' ⊢
  rw [he] at hs' ⊢
  dsimp only at hs' ⊢
  cases hp : b.computePegPrice e.order with
  | none =>
    refine ⟨fun _ => rfl, fun _ _ => rfl, fun e' he' p hp' => ?_⟩
    obtain rfl := Option.some.inj (he.symm.trans he')
    rw [hp] at hp'
    exact absurd hp' (by simp)
  | some np =>
    rw [hp] at hs'
    dsimp only at hs' ⊢
    split_ifs at hs' ⊢ with hnp
    · refine ⟨fun _ => rfl, fun _ _ => rfl, fun e' he' p hp' => ?_⟩
      obtain rfl := Option.some.inj (he.symm.trans he')
      rw [hp] at hp'
      exact hnp.symm.trans (Option.some.inj hp')
    · obtain rfl := hb.id_eq id e he
      have hv := (evolves_movePegged hb he np).1.run.of_single.2
      have hother : ∀ i, i ≠ e.order.id →
          (b.movePegged e.order.id e np).view.entry i = b.view.entry i := by
        intro i hi
        rw [hv]
        simp [Mut.apply, View.link, View.unlink, Entry.moved, hi]
      have hself := entry_movePegged hb he np
      have href : SameReferences b (b.movePegged e.order.id e np) := by
        refine sameReferences_of_pegged hb hs' hother (fun e' he' => ?_) fun e' he' => ?_
        · obtain rfl := Option.some.inj (he.symm.trans he')
          exact hpeg
        · obtain rfl := Option.some.inj (hself.symm.trans he')
          exact hpeg
      refine ⟨href, hother, fun e' he' p hp' => ?_⟩
      obtain rfl := Option.some.inj (hself.symm.trans he')
      have hsame : b.computePegPrice (e.moved np b.nextSeq).order = b.computePegPrice e.order :=
        computePegPrice_order rfl rfl
      rw [computePegPrice_congr href, hsame, hp] at hp'
      exact Option.some.inj hp'

/-- Every order of the list is re-placed, the others are where they should be. -/
lemma repricePeg_foldl_tracked (hb : b.view.Sound) {l : List OrderId} (hl : ∀ id ∈ l, id ∈ b.pegged)
    (h : ∀ id ∈ b.pegged, id ∈ l ∨ b.TracksAt id) : (l.foldl repricePeg b).Tracked := by
  induction l generalizing b with
  | nil =>
    intro id hid
    exact (h id hid).resolve_left (by simp)
  | cons id l ih =>
    obtain ⟨hsound, hpegged, href, hother, hself⟩ := repricePeg_spec hb (hl id (by simp))
    rw [List.foldl_cons]
    refine ih hsound (fun i hi => hpegged ▸ hl i (by simp [hi])) fun i hi => ?_
    by_cases hid : i = id
    · exact .inr (hid ▸ hself)
    rcases h i (hpegged ▸ hi) with hmem | ht
    · exact .inl ((List.mem_cons.1 hmem).resolve_left hid)
    · exact .inr (ht.congr href (hother i hid))

/-- Repricing puts every pegged order at its price. -/
lemma repricePegs_tracked (hb : b.view.Sound) : b.repricePegs.Tracked :=
  repricePeg_foldl_tracked hb (fun _ hid => (List.perm_insertionSort _ _).subset hid)
    fun _ hid => .inl ((List.perm_insertionSort _ _).symm.subset hid)

/-- A resting order is cancelled. -/
lemma Tracked.cancelResting (h : b.Tracked) (hb : b.view.Sound) {e : Entry}
    (he : b.orders.lookup id = some e) : (b.cancelResting id e).Tracked := by
  obtain rfl := hb.id_eq id e he
  obtain ⟨hev, -⟩ := evolves_removeResting hb he
  unfold Book.cancelResting
  dsimp only
  split_ifs with hpegged
  swap
  · exact repricePegs_tracked (hev.sound hb)
  -- a pegged order leaves: the others keep their references
  have hin : e.order.id ∈ b.pegged := by simpa using hpegged
  obtain ⟨e', he', hpeg⟩ := hb.pegged_ok e.order.id hin
  obtain rfl := Option.some.inj (he.symm.trans he')
  have hv := hev.run.of_single.2
  have hother : ∀ i, i ≠ e.order.id →
      (b.removeResting e.order.id e).view.entry i = b.view.entry i := by
    intro i hi
    rw [hv]
    simp [Mut.apply, View.unpeg, View.unlink, hi]
  have hself : (b.removeResting e.order.id e).view.entry e.order.id = none := by
    rw [hv]
    simp [Mut.apply, View.unpeg, View.unlink]
  have href : SameReferences b (b.removeResting e.order.id e) := by
    refine sameReferences_of_pegged hb (hev.sound hb) hother (fun x hx => ?_) fun x hx => ?_
    · obtain rfl := Option.some.inj (he.symm.trans hx)
      exact hpeg
    · rw [hself] at hx
      exact absurd hx (by simp)
  intro i hi
  have hsub : i ∈ b.pegged := by
    have hi' : i ∈ (b.removeResting e.order.id e).view.pegged := hi
    rw [hv] at hi'
    exact (List.mem_filter.1 hi').1
  by_cases hid : i = e.order.id
  · subst hid
    intro x hx
    exact absurd (hself.symm.trans hx) (by simp)
  · exact (h i hsub).congr href (hother i hid)

/-- Any identifier is cancelled. -/
lemma Tracked.cancel (h : b.Tracked) (hb : b.view.Sound) (id : OrderId) :
    (b.cancel id).1.Tracked := by
  unfold Book.cancel
  cases b.stops.lookup id with
  | some o => exact h.of_view hb rfl
  | none =>
    dsimp only
    split_ifs
    · exact h.of_view hb rfl
    · exact h.of_view hb rfl
    · cases he : b.orders.lookup id with
      | none => exact h
      | some e => exact h.cancelResting hb he

lemma Tracked.cancel_foldl (h : b.Tracked) (hb : b.view.Sound) (l : List OrderId) :
    (l.foldl (fun b id => (b.cancel id).1) b).Tracked := by
  induction l generalizing b with
  | nil => exact h
  | cons id l ih =>
    obtain ⟨ms, hg, -⟩ := cancel_glides hb id
    exact ih (h.cancel hb id) (hg.evolves.sound hb)

/-- A pegged order comes to rest at the price of its peg. -/
lemma Tracked.submitPeg (h : b.Tracked) (hb : b.view.Sound) (hm : b.memLevels = 0) {o : Order}
    (hnone : b.orders.lookup o.id = none) (ho : Restable o) (hpeg : o.peg.isSome = true)
    (hs' : (b.submitPeg o).1.view.Sound) : (b.submitPeg o).1.Tracked := by
  unfold Book.submitPeg at hs' ⊢
  cases hp : b.computePegPrice o with
  | none => exact h
  | some price =>
    rw [hp] at hs'
    dsimp only at hs' ⊢
    set o' : Order := { o with type := .limit, price := price } with ho'
    obtain ⟨tail, hev, -, hrests, -, htail⟩ := rest_spec (o := o') hb hnone ho []
    obtain rfl := hrests.eq_rest hm hev
    have hr := (htail.resolve_right fun h => h.2.1 hm).1
    have hv := hev.run.of_single.2
    rw [if_pos hr] at hs' ⊢
    set b' : Book := { (b.rest o' []).1 with pegged := (b.rest o' []).1.pegged.insert o'.id }
      with hb'
    have hentry : b'.view.entry = (b.rest o' []).1.view.entry := rfl
    have hother : ∀ i, i ≠ o.id → b'.view.entry i = b.view.entry i := by
      intro i hi
      rw [hentry, hv]
      simp [Mut.apply, View.link, ho', hi]
    have hself : b'.view.entry o.id = some ⟨o', sliceOf o'⟩ := by
      rw [hentry, hv]
      simp [Mut.apply, View.link, ho']
    have href : SameReferences b b' := by
      refine sameReferences_of_pegged hb hs' hother (fun x hx => ?_) fun x hx => ?_
      · exact absurd (hnone.symm.trans hx) (by simp)
      · obtain rfl := Option.some.inj (hself.symm.trans hx)
        exact hpeg
    intro i hi
    by_cases hid : i = o.id
    · subst hid
      intro x hx p hxp
      obtain rfl := Option.some.inj (hself.symm.trans hx)
      have hsame : b.computePegPrice o' = b.computePegPrice o := computePegPrice_order rfl rfl
      rw [computePegPrice_congr href, hsame, hp] at hxp
      exact Option.some.inj hxp
    · have hi' : i ∈ b.pegged := by
        have hpegged : (b.rest o' []).1.pegged = b.pegged := congrArg View.pegged hv
        rcases List.mem_insert_iff.1 hi with rfl | hi
        · exact absurd rfl hid
        · exact hpegged ▸ hi
      exact (h i hi').congr href (hother i hid)

end Tracking

/-! ### Submissions in which no stop fires on arrival -/

/-- The checks on arrival turn the order away. -/
def Refuses (b : Book) (o : Order) : Prop :=
  ((b.stamp o).qty ≤ 0 ∨ (b.stamp o).leaves ≤ 0) ∨
    ((b.stamp o).type = .limit ∧ (b.stamp o).price ≤ 0 ∧ (b.stamp o).peg.isNone = true) ∨
    (b.orders.lookup (b.stamp o).id).isSome = true ∨ (b.stops.lookup (b.stamp o).id).isSome = true

instance (b : Book) (o : Order) : Decidable (b.Refuses o) := by
  unfold Refuses
  infer_instance

/-- The submission is of a stop that fires on arrival. -/
def Springs (x : Book × Order) : Prop := ¬ x.1.Refuses x.2 ∧ firesAtOnce x.1 x.2 = true

instance : DecidablePred Springs := fun _ => inferInstanceAs (Decidable (_ ∧ _))

/-- Submit an order; neither it nor a child that it releases is a stop that fires on arrival. -/
def submitTame : SubmitFn :=
  Comp.fix (Comp.barring Springs submitBody) (Comp.barring_local submitBody_local)

/-- A tame submission is a submission. -/
lemma submitTame_approx (n : ℕ) (x : Book × Order) :
    Comp.Approx n (submitTame x) (x.1.submit x.2) :=
  Comp.fix_barring_approx submitBody_local n x

/-- The order is no stop that fires on arrival in the book. -/
def tameOrder (b : Book) (o : Order) : Prop := ¬ Springs (b, o)

/-- A stage of a tame operation on a book without a window: the pegs are at their prices unless
orders have entered the book since. -/
structure Tamed (s : Stage) : Prop where
  fit : Fit s
  whole : s.book.memLevels = 0
  unsprung : s.marks.sprung = false
  tracked : s.marks.strayed = false → s.book.Tracked

section Tamed

variable {b : Book} {s s' : Stage} {ts : List Trade}

/-- A stop that fires on arrival is not tame. -/
lemma Admits.springs {b' : Book} {o x : Order} (h : b.Admits o (.stop b' x))
    (hl : b'.haveLast = true) (ht : stopTriggered (b'.armStop x) b'.lastPrice = true) :
    Springs (b, o) := by
  refine ⟨?_, h.firesAtOnce hl ht⟩
  cases h with
  | stop h _ =>
    obtain ⟨hid, hqty, -⟩ := stamp_keeps b o
    obtain ⟨htype, hpeg, hprice⟩ := stamp_price b o
    rintro ((hq | hq) | ⟨hlim, hp, hnone⟩ | hdup | hdup)
    · exact absurd h.qty (by rw [← hqty]; exact not_lt.2 hq)
    · exact absurd h.leaves (not_lt.2 hq)
    · rw [htype] at hlim
      rw [hpeg] at hnone
      rw [hprice] at hp
      exact absurd (h.price hlim (by simpa using hnone)) (not_lt.2 hp)
    · rw [hid, h.resting] at hdup
      simp at hdup
    · rw [hid, h.parked] at hdup
      simp at hdup

/-- A stride that is tame. -/
lemma Stride.tamed (h : Stride tameOrder s ts s') (hs : Tamed s) : Tamed s' := by
  obtain ⟨ms, hadv, -⟩ := h.advances hs.fit
  have hfit := h.fit_of_fit hs.fit
  have hwhole : s'.book.memLevels = 0 := hadv.evolves.memLevels.trans hs.whole
  have hsound := hs.fit.sound
  -- where nothing rests, comes or moves, the pegs stay where they are
  have hview : s'.book.view = s.book.view → s'.marks.sprung = s.marks.sprung →
      s'.marks.strayed = s.marks.strayed → Tamed s' := fun hv hsp hst =>
    ⟨hfit, hwhole, hsp.trans hs.unsprung, fun h => (hs.tracked (hst ▸ h)).of_view hsound hv⟩
  cases h with
  | @answer b o hand k r hA h =>
    refine hview ?_ rfl rfl
    exact (h.advances_answered hs.fit).evolves.run.of_nil
  | @aon b b' o x hand k hA h =>
    refine ⟨hfit, hwhole, hs.unsprung, fun hst => ?_⟩
    cases h with
    | aon h _ _ =>
      have hq := (quiet_looked b o).1.view
      unfold submitAon
      split_ifs with hd
      · exact (hs.tracked hst).of_view hsound hq
      · obtain ⟨tail, hev, -⟩ := rest_spec (hq ▸ hsound) (h.lookup_eq_none hs.fit)
          (h.ready hs.fit).1 []
        exact repricePegs_tracked (hev.sound (hq ▸ hsound))
  | @peg b b' o x hand k hA h =>
    refine ⟨hfit, hwhole, hs.unsprung, fun hst => ?_⟩
    cases h with
    | peg h _ hp =>
      have hpeg : (b.stamp o).peg.isSome = true := by
        rw [(stamp_price b o).2.1]
        exact hp
      exact ((hs.tracked hst).of_view hsound rfl : b.ticked.Tracked).submitPeg hsound hs.whole
        hs.fit.stamp_new (h.toChecked.ready (hs.fit.ready _ List.mem_cons_self)).1 hpeg hfit.sound
  | park hA h hq =>
    cases h
    exact hview rfl rfl rfl
  | spring hA h hl ht hm => exact absurd (h.springs hl ht) hA
  | meet | fire => exact ⟨hfit, hwhole, hs.unsprung, fun h => absurd h (by simp [Marks.enters])⟩
  | remainder hx hm ht =>
    exact ⟨hfit, hwhole, hs.unsprung, fun h => absurd h (by simp [Marks.enters])⟩
  | @allot b hand k queue =>
    exact hview (auctionPhase_allots b queue).view rfl rfl
  | trail | calm h =>
    refine hview ?_ rfl rfl
    exact (trailed_glides _).evolves.run.of_nil
  | reprice => exact ⟨hfit, hwhole, hs.unsprung, fun _ => repricePegs_tracked hsound⟩
  | cancel id => exact ⟨hfit, hwhole, hs.unsprung, fun h => (hs.tracked h).cancel hsound id⟩
  | drop | release | regroup | member => exact hview rfl rfl rfl

lemma Strides.tamed (h : Strides tameOrder s ts s') (hs : Tamed s) : Tamed s' :=
  (h.invariant (T := fun _ => True) hs fun _ _ _ hstep hP =>
    ⟨hstep.tamed hP, fun _ _ => trivial⟩).1

lemma drives_tamed : Drives tameOrder False Tamed where
  keep hs h := h.tamed hs
  meet := False.elim
  spring := False.elim
  fire := False.elim
  remainder := False.elim

/-- A tame submission leaves the pegs at their prices. -/
lemma submitTame_tracked {o : Order} (hs : Tamed ⟨b, [⟨o, .submitted⟩], {}⟩)
    {r : Book × SubmitOutcome} (h : (submitTame (b, o)).Returns r) : r.1.Tracked := by
  obtain ⟨⟨k', hrun, hk⟩, -⟩ :=
    (drives_tamed.fix False.elim False.elim (fun hr => Comp.returns_barring.1 hr) hs).2 r h
  have hend := hrun.tamed hs
  refine hend.tracked (Bool.eq_false_of_not_eq_true fun hst => ?_)
  rcases hk.strayed hst with h | h
  · exact absurd h (by simp)
  · exact absurd h (ne_true_of_eq_false hend.unsprung)

end Tamed

/-! ### Auctions that reprice -/

section Auction

variable {b : Book} {r' : Book × List Trade}

/-- Cross a queue of auction orders; if remainders enter the book there are executions. -/
def crossTame (b : Book) (queue : List Order) : Comp (Book × List Trade) :=
  if queue = [] then pure (b, [])
  else do
    let r := b.auctionPhase queue
    let s ← r.2.1.foldlM injectRemainder (r.1, r.2.2)
    if s.2 = [] ∧ r.2.1.any entersBook = true then Comp.never else settle s

/-- A tame auction is an auction, and it executes if it lets remainders into the book. -/
lemma returns_crossAuction_of_tame {queue : List Order} (h : (b.crossTame queue).Returns r') :
    (b.crossAuction queue).Returns r' ∧
      ¬ (r'.2 = [] ∧ ∃ x ∈ (b.auctionPhase queue).2.1, entersBook x = true) := by
  unfold crossTame at h
  unfold crossAuction
  split_ifs at h ⊢ with hq
  · obtain rfl := Comp.returns_pure.1 h
    subst hq
    refine ⟨h, fun hbad => ?_⟩
    obtain ⟨x, hx, -⟩ := hbad.2
    have hbase := congrArg List.length (auctionPhase_allots b []).base
    simp only [List.map_nil, List.length_nil, List.length_map, List.length_eq_zero_iff] at hbase
    rw [hbase] at hx
    exact absurd hx List.not_mem_nil
  obtain ⟨s, h₁, h₂⟩ := Comp.returns_bind.1 h
  split_ifs at h₂ with hbad
  · exact absurd h₂ Comp.not_returns_never
  refine ⟨Comp.returns_bind.2 ⟨s, h₁, h₂⟩, fun hr => hbad ⟨?_, List.any_eq_true.2 hr.2⟩⟩
  -- the executions of the stops come after the others
  unfold settle at h₂
  split_ifs at h₂ with htr
  · exact htr
  · obtain ⟨r₁, h₃, h₄⟩ := Comp.returns_bind.1 h₂
    obtain rfl := Comp.returns_pure.1 h₄
    obtain ⟨k, ⟨ts, hts, -⟩, -⟩ := (@Drives.evaluateStops _ _ _ (drives_code anyOrder) s.1 []
      {} trivial s.2).2 r₁ h₃
    exact (List.append_eq_nil_iff.1 (hts.symm.trans hr.1)).1

/-- A tame auction leaves the pegs at their prices. -/
lemma crossTame_tracked {queue : List Order} (hs : Tamed ⟨b, auctioned queue, {}⟩)
    (h : (b.crossTame queue).Returns r') : (b.crossAuction queue).Returns r' ∧ r'.1.Tracked := by
  obtain ⟨hret, hno⟩ := returns_crossAuction_of_tame h
  have hs' : Tamed ⟨b, auctioned queue ++ [], {}⟩ := by rwa [List.append_nil]
  obtain ⟨k', hrun, -, hstrayed⟩ := (drives_tamed.crossAuction hs').2 r' hret
  have hend := hrun.tamed hs'
  refine ⟨hret, hend.tracked (Bool.eq_false_of_not_eq_true fun hst => ?_)⟩
  rcases hstrayed hst with h | h
  · exact absurd h (by simp)
  · exact hno h

end Auction

end Book

/-! ### Runs -/

open Book

/-- Answer an instruction that ends in a repricing if it lets orders into the book. -/
def Instruction.runTame (b : Book) : Instruction → Comp (Book × List Trade)
  | submit o => submitTame (b, o) >>= fun r => pure (r.1, r.2.trades)
  | runOpeningAuction => { b with openingAuction := [] }.crossTame b.openingAuction
  | runClosingAuction => { b with closingAuction := [] }.crossTame b.closingAuction
  | q => q.run b

/-- No stop fires on arrival, and no auction lets remainders into the book without an
execution. -/
def Instruction.Tame (r : Record) (q : Instruction) : Prop := ∃ x, (q.runTame r.book).Returns x

/-- A tame instruction leaves the pegs at their prices. -/
lemma Instruction.Tame.tracked {r : Record} {q : Instruction} (hr : r.Sane)
    (hm : r.book.memLevels = 0)
    (ht : r.book.Tracked) (htame : q.Tame r) (hq : q.Allowed r) {x : Book × List Trade}
    (h : (q.run r.book).Returns x) : x.1.Tracked := by
  obtain ⟨y, hy⟩ := htame
  have hb := hr.wf
  have hstart : ¬ q.Seeds → Tamed ⟨(q.start r.book).1, (q.start r.book).2, {}⟩ := by
    intro hs
    have hev := (q.taken_up r.book hs).evolves
    exact ⟨hb.fit_start (hq.fresh hr.live) {}, hev.memLevels.trans hm, rfl,
      fun _ => ht.of_view hb.sound hev.run.of_nil⟩
  cases q with
  | submit o =>
    obtain ⟨z, hz, hy⟩ := Comp.returns_bind.1 hy
    obtain rfl := Comp.returns_pure.1 hy
    have hz' := hz.of_approx fun k => submitTame_approx k (r.book, o)
    have h' : ((submit o).run r.book).Returns (z.1, z.2.trades) :=
      Comp.returns_bind.2 ⟨z, hz', Comp.returns_pure.2 rfl⟩
    rw [h.unique h']
    exact submitTame_tracked (hstart not_false) hz
  | cancel id =>
    obtain rfl := Comp.returns_pure.1 h
    exact ht.cancel hb.sound id
  | expire now =>
    obtain rfl := Comp.returns_pure.1 h
    exact ht.cancel_foldl hb.sound _
  | runOpeningAuction | runClosingAuction =>
    obtain ⟨hy', hty⟩ := crossTame_tracked (hstart not_false) hy
    exact h.unique hy' ▸ hty
  | seedPosition c net =>
    obtain rfl := Comp.returns_pure.1 h
    exact ht.of_view hb.sound (seedPosition_keeps r.book c net).1

namespace History

variable {stp : StpPolicy} {symbol : Symbol} {eventSink : Bool} {r : Record}

/-- In a run of tame instructions every pegged order rests, after every instruction, at the
price that `computePegPrice` gives for it. -/
theorem tracked_of_history
    (h : History Instruction.Tame (Book.empty 0 stp symbol eventSink) r) : r.book.Tracked := by
  induction h with
  | init => exact fun id hid => absurd hid List.not_mem_nil
  | @step r q b' ts h hC hq hret ih =>
    have hmem : r.book.memLevels = 0 := congrArg Settings.memLevels h.settings
    exact hC.tracked h.sane hmem ih hq hret

/-- A history: a midpoint peg moves when a better buy rests, trades, and moves again when the
trade fires a parked stop. -/
theorem tracked_of_history_cascade : ∃ r : Record,
    History Instruction.Tame (Book.empty 0 .none "ABC" true) r ∧ r.book.Tracked ∧
      r.book.pegged = [3] ∧ (r.book.find 3).map (·.price) = some 106 := by
  let C : Record → Instruction → Prop := fun r q => ((q.runTame r.book).run 8).isSome = true
  let qs : List Instruction := [
    .submit { id := 1, side := .sell, price := 110, qty := 5 },
    .submit { id := 2, side := .buy, price := 100, qty := 5 },
    .submit { id := 3, side := .buy, qty := 2, peg := some {} },
    .submit { id := 4, side := .sell, price := 109, qty := 5,
              trigger := some { stopPrice := 107 } },
    .submit { id := 5, side := .buy, price := 104, qty := 5 },
    .submit { id := 6, side := .sell, price := 107, qty := 1 },
    .cancel 1]
  obtain ⟨r, hr, hpegged, hprice⟩ : ∃ r, History C (Book.empty 0 .none "ABC" true) r ∧
      r.book.pegged = [3] ∧ (r.book.find 3).map (·.price) = some 106 :=
    exists_of_replay 8 qs (by decide +kernel)
  have htame : ∀ r q, C r q → q.Tame r := by
    intro r q hC
    obtain ⟨x, hx⟩ := Option.isSome_iff_exists.1 hC
    exact ⟨x, 8, hx⟩
  have hist := hr.imp htame
  exact ⟨r, hist, tracked_of_history hist, hpegged, hprice⟩

/-- A pegged order at another price than that of its peg. -/
lemma not_tracked {b : Book} {id : OrderId} {p q : ℤ} (hid : id ∈ b.pegged) (hpq : p ≠ q)
    (h : (b.orders.lookup id).map (fun e => (e.order.price, b.computePegPrice e.order))
      = some (p, some q)) : ¬ b.Tracked := by
  intro ht
  obtain ⟨e, he, hx⟩ := Option.map_eq_some_iff.1 h
  obtain ⟨rfl, hq⟩ := Prod.mk.inj hx
  exact hpq (ht id hid e he q hq)

/-- A stop that fires on arrival rests above the best buy, and so does the remainder of an order
that finds no counterparty in an auction; a midpoint peg stays where it was. -/
theorem untracked_of_history :
    (∃ r : Record, History (fun _ q => q ≠ .runOpeningAuction ∧ q ≠ .runClosingAuction)
      (Book.empty 0 .none "ABC" true) r ∧ ¬ r.book.Tracked) ∧
    ∃ r : Record, History (fun _ q => ∀ o ∈ q.orders, o.trigger = none)
      (Book.empty 0 .none "ABC" true) r ∧ ¬ r.book.Tracked := by
  let price : Book → Option (ℤ × Option ℤ) := fun b =>
    (b.orders.lookup 4).map fun e => (e.order.price, b.computePegPrice e.order)
  let sell : Instruction := .submit { id := 1, side := .sell, price := 110, qty := 5 }
  let buy : Instruction := .submit { id := 2, side := .buy, price := 100, qty := 5 }
  let peg : Instruction := .submit { id := 4, side := .buy, qty := 2, peg := some {} }
  constructor
  · let C : Record → Instruction → Prop := fun _ q =>
      q ≠ .runOpeningAuction ∧ q ≠ .runClosingAuction
    let qs : List Instruction := [sell, buy,
      .submit { id := 3, side := .sell, price := 100, qty := 1 }, peg,
      .submit { id := 5, side := .buy, price := 104, qty := 5,
                trigger := some { stopPrice := 90 } }]
    obtain ⟨r, hist, hpegged, hprice⟩ : ∃ r, History C (Book.empty 0 .none "ABC" true) r ∧
        r.book.pegged = [4] ∧ price r.book = some (105, some 107) :=
      exists_of_replay 8 qs (by decide +kernel)
    exact ⟨r, hist, not_tracked (by simp [hpegged]) (by decide) hprice⟩
  · let C : Record → Instruction → Prop := fun _ q => ∀ o ∈ q.orders, o.trigger = none
    let qs : List Instruction := [sell, buy, peg,
      .submit { id := 5, side := .buy, price := 104, qty := 5, flags.loo := true },
      .runOpeningAuction]
    obtain ⟨r, hist, hpegged, hprice⟩ : ∃ r, History C (Book.empty 0 .none "ABC" true) r ∧
        r.book.pegged = [4] ∧ price r.book = some (105, some 107) :=
      exists_of_replay 8 qs (by decide +kernel)
    exact ⟨r, hist, not_tracked (by simp [hpegged]) (by decide) hprice⟩

end History

end Codicis
