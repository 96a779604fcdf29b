/-
Queue order and rank order.

An order is stamped with its rank when it arrives and takes its place in a queue when it comes
to rest.  If it rests in the call that brought it, all ranks on its side are smaller: fills and
pegs stamp new ranks at the back of a queue only, and while the order matches, only orders of the
other side are filled.  An order that waits in between, as a parked stop or for an auction, keeps
the rank of its arrival and queues behind orders that came later.

`Order.Late s p` names the orders that may do so at the level of side `s` and price `p`.  Along
every history without such an order the ranks of the level increase from front to back.
-/
import Codicis.Core.Quiescence

namespace Codicis

open Book

/-! ### Late orders -/

/-- What is left of the order would rest at the price `p` of the side `s`. -/
def Order.Lands (s : Side) (p : ℤ) (o : Order) : Prop :=
  o.side = s ∧ o.price = p ∧ o.type = .limit ∧ o.tif.plain ≠ .ioc

/-- The order waits for a trigger or an auction before it would rest at the price `p` of the
side `s`. -/
def Order.Late (s : Side) (p : ℤ) (o : Order) : Prop :=
  (awaitsTrigger o = true ∨ o.flags.loo = true ∨ o.flags.loc = true) ∧ o.Lands s p

instance (s : Side) (p : ℤ) (o : Order) : Decidable (o.Lands s p) :=
  inferInstanceAs (Decidable (_ ∧ _ ∧ _ ∧ _))

instance (s : Side) (p : ℤ) (o : Order) : Decidable (o.Late s p) :=
  inferInstanceAs (Decidable (_ ∧ _))

section Late

variable {s : Side} {p : ℤ} {o : Order}

lemma Order.lands_stamp (b : Book) : (b.stamp o).Lands s p ↔ o.Lands s p := by
  obtain ⟨-, -, -, -, -, hside, -⟩ := Book.stamp_keeps b o
  obtain ⟨htype, -, hprice⟩ := Book.stamp_price b o
  have htif : (b.stamp o).tif.plain = o.tif.plain := congrArg Order.tif (o.traits_stamp b)
  rw [Lands, Lands, hside, htype, hprice, htif]

lemma Order.late_stamp (b : Book) : (b.stamp o).Late s p ↔ o.Late s p := by
  obtain ⟨-, -, -, -, -, -, htrig, -⟩ := Book.stamp_keeps b o
  have hflags : (b.stamp o).flags.loo = o.flags.loo ∧ (b.stamp o).flags.loc = o.flags.loc := by
    unfold Book.stamp Order.normalize Order.normalizeTif
    dsimp only
    (repeat' split) <;> exact ⟨rfl, rfl⟩
  have haw : awaitsTrigger (b.stamp o) = awaitsTrigger o := by
    rw [awaitsTrigger, htrig]
    rfl
  rw [Late, Late, lands_stamp, haw, hflags.1, hflags.2]

lemma Order.Trails.lands {x' : Order} (h : o.Trails x') : x'.Lands s p ↔ o.Lands s p := by
  rw [h.eq_trigger]
  rfl

lemma Order.lands_armStop (b : Book) : (b.armStop o).Lands s p ↔ o.Lands s p := by
  rw [Book.armStop_eq]
  rfl

end Late

/-! ### Queues in the order of rank -/

/-- The rank of a resting order. -/
def View.rankOf (v : View) (id : OrderId) : ℕ := (v.entry id).elim 0 (·.order.rank)

/-- The ranks of the level at the price `p` of the side `s` increase from front to back. -/
def View.Ranked (v : View) (s : Side) (p : ℤ) : Prop :=
  (v.queue s p).Pairwise fun i j => v.rankOf i < v.rankOf j

/-- Sorting the level at the price `p` of the side `s` by rank gives its queue back. -/
def View.Restorable (v : View) (s : Side) (p : ℤ) : Prop :=
  ∀ l : List OrderId, l.Perm (v.queue s p) → (l.Pairwise fun i j => v.rankOf i ≤ v.rankOf j) →
    l = v.queue s p

namespace View

variable {v : View} {s : Side} {p : ℤ} {e : Entry}

lemma rankOf_of_entry {id : OrderId} (h : v.entry id = some e) : v.rankOf id = e.order.rank := by
  simp [rankOf, h]

/-- Only the queue and the ranks of its orders matter. -/
lemma Ranked.congr {w : View} (h : v.Ranked s p) (hq : (w.queue s p).Sublist (v.queue s p))
    (hr : ∀ id ∈ w.queue s p, w.rankOf id = v.rankOf id) : w.Ranked s p := by
  refine (h.sublist hq).imp_of_mem fun {i j} hi hj hlt => ?_
  rw [hr i hi, hr j hj]
  exact hlt

lemma Ranked.restorable (h : v.Ranked s p) : v.Restorable s p := by
  intro l hl hsorted
  refine hl.eq_of_pairwise (fun i j hi hj hij hji => ?_) hsorted (h.imp le_of_lt)
  -- two orders of the same rank are one
  have hsymm : Std.Symm fun i j => v.rankOf i ≠ v.rankOf j := ⟨fun _ _ => Ne.symm⟩
  have hne : (v.queue s p).Pairwise fun i j => v.rankOf i ≠ v.rankOf j := h.imp ne_of_lt
  by_contra hij'
  exact hne.forall (hl.subset hi) hj hij' (le_antisymm hij hji)

/-- An order joins a level whose ranks are smaller. -/
lemma Ranked.link (hv : v.Sound) (hnew : v.entry e.order.id = none) (h : v.Ranked s p)
    (hlt : e.order.side = s → e.order.price = p → ∀ id e', v.entry id = some e' →
      e'.order.side = s → e'.order.rank < e.order.rank) : (v.link e).Ranked s p := by
  have hrank : ∀ id ∈ v.queue s p, (v.link e).rankOf id = v.rankOf id := by
    intro id hid
    have hne : id ≠ e.order.id := fun heq => hv.notMem_queue hnew s p (heq ▸ hid)
    simp [rankOf, View.link, hne]
  by_cases hsp : s = e.order.side ∧ p = e.order.price
  · have hq : (v.link e).queue s p = v.queue s p ++ [e.order.id] := by simp [View.link, hsp]
    have hself : (v.link e).rankOf e.order.id = e.order.rank := by simp [rankOf, View.link]
    rw [Ranked, hq, List.pairwise_append]
    refine ⟨?_, List.pairwise_singleton _ _, fun i hi j hj => ?_⟩
    · exact h.imp_of_mem fun {i j} hi hj hlt => by rwa [hrank i hi, hrank j hj]
    · obtain ⟨e', he', hs', -⟩ := (hv.mem_queue s p i).1 hi
      rw [List.mem_singleton.1 hj, hself, hrank i hi, rankOf_of_entry he']
      exact hlt hsp.1.symm hsp.2.symm i e' he' hs'
  · have hq : (v.link e).queue s p = v.queue s p := by simp [View.link, hsp]
    exact h.congr (hq ▸ .refl _) fun id hid => hrank id (hq ▸ hid)

/-- An order leaves its level. -/
lemma Ranked.unlink (hv : v.Sound) (he : v.entry e.order.id = some e) (h : v.Ranked s p) :
    (v.unlink e).Ranked s p := by
  have hsub : ((v.unlink e).queue s p).Sublist (v.queue s p) := by
    simp only [View.unlink]
    split_ifs
    · exact List.erase_sublist
    · exact .refl _
  refine h.congr hsub fun id hid => ?_
  have hne : id ≠ e.order.id := by
    rintro rfl
    simp only [View.unlink] at hid
    split_ifs at hid with hsp
    · exact (hv.nodup s p).not_mem_erase hid
    · exact hsp ((hv.mem_queue_entry he).1 hid)
  simp [rankOf, View.unlink, hne]

/-- An order goes to the back of its own or of another level, with a rank above all others. -/
lemma Ranked.relink (hv : v.Sound) (he : v.entry e.order.id = some e) {e' : Entry}
    (hid : e'.order.id = e.order.id) (h : v.Ranked s p)
    (hlt : ∀ id x, v.entry id = some x → x.order.rank < e'.order.rank) :
    ((v.unlink e).link e').Ranked s p := by
  -- the set of pegged orders plays no part here
  have hv₀ : ({ v with pegged := [] } : View).Sound :=
    ⟨hv.mem_queue, hv.nodup, hv.total_eq, hv.id_eq, hv.entry_ok, by simp⟩
  have hv₁ : ({ v with pegged := [] } : View).unlink e |>.Sound := hv₀.unlink he (by simp)
  refine Ranked.link (v := ({ v with pegged := [] } : View).unlink e) hv₁ ?_
    (Ranked.unlink (v := { v with pegged := [] }) hv₀ he h) ?_
  · simp [View.unlink, hid]
  · intro _ _ id x hx _
    simp only [View.unlink] at hx
    split_ifs at hx
    exact hlt id x hx

lemma Ranked.reduce (he : v.entry e.order.id = some e) (h : v.Ranked s p) (q : ℤ) :
    (v.reduce e q).Ranked s p := by
  refine h.congr (.refl _) fun id _ => ?_
  by_cases hid : id = e.order.id
  · subst hid
    rw [rankOf_of_entry he]
    simp [rankOf, View.reduce, Entry.fill]
  · simp [rankOf, View.reduce, hid]

lemma Ranked.evict (hv : v.Sound) (h : v.Ranked s p) (t : Side) (q : ℤ) :
    (v.evict t q).Ranked s p := by
  by_cases hsp : s = t ∧ p = q
  · have hq : (v.evict t q).queue s p = [] := by simp [View.evict, hsp]
    rw [Ranked, hq]
    exact List.Pairwise.nil
  · have hq : (v.evict t q).queue s p = v.queue s p := by simp [View.evict, hsp]
    refine h.congr (hq ▸ .refl _) fun id hid => ?_
    -- an order rests at one price only
    have hno : id ∉ v.queue t q := by
      intro hid'
      obtain ⟨e, he, hs, hp⟩ := (hv.mem_queue s p id).1 (hq ▸ hid)
      obtain ⟨e', he', hs', hp'⟩ := (hv.mem_queue t q id).1 hid'
      obtain rfl := Option.some.inj (he.symm.trans he')
      exact hsp ⟨hs.symm.trans hs', hp.symm.trans hp'⟩
    simp [rankOf, View.evict, hno]

end View

/-! ### Ranks under mutations -/

/-- The rank that a mutation stamps, if any, is above all others on the side. -/
def Mut.Stamps (v : View) (s : Side) (p : ℤ) : Mut → Prop
  | .rest e => e.order.side = s → e.order.price = p → ∀ id e', v.entry id = some e' →
      e'.order.side = s → e'.order.rank < e.order.rank
  | .fill _ _ _ rank | .move _ _ rank => ∀ id e', v.entry id = some e' → e'.order.rank < rank
  | _ => True

lemma Mut.ranked_apply {v : View} {m : Mut} (hv : v.Sound) (hm : m.Ok v) {s : Side} {p : ℤ}
    (h : v.Ranked s p) (hst : m.Stamps v s p) : (m.apply v).Ranked s p := by
  cases m with
  | rest e => exact h.link hv hm.1 hst
  | fill o me q rank =>
    simp only [apply]
    split_ifs
    · exact h.unlink hv hm.1
    · exact h.relink hv hm.1 rfl hst
    · exact h.reduce hm.1 q
  | remove e => exact h.unlink hv hm
  | evict t q => exact h.evict hv t q
  | move e np rank => exact h.relink hv hm rfl hst
  | _ => exact h

/-- The mutation stamps the rank `r` on an order of the side `s`. -/
def Mut.Ranks (s : Side) (r : ℕ) : Mut → Prop
  | .rest e => e.order.side = s ∧ e.order.rank = r
  | .fill _ me q rank => Mut.Replenishes me q ∧ me.order.side = s ∧ rank = r
  | .move e _ rank => e.order.side = s ∧ rank = r
  | _ => False

/-- The ranks after a mutation are old ones, or the one it stamps. -/
lemma Mut.rank_apply {v : View} {m : Mut} (hm : m.Ok v) {id : OrderId} {e' : Entry}
    (h : (m.apply v).entry id = some e') :
    (∃ e, v.entry id = some e ∧ e'.order.side = e.order.side ∧ e'.order.rank = e.order.rank) ∨
      m.Ranks e'.order.side e'.order.rank := by
  rcases entry_cases hm h with h | ⟨rfl, -⟩ | ⟨o, me, q, rank, rfl, -, he, rfl | ⟨hrep, rfl⟩⟩ |
    ⟨e, np, rank, rfl, -, -, rfl⟩
  · exact .inl ⟨e', h, rfl, rfl⟩
  · exact .inr ⟨rfl, rfl⟩
  · exact .inl ⟨me, he, rfl, rfl⟩
  · exact .inr ⟨hrep, rfl, rfl⟩
  · exact .inr ⟨rfl, rfl⟩

/-! ### Moments in the order of rank -/

/-- An order queued for an auction keeps its place in the order of rank. -/
def Order.Queues (s : Side) (p : ℤ) (n : ℕ) (x : Order) : Prop :=
  (x.flags.loo = true ∨ x.flags.loc = true → ¬ x.Lands s p) ∧ x.rank < n

/-- The ranks that rest in the book were taken, and the level at the price `p` of the side `s`
is in the order of rank; what waits does not land there. -/
structure Book.InRank (s : Side) (p : ℤ) (b : Book) : Prop where
  below : ∀ id e, b.view.entry id = some e → e.order.rank < b.nextSeq
  ranked : b.view.Ranked s p
  stops : ∀ id x, b.stops.lookup id = some x → ¬ x.Lands s p ∧ x.rank < b.nextSeq
  opening : ∀ x ∈ b.openingAuction, x.Queues s p b.nextSeq
  closing : ∀ x ∈ b.closingAuction, x.Queues s p b.nextSeq
  held : ∀ x ∈ b.frame.held, ¬ x.Late s p

/-- All ranks on the side of the order are smaller. -/
def Book.Precedes (b : Book) (x : Order) : Prop :=
  ∀ id e, b.view.entry id = some e → e.order.side = x.side → e.order.rank < x.rank

/-- The order whose turn it is may rest at the end of its queue, or does not land. -/
structure Active.OnTime (s : Side) (p : ℤ) (b : Book) (a : Active) : Prop where
  below : a.order.rank < b.nextSeq
  fresh : b.Precedes a.order ∨ (¬ a.order.Lands s p ∧ a.route ≠ .submitted)
  punctual : a.route = .submitted → ¬ a.order.Late s p

/-- An order in hand does not land, or takes its rank when its turn comes. -/
def Active.Due (s : Side) (p : ℤ) (n : ℕ) (a : Active) : Prop :=
  match a.route with
  | .submitted => ¬ a.order.Late s p
  | .auctioned => a.order.Queues s p n
  | .entered | .triggered => False

/-- The invariant. -/
structure Moment.InRank (s : Side) (p : ℤ) (m : Moment) : Prop where
  unbounded : m.book.memLevels = 0
  book : m.book.InRank s p
  turn : ∀ a, m.turn = some a → a.OnTime s p m.book
  hand : ∀ a ∈ m.hand, a.Due s p m.book.nextSeq

section Invariant

variable {s : Side} {p : ℤ} {b b' : Book} {ms : List Mut}

lemma Order.Queues.mono {n k : ℕ} {x : Order} (h : x.Queues s p n) (hk : n ≤ k) :
    x.Queues s p k := ⟨h.1, lt_of_lt_of_le h.2 hk⟩

lemma Active.Due.mono {n k : ℕ} {a : Active} (h : a.Due s p n) (hk : n ≤ k) : a.Due s p k := by
  unfold Due at h ⊢
  cases hr : a.route <;> rw [hr] at h
  · exact h
  · exact h
  · exact h
  · exact Order.Queues.mono h hk

/-- The resting orders evolve and the others wait on. -/
lemma Book.InRank.evolve (h : b.InRank s p) (hs : b.view.Sound) {m : Mut} (hev : Evolves b [m] b')
    (hf : b'.frame = b.frame) (hseq : b.nextSeq ≤ b'.nextSeq) (hst : m.Stamps b.view s p)
    (hrank : ∀ t r, m.Ranks t r → r < b'.nextSeq) : b'.InRank s p := by
  obtain ⟨hok, hv⟩ := View.Run.of_single hev.run
  obtain ⟨hstops, hopen, hclose⟩ := Book.waiting_of_frame hf
  refine ⟨fun id e he => ?_, hv ▸ Mut.ranked_apply hs hok h.ranked hst, fun id x hx => ?_,
    fun x hx => (h.opening x (hopen ▸ hx)).mono hseq,
    fun x hx => (h.closing x (hclose ▸ hx)).mono hseq, fun x hx => h.held x (hf ▸ hx)⟩
  · rw [hv] at he
    rcases Mut.rank_apply hok he with ⟨e₀, he₀, -, hr⟩ | hr
    · exact hr ▸ lt_of_lt_of_le (h.below id e₀ he₀) hseq
    · exact hrank _ _ hr
  · obtain ⟨hl, hr⟩ := h.stops id x (hstops ▸ hx)
    exact ⟨hl, lt_of_lt_of_le hr hseq⟩

/-- The resting orders stay as they are. -/
lemma Book.InRank.wane (h : b.InRank s p) (hv : b'.view = b.view) (hseq : b.nextSeq ≤ b'.nextSeq)
    (hw : b.Wanes b') : b'.InRank s p := by
  refine ⟨fun id e he => lt_of_lt_of_le (h.below id e (hv ▸ he)) hseq, hv ▸ h.ranked,
    fun id x' hx' => ?_, fun x hx => (h.opening x (hw.opening.subset hx)).mono hseq,
    fun x hx => (h.closing x (hw.closing.subset hx)).mono hseq,
    fun x hx => h.held x (hw.held.subset hx)⟩
  obtain ⟨x, hx, htr⟩ := hw.stops id x' hx'
  obtain ⟨hl, hr⟩ := h.stops id x hx
  refine ⟨fun h' => hl (htr.lands.1 h'), ?_⟩
  rw [htr.eq_trigger]
  exact lt_of_lt_of_le hr hseq

/-- While the order matches, only the other side changes. -/
lemma Active.OnTime.evolve {a : Active} (h : a.OnTime s p b) {m : Mut} (hev : Evolves b [m] b')
    (hseq : b.nextSeq ≤ b'.nextSeq) (hrank : ∀ r, ¬ m.Ranks a.order.side r) : a.OnTime s p b' := by
  obtain ⟨hok, hv⟩ := View.Run.of_single hev.run
  refine ⟨lt_of_lt_of_le h.below hseq, h.fresh.imp_left fun hpre id e he hside => ?_, h.punctual⟩
  rw [hv] at he
  rcases Mut.rank_apply hok he with ⟨e₀, he₀, hs, hr⟩ | hr
  · exact hr ▸ hpre id e₀ he₀ (hs ▸ hside)
  · exact absurd (hside ▸ hr) (hrank _)

/-- A change that leaves the resting orders alone. -/
lemma Moment.InRank.still {t : Option Active} {hand : List Active} (h : InRank s p ⟨b, t, hand⟩)
    (hv : b'.view = b.view) (hset : b'.settings = b.settings) (hseq : b.nextSeq ≤ b'.nextSeq)
    (hw : b.Wanes b') : InRank s p ⟨b', t, hand⟩ := by
  refine ⟨(congrArg Settings.memLevels hset).trans h.unbounded, h.book.wane hv hseq hw,
    fun a ha => ?_, fun a ha => (h.hand a ha).mono hseq⟩
  obtain ⟨hbelow, hfresh, hpun⟩ := h.turn a ha
  refine ⟨lt_of_lt_of_le hbelow hseq, hfresh.imp_left fun hf id e he => hf id e ?_, hpun⟩
  exact hv ▸ he

/-- The order whose turn it is changes without losing its place. -/
lemma Active.OnTime.alter {a a' : Active} (h : a.OnTime s p b)
    (hrank : a'.order.rank = a.order.rank)
    (hside : a'.order.side = a.order.side)
    (hlands : ¬ a.order.Lands s p → a.route ≠ .submitted → ¬ a'.order.Lands s p ∧
      a'.route ≠ .submitted)
    (hpun : a'.route = .submitted → ¬ a'.order.Late s p) : a'.OnTime s p b := by
  refine ⟨hrank ▸ h.below, h.fresh.imp (fun hf id e he hs => ?_) fun hf => hlands hf.1 hf.2, hpun⟩
  exact hrank ▸ hf id e he (hs.trans hside)

/-- An order that is queued for an auction does not land. -/
lemma Active.OnTime.queues {x : Order} (h : Active.OnTime s p b ⟨x, .submitted⟩) :
    x.Queues s p b.nextSeq := ⟨fun hfl hl => h.punctual rfl ⟨.inr hfl, hl⟩, h.below⟩

/-- An order that arrives takes the next number, and all others have smaller ones. -/
lemma Book.InRank.onTime_stamp (h : b.InRank s p) {o : Order} (ho : ¬ o.Late s p) :
    Active.OnTime s p b.ticked ⟨b.stamp o, .submitted⟩ :=
  ⟨Nat.lt_succ_self _, .inl fun id e he _ => h.below id e he,
    fun _ hl => ho ((Order.late_stamp b).1 hl)⟩

namespace Moment.InRank

variable {t : Option Active} {a : Active} {hand : List Active}

lemma tail (h : InRank s p ⟨b, t, a :: hand⟩) : InRank s p ⟨b, t, hand⟩ :=
  ⟨h.unbounded, h.book, h.turn, fun x hx => h.hand x (List.mem_cons_of_mem _ hx)⟩

lemma idle (h : InRank s p ⟨b, t, hand⟩) : InRank s p ⟨b, none, hand⟩ :=
  ⟨h.unbounded, h.book, by simp, h.hand⟩

/-- An order in hand is taken up, and the next number with it. -/
lemma tick (h : InRank s p ⟨b, none, a :: hand⟩) : InRank s p ⟨b.ticked, none, hand⟩ :=
  h.tail.still rfl rfl (Nat.le_succ _) (.of_frame rfl)

/-- An order gets its turn. -/
lemma give (h : InRank s p ⟨b, t, hand⟩) (ha : a.OnTime s p b) : InRank s p ⟨b, some a, hand⟩ :=
  ⟨h.unbounded, h.book, fun _ hx => Option.some.inj hx ▸ ha, h.hand⟩

/-- The resting orders evolve and nobody has a turn. -/
lemma evolve (h : InRank s p ⟨b, t, hand⟩) (hs : b.view.Sound) {m : Mut} (hev : Evolves b [m] b')
    (hf : b'.frame = b.frame) (hseq : b.nextSeq ≤ b'.nextSeq) (hst : m.Stamps b.view s p)
    (hrank : ∀ t r, m.Ranks t r → r < b'.nextSeq) : InRank s p ⟨b', none, hand⟩ :=
  ⟨hev.memLevels.trans h.unbounded, h.book.evolve hs hev hf hseq hst hrank, by simp,
    fun x hx => (h.hand x hx).mono hseq⟩

/-- The orders of an auction are called. -/
lemma call (h : InRank s p ⟨b, none, hand⟩) {queue : List Order}
    (hq : ∀ x ∈ queue, x.Queues s p b.nextSeq) (hb : b'.InRank s p) (hmem : b'.memLevels = 0)
    (hseq : b'.nextSeq = b.nextSeq) : InRank s p ⟨b', none, auctioned queue ++ hand⟩ := by
  refine ⟨hmem, hb, by simp, ?_⟩
  rw [hseq]
  exact List.forall_mem_append.2 ⟨List.forall_mem_map.2 hq, h.hand⟩

end Moment.InRank

/-- Every beat keeps the invariant. -/
lemma Beat.inRank {m m' : Moment} (h : Beat m ms m') (hs : m.book.view.Sound)
    (hI : m.InRank s p) : m'.InRank s p := by
  obtain ⟨hmem, hbook, hturn, hhand⟩ := id hI
  cases h with
  | wane hq hseq hw => exact hI.still hq.view hq.settings hseq.ge hw
  | refuse => exact hI.tick
  | @arrive b hand o ha =>
    exact hI.tick.give (hbook.onTime_stamp (hhand ⟨o, .submitted⟩ List.mem_cons_self))
  | @cap b hand o ha hr hc =>
    have hx := hbook.onTime_stamp (hhand ⟨o, .submitted⟩ List.mem_cons_self)
    refine hI.tick.give ?_
    unfold Book.capReduceOnly
    split_ifs
    · exact hx.alter rfl rfl (fun _ h => absurd rfl h) fun _ => hx.punctual rfl
    · exact hx
  | @hold b b' hand o ha hx =>
    have hdue : ¬ o.Late s p := hhand ⟨o, .submitted⟩ List.mem_cons_self
    have hI' := hI.tick
    have hbook := hI'.book
    obtain ⟨-, hq, hseq, hstops, hopen, hclose, hheld⟩ := Book.holdChild_spec hx
    refine ⟨(congrArg Settings.memLevels hq.settings).trans hmem,
      ⟨?_, hq.view ▸ hbook.ranked, ?_, ?_, ?_, fun y hy => ?_⟩, by simp, hseq.symm ▸ hI'.hand⟩
    · rw [hq.view, hseq]
      exact hbook.below
    · rw [hstops, hseq]
      exact hbook.stops
    · rw [hopen, hseq]
      exact hbook.opening
    · rw [hclose, hseq]
      exact hbook.closing
    · rcases List.mem_cons.1 (hheld.subset hy) with rfl | hy
      · exact fun h => hdue ((Order.late_stamp b).1 h)
      · exact hbook.held y hy
  | @queueOpening b hand x hl hx =>
    have hqueue := List.forall_mem_singleton.2 (hturn ⟨x, .submitted⟩ rfl).queues
    exact ⟨hmem, ⟨hbook.below, hbook.ranked, hbook.stops,
      List.forall_mem_append.2 ⟨hbook.opening, hqueue⟩, hbook.closing, hbook.held⟩, by simp, hhand⟩
  | @queueClosing b hand x hl hx =>
    have hqueue := List.forall_mem_singleton.2 (hturn ⟨x, .submitted⟩ rfl).queues
    exact ⟨hmem, ⟨hbook.below, hbook.ranked, hbook.stops, hbook.opening,
      List.forall_mem_append.2 ⟨hbook.closing, hqueue⟩, hbook.held⟩, by simp, hhand⟩
  | @park b hand x hx hnew hquiet =>
    have ht := hturn ⟨x, .submitted⟩ rfl
    refine ⟨hmem, ⟨hbook.below, hbook.ranked, fun id y hy => ?_, hbook.opening, hbook.closing,
      hbook.held⟩, by simp, hhand⟩
    rw [Map.lookup_insert_eq] at hy
    split_ifs at hy
    · obtain rfl := Option.some.inj hy
      refine ⟨fun hl => ht.punctual rfl ⟨.inl hx, (Order.lands_armStop b).1 hl⟩, ?_⟩
      rw [Book.armStop_eq]
      exact ht.below
    · exact hbook.stops id y hy
  | @spring b hand x hx hlast htrig =>
    refine hI.give ((hturn ⟨x, .submitted⟩ rfl).alter ?_ ?_ (fun _ h => absurd rfl h) (by simp))
    · rw [Book.armStop_eq]
      rfl
    · rw [Book.armStop_eq]
      rfl
  | @price b hand x np haw ho hc hp =>
    refine hI.give ((hturn ⟨x, .submitted⟩ rfl).alter rfl rfl (fun _ h => absurd rfl h)
      fun _ hlate => ?_)
    -- it is neither a stop nor an auction order
    simp only [isOpeningAuction, isClosingAuction, Bool.or_eq_false_iff] at ho hc
    rcases hlate.1 with h | h | h
    · exact absurd (haw.symm.trans h) (by simp)
    · exact absurd (ho.1.2.symm.trans h) (by simp)
    · exact absurd (hc.2.symm.trans h) (by simp)
  | @enter b hand x hadm =>
    exact hI.give ((hturn ⟨x, .submitted⟩ rfl).alter rfl rfl (fun _ h => absurd rfl h) (by simp))
  | @fill b hand x r me rest hr hl he hside hacc hst haon hev hf =>
    have hseq := (Book.fillMaker_entry b me.order.side me.order.price x he rest).2.1
    refine (hI.evolve hs hev hf hseq (fun id e he => hbook.below id e he) ?_).give ?_
    · rintro t rank ⟨hrep, -, rfl⟩
      rw [Book.fillMaker_of_replenishes _ _ _ _ _ _ hrep]
      simp [Book.replenish, Book.emitEvent, Book.requeue, Book.setEntry]
    · -- the maker is on the other side
      have ht := (hturn ⟨x, r⟩ rfl).evolve hev hseq fun rank hrank => ?_
      · exact ht.alter rfl rfl (fun h h' => ⟨h, h'⟩) fun h => ht.punctual h
      · exact Side.opposite_ne _ (hside.symm.trans hrank.2.1)
  | @prevent b hand a me he hst hr hev hf =>
    have hseq : b.nextSeq ≤ (b.stpRemove me.order.side me.order.price me.order.id me).nextSeq := by
      simp [stpRemove, emitEvent]
    exact (hI.evolve hs hev hf hseq trivial fun _ _ h => h.elim).give
      ((hturn a rfl).evolve hev hseq fun _ => id)
  | @rest b hand x r tail ev hl hd hn hnew htail' hev hf =>
    have hseq := (Book.calm_rest b x ev).seq_le
    obtain ⟨hbelow, hfresh, -⟩ := hturn ⟨x, r⟩ rfl
    obtain rfl := htail'.eq_rest hmem hev
    refine hI.evolve hs hev hf hseq ?_ ?_
    · -- the order follows all others of its side, or lands elsewhere
      intro hside hprice id e' he' hs'
      rcases hfresh with hpre | ⟨hland, hroute⟩
      · exact hpre id e' he' (hs'.trans hside.symm)
      · refine absurd ⟨hside, hprice, ?_⟩ hland
        have hdis : discards x = false := (hd.resolve_right fun h => hroute h.2).1
        simp only [discards, Bool.or_eq_false_iff, decide_eq_false_iff_not] at hdis
        refine ⟨?_, fun h => hdis.2 (hn.symm.trans h)⟩
        cases htype : x.type with
        | market => exact absurd htype hdis.1
        | limit => rfl
    · rintro t rank ⟨-, rfl⟩
      exact lt_of_lt_of_le hbelow hseq
  | finish => exact hI.idle
  | @fire b hand id x hx hn hev =>
    obtain ⟨hland, hbelow⟩ := hbook.stops id x hx
    have hI' : Moment.InRank s p ⟨{ b with stops := b.stops.erase id }, none, hand⟩ :=
      hI.still rfl rfl le_rfl (wanes_eraseStop b id)
    have hI'' := hI'.evolve hs hev (frame_emitEvent _ _ _ _ _) (by simp [emitEvent]) trivial
      fun _ _ h => h.elim
    exact hI''.give ⟨lt_of_lt_of_le hbelow (by simp [emitEvent]), .inr ⟨hland, by simp⟩, by simp⟩
  | @release b hand gid gr cs l hcs =>
    obtain ⟨hout, hkept⟩ := List.forall_mem_append.1 fun c hc =>
      hbook.held c ((held_release hcs).symm.subset hc)
    refine ⟨hmem, ⟨hbook.below, hbook.ranked, hbook.stops, hbook.opening, hbook.closing, hkept⟩,
      by simp, List.forall_mem_append.2 ⟨?_, hhand⟩⟩
    simp only [List.forall_mem_map]
    exact hout
  | callOpening =>
    exact hI.call hbook.opening ⟨hbook.below, hbook.ranked, hbook.stops, by simp, hbook.closing,
      hbook.held⟩ hmem rfl
  | callClosing =>
    exact hI.call hbook.closing ⟨hbook.below, hbook.ranked, hbook.stops, hbook.opening, by simp,
      hbook.held⟩ hmem rfl
  | @cross b hand queue bi si np q d hbi hsi hbs hss hq hqx hqy hev hf =>
    have hseq : (((b.emitTrade ⟨(queued queue bi).id, (queued queue si).id, .buy, np, q⟩
        d).applyPosition (queued queue bi).clientId .buy q).applyPosition
        (queued queue si).clientId .sell q).nextSeq = b.nextSeq := by
      simp [emitTrade]
    have hqueue : ∀ x ∈ queue, x.Queues s p b.nextSeq := fun x hx =>
      hhand ⟨x, .auctioned⟩ (List.mem_append_left _ (List.mem_map_of_mem hx))
    have hI' : Moment.InRank s p ⟨b, none, hand⟩ :=
      ⟨hmem, hbook, by simp, fun a ha => hhand a (List.mem_append_right _ ha)⟩
    refine hI'.call (fun x hx => ?_) (hbook.evolve hs hev hf hseq.ge trivial fun _ _ h => h.elim)
      (hev.memLevels.trans hmem) hseq
    -- an order that has traded keeps its price and its rank
    rcases List.mem_or_eq_of_mem_set hx with hx | rfl
    · rcases List.mem_or_eq_of_mem_set hx with hx | rfl
      · exact hqueue x hx
      · exact hqueue (queued queue bi) (queued_mem hbi)
    · exact hqueue (queued queue si) (queued_mem hsi)
  | @remainder b hand x hx hn =>
    obtain ⟨hland, hbelow⟩ := hhand ⟨x, .auctioned⟩ List.mem_cons_self
    simp only [entersBook, Bool.and_eq_true, Bool.or_eq_true] at hx
    exact hI.tail.give ⟨hbelow, .inr ⟨hland hx.2, by simp⟩, by simp⟩
  | drop hx => exact hI.tail
  | peg hev => exact hI.evolve hs hev rfl le_rfl trivial fun _ _ h => h.elim
  | @move b hand e np hid he hp hne hev hf =>
    have hseq : (b.movePegged e.order.id e np).nextSeq = b.nextSeq + 1 := by
      simp [movePegged, emitReprice, requeue, setEntry]
    refine hI.evolve hs hev hf (by omega) (fun id e he => hbook.below id e he) ?_
    rintro t rank ⟨-, rfl⟩
    exact hseq ▸ Nat.lt_succ_self _
  | @remove b hand e he hev hf =>
    have hseq : b.nextSeq ≤ (b.removeResting e.order.id e).nextSeq := by
      simp [removeResting, emitEvent]
    exact hI.evolve hs hev hf hseq trivial fun _ _ h => h.elim

end Invariant

/-! ### Histories -/

/-- The order that an instruction submits is not late at the price `p` of the side `s`. -/
def Instruction.Punctual (s : Side) (p : ℤ) (q : Instruction) : Prop :=
  ∀ o ∈ q.orders, ¬ o.Late s p

instance (s : Side) (p : ℤ) (q : Instruction) : Decidable (q.Punctual s p) :=
  inferInstanceAs (Decidable (∀ _ ∈ _, _))

namespace History

variable {s : Side} {p : ℤ} {stp : StpPolicy} {symbol : Symbol} {eventSink : Bool} {r : Record}

lemma ranked (h : History (fun _ q => q.Punctual s p) (Book.empty 0 stp symbol eventSink) r) :
    r.book.view.Ranked s p ∧ r.book.view.Restorable s p := by
  have hI : Moment.InRank s p ⟨r.book, none, []⟩ := by
    refine h.keeps_of_beats ⟨rfl, ?_, by simp, by simp⟩ ?_ ?_ fun _ _ _ hb hs hI => hb.inRank hs hI
    · have hk := Book.keeps_empty (fun _ => False) 0 stp symbol eventSink
      have hq : (Book.empty 0 stp symbol eventSink).view.queue s p = [] := by
        refine List.eq_nil_iff_forall_not_mem.2 fun id hid => ?_
        obtain ⟨e, he, -⟩ := ((Book.wf_empty 0 stp symbol eventSink).sound.mem_queue s p id).1 hid
        exact hk.resting id e he
      refine ⟨fun id e he => (hk.resting id e he).elim, ?_, fun id x hx => (hk.stops id x hx).elim,
        fun x hx => (hk.opening x hx).elim, fun x hx => (hk.closing x hx).elim,
        fun x hx => (hk.held x hx).elim⟩
      rw [View.Ranked, hq]
      exact List.Pairwise.nil
    · intro r c net _ hI
      obtain ⟨hview, hframe, -⟩ := r.book.seedPosition_keeps c net
      exact hI.still hview (congrArg Frame.settings hframe) (r.book.nextSeq_seedPosition c net).ge
        (.of_frame hframe)
    · intro r q hC hI
      refine ⟨hI.unbounded, hI.book, by simp, fun a ha => ?_⟩
      obtain ⟨o, ho, rfl⟩ := List.mem_map.1 ha
      exact hC o ho
  exact ⟨hI.book.ranked, hI.book.ranked.restorable⟩

/-- In every history without a late order at a level, the ranks of the level increase from front
to back and sorting by rank gives the queue; so they do after the next instruction, which
returns. -/
theorem ranked_of_history
    (h : History (fun _ q => q.Punctual s p) (Book.empty 0 stp symbol eventSink) r) :
    (r.book.view.Ranked s p ∧ r.book.view.Restorable s p) ∧
      ∀ q : Instruction, q.Punctual s p → q.Allowed r → (q.run r.book).Ensures fun x =>
        x.1.view.Ranked s p ∧ x.1.view.Restorable s p :=
  ⟨h.ranked, fun _ hC hq => h.next ranked hC hq⟩

/-- A history: the slice of an iceberg is filled and the next one queues behind a later order. -/
theorem ranked_of_history_replenished : ∃ r,
    History (fun _ q => q.Punctual .buy 110) (Book.empty 0 .none "ABC" true) r ∧
      r.book.view.queue .buy 110 = [2, 1] ∧ r.book.view.rankOf 2 = 2 ∧ r.book.view.rankOf 1 = 4 ∧
      r.book.view.Ranked .buy 110 ∧ r.book.view.Restorable .buy 110 := by
  let qs : List Instruction := [
    .submit { id := 1, qty := 5, price := 110, displayQty := 2, flags.iceberg := true },
    .submit { id := 2, qty := 5, price := 110 },
    .submit { id := 3, side := .sell, qty := 2, price := 105 }]
  obtain ⟨r, hist, hqueue, h2, h1⟩ : ∃ r, History (fun _ q => q.Punctual .buy 110)
      (Book.empty 0 .none "ABC" true) r ∧ r.book.view.queue .buy 110 = [2, 1] ∧
        r.book.view.rankOf 2 = 2 ∧ r.book.view.rankOf 1 = 4 :=
    exists_of_replay 8 qs (by decide +kernel)
  obtain ⟨⟨hranked, hrest⟩, -⟩ := ranked_of_history hist
  exact ⟨r, hist, hqueue, h2, h1, hranked, hrest⟩

/-- A stop that was parked first fires last: it rests behind an order of a higher rank, and
sorting by rank puts it in front. -/
theorem stop_queues_behind : ∃ r,
    History (fun _ _ => True) (Book.empty 0 .none "ABC" true) r ∧
      r.book.view.queue .buy 110 = [2, 1] ∧ r.book.view.rankOf 2 = 2 ∧ r.book.view.rankOf 1 = 1 ∧
      ¬ r.book.view.Ranked .buy 110 ∧ ¬ r.book.view.Restorable .buy 110 := by
  let qs : List Instruction := [
    .submit { id := 1, qty := 1, price := 110, trigger := some { stopPrice := 105 } },
    .submit { id := 2, qty := 5, price := 110 },
    .submit { id := 3, side := .sell, qty := 1, price := 105 }]
  obtain ⟨r, hist, hqueue, h2, h1⟩ : ∃ r, History (fun _ _ => True)
      (Book.empty 0 .none "ABC" true) r ∧ r.book.view.queue .buy 110 = [2, 1] ∧
        r.book.view.rankOf 2 = 2 ∧ r.book.view.rankOf 1 = 1 :=
    exists_of_replay 8 qs (by decide +kernel)
  refine ⟨r, hist, hqueue, h2, h1, fun hranked => ?_, fun hrest => ?_⟩
  · rw [View.Ranked, hqueue] at hranked
    simp [h1, h2] at hranked
  · have hsorted := hrest [1, 2] (hqueue ▸ .swap 2 1 []) (by simp [h1, h2])
    rw [hqueue] at hsorted
    exact absurd hsorted (by decide)

end History

end Codicis
