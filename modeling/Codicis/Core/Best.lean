/-
The cached best prices of a book.

Between operations the cached best price of either side is the best populated price
(`Book.Cached`).  While a level is matched against, its total may have dropped to zero
with the cache still pointing to it (`Book.CachedBut`); `noteRemoved`, at the end of the
level, puts that right.
-/
import Codicis.Core.Evolves

namespace Codicis

/-- The cache of a ladder. -/
def Ladder.cache {s : Side} (L : Ladder s) : Bool × ℤ := (L.bestValid, L.bestPrice)

namespace Book

/-- The cached best prices are right. -/
def Cached (b : Book) : Prop := ∀ s, (b.ladder s).Cached

/-- The cached best prices are right, but the level `p` of the side `s` may be empty. -/
def CachedBut (b : Book) (s : Side) (p : ℤ) : Prop :=
  (∀ t, t ≠ s → (b.ladder t).Cached) ∧ (b.ladder s).CachedBut p

variable {b b' : Book} {s : Side} {p : ℤ}

lemma Cached.but (h : b.Cached) (s : Side) (p : ℤ) : b.CachedBut s p :=
  ⟨fun t _ => h t, (h s).but p⟩

lemma Cached.of_ladder (h : b.Cached) (hl : ∀ s, b'.ladder s = b.ladder s) : b'.Cached :=
  fun s => hl s ▸ h s

@[simp] lemma cache_setLadder_touch (s t : Side) (p : ℤ) :
    ((b.setLadder s ((b.ladder s).touch p)).ladder t).cache = (b.ladder t).cache := by
  by_cases h : t = s
  · subst h
    rw [ladder_setLadder]
    unfold Ladder.touch Ladder.cache
    split_ifs <;> rfl
  · rw [ladder_setLadder_ne h]

@[simp] lemma cache_modifyLevel (s t : Side) (p : ℤ) (f : Level → Level) :
    ((b.modifyLevel s p f).ladder t).cache = (b.ladder t).cache := by
  by_cases h : t = s
  · subst h
    rw [modifyLevel, ladder_setLadder]
    rfl
  · rw [modifyLevel, ladder_setLadder_ne h]

/-- Levels were emptied at most, and only the level `p` of the side `s`. -/
lemma CachedBut.of_view (h : b.CachedBut s p) (hc : ∀ t, (b'.ladder t).cache = (b.ladder t).cache)
    (hle : ∀ t q, 0 < b'.view.total t q → 0 < b.view.total t q)
    (hge : ∀ t q, ¬ (t = s ∧ q = p) → 0 < b.view.total t q → 0 < b'.view.total t q) :
    b'.CachedBut s p := by
  have hv : ∀ t, (b'.ladder t).bestValid = (b.ladder t).bestValid := fun t =>
    congrArg Prod.fst (hc t)
  have hb : ∀ t, (b'.ladder t).bestPrice = (b.ladder t).bestPrice := fun t =>
    congrArg Prod.snd (hc t)
  refine ⟨fun t ht => ?_, h.2.of_populated (hv s) (hb s) (fun q => hle s q) fun q hq => ?_⟩
  · refine (h.1 t ht).of_populated (fun hvt => ⟨hv t ▸ hvt, hb t⟩) fun q => ?_
    exact ⟨hle t q, hge t q fun hts => ht hts.1⟩
  · exact hge s q fun hs => hq hs.2

/-- The end of the matching of a level. -/
lemma CachedBut.noteRemoved (h : b.CachedBut s p) (hp : 0 ≤ b.view.total s p) :
    (b.noteRemoved s p).Cached := by
  unfold Book.noteRemoved
  split_ifs with h0
  · intro t
    by_cases ht : t = s
    · subst ht
      rw [ladder_setLadder]
      exact h.2.onRemoved
    · rw [ladder_setLadder_ne ht]
      exact h.1 t ht
  · intro t
    by_cases ht : t = s
    · subst ht
      refine h.2.of_level ?_
      have hne : b.view.total t p ≠ 0 := h0
      exact lt_of_le_of_ne hp (Ne.symm hne)
    · exact h.1 t ht

/-- Self-trade prevention removes an order of the level. -/
lemma CachedBut.stpRemove {me : Entry} (h : b.CachedBut me.order.side me.order.price)
    (hb : b.view.Sound) (he : b.view.entry me.order.id = some me) :
    (b.stpRemove me.order.side me.order.price me.order.id me).CachedBut me.order.side
      me.order.price := by
  have hpos := (hb.entry_ok _ _ he).leaves_pos
  have htot : ∀ t q, (b.stpRemove me.order.side me.order.price me.order.id me).view.total t q
      = if t = me.order.side ∧ q = me.order.price then b.view.total t q - me.order.leaves
        else b.view.total t q := by
    intro t q
    rw [view_stpRemove (covers_of_entry hb he)]
    rfl
  refine h.of_view (fun t => ?_) (fun t q hq => ?_) fun t q hne hq => ?_
  · simp [Book.stpRemove, emitEvent]
  · rw [htot] at hq
    split_ifs at hq <;> omega
  · rw [htot, if_neg hne]
    exact hq

/-- The aggressor fills against an order of the level. -/
lemma CachedBut.fillMaker {me : Entry} (h : b.CachedBut me.order.side me.order.price)
    (hb : b.view.Sound) {o : Order}
    (hm : (Mut.fill o me (min o.leaves (exposed me)) b.nextSeq).Ok b.view) (rest : List OrderId) :
    (b.fillMaker me.order.side me.order.price o me.order.id me rest).1.CachedBut me.order.side
      me.order.price := by
  have hview := view_fillMaker (hb.entry_ok _ _ hm.1) (covers_of_entry hb hm.1) o rest
  have hpos := hm.2.1
  obtain ⟨htot, -⟩ := Mut.fill_effect hb hm
  refine h.of_view (fun t => ?_) (fun t q hq => ?_) fun t q hne hq => ?_
  · unfold Book.fillMaker
    dsimp only
    split_ifs <;> simp [replenish, recordFill, emitEvent, emitTrade]
  · rw [hview, htot] at hq
    split_ifs at hq <;> omega
  · rw [hview, htot, if_neg hne]
    exact hq

/-- Quantity joins a level. -/
lemma Cached.join (h : b.Cached) (s : Side) (p : ℤ) {f : Level → Level}
    (hf : 0 < (f (b.level s p)).total) :
    let b₂ := (b.setLadder s ((b.ladder s).touch p)).modifyLevel s p f
    (b₂.setLadder s ((b₂.ladder s).onAdded p)).Cached := by
  intro b₂
  have hcov : ((b.setLadder s ((b.ladder s).touch p)).ladder s).Covers p := by
    simp [Ladder.covers_touch]
  have hlev : ∀ t q, (b₂.ladder t).level q
      = if t = s ∧ q = p then f (b.level t q) else b.level t q := by
    intro t q
    simp only [b₂, level_modifyLevel hcov,
      level_setLadder_of_eq (fun p => Ladder.level_touch _ _ _)]
    rfl
  have hcache : ∀ t, (b₂.ladder t).cache = (b.ladder t).cache := by
    intro t
    simp [b₂]
  intro t
  by_cases ht : t = s
  · subst ht
    rw [ladder_setLadder]
    refine (h t).onAdded (congrArg Prod.fst (hcache t)) (congrArg Prod.snd (hcache t)) ?_
      fun q hq => ?_
    · rw [Ladder.Populated, hlev, if_pos ⟨rfl, rfl⟩]
      exact hf
    · rw [Ladder.Populated, hlev, if_neg fun hc => hq hc.2]
      rfl
  · rw [ladder_setLadder_ne ht]
    have hsame : b₂.ladder t = b.ladder t := by
      simp [b₂, modifyLevel, ladder_setLadder_ne ht]
    exact hsame ▸ h t

/-- An order joins its level. -/
lemma Cached.place (h : b.Cached) (hb : b.view.Sound) {o : Order} (ho : 0 < o.leaves) :
    (b.place o).Cached := by
  unfold Book.place
  refine (h.join o.side o.price (f := fun lvl =>
    { total := lvl.total + o.leaves,
      displayed := lvl.displayed + displayedOf o.flags o.leaves (sliceOf o),
      fifo := lvl.fifo ++ [o.id] }) ?_).of_ladder fun t => (emplaceEntry_keeps _ _ _).1 t
  have hnonneg : 0 ≤ (b.level o.side o.price).total := hb.total_nonneg o.side o.price
  simp only
  omega

/-- An order is taken out of its level. -/
lemma Cached.unlink (h : b.Cached) (hb : b.view.Sound) {e : Entry}
    (he : b.view.entry e.order.id = some e) : (b.unlink e).Cached := by
  have hcov := covers_of_entry hb he
  have hle := hb.leaves_le_total he
  have hpos := (hb.entry_ok _ _ he).leaves_pos
  unfold Book.unlink
  dsimp only
  rw [Ladder.at?_of_covers hcov]
  have htot : ∀ (f : Level → Level) t q,
      (b.modifyLevel e.order.side e.order.price f).view.total t q
        = if t = e.order.side ∧ q = e.order.price then (f (b.level t q)).total
          else b.view.total t q := by
    intro f t q
    simp only [view, level, level_modifyLevel hcov]
    split_ifs <;> rfl
  refine CachedBut.noteRemoved ((h.but e.order.side e.order.price).of_view (by simp) ?_ ?_) ?_
  · intro t q hq
    rw [htot] at hq
    split_ifs at hq with hc
    · obtain ⟨rfl, rfl⟩ := hc
      have hq' : 0 < b.view.total e.order.side e.order.price - e.order.leaves := hq
      omega
    · exact hq
  · intro t q hne hq
    rw [htot, if_neg hne]
    exact hq
  · rw [htot, if_pos ⟨rfl, rfl⟩]
    have : 0 ≤ b.view.total e.order.side e.order.price - e.order.leaves := by omega
    exact this

/-- A resting order is cancelled. -/
lemma Cached.removeResting (h : b.Cached) (hb : b.view.Sound) {e : Entry}
    (he : b.view.entry e.order.id = some e) : (b.removeResting e.order.id e).Cached := by
  set b₁ := ((b.unpeg e.order.id).emitEvent .cancel e.order e.order.leaves
    (displayedOf e.order.flags e.order.leaves e.slice)).releaseReserved e.order e.order.leaves
    with hb₁
  have hl : ∀ s, b₁.ladder s = b.ladder s := by
    intro s
    simp [hb₁, emitEvent]
  have ho : b₁.orders = b.orders := by simp [hb₁, emitEvent]
  have hsound : b₁.view.Sound := by
    have hv : b₁.view = b.view.unpeg e.order.id := by
      simp [view, level, View.unpeg, hb₁, emitEvent]
    rw [hv]
    exact hb.unpeg e.order.id
  have he₁ : b₁.view.entry e.order.id = some e := by
    show b₁.orders.lookup e.order.id = some e
    rw [ho]
    exact he
  exact ((h.of_ladder hl).unlink hsound he₁).of_ladder fun s => (eraseEntry_keeps _ _).1 s

/-- A pegged order moves. -/
lemma Cached.movePegged (h : b.Cached) (hb : b.view.Sound) {e : Entry}
    (he : b.view.entry e.order.id = some e) (p : ℤ) : (b.movePegged e.order.id e p).Cached := by
  have hpos := (hb.entry_ok _ _ he).leaves_pos
  have hun := h.unlink hb he
  have hnonneg : 0 ≤ ((b.unlink e).level e.order.side p).total := by
    have hview := level_unlink (covers_of_entry hb he) e.order.side p
    have hle := hb.leaves_le_total he
    have htot := hb.total_nonneg e.order.side p
    rw [level, hview]
    split_ifs with hc
    · have : 0 ≤ b.view.total e.order.side e.order.price - e.order.leaves := by omega
      rw [← hc.2] at this
      exact this
    · exact htot
  unfold Book.movePegged
  refine (hun.join e.order.side p (f := fun lvl =>
    { total := lvl.total + e.order.leaves,
      displayed := lvl.displayed + displayedOf e.order.flags e.order.leaves e.slice,
      fifo := lvl.fifo ++ [e.order.id] }) ?_).of_ladder fun t => ?_
  · simp only
    omega
  · simp [emitReprice]

/-- The best price is looked up. -/
lemma Cached.crosses (h : b.Cached) (o : Order) : (b.crosses o).1.Cached := by
  intro t
  unfold Book.crosses
  dsimp only
  by_cases ht : t = o.side.opposite
  · subst ht
    rw [ladder_setLadder]
    exact (h _).best.1
  · rw [ladder_setLadder_ne ht]
    exact h t

/-- Whoever takes a price takes a better one. -/
lemma acceptable_of_better {o : Order} {p q : ℤ} (hq : acceptable o q = true)
    (h : Ladder.better o.side.opposite p q = true) : acceptable o p = true := by
  unfold acceptable at hq ⊢
  cases htype : o.type with
  | market => rfl
  | limit =>
    rw [htype] at hq
    cases hside : o.side <;> rw [hside] at hq h <;>
      simp only [Side.opposite, Ladder.better, decide_eq_true_eq] at hq h ⊢ <;> omega

/-- An order that does not cross finds no order it could fill against. -/
lemma Cached.crosses_eq_false (h : b.Cached) (hb : b.view.Sound) {o : Order}
    (hc : (b.crosses o).2 = false) {q : ℤ} (hq : acceptable o q = true) :
    (b.level o.side.opposite q).fifo = [] := by
  by_contra hne
  obtain ⟨id, hid⟩ := List.exists_mem_of_ne_nil _ hne
  obtain ⟨e, he⟩ := (hb.mem_queue o.side.opposite q id).1 hid
  have hpop : (b.ladder o.side.opposite).Populated q := hb.total_pos_iff.2 ⟨id, e, he⟩
  obtain ⟨-, hbest, hnone⟩ := (h o.side.opposite).best
  unfold Book.crosses at hc
  dsimp only at hc
  cases hbp : (b.ladder o.side.opposite).best.2 with
  | none => exact hnone hbp q hpop
  | some bp =>
    rw [hbp] at hc
    dsimp only at hc
    obtain ⟨-, hother⟩ := hbest bp hbp
    by_cases hqb : q = bp
    · subst hqb
      rw [hq] at hc
      exact absurd hc (by simp)
    · rw [acceptable_of_better hq (hother q hpop hqb)] at hc
      exact absurd hc (by simp)

/-- A level is evicted. -/
lemma Cached.evictWorst (h : b.Cached) (hb : b.view.Sound) (s : Side) (ev : List Order) :
    (b.evictWorst s ev).1.Cached := by
  unfold Book.evictWorst
  cases hw : (b.ladder s).worstPrice with
  | none => exact h
  | some wp =>
    by_cases hc : (b.ladder s).Covers wp
    · have hfold := evictOrder_foldl (r := (b, ev)) (hb.nodup s wp) (by
        intro id hid
        obtain ⟨e, he, -⟩ := (hb.mem_queue s wp id).1 hid
        exact Option.isSome_iff_exists.2 ⟨e, he⟩)
      have hfifo : ((b.ladder s).level wp).fifo = b.view.queue s wp := rfl
      simp only [Ladder.at?_of_covers hc, hfifo]
      generalize (b.view.queue s wp).foldl evictOrder (b, ev) = r at hfold
      obtain ⟨-, -, h3, -⟩ := hfold
      have hc' : (r.1.ladder s).Covers wp := by
        rw [h3]
        exact hc
      set b₁ := r.1.modifyLevel s wp fun _ => {} with hb₁
      have htot : ∀ t q, b₁.view.total t q
          = if t = s ∧ q = wp then 0 else b.view.total t q := by
        intro t q
        simp only [hb₁, view, level, level_modifyLevel hc', h3]
        split_ifs <;> rfl
      have hbut : b₁.CachedBut s wp := by
        refine (h.but s wp).of_view (fun t => by rw [hb₁, cache_modifyLevel, h3]) ?_ ?_
        · intro t q hq
          rw [htot] at hq
          split_ifs at hq
          · exact absurd hq (lt_irrefl 0)
          · exact hq
        · intro t q hne hq
          rw [htot, if_neg hne]
          exact hq
      intro t
      have hdeep : ∀ b₂ : Book, (b₂.noteDeep s wp).ladder t = b₂.ladder t :=
        fun b₂ => (noteDeep_keeps b₂ s wp).1 t
      rw [hdeep]
      by_cases ht : t = s
      · subst ht
        rw [ladder_setLadder]
        exact hbut.2.onRemoved
      · rw [ladder_setLadder_ne ht]
        exact hbut.1 t ht
    · simpa [Ladder.at?, hc] using h

/-- An order comes to rest. -/
lemma Cached.rest (h : b.Cached) (hb : b.view.Sound) {o : Order}
    (hnew : b.orders.lookup o.id = none) (ho : Restable o) (ev : List Order) :
    (b.rest o ev).1.Cached := by
  unfold Book.rest
  dsimp only
  split_ifs with h1 h2
  · exact h.of_ladder fun s => by simp [emitEvent]
  · set b₁ := (b.place o).reserveResting o with hb₁
    have hc₁ : b₁.Cached := (h.place hb ho.1).of_ladder fun s => by simp [hb₁]
    have hs₁ : b₁.view.Sound := by
      rw [hb₁, view_place_reserve hnew]
      exact hb.link hnew ho.entry_ok
    exact (hc₁.evictWorst hs₁ o.side ev).of_ladder fun s => by simp [emitEvent]
  · exact (h.place hb ho.1).of_ladder fun s => by simp [emitEvent]

end Book

end Codicis
