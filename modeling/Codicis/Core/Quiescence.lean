/-
The parked stops after an operation.

Whatever moves the last price is followed, before the operation returns, by a full evaluation
of the stops, and the evaluation ends only when no stop is triggered.  So between operations no
parked stop is triggered at the last price (`Book.Hushed`).

A stop that is parked is only ever re-anchored (`Order.Trails`).  `Book.Passes` says so of two
books: a stop of the second is one of the first, re-anchored, or has arrived in between.  The
arrival sequence tells the two apart, so nothing has to be assumed of the identifiers, and
nothing of the other fields of the orders: this module speaks of the results of operations that
return, in any book.
-/
import Codicis.Core.History

namespace Codicis

open Book (stopTriggered updateTrail)

/-! ### One stop -/

/-- A trailing stop is where its high-water mark puts it. -/
def Order.Anchored (o : Order) : Prop :=
  ∀ t, o.trigger = some t → t.kind ≠ .stop →
    t.stopPrice = match o.side with
      | .sell => t.highWater - t.trailBy
      | .buy => t.highWater + t.trailBy

/-- The stop price of `x'` is at least as close to the market as that of `x`. -/
def Order.Tightens (x x' : Order) : Prop :=
  ∀ t, x.trigger = some t → t.kind ≠ .stop → ∃ t', x'.trigger = some t' ∧
    match x.side with
    | .sell => t.stopPrice ≤ t'.stopPrice
    | .buy => t'.stopPrice ≤ t.stopPrice

namespace Order

variable {x x' x'' : Order}

/-- What following a price keeps of a stop. -/
lemma updateTrail_keeps (px : ℤ) (o : Order) :
    (updateTrail px o).seq = o.seq ∧ (updateTrail px o).side = o.side ∧
      (updateTrail px o).trigger.map (·.kind) = o.trigger.map (·.kind) := by
  rcases updateTrail_cases px o with h | ⟨t, ht, -, ⟨-, -, h⟩ | ⟨-, -, h⟩⟩
  · rw [h]
    exact ⟨rfl, rfl, rfl⟩
  · rw [h, ht]
    exact ⟨rfl, rfl, rfl⟩
  · rw [h, ht]
    exact ⟨rfl, rfl, rfl⟩

lemma Anchored.updateTrail (h : x.Anchored) (px : ℤ) : (updateTrail px x).Anchored := by
  rcases updateTrail_cases px x with hx | ⟨t, -, -, ⟨hs, -, hx⟩ | ⟨hs, -, hx⟩⟩
  · rw [hx]
    exact h
  all_goals
    rw [hx]
    intro t' ht' _
    obtain rfl := Option.some.inj ht'
    simp only [hs]

lemma Tightens.refl (x : Order) : x.Tightens x := by
  intro t ht _
  refine ⟨t, ht, ?_⟩
  cases x.side <;> exact le_rfl

/-- Following a price moves an anchored stop towards the market. -/
lemma tightens_updateTrail (h : x.Anchored) (px : ℤ) : x.Tightens (updateTrail px x) := by
  rcases updateTrail_cases px x with hx | ⟨t, ht, hk, ⟨hs, hpx, hx⟩ | ⟨hs, hpx, hx⟩⟩
  · rw [hx]
    exact .refl x
  all_goals
    have hanchor := h t ht hk
    intro t₀ ht₀ _
    obtain rfl := Option.some.inj (ht.symm.trans ht₀)
    rw [hx]
    refine ⟨_, rfl, ?_⟩
    rw [hs] at hanchor ⊢
    dsimp only at hanchor ⊢
    omega

lemma Trails.seq_eq (h : x.Trails x') : x'.seq = x.seq := by
  induction h with
  | refl => rfl
  | follow _ px ih => exact (updateTrail_keeps px _).1.trans ih

lemma Trails.side_eq (h : x.Trails x') : x'.side = x.side := by
  induction h with
  | refl => rfl
  | follow _ px ih => exact (updateTrail_keeps px _).2.1.trans ih

lemma Trails.kind_eq (h : x.Trails x') :
    x'.trigger.map (·.kind) = x.trigger.map (·.kind) := by
  induction h with
  | refl => rfl
  | follow _ px ih => exact (updateTrail_keeps px _).2.2.trans ih

lemma Trails.anchored (h : x.Trails x') (hx : x.Anchored) : x'.Anchored := by
  induction h with
  | refl => exact hx
  | follow _ px ih => exact ih.updateTrail px

/-- A stop that follows prices moves towards the market only. -/
theorem Trails.tightens (h : x.Trails x') (hx : x.Anchored) : x.Tightens x' := by
  induction h with
  | refl => exact .refl x
  | @follow y h px ih =>
    intro t ht hk
    obtain ⟨u, hu, h₁⟩ := ih t ht hk
    have hkind : u.kind = t.kind := by simpa [ht, hu] using h.kind_eq
    obtain ⟨t', ht', h₂⟩ := tightens_updateTrail (h.anchored hx) px u hu (hkind ▸ hk)
    refine ⟨t', ht', ?_⟩
    rw [h.side_eq] at h₂
    cases hs : x.side <;> rw [hs] at h₁ h₂ <;> dsimp only at h₁ h₂ ⊢ <;> omega

/-- A stop is anchored when it is armed. -/
lemma anchored_armStop (b : Book) (o : Order) : (b.armStop o).Anchored := by
  intro t ht hk
  unfold Book.armStop at ht ⊢
  cases ho : o.trigger with
  | none =>
    rw [ho] at ht
    exact absurd (ho.symm.trans ht) (by simp)
  | some t₀ =>
    rw [ho] at ht
    dsimp only at ht ⊢
    by_cases hs : t₀.kind = .stop
    · rw [if_pos hs] at ht
      obtain rfl := Option.some.inj (ho.symm.trans ht)
      exact absurd hs hk
    · rw [if_neg hs] at ht ⊢
      obtain rfl := Option.some.inj ht
      cases o.side <;> rfl

end Order

namespace Book

/-! ### Two books -/

/-- The parked stops of `b'` are those of `b`, re-anchored, and stops that have arrived since. -/
structure Passes (b b' : Book) : Prop where
  seq_le : b.nextSeq ≤ b'.nextSeq
  stops : ∀ id x', b'.stops.lookup id = some x' →
    (∃ x, b.stops.lookup id = some x ∧ x.Trails x') ∨
      (b.nextSeq ≤ x'.seq ∧ x'.seq < b'.nextSeq ∧ x'.Anchored)

/-- No parked stop is triggered at the last price. -/
def Hushed (b : Book) : Prop :=
  b.haveLast = true → ∀ id x, b.stops.lookup id = some x → stopTriggered x b.lastPrice = false

section Relations

variable {b b' b'' : Book}

/-- The parked stops can only become fewer. -/
lemma passes_of_stops (hseq : b.nextSeq ≤ b'.nextSeq)
    (h : ∀ id x, b'.stops.lookup id = some x → b.stops.lookup id = some x) : Passes b b' :=
  ⟨hseq, fun id x hx => .inl ⟨x, h id x hx, .refl⟩⟩

lemma Passes.refl (b : Book) : Passes b b := passes_of_stops le_rfl fun _ _ => id

lemma Passes.trans (h : Passes b b') (h' : Passes b' b'') : Passes b b'' := by
  refine ⟨h.seq_le.trans h'.seq_le, fun id x'' hx'' => ?_⟩
  rcases h'.stops id x'' hx'' with ⟨x', hx', htr⟩ | ⟨hlo, hhi, hx⟩
  · rcases h.stops id x' hx' with ⟨x, hx, htr₀⟩ | ⟨hlo, hhi, hx⟩
    · exact .inl ⟨x, hx, htr₀.trans htr⟩
    · refine .inr ⟨?_, ?_, htr.anchored hx⟩
      · rw [htr.seq_eq]
        exact hlo
      · rw [htr.seq_eq]
        exact lt_of_lt_of_le hhi h'.seq_le
  · exact .inr ⟨h.seq_le.trans hlo, hhi, hx⟩

/-- What an operation does to the parked stops. -/
structure Tends (b b' : Book) : Prop where
  passes : Passes b b'
  hushed : Hushed b → Hushed b'

/-- The stops can only become fewer, at the same last price. -/
lemma tends_of_stops (hl : b'.last = b.last) (hseq : b.nextSeq ≤ b'.nextSeq)
    (h : ∀ id x, b'.stops.lookup id = some x → b.stops.lookup id = some x) : Tends b b' := by
  refine ⟨passes_of_stops hseq h, fun hb hlast id x hx => ?_⟩
  obtain ⟨hhave, hprice⟩ := Prod.mk.inj hl
  rw [hprice]
  exact hb (hhave ▸ hlast) id x (h id x hx)

lemma tends_of_eq (hs : b'.stops = b.stops) (hl : b'.last = b.last)
    (hseq : b.nextSeq ≤ b'.nextSeq) : Tends b b' :=
  tends_of_stops hl hseq fun _ _ hx => hs ▸ hx

lemma Calm.tends (h : Calm b b') : Tends b b' :=
  tends_of_eq (congrArg Frame.stops h.frame) h.last h.seq_le

lemma Tends.refl (b : Book) : Tends b b := (Calm.refl b).tends

lemma Tends.trans (h : Tends b b') (h' : Tends b' b'') : Tends b b'' :=
  ⟨h.passes.trans h'.passes, fun hb => h'.hushed (h.hushed hb)⟩

end Relations

/-! ### Strides -/

section Strides

variable {b b' : Book} {o x : Order}

lemma passes_trailed (b : Book) : Passes b b.trailed := by
  unfold trailed
  split_ifs
  · refine ⟨le_rfl, fun id x' hx' => .inl ?_⟩
    rw [show (b.stops.mapVal (updateTrail b.lastPrice)).lookup id =
      (b.stops.lookup id).map (updateTrail b.lastPrice) from Map.lookup_mapVal _ _ _] at hx'
    obtain ⟨x, hx, rfl⟩ := Option.map_eq_some_iff.1 hx'
    exact ⟨x, hx, .follow .refl _⟩
  · exact .refl b

/-- Nothing is left to fire. -/
lemma hushed_of_firing (h : b.firing = []) : Hushed b := by
  intro hlast id x hx
  unfold firing at h
  rw [if_pos hlast, List.map_eq_nil_iff] at h
  by_contra htrig
  have hmem : (id, x) ∈ b.stops.pairs.filter fun e => stopTriggered e.2 b.lastPrice :=
    List.mem_filter.2 ⟨Map.mem_pairs.2 hx, by simpa using htrig⟩
  have hsorted := (List.perm_insertionSort (fun x y : OrderId × Order => x.2.seq ≤ y.2.seq)
    (b.stops.pairs.filter fun e => stopTriggered e.2 b.lastPrice)).mem_iff.2 hmem
  rw [h] at hsorted
  exact absurd hsorted List.not_mem_nil

lemma cancel_tends (b : Book) (id : OrderId) : Tends b (b.cancel id).1 := by
  unfold cancel
  split
  · exact tends_of_stops rfl le_rfl fun _ _ => Map.lookup_of_erase
  · split_ifs
    · exact tends_of_eq rfl rfl le_rfl
    · exact tends_of_eq rfl rfl le_rfl
    · split
      · exact .refl b
      · exact (b.calm_cancelResting _ _).tends

lemma looked_tends (b : Book) (o : Order) : Tends b (b.looked o) := by
  have hticked : Tends b b.ticked := tends_of_eq rfl rfl (Nat.le_succ _)
  unfold looked
  split_ifs
  · exact hticked.trans (calm_crosses _ _).tends
  · exact hticked

lemma tends_holdChild (h : b.holdChild o = some b') : Tends b b' := by
  unfold holdChild at h
  split at h
  · exact absurd h (by simp)
  · split at h
    all_goals first
      | (obtain rfl := Option.some.inj h; exact tends_of_eq rfl rfl le_rfl)
      | exact absurd h (by simp)

lemma Admits.tends {a : Admission} (h : b.Admits o a) : match a with
    | .answered r => Tends b r.1
    | .aon b' _ | .peg b' _ | .stop b' _ | .matched b' _ => Tends b b' := by
  cases h with
  | refused | opening | closing | stop | peg => exact tends_of_eq rfl rfl (Nat.le_succ _)
  | declined | aon | matched => exact looked_tends b o
  | held _ hx =>
    have hticked : Tends b b.ticked := tends_of_eq rfl rfl (Nat.le_succ _)
    exact hticked.trans (tends_holdChild hx)

lemma tends_submitAon (b : Book) (o : Order) : Tends b (b.submitAon o).1 := by
  unfold submitAon
  split_ifs
  · exact .refl b
  · exact ((b.calm_rest _ _).trans (calm_repricePegs _)).tends

lemma tends_submitPeg (b : Book) (o : Order) : Tends b (b.submitPeg o).1 := by
  unfold submitPeg
  split
  · exact .refl b
  · have hrest := fun x => (b.calm_rest x []).tends
    dsimp only
    split_ifs
    · exact (hrest _).trans (tends_of_eq rfl rfl le_rfl)
    · exact hrest _

/-- An untriggered stop is parked. -/
lemma tends_park (hlo : b.nextSeq ≤ x.seq) (hhi : x.seq < b'.nextSeq) (h : Tends b b')
    (hq : ¬ (b'.haveLast = true ∧ stopTriggered (b'.armStop x) b'.lastPrice = true)) :
    Tends b { b' with stops := b'.stops.insert (b'.armStop x).id (b'.armStop x) } := by
  have hseq : (b'.armStop x).seq = x.seq := by rw [armStop_eq]
  -- whatever is parked now was parked before, or is the order
  have hstops : ∀ id y, (b'.stops.insert (b'.armStop x).id (b'.armStop x)).lookup id = some y →
      b'.stops.lookup id = some y ∨ y = b'.armStop x := by
    intro id y hy
    rw [Map.lookup_insert_eq] at hy
    split_ifs at hy
    · exact .inr (Option.some.inj hy).symm
    · exact .inl hy
  refine ⟨⟨h.passes.seq_le, fun id y hy => ?_⟩, fun hhush hlast id y hy => ?_⟩
  · rcases hstops id y hy with hy | rfl
    · exact h.passes.stops id y hy
    · exact .inr ⟨hseq ▸ hlo, hseq ▸ hhi, Order.anchored_armStop b' x⟩
  · rcases hstops id y hy with hy | rfl
    · exact h.hushed hhush hlast id y hy
    · rw [not_and] at hq
      simpa using hq hlast

end Strides

/-- Nothing parked is triggered, or the stops have yet to be looked at. -/
def Stage.Hushes (s : Stage) : Prop := s.marks.stirred = false → s.book.Hushed

/-- What the executions `ts` do to the parked stops: nothing, if there are none. -/
structure Stirs (b : Book) (ts : List Trade) (b' : Book) : Prop where
  passes : Passes b b'
  tends : ts = [] → Tends b b'

section Stirs

variable {b b' b'' : Book} {ts tr : List Trade} {x o : Order} {m : MatchResult}

lemma Tends.stirs (h : Tends b b') (h' : Stirs b' ts b'') : Stirs b ts b'' :=
  ⟨h.passes.trans h'.passes, fun ht => h.trans (h'.tends ht)⟩

lemma Meets.stirs {o' : Order} (h : Meets b o tr b' o' (tr ++ ts)) : Stirs b ts b' := by
  have hstops : b'.stops = b.stops := congrArg Frame.stops h.frame
  refine ⟨passes_of_stops h.seq_le fun _ _ hx => hstops ▸ hx, fun ht => ?_⟩
  exact tends_of_eq hstops (h.last (by rw [ht, List.append_nil])) h.seq_le

lemma stirs_rest (h : Stirs b ts b') (o : Order) (ev : List Order) :
    Stirs b ts (b'.rest o ev).1 :=
  ⟨h.passes.trans (b'.calm_rest o ev).tends.passes,
    fun ht => (h.tends ht).trans (b'.calm_rest o ev).tends⟩

lemma inject_stirs (hm : (b.inject x tr).Returns m) (ht : m.trades = tr ++ ts) :
    Stirs b ts m.book := by
  obtain ⟨m', hm', -, htr, hbook⟩ := inject_meets hm
  have hmeet := matchOrder_meets hm'
  rw [← htr, ht] at hmeet
  rw [hbook]
  split_ifs
  · exact stirs_rest hmeet.stirs _ _
  · exact hmeet.stirs

lemma stirs_afterMeet (hm : (b.matchOrder x []).Returns m) : Stirs b m.trades (afterMeet m) := by
  have hmeet := matchOrder_meets hm
  rw [← List.nil_append m.trades] at hmeet
  unfold afterMeet
  split_ifs
  · exact stirs_rest hmeet.stirs _ _
  · exact hmeet.stirs

lemma auctionPhase_stirs (b : Book) (queue : List Order) :
    Stirs b (b.auctionPhase queue).2.2 (b.auctionPhase queue).1 := by
  have hall := auctionPhase_allots b queue
  have hstops : (b.auctionPhase queue).1.stops = b.stops := congrArg Frame.stops hall.frame
  refine ⟨passes_of_stops hall.seq_eq.ge fun _ _ hx => hstops ▸ hx, fun hnil => ?_⟩
  cases hc : b.clearing queue with
  | none =>
    have heq : b.auctionPhase queue = (b, queue, []) := by simp [auctionPhase, hc]
    rw [heq]
    exact .refl b
  | some c => exact absurd hnil (auctionPhase_trades_ne hc)

end Stirs

/-- A stride re-anchors and fires stops, and what it stirs is marked. -/
lemma Stride.tends {A : Book → Order → Prop} {s s' : Stage} {ts : List Trade}
    (h : Stride A s ts s') :
    Passes s.book s'.book ∧ (s.Hushes → s'.Hushes) := by
  have hof : ∀ {b b' : Book} {hand hand' : List Active} {k k' : Marks}, Tends b b' →
      k'.stirred = k.stirred → Passes b b' ∧ (Stage.Hushes ⟨b, hand, k⟩ →
        Stage.Hushes ⟨b', hand', k'⟩) :=
    fun h hk => ⟨h.passes, fun hs hk' => h.hushed (hs (hk.symm.trans hk'))⟩
  have hstirs : ∀ {b b' : Book} {hand hand' : List Active} {k k' : Marks} {ts : List Trade},
      Stirs b ts b' → k'.stirred = (k.stirred || !ts.isEmpty) →
      Passes b b' ∧ (Stage.Hushes ⟨b, hand, k⟩ → Stage.Hushes ⟨b', hand', k'⟩) := by
    refine fun h hk => ⟨h.passes, fun hs hk' => ?_⟩
    obtain ⟨hk₀, hts⟩ := Bool.or_eq_false_iff.1 (hk.symm.trans hk')
    exact (h.tends (by simpa using hts)).hushed (hs hk₀)
  cases h with
  | answer _ h => exact hof h.tends rfl
  | aon _ h => exact hof (h.tends.trans (tends_submitAon _ _)) rfl
  | peg _ h => exact hof (h.tends.trans (tends_submitPeg _ _)) rfl
  | park _ h hq =>
    have ht := h.tends
    cases h
    exact hof (tends_park le_rfl (Nat.lt_succ_self _) ht hq) rfl
  | spring _ h _ _ hm => exact hstirs (h.tends.stirs (inject_stirs hm rfl)) rfl
  | meet _ h hm => exact hstirs (h.tends.stirs (stirs_afterMeet hm)) rfl
  | @fire b hand k id x tr ts m hx hm ht =>
    have hun : Tends b (b.unparked id x) := by
      have hstops : Tends b { b with stops := b.stops.erase id } :=
        tends_of_stops rfl le_rfl fun _ _ => Map.lookup_of_erase
      exact hstops.trans (calm_emit _ _).tends
    exact hstirs (hun.stirs (inject_stirs hm ht)) rfl
  | remainder _ hm ht => exact hstirs (inject_stirs hm ht) rfl
  | drop => exact hof (.refl _) rfl
  | release | regroup | member => exact hof (tends_of_eq rfl rfl le_rfl) rfl
  | allot queue => exact hstirs (auctionPhase_stirs _ queue) rfl
  | trail => exact ⟨passes_trailed _, fun _ h => absurd h (by simp)⟩
  | calm h => exact ⟨passes_trailed _, fun _ _ => hushed_of_firing h⟩
  | reprice => exact hof (calm_repricePegs _).tends rfl
  | cancel id => exact hof (cancel_tends _ id) rfl

lemma Strides.tends {A : Book → Order → Prop} {s s' : Stage} {ts : List Trade}
    (h : Strides A s ts s') : Passes s.book s'.book ∧ (s.Hushes → s'.Hushes) := by
  induction h with
  | nil s => exact ⟨.refl _, id⟩
  | cons h _ ih => exact ⟨h.tends.1.trans ih.1, fun hs => ih.2 (h.tends.2 hs)⟩

end Book

/-! ### Runs -/

lemma Instruction.tends {b : Book} {q : Instruction} {r : Book × List Trade}
    (h : (q.run b).Returns r) : Book.Tends b r.1 := by
  have hstart : Book.Tends b (q.start b).1 := by
    cases q with
    | seedPosition c net =>
      simp only [Instruction.start, Book.seedPosition]
      split_ifs
      · exact .refl b
      · exact Book.tends_of_eq rfl rfl le_rfl
    | _ => exact Book.tends_of_eq rfl rfl le_rfl
  obtain ⟨k, hrun, hk⟩ := Book.strides_of_run h {}
  obtain ⟨hp, hq⟩ := hrun.tends
  refine hstart.trans ⟨hp, fun hb => hq (fun _ => hb) ?_⟩
  exact Bool.eq_false_of_not_eq_true fun h => absurd (hk h) (by simp)

namespace Record

variable {r r' : Record}

/-- What is known of the parked stops between operations. -/
structure Settled (b : Book) : Prop where
  hushed : b.Hushed
  anchored : ∀ id x, b.stops.lookup id = some x → x.Anchored
  stamped : ∀ id x, b.stops.lookup id = some x → x.seq < b.nextSeq

lemma Settled.tend {b b' : Book} (h : Settled b) (ht : Book.Tends b b') : Settled b' := by
  refine ⟨ht.hushed h.hushed, fun id x' hx' => ?_, fun id x' hx' => ?_⟩
  · rcases ht.passes.stops id x' hx' with ⟨x, hx, htr⟩ | ⟨-, -, ha⟩
    · exact htr.anchored (h.anchored id x hx)
    · exact ha
  · rcases ht.passes.stops id x' hx' with ⟨x, hx, htr⟩ | ⟨-, hlt, -⟩
    · rw [htr.seq_eq]
      exact lt_of_lt_of_le (h.stamped id x hx) ht.passes.seq_le
    · exact hlt

lemma tends_of_step {q : Instruction} (h : (r.step q).Returns r') : Book.Tends r.book r'.book := by
  obtain ⟨x, hx, rfl⟩ := returns_step.1 h
  exact Instruction.tends hx

/-- A run is an operation, as far as the parked stops go. -/
lemma passes_of_reach {P : Record → Instruction → Prop} (h : Machine.Reach step P r r') :
    Book.Passes r.book r'.book :=
  h.invariant (I := fun r' => Book.Passes r.book r'.book) (.refl _)
    fun _ _ _ hI _ hs => hI.trans (tends_of_step hs).passes

lemma settled_of_reach {P : Record → Instruction → Prop} (h : Machine.Reach step P r r')
    (h₀ : Settled r.book) : Settled r'.book :=
  h.invariant (I := fun r' => Settled r'.book) h₀ fun _ _ _ hI _ hs => hI.tend (tends_of_step hs)

/-- In every run no parked stop is triggered at the last price, every trailing stop is where its
high-water mark puts it, and while a stop is parked, as its arrival sequence tells, it moves
towards the market only. -/
theorem hushed_of_reach {memLevels : ℕ} {stp : StpPolicy} {symbol : Symbol} {eventSink : Bool}
    (h : Machine.Reach step (fun _ _ => True) (start memLevels stp symbol eventSink) r)
    (h' : Machine.Reach step (fun _ _ => True) r r') :
    r.book.Hushed ∧ (∀ id x, r.book.stops.lookup id = some x → x.Anchored) ∧
      ∀ id x x', r.book.stops.lookup id = some x → r'.book.stops.lookup id = some x' →
        x'.seq = x.seq → x'.side = x.side ∧ x.Tightens x' := by
  have h₀ : Settled (start memLevels stp symbol eventSink).book :=
    ⟨fun _ id x hx => absurd hx (by simp [start, Book.empty]),
      fun id x hx => absurd hx (by simp [start, Book.empty]),
      fun id x hx => absurd hx (by simp [start, Book.empty])⟩
  have hset := settled_of_reach h h₀
  refine ⟨hset.hushed, hset.anchored, fun id x x' hx hx' hseq => ?_⟩
  have hx₀ := hset.stamped id x hx
  rcases (passes_of_reach h').stops id x' hx' with ⟨y, hy, htr⟩ | ⟨hlo, -, -⟩
  · obtain rfl := Option.some.inj (hx.symm.trans hy)
    exact ⟨htr.side_eq, htr.tightens (hset.anchored id x hx)⟩
  · -- a stop that has arrived since then has a later sequence number
    omega

/-- A trade at 100, a trailing sell stop that is parked, and a trade at 110 that it follows. -/
theorem hushed_of_reach_trailing : ∃ r r' x x',
    Machine.Reach step (fun _ _ => True) (start 0 .none "ABC" true) r ∧
      Machine.Reach step (fun _ _ => True) r r' ∧ r.book.stops.lookup 3 = some x ∧
      r'.book.stops.lookup 3 = some x' ∧ x.trigger.map (·.stopPrice) = some 95 ∧
      x'.trigger.map (·.stopPrice) = some 105 ∧ r'.book.Hushed ∧ x.Tightens x' := by
  let cross (id : OrderId) (p : ℤ) : List Instruction :=
    [.submit { id := id, side := .sell, qty := 1, price := p },
      .submit { id := id + 1, qty := 1, price := p }]
  let stop : Instruction := .submit
    { id := 3, side := .sell, type := .market, qty := 1,
      trigger := some { kind := .trailAmount, trailBy := 5 } }
  let before := cross 1 100 ++ [stop]
  let parked (r : Record) : Option (ℤ × ℕ) := (r.book.stops.lookup 3).bind fun x =>
    x.trigger.map fun t => (t.stopPrice, x.seq)
  have hrun : ((Machine.runActs step 8 (start 0 .none "ABC" true) before).bind fun r =>
      (Machine.runActs step 8 r (cross 4 110)).map fun r' => (parked r, parked r'))
        = some (some (95, 3), some (105, 3)) := by decide +kernel
  obtain ⟨r, hr, hrun⟩ := Option.bind_eq_some_iff.1 hrun
  obtain ⟨r', hr', hrun⟩ := Option.map_eq_some_iff.1 hrun
  obtain ⟨hp, hp'⟩ := Prod.mk.inj hrun
  obtain ⟨x, hx, hp⟩ := Option.bind_eq_some_iff.1 hp
  obtain ⟨x', hx', hp'⟩ := Option.bind_eq_some_iff.1 hp'
  obtain ⟨t, ht, hp⟩ := Option.map_eq_some_iff.1 hp
  obtain ⟨t', ht', hp'⟩ := Option.map_eq_some_iff.1 hp'
  obtain ⟨hstop, hseq⟩ := Prod.mk.inj hp
  obtain ⟨hstop', hseq'⟩ := Prod.mk.inj hp'
  have hreach := Machine.Reach.of_runActs_true hr
  have hreach' := Machine.Reach.of_runActs_true hr'
  obtain ⟨-, -, htight⟩ := hushed_of_reach hreach hreach'
  exact ⟨r, r', x, x', hreach, hreach', hx, hx', by simp [ht, hstop], by simp [ht', hstop'],
    (hushed_of_reach (hreach.trans hreach') .init).1,
    (htight 3 x x' hx hx' (hseq'.trans hseq.symm)).2⟩

end Record

end Codicis
