/-
Well-formed books.

Besides the resting orders a book holds orders that wait: parked stops, orders
queued for an auction, and children of a contingent group.  In a well-formed book
(`Book.WF`) the resting part is sound, the cached best prices are right, and the
waiting orders have pairwise different identifiers, none of which rests.

`Book.Step b new ms b'` is what the caller of an operation is told: the book makes
the mutations `ms`, by a run of beats on which the orders `new` are in hand at the
start and none at the end, and stays well-formed; no identifier comes to rest or to
wait that did not wait before, except those of `new`.

Inside an operation a stage is `Fit` if its book is well-formed and the orders in hand may enter
it.  A stride from a fit stage leads to a fit stage if it leaves the resting part sound
(`Stride.fit`); what it does to the resting orders is said by `Advances`.
-/
import Codicis.Core.Census
import Codicis.Core.Roles

namespace Codicis

open Book (Restable)

/-- The orders `w` may wait beside the resting orders of `v`. -/
structure Waits (v : View) (w : List Order) : Prop where
  nodup : (w.map (·.id)).Nodup
  away : ∀ o ∈ w, v.entry o.id = none
  restable : ∀ o ∈ w, Restable o
  normal : ∀ o ∈ w, o.Normal

namespace Waits

variable {v v' : View} {w w' : List Order} {o : Order}

lemma of_subperm (h : Waits v w) (hs : w'.Subperm w) : Waits v w' := by
  refine ⟨?_, fun o ho => h.away o (hs.subset ho), fun o ho => h.restable o (hs.subset ho),
    fun o ho => h.normal o (hs.subset ho)⟩
  obtain ⟨l, hp, hsub⟩ := hs
  exact (hp.map _).nodup_iff.1 ((hsub.map _).nodup h.nodup)

lemma of_perm (h : Waits v w) (hp : w.Perm w') : Waits v w' := h.of_subperm hp.symm.subperm

/-- What the head of a list of waiting orders satisfies. -/
lemma head (h : Waits v (o :: w)) : (∀ x ∈ w, x.id ≠ o.id) ∧ v.entry o.id = none ∧ Restable o ∧
    o.Normal := by
  have hnd := h.nodup
  rw [List.map_cons, List.nodup_cons] at hnd
  exact ⟨fun x hx hid => hnd.1 (hid ▸ List.mem_map_of_mem hx), h.away o (by simp),
    h.restable o (by simp), h.normal o (by simp)⟩

end Waits

/-- The order in hand may enter the book.  A submitted order is checked when it arrives. -/
def Active.Ready : Active → Prop
  | ⟨o, .submitted⟩ => 0 ≤ o.displayQty
  | ⟨o, .auctioned⟩ => 0 ≤ o.leaves ∧ 0 < o.displayQty ∧ o.Normal
  | ⟨_, .entered⟩ | ⟨_, .triggered⟩ => False

namespace Book

/-- A well-formed book. -/
structure WF (b : Book) : Prop where
  sound : b.view.Sound
  waits : Waits b.view b.frame.waiting
  stop_id : ∀ id o, b.stops.lookup id = some o → o.id = id
  cached : b.Cached

/-- The identifiers of orders in hand. -/
def idsOf (new : List Active) : List OrderId := new.map (·.order.id)

@[simp] lemma idsOf_nil : idsOf [] = [] := rfl

@[simp] lemma idsOf_cons (a : Active) (new : List Active) :
    idsOf (a :: new) = a.order.id :: idsOf new := rfl

@[simp] lemma idsOf_append (new new' : List Active) :
    idsOf (new ++ new') = idsOf new ++ idsOf new' := List.map_append

@[simp] lemma idsOf_map (xs : List Order) (r : Route) :
    idsOf (xs.map (⟨·, r⟩)) = xs.map (·.id) := by
  simp [idsOf, Function.comp_def]

/-- The mutations `ms` lead to a well-formed book.  Only identifiers that waited,
or those of the orders `new` in hand, come to rest or to wait. -/
structure Step (b : Book) (new : List Active) (ms : List Mut) (b' : Book) : Prop where
  wf : WF b'
  waiting : ∀ id, Waiting b' id → Waiting b id ∨ id ∈ idsOf new
  beats : Beats ⟨b, none, new⟩ ms ⟨b', none, []⟩

namespace Step

variable {b b₁ b' b'' : Book} {new new' : List Active} {ms ms' : List Mut}

lemma evolves (h : Step b new ms b') : Evolves b ms b' := h.beats.evolves

/-- The orders of an operation waited, or were in hand. -/
lemma handled (h : Step b new ms b') :
    ∀ m ∈ ms, m.Handled fun id => Waiting b id ∨ id ∈ idsOf new :=
  h.beats.handled (plays_ids (fun x hx => .inl ⟨x, hx, rfl⟩) fun _ ha =>
    .inr (List.mem_map_of_mem ha))

lemma rests (h : Step b new ms b') (e : Entry) (he : Mut.rest e ∈ ms) :
    Waiting b e.order.id ∨ e.order.id ∈ idsOf new := h.handled _ he

lemma takers (h : Step b new ms b') {t : Trade} (ht : t ∈ Mut.trades ms) :
    Waiting b t.takerId ∨ t.takerId ∈ idsOf new := Mut.takerId_of_handled h.handled ht

/-- A book comes to hold no other identifiers. -/
lemma live (h : Step b new ms b') {id : OrderId} (hid : Live b' id) :
    Live b id ∨ id ∈ idsOf new := by
  rcases hid with hid | hid
  · by_contra hno
    rw [not_or] at hno
    refine hid (h.evolves.run.entry_eq_none ?_ fun e he heq => ?_)
    · by_contra hne
      exact hno.1 (.inl hne)
    · rcases h.rests e he with hw | hin
      · exact hno.1 (.inr (heq ▸ hw))
      · exact hno.2 (heq ▸ hin)
  · rcases h.waiting id hid with hw | hin
    · exact .inl (.inr hw)
    · exact .inr hin

end Step

lemma WF.lookup_eq_none {b : Book} {o : Order} (hnew : ¬ Live b o.id) :
    b.orders.lookup o.id = none := by
  by_contra h
  exact hnew (.inl h)

/-! ### Stages that are fit -/

/-- The book is well-formed, and the orders in hand may enter it. -/
structure Fit (s : Stage) : Prop where
  sound : s.book.view.Sound
  cached : s.book.Cached
  once : Once s
  waits : ∀ x ∈ s.book.frame.waiting, Restable x ∧ x.Normal
  ready : ∀ a ∈ s.hand, a.Ready

section Fit

variable {b b' : Book} {hand : List Active} {k : Marks} {s s' : Stage} {ts : List Trade}
  {A : Book → Order → Prop}

lemma mem_idle {id : OrderId} :
    id ∈ Stage.idle ⟨b, hand, k⟩ ↔ Waiting b id ∨ id ∈ idsOf hand := by
  simp [Stage.idle, waitingIds, Waiting, idsOf]

/-- The identifiers of a well-formed book are distinct. -/
lemma WF.distinct (hb : WF b) : b.Distinct := by
  refine ⟨List.Nodup.append b.orders.keys_nodup hb.waits.nodup fun id hid hw => ?_, hb.stop_id⟩
  obtain ⟨x, hx, rfl⟩ := List.mem_map.1 hw
  obtain ⟨e, he⟩ := Map.mem_iff_lookup.1 (AList.mem_keys.2 hid)
  exact absurd (he.symm.trans (hb.waits.away x hx)) (by simp)

lemma mem_liveIds {id : OrderId} : id ∈ b.liveIds ↔ Live b id := by
  have hkeys : id ∈ b.orders.keys ↔ b.view.entry id ≠ none := by
    rw [← AList.mem_keys, Map.mem_iff_lookup]
    exact Option.ne_none_iff_exists'.symm
  rw [liveIds, List.mem_append, hkeys]
  simp [waitingIds, Live, Waiting]

lemma Fit.wf (h : Fit s) : WF s.book := by
  obtain ⟨hkeys, hidle, hdisj⟩ := List.nodup_append.1 h.once.nodup
  refine ⟨h.sound, ⟨(List.nodup_append.1 hidle).1, fun x hx => ?_, fun x hx => (h.waits x hx).1,
    fun x hx => (h.waits x hx).2⟩, h.once.keyed, h.cached⟩
  by_contra hne
  obtain ⟨e, he⟩ := Option.ne_none_iff_exists'.1 hne
  exact hdisj x.id (AList.mem_keys.1 (Map.mem_iff_lookup.2 ⟨e, he⟩)) x.id
    (List.mem_append_left _ (List.mem_map_of_mem hx)) rfl

/-- An order in hand is new to the book. -/
lemma Fit.not_live (h : Fit ⟨b, hand, k⟩) {a : Active} (ha : a ∈ hand) : ¬ Live b a.order.id := by
  have hnd := h.once.nodup
  rw [Stage.idle, ← List.append_assoc] at hnd
  intro hl
  exact (List.nodup_append.1 hnd).2.2 _ (mem_liveIds.2 hl) _ (List.mem_map_of_mem ha) rfl

/-- An instruction with a new order is taken up in a well-formed book. -/
lemma WF.fit_start (hb : WF b) {q : Instruction}
    (hq : ∀ o ∈ q.orders, ¬ Live b o.id ∧ 0 ≤ o.displayQty) (k : Marks) :
    Fit ⟨(q.start b).1, (q.start b).2, k⟩ := by
  have honce := (once_start hb.distinct (fun o ho hl => (hq o ho).1 (mem_liveIds.1 hl)) k).1
  have hwaits : ∀ x ∈ b.frame.waiting, Restable x ∧ x.Normal := fun x hx =>
    ⟨hb.waits.restable x hx, hb.waits.normal x hx⟩
  -- the orders of an auction waited
  have hcall : ∀ queue : List Order, (∀ x ∈ queue, x ∈ b.frame.waiting) →
      ∀ a ∈ auctioned queue, a.Ready := by
    intro queue hqueue a ha
    obtain ⟨x, hx, rfl⟩ := List.mem_map.1 ha
    obtain ⟨hr, hn⟩ := hwaits x (hqueue x hx)
    exact ⟨hr.1.le, hr.2, hn⟩
  cases q with
  | submit o =>
    refine ⟨hb.sound, hb.cached, honce, hwaits, fun a ha => ?_⟩
    obtain rfl := List.mem_singleton.1 ha
    exact (hq o (by simp [Instruction.orders])).2
  | runOpeningAuction =>
    refine ⟨hb.sound, hb.cached, honce, fun x hx => hwaits x ?_, hcall _ fun x hx =>
      Frame.mem_waiting.2 (.inr (.inl hx))⟩
    rcases Frame.mem_waiting.1 hx with hx | hx | hx
    · exact Frame.mem_waiting.2 (.inl hx)
    · exact absurd hx List.not_mem_nil
    · exact Frame.mem_waiting.2 (.inr (.inr hx))
  | runClosingAuction =>
    refine ⟨hb.sound, hb.cached, honce, fun x hx => hwaits x ?_, hcall _ fun x hx =>
      Frame.mem_waiting.2 (.inr (.inr (.inl hx)))⟩
    rcases Frame.mem_waiting.1 hx with hx | hx | hx | hx
    · exact Frame.mem_waiting.2 (.inl hx)
    · exact Frame.mem_waiting.2 (.inr (.inl hx))
    · exact absurd hx List.not_mem_nil
    · exact Frame.mem_waiting.2 (.inr (.inr (.inr hx)))
  | seedPosition c net =>
    obtain ⟨hv, hf, hl⟩ := seedPosition_keeps b c net
    exact ⟨hv ▸ hb.sound, hb.cached.of_ladder hl, honce, fun x hx => hwaits x (hf ▸ hx),
      fun a ha => absurd ha List.not_mem_nil⟩
  | cancel id | expire now =>
    exact ⟨hb.sound, hb.cached, honce, hwaits, fun a ha => absurd ha List.not_mem_nil⟩

lemma WF.fit (hb : WF b) (k : Marks) : Fit ⟨b, [], k⟩ :=
  hb.fit_start (q := .cancel 0) (fun _ h => absurd h List.not_mem_nil) k

/-- A checked order may rest once it is stamped. -/
lemma Checked.ready {o : Order} (h : b.Checked o) (hd : 0 ≤ o.displayQty) :
    Restable (b.stamp o) ∧ (b.stamp o).Normal :=
  ⟨⟨h.leaves, stamp_displayQty b hd h.qty⟩, o.normal_normalize⟩

/-- Arming a stop keeps it ready. -/
lemma armStop_ready {o : Order} (h : Restable o ∧ o.Normal) (b : Book) :
    Restable (b.armStop o) ∧ (b.armStop o).Normal := by
  rw [armStop_eq]
  exact h

/-- Whatever waits after a stride may rest. -/
lemma Stride.ready (h : Stride A s ts s') (hs : Fit s) {x' : Order}
    (hx' : x' ∈ s'.book.frame.waiting) : Restable x' ∧ x'.Normal := by
  rcases h.waits with hw | ⟨o, x, hx⟩
  · rcases Frame.mem_waiting.1 hx' with ⟨id, hx'⟩ | hx' | hx' | hx'
    · obtain ⟨x, hx, htr⟩ := hw.stops id x' hx'
      have hwait := hs.waits x (Frame.mem_waiting.2 (.inl ⟨id, hx⟩))
      rw [htr.eq_trigger]
      exact hwait
    · exact hs.waits x' (Frame.mem_waiting.2 (.inr (.inl (hw.opening.subset hx'))))
    · exact hs.waits x' (Frame.mem_waiting.2 (.inr (.inr (.inl (hw.closing.subset hx')))))
    · exact hs.waits x' (Frame.mem_waiting.2 (.inr (.inr (.inr (hw.held.subset hx')))))
  · rcases hx.grows.waiting hx' with hx' | rfl
    · exact hs.waits x' hx'
    · have hd : 0 ≤ o.displayQty := hs.ready ⟨o, .submitted⟩ (by simp [hx.hand])
      rcases hx.order with rfl | rfl
      · exact hx.checked.ready hd
      · exact armStop_ready (hx.checked.ready hd) _

/-- A stride to a book whose resting part is sound leads to a fit stage. -/
theorem Stride.fit (h : Stride A s ts s') (hs : Fit s) (hv : s'.book.view.Sound)
    (hc : s'.book.Cached) : Fit s' := by
  refine ⟨hv, hc, h.once hs.once, fun x hx => h.ready hs hx, fun a ha => ?_⟩
  rcases h.hands ha with ha | ⟨c, hc, l, rfl, -⟩ | ⟨x, x', hx, rfl, hbase, hl⟩
  · exact hs.ready a ha
  · exact (hs.waits c (Frame.mem_waiting.2 (.inr (.inr (.inr hc))))).1.2.le
  · obtain ⟨-, hd, hn⟩ := hs.ready _ hx
    have hdisplay : (base x').displayQty = (base x).displayQty := by rw [hbase]
    have htif : (base x').tif = (base x).tif := by rw [hbase]
    refine ⟨hl fun y hy => (hs.ready _ hy).1, hdisplay.symm ▸ hd, ?_⟩
    rw [Order.Normal, show x'.tif = x.tif from htif]
    exact hn

end Fit

end Book

end Codicis
