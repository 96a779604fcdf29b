/-
Which orders their owners can cancel.

The engine registers the handle of an order when `submit` reports that it rests.  An order
that is queued for an auction is not reported so, and the remainder that an auction puts to
rest passes no `submit`: their owners cannot cancel them (`queued_without_handle`).  Orders
for continuous trading have a handle for as long as they live, and a cancel by their owner
removes them (`cancellable_of_reach`), whatever happens to storage.
-/
import Codicis.App.OrderForm
import Codicis.Core.Direct
import Codicis.Engine.Handles

namespace Codicis

open OrderForm

namespace Engine

variable {e : Engine}

/-- A handle survives `prune_filled`, unless it is that of a maker which is gone. -/
lemma lookup_prune (symbol : Symbol) (trades : List Trade) {uuid : String}
    (h : ∀ t ∈ trades, e.matching.find symbol t.makerId = none →
      e.idUuid.lookup t.makerId ≠ some uuid) :
    (trades.foldl (Engine.pruneOne symbol) e).handles.lookup uuid = e.handles.lookup uuid := by
  induction trades generalizing e with
  | nil => rfl
  | cons t trades ih =>
    rw [List.foldl_cons]
    rcases pruneOne_cases symbol e t with ⟨heq, -⟩ | ⟨u, hid, hfind, heq⟩
    · rw [heq]
      exact ih fun t' ht' => h t' (List.mem_cons_of_mem _ ht')
    · rw [heq, ih fun t' ht' hf hl => ?_]
      · have hne : uuid ≠ u := by
          rintro rfl
          exact h t (by simp) hfind hid
        rw [dropHandle, AList.lookup_erase_ne hne]
      · exact h t' (List.mem_cons_of_mem _ ht') hf
          ((fewer_dropHandle e u t.makerId).idUuid _ _ hl)

/-- A placement keeps the handles that are there. -/
lemma lookup_placeEngine_of_some {p : Pending} {r : Book × SubmitOutcome} {uuid : String}
    {h : Handle} (hu : e.handles.lookup uuid = some h) :
    (Config.placeEngine e p r).handles.lookup uuid = some h := by
  rw [(handles_placeEngine e p r).1]
  split_ifs with hr
  · simp only [Engine.register]
    split_ifs with hin
    · exact hu
    · have hne : uuid ≠ p.orderUuid := by
        rintro rfl
        exact hin (by simp [hu])
      rwa [AList.lookup_insert_ne hne]
  · exact hu

/-- A placement registers an order that rests, if its uuid is new. -/
lemma lookup_placeEngine_self {p : Pending} {r : Book × SubmitOutcome}
    (hr : Engine.rests r.2 = true) (hnew : e.handles.lookup p.orderUuid = none) :
    (Config.placeEngine e p r).handles.lookup p.orderUuid
      = some ⟨p.symbol, p.order.id, p.owner⟩ := by
  rw [(handles_placeEngine e p r).1, if_pos hr]
  simp [Engine.register, hnew, AList.lookup_insert]

end Engine

namespace Config

open Book

variable {c c' : Config} {stp : StpPolicy} {ts : List Ticket}

/-- Nothing waits, every order that rests has a handle, and no handle of such an order is
going to be dropped. -/
structure Served (c : Config) : Prop where
  waiting : ∀ s, (c.books s).frame.waiting = []
  handled : ∀ s id, (c.books s).find id ≠ none →
    ∃ uuid owner, c.engine.handles.lookup uuid = some ⟨s, id, owner⟩
  prunes : ∀ s trades, Task.prune s trades ∈ c.stack → ∀ t ∈ trades,
    ∃ o, (s, o) ∈ c.placed ∧ o.id = t.makerId
  forgets : ∀ uuid id, Task.forget uuid id ∈ c.stack →
    id ∈ c.placed.map (·.2.id) ∧ ∀ s, (c.books s).find id = none

/-- An order is placed for one instrument. -/
lemma symbol_unique (hok : BooksOk stp c) {s s' : Symbol} {o o' : Order} (h : (s, o) ∈ c.placed)
    (h' : (s', o') ∈ c.placed) (hid : o.id = o'.id) : s = s' :=
  congrArg Prod.fst (List.inj_on_of_nodup_map hok.nodup h h' hid)

lemma live_of_find {b : Book} {id : OrderId} (h : b.find id ≠ none) : Live b id :=
  .inl (Book.find_ne_none.1 h)

/-- Where nothing waits, only the orders in hand come to rest in the book that changes. -/
lemma find_of_update {s₀ : Symbol} {b' : Book} {ms : List Mut} {new : List Active}
    (hw : ∀ s, (c.books s).frame.waiting = []) (hst : Step (c.books s₀) new ms b')
    (hB : c'.books = Function.update c.books s₀ b') {s : Symbol} {id : OrderId}
    (h : (c'.books s).find id ≠ none) : (c.books s).find id ≠ none ∨
      s = s₀ ∧ id ∈ idsOf new ∧ ∃ e, Mut.rest e ∈ ms ∧ e.order.id = id := by
  by_cases hs : s = s₀
  · subst hs
    rw [hB, Function.update_self] at h
    obtain ⟨e', he'⟩ := Option.ne_none_iff_exists'.1 (Book.find_ne_none.1 h)
    rcases hst.evolves.run.entry_inherits he' with ⟨e, he, -⟩ | ⟨e, he, htr⟩
    · exact .inl (Book.find_ne_none.2 (by simp [he]))
    · have hid : e.order.id = id :=
        (Order.id_eq_of_traits htr).symm.trans (hst.wf.sound.id_eq id e' he')
      rcases hst.rests e he with ⟨x, hx, -⟩ | hmem
      · exact absurd (hw s ▸ hx) List.not_mem_nil
      · exact .inr ⟨rfl, hid ▸ hmem, e, he, hid⟩
  · rw [hB, Function.update_of_ne hs] at h
    exact .inl h

namespace Served

/-- The order of a placement is registered when it rests. -/
lemma place (h : Served c) (hok : BooksOk stp c) (hf : Filed ts c)
    (hu : (ts.map (·.uuid)).Nodup) {p : Pending} {r : Book × SubmitOutcome} {k : List Task}
    (hk : c.stack = .drain :: k) (hp : p.ticket ∈ ts)
    (hr : ((c.books p.symbol).submit p.order).Returns r)
    (hnew : p.order.id ∉ c.placed.map (·.2.id)) (hd : 0 ≤ p.order.displayQty)
    (hdir : p.order.Direct fun _ => True) (hchild : isChild p.order = false)
    (he : c'.engine = placeEngine c.engine p r)
    (hB : c'.books = Function.update c.books p.symbol r.1)
    (hpl : c'.placed = c.placed ++ [(p.symbol, p.order)])
    (hk' : c'.stack = Engine.afterPlace c.engine.nextPlaceSeq p r.2 ++ k) : Served c' := by
  have hb : WF (c.books p.symbol) := hok.wf p.symbol
  have hlive : ¬ Live (c.books p.symbol) p.order.id := hok.fresh hnew p.symbol
  obtain ⟨ms, hst, hrep, -⟩ := (submit_step hb hlive hd).of_returns hr
  -- the uuid is that of no handle
  have hnone : c.engine.handles.lookup p.orderUuid = none := by
    cases hl : c.engine.handles.lookup p.orderUuid with
    | none => rfl
    | some x =>
      have heq : x.ticket p.orderUuid = p.ticket :=
        List.inj_on_of_nodup_map hu (hf.ticket _ x hl) hp rfl
      have hid : x.id = p.order.id := congrArg Ticket.id heq
      exact absurd (hid ▸ hf.placed _ _ (hf.known _ x hl)) hnew
  have hsub : c.placed ⊆ c'.placed := hpl ▸ List.subset_append_left _ _
  refine ⟨fun s => ?_, fun s id hid => ?_, fun s trades hmem t ht => ?_, fun uuid id hmem => ?_⟩
  · by_cases hs : s = p.symbol
    · subst hs
      rw [hB, Function.update_self]
      exact submit_waiting_eq_nil hb (h.waiting _) hlive hd hdir hchild hr
    · rw [hB, Function.update_of_ne hs]
      exact h.waiting s
  · rcases find_of_update h.waiting hst hB hid with hid | ⟨rfl, hmem, e, hrest, heid⟩
    · obtain ⟨uuid, owner, hl⟩ := h.handled s id hid
      exact ⟨uuid, owner, he ▸ Engine.lookup_placeEngine_of_some hl⟩
    · obtain rfl : id = p.order.id := by simpa using hmem
      have hfire : firesAtOnce (c.books p.symbol) p.order = false := by
        simp [firesAtOnce, hdir.not_awaitsTrigger trivial]
      have hrested := (hrep.rests hfire e hrest heid).1
      exact ⟨p.orderUuid, p.owner,
        he ▸ Engine.lookup_placeEngine_self (by simp [Engine.rests, hrested]) hnone⟩
  · rw [hk'] at hmem
    rcases List.mem_append.1 hmem with hmem | hmem
    · -- the makers of the placement rest in its book
      obtain ⟨rfl, rfl⟩ : s = p.symbol ∧ trades = r.2.trades := by
        rw [← List.append_nil (Engine.afterPlace _ p r.2), afterPlace_append] at hmem
        simp only [List.mem_append, List.mem_cons, doneTasks, reduceCtorEq, false_or,
          List.not_mem_nil, or_false, Task.prune.injEq] at hmem
        exact hmem.resolve_left fun hmem => sends_placeTasks p r.2 _ hmem
      rw [hrep.trades] at ht
      rcases (hst.trade_ids hb ht).1 with hl | hl
      · obtain ⟨o, ho, hid⟩ := hok.live _ _ hl
        exact ⟨o, hsub ho, hid⟩
      · refine ⟨p.order, hpl ▸ List.mem_append_right _ (by simp), ?_⟩
        simpa [eq_comm] using hl
    · obtain ⟨o, ho, hid⟩ := h.prunes s trades (hk ▸ List.mem_cons_of_mem _ hmem) t ht
      exact ⟨o, hsub ho, hid⟩
  · rw [hk'] at hmem
    have hmem := (List.mem_append.1 hmem).resolve_left (forget_notMem_afterPlace _ p r.2 uuid id)
    obtain ⟨hpid, hgone⟩ := h.forgets uuid id (hk ▸ List.mem_cons_of_mem _ hmem)
    refine ⟨List.map_subset _ hsub hpid, fun s => by_contra fun hid => ?_⟩
    rcases find_of_update h.waiting hst hB hid with hid | ⟨-, hmem, -⟩
    · exact hid (hgone s)
    · obtain rfl : id = p.order.id := by simpa using hmem
      exact hnew hpid

/-- A book changes, and no order comes to it. -/
lemma change (h : Served c) {s₀ : Symbol} {b' : Book} {ms : List Mut}
    (hst : Step (c.books s₀) [] ms b') (hB : c'.books = Function.update c.books s₀ b')
    (hh : c'.engine.handles = c.engine.handles) (hpl : c'.placed = c.placed)
    (hp : ∀ s trades, Task.prune s trades ∈ c'.stack → Task.prune s trades ∈ c.stack)
    (hf : ∀ uuid id, Task.forget uuid id ∈ c'.stack → Task.forget uuid id ∈ c.stack ∨
      id ∈ c.placed.map (·.2.id) ∧ ∀ s, (c'.books s).find id = none) : Served c' := by
  have hfind : ∀ s id, (c'.books s).find id ≠ none → (c.books s).find id ≠ none := fun s id hid =>
    (find_of_update h.waiting hst hB hid).resolve_right fun h => by simp at h
  refine ⟨fun s => ?_, fun s id hid => ?_, fun s trades hmem => ?_, fun uuid id hmem => ?_⟩
  · by_cases hs : s = s₀
    · subst hs
      rw [hB, Function.update_self]
      exact hst.waiting_eq_nil (h.waiting s)
    · rw [hB, Function.update_of_ne hs]
      exact h.waiting s
  · rw [hh]
    exact h.handled s id (hfind s id hid)
  · rw [hpl]
    exact h.prunes s trades (hp s trades hmem)
  · rw [hpl]
    rcases hf uuid id hmem with hmem | hmem
    · obtain ⟨hpid, hgone⟩ := h.forgets uuid id hmem
      exact ⟨hpid, fun s => by_contra fun hne => hfind s id hne (hgone s)⟩
    · exact hmem

/-- The books are alike, and handles of orders that rest stay. -/
lemma alike (h : Served c) (hB : ∀ s, (c.books s).Alike (c'.books s)) (hpl : c'.placed = c.placed)
    (hh : ∀ s id uuid owner, (c.books s).find id ≠ none →
      c.engine.handles.lookup uuid = some ⟨s, id, owner⟩ →
      c'.engine.handles.lookup uuid = some ⟨s, id, owner⟩)
    (hk : ∀ f ∈ c'.stack, f.due = true → f ∈ c.stack) : Served c' := by
  have hfind : ∀ s id, (c'.books s).find id = (c.books s).find id := by
    intro s id
    obtain ⟨ps, rs, heq⟩ := hB s
    rw [heq]
    rfl
  refine ⟨fun s => ?_, fun s id hid => ?_, fun s trades hmem => ?_, fun uuid id hmem => ?_⟩
  · rw [(hB s).frame]
    exact h.waiting s
  · rw [hfind] at hid
    obtain ⟨uuid, owner, hl⟩ := h.handled s id hid
    exact ⟨uuid, owner, hh s id uuid owner hid hl⟩
  · rw [hpl]
    exact h.prunes s trades (hk _ hmem rfl)
  · rw [hpl]
    obtain ⟨hpid, hgone⟩ := h.forgets uuid id (hk _ hmem rfl)
    exact ⟨hpid, fun s => (hfind s id).trans (hgone s)⟩

/-- Handles are dropped only for orders that are gone. -/
lemma quiet (h : Served c) (hok : BooksOk stp c) (hf : Filed ts c) (hu : (ts.map (·.uuid)).Nodup)
    (hB : ∀ s, (c.books s).Alike (c'.books s)) (hpl : c'.placed = c.placed) (hd : Drops c c') :
    Served c' := by
  -- a uuid was given out for one order
  have hone : ∀ uuid x id, c.engine.handles.lookup uuid = some x → Issued ts uuid id →
      id = x.id := by
    rintro uuid x id hl ⟨t, ht, rfl, rfl⟩
    exact congrArg Ticket.id (List.inj_on_of_nodup_map hu ht (hf.ticket _ x hl) rfl)
  cases hd with
  | none hh hi hk =>
    exact h.alike hB hpl (fun s id uuid owner _ hl => hh ▸ hl) fun f hf hdue => (hk f hdue).1 hf
  | @prune s trades k hk heq =>
    subst heq
    refine h.alike hB hpl (fun s' id uuid owner hid hl => ?_) fun f hf _ =>
      hk ▸ List.mem_cons_of_mem _ hf
    refine (Engine.lookup_prune s trades fun t ht hfind hlk => ?_).trans hl
    have hmk : t.makerId = id := hone uuid _ _ hl (hf.issued _ _ hlk)
    obtain ⟨o, ho, hoid⟩ := h.prunes s trades (hk ▸ List.mem_cons_self) t ht
    obtain ⟨o', ho', hoid'⟩ := hok.live s' id (live_of_find hid)
    obtain rfl := symbol_unique hok ho ho' (by rw [hoid, hoid', hmk])
    rw [Matching.find_eq, hmk] at hfind
    exact hid hfind
  | @forget uuid id k hk heq =>
    subst heq
    have hmem : Task.forget uuid id ∈ c.stack := hk ▸ List.mem_cons_self
    refine h.alike hB hpl (fun s' id' u owner hid hl => ?_) fun f hf _ =>
      hk ▸ List.mem_cons_of_mem _ hf
    have hh : (c.forget uuid id k).engine.handles = c.engine.handles.erase uuid := by
      rw [forget_eq]
    have hne : u ≠ uuid := by
      rintro rfl
      have hid' : id = id' := hone u _ _ hl (hf.forgets u id hmem)
      exact hid (hid' ▸ (h.forgets u id hmem).2 s')
    rwa [hh, AList.lookup_erase_ne hne]

/-- Every step serves all orders. -/
lemma step (h : Served c) (hok : BooksOk stp c) (hf : Filed ts c) (hn : (ts.map (·.id)).Nodup)
    (hu : (ts.map (·.uuid)).Nodup)
    (hpt : ∀ s o, (s, o) ∈ c.placed → ∃ t ∈ ts, t.symbol = s ∧ t.id = o.id)
    (hst : ∀ p, Staged c p → p.ticket ∈ ts) {op : Option Ledger.Op} (hd : Deed c op c')
    (hnew : ∀ o, op = some o → Novel c o) (hnat : ∀ o, op = some o → o.native = true)
    (hdir : ∀ o, op = some o → ∀ x ∈ o.placed,
      x.2.Direct (fun _ => True) ∧ isChild x.2 = false) : Served c' := by
  have hd' := hd
  cases hd with
  | @place p r k hk hp hpok hr =>
    have hmem : (p.symbol, p.order) ∈ (Ledger.Op.place p.symbol p.order).placed := by
      simp [Ledger.Op.placed]
    obtain ⟨hid, hdisp⟩ := hnew _ rfl _ hmem
    obtain ⟨hdirect, hchild⟩ := hdir _ rfl _ hmem
    obtain ⟨ms, b', ws, hB, -, out, hr', -⟩ := hd'.effect hok (hnew _ rfl) (hnat _ rfl)
    obtain rfl : r = (b', out) := hr.unique hr'
    exact h.place hok hf hu hk (hst p (head_staged hp)) hr hid hdisp hdirect hchild rfl hB
      hd'.placed rfl
  | @cancel uuid requester x k hk hr =>
    obtain ⟨ms, b', ws, hB, hstep, hb', -⟩ := hd'.effect hok (hnew _ rfl) (hnat _ rfl)
    have hpl := hd'.placed.trans (List.append_nil _)
    refine h.change hstep hB rfl hpl (fun s trades hmem => ?_) fun u id hmem => ?_
    · simp only [List.mem_cons, reduceCtorEq, false_or] at hmem
      exact hk ▸ List.mem_cons_of_mem _ hmem
    · simp only [List.mem_cons, reduceCtorEq, false_or] at hmem
      rcases hmem with hmem | hmem
      · -- the cancelled order is gone from its book, and was in no other
        obtain ⟨rfl, rfl⟩ := Task.forget.inj hmem
        have hpid := hf.placed _ _ (hf.known _ x (handle_of_cancelResult hr).1)
        refine .inr ⟨hpid, fun s => ?_⟩
        by_cases hs : s = x.symbol
        · subst hs
          rw [hB]
          simp only [Ledger.Op.symbol, Function.update_self, hb']
          exact congrArg (Option.map _) (entry_cancel_self (hok.wf x.symbol) x.id)
        · rw [hB]
          simp only [Ledger.Op.symbol, Function.update_of_ne hs]
          by_contra hne
          obtain ⟨o, ho, hid⟩ := hok.live s x.id (live_of_find hne)
          obtain ⟨t, ht, rfl, htid⟩ := hpt s o ho
          have heq : x.ticket u = t := List.inj_on_of_nodup_map hn
            (hf.ticket _ x (handle_of_cancelResult hr).1) ht (htid.trans hid).symm
          exact hs (congrArg Ticket.symbol heq).symm
      · exact .inl (hk ▸ List.mem_cons_of_mem _ hmem)
  | @auction s opening r k hk hr =>
    obtain ⟨ms, b', ws, hB, hstep, -⟩ := hd'.effect hok (hnew _ rfl) (hnat _ rfl)
    have hpl := hd'.placed.trans (List.append_nil _)
    have hold : ∀ f : Task, f.due = true →
        f ∈ Engine.reportAuction s r.2 ++ [.requeued s, .user none] ++ k → f ∈ c.stack := by
      intro f hdue hmem
      simp only [Engine.reportAuction, List.append_assoc, List.mem_append, List.mem_cons,
        List.not_mem_nil, or_false] at hmem
      rcases hmem with hmem | rfl | (rfl | rfl) | hmem
      · obtain ⟨t, -, rfl⟩ := List.mem_map.1 hmem
        exact absurd hdue (by simp [Task.due])
      · exact absurd hdue (by simp [Task.due])
      · exact absurd hdue (by simp [Task.due])
      · exact absurd hdue (by simp [Task.due])
      · exact hk ▸ List.mem_cons_of_mem _ hmem
    exact h.change hstep hB rfl hpl (fun s trades hmem => hold _ rfl hmem)
      fun u id hmem => .inl (hold _ rfl hmem)
  | pull hk => exact absurd (hnat _ rfl) (by simp [Ledger.Op.native])
  | quiet hB hp hdrop =>
    exact h.quiet hok hf hu hB.alike (by rw [placed, placements_of_deals hp]; rfl) hdrop

end Served

/-! ### Orders of forms -/

/-- The orders that are submitted come from forms. -/
def FromForms (c : Config) (a : Act) : Prop :=
  ∀ symbol owner order uuid k, c.stack = .call (.submit symbol owner order uuid) :: k → a = .run →
    ∃ form, parseOrderForm form = .ok (symbol, order)

/-- Check that the orders that are submitted come from these forms. -/
def checkForms (forms : List Form) (c : Config) (a : Act) : Bool :=
  match c.stack, a with
  | .call (.submit symbol _ order _) :: _, .run =>
    forms.any fun form => parseOrderForm form = .ok (symbol, order)
  | _, _ => true

lemma fromForms_of_check {forms : List Form} {a : Act} (h : checkForms forms c a = true) :
    FromForms c a := by
  rintro symbol owner order uuid k hk rfl
  simp only [checkForms, hk, List.any_eq_true, decide_eq_true_eq] at h
  obtain ⟨form, -, hform⟩ := h
  exact ⟨form, hform⟩

/-- The uuid of a submission was not given out before. -/
def FreshUuid (x : List Ticket × Config) (a : Act) : Prop :=
  ∀ t, x.2.ticket? a = some t → t.uuid ∉ x.1.map (·.uuid)

/-- The orders that are submitted are not designated for an auction. -/
def Continuous (c : Config) (a : Act) : Prop :=
  ∀ o, c.submitted? a = some o →
    isOpeningAuction o.flags = false ∧ isClosingAuction o.flags = false

instance (x : List Ticket × Config) (a : Act) : Decidable (FreshUuid x a) :=
  decidable_of_iff (∀ t ∈ x.2.ticket? a, t.uuid ∉ x.1.map (·.uuid)) Iff.rfl

instance (c : Config) (a : Act) : Decidable (Continuous c a) :=
  decidable_of_iff (∀ o ∈ c.submitted? a,
    isOpeningAuction o.flags = false ∧ isClosingAuction o.flags = false) Iff.rfl

/-- What a client can do. -/
structure Retail (x : List Ticket × Config) (a : Act) : Prop where
  forms : FromForms x.2 a
  uuid : FreshUuid x a

lemma formed_of_submitted {a : Act} (h : FromForms c a) {o : Order} (ho : c.submitted? a = some o) :
    Formed o := by
  unfold submitted? at ho
  cases a <;> simp only [reduceCtorEq] at ho
  split at ho
  · rename_i symbol owner order uuid k hk
    obtain rfl := Option.some.inj ho
    obtain ⟨form, hform⟩ := h _ _ _ _ _ hk rfl
    exact formed_of_parse hform
  · exact absurd ho (by simp)

/-- Every live order has one handle, under the uuid and with the owner of its submission, and
a cancel by the owner removes it. -/
def Cancellable (ts : List Ticket) (c : Config) : Prop :=
  ∀ s id, (c.books s).Active id → ∃ t ∈ ts, t.symbol = s ∧ t.id = id ∧
    c.engine.handles.lookup t.uuid = some ⟨s, id, t.owner⟩ ∧
    (∀ uuid h, c.engine.handles.lookup uuid = some h → h.id = id → uuid = t.uuid) ∧
    ∀ k, ((c.withStack (.call (.cancel t.uuid t.owner) :: k)).step .run).Ensures fun c' =>
      c'.history = c.history ++ [.cancelled t.uuid (.ok ⟨s, id, t.owner⟩)] ∧
        ¬ (c'.books s).Active id

/-- In a book in which nothing waits, the live orders rest. -/
lemma active_iff {b : Book} (hw : b.frame.waiting = []) (id : OrderId) :
    b.Active id ↔ b.find id ≠ none := by
  simp only [Frame.waiting, frame, List.append_eq_nil_iff, List.map_eq_nil_iff] at hw
  obtain ⟨hstops, hopen, hclose, -⟩ := hw
  have hs : b.stops.lookup id = none := by
    cases h : b.stops.lookup id with
    | none => rfl
    | some o => exact absurd (hstops ▸ Map.mem_pairs.2 h) List.not_mem_nil
  simp [Book.Active, hs, hopen, hclose, Option.isSome_iff_ne_none]

section Reach

variable {P : List Ticket × Config → Act → Prop} {x : List Ticket × Config}

lemma TicketReach.uuids (h : TicketReach P stp 0 x) (hP : ∀ x a, P x a → FreshUuid x a) :
    (x.1.map (·.uuid)).Nodup := by
  induction h with
  | init => exact List.nodup_nil
  | @step x y a _ ha hs ih =>
    obtain ⟨-, hl⟩ := Machine.returns_logged.1 hs
    rw [hl, List.map_append, List.nodup_append]
    refine ⟨ih, by cases x.2.ticket? a <;> simp, fun u hu v hv => ?_⟩
    obtain ⟨t, ht, rfl⟩ := List.mem_map.1 hv
    rintro rfl
    exact hP x a ha t (Option.mem_toList.1 ht) hu

/-- The orders that are submitted are plain ones. -/
lemma direct_of_submission {a : Act} (hform : FromForms c a) (hcont : Continuous c a)
    {y : Symbol × Order} (hy : c.submission? a = some y) :
    0 ≤ y.2.displayQty ∧ y.2.Direct (fun _ => True) ∧ isChild y.2 = false := by
  obtain ⟨order, owner, hord, hy2⟩ := submission_assign hy
  have heq := (formed_of_submitted hform hord).eq
  obtain ⟨hopen, hclose⟩ := hcont order hord
  rw [hy2, heq]
  exact ⟨le_rfl, fun _ => ⟨rfl, hopen, hclose⟩, rfl⟩

/-- Orders for continuous trading are served. -/
lemma served_of_reach
    (h : TicketReach (fun x a => Retail x a ∧ Continuous x.2 a) stp 0 x) :
    BooksOk stp x.2 ∧ Filed x.1 x.2 ∧ Served x.2 := by
  have hsub : ∀ (c : Config) (a : Act), (∃ ts, Retail (ts, c) a ∧ Continuous c a) → ∀ y,
      c.submission? a = some y →
      0 ≤ y.2.displayQty ∧ y.2.Direct (fun _ => True) ∧ isChild y.2 = false :=
    fun c a ⟨ts, hr, hc⟩ y hy => direct_of_submission hr.forms hc hy
  have hids : ∀ c, Reach (fun c a => ∃ ts, Retail (ts, c) a ∧ Continuous c a) stp 0 c →
      c.submittedIds.Nodup := fun c hc => nodup_of_unnumbered hc fun c a ⟨ts, hr, _⟩ o ho => by
    rw [(formed_of_submitted hr.forms ho).eq]
  have hbooks : ∀ {x}, TicketReach (fun x a => Retail x a ∧ Continuous x.2 a) stp 0 x →
      BooksOk stp x.2 := fun hr => booksOk_of_reach (TicketReach.reach hr) hids
    fun c a ha y hy => (hsub c a ha y hy).1
  refine ⟨hbooks h, ?_⟩
  induction h with
  | init =>
    refine ⟨⟨?_, ?_, ?_, ?_, ?_⟩, fun s => rfl, ?_, ?_, ?_⟩ <;>
      intro u y hy <;> exact absurd hy (by simp [init, books, Matching.bookFor, Matching.newBook,
        Book.setNextSeq, Book.find])
  | @step x y a hr ha hs ih =>
    obtain ⟨hfiled, hserved⟩ := ih
    obtain ⟨hs, hl⟩ := Machine.returns_logged.1 hs
    have hreach := TicketReach.reach hr
    have hd := step_deed hs
    have hnew : ∀ o, x.2.op? a = some o → Novel x.2 o := fun o ho =>
      novel_of_reach hreach hids (fun c a ha y hy => (hsub c a ha y hy).1) ⟨x.1, ha⟩ hs ho
    have hnodup : (x.1.map (·.id)).Nodup := by
      rw [TicketReach.ids hr]
      exact hids _ hreach
    have hstaged := TicketReach.staged hr
    rw [hl]
    refine ⟨hfiled.step hnodup hstaged hd hnew _,
      hserved.step (hbooks hr) hfiled hnodup (TicketReach.uuids hr fun x a ha => ha.1.uuid)
        (fun s o ho => TicketReach.placed hr ho) hstaged hd hnew
        (fun o ho => op_native (noPull_of_reach hreach) ho) fun o ho => ?_⟩
    exact placed_forall (Q := fun y => y.2.Direct (fun _ => True) ∧ isChild y.2 = false) hreach
      (fun c a ha y hy => (hsub c a ha y hy).2) ⟨x.1, ha⟩ hs ho

end Reach

/-- Every live order can be cancelled by its owner, in runs of orders for continuous
trading. -/
theorem cancellable_of_reach {x : List Ticket × Config}
    (h : TicketReach (fun x a => Retail x a ∧ Continuous x.2 a) stp 0 x) :
    Cancellable x.1 x.2 := by
  obtain ⟨hok, hfiled, hserved⟩ := served_of_reach h
  intro s id hact
  rw [active_iff (hserved.waiting s)] at hact
  obtain ⟨uuid, owner, hl⟩ := hserved.handled s id hact
  refine ⟨⟨uuid, owner, s, id⟩, hfiled.ticket uuid _ hl, rfl, rfl, hl, fun u y hy hid => ?_,
    fun k => ?_⟩
  · -- the id leads to one uuid
    have hu := hfiled.known u y hy
    rw [hid, hfiled.known uuid _ hl] at hu
    exact (Option.some.inj hu).symm
  · have hres : x.2.engine.cancelResult uuid owner = .ok ⟨s, id, owner⟩ := by
      simp [Engine.cancelResult, hl]
    rw [step_run (f := .call (.cancel uuid owner)) (k := k) rfl]
    simp only [runTask, call, withStack, hres]
    refine Comp.ensures_pure ⟨rfl, ?_⟩
    have hB : (x.2.engine.matching.cancel s id).1.bookFor s = ((x.2.books s).cancel id).1 := by
      rw [Matching.bookFor_cancel, Function.update_self]
      rfl
    obtain ⟨ms, hst, -⟩ := cancel_step (hok.wf s) id
    change ¬ ((x.2.engine.matching.cancel s id).1.bookFor s).Active id
    rw [hB]
    refine fun hact => (active_iff ?_ id).1 hact
      (congrArg (Option.map _) (entry_cancel_self (hok.wf s) id))
    exact hst.waiting_eq_nil (hserved.waiting s)

/-- Check that orders come from these forms, under uuids that were not given out. -/
def checkRetail (forms : List Form) (x : List Ticket × Config) (a : Act) : Bool :=
  checkForms forms x.2 a && decide (FreshUuid x a)

lemma retail_of_check {forms : List Form} {x : List Ticket × Config} {a : Act}
    (h : checkRetail forms x a = true) : Retail x a := by
  simp only [checkRetail, Bool.and_eq_true, decide_eq_true_eq] at h
  exact ⟨fromForms_of_check h.1, h.2⟩

/-- The actions of a submission of an owner's first order, the first one of all. -/
def firstActs (symbol : Symbol) (owner : String) (order : Order) (uuid : String) : List Act :=
  submitActs symbol owner order uuid ++ List.replicate 2 .run ++
    [.reply ⟨1, "pull_position", [("status", "ok"), ("net", "0")]⟩] ++ List.replicate 4 .run ++
    [.reply ⟨2, "report_order", [("status", "ok")]⟩] ++ List.replicate 8 .run ++ [.user []] ++
    List.replicate 8 .run

/-- A buy order for one share that a form asks for rests. -/
theorem cancellable_of_reach_resting : ∃ x : List Ticket × Config,
    TicketReach (fun x a => Retail x a ∧ Continuous x.2 a) .none 0 x ∧
      (x.2.books "ABC").Active 1 ∧ Cancellable x.1 x.2 := by
  let form : Form := [("symbol", "ABC"), ("side", "buy"), ("type", "limit"), ("qty", "1"),
    ("price", "100")]
  let acts : List Act := firstActs "ABC" "user" { qty := 1, price := 100 } "a"
  obtain ⟨x, hx, hact⟩ : ∃ x,
      TicketReach (fun x a => checkRetail [form] x a = true ∧ Continuous x.2 a) .none 0 x ∧
      (x.2.books "ABC").Active 1 := Machine.Reach.exists_of_acts 8 acts (by decide +kernel)
  have hreach : TicketReach (fun x a => Retail x a ∧ Continuous x.2 a) .none 0 x :=
    hx.mono fun x a ha => ⟨retail_of_check ha.1, ha.2⟩
  exact ⟨x, hreach, hact, cancellable_of_reach hreach⟩

/-- An order that a form designates for the opening auction is queued without a handle, so
that its owner cannot cancel it. -/
theorem queued_without_handle : ∃ x : List Ticket × Config,
    TicketReach Retail .none 0 x ∧ x.2.stack = [] ∧ (x.2.books "ABC").Active 1 ∧
      x.2.engine.cancelResult "a" "user" = .notFound ∧ ¬ Cancellable x.1 x.2 := by
  let form : Form := [("symbol", "ABC"), ("side", "buy"), ("type", "limit"), ("qty", "1"),
    ("price", "100"), ("auction", "loo")]
  let acts : List Act :=
    firstActs "ABC" "user" { qty := 1, price := 100, flags := { loo := true } } "a"
  obtain ⟨x, hx, hstack, hact, hres, hts⟩ : ∃ x,
      TicketReach (fun x a => checkRetail [form] x a = true) .none 0 x ∧ x.2.stack = [] ∧
      (x.2.books "ABC").Active 1 ∧ x.2.engine.cancelResult "a" "user" = .notFound ∧
      x.1.map (·.uuid) = ["a"] := Machine.Reach.exists_of_acts 8 acts (by decide +kernel)
  refine ⟨x, hx.mono fun x a => retail_of_check, hstack, hact, hres, fun hc => ?_⟩
  -- the only uuid has no handle
  obtain ⟨t, ht, -, -, hl, -⟩ := hc _ _ hact
  have hu : t.uuid = "a" := by simpa [hts] using List.mem_map_of_mem (f := (·.uuid)) ht
  rw [hu] at hl
  simp only [Engine.cancelResult, hl] at hres
  split_ifs at hres

end Config

end Codicis
