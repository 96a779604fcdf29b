/-
What the engine reports to storage.

Between a change of a book and the reports of it nothing else happens: the tasks that
report are on top of the stack, and below them no task writes to the resting table.
`Reporting B k ws` says that the stack `k` is of this kind and still has the writes `ws`
to hand over.  So the books, together with what was sent and what is still to be sent, are
a ledger: `step_ledger` shows that a step of the engine with an open connection is an
operation of the ledger, or none.
-/
import Codicis.Engine.Placement
import Codicis.Engine.Ledger

namespace Codicis

open Ledger (restWrites fillWrites placeWrites auctionWrites)

/-! ### Books -/

namespace Matching

variable (m : Matching) (s : Symbol)

@[simp] lemma bookFor_setBook (b : Book) :
    (m.setBook s b).bookFor = Function.update m.bookFor s b := by
  funext s'
  simp only [bookFor, setBook, Function.update_apply]
  by_cases h : s' = s
  · subst h
    simp
  · rw [AList.lookup_insert_ne h, if_neg h]
    rfl

lemma bookFor_of_lookup {b : Book} (h : m.books.lookup s = some b) : m.bookFor s = b := by
  rw [bookFor, h, Option.getD_some]

lemma bookFor_of_none (h : m.books.lookup s = none) : m.bookFor s = m.newBook s := by
  rw [bookFor, h, Option.getD_none]

lemma newBook_empty : (m.newBook s).orders = ∅ ∧ (m.newBook s).stops = ∅ ∧
    (m.newBook s).openingAuction = [] ∧ (m.newBook s).closingAuction = [] ∧
    (m.newBook s).requeued = [] := by
  unfold newBook Book.setNextSeq
  split_ifs <;> exact ⟨rfl, rfl, rfl, rfl, rfl⟩

lemma find_eq (id : OrderId) : m.find s id = (m.bookFor s).find id := by
  unfold find
  cases h : m.books.lookup s with
  | none => simp [m.bookFor_of_none s h, Book.find, (m.newBook_empty s).1]
  | some b => simp [m.bookFor_of_lookup s h]

/-- There is nothing to cancel in a new book. -/
lemma bookFor_cancel (id : OrderId) :
    (m.cancel s id).1.bookFor = Function.update m.bookFor s ((m.bookFor s).cancel id).1 := by
  unfold cancel
  cases h : m.books.lookup s with
  | none =>
    obtain ⟨h1, h2, h3, h4, -⟩ := m.newBook_empty s
    have hb : ((m.bookFor s).cancel id).1 = m.bookFor s := by
      rw [m.bookFor_of_none s h]
      simp [Book.cancel, h1, h2, h3, h4]
    rw [hb, Function.update_eq_self]
  | some b => rw [m.bookFor_of_lookup s h, bookFor_setBook]

lemma bookFor_takeRequeued :
    (m.takeRequeued s).1.bookFor = Function.update m.bookFor s (m.bookFor s).takeRequeued.1 ∧
      (m.takeRequeued s).2 = (m.bookFor s).requeued := by
  unfold takeRequeued
  cases h : m.books.lookup s with
  | none =>
    have hreq := (m.newBook_empty s).2.2.2.2
    rw [m.bookFor_of_none s h]
    refine ⟨?_, hreq.symm⟩
    have hb : (m.newBook s).takeRequeued.1 = m.bookFor s := by
      rw [m.bookFor_of_none s h, Book.takeRequeued, ← hreq]
    rw [hb, Function.update_eq_self]
  | some b =>
    rw [m.bookFor_of_lookup s h, bookFor_setBook]
    exact ⟨rfl, rfl⟩

end Matching

/-! ### Tasks that report -/

namespace Task

/-- What a task writes to the resting table, apart from re-queued orders. -/
def writes : Task → List Write
  | report _ req _ => req.writes
  | send req _ => req.writes
  | fills _ filled => fillWrites filled
  | _ => []

/-- The task has nothing to write. -/
def Idle (f : Task) : Prop := f.writes = [] ∧ ∀ s, f ≠ .requeued s

/-- The task does nothing but send reports. -/
def Sends : Task → Prop
  | report _ _ _ => True
  | stash _ _ => True
  | send _ _ => True
  | fills _ _ => True
  | _ => False

end Task

/-- The tasks that report are on top of the stack, with the writes `ws`; the books have no
records of re-queued orders but those that are going to be reported. -/
inductive Reporting (B : Symbol → Book) : List Task → List Write → Prop
  | idle {k : List Task} (hk : ∀ f ∈ k, f.Idle) (hB : ∀ s, (B s).requeued = []) :
      Reporting B k []
  | requeued {k : List Task} (s : Symbol) (hk : ∀ f ∈ k, f.Idle)
      (hB : ∀ s', s' ≠ s → (B s').requeued = []) :
      Reporting B (.requeued s :: k) (restWrites s (B s).requeued)
  | task {f : Task} {k : List Task} {ws : List Write} (hf : f.Sends) (h : Reporting B k ws) :
      Reporting B (f :: k) (f.writes ++ ws)

namespace Reporting

variable {B : Symbol → Book} {f : Task} {k k₁ : List Task} {ws : List Write}

/-- Tasks that send reports are put on top. -/
lemma append (h : Reporting B k ws) (k₁ : List Task) (hk : ∀ f ∈ k₁, f.Sends) :
    Reporting B (k₁ ++ k) (k₁.flatMap Task.writes ++ ws) := by
  induction k₁ with
  | nil => exact h
  | cons f k₁ ih =>
    rw [List.cons_append, List.flatMap_cons, List.append_assoc]
    exact .task (hk f (by simp)) (ih fun g hg => hk g (by simp [hg]))

/-- A task that does not report is only on top when everything is reported. -/
lemma top (h : Reporting B (f :: k) ws) (hf : ¬ f.Sends) (hr : ∀ s, f ≠ .requeued s) :
    ws = [] ∧ (∀ g ∈ k, g.Idle) ∧ ∀ s, (B s).requeued = [] := by
  cases h with
  | idle hk hB => exact ⟨rfl, fun g hg => hk g (by simp [hg]), hB⟩
  | requeued s => exact absurd rfl (hr s)
  | task hf' _ => exact absurd hf' hf

/-- The top task sends its reports. -/
lemma pop (h : Reporting B (f :: k) ws) (hf : f.Sends) :
    ∃ ws', ws = f.writes ++ ws' ∧ Reporting B k ws' := by
  cases h with
  | idle hk hB =>
    exact ⟨[], by rw [(hk f (by simp)).1]; rfl, .idle (fun g hg => hk g (by simp [hg])) hB⟩
  | requeued s => exact absurd hf id
  | task _ h => exact ⟨_, rfl, h⟩

end Reporting

/-- The action leaves the connection open. -/
def Act.opens : Act → Bool
  | .close _ => false
  | .fail _ => false
  | _ => true

namespace Config

/-- The books of all instruments. -/
def books (c : Config) : Symbol → Book := c.engine.matching.bookFor

/-- The ledger of a configuration that still has the writes `ws` to send. -/
def ledger (c : Config) (ws : List Write) : Ledger :=
  ⟨c.books, c.client.sent.flatMap StorageHelper.writes ++ ws⟩

/-- The connection is open, and the reports are on their way. -/
structure Flowing (c : Config) (ws : List Write) : Prop where
  opened : c.client.closed = false
  reporting : Reporting c.books c.stack ws

/-- The operation of the ledger that a step is. -/
def op? (c : Config) : Act → Option Ledger.Op
  | .run =>
    match c.stack with
    | .drain :: _ =>
      match c.engine.head? with
      | some p =>
        if (c.engine.ensureDepth p.symbol p.order).2.1 = true ∧ p.ok = true then
          some (.place p.symbol p.order)
        else none
      | none => none
    | .call (.cancel uuid requester) :: _ =>
      match c.engine.cancelResult uuid requester with
      | .ok h => some (.cancel h.symbol h.id)
      | _ => none
    | .call (.runAuction symbol opening) :: _ => some (.auction symbol opening)
    | .deliver (.pull symbol side) reply :: _ =>
      some (.pull symbol side (((reply.map StorageClient.pulledOrders).getD []).filter
        (·.id ∉ c.engine.pullIgnore)))
    | _ => none
  | _ => none

variable {c c' : Config} {k k₁ : List Task} {ws : List Write} {e : Engine} {evs : List Event}

/-- The top task sends its reports. -/
lemma Flowing.pop {f : Task} (h : Flowing c ws) (hk : c.stack = f :: k) (hf : f.Sends) :
    ∃ ws', ws = f.writes ++ ws' ∧ Reporting c.books k ws' :=
  (hk ▸ h.reporting).pop hf

/-- A task that does not report is only on top when everything is reported. -/
lemma Flowing.top {f : Task} (h : Flowing c ws) (hk : c.stack = f :: k) (hf : ¬ f.Sends)
    (hr : ∀ s, f ≠ .requeued s) :
    ws = [] ∧ (∀ g ∈ k, g.Idle) ∧ ∀ s, (c.books s).requeued = [] :=
  (hk ▸ h.reporting).top hf hr

/-- What a step is to the ledger. -/
def LedgerStep (c : Config) (ws : List Write) (op : Option Ledger.Op) (c' : Config) : Prop :=
  ∃ ws', Flowing c' ws' ∧
    match op with
    | none => (c.ledger ws).Alike (c'.ledger ws') ∧ placements c'.history = placements c.history
    | some op => ((c.ledger ws).exec op).Returns (c'.ledger ws') ∧
        (∀ s, (c.books s).requeued = []) ∧
        (placements c'.history).map Prod.snd = (placements c.history).map Prod.snd ++ op.placed

/-- A step that keeps the writes and the books. -/
lemma ledgerStep_same (ws' : List Write) (hopen : c'.client.closed = false)
    (hB : c'.books = c.books)
    (hw : c'.client.sent.flatMap StorageHelper.writes ++ ws' =
      c.client.sent.flatMap StorageHelper.writes ++ ws)
    (hr : Reporting c.books c'.stack ws') (hp : placements c'.history = placements c.history) :
    LedgerStep c ws none c' := by
  refine ⟨ws', ⟨hopen, hB ▸ hr⟩, ⟨hw, fun s => ?_⟩, hp⟩
  show (c.books s).Alike (c'.books s)
  rw [hB]
  exact .refl _

/-- A task that has nothing to write is replaced by others of this kind. -/
lemma ledgerStep_idle {f : Task} {cl : Client} (h : Flowing c ws) (hk : c.stack = f :: k)
    (hf : ¬ f.Sends) (hr : ∀ s, f ≠ .requeued s) (hk₁ : ∀ g ∈ k₁, g.Idle)
    (hcl : cl.closed = c.client.closed ∧ cl.sent = c.client.sent)
    (hB : e.matching.bookFor = c.books) (hev : placements evs = []) :
    LedgerStep c ws none ⟨e, cl, k₁ ++ k, c.history ++ evs⟩ := by
  obtain ⟨rfl, hidle, hreq⟩ := h.top hk hf hr
  exact ledgerStep_same [] (hcl.1.trans h.opened) hB (by rw [hcl.2])
    (.idle (List.forall_mem_append.2 ⟨hk₁, hidle⟩) hreq) (by simp [hev])

/-- A task that sends its report is replaced by others that make the same writes. -/
lemma ledgerStep_sends {f : Task} {cl : Client} (h : Flowing c ws) (hk : c.stack = f :: k)
    (hf : f.Sends) (hk₁ : ∀ g ∈ k₁, g.Sends) (hopen : cl.closed = c.client.closed)
    (hw : cl.sent.flatMap StorageHelper.writes ++ k₁.flatMap Task.writes
      = c.client.sent.flatMap StorageHelper.writes ++ f.writes) :
    LedgerStep c ws none ⟨c.engine, cl, k₁ ++ k, c.history ++ []⟩ := by
  obtain ⟨ws', rfl, hrep⟩ := h.pop hk hf
  refine ledgerStep_same _ (hopen.trans h.opened) rfl ?_ (hrep.append k₁ hk₁) (by simp)
  rw [← List.append_assoc, hw, List.append_assoc]

/-- The re-queued orders of a book become reports. -/
lemma requeued_ledger {symbol : Symbol} (h : Flowing c ws) (hk : c.stack = .requeued symbol :: k) :
    LedgerStep c ws none ⟨{ c.engine with matching := (c.engine.matching.takeRequeued symbol).1 },
      c.client, ((c.engine.matching.takeRequeued symbol).2.map fun o =>
        Task.send (StorageClient.reportRest symbol o) .ignored) ++ k, c.history ++ []⟩ := by
  have hrep := h.reporting
  rw [hk] at hrep
  obtain ⟨hidle, hreq, rfl⟩ : (∀ f ∈ k, f.Idle) ∧
      (∀ s, s ≠ symbol → (c.books s).requeued = []) ∧
      ws = restWrites symbol (c.books symbol).requeued := by
    cases hrep with
    | idle hk _ => exact absurd rfl ((hk (.requeued symbol) (by simp)).2 symbol)
    | requeued _ hk hB => exact ⟨hk, hB, rfl⟩
    | task hf _ => exact absurd hf id
  obtain ⟨hB, hl⟩ := c.engine.matching.bookFor_takeRequeued symbol
  have hnone : ∀ s, ((c.engine.matching.takeRequeued symbol).1.bookFor s).requeued = [] := by
    intro s
    rw [hB, Function.update_apply]
    split_ifs with hs
    · rfl
    · exact hreq s hs
  have hwr : (((c.books symbol).requeued.map fun o =>
      Task.send (StorageClient.reportRest symbol o) .ignored).flatMap Task.writes)
        = restWrites symbol (c.books symbol).requeued := by
    rw [List.flatMap_map]
    simp [Task.writes, restWrites, List.map_eq_flatMap]
  have hnew := (Reporting.idle hidle hnone).append ((c.books symbol).requeued.map fun o =>
    Task.send (StorageClient.reportRest symbol o) .ignored) fun f hf => by
      obtain ⟨o, -, rfl⟩ := List.mem_map.1 hf
      trivial
  rw [hwr, List.append_nil] at hnew
  rw [hl, List.append_nil]
  refine ⟨_, ⟨h.opened, hnew⟩, ⟨rfl, fun s => ?_⟩, rfl⟩
  show (c.books s).Alike ((c.engine.matching.takeRequeued symbol).1.bookFor s)
  rw [hB, Function.update_apply]
  split_ifs with hs
  · subst hs
    exact ⟨_, [], rfl⟩
  · exact .refl _

/-! ### Callbacks -/

/-- A position is seeded in a book. -/
lemma position_ledger {symbol : Symbol} {client : ClientId} {reply : Option HelperMessage}
    (h : Flowing c ws) (hk : c.stack = .deliver (.position symbol client) reply :: k) :
    LedgerStep c ws none
      ⟨(c.engine.onPosition symbol client (reply.map StorageClient.pulledNet)).1, c.client,
        [.drain] ++ k, c.history ++ []⟩ := by
  obtain ⟨rfl, hidle, hreq⟩ := h.top hk id (by simp)
  set B := (c.engine.onPosition symbol client
    (reply.map StorageClient.pulledNet)).1.matching.bookFor with hBdef
  have halike : ∀ s, (c.books s).Alike (B s) ∧ (B s).requeued = (c.books s).requeued := by
    intro s
    cases reply with
    | none => exact ⟨.refl _, rfl⟩
    | some msg =>
      have hB : B = Function.update c.books symbol
          ((c.books symbol).seedPosition client (StorageClient.pulledNet msg)) :=
        Matching.bookFor_setBook _ _ _
      rw [hB, Function.update_apply]
      split_ifs with hs
      · subst hs
        unfold Book.seedPosition
        split_ifs
        · exact ⟨.refl _, rfl⟩
        · exact ⟨⟨_, _, rfl⟩, rfl⟩
      · exact ⟨.refl _, rfl⟩
  rw [List.append_nil]
  refine ⟨[], ⟨h.opened, .idle (fun g hg => ?_) fun s => ?_⟩, ⟨rfl, fun s => (halike s).1⟩, rfl⟩
  · rcases List.mem_cons.1 hg with rfl | hg
    · exact ⟨rfl, by simp⟩
    · exact hidle g hg
  · exact (halike s).2.trans (hreq s)

/-- What a loop over pulled orders does to the books. -/
lemma books_pullOne_foldl (symbol : Symbol) (side : Side) (orders : List PulledOrder) (e : Engine) :
    (orders.foldl (Engine.pullOne symbol side) e).matching.bookFor
      = Function.update e.matching.bookFor symbol
        ((orders.filter (·.id ∉ e.pullIgnore)).foldl (Ledger.materialise side)
          (e.matching.bookFor symbol)) ∧
      (orders.foldl (Engine.pullOne symbol side) e).pullIgnore = e.pullIgnore := by
  induction orders generalizing e with
  | nil => simp
  | cons po orders ih =>
    obtain ⟨hB, hi⟩ := ih (Engine.pullOne symbol side e po)
    rw [List.foldl_cons, hB, hi]
    have hone : (Engine.pullOne symbol side e po).pullIgnore = e.pullIgnore := by
      unfold Engine.pullOne
      split_ifs <;> rfl
    refine ⟨?_, hone⟩
    rw [hone]
    by_cases hig : po.id ∈ e.pullIgnore
    · have hsame : Engine.pullOne symbol side e po = e := if_pos hig
      rw [hsame, List.filter_cons_of_neg (by simpa using hig)]
    · rw [List.filter_cons_of_pos (by simpa using hig), List.foldl_cons]
      have hbook : (Engine.pullOne symbol side e po).matching.bookFor = Function.update
          e.matching.bookFor symbol (Ledger.materialise side (e.matching.bookFor symbol) po) := by
        unfold Engine.pullOne Ledger.materialise
        rw [if_neg hig, Matching.find_eq]
        split_ifs
        · rw [Function.update_eq_self]
        · exact Matching.bookFor_setBook _ _ _
      rw [hbook, Function.update_idem, Function.update_self]

lemma requeued_materialise (side : Side) (orders : List PulledOrder) (b : Book) :
    (orders.foldl (Ledger.materialise side) b).requeued = b.requeued := by
  induction orders generalizing b with
  | nil => rfl
  | cons po orders ih =>
    rw [List.foldl_cons, ih]
    unfold Ledger.materialise Book.insertResident
    split_ifs
    · rfl
    · simp [Book.place_keeps]

/-- A level pull completes. -/
lemma pull_ledger {symbol : Symbol} {side : Side} {reply : Option HelperMessage}
    {orders : List PulledOrder} (h : Flowing c ws)
    (hk : c.stack = .deliver (.pull symbol side) reply :: k) :
    LedgerStep c ws (some (.pull symbol side (orders.filter (·.id ∉ c.engine.pullIgnore))))
      ⟨(c.engine.onPull symbol side orders).1, c.client,
        (c.engine.onPull symbol side orders).2 ++ k, c.history ++ []⟩ := by
  obtain ⟨rfl, hidle, hreq⟩ := h.top hk id (by simp)
  have hB : (c.engine.onPull symbol side orders).1.matching.bookFor = Function.update c.books symbol
      ((orders.filter (·.id ∉ c.engine.pullIgnore)).foldl (Ledger.materialise side)
        (c.books symbol)) := by
    rw [books, ← (books_pullOne_foldl symbol side orders c.engine).1]
    simp only [Engine.onPull]
    split_ifs <;> rfl
  have hnone : ∀ s, ((c.engine.onPull symbol side orders).1.matching.bookFor s).requeued = [] := by
    intro s
    rw [hB, Function.update_apply]
    split_ifs
    · rw [requeued_materialise, hreq]
    · exact hreq s
  rw [List.append_nil]
  refine ⟨[], ⟨h.opened, .idle (List.forall_mem_append.2 ⟨?_, hidle⟩) hnone⟩, ?_, hreq,
    (List.append_nil _).symm⟩
  · rcases tasks_onPull c.engine symbol side orders with ht | ht <;>
      simp [ht, Task.Idle, Task.writes]
  · rw [Ledger.exec, Comp.returns_pure]
    exact Ledger.ext hB.symm rfl

/-! ### Operations -/

/-- A book changes, and the reports of the change are put on the stack. -/
lemma ledgerStep_record {f : Task} {op : Ledger.Op} (symbol : Symbol) (b : Book)
    (k₁ k₂ : List Task) (h : Flowing c ws) (hk : c.stack = f :: k) (hf : ¬ f.Sends)
    (hr : ∀ s, f ≠ .requeued s) (hk' : c'.stack = k₁ ++ .requeued symbol :: (k₂ ++ k))
    (hk₁ : ∀ g ∈ k₁, g.Sends) (hk₂ : ∀ g ∈ k₂, g.Idle) (hopen : c'.client = c.client)
    (hB : c'.books = Function.update c.books symbol b)
    (hop : ((c.ledger ws).exec op).Returns
      ((c.ledger ws).record symbol b (k₁.flatMap Task.writes)))
    (hp : (placements c'.history).map Prod.snd = (placements c.history).map Prod.snd ++ op.placed) :
    LedgerStep c ws (some op) c' := by
  obtain ⟨rfl, hidle, hreq⟩ := h.top hk hf hr
  have hself : c'.books symbol = b := by rw [hB, Function.update_self]
  refine ⟨k₁.flatMap Task.writes ++ restWrites symbol b.requeued, ⟨hopen ▸ h.opened, ?_⟩, ?_,
    hreq, hp⟩
  · rw [hk', ← hself]
    refine Reporting.append (.requeued symbol (List.forall_mem_append.2 ⟨hk₂, hidle⟩)
      fun s hs => ?_) k₁ hk₁
    rw [hB, Function.update_of_ne hs]
    exact hreq s
  · have hled : c'.ledger (k₁.flatMap Task.writes ++ restWrites symbol b.requeued)
        = (c.ledger []).record symbol b (k₁.flatMap Task.writes) := by
      refine Ledger.ext hB ?_
      show c'.client.sent.flatMap _ ++ _ = (c.client.sent.flatMap _ ++ []) ++ _
      rw [hopen, List.append_nil]
    rw [hled]
    exact hop

lemma writes_reportTrades (symbol : Symbol) (trades : List Trade) :
    (Engine.reportTrades symbol trades).flatMap Task.writes = [] := by
  rw [Engine.reportTrades, List.flatMap_map]
  simp [Task.writes]

lemma sends_reportTrades (symbol : Symbol) (trades : List Trade) :
    ∀ g ∈ Engine.reportTrades symbol trades, g.Sends := by
  intro g hg
  obtain ⟨t, -, rfl⟩ := List.mem_map.1 hg
  trivial

lemma writes_reportAuction (symbol : Symbol) (trades : List Trade) :
    (Engine.reportAuction symbol trades).flatMap Task.writes = auctionWrites trades := by
  rw [Engine.reportAuction, List.flatMap_append, writes_reportTrades]
  simp [Task.writes, auctionWrites]

/-- The reports that `drain` makes for an order, but for the re-queued ones. -/
def placeTasks (p : Pending) (out : SubmitOutcome) : List Task :=
  (if Engine.rests out = true then [.send (StorageClient.reportRest p.symbol out.resting) .ignored]
    else []) ++ Engine.reportResults p.symbol p.order out

/-- What `drain` does after the reports of an order. -/
def doneTasks (seq : ℕ) (p : Pending) (out : SubmitOutcome) : List Task :=
  [.prune p.symbol out.trades,
   .user (some (seq, { storageOk := true, orderId := p.order.id, orderUuid := p.orderUuid,
                       outcome := out })), .drain]

lemma afterPlace_append (seq : ℕ) (p : Pending) (out : SubmitOutcome) (k : List Task) :
    Engine.afterPlace seq p out ++ k
      = placeTasks p out ++ .requeued p.symbol :: (doneTasks seq p out ++ k) := by
  simp [Engine.afterPlace, placeTasks, doneTasks]

lemma writes_placeTasks (p : Pending) (out : SubmitOutcome) :
    (placeTasks p out).flatMap Task.writes = placeWrites p.symbol p.order out := by
  unfold placeTasks Engine.reportResults Engine.reportTaker placeWrites
  simp only [List.flatMap_append, writes_reportTrades, List.nil_append]
  split_ifs <;> simp [Task.writes, restWrites, fillWrites]

lemma sends_placeTasks (p : Pending) (out : SubmitOutcome) : ∀ g ∈ placeTasks p out, g.Sends := by
  intro g hg
  unfold placeTasks Engine.reportResults Engine.reportTaker at hg
  simp only [List.mem_append, List.mem_singleton] at hg
  rcases hg with hg | (hg | hg) | rfl
  · split_ifs at hg
    · exact List.mem_singleton.1 hg ▸ trivial
    · exact absurd hg List.not_mem_nil
  · exact sends_reportTrades _ _ g hg
  · split_ifs at hg
    · exact List.mem_singleton.1 hg ▸ trivial
    · exact absurd hg List.not_mem_nil
  · trivial

lemma ensureDepth_idle (e : Engine) (symbol : Symbol) (o : Order) :
    (e.ensureDepth symbol o).1.matching = e.matching ∧
      ∀ g ∈ (e.ensureDepth symbol o).2.2, g.Idle := by
  unfold Engine.ensureDepth
  split_ifs <;> simp [Task.Idle, Task.writes]

lemma matching_prune (symbol : Symbol) (trades : List Trade) (e : Engine) :
    (trades.foldl (Engine.pruneOne symbol) e).matching = e.matching := by
  induction trades generalizing e with
  | nil => rfl
  | cons t trades ih =>
    rw [List.foldl_cons, ih]
    unfold Engine.pruneOne
    split_ifs
    · rfl
    · split <;> rfl

/-! ### Steps -/

/-- What a task does to the ledger. -/
lemma Runs.ledger {a : Act} {f : Task} {cl : Client} (h : Flowing c ws) (hk : c.stack = f :: k)
    (ha : a.opens = true) (hr : Runs c.engine c.client a f e cl k₁ evs) :
    LedgerStep c ws (c.op? a) ⟨e, cl, k₁ ++ k, c.history ++ evs⟩ := by
  have hack : ∀ reply, (c.client.acknowledge reply).closed = c.client.closed ∧
      (c.client.acknowledge reply).sent = c.client.sent := by
    intro reply
    unfold Client.acknowledge
    (repeat' split) <;> exact ⟨rfl, rfl⟩
  cases hr with
  | submit symbol owner order uuid =>
    simp only [op?, hk]
    obtain ⟨p, l, pull, hpulls, -, -, -, -, hmat, -, htasks⟩ :=
      submit_spec c.engine symbol owner order uuid
    refine ledgerStep_idle h hk id (by simp) ?_ ⟨rfl, rfl⟩ (congrArg Matching.bookFor hmat) rfl
    rw [htasks]
    rcases hpulls.eq_send with rfl | rfl <;> simp [Task.Idle, Task.writes]
  | @cancel uuid requester x hx =>
    simp only [op?, hk, hx]
    refine ledgerStep_record x.symbol ((c.books x.symbol).cancel x.id).1
      [.send (StorageClient.reportCancel x.symbol x.id) .ignored] [.forget uuid x.id] h hk id
      (by simp) rfl (by simp [Task.Sends]) (by simp [Task.Idle, Task.writes]) rfl
      (Matching.bookFor_cancel c.engine.matching x.symbol x.id) ?_
      (by simp [placements, Event.placement?, Ledger.Op.placed])
    rw [Ledger.exec, Comp.returns_pure]
    simp [Task.writes, Config.ledger]
  | @decline uuid requester r hx hno =>
    have hop : c.op? .run = none := by
      simp only [op?, hk, hx]
    rw [hop]
    exact ledgerStep_idle h hk id (by simp) (by simp) ⟨rfl, rfl⟩ rfl rfl
  | @auction symbol opening r hx =>
    simp only [op?, hk]
    obtain ⟨r', hr', hrr⟩ := Comp.returns_bind.1 hx
    obtain rfl := Comp.returns_pure.1 hrr
    refine ledgerStep_record symbol r'.1 (Engine.reportAuction symbol r'.2) [.user none] h hk id
      (by simp) (by simp) (List.forall_mem_append.2 ⟨sends_reportTrades _ _, by simp [Task.Sends]⟩)
      (by simp [Task.Idle, Task.writes]) rfl (Matching.bookFor_setBook _ _ _) ?_
      (by simp [placements, Event.placement?, Ledger.Op.placed])
    rw [writes_reportAuction, Ledger.exec]
    exact Comp.returns_bind.2 ⟨r', hr', Comp.returns_pure.2 rfl⟩
  | report kind req resp =>
    simp only [op?, hk]
    exact ledgerStep_sends h hk trivial (by simp [Task.Sends]) rfl (by simp [Task.writes])
  | stash id kind =>
    simp only [op?, hk]
    have hcl : (c.client.stash id kind).closed = c.client.closed ∧
        (c.client.stash id kind).sent = c.client.sent := by
      unfold Client.stash
      split_ifs <;> exact ⟨rfl, rfl⟩
    exact ledgerStep_sends h hk trivial (by simp) hcl.1 (by simp [hcl.2, Task.writes])
  | refuse _ hclosed => exact absurd hclosed (by simp [h.opened])
  | transmit _ =>
    simp only [op?, hk]
    exact ledgerStep_sends h hk trivial (by simp) rfl
      (by simp [Client.transmit, Task.writes, StorageClient.writes_of_request])
  | breaks _ _ => exact absurd ha (by simp [Act.opens])
  | answered seq reply =>
    simp only [op?, hk]
    unfold Engine.onOrder
    cases c.engine.pending.lookup seq <;>
      exact ledgerStep_idle h hk id (by simp) (by simp [Task.Idle, Task.writes]) (hack reply) rfl
        rfl
  | seeded symbol client reply =>
    simp only [op?, hk]
    exact position_ledger h hk
  | pulled symbol side reply =>
    simp only [op?, hk]
    exact pull_ledger h hk
  | reported reply =>
    simp only [op?, hk]
    refine ledgerStep_idle h hk id (by simp) (by simp) (hack reply) ?_ rfl
    unfold Engine.onReport
    split_ifs <;> rfl
  | leave hp =>
    simp only [op?, hk, hp]
    exact ledgerStep_idle h hk id (by simp) (by simp) ⟨rfl, rfl⟩ rfl rfl
  | @deepen p hp hd =>
    simp only [op?, hk, hp, hd, Bool.false_eq_true, false_and, if_false]
    obtain ⟨hmat, hidle⟩ := ensureDepth_idle c.engine p.symbol p.order
    exact ledgerStep_idle h hk id (by simp) hidle ⟨rfl, rfl⟩ (congrArg Matching.bookFor hmat) rfl
  | @place p r hp hd hok hr =>
    simp only [op?, hk, hp, hd, hok, and_self, if_true]
    obtain ⟨r', hr', hrr⟩ := Comp.returns_bind.1 hr
    obtain rfl := Comp.returns_pure.1 hrr
    refine ledgerStep_record p.symbol r'.1 (placeTasks p r'.2)
      (doneTasks c.engine.nextPlaceSeq p r'.2) h hk id (by simp)
      (afterPlace_append c.engine.nextPlaceSeq p r'.2 k) (sends_placeTasks p r'.2)
      (by simp [doneTasks, Task.Idle, Task.writes]) rfl ?_ ?_
      (by simp [placements, Event.placement?, Ledger.Op.placed])
    · refine Eq.trans ?_ (c.engine.matching.bookFor_setBook p.symbol r'.1)
      dsimp only [books]
      split_ifs <;> rfl
    · rw [writes_placeTasks, Ledger.exec]
      exact Comp.returns_bind.2 ⟨r', hr', Comp.returns_pure.2 rfl⟩
  | drop hp hok =>
    simp only [op?, hk, hp, hok, Bool.false_eq_true, and_false, if_false]
    exact ledgerStep_idle h hk id (by simp) (by simp [Task.Idle, Task.writes]) ⟨rfl, rfl⟩ rfl rfl
  | filled symbol | fill symbol id qty rest =>
    simp only [op?, hk]
    exact ledgerStep_sends h hk trivial (by simp [Task.Sends]) rfl
      (by simp [Task.writes, fillWrites])
  | requeued symbol =>
    simp only [op?, hk]
    exact requeued_ledger h hk
  | prune symbol trades =>
    simp only [op?, hk]
    exact ledgerStep_idle h hk id (by simp) (by simp) ⟨rfl, rfl⟩
      (congrArg Matching.bookFor (matching_prune symbol trades c.engine)) rfl
  | user done calls =>
    refine ledgerStep_idle h hk id (by simp) (fun g hg => ?_) ⟨rfl, rfl⟩ rfl ?_
    · obtain ⟨x, -, rfl⟩ := List.mem_map.1 hg
      exact ⟨rfl, by simp⟩
    · cases done <;> rfl
  | _ =>
    simp only [op?, hk]
    exact ledgerStep_idle h hk id (by simp) (by simp [Task.Idle, Task.writes]) ⟨rfl, rfl⟩ rfl rfl

/-- An action that does not apply is no operation. -/
lemma op?_of_idle {a : Act} (h : a = .run → c.stack = [] ∨ ∃ done k, c.stack = .user done :: k) :
    c.op? a = none := by
  cases a with
  | run => rcases h rfl with hk | ⟨done, k, hk⟩ <;> simp [op?, hk]
  | _ => rfl

/-- Every step of the engine, as long as its connection is open, is a step of the ledger. -/
theorem step_ledger {a : Act} (h : Flowing c ws) (ha : a.opens = true)
    (hc' : (c.step a).Returns c') : LedgerStep c ws (c.op? a) c' := by
  cases step_turn hc' with
  | stay hidle =>
    rw [op?_of_idle hidle]
    exact ledgerStep_same _ h.opened rfl rfl h.reporting rfl
  | wake hk hw =>
    -- in the event loop nothing is left to be reported
    obtain ⟨rfl, hreq⟩ : ws = [] ∧ ∀ s, (c.books s).requeued = [] := by
      have hrep := h.reporting
      rw [hk] at hrep
      cases hrep with
      | idle _ hB => exact ⟨rfl, hB⟩
    cases hw with
    | close _ _ => exact absurd ha (by simp [Act.opens])
    | _ =>
      exact ledgerStep_same _ h.opened rfl rfl (.idle (by simp [Task.Idle, Task.writes]) hreq) rfl
  | run hk hr => exact hr.ledger h hk ha

end Config

end Codicis
