/-
The engine makes only steps of the staging queue.

A callback that is still to run is a task of the call stack or belongs to a request in
flight.  `Config.staging` collects them; `step_staging` shows that every step of the
engine, with any action of its environment, is a step of `Engine/Staging.lean`.
-/
import Codicis.Engine.Staging
import Codicis.Engine.Turn

namespace Codicis

/-- The callback concerns an order report or a position pull. -/
def Resp.tracked : Resp → Bool
  | order _ => true
  | position _ _ => true
  | _ => false

/-- The callback that a task leads to. -/
def Task.resp? : Task → Option Resp
  | report _ _ resp => some resp
  | send _ resp => some resp
  | deliver resp _ => some resp
  | _ => none

/-- The order that a task stages. -/
def Task.staged? : Task → Option (ℕ × Pending)
  | emplace seq p => some (seq, p)
  | _ => none

/-- The completion callback that a task runs. -/
def Task.done? : Task → Option (ℕ × Result)
  | user done => done
  | _ => none

/-- The tracked callbacks of a stack. -/
def awaitedIn (k : List Task) : List Resp := (k.filterMap Task.resp?).filter Resp.tracked

/-- The tracked callbacks of a stack and of the requests in flight. -/
def awaitedWith (k : List Task) (cl : Client) : List Resp :=
  awaitedIn k ++ cl.pending.values.filter Resp.tracked

/-- The part of the engine that the staging queue is about. -/
structure Core where
  memLevels : ℕ
  pending : Map ℕ Pending
  nextAssignSeq : ℕ
  nextPlaceSeq : ℕ
  positionLoading : List (Symbol × ClientId)
  positionLoaded : List (Symbol × ClientId)

/-- The part of the engine that the staging queue is about. -/
def Engine.core (e : Engine) : Core :=
  ⟨e.memLevels, e.pending, e.nextAssignSeq, e.nextPlaceSeq, e.positionLoading, e.positionLoaded⟩

namespace Config

/-- The callbacks of order reports and position pulls that are still to run. -/
def awaited (c : Config) : List Resp := awaitedWith c.stack c.client

/-- The staging queue of a configuration. -/
def staging (c : Config) : Staging where
  memLevels := c.engine.memLevels
  queue := c.engine.pending
  nextAssign := c.engine.nextAssignSeq
  nextPlace := c.engine.nextPlaceSeq
  loading := c.engine.positionLoading
  loaded := c.engine.positionLoaded
  awaited := c.awaited
  incoming := c.stack.filterMap Task.staged?
  finishing := c.stack.filterMap Task.done?
  draining := Task.drain ∈ c.stack
  history := c.history

/-- The requests in flight have earlier ids than the next one. -/
def ClientOk (c : Config) : Prop := ∀ id ∈ c.client.pending.keys, id < c.client.nextReqId

/-- A step that does not concern the queue. -/
lemma move_aside {c c' : Config} (he : c'.engine.core = c.engine.core)
    (ha : c.awaited.Perm c'.awaited)
    (hi : c'.stack.filterMap Task.staged? = c.stack.filterMap Task.staged?)
    (hf : c'.stack.filterMap Task.done? = c.stack.filterMap Task.done?)
    (hd : Task.drain ∈ c.stack → Task.drain ∈ c'.stack) {evs : List Event}
    (hh : c'.history = c.history ++ evs) (hev : ∀ ev ∈ evs, ev.Aside) :
    Staging.Move c.staging c'.staging := by
  have heq : c'.staging = { c.staging with
      awaited := c'.awaited, draining := Task.drain ∈ c'.stack, history := c.history ++ evs } := by
    simp only [Engine.core, Core.mk.injEq] at he
    obtain ⟨h1, h2, h3, h4, h5, h6⟩ := he
    simp only [staging, h1, h2, h3, h4, h5, h6, hi, hf, hh]
  rw [heq]
  exact .aside ha hd hev

/-! ### Counting callbacks -/

@[simp] lemma awaitedIn_nil : awaitedIn [] = [] := rfl

lemma awaitedIn_cons (f : Task) (k : List Task) :
    awaitedIn (f :: k) = (f.resp?.toList.filter Resp.tracked) ++ awaitedIn k := by
  unfold awaitedIn
  cases h : f.resp? with
  | none => simp [h]
  | some r => simp [h, List.filter_cons]; split_ifs <;> rfl

@[simp] lemma awaitedIn_append (k k' : List Task) :
    awaitedIn (k ++ k') = awaitedIn k ++ awaitedIn k' := by
  simp [awaitedIn]

section Failures

variable {cl : Client} {ids : List ℕ}

/-- A close turns the requests in flight into callbacks on the stack. -/
lemma awaitedWith_close (h : ids.Perm cl.pending.keys) (k : List Task) :
    (awaitedWith k cl).Perm (awaitedWith (cl.failures ids ++ k) cl.shut) := by
  have hresp : (cl.failures ids).filterMap Task.resp?
      = ids.filterMap fun id => cl.pending.lookup id := by
    rw [Client.failures, List.filterMap_map]
    exact List.filterMap_some
  have hfail : (awaitedIn (cl.failures ids)).Perm (cl.pending.values.filter Resp.tracked) := by
    rw [awaitedIn, hresp]
    exact (Map.filterMap_lookup_perm h).filter _
  have hshut : awaitedWith (cl.failures ids ++ k) cl.shut
      = awaitedIn (cl.failures ids) ++ awaitedIn k := by
    rw [awaitedWith, awaitedIn_append]
    exact List.append_nil _
  rw [hshut, awaitedWith]
  exact List.perm_append_comm.trans (hfail.symm.append_right _)

/-- A request that is handed to the connection is in flight. -/
lemma awaitedWith_transmit (h : cl.pending.lookup cl.nextReqId = none) (req : Request)
    (resp : Resp) (k : List Task) :
    (awaitedWith (.send req resp :: k) cl).Perm (awaitedWith k (cl.transmit req resp)) := by
  have hin : ([resp].filter Resp.tracked ++ cl.pending.values.filter Resp.tracked).Perm
      ((cl.transmit req resp).pending.values.filter Resp.tracked) := by
    rw [← List.filter_append]
    exact ((Map.values_insert_perm h resp).filter _).symm
  rw [awaitedWith, awaitedIn_cons, List.append_assoc]
  exact (List.perm_append_comm_assoc _ _ _).trans (hin.append_left _)

/-- A request that is settled is a callback on the stack. -/
lemma awaitedWith_settle {id : ℕ} {resp : Resp} (h : cl.pending.lookup id = some resp)
    (reply : Option HelperMessage) (k : List Task) :
    (awaitedWith k cl).Perm (awaitedWith (.deliver resp reply :: k) (cl.settle id)) := by
  have hin : (cl.pending.values.filter Resp.tracked).Perm
      ([resp].filter Resp.tracked ++ (cl.settle id).pending.values.filter Resp.tracked) := by
    rw [← List.filter_append]
    exact (Map.values_erase_perm h).filter _
  rw [awaitedWith, awaitedWith, awaitedIn_cons, List.append_assoc]
  exact (hin.append_left _).trans (List.perm_append_comm_assoc _ _ _)

lemma mem_failures {f : Task} (h : f ∈ cl.failures ids) : ∃ resp, f = .deliver resp none := by
  obtain ⟨resp, -, rfl⟩ := List.mem_map.1 h
  exact ⟨resp, rfl⟩

lemma staged_failures : (cl.failures ids).filterMap Task.staged? = [] := by
  simp [Client.failures, List.filterMap_map, Function.comp_def, Task.staged?]

lemma done_failures : (cl.failures ids).filterMap Task.done? = [] := by
  simp [Client.failures, List.filterMap_map, Function.comp_def, Task.done?]

end Failures

lemma ClientOk.lookup_next {c : Config} (hc : ClientOk c) :
    c.client.pending.lookup c.client.nextReqId = none := by
  by_contra h
  obtain ⟨r, hr⟩ := Option.ne_none_iff_exists'.1 h
  have := hc _ (AList.mem_keys.1 (Map.mem_iff_lookup.2 ⟨r, hr⟩))
  omega

/-! ### Tasks that do not concern the queue -/

/-- Tasks that neither stage an order nor complete one, nor lead to a tracked callback. -/
structure Calm (k : List Task) : Prop where
  staged : k.filterMap Task.staged? = []
  done : k.filterMap Task.done? = []
  awaited : awaitedIn k = []

lemma Calm.append {k k' : List Task} (h : Calm k) (h' : Calm k') : Calm (k ++ k') where
  staged := by rw [List.filterMap_append, h.staged, h'.staged, List.append_nil]
  done := by rw [List.filterMap_append, h.done, h'.done, List.append_nil]
  awaited := by rw [awaitedIn_append, h.awaited, h'.awaited, List.append_nil]

lemma calm_map {α : Type} {g : α → Task} (h : ∀ x, Calm [g x]) (l : List α) :
    Calm (l.map g) := by
  induction l with
  | nil => exact ⟨rfl, rfl, rfl⟩
  | cons x l ih => exact (h x).append ih

lemma calm_reportTrades (symbol : Symbol) (trades : List Trade) :
    Calm (Engine.reportTrades symbol trades) := calm_map (fun _ => ⟨rfl, rfl, rfl⟩) trades

lemma calm_reportResults (symbol : Symbol) (taker : Order) (out : SubmitOutcome) :
    Calm (Engine.reportResults symbol taker out) := by
  refine ((calm_reportTrades symbol _).append ?_).append ⟨rfl, rfl, rfl⟩
  unfold Engine.reportTaker
  split_ifs <;> exact ⟨rfl, rfl, rfl⟩

lemma calm_reportAuction (symbol : Symbol) (trades : List Trade) :
    Calm (Engine.reportAuction symbol trades) :=
  (calm_reportTrades symbol trades).append ⟨rfl, rfl, rfl⟩

/-- A placement leaves tasks that do not concern the queue, and completes the order. -/
lemma afterPlace_eq (seq : ℕ) (p : Pending) (out : SubmitOutcome) :
    ∃ k, Calm k ∧ Engine.afterPlace seq p out = k ++ [.user (some (seq,
      { storageOk := true, orderId := p.order.id, orderUuid := p.orderUuid, outcome := out })),
      .drain] := by
  unfold Engine.afterPlace
  refine ⟨_ ++ Engine.reportResults p.symbol p.order out ++
    [.requeued p.symbol, .prune p.symbol out.trades], (Calm.append ?_
      (calm_reportResults p.symbol p.order out)).append ⟨rfl, rfl, rfl⟩,
    (List.append_assoc _ [_, _] _).symm⟩
  split_ifs <;> exact ⟨rfl, rfl, rfl⟩

lemma ensureDepth_spec (e : Engine) (symbol : Symbol) (o : Order) :
    (e.ensureDepth symbol o).1.core = e.core ∧ Calm (e.ensureDepth symbol o).2.2 ∧
      (e.memLevels = 0 → e.ensureDepth symbol o = (e, true, [])) ∧
      ((e.ensureDepth symbol o).2.1 = true → e.ensureDepth symbol o = (e, true, [])) := by
  unfold Engine.ensureDepth
  split_ifs with h <;> refine ⟨rfl, ⟨rfl, rfl, rfl⟩, fun h0 => ?_, fun ht => ?_⟩ <;>
    first | rfl | exact absurd h0 h | exact ht.elim

/-! ### The tasks, one by one -/

section Tasks

variable {c : Config} {k k₁ : List Task} {f : Task} {e : Engine} {cl : Client}
  {evs : List Event}

/-- A task is replaced by others that do the same to the queue. -/
lemma move_swap (hk : c.stack = f :: k) (he : e.core = c.engine.core)
    (hs : k₁.filterMap Task.staged? = [f].filterMap Task.staged?)
    (hd : k₁.filterMap Task.done? = [f].filterMap Task.done?) (hf : f ≠ .drain)
    (ha : (awaitedWith (f :: k) c.client).Perm (awaitedWith (k₁ ++ k) cl))
    (hev : ∀ ev ∈ evs, ev.Aside) :
    Staging.Move c.staging (staging ⟨e, cl, k₁ ++ k, c.history ++ evs⟩) := by
  refine move_aside he ?_ ?_ ?_ (fun h => ?_) rfl hev
  · rw [awaited, hk]
    exact ha
  · rw [hk, List.filterMap_append, hs, ← List.filterMap_append]
    rfl
  · rw [hk, List.filterMap_append, hd, ← List.filterMap_append]
    rfl
  · rw [hk] at h
    exact List.mem_append_right _ ((List.mem_cons.1 h).resolve_left hf.symm)

/-- A task is replaced by others, and none of them concerns the queue. -/
lemma move_calm (hk : c.stack = f :: k) (he : e.core = c.engine.core)
    (hcl : cl.pending = c.client.pending) (hf : Calm [f]) (hfd : f ≠ .drain) (h₁ : Calm k₁)
    (hev : ∀ ev ∈ evs, ev.Aside) :
    Staging.Move c.staging (staging ⟨e, cl, k₁ ++ k, c.history ++ evs⟩) := by
  refine move_swap hk he (h₁.staged.trans hf.staged.symm) (h₁.done.trans hf.done.symm) hfd
    (.of_eq ?_) hev
  have hfk : awaitedIn (f :: k) = awaitedIn k := by
    rw [show f :: k = [f] ++ k from rfl, awaitedIn_append, hf.awaited, List.nil_append]
  rw [awaitedWith, awaitedWith, hcl, awaitedIn_append, h₁.awaited, hfk, List.nil_append]

lemma pending_acknowledge (cl : Client) (reply : Option HelperMessage) :
    (cl.acknowledge reply).pending = cl.pending ∧
      (cl.acknowledge reply).nextReqId = cl.nextReqId := by
  unfold Client.acknowledge
  (repeat' split) <;> exact ⟨rfl, rfl⟩

/-- The report of an order is answered. -/
lemma deliver_order_callback {seq : ℕ} {reply : Option HelperMessage}
    (hk : c.stack = .deliver (.order seq) reply :: k) :
    Staging.Callback c.staging (.order seq) reply (c.deliver (.order seq) reply k).staging := by
  have ha : c.staging.awaited.Perm (.order seq :: awaitedWith k c.client) := by
    show (awaitedWith c.stack c.client).Perm _
    rw [awaitedWith, hk, awaitedIn_cons]
    exact List.Perm.refl _
  have hpend := (pending_acknowledge c.client reply).1
  have hdrain : Task.drain ∈ c.stack → Task.drain ∈ k := by
    rw [hk]
    simp
  cases hp : c.engine.pending.lookup seq with
  | none =>
    have heq : (c.deliver (.order seq) reply k).staging = { c.staging with
        awaited := awaitedWith k c.client, queue := c.staging.acked seq reply.isSome,
        draining := Task.drain ∈ k, history := c.history ++ [.answered seq reply] } := by
      simp [staging, deliver, Engine.onOrder, hp, Staging.acked, log, awaited, awaitedWith,
        hpend, hk, Task.staged?, Task.done?, List.filterMap_cons]
    rw [heq]
    exact .answer ha hdrain (by simp [staging, hp])
  | some p =>
    have heq : (c.deliver (.order seq) reply k).staging = { c.staging with
        awaited := awaitedWith k c.client, queue := c.staging.acked seq reply.isSome,
        draining := Task.drain ∈ Task.drain :: k,
        history := c.history ++ [.answered seq reply] } := by
      simp [staging, deliver, Engine.onOrder, hp, Staging.acked, log, awaited, awaitedWith,
        awaitedIn_cons, Task.resp?, hpend, hk, Task.staged?, Task.done?, List.filterMap_cons]
    rw [heq]
    exact .answer ha (fun _ => by simp) (fun _ => by simp)

/-- A position is loaded. -/
lemma deliver_position_callback {symbol : Symbol} {client : ClientId}
    {reply : Option HelperMessage} (hk : c.stack = .deliver (.position symbol client) reply :: k) :
    Staging.Callback c.staging (.position symbol client) reply
      (c.deliver (.position symbol client) reply k).staging := by
  have ha : c.staging.awaited.Perm (.position symbol client :: awaitedWith k c.client) := by
    show (awaitedWith c.stack c.client).Perm _
    rw [awaitedWith, hk, awaitedIn_cons]
    exact List.Perm.refl _
  have heq : (c.deliver (.position symbol client) reply k).staging = { c.staging with
      awaited := awaitedWith k c.client,
      loading := c.staging.loading.filter (· ≠ (symbol, client)),
      loaded := c.staging.loaded.insert (symbol, client),
      queue := Map.mapVal (Engine.markReady symbol client) c.staging.queue,
      draining := Task.drain ∈ Task.drain :: k } := by
    cases reply <;>
      simp [staging, deliver, Engine.onPosition, awaited, awaitedWith, awaitedIn_cons,
        Task.resp?, hk, Task.staged?, Task.done?, List.filterMap_cons]
  rw [heq]
  exact .ready ha (by simp)

lemma core_pullOne (symbol : Symbol) (side : Side) (e : Engine) (po : PulledOrder) :
    (Engine.pullOne symbol side e po).core = e.core := by
  unfold Engine.pullOne
  split_ifs <;> rfl

/-- A loop whose body does not concern the queue. -/
lemma core_foldl {α : Type} {g : Engine → α → Engine} (h : ∀ e x, (g e x).core = e.core)
    (l : List α) (e : Engine) : (l.foldl g e).core = e.core := by
  induction l generalizing e with
  | nil => rfl
  | cons x l ih => exact (ih _).trans (h e x)

lemma core_onPull (e : Engine) (symbol : Symbol) (side : Side) (orders : List PulledOrder) :
    (e.onPull symbol side orders).1.core = e.core := by
  have hfold := core_foldl (core_pullOne symbol side) orders e
  unfold Engine.onPull
  dsimp only
  split_ifs <;> exact hfold

lemma tasks_onPull (e : Engine) (symbol : Symbol) (side : Side) (orders : List PulledOrder) :
    (e.onPull symbol side orders).2 = [.drain] ∨ (e.onPull symbol side orders).2 = [] := by
  unfold Engine.onPull
  dsimp only
  split_ifs
  · exact .inl rfl
  · exact .inr rfl

lemma core_pruneOne (symbol : Symbol) (e : Engine) (t : Trade) :
    (Engine.pruneOne symbol e t).core = e.core := by
  unfold Engine.pruneOne
  (repeat' split) <;> rfl

lemma client_stash (cl : Client) (id : ℕ) (kind : ReportKind) :
    (cl.stash id kind).pending = cl.pending ∧ (cl.stash id kind).nextReqId = cl.nextReqId := by
  unfold Client.stash
  split_ifs <;> exact ⟨rfl, rfl⟩

lemma assign_keeps (e : Engine) (owner : String) (order : Order) :
    (e.assign owner order).1.core
      = ⟨e.memLevels, e.pending, e.nextAssignSeq + 1, e.nextPlaceSeq, e.positionLoading,
          e.positionLoaded⟩ ∧
    (e.assign owner order).1.matching = e.matching := by
  unfold Engine.assign Engine.clientFor
  (repeat' split) <;> exact ⟨rfl, rfl⟩

/-- How a submission waits for the position of its account, with the positions `loaded`, and
the pulls of `loading` in flight. -/
inductive Pulls (loaded loading : List (Symbol × ClientId)) (symbol : Symbol) (owner : String)
    (client : ClientId) : Bool → List (Symbol × ClientId) → List Task → Prop
  | loaded (hl : client = 0 ∨ (symbol, client) ∈ loaded) :
      Pulls loaded loading symbol owner client true loading []
  | loading (hl : (symbol, client) ∈ loading) :
      Pulls loaded loading symbol owner client false loading []
  | pull (hl : (symbol, client) ∉ loaded) (hl' : (symbol, client) ∉ loading) :
      Pulls loaded loading symbol owner client false (loading.insert (symbol, client))
      [.send (StorageClient.pullPosition owner symbol) (.position symbol client)]

/-- At most one request is sent. -/
lemma Pulls.eq_send {loaded loading l : List (Symbol × ClientId)} {symbol : Symbol} {owner : String}
    {client : ClientId} {ready : Bool} {pull : List Task}
    (h : Pulls loaded loading symbol owner client ready l pull) :
    pull = [] ∨
      pull = [.send (StorageClient.pullPosition owner symbol) (.position symbol client)] := by
  cases h
  · exact .inl rfl
  · exact .inl rfl
  · exact .inr rfl

/-- The pull of a position neither stages an order nor runs a callback of the caller. -/
lemma Pulls.plain {loaded loading l : List (Symbol × ClientId)} {symbol : Symbol} {owner : String}
    {client : ClientId} {ready : Bool} {pull : List Task}
    (h : Pulls loaded loading symbol owner client ready l pull) :
    pull.filterMap Task.staged? = [] ∧ pull.filterMap Task.done? = [] := by
  rcases h.eq_send with rfl | rfl <;> exact ⟨rfl, rfl⟩

/-- The pull of a position is awaited. -/
lemma Pulls.awaits {s : Staging} {l : List (Symbol × ClientId)} {owner : String} {p : Pending}
    {pull : List Task}
    (h : Pulls s.loaded s.loading p.symbol owner p.clientId p.posReady l pull) :
    ∃ a, Staging.Awaits s p l a ∧ (awaitedIn pull ++ s.awaited).Perm a := by
  generalize hr : p.posReady = ready at h
  cases h with
  | loaded hl => exact ⟨_, .loaded hr hl, .refl _⟩
  | loading hl => exact ⟨_, .loading hr hl, .refl _⟩
  | pull hl hl' => exact ⟨_, .pull hr hl hl', .refl _⟩

lemma ensurePosition_spec (e : Engine) (symbol : Symbol) (owner : String) (client : ClientId) :
    ∃ l, Pulls e.positionLoaded e.positionLoading symbol owner client
      (e.ensurePosition symbol owner client).2.1 l (e.ensurePosition symbol owner client).2.2 ∧
    (e.ensurePosition symbol owner client).1 = { e with positionLoading := l } := by
  unfold Engine.ensurePosition
  split_ifs with h1 h2 h3
  · exact ⟨_, .loaded (.inl h1), rfl⟩
  · exact ⟨_, .loaded (.inr h2), rfl⟩
  · exact ⟨_, .loading h3, rfl⟩
  · exact ⟨_, .pull h2 h3, rfl⟩

/-- What a submission does to the engine, and what it leaves to do. -/
lemma submit_spec (e : Engine) (symbol : Symbol) (owner : String) (order : Order)
    (uuid : String) : ∃ p l pull,
      Pulls e.positionLoaded e.positionLoading symbol owner p.clientId p.posReady l pull ∧
      p.symbol = symbol ∧ p.acked = false ∧ p.order.clientId = p.clientId ∧
      (e.submit symbol owner order uuid).1.core
        = ⟨e.memLevels, e.pending, e.nextAssignSeq + 1, e.nextPlaceSeq, l, e.positionLoaded⟩ ∧
      (e.submit symbol owner order uuid).1.matching = e.matching ∧
      (e.submit symbol owner order uuid).2.1 = p.order ∧
      (e.submit symbol owner order uuid).2.2 = pull ++ [.emplace e.nextAssignSeq p,
        .report .order (StorageClient.reportOrder symbol owner p.order)
          (.order e.nextAssignSeq)] := by
  obtain ⟨hcore, hmat⟩ := assign_keeps e owner order
  unfold Engine.submit
  dsimp only
  generalize e.assign owner order = a at hcore hmat
  obtain ⟨l, hpulls, heng⟩ := ensurePosition_spec a.1 symbol owner a.2.clientId
  simp only [Engine.core, Core.mk.injEq] at hcore
  obtain ⟨h1, h2, h3, h4, h5, h6⟩ := hcore
  generalize a.1.ensurePosition symbol owner a.2.clientId = r at hpulls heng
  rw [h5, h6] at hpulls
  refine ⟨⟨symbol, owner, uuid, a.2, a.2.clientId, false, false, r.2.1⟩, l, r.2.2, hpulls, rfl,
    rfl, rfl, ?_, ?_, rfl, rfl⟩
  · simp only [heng, Engine.core, h1, h2, h3, h4, h6]
  · simp only [heng, hmat]

/-- An order gets its number. -/
lemma call_submit_move {symbol : Symbol} {owner uuid : String} {order : Order}
    (hk : c.stack = .call (.submit symbol owner order uuid) :: k) :
    Staging.Move c.staging (staging ⟨(c.engine.submit symbol owner order uuid).1, c.client,
      (c.engine.submit symbol owner order uuid).2.2 ++ k, c.history ++ [.submitted
        c.engine.nextAssignSeq symbol (c.engine.submit symbol owner order uuid).2.1]⟩) := by
  obtain ⟨p, l, pull, hpulls, hsym, hack, hcl, hcore, -, hord, htasks⟩ :=
    submit_spec c.engine symbol owner order uuid
  simp only [Engine.core, Core.mk.injEq] at hcore
  obtain ⟨h1, h2, h3, h4, h5, h6⟩ := hcore
  subst hsym
  obtain ⟨a, hw, ha⟩ := Pulls.awaits (s := c.staging) hpulls
  set k' := (c.engine.submit p.symbol owner order uuid).2.2 ++ k with hk'
  have haw : (awaitedWith k' c.client).Perm (.order c.staging.nextAssign :: a) := by
    have hold : c.staging.awaited = awaitedWith k c.client := by
      show awaitedWith c.stack c.client = _
      rw [hk]
      rfl
    have hnew : awaitedWith k' c.client
        = awaitedIn pull ++ .order c.engine.nextAssignSeq :: awaitedWith k c.client := by
      rw [hk', htasks, awaitedWith, awaitedIn_append, awaitedIn_append, List.append_assoc,
        List.append_assoc]
      rfl
    rw [hold] at ha
    rw [hnew]
    exact List.perm_middle.trans (ha.cons _)
  have hinc : k'.filterMap Task.staged? = (c.engine.nextAssignSeq, p) ::
      c.stack.filterMap Task.staged? := by
    rw [hk, hk', htasks, List.filterMap_append, List.filterMap_append, hpulls.plain.1]
    rfl
  have hfin : k'.filterMap Task.done? = c.stack.filterMap Task.done? := by
    rw [hk, hk', htasks, List.filterMap_append, List.filterMap_append, hpulls.plain.2]
    rfl
  have hd : Task.drain ∈ c.stack → Task.drain ∈ k' := by
    intro hd
    rw [hk] at hd
    exact List.mem_append_right _ ((List.mem_cons.1 hd).resolve_left (by simp))
  have hmove := Staging.Move.assign hack hcl hw haw (List.Perm.refl _) hd
  convert hmove using 1
  simp only [staging, hinc, hfin, awaited, hord, h1, h2, h3, h4, h5, h6]

/-- The head is taken off the queue, and its completion callback is to run. -/
lemma take_move {p : Pending} {r : Result} (hk : c.stack = .drain :: k)
    (hp : c.engine.head? = some p) (he : e.core = c.engine.takeHead.core) (h₁ : Calm k₁)
    (hr : Staging.Outcome c.engine.nextPlaceSeq p r evs) :
    Staging.Move c.staging (staging ⟨e, c.client,
      k₁ ++ [.user (some (c.engine.nextPlaceSeq, r)), .drain] ++ k, c.history ++ evs⟩) := by
  have hmove := Staging.Move.take (s := c.staging) hp hr (List.Perm.refl _) (List.Perm.refl _)
    True.intro
  simp only [Engine.core, Engine.takeHead, Core.mk.injEq] at he
  obtain ⟨h1, h2, h3, h4, h5, h6⟩ := he
  convert hmove using 1
  simp only [staging, awaited, awaitedWith, h1, h2, h3, h4, h5, h6, hk, awaitedIn_append,
    List.filterMap_append, h₁.awaited, h₁.staged, h₁.done, List.mem_append, List.mem_cons, true_or,
    or_true]
  rfl

/-- Draining leaves, or takes the head off the queue. -/
lemma drain_move (hk : c.stack = .drain :: k) (h : Runs c.engine c.client .run .drain e cl k₁ evs) :
    Staging.Move c.staging (staging ⟨e, cl, k₁ ++ k, c.history ++ evs⟩) := by
  cases h with
  | leave hp =>
    have hmove := Staging.Move.leave (s := c.staging) (d := Task.drain ∈ k) fun _ => hp
    convert hmove using 1
    simp only [staging, awaited, hk, List.append_nil]
    rfl
  | @deepen p hp hd =>
    -- the window does not cover the order: the pulls are sent and `drain` returns
    obtain ⟨hcore, hcalm, hzero, -⟩ := ensureDepth_spec c.engine p.symbol p.order
    simp only [Engine.core, Core.mk.injEq] at hcore
    obtain ⟨h1, h2, h3, h4, h5, h6⟩ := hcore
    have hmove := Staging.Move.leave (s := c.staging)
      (d := Task.drain ∈ (c.engine.ensureDepth p.symbol p.order).2.2 ++ k) fun h0 => by
        rw [hzero h0] at hd
        exact absurd hd (by simp)
    convert hmove using 1
    simp only [staging, awaited, awaitedWith, hk, h1, h2, h3, h4, h5, h6, awaitedIn_append,
      List.filterMap_append, hcalm.awaited, hcalm.staged, hcalm.done, List.append_nil]
    rfl
  | @place p r hp hd hok hr =>
    obtain ⟨k₂, h₂, heq⟩ := afterPlace_eq c.engine.nextPlaceSeq p r.2
    rw [heq]
    refine take_move hk hp ?_ h₂ (.placed r.2 hok rfl)
    split_ifs <;> rfl
  | drop hp hok =>
    have hcalm : Calm [] := ⟨rfl, rfl, rfl⟩
    exact take_move hk hp rfl hcalm (.failed hok rfl)

/-- An order is staged. -/
lemma emplace_move {seq : ℕ} {p : Pending} (hk : c.stack = .emplace seq p :: k) :
    Staging.Move c.staging (staging
      ⟨{ c.engine with pending := c.engine.pending.insert seq p }, c.client, k, c.history⟩) := by
  have hi : c.staging.incoming.Perm ((seq, p) :: k.filterMap Task.staged?) := by
    show (c.stack.filterMap Task.staged?).Perm _
    rw [hk]
    exact .refl _
  have hmove := Staging.Move.stage hi (d := Task.drain ∈ k) fun hd => by
    have hd : Task.drain ∈ c.stack := hd
    rw [hk] at hd
    exact (List.mem_cons.1 hd).resolve_left (by simp)
  convert hmove using 1
  simp only [staging, awaited, hk]
  rfl

/-- A callback of the caller runs. -/
lemma user_move {done : Option (ℕ × Result)} (hk : c.stack = .user done :: k)
    (calls : List Call) : Staging.Move c.staging (staging ⟨c.engine, c.client,
      calls.map Task.call ++ k, c.history ++ done.toList.map fun d => .called d.1 d.2⟩) := by
  have hcalm : Calm (calls.map Task.call) := calm_map (fun _ => ⟨rfl, rfl, rfl⟩) calls
  cases done with
  | none => exact move_calm hk rfl rfl ⟨rfl, rfl, rfl⟩ (by simp) hcalm (by simp)
  | some d =>
    have hf : c.staging.finishing.Perm (d :: k.filterMap Task.done?) := by
      show (c.stack.filterMap Task.done?).Perm _
      rw [hk]
      exact .refl _
    have hmove := Staging.Move.finish hf (d := Task.drain ∈ calls.map Task.call ++ k) fun hd => by
      have hd : Task.drain ∈ c.stack := hd
      rw [hk] at hd
      exact List.mem_append_right _ ((List.mem_cons.1 hd).resolve_left (by simp))
    convert hmove using 1
    simp only [staging, awaited, awaitedWith, hk, awaitedIn_append, hcalm.awaited,
      List.filterMap_append, hcalm.staged, hcalm.done]
    rfl

/-- What a task does to the queue. -/
lemma Runs.move {a : Act} (hc : ClientOk c) (hk : c.stack = f :: k)
    (h : Runs c.engine c.client a f e cl k₁ evs) :
    Staging.Move c.staging (staging ⟨e, cl, k₁ ++ k, c.history ++ evs⟩) ∨
      ∃ resp reply, f = .deliver resp reply ∧
        Staging.Callback c.staging resp reply (staging ⟨e, cl, k₁ ++ k, c.history ++ evs⟩) := by
  have htr := fun req resp => awaitedWith_transmit hc.lookup_next req resp k
  cases h with
  | answered seq reply => exact .inr ⟨_, _, rfl, deliver_order_callback hk⟩
  | seeded symbol client reply =>
    have hcb := deliver_position_callback hk
    rw [deliver, ← List.append_nil c.history] at hcb
    exact .inr ⟨_, _, rfl, hcb⟩
  | submit symbol owner order uuid => exact .inl (call_submit_move hk)
  | cancel _ | decline _ _ | ignored _ | swept | sweepPast _ _ | filled _ | fill _ _ _ _
  | forget _ _ =>
    exact .inl (move_calm hk rfl rfl ⟨rfl, rfl, rfl⟩ (by simp) ⟨rfl, rfl, rfl⟩
      (by simp [Event.Aside]))
  | auction _ =>
    exact .inl (move_calm hk rfl rfl ⟨rfl, rfl, rfl⟩ (by simp)
      ((calm_reportAuction _ _).append ⟨rfl, rfl, rfl⟩) (by simp [Event.Aside]))
  | emplace seq p =>
    rw [List.append_nil]
    exact .inl (emplace_move hk)
  | report _ _ _ | refuse _ _ => exact .inl (move_swap hk rfl rfl rfl (by simp) (.refl _) (by simp))
  | stash id kind =>
    exact .inl (move_calm hk rfl (client_stash _ id kind).1 ⟨rfl, rfl, rfl⟩ (by simp)
      ⟨rfl, rfl, rfl⟩ (by simp))
  | transmit _ => exact .inl (move_swap hk rfl rfl rfl (by simp) (htr _ _) (by simp))
  | breaks _ hids =>
    exact .inl (move_swap hk rfl staged_failures done_failures (by simp)
      ((htr _ _).trans (awaitedWith_close hids k)) (by simp))
  | pulled symbol side reply =>
    have hcalm : Calm (c.engine.onPull symbol side
        ((reply.map StorageClient.pulledOrders).getD [])).2 := by
      rcases tasks_onPull c.engine symbol side ((reply.map StorageClient.pulledOrders).getD [])
        with h | h <;> rw [h] <;> exact ⟨rfl, rfl, rfl⟩
    exact .inl (move_calm hk (core_onPull _ _ _ _) rfl ⟨rfl, rfl, rfl⟩ (by simp) hcalm (by simp))
  | reported reply =>
    refine .inl (move_calm hk ?_ (pending_acknowledge _ reply).1 ⟨rfl, rfl, rfl⟩ (by simp)
      ⟨rfl, rfl, rfl⟩ (by simp))
    unfold Engine.onReport
    split_ifs <;> rfl
  | expire ids hid =>
    exact .inl (move_swap hk rfl rfl rfl (by simp) (awaitedWith_settle hid none (.sweep ids :: k))
      (by simp))
  | leave hp => exact .inl (drain_move hk (.leave hp))
  | deepen hp hd => exact .inl (drain_move hk (.deepen hp hd))
  | place hp hd hok hr => exact .inl (drain_move hk (.place hp hd hok hr))
  | drop hp hok => exact .inl (drain_move hk (.drop hp hok))
  | requeued symbol =>
    exact .inl (move_calm hk rfl rfl ⟨rfl, rfl, rfl⟩ (by simp)
      (calm_map (fun _ => ⟨rfl, rfl, rfl⟩) _) (by simp))
  | prune symbol trades =>
    exact .inl (move_calm hk (core_foldl (core_pruneOne symbol) trades c.engine) rfl
      ⟨rfl, rfl, rfl⟩ (by simp) ⟨rfl, rfl, rfl⟩ (by simp))
  | user done calls => exact .inl (user_move hk calls)

end Tasks

/-! ### Every step -/

/-- A call, a reply, a timeout or a close, in the event loop. -/
lemma Wakes.move {c : Config} {a : Act} {cl : Client} {k : List Task} (hk : c.stack = [])
    (h : Wakes c.client a cl k) :
    Staging.Move c.staging { c with client := cl, stack := k }.staging := by
  have hnil : c.history = c.history ++ [] := (List.append_nil _).symm
  have haw : c.awaited = awaitedWith [] c.client := by rw [awaited, hk]
  cases h with
  | call x | timeout ids =>
    exact move_aside rfl (.of_eq haw) (by rw [hk]; rfl) (by rw [hk]; rfl) (by simp [hk]) hnil
      (by simp)
  | @reply msg resp hid =>
    refine move_aside rfl ?_ (by rw [hk]; rfl) (by rw [hk]; rfl) (by simp [hk]) hnil (by simp)
    rw [haw]
    exact awaitedWith_settle hid (some msg) []
  | @close ids _ hids =>
    have hclose := awaitedWith_close hids []
    rw [List.append_nil, ← haw] at hclose
    exact move_aside rfl hclose (by rw [hk]; exact staged_failures)
      (by rw [hk]; exact done_failures)
      (by simp [hk]) hnil (by simp)

lemma step_run {c : Config} {f : Task} {k : List Task} (hk : c.stack = f :: k) :
    c.step .run = c.runTask f k := by
  cases f <;> simp only [step, hk]

/-- Every step of the engine is a step of its staging queue; a callback runs from the top
of the stack. -/
theorem step_staging {c c' : Config} (hc : ClientOk c) {a : Act} (hc' : (c.step a).Returns c') :
    Staging.Move c.staging c'.staging ∨ ∃ resp reply k, c.stack = .deliver resp reply :: k ∧
      Staging.Callback c.staging resp reply c'.staging := by
  cases step_turn hc' with
  | stay _ => exact .inl (move_aside rfl (.refl _) rfl rfl id (List.append_nil _).symm (by simp))
  | wake hk h => exact .inl (h.move hk)
  | run hk h =>
    rcases h.move hc hk with hm | ⟨resp, reply, rfl, hcb⟩
    · exact .inl hm
    · exact .inr ⟨resp, reply, _, hk, hcb⟩

/-! ### The connection -/

lemma ClientOk.of_pending {c c' : Config} (hc : ClientOk c)
    (hp : c'.client.pending = c.client.pending) (hn : c.client.nextReqId ≤ c'.client.nextReqId) :
    ClientOk c' := by
  intro id hid
  rw [hp] at hid
  have := hc id hid
  omega

lemma ClientOk.of_settle {c c' : Config} {id : ℕ} (hc : ClientOk c)
    (h : c'.client = c.client.settle id) : ClientOk c' := by
  intro i hi
  rw [h] at hi ⊢
  exact hc i (AList.mem_keys.1 ((AList.mem_erase.1 (AList.mem_keys.2 hi)).2))

lemma ClientOk.of_shut {c : Config} (h : c.client.pending = ∅) : ClientOk c := by
  intro i hi
  rw [h] at hi
  exact absurd hi List.not_mem_nil

/-- Requests get fresh ids. -/
lemma step_client {c c' : Config} (hc : ClientOk c) {a : Act} (hc' : (c.step a).Returns c') :
    ClientOk c' := by
  cases step_turn hc' with
  | stay _ => exact hc
  | wake hk h =>
    cases h with
    | call | timeout => exact hc
    | reply _ => exact hc.of_settle rfl
    | close _ _ => exact ClientOk.of_shut rfl
  | run hk h =>
    cases h with
    | stash id kind => exact hc.of_pending (client_stash _ id kind).1 (client_stash _ id kind).2.ge
    | refuse _ _ => exact hc.of_pending rfl (Nat.le_succ _)
    | transmit _ =>
      intro i hi
      rcases (AList.mem_insert _).1 (AList.mem_keys.2 hi) with rfl | hi
      · exact Nat.lt_succ_self _
      · exact Nat.lt_succ_of_lt (hc i (AList.mem_keys.1 hi))
    | breaks _ _ => exact ClientOk.of_shut rfl
    | answered _ reply | reported reply =>
      exact hc.of_pending (pending_acknowledge _ reply).1 (pending_acknowledge _ reply).2.ge
    | expire _ _ => exact hc.of_settle rfl
    | _ => exact hc

lemma clientOk_of_reach {P : Config → Act → Prop} {stp : StpPolicy} {memLevels : ℕ} {c : Config}
    (h : Config.Reach P stp memLevels c) : ClientOk c :=
  h.invariant (by intro i hi; exact absurd hi List.not_mem_nil) fun _ _ _ hc _ hs =>
    step_client hc hs

/-- What holds of the empty queue and is kept by every step of the queue holds in every run
of the engine. -/
theorem staging_of_reach {I : Staging → Prop} {P : Config → Act → Prop} {stp : StpPolicy}
    {memLevels : ℕ} {c : Config} (h : Config.Reach P stp memLevels c)
    (h₀ : I (init stp memLevels).staging)
    (hstep : ∀ s s', I s → Staging.Step s s' → I s') : I c.staging := by
  induction h with
  | init => exact h₀
  | step hr _ hs ih =>
    refine hstep _ _ ih ((step_staging (clientOk_of_reach hr) hs).imp id ?_)
    rintro ⟨resp, reply, -, -, h⟩
    exact ⟨resp, reply, h⟩

end Config

end Codicis
