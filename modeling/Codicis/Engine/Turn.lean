/-
What one step of the engine can do.

`step` runs the top task of the stack, or, when the stack is empty, lets an action of the
environment in.  `Runs` lists what a task does to the engine and to the connection, the tasks it
leaves in its place and what it logs; `Wakes` lists the actions that apply in the event loop.
`step_turn` is the inversion of `step`: whatever is to be shown of every step is shown of these
cases.
-/
import Codicis.Engine.TradingEngine

namespace Codicis

/-- A window that covers the order changes nothing and asks for nothing. -/
lemma Engine.ensureDepth_of_covered {e : Engine} {symbol : Symbol} {o : Order}
    (h : (e.ensureDepth symbol o).2.1 = true) : e.ensureDepth symbol o = (e, true, []) := by
  unfold ensureDepth at h ⊢
  split_ifs at h ⊢ <;> rfl

namespace Config

/-- What the task on top of the stack does under an action: the engine and the connection
afterwards, the tasks in its place, and the events it logs. -/
inductive Runs (e : Engine) (cl : Client) :
    Act → Task → Engine → Client → List Task → List Event → Prop
  | submit (symbol : Symbol) (owner : String) (order : Order) (uuid : String) :
      Runs e cl .run (.call (.submit symbol owner order uuid))
        (e.submit symbol owner order uuid).1 cl (e.submit symbol owner order uuid).2.2
        [.submitted e.nextAssignSeq symbol (e.submit symbol owner order uuid).2.1]
  | cancel {uuid requester : String} {h : Handle} (hr : e.cancelResult uuid requester = .ok h) :
      Runs e cl .run (.call (.cancel uuid requester))
        { e with matching := (e.matching.cancel h.symbol h.id).1 } cl
        [.send (StorageClient.reportCancel h.symbol h.id) .ignored, .requeued h.symbol,
          .forget uuid h.id] [.cancelled uuid (.ok h)]
  | decline {uuid requester : String} {r : CancelResult} (hr : e.cancelResult uuid requester = r)
      (hno : ∀ h, r ≠ .ok h) :
      Runs e cl .run (.call (.cancel uuid requester)) e cl [] [.cancelled uuid r]
  | auction {symbol : Symbol} {opening : Bool} {r : Matching × List Trade}
      (hr : (e.matching.runAuction symbol opening).Returns r) :
      Runs e cl .run (.call (.runAuction symbol opening)) { e with matching := r.1 } cl
        (Engine.reportAuction symbol r.2 ++ [.requeued symbol, .user none])
        [.auctioned symbol opening r.2]
  | emplace (seq : ℕ) (p : Pending) :
      Runs e cl .run (.emplace seq p) { e with pending := e.pending.insert seq p } cl [] []
  | report (kind : ReportKind) (req : Request) (resp : Resp) :
      Runs e cl .run (.report kind req resp) e cl [.send req resp, .stash cl.nextReqId kind] []
  | stash (id : ℕ) (kind : ReportKind) :
      Runs e cl .run (.stash id kind) e (cl.stash id kind) [] []
  /-- The connection is closed. -/
  | refuse {a : Act} {req : Request} {resp : Resp} (ha : a = .run ∨ ∃ ids, a = .fail ids)
      (hcl : cl.closed = true) : Runs e cl a (.send req resp) e cl.refuse [.deliver resp none] []
  | transmit {req : Request} {resp : Resp} (hcl : cl.closed = false) :
      Runs e cl .run (.send req resp) e (cl.transmit req resp) [] []
  /-- The write fails, and the connection closes. -/
  | breaks {req : Request} {resp : Resp} {ids : List ℕ} (hcl : cl.closed = false)
      (hids : ids.Perm (cl.transmit req resp).pending.keys) :
      Runs e cl (.fail ids) (.send req resp) e (cl.transmit req resp).shut
        ((cl.transmit req resp).failures ids) []
  | answered (seq : ℕ) (reply : Option HelperMessage) :
      Runs e cl .run (.deliver (.order seq) reply) (e.onOrder seq reply.isSome).1
        (cl.acknowledge reply) (e.onOrder seq reply.isSome).2 [.answered seq reply]
  | seeded (symbol : Symbol) (client : ClientId) (reply : Option HelperMessage) :
      Runs e cl .run (.deliver (.position symbol client) reply)
        (e.onPosition symbol client (reply.map StorageClient.pulledNet)).1 cl [.drain] []
  | pulled (symbol : Symbol) (side : Side) (reply : Option HelperMessage) :
      Runs e cl .run (.deliver (.pull symbol side) reply)
        (e.onPull symbol side ((reply.map StorageClient.pulledOrders).getD [])).1 cl
        (e.onPull symbol side ((reply.map StorageClient.pulledOrders).getD [])).2 []
  | reported (reply : Option HelperMessage) :
      Runs e cl .run (.deliver .report reply) (e.onReport reply.isSome) (cl.acknowledge reply)
        [] []
  | ignored (reply : Option HelperMessage) : Runs e cl .run (.deliver .ignored reply) e cl [] []
  | swept : Runs e cl .run (.sweep []) e cl [] []
  /-- The request was settled meanwhile. -/
  | sweepPast {id : ℕ} (ids : List ℕ) (hid : cl.pending.lookup id = none) :
      Runs e cl .run (.sweep (id :: ids)) e cl [.sweep ids] []
  | expire {id : ℕ} {resp : Resp} (ids : List ℕ) (hid : cl.pending.lookup id = some resp) :
      Runs e cl .run (.sweep (id :: ids)) e (cl.settle id) [.deliver resp none, .sweep ids] []
  /-- No order may be placed. -/
  | leave (hp : e.head? = none) : Runs e cl .run .drain e cl [] []
  /-- The window does not cover the order. -/
  | deepen {p : Pending} (hp : e.head? = some p)
      (hd : (e.ensureDepth p.symbol p.order).2.1 = false) :
      Runs e cl .run .drain (e.ensureDepth p.symbol p.order).1 cl
        (e.ensureDepth p.symbol p.order).2.2 []
  | place {p : Pending} {r : Matching × SubmitOutcome} (hp : e.head? = some p)
      (hd : (e.ensureDepth p.symbol p.order).2.1 = true) (hok : p.ok = true)
      (hr : (e.matching.submit p.symbol p.order).Returns r) :
      Runs e cl .run .drain
        (if Engine.rests r.2 = true then { e.takeHead with matching := r.1 }.register p
          else { e.takeHead with matching := r.1 }) cl
        (Engine.afterPlace e.nextPlaceSeq p r.2)
        [.placed e.nextPlaceSeq p.symbol p.order r.2]
  /-- The report of the order failed. -/
  | drop {p : Pending} (hp : e.head? = some p) (hok : p.ok = false) :
      Runs e cl .run .drain e.takeHead cl
        [.user (some (e.nextPlaceSeq, { orderId := p.order.id, orderUuid := p.orderUuid })),
          .drain] []
  | filled (symbol : Symbol) : Runs e cl .run (.fills symbol []) e cl [] []
  | fill (symbol : Symbol) (id : OrderId) (qty : ℤ) (rest : List (OrderId × ℤ)) :
      Runs e cl .run (.fills symbol ((id, qty) :: rest)) e cl
        [.report .fill (StorageClient.reportFill symbol id qty
          (((e.matching.find symbol id).map (·.leaves)).getD 0)
          (e.matching.find symbol id).isNone) .report, .fills symbol rest] []
  | requeued (symbol : Symbol) :
      Runs e cl .run (.requeued symbol)
        { e with matching := (e.matching.takeRequeued symbol).1 } cl
        ((e.matching.takeRequeued symbol).2.map fun o =>
          Task.send (StorageClient.reportRest symbol o) .ignored) []
  | prune (symbol : Symbol) (trades : List Trade) :
      Runs e cl .run (.prune symbol trades) (trades.foldl (Engine.pruneOne symbol) e) cl [] []
  | forget (uuid : String) (id : OrderId) :
      Runs e cl .run (.forget uuid id)
        { e with
          pullIgnore := if 0 < e.depthPulls then e.pullIgnore.insert id else e.pullIgnore
          idUuid := e.idUuid.erase id
          handles := e.handles.erase uuid } cl [] []
  /-- A callback of the caller makes calls. -/
  | user (done : Option (ℕ × Result)) (calls : List Call) :
      Runs e cl (.user calls) (.user done) e cl (calls.map Task.call)
        (done.toList.map fun d => .called d.1 d.2)

/-- What an action does in the event loop: the connection and the tasks afterwards. -/
inductive Wakes (cl : Client) : Act → Client → List Task → Prop
  | call (x : Call) : Wakes cl (.call x) cl [.call x]
  | reply {msg : HelperMessage} {resp : Resp} (h : cl.pending.lookup msg.reqId = some resp) :
      Wakes cl (.reply msg) (cl.settle msg.reqId) [.deliver resp (some msg)]
  | timeout (ids : List ℕ) : Wakes cl (.timeout ids) cl [.sweep ids]
  | close {ids : List ℕ} (hcl : cl.closed = false) (hids : ids.Perm cl.pending.keys) :
      Wakes cl (.close ids) cl.shut (cl.failures ids)

/-- What one step does. -/
inductive Turn (c : Config) (a : Act) : Config → Prop
  /-- The action does not apply. -/
  | stay (h : a = .run → c.stack = [] ∨ ∃ done k, c.stack = .user done :: k) : Turn c a c
  | wake {cl : Client} {k : List Task} (hk : c.stack = []) (h : Wakes c.client a cl k) :
      Turn c a { c with client := cl, stack := k }
  | run {f : Task} {k k₁ : List Task} {e : Engine} {cl : Client} {evs : List Event}
      (hk : c.stack = f :: k) (h : Runs c.engine c.client a f e cl k₁ evs) :
      Turn c a ⟨e, cl, k₁ ++ k, c.history ++ evs⟩

section Turns

variable {c c' : Config} {k : List Task}

/-- A task that logs nothing. -/
lemma Turn.quiet {a : Act} {f : Task} {e : Engine} {cl : Client} {k₁ : List Task}
    (hk : c.stack = f :: k) (h : Runs c.engine c.client a f e cl k₁ []) :
    Turn c a { c with engine := e, client := cl, stack := k₁ ++ k } := by
  simpa using Turn.run hk h

lemma send_turn {req : Request} {resp : Resp} (hk : c.stack = .send req resp :: k) :
    Turn c .run (c.send req resp k none) ∧
      ∀ ids, Turn c (.fail ids) (c.send req resp k (some ids)) := by
  unfold send
  by_cases hcl : c.client.closed = true
  · simp only [if_pos hcl]
    exact ⟨.quiet hk (.refuse (.inl rfl) hcl), fun ids => .quiet hk (.refuse (.inr ⟨ids, rfl⟩) hcl)⟩
  simp only [if_neg hcl]
  have hcl := Bool.eq_false_iff.2 hcl
  refine ⟨.quiet hk (.transmit hcl), fun ids => ?_⟩
  split_ifs with hids
  · exact .quiet hk (.breaks hcl hids)
  · exact .stay (by simp)

lemma call_turn {x : Call} (hk : c.stack = .call x :: k) (h : (c.call x k).Returns c') :
    Turn c .run c' := by
  cases x with
  | submit symbol owner order uuid =>
    obtain rfl := Comp.returns_pure.1 h
    exact .run hk (.submit symbol owner order uuid)
  | cancel uuid requester =>
    obtain rfl := Comp.returns_pure.1 h
    cases hr : c.engine.cancelResult uuid requester with
    | ok x => exact .run hk (.cancel hr)
    | notFound => exact .run hk (.decline hr (by simp))
    | forbidden => exact .run hk (.decline hr (by simp))
  | runAuction symbol opening =>
    obtain ⟨r, hr, h⟩ := Comp.returns_bind.1 h
    obtain rfl := Comp.returns_pure.1 h
    exact .run hk (.auction hr)

lemma deliver_turn {resp : Resp} {reply : Option HelperMessage}
    (hk : c.stack = .deliver resp reply :: k) : Turn c .run (c.deliver resp reply k) := by
  cases resp with
  | order seq => exact .run hk (.answered seq reply)
  | position symbol client => exact .quiet hk (.seeded symbol client reply)
  | pull symbol side => exact .quiet hk (.pulled symbol side reply)
  | report => exact .quiet hk (.reported reply)
  | ignored => exact .quiet hk (.ignored reply)

lemma drain_turn (hk : c.stack = .drain :: k) (h : (c.drain k).Returns c') : Turn c .run c' := by
  unfold drain at h
  cases hp : c.engine.head? with
  | none =>
    rw [hp] at h
    obtain rfl := Comp.returns_pure.1 h
    exact .quiet hk (.leave hp)
  | some p =>
    simp only [hp] at h
    split_ifs at h with hd hok
    · obtain rfl := Comp.returns_pure.1 h
      exact .quiet hk (.deepen hp hd)
    · have hd := Bool.of_not_eq_false hd
      rw [Engine.ensureDepth_of_covered hd] at h
      obtain ⟨r, hr, h⟩ := Comp.returns_bind.1 h
      obtain rfl := Comp.returns_pure.1 h
      exact .run hk (.place hp hd hok hr)
    · rw [Engine.ensureDepth_of_covered (Bool.of_not_eq_false hd)] at h
      obtain rfl := Comp.returns_pure.1 h
      exact .quiet hk (.drop hp (Bool.eq_false_iff.2 hok))

lemma sweep_turn {ids : List ℕ} (hk : c.stack = .sweep ids :: k) :
    Turn c .run (c.sweep ids k) := by
  cases ids with
  | nil => exact .quiet hk .swept
  | cons id ids =>
    cases hid : c.client.pending.lookup id with
    | none =>
      simp only [sweep, hid]
      exact .quiet hk (.sweepPast ids hid)
    | some resp =>
      simp only [sweep, hid]
      exact .quiet hk (.expire ids hid)

lemma forget_eq (c : Config) (uuid : String) (id : OrderId) (k : List Task) :
    c.forget uuid id k = { c with
      engine := { c.engine with
        pullIgnore := if 0 < c.engine.depthPulls then c.engine.pullIgnore.insert id
          else c.engine.pullIgnore
        idUuid := c.engine.idUuid.erase id
        handles := c.engine.handles.erase uuid }
      stack := k } := by
  by_cases hd : 0 < c.engine.depthPulls
  · simp only [forget, if_pos hd]
  · simp only [forget, if_neg hd]

lemma runTask_turn {f : Task} (hk : c.stack = f :: k) (h : (c.runTask f k).Returns c') :
    Turn c .run c' := by
  cases f <;> simp only [runTask, Comp.returns_pure] at h
  case call x => exact call_turn hk h
  case drain => exact drain_turn hk h
  all_goals subst h
  case emplace seq p => exact .quiet hk (.emplace seq p)
  case report kind req resp => exact .quiet hk (.report kind req resp)
  case stash id kind => exact .quiet hk (.stash id kind)
  case send => exact (send_turn hk).1
  case deliver => exact deliver_turn hk
  case sweep => exact sweep_turn hk
  case fills symbol l =>
    cases l with
    | nil => exact .quiet hk (.filled symbol)
    | cons x rest => exact .quiet hk (.fill symbol x.1 x.2 rest)
  case requeued symbol => exact .quiet hk (.requeued symbol)
  case prune symbol trades => exact .quiet hk (.prune symbol trades)
  case forget uuid id => exact forget_eq c uuid id k ▸ .quiet hk (.forget uuid id)
  case user => exact .stay fun _ => .inr ⟨_, _, hk⟩

/-- Every step is one of these. -/
theorem step_turn {a : Act} (h : (c.step a).Returns c') : Turn c a c' := by
  unfold step at h
  split at h
  case h_1 x hk => exact Comp.returns_pure.1 h ▸ .wake hk (.call x)
  case h_2 msg hk =>
    cases hid : c.client.pending.lookup msg.reqId with
    | none =>
      rw [hid] at h
      exact Comp.returns_pure.1 h ▸ .stay (by simp)
    | some resp =>
      rw [hid] at h
      exact Comp.returns_pure.1 h ▸ .wake hk (.reply hid)
  case h_3 ids hk => exact Comp.returns_pure.1 h ▸ .wake hk (.timeout ids)
  case h_4 ids hk =>
    obtain rfl := Comp.returns_pure.1 h
    split_ifs with hcl
    · rw [handleClose, List.append_nil]
      exact .wake hk (.close hcl.1 hcl.2)
    · exact .stay (by simp)
  case h_5 req resp k ids hk => exact Comp.returns_pure.1 h ▸ (send_turn hk).2 ids
  case h_6 done k calls hk =>
    obtain rfl := Comp.returns_pure.1 h
    cases done with
    | none => exact .quiet hk (.user none calls)
    | some d => exact .run hk (.user (some d) calls)
  case h_7 => exact runTask_turn ‹_› h
  case h_8 hrun =>
    obtain rfl := Comp.returns_pure.1 h
    refine .stay fun ha => ?_
    cases hk : c.stack with
    | nil => exact .inl rfl
    | cons f k => exact absurd ha (hrun f k hk)

/-- A task is on top of the stack. -/
lemma step_task {a : Act} {f : Task} (hk : c.stack = f :: k) (h : (c.step a).Returns c') :
    c'.stack = c.stack ∨ ∃ e cl k₁ evs, c'.stack = k₁ ++ k ∧
      Runs c.engine c.client a f e cl k₁ evs := by
  cases step_turn h with
  | stay _ => exact .inl rfl
  | wake hk' _ => exact absurd (hk.symm.trans hk') (by simp)
  | run hk' hr =>
    obtain ⟨rfl, rfl⟩ := List.cons.inj (hk.symm.trans hk')
    exact .inr ⟨_, _, _, _, rfl, hr⟩

end Turns

end Config

end Codicis
