/-
What the engine hands out: order ids and handles.

`step_desk` says what a step does to the submissions of the history, to the counter of
order ids and to the handles.  Orders without an id get ids that ascend, so all ids are
different if the callers leave them to the engine or choose fresh ones; and a handle
belongs to an order that was placed.
-/
import Codicis.Engine.Placement

namespace Codicis

namespace Config

variable {c c' : Config} {k : List Task}

/-- The submission that a step is, with the order as it is reported. -/
def submission? (c : Config) : Act → Option (Symbol × Order)
  | .run =>
    match c.stack with
    | .call (.submit symbol owner order _) :: _ => some (symbol, (c.engine.assign owner order).2)
    | _ => none
  | _ => none

/-- The order of a submission, as the caller made it. -/
def submitted? (c : Config) : Act → Option Order
  | .run =>
    match c.stack with
    | .call (.submit _ _ order _) :: _ => some order
    | _ => none
  | _ => none

/-- The number of ids that a submission takes. -/
def idsTaken (order : Option Order) : ℕ := if (order.map (·.id)) = some 0 then 1 else 0

/-- What a step does to the handles. -/
inductive HandleMove (c c' : Config) : Prop
  | same (h : c'.engine.handles = c.engine.handles) (h' : c'.engine.idUuid = c.engine.idUuid)
  /-- An order rests when it is placed. -/
  | register {p : Pending} {out : SubmitOutcome} (hp : c.engine.head? = some p)
      (hr : Engine.rests out = true)
      (hh : c'.history = c.history ++ [.placed c.engine.nextPlaceSeq p.symbol p.order out])
      (h : c'.engine.handles = (c.engine.register p).handles)
      (h' : c'.engine.idUuid = (c.engine.register p).idUuid)
  /-- The handles of makers that are gone are dropped. -/
  | prune {symbol : Symbol} {trades : List Trade} {k : List Task}
      (hk : c.stack = .prune symbol trades :: k)
      (he : c'.engine = trades.foldl (Engine.pruneOne symbol) c.engine)
  /-- The handle of a cancelled order is dropped. -/
  | forget {uuid : String} {id : OrderId} {k : List Task} (hk : c.stack = .forget uuid id :: k)
      (h : c'.engine.handles = c.engine.handles.erase uuid)
      (h' : c'.engine.idUuid = c.engine.idUuid.erase id)

/-- What a step does to the ids and the handles. -/
structure Desk (c c' : Config) (sub : Option (Symbol × Order)) (n : ℕ) : Prop where
  history : c.history <+: c'.history
  submissions : (submissions c'.history).map Prod.snd
    = (submissions c.history).map Prod.snd ++ sub.toList
  nextOrderId : c'.engine.nextOrderId = c.engine.nextOrderId + n
  handles : HandleMove c c'

/-- A step that hands out nothing. -/
lemma desk_quiet (evs : List Event) (hh : c'.history = c.history ++ evs)
    (hev : Codicis.submissions evs = []) (hn : c'.engine.nextOrderId = c.engine.nextOrderId)
    (hl : HandleMove c c') : Desk c c' none 0 where
  history := ⟨evs, hh.symm⟩
  submissions := by simp [hh, hev]
  nextOrderId := hn
  handles := hl

lemma desk_engine (hh : c'.history = c.history)
    (hn : c'.engine.nextOrderId = c.engine.nextOrderId) (hl : HandleMove c c') :
    Desk c c' none 0 :=
  desk_quiet [] (by rw [hh, List.append_nil]) rfl hn hl

lemma desk_same (hh : c'.history = c.history) (he : c'.engine = c.engine) : Desk c c' none 0 :=
  desk_engine hh (by rw [he]) (.same (by rw [he]) (by rw [he]))

/-- The part of the engine that is not about ids and handles. -/
lemma clientFor_desk (e : Engine) (owner : String) :
    (e.clientFor owner).1.nextOrderId = e.nextOrderId ∧
      (e.clientFor owner).1.handles = e.handles ∧ (e.clientFor owner).1.idUuid = e.idUuid := by
  unfold Engine.clientFor
  split_ifs
  · exact ⟨rfl, rfl, rfl⟩
  · split <;> exact ⟨rfl, rfl, rfl⟩

lemma submit_desk (e : Engine) (symbol : Symbol) (owner : String) (order : Order)
    (uuid : String) :
    (e.submit symbol owner order uuid).1.nextOrderId
        = e.nextOrderId + idsTaken (some order) ∧
      (e.submit symbol owner order uuid).1.handles = e.handles ∧
      (e.submit symbol owner order uuid).1.idUuid = e.idUuid ∧
      (e.submit symbol owner order uuid).2.1 = (e.assign owner order).2 := by
  obtain ⟨h1, h2, h3⟩ := clientFor_desk e owner
  obtain ⟨l, -, heng⟩ := ensurePosition_spec (e.assign owner order).1 symbol owner
    (e.assign owner order).2.clientId
  have hsub : (e.submit symbol owner order uuid).1
      = ((e.assign owner order).1.ensurePosition symbol owner
        (e.assign owner order).2.clientId).1 := rfl
  refine ⟨?_, ?_, ?_, rfl⟩
  · rw [hsub, heng]
    by_cases hid : order.id = 0 <;> simp [Engine.assign, idsTaken, hid, h1]
  · rw [hsub, heng]
    exact h2
  · rw [hsub, heng]
    exact h3

lemma ensureDepth_desk (e : Engine) (symbol : Symbol) (o : Order) :
    (e.ensureDepth symbol o).1.nextOrderId = e.nextOrderId ∧
      (e.ensureDepth symbol o).1.handles = e.handles ∧
      (e.ensureDepth symbol o).1.idUuid = e.idUuid := by
  unfold Engine.ensureDepth
  split_ifs <;> exact ⟨rfl, rfl, rfl⟩

lemma onPull_desk (e : Engine) (symbol : Symbol) (side : Side) (orders : List PulledOrder) :
    (e.onPull symbol side orders).1.nextOrderId = e.nextOrderId ∧
      (e.onPull symbol side orders).1.handles = e.handles ∧
      (e.onPull symbol side orders).1.idUuid = e.idUuid := by
  have hfold : ∀ e : Engine, (orders.foldl (Engine.pullOne symbol side) e).nextOrderId
        = e.nextOrderId ∧ (orders.foldl (Engine.pullOne symbol side) e).handles = e.handles ∧
      (orders.foldl (Engine.pullOne symbol side) e).idUuid = e.idUuid := by
    induction orders with
    | nil => exact fun e => ⟨rfl, rfl, rfl⟩
    | cons po orders ih =>
      intro e
      obtain ⟨h1, h2, h3⟩ := ih (Engine.pullOne symbol side e po)
      rw [List.foldl_cons, h1, h2, h3]
      unfold Engine.pullOne
      split_ifs <;> exact ⟨rfl, rfl, rfl⟩
  unfold Engine.onPull
  dsimp only
  split_ifs <;> exact hfold e

lemma nextOrderId_prune (symbol : Symbol) (trades : List Trade) (e : Engine) :
    (trades.foldl (Engine.pruneOne symbol) e).nextOrderId = e.nextOrderId := by
  induction trades generalizing e with
  | nil => rfl
  | cons t trades ih =>
    rw [List.foldl_cons, ih]
    unfold Engine.pruneOne
    split_ifs
    · rfl
    · split <;> rfl

/-- What a step does to the submissions, the ids and the handles. -/
theorem step_desk {a : Act} (hc' : (c.step a).Returns c') :
    Desk c c' (c.submission? a) (idsTaken (c.submitted? a)) := by
  cases step_turn hc' with
  | stay h =>
    have hsub : c.submission? a = none ∧ c.submitted? a = none := by
      cases a with
      | run =>
        rcases h rfl with hk | ⟨done, k, hk⟩ <;> simp [submission?, submitted?, hk]
      | _ => exact ⟨rfl, rfl⟩
    rw [hsub.1, hsub.2]
    exact desk_same rfl rfl
  | wake hk h => cases h <;> exact desk_same rfl rfl
  | run hk h =>
    cases h with
    | submit symbol owner order uuid =>
      simp only [submission?, submitted?, hk]
      obtain ⟨h1, h2, h3, h4⟩ := submit_desk c.engine symbol owner order uuid
      refine ⟨⟨_, rfl⟩, ?_, h1, .same h2 h3⟩
      simp [h4, Codicis.submissions, Event.submission?]
    | refuse ha _ =>
      rcases ha with rfl | ⟨ids, rfl⟩ <;> simp only [submission?, submitted?, hk] <;>
        exact desk_engine (List.append_nil _) rfl (.same rfl rfl)
    | answered seq reply =>
      simp only [submission?, submitted?, hk, Engine.onOrder]
      cases c.engine.pending.lookup seq <;> exact desk_quiet [_] rfl rfl rfl (.same rfl rfl)
    | seeded symbol client reply | reported reply =>
      simp only [submission?, submitted?, hk]
      cases reply <;> exact desk_engine (List.append_nil _) rfl (.same rfl rfl)
    | pulled symbol side reply =>
      simp only [submission?, submitted?, hk]
      obtain ⟨h1, h2, h3⟩ := onPull_desk c.engine symbol side
        ((reply.map StorageClient.pulledOrders).getD [])
      exact desk_engine (List.append_nil _) h1 (.same h2 h3)
    | @deepen p _ _ =>
      simp only [submission?, submitted?, hk]
      obtain ⟨h1, h2, h3⟩ := ensureDepth_desk c.engine p.symbol p.order
      exact desk_engine (List.append_nil _) h1 (.same h2 h3)
    | @place p r hp _ _ _ =>
      simp only [submission?, submitted?, hk]
      -- an order that rests gets a handle
      by_cases hrest : Engine.rests r.2 = true
      · simp only [if_pos hrest]
        exact desk_quiet [_] rfl rfl rfl (.register hp hrest rfl rfl rfl)
      · simp only [if_neg hrest]
        exact desk_quiet [_] rfl rfl rfl (.same rfl rfl)
    | prune symbol trades =>
      simp only [submission?, submitted?, hk]
      exact desk_engine (List.append_nil _) (nextOrderId_prune symbol trades c.engine)
        (.prune hk rfl)
    | forget uuid id =>
      simp only [submission?, submitted?, hk]
      exact desk_engine (List.append_nil _) rfl (.forget hk rfl rfl)
    | user done calls =>
      cases done with
      | none => exact desk_engine (List.append_nil _) rfl (.same rfl rfl)
      | some d => exact desk_quiet [_] rfl rfl rfl (.same rfl rfl)
    | cancel _ | decline _ _ | auction _ =>
      simp only [submission?, submitted?, hk]
      exact desk_quiet [_] rfl rfl rfl (.same rfl rfl)
    | _ =>
      simp only [submission?, submitted?, hk]
      exact desk_engine (List.append_nil _) rfl (.same rfl rfl)

/-! ### Fresh ids -/

/-- The ids of the orders that were submitted. -/
def submittedIds (c : Config) : List OrderId := (submissions c.history).map (·.2.2.id)

/-- A submission gets an id that no submission had before. -/
def FreshIds (c : Config) (a : Act) : Prop :=
  ∀ x, c.submission? a = some x → x.2.id ∉ c.submittedIds

lemma submittedIds_eq (c : Config) :
    c.submittedIds = ((submissions c.history).map Prod.snd).map (·.2.id) := by
  rw [submittedIds, List.map_map]
  rfl

lemma submittedIds_step {a : Act} (hc' : (c.step a).Returns c') :
    c'.submittedIds = c.submittedIds ++ (c.submission? a).toList.map (·.2.id) := by
  rw [submittedIds_eq, (step_desk hc').submissions, List.map_append, ← submittedIds_eq]

variable {P : Config → Act → Prop} {stp : StpPolicy} {memLevels : ℕ}

/-- The ids are different if each one is fresh. -/
lemma nodup_submittedIds (h : Reach P stp memLevels c) (hP : ∀ c a, P c a → FreshIds c a) :
    c.submittedIds.Nodup := by
  induction h with
  | init => exact List.nodup_nil
  | @step c c' a hr ha hs ih =>
    rw [submittedIds_step hs]
    cases hsub : c.submission? a with
    | none => simpa using ih
    | some x =>
      simp only [Option.toList_some, List.map_cons, List.map_nil]
      rw [List.nodup_append]
      refine ⟨ih, by simp, ?_⟩
      rintro i hi j hj rfl
      rw [List.mem_singleton.1 hj] at hi
      exact hP c a ha x hsub hi

/-- The order of a submission is the order of the caller, with its id and its account. -/
lemma submission_assign {a : Act} {x : Symbol × Order} (hx : c.submission? a = some x) :
    ∃ order owner, c.submitted? a = some order ∧ x.2 = (c.engine.assign owner order).2 := by
  revert hx
  unfold submission? submitted?
  cases a <;> simp only [reduceCtorEq, false_imp_iff]
  split <;> simp
  rintro rfl
  exact ⟨_, rfl⟩

/-- The engine numbers the orders that come without an id. -/
lemma assign_id (e : Engine) (owner : String) {order : Order} (h : order.id = 0) :
    (e.assign owner order).2.id = e.nextOrderId := by
  simp [Engine.assign, h]

/-- Orders without an id get fresh ids, if no order comes with one. -/
lemma freshIds_of_reach (h : Reach P stp memLevels c)
    (hP : ∀ c a, P c a → ∀ o, c.submitted? a = some o → o.id = 0) :
    (∀ id ∈ c.submittedIds, 0 < id ∧ id < c.engine.nextOrderId) ∧ 0 < c.engine.nextOrderId := by
  induction h with
  | init => exact ⟨fun id hid => absurd hid List.not_mem_nil, Nat.one_pos⟩
  | @step c c' a hr ha hs ih =>
    have hd := step_desk hs
    rw [submittedIds_step hs, hd.nextOrderId]
    refine ⟨fun id hid => ?_, Nat.lt_of_lt_of_le ih.2 (Nat.le_add_right _ _)⟩
    rcases List.mem_append.1 hid with hid | hid
    · obtain ⟨hpos, hlt⟩ := ih.1 id hid
      exact ⟨hpos, Nat.lt_of_lt_of_le hlt (Nat.le_add_right _ _)⟩
    · obtain ⟨x, hx, rfl⟩ := List.mem_map.1 hid
      obtain ⟨order, owner, hord, hx2⟩ := submission_assign (Option.mem_toList.1 hx)
      have h0 := hP c a ha order hord
      rw [hx2, assign_id _ _ h0, hord]
      simp [idsTaken, h0]
      exact ih.2

/-- All ids are different, if no order comes with one. -/
lemma nodup_of_unnumbered (h : Reach P stp memLevels c)
    (hP : ∀ c a, P c a → ∀ o, c.submitted? a = some o → o.id = 0) : c.submittedIds.Nodup := by
  induction h with
  | init => exact List.nodup_nil
  | @step c c' a hr ha hs ih =>
    have hlt := (freshIds_of_reach hr hP).1
    rw [submittedIds_step hs, List.nodup_append]
    refine ⟨ih, by cases c.submission? a <;> simp, fun i hi j hj => ?_⟩
    obtain ⟨x, hx, rfl⟩ := List.mem_map.1 hj
    obtain ⟨order, owner, hord, hx2⟩ := submission_assign (Option.mem_toList.1 hx)
    rw [hx2, assign_id _ _ (hP c a ha order hord)]
    exact (hlt i hi).2.ne

end Config

end Codicis
