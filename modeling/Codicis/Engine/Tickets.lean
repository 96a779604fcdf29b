/-
Tickets: what the callers know about their submissions.

A submission returns a handle, the uuid, to its caller.  The ticket records it with the
owner, the instrument and the id of the order.  The engine itself remembers the ticket of
an order only as long as the order is staged, and then in the handle of an order that
rests (`Filed`).  `TicketReach` are the runs of the engine with the tickets of all its
submissions.
-/
import Codicis.Engine.Deeds

namespace Codicis

/-- What the caller knows about a submission. -/
structure Ticket where
  uuid : String
  owner : String
  symbol : Symbol
  id : OrderId
deriving DecidableEq, Repr

/-- The ticket of a staged order. -/
def Pending.ticket (p : Pending) : Ticket := ⟨p.orderUuid, p.owner, p.symbol, p.order.id⟩

/-- The ticket that a handle belongs to. -/
def Handle.ticket (uuid : String) (h : Handle) : Ticket := ⟨uuid, h.owner, h.symbol, h.id⟩

namespace Config

/-- The ticket of the submission that a step is. -/
def ticket? (c : Config) : Act → Option Ticket
  | .run =>
    match c.stack with
    | .call (.submit symbol owner order uuid) :: _ =>
      some ⟨uuid, owner, symbol, (c.engine.assign owner order).2.id⟩
    | _ => none
  | _ => none

/-- The engine with the tickets of its submissions. -/
abbrev ticketStep : List Ticket × Config → Act → Comp (List Ticket × Config) :=
  Machine.logged step fun c a => (c.ticket? a).toList

/-- The configurations that are reached, with the tickets. -/
abbrev TicketReach (P : List Ticket × Config → Act → Prop) (stp : StpPolicy) (memLevels : ℕ) :
    List Ticket × Config → Prop :=
  Machine.Reach ticketStep P ([], init stp memLevels)

variable {c c' : Config} {P : List Ticket × Config → Act → Prop} {stp : StpPolicy}
  {memLevels : ℕ} {x : List Ticket × Config}

/-- Without the tickets, it is a run of the engine. -/
lemma TicketReach.reach (h : TicketReach P stp memLevels x) :
    Reach (fun c a => ∃ ts, P (ts, c) a) stp memLevels x.2 :=
  h.of_logged fun x _ hP => ⟨x.1, hP⟩

lemma ticket_submission (c : Config) (a : Act) :
    (c.ticket? a).toList.map (fun t => (t.symbol, t.id))
      = (c.submission? a).toList.map fun x => (x.1, x.2.id) := by
  cases a <;> try rfl
  simp only [ticket?, submission?]
  rcases c.stack with _ | ⟨f, k⟩
  · rfl
  · cases f <;> try rfl
    rename_i x
    cases x <;> rfl

/-- The tickets are those of the submissions. -/
lemma TicketReach.submissions (h : TicketReach P stp memLevels x) :
    x.1.map (fun t => (t.symbol, t.id))
      = ((submissions x.2.history).map Prod.snd).map fun y => (y.1, y.2.id) := by
  induction h with
  | init => rfl
  | @step x y a _ _ hs ih =>
    obtain ⟨hs, hl⟩ := Machine.returns_logged.1 hs
    rw [hl, List.map_append, ih, ticket_submission, (step_desk hs).submissions, List.map_append]

lemma TicketReach.ids (h : TicketReach P stp memLevels x) : x.1.map (·.id) = x.2.submittedIds := by
  have hids := congrArg (List.map Prod.snd) h.submissions
  simp only [List.map_map] at hids
  rw [submittedIds_eq, List.map_map]
  exact hids

/-- A placed order has its ticket. -/
lemma TicketReach.placed (h : TicketReach P stp memLevels x) {s : Symbol} {o : Order}
    (ho : (s, o) ∈ x.2.placed) : ∃ t ∈ x.1, t.symbol = s ∧ t.id = o.id := by
  have hmem : (s, o.id) ∈ x.1.map fun t => (t.symbol, t.id) := by
    rw [h.submissions]
    exact List.mem_map.2 ⟨(s, o), (placed_sublist h.reach).subset ho, rfl⟩
  obtain ⟨t, ht, heq⟩ := List.mem_map.1 hmem
  exact ⟨t, ht, congrArg Prod.fst heq, congrArg Prod.snd heq⟩

/-! ### Staged orders -/

/-- The order is staged, or about to be. -/
def Staged (c : Config) (p : Pending) : Prop :=
  (∃ seq, c.engine.pending.lookup seq = some p) ∨ ∃ seq, Task.emplace seq p ∈ c.stack

/-- Only a submission stages an order. -/
lemma emplace_of_step {a : Act} (hc' : (c.step a).Returns c') {seq : ℕ} {p : Pending}
    (hp : Task.emplace seq p ∈ c'.stack) :
    Task.emplace seq p ∈ c.stack ∨ c.ticket? a = some p.ticket := by
  cases step_turn hc' with
  | stay _ => exact .inl hp
  | wake hk hw =>
    cases hw with
    | close _ _ => exact absurd (routine_failures _ _ _ hp) id
    | _ => simp at hp
  | run hk hr =>
    rcases List.mem_append.1 hp with hmem | hmem
    swap
    · exact .inl (hk ▸ List.mem_cons_of_mem _ hmem)
    have hpush := hr.pushes
    cases hr with
    | submit symbol owner order uuid =>
      -- the tasks of the submission stage one order, the one of the ticket
      obtain ⟨l, hpulls, -⟩ := ensurePosition_spec (c.engine.assign owner order).1 symbol owner
        (c.engine.assign owner order).2.clientId
      simp only [Engine.submit, List.mem_append, List.mem_cons, List.not_mem_nil, or_false] at hmem
      rcases hmem with hmem | hmem | hmem
      · rcases hpulls.eq_send with hnil | hsend
        · exact absurd (hnil ▸ hmem) List.not_mem_nil
        · rw [hsend, List.mem_singleton] at hmem
          exact Task.noConfusion hmem
      · obtain ⟨-, rfl⟩ := Task.emplace.inj hmem
        exact .inr (by simp only [ticket?, hk]; rfl)
      · exact Task.noConfusion hmem
    | _ => exact absurd (hpush.routine_of_ne (by simp) _ hmem) id

/-- The queue has the orders that it had, and the order that is staged. -/
lemma pending_of_step (hc : ClientOk c) {a : Act} (hc' : (c.step a).Returns c') {seq : ℕ}
    {p : Pending} (hp : c'.engine.pending.lookup seq = some p) :
    ∃ q, Staged c q ∧ q.ticket = p.ticket := by
  have hold : ∀ {seq q}, c.staging.queue.lookup seq = some q → Staged c q := fun h => .inl ⟨_, h⟩
  have hp : c'.staging.queue.lookup seq = some p := hp
  rcases step_staging hc hc' with hm | ⟨resp, reply, k, -, hcb⟩
  · generalize c'.staging = s' at hm hp
    cases hm with
    | stage hi hd =>
      rename_i seq' p' inc d
      by_cases hs : seq = seq'
      · subst hs
        rw [AList.lookup_insert] at hp
        obtain rfl := Option.some.inj hp
        have hmem : (seq, p') ∈ c.stack.filterMap Task.staged? := hi.symm.subset (by simp)
        obtain ⟨f, hf, hst⟩ := List.mem_filterMap.1 hmem
        cases f <;> simp only [Task.staged?, reduceCtorEq, Option.some.injEq] at hst
        obtain ⟨rfl, rfl⟩ := Prod.mk.inj hst
        exact ⟨_, .inr ⟨_, hf⟩, rfl⟩
      · rw [AList.lookup_insert_ne hs] at hp
        exact ⟨p, hold hp, rfl⟩
    | take => exact ⟨p, hold (Map.lookup_of_erase hp), rfl⟩
    | _ => exact ⟨p, hold hp, rfl⟩
  · generalize c'.staging = s' at hcb hp
    cases hcb with
    | @answer seq' reply a d _ _ _ =>
      simp only [Staging.acked] at hp
      cases hq : c.staging.queue.lookup seq' with
      | none =>
        rw [hq] at hp
        exact ⟨p, hold hp, rfl⟩
      | some q =>
        rw [hq] at hp
        by_cases hs : seq = seq'
        · subst hs
          rw [AList.lookup_insert] at hp
          exact ⟨q, hold hq, Option.some.inj hp ▸ rfl⟩
        · rw [AList.lookup_insert_ne hs] at hp
          exact ⟨p, hold hp, rfl⟩
    | ready =>
      rw [Map.lookup_mapVal] at hp
      obtain ⟨q, hq, rfl⟩ := Option.map_eq_some_iff.1 hp
      refine ⟨q, hold hq, ?_⟩
      unfold Engine.markReady
      split_ifs <;> rfl

/-- Every staged order has its ticket. -/
lemma TicketReach.staged (h : TicketReach P stp memLevels x) :
    ∀ p, Staged x.2 p → p.ticket ∈ x.1 := by
  induction h with
  | init =>
    rintro p (⟨seq, hp⟩ | ⟨seq, hp⟩)
    · exact absurd hp (by simp [init])
    · exact absurd hp List.not_mem_nil
  | @step x y a hr _ hs ih =>
    obtain ⟨hs, hl⟩ := Machine.returns_logged.1 hs
    rw [hl]
    rintro p (⟨seq, hp⟩ | ⟨seq, hp⟩)
    · obtain ⟨q, hq, heq⟩ := pending_of_step (clientOk_of_reach (TicketReach.reach hr)) hs hp
      exact List.mem_append_left _ (heq ▸ ih q hq)
    · rcases emplace_of_step hs hp with hp | ht
      · exact List.mem_append_left _ (ih p (.inr ⟨seq, hp⟩))
      · exact List.mem_append_right _ (by simp [ht])

end Config

/-! ### Handles -/

namespace Engine

variable {e : Engine}

/-- The id of a handle leads back to its uuid. -/
def Known (e : Engine) : Prop :=
  ∀ uuid h, e.handles.lookup uuid = some h → e.idUuid.lookup h.id = some uuid

/-- All handles and ids of `e'` are in `e`. -/
structure Fewer (e' e : Engine) : Prop where
  handles : ∀ uuid h, e'.handles.lookup uuid = some h → e.handles.lookup uuid = some h
  idUuid : ∀ id uuid, e'.idUuid.lookup id = some uuid → e.idUuid.lookup id = some uuid

lemma Fewer.refl (e : Engine) : Fewer e e := ⟨fun _ _ h => h, fun _ _ h => h⟩

lemma Fewer.trans {e₁ e₂ : Engine} (h : Fewer e₂ e₁) (h' : Fewer e₁ e) : Fewer e₂ e :=
  ⟨fun u x hx => h'.handles u x (h.handles u x hx),
    fun i u hu => h'.idUuid i u (h.idUuid i u hu)⟩

/-- Drop a handle and its id. -/
def dropHandle (e : Engine) (uuid : String) (id : OrderId) : Engine :=
  { e with handles := e.handles.erase uuid, idUuid := e.idUuid.erase id }

lemma fewer_dropHandle (e : Engine) (uuid : String) (id : OrderId) :
    Fewer (e.dropHandle uuid id) e where
  handles _ _ := Map.lookup_of_erase
  idUuid _ _ := Map.lookup_of_erase

lemma lookup_dropHandle {uuid u : String} {id : OrderId} {h : Handle}
    (hu : (e.dropHandle uuid id).handles.lookup u = some h) : u ≠ uuid := by
  rintro rfl
  rw [dropHandle, AList.lookup_erase] at hu
  exact absurd hu (by simp)

/-- The id belongs to the uuid, if to any. -/
lemma Known.dropHandle (hk : e.Known) (uuid : String) (id : OrderId)
    (hid : ∀ u, e.idUuid.lookup id = some u → u = uuid) : (e.dropHandle uuid id).Known := by
  intro u h hu
  have hold := hk u h ((fewer_dropHandle e uuid id).handles u h hu)
  have hne : h.id ≠ id := by
    rintro rfl
    exact lookup_dropHandle hu (hid u hold)
  rwa [Engine.dropHandle, AList.lookup_erase_ne hne]

/-- One round of `prune_filled`. -/
lemma pruneOne_cases (symbol : Symbol) (e : Engine) (t : Trade) :
    Engine.pruneOne symbol e t = e ∧ (e.matching.find symbol t.makerId ≠ none ∨
        e.idUuid.lookup t.makerId = none) ∨
      ∃ uuid, e.idUuid.lookup t.makerId = some uuid ∧ e.matching.find symbol t.makerId = none ∧
        Engine.pruneOne symbol e t = e.dropHandle uuid t.makerId := by
  unfold Engine.pruneOne
  split_ifs with hfind
  · exact .inl ⟨rfl, .inl (Option.isSome_iff_ne_none.1 hfind)⟩
  · cases hid : e.idUuid.lookup t.makerId with
    | none => exact .inl ⟨rfl, .inr rfl⟩
    | some uuid =>
      exact .inr ⟨uuid, rfl, by simpa using hfind, rfl⟩

/-- What is left after `prune_filled`: the handles of makers that are still in the book. -/
lemma prune_spec (symbol : Symbol) (trades : List Trade) (e : Engine) :
    Fewer (trades.foldl (Engine.pruneOne symbol) e) e ∧
      (e.Known → (trades.foldl (Engine.pruneOne symbol) e).Known ∧
        ∀ uuid h, (trades.foldl (Engine.pruneOne symbol) e).handles.lookup uuid = some h →
          ∀ t ∈ trades, t.makerId = h.id → e.matching.find symbol h.id ≠ none) := by
  induction trades generalizing e with
  | nil => exact ⟨.refl e, fun hk => ⟨hk, by simp⟩⟩
  | cons t trades ih =>
    rw [List.foldl_cons]
    obtain ⟨hsub, hrest⟩ := ih (Engine.pruneOne symbol e t)
    rcases pruneOne_cases symbol e t with ⟨heq, hwhy⟩ | ⟨uuid, hid, hfind, heq⟩
    · rw [heq] at hsub hrest ⊢
      refine ⟨hsub, fun hk => ⟨(hrest hk).1, fun u h hu t' ht' hmk => ?_⟩⟩
      rcases List.mem_cons.1 ht' with rfl | ht'
      · rw [hmk] at hwhy
        refine hwhy.resolve_right fun hnone => ?_
        rw [hk u h (hsub.handles u h hu)] at hnone
        exact absurd hnone (by simp)
      · exact (hrest hk).2 u h hu t' ht' hmk
    · rw [heq] at hsub hrest ⊢
      have hdrop := fewer_dropHandle e uuid t.makerId
      refine ⟨hsub.trans hdrop, fun hk => ?_⟩
      have hknown := hk.dropHandle uuid t.makerId fun u hu =>
        Option.some.inj (hu.symm.trans hid)
      refine ⟨(hrest hknown).1, fun u h hu t' ht' hmk => ?_⟩
      rcases List.mem_cons.1 ht' with rfl | ht'
      · -- the handle of this maker was dropped
        have hu' := hsub.handles u h hu
        have hold := hk u h (hdrop.handles u h hu')
        rw [← hmk, hid] at hold
        exact absurd (Option.some.inj hold).symm (lookup_dropHandle hu')
      · exact (hrest hknown).2 u h hu t' ht' hmk

/-- A placement registers the order, if it rests. -/
lemma handles_placeEngine (e : Engine) (p : Pending) (r : Book × SubmitOutcome) :
    (Config.placeEngine e p r).handles
        = (if Engine.rests r.2 = true then (e.register p).handles else e.handles) ∧
      (Config.placeEngine e p r).idUuid
        = (if Engine.rests r.2 = true then (e.register p).idUuid else e.idUuid) := by
  unfold Config.placeEngine
  dsimp only
  by_cases hr : Engine.rests r.2 = true
  · rw [if_pos hr, if_pos hr, if_pos hr]
    exact ⟨rfl, rfl⟩
  · rw [if_neg hr, if_neg hr, if_neg hr]
    exact ⟨rfl, rfl⟩

/-- The handles after a placement. -/
lemma lookup_placeEngine {p : Pending} {r : Book × SubmitOutcome} {uuid : String} {h : Handle}
    (hu : (Config.placeEngine e p r).handles.lookup uuid = some h) :
    e.handles.lookup uuid = some h ∨
      (Engine.rests r.2 = true ∧ uuid = p.orderUuid ∧ h = ⟨p.symbol, p.order.id, p.owner⟩) := by
  rw [(handles_placeEngine e p r).1] at hu
  split_ifs at hu with hr
  · simp only [Engine.register] at hu
    split_ifs at hu with hin
    · exact .inl hu
    · by_cases hne : uuid = p.orderUuid
      · subst hne
        rw [AList.lookup_insert] at hu
        exact .inr ⟨hr, rfl, (Option.some.inj hu).symm⟩
      · rw [AList.lookup_insert_ne hne] at hu
        exact .inl hu
  · exact .inl hu

/-- The ids after the placement of an order with a new id. -/
lemma lookup_idUuid_placeEngine {p : Pending} {r : Book × SubmitOutcome}
    (hnew : e.idUuid.lookup p.order.id = none) (id : OrderId) :
    (Config.placeEngine e p r).idUuid.lookup id
      = if Engine.rests r.2 = true ∧ id = p.order.id then some p.orderUuid
        else e.idUuid.lookup id := by
  rw [(handles_placeEngine e p r).2]
  by_cases hr : Engine.rests r.2 = true
  · simp only [if_pos hr, Engine.register, hnew]
    by_cases hid : id = p.order.id
    · subst hid
      simp [hr, AList.lookup_insert]
    · simp [hid, AList.lookup_insert_ne hid]
  · simp [hr]

end Engine

namespace Config

variable {c c' : Config} {P : List Ticket × Config → Act → Prop} {stp : StpPolicy}
  {memLevels : ℕ} {x : List Ticket × Config} {ts : List Ticket}

/-- The uuid was given out for the order. -/
def Issued (ts : List Ticket) (uuid : String) (id : OrderId) : Prop :=
  ∃ t ∈ ts, t.uuid = uuid ∧ t.id = id

lemma Issued.append {uuid : String} {id : OrderId} (h : Issued ts uuid id) (l : List Ticket) :
    Issued (ts ++ l) uuid id := by
  obtain ⟨t, ht, hrest⟩ := h
  exact ⟨t, List.mem_append_left _ ht, hrest⟩

/-- An order has one uuid. -/
lemma Issued.unique (hn : (ts.map (·.id)).Nodup) {u v : String} {id : OrderId}
    (h : Issued ts u id) (h' : Issued ts v id) : u = v := by
  obtain ⟨t, ht, rfl, rfl⟩ := h
  obtain ⟨t', ht', rfl, hid⟩ := h'
  rw [List.inj_on_of_nodup_map hn ht ht' hid.symm]

/-- The handles belong to tickets of orders that were placed. -/
structure Filed (ts : List Ticket) (c : Config) : Prop where
  ticket : ∀ uuid h, c.engine.handles.lookup uuid = some h → h.ticket uuid ∈ ts
  known : c.engine.Known
  placed : ∀ id uuid, c.engine.idUuid.lookup id = some uuid → id ∈ c.placed.map (·.2.id)
  issued : ∀ id uuid, c.engine.idUuid.lookup id = some uuid → Issued ts uuid id
  forgets : ∀ uuid id, Task.forget uuid id ∈ c.stack → Issued ts uuid id

lemma head_staged {p : Pending} (hp : c.engine.head? = some p) : Staged c p :=
  .inl ⟨_, (Option.filter_eq_some_iff.1 hp).1⟩

lemma handle_of_cancelResult {e : Engine} {uuid requester : String} {h : Handle}
    (hr : e.cancelResult uuid requester = .ok h) :
    e.handles.lookup uuid = some h ∧ h.owner = requester := by
  unfold Engine.cancelResult at hr
  cases hl : e.handles.lookup uuid with
  | none => simp [hl] at hr
  | some h' =>
    rw [hl] at hr
    dsimp only at hr
    split_ifs at hr with ho
    obtain rfl := CancelResult.ok.inj hr
    exact ⟨rfl, ho⟩

lemma forget_notMem_afterPlace (seq : ℕ) (p : Pending) (out : SubmitOutcome) (uuid : String)
    (id : OrderId) : Task.forget uuid id ∉ Engine.afterPlace seq p out := by
  rw [← List.append_nil (Engine.afterPlace seq p out), afterPlace_append]
  intro hmem
  simp only [List.mem_append, List.mem_cons, doneTasks] at hmem
  rcases hmem with hmem | hmem | hmem
  · exact sends_placeTasks p out _ hmem
  · exact Task.noConfusion hmem
  · simp at hmem

lemma Deed.placed {op : Ledger.Op} (h : Deed c (some op) c') :
    c'.placed = c.placed ++ op.placed := by
  obtain ⟨-, -, -, hp⟩ := h.exec
  exact hp

/-- The same handles, and nothing new to forget. -/
lemma Filed.same (h : Filed ts c) (l : List Ticket) (hh : c'.engine.handles = c.engine.handles)
    (hi : c'.engine.idUuid = c.engine.idUuid) (hp : c.placed ⊆ c'.placed)
    (hf : ∀ uuid id, Task.forget uuid id ∈ c'.stack → Task.forget uuid id ∈ c.stack ∨
      Issued ts uuid id) : Filed (ts ++ l) c' where
  ticket uuid x hx := List.mem_append_left _ (h.ticket uuid x (hh ▸ hx))
  known uuid x hx := hi ▸ h.known uuid x (hh ▸ hx)
  placed id uuid hu := List.map_subset _ hp (h.placed id uuid (hi ▸ hu))
  issued id uuid hu := (h.issued id uuid (hi ▸ hu)).append l
  forgets uuid id hmem := by
    rcases hf uuid id hmem with hmem | hmem
    · exact (h.forgets uuid id hmem).append l
    · exact hmem.append l

/-- Fewer handles. -/
lemma Filed.fewer (h : Filed ts c) (l : List Ticket) (hfew : Engine.Fewer c'.engine c.engine)
    (hk : c'.engine.Known) (hp : c'.placed = c.placed)
    (hf : ∀ f ∈ c'.stack, f ∈ c.stack) : Filed (ts ++ l) c' where
  ticket uuid x hx := List.mem_append_left _ (h.ticket uuid x (hfew.handles uuid x hx))
  known := hk
  placed id uuid hu := hp ▸ h.placed id uuid (hfew.idUuid id uuid hu)
  issued id uuid hu := (h.issued id uuid (hfew.idUuid id uuid hu)).append l
  forgets uuid id hmem := (h.forgets uuid id (hf _ hmem)).append l

/-- The order of a placement is registered under the uuid of its ticket. -/
lemma Filed.place (h : Filed ts c) (l : List Ticket) {p : Pending} {r : Book × SubmitOutcome}
    (hp : p.ticket ∈ ts) (hnew : p.order.id ∉ c.placed.map (·.2.id))
    (he : c'.engine = placeEngine c.engine p r)
    (hpl : c'.placed = c.placed ++ [(p.symbol, p.order)])
    (hf : ∀ uuid id, Task.forget uuid id ∈ c'.stack → Task.forget uuid id ∈ c.stack) :
    Filed (ts ++ l) c' := by
  have hnone : c.engine.idUuid.lookup p.order.id = none := by
    cases hid : c.engine.idUuid.lookup p.order.id with
    | none => rfl
    | some u => exact absurd (h.placed _ _ hid) hnew
  refine ⟨fun uuid x hx => ?_, fun uuid x hx => ?_, fun id uuid hu => ?_, fun id uuid hu => ?_,
    fun uuid id hmem => (h.forgets uuid id (hf uuid id hmem)).append l⟩
  · rw [he] at hx
    refine List.mem_append_left _ ?_
    rcases Engine.lookup_placeEngine hx with hx | ⟨-, rfl, rfl⟩
    · exact h.ticket uuid x hx
    · exact hp
  · rw [he] at hx ⊢
    rw [Engine.lookup_idUuid_placeEngine hnone]
    rcases Engine.lookup_placeEngine hx with hx | ⟨hr, rfl, rfl⟩
    · have hold := h.known uuid x hx
      have hne : x.id ≠ p.order.id := by
        intro heq
        rw [heq, hnone] at hold
        exact absurd hold (by simp)
      rwa [if_neg (by simp [hne])]
    · rw [if_pos ⟨hr, rfl⟩]
  · rw [he, Engine.lookup_idUuid_placeEngine hnone] at hu
    rw [hpl, List.map_append]
    split_ifs at hu with hr
    · exact List.mem_append_right _ (by simp [hr.2])
    · exact List.mem_append_left _ (h.placed id uuid hu)
  · rw [he, Engine.lookup_idUuid_placeEngine hnone] at hu
    split_ifs at hu with hr
    · exact Issued.append ⟨_, hp, Option.some.inj hu, hr.2.symm⟩ l
    · exact (h.issued id uuid hu).append l

/-- Every step keeps the handles filed. -/
lemma Filed.step (h : Filed ts c) (hn : (ts.map (·.id)).Nodup)
    (hst : ∀ p, Staged c p → p.ticket ∈ ts) {op : Option Ledger.Op} (hd : Deed c op c')
    (hnew : ∀ o, op = some o → Novel c o) (l : List Ticket) : Filed (ts ++ l) c' := by
  cases hd with
  | @place p r k hk hp hok hr =>
    have hpl := Deed.placed (.place hk hp hok hr)
    refine h.place l (hst p (head_staged hp)) (hnew _ rfl (p.symbol, p.order) ?_).1 rfl hpl ?_
    · simp [Ledger.Op.placed]
    · intro uuid id hmem
      rcases List.mem_append.1 hmem with hmem | hmem
      · exact absurd hmem (forget_notMem_afterPlace _ p r.2 uuid id)
      · exact hk ▸ List.mem_cons_of_mem _ hmem
  | @cancel u requester x k hk hr =>
    have hpl := Deed.placed (.cancel hk hr)
    refine h.same l rfl rfl (hpl ▸ List.subset_append_left _ _) fun uuid id hmem => ?_
    simp only [List.mem_cons, reduceCtorEq, false_or] at hmem
    rcases hmem with hmem | hmem
    · obtain ⟨rfl, rfl⟩ := Task.forget.inj hmem
      exact .inr ⟨_, h.ticket uuid x (handle_of_cancelResult hr).1, rfl, rfl⟩
    · exact .inl (hk ▸ List.mem_cons_of_mem _ hmem)
  | @auction s opening r k hk hr =>
    have hpl := Deed.placed (.auction hk hr)
    refine h.same l rfl rfl (hpl ▸ List.subset_append_left _ _) fun uuid id hmem => .inl ?_
    simp only [Engine.reportAuction, List.append_assoc, List.mem_append, List.mem_cons,
      reduceCtorEq, List.not_mem_nil, or_false, false_or] at hmem
    rcases hmem with hmem | hmem
    · exact (sends_reportTrades _ _ _ hmem).elim
    · exact hk ▸ List.mem_cons_of_mem _ hmem
  | @pull s side reply k hk =>
    have hpl := Deed.placed (.pull hk)
    obtain ⟨-, h2, h3⟩ := onPull_desk c.engine s side
      ((reply.map StorageClient.pulledOrders).getD [])
    refine h.same l h2 h3 (by rw [hpl]; exact List.subset_append_left _ _)
      fun uuid id hmem => .inl ?_
    rcases List.mem_append.1 hmem with hmem | hmem
    · rcases tasks_onPull c.engine s side ((reply.map StorageClient.pulledOrders).getD []) with
        ht | ht <;> simp [ht] at hmem
    · exact hk ▸ List.mem_cons_of_mem _ hmem
  | quiet hB hp hdrop =>
    have hpl : c'.placed = c.placed := by rw [Config.placed, placements_of_deals hp]; rfl
    cases hdrop with
    | none hh hi hk =>
      exact h.same l hh hi (hpl ▸ List.Subset.refl _) fun uuid id hmem => .inl ((hk _ rfl).1 hmem)
    | @prune s trades k hk heq =>
      subst heq
      obtain ⟨hfew, hknown⟩ := Engine.prune_spec s trades c.engine
      exact h.fewer l hfew (hknown h.known).1 hpl fun f hf => hk ▸ List.mem_cons_of_mem _ hf
    | @forget uuid id k hk heq =>
      subst heq
      have hissued := h.forgets uuid id (hk ▸ List.mem_cons_self)
      have hsame : (c.forget uuid id k).engine.handles = (c.engine.dropHandle uuid id).handles ∧
          (c.forget uuid id k).engine.idUuid = (c.engine.dropHandle uuid id).idUuid := by
        unfold forget
        dsimp only
        split_ifs <;> exact ⟨rfl, rfl⟩
      have hfew := Engine.fewer_dropHandle c.engine uuid id
      have hknown : (c.engine.dropHandle uuid id).Known := h.known.dropHandle _ _ fun u hu =>
        Issued.unique hn (h.issued id u hu) hissued
      refine h.fewer l ⟨fun u x hx => ?_, fun i u hu => ?_⟩ (fun u x hx => ?_) hpl
        fun f hf => hk ▸ List.mem_cons_of_mem _ hf
      · exact hfew.handles u x (hsame.1 ▸ hx)
      · exact hfew.idUuid i u (hsame.2 ▸ hu)
      · rw [hsame.1] at hx
        rw [hsame.2]
        exact hknown u x hx

end Config

end Codicis
