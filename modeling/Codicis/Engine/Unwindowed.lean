/-
The engine without a resident window.

With `mem_levels = 0` the engine never pulls levels (`noPull_of_reach`), and while its
connection is open its runs are runs of a ledger (`ledger_of_reach`): an order is placed
under an identifier that was not used before, and each operation is reported before the
next one.
-/
import Codicis.Engine.Reports
import Codicis.Engine.Desk

namespace Codicis

/-- The callback belongs to a level pull. -/
def Resp.isPull : Resp → Bool
  | pull _ _ => true
  | _ => false

namespace Config

variable {c c' : Config} {f : Task} {k k₁ : List Task}

/-- No task of the stack belongs to a level pull. -/
def NoPulls (k : List Task) : Prop := ∀ f ∈ k, ∀ r, f.resp? = some r → r.isPull = false

/-- No level pull is in flight. -/
structure NoPull (c : Config) : Prop where
  window : c.engine.memLevels = 0
  stack : NoPulls c.stack
  pending : ∀ id r, c.client.pending.lookup id = some r → r.isPull = false

lemma noPulls_nil : NoPulls [] := by
  intro f hf
  exact absurd hf List.not_mem_nil

lemma noPulls_cons : NoPulls (f :: k) ↔ (∀ r, f.resp? = some r → r.isPull = false) ∧ NoPulls k := by
  simp [NoPulls]

lemma NoPulls.append (h : NoPulls k) (h₁ : NoPulls k₁) : NoPulls (k₁ ++ k) :=
  List.forall_mem_append.2 ⟨h₁, h⟩

lemma noPulls_failures {cl : Client} (h : ∀ id r, cl.pending.lookup id = some r → r.isPull = false)
    (ids : List ℕ) : NoPulls (cl.failures ids) := by
  intro f hf r hr
  obtain ⟨resp, hresp, rfl⟩ := List.mem_map.1 hf
  obtain ⟨i, -, hi⟩ := List.mem_filterMap.1 hresp
  obtain rfl := Option.some.inj hr
  exact h i resp hi

/-- A request that is handed over is not a pull. -/
lemma noPull_transmit {cl : Client} (req : Request) {resp : Resp}
    (h : ∀ id r, cl.pending.lookup id = some r → r.isPull = false) (hr : resp.isPull = false) :
    ∀ id r, (cl.transmit req resp).pending.lookup id = some r → r.isPull = false := by
  intro id r hlk
  simp only [Client.transmit, Map.lookup_insert_eq] at hlk
  split_ifs at hlk
  · exact Option.some.inj hlk ▸ hr
  · exact h id r hlk

/-- A request that is settled leaves the others in flight. -/
lemma noPull_settle {cl : Client} (h : ∀ id r, cl.pending.lookup id = some r → r.isPull = false)
    (id : ℕ) : ∀ i r, (cl.settle id).pending.lookup i = some r → r.isPull = false :=
  fun i r hlk => h i r (Map.lookup_of_erase hlk)

lemma noPulls_map {α : Type} {g : α → Task} (h : ∀ x, NoPulls [g x]) (l : List α) :
    NoPulls (l.map g) := by
  intro f hf
  obtain ⟨x, -, rfl⟩ := List.mem_map.1 hf
  exact h x _ (List.mem_singleton.2 rfl)

lemma noPulls_reportTrades (symbol : Symbol) (trades : List Trade) :
    NoPulls (Engine.reportTrades symbol trades) :=
  noPulls_map (fun _ => by simp [NoPulls, Task.resp?, Resp.isPull]) trades

lemma noPulls_reportResults (symbol : Symbol) (taker : Order) (out : SubmitOutcome) :
    NoPulls (Engine.reportResults symbol taker out) := by
  refine NoPulls.append (by simp [NoPulls, Task.resp?])
    (NoPulls.append ?_ (noPulls_reportTrades symbol _))
  unfold Engine.reportTaker
  split_ifs <;> simp [NoPulls, Task.resp?, Resp.isPull]

lemma noPulls_afterPlace (seq : ℕ) (p : Pending) (out : SubmitOutcome) :
    NoPulls (Engine.afterPlace seq p out) := by
  refine NoPulls.append (by simp [NoPulls, Task.resp?])
    (NoPulls.append (noPulls_reportResults p.symbol p.order out) ?_)
  split_ifs <;> simp [NoPulls, Task.resp?, Resp.isPull]

/-- No task brings a level pull. -/
lemma Runs.noPull {a : Act} {e : Engine} {cl : Client} {evs : List Event} (h : NoPull c)
    (hk : c.stack = f :: k) (hr : Runs c.engine c.client a f e cl k₁ evs) :
    NoPull ⟨e, cl, k₁ ++ k, c.history ++ evs⟩ := by
  have hold := h.stack
  rw [hk, noPulls_cons] at hold
  have hkeep : e.memLevels = c.engine.memLevels → NoPulls k₁ → cl.pending = c.client.pending →
      NoPull ⟨e, cl, k₁ ++ k, c.history ++ evs⟩ :=
    fun hw h₁ hp => ⟨hw.trans h.window, hold.2.append h₁, hp ▸ h.pending⟩
  cases hr with
  | submit symbol owner order uuid =>
    obtain ⟨p, l, pull, hpulls, -, -, -, hcore, -, -, htasks⟩ :=
      submit_spec c.engine symbol owner order uuid
    refine hkeep (congrArg Core.memLevels hcore) ?_ rfl
    rw [htasks]
    rcases hpulls.eq_send with rfl | rfl <;> simp [NoPulls, Task.resp?, Resp.isPull]
  | auction _ =>
    refine hkeep rfl (NoPulls.append (by simp [NoPulls, Task.resp?]) ?_) rfl
    exact NoPulls.append (by simp [NoPulls, Task.resp?]) (noPulls_reportTrades _ _)
  | report | refuse => exact hkeep rfl (by simpa [NoPulls, Task.resp?] using hold.1) rfl
  | stash id kind => exact hkeep rfl noPulls_nil (client_stash _ id kind).1
  | @transmit req resp _ =>
    exact ⟨h.window, hold.2, noPull_transmit req h.pending (hold.1 resp rfl)⟩
  | @breaks req resp ids _ _ =>
    refine ⟨h.window, hold.2.append (noPulls_failures
      (noPull_transmit req h.pending (hold.1 resp rfl)) ids), fun id r hlk => ?_⟩
    simp [Client.shut] at hlk
  | answered seq reply =>
    refine hkeep ?_ ?_ (pending_acknowledge _ reply).1 <;> unfold Engine.onOrder <;>
      cases c.engine.pending.lookup seq <;> simp [NoPulls, Task.resp?]
  | seeded symbol client reply =>
    refine hkeep ?_ (by simp [NoPulls, Task.resp?]) rfl
    cases reply <;> rfl
  | pulled symbol side reply => exact absurd (hold.1 _ rfl) (by simp [Resp.isPull])
  | reported reply =>
    refine hkeep ?_ noPulls_nil (pending_acknowledge _ reply).1
    cases reply <;> rfl
  | @expire id resp ids hid =>
    refine ⟨h.window, hold.2.append ?_, noPull_settle h.pending id⟩
    simpa [NoPulls, Task.resp?] using h.pending id resp hid
  | @deepen p hp hd =>
    rw [(ensureDepth_spec c.engine p.symbol p.order).2.2.1 h.window] at hd
    exact absurd hd (by simp)
  | @place p r _ _ _ _ =>
    refine hkeep ?_ (noPulls_afterPlace c.engine.nextPlaceSeq p r.2) rfl
    split_ifs <;> rfl
  | requeued symbol =>
    exact hkeep rfl (noPulls_map (fun _ => by simp [NoPulls, Task.resp?, Resp.isPull]) _) rfl
  | prune symbol trades =>
    exact hkeep (congrArg Core.memLevels (core_foldl (core_pruneOne symbol) trades c.engine))
      noPulls_nil rfl
  | user done calls =>
    exact hkeep rfl (noPulls_map (fun _ => by simp [NoPulls, Task.resp?]) calls) rfl
  | _ => exact hkeep rfl (by simp [NoPulls, Task.resp?, Resp.isPull]) rfl

lemma step_noPull (h : NoPull c) {a : Act} (hc' : (c.step a).Returns c') : NoPull c' := by
  cases step_turn hc' with
  | stay _ => exact h
  | run hk hr => exact hr.noPull h hk
  | wake hk hw =>
    cases hw with
    | call x | timeout ids => exact ⟨h.window, by simp [NoPulls, Task.resp?], h.pending⟩
    | reply hid =>
      refine ⟨h.window, ?_, noPull_settle h.pending _⟩
      simpa [NoPulls, Task.resp?] using h.pending _ _ hid
    | close _ _ =>
      refine ⟨h.window, noPulls_failures h.pending _, fun id r hlk => ?_⟩
      simp [Client.shut] at hlk

variable {P : Config → Act → Prop} {stp : StpPolicy}

/-- Without a window nothing is pulled. -/
theorem noPull_of_reach (h : Reach P stp 0 c) : NoPull c := by
  induction h with
  | init => exact ⟨rfl, noPulls_nil, fun id r hlk => absurd hlk (by simp [init])⟩
  | step _ _ hs ih => exact step_noPull ih hs

lemma op_native (h : NoPull c) {a : Act} {op : Ledger.Op} (hop : c.op? a = some op) :
    op.native = true := by
  unfold op? at hop
  split at hop
  · split at hop
    · split at hop
      · split_ifs at hop
        exact Option.some.inj hop ▸ rfl
      · exact absurd hop (by simp)
    · split at hop
      · exact Option.some.inj hop ▸ rfl
      · exact absurd hop (by simp)
    · exact Option.some.inj hop ▸ rfl
    · rename_i hk
      exact absurd (h.stack _ (hk ▸ List.mem_cons_self) _ rfl) (by simp [Resp.isPull])
    · exact absurd hop (by simp)
  · exact absurd hop (by simp)

/-- What every submission satisfies, all submitted orders satisfy. -/
lemma submissions_forall {Q : Symbol × Order → Prop} {memLevels : ℕ}
    (h : Reach P stp memLevels c) (hP : ∀ c a, P c a → ∀ x, c.submission? a = some x → Q x) :
    ∀ x ∈ (submissions c.history).map Prod.snd, Q x := by
  induction h with
  | init => exact fun x hx => absurd hx List.not_mem_nil
  | @step c c' a hr ha hs ih =>
    rw [(step_desk hs).submissions]
    exact List.forall_mem_append.2 ⟨ih, fun x hx => hP c a ha x (Option.mem_toList.1 hx)⟩

/-- The orders that were placed, in the order of their submission. -/
def placed (c : Config) : List (Symbol × Order) := (placements c.history).map Prod.snd

lemma placed_sublist {memLevels : ℕ} (h : Reach P stp memLevels c) :
    c.placed.Sublist ((submissions c.history).map Prod.snd) :=
  (arrivalOrder_of_inv (inv_of_reach h)).in_order.map _

/-- As long as the connection is open, a run of the engine is a run of its ledger. -/
theorem ledger_of_reach {C : (Symbol → Book) → Ledger.Op → Prop} (h : Reach P stp 0 c)
    (hids : ∀ c, Reach P stp 0 c → c.submittedIds.Nodup)
    (hP : ∀ c a, P c a → a.opens = true ∧ (∀ x, c.submission? a = some x → 0 ≤ x.2.displayQty) ∧
      ∀ op, c.op? a = some op → C c.books op) :
    ∃ ws, Flowing c ws ∧
      Ledger.Reach (fun L op => op.native = true ∧ C L.books op) stp c.placed (c.ledger ws) := by
  induction h with
  | init =>
    refine ⟨[], ⟨rfl, .idle (by simp [init]) fun s => rfl⟩, ?_⟩
    have hinit : (init stp 0).ledger [] = Ledger.init stp := rfl
    rw [hinit]
    exact .init
  | @step c c' a hr ha hs ih =>
    obtain ⟨ws, hflow, hreach⟩ := ih
    obtain ⟨hopen, -, hop⟩ := hP c a ha
    obtain ⟨ws', hflow', hstep⟩ := step_ledger hflow hopen hs
    refine ⟨ws', hflow', ?_⟩
    cases hop? : c.op? a with
    | none =>
      rw [hop?] at hstep
      rw [placed, hstep.2]
      exact hreach.quiet hstep.1
    | some op =>
      rw [hop?] at hstep
      obtain ⟨hexec, hreq, hpl⟩ := hstep
      have hr' : Reach P stp 0 c' := hr.step ha hs
      -- the new order is among the submitted ones, and their ids are different
      have hsub : (c.placed ++ op.placed).Sublist ((submissions c'.history).map Prod.snd) := by
        have := placed_sublist hr'
        rwa [placed, hpl] at this
      have hnodup : ((c.placed ++ op.placed).map (·.2.id)).Nodup := by
        refine (hsub.map _).nodup ?_
        have := hids c' hr'
        rwa [submittedIds_eq] at this
      rw [placed, hpl]
      refine hreach.step ⟨op_native (noPull_of_reach hr) hop?, hop op hop?⟩
        ⟨hreq, fun x hx => ⟨fun hmem => ?_, ?_⟩⟩ hexec
      · rw [List.map_append, List.nodup_append] at hnodup
        exact hnodup.2.2 _ hmem _ (List.mem_map_of_mem hx) rfl
      · exact submissions_forall (Q := fun x => 0 ≤ x.2.displayQty) hr'
          (fun c a ha => (hP c a ha).2.1) x (hsub.subset (List.mem_append_right _ hx))

/-- When control is in the event loop, everything is reported. -/
lemma Flowing.eq_nil {ws : List Write} (h : Flowing c ws) (hk : c.stack = []) : ws = [] := by
  have hrep := h.reporting
  rw [hk] at hrep
  cases hrep with
  | idle _ _ => rfl

/-! ### Orderly runs -/

/-- What the environment does in an orderly run: the connection stays open, submitted orders
have ids that were not used before and display quantities that are not negative, and each
operation on the books satisfies `C`. -/
structure Orderly (C : (Symbol → Book) → Ledger.Op → Prop) (c : Config) (a : Act) : Prop where
  opens : a.opens = true
  fresh : FreshIds c a
  display : ∀ x, c.submission? a = some x → 0 ≤ x.2.displayQty
  op : ∀ op, c.op? a = some op → C c.books op

/-- Check that a step is orderly. -/
def checkOrderly (C : (Symbol → Book) → Ledger.Op → Bool) (c : Config) (a : Act) : Bool :=
  a.opens && (c.submission? a).all (fun x => x.2.id ∉ c.submittedIds ∧ 0 ≤ x.2.displayQty) &&
    (c.op? a).all (C c.books)

lemma orderly_of_check {C : (Symbol → Book) → Ledger.Op → Prop}
    {C? : (Symbol → Book) → Ledger.Op → Bool} (hC : ∀ B op, C? B op = true → C B op) {a : Act}
    (h : checkOrderly C? c a = true) : Orderly C c a := by
  simp only [checkOrderly, Bool.and_eq_true, Option.all_eq_true, decide_eq_true_eq] at h
  obtain ⟨⟨hopen, hsub⟩, hop⟩ := h
  exact ⟨hopen, fun x hx => (hsub x hx).1, fun x hx => (hsub x hx).2, fun op h => hC _ _ (hop op h)⟩

/-- An orderly run is a run of the ledger; in the event loop everything is reported. -/
theorem Orderly.ledger_of_reach {C : (Symbol → Book) → Ledger.Op → Prop}
    (h : Reach (Orderly C) stp 0 c) (hk : c.stack = []) :
    Ledger.Reach (fun L op => op.native = true ∧ C L.books op) stp c.placed (c.ledger []) := by
  obtain ⟨ws, hflow, hreach⟩ := Config.ledger_of_reach (C := C) h
    (fun c hc => nodup_submittedIds hc fun c a ha => ha.fresh)
    fun c a ha => ⟨ha.opens, ha.display, ha.op⟩
  rwa [hflow.eq_nil hk] at hreach

end Config

end Codicis
