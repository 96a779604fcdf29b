/-
What a step of the engine does to the books and to the handles.

A step places an order, cancels one, runs an auction or takes the orders of a level pull;
or it leaves the orders in the books alone (`step_deed`).  The handle of an order that
rests is registered with its placement.  It is dropped by tasks that come later: `prune`,
for makers that are gone, and `forget`, for an order that was cancelled.  These tasks are
*due*: they stay on the stack until they run.

Whatever happens to the connection, the books of an engine without a window are well
formed and hold only orders that were placed (`booksOk_of_reach`).
-/
import Codicis.Engine.Unwindowed

namespace Codicis

/-- The task drops handles. -/
def Task.due : Task → Bool
  | prune _ _ => true
  | forget _ _ => true
  | _ => false

namespace Config

variable {c c' : Config} {f : Task} {k : List Task}

/-- The dropping of handles, and what is still due. -/
inductive Drops (c c' : Config) : Prop
  | none (h : c'.engine.handles = c.engine.handles) (h' : c'.engine.idUuid = c.engine.idUuid)
      (hk : ∀ f : Task, f.due = true → (f ∈ c'.stack ↔ f ∈ c.stack))
  | prune {symbol : Symbol} {trades : List Trade} {k : List Task}
      (hk : c.stack = .prune symbol trades :: k)
      (h : c' = { c with engine := trades.foldl (Engine.pruneOne symbol) c.engine, stack := k })
  | forget {uuid : String} {id : OrderId} {k : List Task} (hk : c.stack = .forget uuid id :: k)
      (h : c' = c.forget uuid id k)

/-- What a step that is no operation does to the books: nothing, but that the records of
re-queued orders are taken, or a position is seeded. -/
inductive Kept (c c' : Config) : Prop
  | same (h : c'.engine.matching = c.engine.matching)
  | requeued (s : Symbol) (h : c'.books = Function.update c.books s (c.books s).takeRequeued.1)
  | seeded {symbol : Symbol} {client : ClientId} {msg : HelperMessage} {k : List Task}
      (hk : c.stack = .deliver (.position symbol client) (some msg) :: k)
      (h : c'.books = Function.update c.books symbol
        ((c.books symbol).seedPosition client (StorageClient.pulledNet msg)))

/-- The engine after the placement of the head `p` of the queue, with the result `r`. -/
def placeEngine (e : Engine) (p : Pending) (r : Book × SubmitOutcome) : Engine :=
  let e := { e.takeHead with matching := e.matching.setBook p.symbol r.1 }
  if Engine.rests r.2 = true then e.register p else e

/-- What a step does, as an operation on the books. -/
inductive Deed (c : Config) : Option Ledger.Op → Config → Prop
  | place {p : Pending} {r : Book × SubmitOutcome} {k : List Task} (hk : c.stack = .drain :: k)
      (hp : c.engine.head? = some p) (hok : p.ok = true)
      (hr : ((c.books p.symbol).submit p.order).Returns r) :
      Deed c (some (.place p.symbol p.order))
        { c with engine := placeEngine c.engine p r,
                 stack := Engine.afterPlace c.engine.nextPlaceSeq p r.2 ++ k,
                 history := c.history ++ [.placed c.engine.nextPlaceSeq p.symbol p.order r.2] }
  | cancel {uuid requester : String} {h : Handle} {k : List Task}
      (hk : c.stack = .call (.cancel uuid requester) :: k)
      (hr : c.engine.cancelResult uuid requester = .ok h) :
      Deed c (some (.cancel h.symbol h.id))
        { c with engine := { c.engine with matching := (c.engine.matching.cancel h.symbol h.id).1 },
                 stack := .send (StorageClient.reportCancel h.symbol h.id) .ignored ::
                   .requeued h.symbol :: .forget uuid h.id :: k,
                 history := c.history ++ [.cancelled uuid (.ok h)] }
  | auction {symbol : Symbol} {opening : Bool} {r : Book × List Trade} {k : List Task}
      (hk : c.stack = .call (.runAuction symbol opening) :: k)
      (hr : (if opening = true then (c.books symbol).runOpeningAuction
        else (c.books symbol).runClosingAuction).Returns r) :
      Deed c (some (.auction symbol opening))
        { c with engine := { c.engine with matching := c.engine.matching.setBook symbol r.1 },
                 stack := Engine.reportAuction symbol r.2 ++
                   [Task.requeued symbol, Task.user none] ++ k,
                 history := c.history ++ [.auctioned symbol opening r.2] }
  | pull {symbol : Symbol} {side : Side} {reply : Option HelperMessage} {k : List Task}
      (hk : c.stack = .deliver (.pull symbol side) reply :: k) :
      Deed c (some (.pull symbol side (((reply.map StorageClient.pulledOrders).getD []).filter
        (·.id ∉ c.engine.pullIgnore)))) (c.deliver (.pull symbol side) reply k)
  | quiet {c' : Config} (hB : Kept c c') (hh : deals c'.history = deals c.history)
      (hd : Drops c c') : Deed c none c'

/-! ### Quiet steps -/

lemma Kept.alike (h : Kept c c') (s : Symbol) : (c.books s).Alike (c'.books s) := by
  cases h with
  | same h =>
    rw [books, books, h]
    exact .refl _
  | requeued s' h =>
    rw [h, Function.update_apply]
    split_ifs with hs
    · subst hs
      exact ⟨_, [], rfl⟩
    · exact .refl _
  | @seeded symbol client msg k hk h =>
    rw [h, Function.update_apply]
    split_ifs with hs
    · subst hs
      unfold Book.seedPosition
      split_ifs
      · exact .refl _
      · exact ⟨_, _, rfl⟩
    · exact .refl _

lemma placements_of_deals (h : deals c'.history = deals c.history) :
    placements c'.history = placements c.history := by
  rw [← placements_deals, h, placements_deals]

section Quiet

variable {k₁ : List Task} {e : Engine} {cl : Client} {evs : List Event}

/-- The top task is replaced by others that drop nothing. -/
lemma deed_tasks (hk : c.stack = f :: k) (hf : f.due = false) (hk₁ : ∀ g ∈ k₁, g.due = false)
    (hB : Kept c ⟨e, cl, k₁ ++ k, c.history ++ evs⟩) (hev : deals evs = [])
    (hh : e.handles = c.engine.handles) (hi : e.idUuid = c.engine.idUuid) :
    Deed c none ⟨e, cl, k₁ ++ k, c.history ++ evs⟩ := by
  have hdeals : deals (c.history ++ evs) = deals c.history := by
    rw [deals, List.filter_append, ← deals, ← deals, hev, List.append_nil]
  refine .quiet hB hdeals (.none hh hi fun g hg => ?_)
  rw [hk]
  constructor
  · intro hmem
    rcases List.mem_append.1 hmem with hmem | hmem
    · exact absurd (hk₁ g hmem) (by simp [hg])
    · exact List.mem_cons_of_mem _ hmem
  · intro hmem
    rcases List.mem_cons.1 hmem with rfl | hmem
    · exact absurd hf (by simp [hg])
    · exact List.mem_append_right _ hmem

end Quiet

/-- A position is seeded, if there is a reply. -/
lemma kept_position {symbol : Symbol} {client : ClientId} {reply : Option HelperMessage}
    (hk : c.stack = .deliver (.position symbol client) reply :: k) (k' : List Task)
    (evs : List Event) : Kept c ⟨(c.engine.onPosition symbol client
      (reply.map StorageClient.pulledNet)).1, c.client, k', evs⟩ := by
  cases reply with
  | none => exact .same rfl
  | some msg => exact .seeded hk (Matching.bookFor_setBook _ _ _)

lemma due_failures (cl : Client) (ids : List ℕ) : ∀ g ∈ cl.failures ids, g.due = false := by
  intro g hg
  obtain ⟨resp, rfl⟩ := mem_failures hg
  rfl

/-! ### Every step -/

/-- What a task does. -/
lemma Runs.deed {a : Act} {e : Engine} {cl : Client} {k₁ : List Task} {evs : List Event}
    (hk : c.stack = f :: k) (hr : Runs c.engine c.client a f e cl k₁ evs) :
    Deed c (c.op? a) ⟨e, cl, k₁ ++ k, c.history ++ evs⟩ := by
  cases hr with
  | submit symbol owner order uuid =>
    simp only [op?, hk]
    obtain ⟨p, l, pull, hpulls, -, -, -, -, hmat, -, htasks⟩ :=
      submit_spec c.engine symbol owner order uuid
    obtain ⟨-, hh, hi, -⟩ := submit_desk c.engine symbol owner order uuid
    refine deed_tasks hk rfl ?_ (.same hmat) rfl hh hi
    rw [htasks]
    rcases hpulls.eq_send with rfl | rfl <;> simp [Task.due]
  | cancel hr =>
    simp only [op?, hk, hr]
    exact .cancel hk hr
  | decline hr hno =>
    simp only [op?, hk, hr]
    exact deed_tasks hk rfl (by simp) (.same rfl) rfl rfl rfl
  | auction hr =>
    simp only [op?, hk]
    obtain ⟨r', hr', hrr⟩ := Comp.returns_bind.1 hr
    obtain rfl := Comp.returns_pure.1 hrr
    exact .auction hk hr'
  | refuse ha _ =>
    rcases ha with rfl | ⟨ids, rfl⟩ <;> simp only [op?, hk] <;>
      exact deed_tasks hk rfl (by simp [Task.due]) (.same rfl) rfl rfl rfl
  | breaks _ _ => exact deed_tasks hk rfl (due_failures _ _) (.same rfl) rfl rfl rfl
  | answered seq reply =>
    simp only [op?, hk, Engine.onOrder]
    cases c.engine.pending.lookup seq <;>
      exact deed_tasks hk rfl (by simp [Task.due]) (.same rfl) rfl rfl rfl
  | seeded symbol client reply =>
    simp only [op?, hk]
    refine deed_tasks hk rfl (by simp [Task.due]) (kept_position hk _ _) rfl ?_ ?_ <;>
      cases reply <;> rfl
  | pulled symbol side reply =>
    simp only [op?, hk, List.append_nil]
    exact .pull hk
  | reported reply =>
    simp only [op?, hk]
    cases reply <;> exact deed_tasks hk rfl (by simp) (.same rfl) rfl rfl rfl
  | leave hp =>
    simp only [op?, hk, hp]
    exact deed_tasks hk rfl (by simp) (.same rfl) rfl rfl rfl
  | @deepen p hp hd =>
    simp only [op?, hk, hp, hd, Bool.false_eq_true, false_and, if_false]
    obtain ⟨hmat, -⟩ := ensureDepth_idle c.engine p.symbol p.order
    obtain ⟨-, hh, hi⟩ := ensureDepth_desk c.engine p.symbol p.order
    refine deed_tasks hk rfl ?_ (.same hmat) rfl hh hi
    unfold Engine.ensureDepth
    split_ifs <;> simp [Task.due]
  | @place p r hp hd hok hr =>
    simp only [op?, hk, hp, hd, hok, and_self, if_true]
    obtain ⟨r', hr', hrr⟩ := Comp.returns_bind.1 hr
    obtain rfl := Comp.returns_pure.1 hrr
    exact .place hk hp hok hr'
  | drop hp hok =>
    simp only [op?, hk, hp, hok, Bool.false_eq_true, and_false, if_false]
    exact deed_tasks hk rfl (by simp [Task.due]) (.same rfl) rfl rfl rfl
  | requeued symbol =>
    simp only [op?, hk]
    refine deed_tasks hk rfl (fun g hg => ?_)
      (.requeued symbol (c.engine.matching.bookFor_takeRequeued symbol).1) rfl rfl rfl
    obtain ⟨o, -, rfl⟩ := List.mem_map.1 hg
    rfl
  | prune symbol trades =>
    simp only [op?, hk, List.append_nil]
    exact .quiet (.same (matching_prune symbol trades c.engine)) rfl (.prune hk rfl)
  | forget uuid id =>
    simp only [op?, hk, List.append_nil]
    exact .quiet (.same rfl) rfl (.forget hk (forget_eq c uuid id k).symm)
  | user done calls =>
    refine deed_tasks hk rfl (fun g hg => ?_) (.same rfl) ?_ rfl rfl
    · obtain ⟨x, -, rfl⟩ := List.mem_map.1 hg
      rfl
    · cases done <;> rfl
  | _ =>
    simp only [op?, hk]
    exact deed_tasks hk rfl (by simp [Task.due]) (.same rfl) rfl rfl rfl

/-- What a step does. -/
theorem step_deed {a : Act} (hc' : (c.step a).Returns c') : Deed c (c.op? a) c' := by
  cases step_turn hc' with
  | stay hidle =>
    rw [op?_of_idle hidle]
    exact .quiet (.same rfl) rfl (.none rfl rfl fun _ _ => Iff.rfl)
  | run hk hr => exact hr.deed hk
  | @wake cl k hk hw =>
    have hnew : (∀ g ∈ k, g.due = false) → Deed c none { c with client := cl, stack := k } := by
      refine fun hd => .quiet (.same rfl) rfl (.none rfl rfl fun g hg => ?_)
      rw [hk]
      exact ⟨fun hmem => absurd (hd g hmem) (by simp [hg]), fun hmem => absurd hmem (by simp)⟩
    cases hw with
    | close _ _ => exact hnew (due_failures _ _)
    | _ => exact hnew (by simp [Task.due])

/-! ### The books in a run -/

/-- A deed is an operation on the books. -/
lemma Deed.exec {op : Ledger.Op} (h : Deed c (some op) c') :
    ∃ L, ((c.ledger []).exec op).Returns L ∧
    L.books = c'.books ∧
    (placements c'.history).map Prod.snd = (placements c.history).map Prod.snd ++ op.placed := by
  cases h with
  | @place p r k hk hp hok hr =>
    refine ⟨_, Comp.returns_bind.2 ⟨r, hr, Comp.returns_pure.2 rfl⟩, ?_,
      by simp [placements, Event.placement?, Ledger.Op.placed]⟩
    refine Eq.trans (c.engine.matching.bookFor_setBook p.symbol r.1).symm ?_
    simp only [books, placeEngine]
    split_ifs <;> rfl
  | @cancel uuid requester x k hk hr =>
    exact ⟨_, Comp.returns_pure.2 rfl,
      (Matching.bookFor_cancel c.engine.matching x.symbol x.id).symm,
      by simp [placements, Event.placement?, Ledger.Op.placed]⟩
  | @auction symbol opening r k hk hr =>
    exact ⟨_, Comp.returns_bind.2 ⟨r, hr, Comp.returns_pure.2 rfl⟩,
      (c.engine.matching.bookFor_setBook symbol r.1).symm,
      by simp [placements, Event.placement?, Ledger.Op.placed]⟩
  | @pull symbol side reply k hk =>
    refine ⟨_, Comp.returns_pure.2 rfl, ?_, (List.append_nil _).symm⟩
    refine Eq.trans (books_pullOne_foldl symbol side _ c.engine).1.symm ?_
    simp only [books, deliver, Engine.onPull]
    split_ifs <;> rfl

/-- The books are well formed, and hold only orders that were placed. -/
abbrev BooksOk (stp : StpPolicy) (c : Config) : Prop := (c.ledger []).Ok stp c.placed

/-- The order of a step has a new identifier, and its display quantity is not negative. -/
def Novel (c : Config) (op : Ledger.Op) : Prop :=
  ∀ x ∈ op.placed, x.2.id ∉ c.placed.map (·.2.id) ∧ 0 ≤ x.2.displayQty

/-- A deed without a window changes one book by mutations. -/
lemma Deed.effect {op : Ledger.Op} {stp : StpPolicy} (h : Deed c (some op) c')
    (hok : BooksOk stp c) (hnew : Novel c op) (hnat : op.native = true) :
    ∃ ms b' ws, c'.books = Function.update c.books op.symbol b' ∧
      Book.Step (c.books op.symbol) (Ledger.inHand op.placed) ms b' ∧
      Ledger.Effect (c.books op.symbol) ms b' ws op := by
  obtain ⟨L, hL, hB, -⟩ := h.exec
  obtain ⟨ms, b', ws, rfl, hst, heff⟩ := hok.effect hnew hnat hL
  exact ⟨ms, b', ws, hB.symm, hst, heff⟩

lemma Deed.booksOk {op : Ledger.Op} {stp : StpPolicy} (h : Deed c (some op) c')
    (hok : BooksOk stp c) (hnew : Novel c op) (hnat : op.native = true) : BooksOk stp c' := by
  obtain ⟨L, hL, hB, hp⟩ := h.exec
  obtain ⟨ms, b', ws, rfl, hst, -⟩ := hok.effect hnew hnat hL
  rw [BooksOk, placed, hp]
  refine (hok.next (fun x hx => (hnew x hx).1) hst ws).alike fun s => ?_
  rw [hB]
  exact .refl _

variable {P : Config → Act → Prop} {stp : StpPolicy}

/-- The placed orders were submitted. -/
lemma Deed.placed_sublist {memLevels : ℕ} (h : Reach P stp memLevels c') {op : Ledger.Op}
    (hd : Deed c (some op) c') :
    (c.placed ++ op.placed).Sublist ((submissions c'.history).map Prod.snd) := by
  obtain ⟨-, -, -, hp⟩ := hd.exec
  have := Config.placed_sublist h
  rwa [placed, hp] at this

/-- What every submission satisfies, every order that is placed satisfies. -/
lemma placed_forall {memLevels : ℕ} {Q : Symbol × Order → Prop} (h : Reach P stp memLevels c)
    (hP : ∀ c a, P c a → ∀ x, c.submission? a = some x → Q x) {a : Act} (ha : P c a)
    (hs : (c.step a).Returns c') {op : Ledger.Op} (hop : c.op? a = some op) :
    ∀ x ∈ op.placed, Q x := by
  have hr' : Reach P stp memLevels c' := h.step ha hs
  intro x hx
  exact submissions_forall hr' hP x
    ((hop ▸ step_deed hs).placed_sublist hr' |>.subset (List.mem_append_right _ hx))

/-- In a run without a window, every order is new when it is placed. -/
lemma novel_of_reach (h : Reach P stp 0 c) (hids : ∀ c, Reach P stp 0 c → c.submittedIds.Nodup)
    (hdisp : ∀ c a, P c a → ∀ x, c.submission? a = some x → 0 ≤ x.2.displayQty) {a : Act}
    (ha : P c a) (hs : (c.step a).Returns c') {op : Ledger.Op} (hop : c.op? a = some op) :
    Novel c op := by
  have hr' : Reach P stp 0 c' := h.step ha hs
  have hnodup : ((c.placed ++ op.placed).map (·.2.id)).Nodup := by
    refine (((hop ▸ step_deed hs).placed_sublist hr').map _).nodup ?_
    have := hids c' hr'
    rwa [submittedIds_eq] at this
  intro x hx
  refine ⟨fun hmem => ?_, placed_forall (Q := fun x => 0 ≤ x.2.displayQty) h hdisp ha hs hop x hx⟩
  rw [List.map_append, List.nodup_append] at hnodup
  exact hnodup.2.2 _ hmem _ (List.mem_map_of_mem hx) rfl

/-- The books of a run without a window, whatever happens to the connection. -/
theorem booksOk_of_reach (h : Reach P stp 0 c)
    (hids : ∀ c, Reach P stp 0 c → c.submittedIds.Nodup)
    (hdisp : ∀ c a, P c a → ∀ x, c.submission? a = some x → 0 ≤ x.2.displayQty) :
    BooksOk stp c := by
  induction h with
  | init => exact Ledger.ok_init stp
  | @step c c' a hr ha hs ih =>
    have hd := step_deed hs
    cases hop : c.op? a with
    | none =>
      rw [hop] at hd
      cases hd with
      | quiet hB hh _ =>
        rw [BooksOk, placed, placements_of_deals hh]
        exact ih.alike hB.alike
    | some op =>
      exact (hop ▸ hd).booksOk ih (novel_of_reach hr hids hdisp ha hs hop)
        (op_native (noPull_of_reach hr) hop)

/-- An order comes without an id, and does not ask for a negative slice. -/
def Unnumbered (c : Config) (a : Act) : Prop := ∀ o ∈ c.submitted? a, o.id = 0 ∧ 0 ≤ o.displayQty
deriving Decidable

/-- Whatever the interleaving, the books are well formed, no id is placed twice in all the books,
and an order that lives in a book was placed there and lives in no other book. -/
theorem placedOnce_of_reach (h : Reach Unnumbered stp 0 c) :
    (∀ s, Book.WF (c.books s)) ∧ (c.placed.map (·.2.id)).Nodup ∧
      ∀ s id, Book.Live (c.books s) id →
        (∃! o, (s, o) ∈ c.placed ∧ o.id = id) ∧ ∀ t, Book.Live (c.books t) id → t = s := by
  have hok : BooksOk stp c := by
    refine booksOk_of_reach h (fun c hc => nodup_of_unnumbered hc fun c a ha o ho => (ha o ho).1)
      fun c a ha x hx => ?_
    obtain ⟨order, owner, hord, hx⟩ := submission_assign hx
    exact hx ▸ (ha order hord).2
  have hone : ∀ x ∈ c.placed, ∀ y ∈ c.placed, x.2.id = y.2.id → x = y := fun x hx y hy =>
    List.inj_on_of_nodup_map hok.nodup hx hy
  refine ⟨hok.wf, hok.nodup, fun s id hlive => ?_⟩
  obtain ⟨o, ho, rfl⟩ := hok.live s id hlive
  refine ⟨⟨o, ⟨ho, rfl⟩, fun o' ⟨ho', hid⟩ => congrArg Prod.snd (hone _ ho' _ ho hid)⟩,
    fun t ht => ?_⟩
  obtain ⟨o', ho', hid⟩ := hok.live t _ ht
  exact congrArg Prod.fst (hone _ ho' _ ho hid)

/-- A sell order rests in the one book, and not in another. -/
theorem placedOnce_of_reach_one : ∃ c, Reach Unnumbered .none 0 c ∧
    Book.Live (c.books "ABC") 1 ∧ ¬ Book.Live (c.books "XYZ") 1 := by
  obtain ⟨c, hc, hrest⟩ : ∃ c, Reach Unnumbered .none 0 c ∧
      ((c.books "ABC").orders.lookup 1).isSome = true :=
    Machine.Reach.exists_of_acts 8 (placeActs "ABC" "" { side := .sell, qty := 5, price := 100 }
      "a" 1) (by decide +kernel)
  have hlive : Book.Live (c.books "ABC") 1 := .inl (Option.isSome_iff_ne_none.1 hrest)
  exact ⟨c, hc, hlive, fun hx =>
    absurd (((placedOnce_of_reach hc).2.2 _ _ hlive).2 _ hx) (by decide)⟩

end Config

end Codicis
