/-
What a cancel tells its caller.

A cancel succeeds if the engine has a handle of the caller under the uuid.  The handle of
an order is dropped when a placement fills the order up, and when it is cancelled; but not
when the order leaves the book otherwise: in an auction, by self-trade prevention, or
because another leg of its group filled.  Then a cancel says that it removed an order which
is long gone (`cancel_after_oco`).  `cancelTruthful_of_reach` is what remains: as long as
no order leaves in one of these ways, and storage is connected, a handle names an order
that rests.
-/
import Codicis.Engine.Tickets

namespace Codicis

/-- The order is live: it rests, is parked as a stop, or is queued for an auction. -/
def Book.Active (b : Book) (id : OrderId) : Prop :=
  (b.find id).isSome = true ∨ (b.stops.lookup id).isSome = true ∨
    (b.openingAuction ++ b.closingAuction).any (·.id = id) = true

instance (b : Book) (id : OrderId) : Decidable (b.Active id) :=
  inferInstanceAs (Decidable (_ ∨ _ ∨ _))

namespace Ledger

open Book

/-- A placement removes no resting order, but as the maker of its executions, and an order
that it reports to rest does so, or was such a maker. -/
def SightedPlace (b : Book) (o : Order) (r : Book × SubmitOutcome) : Prop :=
  NoCancels b r.1 ∧ (firesAtOnce b o = true → Engine.rests r.2 = true →
    (r.1.find o.id).isSome = true ∨ ∃ t ∈ r.2.trades, t.makerId = o.id)

/-- An auction removes no resting order. -/
def SightedAuction (b : Book) (r : Book × List Trade) : Prop :=
  NoCancels b r.1 ∧
    ∀ t ∈ r.2, (b.find t.makerId).isSome = true → (r.1.find t.makerId).isSome = true

instance (b : Book) (o : Order) (r : Book × SubmitOutcome) : Decidable (SightedPlace b o r) :=
  inferInstanceAs (Decidable (_ ∧ _))

instance (b : Book) (r : Book × List Trade) : Decidable (SightedAuction b r) :=
  inferInstanceAs (Decidable (_ ∧ _))

/-- Resting orders leave in the sight of the engine. -/
def Sighted (B : Symbol → Book) : Op → Prop
  | .place s o => ∀ r, ((B s).submit o).Returns r → SightedPlace (B s) o r
  | .auction s opening => ∀ r, (if opening = true then (B s).runOpeningAuction
      else (B s).runClosingAuction).Returns r → SightedAuction (B s) r
  | _ => True

/-- Run the operation with the bound `n` and check its result. -/
def checkSighted (n : ℕ) (B : Symbol → Book) : Op → Bool
  | .place s o => (((B s).submit o).run n).any fun r => SightedPlace (B s) o r
  | .auction s opening => ((if opening = true then (B s).runOpeningAuction
      else (B s).runClosingAuction).run n).any fun r => SightedAuction (B s) r
  | _ => true

lemma sighted_of_check {n : ℕ} {B : Symbol → Book} {op : Op} (h : checkSighted n B op = true) :
    Sighted B op := by
  cases op with
  | place s o =>
    exact fun r hr => of_decide_eq_true
      (Comp.of_run_any (p := fun r => decide (SightedPlace (B s) o r)) h hr)
  | auction s opening =>
    exact fun r hr => of_decide_eq_true
      (Comp.of_run_any (p := fun r => decide (SightedAuction (B s) r)) h hr)
  | cancel s id => trivial
  | pull s side orders => trivial

end Ledger

/-- The task drops the handle. -/
def Task.Clears (uuid : String) (h : Handle) : Task → Prop
  | prune s trades => s = h.symbol ∧ ∃ t ∈ trades, t.makerId = h.id
  | forget u id => u = uuid ∧ id = h.id
  | _ => False

lemma Task.Clears.due {uuid : String} {h : Handle} {f : Task} (hf : f.Clears uuid h) :
    f.due = true := by
  cases f <;> first | rfl | exact absurd hf id

namespace Config

open Book

variable {c c' : Config} {stp : StpPolicy} {ts : List Ticket}

/-- Every handle names an order that rests, or is going to be dropped. -/
def Backed (c : Config) : Prop :=
  ∀ uuid h, c.engine.handles.lookup uuid = some h →
    (c.books h.symbol).find h.id ≠ none ∨ ∃ f ∈ c.stack, f.Clears uuid h

/-! ### What an operation leaves -/

section Effect

variable {b b' : Book} {o : Order} {ms : List Mut} {id : OrderId}

/-- A placement leaves the resting orders that are not makers. -/
lemma place_stays {r : Book × SubmitOutcome} (hb : WF b) (hsink : b.eventSink = true)
    (hwin : b.memLevels = 0) (hst : Step b [⟨o, .submitted⟩] ms r.1) (hrep : Reported b o ms r.2)
    (hno : NoCancels b r.1) (hid : b.find id ≠ none) :
    r.1.find id ≠ none ∨ ∃ t ∈ r.2.trades, t.makerId = id := by
  by_cases hmk : ∃ t ∈ r.2.trades, t.makerId = id
  · exact .inr hmk
  · push Not at hmk
    rw [hrep.trades] at hmk
    exact .inl (hst.find_ne_none hb hwin (fun e he => absurd he (hno.remove_notMem hst hsink e))
      hmk (.inl hid))

/-- An order that is reported to rest does so, or is a maker. -/
lemma place_rests {r : Book × SubmitOutcome} (hb : WF b) (hsink : b.eventSink = true)
    (hwin : b.memLevels = 0) (hst : Step b [⟨o, .submitted⟩] ms r.1) (hrep : Reported b o ms r.2)
    (hno : NoCancels b r.1)
    (hfire : firesAtOnce b o = true → Engine.rests r.2 = true →
      (r.1.find o.id).isSome = true ∨ ∃ t ∈ r.2.trades, t.makerId = o.id)
    (hr : Engine.rests r.2 = true) :
    r.1.find o.id ≠ none ∨ ∃ t ∈ r.2.trades, t.makerId = o.id := by
  by_cases hmk : ∃ t ∈ r.2.trades, t.makerId = o.id
  · exact .inr hmk
  rcases hrep.resting (by simpa [Engine.rests] using hr) with
    ⟨hf, -⟩ | ⟨hid, ⟨-, -, hrest⟩ | ⟨-, -, hmem, -⟩⟩
  · exact (hfire hf hr).imp_left Option.isSome_iff_ne_none.1
  · push Not at hmk
    rw [hrep.trades] at hmk
    exact .inl (hst.find_ne_none hb hwin (fun e he => absurd he (hno.remove_notMem hst hsink e))
      hmk (.inr ⟨_, hrest, hid⟩))
  · exact absurd hwin hmem

/-- A cancellation leaves the other orders. -/
lemma cancel_stays (hb : WF b) (hwin : b.memLevels = 0) {i : OrderId} (hid : b.find id ≠ none)
    (hi : i ≠ id) : (b.cancel i).1.find id ≠ none := by
  obtain ⟨ms, hst, hc, -⟩ := cancel_step hb i
  refine hst.find_ne_none hb hwin (fun e he => hc.ne_of_remove he hi) ?_ (.inl hid)
  rw [hc.trades]
  exact fun t ht => absurd ht List.not_mem_nil

end Effect

/-! ### Handles of orders that rest -/

lemma prune_mem_afterPlace (seq : ℕ) (p : Pending) (out : SubmitOutcome) :
    Task.prune p.symbol out.trades ∈ Engine.afterPlace seq p out := by
  simp [Engine.afterPlace]

/-- Tasks that clear a handle stay on the stack. -/
lemma clears_tail {f : Task} {k k' : List Task} {uuid : String} {h : Handle}
    (hk : c.stack = f :: k) (hf : f.due = false) (hk' : ∀ g ∈ k, g ∈ k')
    (hc : ∃ g ∈ c.stack, g.Clears uuid h) : ∃ g ∈ k', g.Clears uuid h := by
  obtain ⟨g, hg, hclr⟩ := hc
  rw [hk] at hg
  rcases List.mem_cons.1 hg with rfl | hg
  · exact absurd hclr.due (by simp [hf])
  · exact ⟨g, hk' g hg, hclr⟩

lemma booksOk_sink (h : BooksOk stp c) (s : Symbol) :
    (c.books s).eventSink = true ∧ (c.books s).memLevels = 0 := by
  have hset : (c.books s).settings = ⟨0, stp, s, true⟩ := h.settings s
  exact ⟨congrArg Settings.eventSink hset, congrArg Settings.memLevels hset⟩

lemma Backed.place (h : Backed c) (hok : BooksOk stp c) {p : Pending} {r : Book × SubmitOutcome}
    {k : List Task} (hk : c.stack = .drain :: k)
    (hr : ((c.books p.symbol).submit p.order).Returns r) {ms : List Mut}
    (hst : Step (c.books p.symbol) [⟨p.order, .submitted⟩] ms r.1)
    (hrep : Reported (c.books p.symbol) p.order ms r.2)
    (hC : Ledger.Sighted c.books (.place p.symbol p.order))
    (he : c'.engine = placeEngine c.engine p r)
    (hB : c'.books = Function.update c.books p.symbol r.1)
    (hk' : c'.stack = Engine.afterPlace c.engine.nextPlaceSeq p r.2 ++ k) : Backed c' := by
  obtain ⟨hno, hfire⟩ := hC r hr
  obtain ⟨hsink, hwin⟩ := booksOk_sink hok p.symbol
  have hb : WF (c.books p.symbol) := hok.wf p.symbol
  -- an order of this book rests, or its handle is pruned
  have hbook : ∀ uuid (x : Handle), x.symbol = p.symbol →
      (r.1.find x.id ≠ none ∨ ∃ t ∈ r.2.trades, t.makerId = x.id) →
      (c'.books x.symbol).find x.id ≠ none ∨ ∃ f ∈ c'.stack, f.Clears uuid x := by
    intro uuid x hs hx
    refine hx.imp (fun hx => ?_) fun hx => ?_
    · rw [hB, hs, Function.update_self]
      exact hx
    · exact ⟨.prune p.symbol r.2.trades,
        hk' ▸ List.mem_append_left _ (prune_mem_afterPlace _ p r.2), hs.symm, hx⟩
  intro uuid x hx
  rw [he] at hx
  rcases Engine.lookup_placeEngine hx with hx | ⟨hrests, rfl, rfl⟩
  · rcases h uuid x hx with hfind | hclr
    · by_cases hs : x.symbol = p.symbol
      · exact hbook uuid x hs (place_stays hb hsink hwin hst hrep hno (hs ▸ hfind))
      · rw [hB, Function.update_of_ne hs]
        exact .inl hfind
    · exact .inr (clears_tail hk rfl (fun g hg => hk' ▸ List.mem_append_right _ hg) hclr)
  · exact hbook _ _ rfl (place_rests hb hsink hwin hst hrep hno hfire hrests)

lemma Backed.cancel (h : Backed c) (hok : BooksOk stp c) (hf : Filed ts c) {uuid : String}
    {x : Handle} {f : Task} {k : List Task} (hk : c.stack = f :: k) (hfd : f.due = false)
    (hx : c.engine.handles.lookup uuid = some x)
    (he : c'.engine.handles = c.engine.handles)
    (hB : c'.books = Function.update c.books x.symbol ((c.books x.symbol).cancel x.id).1)
    (hk' : ∀ g ∈ .forget uuid x.id :: k, g ∈ c'.stack) : Backed c' := by
  intro u y hy
  rw [he] at hy
  rcases h u y hy with hfind | hclr
  · by_cases hid : x.id = y.id
    · -- it is the cancelled order
      have hu : some u = some uuid := by rw [← hf.known u y hy, ← hf.known uuid x hx, hid]
      exact .inr ⟨_, hk' _ List.mem_cons_self, (Option.some.inj hu).symm, hid⟩
    · left
      by_cases hs : y.symbol = x.symbol
      · rw [hB, hs, Function.update_self]
        exact cancel_stays (hok.wf x.symbol) (booksOk_sink hok x.symbol).2 (hs ▸ hfind) hid
      · rw [hB, Function.update_of_ne hs]
        exact hfind
  · exact .inr (clears_tail hk hfd (fun g hg => hk' g (List.mem_cons_of_mem _ hg)) hclr)

lemma Backed.auction (h : Backed c) (hok : BooksOk stp c) {s : Symbol} {opening : Bool}
    {r : Book × List Trade} {f : Task} {k : List Task} (hk : c.stack = f :: k)
    (hfd : f.due = false) (hr : (if opening = true then (c.books s).runOpeningAuction
      else (c.books s).runClosingAuction).Returns r) {ms : List Mut}
    (hst : Step (c.books s) [] ms r.1) (htr : r.2 = Mut.trades ms)
    (hC : Ledger.Sighted c.books (.auction s opening))
    (he : c'.engine.handles = c.engine.handles) (hB : c'.books = Function.update c.books s r.1)
    (hk' : ∀ g ∈ k, g ∈ c'.stack) : Backed c' := by
  obtain ⟨hno, hmk⟩ := hC r hr
  obtain ⟨hsink, hwin⟩ := booksOk_sink hok s
  intro u y hy
  rw [he] at hy
  rcases h u y hy with hfind | hclr
  · left
    by_cases hs : y.symbol = s
    · subst hs
      rw [hB, Function.update_self]
      by_cases hm : ∃ t ∈ r.2, t.makerId = y.id
      · obtain ⟨t, ht, hid⟩ := hm
        have := hmk t ht (hid ▸ Option.isSome_iff_ne_none.2 hfind)
        exact hid ▸ Option.isSome_iff_ne_none.1 this
      · push Not at hm
        exact hst.find_ne_none (hok.wf _) hwin
          (fun e he => absurd he (hno.remove_notMem hst hsink e)) (htr ▸ hm) (.inl hfind)
    · rw [hB, Function.update_of_ne hs]
      exact hfind
  · exact .inr (clears_tail hk hfd hk' hclr)

/-- The books are alike, and handles are at most dropped. -/
lemma Backed.quiet (h : Backed c) (hf : Filed ts c) (hB : ∀ s, (c.books s).Alike (c'.books s))
    (hd : Drops c c') : Backed c' := by
  have hfind : ∀ s id, (c.books s).find id ≠ none → (c'.books s).find id ≠ none := by
    intro s id hid
    rw [Book.find_ne_none] at hid ⊢
    rwa [(hB s).view]
  cases hd with
  | none hh hi hk =>
    intro u y hy
    rcases h u y (hh ▸ hy) with hy | ⟨g, hg, hclr⟩
    · exact .inl (hfind _ _ hy)
    · exact .inr ⟨g, (hk g hclr.due).2 hg, hclr⟩
  | @prune s trades k hk heq =>
    subst heq
    obtain ⟨hfew, hspec⟩ := Engine.prune_spec s trades c.engine
    intro u y hy
    rcases h u y (hfew.handles u y hy) with hold | ⟨g, hg, hclr⟩
    · exact .inl (hfind _ _ hold)
    · rw [hk] at hg
      rcases List.mem_cons.1 hg with rfl | hg
      · -- a handle that was to be dropped and is still there is of an order that rests
        obtain ⟨rfl, t, ht, hid⟩ := hclr
        have hrests := (hspec hf.known).2 u y hy t ht hid
        rw [Matching.find_eq] at hrests
        exact .inl (hfind _ _ hrests)
      · exact .inr ⟨g, hg, hclr⟩
  | @forget uuid id k hk heq =>
    subst heq
    have hh : (c.forget uuid id k).engine.handles = c.engine.handles.erase uuid := by
      rw [forget_eq]
    intro u y hy
    rw [hh] at hy
    have hne : u ≠ uuid := by
      rintro rfl
      rw [AList.lookup_erase] at hy
      exact absurd hy (by simp)
    rcases h u y (Map.lookup_of_erase hy) with hold | ⟨g, hg, hclr⟩
    · exact .inl (hfind _ _ hold)
    · rw [hk] at hg
      rcases List.mem_cons.1 hg with rfl | hg
      · exact absurd hclr.1.symm hne
      · exact .inr ⟨g, hg, hclr⟩

/-- Every step keeps the handles backed, if orders leave in sight. -/
lemma Backed.step (h : Backed c) (hok : BooksOk stp c) (hf : Filed ts c)
    {op : Option Ledger.Op} (hd : Deed c op c') (hnew : ∀ o, op = some o → Novel c o)
    (hnat : ∀ o, op = some o → o.native = true)
    (hC : ∀ o, op = some o → Ledger.Sighted c.books o) : Backed c' := by
  have hd' := hd
  cases hd with
  | @place p r k hk hp hpok hr =>
    obtain ⟨ms, b', ws, hB, hst, out, hr', hrep, -⟩ := hd'.effect hok (hnew _ rfl) (hnat _ rfl)
    obtain rfl : r = (b', out) := hr.unique hr'
    exact h.place hok hk hr hst hrep (hC _ rfl) rfl hB rfl
  | @cancel uuid requester x k hk hr =>
    obtain ⟨ms, b', ws, hB, hst, rfl, -⟩ := hd'.effect hok (hnew _ rfl) (hnat _ rfl)
    exact h.cancel hok hf hk rfl (handle_of_cancelResult hr).1 rfl hB fun g hg =>
      List.mem_cons_of_mem _ (List.mem_cons_of_mem _ hg)
  | @auction s opening r k hk hr =>
    obtain ⟨ms, b', ws, hB, hst, hr', -⟩ := hd'.effect hok (hnew _ rfl) (hnat _ rfl)
    obtain rfl : r = (b', Mut.trades ms) := hr.unique hr'
    exact h.auction hok hk rfl hr hst rfl (hC _ rfl) rfl hB fun g hg =>
      List.mem_append_right _ hg
  | pull hk => exact absurd (hnat _ rfl) (by simp [Ledger.Op.native])
  | quiet hB hp hdrop => exact h.quiet hf hB.alike hdrop

/-! ### Handles are dropped in time -/

/-- Nothing is due. -/
def Clear (k : List Task) : Prop := ∀ f ∈ k, f.due = false

/-- The task reports. -/
def Reports (f : Task) : Prop := f.Sends ∨ ∃ s, f = .requeued s

/-- What is due comes right after the reports that are on top of the stack. -/
inductive Tidy : List Task → Prop
  | clear {k : List Task} (h : Clear k) : Tidy k
  | due {f : Task} {k : List Task} (hf : f.due = true) (h : Clear k) : Tidy (f :: k)
  | report {f : Task} {k : List Task} (hf : Reports f) (h : Tidy k) : Tidy (f :: k)

lemma clear_append {k : List Task} (k₁ : List Task) (h₁ : ∀ g ∈ k₁, g.due = false) (h : Clear k) :
    Clear (k₁ ++ k) := List.forall_mem_append.2 ⟨h₁, h⟩

lemma Clear.tail {f : Task} {k : List Task} (h : Clear (f :: k)) : Clear k :=
  fun g hg => h g (List.mem_cons_of_mem _ hg)

namespace Tidy

variable {f : Task} {k k₁ : List Task}

lemma append (h : Tidy k) (h₁ : ∀ g ∈ k₁, Reports g) : Tidy (k₁ ++ k) := by
  induction k₁ with
  | nil => exact h
  | cons g k₁ ih => exact .report (h₁ g (by simp)) (ih fun x hx => h₁ x (by simp [hx]))

lemma tail (h : Tidy (f :: k)) : Tidy k := by
  cases h with
  | clear h => exact .clear h.tail
  | due _ h => exact .clear h
  | report _ h => exact h

/-- Below a task that does not report, nothing is due. -/
lemma clear_tail (h : Tidy (f :: k)) (hf : ¬ Reports f) : Clear k := by
  cases h with
  | clear h => exact h.tail
  | due _ h => exact h
  | report hf' _ => exact absurd hf' hf

end Tidy

/-- Reports are sent one after another, as long as the connection is open. -/
lemma reports_step {f : Task} {k : List Task} {a : Act} (hopen : c.client.closed = false)
    (ha : a.opens = true) (hk : c.stack = f :: k) (hf : Reports f) (hc' : (c.step a).Returns c') :
    c'.stack = c.stack ∨ ∃ k₁, c'.stack = k₁ ++ k ∧ ∀ g ∈ k₁, Reports g := by
  refine (step_task hk hc').imp_right ?_
  rintro ⟨e, cl, k₁, evs, hk', hr⟩
  refine ⟨k₁, hk', ?_⟩
  cases hr with
  | report | stash | transmit | filled | fill => simp [Reports, Task.Sends]
  | refuse _ hclosed => exact absurd hclosed (by simp [hopen])
  | breaks _ _ => exact absurd ha (by simp [Act.opens])
  | requeued symbol =>
    intro g hg
    obtain ⟨o, -, rfl⟩ := List.mem_map.1 hg
    exact .inl trivial
  | _ => exact absurd hf (by simp [Reports, Task.Sends])

/-- What is due is done. -/
lemma due_step {f : Task} {k : List Task} {a : Act} (hk : c.stack = f :: k) (hf : f.due = true)
    (hc' : (c.step a).Returns c') : c'.stack = c.stack ∨ c'.stack = k := by
  refine (step_task hk hc').imp_right ?_
  rintro ⟨e, cl, k₁, evs, hk', hr⟩
  cases hr <;> first | exact hk' | exact absurd hf (by simp [Task.due])

/-- Handles are dropped before anything else happens. -/
lemma Tidy.step (h : Tidy c.stack) (hopen : c.client.closed = false) {a : Act}
    (ha : a.opens = true) (hc' : (c.step a).Returns c') : Tidy c'.stack := by
  have hquiet : Clear c.stack → (∀ f : Task, f.due = true → (f ∈ c'.stack ↔ f ∈ c.stack)) →
      Tidy c'.stack := by
    refine fun hclear hiff => .clear fun g hg => ?_
    by_contra hdue
    have hdue : g.due = true := by simpa using hdue
    exact absurd (hclear g ((hiff g hdue).1 hg)) (by simp [hdue])
  have hd := step_deed hc'
  generalize c.op? a = op at hd
  cases hstk : c.stack with
  | nil =>
    cases hd with
    | quiet hB hp hdrop =>
      cases hdrop with
      | none _ _ hiff => exact hquiet (by simp [Clear, hstk]) hiff
      | prune hk => exact absurd (hstk.symm.trans hk) (by simp)
      | forget hk => exact absurd (hstk.symm.trans hk) (by simp)
    | _ hk => exact absurd (hstk.symm.trans hk) (by simp)
  | cons f k =>
    rw [hstk] at h
    by_cases hf : Reports f
    · rcases reports_step hopen ha hstk hf hc' with heq | ⟨k₁, heq, hk₁⟩
      · exact heq ▸ hstk ▸ h
      · exact heq ▸ h.tail.append hk₁
    have hclear := h.clear_tail hf
    by_cases hdue : f.due = true
    · rcases due_step hstk hdue hc' with heq | heq
      · exact heq ▸ hstk ▸ h
      · exact heq ▸ .clear hclear
    have hall : Clear c.stack := by
      rw [hstk]
      exact clear_append [f] (by simpa using hdue) hclear
    cases hd with
    | @place p r k' hk hp hok hr =>
      obtain ⟨-, rfl⟩ := List.cons.inj (hstk.symm.trans hk)
      have hdone : Tidy (doneTasks c.engine.nextPlaceSeq p r.2 ++ k) :=
        .due rfl (clear_append [.user _, .drain] (by simp [Task.due]) hclear)
      simp only [afterPlace_append]
      exact Tidy.append (.report (.inr ⟨_, rfl⟩) hdone) fun g hg =>
        .inl (sends_placeTasks p r.2 g hg)
    | @cancel uuid requester x k' hk hr =>
      obtain ⟨-, rfl⟩ := List.cons.inj (hstk.symm.trans hk)
      exact .report (.inl trivial) (.report (.inr ⟨_, rfl⟩) (.due rfl hclear))
    | @auction s opening r k' hk hr =>
      obtain ⟨-, rfl⟩ := List.cons.inj (hstk.symm.trans hk)
      refine .clear (clear_append _ (fun g hg => ?_) hclear)
      simp only [Engine.reportAuction, List.append_assoc, List.mem_append, List.mem_cons,
        List.not_mem_nil, or_false] at hg
      rcases hg with hg | rfl | rfl | rfl
      · obtain ⟨t, -, rfl⟩ := List.mem_map.1 hg
        rfl
      all_goals rfl
    | @pull s side reply k' hk =>
      obtain ⟨-, rfl⟩ := List.cons.inj (hstk.symm.trans hk)
      refine .clear (clear_append _ (fun g hg => ?_) hclear)
      rcases tasks_onPull c.engine s side ((reply.map StorageClient.pulledOrders).getD []) with
        ht | ht <;> rw [ht] at hg
      · exact List.mem_singleton.1 hg ▸ rfl
      · exact absurd hg List.not_mem_nil
    | quiet hB hp hdrop =>
      cases hdrop with
      | none _ _ hiff => exact hquiet hall hiff
      | prune hk | forget hk => exact absurd (hall _ (hk ▸ List.mem_cons_self)) (by simp [Task.due])

/-! ### Cancels -/

/-- A cancel tells the truth.  It succeeds only if the order of the uuid is live, and was
submitted by the requester; otherwise nothing happens to the books, to the handles and to
storage. -/
def CancelTruthful (ts : List Ticket) (c : Config) (uuid requester : String) : Prop :=
  (c.step .run).Ensures fun c' => ∃ r, c'.history = c.history ++ [.cancelled uuid r] ∧
    match r with
    | .ok h => ⟨uuid, requester, h.symbol, h.id⟩ ∈ ts ∧ (c.books h.symbol).Active h.id
    | _ => c'.engine = c.engine ∧ c'.client = c.client

/-- In runs in which orders leave in the sight of the engine, the handles are filed, backed
and dropped in time. -/
lemma handles_of_reach {x : List Ticket × Config}
    (h : TicketReach (fun x a => Orderly Ledger.Sighted x.2 a) stp 0 x) :
    Filed x.1 x.2 ∧ Backed x.2 ∧ Tidy x.2.stack := by
  have hP : ∀ (c : Config) (a : Act), (∃ _ : List Ticket, Orderly Ledger.Sighted c a) →
      Orderly Ledger.Sighted c a := fun c a ⟨_, ha⟩ => ha
  have hids : ∀ c, Reach (fun c a => ∃ _ : List Ticket, Orderly Ledger.Sighted c a) stp 0 c →
      c.submittedIds.Nodup := fun c hc => nodup_submittedIds hc fun c a ha => (hP c a ha).fresh
  induction h with
  | init =>
    refine ⟨⟨?_, ?_, ?_, ?_, ?_⟩, ?_, .clear fun f hf => absurd hf List.not_mem_nil⟩ <;>
      intro u y hy <;> exact absurd hy (by simp [init])
  | @step x y a hr ha hs ih =>
    obtain ⟨hfiled, hbacked, htidy⟩ := ih
    obtain ⟨hs, hl⟩ := Machine.returns_logged.1 hs
    have hreach := TicketReach.reach hr
    have hok := booksOk_of_reach hreach hids fun c a ha => (hP c a ha).display
    have hd := step_deed hs
    have hnew : ∀ o, x.2.op? a = some o → Novel x.2 o := fun o ho =>
      novel_of_reach hreach hids (fun c a ha => (hP c a ha).display) ⟨x.1, ha⟩ hs ho
    have hnodup : (x.1.map (·.id)).Nodup := by
      rw [TicketReach.ids hr]
      exact hids _ hreach
    obtain ⟨ws, hflow, -⟩ := ledger_of_reach (C := Ledger.Sighted) hreach hids fun c a ha =>
      ⟨(hP c a ha).opens, (hP c a ha).display, (hP c a ha).op⟩
    rw [hl]
    exact ⟨hfiled.step hnodup (TicketReach.staged hr) hd hnew _,
      hbacked.step hok hfiled hd hnew (fun o ho => op_native (noPull_of_reach hreach) ho)
        fun o ho => ha.op o ho,
      htidy.step hflow.opened ha.opens hs⟩

/-- Cancels tell the truth, as long as orders leave in the sight of the engine. -/
theorem cancelTruthful_of_reach {x : List Ticket × Config}
    (h : TicketReach (fun x a => Orderly Ledger.Sighted x.2 a) stp 0 x) {uuid requester : String}
    {k : List Task} (hk : x.2.stack = .call (.cancel uuid requester) :: k) :
    CancelTruthful x.1 x.2 uuid requester := by
  obtain ⟨hfiled, hbacked, htidy⟩ := handles_of_reach h
  rw [CancelTruthful, step_run hk]
  refine Comp.ensures_pure ⟨x.2.engine.cancelResult uuid requester, ?_, ?_⟩
  · cases x.2.engine.cancelResult uuid requester <;> rfl
  cases hr : x.2.engine.cancelResult uuid requester with
  | ok y =>
    obtain ⟨hy, rfl⟩ := handle_of_cancelResult hr
    refine ⟨hfiled.ticket uuid y hy, .inl (Option.isSome_iff_ne_none.2 ?_)⟩
    -- nothing is due below the call, so the handle is backed by the book
    refine (hbacked uuid y hy).resolve_right ?_
    rintro ⟨f, hf, hclr⟩
    rw [hk] at htidy hf
    rcases List.mem_cons.1 hf with rfl | hf
    · exact hclr
    · have hno : ¬ Reports (.call (.cancel uuid y.owner)) := by simp [Reports, Task.Sends]
      exact absurd (htidy.clear_tail hno f hf) (by simp [hclr.due])
  | notFound => exact ⟨rfl, rfl⟩
  | forbidden => exact ⟨rfl, rfl⟩

/-- Nothing but a cancel is on the stack. -/
def onlyCancel (uuid requester : String) : List Task → Bool
  | [.call (.cancel u r)] => u == uuid && r == requester
  | _ => false

lemma of_onlyCancel {uuid requester : String} {k : List Task}
    (h : onlyCancel uuid requester k = true) : k = [.call (.cancel uuid requester)] := by
  unfold onlyCancel at h
  split at h
  · obtain ⟨rfl, rfl⟩ : _ ∧ _ := by simpa using h
    rfl
  · exact absurd h (by simp)

/-- An order rests, a part of it is taken, and its owner cancels it. -/
theorem cancelTruthful_of_reach_partial : ∃ x : List Ticket × Config,
    TicketReach (fun x a => Orderly Ledger.Sighted x.2 a) .none 0 x ∧
      x.2.stack.length = 1 ∧ x.2.engine.cancelResult "a" "" = .ok ⟨"ABC", 1, ""⟩ ∧
      ((x.2.books "ABC").find 1).map (·.leaves) = some 3 ∧ CancelTruthful x.1 x.2 "a" "" := by
  let acts : List Act := placeActs "ABC" "" { side := .sell, qty := 5, price := 100 } "a" 1 ++
    placeActs "ABC" "" { qty := 2, price := 100 } "b" 3 ++ [.call (.cancel "a" "")]
  obtain ⟨x, hx, htop, hres, hleft⟩ : ∃ x,
      TicketReach (fun x a => checkOrderly (Ledger.checkSighted 8) x.2 a = true) .none 0 x ∧
      onlyCancel "a" "" x.2.stack = true ∧ x.2.engine.cancelResult "a" "" = .ok ⟨"ABC", 1, ""⟩ ∧
      ((x.2.books "ABC").find 1).map (·.leaves) = some 3 :=
    Machine.Reach.exists_of_acts 8 acts (by decide +kernel)
  have hreach : TicketReach (fun x a => Orderly Ledger.Sighted x.2 a) .none 0 x :=
    hx.mono fun x a => orderly_of_check fun B op => Ledger.sighted_of_check
  have hk := of_onlyCancel htop
  exact ⟨x, hreach, by simp [hk], hres, hleft, cancelTruthful_of_reach hreach hk⟩

/-- One leg of an OCO group fills, and the other is cancelled; its handle stays, and a cancel
says that it removed the order. -/
theorem cancel_after_oco : ∃ x : List Ticket × Config,
    TicketReach (fun _ _ => True) .none 0 x ∧ x.2.stack.length = 1 ∧
      x.2.engine.cancelResult "b" "" = .ok ⟨"ABC", 2, ""⟩ ∧ ¬ (x.2.books "ABC").Active 2 ∧
      ¬ CancelTruthful x.1 x.2 "b" "" := by
  let leg (price : ℤ) : Order :=
    { side := .sell, qty := 1, price := price, link := some { role := .ocoLeg, groupId := 1 } }
  let acts : List Act := placeActs "ABC" "" (leg 100) "a" 1 ++
    placeActs "ABC" "" (leg 101) "b" 3 ++ placeActs "ABC" "" { qty := 1, price := 100 } "c" 5 ++
    [.call (.cancel "b" "")]
  obtain ⟨x, hx, htop, hres, hgone⟩ : ∃ x, TicketReach (fun _ _ => True) .none 0 x ∧
      onlyCancel "b" "" x.2.stack = true ∧ x.2.engine.cancelResult "b" "" = .ok ⟨"ABC", 2, ""⟩ ∧
      ¬ (x.2.books "ABC").Active 2 :=
    Machine.Reach.exists_of_acts 8 acts (by decide +kernel)
  have hk := of_onlyCancel htop
  refine ⟨x, hx, by simp [hk], hres, hgone, ?_⟩
  rw [CancelTruthful, step_run hk]
  rintro ⟨c', hc', r, hhist, hr⟩
  simp only [runTask, call, hres, Comp.returns_pure] at hc'
  subst hc'
  obtain rfl : r = .ok ⟨"ABC", 2, ""⟩ := by simpa [log, eq_comm] using hhist
  exact hgone hr.2

end Config

end Codicis
