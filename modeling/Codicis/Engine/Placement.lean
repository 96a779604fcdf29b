/-
When orders are placed.

Whatever the environment does, orders are placed in the order of their submission, each
after its own report was answered (`arrivalOrder_of_reach`).

Whether storage accepted the order is another matter.  The callback of a report tells
whether a reply came, and not what the reply says: an order whose report is answered with
an error is placed (`placed_after_error`).  `honoured_of_reach` is what remains.
-/
import Codicis.Engine.Stack
import Mathlib.Data.List.Sort

namespace Codicis

namespace Config

variable {P : Config → Act → Prop} {stp : StpPolicy} {memLevels : ℕ} {c : Config}

lemma inv_init (stp : StpPolicy) (memLevels : ℕ) : Staging.Inv (init stp memLevels).staging where
  numbered :=
    { pos := le_rfl, le := le_rfl, submitted := rfl, reported := .refl _, waiting := .refl _,
      completed := .refl _ }
  accounted :=
    { queued := by
        intro seq p hp
        exact absurd hp (by simp [staging, init])
      incoming := by
        intro x hx
        exact absurd hx List.not_mem_nil
      finishing := by
        intro x hx
        exact absurd hx List.not_mem_nil
      placed_sorted := List.Pairwise.nil
      placed_lt := by
        intro seq hseq
        exact absurd hseq List.not_mem_nil
      preceded := justified_nil }

/-- The invariant of the staging queue holds in every run. -/
theorem inv_of_reach (h : Reach P stp memLevels c) : Staging.Inv c.staging :=
  staging_of_reach h (inv_init stp memLevels) fun _ _ hinv hstep => hinv.step hstep

/-! ### Arrival order -/

/-- Orders are placed in the order of their submission, once, after their report succeeded,
and callbacks run once.  A report fails when the request times out, the connection closes
or the write fails. -/
structure ArrivalOrder (h : List Event) : Prop where
  submitted : ((submissions h).map Prod.fst).Pairwise (· < ·)
  in_order : (placements h).Sublist (submissions h)
  placed_once : ((placements h).map Prod.fst).Nodup
  answered_before : ∀ h₁ seq symbol o out h₂, h = h₁ ++ .placed seq symbol o out :: h₂ →
    ∃ msg, .answered seq (some msg) ∈ h₁
  failed : ∀ seq, .answered seq none ∈ h → ∀ symbol o out, .placed seq symbol o out ∉ h
  answered_once : ((answers h).map Prod.fst).Nodup
  called_once : ((completions h).map Prod.fst).Nodup

/-- A report has one answer. -/
lemma answer_unique {h : List Event} (hn : ((answers h).map Prod.fst).Nodup) {seq : ℕ}
    {reply reply' : Option HelperMessage} (h₁ : .answered seq reply ∈ h)
    (h₂ : .answered seq reply' ∈ h) : reply = reply' := by
  have heq : (seq, reply) = (seq, reply') :=
    List.inj_on_of_nodup_map hn (mem_answers.2 h₁) (mem_answers.2 h₂) rfl
  exact congrArg Prod.snd heq

/-- Lists of pairs that ascend in their numbers. -/
lemma sublist_of_numbered {α : Type} {l₁ l₂ : List (ℕ × α)}
    (h₁ : (l₁.map Prod.fst).Pairwise (· < ·)) (h₂ : (l₂.map Prod.fst).Pairwise (· < ·))
    (hsub : l₁ ⊆ l₂) : l₁.Sublist l₂ := by
  have : Std.Antisymm fun x y : ℕ × α => x.1 < y.1 := ⟨fun x y hxy hyx => by omega⟩
  rw [List.pairwise_map] at h₁ h₂
  have hnodup : l₁.Nodup := h₁.imp fun {x y} hxy heq => by simp [heq] at hxy
  exact List.sublist_of_subperm_of_pairwise (List.subperm_of_subset hnodup hsub) h₁ h₂

lemma arrivalOrder_of_inv {s : Staging} (h : s.Inv) : ArrivalOrder s.history := by
  obtain ⟨hnum, hacc⟩ := h
  have hsub : ((submissions s.history).map Prod.fst).Pairwise (· < ·) := by
    rw [hnum.submitted]
    exact List.pairwise_lt_range'
  have hans : ((answers s.history).map Prod.fst).Nodup :=
    (List.nodup_append.1 (hnum.reported.nodup_iff.2 (Staging.nodup_numbers _))).2.1
  refine ⟨hsub, ?_, hacc.placed_sorted.imp ne_of_lt, ?_, ?_, hans, ?_⟩
  · refine sublist_of_numbered hacc.placed_sorted hsub fun x hx => ?_
    obtain ⟨out, hev⟩ := mem_placements.1 hx
    obtain ⟨h₁, h₂, heq, hpre, -⟩ := hacc.preceded.of_mem hev
    exact mem_submissions.2 (heq ▸ List.mem_append_left _ hpre)
  · intro h₁ seq symbol o out h₂ heq
    obtain ⟨-, reply, hmem, hok⟩ := hacc.preceded h₁ _ h₂ heq
    obtain ⟨msg, rfl⟩ := Option.isSome_iff_exists.1 hok
    exact ⟨msg, hmem⟩
  · intro seq hfail symbol o out hplaced
    obtain ⟨h₁, h₂, heq, -, reply, hmem, hok⟩ := hacc.preceded.of_mem hplaced
    have hmem' : .answered seq reply ∈ s.history := heq ▸ List.mem_append_left _ hmem
    rw [← answer_unique hans hfail hmem'] at hok
    exact absurd hok (by simp)
  · exact (List.nodup_append.1 (hnum.completed.nodup_iff.2 (Staging.nodup_numbers _))).2.1

/-- Arrival-order placement, whatever the environment does. -/
theorem arrivalOrder_of_reach (h : Reach (fun _ _ => True) stp memLevels c) :
    ArrivalOrder c.history :=
  arrivalOrder_of_inv (inv_of_reach h)

/-- Two orders are submitted, their reports are answered in the other order, and the
callback of the first submits a third one. -/
theorem arrivalOrder_of_reach_swapped : ∃ c, Reach (fun _ _ => True) .none 0 c ∧
    (placements c.history).map Prod.fst = [1, 2] ∧
    (submissions c.history).map Prod.fst = [1, 2, 3] ∧ ArrivalOrder c.history := by
  let order (uuid : String) : Call := .submit "ABC" "" { qty := 1, price := 100 } uuid
  let submit (uuid : String) : List Act := .call (order uuid) :: List.replicate 5 .run
  let acts : List Act := submit "a" ++ submit "b" ++
    [.reply ⟨2, "report_order", [("status", "ok")]⟩, .run, .run,
     .reply ⟨1, "report_order", [("status", "ok")]⟩] ++ List.replicate 6 .run ++
    [.user [order "c"]] ++ List.replicate 8 .run
  obtain ⟨c, hc, hplaced, hsub⟩ : ∃ c, Reach (fun _ _ => True) .none 0 c ∧
      (placements c.history).map Prod.fst = [1, 2] ∧
      (submissions c.history).map Prod.fst = [1, 2, 3] :=
    Machine.Reach.exists_of_acts 8 acts (by decide +kernel)
  exact ⟨c, hc, hplaced, hsub, arrivalOrder_of_reach hc⟩

/-! ### The verdict of storage -/

/-- The report was answered, and the answer says that storage has the order. -/
def Accepts (reply : Option HelperMessage) : Prop :=
  ∃ msg, reply = some msg ∧ msg.get "status" = some "ok"

/-- An order is placed only if storage accepted it; one that was not accepted is never
placed, and its callback says so. -/
structure Honoured (h : List Event) : Prop where
  placed : ∀ h₁ seq symbol o out h₂, h = h₁ ++ .placed seq symbol o out :: h₂ →
    ∃ reply, .answered seq reply ∈ h₁ ∧ Accepts reply
  refused : ∀ seq reply, .answered seq reply ∈ h → ¬ Accepts reply →
    (∀ symbol o out, .placed seq symbol o out ∉ h) ∧
      ∀ r, .called seq r ∈ h → r.storageOk = false

/-- The helper does not answer the report of an order with an error. -/
def acceptsOrders (c : Config) : Act → Bool
  | .reply msg =>
    match c.client.pending.lookup msg.reqId with
    | some (.order _) => msg.get "status" == some "ok"
    | _ => true
  | _ => true

/-- The replies to order reports that are on the stack or in the history are accepting. -/
structure Accepting (c : Config) : Prop where
  stack : ∀ seq msg, .deliver (.order seq) (some msg) ∈ c.stack → Accepts (some msg)
  history : ∀ seq msg, .answered seq (some msg) ∈ c.history → Accepts (some msg)

/-- A reply that is on the stack came there as the action `reply`. -/
lemma deliver_mem_step {c' : Config} {a : Act} (hc' : (c.step a).Returns c') {resp : Resp}
    {msg : HelperMessage} (h : .deliver resp (some msg) ∈ c'.stack) :
    .deliver resp (some msg) ∈ c.stack ∨
      a = .reply msg ∧ c.client.pending.lookup msg.reqId = some resp := by
  rcases step_pushes hc' with heq | ⟨-, hnew⟩ | ⟨f, k, k₁, hk, hk', hp⟩
  · exact .inl (heq ▸ h)
  · rcases hnew _ h with hr | ⟨resp', msg', ha, hl, heq⟩
    · exact absurd hr id
    · obtain ⟨rfl, rfl⟩ : resp = resp' ∧ msg = msg' := by simpa using heq
      exact .inr ⟨ha, hl⟩
  · rw [hk'] at h
    rcases List.mem_append.1 h with h | h
    · cases hp with
      | routine hr => exact absurd (hr _ h) id
      | submit hf hpull => rcases hpull.eq_send with rfl | rfl <;> simp at h
    · exact .inl (hk ▸ List.mem_cons_of_mem _ h)

/-- An answer of the history was on the stack. -/
lemma answered_mem_step {c' : Config} (hc : ClientOk c) {a : Act} (hc' : (c.step a).Returns c')
    {seq : ℕ} {reply : Option HelperMessage} (h : .answered seq reply ∈ c'.history) :
    .answered seq reply ∈ c.history ∨ .deliver (.order seq) reply ∈ c.stack := by
  have h : (seq, reply) ∈ answers c'.staging.history := mem_answers.2 h
  rcases step_staging hc hc' with hm | ⟨resp, reply', k, hk, hcb⟩
  · rw [hm.answers] at h
    exact .inl (mem_answers.1 h)
  · rcases hcb.answers with heq | ⟨seq', rfl, heq⟩
    · rw [heq] at h
      exact .inl (mem_answers.1 h)
    · rw [heq, List.mem_append] at h
      rcases h with h | h
      · exact .inl (mem_answers.1 h)
      · obtain ⟨rfl, rfl⟩ : seq = seq' ∧ reply = reply' := by simpa using h
        exact .inr (hk ▸ List.mem_cons_self)

lemma Accepting.step {c' : Config} (h : Accepting c) (hc : ClientOk c) {a : Act}
    (ha : acceptsOrders c a = true) (hc' : (c.step a).Returns c') : Accepting c' := by
  constructor
  · intro seq msg hmem
    rcases deliver_mem_step hc' hmem with hmem | ⟨rfl, hl⟩
    · exact h.stack seq msg hmem
    · simp only [acceptsOrders, hl, beq_iff_eq] at ha
      exact ⟨msg, rfl, ha⟩
  · intro seq msg hmem
    rcases answered_mem_step hc hc' hmem with hmem | hmem
    · exact h.history seq msg hmem
    · exact h.stack seq msg hmem

lemma accepting_of_reach (h : Reach (fun c a => acceptsOrders c a = true) stp memLevels c) :
    Accepting c := by
  induction h with
  | init =>
    refine ⟨fun seq msg hmem => ?_, fun seq msg hmem => ?_⟩
    · exact absurd hmem List.not_mem_nil
    · exact absurd hmem List.not_mem_nil
  | step hr ha hs ih => exact ih.step (clientOk_of_reach hr) ha hs

/-- The verdict of storage is honoured as long as no reply to the report of an order is an
error. -/
theorem honoured_of_reach (h : Reach (fun c a => acceptsOrders c a = true) stp memLevels c) :
    Honoured c.history := by
  have hacc := accepting_of_reach h
  have hinv := inv_of_reach h
  have hord : ArrivalOrder c.history := arrivalOrder_of_inv hinv
  have hpre : Justified Staging.Preceded c.history := hinv.accounted.preceded
  have hnone : ∀ seq reply, .answered seq reply ∈ c.history → ¬ Accepts reply → reply = none := by
    intro seq reply hmem hno
    cases reply with
    | none => rfl
    | some msg => exact absurd (hacc.history seq msg hmem) hno
  constructor
  · intro h₁ seq symbol o out h₂ heq
    obtain ⟨msg, hmem⟩ := hord.answered_before h₁ seq symbol o out h₂ heq
    exact ⟨some msg, hmem, hacc.history seq msg (heq ▸ List.mem_append_left _ hmem)⟩
  · intro seq reply hmem hno
    obtain rfl := hnone seq reply hmem hno
    refine ⟨hord.failed seq hmem, fun r hr => ?_⟩
    obtain ⟨h₁, h₂, heq, reply', hmem', hok⟩ := hpre.of_mem hr
    have hmem' : .answered seq reply' ∈ c.history := heq ▸ List.mem_append_left _ hmem'
    rw [← hok, ← answer_unique hord.answered_once hmem hmem']
    rfl

/-- The actions of a submission, up to the point where its report is in flight. -/
def submitActs (symbol : Symbol) (owner : String) (order : Order) (uuid : String) : List Act :=
  .call (.submit symbol owner order uuid) :: List.replicate 5 .run

/-- The actions of a submission whose report, the request `reqId`, is accepted. -/
def placeActs (symbol : Symbol) (owner : String) (order : Order) (uuid : String) (reqId : ℕ) :
    List Act :=
  submitActs symbol owner order uuid ++ [.reply ⟨reqId, "report_order", [("status", "ok")]⟩] ++
    List.replicate 24 .run ++ [.user []] ++ List.replicate 8 .run

/-- The actions of an auction. -/
def auctionActs (symbol : Symbol) (opening : Bool) : List Act :=
  .call (.runAuction symbol opening) :: List.replicate 24 .run ++ [.user []]

/-- One order is accepted and placed, the report of another one times out. -/
theorem honoured_of_reach_timeout : ∃ c,
    Reach (fun c a => acceptsOrders c a = true) .none 0 c ∧
      (placements c.history).map Prod.fst = [1] ∧
      (completions c.history).map (fun x => (x.1, x.2.storageOk)) = [(1, true), (2, false)] ∧
      Honoured c.history := by
  let acts : List Act := submitActs "ABC" "" { qty := 1, price := 100 } "a" ++
    submitActs "ABC" "" { qty := 1, price := 100 } "b" ++
    [.reply ⟨1, "report_order", [("status", "ok")]⟩] ++ List.replicate 6 .run ++
    [.user []] ++ List.replicate 8 .run ++ [.timeout [2]] ++ List.replicate 3 .run ++ [.user []]
  obtain ⟨c, hc, hplaced, hcalled⟩ : ∃ c, Reach (fun c a => acceptsOrders c a = true) .none 0 c ∧
      (placements c.history).map Prod.fst = [1] ∧
      (completions c.history).map (fun x => (x.1, x.2.storageOk)) = [(1, true), (2, false)] :=
    Machine.Reach.exists_of_acts 8 acts (by decide +kernel)
  exact ⟨c, hc, hplaced, hcalled, honoured_of_reach hc⟩

/-- Storage answers the report with an error, and the order is placed. -/
theorem placed_after_error : ∃ c msg, Reach (fun _ _ => True) .none 0 c ∧
    msg.get "status" = some "error" ∧ answers c.history = [(1, some msg)] ∧
    (placements c.history).map Prod.fst = [1] ∧ ¬ Honoured c.history := by
  let msg : HelperMessage := ⟨1, "report_order", [("status", "error"), ("reason", "disk full")]⟩
  let acts : List Act := submitActs "ABC" "" { qty := 1, price := 100 } "a" ++
    [.reply msg, .run, .run]
  obtain ⟨c, hc, hans, hpl⟩ : ∃ c, Reach (fun _ _ => True) .none 0 c ∧
      answers c.history = [(1, some msg)] ∧ (placements c.history).map Prod.fst = [1] :=
    Machine.Reach.exists_of_acts 8 acts (by decide +kernel)
  refine ⟨c, msg, hc, rfl, hans, hpl, fun hhon => ?_⟩
  have hmem : .answered 1 (some msg) ∈ c.history := mem_answers.1 (hans ▸ List.mem_singleton_self _)
  have hno : ¬ Accepts (some msg) := by
    rintro ⟨m, hm, hok⟩
    obtain rfl := Option.some.inj hm
    exact absurd hok (by decide)
  obtain ⟨x, hx, hx1⟩ := List.mem_map.1 (hpl ▸ List.mem_singleton_self 1)
  obtain ⟨out, hout⟩ := mem_placements.1 hx
  exact (hhon.refused 1 _ hmem hno).1 x.2.1 x.2.2 out (hx1 ▸ hout)

end Config

end Codicis
