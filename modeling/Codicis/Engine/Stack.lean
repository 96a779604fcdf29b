/-
What a step does to the call stack.

A step leaves the stack alone, or replaces its top task by others.  Only a submission
stages an order, and only a reply of the helper brings a callback with a reply.
-/
import Codicis.Engine.Control

namespace Codicis

/-- A task that neither stages an order nor hands a reply to a callback. -/
def Task.Routine : Task → Prop
  | emplace _ _ => False
  | deliver _ (some _) => False
  | _ => True

namespace Config

variable {c c' : Config} {f : Task} {k : List Task}

/-- What the top task is replaced by. -/
inductive Pushes (e : Engine) (f : Task) : List Task → Prop
  | routine {k : List Task} (h : ∀ g ∈ k, Task.Routine g) : Pushes e f k
  /-- A submission pulls the position, stages the order and reports it. -/
  | submit {symbol : Symbol} {owner uuid : String} {order : Order} {p : Pending}
      {l : List (Symbol × ClientId)} {pull : List Task}
      (hf : f = .call (.submit symbol owner order uuid))
      (h : Pulls e.positionLoaded e.positionLoading symbol owner p.clientId p.posReady l pull) :
      Pushes e f (pull ++ [.emplace e.nextAssignSeq p,
        .report .order (StorageClient.reportOrder symbol owner p.order)
          (.order e.nextAssignSeq)])

lemma Pushes.routine_of_ne {e : Engine} (h : Pushes e f k)
    (hf : ∀ symbol owner order uuid, f ≠ .call (.submit symbol owner order uuid)) :
    ∀ g ∈ k, g.Routine := by
  cases h with
  | routine h => exact h
  | submit heq _ => exact absurd heq (hf _ _ _ _)

lemma routine_map {α : Type} (g : α → Task) (h : ∀ x, (g x).Routine) (l : List α) :
    ∀ f ∈ l.map g, f.Routine := by
  intro f hf
  obtain ⟨x, -, rfl⟩ := List.mem_map.1 hf
  exact h x

lemma routine_reportResults (symbol : Symbol) (taker : Order) (out : SubmitOutcome) :
    ∀ g ∈ Engine.reportResults symbol taker out, g.Routine := by
  intro g hg
  simp only [Engine.reportResults, Engine.reportTrades, Engine.reportTaker, List.mem_append,
    List.mem_map, List.mem_singleton] at hg
  rcases hg with (⟨t, -, rfl⟩ | hg) | rfl
  · trivial
  · split_ifs at hg
    · exact List.mem_singleton.1 hg ▸ trivial
    · exact absurd hg List.not_mem_nil
  · trivial

lemma routine_afterPlace (seq : ℕ) (p : Pending) (out : SubmitOutcome) :
    ∀ g ∈ Engine.afterPlace seq p out, g.Routine := by
  intro g hg
  simp only [Engine.afterPlace, List.mem_append, List.mem_cons, List.not_mem_nil, or_false] at hg
  rcases hg with (hg | hg) | rfl | rfl | rfl | rfl
  · split_ifs at hg
    · exact List.mem_singleton.1 hg ▸ trivial
    · exact absurd hg List.not_mem_nil
  · exact routine_reportResults p.symbol p.order out g hg
  all_goals trivial

lemma routine_ensureDepth (e : Engine) (symbol : Symbol) (o : Order) :
    ∀ g ∈ (e.ensureDepth symbol o).2.2, g.Routine := by
  unfold Engine.ensureDepth
  split_ifs <;> simp [Task.Routine]

lemma routine_failures (cl : Client) (ids : List ℕ) : ∀ g ∈ cl.failures ids, g.Routine :=
  routine_map (.deliver · none) (fun _ => trivial) _

/-- What the top task is replaced by. -/
lemma Runs.pushes {e e' : Engine} {cl cl' : Client} {a : Act} {k₁ : List Task} {evs : List Event}
    (h : Runs e cl a f e' cl' k₁ evs) : Pushes e f k₁ := by
  cases h with
  | submit symbol owner order uuid =>
    obtain ⟨p, l, pull, hpulls, -, -, -, -, -, -, htasks⟩ := submit_spec e symbol owner order uuid
    exact htasks ▸ .submit rfl hpulls
  | @auction symbol _ r _ =>
    refine .routine fun g hg => ?_
    simp only [Engine.reportAuction, Engine.reportTrades, List.mem_append, List.mem_map,
      List.mem_cons, List.not_mem_nil, or_false] at hg
    rcases hg with (⟨t, -, rfl⟩ | rfl) | rfl | rfl <;> trivial
  | breaks _ _ => exact .routine (routine_failures _ _)
  | answered seq reply =>
    unfold Engine.onOrder
    cases e.pending.lookup seq <;> exact .routine (by simp [Task.Routine])
  | pulled symbol side reply =>
    rcases tasks_onPull e symbol side ((reply.map StorageClient.pulledOrders).getD []) with h | h
      <;> rw [h] <;> exact .routine (by simp [Task.Routine])
  | deepen _ _ => exact .routine (routine_ensureDepth _ _ _)
  | place _ _ _ _ => exact .routine (routine_afterPlace _ _ _)
  | requeued _ =>
    exact .routine (routine_map (fun o => .send (StorageClient.reportRest _ o) .ignored)
      (fun _ => trivial) _)
  | user _ calls => exact .routine (routine_map Task.call (fun _ => trivial) calls)
  | _ => exact .routine (by simp [Task.Routine])

/-- What a step does to the stack. -/
lemma step_pushes {a : Act} (hc' : (c.step a).Returns c') :
    c'.stack = c.stack ∨
    (c.stack = [] ∧ ∀ g ∈ c'.stack, g.Routine ∨ ∃ resp msg, a = .reply msg ∧
      c.client.pending.lookup msg.reqId = some resp ∧ g = .deliver resp (some msg)) ∨
    ∃ f k k₁, c.stack = f :: k ∧ c'.stack = k₁ ++ k ∧ Pushes c.engine f k₁ := by
  cases step_turn hc' with
  | stay _ => exact .inl rfl
  | wake hk h =>
    refine .inr (.inl ⟨hk, fun g hg => ?_⟩)
    cases h with
    | call x | timeout ids => exact .inl (List.mem_singleton.1 hg ▸ trivial)
    | reply hid => exact .inr ⟨_, _, rfl, hid, List.mem_singleton.1 hg⟩
    | close _ _ => exact .inl (routine_failures _ _ g hg)
  | run hk h => exact .inr (.inr ⟨_, _, _, hk, rfl, h.pushes⟩)

end Config

end Codicis
