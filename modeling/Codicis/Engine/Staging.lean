/-
The staging queue of the engine, abstractly.

Orders get an arrival number, are staged, wait for the answer to their report and for the
position of their account, and are taken off the queue in the order of their numbers; a
taken order is placed if its report succeeded, and its completion callback runs later.
`Staging` keeps only what this is about: the queue, the counters, the callbacks that are
still to come, and the history.  `Staging.Step` is what can happen to it: a move of the
engine, or a callback.

The invariant `Staging.Inv` holds along every sequence of steps.  That the engine makes
only these steps, whatever its environment does, is shown in `Engine/Control.lean`.
-/
import Codicis.Engine.TradingEngine

namespace Codicis

/-- The staging queue. -/
structure Staging where
  memLevels : ℕ
  queue : Map ℕ Pending
  nextAssign : ℕ
  nextPlace : ℕ
  loading : List (Symbol × ClientId)
  loaded : List (Symbol × ClientId)
  /-- The callbacks of order reports and of position pulls that are still to run. -/
  awaited : List Resp
  /-- Orders that have a number and are not staged yet. -/
  incoming : List (ℕ × Pending)
  /-- Completion callbacks that are still to run. -/
  finishing : List (ℕ × Result)
  /-- The queue is going to be drained. -/
  draining : Prop
  history : List Event

/-- Events that do not concern the queue. -/
def Event.Aside : Event → Prop
  | cancelled _ _ => True
  | auctioned _ _ _ => True
  | _ => False

/-- The submission that an event is. -/
def Event.submission? : Event → Option (ℕ × Symbol × Order)
  | submitted seq symbol order => some (seq, symbol, order)
  | _ => none

/-- The answer to an order report that an event is. -/
def Event.answer? : Event → Option (ℕ × Option HelperMessage)
  | answered seq reply => some (seq, reply)
  | _ => none

/-- The placement that an event is. -/
def Event.placement? : Event → Option (ℕ × Symbol × Order)
  | placed seq symbol order _ => some (seq, symbol, order)
  | _ => none

/-- The completion callback that an event is. -/
def Event.completion? : Event → Option (ℕ × Result)
  | called seq r => some (seq, r)
  | _ => none

/-- The submissions of a history. -/
def submissions (h : List Event) : List (ℕ × Symbol × Order) := h.filterMap Event.submission?

/-- The answers to the order reports of a history. -/
def answers (h : List Event) : List (ℕ × Option HelperMessage) := h.filterMap Event.answer?

/-- The placements of a history. -/
def placements (h : List Event) : List (ℕ × Symbol × Order) := h.filterMap Event.placement?

/-- The completion callbacks of a history. -/
def completions (h : List Event) : List (ℕ × Result) := h.filterMap Event.completion?

/-- The event is an operation in which orders can trade. -/
def Event.deal : Event → Bool
  | placed _ _ _ _ => true
  | auctioned _ _ _ => true
  | _ => false

/-- The operations of a history in which orders can trade. -/
def deals (h : List Event) : List Event := h.filter Event.deal

section History

variable {h : List Event}

lemma placements_deals : placements (deals h) = placements h := by
  rw [placements, deals, List.filterMap_filter]
  refine List.filterMap_congr fun ev _ => ?_
  cases ev <;> rfl

@[simp] lemma submissions_append (h' : List Event) :
    submissions (h ++ h') = submissions h ++ submissions h' := List.filterMap_append

@[simp] lemma answers_append (h' : List Event) :
    answers (h ++ h') = answers h ++ answers h' := List.filterMap_append

@[simp] lemma placements_append (h' : List Event) :
    placements (h ++ h') = placements h ++ placements h' := List.filterMap_append

@[simp] lemma completions_append (h' : List Event) :
    completions (h ++ h') = completions h ++ completions h' := List.filterMap_append

lemma mem_submissions {seq : ℕ} {symbol : Symbol} {o : Order} :
    (seq, symbol, o) ∈ submissions h ↔ .submitted seq symbol o ∈ h := by
  simp only [submissions, List.mem_filterMap]
  constructor
  · rintro ⟨ev, hev, heq⟩
    cases ev <;> simp_all [Event.submission?]
  · exact fun hev => ⟨_, hev, rfl⟩

lemma mem_answers {seq : ℕ} {reply : Option HelperMessage} :
    (seq, reply) ∈ answers h ↔ .answered seq reply ∈ h := by
  simp only [answers, List.mem_filterMap]
  constructor
  · rintro ⟨ev, hev, heq⟩
    cases ev <;> simp_all [Event.answer?]
  · exact fun hev => ⟨_, hev, rfl⟩

lemma mem_placements {seq : ℕ} {symbol : Symbol} {o : Order} :
    (seq, symbol, o) ∈ placements h ↔ ∃ out, .placed seq symbol o out ∈ h := by
  simp only [placements, List.mem_filterMap]
  constructor
  · rintro ⟨ev, hev, heq⟩
    cases ev <;> simp_all [Event.placement?]
    exact ⟨_, hev⟩
  · exact fun ⟨out, hev⟩ => ⟨_, hev, rfl⟩

lemma mem_completions {seq : ℕ} {r : Result} :
    (seq, r) ∈ completions h ↔ .called seq r ∈ h := by
  simp only [completions, List.mem_filterMap]
  constructor
  · rintro ⟨ev, hev, heq⟩
    cases ev <;> simp_all [Event.completion?]
  · exact fun hev => ⟨_, hev, rfl⟩

/-- Events that do not concern the queue count for nothing. -/
lemma aside_eq_nil (hev : ∀ ev ∈ h, ev.Aside) :
    submissions h = [] ∧ answers h = [] ∧ placements h = [] ∧ completions h = [] := by
  refine ⟨?_, ?_, ?_, ?_⟩ <;>
    refine List.filterMap_eq_nil_iff.2 fun ev hmem => ?_ <;>
    have hav := hev ev hmem <;>
    cases ev <;> first | rfl | exact absurd hav id

end History

/-- The order report that a callback belongs to. -/
def Resp.seq? : Resp → Option ℕ
  | order seq => some seq
  | _ => none

namespace Staging

/-- The head of the queue, if its report is answered and its position is loaded. -/
def head? (s : Staging) : Option Pending :=
  (s.queue.lookup s.nextPlace).filter fun p => p.acked && p.posReady

/-- The queue after the answer to the report of an order. -/
def acked (s : Staging) (seq : ℕ) (ok : Bool) : Map ℕ Pending :=
  match s.queue.lookup seq with
  | none => s.queue
  | some p => s.queue.insert seq { p with acked := true, ok := ok }

/-- How the position of a new order is awaited: it is there, or a pull for it is in
flight, or one is to be sent. -/
inductive Awaits (s : Staging) (p : Pending) :
    List (Symbol × ClientId) → List Resp → Prop
  | loaded (h : p.posReady = true) (hl : p.clientId = 0 ∨ (p.symbol, p.clientId) ∈ s.loaded) :
      Awaits s p s.loading s.awaited
  | loading (h : p.posReady = false) (hl : (p.symbol, p.clientId) ∈ s.loading) :
      Awaits s p s.loading s.awaited
  | pull (h : p.posReady = false) (hl : (p.symbol, p.clientId) ∉ s.loaded)
      (hl' : (p.symbol, p.clientId) ∉ s.loading) :
      Awaits s p (s.loading.insert (p.symbol, p.clientId))
        (.position p.symbol p.clientId :: s.awaited)

/-- What the head of the queue leads to: its placement, or a failure. -/
inductive Outcome (seq : ℕ) (p : Pending) : Result → List Event → Prop
  | placed (out : SubmitOutcome) (h : p.ok = true) {r : Result} (hr : r.storageOk = true) :
      Outcome seq p r [.placed seq p.symbol p.order out]
  | failed (h : p.ok = false) {r : Result} (hr : r.storageOk = false) : Outcome seq p r []

/-- What can happen to the queue, apart from callbacks. -/
inductive Move (s : Staging) : Staging → Prop
  /-- Something that does not concern it. -/
  | aside {a : List Resp} {d : Prop} {evs : List Event} (ha : s.awaited.Perm a)
      (hd : s.draining → d) (hev : ∀ ev ∈ evs, ev.Aside) :
      Move s { s with awaited := a, draining := d, history := s.history ++ evs }
  /-- Draining ends: without a window, because the head has to wait. -/
  | leave {d : Prop} (h : s.memLevels = 0 → s.head? = none) : Move s { s with draining := d }
  /-- An order gets its number. -/
  | assign {p : Pending} {l : List (Symbol × ClientId)} {a a' : List Resp}
      {inc : List (ℕ × Pending)} {d : Prop} (hp : p.acked = false)
      (hc : p.order.clientId = p.clientId) (hw : Awaits s p l a)
      (ha : a'.Perm (.order s.nextAssign :: a))
      (hi : inc.Perm ((s.nextAssign, p) :: s.incoming)) (hd : s.draining → d) :
      Move s { s with nextAssign := s.nextAssign + 1, loading := l, awaited := a',
                      incoming := inc, draining := d,
                      history := s.history ++ [.submitted s.nextAssign p.symbol p.order] }
  /-- An order is staged. -/
  | stage {seq : ℕ} {p : Pending} {inc : List (ℕ × Pending)}
      (hi : s.incoming.Perm ((seq, p) :: inc)) {d : Prop} (hd : s.draining → d) :
      Move s { s with incoming := inc, queue := s.queue.insert seq p, draining := d }
  /-- The head is taken off the queue. -/
  | take {p : Pending} {r : Result} {evs : List Event} {a : List Resp}
      {f : List (ℕ × Result)} {d : Prop} (hp : s.head? = some p)
      (hr : Outcome s.nextPlace p r evs) (ha : s.awaited.Perm a)
      (hf : f.Perm ((s.nextPlace, r) :: s.finishing)) (hd : d) :
      Move s { s with queue := s.queue.erase s.nextPlace, nextPlace := s.nextPlace + 1,
                      awaited := a, finishing := f, draining := d,
                      history := s.history ++ evs }
  /-- A completion callback runs. -/
  | finish {seq : ℕ} {r : Result} {f : List (ℕ × Result)} {d : Prop}
      (hf : s.finishing.Perm ((seq, r) :: f)) (hd : s.draining → d) :
      Move s { s with finishing := f, draining := d, history := s.history ++ [.called seq r] }

/-- What a callback does to the queue, when it gets a reply or a failure. -/
inductive Callback (s : Staging) : Resp → Option HelperMessage → Staging → Prop
  /-- The report of an order is answered. -/
  | answer {seq : ℕ} {reply : Option HelperMessage} {a : List Resp} {d : Prop}
      (ha : s.awaited.Perm (.order seq :: a)) (hd : s.draining → d)
      (hd' : (s.queue.lookup seq).isSome = true → d) :
      Callback s (.order seq) reply
        { s with awaited := a, queue := s.acked seq reply.isSome, draining := d,
                 history := s.history ++ [.answered seq reply] }
  /-- A position is loaded. -/
  | ready {symbol : Symbol} {client : ClientId} {reply : Option HelperMessage} {a : List Resp}
      {d : Prop} (ha : s.awaited.Perm (.position symbol client :: a)) (hd : d) :
      Callback s (.position symbol client) reply
        { s with awaited := a, loading := s.loading.filter (· ≠ (symbol, client)),
                 loaded := s.loaded.insert (symbol, client),
                 queue := Map.mapVal (Engine.markReady symbol client) s.queue,
                 draining := d }

/-- What can happen to the queue. -/
def Step (s s' : Staging) : Prop := Move s s' ∨ ∃ resp reply, Callback s resp reply s'

/-- Only a callback answers a report. -/
lemma Move.answers {s s' : Staging} (hm : Move s s') :
    answers s'.history = Codicis.answers s.history := by
  cases hm with
  | aside ha hd hev => rw [answers_append, (aside_eq_nil hev).2.1, List.append_nil]
  | leave _ => rfl
  | stage hi hd => rfl
  | take hp hr ha hf hd =>
    cases hr with
    | placed out h hr => rw [answers_append]; exact List.append_nil _
    | failed h hr => rw [List.append_nil]
  | assign hp hc hw ha hi hd => rw [answers_append]; exact List.append_nil _
  | finish hf hd => rw [answers_append]; exact List.append_nil _

/-- A callback that answers a report gets the answer. -/
lemma Callback.answers {s s' : Staging} {resp : Resp} {reply : Option HelperMessage}
    (hc : Callback s resp reply s') :
    Codicis.answers s'.history = Codicis.answers s.history ∨ ∃ seq, resp = .order seq ∧
      Codicis.answers s'.history = Codicis.answers s.history ++ [(seq, reply)] := by
  cases hc with
  | answer ha hd hd' => exact .inr ⟨_, rfl, answers_append _⟩
  | ready ha hd => exact .inl rfl

/-! ### Arrival numbers

Each number below `nextAssign` has been submitted once, its report is awaited or answered
once, and it waits in the queue, or is completed once. -/

/-- The arrival numbers below `n`. -/
def numbers (n : ℕ) : List ℕ := List.range' 1 (n - 1)

lemma numbers_succ {n : ℕ} (h : 1 ≤ n) : numbers (n + 1) = numbers n ++ [n] := by
  obtain ⟨m, rfl⟩ : ∃ m, n = m + 1 := ⟨n - 1, by omega⟩
  simp [numbers, List.range'_concat, Nat.add_comm]

lemma nodup_numbers (n : ℕ) : (numbers n).Nodup := List.nodup_range'

/-- Where each arrival number is. -/
structure Numbered (s : Staging) : Prop where
  pos : 1 ≤ s.nextPlace
  le : s.nextPlace ≤ s.nextAssign
  submitted : (submissions s.history).map Prod.fst = numbers s.nextAssign
  reported : (s.awaited.filterMap Resp.seq? ++ (answers s.history).map Prod.fst).Perm
    (numbers s.nextAssign)
  waiting : (s.queue.keys ++ s.incoming.map Prod.fst).Perm
    (List.range' s.nextPlace (s.nextAssign - s.nextPlace))
  completed : (s.finishing.map Prod.fst ++ (completions s.history).map Prod.fst).Perm
    (numbers s.nextPlace)

lemma keys_acked (s : Staging) (seq : ℕ) (ok : Bool) : (s.acked seq ok).keys.Perm s.queue.keys := by
  unfold acked
  cases h : s.queue.lookup seq with
  | none => exact .refl _
  | some p => exact Map.keys_update_perm h _

/-- The head waits in the queue. -/
lemma lookup_of_head {s : Staging} {p : Pending} (h : s.head? = some p) :
    s.queue.lookup s.nextPlace = some p ∧ p.acked = true ∧ p.posReady = true := by
  obtain ⟨hl, hp⟩ := Option.filter_eq_some_iff.1 h
  exact ⟨hl, by simpa using hp⟩

/-- The next number is assigned. -/
lemma waiting_succ {a b : ℕ} (h : a ≤ b) :
    List.range' a (b + 1 - a) = List.range' a (b - a) ++ [b] := by
  rw [Nat.succ_sub h, List.range'_concat]
  congr 2
  omega

/-- The next number is placed. -/
lemma waiting_place {a b : ℕ} (h : a < b) :
    List.range' a (b - a) = a :: List.range' (a + 1) (b - (a + 1)) := by
  obtain ⟨n, rfl⟩ : ∃ n, b = a + 1 + n := ⟨b - (a + 1), by omega⟩
  rw [show a + 1 + n - a = n + 1 by omega, Nat.add_sub_cancel_left, List.range'_succ]

namespace Numbered

variable {s : Staging}

/-- A number that waits in the queue. -/
lemma of_queue (h : Numbered s) {seq : ℕ} {p : Pending} (hp : s.queue.lookup seq = some p) :
    s.nextPlace ≤ seq ∧ seq < s.nextAssign := by
  have hmem : seq ∈ s.queue.keys ++ s.incoming.map Prod.fst :=
    List.mem_append_left _ (AList.mem_keys.1 (Map.mem_iff_lookup.2 ⟨p, hp⟩))
  have := List.mem_range'_1.1 (h.waiting.subset hmem)
  omega

/-- A number that is not staged yet. -/
lemma lookup_incoming (h : Numbered s) {x : ℕ × Pending} (hx : x ∈ s.incoming) :
    s.queue.lookup x.1 = none := by
  have hnodup := h.waiting.nodup_iff.2 List.nodup_range'
  rw [AList.lookup_eq_none]
  intro hmem
  exact List.disjoint_of_nodup_append hnodup (AList.mem_keys.1 hmem)
    (List.mem_map_of_mem hx)

lemma aside (h : Numbered s) {a : List Resp} {d : Prop} {evs : List Event}
    (ha : s.awaited.Perm a) (hev : ∀ ev ∈ evs, ev.Aside) :
    Numbered { s with awaited := a, draining := d, history := s.history ++ evs } := by
  obtain ⟨h1, h2, -, h4⟩ := aside_eq_nil hev
  constructor <;> simp only [submissions_append, answers_append, completions_append, h1, h2, h4,
    List.append_nil]
  · exact h.pos
  · exact h.le
  · exact h.submitted
  · exact ((ha.filterMap _).symm.append_right _).trans h.reported
  · exact h.waiting
  · exact h.completed

lemma assign (h : Numbered s) {p : Pending} {l : List (Symbol × ClientId)} {a a' : List Resp}
    {inc : List (ℕ × Pending)} {d : Prop} (hw : Awaits s p l a)
    (ha : a'.Perm (.order s.nextAssign :: a)) (hi : inc.Perm ((s.nextAssign, p) :: s.incoming)) :
    Numbered { s with nextAssign := s.nextAssign + 1, loading := l, awaited := a',
                      incoming := inc, draining := d,
                      history := s.history ++ [.submitted s.nextAssign p.symbol p.order] } := by
  have hpos : 1 ≤ s.nextAssign := h.pos.trans h.le
  have haw : a.filterMap Resp.seq? = s.awaited.filterMap Resp.seq? := by cases hw <;> rfl
  constructor
  · exact h.pos
  · exact h.le.trans (Nat.le_succ _)
  · rw [submissions_append, List.map_append, h.submitted, numbers_succ hpos]
    rfl
  · have hnew : (a'.filterMap Resp.seq? ++ (answers (s.history ++
        [.submitted s.nextAssign p.symbol p.order])).map Prod.fst).Perm
        (s.nextAssign :: (s.awaited.filterMap Resp.seq? ++ (answers s.history).map Prod.fst)) := by
      rw [answers_append, ← haw]
      refine ((ha.filterMap _).append_right _).trans (.of_eq ?_)
      simp [Resp.seq?, answers, Event.answer?]
    rw [numbers_succ hpos]
    exact hnew.trans ((h.reported.cons _).trans (List.perm_append_singleton _ _).symm)
  · have hnew : (s.queue.keys ++ inc.map Prod.fst).Perm
        (s.nextAssign :: (s.queue.keys ++ s.incoming.map Prod.fst)) :=
      ((hi.map Prod.fst).append_left _).trans List.perm_middle
    rw [waiting_succ h.le]
    exact hnew.trans ((h.waiting.cons _).trans (List.perm_append_singleton _ _).symm)
  · rw [completions_append]
    exact (List.append_nil (completions s.history)).symm ▸ h.completed

lemma stage (h : Numbered s) {seq : ℕ} {p : Pending} {inc : List (ℕ × Pending)} {d : Prop}
    (hi : s.incoming.Perm ((seq, p) :: inc)) :
    Numbered { s with incoming := inc, queue := s.queue.insert seq p, draining := d } := by
  have hnone : s.queue.lookup seq = none :=
    h.lookup_incoming (x := (seq, p)) (hi.mem_iff.2 List.mem_cons_self)
  refine ⟨h.pos, h.le, h.submitted, h.reported, ?_, h.completed⟩
  have hnew : ((s.queue.insert seq p).keys ++ inc.map Prod.fst).Perm
      (s.queue.keys ++ s.incoming.map Prod.fst) :=
    ((Map.keys_insert_perm hnone p).append_right _).trans
      (List.perm_middle.symm.trans ((hi.map Prod.fst).symm.append_left _))
  exact hnew.trans h.waiting

lemma take (h : Numbered s) {p : Pending} {r : Result} {evs : List Event} {a : List Resp}
    {f : List (ℕ × Result)} {d : Prop} (hp : s.head? = some p)
    (hr : Outcome s.nextPlace p r evs) (ha : s.awaited.Perm a)
    (hf : f.Perm ((s.nextPlace, r) :: s.finishing)) :
    Numbered { s with queue := s.queue.erase s.nextPlace, nextPlace := s.nextPlace + 1,
                      awaited := a, finishing := f, draining := d,
                      history := s.history ++ evs } := by
  have hlook := (lookup_of_head hp).1
  have hlt := (h.of_queue hlook).2
  obtain ⟨h1, h2, h3⟩ : submissions evs = [] ∧ answers evs = [] ∧ completions evs = [] := by
    cases hr <;> exact ⟨rfl, rfl, rfl⟩
  constructor <;> simp only [submissions_append, answers_append, completions_append, h1, h2, h3,
    List.append_nil]
  · exact Nat.le_succ_of_le h.pos
  · exact hlt
  · exact h.submitted
  · exact ((ha.filterMap _).symm.append_right _).trans h.reported
  · have hold := h.waiting
    rw [waiting_place hlt] at hold
    exact (((Map.keys_erase_perm hlook).append_right _).symm.trans hold).cons_inv
  · rw [numbers_succ h.pos]
    exact ((hf.map Prod.fst).append_right _).trans
      ((h.completed.cons _).trans (List.perm_append_singleton _ _).symm)

lemma perm_append_snoc (l m : List ℕ) (n : ℕ) : (l ++ (m ++ [n])).Perm (n :: l ++ m) := by
  rw [← List.append_assoc]
  exact List.perm_append_singleton _ _

lemma finish (h : Numbered s) {seq : ℕ} {r : Result} {f : List (ℕ × Result)} {d : Prop}
    (hf : s.finishing.Perm ((seq, r) :: f)) :
    Numbered { s with finishing := f, draining := d,
                      history := s.history ++ [.called seq r] } := by
  constructor <;> simp only [submissions_append, answers_append, completions_append,
    List.map_append]
  · exact h.pos
  · exact h.le
  · exact (List.append_nil _).trans h.submitted
  · exact (List.append_nil ((answers s.history).map Prod.fst)).symm ▸ h.reported
  · exact h.waiting
  · exact (perm_append_snoc _ _ seq).trans
      (((hf.map Prod.fst).append_right _).symm.trans h.completed)

/-- Where the numbers are, after a move. -/
lemma move (h : Numbered s) {s' : Staging} (hm : Move s s') : Numbered s' := by
  cases hm with
  | aside ha hd hev => exact h.aside ha hev
  | leave _ => exact ⟨h.pos, h.le, h.submitted, h.reported, h.waiting, h.completed⟩
  | assign hp hc hw ha hi hd => exact h.assign hw ha hi
  | stage hi hd => exact h.stage hi
  | take hp hr ha hf hd => exact h.take hp hr ha hf
  | finish hf hd => exact h.finish hf

/-- Where the numbers are, after a callback. -/
lemma callback (h : Numbered s) {resp : Resp} {reply : Option HelperMessage} {s' : Staging}
    (hm : Callback s resp reply s') : Numbered s' := by
  cases hm with
  | @answer seq _ a d ha hd hd' =>
    constructor <;> simp only [submissions_append, answers_append, completions_append,
      List.map_append]
    · exact h.pos
    · exact h.le
    · exact (List.append_nil _).trans h.submitted
    · exact (perm_append_snoc _ _ seq).trans
        (((ha.filterMap Resp.seq?).append_right _).symm.trans h.reported)
    · exact ((keys_acked s seq reply.isSome).append_right _).trans h.waiting
    · exact (List.append_nil ((completions s.history).map Prod.fst)).symm ▸ h.completed
  | @ready symbol client _ a d ha hd =>
    refine ⟨h.pos, h.le, h.submitted, ?_, ?_, h.completed⟩
    · exact ((ha.filterMap Resp.seq?).append_right _).symm.trans h.reported
    · exact (Map.keys_mapVal (Engine.markReady symbol client) s.queue).symm ▸ h.waiting

end Numbered

/-! ### What the queue knows is in the history -/

/-- The report of the order was answered as `ok` says. -/
def Answered (h : List Event) (seq : ℕ) (ok : Bool) : Prop :=
  ∃ reply, .answered seq reply ∈ h ∧ reply.isSome = ok

lemma Answered.append {h : List Event} {seq : ℕ} {ok : Bool} (hh : Answered h seq ok)
    (h' : List Event) : Answered (h ++ h') seq ok := by
  obtain ⟨reply, hmem, hok⟩ := hh
  exact ⟨reply, List.mem_append_left _ hmem, hok⟩

/-- What comes before an event: before a placement the submission and a successful report,
and before a completion callback the answer that it tells. -/
def Preceded (h : List Event) : Event → Prop
  | .placed seq symbol o _ => .submitted seq symbol o ∈ h ∧ Answered h seq true
  | .called seq r => Answered h seq r.storageOk
  | _ => True

lemma preceded_aside {ev : Event} (hev : ev.Aside) (h : List Event) : Preceded h ev := by
  cases ev <;> trivial

/-- What a staged order knows is in the history. -/
def Known (h : List Event) (seq : ℕ) (p : Pending) : Prop :=
  .submitted seq p.symbol p.order ∈ h ∧ (p.acked = true → Answered h seq p.ok)

lemma Known.append {h : List Event} {seq : ℕ} {p : Pending} (hh : Known h seq p)
    (h' : List Event) : Known (h ++ h') seq p :=
  ⟨List.mem_append_left _ hh.1, fun hack => (hh.2 hack).append h'⟩

/-- What the queue knows is in the history, and the history is in order. -/
structure Accounted (s : Staging) : Prop where
  queued : ∀ seq p, s.queue.lookup seq = some p → Known s.history seq p
  incoming : ∀ x ∈ s.incoming, Known s.history x.1 x.2
  finishing : ∀ x ∈ s.finishing, Answered s.history x.1 x.2.storageOk
  placed_sorted : ((placements s.history).map Prod.fst).Pairwise (· < ·)
  placed_lt : ∀ seq ∈ (placements s.history).map Prod.fst, seq < s.nextPlace
  preceded : Justified Preceded s.history

namespace Accounted

variable {s : Staging}

lemma take (h : Accounted s) {p : Pending} {r : Result} {evs : List Event} {a : List Resp}
    {f : List (ℕ × Result)} {d : Prop} (hp : s.head? = some p)
    (hr : Outcome s.nextPlace p r evs) (hf : f.Perm ((s.nextPlace, r) :: s.finishing)) :
    Accounted { s with queue := s.queue.erase s.nextPlace, nextPlace := s.nextPlace + 1,
                       awaited := a, finishing := f, draining := d,
                       history := s.history ++ evs } := by
  obtain ⟨hlook, hack, -⟩ := lookup_of_head hp
  obtain ⟨hsub, hans⟩ := h.queued _ _ hlook
  have hans := hans hack
  have hrok : Answered s.history s.nextPlace r.storageOk := by
    cases hr with
    | placed out hok hr => exact hr ▸ hok ▸ hans
    | failed hok hr => exact hr ▸ hok ▸ hans
  constructor
  · exact fun seq q hq => (h.queued seq q (Map.lookup_of_erase hq)).append evs
  · exact fun x hx => (h.incoming x hx).append evs
  · intro x hx
    rcases List.mem_cons.1 (hf.mem_iff.1 hx) with rfl | hx
    · exact hrok.append evs
    · exact (h.finishing x hx).append evs
  · cases hr with
    | placed out hok hr =>
      rw [placements_append, List.map_append, List.pairwise_append]
      refine ⟨h.placed_sorted, List.pairwise_singleton _ _, fun x hx y hy => ?_⟩
      obtain rfl := List.mem_singleton.1 hy
      exact h.placed_lt x hx
    | failed hok hr => exact (List.append_nil s.history).symm ▸ h.placed_sorted
  · intro x hx
    cases hr with
    | placed out hok hr =>
      rw [placements_append, List.map_append, List.mem_append] at hx
      rcases hx with hx | hx
      · exact Nat.lt_succ_of_lt (h.placed_lt x hx)
      · obtain rfl := List.mem_singleton.1 hx
        exact Nat.lt_succ_self _
    | failed hok hr =>
      rw [List.append_nil] at hx
      exact Nat.lt_succ_of_lt (h.placed_lt x hx)
  · cases hr with
    | placed out hok hr => exact h.preceded.snoc ⟨hsub, hok ▸ hans⟩
    | failed hok hr => exact (List.append_nil s.history).symm ▸ h.preceded

/-- Events that are neither placements nor completions. -/
lemma append (h : Accounted s) (evs : List Event) (hpl : placements evs = [])
    (hev : ∀ ev ∈ evs, ∀ h, Preceded h ev) : Accounted { s with history := s.history ++ evs } := by
  constructor <;> simp only [placements_append, hpl, List.append_nil]
  · exact fun seq p hp => (h.queued seq p hp).append evs
  · exact fun x hx => (h.incoming x hx).append evs
  · exact fun x hx => (h.finishing x hx).append evs
  · exact h.placed_sorted
  · exact h.placed_lt
  · exact h.preceded.append_free hev

lemma move (h : Accounted s) {s' : Staging} (hm : Move s s') : Accounted s' := by
  cases hm with
  | aside ha hd hev =>
    obtain ⟨h1, h2, h3, h4, h5, h6⟩ := h.append _ (aside_eq_nil hev).2.2.1
      fun ev hmem => preceded_aside (hev ev hmem)
    exact ⟨h1, h2, h3, h4, h5, h6⟩
  | leave _ =>
    exact ⟨h.queued, h.incoming, h.finishing, h.placed_sorted, h.placed_lt, h.preceded⟩
  | @assign p l a a' inc d hp hc hw ha hi hd =>
    obtain ⟨h1, h2, h3, h4, h5, h6⟩ :=
      h.append [.submitted s.nextAssign p.symbol p.order] rfl (by simp [Preceded])
    refine ⟨h1, fun x hx => ?_, h3, h4, h5, h6⟩
    rcases List.mem_cons.1 (hi.mem_iff.1 hx) with rfl | hx
    · exact ⟨List.mem_append_right _ (by simp), fun hack => absurd hack (by simp [hp])⟩
    · exact h2 x hx
  | @stage seq p inc hi d hd =>
    refine ⟨fun i q hq => ?_, fun x hx => ?_, h.finishing, h.placed_sorted, h.placed_lt,
      h.preceded⟩
    · rw [Map.lookup_insert_eq] at hq
      split_ifs at hq with hi'
      · obtain rfl := Option.some.inj hq
        subst hi'
        exact h.incoming (i, p) (hi.mem_iff.2 List.mem_cons_self)
      · exact h.queued i q hq
    · exact h.incoming x (hi.mem_iff.2 (List.mem_cons_of_mem _ hx))
  | take hp hr ha hf hd => exact h.take hp hr hf
  | @finish seq r f d hf hd =>
    have hans := h.finishing (seq, r) (hf.mem_iff.2 List.mem_cons_self)
    constructor
    · exact fun i p hp => (h.queued i p hp).append _
    · exact fun x hx => (h.incoming x hx).append _
    · exact fun x hx => (h.finishing x (hf.mem_iff.2 (List.mem_cons_of_mem _ hx))).append _
    · exact (placements_append _).symm ▸ (List.append_nil _).symm ▸ h.placed_sorted
    · exact (placements_append _).symm ▸ (List.append_nil _).symm ▸ h.placed_lt
    · exact h.preceded.snoc hans

lemma callback (h : Accounted s) {resp : Resp} {reply : Option HelperMessage} {s' : Staging}
    (hm : Callback s resp reply s') : Accounted s' := by
  cases hm with
  | @answer seq _ a d ha hd hd' =>
    obtain ⟨h1, h2, h3, h4, h5, h6⟩ :=
      h.append [.answered seq reply] rfl (by simp [Preceded])
    refine ⟨fun i q hq => ?_, h2, h3, h4, h5, h6⟩
    simp only [acked] at hq
    cases hs : s.queue.lookup seq with
    | none =>
      rw [hs] at hq
      exact h1 i q hq
    | some p =>
      rw [hs, Map.lookup_insert_eq] at hq
      split_ifs at hq with hi
      · obtain rfl := Option.some.inj hq
        subst hi
        exact ⟨(h1 i p hs).1, fun _ => ⟨reply, List.mem_append_right _ (by simp), rfl⟩⟩
      · exact h1 i q hq
  | @ready symbol client _ a d ha hd =>
    refine ⟨fun i q hq => ?_, h.incoming, h.finishing, h.placed_sorted, h.placed_lt,
      h.preceded⟩
    rw [Map.lookup_mapVal] at hq
    obtain ⟨p, hp, rfl⟩ := Option.map_eq_some_iff.1 hq
    have hknown := h.queued i p hp
    unfold Engine.markReady
    split_ifs <;> exact hknown

end Accounted

/-- The invariant of the staging queue. -/
structure Inv (s : Staging) : Prop where
  numbered : Numbered s
  accounted : Accounted s

lemma Inv.step {s s' : Staging} (h : Inv s) (hs : Step s s') : Inv s' := by
  rcases hs with hs | ⟨resp, reply, hs⟩
  · exact ⟨h.numbered.move hs, h.accounted.move hs⟩
  · exact ⟨h.numbered.callback hs, h.accounted.callback hs⟩

end Staging

end Codicis
