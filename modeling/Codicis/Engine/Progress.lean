/-
No order is stuck, without a resident window.

An order that waits is waited for: while its report is not answered the callback of the
report is still to come, and while its position is not loaded that of a position pull is.
So when nothing is in flight the queue is empty (`notStuck_of_reach`).

`submit` pulls the position before it stages the order.  If the callback of the pull runs
inside the send, the order is not in the queue yet and nobody tells it that its position
is loaded (`stuck_after_close`).
-/
import Codicis.Engine.Placement

namespace Codicis

namespace Staging

/-- The order is waited for, in what it still lacks. -/
def Waits (s : Staging) (seq : ℕ) (p : Pending) : Prop :=
  (p.acked = false → .order seq ∈ s.awaited) ∧
    (p.posReady = false → .position p.symbol p.clientId ∈ s.awaited)

/-- Orders are waited for, and a head that may be placed is going to be. -/
structure Progressing (s : Staging) : Prop where
  window : s.memLevels = 0
  incoming : ∀ x ∈ s.incoming, x.2.acked = false ∧ Waits s x.1 x.2
  queued : ∀ seq p, s.queue.lookup seq = some p → Waits s seq p
  loading : ∀ key ∈ s.loading, .position key.1 key.2 ∈ s.awaited
  head : s.head?.isSome = true → s.draining

lemma Waits.of_subset {s s' : Staging} {seq : ℕ} {p : Pending} (h : Waits s seq p)
    (hsub : ∀ r ∈ s.awaited, r ∈ s'.awaited) : Waits s' seq p :=
  ⟨fun hack => hsub _ (h.1 hack), fun hpos => hsub _ (h.2 hpos)⟩

namespace Progressing

variable {s s' : Staging}

lemma assign (h : Progressing s) {p : Pending} {l : List (Symbol × ClientId)} {a a' : List Resp}
    {inc : List (ℕ × Pending)} {d : Prop} (hp : p.acked = false) (hw : Awaits s p l a)
    (ha : a'.Perm (.order s.nextAssign :: a)) (hi : inc.Perm ((s.nextAssign, p) :: s.incoming))
    (hd : s.draining → d) :
    Progressing { s with nextAssign := s.nextAssign + 1, loading := l, awaited := a',
                         incoming := inc, draining := d,
                         history := s.history ++ [.submitted s.nextAssign p.symbol p.order] } := by
  have hmem : ∀ r ∈ a, r ∈ a' := fun r hr => ha.mem_iff.2 (List.mem_cons_of_mem _ hr)
  have hold : ∀ r ∈ s.awaited, r ∈ a' := by
    intro r hr
    refine hmem r ?_
    cases hw with
    | loaded _ _ => exact hr
    | loading _ _ => exact hr
    | pull _ _ _ => exact List.mem_cons_of_mem _ hr
  refine ⟨h.window, fun x hx => ?_, fun seq q hq => (h.queued seq q hq).of_subset hold,
    fun key hkey => ?_, fun hh => hd (h.head hh)⟩
  · rcases List.mem_cons.1 (hi.mem_iff.1 hx) with rfl | hx
    · refine ⟨hp, fun _ => ha.mem_iff.2 List.mem_cons_self, fun hpos => hmem _ ?_⟩
      cases hw with
      | loaded hr _ => exact absurd hr (by simp_all)
      | loading _ hl => exact h.loading _ hl
      | pull _ _ _ => exact List.mem_cons_self
    · exact ⟨(h.incoming x hx).1, (h.incoming x hx).2.of_subset hold⟩
  · cases hw with
    | loaded _ _ => exact hold _ (h.loading key hkey)
    | loading _ _ => exact hold _ (h.loading key hkey)
    | pull _ _ _ =>
      rcases List.mem_insert_iff.1 hkey with rfl | hkey
      · exact hmem _ List.mem_cons_self
      · exact hold _ (h.loading key hkey)

lemma stage (h : Progressing s) {seq : ℕ} {p : Pending} {inc : List (ℕ × Pending)} {d : Prop}
    (hi : s.incoming.Perm ((seq, p) :: inc)) (hd : s.draining → d) :
    Progressing { s with incoming := inc, queue := s.queue.insert seq p, draining := d } := by
  obtain ⟨hack, hwait⟩ := h.incoming (seq, p) (hi.mem_iff.2 List.mem_cons_self)
  refine ⟨h.window, fun x hx => h.incoming x (hi.mem_iff.2 (List.mem_cons_of_mem _ hx)),
    fun i q hq => ?_, h.loading, fun hh => ?_⟩
  · rw [Map.lookup_insert_eq] at hq
    split_ifs at hq with hi'
    · obtain rfl := Option.some.inj hq
      exact hi' ▸ hwait
    · exact h.queued i q hq
  · -- the report of the new order is not answered, so it is not a head that may be placed
    obtain ⟨q, hq⟩ := Option.isSome_iff_exists.1 hh
    obtain ⟨hlook, hqack, hqpos⟩ := lookup_of_head hq
    rw [Map.lookup_insert_eq] at hlook
    split_ifs at hlook with hseq
    · obtain rfl := Option.some.inj hlook
      exact absurd (hqack.symm.trans hack) (by simp)
    · refine hd (h.head ?_)
      simp [head?, hlook, hqack, hqpos]

lemma move (h : Progressing s) (hm : Move s s') : Progressing s' := by
  cases hm with
  | aside ha hd hev =>
    have hsub : ∀ r ∈ s.awaited, r ∈ _ := fun r hr => ha.mem_iff.1 hr
    exact ⟨h.window, fun x hx => ⟨(h.incoming x hx).1, (h.incoming x hx).2.of_subset hsub⟩,
      fun seq p hp => (h.queued seq p hp).of_subset hsub,
      fun key hkey => hsub _ (h.loading key hkey), fun hh => hd (h.head hh)⟩
  | leave hnone =>
    refine ⟨h.window, h.incoming, h.queued, h.loading, fun hh => ?_⟩
    have hh : s.head?.isSome = true := hh
    rw [hnone h.window] at hh
    exact absurd hh (by simp)
  | assign hp hc hw ha hi hd => exact h.assign hp hw ha hi hd
  | stage hi hd => exact h.stage hi hd
  | take hp hr ha hf hd =>
    have hsub : ∀ r ∈ s.awaited, r ∈ _ := fun r hr => ha.mem_iff.1 hr
    refine ⟨h.window, fun x hx => ⟨(h.incoming x hx).1, (h.incoming x hx).2.of_subset hsub⟩,
      fun seq q hq => ?_, fun key hkey => hsub _ (h.loading key hkey), fun _ => hd⟩
    exact (h.queued seq q (Map.lookup_of_erase hq)).of_subset hsub
  | finish hf hd => exact ⟨h.window, h.incoming, h.queued, h.loading, fun hh => hd (h.head hh)⟩

/-- A callback runs while no order is on its way into the queue. -/
lemma callback (h : Progressing s) {resp : Resp} {reply : Option HelperMessage}
    (hc : Callback s resp reply s') (hi : s.incoming = []) : Progressing s' := by
  cases hc with
  | @answer seq _ a d ha hd hd' =>
    have hsub : ∀ r ∈ s.awaited, r ≠ .order seq → r ∈ a := fun r hr hne =>
      (List.mem_cons.1 (ha.mem_iff.1 hr)).resolve_left hne
    refine ⟨h.window, fun x hx => ?_, fun i q hq => ?_, fun key hkey => ?_, fun hh => ?_⟩
    · exact absurd hx (by simp [hi])
    · simp only [acked] at hq
      cases hs : s.queue.lookup seq with
      | none =>
        rw [hs] at hq
        obtain ⟨hack, hpos⟩ := h.queued i q hq
        have hne : i ≠ seq := by
          rintro rfl
          simp [hs] at hq
        exact ⟨fun hq' => hsub _ (hack hq') (by simpa using hne),
          fun hq' => hsub _ (hpos hq') (by simp)⟩
      | some p =>
        rw [hs, Map.lookup_insert_eq] at hq
        split_ifs at hq with hi'
        · obtain rfl := Option.some.inj hq
          exact ⟨fun hq' => absurd hq' (by simp),
            fun hq' => hsub _ ((h.queued seq p hs).2 hq') (by simp)⟩
        · obtain ⟨hack, hpos⟩ := h.queued i q hq
          exact ⟨fun hq' => hsub _ (hack hq') (by simpa using hi'),
            fun hq' => hsub _ (hpos hq') (by simp)⟩
    · exact hsub _ (h.loading key hkey) (by simp)
    · cases hs : s.queue.lookup seq with
      | none =>
        refine hd (h.head ?_)
        simpa only [head?, acked, hs] using hh
      | some p => exact hd' (by simp [hs])
  | @ready symbol client _ a d ha hd =>
    have hsub : ∀ r ∈ s.awaited, r ≠ .position symbol client → r ∈ a := fun r hr hne =>
      (List.mem_cons.1 (ha.mem_iff.1 hr)).resolve_left hne
    refine ⟨h.window, fun x hx => ?_, fun i q hq => ?_, fun key hkey => ?_, fun _ => hd⟩
    · exact absurd hx (by simp [hi])
    · rw [Map.lookup_mapVal] at hq
      obtain ⟨p, hp, rfl⟩ := Option.map_eq_some_iff.1 hq
      obtain ⟨hack, hpos⟩ := h.queued i p hp
      unfold Engine.markReady
      split_ifs with hkey
      · exact ⟨fun hq' => hsub _ (hack hq') (by simp), fun hq' => absurd hq' (by simp)⟩
      · refine ⟨fun hq' => hsub _ (hack hq') (by simp), fun hq' => hsub _ (hpos hq') ?_⟩
        simpa [and_comm] using hkey
    · obtain ⟨hkey, hne⟩ := List.mem_filter.1 hkey
      refine hsub _ (h.loading key hkey) fun heq => ?_
      obtain ⟨h1, h2⟩ : key.1 = symbol ∧ key.2 = client := by simpa using heq
      exact absurd (Prod.ext h1 h2) (by simpa using hne)

/-- If nothing is to come, no order waits. -/
lemma idle (h : Progressing s) (hn : Numbered s) (ha : s.awaited = []) (hi : s.incoming = [])
    (hd : ¬ s.draining) : s.nextPlace = s.nextAssign ∧ s.queue = ∅ := by
  have hkeys : s.queue.keys.Perm (List.range' s.nextPlace (s.nextAssign - s.nextPlace)) := by
    have := hn.waiting
    rwa [hi, List.map_nil, List.append_nil] at this
  have hidle : s.nextPlace = s.nextAssign := by
    by_contra hne
    have hle := hn.le
    -- the next order to be placed is in the queue, and it lacks nothing
    have hmem : s.nextPlace ∈ s.queue.keys :=
      hkeys.mem_iff.2 (List.mem_range'_1.2 ⟨le_rfl, by omega⟩)
    obtain ⟨p, hp⟩ := Map.mem_iff_lookup.1 (AList.mem_keys.2 hmem)
    obtain ⟨hack, hpos⟩ := h.queued _ p hp
    rw [ha] at hack hpos
    refine hd (h.head ?_)
    cases h1 : p.acked
    · exact absurd (hack h1) List.not_mem_nil
    cases h2 : p.posReady
    · exact absurd (hpos h2) List.not_mem_nil
    simp [head?, hp, h1, h2]
  refine ⟨hidle, AList.ext ?_⟩
  rw [hidle, Nat.sub_self] at hkeys
  exact List.map_eq_nil_iff.1 hkeys.eq_nil

end Progressing

end Staging

namespace Config

variable {stp : StpPolicy} {c c' : Config}

/-! ### The order on its way into the queue -/

/-- A stack that stages no order. -/
def Unstaged (k : List Task) : Prop := k.filterMap Task.staged? = []

/-- An order is staged by the top task, or after the pull of its position. -/
inductive Shape : List Task → Prop
  | unstaged {k : List Task} (h : Unstaged k) : Shape k
  | emplace {seq : ℕ} {p : Pending} {k : List Task} (h : Unstaged k) :
      Shape (.emplace seq p :: k)
  | pull {req : Request} {symbol : Symbol} {client : ClientId} {seq : ℕ} {p : Pending}
      {k : List Task} (h : Unstaged k) :
      Shape (.send req (.position symbol client) :: .emplace seq p :: k)

/-- A position pull is handed to an open connection. -/
def pullsSucceed (c : Config) (a : Act) : Bool :=
  match c.stack, a with
  | .send _ (.position _ _) :: _, .run => !c.client.closed
  | .send _ (.position _ _) :: _, .fail _ => false
  | _, _ => true

lemma unstaged_append {k₁ k : List Task} (h₁ : ∀ g ∈ k₁, g.Routine) (h : Unstaged k) :
    Unstaged (k₁ ++ k) := by
  rw [Unstaged, List.filterMap_append, h, List.append_nil]
  refine List.filterMap_eq_nil_iff.2 fun g hg => ?_
  have := h₁ g hg
  cases g <;> first | rfl | exact absurd this id

/-- The stack of a submission. -/
lemma shape_submit {f : Task} {e : Engine} {k k₁ : List Task} (hp : Pushes e f k₁)
    (hk : Unstaged k) : Shape (k₁ ++ k) := by
  cases hp with
  | routine hr => exact .unstaged (unstaged_append hr hk)
  | submit hf hpull =>
    rcases hpull.eq_send with rfl | rfl
    · exact .emplace hk
    · exact .pull hk

lemma Unstaged.tail {f : Task} {k : List Task} (h : Unstaged (f :: k)) : Unstaged k := by
  unfold Unstaged at h ⊢
  rw [List.filterMap_cons] at h
  split at h
  · exact h
  · exact absurd h (by simp)

/-- A pull that succeeds leaves what is below it. -/
lemma pull_step {req : Request} {symbol : Symbol} {client : ClientId} {k : List Task}
    (hk : c.stack = .send req (.position symbol client) :: k) {a : Act}
    (ha : pullsSucceed c a = true) (hc' : (c.step a).Returns c') :
    c'.stack = c.stack ∨ c'.stack = k := by
  refine (step_task hk hc').imp_right ?_
  rintro ⟨e, cl, k₁, evs, hk', hr⟩
  cases hr with
  | transmit _ => exact hk'
  | refuse hact hclosed =>
    rcases hact with rfl | ⟨ids, rfl⟩ <;> simp [pullsSucceed, hk, hclosed] at ha
  | breaks _ _ => exact absurd ha (by simp [pullsSucceed, hk])

lemma Shape.step (h : Shape c.stack) {a : Act} (ha : pullsSucceed c a = true)
    (hc' : (c.step a).Returns c') : Shape c'.stack := by
  generalize hst : c.stack = st at h
  cases h with
  | pull hk =>
    rcases pull_step hst ha hc' with heq | heq
    · exact heq ▸ hst ▸ .pull hk
    · exact heq ▸ .emplace hk
  | emplace hk =>
    rcases step_pushes hc' with heq | ⟨hnil, -⟩ | ⟨f, k, k₁, hk', hk'', hp⟩
    · exact heq ▸ hst ▸ .emplace hk
    · exact absurd (hst.symm.trans hnil) (by simp)
    · obtain ⟨rfl, rfl⟩ := List.cons.inj (hst.symm.trans hk')
      exact hk'' ▸ shape_submit hp hk
  | unstaged hk =>
    rcases step_pushes hc' with heq | ⟨-, hnew⟩ | ⟨f, k, k₁, hk', hk'', hp⟩
    · exact heq ▸ hst ▸ .unstaged hk
    · refine .unstaged (List.filterMap_eq_nil_iff.2 fun g hg => ?_)
      rcases hnew g hg with hr | ⟨resp, msg, -, -, rfl⟩
      · cases g <;> first | rfl | exact absurd hr id
      · rfl
    · rw [← hst, hk'] at hk
      exact hk'' ▸ shape_submit hp hk.tail

/-! ### Nothing is stuck -/

lemma progressing_init (stp : StpPolicy) : Staging.Progressing (init stp 0).staging := by
  refine ⟨rfl, fun x hx => ?_, fun seq p hp => ?_, fun key hkey => ?_, fun hh => ?_⟩
  · exact absurd hx List.not_mem_nil
  · exact absurd hp (by simp [staging, init])
  · exact absurd hkey List.not_mem_nil
  · exact absurd hh (by simp [Staging.head?, staging, init])

lemma progressing_of_reach (h : Reach (fun c a => pullsSucceed c a = true) stp 0 c) :
    Staging.Progressing c.staging ∧ Shape c.stack := by
  induction h with
  | init => exact ⟨progressing_init stp, .unstaged rfl⟩
  | step hr ha hs ih =>
    obtain ⟨hprog, hshape⟩ := ih
    refine ⟨?_, hshape.step ha hs⟩
    rcases step_staging (clientOk_of_reach hr) hs with hm | ⟨resp, reply, k, hk, hcb⟩
    · exact hprog.move hm
    · refine hprog.callback hcb ?_
      -- a callback is on top, so no order is on its way into the queue
      rw [hk] at hshape
      cases hshape with
      | unstaged hun => exact (congrArg (List.filterMap Task.staged?) hk).trans hun

/-- Back in the event loop with nothing in flight, the queue is empty and every order has
had its callback. -/
def NotStuck (c : Config) : Prop :=
  c.stack = [] → c.client.pending = ∅ →
    c.engine.pending = ∅ ∧
      ∀ seq symbol o, .submitted seq symbol o ∈ c.history → ∃ r, .called seq r ∈ c.history

/-- No order is stuck, as long as every position pull is handed to an open connection. -/
theorem notStuck_of_reach (h : Reach (fun c a => pullsSucceed c a = true) stp 0 c) :
    NotStuck c := by
  intro hstack hclient
  obtain ⟨hprog, -⟩ := progressing_of_reach h
  have hnum := (inv_of_reach h).numbered
  have hawait : c.staging.awaited = [] := by
    show awaitedWith c.stack c.client = []
    rw [awaitedWith, hstack, hclient]
    rfl
  have hinc : c.staging.incoming = [] := by
    show c.stack.filterMap Task.staged? = []
    rw [hstack]
    rfl
  have hfin : c.staging.finishing = [] := by
    show c.stack.filterMap Task.done? = []
    rw [hstack]
    rfl
  have hdrain : ¬ c.staging.draining := by
    show ¬ Task.drain ∈ c.stack
    rw [hstack]
    exact List.not_mem_nil
  obtain ⟨hidle, hqueue⟩ := hprog.idle hnum hawait hinc hdrain
  refine ⟨hqueue, fun seq symbol o hsub => ?_⟩
  have hseq : seq ∈ Staging.numbers c.staging.nextAssign :=
    hnum.submitted ▸ List.mem_map.2 ⟨_, mem_submissions.2 hsub, rfl⟩
  have hcalled := hnum.completed.mem_iff.2 (hidle ▸ hseq)
  rw [hfin, List.map_nil, List.nil_append] at hcalled
  obtain ⟨⟨i, r⟩, hx, rfl⟩ := List.mem_map.1 hcalled
  exact ⟨r, mem_completions.1 hx⟩

/-- An order whose account has no position loaded yet: the pull is answered, the report
fails with the connection. -/
theorem notStuck_of_reach_closed : ∃ c,
    Reach (fun c a => pullsSucceed c a = true) .none 0 c ∧ c.stack = [] ∧
      c.client.pending = ∅ ∧ (submissions c.history).map Prod.fst = [1] ∧ NotStuck c := by
  let acts : List Act := .call (.submit "ABC" "alice" { qty := 1, price := 100 } "a") ::
    List.replicate 6 .run ++
    [.reply ⟨1, "position", [("net", "0")]⟩, .run, .run, .close [2], .run, .run, .user [], .run]
  obtain ⟨c, hc, hstack, hpend, hsub⟩ : ∃ c, Reach (fun c a => pullsSucceed c a = true) .none 0 c ∧
      c.stack = [] ∧ c.client.pending.entries = [] ∧
      (submissions c.history).map Prod.fst = [1] :=
    Machine.Reach.exists_of_acts 8 acts (by decide +kernel)
  exact ⟨c, hc, hstack, AList.ext hpend, hsub, notStuck_of_reach hc⟩

/-- The connection is closed when the first order of an account comes: its position pull
fails inside the send, and the order waits for ever. -/
theorem stuck_after_close : ∃ c, Reach (fun _ _ => True) .none 0 c ∧ c.stack = [] ∧
    c.client.pending = ∅ ∧ c.engine.pending.keys = [1] ∧ ¬ NotStuck c := by
  let acts : List Act := .close [] ::
    .call (.submit "ABC" "alice" { qty := 1, price := 100 } "a") :: List.replicate 12 .run
  obtain ⟨c, hc, hstack, hpend, hkeys⟩ : ∃ c, Reach (fun _ _ => True) .none 0 c ∧ c.stack = [] ∧
      c.client.pending.entries = [] ∧ c.engine.pending.keys = [1] :=
    Machine.Reach.exists_of_acts 8 acts (by decide +kernel)
  refine ⟨c, hc, hstack, AList.ext hpend, hkeys, fun hns => ?_⟩
  rw [(hns hstack (AList.ext hpend)).1] at hkeys
  exact absurd hkeys (by simp)

end Config

end Codicis
