/-
The pipelined client of one helper (`ipc/helper_client.cc`).

A callback may send again, a write of that request may fail, and so a client may be closed
while a loop over its requests is going on.  The machine keeps the stack of what is being
executed, and a step is one turn of the innermost loop, or something that the code around the
client does: the event loop if the stack is empty, a callback if one is running.  A map is
visited in any order.

A callback is known by the id of its request.  `Sound.count` says where the callbacks are: every
one that was given is pending, owed by a close that is under way, or has run.
-/
import Codicis.Ipc.BinaryHelperCodec
import Codicis.Lib.Descriptor
import Codicis.Lib.Machine
import Codicis.Lib.Map

namespace Codicis

open Descriptor

/-- Why a callback runs; `ok` is true for a reply, and false otherwise. -/
inductive Outcome
  | reply (msg : HelperMessage)
  | timedOut
  | closed
deriving DecidableEq, Repr

/-- What a client logs. -/
inductive ClientEvent
  /-- A request is sent with a callback. -/
  | given (id : ℕ) (deadline : ℤ)
  | received (msg : HelperMessage)
  | ran (id : ℕ) (outcome : Outcome)
  /-- The timer has gone off. -/
  | swept (now : ℤ)
deriving DecidableEq, Repr

/-- What is being executed. -/
inductive HelperClient.Frame
  /-- A callback. -/
  | running
  /-- The decode loop of `on_readable`. -/
  | reading
  /-- The loop of `handle_close` over the requests that were in flight. -/
  | failing (ids : List ℕ)
  /-- The loop of `on_timer` over the expired requests. -/
  | expiring (ids : List ℕ)
deriving DecidableEq, Repr

/-- A client, with the bytes that it has read so far, the stack and the log. -/
structure HelperClient where
  input : List Char := []
  out : List Char := []
  /-- The deadlines of the requests in flight. -/
  pending : Map ℕ ℤ := ∅
  nextReqId : ℕ := 1
  closed : Bool := false
  taken : List Char := []
  stack : List HelperClient.Frame := []
  log : List ClientEvent := []

namespace HelperClient

/-- What the environment does. -/
inductive Act
  | send (type : String) (fields : List (String × String)) (cb : Bool) (now : ℤ) (flush : Flush)
  /-- The callback returns. -/
  | ret
  | readable (data : List Char) (ending : ReadEnd)
  | writable (flush : Flush)
  | error
  | tick (now : ℤ)
  /-- The innermost loop goes on, with a request if it visits some. -/
  | proceed (pick : ℕ)
deriving DecidableEq, Repr

/-- Run a callback. -/
def runCallback (c : HelperClient) (id : ℕ) (outcome : Outcome) : HelperClient :=
  { c with stack := .running :: c.stack, log := c.log ++ [.ran id outcome] }

/-- Close, and fail any in-flight requests. -/
def handleClose (c : HelperClient) : HelperClient :=
  if c.closed = true then c
  else { c with closed := true, pending := ∅, stack := .failing c.pending.keys :: c.stack }

/-- Flush the output buffer. -/
def onWritable (c : HelperClient) (flush : Flush) : HelperClient :=
  let c' : HelperClient := { c with out := flush.left c.out }
  if flush.Breaks c.out then c'.handleClose else c'

/-- The deadline of a request that is sent now. -/
def deadline (timeoutNs now : ℤ) : ℤ := if 0 < timeoutNs then now + timeoutNs else 0

/-- Send a request and register a response callback. -/
def send (codec : HelperCodec) (timeoutNs : ℤ) (c : HelperClient) (type : String)
    (fields : List (String × String)) (cb : Bool) (now : ℤ) (flush : Flush) : HelperClient :=
  let id := c.nextReqId
  if c.closed = true then
    if cb = true then
      runCallback { c with nextReqId := id + 1, log := c.log ++ [.given id 0] } id .closed
    else { c with nextReqId := id + 1 }
  else
    let c' : HelperClient := { c with nextReqId := id + 1,
                                      out := c.out ++ codec.encode ⟨id, type, fields⟩ }
    let c'' : HelperClient :=
      if cb = true then
        { c' with pending := c.pending.insert id (deadline timeoutNs now),
                  log := c.log ++ [.given id (deadline timeoutNs now)] }
      else c'
    c''.onWritable flush

/-- Read until there is nothing more, then decode. -/
def onReadable (c : HelperClient) (data : List Char) (ending : ReadEnd) : HelperClient :=
  let c' : HelperClient := { c with input := c.input ++ data, taken := c.taken ++ data }
  match ending with
  | .again => { c' with stack := .reading :: c.stack }
  | .eof | .fail => c'.handleClose

/-- A turn of the decode loop. -/
def decodeNext (codec : HelperCodec) (c : HelperClient) (rest : List Frame) : HelperClient :=
  match codec.decode c.input with
  | .incomplete => { c with stack := rest }
  | .error _ => { c with stack := rest }.handleClose
  | .complete msg input =>
    let c' : HelperClient := { c with input := input, log := c.log ++ [.received msg] }
    match c.pending.lookup msg.reqId with
    | none => c'
    | some _ =>
      { c' with pending := c.pending.erase msg.reqId }.runCallback msg.reqId (.reply msg)

/-- A turn of the loop of `handle_close`. -/
def failNext (c : HelperClient) (ids : List ℕ) (rest : List Frame) (pick : ℕ) : HelperClient :=
  if ids = [] then { c with stack := rest }
  else if pick ∈ ids then
    { c with stack := .failing (ids.erase pick) :: rest }.runCallback pick .closed
  else c

/-- The requests whose deadline has passed. -/
def expired (c : HelperClient) (now : ℤ) : List ℕ :=
  (c.pending.pairs.filter fun kv => kv.2 ≠ 0 ∧ kv.2 ≤ now).map Prod.fst

/-- The timer goes off. -/
def onTimer (timeoutNs : ℤ) (c : HelperClient) (now : ℤ) : HelperClient :=
  let c' : HelperClient := { c with log := c.log ++ [.swept now] }
  if timeoutNs ≤ 0 ∨ c.pending.keys = [] then c'
  else { c' with stack := .expiring (c.expired now) :: c.stack }

/-- A turn of the loop of `on_timer`. -/
def expireNext (c : HelperClient) (ids : List ℕ) (rest : List Frame) (pick : ℕ) : HelperClient :=
  if ids = [] then { c with stack := rest }
  else if pick ∈ ids then
    let c' : HelperClient := { c with stack := .expiring (ids.erase pick) :: rest }
    match c.pending.lookup pick with
    | none => c'
    | some _ => { c' with pending := c.pending.erase pick }.runCallback pick .timedOut
  else c

/-- One step; what cannot be done in a state does nothing. -/
def step (codec : HelperCodec) (timeoutNs : ℤ) (c : HelperClient) (a : Act) : HelperClient :=
  match c.stack, a with
  | [], .send type fields cb now flush => c.send codec timeoutNs type fields cb now flush
  | [], .readable data ending => c.onReadable data ending
  | [], .writable flush => c.onWritable flush
  | [], .error => c.handleClose
  | [], .tick now => c.onTimer timeoutNs now
  | .running :: _, .send type fields cb now flush =>
    c.send codec timeoutNs type fields cb now flush
  | .running :: rest, .ret => { c with stack := rest }
  | .reading :: rest, .proceed _ => c.decodeNext codec rest
  | .failing ids :: rest, .proceed pick => c.failNext ids rest pick
  | .expiring ids :: rest, .proceed pick => c.expireNext ids rest pick
  | _, _ => c

/-- A run of a client. -/
def run (codec : HelperCodec) (timeoutNs : ℤ) (acts : List Act) : HelperClient :=
  acts.foldl (step codec timeoutNs) {}

/-! ### What the callers rely on -/

/-- The callbacks that were given. -/
def given (log : List ClientEvent) : List ℕ :=
  log.filterMap fun
    | .given id _ => some id
    | _ => none

/-- The callbacks that have run. -/
def ran (log : List ClientEvent) : List ℕ :=
  log.filterMap fun
    | .ran id _ => some id
    | _ => none

/-- The timer has gone off behind the deadline of a request. -/
def Overdue (log : List ClientEvent) (id : ℕ) : Prop :=
  Followed (fun ev ev' => ∃ d now, ev = .given id d ∧ ev' = .swept now ∧ d ≠ 0 ∧ d ≤ now) log

/-- A callback runs with the reply that has just been received, if that has the id of its request
and the request has not timed out. -/
def Answers (log : List ClientEvent) : ClientEvent → Prop
  | .ran id (.reply msg) =>
    msg.reqId = id ∧ log.getLast? = some (.received msg) ∧ ¬ Overdue log id
  | _ => True

/-- No close is under way. -/
def Settled (c : HelperClient) : Prop := ∀ f ∈ c.stack, ∀ ids, f ≠ .failing ids

/-- Every callback runs at most once, as a reply only with its own one and in time, and exactly
once if the client is closed. -/
structure CompletesOnce (c : HelperClient) : Prop where
  once : ∀ id, (ran c.log).count id ≤ 1
  answers : Justified Answers c.log
  all : c.closed = true → c.Settled → ∀ id ∈ given c.log, (ran c.log).count id = 1

/-! ### Logs -/

section Logs

variable {log : List ClientEvent} {id : ℕ}

@[simp] lemma given_nil : given [] = [] := rfl

@[simp] lemma ran_nil : ran [] = [] := rfl

@[simp] lemma given_snoc_given {d : ℤ} : given (log ++ [.given id d]) = given log ++ [id] := by
  simp [given]

@[simp] lemma given_snoc_received {msg : HelperMessage} :
    given (log ++ [.received msg]) = given log := by
  simp [given]

@[simp] lemma given_snoc_ran {outcome : Outcome} :
    given (log ++ [.ran id outcome]) = given log := by
  simp [given]

@[simp] lemma given_snoc_swept {now : ℤ} : given (log ++ [.swept now]) = given log := by
  simp [given]

@[simp] lemma ran_snoc_given {d : ℤ} : ran (log ++ [.given id d]) = ran log := by
  simp [ran]

@[simp] lemma ran_snoc_received {msg : HelperMessage} : ran (log ++ [.received msg]) = ran log := by
  simp [ran]

@[simp] lemma ran_snoc_ran {outcome : Outcome} :
    ran (log ++ [.ran id outcome]) = ran log ++ [id] := by
  simp [ran]

@[simp] lemma ran_snoc_swept {now : ℤ} : ran (log ++ [.swept now]) = ran log := by
  simp [ran]

lemma mem_given : id ∈ given log ↔ ∃ d, .given id d ∈ log := by
  simp only [given, List.mem_filterMap]
  constructor
  · rintro ⟨ev, hev, h⟩
    cases ev <;> simp at h
    exact ⟨_, h ▸ hev⟩
  · rintro ⟨d, h⟩
    exact ⟨_, h, rfl⟩

lemma mem_ran : id ∈ ran log ↔ ∃ outcome, .ran id outcome ∈ log := by
  simp only [ran, List.mem_filterMap]
  constructor
  · rintro ⟨ev, hev, h⟩
    cases ev <;> simp at h
    exact ⟨_, h ▸ hev⟩
  · rintro ⟨outcome, h⟩
    exact ⟨_, h, rfl⟩

/-- A request is overdue since the timer has gone off. -/
lemma overdue_snoc_iff {ev : ClientEvent} : Overdue (log ++ [ev]) id ↔
    Overdue log id ∨ ∃ d now, ev = .swept now ∧ .given id d ∈ log ∧ d ≠ 0 ∧ d ≤ now := by
  rw [Overdue, followed_snoc_iff]
  refine or_congr_right ⟨?_, ?_⟩
  · rintro ⟨_, hmem, d, now, rfl, hev, hd⟩
    exact ⟨d, now, hev, hmem, hd⟩
  · rintro ⟨d, now, hev, hmem, hd⟩
    exact ⟨_, hmem, d, now, rfl, hev, hd⟩

lemma Overdue.mem_given (h : Overdue log id) : id ∈ given log := by
  obtain ⟨h₁, _, h₂, rfl, _, -, d, _, rfl, -⟩ := h
  exact HelperClient.mem_given.2 ⟨d, by simp⟩

end Logs

/-! ### Where the callbacks are -/

/-- The requests that a close still has to fail. -/
def owes : Frame → List ℕ
  | .failing ids => ids
  | _ => []

/-- The requests that a sweep still has to visit. -/
def expires : Frame → List ℕ
  | .expiring ids => ids
  | _ => []

def owed (c : HelperClient) : List ℕ := c.stack.flatMap owes

def sweeping (c : HelperClient) : List ℕ := c.stack.flatMap expires

/-- What holds in every state. -/
structure Sound (timeoutNs : ℤ) (c : HelperClient) : Prop where
  fresh : ∀ id ∈ given c.log, id < c.nextReqId
  nodup : (given c.log).Nodup
  /-- A callback is pending, owed by a close, or has run. -/
  count : ∀ id, (given c.log).count id
    = c.pending.keys.count id + c.owed.count id + (ran c.log).count id
  emptied : c.closed = true → c.pending = ∅
  deadline : ∀ id d, c.pending.lookup id = some d → ∀ d', .given id d' ∈ c.log → d' = d
  untimed : timeoutNs ≤ 0 → ∀ id d, c.pending.lookup id = some d → d = 0
  /-- What is overdue and pending is about to be swept. -/
  overdue : ∀ id, id ∈ c.pending.keys → Overdue c.log id → id ∈ c.sweeping
  /-- The decode loop is started by the event loop. -/
  bottom : .reading ∉ c.stack.dropLast
  answers : Justified Answers c.log

section Steps

variable {timeoutNs : ℤ} {c c' : HelperClient} {id : ℕ} {d : ℤ} {rest : List Frame}

lemma sound_init : Sound timeoutNs {} where
  fresh := by simp
  nodup := by simp
  count := by simp [owed]
  emptied := by simp
  deadline := by simp
  untimed := by simp
  overdue := by simp
  bottom := by simp
  answers := justified_nil

/-- The buffers do not matter, nor what is on the stack but for the requests that it has to
visit. -/
lemma Sound.of_stack (hc : Sound timeoutNs c) (hlog : c'.log = c.log)
    (hpending : c'.pending = c.pending) (hnext : c.nextReqId ≤ c'.nextReqId)
    (hclosed : c'.closed = c.closed) (howed : c'.owed = c.owed)
    (hsweeping : ∀ id ∈ c.pending.keys, id ∈ c.sweeping → id ∈ c'.sweeping)
    (hbottom : .reading ∉ c'.stack.dropLast) : Sound timeoutNs c' where
  fresh := by rw [hlog]; exact fun id hid => (hc.fresh id hid).trans_le hnext
  nodup := hlog ▸ hc.nodup
  count := by rw [hlog, hpending, howed]; exact hc.count
  emptied := by rw [hclosed, hpending]; exact hc.emptied
  deadline := by rw [hlog, hpending]; exact hc.deadline
  untimed := by rw [hpending]; exact hc.untimed
  overdue := by
    rw [hlog, hpending]
    exact fun id hid hover => hsweeping id hid (hc.overdue id hid hover)
  bottom := hbottom
  answers := hlog ▸ hc.answers

lemma notMem_dropLast_cons {f : Frame} {fs : List Frame} (h : .reading ∉ fs.dropLast)
    (hf : f ≠ .reading) : .reading ∉ (f :: fs).dropLast := by
  cases fs with
  | nil => simp
  | cons g fs => simpa [List.dropLast_cons_of_ne_nil, hf.symm] using h

lemma notMem_dropLast_tail {f : Frame} {fs : List Frame} (h : .reading ∉ (f :: fs).dropLast) :
    .reading ∉ fs.dropLast := by
  cases fs with
  | nil => simp
  | cons g fs => exact fun hmem => h (by simp [List.dropLast_cons_of_ne_nil, hmem])

lemma Sound.handleClose (hc : Sound timeoutNs c) : Sound timeoutNs c.handleClose := by
  unfold HelperClient.handleClose
  split_ifs with hclosed
  · exact hc
  · refine ⟨hc.fresh, hc.nodup, fun id => ?_, fun _ => rfl, ?_, ?_, ?_, ?_, hc.answers⟩
    · have hcount := hc.count id
      simp only [owed, List.flatMap_cons, owes, List.count_append] at hcount ⊢
      simp only [AList.keys_empty, List.count_nil]
      omega
    · simp
    · simp
    · simp
    · exact notMem_dropLast_cons hc.bottom (by simp)

lemma Sound.onWritable (hc : Sound timeoutNs c) (flush : Flush) :
    Sound timeoutNs (c.onWritable flush) := by
  have hout : Sound timeoutNs { c with out := flush.left c.out } :=
    hc.of_stack rfl rfl le_rfl rfl rfl (fun _ _ h => h) hc.bottom
  unfold HelperClient.onWritable
  dsimp only
  split_ifs
  · exact hout.handleClose
  · exact hout

/-- A pending callback runs. -/
lemma Sound.complete (hc : Sound timeoutNs c) (hid : c.pending.lookup id = some d)
    {outcome : Outcome} (hanswers : Answers c.log (.ran id outcome)) :
    Sound timeoutNs (runCallback { c with pending := c.pending.erase id } id outcome) := by
  have hkeys := Map.keys_erase_perm hid
  refine ⟨?_, ?_, fun id' => ?_, ?_, ?_, ?_, ?_, ?_, ?_⟩
  · simpa [runCallback] using hc.fresh
  · simpa [runCallback] using hc.nodup
  · have hcount := hc.count id'
    rw [hkeys.count_eq] at hcount
    simp only [runCallback, given_snoc_ran, ran_snoc_ran, owed, List.flatMap_cons, owes,
      List.nil_append, List.count_append, List.count_cons, List.count_nil] at hcount ⊢
    omega
  · intro hclosed
    rw [hc.emptied hclosed] at hid
    simp at hid
  · intro id' d' h d'' hgiven
    exact hc.deadline id' d' (Map.lookup_of_erase h) d'' (by simpa [runCallback] using hgiven)
  · exact fun ht id' d' h => hc.untimed ht id' d' (Map.lookup_of_erase h)
  · intro id' hid' hover
    simp only [runCallback, overdue_snoc_iff, reduceCtorEq, false_and, exists_false,
      or_false] at hover
    exact hc.overdue id' (hkeys.mem_iff.2 (List.mem_cons_of_mem _ hid')) hover
  · exact notMem_dropLast_cons hc.bottom (by simp)
  · exact hc.answers.snoc hanswers

/-- A callback that a close owes runs. -/
lemma Sound.fail (hc : Sound timeoutNs c) {ids : List ℕ} (hstack : c.stack = .failing ids :: rest)
    (hid : id ∈ ids) : Sound timeoutNs
      (runCallback { c with stack := .failing (ids.erase id) :: rest } id .closed) := by
  have hsweeping : c.sweeping = rest.flatMap expires := by simp [sweeping, hstack, expires]
  refine ⟨?_, ?_, fun id' => ?_, hc.emptied, ?_, hc.untimed, ?_, ?_, ?_⟩
  · simpa [runCallback] using hc.fresh
  · simpa [runCallback] using hc.nodup
  · have hcount := hc.count id'
    simp only [owed, hstack, List.flatMap_cons, owes, List.count_append,
      (List.perm_cons_erase hid).count_eq, List.count_cons] at hcount
    simp only [runCallback, given_snoc_ran, ran_snoc_ran, owed, List.flatMap_cons, owes,
      List.nil_append, List.count_append, List.count_cons, List.count_nil]
    omega
  · intro id' d' h d'' hgiven
    exact hc.deadline id' d' h d'' (by simpa [runCallback] using hgiven)
  · intro id' hid' hover
    simp only [runCallback, overdue_snoc_iff, reduceCtorEq, false_and, exists_false,
      or_false] at hover
    have hmem := hc.overdue id' hid' hover
    rw [hsweeping] at hmem
    exact hmem
  · have hbottom := notMem_dropLast_tail (hstack ▸ hc.bottom)
    exact notMem_dropLast_cons (notMem_dropLast_cons hbottom (by simp)) (by simp)
  · exact hc.answers.snoc trivial

lemma Sound.received (hc : Sound timeoutNs c) (msg : HelperMessage) (input : List Char) :
    Sound timeoutNs { c with input := input, log := c.log ++ [.received msg] } where
  fresh := by simpa using hc.fresh
  nodup := by simpa using hc.nodup
  count := by simpa [owed] using hc.count
  emptied := hc.emptied
  deadline := by simpa using hc.deadline
  untimed := hc.untimed
  overdue := by simpa [overdue_snoc_iff, sweeping] using hc.overdue
  bottom := hc.bottom
  answers := hc.answers.snoc trivial

lemma Sound.notMem_given (hc : Sound timeoutNs c) : c.nextReqId ∉ given c.log :=
  fun h => (hc.fresh _ h).ne rfl

/-- No id is given twice. -/
lemma Sound.given_snoc (hc : Sound timeoutNs c) (d : ℤ) :
    (∀ id ∈ given (c.log ++ [.given c.nextReqId d]), id < c.nextReqId + 1) ∧
      (given (c.log ++ [.given c.nextReqId d])).Nodup := by
  rw [given_snoc_given, List.nodup_append]
  refine ⟨List.forall_mem_append.2 ⟨fun id hid => (hc.fresh id hid).trans (Nat.lt_succ_self _),
    List.forall_mem_singleton.2 (Nat.lt_succ_self _)⟩, hc.nodup, List.nodup_singleton _, ?_⟩
  intro x hx y hy hxy
  rw [List.mem_singleton] at hy
  exact hc.notMem_given (hy ▸ hxy ▸ hx)

/-- A callback is given. -/
lemma Sound.give (hc : Sound timeoutNs c) (hopen : c.closed = false) (now : ℤ) :
    Sound timeoutNs
      { c with nextReqId := c.nextReqId + 1,
               pending := c.pending.insert c.nextReqId (HelperClient.deadline timeoutNs now),
               log := c.log ++ [.given c.nextReqId (HelperClient.deadline timeoutNs now)] } := by
  have hnew := hc.notMem_given
  have hnone : c.pending.lookup c.nextReqId = none := by
    by_contra hsome
    obtain ⟨d, hd⟩ := Option.ne_none_iff_exists'.1 hsome
    have hcount := hc.count c.nextReqId
    rw [List.count_eq_zero.2 hnew, (Map.keys_erase_perm hd).count_eq,
      List.count_cons_self] at hcount
    omega
  have hkeys := Map.keys_insert_perm hnone (HelperClient.deadline timeoutNs now)
  obtain ⟨hfresh, hnodup⟩ := hc.given_snoc (HelperClient.deadline timeoutNs now)
  refine ⟨hfresh, hnodup, fun id' => ?_, ?_, ?_, ?_, ?_, hc.bottom, hc.answers.snoc trivial⟩
  · have hcount := hc.count id'
    simp only [given_snoc_given, ran_snoc_given, hkeys.count_eq, List.count_append, List.count_cons,
      List.count_nil, owed] at hcount ⊢
    omega
  · intro hclosed
    simp [hopen] at hclosed
  · intro id' d' h d'' hgiven
    rw [Map.lookup_insert_eq] at h
    simp only [List.mem_append, List.mem_singleton, ClientEvent.given.injEq] at hgiven
    split_ifs at h with hid'
    · subst hid'
      rcases hgiven with hgiven | hgiven
      · exact absurd (mem_given.2 ⟨_, hgiven⟩) hnew
      · rw [hgiven.2, Option.some.inj h]
    · exact hc.deadline id' d' h d'' (hgiven.resolve_right fun h => hid' h.1)
  · intro ht id' d' h
    rw [Map.lookup_insert_eq] at h
    split_ifs at h
    · rw [← Option.some.inj h, HelperClient.deadline, if_neg (not_lt.2 ht)]
    · exact hc.untimed ht id' d' h
  · intro id' hid' hover
    simp only [overdue_snoc_iff, reduceCtorEq, false_and, exists_false, or_false] at hover
    refine hc.overdue id' ?_ hover
    exact (List.mem_cons.1 (hkeys.mem_iff.1 hid')).resolve_left fun h =>
      hnew (h ▸ hover.mem_given)

/-- A callback is given to a closed client and runs. -/
lemma Sound.giveClosed (hc : Sound timeoutNs c) (hclosed : c.closed = true) :
    Sound timeoutNs (runCallback
      { c with nextReqId := c.nextReqId + 1, log := c.log ++ [.given c.nextReqId 0] }
        c.nextReqId .closed) := by
  have hempty := hc.emptied hclosed
  obtain ⟨hfresh, hnodup⟩ := hc.given_snoc 0
  refine ⟨?_, ?_, fun id' => ?_, hc.emptied, ?_, hc.untimed, ?_, ?_, ?_⟩
  · simpa only [runCallback, given_snoc_ran] using hfresh
  · simpa only [runCallback, given_snoc_ran] using hnodup
  · have hcount := hc.count id'
    simp only [runCallback, given_snoc_given, given_snoc_ran, ran_snoc_given, ran_snoc_ran,
      List.count_append, List.count_cons, List.count_nil, owed, List.flatMap_cons, owes] at hcount ⊢
    omega
  · simp [runCallback, hempty]
  · simp [runCallback, hempty]
  · exact notMem_dropLast_cons hc.bottom (by simp)
  · have hgiven : Justified Answers (c.log ++ [.given c.nextReqId 0]) := hc.answers.snoc trivial
    exact hgiven.snoc trivial

lemma Sound.send (codec : HelperCodec) (hc : Sound timeoutNs c) (type : String)
    (fields : List (String × String)) (cb : Bool) (now : ℤ) (flush : Flush) :
    Sound timeoutNs (c.send codec timeoutNs type fields cb now flush) := by
  unfold HelperClient.send
  dsimp only
  split_ifs with hclosed hcb hcb
  · exact hc.giveClosed hclosed
  · exact hc.of_stack rfl rfl (Nat.le_succ _) rfl rfl (fun _ _ h => h) hc.bottom
  · have hgive := hc.give (Bool.not_eq_true _ ▸ hclosed) now
    refine Sound.onWritable ?_ flush
    exact hgive.of_stack rfl rfl le_rfl rfl rfl (fun _ _ h => h) hgive.bottom
  · refine Sound.onWritable ?_ flush
    exact hc.of_stack rfl rfl (Nat.le_succ _) rfl rfl (fun _ _ h => h) hc.bottom

/-- A frame that has nothing to visit is left. -/
lemma Sound.pop (hc : Sound timeoutNs c) {f : Frame} (hstack : c.stack = f :: rest)
    (howes : owes f = []) (hexpires : expires f = []) :
    Sound timeoutNs { c with stack := rest } := by
  refine hc.of_stack rfl rfl le_rfl rfl ?_ ?_ (notMem_dropLast_tail (hstack ▸ hc.bottom))
  · simp [owed, hstack, howes]
  · intro id _ hid
    simpa [sweeping, hstack, hexpires] using hid

lemma Sound.onReadable (hc : Sound timeoutNs c) (hstack : c.stack = []) (data : List Char)
    (ending : ReadEnd) : Sound timeoutNs (c.onReadable data ending) := by
  have hread : Sound timeoutNs { c with input := c.input ++ data, taken := c.taken ++ data } :=
    hc.of_stack rfl rfl le_rfl rfl rfl (fun _ _ h => h) hc.bottom
  cases ending with
  | again =>
    refine hc.of_stack rfl rfl le_rfl rfl rfl (fun _ _ h => h) ?_
    simp [HelperClient.onReadable, hstack]
  | eof => exact hread.handleClose
  | fail => exact hread.handleClose

/-- In the decode loop no request is overdue: the timer is not going off, and what it has found
overdue is gone. -/
lemma Sound.not_overdue (hc : Sound timeoutNs c) (hsweeping : c.sweeping = [])
    (hid : c.pending.lookup id = some d) : ¬ Overdue c.log id := by
  intro hover
  have hmem := hc.overdue id ((Map.keys_erase_perm hid).mem_iff.2 (by simp)) hover
  simp [hsweeping] at hmem

lemma Sound.decodeNext (codec : HelperCodec) (hc : Sound timeoutNs c)
    (hstack : c.stack = .reading :: rest) : Sound timeoutNs (c.decodeNext codec rest) := by
  have hpop := hc.pop hstack rfl rfl
  unfold HelperClient.decodeNext
  split
  · exact hpop
  · exact hpop.handleClose
  · next msg input _ =>
      have hreceived := hc.received msg input
      dsimp only
      split
      · exact hreceived
      · next d hd =>
          obtain rfl : rest = [] := by
            by_contra hrest
            exact hc.bottom (by simp [hstack, List.dropLast_cons_of_ne_nil hrest])
          have hsweeping : c.sweeping = [] := by simp [sweeping, hstack, expires]
          refine hreceived.complete hd ⟨rfl, by simp, ?_⟩
          exact hreceived.not_overdue hsweeping hd

lemma Sound.failNext (hc : Sound timeoutNs c) {ids : List ℕ}
    (hstack : c.stack = .failing ids :: rest) (pick : ℕ) :
    Sound timeoutNs (c.failNext ids rest pick) := by
  unfold HelperClient.failNext
  split_ifs with hids hpick
  · exact hc.pop hstack (by rw [hids]; rfl) rfl
  · exact hc.fail hstack hpick
  · exact hc

lemma Sound.expireNext (hc : Sound timeoutNs c) {ids : List ℕ}
    (hstack : c.stack = .expiring ids :: rest) (pick : ℕ) :
    Sound timeoutNs (c.expireNext ids rest pick) := by
  have hbottom := notMem_dropLast_tail (hstack ▸ hc.bottom)
  have hkeep : ∀ id, id ≠ pick → id ∈ c.sweeping →
      id ∈ ids.erase pick ++ rest.flatMap expires := by
    intro id hne hid
    simp only [sweeping, hstack, List.flatMap_cons, expires, List.mem_append] at hid
    rw [List.mem_append, List.mem_erase_of_ne hne]
    exact hid
  unfold HelperClient.expireNext
  dsimp only
  split_ifs with hids hpick
  · exact hc.pop hstack rfl (by rw [hids]; rfl)
  · split
    · next hnone =>
        refine hc.of_stack rfl rfl le_rfl rfl (by simp [owed, hstack, owes]) ?_
          (notMem_dropLast_cons hbottom (by simp))
        intro id hid hmem
        refine hkeep id ?_ hmem
        rintro rfl
        exact absurd (AList.mem_keys.1 hid) (AList.lookup_eq_none.1 hnone)
    · next d hd =>
        have hrun : Sound timeoutNs
            (runCallback { c with pending := c.pending.erase pick } pick .timedOut) :=
          hc.complete hd trivial
        refine hrun.of_stack rfl rfl le_rfl rfl (by simp [owed, runCallback, hstack, owes]) ?_
          (notMem_dropLast_cons (notMem_dropLast_cons hbottom (by simp)) (by simp))
        intro id hid hmem
        refine hkeep id ?_ hmem
        rintro rfl
        exact (AList.mem_erase.1 (AList.mem_keys.2 hid)).1 rfl
  · exact hc

lemma Sound.onTimer (hc : Sound timeoutNs c) (hstack : c.stack = []) (now : ℤ) :
    Sound timeoutNs (c.onTimer timeoutNs now) := by
  -- what is overdue now has its deadline behind it
  have hdue : ∀ id, id ∈ c.pending.keys → Overdue (c.log ++ [.swept now]) id →
      ∃ d, c.pending.lookup id = some d ∧ d ≠ 0 ∧ d ≤ now := by
    intro id hid hover
    obtain ⟨d, hd⟩ := Map.mem_iff_lookup.1 (AList.mem_keys.2 hid)
    rcases overdue_snoc_iff.1 hover with hover | ⟨d', now', hnow, hgiven, hne, hle⟩
    · exact absurd hover (hc.not_overdue (by simp [sweeping, hstack]) hd)
    · obtain rfl := ClientEvent.swept.inj hnow
      obtain rfl := hc.deadline id d hd d' hgiven
      exact ⟨d', hd, hne, hle⟩
  have hlog : ∀ fs : List Frame, fs.flatMap owes = [] → .reading ∉ fs.dropLast →
      (∀ id ∈ c.pending.keys, Overdue (c.log ++ [.swept now]) id → id ∈ fs.flatMap expires) →
      Sound timeoutNs { c with log := c.log ++ [.swept now], stack := fs } := by
    intro fs howes hbottom hover
    refine ⟨by simpa using hc.fresh, by simpa using hc.nodup, ?_, hc.emptied,
      by simpa using hc.deadline, hc.untimed, hover, hbottom, hc.answers.snoc trivial⟩
    simpa [owed, hstack, howes] using hc.count
  unfold HelperClient.onTimer
  dsimp only
  split_ifs with hnone
  · rw [hstack]
    refine hlog [] rfl (by simp) fun id hid hover => ?_
    obtain ⟨d, hd, hne, -⟩ := hdue id hid hover
    rcases hnone with ht | hkeys
    · exact absurd (hc.untimed ht id d hd) hne
    · rw [hkeys] at hid
      simp at hid
  · rw [hstack]
    refine hlog [.expiring (c.expired now)] rfl (by simp) fun id hid hover => ?_
    obtain ⟨d, hd, hne, hle⟩ := hdue id hid hover
    simp only [List.flatMap_cons, expires, List.flatMap_nil, List.append_nil, expired,
      List.mem_map, List.mem_filter]
    exact ⟨(id, d), ⟨Map.mem_pairs.2 hd, by simp [hne, hle]⟩, rfl⟩

/-- Every step keeps the invariant. -/
lemma Sound.step (codec : HelperCodec) (hc : Sound timeoutNs c) (a : Act) :
    Sound timeoutNs (c.step codec timeoutNs a) := by
  unfold HelperClient.step
  split
  · exact hc.send codec _ _ _ _ _
  · next hstack => exact hc.onReadable hstack _ _
  · exact hc.onWritable _
  · exact hc.handleClose
  · next hstack => exact hc.onTimer hstack _
  · exact hc.send codec _ _ _ _ _
  · next hstack => exact hc.pop hstack rfl rfl
  · next hstack => exact hc.decodeNext codec hstack
  · next hstack => exact hc.failNext hstack _
  · next hstack => exact hc.expireNext hstack _
  · exact hc

theorem sound_run (codec : HelperCodec) (timeoutNs : ℤ) (acts : List Act) :
    Sound timeoutNs (run codec timeoutNs acts) := by
  unfold run
  induction acts using List.reverseRecOn with
  | nil => exact sound_init
  | append_singleton acts a ih =>
    rw [List.foldl_concat]
    exact ih.step codec a

lemma Settled.owed (h : c.Settled) : c.owed = [] := by
  rw [HelperClient.owed, List.flatMap_eq_nil_iff]
  intro f hf
  cases f with
  | failing ids => exact absurd rfl (h _ hf ids)
  | running => rfl
  | reading => rfl
  | expiring ids => rfl

/-- Whatever the environment does, callbacks run once. -/
theorem completesOnce_run (codec : HelperCodec) (timeoutNs : ℤ) (acts : List Act) :
    (run codec timeoutNs acts).CompletesOnce := by
  have hc := sound_run codec timeoutNs acts
  refine ⟨fun id => ?_, hc.answers, fun hclosed hsettled id hid => ?_⟩
  · have hone := List.nodup_iff_count_le_one.1 hc.nodup id
    have hcount := hc.count id
    omega
  · have hone := List.count_eq_one_of_mem hc.nodup hid
    have hcount := hc.count id
    rw [hc.emptied hclosed, hsettled.owed] at hcount
    simp only [AList.keys_empty, List.count_nil] at hcount
    omega

end Steps

end HelperClient

end Codicis
