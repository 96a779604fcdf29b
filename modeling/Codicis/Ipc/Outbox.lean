/-
The outbox of the storage client (`ipc/storage_client.cc`) and the storage server.

A report stays in the outbox until a commit confirms it.  The reply to a commit carries the
highest id of a write that the server has seen, and the client drops every entry up to it.
Between the two are pipes of bytes: the client writes and reads with `TextHelperCodec`, the server
reads with `GoWire` and writes the same records.  Of `HelperClient` only what the outbox can see
is kept: the ids, the callbacks that wait, and that a request may fail because it times out or the
helper closes; `Tracks` is kept by what the client does.

The server raises its watermark before it calls the store.  So a write that fails is confirmed
like one that was applied.  And the codec does not escape: an error text of the store with a line
feed can carry a `committed` of its own.  `confirmed_of_writes_succeed` says that nothing else is
confirmed wrongly: what a commit confirms has been served, because the pipe keeps the order.
-/
import Codicis.Ipc.GoWire
import Codicis.Ipc.GoStorage
import Codicis.Ipc.HelperClient
import Codicis.Ipc.StorageClient
import Codicis.Lib.Machine
import Codicis.Lib.Map

namespace Codicis

open GoStorage

/-- The state of an entry. -/
inductive OutboxState
  | pending
  | acked
deriving DecidableEq, Repr

structure OutboxEntry where
  kind : ReportKind
  state : OutboxState := .pending
deriving DecidableEq, Repr

/-- The request type of a report. -/
def ReportKind.type : ReportKind → String
  | .order => "report_order"
  | .trade => "report_trade"
  | .fill => "report_fill"

/-- What a callback does with its reply. -/
inductive ReplyHandler
  | report
  | commit
  /-- Nothing with the outbox. -/
  | other
deriving DecidableEq, Repr

/-- The client and the server of one helper, with the pipes between them and the ids that
commits have taken out of the outbox. -/
structure Link where
  nextReqId : ℕ := 1
  closed : Bool := false
  pending : Map ℕ ReplyHandler := ∅
  outbox : Map ℕ OutboxEntry := ∅
  requests : List Char := []
  replies : List Char := []
  server : Server := {}
  confirmed : List ℕ := []

namespace Link

/-- What the environment does. -/
inductive Act
  | report (kind : ReportKind) (fields : List (String × String))
  | commit
  /-- Any other request. -/
  | request (type : String) (fields : List (String × String))
  /-- The server takes the next request; the store may return an error. -/
  | serve (err : Option String)
  /-- A read is done. -/
  | finish (i : ℕ) (fields : List (String × String))
  /-- The client takes the next reply. -/
  | receive
  /-- A request times out. -/
  | expire (id : ℕ)
  | close
deriving DecidableEq, Repr

/-- Send a request; a client that is closed only spends an id. -/
def send (l : Link) (type : String) (fields : List (String × String)) (handler : ReplyHandler) :
    Link :=
  if l.closed = true then { l with nextReqId := l.nextReqId + 1 }
  else
    { l with nextReqId := l.nextReqId + 1, pending := l.pending.insert l.nextReqId handler,
             requests := l.requests ++ TextHelperCodec.encode ⟨l.nextReqId, type, fields⟩ }

/-- Report, and keep an entry until it is committed. -/
def report (l : Link) (kind : ReportKind) (fields : List (String × String)) : Link :=
  let l' := l.send kind.type fields .report
  { l' with outbox := l'.outbox.insert l.nextReqId { kind := kind } }

/-- The watermark of a reply. -/
def watermark (m : HelperMessage) : ℕ :=
  ((m.get "committed").map fun w => parseDigits 0 w.toList).getD 0

/-- The entries up to the watermark. -/
def upTo (l : Link) (w : ℕ) : List ℕ := l.outbox.keys.filter (· ≤ w)

/-- The reply to a report: its entry is acknowledged. -/
def acknowledge (l : Link) (m : HelperMessage) : Link :=
  match l.outbox.lookup m.reqId with
  | none => l
  | some e => { l with outbox := l.outbox.insert m.reqId { e with state := .acked } }

/-- The reply to a commit: drop every outbox entry at or below the committed watermark. -/
def confirm (l : Link) (m : HelperMessage) : Link :=
  let dropped := l.upTo (watermark m)
  { l with outbox := dropped.foldl (fun o id => o.erase id) l.outbox,
           confirmed := l.confirmed ++ dropped }

/-- A reply is given to the callback of its request; an unknown one is ignored. -/
def deliver (l : Link) (m : HelperMessage) : Link :=
  match l.pending.lookup m.reqId with
  | none => l
  | some handler =>
    let l' : Link := { l with pending := l.pending.erase m.reqId }
    match handler with
    | .report => l'.acknowledge m
    | .commit => l'.confirm m
    | .other => l'

/-- The server takes a request. -/
def serve (l : Link) (m : HelperMessage) (rest : List Char) (err : Option String) : Link :=
  if isRead m.type = true then
    { l with requests := rest, server := { l.server with reading := l.server.reading ++ [m] } }
  else
    let r := l.server.handleWrite m err
    { l with requests := rest, server := r.1, replies := l.replies ++ TextHelperCodec.encode r.2 }

/-- The helper is gone: every request has failed. -/
def close (l : Link) : Link := { l with closed := true, pending := ∅ }

/-- One step; what cannot be done in a state does nothing. -/
def step (l : Link) : Act → Link
  | .report kind fields => l.report kind fields
  | .commit => l.send "commit" [] .commit
  | .request type fields => l.send type fields .other
  | .serve err =>
    match GoWire.readMessage l.requests with
    | .ok (m, rest) => l.serve m rest err
    | .error _ => l
  | .finish i fields =>
    match l.server.reading[i]? with
    | none => l
    | some m =>
      { l with server := { l.server with reading := l.server.reading.eraseIdx i },
               replies := l.replies ++ TextHelperCodec.encode (Server.readReply m fields) }
  | .receive =>
    match TextHelperCodec.decode l.replies with
    | .incomplete => l
    | .complete m rest => { l with replies := rest }.deliver m
    | .error _ => l.close
  | .expire id => { l with pending := l.pending.erase id }
  | .close => l.close

/-- A run of the two. -/
def run (acts : List Act) : Link := acts.foldl step {}

/-- What commits have confirmed was applied. -/
def OnlyApplied (l : Link) : Prop := ∀ id ∈ l.confirmed, id ∈ l.server.applied.map Prod.fst

/-- A report that is kept in the outbox. -/
def isReport (m : HelperMessage) : Bool :=
  m.type = "report_order" || m.type = "report_trade" || m.type = "report_fill"

/-- The request that the server reads next. -/
def next (l : Link) : Option HelperMessage :=
  (GoWire.readMessage l.requests).toOption.map Prod.fst

/-- No write of a report that is kept in the outbox fails. -/
def WritesSucceed (l : Link) : Act → Prop
  | .serve err => ∀ m ∈ l.next, isReport m = true → err = none
  | _ => True

/-- The request that is sent, if the client is not closed. -/
def sent (l : Link) (type : String) (fields : List (String × String)) : Option HelperMessage :=
  if l.closed = true then none else some ⟨l.nextReqId, type, fields⟩

/-- The message that a step writes into a pipe. -/
def written (l : Link) : Act → Option HelperMessage
  | .report kind fields => l.sent kind.type fields
  | .commit => l.sent "commit" []
  | .request type fields => l.sent type fields
  | .serve err => l.next.bind fun m =>
    if isRead m.type = true then none else some (l.server.handleWrite m err).2
  | .finish i fields => l.server.reading[i]?.map fun m => Server.readReply m fields
  | _ => none

/-- No write of a report fails, and what is written is a message that the codec can carry. -/
def Faultless (l : Link) (a : Act) : Prop :=
  l.WritesSucceed a ∧ ∀ m ∈ l.written a, TextHelperCodec.Writable m

instance (l : Link) (a : Act) : Decidable (l.WritesSucceed a) := by
  cases a <;> unfold WritesSucceed <;> infer_instance

instance (l : Link) (a : Act) : Decidable (l.Faultless a) := by
  unfold Faultless
  infer_instance

/-! ### The client -/

section Client

variable {l : Link} {c : HelperClient}

/-- The ids and the requests that wait are those of the client. -/
structure Tracks (l : Link) (c : HelperClient) : Prop where
  nextReqId : l.nextReqId = c.nextReqId
  closed : l.closed = c.closed
  pending : l.pending.keys = c.pending.keys

lemma Tracks.close (h : l.Tracks c) (ho : c.closed = false) : l.close.Tracks c.handleClose := by
  rw [HelperClient.handleClose, if_neg (by simp [ho])]
  exact ⟨h.nextReqId, rfl, rfl⟩

/-- A request is sent; a write that fails closes the client. -/
theorem Tracks.send (h : l.Tracks c) (timeoutNs : ℤ) (type : String)
    (fields : List (String × String)) (handler : ReplyHandler) (now : ℤ)
    (flush : Descriptor.Flush) :
    let c' := c.send HelperCodec.text timeoutNs type fields true now flush
    (l.send type fields handler).Tracks c' ∨ (l.send type fields handler).close.Tracks c' := by
  have hid := congrArg (· + 1) h.nextReqId
  unfold Link.send HelperClient.send
  rw [h.closed]
  by_cases hc : c.closed = true
  · simp only [if_pos hc, if_true]
    exact .inl ⟨hid, rfl, h.pending⟩
  · have hkeys : ∀ d, (l.pending.insert l.nextReqId handler).keys
        = (c.pending.insert c.nextReqId d).keys := fun d => by
      rw [AList.keys_insert, AList.keys_insert, h.nextReqId, h.pending]
    simp only [if_neg hc, if_true, HelperClient.onWritable]
    -- the output is flushed at once
    split_ifs
    · exact .inr (Tracks.close ⟨hid, rfl, hkeys _⟩ (by simpa using hc))
    · exact .inl ⟨hid, rfl, hkeys _⟩

lemma deliver_fields (l : Link) (m : HelperMessage) : (l.deliver m).nextReqId = l.nextReqId ∧
    (l.deliver m).closed = l.closed ∧ (l.deliver m).pending = l.pending.erase m.reqId := by
  unfold deliver
  split
  · next hl => exact ⟨rfl, rfl, (Map.erase_of_lookup_eq_none hl).symm⟩
  · next handler _ =>
    cases handler with
    | report =>
      dsimp only [acknowledge]
      split <;> exact ⟨rfl, rfl, rfl⟩
    | commit | other => exact ⟨rfl, rfl, rfl⟩

lemma Tracks.keys_erase (h : l.Tracks c) (id : ℕ) :
    (l.pending.erase id).keys = (c.pending.erase id).keys := by
  rw [AList.keys_erase, AList.keys_erase, h.pending]

/-- A turn of the decode loop takes the next reply. -/
theorem Tracks.receive (h : l.Tracks c) (ho : c.closed = false) (hin : l.replies = c.input)
    (rest : List HelperClient.Frame) :
    (l.step .receive).Tracks (c.decodeNext HelperCodec.text rest) := by
  unfold Link.step HelperClient.decodeNext
  rw [HelperCodec.text_decode, hin]
  cases hd : TextHelperCodec.decode c.input with
  | incomplete => exact ⟨h.nextReqId, h.closed, h.pending⟩
  | error err => exact Tracks.close ⟨h.nextReqId, h.closed, h.pending⟩ ho
  | complete m input =>
    obtain ⟨hid, hclosed, hpend⟩ := deliver_fields { l with replies := input } m
    have hkeys := (congrArg AList.keys hpend).trans (h.keys_erase m.reqId)
    dsimp only
    cases hc : c.pending.lookup m.reqId with
    | none =>
      -- nobody waits for the reply, so nothing is erased
      rw [Map.erase_of_lookup_eq_none hc] at hkeys
      exact ⟨hid.trans h.nextReqId, hclosed.trans h.closed, hkeys⟩
    | some d => exact ⟨hid.trans h.nextReqId, hclosed.trans h.closed, hkeys⟩

/-- A turn of the loop over the expired requests. -/
theorem Tracks.expire (h : l.Tracks c) {ids : List ℕ} {id : ℕ} (hmem : id ∈ ids)
    (rest : List HelperClient.Frame) :
    (l.step (.expire id)).Tracks (c.expireNext ids rest id) := by
  have hkeys := h.keys_erase id
  unfold Link.step HelperClient.expireNext
  rw [if_neg (List.ne_nil_of_mem hmem), if_pos hmem]
  cases hc : c.pending.lookup id with
  | none => exact ⟨h.nextReqId, h.closed, Map.erase_of_lookup_eq_none hc ▸ hkeys⟩
  | some d => exact ⟨h.nextReqId, h.closed, hkeys⟩

end Client

/-! ### Where the reports are -/

open TextHelperCodec (Carries)

variable {l : Link} {m : HelperMessage} {ms rs : List HelperMessage} {rest : List Char}

/-- What holds in a run without such faults, with the messages that are in the pipes. -/
structure Sound (l : Link) (ms rs : List HelperMessage) : Prop where
  requests : Carries l.requests ms
  replies : Carries l.replies rs
  /-- The requests in the pipe are in the order of their ids. -/
  sorted : (ms.map HelperMessage.reqId).Pairwise (· < ·)
  fresh : ∀ m ∈ ms ++ l.server.reading ++ rs, m.reqId < l.nextReqId
  /-- What is in the pipe is above the watermark. -/
  above : ∀ m ∈ ms, l.server.highWrite < m.reqId
  high : l.server.highWrite < l.nextReqId
  commits : ∀ m ∈ ms, l.pending.lookup m.reqId = some .commit → m.type = "commit"
  reads : ∀ m ∈ l.server.reading, l.pending.lookup m.reqId ≠ some .commit
  watermarks : ∀ m ∈ rs, l.pending.lookup m.reqId = some .commit →
    watermark m ≤ l.server.highWrite
  emptied : l.closed = true → l.pending = ∅
  /-- A report in the outbox is in the pipe or applied. -/
  entries : l.closed = false → ∀ id ∈ l.outbox.keys,
    (∃ m ∈ ms, m.reqId = id ∧ isReport m = true) ∨ id ∈ l.server.applied.map Prod.fst
  onlyApplied : l.OnlyApplied

lemma sound_init : Sound {} [] [] where
  requests := TextHelperCodec.carries_nil
  replies := TextHelperCodec.carries_nil
  sorted := .nil
  fresh := by simp
  above := by simp
  high := by decide
  commits := by simp
  reads := by simp
  watermarks := by simp
  emptied := by simp
  entries := by simp
  onlyApplied := by simp [OnlyApplied]

lemma Sound.forget (hl : Sound l ms rs) {pending : Map ℕ ReplyHandler}
    (hsub : ∀ id h, pending.lookup id = some h → l.pending.lookup id = some h) {closed : Bool}
    (hclosed : closed = true → pending = ∅) (hopen : closed = false → l.closed = false) :
    Sound { l with pending := pending, closed := closed } ms rs where
  requests := hl.requests
  replies := hl.replies
  sorted := hl.sorted
  fresh := hl.fresh
  above := hl.above
  high := hl.high
  commits := fun m hm hp => hl.commits m hm (hsub _ _ hp)
  reads := fun m hm hp => hl.reads m hm (hsub _ _ hp)
  watermarks := fun m hm hp => hl.watermarks m hm (hsub _ _ hp)
  emptied := hclosed
  entries := fun hc => hl.entries (hopen hc)
  onlyApplied := hl.onlyApplied

/-- A client that is closed sends nothing. -/
lemma Sound.send_closed (hl : Sound l ms rs) (type : String) (fields : List (String × String))
    (handler : ReplyHandler) (hclosed : l.closed = true) :
    Sound (l.send type fields handler) ms rs := by
  rw [Link.send, if_pos hclosed]
  exact { hl with fresh := fun m hm => (hl.fresh m hm).trans (Nat.lt_succ_self _),
                  high := hl.high.trans (Nat.lt_succ_self _) }

lemma Sound.send_open (hl : Sound l ms rs) {type : String} {fields : List (String × String)}
    (hw : TextHelperCodec.Writable ⟨l.nextReqId, type, fields⟩) {handler : ReplyHandler}
    (hcommit : handler = .commit → type = "commit") (hopen : l.closed = false) :
    Sound (l.send type fields handler) (ms ++ [⟨l.nextReqId, type, fields⟩]) rs := by
  -- an id that was spent is not the new one
  have hold : ∀ m ∈ ms ++ l.server.reading ++ rs,
      (l.pending.insert l.nextReqId handler).lookup m.reqId = l.pending.lookup m.reqId := by
    intro m hm
    rw [Map.lookup_insert_eq, if_neg (hl.fresh m hm).ne]
  rw [Link.send, if_neg (by simp [hopen])]
  refine ⟨hl.requests.concat hw, hl.replies, ?_, ?_, ?_, hl.high.trans (Nat.lt_succ_self _), ?_, ?_,
    ?_, ?_, ?_, hl.onlyApplied⟩
  · simp only [List.map_append, List.map_cons, List.map_nil, List.pairwise_append]
    refine ⟨hl.sorted, List.pairwise_singleton _ _, ?_⟩
    intro a ha b hb
    obtain ⟨m, hm, rfl⟩ := List.mem_map.1 ha
    rw [List.mem_singleton] at hb
    exact hb ▸ hl.fresh m (by simp [hm])
  · intro m hm
    simp only [List.mem_append, List.mem_singleton] at hm
    rcases hm with ((hm | rfl) | hm) | hm
    · exact (hl.fresh m (by simp [hm])).trans (Nat.lt_succ_self _)
    · exact Nat.lt_succ_self _
    · exact (hl.fresh m (by simp [hm])).trans (Nat.lt_succ_self _)
    · exact (hl.fresh m (by simp [hm])).trans (Nat.lt_succ_self _)
  · intro m hm
    simp only [List.mem_append, List.mem_singleton] at hm
    rcases hm with hm | rfl
    · exact hl.above m hm
    · exact hl.high
  · intro m hm hp
    simp only [List.mem_append, List.mem_singleton] at hm
    rcases hm with hm | rfl
    · rw [hold m (by simp [hm])] at hp
      exact hl.commits m hm hp
    · rw [Map.lookup_insert_eq, if_pos rfl] at hp
      exact hcommit (Option.some.inj hp)
  · intro m hm
    rw [hold m (by simp [hm])]
    exact hl.reads m hm
  · intro m hm hp
    rw [hold m (by simp [hm])] at hp
    exact hl.watermarks m hm hp
  · simp [hopen]
  · intro _ id hid
    refine (hl.entries hopen id hid).imp_left ?_
    rintro ⟨m, hm, h⟩
    exact ⟨m, by simp [hm], h⟩

lemma isReport_type (kind : ReportKind) (id : ℕ) (fields : List (String × String)) :
    isReport ⟨id, kind.type, fields⟩ = true := by
  cases kind <;> rfl

/-- Some messages are in the pipes, of which the run is without faults. -/
def Keeps (l : Link) : Prop := ∃ ms rs, Sound l ms rs

lemma Sound.send (hl : Sound l ms rs) {type : String} {fields : List (String × String)}
    (hw : ∀ m ∈ l.sent type fields, TextHelperCodec.Writable m) {handler : ReplyHandler}
    (hcommit : handler = .commit → type = "commit") : Keeps (l.send type fields handler) := by
  cases hclosed : l.closed with
  | true => exact ⟨ms, rs, hl.send_closed type fields handler hclosed⟩
  | false => exact ⟨_, rs, hl.send_open (hw _ (by simp [sent, hclosed])) hcommit hclosed⟩

lemma Sound.report (hl : Sound l ms rs) {kind : ReportKind} {fields : List (String × String)}
    (hw : ∀ m ∈ l.sent kind.type fields, TextHelperCodec.Writable m) :
    Keeps (l.report kind fields) := by
  cases hclosed : l.closed with
  | true =>
    refine ⟨ms, rs, { hl.send_closed kind.type fields .report hclosed with
      entries := fun hopen => absurd hopen ?_ }⟩
    simp [Link.report, Link.send, hclosed]
  | false =>
    have hsend : Sound (l.send kind.type fields .report) _ rs :=
      hl.send_open (hw _ (by simp [sent, hclosed])) (by simp) hclosed
    refine ⟨_, rs, { hsend with entries := fun hopen id hid => ?_ }⟩
    rcases AList.mem_insert _ |>.1 (AList.mem_keys.2 hid) with rfl | hid
    · -- the entry goes with a request
      exact .inl ⟨_, by simp, rfl, isReport_type kind _ fields⟩
    · exact hsend.entries hopen id (AList.mem_keys.1 hid)

lemma keys_foldl_erase {o : Map ℕ OutboxEntry} {ids : List ℕ} {id : ℕ}
    (h : id ∈ (ids.foldl (fun o id => o.erase id) o).keys) : id ∈ o.keys := by
  induction ids generalizing o with
  | nil => exact h
  | cons i ids ih =>
    have hmem := AList.mem_keys.2 (ih h)
    exact AList.mem_keys.1 (AList.mem_erase.1 hmem).2

/-- What a commit confirms has been served, and so it was applied. -/
lemma Sound.confirm (hl : Sound l ms rs) (hopen : l.closed = false)
    (hw : watermark m ≤ l.server.highWrite) : Sound (l.confirm m) ms rs := by
  refine { hl with entries := fun _ id hid => hl.entries hopen id (keys_foldl_erase hid),
                   onlyApplied := fun id hid => ?_ }
  rcases List.mem_append.1 hid with hid | hid
  · exact hl.onlyApplied id hid
  · obtain ⟨hkey, hle⟩ := List.mem_filter.1 hid
    refine (hl.entries hopen id hkey).resolve_left ?_
    rintro ⟨m', hm', rfl, -⟩
    have habove := hl.above m' hm'
    have hle' := of_decide_eq_true hle
    omega

lemma Sound.acknowledge (hl : Sound l ms rs) : Sound (l.acknowledge m) ms rs := by
  unfold Link.acknowledge
  split
  · exact hl
  · next e he =>
      refine { hl with entries := fun hopen id hid => hl.entries hopen id ?_ }
      exact (Map.keys_update_perm he _).mem_iff.1 hid

lemma Sound.deliver (hl : Sound l ms rs)
    (hw : l.pending.lookup m.reqId = some .commit → watermark m ≤ l.server.highWrite) :
    Sound (l.deliver m) ms rs := by
  unfold Link.deliver
  split
  · exact hl
  · next handler hhandler =>
      have hopen : l.closed = false := by
        by_contra hclosed
        rw [hl.emptied (by simpa using hclosed)] at hhandler
        simp at hhandler
      have herase : Sound { l with pending := l.pending.erase m.reqId } ms rs :=
        hl.forget (fun _ _ => Map.lookup_of_erase) (fun h => by simp [hopen] at h) id
      cases handler with
      | report => exact herase.acknowledge
      | commit => exact herase.confirm hopen (hw hhandler)
      | other => exact herase

lemma Sound.receive (hl : Sound l ms (m :: rs)) (hrest : Carries rest rs) :
    Sound ({ l with replies := rest }.deliver m) ms rs := by
  have hl' : Sound { l with replies := rest } ms rs :=
    { hl with
      replies := hrest
      fresh := fun m' hm' => hl.fresh m' (by
        simp only [List.mem_append, List.mem_cons] at hm' ⊢
        tauto)
      watermarks := fun m' hm' => hl.watermarks m' (by simp [hm']) }
  exact hl'.deliver (hl.watermarks m (by simp))

/-- A read is neither a write nor a commit. -/
lemma Sound.finish (hl : Sound l ms rs) {i : ℕ} (hm : l.server.reading[i]? = some m)
    {fields : List (String × String)} (hw : TextHelperCodec.Writable (Server.readReply m fields)) :
    Sound { l with server := { l.server with reading := l.server.reading.eraseIdx i },
                   replies := l.replies ++ TextHelperCodec.encode (Server.readReply m fields) }
      ms (rs ++ [Server.readReply m fields]) := by
  have hmem := List.mem_of_getElem? hm
  refine { hl with replies := hl.replies.concat hw, fresh := ?_, reads := ?_, watermarks := ?_ }
  · intro m' hm'
    simp only [List.mem_append, List.mem_singleton] at hm'
    rcases hm' with (hm' | hm') | hm' | rfl
    · exact hl.fresh m' (by simp [hm'])
    · exact hl.fresh m' (by simp [List.mem_of_mem_eraseIdx hm'])
    · exact hl.fresh m' (by simp [hm'])
    · exact hl.fresh m (by simp [hmem])
  · exact fun m' hm' => hl.reads m' (List.mem_of_mem_eraseIdx hm')
  · intro m' hm' hp
    simp only [List.mem_append, List.mem_singleton] at hm'
    rcases hm' with hm' | rfl
    · exact hl.watermarks m' hm' hp
    · exact absurd hp (hl.reads m hmem)

/-- What the server does with a request that is not a read. -/
structure Handles (s : Server) (m : HelperMessage) (err : Option String)
    (r : Server × HelperMessage) : Prop where
  reading : r.1.reading = s.reading
  reqId : r.2.reqId = m.reqId
  le_high : s.highWrite ≤ r.1.highWrite
  high_le : r.1.highWrite ≤ max s.highWrite m.reqId
  watermark : m.type = "commit" → watermark r.2 ≤ r.1.highWrite
  kept : ∀ id ∈ s.applied.map Prod.fst, id ∈ r.1.applied.map Prod.fst
  applied : isReport m = true → err = none → m.reqId ∈ r.1.applied.map Prod.fst

lemma writeOf_commit (h : m.type = "commit") : writeOf m = none := by
  simp [writeOf, h]

lemma writeOf_report (h : isReport m = true) : ∃ w, writeOf m = some w := by
  simp only [isReport, Bool.or_eq_true, decide_eq_true_eq] at h
  rcases h with (h | h) | h <;> simp [writeOf, h]

lemma handles_handleWrite (s : Server) (m : HelperMessage) (err : Option String) :
    Handles s m err (s.handleWrite m err) := by
  unfold Server.handleWrite
  cases hw : writeOf m with
  | some w =>
    have hcommit : m.type ≠ "commit" := fun h => by simp [writeOf_commit h] at hw
    cases err with
    | none =>
      refine ⟨rfl, rfl, le_max_left _ _, le_rfl, fun h => absurd h hcommit, fun id hid => ?_,
        fun _ _ => by simp⟩
      rw [List.map_append]
      exact List.mem_append_left _ hid
    | some reason =>
      exact ⟨rfl, rfl, le_max_left _ _, le_rfl, fun h => absurd h hcommit, fun id hid => hid,
        fun _ h => by cases h⟩
  | none =>
    have hreport : isReport m ≠ true := fun h => by
      obtain ⟨w, hw'⟩ := writeOf_report h
      simp [hw] at hw'
    dsimp only
    split_ifs with hcommit
    · cases err with
      | none =>
        refine ⟨rfl, rfl, le_rfl, le_max_left _ _, fun _ => ?_, fun id hid => hid,
          fun h => absurd h hreport⟩
        simp only [watermark, HelperMessage.get, List.find?_cons, decide_true, Option.map_some,
          Option.getD_some]
        exact (parseDigits_repr _).le
      | some reason =>
        refine ⟨rfl, rfl, le_rfl, le_max_left _ _, fun _ => ?_, fun id hid => hid,
          fun h => absurd h hreport⟩
        simp [watermark, Server.ackErr, HelperMessage.get]
    · exact ⟨rfl, rfl, le_rfl, le_max_left _ _, fun h => absurd h hcommit, fun id hid => hid,
        fun h => absurd h hreport⟩

lemma Sound.serve (hl : Sound l (m :: ms) rs) (hrest : Carries rest ms) {err : Option String}
    (herr : isReport m = true → err = none)
    (hw : isRead m.type = false → TextHelperCodec.Writable (l.server.handleWrite m err).2) :
    Keeps (l.serve m rest err) := by
  have hsorted := hl.sorted
  rw [List.map_cons, List.pairwise_cons] at hsorted
  have hmem : ∀ m' ∈ ms, m' ∈ m :: ms := fun m' hm' => by simp [hm']
  have hm : m ∈ m :: ms := by simp
  unfold Link.serve
  split_ifs with hread
  · have hother : isReport m ≠ true ∧ m.type ≠ "commit" := by
      simp only [isRead, Bool.or_eq_true, decide_eq_true_eq] at hread
      rcases hread with ((h | h) | h) | h <;> simp [isReport, h]
    refine ⟨ms, rs, { hl with
      requests := hrest, sorted := hsorted.2, fresh := ?_, reads := ?_, entries := ?_,
      above := fun m' hm' => hl.above m' (hmem m' hm'),
      commits := fun m' hm' => hl.commits m' (hmem m' hm') }⟩
    · intro m' hm'
      refine hl.fresh m' ?_
      simp only [List.mem_append, List.mem_cons, List.not_mem_nil, or_false] at hm' ⊢
      tauto
    · intro m' hm' hp
      rcases List.mem_append.1 hm' with hm' | hm'
      · exact hl.reads m' hm' hp
      · obtain rfl := List.mem_singleton.1 hm'
        exact hother.2 (hl.commits m' hm hp)
    · intro hopen id hid
      refine (hl.entries hopen id hid).imp_left ?_
      rintro ⟨m', hm', hid', hreport⟩
      rw [List.mem_cons] at hm'
      rcases hm' with rfl | hm'
      · exact absurd hreport hother.1
      · exact ⟨m', hm', hid', hreport⟩
  · have hhandles := handles_handleWrite l.server m err
    have hw := hw (by simpa using hread)
    dsimp only
    generalize l.server.handleWrite m err = r at hhandles hw
    have habove := hl.above m hm
    have hhigh := hhandles.high_le
    rw [max_eq_right habove.le] at hhigh
    refine ⟨ms, rs ++ [r.2], hrest, hl.replies.concat hw, hsorted.2, ?_, ?_, ?_, fun m' hm' =>
      hl.commits m' (hmem m' hm'), ?_, ?_, hl.emptied,
      ?_, ?_⟩
    · intro m' hm'
      simp only [hhandles.reading, List.mem_append, List.mem_singleton] at hm'
      rcases hm' with (hm' | hm') | hm' | rfl
      · exact hl.fresh m' (by simp [hm'])
      · exact hl.fresh m' (by simp [hm'])
      · exact hl.fresh m' (by simp [hm'])
      · rw [hhandles.reqId]
        exact hl.fresh m (by simp)
    · exact fun m' hm' => hhigh.trans_lt (hsorted.1 m'.reqId (List.mem_map_of_mem hm'))
    · exact hhigh.trans_lt (hl.fresh m (by simp))
    · rw [hhandles.reading]
      exact hl.reads
    · intro m' hm' hp
      simp only [List.mem_append, List.mem_singleton] at hm'
      rcases hm' with hm' | rfl
      · exact (hl.watermarks m' hm' hp).trans hhandles.le_high
      · rw [hhandles.reqId] at hp
        exact hhandles.watermark (hl.commits m hm hp)
    · intro hopen id hid
      rcases hl.entries hopen id hid with ⟨m', hm', rfl, hreport⟩ | happlied
      · rw [List.mem_cons] at hm'
        rcases hm' with rfl | hm'
        · exact .inr (hhandles.applied hreport (herr hreport))
        · exact .inl ⟨m', hm', rfl, hreport⟩
      · exact .inr (hhandles.kept id happlied)
    · exact fun id hid => hhandles.kept id (hl.onlyApplied id hid)

lemma Sound.close (hl : Sound l ms rs) : Sound l.close ms rs :=
  hl.forget (by simp) (fun _ => rfl) (by simp)

lemma Sound.step (hl : Sound l ms rs) {a : Act} (ha : l.Faultless a) : Keeps (l.step a) := by
  obtain ⟨hok, hw⟩ := ha
  cases a with
  | report kind fields => exact hl.report hw
  | commit => exact hl.send hw fun _ => rfl
  | request type fields => exact hl.send hw (by simp)
  | serve err =>
    cases ms with
    | nil => exact ⟨[], rs, by simpa [Link.step, hl.requests.readMessage_nil] using hl⟩
    | cons m ms =>
      obtain ⟨rest, hread, hrest⟩ := hl.requests.readMessage_cons
      have hnext : l.next = some m := by simp [next, hread, Except.toOption]
      simp only [Link.step, hread]
      refine hl.serve hrest (hok m hnext) fun hwrite => hw _ ?_
      simp [written, hnext, hwrite]
  | finish i fields =>
    unfold Link.step
    dsimp only
    split
    · exact ⟨ms, rs, hl⟩
    · next m hm => exact ⟨ms, _, hl.finish hm (hw _ (by simp [written, hm]))⟩
  | receive =>
    cases rs with
    | nil => exact ⟨ms, [], by simpa [Link.step, hl.replies.decode_nil] using hl⟩
    | cons m rs =>
      obtain ⟨rest, hdec, hrest⟩ := hl.replies.decode_cons
      simp only [Link.step, hdec]
      exact ⟨ms, rs, hl.receive hrest⟩
  | expire id =>
    refine ⟨ms, rs, hl.forget (fun _ _ => Map.lookup_of_erase) (fun h => ?_) (fun h => h)⟩
    rw [hl.emptied h]
    rfl
  | close => exact ⟨ms, rs, hl.close⟩

/-- If no such write fails and the codec carries every message, then commits confirm only what
was applied. -/
theorem confirmed_of_writes_succeed {acts : List Act}
    (h : Machine.Along step Faultless {} acts) : (run acts).OnlyApplied := by
  have hkeeps : Keeps (run acts) :=
    Machine.Along.foldl_invariant (fun _ _ ⟨_, _, hl⟩ ha => hl.step ha) ⟨[], [], sound_init⟩ h
  obtain ⟨ms, rs, hl⟩ := hkeeps
  exact hl.onlyApplied

/-- An order is reported and committed; the commit is confirmed. -/
def committedActs : List Act :=
  [.report .order [("id", "7")], .commit, .serve none, .serve none, .receive, .receive]

theorem confirmed_committed :
    (run committedActs).confirmed = [1] ∧ (run committedActs).OnlyApplied :=
  ⟨by decide +kernel, confirmed_of_writes_succeed (by decide +kernel)⟩

/-- The store fails to write the order. -/
def failedActs : List Act :=
  [.report .order [("id", "7")], .commit, .serve (some "disk full"), .serve none, .receive,
    .receive]

/-- A commit confirms a write that the store has refused. -/
theorem failed_write_confirmed :
    (run failedActs).confirmed = [1] ∧ (run failedActs).server.applied = [] ∧
      ¬ (run failedActs).OnlyApplied := by
  have hconfirmed : (run failedActs).confirmed = [1] := by decide +kernel
  have happlied : (run failedActs).server.applied = [] := by decide +kernel
  refine ⟨hconfirmed, happlied, fun h => ?_⟩
  have hmem := h 1 (by simp [hconfirmed])
  simp [happlied] at hmem

end Link

end Codicis
