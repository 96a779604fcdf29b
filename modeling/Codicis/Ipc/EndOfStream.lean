/-
The end of the stream of a helper.

`HelperClient` reads in the same cycles as `IngressHelper` does.  In a lossless run every reply in
the stream finds its request: a reply that is received while its request is pending runs the
callback (`Whole.answered`), and when the stream has ended all replies have been received.

`no_message_lost` says so for both readers, and `last_message_lost` that both lose a message that
comes together with the end of the stream.
-/
import Codicis.Ipc.IngressHelper

namespace Codicis

open Descriptor

namespace HelperClient

/-- The messages that were received. -/
def received (log : List ClientEvent) : List HelperMessage :=
  log.filterMap fun
    | .received msg => some msg
    | _ => none

/-- The reads cut the stream, and its end is seen behind the last byte. -/
def Cuts (s : List Char) (c : HelperClient) : Act → Prop
  | .readable data ending =>
    c.stack = [] → c.taken ++ data <+: s ∧ (ending = .eof → c.taken ++ data = s)
  | _ => True

/-- Nothing ends the stream but its end, and no record comes together with it. -/
def Lossless (codec : HelperCodec) (c : HelperClient) : Act → Prop
  | .readable data ending => c.stack = [] → c.closed = false → ending ≠ .fail ∧
      (ending = .eof → codec.decode (c.input ++ data) = .incomplete)
  | .writable flush => c.stack = [] → c.closed = false → ¬ flush.Breaks c.out
  | .error => c.stack = [] → c.closed = true
  | .proceed _ => c.stack.head? = some .reading → (codec.decode c.input).isError = false
  | .send type fields _ _ flush => c.closed = false →
      ¬ flush.Breaks (c.out ++ codec.encode ⟨c.nextReqId, type, fields⟩)
  | _ => True

instance (s : List Char) (c : HelperClient) (a : Act) : Decidable (c.Cuts s a) := by
  cases a <;> unfold Cuts <;> infer_instance

instance (codec : HelperCodec) (c : HelperClient) (a : Act) : Decidable (c.Lossless codec a) := by
  cases a <;> unfold Lossless <;> infer_instance

/-- When the stream has ended, a request whose reply was in what was left of the stream has got
a reply or has timed out. -/
def Delivers (codec : HelperCodec) (s : List Char) (c : HelperClient) : Prop :=
  c.closed = true → ∀ h₁ id d h₂, c.log = h₁ ++ .given id d :: h₂ →
    (∃ msg ∈ (codec.records s).drop (received h₁).length, msg.reqId = id) →
      (∃ msg, .ran id (.reply msg) ∈ c.log) ∨ .ran id .timedOut ∈ c.log

/-! ### Replies and requests -/

variable {codec : HelperCodec} {s : List Char} {timeoutNs : ℤ} {c c' : HelperClient} {id : ℕ}
  {log evs : List ClientEvent}

/-- A reply has been received since the request was sent. -/
def Answered (log : List ClientEvent) (id : ℕ) : Prop :=
  Followed (fun ev ev' => ∃ d msg, ev = .given id d ∧ ev' = .received msg ∧ msg.reqId = id) log

/-- The request has got a reply or has timed out. -/
def Done (log : List ClientEvent) (id : ℕ) : Prop :=
  (∃ msg, .ran id (.reply msg) ∈ log) ∨ .ran id .timedOut ∈ log

lemma Done.append (h : Done log id) (evs : List ClientEvent) : Done (log ++ evs) id := by
  refine h.imp ?_ ?_
  · rintro ⟨msg, hmsg⟩
    exact ⟨msg, by simp [hmsg]⟩
  · intro hmem
    simp [hmem]

lemma answered_snoc_iff {ev : ClientEvent} : Answered (log ++ [ev]) id ↔
    Answered log id ∨ ∃ msg, ev = .received msg ∧ msg.reqId = id ∧ id ∈ given log := by
  rw [Answered, followed_snoc_iff]
  refine or_congr_right ⟨?_, ?_⟩
  · rintro ⟨_, hmem, d, msg, rfl, hev, hid⟩
    exact ⟨msg, hev, hid, mem_given.2 ⟨d, hmem⟩⟩
  · rintro ⟨msg, hev, hid, hgiven⟩
    obtain ⟨d, hmem⟩ := mem_given.1 hgiven
    exact ⟨_, hmem, d, msg, rfl, hev, hid⟩

/-- Only what is received answers. -/
lemma answered_append (hevs : ∀ ev ∈ evs, ∀ msg, ev ≠ .received msg)
    (h : Answered (log ++ evs) id) : Answered log id := by
  induction evs using List.reverseRecOn with
  | nil => simpa using h
  | append_singleton evs ev ih =>
    rw [← List.append_assoc, answered_snoc_iff] at h
    rcases h with h | ⟨msg, hev, -⟩
    · exact ih (fun e he => hevs e (by simp [he])) h
    · exact absurd hev (hevs ev (by simp) msg)

lemma received_append : received (log ++ evs) = received log ++ received evs :=
  List.filterMap_append

lemma mem_received {msg : HelperMessage} : msg ∈ received log ↔ .received msg ∈ log := by
  simp only [received, List.mem_filterMap]
  constructor
  · rintro ⟨ev, hev, h⟩
    cases ev <;> simp at h
    exact h ▸ hev
  · exact fun h => ⟨_, h, rfl⟩

lemma received_eq_nil (hevs : ∀ ev ∈ evs, ∀ msg, ev ≠ .received msg) : received evs = [] := by
  rw [List.eq_nil_iff_forall_not_mem]
  exact fun msg hmsg => hevs _ (mem_received.1 hmsg) msg rfl

/-! ### A lossless run -/

/-- What holds in a lossless run. -/
structure Whole (codec : HelperCodec) (s : List Char) (c : HelperClient) : Prop where
  tracks : codec.Tracks c.taken c.input (received c.log)
  ended : c.closed = true → c.taken = s ∧ codec.records c.input = []
  answered : ∀ id, Answered c.log id → Done c.log id
  opened : c.closed = false → c.owed = [] ∧ ∀ id, .ran id .closed ∉ c.log

lemma Whole.delivers (h : Whole codec s c) : c.Delivers codec s := by
  rintro hclosed h₁ id d h₂ hlog ⟨msg, hmsg, rfl⟩
  obtain ⟨rfl, hrest⟩ := h.ended hclosed
  refine h.answered _ ⟨h₁, .given msg.reqId d, h₂, hlog, .received msg, ?_, d, msg, rfl, rfl, rfl⟩
  -- what is left of the records when the request is sent is received behind it
  have hleft : (codec.records c.taken).drop (received h₁).length = received h₂ := by
    rw [h.tracks.records_eq hrest, hlog, List.append_cons, received_append, received_append]
    simp [received]
  exact mem_received.1 (hleft ▸ hmsg)

/-- Nothing is read, received or closed. -/
lemma Whole.grow (h : Whole codec s c) (hlog : c'.log = c.log ++ evs)
    (hevs : ∀ ev ∈ evs, ∀ msg, ev ≠ .received msg) (htaken : c'.taken = c.taken)
    (hinput : c'.input = c.input) (hclosed : c'.closed = c.closed)
    (hopened : c.closed = false → c'.owed = c.owed ∧ ∀ ev ∈ evs, ∀ id, ev ≠ .ran id .closed) :
    Whole codec s c' where
  tracks := by
    rw [hlog, htaken, hinput, received_append, received_eq_nil hevs, List.append_nil]
    exact h.tracks
  ended := by rw [hclosed, htaken, hinput]; exact h.ended
  answered := by
    intro id hid
    rw [hlog] at hid ⊢
    exact (h.answered id (answered_append hevs hid)).append evs
  opened := by
    intro hopen
    rw [hclosed] at hopen
    obtain ⟨howed, hran⟩ := h.opened hopen
    obtain ⟨hsame, hnone⟩ := hopened hopen
    refine ⟨hsame.trans howed, fun id hmem => ?_⟩
    rw [hlog, List.mem_append] at hmem
    exact hmem.elim (hran id) fun hev => hnone _ hev id rfl

lemma onWritable_eq {flush : Flush} (hflush : c.closed = false → ¬ flush.Breaks c.out) :
    c.onWritable flush = { c with out := flush.left c.out } := by
  unfold onWritable
  dsimp only
  split_ifs with hbreaks
  · have hclosed : c.closed = true := by
      by_contra hopen
      exact hflush (Bool.not_eq_true _ ▸ hopen) hbreaks
    rw [handleClose, if_pos hclosed]
  · rfl

lemma Whole.onWritable (h : Whole codec s c) {flush : Flush}
    (hflush : c.closed = false → ¬ flush.Breaks c.out) : Whole codec s (c.onWritable flush) := by
  rw [onWritable_eq hflush]
  exact h.grow (List.append_nil _).symm (by simp) rfl rfl rfl fun _ => ⟨rfl, by simp⟩

lemma Whole.send (h : Whole codec s c) {type : String} {fields : List (String × String)}
    {cb : Bool} {now : ℤ} {flush : Flush} (hflush : c.closed = false →
      ¬ flush.Breaks (c.out ++ codec.encode ⟨c.nextReqId, type, fields⟩)) :
    Whole codec s (c.send codec timeoutNs type fields cb now flush) := by
  unfold HelperClient.send
  dsimp only
  split_ifs with hclosed hcb hcb
  · have hlog : c.log ++ [.given c.nextReqId 0] ++ [.ran c.nextReqId .closed]
        = c.log ++ [.given c.nextReqId 0, .ran c.nextReqId .closed] := by simp
    refine h.grow hlog (by simp) rfl rfl rfl fun hopen => ?_
    simp [hclosed] at hopen
  · exact h.grow (List.append_nil _).symm (by simp) rfl rfl rfl fun _ => ⟨rfl, by simp⟩
  · refine Whole.onWritable ?_ hflush
    exact h.grow rfl (by simp) rfl rfl rfl fun _ => ⟨rfl, by simp⟩
  · refine Whole.onWritable ?_ hflush
    exact h.grow (List.append_nil _).symm (by simp) rfl rfl rfl fun _ => ⟨rfl, by simp⟩

/-- The client closes when it has received all. -/
lemma Whole.handleClose (h : Whole codec s c)
    (hended : c.closed = false → c.taken = s ∧ codec.records c.input = []) :
    Whole codec s c.handleClose := by
  unfold HelperClient.handleClose
  split_ifs with hclosed
  · exact h
  · exact ⟨h.tracks, fun _ => hended (Bool.not_eq_true _ ▸ hclosed), h.answered, by simp⟩

lemma Whole.onReadable (h : Whole codec s c) {data : List Char} {ending : ReadEnd}
    (hcuts : c.taken ++ data <+: s ∧ (ending = .eof → c.taken ++ data = s))
    (hloss : c.closed = false → ending ≠ .fail ∧
      (ending = .eof → codec.decode (c.input ++ data) = .incomplete)) :
    Whole codec s (c.onReadable data ending) := by
  -- behind the end of the stream nothing is read
  have hended : c.closed = true → c.taken ++ data = s ∧ codec.records (c.input ++ data) = [] := by
    intro hclosed
    obtain ⟨rfl, hrest⟩ := h.ended hclosed
    obtain rfl : data = [] := by simpa using hcuts.1.length_le
    simpa using hrest
  have hread : Whole codec s { c with input := c.input ++ data, taken := c.taken ++ data } :=
    ⟨h.tracks.read data, hended, h.answered, h.opened⟩
  cases ending with
  | again => exact ⟨hread.tracks, hread.ended, hread.answered, hread.opened⟩
  | eof =>
    refine hread.handleClose fun hopen => ⟨hcuts.2 rfl, ?_⟩
    exact HelperCodec.records_of_incomplete ((hloss hopen).2 rfl)
  | fail => exact hread.handleClose fun hopen => absurd rfl (hloss hopen).1

/-- A request whose reply is received but that is not pending has been completed. -/
lemma Whole.done_of_given (h : Whole codec s c) (hc : Sound timeoutNs c)
    (hopen : c.closed = false) (hgiven : id ∈ given c.log) (hnone : c.pending.lookup id = none) :
    Done c.log id := by
  obtain ⟨howed, hran⟩ := h.opened hopen
  have hcount := hc.count id
  have hkey : id ∉ c.pending.keys := fun hmem =>
    AList.lookup_eq_none.1 hnone (AList.mem_keys.2 hmem)
  rw [howed, List.count_eq_zero.2 hkey] at hcount
  have hmem : id ∈ ran c.log := by
    rw [← List.count_pos_iff]
    have := List.count_pos_iff.2 hgiven
    simp only [List.count_nil] at hcount
    omega
  obtain ⟨outcome, hout⟩ := mem_ran.1 hmem
  cases outcome with
  | reply msg => exact .inl ⟨msg, hout⟩
  | timedOut => exact .inr hout
  | closed => exact absurd hout (hran id)

lemma Whole.decodeNext (h : Whole codec s c) (hc : Sound timeoutNs c) {rest : List Frame}
    (hstack : c.stack = .reading :: rest) (hvalid : (codec.decode c.input).isError = false) :
    Whole codec s (c.decodeNext codec rest) := by
  have hpop : owed { c with stack := rest } = c.owed := by simp [owed, hstack, owes]
  unfold HelperClient.decodeNext
  split
  · exact h.grow (List.append_nil _).symm (by simp) rfl rfl rfl fun _ => ⟨hpop, by simp⟩
  · next herr => simp [herr, TextHelperCodec.HelperDecode.isError] at hvalid
  · next msg input hmsg =>
      have hopen : c.closed = false := by
        by_contra hclosed
        have hnone := (h.ended (by simpa using hclosed)).2
        rw [HelperCodec.records_of_complete hmsg] at hnone
        cases hnone
      obtain ⟨howed, hran⟩ := h.opened hopen
      have htracks := h.tracks.decode hmsg
      dsimp only
      split
      · next hnone =>
          refine ⟨by simpa [received] using htracks, by simp [hopen], ?_, fun _ =>
            ⟨howed, by simpa⟩⟩
          intro id hid
          refine Done.append ?_ _
          rcases answered_snoc_iff.1 hid with hid | ⟨_, hev, rfl, hgiven⟩
          · exact h.answered id hid
          · obtain rfl := ClientEvent.received.inj hev
            exact h.done_of_given hc hopen hgiven hnone
      · refine ⟨by simpa [received, runCallback] using htracks, by simp [hopen, runCallback], ?_,
          fun _ => ⟨?_, by simpa [runCallback]⟩⟩
        · intro id hid
          simp only [runCallback] at hid ⊢
          have hid' := answered_append (by simp) hid
          rcases answered_snoc_iff.1 hid' with hid' | ⟨_, hev, rfl, -⟩
          · exact ((h.answered id hid').append _).append _
          · obtain rfl := ClientEvent.received.inj hev
            exact .inl ⟨msg, by simp⟩
        · simpa [owed, runCallback, owes] using howed

lemma Whole.failNext (h : Whole codec s c) {ids : List ℕ} {rest : List Frame}
    (hstack : c.stack = .failing ids :: rest) (pick : ℕ) :
    Whole codec s (c.failNext ids rest pick) := by
  unfold HelperClient.failNext
  split_ifs with hids hpick
  · exact h.grow (List.append_nil _).symm (by simp) rfl rfl rfl
      fun _ => ⟨by simp [owed, hstack, owes, hids], by simp⟩
  · -- a client that owes something is closed
    refine h.grow rfl (by simp) rfl rfl rfl fun hopen => absurd (h.opened hopen).1 ?_
    simp [owed, hstack, owes, hids]
  · exact h

lemma Whole.expireNext (h : Whole codec s c) {ids : List ℕ} {rest : List Frame}
    (hstack : c.stack = .expiring ids :: rest) (pick : ℕ) :
    Whole codec s (c.expireNext ids rest pick) := by
  unfold HelperClient.expireNext
  dsimp only
  split_ifs
  · exact h.grow (List.append_nil _).symm (by simp) rfl rfl rfl
      fun _ => ⟨by simp [owed, hstack, owes], by simp⟩
  · split
    · exact h.grow (List.append_nil _).symm (by simp) rfl rfl rfl
        fun _ => ⟨by simp [owed, hstack, owes], by simp⟩
    · exact h.grow rfl (by simp) rfl rfl rfl
        fun _ => ⟨by simp [owed, hstack, owes, runCallback], by simp⟩
  · exact h

lemma Whole.onTimer (h : Whole codec s c) (now : ℤ) : Whole codec s (c.onTimer timeoutNs now) := by
  unfold HelperClient.onTimer
  dsimp only
  split_ifs
  · exact h.grow rfl (by simp) rfl rfl rfl fun _ => ⟨rfl, by simp⟩
  · exact h.grow rfl (by simp) rfl rfl rfl fun _ => ⟨by simp [owed, owes], by simp⟩

lemma Whole.step (h : Whole codec s c) (hc : Sound timeoutNs c) {a : Act} (hcuts : c.Cuts s a)
    (hloss : c.Lossless codec a) : Whole codec s (c.step codec timeoutNs a) := by
  unfold HelperClient.step
  split
  · exact h.send hloss
  · next hstack => exact h.onReadable (hcuts hstack) (hloss hstack)
  · next hstack => exact h.onWritable (hloss hstack)
  · next hstack =>
      refine h.handleClose fun hopen => ?_
      simp [hloss hstack] at hopen
  · exact h.onTimer _
  · exact h.send hloss
  · next hstack =>
      exact h.grow (List.append_nil _).symm (by simp) rfl rfl rfl
        fun _ => ⟨by simp [owed, hstack, owes], by simp⟩
  · next hstack => exact h.decodeNext hc hstack (hloss (by simp [hstack]))
  · next hstack => exact h.failNext hstack _
  · next hstack => exact h.expireNext hstack _
  · exact h

lemma delivers_of_lossless {acts : List Act} (h : Machine.Along (step codec timeoutNs)
      (fun c a => c.Cuts s a ∧ c.Lossless codec a) {} acts) :
    (run codec timeoutNs acts).Delivers codec s := by
  have hstart : Whole codec s {} :=
    ⟨HelperCodec.tracks_start, by simp, fun _ hid => absurd hid not_followed_nil, by simp [owed]⟩
  have hkeep : ∀ c a, Sound timeoutNs c ∧ Whole codec s c → c.Cuts s a ∧ c.Lossless codec a →
      Sound timeoutNs (c.step codec timeoutNs a) ∧ Whole codec s (c.step codec timeoutNs a) :=
    fun c a hc ha => ⟨hc.1.step codec a, hc.2.step hc.1 ha.1 ha.2⟩
  exact (Machine.Along.foldl_invariant hkeep ⟨sound_init, hstart⟩ h).2.delivers

end HelperClient

/-! ### Both readers -/

/-- In a lossless run, no message is lost at the end of the stream. -/
theorem no_message_lost (codec : HelperCodec) (timeoutNs : ℤ) (s : List Char) :
    (∀ acts, Machine.Along (HelperClient.step codec timeoutNs)
        (fun c a => c.Cuts s a ∧ c.Lossless codec a) {} acts →
      (HelperClient.run codec timeoutNs acts).Delivers codec s) ∧
    (∀ acts, Machine.Along (IngressHelper.step codec)
        (fun g a => g.Cuts s a ∧ g.Lossless codec a) {} acts →
      (IngressHelper.run codec acts).Hands codec s) :=
  ⟨fun _ => HelperClient.delivers_of_lossless, fun _ => IngressHelper.hands_of_lossless⟩

/-- One record. -/
def oneRecord : List Char := "req_id=1\ntype=ok\n\n".toList

/-- A request is sent, its reply is read and delivered, and the stream ends. -/
def lateEndActs : List HelperClient.Act :=
  [.send "ping" [] true 0 ⟨100, false⟩, .readable (oneRecord.take 5) .again, .proceed 0,
    .readable (oneRecord.drop 5) .again, .proceed 0, .ret, .proceed 0, .readable [] .eof]

theorem no_message_lost_late :
    (HelperClient.run .text 0 lateEndActs).Delivers .text oneRecord ∧
      (IngressHelper.run .text [.readable oneRecord .again, .proceed, .ret, .proceed,
        .readable [] .eof]).Hands .text oneRecord :=
  ⟨(no_message_lost .text 0 oneRecord).1 _ (by decide +kernel),
    (no_message_lost .text 0 oneRecord).2 _ (by decide +kernel)⟩

/-- A request is sent, and its reply is read together with the end of the stream. -/
def earlyEndActs : List HelperClient.Act :=
  [.send "ping" [] true 0 ⟨100, false⟩, .readable oneRecord .eof, .proceed 1]

/-- Both readers lose a record that comes together with the end of the stream. -/
theorem last_message_lost :
    (Machine.Along (HelperClient.step .text 0) (HelperClient.Cuts oneRecord) {} earlyEndActs ∧
      ¬ (HelperClient.run .text 0 earlyEndActs).Delivers .text oneRecord) ∧
    (Machine.Along (IngressHelper.step .text) (IngressHelper.Cuts oneRecord) {}
        [.readable oneRecord .eof] ∧
      ¬ (IngressHelper.run .text [.readable oneRecord .eof]).Hands .text oneRecord) := by
  have hrecords : HelperCodec.text.records oneRecord = [{ reqId := 1, type := "ok" }] := by
    decide +kernel
  refine ⟨⟨by decide +kernel, fun h => ?_⟩, by decide +kernel, fun h => ?_⟩
  · have hlog : (HelperClient.run .text 0 earlyEndActs).log
        = [.given 1 0, .ran 1 .closed] := by decide +kernel
    have hdone := h (by decide +kernel) [] 1 0 [.ran 1 .closed] hlog
      ⟨_, by rw [hrecords]; exact List.mem_singleton_self _, rfl⟩
    rw [hlog] at hdone
    simp at hdone
  · have hnone := h (by decide +kernel)
    rw [hrecords] at hnone
    exact absurd hnone (by decide +kernel)

end Codicis
