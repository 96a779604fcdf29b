/-
One client connection (`HttpConnection` of `net/http_server.cc`): read, parse, route, write.

The environment says what the reads give, how much a write takes, and whether the handler of a
request answers at once or later.  The connection logs what it dispatches and answers.

`Ordered` is what a peer relies on: the responses on the wire are those of the requests, one
each and in their order, at most one request is outstanding, and after a request that ends the
connection nothing is dispatched and nothing rejected; so there is at most one 400.  The input loop
tests `closing_` only behind a dispatch.  If it is entered when the connection is already closing,
it goes on with what is in the buffer.  `Calm` says that this is no request, complete or malformed,
and `ordered_iff_calm` that nothing else goes wrong.
-/
import Codicis.Lib.Descriptor
import Codicis.Lib.Machine
import Codicis.Net.HttpStream

namespace Codicis

open Http Descriptor

/-- A response to be serialized onto the wire. -/
structure HttpResponse where
  status : ℤ := 200
  reason : List Char := "OK".toList
  headers : List HttpHeader := []
  body : List Char := []
deriving DecidableEq, Repr

/-- A header line on the wire. -/
def headerLine (name value : List Char) : List Char := name ++ ": ".toList ++ value ++ crlf

/-- Whether a response has a header. -/
def HttpResponse.has (r : HttpResponse) (name : String) : Bool :=
  r.headers.any fun h => iEquals h.name name.toList

/-- The full response; `Content-Length` and `Connection` are added unless present. -/
def HttpResponse.serialize (r : HttpResponse) (keepAlive : Bool) : List Char :=
  "HTTP/1.1 ".toList ++ (toString r.status).toList ++ ' ' :: r.reason ++ crlf ++
    r.headers.flatMap (fun h => headerLine h.name h.value) ++
    (if r.has "Content-Length" = true then []
      else headerLine "Content-Length".toList (toString r.body.length).toList) ++
    (if r.has "Connection" = true then []
      else headerLine "Connection".toList
        (if keepAlive = true then "keep-alive".toList else "close".toList)) ++
    crlf ++ r.body

/-- The answer to a malformed request. -/
def badRequest : HttpResponse where
  status := 400
  reason := "Bad Request".toList
  headers := [⟨"Content-Type".toList, "text/plain".toList⟩]
  body := "Bad Request".toList

/-- What a connection logs. -/
inductive ConnEvent
  | dispatched (r : HttpRequest)
  | answered (resp : HttpResponse) (keepAlive : Bool)
  /-- A malformed request is answered. -/
  | rejected
deriving DecidableEq, Repr

/-- The bytes that an event puts on the wire. -/
def ConnEvent.bytes : ConnEvent → List Char
  | .dispatched _ => []
  | .answered resp keepAlive => resp.serialize keepAlive
  | .rejected => badRequest.serialize false

/-- The state of a connection, with what has been written and the log. -/
structure HttpConnection where
  input : List Char := []
  out : List Char := []
  parser : HttpRequestParser := {}
  closing : Bool := false
  peerClosed : Bool := false
  closed : Bool := false
  awaitingResponse : Bool := false
  keepAliveCurrent : Bool := true
  written : List Char := []
  log : List ConnEvent := []
deriving DecidableEq, Repr

namespace HttpConnection

/-- What the environment does.  For each request that is dispatched there is the response of a
handler that answers at once, or nothing. -/
inductive Act
  | readable (data : List Char) (ending : ReadEnd) (handlers : List (Option HttpResponse))
      (flush : Flush)
  | writable (flush : Flush)
  /-- A handler that has deferred its answer completes. -/
  | complete (resp : HttpResponse) (handlers : List (Option HttpResponse)) (flush : Flush)
  | error
deriving DecidableEq, Repr

/-- Tear down the connection. -/
def close (c : HttpConnection) : HttpConnection := { c with closed := true }

/-- Flush the output buffer; close if done and closing. -/
def onWritable (c : HttpConnection) (flush : Flush) : HttpConnection :=
  let c' : HttpConnection :=
    { c with out := flush.left c.out, written := c.written ++ flush.sent c.out }
  if flush.Breaks c.out then c'.close
  else if c'.out = [] ∧ c'.closing = true then c'.close
  else c'

/-- What `complete_response` does with the response.  The responder has captured the keep-alive
of its request, which is that of the outstanding one. -/
def answer (c : HttpConnection) (resp : HttpResponse) : HttpConnection :=
  { c with out := c.out ++ resp.serialize c.keepAliveCurrent, awaitingResponse := false,
           closing := c.closing || !c.keepAliveCurrent,
           log := c.log ++ [.answered resp c.keepAliveCurrent] }

/-- The request of the parser becomes the outstanding one. -/
def take (c : HttpConnection) : HttpConnection :=
  { c with keepAliveCurrent := c.parser.request.keepAlive, awaitingResponse := true,
           log := c.log ++ [.dispatched c.parser.request] }

/-- Route the current request; the handler may answer at once. -/
def dispatchRequest (c : HttpConnection) : Option HttpResponse → HttpConnection
  | some resp => { c.take.answer resp with parser := c.parser.reset }
  | none => { c.take with parser := c.parser.reset }

/-- Emit a minimal 400 and close. -/
def reject (c : HttpConnection) : HttpConnection :=
  { c with out := c.out ++ badRequest.serialize false, closing := true,
           log := c.log ++ [.rejected] }

/-- The parser has read from the buffer. -/
def parsed (c : HttpConnection) (p : HttpRequestParser) (rest : List Char) : HttpConnection :=
  { c with parser := p, input := rest }

/-- The loop of `process_input`, and whether it returned with a request outstanding. -/
def inputLoop : ℕ → HttpConnection → List (Option HttpResponse) → HttpConnection × Bool
  | 0, c, _ => (c, false)
  | n + 1, c, handlers =>
    if c.awaitingResponse = true then (c, false)
    else
      match c.parser.parse c.input with
      | (p, rest, .complete) =>
        let c' := (c.parsed p rest).dispatchRequest handlers.head?.join
        if c'.awaitingResponse = true then (c', true)
        else if c'.closing = true then (c', false)
        else inputLoop n c' handlers.tail
      | (p, rest, .incomplete) => (c.parsed p rest, false)
      | (p, rest, .error) => ((c.parsed p rest).reject, false)

/-- Behind the loop: flush, and close if nothing is left to do. -/
def settle (c : HttpConnection) (flush : Flush) : HttpConnection :=
  let c' := if c.out = [] then c else c.onWritable flush
  if c'.closed = true then c'
  else if c'.out = [] ∧ c'.awaitingResponse = false ∧
  (c'.closing = true ∨ c'.peerClosed = true) then
    c'.close
  else c'

/-- Parse and dispatch buffered requests until one goes asynchronous. -/
def processInput (c : HttpConnection) (handlers : List (Option HttpResponse)) (flush : Flush) :
    HttpConnection :=
  let r := inputLoop (c.parser.rank c.input + 1) c handlers
  if r.2 = true then r.1 else r.1.settle flush

/-- Drain the socket into the input buffer, then parse. -/
def onReadable (c : HttpConnection) (data : List Char) (ending : ReadEnd)
    (handlers : List (Option HttpResponse)) (flush : Flush) : HttpConnection :=
  let c' : HttpConnection := { c with input := c.input ++ data }
  match ending with
  | .fail => c'.close
  | .eof => { c' with peerClosed := true }.processInput handlers flush
  | .again => c'.processInput handlers flush

/-- Deliver a deferred response and resume processing. -/
def completeResponse (c : HttpConnection) (resp : HttpResponse)
    (handlers : List (Option HttpResponse)) (flush : Flush) : HttpConnection :=
  (c.answer resp).processInput handlers flush

/-- One action of the environment; a connection that is closed takes none. -/
def step (c : HttpConnection) (a : Act) : HttpConnection :=
  if c.closed = true then c
  else
    match a with
    | .readable data ending handlers flush => c.onReadable data ending handlers flush
    | .writable flush => c.onWritable flush
    | .complete resp handlers flush => c.completeResponse resp handlers flush
    | .error => c.close

/-- Each request is answered once. -/
def AnswersOnce (c : HttpConnection) : Act → Prop
  | .complete _ _ _ => c.closed = true ∨ c.awaitingResponse = true
  | _ => True

instance (c : HttpConnection) (a : Act) : Decidable (c.AnswersOnce a) := by
  cases a <;> unfold AnswersOnce <;> infer_instance

/-! ### What a peer relies on -/

/-- Where a connection is in its log. -/
inductive Stage
  | idle
  | busy (r : HttpRequest)
  | rejecting

/-- The log of a connection that takes one request at a time: each request is answered once and
before the next one, with its own keep-alive, and a malformed request is the last. -/
inductive InTurns : List ConnEvent → Stage → Prop
  | start : InTurns [] .idle
  | dispatch {log : List ConnEvent} {r : HttpRequest} (h : InTurns log .idle) :
      InTurns (log ++ [.dispatched r]) (.busy r)
  | answer {log : List ConnEvent} {r : HttpRequest} {resp : HttpResponse}
      (h : InTurns log (.busy r)) : InTurns (log ++ [.answered resp r.keepAlive]) .idle
  | reject {log : List ConnEvent} (h : InTurns log .idle) :
      InTurns (log ++ [.rejected]) .rejecting

/-- Nothing before the event has ended the connection, unless it is an answer. -/
def Unended (log : List ConnEvent) : ConnEvent → Prop
  | .answered _ _ => True
  | _ => .rejected ∉ log ∧ ∀ r, .dispatched r ∈ log → r.keepAlive = true

/-- The responses are those of the requests, in their order, and the connection ends when it
has to. -/
structure Ordered (c : HttpConnection) : Prop where
  wire : c.written ++ c.out = c.log.flatMap ConnEvent.bytes
  turns : ∃ st, InTurns c.log st
  unended : Justified Unended c.log

/-- The parser finds a request in the buffer, complete or malformed. -/
def Finds (p : HttpRequestParser) (v : List Char) : Prop := (p.parse v).2.2 ≠ .incomplete

instance (p : HttpRequestParser) (v : List Char) : Decidable (Finds p v) :=
  inferInstanceAs (Decidable (_ ≠ _))

/-- The input loop is not entered with a request in the buffer when the connection is closing. -/
def Calm (c : HttpConnection) : Act → Prop
  | .readable data ending _ _ => c.closed = false → ending ≠ .fail → c.awaitingResponse = false →
      c.closing = true → ¬ Finds c.parser (c.input ++ data)
  | .complete _ _ _ => c.closed = false → (c.closing = true ∨ c.keepAliveCurrent = false) →
      ¬ Finds c.parser c.input
  | _ => True

instance (c : HttpConnection) (a : Act) : Decidable (c.Calm a) := by
  cases a <;> unfold Calm <;> infer_instance

/-! ### The invariant -/

variable {c c' : HttpConnection} {log : List ConnEvent} {st : Stage}

/-- The state of a connection fits its place in the log. -/
def Fits (c : HttpConnection) : Stage → Prop
  | .idle => c.awaitingResponse = false
  | .busy r => c.awaitingResponse = true ∧ c.keepAliveCurrent = r.keepAlive
  | .rejecting => c.awaitingResponse = false ∧ c.parser.state = .error

/-- Something in the log has ended the connection. -/
def Ended (log : List ConnEvent) : Prop :=
  .rejected ∈ log ∨ ∃ resp, .answered resp false ∈ log

/-- What holds in every state, whether calm or not. -/
structure Sound (c : HttpConnection) : Prop where
  wire : c.written ++ c.out = c.log.flatMap ConnEvent.bytes
  turns : Justified Unended c.log → ∃ st, InTurns c.log st ∧ Fits c st
  closing : c.closing = true ↔ Ended c.log

/-- Nothing has happened but that bytes were read or written. -/
structure Quiet (c c' : HttpConnection) : Prop where
  wire : c'.written ++ c'.out = c.written ++ c.out
  log : c'.log = c.log
  parser : c'.parser.state = c.parser.state
  closing : c'.closing = c.closing
  awaitingResponse : c'.awaitingResponse = c.awaitingResponse
  keepAliveCurrent : c'.keepAliveCurrent = c.keepAliveCurrent

lemma Quiet.sound (h : Quiet c c') (hc : c.Sound) : c'.Sound := by
  have hclosing : c'.closing = true ↔ Ended c'.log := by rw [h.closing, h.log, hc.closing]
  refine ⟨by rw [h.wire, h.log, hc.wire], fun hj => ?_, hclosing⟩
  rw [h.log] at hj ⊢
  obtain ⟨st, hturns, hfits⟩ := hc.turns hj
  refine ⟨st, hturns, ?_⟩
  cases st with
  | idle => exact h.awaitingResponse.trans hfits
  | busy r => exact ⟨h.awaitingResponse.trans hfits.1, h.keepAliveCurrent.trans hfits.2⟩
  | rejecting => exact ⟨h.awaitingResponse.trans hfits.1, h.parser.trans hfits.2⟩

lemma Quiet.trans {c'' : HttpConnection} (h : Quiet c c') (h' : Quiet c' c'') : Quiet c c'' :=
  ⟨h'.wire.trans h.wire, h'.log.trans h.log, h'.parser.trans h.parser,
    h'.closing.trans h.closing, h'.awaitingResponse.trans h.awaitingResponse,
    h'.keepAliveCurrent.trans h.keepAliveCurrent⟩

lemma quiet_refl : Quiet c c := ⟨rfl, rfl, rfl, rfl, rfl, rfl⟩

lemma quiet_close : Quiet c c.close := ⟨rfl, rfl, rfl, rfl, rfl, rfl⟩

lemma quiet_onWritable (flush : Flush) : Quiet c (c.onWritable flush) := by
  have hflush : Quiet c { c with out := flush.left c.out,
                                 written := c.written ++ flush.sent c.out } :=
    ⟨by simp, rfl, rfl, rfl, rfl, rfl⟩
  unfold onWritable
  dsimp only
  split_ifs
  · exact hflush.trans quiet_close
  · exact hflush.trans quiet_close
  · exact hflush

lemma quiet_settle (flush : Flush) : Quiet c (c.settle flush) := by
  have hflush : Quiet c (if c.out = [] then c else c.onWritable flush) := by
    split_ifs
    · exact quiet_refl
    · exact quiet_onWritable flush
  unfold settle
  generalize (if c.out = [] then c else c.onWritable flush) = c' at hflush
  dsimp only
  split_ifs
  · exact hflush
  · exact hflush.trans quiet_close
  · exact hflush

/-! ### One event -/

lemma ended_append_dispatched {r : HttpRequest} :
    Ended (log ++ [.dispatched r]) ↔ Ended log := by
  simp [Ended]

lemma ended_append_answered {resp : HttpResponse} {keepAlive : Bool} :
    Ended (log ++ [.answered resp keepAlive]) ↔ Ended log ∨ keepAlive = false := by
  cases keepAlive <;> simp [Ended]

lemma ended_append_rejected : Ended (log ++ [.rejected]) := by simp [Ended]

lemma justified_snoc_iff {ev : ConnEvent} :
    Justified Unended (log ++ [ev]) ↔ Justified Unended log ∧ Unended log ev :=
  ⟨fun h => ⟨h.of_append, h log ev [] rfl⟩, fun h => h.1.snoc h.2⟩

lemma InTurns.rejected_mem (h : InTurns log .rejecting) : .rejected ∈ log := by
  cases h
  simp

/-- No request is outstanding. -/
lemma Sound.idle (hc : c.Sound) (hidle : c.awaitingResponse = false)
    (hj : Justified Unended c.log) :
    InTurns c.log .idle ∨ InTurns c.log .rejecting ∧ c.parser.state = .error := by
  obtain ⟨st, hturns, hfits⟩ := hc.turns hj
  cases st with
  | idle => exact .inl hturns
  | busy r => exact absurd (hidle.symm.trans hfits.1) (by decide)
  | rejecting => exact .inr ⟨hturns, hfits.2⟩

lemma Sound.busy (hc : c.Sound) (hbusy : c.awaitingResponse = true)
    (hj : Justified Unended c.log) :
    ∃ r, InTurns c.log (.busy r) ∧ c.keepAliveCurrent = r.keepAlive := by
  obtain ⟨st, hturns, hfits⟩ := hc.turns hj
  cases st with
  | idle => exact absurd (hbusy.symm.trans hfits) (by decide)
  | busy r => exact ⟨r, hturns, hfits.2⟩
  | rejecting => exact absurd (hbusy.symm.trans hfits.1) (by decide)

lemma Sound.take (hc : c.Sound) (hidle : Justified Unended c.log → InTurns c.log .idle) :
    c.take.Sound where
  wire := by simp [HttpConnection.take, hc.wire, ConnEvent.bytes]
  turns hj := ⟨.busy c.parser.request, .dispatch (hidle hj.of_append), rfl, rfl⟩
  closing := hc.closing.trans ended_append_dispatched.symm

lemma Sound.answer (hc : c.Sound) (hbusy : c.awaitingResponse = true) (resp : HttpResponse) :
    (c.answer resp).Sound := by
  refine ⟨?_, fun hj => ?_, ?_⟩
  · simp [HttpConnection.answer, ← List.append_assoc, hc.wire, ConnEvent.bytes]
  · obtain ⟨r, hturns, hkeep⟩ := hc.busy hbusy hj.of_append
    refine ⟨.idle, ?_, rfl⟩
    show InTurns (c.log ++ [.answered resp c.keepAliveCurrent]) .idle
    exact hkeep ▸ .answer hturns
  · show (c.closing || !c.keepAliveCurrent) = true ↔ Ended (c.log ++ [_])
    rw [ended_append_answered, Bool.or_eq_true, hc.closing, Bool.not_eq_true']

lemma Sound.parsed {p : HttpRequestParser} (hc : c.Sound) (haw : c.awaitingResponse = false)
    (h : Justified Unended c.log → InTurns c.log .idle) (rest : List Char) :
    (c.parsed p rest).Sound := ⟨hc.wire, fun hj => ⟨.idle, h hj, haw⟩, hc.closing⟩

lemma Sound.dispatchRequest (hc : c.Sound) (hidle : Justified Unended c.log → InTurns c.log .idle)
    (handler : Option HttpResponse) : (c.dispatchRequest handler).Sound := by
  have htake := hc.take hidle
  cases handler with
  | none =>
    exact ⟨htake.wire, fun hj => ⟨.busy _, .dispatch (hidle hj.of_append), rfl, rfl⟩,
      htake.closing⟩
  | some resp =>
    have hanswer := htake.answer rfl resp
    exact ⟨hanswer.wire, fun hj => ⟨.idle, .answer (.dispatch (hidle hj.of_append.of_append)), rfl⟩,
      hanswer.closing⟩

/-- If nothing has ended the connection, what is rejected is the first to be. -/
lemma Sound.reject {p : HttpRequestParser} (hc : c.Sound) (haw : c.awaitingResponse = false)
    (herr : p.state = .error) (rest : List Char) : (c.parsed p rest).reject.Sound := by
  refine ⟨?_, fun hj => ⟨.rejecting, ?_, haw, herr⟩, iff_of_true rfl ended_append_rejected⟩
  · simp [HttpConnection.reject, HttpConnection.parsed, ← List.append_assoc, hc.wire,
      ConnEvent.bytes]
  · obtain ⟨hj, hend⟩ := justified_snoc_iff.1 hj
    rcases hc.idle haw hj with hidle | ⟨hrej, -⟩
    · exact .reject hidle
    · exact absurd hrej.rejected_mem hend.1

/-! ### The end of a connection -/

/-- Between two requests, every request has been answered with its keep-alive. -/
lemma InTurns.agree (h : InTurns log st) :
    match st with
    | .idle => .rejected ∉ log ∧ ∀ keep, (∃ resp, .answered resp keep ∈ log) ↔
        ∃ r, .dispatched r ∈ log ∧ r.keepAlive = keep
    | .busy r => .rejected ∉ log ∧ ∀ keep,
        (∃ resp, .answered resp keep ∈ log) ∨ r.keepAlive = keep ↔
          ∃ r, .dispatched r ∈ log ∧ r.keepAlive = keep
    | .rejecting => True := by
  induction h with
  | start => simp
  | dispatch _ ih =>
    refine ⟨by simpa using ih.1, fun keep => ?_⟩
    simp only [List.mem_append, List.mem_singleton, reduceCtorEq, or_false, ih.2 keep,
      ConnEvent.dispatched.injEq, or_and_right, exists_or, exists_eq_left]
  | answer _ ih =>
    refine ⟨by simpa using ih.1, fun keep => ?_⟩
    simp only [List.mem_append, List.mem_singleton, reduceCtorEq, or_false, ← ih.2 keep,
      ConnEvent.answered.injEq, exists_or, exists_eq_left]
    simp [eq_comm]
  | reject => trivial

/-- Between two requests, a request may be dispatched or rejected if nothing has ended the
connection. -/
lemma InTurns.unended_iff (h : InTurns log .idle ∨ InTurns log .rejecting) {ev : ConnEvent}
    (hev : ∀ resp keep, ev ≠ .answered resp keep) : Unended log ev ↔ ¬ Ended log := by
  have hiff : (.rejected ∉ log ∧ ∀ r, .dispatched r ∈ log → r.keepAlive = true) ↔ ¬ Ended log := by
    rcases h with h | h
    · obtain ⟨hrej, hagree⟩ := h.agree
      rw [Ended, or_iff_right hrej, hagree false, and_iff_right hrej]
      simp
    · exact iff_of_false (fun hno => hno.1 h.rejected_mem) (not_not.2 (.inl h.rejected_mem))
  cases ev with
  | answered resp keep => exact absurd rfl (hev resp keep)
  | dispatched r => exact hiff
  | rejected => exact hiff

/-! ### The input loop -/

section Loop

open HttpRequestParser

variable {p p' : HttpRequestParser} {v rest : List Char} {handlers : List (Option HttpResponse)}

lemma log_dispatchRequest (c : HttpConnection) (handler : Option HttpResponse) :
    ∃ more, (c.dispatchRequest handler).log = c.log ++ .dispatched c.parser.request :: more ∧
      ∀ ev ∈ more, ∀ log, Unended log ev := by
  cases handler with
  | none => exact ⟨[], rfl, by simp⟩
  | some resp =>
    refine ⟨[.answered resp c.parser.request.keepAlive], ?_, by simp [Unended]⟩
    simp [dispatchRequest, answer, take]

/-- A dispatch is in order if and only if the connection has not ended. -/
lemma justified_dispatchRequest (hidle : InTurns c.log .idle) (handler : Option HttpResponse) :
    Justified Unended (c.dispatchRequest handler).log ↔
      Justified Unended c.log ∧ ¬ Ended c.log := by
  obtain ⟨more, hlog, hfree⟩ := log_dispatchRequest c handler
  have hend : Unended c.log (.dispatched c.parser.request) ↔ _ :=
    InTurns.unended_iff (.inl hidle) (by simp)
  rw [hlog, List.append_cons, ← hend, ← justified_snoc_iff]
  exact ⟨Justified.of_append, fun h => h.append_free hfree⟩

/-- The parser finds a request only in a connection that has not rejected one. -/
lemma Sound.idle_of_parse (hc : c.Sound) (haw : c.awaitingResponse = false) {progress : Progress}
    (hparse : c.parser.parse v = (p, rest, progress)) (hne : progress ≠ .error)
    (hj : Justified Unended c.log) : InTurns c.log .idle := by
  rcases hc.idle haw hj with hidle | ⟨-, herr⟩
  · exact hidle
  · rw [parse_of_state_error herr] at hparse
    exact absurd (Prod.mk.inj (Prod.mk.inj hparse).2).2.symm hne

/-- The loop is entered with a request in the buffer when the connection is closing. -/
def Overruns (c : HttpConnection) : Prop :=
  c.awaitingResponse = false ∧ c.closing = true ∧ Finds c.parser c.input

/-- What the input loop does with a log. -/
structure Loops (c c' : HttpConnection) : Prop where
  sound : c'.Sound
  grows : ∃ more, c'.log = c.log ++ more
  unended : ¬ c.Overruns → Justified Unended c.log → Justified Unended c'.log

lemma loops_of_log_eq (hc' : c'.Sound) (hlog : c'.log = c.log) : Loops c c' :=
  ⟨hc', ⟨[], by rw [hlog, List.append_nil]⟩, fun _ hj => by rwa [hlog]⟩

/-- If the loop finds a request and does not overrun, the connection has not ended. -/
lemma Sound.not_ended (hc : c.Sound) (haw : c.awaitingResponse = false) (hopen : ¬ c.Overruns)
    (hfinds : Finds c.parser c.input) : ¬ Ended c.log :=
  fun hended => hopen ⟨haw, hc.closing.2 hended, hfinds⟩

lemma loops_dispatch (hc : c.Sound) (haw : c.awaitingResponse = false)
    (hparse : c.parser.parse c.input = (p, rest, .complete)) (handler : Option HttpResponse) :
    Loops c ((c.parsed p rest).dispatchRequest handler) := by
  have hidle := hc.idle_of_parse haw hparse (by decide)
  obtain ⟨more, hlog, -⟩ := log_dispatchRequest (c.parsed p rest) handler
  refine ⟨(hc.parsed haw hidle rest).dispatchRequest hidle handler, ⟨_, hlog⟩, fun hopen hj => ?_⟩
  exact (justified_dispatchRequest (c := c.parsed p rest) (hidle hj) handler).2
    ⟨hj, hc.not_ended haw hopen (by simp [Finds, hparse])⟩

lemma loops_reject (hc : c.Sound) (haw : c.awaitingResponse = false)
    (hparse : c.parser.parse c.input = (p, rest, .error)) :
    Loops c (c.parsed p rest).reject := by
  refine ⟨hc.reject haw (state_of_parse_error hparse) rest, ⟨_, rfl⟩, fun hopen hj => ?_⟩
  have hturns := (hc.idle haw hj).imp_right And.left
  have hend := hc.not_ended haw hopen (by simp [Finds, hparse])
  exact justified_snoc_iff.2 ⟨hj, (InTurns.unended_iff hturns (by simp)).2 hend⟩

lemma Loops.trans {c'' : HttpConnection} (h : Loops c c') (h' : Loops c' c'')
    (hopen : c'.closing = false) : Loops c c'' := by
  obtain ⟨more, hmore⟩ := h.grows
  obtain ⟨more', hmore'⟩ := h'.grows
  refine ⟨h'.sound, ⟨more ++ more', by rw [hmore', hmore, List.append_assoc]⟩, ?_⟩
  exact fun hstart hj => h'.unended (fun h => by simp [h.2.1] at hopen) (h.unended hstart hj)

/-- The invariant carries the induction over the turns: the loop goes on only if the connection
is not closing. -/
lemma inputLoop_spec (n : ℕ) (hc : c.Sound) : Loops c (inputLoop n c handlers).1 := by
  induction n generalizing c handlers with
  | zero => exact loops_of_log_eq hc rfl
  | succ n ih =>
    rw [inputLoop]
    split_ifs with haw
    · exact loops_of_log_eq hc rfl
    · rw [Bool.not_eq_true] at haw
      split
      · next p rest hparse =>
          have hdispatch := loops_dispatch hc haw hparse handlers.head?.join
          dsimp only
          split_ifs with haw' hclosing
          · exact hdispatch
          · exact hdispatch
          · exact hdispatch.trans (ih hdispatch.sound) (Bool.not_eq_true _ ▸ hclosing)
      · next p rest hparse =>
          have hidle := hc.idle_of_parse haw hparse (by decide)
          exact loops_of_log_eq (hc.parsed haw hidle rest) rfl
      · next p rest hparse => exact loops_reject hc haw hparse

/-- A loop that finds a request dispatches or rejects it. -/
lemma Overruns.not_justified {n : ℕ} (h : c.Overruns) (hc : c.Sound) :
    ¬ Justified Unended (inputLoop (n + 1) c handlers).1.log := by
  obtain ⟨haw, hclosing, hfinds⟩ := h
  have hended := hc.closing.1 hclosing
  rw [inputLoop, if_neg (by simp [haw])]
  split
  · next p rest hparse =>
      have hdispatch := loops_dispatch hc haw hparse handlers.head?.join
      have hbad : ¬ Justified Unended
          ((c.parsed p rest).dispatchRequest handlers.head?.join).log := by
        intro hj
        obtain ⟨more, hmore⟩ := hdispatch.grows
        have hidle := hc.idle_of_parse haw hparse (by decide) (hmore ▸ hj).of_append
        rw [justified_dispatchRequest (c := c.parsed p rest) hidle] at hj
        exact hj.2 hended
      dsimp only
      split_ifs
      · exact hbad
      · exact hbad
      · obtain ⟨more, hmore⟩ := (inputLoop_spec n hdispatch.sound).grows
        rw [hmore]
        exact fun hj => hbad hj.of_append
  · next p rest hparse => exact absurd (by rw [hparse]) hfinds
  · next p rest hparse =>
      intro hj
      obtain ⟨hj, hend⟩ := justified_snoc_iff.1 hj
      have hturns := (hc.idle haw hj).imp_right And.left
      exact (InTurns.unended_iff hturns (by simp)).1 hend hended

end Loop

/-! ### Steps and runs -/

variable {calm calm' : Prop}

/-- What a step does with a log, given the condition under which it is in order. -/
structure Steps (c c' : HttpConnection) (calm : Prop) : Prop where
  sound : c'.Sound
  grows : ∃ more, c'.log = c.log ++ more
  unended : Justified Unended c.log → (Justified Unended c'.log ↔ calm)

lemma Quiet.steps (h : Quiet c c') (hc : c.Sound) (hcalm : calm) : Steps c c' calm := by
  refine ⟨h.sound hc, ⟨[], by rw [h.log, List.append_nil]⟩, fun hj => ?_⟩
  rw [h.log]
  exact iff_of_true hj hcalm

lemma Steps.congr (h : Steps c c' calm) (hiff : calm ↔ calm') : Steps c c' calm' :=
  ⟨h.sound, h.grows, fun hj => (h.unended hj).trans hiff⟩

/-- Events that need no justification do not matter. -/
lemma Steps.of_log {c'' : HttpConnection} {more : List ConnEvent} (h : Steps c' c'' calm)
    (hlog : c'.log = c.log ++ more) (hfree : ∀ ev ∈ more, ∀ log, Unended log ev) :
    Steps c c'' calm := by
  obtain ⟨more', hmore'⟩ := h.grows
  refine ⟨h.sound, ⟨more ++ more', by rw [hmore', hlog, List.append_assoc]⟩, fun hj => ?_⟩
  exact h.unended (hlog ▸ hj.append_free hfree)

lemma steps_processInput (hc : c.Sound) (handlers : List (Option HttpResponse)) (flush : Flush) :
    Steps c (c.processInput handlers flush) (¬ c.Overruns) := by
  have hloop : Loops c (inputLoop (c.parser.rank c.input + 1) c handlers).1 := inputLoop_spec _ hc
  have hquiet : Quiet (inputLoop (c.parser.rank c.input + 1) c handlers).1
      (c.processInput handlers flush) := by
    unfold processInput
    dsimp only
    split_ifs
    · exact quiet_refl
    · exact quiet_settle flush
  refine ⟨hquiet.sound hloop.sound, by rw [hquiet.log]; exact hloop.grows, fun hj => ?_⟩
  rw [hquiet.log]
  exact ⟨fun hj' hover => hover.not_justified hc hj', fun hover => hloop.unended hover hj⟩

lemma steps_onReadable (hc : c.Sound) (hclosed : c.closed = false) (data : List Char)
    (ending : ReadEnd) (handlers : List (Option HttpResponse)) (flush : Flush) :
    Steps c (c.onReadable data ending handlers flush)
      (c.Calm (.readable data ending handlers flush)) := by
  have hread : Quiet c { c with input := c.input ++ data } := ⟨rfl, rfl, rfl, rfl, rfl, rfl⟩
  cases ending with
  | fail => exact (hread.trans quiet_close).steps hc fun _ hne => absurd rfl hne
  | again =>
    have hsteps := steps_processInput (hread.sound hc) handlers flush
    refine (hsteps.of_log (c := c) (List.append_nil _).symm (by simp)).congr ?_
    simp [Overruns, Calm, hclosed]
  | eof =>
    have heof : Quiet c { c with input := c.input ++ data, peerClosed := true } :=
      ⟨rfl, rfl, rfl, rfl, rfl, rfl⟩
    have hsteps := steps_processInput (heof.sound hc) handlers flush
    refine (hsteps.of_log (c := c) (List.append_nil _).symm (by simp)).congr ?_
    simp [Overruns, Calm, hclosed]

lemma steps_completeResponse (hc : c.Sound) (hclosed : c.closed = false)
    (haw : c.awaitingResponse = true) (resp : HttpResponse)
    (handlers : List (Option HttpResponse)) (flush : Flush) :
    Steps c (c.completeResponse resp handlers flush) (c.Calm (.complete resp handlers flush)) := by
  have hsteps := steps_processInput (hc.answer haw resp) handlers flush
  refine (hsteps.of_log rfl (by simp [Unended])).congr ?_
  simp [Overruns, Calm, hclosed, HttpConnection.answer]

/-- Every step keeps the invariant and adds to the log, and it is in order if and only if it is
calm. -/
lemma steps_step (hc : c.Sound) {a : Act} (ha : AnswersOnce c a) :
    Steps c (c.step a) (c.Calm a) := by
  by_cases hclosed : c.closed = true
  · have hcalm : c.Calm a := by
      cases a <;> simp [Calm, hclosed]
    unfold step
    rw [if_pos hclosed]
    exact quiet_refl.steps hc hcalm
  · unfold step
    rw [if_neg hclosed]
    rw [Bool.not_eq_true] at hclosed
    cases a with
    | writable flush => exact (quiet_onWritable flush).steps hc trivial
    | error => exact quiet_close.steps hc trivial
    | readable data ending handlers flush =>
      exact steps_onReadable hc hclosed data ending handlers flush
    | complete resp handlers flush =>
      have haw := ha.resolve_left (by simp [hclosed])
      exact steps_completeResponse hc hclosed haw resp handlers flush

lemma sound_init : ({} : HttpConnection).Sound :=
  ⟨rfl, fun _ => ⟨.idle, .start, rfl⟩, by simp [Ended]⟩

/-- The run of a connection. -/
def run (acts : List Act) : HttpConnection := acts.foldl step {}

/-- A connection is ordered at the end of a run if and only if the run is calm. -/
theorem ordered_iff_calm {acts : List Act} (h : Machine.Along step AnswersOnce {} acts) :
    (run acts).Ordered ↔ Machine.Along step Calm {} acts := by
  have hkeep : ∀ c a, Sound c → AnswersOnce c a → Sound (c.step a) :=
    fun c a hc ha => (steps_step hc ha).sound
  have hsound : (run acts).Sound := Machine.Along.foldl_invariant hkeep sound_init h
  have hrun : Justified Unended (run acts).log ↔ Machine.Along step Calm {} acts := by
    refine Machine.Along.foldl_iff (I := Sound) (G := fun c => Justified Unended c.log) hkeep ?_ ?_
      sound_init justified_nil h
    · exact fun c a hc ha hj => (steps_step hc ha).unended hj
    · intro c a hc ha hj
      obtain ⟨more, hmore⟩ := (steps_step hc ha).grows
      rw [hmore]
      exact fun hj' => hj hj'.of_append
  rw [← hrun]
  refine ⟨fun ho => ho.unended, fun hj => ?_⟩
  obtain ⟨st, hturns, -⟩ := hsound.turns hj
  exact ⟨hsound.wire, ⟨st, hturns⟩, hj⟩

/-- Two requests in one read.  The first is answered at once, the second later, when the peer has
closed its side. -/
def pipelinedActs : List Act :=
  [.readable "GET /a HTTP/1.1\r\n\r\nGET /b HTTP/1.1\r\n\r\n".toList .again [some {}, none]
      ⟨0, false⟩,
    .writable ⟨7, false⟩, .readable [] .eof [] ⟨0, false⟩, .complete {} [] ⟨200, false⟩]

theorem ordered_pipelined :
    Machine.Along step AnswersOnce {} pipelinedActs ∧ (run pipelinedActs).Ordered :=
  have hallowed : Machine.Along step AnswersOnce {} pipelinedActs := by decide +kernel
  ⟨hallowed, (ordered_iff_calm hallowed).2 (by decide +kernel)⟩

/-- The peer asks to close the connection after its first request, whose answer is deferred. -/
def overrunActs : List Act :=
  [.readable "GET /a HTTP/1.1\r\nConnection: close\r\n\r\nGET /b HTTP/1.1\r\n\r\n".toList
      .again [none] ⟨0, false⟩,
    .complete {} [none] ⟨200, false⟩]

/-- The second request is dispatched nevertheless. -/
theorem closing_connection_dispatches :
    Machine.Along step AnswersOnce {} overrunActs ∧
      (∃ first second, first.keepAlive = false ∧ (run overrunActs).log
        = [.dispatched first, .answered {} false, .dispatched second]) ∧
      ¬ (run overrunActs).Ordered := by
  let first : HttpRequest :=
    { method := "GET".toList, target := "/a".toList, path := "/a".toList,
      headers := [⟨"Connection".toList, "close".toList⟩], keepAlive := false }
  let second : HttpRequest :=
    { method := "GET".toList, target := "/b".toList, path := "/b".toList }
  have hlog : (run overrunActs).log
      = [.dispatched first, .answered {} false, .dispatched second] := by decide +kernel
  refine ⟨by decide +kernel, ⟨first, second, rfl, hlog⟩, fun hordered => ?_⟩
  have hunended := hordered.unended [.dispatched first, .answered {} false] (.dispatched second) []
    hlog
  exact absurd (hunended.2 first (by simp)) (by decide)

end HttpConnection

end Codicis
