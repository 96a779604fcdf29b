/-
The reader of the requests that a helper initiates (`ipc/ingress_helper.cc`).

It reads in cycles: read until there is nothing more, then decode and hand over.  A cycle that
sees the end of the stream closes at once, and so what the helper wrote last is thrown away if
it comes together with the end.  `Lossless` says that it does not, and that nothing else ends the
stream: no write fails, the descriptor reports no error, and every record is decoded.  Then the
handler gets all requests of the stream, however the reads cut it.
-/
import Codicis.Ipc.HelperClient

namespace Codicis

open Descriptor

/-- Where the decode loop of `on_readable` is. -/
inductive IngressPhase
  /-- The event loop has control. -/
  | idle
  | decoding
  /-- The handler of a request has control. -/
  | handling
deriving DecidableEq, Repr

/-- The reader of the requests of a helper, with the bytes that it has read so far and the
requests that it has handed to the handler. -/
structure IngressHelper where
  input : List Char := []
  out : List Char := []
  closed : Bool := false
  phase : IngressPhase := .idle
  taken : List Char := []
  handed : List HelperMessage := []
deriving DecidableEq, Repr

namespace IngressHelper

/-- What the environment does. -/
inductive Act
  | readable (data : List Char) (ending : ReadEnd)
  | writable (flush : Flush)
  | error
  /-- The decode loop goes on. -/
  | proceed
  /-- The handler returns. -/
  | ret
  /-- A request is answered, by its handler or later. -/
  | reply (reqId : ℕ) (msg : HelperMessage) (flush : Flush)
deriving DecidableEq, Repr

def handleClose (g : IngressHelper) : IngressHelper := { g with closed := true }

/-- Flush the output buffer. -/
def onWritable (g : IngressHelper) (flush : Flush) : IngressHelper :=
  let g' : IngressHelper := { g with out := flush.left g.out }
  if flush.Breaks g.out then g'.handleClose else g'

/-- Read until there is nothing more, then decode. -/
def onReadable (g : IngressHelper) (data : List Char) (ending : ReadEnd) : IngressHelper :=
  let g' : IngressHelper := { g with input := g.input ++ data, taken := g.taken ++ data }
  match ending with
  | .again => { g' with phase := .decoding }
  | .eof | .fail => g'.handleClose

/-- A turn of the decode loop. -/
def decodeNext (codec : HelperCodec) (g : IngressHelper) : IngressHelper :=
  match codec.decode g.input with
  | .incomplete => { g with phase := .idle }
  | .error _ => { g with phase := .idle }.handleClose
  | .complete msg input =>
    { g with input := input, phase := .handling, handed := g.handed ++ [msg] }

/-- Queue a reply, with the id of its request. -/
def queueReply (codec : HelperCodec) (g : IngressHelper) (reqId : ℕ) (msg : HelperMessage)
    (flush : Flush) : IngressHelper :=
  if g.closed = true then g
  else onWritable { g with out := g.out ++ codec.encode { msg with reqId := reqId } } flush

/-- One step; what cannot be done in a state does nothing. -/
def step (codec : HelperCodec) (g : IngressHelper) (a : Act) : IngressHelper :=
  match g.phase, a with
  | .idle, .readable data ending => g.onReadable data ending
  | .idle, .writable flush => g.onWritable flush
  | .idle, .error => g.handleClose
  | .idle, .reply reqId msg flush => g.queueReply codec reqId msg flush
  | .decoding, .proceed => g.decodeNext codec
  | .handling, .reply reqId msg flush => g.queueReply codec reqId msg flush
  | .handling, .ret => { g with phase := if g.closed = true then .idle else .decoding }
  | _, _ => g

/-- A run of a reader. -/
def run (codec : HelperCodec) (acts : List Act) : IngressHelper := acts.foldl (step codec) {}

/-- The reads cut the stream, and its end is seen behind the last byte. -/
def Cuts (s : List Char) (g : IngressHelper) : Act → Prop
  | .readable data ending =>
    g.phase = .idle → g.taken ++ data <+: s ∧ (ending = .eof → g.taken ++ data = s)
  | _ => True

/-- Nothing ends the stream but its end, and no record comes together with it. -/
def Lossless (codec : HelperCodec) (g : IngressHelper) : Act → Prop
  | .readable data ending => g.phase = .idle → g.closed = false → ending ≠ .fail ∧
      (ending = .eof → codec.decode (g.input ++ data) = .incomplete)
  | .writable flush => g.phase = .idle → g.closed = false → ¬ flush.Breaks g.out
  | .error => g.phase = .idle → g.closed = true
  | .proceed => g.phase = .decoding → (codec.decode g.input).isError = false
  | .reply reqId msg flush =>
    g.closed = false → ¬ flush.Breaks (g.out ++ codec.encode { msg with reqId := reqId })
  | .ret => True

instance (s : List Char) (g : IngressHelper) (a : Act) : Decidable (g.Cuts s a) := by
  cases a <;> unfold Cuts <;> infer_instance

instance (codec : HelperCodec) (g : IngressHelper) (a : Act) : Decidable (g.Lossless codec a) := by
  cases a <;> unfold Lossless <;> infer_instance

/-- When the stream has ended, its requests have been handed over. -/
def Hands (codec : HelperCodec) (s : List Char) (g : IngressHelper) : Prop :=
  g.closed = true → g.handed = codec.records s

/-! ### A lossless run -/

variable {codec : HelperCodec} {s : List Char} {g g' : IngressHelper}

/-- What holds in a lossless run. -/
structure Whole (codec : HelperCodec) (s : List Char) (g : IngressHelper) : Prop where
  tracks : codec.Tracks g.taken g.input g.handed
  ended : g.closed = true → g.taken = s ∧ codec.records g.input = []

lemma Whole.hands (h : Whole codec s g) : g.Hands codec s := by
  intro hclosed
  obtain ⟨rfl, hrest⟩ := h.ended hclosed
  exact (h.tracks.records_eq hrest).symm

lemma Whole.onWritable (h : Whole codec s g) {flush : Flush}
    (hflush : g.closed = false → ¬ flush.Breaks g.out) : Whole codec s (g.onWritable flush) := by
  unfold IngressHelper.onWritable
  dsimp only
  split_ifs with hbreaks
  · have hclosed : g.closed = true := by
      by_contra hopen
      exact hflush (Bool.not_eq_true _ ▸ hopen) hbreaks
    exact ⟨h.tracks, fun _ => h.ended hclosed⟩
  · exact ⟨h.tracks, h.ended⟩

lemma Whole.queueReply (h : Whole codec s g) {reqId : ℕ} {msg : HelperMessage} {flush : Flush}
    (hflush : g.closed = false →
      ¬ flush.Breaks (g.out ++ codec.encode { msg with reqId := reqId })) :
    Whole codec s (g.queueReply codec reqId msg flush) := by
  unfold IngressHelper.queueReply
  split_ifs
  · exact h
  · refine Whole.onWritable ?_ hflush
    exact ⟨h.tracks, h.ended⟩

lemma Whole.onReadable (h : Whole codec s g) {data : List Char} {ending : ReadEnd}
    (hcuts : g.taken ++ data <+: s ∧ (ending = .eof → g.taken ++ data = s))
    (hloss : g.closed = false → ending ≠ .fail ∧
      (ending = .eof → codec.decode (g.input ++ data) = .incomplete)) :
    Whole codec s (g.onReadable data ending) := by
  have hread := h.tracks.read data
  -- behind the end of the stream nothing is read
  have hended : g.closed = true → g.taken ++ data = s ∧ codec.records (g.input ++ data) = [] := by
    intro hclosed
    obtain ⟨rfl, hrest⟩ := h.ended hclosed
    obtain rfl : data = [] := by simpa using hcuts.1.length_le
    simpa using hrest
  cases ending with
  | again => exact ⟨hread, hended⟩
  | eof =>
    refine ⟨hread, fun _ => ⟨hcuts.2 rfl, ?_⟩⟩
    by_cases hclosed : g.closed = true
    · exact (hended hclosed).2
    · exact HelperCodec.records_of_incomplete ((hloss (Bool.not_eq_true _ ▸ hclosed)).2 rfl)
  | fail =>
    refine ⟨hread, fun _ => hended ?_⟩
    by_contra hopen
    exact (hloss (Bool.not_eq_true _ ▸ hopen)).1 rfl

lemma Whole.decodeNext (h : Whole codec s g) (hvalid : (codec.decode g.input).isError = false) :
    Whole codec s (g.decodeNext codec) := by
  unfold IngressHelper.decodeNext
  split
  · exact ⟨h.tracks, h.ended⟩
  · next herr => simp [herr, TextHelperCodec.HelperDecode.isError] at hvalid
  · next msg input hmsg =>
      refine ⟨h.tracks.decode hmsg, fun hclosed => ?_⟩
      have hnone := (h.ended hclosed).2
      rw [HelperCodec.records_of_complete hmsg] at hnone
      cases hnone

lemma Whole.step (h : Whole codec s g) {a : Act} (hcuts : g.Cuts s a)
    (hloss : g.Lossless codec a) : Whole codec s (g.step codec a) := by
  unfold IngressHelper.step
  split
  · next hphase => exact h.onReadable (hcuts hphase) (hloss hphase)
  · next hphase => exact h.onWritable (hloss hphase)
  · next hphase => exact ⟨h.tracks, fun _ => h.ended (hloss hphase)⟩
  · exact h.queueReply hloss
  · next hphase => exact h.decodeNext (hloss hphase)
  · exact h.queueReply hloss
  · exact ⟨h.tracks, h.ended⟩
  · exact h

lemma hands_of_lossless {acts : List Act}
    (h : Machine.Along (step codec) (fun g a => g.Cuts s a ∧ g.Lossless codec a) {} acts) :
    (run codec acts).Hands codec s := by
  have hstart : Whole codec s {} := ⟨HelperCodec.tracks_start, by simp⟩
  exact (Machine.Along.foldl_invariant (fun g a hg ha => hg.step ha.1 ha.2) hstart h).hands

end IngressHelper

end Codicis
