/-
A stream of requests, in chunks.

`Consumes` describes what a turn of the parser consumes, and that nothing behind it matters.
So the requests and the place of the first error do not depend on how the stream is cut, but
for the two limits that the parser applies to input whose end it has not seen: a header block
is given up when the buffer is longer than the limit, although the bytes beyond it may be the
terminator, and a chunk-size line is given up after 1024 bytes, although it would be accepted
at any length if it came at once.  `packets_irrelevant_iff` says that this is the only
difference.
-/
import Codicis.Net.HttpParser

namespace Codicis

open Http

namespace HttpRequestParser

variable {p p' : HttpRequestParser} {v w c rest : List Char} {out : Option HttpRequest}

/-- What the connection makes of a turn: a complete request is taken, and the parser is
reset. -/
def Turn.toMove : Turn → Resumable.Move HttpRequestParser Char HttpRequest
  | .loop p rest => .go p rest none
  | .stop p rest .complete => .go p.reset rest (some p.request)
  | .stop p rest .incomplete => .wait p rest
  | .stop _ _ .error => .fail

/-- One turn of the parser in a stream of requests. -/
def step (p : HttpRequestParser) (v : List Char) :
    Resumable.Move HttpRequestParser Char HttpRequest := (p.turn v).toMove

/-- The bytes that a turn consumes, the parser after it, and the request that it completes. -/
inductive Consumes (p : HttpRequestParser) :
    List Char → HttpRequestParser → Option HttpRequest → Prop
  | head {block : List Char} {r : HttpRequest} {framing : Framing} (hs : p.state = .head)
      (hfirst : FirstAt crlfCrlf block) (hmax : block.length ≤ p.maxHeaderBytes)
      (hparse : parseHead p.maxBodyBytes block = .ok (r, framing)) :
      Consumes p (block ++ crlfCrlf) (p.afterHead r framing) none
  | bodyLength {bytes : List Char} (hs : p.state = .bodyLength)
      (hlen : bytes.length = p.bodyRemaining) :
      Consumes p bytes { p.addBody bytes with bodyRemaining := 0, state := .complete } none
  | lastSize {line : List Char} (hs : p.state = .bodyChunked) (hp : p.chunkPhase = .size)
      (hfirst : FirstAt crlf line) (hsize : parseHexSize line = some 0) :
      Consumes p (line ++ crlf) { p with chunkPhase := .trailer } none
  | size {line : List Char} {n : ℕ} (hs : p.state = .bodyChunked) (hp : p.chunkPhase = .size)
      (hfirst : FirstAt crlf line) (hsize : parseHexSize line = some n) (hn : n ≠ 0)
      (hmax : (p.bodyTotal + n) % 2 ^ 64 ≤ p.maxBodyBytes) :
      Consumes p (line ++ crlf) { p with bodyTotal := (p.bodyTotal + n) % 2 ^ 64,
                                         chunkRemaining := n, chunkPhase := .data } none
  | data {bytes : List Char} (hs : p.state = .bodyChunked) (hp : p.chunkPhase = .data)
      (hlen : bytes.length = p.chunkRemaining) :
      Consumes p bytes { p.addBody bytes with chunkRemaining := 0, chunkPhase := .dataCrlf } none
  | dataCrlf (hs : p.state = .bodyChunked) (hp : p.chunkPhase = .dataCrlf) :
      Consumes p crlf { p with chunkPhase := .size } none
  | trailer {line : List Char} (hs : p.state = .bodyChunked) (hp : p.chunkPhase = .trailer)
      (hfirst : FirstAt crlf line) (hline : line ≠ []) : Consumes p (line ++ crlf) p none
  | trailerEnd (hs : p.state = .bodyChunked) (hp : p.chunkPhase = .trailer) :
      Consumes p crlf { p with state := .complete } none
  | complete (hs : p.state = .complete) : Consumes p [] p.reset (some p.request)

/-! ### The turns of the states -/

lemma crlf_ne_nil : crlf ≠ [] := by decide

lemma crlfCrlf_ne_nil : crlfCrlf ≠ [] := by decide

section Turns

variable {block line : List Char} {r : HttpRequest} {framing : Framing} {n : ℕ}

lemma turnHead_of_cut (hcut : cutAt crlfCrlf v = some (block, rest))
    (hmax : block.length ≤ p.maxHeaderBytes)
    (hparse : parseHead p.maxBodyBytes block = .ok (r, framing)) :
    p.turnHead v = .loop (p.afterHead r framing) rest := by
  simp [turnHead, hcut, not_lt.2 hmax, hparse]

lemma turnBodyLength_of_le (h : p.bodyRemaining ≤ v.length) :
    p.turnBodyLength v = .loop { p.addBody (v.take p.bodyRemaining) with
        bodyRemaining := 0, state := .complete } (v.drop p.bodyRemaining) := by
  simp [turnBodyLength, Nat.min_eq_right h]

lemma turnBodyLength_of_lt (h : v.length < p.bodyRemaining) :
    p.turnBodyLength v = .stop { p.addBody v with bodyRemaining := p.bodyRemaining - v.length } []
      .incomplete := by
  simp [turnBodyLength, Nat.min_eq_left h.le, Nat.sub_pos_of_lt h]

lemma turnSize_zero (hcut : cutAt crlf v = some (line, rest)) (hsize : parseHexSize line = some 0) :
    p.turnSize v = .loop { p with chunkPhase := .trailer } rest := by
  simp [turnSize, hcut, hsize, takeSize]

lemma turnSize_of_cut (hcut : cutAt crlf v = some (line, rest))
    (hsize : parseHexSize line = some n) (hn : n ≠ 0)
    (hmax : (p.bodyTotal + n) % 2 ^ 64 ≤ p.maxBodyBytes) :
    p.turnSize v = .loop { p with bodyTotal := (p.bodyTotal + n) % 2 ^ 64, chunkRemaining := n,
                                  chunkPhase := .data } rest := by
  rw [turnSize, hcut]
  simp only [hsize]
  rw [takeSize, if_neg hn, if_neg (not_lt.2 hmax)]

lemma turnData_of_le (h : p.chunkRemaining ≤ v.length) :
    p.turnData v = .loop { p.addBody (v.take p.chunkRemaining) with
        chunkRemaining := 0, chunkPhase := .dataCrlf } (v.drop p.chunkRemaining) := by
  simp [turnData, Nat.min_eq_right h]

lemma turnData_of_lt (h : v.length < p.chunkRemaining) :
    p.turnData v = .stop { p.addBody v with chunkRemaining := p.chunkRemaining - v.length } []
      .incomplete := by
  simp [turnData, Nat.min_eq_left h.le, Nat.sub_pos_of_lt h]

lemma turnTrailer_of_cut (hcut : cutAt crlf v = some (line, rest)) :
    p.turnTrailer v = .loop (if line = [] then { p with state := .complete } else p) rest := by
  simp [turnTrailer, hcut]

end Turns

/-- A line that ends here ends here whatever follows. -/
lemma cutAt_line_end {line : List Char} (hfirst : FirstAt crlf line) (w : List Char) :
    cutAt crlf (line ++ crlf ++ w) = some (line, w) :=
  (cutAt_eq_some_iff crlf_ne_nil).2 ⟨rfl, hfirst⟩

lemma step_head (hs : p.state = .head) : p.step v = (p.turnHead v).toMove := by
  simp only [step, turn, hs]

lemma step_bodyLength (hs : p.state = .bodyLength) : p.step v = (p.turnBodyLength v).toMove := by
  simp only [step, turn, hs]

lemma step_size (hs : p.state = .bodyChunked) (hp : p.chunkPhase = .size) :
    p.step v = (p.turnSize v).toMove := by
  simp only [step, turn, hs, hp]

lemma step_data (hs : p.state = .bodyChunked) (hp : p.chunkPhase = .data) :
    p.step v = (p.turnData v).toMove := by
  simp only [step, turn, hs, hp]

lemma step_dataCrlf (hs : p.state = .bodyChunked) (hp : p.chunkPhase = .dataCrlf) :
    p.step v = (p.turnDataCrlf v).toMove := by
  simp only [step, turn, hs, hp]

lemma step_trailer (hs : p.state = .bodyChunked) (hp : p.chunkPhase = .trailer) :
    p.step v = (p.turnTrailer v).toMove := by
  simp only [step, turn, hs, hp]

lemma step_complete (hs : p.state = .complete) : p.step v = .go p.reset v (some p.request) := by
  simp only [step, turn, hs, Turn.toMove]

lemma step_error (hs : p.state = .error) : p.step v = .fail := by
  simp only [step, turn, hs, Turn.toMove]

/-- What a turn consumes decides it. -/
lemma Consumes.step_eq (h : Consumes p c p' out) (w : List Char) :
    p.step (c ++ w) = .go p' w out := by
  cases h with
  | head hs hfirst hmax hparse =>
    rw [step_head hs,
      turnHead_of_cut ((cutAt_eq_some_iff crlfCrlf_ne_nil).2 ⟨rfl, hfirst⟩) hmax hparse]
    rfl
  | bodyLength hs hlen =>
    rw [step_bodyLength hs, turnBodyLength_of_le (by simp [← hlen]), ← hlen, List.take_left,
      List.drop_left]
    rfl
  | lastSize hs hp hfirst hsize =>
    rw [step_size hs hp, turnSize_zero (cutAt_line_end hfirst w) hsize]
    rfl
  | size hs hp hfirst hsize hn hmax =>
    rw [step_size hs hp, turnSize_of_cut (cutAt_line_end hfirst w) hsize hn hmax]
    rfl
  | data hs hp hlen =>
    rw [step_data hs hp, turnData_of_le (by simp [← hlen]), ← hlen, List.take_left,
      List.drop_left]
    rfl
  | dataCrlf hs hp =>
    rw [step_dataCrlf hs hp]
    rfl
  | trailer hs hp hfirst hline =>
    rw [step_trailer hs hp, turnTrailer_of_cut (cutAt_line_end hfirst w), if_neg hline]
    rfl
  | trailerEnd hs hp =>
    have hcut : cutAt crlf (crlf ++ w) = some ([], w) := cutAt_line_end firstAt_nil w
    rw [step_trailer hs hp, turnTrailer_of_cut hcut, if_pos rfl]
    rfl
  | complete hs => exact step_complete hs

/-- What a turn makes of the bytes of the buffer.  A turn that goes on has consumed some of them.  A
waiting one has done nothing, or all bytes went into the body.  A failed one stays so when more
bytes come, or the parser has given up on input whose end it has not seen. -/
def Explains (p : HttpRequestParser) (v : List Char) :
    Resumable.Move HttpRequestParser Char HttpRequest → Prop
  | .go p' rest out => ∃ c, v = c ++ rest ∧ Consumes p c p' out
  | .wait p' rest => (p' = p ∧ rest = v) ∨
    (p.state = .bodyLength ∧ v.length < p.bodyRemaining ∧
      p' = { p.addBody v with bodyRemaining := p.bodyRemaining - v.length } ∧ rest = []) ∨
    (p.state = .bodyChunked ∧ p.chunkPhase = .data ∧ v.length < p.chunkRemaining ∧
      p' = { p.addBody v with chunkRemaining := p.chunkRemaining - v.length } ∧ rest = [])
  | .fail => (∀ w, p.step (v ++ w) = .fail) ∨
    (p.state = .head ∧ cutAt crlfCrlf v = none ∧ p.maxHeaderBytes < v.length) ∨
    (p.state = .bodyChunked ∧ p.chunkPhase = .size ∧ cutAt crlf v = none ∧ 1024 < v.length)

lemma explains_head (hs : p.state = .head) : p.Explains v (p.turnHead v).toMove := by
  cases hcut : cutAt crlfCrlf v with
  | none =>
    simp only [turnHead, hcut]
    split_ifs with hmax
    · exact .inr (.inl ⟨hs, hcut, hmax⟩)
    · exact .inl ⟨rfl, rfl⟩
  | some br =>
    have hmore := fun w => cutAt_append crlfCrlf_ne_nil hcut w
    obtain ⟨hv, hfirst⟩ := (cutAt_eq_some_iff crlfCrlf_ne_nil).1 hcut
    simp only [turnHead, hcut]
    split_ifs with hmax
    · refine .inl fun w => ?_
      simp only [step_head hs, turnHead, hmore w, if_pos hmax]
      rfl
    · cases hparse : parseHead p.maxBodyBytes br.1 with
      | error msg =>
        refine .inl fun w => ?_
        simp only [step_head hs, turnHead, hmore w, if_neg hmax, hparse]
        rfl
      | ok rf => exact ⟨_, hv, .head hs hfirst (not_lt.1 hmax) hparse⟩

lemma explains_size (hs : p.state = .bodyChunked) (hp : p.chunkPhase = .size) :
    p.Explains v (p.turnSize v).toMove := by
  cases hcut : cutAt crlf v with
  | none =>
    simp only [turnSize, hcut]
    split_ifs with hmax
    · exact .inr (.inr ⟨hs, hp, hcut, hmax⟩)
    · exact .inl ⟨rfl, rfl⟩
  | some br =>
    have hmore := fun w => cutAt_append crlf_ne_nil hcut w
    obtain ⟨hv, hfirst⟩ := (cutAt_eq_some_iff crlf_ne_nil).1 hcut
    cases hsize : parseHexSize br.1 with
    | none =>
      simp only [turnSize, hcut, hsize]
      refine .inl fun w => ?_
      simp only [step_size hs hp, turnSize, hmore w, hsize]
      rfl
    | some n =>
      simp only [turnSize, hcut, hsize, takeSize]
      split_ifs with hn hmax
      · exact ⟨_, hv, .lastSize hs hp hfirst (hn ▸ hsize)⟩
      · refine .inl fun w => ?_
        simp only [step_size hs hp, turnSize, hmore w, hsize, takeSize, if_neg hn, if_pos hmax]
        rfl
      · exact ⟨_, hv, .size hs hp hfirst hsize hn (not_lt.1 hmax)⟩

lemma explains_dataCrlf (hs : p.state = .bodyChunked) (hp : p.chunkPhase = .dataCrlf) :
    p.Explains v (p.turnDataCrlf v).toMove := by
  unfold turnDataCrlf
  split
  · next c d rest =>
      split_ifs with hcd
      · refine .inl fun w => ?_
        rw [step_dataCrlf hs hp, List.cons_append, List.cons_append, turnDataCrlf, if_pos hcd]
        rfl
      · rw [not_or, not_not, not_not] at hcd
        obtain ⟨rfl, rfl⟩ := hcd
        exact ⟨crlf, rfl, .dataCrlf hs hp⟩
  · exact .inl ⟨rfl, rfl⟩

lemma explains_trailer (hs : p.state = .bodyChunked) (hp : p.chunkPhase = .trailer) :
    p.Explains v (p.turnTrailer v).toMove := by
  cases hcut : cutAt crlf v with
  | none =>
    simp only [turnTrailer, hcut]
    exact .inl ⟨rfl, rfl⟩
  | some br =>
    obtain ⟨rfl, hfirst⟩ := (cutAt_eq_some_iff crlf_ne_nil).1 hcut
    simp only [turnTrailer, hcut]
    split_ifs with hline
    · exact ⟨crlf, by simp [hline], .trailerEnd hs hp⟩
    · exact ⟨_, rfl, .trailer hs hp hfirst hline⟩

lemma explains_step (p : HttpRequestParser) (v : List Char) : p.Explains v (p.step v) := by
  cases hs : p.state with
  | head => exact step_head hs ▸ explains_head hs
  | bodyLength =>
    rw [step_bodyLength hs]
    rcases le_or_gt p.bodyRemaining v.length with hlen | hlen
    · rw [turnBodyLength_of_le hlen]
      exact ⟨v.take p.bodyRemaining, (List.take_append_drop _ _).symm,
        .bodyLength hs (by simp [hlen])⟩
    · rw [turnBodyLength_of_lt hlen]
      exact .inr (.inl ⟨hs, hlen, rfl, rfl⟩)
  | bodyChunked =>
    cases hp : p.chunkPhase with
    | size => exact step_size hs hp ▸ explains_size hs hp
    | data =>
      rw [step_data hs hp]
      rcases le_or_gt p.chunkRemaining v.length with hlen | hlen
      · rw [turnData_of_le hlen]
        exact ⟨v.take p.chunkRemaining, (List.take_append_drop _ _).symm,
          .data hs hp (by simp [hlen])⟩
      · rw [turnData_of_lt hlen]
        exact .inr (.inr ⟨hs, hp, hlen, rfl, rfl⟩)
    | dataCrlf => exact step_dataCrlf hs hp ▸ explains_dataCrlf hs hp
    | trailer => exact step_trailer hs hp ▸ explains_trailer hs hp
  | complete =>
    rw [step_complete hs]
    exact ⟨[], rfl, .complete hs⟩
  | error =>
    rw [step_error hs]
    exact .inl fun w => step_error hs

/-- What the outcome of a turn says. -/
lemma explains_of_step {m : Resumable.Move HttpRequestParser Char HttpRequest}
    (h : p.step v = m) : p.Explains v m := h ▸ p.explains_step v

theorem step_eq_go_iff : p.step v = .go p' rest out ↔ ∃ c, v = c ++ rest ∧ Consumes p c p' out :=
  ⟨explains_of_step, fun ⟨_, hv, hc⟩ => hv ▸ hc.step_eq rest⟩

/-! ### The parser of a stream -/

lemma Consumes.rank_lt (h : Consumes p c p' out) (w : List Char) :
    p'.rank w < p.rank (c ++ w) := by
  have hpad : ∀ q : HttpRequestParser, q.rank w ≤ 3 * w.length + 2 := by
    intro q
    unfold rank
    split <;> first | omega | (split_ifs <;> omega)
  have hcrlf : crlf.length = 2 := rfl
  have hcrlf2 : crlfCrlf.length = 4 := rfl
  have hle := hpad p'
  cases h with
  | head hs hfirst hmax hparse =>
    simp only [rank, hs, List.length_append] at hle ⊢
    omega
  | bodyLength hs hlen =>
    simp only [rank, hs, List.length_append]
    omega
  | lastSize hs hp | dataCrlf hs hp | trailer hs hp | trailerEnd hs hp =>
    simp only [rank, hs, hp, List.length_append, reduceCtorEq, if_false]
    omega
  | size hs hp hfirst hsize hn hmax =>
    simp only [rank, hs, hp, List.length_append, reduceCtorEq, if_false, if_true]
    omega
  | data hs hp hlen =>
    simp only [rank, addBody, hs, hp, List.length_append, reduceCtorEq, if_false, if_true]
    omega
  | complete hs =>
    simp only [rank, reset, hs, List.nil_append]
    omega

/-- Parsing again and again, with a reset after each complete request. -/
def machine : Resumable.Parser HttpRequestParser Char HttpRequest where
  turn := step
  measure := rank
  decreases := by
    intro p v p' rest out h
    obtain ⟨c, rfl, hc⟩ := step_eq_go_iff.1 h
    exact hc.rank_lt rest

/-- A turn on the line to a limit: what it consumes is accepted, but it would not be if the
last byte had come later. -/
def Tight (p : HttpRequestParser) (v : List Char) : Prop :=
  ∃ c p' out, c <+: v ∧ Consumes p c p' out ∧
    ((p.state = .head ∧ p.maxHeaderBytes + 1 < c.length) ∨
      (p.state = .bodyChunked ∧ p.chunkPhase = .size ∧ 1025 < c.length))

/-! ### More bytes behind the buffer -/

@[simp] lemma addBody_nil (p : HttpRequestParser) : p.addBody [] = p := by
  simp [addBody]

lemma take_append_of_lt {n : ℕ} (h : v.length < n) :
    (v ++ w).take n = v ++ w.take (n - v.length) := by
  rw [List.take_append, List.take_of_length_le h.le]

lemma drop_append_of_lt {n : ℕ} (h : v.length < n) : (v ++ w).drop n = w.drop (n - v.length) := by
  rw [List.drop_append, List.drop_eq_nil_of_le h.le, List.nil_append]

/-- Bytes of a body of known length might as well have come later. -/
lemma step_bodyLength_append (hs : p.state = .bodyLength) (hlen : v.length < p.bodyRemaining)
    (hp' : p' = { p.addBody v with bodyRemaining := p.bodyRemaining - v.length }) :
    p.step (v ++ w) = p'.step w ∧ p'.step w ≠ .fail := by
  have hs' : p'.state = .bodyLength := hp' ▸ hs
  rw [step_bodyLength hs, step_bodyLength hs']
  by_cases hw : p.bodyRemaining ≤ (v ++ w).length
  · have hw' : p'.bodyRemaining ≤ w.length := by
      simp only [hp', List.length_append] at hw ⊢
      omega
    rw [turnBodyLength_of_le hw, turnBodyLength_of_le hw', take_append_of_lt hlen,
      drop_append_of_lt hlen]
    exact ⟨by simp [hp', addBody, Turn.toMove], by simp [Turn.toMove]⟩
  · have hw' : w.length < p'.bodyRemaining := by
      simp only [hp', List.length_append] at hw ⊢
      omega
    rw [turnBodyLength_of_lt (not_le.1 hw), turnBodyLength_of_lt hw']
    exact ⟨by simp [hp', addBody, Turn.toMove, Nat.sub_sub], by simp [Turn.toMove]⟩

/-- The same for the data of a chunk. -/
lemma step_data_append (hs : p.state = .bodyChunked) (hp : p.chunkPhase = .data)
    (hlen : v.length < p.chunkRemaining)
    (hp' : p' = { p.addBody v with chunkRemaining := p.chunkRemaining - v.length }) :
    p.step (v ++ w) = p'.step w ∧ p'.step w ≠ .fail := by
  have hs' : p'.state = .bodyChunked := hp' ▸ hs
  have hphase' : p'.chunkPhase = .data := hp' ▸ hp
  rw [step_data hs hp, step_data hs' hphase']
  by_cases hw : p.chunkRemaining ≤ (v ++ w).length
  · have hw' : p'.chunkRemaining ≤ w.length := by
      simp only [hp', List.length_append] at hw ⊢
      omega
    rw [turnData_of_le hw, turnData_of_le hw', take_append_of_lt hlen, drop_append_of_lt hlen]
    exact ⟨by simp [hp', addBody, Turn.toMove], by simp [Turn.toMove]⟩
  · have hw' : w.length < p'.chunkRemaining := by
      simp only [hp', List.length_append] at hw ⊢
      omega
    rw [turnData_of_lt (not_le.1 hw), turnData_of_lt hw']
    exact ⟨by simp [hp', addBody, Turn.toMove, Nat.sub_sub], by simp [Turn.toMove]⟩

/-- A header block that was given up is given up again, or it is on the line. -/
lemma step_head_append (hs : p.state = .head) (hcut : cutAt crlfCrlf v = none)
    (hmax : p.maxHeaderBytes < v.length) (w : List Char) :
    p.step (v ++ w) = .fail ∨ Tight p (v ++ w) := by
  rw [step_head hs, turnHead]
  cases hcut' : cutAt crlfCrlf (v ++ w) with
  | none =>
    left
    simp only
    rw [if_pos (by rw [List.length_append]; omega)]
    rfl
  | some br =>
    obtain ⟨block, rest⟩ := br
    have hlt := length_lt_of_cutAt crlfCrlf_ne_nil hcut hcut'
    obtain ⟨heq, hfirst⟩ := (cutAt_eq_some_iff crlfCrlf_ne_nil).1 hcut'
    simp only
    split_ifs with hblock
    · exact .inl rfl
    · cases hparse : parseHead p.maxBodyBytes block with
      | error msg => exact .inl rfl
      | ok rf =>
        right
        refine ⟨block ++ crlfCrlf, _, none, ⟨rest, heq.symm⟩,
          .head hs hfirst (not_lt.1 hblock) hparse, .inl ⟨hs, ?_⟩⟩
        rw [List.length_append]
        omega

/-- The same for the line with the size of a chunk. -/
lemma step_size_append (hs : p.state = .bodyChunked) (hp : p.chunkPhase = .size)
    (hcut : cutAt crlf v = none) (hmax : 1024 < v.length) (w : List Char) :
    p.step (v ++ w) = .fail ∨ Tight p (v ++ w) := by
  rw [step_size hs hp, turnSize]
  cases hcut' : cutAt crlf (v ++ w) with
  | none =>
    left
    simp only
    rw [if_pos (by rw [List.length_append]; omega)]
    rfl
  | some br =>
    obtain ⟨line, rest⟩ := br
    have hlt := length_lt_of_cutAt crlf_ne_nil hcut hcut'
    obtain ⟨heq, hfirst⟩ := (cutAt_eq_some_iff crlf_ne_nil).1 hcut'
    have hlen : 1025 < (line ++ crlf).length := by rw [List.length_append]; omega
    cases hsize : parseHexSize line with
    | none =>
      simp only [hsize]
      exact .inl rfl
    | some n =>
      simp only [hsize]
      unfold takeSize
      split_ifs with hn hbody
      · exact .inr ⟨line ++ crlf, _, none, ⟨rest, heq.symm⟩,
          .lastSize hs hp hfirst (hn ▸ hsize), .inr ⟨hs, hp, hlen⟩⟩
      · exact .inl rfl
      · exact .inr ⟨line ++ crlf, _, none, ⟨rest, heq.symm⟩,
          .size hs hp hfirst hsize hn (not_lt.1 hbody), .inr ⟨hs, hp, hlen⟩⟩

/-- Short of the limits, how the bytes come in does not matter. -/
theorem splits : machine.Splits Tight where
  go := by
    intro p v p' rest out h
    obtain ⟨c, rfl, hc⟩ := step_eq_go_iff.1 h
    refine ⟨by simp, fun w => ?_⟩
    rw [List.append_assoc]
    exact hc.step_eq (rest ++ w)
  wait := by
    intro p v p' rest h
    rcases explains_of_step h with h | ⟨hs, hlen, hp', rfl⟩ | ⟨hs, hp, hlen, hp', rfl⟩
    · exact .inl h
    · refine .inr ⟨rfl, ?_, fun w _ => step_bodyLength_append hs hlen hp'⟩
      have hpos : ([] : List Char).length < p'.bodyRemaining := by
        rw [hp']
        exact Nat.sub_pos_of_lt hlen
      show p'.step [] = _
      rw [step_bodyLength (hp' ▸ hs), turnBodyLength_of_lt hpos, addBody_nil]
      rfl
    · refine .inr ⟨rfl, ?_, fun w _ => step_data_append hs hp hlen hp'⟩
      have hpos : ([] : List Char).length < p'.chunkRemaining := by
        rw [hp']
        exact Nat.sub_pos_of_lt hlen
      show p'.step [] = _
      rw [step_data (hp' ▸ hs) (hp' ▸ hp), turnData_of_lt hpos, addBody_nil]
      rfl
  fail := by
    intro p v h w
    rcases explains_of_step h with h | ⟨hs, hcut, hmax⟩ | ⟨hs, hp, hcut, hmax⟩
    · exact .inl (h w)
    · exact step_head_append hs hcut hmax w
    · exact step_size_append hs hp hcut hmax w
  mono := by
    rintro p v ⟨c, p', out, hpre, hc⟩ w
    exact ⟨c, p', out, hpre.trans (List.prefix_append v w), hc⟩

lemma isLocal : machine.Local := by
  intro p v p' rest out h
  obtain ⟨c, rfl, hc⟩ := step_eq_go_iff.1 h
  exact ⟨c, rfl, fun r _ => hc.step_eq r⟩

lemma Consumes.of_head (h : Consumes p c p' out) (hs : p.state = .head) :
    ∃ block, c = block ++ crlfCrlf ∧ FirstAt crlfCrlf block := by
  cases h with
  | head _ hfirst => exact ⟨_, rfl, hfirst⟩
  | _ => simp_all

lemma Consumes.of_size (h : Consumes p c p' out) (hs : p.state = .bodyChunked)
    (hp : p.chunkPhase = .size) : ∃ line, c = line ++ crlf ∧ FirstAt crlf line := by
  cases h with
  | lastSize _ _ hfirst => exact ⟨_, rfl, hfirst⟩
  | size _ _ hfirst => exact ⟨_, rfl, hfirst⟩
  | _ => simp_all

/-- On the line to a limit the parser is hasty. -/
lemma hasty_of_tight (h : Tight p v) : machine.Hasty p v := by
  obtain ⟨c, p', out, ⟨w, rfl⟩, hc, hlimit⟩ := h
  have hne : c ≠ [] := by
    rintro rfl
    rcases hlimit with ⟨-, hlen⟩ | ⟨-, -, hlen⟩ <;> simp at hlen
  refine ⟨⟨c.dropLast, ?_, ?_⟩, p', w, out, hc.step_eq w, ?_⟩
  · exact (List.dropLast_prefix c).trans (List.prefix_append c w)
  · show p.step c.dropLast = .fail
    rcases hlimit with ⟨hs, hlen⟩ | ⟨hs, hp, hlen⟩
    · obtain ⟨block, rfl, hfirst⟩ := hc.of_head hs
      rw [step_head hs, turnHead, cutAt_dropLast crlfCrlf_ne_nil hfirst]
      simp only
      rw [if_pos (by rw [List.length_dropLast]; omega)]
      rfl
    · obtain ⟨line, rfl, hfirst⟩ := hc.of_size hs hp
      rw [step_size hs hp, turnSize, cutAt_dropLast crlf_ne_nil hfirst]
      simp only
      rw [if_pos (by rw [List.length_dropLast]; omega)]
      rfl
  · have := List.length_pos_of_ne_nil hne
    rw [List.length_append]
    omega

/-- A parser for a new connection. -/
def fresh (maxHeaderBytes maxBodyBytes : ℕ) : HttpRequestParser :=
  { maxHeaderBytes := maxHeaderBytes, maxBodyBytes := maxBodyBytes }

/-- The requests and the place of the first error do not depend on how the stream is cut
exactly if the parser, when it has the whole stream, never comes to the line to a limit. -/
theorem packets_irrelevant_iff (maxHeaderBytes maxBodyBytes : ℕ) (stream : List Char) :
    (∀ chunks chunks' : List (List Char), chunks.flatten = stream → chunks'.flatten = stream →
      (machine.feedAll (fresh maxHeaderBytes maxBodyBytes) chunks).shows
        = (machine.feedAll (fresh maxHeaderBytes maxBodyBytes) chunks').shows) ↔
      machine.Smooth Tight (fresh maxHeaderBytes maxBodyBytes) stream := by
  have hidle : machine.turn (fresh maxHeaderBytes maxBodyBytes) []
      = .wait (fresh maxHeaderBytes maxBodyBytes) [] := by
    rfl
  constructor
  · intro h p' v' hvisit htight
    obtain ⟨c, d, rfl, hne⟩ :=
      Resumable.Parser.exists_cut_of_visits isLocal hvisit (hasty_of_tight htight)
    refine hne ?_
    simpa [Resumable.Parser.feedAll, Resumable.Parser.feed_start] using
      h [c, d] [c ++ d] (by simp) (by simp)
  · intro h chunks chunks' hchunks hchunks'
    rw [splits.feedAll_eq hidle (hchunks ▸ h), splits.feedAll_eq hidle (hchunks' ▸ h), hchunks,
      hchunks']

/-- A header block as long as the limit, at once and without its last byte. -/
theorem packets_matter_at_limit :
    (machine.feedAll (fresh 14 100) ["GET / HTTP/1.1\r\n\r\n".toList]).shows
      = ([{ method := "GET".toList, target := "/".toList, path := "/".toList }], none) ∧
    (machine.feedAll (fresh 14 100) ["GET / HTTP/1.1\r\n\r".toList, "\n".toList]).shows
      = ([], some 0) := by
  constructor <;> decide +kernel

/-! ### The loop of `parse` -/

lemma turn_of_loop (hturn : p.turn v = .loop p' rest) : machine.turn p v = .go p' rest none := by
  show p.step v = _
  rw [step, hturn]
  rfl

lemma rank_lt_of_loop (hturn : p.turn v = .loop p' rest) : p'.rank rest < p.rank v :=
  machine.decreases (turn_of_loop hturn)

lemma parseFuel_congr {n m : ℕ} (hn : p.rank v < n) (hm : p.rank v < m) :
    parseFuel n p v = parseFuel m p v := by
  induction n generalizing m p v with
  | zero => omega
  | succ n ih =>
    obtain ⟨m, rfl⟩ : ∃ k, m = k + 1 := ⟨m - 1, by omega⟩
    rw [parseFuel, parseFuel]
    cases hturn : p.turn v with
    | stop p' rest progress => rfl
    | loop p' rest =>
      have hlt := rank_lt_of_loop hturn
      exact ih (by omega) (by omega)

lemma parse_of_loop (hturn : p.turn v = .loop p' rest) : p.parse v = p'.parse rest := by
  rw [parse, parseFuel, hturn]
  exact parseFuel_congr (rank_lt_of_loop hturn) (Nat.lt_succ_self _)

lemma parse_of_stop {progress : Progress} (hturn : p.turn v = .stop p' rest progress) :
    p.parse v = (p', rest, progress) := by
  rw [parse, parseFuel, hturn]

/-- A call of `parse` ends with a turn that stops. -/
lemma exists_turn_of_parse (p : HttpRequestParser) (v : List Char) :
    ∃ (q : HttpRequestParser) (w : List Char),
      q.turn w = .stop (p.parse v).1 (p.parse v).2.1 (p.parse v).2.2 ∧ q.rank w ≤ p.rank v := by
  induction hn : p.rank v using Nat.strong_induction_on generalizing p v with
  | _ n ih =>
    cases hturn : p.turn v with
    | loop p' rest =>
      have hlt := rank_lt_of_loop hturn
      obtain ⟨q, w, hstop, hle⟩ := ih _ (hn ▸ hlt) p' rest rfl
      rw [parse_of_loop hturn]
      exact ⟨q, w, hstop, by omega⟩
    | stop p' rest progress =>
      rw [parse_of_stop hturn]
      exact ⟨p, v, hturn, hn.le⟩

/-- A turn that gives up has set the error state and left the request as it is. -/
lemma turn_eq_error (h : p.turn v = .stop p' rest .error) :
    p'.state = .error ∧ p'.request = p.request ∧ p'.maxBodyBytes = p.maxBodyBytes := by
  have hfail : ∀ q u msg, fail q u msg = .stop p' rest .error → q.request = p.request →
      q.maxBodyBytes = p.maxBodyBytes →
        p'.state = .error ∧ p'.request = p.request ∧ p'.maxBodyBytes = p.maxBodyBytes := by
    intro q u msg hq hr hm
    obtain ⟨rfl, -, -⟩ := Turn.stop.inj hq
    exact ⟨rfl, hr, hm⟩
  cases hs : p.state with
  | head =>
    simp only [turn, hs, turnHead] at h
    split at h
    · split_ifs at h
      · exact hfail _ _ _ h rfl rfl
      · cases h
    · split_ifs at h
      · exact hfail _ _ _ h rfl rfl
      · split at h
        · exact hfail _ _ _ h rfl rfl
        · cases h
  | bodyLength =>
    simp only [turn, hs, turnBodyLength] at h
    split_ifs at h
    cases h
  | bodyChunked =>
    cases hp : p.chunkPhase with
    | size =>
      simp only [turn, hs, hp, turnSize] at h
      split at h
      · split_ifs at h
        · exact hfail _ _ _ h rfl rfl
        · cases h
      · split at h
        · exact hfail _ _ _ h rfl rfl
        · unfold takeSize at h
          split_ifs at h
          exact hfail _ _ _ h rfl rfl
    | data =>
      simp only [turn, hs, hp, turnData] at h
      split_ifs at h
      cases h
    | dataCrlf =>
      simp only [turn, hs, hp] at h
      unfold turnDataCrlf at h
      split at h
      · split_ifs at h
        exact hfail _ _ _ h rfl rfl
      · cases h
    | trailer =>
      simp only [turn, hs, hp, turnTrailer] at h
      split at h <;> cases h
  | complete =>
    simp only [turn, hs] at h
    cases h
  | error =>
    simp only [turn, hs] at h
    obtain ⟨rfl, -, -⟩ := Turn.stop.inj h
    exact ⟨hs, rfl, rfl⟩

lemma state_of_parse_error (h : p.parse v = (p', rest, .error)) : p'.state = .error := by
  obtain ⟨q, w, hstop, -⟩ := exists_turn_of_parse p v
  rw [h] at hstop
  exact (turn_eq_error hstop).1

lemma parse_of_state_error (h : p.state = .error) : p.parse v = (p, v, .error) :=
  parse_of_stop (by simp only [turn, h])

/-! ### Pipelined requests -/

/-- No turn changes the limits. -/
lemma Consumes.limits (h : Consumes p c p' out) :
    p'.maxHeaderBytes = p.maxHeaderBytes ∧ p'.maxBodyBytes = p.maxBodyBytes := by
  cases h with
  | @head block r framing => cases framing <;> exact ⟨rfl, rfl⟩
  | _ => exact ⟨rfl, rfl⟩

/-- What a turn consumes does not depend on what follows. -/
lemma exists_consumed_of_loop (hturn : p.turn v = .loop p' rest) :
    ∃ c, v = c ++ rest ∧ Consumes p c p' none ∧ ∀ t, p.turn (c ++ t) = .loop p' t := by
  obtain ⟨c, hv, hc⟩ := explains_of_step (turn_of_loop hturn)
  refine ⟨c, hv, hc, fun t => ?_⟩
  have hstep := hc.step_eq t
  rw [step] at hstep
  cases hq : p.turn (c ++ t) with
  | loop q u =>
    rw [hq] at hstep
    obtain ⟨rfl, rfl, -⟩ := Resumable.Move.go.inj hstep
    rfl
  | stop q u progress =>
    rw [hq] at hstep
    cases progress <;> simp [Turn.toMove] at hstep

lemma turn_eq_complete (hturn : p.turn v = .stop p' rest .complete) :
    p.state = .complete ∧ p' = p ∧ rest = v := by
  have hstep : p.step v = .go p'.reset rest (some p'.request) := by
    rw [step, hturn]
    rfl
  obtain ⟨c, -, hc⟩ := explains_of_step hstep
  have hs : p.state = .complete := by
    generalize p'.reset = q at hc
    generalize hout : some p'.request = out at hc
    cases hc with
    | complete hs => exact hs
    | _ => cases hout
  simp only [turn, hs] at hturn
  obtain ⟨rfl, rfl, -⟩ := Turn.stop.inj hturn
  exact ⟨hs, rfl, rfl⟩

lemma parse_complete_append (h : p.parse v = (p', rest, .complete)) :
    ∃ u, v = u ++ rest ∧ (∀ t, p.parse (u ++ t) = (p', t, .complete)) ∧
      p'.maxHeaderBytes = p.maxHeaderBytes ∧ p'.maxBodyBytes = p.maxBodyBytes := by
  induction hn : p.rank v using Nat.strong_induction_on generalizing p v with
  | _ n ih =>
    cases hturn : p.turn v with
    | loop q w =>
      obtain ⟨c, rfl, hc, happ⟩ := exists_consumed_of_loop hturn
      rw [parse_of_loop hturn] at h
      obtain ⟨u, rfl, hu, hhead, hbody⟩ := ih _ (hn ▸ rank_lt_of_loop hturn) h rfl
      refine ⟨c ++ u, (List.append_assoc c u rest).symm, fun t => ?_, hhead.trans hc.limits.1,
        hbody.trans hc.limits.2⟩
      rw [List.append_assoc, parse_of_loop (happ (u ++ t))]
      exact hu t
    | stop q w progress =>
      rw [parse_of_stop hturn] at h
      obtain ⟨rfl, rfl, rfl⟩ : q = p' ∧ w = rest ∧ progress = .complete := by simpa using h
      obtain ⟨hs, rfl, rfl⟩ := turn_eq_complete hturn
      exact ⟨[], rfl, fun t => parse_of_stop (by simp [turn, hs]), rfl, rfl⟩

/-- What follows a request in the buffer has no part in it: the parser finds the same request
before any other bytes, leaves exactly those, and is then as good as new. -/
theorem pipelined_of_complete {maxHeaderBytes maxBodyBytes : ℕ} {w s : List Char}
    (h : (fresh maxHeaderBytes maxBodyBytes).parse w = (p, s, .complete)) :
    ∃ u, w = u ++ s ∧ ∀ t, ∃ p',
      (fresh maxHeaderBytes maxBodyBytes).parse (u ++ t) = (p', t, .complete) ∧
        p'.request = p.request ∧
        p'.reset.parse t = (fresh maxHeaderBytes maxBodyBytes).parse t := by
  obtain ⟨u, hw, hu, hhead, hbody⟩ := parse_complete_append h
  refine ⟨u, hw, fun t => ⟨p, hu t, rfl, ?_⟩⟩
  have hreset : p.reset = fresh maxHeaderBytes maxBodyBytes := by
    rw [reset, hhead, hbody]
    rfl
  rw [hreset]

/-- A chunked request before the start of another one. -/
theorem pipelined_of_complete_chunked : ∃ (p : HttpRequestParser) (u : List Char),
    u = "POST / HTTP/1.1\r\nTransfer-Encoding: chunked\r\n\r\n2\r\nhi\r\n0\r\n\r\n".toList ∧
      p.request.body = "hi".toList ∧
      ∀ t, ∃ p', (fresh 65536 100).parse (u ++ t) = (p', t, .complete) ∧
        p'.request = p.request ∧ p'.reset.parse t = (fresh 65536 100).parse t := by
  let u := "POST / HTTP/1.1\r\nTransfer-Encoding: chunked\r\n\r\n2\r\nhi\r\n0\r\n\r\n".toList
  let s := "GET".toList
  have hbody : ((fresh 65536 100).parse (u ++ s)).1.request.body = "hi".toList := by
    decide +kernel
  have hrest : ((fresh 65536 100).parse (u ++ s)).2 = (s, .complete) := by decide +kernel
  obtain ⟨u', hu', hall⟩ := pipelined_of_complete (Prod.ext rfl hrest)
  obtain rfl := List.append_cancel_right hu'
  exact ⟨_, u, rfl, hbody, hall⟩

end HttpRequestParser

end Codicis
