/-
The text codec of the Go helpers (`helpers/internal/wire/codec.go`), and whether it agrees
with the C++ one.

The Go reader takes line after line, and a line that is blank without its line end ends the
record.  The C++ codec looks for two line feeds in a row.  So they differ on a blank line that
ends in CRLF, and on a record without any line; and the C++ codec refuses a `req_id` that is
written with leading zeros in more than 20 characters.  `codecs_agree_iff` says that there is
no other difference.
-/
import Codicis.Ipc.CodecStreams

namespace Codicis

namespace GoWire

open TextHelperCodec (trimCr scanField finish joined)

/-- Cap on a record. -/
def maxRecord : ℕ := 64 * 1024 * 1024

/-- What a read returns in place of a message. -/
inductive ReadError
  | eof
  | unexpectedEof
  | tooLarge
  | malformed (text : String)
deriving DecidableEq, Repr

/-- The digits of `strconv.ParseUint` in base 10, for 64 bits. -/
def parseUintDigits (n : ℕ) : List Char → Except String ℕ
  | [] => .ok n
  | c :: cs =>
    if c < '0' ∨ '9' < c then .error "wire: bad req_id"
    else if (2 ^ 64 - 1) / 10 + 1 ≤ n then .error "wire: bad req_id"
    else if 2 ^ 64 - 1 < n * 10 + (c.toNat - '0'.toNat) then .error "wire: bad req_id"
    else parseUintDigits (n * 10 + (c.toNat - '0'.toNat)) cs

def parseUint (val : List Char) : Except String ℕ :=
  if val = [] then .error "wire: bad req_id" else parseUintDigits 0 val

/-- The lines of a record: how many bytes have been read, whether there was a line, the message
so far, and the bytes that are left. -/
def readLines : ℕ → ℕ → Bool → HelperMessage × Bool → List Char →
    Except ReadError (HelperMessage × List Char)
  | 0, _, _, _, _ => .error .unexpectedEof
  | n + 1, total, sawAny, sc, v =>
    match cutAt ['\n'] v with
    | none =>
      if maxRecord < total + v.length then .error .tooLarge
      else if sawAny = false ∧ v = [] then .error .eof
      else .error .unexpectedEof
    | some (line, rest) =>
      if maxRecord < total + (line.length + 1) then .error .tooLarge
      else if trimCr line = [] then
        match finish "wire: missing req_id" sc with
        | .ok msg => .ok (msg, rest)
        | .error text => .error (.malformed text)
      else
        match scanField parseUint "wire: line without '='" sc (trimCr line) with
        | .ok sc' => readLines n (total + (line.length + 1)) true sc' rest
        | .error text => .error (.malformed text)

/-- Decode the next record of a stream that ends. -/
def readMessage (v : List Char) : Except ReadError (HelperMessage × List Char) :=
  readLines (v.length + 1) 0 false ({}, false) v

/-- One read, as a turn of a parser; a clean end of the stream is no failure. -/
def turn (v : List Char) : Resumable.Move Unit Char HelperMessage :=
  match readMessage v with
  | .ok (msg, rest) => .go () rest (some msg)
  | .error .eof => .wait () v
  | .error _ => .fail

lemma readLines_length {n total : ℕ} {sawAny : Bool} {sc : HelperMessage × Bool}
    {v rest : List Char} {msg : HelperMessage}
    (h : readLines n total sawAny sc v = .ok (msg, rest)) : rest.length < v.length := by
  induction n generalizing total sawAny sc v with
  | zero => simp [readLines] at h
  | succ n ih =>
    rw [readLines] at h
    split at h
    · split_ifs at h
    · next line rest' hcut =>
        have hlen := cutAt_length (by simp) hcut
        simp only [List.length_singleton] at hlen
        split_ifs at h
        · split at h
          · obtain ⟨-, rfl⟩ := Prod.mk.inj (Except.ok.inj h)
            omega
          · cases h
        · split at h
          · have hrest := ih h
            omega
          · cases h

/-- Reading again and again. -/
def parser : Resumable.Parser Unit Char HelperMessage where
  turn _ v := turn v
  measure _ v := v.length
  decreases := by
    intro s v s' rest out h
    change turn v = _ at h
    unfold turn at h
    split at h
    · next msg rest' hread =>
        obtain ⟨-, rfl, -⟩ := Resumable.Move.go.inj h
        exact readLines_length hread
    · cases h
    · cases h

/-! ### The two parsers of a `req_id` -/

/-- The checks against overflow come to the same. -/
lemma parseUintDigits_eq_ok_iff {cs : List Char} {v n : ℕ} :
    parseUintDigits v cs = .ok n ↔ TextHelperCodec.reqIdDigits v cs = .ok n := by
  induction cs generalizing v with
  | nil => rfl
  | cons c cs ih =>
    rw [parseUintDigits, TextHelperCodec.reqIdDigits]
    by_cases hc : c < '0' ∨ '9' < c
    · simp [hc]
    · have hd : c.toNat - '0'.toNat ≤ 9 := by
        rw [not_or, Char.not_lt, Char.not_lt] at hc
        have h9 : c.toNat ≤ '9'.toNat := hc.2
        have h57 : '9'.toNat = 57 := rfl
        have h48 : '0'.toNat = 48 := rfl
        omega
      generalize c.toNat - '0'.toNat = d at hd ⊢
      by_cases hover : 2 ^ 64 - 1 < v * 10 + d
      · have h₁ : (2 ^ 64 - 1 - d) / 10 < v := by omega
        rw [if_neg hc, if_neg hc, if_pos h₁, if_pos hover]
        split_ifs <;> simp
      · have h₁ : ¬ (2 ^ 64 - 1 - d) / 10 < v := by omega
        have h₂ : ¬ (2 ^ 64 - 1) / 10 + 1 ≤ v := by omega
        rw [if_neg hc, if_neg hc, if_neg h₁, if_neg h₂, if_neg hover, ih]

/-- The C++ parser accepts what the Go parser accepts and what is not too long. -/
lemma parseReqId_eq_ok_iff {value : List Char} {n : ℕ} :
    TextHelperCodec.parseReqId value = .ok n ↔ parseUint value = .ok n ∧ value.length ≤ 20 := by
  rw [TextHelperCodec.parseReqId, parseUint]
  by_cases hnil : value = []
  · simp [hnil]
  · by_cases hlen : 20 < value.length
    · simp [hlen]
    · rw [if_neg (by simp [hnil, hlen]), if_neg hnil, parseUintDigits_eq_ok_iff]
      simp [not_lt.1 hlen]

/-! ### Records -/

/-- A blank line that ends in CRLF or in LF, without its line feed. -/
def blankLine (crlf : Bool) : List Char := if crlf = true then ['\r'] else []

/-- A record of a stream: its lines without their line feeds, none of which is blank, and
whether its blank line ends in CRLF. -/
structure Record where
  lines : List (List Char)
  crlf : Bool
  noLf : ∀ l ∈ lines, '\n' ∉ l
  nonblank : ∀ l ∈ lines, trimCr l ≠ []
  fits : (joined lines).length + ((blankLine crlf).length + 1) ≤ maxRecord

namespace Record

def bytes (r : Record) : List Char := joined r.lines ++ (blankLine r.crlf ++ ['\n'])

/-- The message that the Go reader makes of the lines. -/
def goMessage (r : Record) : Except String HelperMessage :=
  r.lines.foldlM (fun sc l => scanField parseUint "wire: line without '='" sc (trimCr l))
    ({}, false) >>= finish "wire: missing req_id"

/-- The message that the C++ codec makes of the lines. -/
def cppMessage (r : Record) : Except String HelperMessage :=
  r.lines.foldlM TextHelperCodec.scanLine ({}, false) >>= finish "text codec: missing req_id"

/-- No `req_id` is written with more than 20 characters. -/
def ShortIds (r : Record) : Prop :=
  ∀ l ∈ r.lines, ∀ value, cutAt ['='] (trimCr l) = some ("req_id".toList, value) →
    value.length ≤ 20

/-- There are lines, the blank line ends in LF, and if the record is well formed, then its
`req_id` is short. -/
structure Plain (r : Record) : Prop where
  lines : r.lines ≠ []
  lf : r.crlf = false
  short : ∀ msg, r.goMessage = .ok msg → r.ShortIds

end Record

/-- A stream that is made of records. -/
def stream (rs : List Record) : List Char := rs.flatMap Record.bytes

/-- Both codecs find the same messages and the first error at the same place. -/
def Agree (v : List Char) : Prop :=
  (parser.run () v).shows = (HelperCodec.text.parser.run () v).shows

variable {r : Record}

/-! ### The Go reader on a record -/

lemma cutAt_line {l : List Char} (hl : '\n' ∉ l) (w : List Char) :
    cutAt ['\n'] (l ++ '\n' :: w) = some (l, w) := cutAt_singleton_iff.2 ⟨rfl, hl⟩

lemma readLines_joined {ls : List (List Char)} (hnoLf : ∀ l ∈ ls, '\n' ∉ l)
    (hne : ∀ l ∈ ls, trimCr l ≠ []) {blank : List Char} (hblank : '\n' ∉ blank)
    (htrim : trimCr blank = []) (w : List Char) {n total : ℕ} (hn : ls.length < n)
    (htotal : total + (joined ls).length + (blank.length + 1) ≤ maxRecord) (sawAny : Bool)
    (sc : HelperMessage × Bool) :
    readLines n total sawAny sc (joined ls ++ (blank ++ '\n' :: w))
      = match ls.foldlM (fun sc l => scanField parseUint "wire: line without '='" sc (trimCr l)) sc
          >>= finish "wire: missing req_id" with
        | .ok msg => .ok (msg, w)
        | .error text => .error (.malformed text) := by
  induction ls generalizing n total sawAny sc with
  | nil =>
    obtain ⟨n, rfl⟩ : ∃ k, n = k + 1 := ⟨n - 1, by simp at hn; omega⟩
    simp only [joined, List.flatMap_nil, List.length_nil, Nat.add_zero] at htotal
    rw [joined, List.flatMap_nil, List.nil_append, readLines, cutAt_line hblank]
    simp only
    rw [if_neg (by omega), if_pos htrim]
    rfl
  | cons l ls ih =>
    obtain ⟨n, rfl⟩ : ∃ k, n = k + 1 := ⟨n - 1, by simp at hn; omega⟩
    have hjoined : joined (l :: ls) = l ++ '\n' :: joined ls := by simp [joined]
    simp only [hjoined, List.length_append, List.length_cons] at htotal hn
    rw [hjoined, List.append_assoc, List.cons_append, readLines, cutAt_line (hnoLf l (by simp))]
    simp only
    rw [if_neg (by omega), if_neg (hne l (by simp)), List.foldlM_cons]
    cases hscan : scanField parseUint "wire: line without '='" sc (trimCr l) with
    | error text => simp [bind, Except.bind]
    | ok sc' =>
      simp only [bind, Except.bind]
      exact ih (fun l hl => hnoLf l (by simp [hl])) (fun l hl => hne l (by simp [hl]))
        (by omega) (by omega) true sc'

lemma length_le_joined (ls : List (List Char)) : ls.length ≤ (joined ls).length := by
  induction ls with
  | nil => simp
  | cons l ls ih =>
    simp only [joined, List.flatMap_cons, List.length_append, List.length_cons] at ih ⊢
    omega

lemma notMem_blankLine (crlf : Bool) : '\n' ∉ blankLine crlf := by cases crlf <;> decide

lemma trimCr_blankLine (crlf : Bool) : trimCr (blankLine crlf) = [] := by cases crlf <;> decide

/-- The Go reader takes a record, whatever follows. -/
lemma readMessage_bytes (w : List Char) :
    readMessage (r.bytes ++ w) = match r.goMessage with
      | .ok msg => .ok (msg, w)
      | .error text => .error (.malformed text) := by
  rw [readMessage, Record.bytes, List.append_assoc, List.append_assoc, List.singleton_append]
  refine readLines_joined r.noLf r.nonblank (notMem_blankLine _) (trimCr_blankLine _) w ?_ ?_ _ _
  · have hle := length_le_joined r.lines
    simp only [List.length_append]
    omega
  · have hfits := r.fits
    omega

lemma turn_bytes (w : List Char) :
    turn (r.bytes ++ w) = match r.goMessage with
      | .ok msg => .go () w (some msg)
      | .error _ => .fail := by
  rw [turn, readMessage_bytes]
  cases r.goMessage <;> rfl

/-! ### The C++ codec on a record -/

lemma Record.ne_nil {l : List Char} (hl : l ∈ r.lines) : l ≠ [] := by
  rintro rfl
  exact r.nonblank [] hl TextHelperCodec.trimCr_nil

/-- The C++ codec takes a record with lines whose blank line is bare. -/
lemma cppTurn_bytes (hlines : r.lines ≠ []) (hlf : r.crlf = false) (w : List Char) :
    HelperCodec.text.turn (r.bytes ++ w) = match r.cppMessage with
      | .ok msg => .go () w (some msg)
      | .error _ => .fail := by
  have hcut := TextHelperCodec.cutAt_joined hlines
    (fun l hl => ⟨Record.ne_nil hl, r.noLf l hl⟩) w
  have hblock : TextHelperCodec.decodeBlock (['\n'].intercalate r.lines) = r.cppMessage := by
    rw [TextHelperCodec.decodeBlock, List.splitOn_intercalate _ r.noLf hlines]
    rfl
  rw [HelperCodec.turn, HelperCodec.text_decode, TextHelperCodec.decode, Record.bytes, hlf,
    blankLine]
  simp only [Bool.false_eq_true, if_false, List.nil_append, List.append_assoc,
    List.singleton_append, hcut, hblock]
  cases r.cppMessage <;> rfl

/-- Lines before a blank line in CRLF have no two line feeds in a row. -/
lemma cutAt_joined_crlf {ls : List (List Char)} (hls : ∀ l ∈ ls, l ≠ [] ∧ '\n' ∉ l) :
    cutAt ['\n', '\n'] (joined ls ++ ['\r', '\n']) = none := by
  induction ls with
  | nil => decide
  | cons l ls ih =>
    have hih := ih fun l hl => hls l (by simp [hl])
    obtain ⟨c, w, hc, hw⟩ : ∃ c w, c ≠ '\n' ∧ joined ls ++ ['\r', '\n'] = c :: w := by
      cases ls with
      | nil => exact ⟨'\r', ['\n'], by decide, rfl⟩
      | cons l' ls =>
        obtain ⟨hne, hnoLf⟩ := hls l' (by simp)
        obtain ⟨c, l'', rfl⟩ := List.exists_cons_of_ne_nil hne
        exact ⟨c, _, fun h => hnoLf (by simp [h]), by simp [joined]; rfl⟩
    have hjoined : joined (l :: ls) = l ++ '\n' :: joined ls := by simp [joined]
    rw [hjoined, List.append_assoc, List.cons_append, hw,
      TextHelperCodec.cutAt_noLf (hls l (by simp)).2, TextHelperCodec.cutAt_lf hc, ← hw, hih]
    rfl

/-- To the C++ codec other records are incomplete. -/
lemma cppTurn_incomplete (h : r.lines = [] ∨ r.crlf = true) :
    HelperCodec.text.turn r.bytes = .wait () r.bytes := by
  have hcut : cutAt ['\n', '\n'] r.bytes = none := by
    cases hcrlf : r.crlf with
    | true =>
      rw [Record.bytes, hcrlf]
      exact cutAt_joined_crlf fun l hl => ⟨Record.ne_nil hl, r.noLf l hl⟩
    | false =>
      have hnil := h.resolve_right (by simp [hcrlf])
      rw [Record.bytes, hcrlf, hnil]
      decide
  have hfits : ¬ TextHelperCodec.maxTextRecord < r.bytes.length := by
    have hfits := r.fits
    simp only [Record.bytes, List.length_append, List.length_singleton]
    exact not_lt.2 hfits
  simp [HelperCodec.turn, HelperCodec.text_decode, TextHelperCodec.decode, hcut, hfits]

/-! ### The two messages of a record -/

/-- The C++ codec accepts a line if the Go reader does and its `req_id` is short. -/
lemma scanField_eq_ok_iff (e e' : String) {sc sc' : HelperMessage × Bool} {l : List Char} :
    scanField TextHelperCodec.parseReqId e sc l = .ok sc' ↔ scanField parseUint e' sc l = .ok sc' ∧
      ∀ value, cutAt ['='] l = some ("req_id".toList, value) → value.length ≤ 20 := by
  unfold scanField
  cases hcut : cutAt ['='] l with
  | none => simp
  | some kv =>
    obtain ⟨key, value⟩ := kv
    by_cases hkey : key = "req_id".toList
    · subst hkey
      simp only [if_true, map_eq_ok_iff, parseReqId_eq_ok_iff, Option.some.injEq,
        Prod.mk.injEq, true_and, forall_eq']
      exact ⟨fun ⟨n, ⟨hn, hlen⟩, heq⟩ => ⟨⟨n, hn, heq⟩, hlen⟩,
        fun ⟨⟨n, hn, heq⟩, hlen⟩ => ⟨n, ⟨hn, hlen⟩, heq⟩⟩
    · simp only [if_false, Option.some.injEq, Prod.mk.injEq, hkey, false_and,
        IsEmpty.forall_iff, implies_true, and_true]

lemma foldlM_eq_ok_iff {ls : List (List Char)} (hne : ∀ l ∈ ls, trimCr l ≠ [])
    {sc sc' : HelperMessage × Bool} :
    ls.foldlM TextHelperCodec.scanLine sc = .ok sc' ↔
      ls.foldlM (fun sc l => scanField parseUint "wire: line without '='" sc (trimCr l)) sc
        = .ok sc' ∧
      ∀ l ∈ ls, ∀ value, cutAt ['='] (trimCr l) = some ("req_id".toList, value) →
        value.length ≤ 20 := by
  induction ls generalizing sc with
  | nil => simp
  | cons l ls ih =>
    have hih := fun sc => @ih (fun l hl => hne l (by simp [hl])) sc
    simp only [List.foldlM_cons, bind_eq_ok_iff, TextHelperCodec.scanLine,
      if_neg (hne l (by simp)), List.forall_mem_cons, hih,
      scanField_eq_ok_iff _ "wire: line without '='"]
    grind

/-- The codecs make the same of a record with short ids. -/
lemma Record.cppMessage_eq_ok_iff {msg : HelperMessage} :
    r.cppMessage = .ok msg ↔ r.goMessage = .ok msg ∧ r.ShortIds := by
  have hfin : ∀ sc, finish "text codec: missing req_id" sc = .ok msg ↔
      finish "wire: missing req_id" sc = .ok msg := by
    intro sc
    simp only [finish]
    split_ifs <;> simp
  simp only [cppMessage, goMessage, bind_eq_ok_iff, foldlM_eq_ok_iff r.nonblank, hfin, ShortIds]
  grind

/-- The Go reader reads back what the C++ codec has written. -/
theorem readMessage_encode {msg : HelperMessage} (h : TextHelperCodec.Writable msg)
    (w : List Char) : readMessage (TextHelperCodec.encode msg ++ w) = .ok (msg, w) := by
  have hlines := TextHelperCodec.lines_noLf h.keys h.noLf
  have hblank : ∀ l ∈ TextHelperCodec.lines msg, trimCr l ≠ [] := by
    intro l hl
    simp only [TextHelperCodec.lines, List.mem_cons, List.mem_map] at hl
    rcases hl with rfl | rfl | ⟨kv, -, rfl⟩ <;>
    · rw [TextHelperCodec.trimCr_append_cons _ (by decide)]
      exact List.append_ne_nil_of_right_ne_nil _ (by simp)
  have hshort := h.short
  rw [TextHelperCodec.encode, List.length_append] at hshort
  let r : Record := ⟨TextHelperCodec.lines msg, false, fun l hl => (hlines l hl).2, hblank,
    hshort⟩
  have hcpp := cppTurn_bytes (r := r) (by simp [r, TextHelperCodec.lines]) rfl w
  rw [HelperCodec.turn_eq_go_iff.2 ⟨msg, h.decode w, rfl⟩] at hcpp
  have hmsg : r.cppMessage = .ok msg := by
    cases hmsg : r.cppMessage <;> simp_all
  have hread := readMessage_bytes (r := r) w
  rw [(Record.cppMessage_eq_ok_iff.1 hmsg).1] at hread
  exact hread

end GoWire

namespace TextHelperCodec

/-- The bytes are those of messages that the codec can carry. -/
def Carries (v : List Char) (msgs : List HelperMessage) : Prop :=
  v = msgs.flatMap encode ∧ ∀ msg ∈ msgs, Writable msg

variable {v : List Char} {msg : HelperMessage} {msgs : List HelperMessage}

lemma carries_nil : Carries [] [] := ⟨rfl, by simp⟩

lemma Carries.concat (h : Carries v msgs) (hmsg : Writable msg) :
    Carries (v ++ encode msg) (msgs ++ [msg]) :=
  ⟨by simp [h.1], List.forall_mem_append.2 ⟨h.2, List.forall_mem_singleton.2 hmsg⟩⟩

lemma Carries.decode_nil (h : Carries v []) : TextHelperCodec.decode v = .incomplete := by
  rw [h.1]
  decide

lemma Carries.decode_cons (h : Carries v (msg :: msgs)) :
    ∃ w, TextHelperCodec.decode v = .complete msg w ∧ Carries w msgs := by
  rw [Carries, List.flatMap_cons, List.forall_mem_cons] at h
  exact ⟨_, h.1 ▸ h.2.1.decode _, rfl, h.2.2⟩

lemma Carries.readMessage_nil (h : Carries v []) : GoWire.readMessage v = .error .eof := by
  rw [h.1]
  decide

lemma Carries.readMessage_cons (h : Carries v (msg :: msgs)) :
    ∃ w, GoWire.readMessage v = .ok (msg, w) ∧ Carries w msgs := by
  rw [Carries, List.flatMap_cons, List.forall_mem_cons] at h
  exact ⟨_, h.1 ▸ GoWire.readMessage_encode h.2.1 _, rfl, h.2.2⟩

end TextHelperCodec

namespace GoWire

/-! ### Agreement -/

variable {r : Record}

lemma turn_nil : turn [] = .wait () [] := by decide

lemma stream_cons (rs : List Record) : stream (r :: rs) = r.bytes ++ stream rs := by
  simp [stream]

/-- Both codecs take a plain record in the same way. -/
lemma Record.Plain.turn_eq (h : r.Plain) (w : List Char) :
    turn (r.bytes ++ w) = HelperCodec.text.turn (r.bytes ++ w) := by
  rw [turn_bytes, cppTurn_bytes h.lines h.lf]
  cases hgo : r.goMessage with
  | ok msg => rw [Record.cppMessage_eq_ok_iff.2 ⟨hgo, h.short msg hgo⟩]
  | error e =>
    cases hcpp : r.cppMessage with
    | ok msg => simp [(Record.cppMessage_eq_ok_iff.1 hcpp).1] at hgo
    | error e' => rfl

/-- Codecs that take the same turn and agree on what remains agree. -/
lemma agree_of_turn {v : List Char} (hturn : turn v = HelperCodec.text.turn v)
    (hrest : ∀ rest out, turn v = .go () rest out → Agree rest) : Agree v := by
  have hcpp : HelperCodec.text.parser.turn () v = turn v := hturn.symm
  unfold Agree
  cases hgo : parser.turn () v with
  | go s rest out =>
    rw [Resumable.Parser.run_go hgo, Resumable.Parser.run_go (hcpp.trans hgo),
      Resumable.Verdict.shows_after, Resumable.Verdict.shows_after, hrest rest out hgo]
  | wait s rest =>
    rw [Resumable.Parser.run_wait hgo, Resumable.Parser.run_wait (hcpp.trans hgo)]
  | fail => rw [Resumable.Parser.run_fail hgo, Resumable.Parser.run_fail (hcpp.trans hgo)]

/-- The codecs agree on plain records. -/
theorem agree_of_plain {rs : List Record} (h : ∀ r ∈ rs, r.Plain) : Agree (stream rs) := by
  induction rs with
  | nil =>
    exact agree_of_turn (by decide) fun rest out h => absurd (turn_nil.symm.trans h) (by simp)
  | cons r rs ih =>
    rw [stream_cons]
    refine agree_of_turn ((h r (by simp)).turn_eq _) fun rest out hgo => ?_
    rw [turn_bytes] at hgo
    cases hmsg : r.goMessage with
    | error e => simp [hmsg] at hgo
    | ok msg =>
      simp only [hmsg, Resumable.Move.go.injEq, true_and] at hgo
      exact hgo.1 ▸ ih fun r hr => h r (by simp [hr])

/-- A record on which the codecs agree is plain. -/
theorem Record.plain_of_agree (h : Agree r.bytes) : r.Plain := by
  have hgo : parser.turn () r.bytes = match r.goMessage with
      | .ok msg => .go () [] (some msg)
      | .error _ => .fail := by
    show turn r.bytes = _
    simpa using turn_bytes (r := r) []
  unfold Agree at h
  by_cases hplain : r.lines = [] ∨ r.crlf = true
  · -- the Go reader gives a message or an error, the C++ codec still waits
    rw [Resumable.Parser.run_wait (P := HelperCodec.text.parser) (cppTurn_incomplete hplain)] at h
    cases hmsg : r.goMessage with
    | ok msg =>
      rw [hmsg] at hgo
      rw [Resumable.Parser.run_go hgo, Resumable.Verdict.shows_after] at h
      simp [Resumable.Verdict.shows] at h
    | error e =>
      rw [hmsg] at hgo
      rw [Resumable.Parser.run_fail hgo] at h
      simp [Resumable.Verdict.shows] at h
  · rw [not_or, Bool.not_eq_true] at hplain
    refine ⟨hplain.1, hplain.2, fun msg hmsg => ?_⟩
    have hcpp : HelperCodec.text.parser.turn () r.bytes = match r.cppMessage with
        | .ok msg => .go () [] (some msg)
        | .error _ => .fail := by
      show HelperCodec.text.turn r.bytes = _
      simpa using cppTurn_bytes hplain.1 hplain.2 []
    cases hmsg' : r.cppMessage with
    | ok msg' => exact (Record.cppMessage_eq_ok_iff.1 hmsg').2
    | error e =>
      rw [hmsg] at hgo
      rw [hmsg'] at hcpp
      rw [Resumable.Parser.run_go hgo, Resumable.Parser.run_fail hcpp,
        Resumable.Verdict.shows_after] at h
      simp [Resumable.Verdict.shows] at h

/-- The codecs agree on all streams that are made of certain records exactly if these records
are plain. -/
theorem codecs_agree_iff (R : Record → Prop) :
    (∀ rs, (∀ r ∈ rs, R r) → Agree (stream rs)) ↔ ∀ r, R r → r.Plain := by
  constructor
  · intro h r hr
    have hagree := h [r] (by simpa using hr)
    rw [stream_cons, stream, List.flatMap_nil, List.append_nil] at hagree
    exact Record.plain_of_agree hagree
  · exact fun h rs hrs => agree_of_plain fun r hr => h r (hrs r hr)

/-- A record in CRLF throughout: the Go reader reads it, to the C++ codec it never ends. -/
theorem codecs_disagree_crlf : ∃ r : Record,
    r.bytes = "req_id=1\r\ntype=commit\r\n\r\n".toList ∧
    (parser.run () (stream [r])).shows = ([⟨1, "commit", []⟩], none) ∧
    (HelperCodec.text.parser.run () (stream [r])).shows = ([], none) ∧ ¬ Agree (stream [r]) := by
  refine ⟨⟨["req_id=1\r".toList, "type=commit\r".toList], true, by decide, by decide,
    by decide⟩, by decide +kernel, by decide +kernel, by decide +kernel, ?_⟩
  unfold Agree
  decide +kernel

end GoWire

end Codicis
