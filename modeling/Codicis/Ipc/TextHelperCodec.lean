/-
The text codec of the helper protocol (`ipc/helper_codec.cc`).

A record is a run of lines `key=value` that an empty line ends.  Nothing is escaped: the
codec relies on its callers to keep line ends out of what they send.  A byte is a character
here; nothing depends on which characters there are besides those that the codec names.

`decode_encode` says exactly what comes back of a message without line feeds, and
`decode_noLf` that no other message comes back from anything.
-/
import Codicis.Ipc.Message
import Codicis.Lib.Cut
import Codicis.Lib.Fallible
import Codicis.Lib.Decimal
import Codicis.Lib.Resumable

namespace Codicis

namespace TextHelperCodec

/-- Cap on a record that has no end yet. -/
def maxTextRecord : ℕ := 64 * 1024 * 1024

/-- Drop one trailing carriage return. -/
def trimCr (s : List Char) : List Char := if s.getLast? = some '\r' then s.dropLast else s

/-- The lines of a message. -/
def lines (msg : HelperMessage) : List (List Char) :=
  ("req_id".toList ++ '=' :: (toString msg.reqId).toList) ::
    ("type".toList ++ '=' :: msg.type.toList) ::
      msg.fields.map fun kv => kv.1.toList ++ '=' :: kv.2.toList

/-- The bytes of some lines, each with its line feed. -/
def joined (ls : List (List Char)) : List Char := ls.flatMap (· ++ ['\n'])

/-- A blank line terminates the record. -/
def encode (msg : HelperMessage) : List Char := joined (lines msg) ++ ['\n']

/-- Outcome of a decode attempt; a complete message is consumed. -/
inductive HelperDecode
  | incomplete
  | complete (msg : HelperMessage) (rest : List Char)
  | error (err : String)
deriving DecidableEq, Repr

def HelperDecode.isError : HelperDecode → Bool
  | .error _ => true
  | _ => false

/-- The digits of a `req_id`; overflow is rejected. -/
def reqIdDigits (v : ℕ) : List Char → Except String ℕ
  | [] => .ok v
  | c :: cs =>
    if c < '0' ∨ '9' < c then .error "text codec: bad req_id"
    else if (2 ^ 64 - 1 - (c.toNat - '0'.toNat)) / 10 < v then
      .error "text codec: req_id overflow"
    else reqIdDigits (v * 10 + (c.toNat - '0'.toNat)) cs

/-- A `req_id` has at most as many digits as the largest one. -/
def parseReqId (value : List Char) : Except String ℕ :=
  if value = [] ∨ 20 < value.length then .error "text codec: bad req_id" else reqIdDigits 0 value

/-- A line that is not blank, on the message so far and whether its `req_id` is known.  The
parser of the `req_id` and the text of the error are those of the codec. -/
def scanField (parse : List Char → Except String ℕ) (noEq : String) (sc : HelperMessage × Bool)
    (line : List Char) : Except String (HelperMessage × Bool) :=
  match cutAt ['='] line with
  | none => .error noEq
  | some (key, value) =>
    if key = "req_id".toList then (parse value).map fun n => ({ sc.1 with reqId := n }, true)
    else if key = "type".toList then .ok ({ sc.1 with type := String.ofList value }, sc.2)
    else .ok (sc.1.set (String.ofList key) (String.ofList value), sc.2)

/-- One line of a record; blank ones are skipped. -/
def scanLine (sc : HelperMessage × Bool) (line : List Char) :
    Except String (HelperMessage × Bool) :=
  if trimCr line = [] then .ok sc
  else scanField parseReqId "text codec: line without '='" sc (trimCr line)

/-- A message must have a `req_id`. -/
def finish (missing : String) (sc : HelperMessage × Bool) : Except String HelperMessage :=
  if sc.2 = true then .ok sc.1 else .error missing

/-- The message of a record. -/
def decodeBlock (block : List Char) : Except String HelperMessage :=
  (block.splitOn '\n').foldlM scanLine ({}, false) >>= finish "text codec: missing req_id"

/-- Decode one record from the buffer. -/
def decode (v : List Char) : HelperDecode :=
  match cutAt ['\n', '\n'] v with
  | none =>
    if maxTextRecord < v.length then
      .error "text codec: record exceeds cap without terminator"
    else .incomplete
  | some (block, rest) =>
    match decodeBlock block with
    | .ok msg => .complete msg rest
    | .error err => .error err

/-! ### Trailing carriage returns -/

@[simp] lemma trimCr_nil : trimCr [] = [] := by simp [trimCr]

lemma trimCr_concat (s : List Char) (d : Char) :
    trimCr (s ++ [d]) = if d = '\r' then s else s ++ [d] := by
  simp [trimCr]

lemma trimCr_append_cons (k : List Char) {c : Char} (hc : c ≠ '\r') (v : List Char) :
    trimCr (k ++ c :: v) = k ++ c :: trimCr v := by
  rcases List.eq_nil_or_concat' v with rfl | ⟨v, d, rfl⟩
  · rw [trimCr_concat, if_neg hc, trimCr_nil]
  · rw [show k ++ c :: (v ++ [d]) = (k ++ c :: v) ++ [d] by simp, trimCr_concat, trimCr_concat]
    split_ifs <;> simp

lemma trimCr_eq_self_iff {s : List Char} : trimCr s = s ↔ s.getLast? ≠ some '\r' := by
  rcases List.eq_nil_or_concat' s with rfl | ⟨s, d, rfl⟩
  · simp
  · by_cases hd : d = '\r' <;> simp [trimCr_concat, hd]

lemma trimCr_subset (s : List Char) : trimCr s ⊆ s := by
  unfold trimCr
  split_ifs
  · exact List.dropLast_subset s
  · exact List.Subset.refl s

/-! ### The end of a record -/

/-- A line without line feeds is passed over. -/
lemma cutAt_noLf {l : List Char} (hl : '\n' ∉ l) (w : List Char) :
    cutAt ['\n', '\n'] (l ++ w) = (cutAt ['\n', '\n'] w).map fun r => (l ++ r.1, r.2) := by
  induction l with
  | nil => simp
  | cons c l ih =>
    have hc : ¬ '\n' = c := fun h => hl (h ▸ List.mem_cons_self)
    rw [List.cons_append, cutAt, if_neg (by simp [List.isPrefixOf, hc]),
      ih fun h => hl (by simp [h]), Option.map_map]
    rfl

/-- A line feed that is followed by something else is passed over. -/
lemma cutAt_lf {c : Char} (hc : c ≠ '\n') (w : List Char) :
    cutAt ['\n', '\n'] ('\n' :: c :: w)
      = (cutAt ['\n', '\n'] (c :: w)).map fun r => ('\n' :: r.1, r.2) := by
  rw [cutAt, if_neg (by simp [List.isPrefixOf, hc.symm])]

/-- The blank line behind some lines ends the record. -/
theorem cutAt_joined {ls : List (List Char)} (hne : ls ≠ []) (hls : ∀ l ∈ ls, l ≠ [] ∧ '\n' ∉ l)
    (w : List Char) :
    cutAt ['\n', '\n'] (joined ls ++ '\n' :: w) = some (['\n'].intercalate ls, w) := by
  induction ls with
  | nil => exact absurd rfl hne
  | cons l ls ih =>
    have hl := (hls l (by simp)).2
    rw [joined, List.flatMap_cons, ← joined, List.append_assoc, List.append_assoc,
      cutAt_noLf hl]
    cases ls with
    | nil => simp [joined, cutAt, List.isPrefixOf, List.intercalate]
    | cons l' ls =>
      obtain ⟨c, l'', rfl⟩ := List.exists_cons_of_ne_nil (hls l' (by simp)).1
      have hc : c ≠ '\n' := fun h => (hls (c :: l'') (by simp)).2 (by simp [h])
      have hih := ih (by simp) fun l hl => hls l (by simp [hl])
      simp only [joined, List.flatMap_cons, List.cons_append, List.nil_append,
        List.append_assoc] at hih ⊢
      rw [cutAt_lf hc, hih]
      simp [List.intercalate]

lemma notMem_of_mem_splitOn {β : Type} [BEq β] [LawfulBEq β] {x : β} {xs l : List β}
    (h : l ∈ xs.splitOn x) : x ∉ l := by
  induction xs generalizing l with
  | nil => simp_all [List.splitOn]
  | cons y ys ih =>
    rw [List.splitOn, List.splitOnP_cons_eq_if_modifyHead] at h
    obtain ⟨z, zs, hz⟩ := List.exists_cons_of_ne_nil (List.splitOnP_ne_nil (· == x) ys)
    rw [List.splitOn, hz] at ih
    rw [hz] at h
    split_ifs at h with hy
    · rcases List.mem_cons.1 h with rfl | h
      · simp
      · exact ih h
    · rcases List.mem_cons.1 h with rfl | h
      · have hxy : ¬ x = y := fun e => hy (by simp [e])
        simp [hxy, ih (List.mem_cons_self)]
      · exact ih (List.mem_cons_of_mem _ h)

/-! ### The fields of a record -/

section Fields

variable {parse : List Char → Except String ℕ} {noEq : String} {sc sc' : HelperMessage × Bool}

/-- A line `key=value`. -/
lemma scanField_line {key : List Char} (hkey : '=' ∉ key) (value : List Char) :
    scanField parse noEq sc (key ++ '=' :: value)
      = if key = "req_id".toList then (parse value).map fun n => ({ sc.1 with reqId := n }, true)
        else if key = "type".toList then .ok ({ sc.1 with type := String.ofList value }, sc.2)
        else .ok (sc.1.set (String.ofList key) (String.ofList value), sc.2) := by
  rw [scanField, cutAt_singleton_iff.2 ⟨rfl, hkey⟩]

lemma scanLine_line {key : List Char} (hkey : '=' ∉ key) (value : List Char) :
    scanLine sc (key ++ '=' :: value)
      = if key = "req_id".toList then
          (parseReqId (trimCr value)).map fun n => ({ sc.1 with reqId := n }, true)
        else if key = "type".toList then
          .ok ({ sc.1 with type := String.ofList (trimCr value) }, sc.2)
        else .ok (sc.1.set (String.ofList key) (String.ofList (trimCr value)), sc.2) := by
  rw [scanLine, trimCr_append_cons _ (by decide), if_neg (by simp), scanField_line hkey]

end Fields

/-- Digits are read as the number that they write, if it fits. -/
lemma reqIdDigits_eq (cs : List Char) (h : ∀ c ∈ cs, c.isDigit = true) (v : ℕ)
    (hv : Nat.ofDigitChars 10 cs v < 2 ^ 64) :
    reqIdDigits v cs = .ok (Nat.ofDigitChars 10 cs v) := by
  induction cs generalizing v with
  | nil => rfl
  | cons c cs ih =>
    rw [Nat.ofDigitChars_cons, Nat.mul_comm] at hv ⊢
    have hle := le_ofDigitChars cs (v * 10 + (c.toNat - '0'.toNat))
    rw [reqIdDigits, if_neg (isDigit_iff.1 (h c (by simp))), if_neg (by omega),
      ih (fun c' hc' => h c' (by simp [hc'])) _ hv]

/-- What is written as a decimal number is read back. -/
lemma parseReqId_toString {n : ℕ} (hn : n < 2 ^ 64) :
    parseReqId (toString n).toList = .ok n := by
  have hlist : (toString n).toList = Nat.toDigits 10 n := Nat.toList_repr
  have hlen : (Nat.toDigits 10 n).length ≤ 20 :=
    Nat.toDigits_length 10 n 20 (by decide) (hn.trans (by decide))
  have hval : Nat.ofDigitChars 10 (Nat.toDigits 10 n) 0 = n := Nat.ofDigitChars_ten_toDigits
  rw [hlist, parseReqId, if_neg, reqIdDigits_eq, hval]
  · exact fun c hc => Nat.isDigit_of_mem_toDigits (by decide) (by decide) hc
  · rwa [hval]
  · rw [not_or]
    exact ⟨Nat.toDigits_ne_nil, by omega⟩

lemma trimCr_toString (n : ℕ) : trimCr (toString n).toList = (toString n).toList :=
  trimCr_eq_self_iff.2 fun h => notMem_toString n rfl (List.mem_of_getLast? h)

/-- The values of a message have no line feed. -/
def NoLf (msg : HelperMessage) : Prop :=
  '\n' ∉ msg.type.toList ∧ ∀ kv ∈ msg.fields, '\n' ∉ kv.2.toList

/-- The keys of a message can be told from the values and from the reserved keys. -/
def KeysOk (msg : HelperMessage) : Prop :=
  ∀ key ∈ msg.fields.map Prod.fst,
    '\n' ∉ key.toList ∧ '=' ∉ key.toList ∧ key ≠ "req_id" ∧ key ≠ "type"

/-- A message whose values have lost a trailing carriage return. -/
def trimmed (msg : HelperMessage) : HelperMessage :=
  { msg with type := String.ofList (trimCr msg.type.toList),
             fields := msg.fields.map fun kv => (kv.1, String.ofList (trimCr kv.2.toList)) }

section RoundTrip

variable {msg : HelperMessage}

lemma lines_noLf (hk : KeysOk msg) (hn : NoLf msg) : ∀ l ∈ lines msg, l ≠ [] ∧ '\n' ∉ l := by
  intro l hl
  simp only [lines, List.mem_cons, List.mem_map] at hl
  rcases hl with rfl | rfl | ⟨kv, hkv, rfl⟩
  · have hid := notMem_toString msg.reqId (show '\n'.isDigit = false by decide)
    refine ⟨by simp, fun h => ?_⟩
    rcases List.mem_append.1 h with h | h
    · exact absurd h (by decide)
    · exact hid ((List.mem_cons.1 h).resolve_left (by decide))
  · exact ⟨by simp, by simp [hn.1]⟩
  · exact ⟨by simp, by simp [(hk kv.1 (List.mem_map_of_mem hkv)).1, hn.2 kv hkv]⟩

/-- The lines of the fields append the fields. -/
lemma foldlM_fields {fields : List (String × String)}
    (hk : ∀ key ∈ fields.map Prod.fst, '=' ∉ key.toList ∧ key ≠ "req_id" ∧ key ≠ "type")
    (sc : HelperMessage × Bool) :
    (fields.map fun kv => kv.1.toList ++ '=' :: kv.2.toList).foldlM scanLine sc
      = .ok ({ sc.1 with fields := sc.1.fields ++
                fields.map fun kv => (kv.1, String.ofList (trimCr kv.2.toList)) }, sc.2) := by
  induction fields generalizing sc with
  | nil => simp [pure, Except.pure]
  | cons kv fields ih =>
    obtain ⟨heq, hreq, htype⟩ := hk kv.1 (by simp)
    have hreq' : kv.1.toList ≠ "req_id".toList := fun h => hreq (String.toList_inj.1 h)
    have htype' : kv.1.toList ≠ "type".toList := fun h => htype (String.toList_inj.1 h)
    rw [List.map_cons, List.foldlM_cons, scanLine_line heq, if_neg hreq', if_neg htype']
    simp only [bind, Except.bind]
    rw [ih fun key hkey => hk key (List.mem_cons_of_mem _ hkey)]
    simp [HelperMessage.set]

/-- A message without line feeds comes back, but for trailing carriage returns, and what
stands behind it stays. -/
theorem decode_encode (hk : KeysOk msg) (hn : NoLf msg) (hid : msg.reqId < 2 ^ 64)
    (w : List Char) : decode (encode msg ++ w) = .complete (trimmed msg) w := by
  have hlines := lines_noLf hk hn
  have hblock : decodeBlock (['\n'].intercalate (lines msg)) = .ok (trimmed msg) := by
    rw [decodeBlock, List.splitOn_intercalate _ (fun l hl => (hlines l hl).2) (by simp [lines]),
      lines, List.foldlM_cons, scanLine_line (by decide), if_pos rfl, trimCr_toString,
      parseReqId_toString hid]
    simp only [Except.map, bind, Except.bind]
    rw [List.foldlM_cons, scanLine_line (by decide), if_neg (by decide), if_pos rfl]
    simp only [bind, Except.bind]
    rw [foldlM_fields fun key hkey => (hk key hkey).2]
    simp [finish, trimmed]
  rw [decode, encode, List.append_assoc, List.singleton_append,
    cutAt_joined (by simp [lines]) hlines]
  simp only [hblock]

end RoundTrip

/-! ### What is decoded has no line feeds -/

section Decoded

variable {parse : List Char → Except String ℕ} {noEq : String} {sc sc' : HelperMessage × Bool}
  {line : List Char}

lemma scanField_noLf (hline : '\n' ∉ line) (h : NoLf sc.1)
    (hs : scanField parse noEq sc line = .ok sc') : NoLf sc'.1 := by
  unfold scanField at hs
  split at hs
  · cases hs
  · next key value hcut =>
      have hvalue : '\n' ∉ value := by
        rw [(cutAt_singleton_iff.1 hcut).1] at hline
        exact fun hv => hline (by simp [hv])
      split_ifs at hs
      · obtain ⟨n, -, rfl⟩ := map_eq_ok_iff.1 hs
        exact h
      · obtain rfl := Except.ok.inj hs
        exact ⟨by simpa using hvalue, h.2⟩
      · obtain rfl := Except.ok.inj hs
        refine ⟨h.1, List.forall_mem_append.2 ⟨h.2, List.forall_mem_singleton.2 ?_⟩⟩
        simpa using hvalue

lemma scanLine_noLf (hline : '\n' ∉ line) (h : NoLf sc.1) (hs : scanLine sc line = .ok sc') :
    NoLf sc'.1 := by
  unfold scanLine at hs
  split_ifs at hs
  · obtain rfl := Except.ok.inj hs
    exact h
  · exact scanField_noLf (fun hl => hline (trimCr_subset _ hl)) h hs

/-- Whatever the bytes are, no value of a decoded message has a line feed. -/
theorem noLf_of_decode {v rest : List Char} {msg : HelperMessage}
    (h : decode v = .complete msg rest) : NoLf msg := by
  unfold decode at h
  split at h
  · split_ifs at h
  · next block rest' hcut =>
      split at h
      · next msg' hblock =>
          obtain ⟨rfl, rfl⟩ := HelperDecode.complete.inj h
          obtain ⟨sc, hscan, hfin⟩ := bind_eq_ok hblock
          have hstart : NoLf {} := ⟨List.not_mem_nil, by simp⟩
          have hsc : NoLf sc.1 := by
            refine foldlM_invariant (I := fun sc => NoLf sc.1) hscan hstart ?_
            intro sc line sc' hline hI hs
            exact scanLine_noLf (notMem_of_mem_splitOn hline) hI hs
          unfold finish at hfin
          split_ifs at hfin
          exact Except.ok.inj hfin ▸ hsc
      · cases h

end Decoded

/-! ### Records in a buffer -/

/-- A record that is complete has been cut off the buffer. -/
lemma decode_eq_complete_iff {v rest : List Char} {msg : HelperMessage} :
    decode v = .complete msg rest ↔
      ∃ block, cutAt ['\n', '\n'] v = some (block, rest) ∧ decodeBlock block = .ok msg := by
  cases hcut : cutAt ['\n', '\n'] v with
  | none => by_cases hcap : maxTextRecord < v.length <;> simp [decode, hcut, hcap]
  | some r =>
    obtain ⟨block, rest'⟩ := r
    cases hblock : decodeBlock block with
    | error err => simp [decode, hcut, hblock]
    | ok msg' => simp [decode, hcut, hblock, and_comm]

/-- More bytes behind a record do not change it. -/
lemma decode_append {v rest : List Char} {msg : HelperMessage} (h : decode v = .complete msg rest)
    (w : List Char) : decode (v ++ w) = .complete msg (rest ++ w) := by
  obtain ⟨block, hcut, hblock⟩ := decode_eq_complete_iff.1 h
  exact decode_eq_complete_iff.2 ⟨block, cutAt_append (by simp) hcut w, hblock⟩

lemma length_lt_of_decode {v rest : List Char} {msg : HelperMessage}
    (h : decode v = .complete msg rest) : rest.length < v.length := by
  obtain ⟨block, hcut, -⟩ := decode_eq_complete_iff.1 h
  have hlen := cutAt_length (by simp) hcut
  simp only [List.length_cons, List.length_nil] at hlen
  omega

end TextHelperCodec

/-! ### The stream of records -/

open TextHelperCodec (HelperDecode)

/-- The wire codec of a helper. -/
structure HelperCodec where
  encode : HelperMessage → List Char
  decode : List Char → HelperDecode
  length_lt : ∀ {v msg rest}, decode v = .complete msg rest → rest.length < v.length
  decode_append : ∀ {v msg rest}, decode v = .complete msg rest → ∀ w,
    decode (v ++ w) = .complete msg (rest ++ w)

namespace HelperCodec

def text : HelperCodec where
  encode := TextHelperCodec.encode
  decode := TextHelperCodec.decode
  length_lt := TextHelperCodec.length_lt_of_decode
  decode_append := TextHelperCodec.decode_append

lemma text_decode : text.decode = TextHelperCodec.decode := rfl

variable (codec : HelperCodec)

/-- One attempt to decode, as a turn of a parser. -/
def turn (v : List Char) : Resumable.Move Unit Char HelperMessage :=
  match codec.decode v with
  | .incomplete => .wait () v
  | .complete msg rest => .go () rest (some msg)
  | .error _ => .fail

variable {codec} {v rest : List Char} {msg : HelperMessage}

lemma turn_eq_go_iff {out : Option HelperMessage} : codec.turn v = .go () rest out ↔
    ∃ msg, codec.decode v = .complete msg rest ∧ out = some msg := by
  cases hd : codec.decode v <;> simp [turn, hd, eq_comm]

variable (codec) in
/-- Decoding again and again. -/
def parser : Resumable.Parser Unit Char HelperMessage where
  turn _ v := codec.turn v
  measure _ v := v.length
  decreases := by
    intro s v s' rest out h
    obtain ⟨msg, hmsg, -⟩ := turn_eq_go_iff.1 h
    exact codec.length_lt hmsg

/-- Bytes that are one record. -/
lemma run_of_decode (hnil : codec.decode [] = .incomplete) (h : codec.decode v = .complete msg []) :
    codec.parser.run () v = ⟨[msg], v.length, some ((), [])⟩ := by
  have hwait : codec.parser.turn () [] = .wait () [] := by simp [parser, turn, hnil]
  rw [Resumable.Parser.run_go (turn_eq_go_iff.2 ⟨msg, h, rfl⟩), Resumable.Parser.run_wait hwait]
  simp [Resumable.Verdict.after]

/-- The first message of a run is the one that is decoded first. -/
lemma decode_of_run {msgs : List HelperMessage} (h : (codec.parser.run () v).outs = msg :: msgs) :
    ∃ rest, codec.decode v = .complete msg rest := by
  cases hturn : codec.parser.turn () v with
  | go s rest out =>
    obtain ⟨msg', hmsg, rfl⟩ := turn_eq_go_iff.1 hturn
    rw [Resumable.Parser.run_go hturn] at h
    obtain rfl : msg' = msg := (List.cons.inj h).1
    exact ⟨rest, hmsg⟩
  | wait s rest => simp [Resumable.Parser.run_wait hturn] at h
  | fail => simp [Resumable.Parser.run_fail hturn] at h

end HelperCodec

end Codicis
